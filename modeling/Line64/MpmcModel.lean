import Mathlib.Algebra.Group.Nat.Defs
import Line64.FixedMessageAccess
import Line64.Transition

/-!
# The bounded MPMC queue, one access at a time

`try_push`, `try_pop` and `empty` of `MPMCQueue`, cut at every atomic access
and at every access of a cell message. A call is a process of its own that
is started once and keeps its result, so a thread is any set of calls that
do not overlap and every schedule of threads is a schedule of calls. The
weak compare-exchange may fail although the counter has the expected value.

Every sum the code computes passes through the parameter `word`. The
identity is the operating domain in which no counter is exhausted.
-/

namespace Line64.MpmcModel

open Function Result FixedMessageAccess Transition

/-- The constructor's capacity check. -/
def validateCapacity (capacity : ℕ) : Except String ℕ :=
  if capacity<2 ∨ capacity&&&(capacity-1)≠0 then
    .error "MPMCQueue capacity must be a power of two greater than one"
  else .ok capacity

/-- A capacity that passed the check of the constructor. -/
structure Ring where
  /-- Number of cells. -/
  capacity : ℕ
  /-- The constructor did not throw. -/
  accepted : validateCapacity capacity=.ok capacity

/-- The constant `mask_`. -/
def Ring.mask (q : Ring) : ℕ := q.capacity-1

/-- Cell used by a position. -/
def Ring.index (q : Ring) (position : ℕ) : ℕ := position&&&q.mask

/-- The smallest ring the constructor accepts. -/
def Ring.smallest : Ring := ⟨2,rfl⟩

/-- An accepted capacity is a positive power of two. -/
theorem Ring.capacity_eq_pow (q : Ring) : ∃ k,1≤k ∧ q.capacity=2^k := by
  have h := q.accepted
  unfold validateCapacity at h
  split at h
  · cases h
  · rename_i hc
    rw [not_or,not_not,Nat.not_lt] at hc
    obtain ⟨k,hk⟩ := (Nat.and_sub_one_eq_zero_iff_isPowerOfTwo (by omega)).mp hc.2
    refine ⟨k,?_,hk⟩
    rcases Nat.eq_zero_or_pos k with rfl | hpos
    · omega
    · exact hpos

/-- An accepted ring has at least two cells. -/
theorem Ring.two_le (q : Ring) : 2≤q.capacity := by
  obtain ⟨k,hk,he⟩ := q.capacity_eq_pow
  rw [he]
  exact Nat.le_self_pow (by omega) 2

/-- Masking is the remainder by the capacity. -/
theorem Ring.index_eq_mod (q : Ring) (position : ℕ) : q.index position=position%q.capacity := by
  obtain ⟨k,-,he⟩ := q.capacity_eq_pow
  rw [Ring.index,Ring.mask,he,Nat.and_two_pow_sub_one_eq_mod]

/-- A ring cell. -/
structure Cell (N : ℕ) where
  /-- Atomic generation number. -/
  sequence : ℕ
  /-- Ordinary, unsynchronised message. -/
  message : FixedMessage N

/-- Program points of `try_push`, each with the local `position` it keeps. -/
inductive PushPc
  /-- Load `enqueue_pos_`. -/
  | loadPosition
  /-- Load the sequence of the cell at `position`. -/
  | loadSequence (position : ℕ)
  /-- Weak compare-exchange of `enqueue_pos_`. -/
  | compareExchange (position : ℕ)
  /-- Inside `message.assign`. -/
  | assign (position : ℕ) (pc : AssignPc)
  /-- Store `position+1` to the cell sequence. -/
  | publish (position : ℕ) (result : WriteResult)
  deriving DecidableEq, Repr

/-- A push call: not started, in progress, or returned. -/
inductive PushCall
  | idle
  | running (payload : List Byte) (pc : PushPc)
  | returned (payload : List Byte) (position : Option ℕ) (result : WriteResult)
  deriving DecidableEq, Repr

/-- Program points of `try_pop`, each with the local `position` it keeps. -/
inductive PopPc
  /-- Load `dequeue_pos_`. -/
  | loadPosition
  /-- Load the sequence of the cell at `position`. -/
  | loadSequence (position : ℕ)
  /-- Weak compare-exchange of `dequeue_pos_`. -/
  | compareExchange (position : ℕ)
  /-- Inside `message.copy_to`. -/
  | copy (position : ℕ) (pc : CopyPc)
  /-- Store `position+capacity` to the cell sequence. -/
  | release (position : ℕ) (result : ReadResult)
  deriving DecidableEq, Repr

/-- A pop call with the destination it was given and its present contents. -/
inductive PopCall
  | idle
  | running (original destination : List Byte) (pc : PopPc)
  | returned (original destination : List Byte) (position : Option ℕ) (result : ReadResult)
  deriving DecidableEq, Repr

/-- A call of `empty`. -/
inductive EmptyCall
  | idle
  | loadPosition
  | loadSequence (position : ℕ)
  | returned (position : ℕ) (answer : Bool)
  deriving DecidableEq, Repr

/-- Shared memory and the local variables of all calls. -/
structure State (ι : Type) (N : ℕ) where
  /-- Ring cells; only indices below the capacity are used. -/
  cells : ℕ → Cell N
  /-- Atomic `enqueue_pos_`. -/
  enqueuePos : ℕ
  /-- Atomic `dequeue_pos_`. -/
  dequeuePos : ℕ
  /-- Push calls by name. -/
  push : ι → PushCall
  /-- Pop calls by name. -/
  pop : ι → PopCall
  /-- Calls of `empty` by name. -/
  probe : ι → EmptyCall

/-- A scheduled step. The flag of a running call only matters at its
compare-exchange, where it requests a spurious failure. -/
inductive Action (ι : Type)
  | callPush (i : ι) (payload : List Byte)
  | push (i : ι) (spurious : Bool)
  | callPop (i : ι) (destination : List Byte)
  | pop (i : ι) (spurious : Bool)
  | callEmpty (i : ι)
  | empty (i : ι)

/-- The constructed queue, with each cell sequence equal to its index. -/
def init (ι : Type) (N : ℕ) : State ι N where
  cells := fun index => ⟨index,.initial N⟩
  enqueuePos := 0
  dequeuePos := 0
  push := fun _ => .idle
  pop := fun _ => .idle
  probe := fun _ => .idle

variable {ι : Type} [DecidableEq ι] {N : ℕ}

/-- Store one whole cell record. -/
def State.setCell (s : State ι N) (index : ℕ) (cell : Cell N) : State ι N :=
  {s with cells := update s.cells index cell}

/-- Replace the local variables of one push call. -/
def State.setPush (s : State ι N) (i : ι) (call : PushCall) : State ι N :=
  {s with push := update s.push i call}

/-- Replace the local variables of one pop call. -/
def State.setPop (s : State ι N) (i : ι) (call : PopCall) : State ι N :=
  {s with pop := update s.pop i call}

/-- Replace the local variables of one call of `empty`. -/
def State.setProbe (s : State ι N) (i : ι) (call : EmptyCall) : State ι N :=
  {s with probe := update s.probe i call}

/-- Program point after an access of `assign`, or after its early return. -/
def afterAssign (position : ℕ) : Progress AssignPc WriteResult → PushPc
  | .running pc => .assign position pc
  | .finished result => .publish position result

/-- Program point after an access of `copy_to`. -/
def afterCopy (position : ℕ) : Progress CopyPc ReadResult → PopPc
  | .running pc => .copy position pc
  | .finished result => .release position result

/-- Entry of `try_push`: oversized payloads are rejected before any access. -/
def enterPush (N : ℕ) (payload : List Byte) : PushCall :=
  if N<payload.length then .returned payload none ⟨.messageTooLarge,0⟩
  else .running payload .loadPosition

/-- One access of `try_push`. -/
def stepPush (word : ℕ → ℕ) (q : Ring) (s : State ι N) (i : ι) (payload : List Byte)
    (spurious : Bool) : PushPc → State ι N
  | .loadPosition => s.setPush i (.running payload (.loadSequence s.enqueuePos))
  | .loadSequence position =>
    let sequence := (s.cells (q.index position)).sequence
    if sequence=position then s.setPush i (.running payload (.compareExchange position))
    else if sequence<position then s.setPush i (.returned payload none ⟨.full,0⟩)
    else s.setPush i (.running payload .loadPosition)
  | .compareExchange position =>
    if s.enqueuePos=position ∧ spurious=false then
      {s with enqueuePos := word (position+1)}.setPush i
        (.running payload (afterAssign position (assignEnter N payload (word (position+1)))))
    else s.setPush i (.running payload (.loadSequence s.enqueuePos))
  | .assign position pc =>
    let cell := s.cells (q.index position)
    let access := assignStep payload (word (position+1)) cell.message pc
    (s.setCell (q.index position) {cell with message := access.1}).setPush i
      (.running payload (afterAssign position access.2))
  | .publish position result =>
    let cell := s.cells (q.index position)
    (s.setCell (q.index position) {cell with sequence := word (position+1)}).setPush i
      (.returned payload (some position) result)

/-- One access of `try_pop`. The cell is released whatever `copy_to` returned. -/
def stepPop (word : ℕ → ℕ) (q : Ring) (s : State ι N) (i : ι) (original destination : List Byte)
    (spurious : Bool) : PopPc → State ι N
  | .loadPosition => s.setPop i (.running original destination (.loadSequence s.dequeuePos))
  | .loadSequence position =>
    let sequence := (s.cells (q.index position)).sequence
    if sequence=word (position+1) then
      s.setPop i (.running original destination (.compareExchange position))
    else if sequence<word (position+1) then
      s.setPop i (.returned original destination none ⟨.empty,0,0⟩)
    else s.setPop i (.running original destination .loadPosition)
  | .compareExchange position =>
    if s.dequeuePos=position ∧ spurious=false then
      {s with dequeuePos := word (position+1)}.setPop i
        (.running original destination (.copy position .loadSize))
    else s.setPop i (.running original destination (.loadSequence s.dequeuePos))
  | .copy position pc =>
    let access := copyStep (s.cells (q.index position)).message destination pc
    s.setPop i (.running original access.1 (afterCopy position access.2))
  | .release position result =>
    let cell := s.cells (q.index position)
    (s.setCell (q.index position) {cell with sequence := word (position+q.capacity)}).setPop i
      (.returned original destination (some position) result)

/-- One scheduled step of the whole system. -/
def step (word : ℕ → ℕ) (q : Ring) (s : State ι N) : Action ι → Option (State ι N)
  | .callPush i payload =>
    match s.push i with
    | .idle => some (s.setPush i (enterPush N payload))
    | _ => none
  | .push i spurious =>
    match s.push i with
    | .running payload pc => some (stepPush word q s i payload spurious pc)
    | _ => none
  | .callPop i destination =>
    match s.pop i with
    | .idle => some (s.setPop i (.running destination destination .loadPosition))
    | _ => none
  | .pop i spurious =>
    match s.pop i with
    | .running original destination pc =>
      some (stepPop word q s i original destination spurious pc)
    | _ => none
  | .callEmpty i =>
    match s.probe i with
    | .idle => some (s.setProbe i .loadPosition)
    | _ => none
  | .empty i =>
    match s.probe i with
    | .loadPosition => some (s.setProbe i (.loadSequence s.dequeuePos))
    | .loadSequence position =>
      let sequence := (s.cells (q.index position)).sequence
      some (s.setProbe i (.returned position (decide (sequence<word (position+1)))))
    | _ => none

/-- The queue under every interleaving of its calls. -/
def system (word : ℕ → ℕ) (q : Ring) (ι : Type) [DecidableEq ι] (N : ℕ) :
    System (State ι N) (Action ι) where
  init := init ι N
  step := step word q

/-- Position claimed by a push, from its compare-exchange on. -/
def PushCall.position : PushCall → Option ℕ
  | .running _ (.assign position _) => some position
  | .running _ (.publish position _) => some position
  | .returned _ position _ => position
  | _ => none

/-- Position claimed by a pop, from its compare-exchange on. -/
def PopCall.position : PopCall → Option ℕ
  | .running _ _ (.copy position _) => some position
  | .running _ _ (.release position _) => some position
  | .returned _ _ position _ => position
  | _ => none

/-- A push between its successful compare-exchange and its publishing store. -/
def PushCall.inPayload : PushCall → Prop
  | .running _ (.assign _ _) => True
  | .running _ (.publish _ _) => True
  | _ => False

/-- A pop between its successful compare-exchange and its releasing store. -/
def PopCall.inPayload : PopCall → Prop
  | .running _ _ (.copy _ _) => True
  | .running _ _ (.release _ _) => True
  | _ => False

/-- The claiming push has executed its publishing store. -/
def PushCall.Published (call : PushCall) (payload : List Byte) (position : ℕ) : Prop :=
  ∃ result,call=.returned payload (some position) result

/-- The claiming pop has executed its releasing store. -/
def PopCall.Released (call : PopCall) (position : ℕ) : Prop :=
  ∃ original destination result,call=.returned original destination (some position) result

end Line64.MpmcModel
