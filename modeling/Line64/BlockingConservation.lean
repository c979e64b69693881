import Mathlib.Data.List.Basic
import Line64.BlockingModel

/-!
# Items of the blocking queue across its closure

The critical sections, in the order in which they ran, tell which items were
accepted and which were delivered. The queue holds the difference, the
closure separates the accepted pushes from the refused ones, and a pop
reports the closure exactly when nothing is left to be delivered.
-/

namespace Line64.BlockingConservation

open Function Result Transition BlockingModel

variable {τ α : Type}

/-- Item accepted by a critical section. -/
def acceptedItem (e : Event τ α) : Option α :=
  match e.op,e.answer with
  | .push item,.pushed .success => some item
  | .tryPush item,.pushed .success => some item
  | _,_ => none

/-- Item delivered by a critical section. -/
def deliveredItem (e : Event τ α) : Option α :=
  match e.answer with
  | .popped item => item
  | .tried .success item => item
  | _ => none

/-- Accepted items, in the order of the pushing critical sections. -/
def accepted (log : List (Event τ α)) : List α := log.filterMap acceptedItem

/-- Delivered items, in the order of the popping critical sections. -/
def delivered (log : List (Event τ α)) : List α := log.filterMap deliveredItem

/-- The critical section of `close` has run. -/
def Closed (log : List (Event τ α)) : Prop := ∃ e ∈ log,e.op=.close

/-- The operation removes an item. -/
def Pops (e : Event τ α) : Prop := e.op=.pop ∨ e.op=.tryPop

/-- The end of the queue is reported: `pop` returns `nullopt`, or `try_pop`
returns `closed`. -/
def Declined (e : Event τ α) : Prop :=
  (e.op=.pop ∧ e.answer=.popped none) ∨ (e.op=.tryPop ∧ e.answer=.tried .closed none)

/-- What a critical section does to the queue and the flag, and its answer. -/
inductive Does (q : Capacity) (queue : List α) (closed : Bool) :
    Op α → List α → Bool → Answer α → Prop
  /-- A push finds the queue closed. -/
  | refused {op : Op α} {item : α} (hop : op=.push item ∨ op=.tryPush item)
      (hclosed : closed=true) : Does q queue closed op queue closed (.pushed .closed)
  /-- `try_push` finds the queue full. -/
  | full {item : α} (hopen : closed=false) (hfull : queue.length=q.capacity) :
      Does q queue closed (.tryPush item) queue closed (.pushed .full)
  /-- A push adds its item. -/
  | added {op : Op α} {item : α} (hop : op=.push item ∨ op=.tryPush item) (hopen : closed=false)
      (hroom : queue.length≠q.capacity) :
      Does q queue closed op (queue++[item]) closed (.pushed .success)
  /-- `pop` finds the queue closed and empty. -/
  | drained (hclosed : closed=true) (hempty : queue=[]) :
      Does q queue closed .pop [] closed (.popped none)
  /-- `pop` removes the front. -/
  | popped {item : α} {rest : List α} (hqueue : queue=item::rest) :
      Does q queue closed .pop rest closed (.popped (some item))
  /-- `try_pop` finds the queue empty. -/
  | missed (hempty : queue=[]) :
      Does q queue closed .tryPop [] closed (.tried (if closed then .closed else .empty) none)
  /-- `try_pop` removes the front. -/
  | tried {item : α} {rest : List α} (hqueue : queue=item::rest) :
      Does q queue closed .tryPop rest closed (.tried .success (some item))
  /-- `close` sets the flag. -/
  | closes : Does q queue closed .close queue true .closed

/-- Every critical section is one of these. -/
theorem does_of_critical {q : Capacity} {queue : List α} {closed : Bool} {op : Op α} {ran : Ran α}
    (h : critical q queue closed op=some ran) :
    Does q queue closed op ran.queue ran.closed ran.answer := by
  cases op with
  | push item =>
    simp only [critical] at h
    split at h
    · rename_i hready
      split at h <;> cases h
      · rename_i hclosed
        exact .refused (.inl rfl) hclosed
      · rename_i hopen
        have hroom : queue.length<q.capacity := hready.resolve_left hopen
        exact .added (.inl rfl) (Bool.not_eq_true _ ▸ hopen) hroom.ne
    · cases h
  | tryPush item =>
    simp only [critical] at h
    split at h
    · rename_i hclosed
      cases h
      exact .refused (.inr rfl) hclosed
    · rename_i hopen
      split at h <;> cases h
      · rename_i hfull
        exact .full (Bool.not_eq_true _ ▸ hopen) hfull
      · rename_i hroom
        exact .added (.inr rfl) (Bool.not_eq_true _ ▸ hopen) hroom
  | pop =>
    simp only [critical] at h
    split at h
    · rename_i hready
      split at h <;> cases h
      · exact .drained (hready.resolve_right (not_not.mpr rfl)) rfl
      · exact .popped rfl
    · cases h
  | tryPop =>
    simp only [critical] at h
    split at h <;> cases h
    · exact .missed rfl
    · exact .tried rfl
  | close =>
    cases h
    exact .closes

/-- One more accepted item, or none. -/
theorem accepted_append (log : List (Event τ α)) (e : Event τ α) :
    accepted (log++[e])=accepted log++(acceptedItem e).toList := by
  rw [accepted,List.filterMap_append]
  cases h : acceptedItem e <;> simp [accepted,h]

/-- One more delivered item, or none. -/
theorem delivered_append (log : List (Event τ α)) (e : Event τ α) :
    delivered (log++[e])=delivered log++(deliveredItem e).toList := by
  rw [delivered,List.filterMap_append]
  cases h : deliveredItem e <;> simp [delivered,h]

/-- The closure is one of the earlier critical sections or the last one. -/
theorem closed_append (log : List (Event τ α)) (e : Event τ α) :
    Closed (log++[e]) ↔ Closed log ∨ e.op=.close := by
  simp only [Closed,List.mem_append,List.mem_singleton,or_and_right,exists_or,exists_eq_left]

/-- What a critical section shows about those that ran before it. -/
structure Lawful (q : Capacity) (before : List (Event τ α)) (e : Event τ α) : Prop where
  /-- A push that returns full found the queue open with exactly `capacity`
  items. -/
  full : e.answer=.pushed .full →
    ¬Closed before ∧ (accepted before).length=(delivered before).length+q.capacity
  /-- A push that succeeds ran before the closure. -/
  success : e.answer=.pushed .success → ¬Closed before
  /-- A pop reports the end exactly when the queue is closed and every accepted
  item has been delivered. -/
  declined : Pops e → (Declined e ↔ Closed before ∧ accepted before=delivered before)
  /-- Once the end has been reported, every pop reports it. -/
  forever : Pops e → (∃ e' ∈ before,Declined e') → Declined e

/-- Contents and flag of the queue, read off the log. -/
structure Conserved (q : Capacity) (queue : List α) (closed : Bool) (log : List (Event τ α)) :
    Prop where
  /-- Accepted items are the delivered ones followed by the queue. -/
  items : accepted log=delivered log++queue
  /-- The queue holds at most `capacity` items. -/
  bounded : queue.length≤q.capacity
  /-- The flag is set by `close`. -/
  flag : closed=true ↔ Closed log
  /-- Once the end has been reported, the queue is closed and empty. -/
  ended : (∃ e ∈ log,Declined e) → closed=true ∧ queue=[]

/-- The constructed queue. -/
theorem conserved_init (q : Capacity) : Conserved q ([] : List α) false ([] : List (Event τ α)) where
  items := rfl
  bounded := Nat.zero_le _
  flag := ⟨nofun,by rintro ⟨e,he,-⟩; cases he⟩
  ended := by
    rintro ⟨e,he,-⟩
    cases he

section Sections

variable {q : Capacity} {queue queue' : List α} {closed closed' : Bool} {log : List (Event τ α)}
  {op : Op α} {answer : Answer α}

/-- The queue is empty exactly if every accepted item has been delivered. -/
theorem Conserved.empty_iff (h : Conserved q queue closed log) :
    queue=[] ↔ accepted log=delivered log := by
  rw [h.items,List.append_right_eq_self]

/-- Number of items in the queue. -/
theorem Conserved.length_eq (h : Conserved q queue closed log) :
    (accepted log).length=(delivered log).length+queue.length := by
  rw [h.items,List.length_append]

/-- An open queue has not been closed. -/
theorem Conserved.not_closed (h : Conserved q queue closed log) (hopen : closed=false) :
    ¬Closed log := by
  rw [← h.flag,hopen]
  exact nofun

/-- A critical section conserves the items. -/
theorem Conserved.run (h : Conserved q queue closed log)
    (hdoes : Does q queue closed op queue' closed' answer) (t : τ) :
    Conserved q queue' closed' (log++[⟨t,op,answer⟩]) := by
  have hitems := h.items
  have hbounded := h.bounded
  have hflag := h.flag
  have hended := h.ended
  constructor
  · rw [accepted_append,delivered_append,hitems]
    cases hdoes with
    | refused hop hclosed => rcases hop with rfl | rfl <;> simp [acceptedItem,deliveredItem]
    | added hop hopen hroom => rcases hop with rfl | rfl <;> simp [acceptedItem,deliveredItem]
    | drained hclosed hempty => simp [acceptedItem,deliveredItem,hempty]
    | popped hqueue => simp [acceptedItem,deliveredItem,hqueue]
    | missed hempty => cases closed <;> simp [acceptedItem,deliveredItem,hempty]
    | tried hqueue => simp [acceptedItem,deliveredItem,hqueue]
    | _ => simp [acceptedItem,deliveredItem]
  · cases hdoes with
    | added hop hopen hroom =>
      rw [List.length_append,List.length_singleton]
      omega
    | popped hqueue =>
      rw [hqueue,List.length_cons] at hbounded
      omega
    | tried hqueue =>
      rw [hqueue,List.length_cons] at hbounded
      omega
    | drained hclosed hempty => exact Nat.zero_le _
    | missed hempty => exact Nat.zero_le _
    | _ => exact hbounded
  · rw [closed_append,← hflag]
    cases hdoes with
    | refused hop hclosed => rcases hop with rfl | rfl <;> simp
    | added hop hopen hroom => rcases hop with rfl | rfl <;> simp
    | _ => simp
  · rintro ⟨e,hmem,hdeclined⟩
    rcases List.mem_append.mp hmem with hold | hnew
    · obtain ⟨hclosed,hempty⟩ := hended ⟨e,hold,hdeclined⟩
      cases hdoes with
      | refused _ _ => exact ⟨hclosed,hempty⟩
      | full _ _ => exact ⟨hclosed,hempty⟩
      | added _ hopen _ =>
        rw [hclosed] at hopen
        cases hopen
      | drained _ _ => exact ⟨hclosed,rfl⟩
      | popped hqueue =>
        rw [hempty] at hqueue
        cases hqueue
      | missed _ => exact ⟨hclosed,rfl⟩
      | tried hqueue =>
        rw [hempty] at hqueue
        cases hqueue
      | closes => exact ⟨rfl,hempty⟩
    · cases List.mem_singleton.mp hnew
      cases hdoes with
      | drained hclosed hempty => exact ⟨hclosed,rfl⟩
      | missed hempty =>
        cases closed with
        | true => exact ⟨rfl,rfl⟩
        | false => simp [Declined] at hdeclined
      | _ => simp [Declined] at hdeclined

/-- A critical section obeys the laws. -/
theorem Conserved.lawful (h : Conserved q queue closed log)
    (hdoes : Does q queue closed op queue' closed' answer) (t : τ) :
    Lawful q log ⟨t,op,answer⟩ := by
  have hempty_iff := h.empty_iff
  have hflag := h.flag
  have hdeclined : Pops ⟨t,op,answer⟩ →
      (Declined ⟨t,op,answer⟩ ↔ Closed log ∧ accepted log=delivered log) := by
    intro hpops
    rw [← hflag,← hempty_iff]
    cases hdoes with
    | refused hop hclosed => rcases hop with rfl | rfl <;> simp [Pops] at hpops
    | added hop hopen hroom => rcases hop with rfl | rfl <;> simp [Pops] at hpops
    | drained hclosed hempty => simp [Declined,hclosed,hempty]
    | popped hqueue => simp [Declined,hqueue]
    | missed hempty => cases closed <;> simp [Declined,hempty]
    | tried hqueue => simp [Declined,hqueue]
    | _ => simp [Pops] at hpops
  refine ⟨?_,?_,hdeclined,?_⟩
  · intro hfull
    cases hdoes with
    | full hopen hcount => exact ⟨h.not_closed hopen,by rw [h.length_eq,hcount]⟩
    | _ => cases hfull
  · intro hsuccess
    cases hdoes with
    | added hop hopen hroom => exact h.not_closed hopen
    | _ => cases hsuccess
  · intro hpops hearlier
    obtain ⟨hclosed,hempty⟩ := h.ended hearlier
    exact (hdeclined hpops).mpr ⟨hflag.mp hclosed,hempty_iff.mp hempty⟩

end Sections

/-- Conservation of items, as a property of one state of a run and of all
critical sections up to it. -/
structure ItemsConserved (q : Capacity) (s : State τ α) : Prop
    extends Conserved q s.queue s.closed s.log where
  /-- Every critical section obeys the laws. -/
  lawful : ∀ before e after,s.log=before++e::after → Lawful q before e

variable [DecidableEq τ] [Fintype τ] {q : Capacity} {s s' : State τ α} {a : Action τ α}

/-- A step runs a critical section or leaves queue, flag and log alone. -/
theorem step_does (hs : step q s a=some s') :
    (s'.queue=s.queue ∧ s'.closed=s.closed ∧ s'.log=s.log) ∨
      ∃ t op answer,Does q s.queue s.closed op s'.queue s'.closed answer ∧
        s'.log=s.log++[⟨t,op,answer⟩] := by
  obtain ⟨t,heffect⟩ := effect_of_step hs
  cases heffect with
  | body op was ran ht hran => exact .inr ⟨t,op,ran.answer,does_of_critical hran,rfl⟩
  | _ => exact .inl ⟨rfl,rfl,rfl⟩

/-- Every step conserves the items. -/
theorem Conserved.step (h : Conserved q s.queue s.closed s.log)
    (hs : BlockingModel.step q s a=some s') : Conserved q s'.queue s'.closed s'.log := by
  rcases step_does hs with ⟨hqueue,hclosed,hlog⟩ | ⟨t,op,answer,hdoes,hlog⟩
  · rw [hqueue,hclosed,hlog]
    exact h
  · rw [hlog]
    exact h.run hdoes t

/-- Every step keeps the laws of the critical sections. -/
theorem ItemsConserved.step (h : ItemsConserved q s) (hs : BlockingModel.step q s a=some s') :
    ItemsConserved q s' := by
  refine ⟨h.toConserved.step hs,?_⟩
  rcases step_does hs with ⟨-,-,hlog⟩ | ⟨t,op,answer,hdoes,hlog⟩
  · rw [hlog]
    exact h.lawful
  · intro before e after hsplit
    rw [hlog] at hsplit
    -- The new critical section is the last one of the log.
    rcases List.eq_nil_or_concat after with rfl | ⟨rest,last,rfl⟩
    · obtain ⟨rfl,he⟩ := List.append_inj' hsplit rfl
      cases he
      exact h.toConserved.lawful hdoes t
    · rw [List.concat_eq_append,← List.cons_append,← List.append_assoc] at hsplit
      exact h.lawful before e rest (List.append_inj' hsplit rfl).1

/-- Every interleaving of any number of threads conserves the items in order,
also across the closure. -/
theorem blocking_queue_conserves (q : Capacity) (h : Reachable (system q τ α) s) :
    ItemsConserved q s := by
  refine Reachable.invariant (I:=ItemsConserved q) ⟨conserved_init q,?_⟩ ?_ h
  · intro before e after hsplit
    exact absurd hsplit.symm (by simp [system,init])
  · intro s a s' _ hi hs
    exact hi.step hs

/-- A call, and the given number of statements of its thread. -/
def callRuns (t : τ) (op : Op α) (statements : ℕ) : List (BlockingModel.Action τ α) :=
  .call t op::List.replicate statements (.run t)

/-- A push fills the queue, another one blocks, `close` wakes it, and two pops
drain the queue. -/
def closedWhileBlocked : List (BlockingModel.Action Bool ℕ) :=
  callRuns false (.push 1) 5++callRuns false (.push 2) 2++callRuns true .close 6++
  List.replicate 4 (.run false)++callRuns true .pop 5++callRuns true .pop 4

/-- Conservation at a run in which a blocked push is refused by the closure. -/
theorem blocking_queue_conserves_closed :
    (run (system (.ofSucc _ 0) Bool ℕ) closedWhileBlocked).log=
      [⟨false,.push 1,.pushed .success⟩,⟨true,.close,.closed⟩,⟨false,.push 2,.pushed .closed⟩,
        ⟨true,.pop,.popped (some 1)⟩,⟨true,.pop,.popped none⟩] ∧
    ItemsConserved (.ofSucc _ 0) (run (system (.ofSucc _ 0) Bool ℕ) closedWhileBlocked) :=
  ⟨by decide +kernel,blocking_queue_conserves _ (run_reachable _ _)⟩

end Line64.BlockingConservation
