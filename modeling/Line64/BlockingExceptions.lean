import Mathlib.Data.Fintype.Basic
import Line64.BlockingConservation
import Line64.BlockingWakeup

/-!
# The blocking queue with throwing elements

Copying, moving, assigning and allocating an element may throw. Inside the
mutex this is the copy into `queue_`, or the move out of its front: the queue
keeps its contents, the lock is released by its destructor, and the
notification behind the body is skipped. Behind the mutex it is the move into
the optional that `pop` returns: the item has left the queue by then.

The log keeps the critical sections of the calls that did not throw.
-/

namespace Line64.BlockingExceptions

open Function Result Transition Census BlockingModel BlockingWakeup BlockingConservation

variable {τ α : Type}

/-- A scheduled step. -/
inductive Action (τ α : Type)
  /-- A step without an exception. -/
  | step (a : BlockingModel.Action τ α)
  /-- The element operation under the mutex throws. -/
  | throwBody (t : τ)
  /-- The move into the returned optional throws. -/
  | throwReturn (t : τ)

/-- The answer of a critical section that copies or moves an element. -/
def movesElement : Answer α → Bool
  | .pushed status => status=.success
  | .popped item => item.isSome
  | .tried status _ => status=.success
  | .closed => false

section Model

variable [DecidableEq τ]

/-- Drop the last critical section of a thread. -/
def forget (t : τ) (log : List (Event τ α)) : List (Event τ α) :=
  (log.reverse.eraseP fun e => e.thread=t).reverse

/-- An exception leaves the critical section of an operation. -/
def raiseInside (q : Capacity) (s : State τ α) (t : τ) (op : Op α) : Option (State τ α) :=
  match critical q s.queue s.closed op with
  | none => none
  | some ran =>
    if movesElement ran.answer then
      some {s with owner := none, thread := update s.thread t .idle}
    else none

variable [Fintype τ]

/-- One scheduled step of the whole system. -/
def step (q : Capacity) (s : State τ α) : Action τ α → Option (State τ α)
  | .step a => BlockingModel.step q s a
  | .throwBody t =>
    match s.thread t with
    | .inside op _ => raiseInside q s t op
    | _ => none
  | .throwReturn t =>
    match s.thread t with
    | .leaving [] (.popped (some _)) =>
      some {s with thread := update s.thread t .idle, log := forget t s.log}
    | _ => none

/-- The queue under every interleaving of its threads, with exceptions. -/
def system (q : Capacity) (τ α : Type) [DecidableEq τ] [Fintype τ] :
    System (State τ α) (Action τ α) where
  init := init τ α
  step := step q

/-- Threads on their way to the waiters of a condition variable, without `t`. -/
def othersInFlight (s : State τ α) (t : τ) (c : Condition) : Finset τ :=
  Finset.univ.filter fun u => u≠t ∧ inFlight c (s.thread u)=true

/-- Where an exception does no harm. The move into the returned optional does
not throw. A thread that was woken by a notification of an open queue throws
in its body only if nobody else waits, or if the threads in flight suffice
without it. -/
def Harmless (q : Capacity) (s : State τ α) : Action τ α → Prop
  | .step _ => True
  | .throwBody t => s.closed=false → ∀ c,woken c (s.thread t)=true →
      (∃ u,(s.thread u).blocked c=true) → tokens q s.queue c≤(othersInFlight s t c).card
  | .throwReturn _ => False

end Model

section Step

variable [DecidableEq τ] {q : Capacity} {s s' : State τ α} {t : τ}

/-- An exception under the mutex changes its thread and the owner only. -/
theorem raiseInside_cases {op : Op α} (hs : raiseInside q s t op=some s') :
    s'={s with owner := none, thread := update s.thread t .idle} := by
  unfold raiseInside at hs
  split at hs
  · cases hs
  · split at hs <;> cases hs
    rfl

variable [Fintype τ]

/-- The threads in flight cover the waiters without the one that throws. -/
theorem Covered.raise {c : Condition} {op : Op α} {was : Bool} (h : Covered q s c)
    (ht : s.thread t=.inside op was) (hharmless : Harmless q s (.throwBody t))
    (hthread : s'.thread=update s.thread t .idle) (hqueue : s'.queue=s.queue)
    (hclosed : s'.closed=s.closed) : Covered q s' c := by
  cases hwoken : woken c (s.thread t) with
  | false =>
    refine h.set hthread hqueue hclosed (.of_quiet ?_ ?_ rfl)
    · rw [ht] at hwoken ⊢
      simpa [inFlight,notifies] using hwoken
    · rw [ht]
      rfl
  | true =>
    have hblocked : ∀ u,(s'.thread u).blocked c=true → (s.thread u).blocked c=true := by
      intro u hu
      rw [hthread] at hu
      by_cases hut : u=t
      · rw [hut,update_self] at hu
        cases hu
      · rwa [update_of_ne hut] at hu
    refine ⟨?_,h.broadcast_kept hclosed hblocked ?_⟩
    · rintro hopen ⟨u,hu⟩
      rw [hclosed] at hopen
      rw [hqueue]
      refine ⟨othersInFlight s t c,hharmless hopen c hwoken ⟨u,hblocked u hu⟩,?_⟩
      intro v hv
      obtain ⟨-,hne,hflight⟩ := Finset.mem_filter.mp hv
      rw [hthread,update_of_ne hne]
      exact hflight
    · intro u hu
      have hut : u≠t := by
        intro he
        rw [he,ht] at hu
        cases hu
      rw [hthread,update_of_ne hut]
      exact hu

/-- A harmless exception throws under the mutex, at a thread whose waiters
stay covered. -/
theorem step_cases {a : Action τ α} (hs : step q s a=some s') (hharmless : Harmless q s a) :
    (∃ base,BlockingModel.step q s base=some s') ∨
      (s'.queue=s.queue ∧ s'.closed=s.closed ∧ s'.log=s.log ∧
        ∀ c,Covered q s c → Covered q s' c) := by
  cases a with
  | step base => exact .inl ⟨base,hs⟩
  | throwBody t =>
    right
    simp only [step] at hs
    split at hs
    · rename_i op was ht
      obtain rfl := raiseInside_cases hs
      exact ⟨rfl,rfl,rfl,fun c hcovered => Covered.raise hcovered ht hharmless rfl rfl rfl⟩
    · cases hs
  | throwReturn t => exact absurd hharmless id

/-- What holds while every exception is harmless. -/
structure Survives (q : Capacity) (s : State τ α) : Prop where
  /-- The items are conserved. -/
  conserved : Conserved q s.queue s.closed s.log
  /-- The waiters are covered. -/
  covered : ∀ c,Covered q s c

/-- Every step keeps it. -/
theorem Survives.step {a : Action τ α} (h : Survives q s)
    (hs : BlockingExceptions.step q s a=some s') (hharmless : Harmless q s a) :
    Survives q s' := by
  rcases step_cases hs hharmless with ⟨base,hbase⟩ | ⟨hqueue,hclosed,hlog,hcovered⟩
  · exact ⟨h.conserved.step hbase,fun c => (h.covered c).step hbase⟩
  · refine ⟨?_,fun c => hcovered c (h.covered c)⟩
    rw [hqueue,hclosed,hlog]
    exact h.conserved

end Step

section Results

variable [DecidableEq τ] [Fintype τ]

/-- While every exception is harmless, the accepted items are the delivered
ones followed by the queue, and no state in which every thread is idle or
blocked leaves a waiter whose predicate is true. -/
theorem harmless_exceptions_survived (q : Capacity) {s : State τ α}
    (h : Guarded (system q τ α) (Harmless q) s) :
    accepted s.log=delivered s.log++s.queue ∧
      (Quiet s → ∀ (c : Condition) (t : τ),(s.thread t).blocked c=true → ¬Ready q s c) := by
  have hsurvives : Survives q s := by
    refine Guarded.invariant (I:=Survives q) ?_ ?_ h
    · exact ⟨conserved_init q,fun c => covered_of_unblocked fun _ => rfl⟩
    · intro s a s' _ hi hharmless hs
      exact hi.step hs hharmless
  exact ⟨hsurvives.conserved.items,fun hquiet c t ht => (hsurvives.covered c).not_ready hquiet ht⟩

end Results

/-- The two condition variables. -/
instance : Fintype Condition where
  elems := {.notEmpty,.notFull}
  complete := by
    intro c
    cases c <;> decide

/-- Harmlessness can be evaluated. -/
instance [DecidableEq τ] [Fintype τ] (q : Capacity) (s : State τ α) (a : Action τ α) :
    Decidable (Harmless q s a) :=
  match a with
  | .step _ => isTrue trivial
  | .throwBody _ => inferInstanceAs (Decidable (_ → ∀ _,_ → _ → _))
  | .throwReturn _ => isFalse id

/-- A schedule without exceptions, of three threads. -/
def unthrown (schedule : List (BlockingModel.Action (Fin 3) ℕ)) : List (Action (Fin 3) ℕ) :=
  schedule.map .step

/-- While thread 0 waits in `pop`, the copy of a push throws. The next push
succeeds and wakes the waiter, whose move throws. -/
def harmlessThrows : List (Action (Fin 3) ℕ) :=
  unthrown (callRuns 0 .pop 2++callRuns 1 (.push 6) 1)++[.throwBody 1]++
  unthrown (callRuns 1 (.push 7) 3++[.notify 1 0,.run 1,.run 0])++[.throwBody 0]

/-- A run with two harmless exceptions. -/
theorem harmless_exceptions_survived_twice :
    Guarded (system (.ofSucc _ 0) (Fin 3) ℕ) (Harmless (.ofSucc _ 0))
      (run (system (.ofSucc _ 0) (Fin 3) ℕ) harmlessThrows) ∧
    (run (system (.ofSucc _ 0) (Fin 3) ℕ) harmlessThrows).queue=[7] ∧
    accepted (run (system (.ofSucc _ 0) (Fin 3) ℕ) harmlessThrows).log=
      delivered (run (system (.ofSucc _ 0) (Fin 3) ℕ) harmlessThrows).log++
        (run (system (.ofSucc _ 0) (Fin 3) ℕ) harmlessThrows).queue := by
  have hguarded : Guarded (system (.ofSucc _ 0) (Fin 3) ℕ) (Harmless (.ofSucc _ 0))
      (run (system (.ofSucc _ 0) (Fin 3) ℕ) harmlessThrows) :=
    runFrom_guarded .init (by decide +kernel)
  exact ⟨hguarded,by decide +kernel,(harmless_exceptions_survived _ hguarded).1⟩

/-- Threads 0 and 1 wait in `pop`, a push wakes thread 0, and its move throws. -/
def strandingThrow : List (Action (Fin 3) ℕ) :=
  unthrown (callRuns 0 .pop 2++callRuns 1 .pop 2++callRuns 2 (.push 7) 3++
    [.notify 2 0,.run 2,.run 0])++[.throwBody 0]

/-- An item is pushed, and the move of the popped item into the returned
optional throws. -/
def losingThrow : List (Action (Fin 3) ℕ) :=
  unthrown (callRuns 0 (.push 7) 5++callRuns 0 .pop 4)++[.throwReturn 0]

/-- An exception strands a waiter whose predicate is true, and another loses
an accepted item. -/
theorem exceptions_strand_and_lose :
    (Quiet (run (system (.ofSucc _ 0) (Fin 3) ℕ) strandingThrow) ∧
      ((run (system (.ofSucc _ 0) (Fin 3) ℕ) strandingThrow).thread 1).blocked .notEmpty=true ∧
      Ready (.ofSucc _ 0) (run (system (.ofSucc _ 0) (Fin 3) ℕ) strandingThrow) .notEmpty) ∧
    accepted (run (system (.ofSucc _ 0) (Fin 3) ℕ) losingThrow).log=[7] ∧
    delivered (run (system (.ofSucc _ 0) (Fin 3) ℕ) losingThrow).log=[] ∧
    (run (system (.ofSucc _ 0) (Fin 3) ℕ) losingThrow).queue=[] := by
  refine ⟨⟨?_,by decide +kernel,.inr (by decide +kernel)⟩,by decide +kernel,by decide +kernel,
    by decide +kernel⟩
  unfold Quiet
  decide +kernel

end Line64.BlockingExceptions
