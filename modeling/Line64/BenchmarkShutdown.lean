import Mathlib.Data.Fintype.Basic
import Line64.SpscBenchmark
import Line64.WorkSharingBenchmark

/-!
# The end of a benchmark trial

A consumer whose pop finds nothing stops if the flag is set when it looks at
it. Payloads pushed between the pop and the look stay in the queue once every
consumer stops that way. A trial whose flag is set where the queue is empty or
some consumer is elsewhere delivers every payload.
-/

namespace Line64.BenchmarkShutdown

open Transition DrainProtocol BenchmarkConsumers

/-- While the flag is set safely, both kinds of trial end with every pushed
payload popped in order, and pass validation as long as the identifiers fit
their 64 bits. -/
theorem shutdown_drains (t : Trial) :
    (∀ s,Guarded (SpscBenchmark.system t) SpscBenchmark.FlagSafe s → SpscBenchmark.Exited s →
      s.shared.pushed.map Prod.snd=s.shared.popped.map Prod.snd ∧
        (s.id≤2^64 → (SpscBenchmark.result s).validationErrors=0)) ∧
    (∀ n m,∀ s,Guarded (WorkSharingBenchmark.system t n m) WorkSharingBenchmark.FlagSafe s →
      WorkSharingBenchmark.Exited s →
      s.shared.pushed.map Prod.snd=s.shared.popped.map Prod.snd ∧
        (s.nextId≤2^64 → (WorkSharingBenchmark.result s).validationErrors=0)) :=
  ⟨fun _ h hexited => SpscBenchmark.drained_of_safe h hexited,
    fun _ _ _ h hexited => WorkSharingBenchmark.drained_of_safe h hexited⟩

/-- Whether the flag may be set can be evaluated. -/
instance {m : ℕ} {β : Type} [DecidableEq β] (queue : List β) (phase : Fin m → Phase) :
    Decidable (MayClose queue phase) :=
  inferInstanceAs (Decidable (_ ∨ ∃ _,_))

instance (s : SpscBenchmark.State) (a : SpscBenchmark.Action) :
    Decidable (SpscBenchmark.FlagSafe s a) :=
  inferInstanceAs (Decidable (_ → _ → MayClose _ _))

instance {n m : ℕ} (s : WorkSharingBenchmark.State n m) (a : WorkSharingBenchmark.Action n m) :
    Decidable (WorkSharingBenchmark.FlagSafe s a) :=
  inferInstanceAs (Decidable (∀ _ : Fin n,_ → _ → MayClose _ _))

instance (s : SpscBenchmark.State) : Decidable (SpscBenchmark.Exited s) :=
  inferInstanceAs (Decidable (_ ∧ ∀ _,_))

instance {n m : ℕ} (s : WorkSharingBenchmark.State n m) :
    Decidable (WorkSharingBenchmark.Exited s) :=
  inferInstanceAs (Decidable ((∀ _,_) ∧ ∀ _,_))

/-- Two slots, and payloads that are headers only. -/
def headersOnly : Trial where
  capacity := 2
  payloadSize := 32
  header_le := by decide
  le_max := by decide
  random := fun _ _ => 0

/-- The payload is pushed and the flag set before the consumer starts. -/
def spscLateConsumer : List SpscBenchmark.Action :=
  [.producer,.producer,.stop,.producer,.producer,.consumer,.consumer,.consumer]

/-- A schedule in which threads take several steps in a row. -/
def turns (parts : List (ℕ × WorkSharingBenchmark.Action 2 2)) :
    List (WorkSharingBenchmark.Action 2 2) :=
  parts.flatMap fun part => List.replicate part.1 part.2

/-- One of two producers pushes a payload, and the other one sets the flag,
before two consumers start. -/
def sharedLateConsumers : List (WorkSharingBenchmark.Action 2 2) :=
  turns [(5,.producer 0),(1,.stop),(2,.producer 0),(3,.producer 1),(3,.consumer 0),(2,.consumer 1)]

/-- Two runs in which the flag is set safely. -/
theorem shutdown_drains_late :
    (run (SpscBenchmark.system headersOnly) spscLateConsumer).shared.pushed.length=1 ∧
    (SpscBenchmark.result (run (SpscBenchmark.system headersOnly)
      spscLateConsumer)).validationErrors=0 ∧
    (run (WorkSharingBenchmark.system headersOnly 2 2) sharedLateConsumers).shared.pushed.length=1 ∧
    (WorkSharingBenchmark.result (run (WorkSharingBenchmark.system headersOnly 2 2)
      sharedLateConsumers)).validationErrors=0 := by
  have hspsc : Guarded (SpscBenchmark.system headersOnly) SpscBenchmark.FlagSafe
      (run (SpscBenchmark.system headersOnly) spscLateConsumer) :=
    runFrom_guarded .init (by decide +kernel)
  have hshared : Guarded (WorkSharingBenchmark.system headersOnly 2 2) WorkSharingBenchmark.FlagSafe
      (run (WorkSharingBenchmark.system headersOnly 2 2) sharedLateConsumers) :=
    runFrom_guarded .init (by decide +kernel)
  obtain ⟨hfirst,hsecond⟩ := shutdown_drains headersOnly
  exact ⟨by decide +kernel,(hfirst _ hspsc (by decide +kernel)).2 (by decide +kernel),
    by decide +kernel,(hsecond 2 2 _ hshared (by decide +kernel)).2 (by decide +kernel)⟩

/-- The consumer finds the queue empty. Then a payload is pushed, `running` is
cleared, the flag is set, and the consumer looks at it. -/
def spscStranded : List SpscBenchmark.Action :=
  [.consumer,.producer,.producer,.stop,.producer,.producer,.consumer]

/-- The same with both consumers of a trial with two producers. -/
def sharedStranded : List (WorkSharingBenchmark.Action 2 2) :=
  turns [(1,.consumer 0),(1,.consumer 1),(5,.producer 0),(1,.stop),(2,.producer 0),(3,.producer 1),
    (1,.consumer 0),(1,.consumer 1)]

/-- Both kinds of trial can end with an accepted payload that nobody popped,
and report failed validation. -/
theorem shutdown_strands_payload :
    (SpscBenchmark.Exited (run (SpscBenchmark.system headersOnly) spscStranded) ∧
      (run (SpscBenchmark.system headersOnly) spscStranded).shared.pushed.length=1 ∧
      (run (SpscBenchmark.system headersOnly) spscStranded).shared.popped=[] ∧
      (SpscBenchmark.result (run (SpscBenchmark.system headersOnly)
        spscStranded)).validationErrors≠0) ∧
    WorkSharingBenchmark.Exited (run (WorkSharingBenchmark.system headersOnly 2 2)
      sharedStranded) ∧
    (run (WorkSharingBenchmark.system headersOnly 2 2) sharedStranded).shared.pushed.length=1 ∧
    (run (WorkSharingBenchmark.system headersOnly 2 2) sharedStranded).shared.popped=[] ∧
    (WorkSharingBenchmark.result (run (WorkSharingBenchmark.system headersOnly 2 2)
      sharedStranded)).validationErrors≠0 := by
  decide +kernel

end Line64.BenchmarkShutdown
