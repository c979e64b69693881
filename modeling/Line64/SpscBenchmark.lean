import Line64.BenchmarkConsumers
import Line64.Transition

/-!
# The SPSC benchmark trial

`run_spsc_adapter` with the SPSC queue of the library: one producer, one
consumer and the main thread that clears `running`. The producer sets the
flag behind its last push.
-/

namespace Line64.SpscBenchmark

open Result Transition DrainProtocol BenchmarkPayload BenchmarkResult BenchmarkConsumers

/-- Program points of the producer. -/
inductive ProducerPc
  /-- Load `running`. -/
  | checkRunning
  /-- Make a payload and push it. -/
  | push
  /-- Set the flag. -/
  | storeDone
  | exited
  deriving DecidableEq, Repr

/-- Objects of the trial. -/
structure State where
  /-- Queue, flag and consumer. -/
  shared : Shared 1
  /-- The flag `running`. -/
  running : Bool
  /-- Program point of the producer. -/
  producer : ProducerPc
  /-- Identifier of the next payload. -/
  id : ℕ
  /-- Number of accepted payloads. -/
  published : ℕ
  /-- Their identifiers. -/
  publishedIds : List ℕ
  /-- Pushes that found the queue full. -/
  fullRetries : ℕ
  /-- Failures seen by the producer. -/
  producerErrors : ℕ

/-- A scheduled step. -/
inductive Action
  | producer
  | consumer
  /-- The main thread clears `running`. -/
  | stop
  deriving DecidableEq, Repr

/-- Before the threads run. -/
def init : State := ⟨.initial 1,true,.checkRunning,1,0,[],0,0⟩

/-- One step of the producer loop. -/
def stepProducer (t : Trial) (s : State) : Option State :=
  match s.producer with
  | .checkRunning => some {s with producer := if s.running then .push else .storeDone}
  | .push =>
    let payload := makePayload t.random t.payloadSize 0 (.ofNat s.id) (.ofNat s.id)
    let written := tryPush t s.shared s.id payload
    match written.2.status with
    | .success =>
      some {s with
        shared := written.1
        producerErrors := s.producerErrors+(if written.2.sequence≠s.id then 1 else 0)
        publishedIds := s.publishedIds++[s.id]
        published := s.id
        id := s.id+1
        producer := .checkRunning}
    | .full =>
      some {s with
        shared := written.1
        fullRetries := s.fullRetries+1
        producer := .checkRunning}
    | _ =>
      some {s with
        shared := written.1
        producerErrors := s.producerErrors+1
        producer := .storeDone}
  | .storeDone => some {s with shared := {s.shared with done := true}, producer := .exited}
  | .exited => none

/-- One scheduled step. -/
def step (t : Trial) (s : State) : Action → Option State
  | .producer => stepProducer t s
  | .consumer => (stepConsumer t true s.shared 0).map fun shared => {s with shared := shared}
  | .stop => some {s with running := false}

/-- The trial under every interleaving of its threads. -/
def system (t : Trial) : System State Action where
  init := init
  step := step t

/-- The producer sets the flag where the queue is empty or the consumer is not
between an empty pop and its load of the flag. -/
def FlagSafe (s : State) (a : Action) : Prop :=
  a=.producer → s.producer=.storeDone → MayClose s.shared.queue.queue s.shared.consumer

/-- Both threads have returned. -/
def Exited (s : State) : Prop := s.producer=.exited ∧ ∀ c,s.shared.consumer c=.exited

/-- What the trial reports. -/
def result (s : State) : TrialResult :=
  makeResult s.published s.publishedIds (List.ofFn s.shared.metrics) s.fullRetries
    s.producerErrors true

/-- The inductive invariant. -/
structure Inv (t : Trial) (s : State) : Prop where
  /-- Queue and consumer. -/
  shared : BenchmarkConsumers.Inv t s.shared
  /-- Identifiers are counted from one. -/
  ids : s.publishedIds=List.range' 1 s.published
  /-- The next identifier. -/
  next : s.id=s.published+1
  /-- All pushes are published. -/
  pushed : s.shared.pushed.map Prod.fst=s.publishedIds
  /-- The flag is set by the last step of the producer. -/
  done : s.shared.done=true ↔ s.producer=.exited
  /-- Nothing fails while identifiers fit their 64 bits. -/
  recorded : s.id≤2^64 → Recorded s.shared ∧ s.producerErrors=0

section Steps

variable {t : Trial} {s s' : State}

/-- The payload of the next push. -/
theorem Inv.issued (h : Inv t s) :
    Issued t s.id (makePayload t.random t.payloadSize 0 (.ofNat s.id) (.ofNat s.id)) := by
  have hnext := h.next
  exact ⟨0,s.id,by omega,le_rfl,rfl⟩

/-- Number of pushes. -/
theorem Inv.pushed_length (h : Inv t s) : s.shared.pushed.length=s.published := by
  have hlength := congrArg List.length h.pushed
  rwa [List.length_map,h.ids,List.length_range'] at hlength

/-- The flag is not set before the producer has returned. -/
theorem Inv.not_done (h : Inv t s) (hp : s.producer≠.exited) : s.shared.done=false := by
  rw [← Bool.not_eq_true,h.done]
  exact hp

/-- Every step of the producer keeps the invariant where it sets the flag
safely. -/
theorem Inv.stepProducer (h : Inv t s) (hs : SpscBenchmark.stepProducer t s=some s')
    (hsafe : s.producer=.storeDone → MayClose s.shared.queue.queue s.shared.consumer) :
    Inv t s' := by
  have hids := h.ids
  have hnext := h.next
  unfold SpscBenchmark.stepProducer at hs
  cases hp : s.producer with
  | checkRunning =>
    have hopen := h.not_done (by rw [hp]; exact nofun)
    rw [hp] at hs
    cases hs
    refine ⟨h.shared,hids,hnext,h.pushed,?_,h.recorded⟩
    cases s.running <;> simp [hopen]
  | push =>
    have hopen := h.not_done (by rw [hp]; exact nofun)
    rcases tryPush_cases (s:=s.shared) h.issued with hfull | hpushed
    · simp only [hp,hfull,Option.some.injEq] at hs
      rw [← hs]
      exact ⟨h.shared,hids,hnext,h.pushed,by simp [hopen],h.recorded⟩
    · -- The queue numbers its messages like the producer.
      have hsequence : s.shared.queue.popped+s.shared.queue.queue.length+1=s.id := by
        rw [← h.shared.pushed_length,h.pushed_length,hnext]
      simp only [hp,hpushed,hsequence,ne_eq,not_true_eq_false,if_false,Option.some.injEq] at hs
      rw [← hs]
      refine ⟨h.shared.push h.issued hopen,?_,rfl,?_,by simp [hopen],?_⟩
      · simp only [hids,hnext,List.range'_concat]
        rw [Nat.one_mul,Nat.add_comm]
      · simp [h.pushed]
      · intro hfits
        obtain ⟨hrecorded,herrors⟩ := h.recorded (Nat.le_of_succ_le hfits)
        exact ⟨hrecorded.push h.shared _ _,herrors⟩
  | storeDone =>
    rw [hp] at hs
    cases hs
    refine ⟨h.shared.close (hsafe hp),hids,hnext,h.pushed,by simp,?_⟩
    intro hfits
    obtain ⟨hrecorded,herrors⟩ := h.recorded hfits
    exact ⟨⟨hrecorded.reads,hrecorded.ids,hrecorded.clean⟩,herrors⟩
  | exited =>
    rw [hp] at hs
    cases hs

/-- Every step of the consumer keeps the invariant. -/
theorem Inv.stepConsumer (h : Inv t s) {shared : Shared 1}
    (heffect : ConsumerEffect t s.shared 0 shared) : Inv t {s with shared := shared} := by
  obtain ⟨hdone,hpushed⟩ := heffect.frame
  refine ⟨heffect.inv h.shared,h.ids,h.next,?_,?_,?_⟩
  · simp only [hpushed]
    exact h.pushed
  · simp only [hdone]
    exact h.done
  · intro hfits
    dsimp only at hfits
    have hnext := h.next
    have hlength := h.pushed_length
    obtain ⟨hrecorded,herrors⟩ := h.recorded hfits
    refine ⟨heffect.recorded h.shared hrecorded (by omega) ?_,herrors⟩
    intro entry hmem
    have hid : entry.1 ∈ s.shared.pushed.map Prod.fst := List.mem_map_of_mem hmem
    rw [h.pushed,h.ids,List.mem_range'_1] at hid
    omega

/-- Every safe step keeps the invariant. -/
theorem Inv.step (h : Inv t s) {a : Action} (hs : SpscBenchmark.step t s a=some s')
    (hsafe : FlagSafe s a) : Inv t s' := by
  cases a with
  | producer => exact h.stepProducer hs (hsafe rfl)
  | consumer =>
    obtain ⟨shared,hshared,rfl⟩ := Option.map_eq_some_iff.mp hs
    exact h.stepConsumer (effect_of_stepConsumer h.shared hshared)
  | stop =>
    cases hs
    exact ⟨h.shared,h.ids,h.next,h.pushed,h.done,h.recorded⟩

end Steps

/-- Before the threads run. -/
theorem inv_init (t : Trial) : Inv t init where
  shared := ⟨rfl,rfl,nofun,drains_nil nofun⟩
  ids := rfl
  next := rfl
  pushed := rfl
  done := ⟨nofun,nofun⟩
  recorded := by
    intro _
    exact ⟨⟨rfl,rfl,fun _ => ⟨rfl,nofun⟩⟩,rfl⟩

/-- While the flag is set safely, every pushed payload is popped, and
validation passes unless the identifiers exceed their 64 bits. -/
theorem drained_of_safe {t : Trial} {s : State} (h : Guarded (system t) FlagSafe s)
    (hexited : Exited s) :
    s.shared.pushed.map Prod.snd=s.shared.popped.map Prod.snd ∧
      (s.id≤2^64 → (result s).validationErrors=0) := by
  have hinv : Inv t s := by
    refine Guarded.invariant (I:=Inv t) (inv_init t) ?_ h
    intro s a s' _ hi hsafe hs
    exact hi.step hs hsafe
  have hempty := hinv.shared.drains.drained (hinv.done.mpr hexited.1) hexited.2
  refine ⟨by rw [hinv.shared.conserved,hempty,List.append_nil],?_⟩
  intro hfits
  obtain ⟨hrecorded,herrors⟩ := hinv.recorded hfits
  have hcount : s.published=s.publishedIds.length := by rw [hinv.ids,List.length_range']
  rw [result,hcount,herrors]
  refine hrecorded.passes hinv.shared hempty (by rw [hinv.pushed]) ?_ s.fullRetries
  rw [hinv.ids]
  exact List.nodup_range'

end Line64.SpscBenchmark
