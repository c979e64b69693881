import Mathlib.Algebra.Order.BigOperators.Group.Finset
import Mathlib.Order.Interval.Finset.Nat
import Line64.BenchmarkConsumers
import Line64.Transition

/-!
# The work-sharing benchmark trial

`run_exclusive_pop_adapter` with the MPMC queue of the library, and the loops
of `run_work_sharing` that it starts: any number of producers and consumers,
and the main thread that clears `running`. Every access of a shared counter is
a step of its own. The last producer to return sets the flag.
-/

namespace Line64.WorkSharingBenchmark

open Function Result Transition Census DrainProtocol BenchmarkPayload BenchmarkResult
  BenchmarkConsumers

/-- Program points of a producer. -/
inductive ProducerPc
  /-- Load `running` in front of the next payload. -/
  | checkRunning
  /-- Take an identifier from `next_id` and make a payload. -/
  | fetchId
  /-- Push the payload. -/
  | push (id : ℕ) (payload : List Byte)
  /-- Append the identifier to `published_ids`. -/
  | recordId (id : ℕ)
  /-- Increment `published`. -/
  | countPublished
  /-- Increment `producer_errors`. -/
  | countError
  /-- Increment `full_retries`. -/
  | countFull (id : ℕ) (payload : List Byte)
  /-- Load `running` behind a full queue. -/
  | recheckRunning (id : ℕ) (payload : List Byte)
  /-- Decrement `remaining`. -/
  | fetchSub
  /-- Set the flag. -/
  | close
  | exited
  deriving DecidableEq, Repr

/-- A producer thread. -/
structure Producer where
  /-- Number of its next payload. -/
  localSequence : ℕ
  /-- Program point. -/
  pc : ProducerPc
  deriving DecidableEq, Repr

/-- Objects of a trial with `n` producers and `m` consumers. -/
structure State (n m : ℕ) where
  /-- Queue, flag and consumers. -/
  shared : Shared m
  /-- The flag `running`. -/
  running : Bool
  /-- The counter `next_id`. -/
  nextId : ℕ
  /-- The counter `published`. -/
  published : ℕ
  /-- Identifiers of accepted payloads. -/
  publishedIds : List ℕ
  /-- The counter `full_retries`. -/
  fullRetries : ℕ
  /-- The counter `producer_errors`. -/
  producerErrors : ℕ
  /-- The counter `remaining`. -/
  remaining : ℕ
  /-- Producer threads. -/
  producer : Fin n → Producer

/-- A scheduled step. -/
inductive Action (n m : ℕ)
  | producer (p : Fin n)
  | consumer (c : Fin m)
  /-- The main thread clears `running`. -/
  | stop
  deriving DecidableEq, Repr

/-- Before the threads run. -/
def init (n m : ℕ) : State n m :=
  ⟨.initial m,true,1,0,[],0,0,n,fun _ => ⟨1,.checkRunning⟩⟩

variable {n m : ℕ}

/-- Move a producer to another program point. -/
def State.goto (s : State n m) (p : Fin n) (pc : ProducerPc) : State n m :=
  {s with producer := update s.producer p ⟨(s.producer p).localSequence,pc⟩}

/-- Program point behind a push. -/
def afterPush (id : ℕ) (payload : List Byte) : QueueStatus → ProducerPc
  | .success => .recordId id
  | .full => .countFull id payload
  | _ => .countError

/-- One step of a producer loop. -/
def stepProducer (t : Trial) (s : State n m) (p : Fin n) : Option (State n m) :=
  match (s.producer p).pc with
  | .checkRunning => some (s.goto p (if s.running then .fetchId else .fetchSub))
  | .fetchId =>
    let id := s.nextId
    let l := (s.producer p).localSequence
    let payload := makePayload t.random t.payloadSize (.ofNat p) (.ofNat l) (.ofNat id)
    some {s with nextId := id+1, producer := update s.producer p ⟨l+1,.push id payload⟩}
  | .push id payload =>
    let written := tryPush t s.shared id payload
    some ({s with shared := written.1}.goto p (afterPush id payload written.2.status))
  | .recordId id =>
    some ({s with publishedIds := s.publishedIds++[id]}.goto p .countPublished)
  | .countPublished => some ({s with published := s.published+1}.goto p .checkRunning)
  | .countError => some ({s with producerErrors := s.producerErrors+1}.goto p .checkRunning)
  | .countFull id payload =>
    some ({s with fullRetries := s.fullRetries+1}.goto p (.recheckRunning id payload))
  | .recheckRunning id payload =>
    some (s.goto p (if s.running then .push id payload else .checkRunning))
  | .fetchSub =>
    some ({s with remaining := s.remaining-1}.goto p
      (if s.remaining=1 then .close else .exited))
  | .close => some ({s with shared := {s.shared with done := true}}.goto p .exited)
  | .exited => none

/-- One scheduled step. -/
def step (t : Trial) (s : State n m) : Action n m → Option (State n m)
  | .producer p => stepProducer t s p
  | .consumer c => (stepConsumer t false s.shared c).map fun shared => {s with shared := shared}
  | .stop => some {s with running := false}

/-- The trial under every interleaving of its threads. -/
def system (t : Trial) (n m : ℕ) : System (State n m) (Action n m) where
  init := init n m
  step := step t

/-- The last producer sets the flag where the queue is empty or some consumer
is not between an empty pop and its load of the flag. -/
def FlagSafe (s : State n m) (a : Action n m) : Prop :=
  ∀ p,a=.producer p → (s.producer p).pc=.close →
    MayClose s.shared.queue.queue s.shared.consumer

/-- All threads have returned. -/
def Exited (s : State n m) : Prop :=
  (∀ p,(s.producer p).pc=.exited) ∧ ∀ c,s.shared.consumer c=.exited

/-- What the trial reports. -/
def result (s : State n m) : TrialResult :=
  makeResult s.published s.publishedIds (List.ofFn s.shared.metrics) s.fullRetries
    s.producerErrors true

/-- One for a producer that has not yet decremented `remaining`. -/
def active : ProducerPc → ℕ
  | .close => 0
  | .exited => 0
  | _ => 1

/-- Identifier of a payload that is not yet pushed. -/
def held : ProducerPc → Multiset ℕ
  | .push id _ => {id}
  | .countFull id _ => {id}
  | .recheckRunning id _ => {id}
  | _ => 0

/-- Identifier of a pushed payload that is not yet recorded. -/
def pending : ProducerPc → Multiset ℕ
  | .recordId id => {id}
  | _ => 0

/-- One for a recorded payload that is not yet counted. -/
def uncounted : ProducerPc → ℕ
  | .countPublished => 1
  | _ => 0

/-- The shares of all producers. -/
def total {M : Type} [AddCommMonoid M] (share : ProducerPc → M) (producer : Fin n → Producer) : M :=
  ∑ p,share (producer p).pc

/-- Identifiers of a trial: those held by producers, pushed and not yet
recorded, pushed, and recorded. -/
structure Ledger (held pending pushed recorded : Multiset ℕ) (nextId : ℕ) : Prop where
  /-- No identifier is used twice. -/
  unique : (pushed+held).Nodup
  /-- Identifiers come from the counter. -/
  below : ∀ id ∈ pushed+held,1 ≤ id ∧ id<nextId
  /-- Pushed payloads are recorded, or about to be. -/
  complete : recorded+pending=pushed

/-- The counter `remaining` and the flag. The trial is idle when nothing was
pushed. -/
structure Countdown (remaining : ℕ) (done idle : Prop) (producer : Fin n → Producer) : Prop where
  /-- Producers that are still active. -/
  counts : remaining=total active producer
  /-- The flag is set behind the last decrement. -/
  last : done → remaining=0
  /-- Only the last one is on its way to the flag. -/
  closing : ∀ p,(producer p).pc=.close → remaining=0
  /-- The last one has set the flag or is on its way to it. -/
  handed : remaining=0 → done ∨ (∃ p,(producer p).pc=.close) ∨ idle

/-- What a program point says about the payload at hand. -/
def Carries (t : Trial) : ProducerPc → Prop
  | .push id payload => Issued t id payload
  | .countFull id payload => Issued t id payload
  | .recheckRunning id payload => Issued t id payload
  | .countError => False
  | _ => True

/-- A producer and the counter of identifiers. -/
structure Sound (t : Trial) (nextId : ℕ) (producer : Producer) : Prop where
  /-- Payloads are numbered from one. -/
  pos : 1≤producer.localSequence
  /-- Every number has an identifier. -/
  le : producer.localSequence≤nextId
  /-- The payload at hand. -/
  carries : Carries t producer.pc

/-- The inductive invariant. -/
structure Inv (t : Trial) (s : State n m) : Prop where
  /-- Queue and consumers. -/
  shared : BenchmarkConsumers.Inv t s.shared
  /-- The identifiers. -/
  ledger : Ledger (total held s.producer) (total pending s.producer)
    (s.shared.pushed.map Prod.fst : List ℕ) s.publishedIds s.nextId
  /-- Recorded payloads are counted, or about to be. -/
  counted : s.published+total uncounted s.producer=s.publishedIds.length
  /-- The flag. -/
  countdown : Countdown s.remaining (s.shared.done=true) (s.shared.pushed=[]) s.producer
  /-- The producers. -/
  sound : ∀ p,Sound t s.nextId (s.producer p)
  /-- Nothing fails while identifiers fit their 64 bits. -/
  recorded : s.nextId≤2^64 → Recorded s.shared ∧ s.producerErrors=0

section Ledger

variable {held pending pushed recorded : Multiset ℕ} {nextId : ℕ}

/-- A producer takes the next identifier. -/
theorem Ledger.fetch (h : Ledger held pending pushed recorded nextId) (hpos : 1≤nextId) :
    Ledger (held+{nextId}) pending pushed recorded (nextId+1) := by
  refine ⟨?_,?_,h.complete⟩
  · rw [← add_assoc,add_comm,Multiset.singleton_add,Multiset.nodup_cons]
    refine ⟨?_,h.unique⟩
    intro hmem
    exact absurd (h.below nextId hmem).2 (lt_irrefl _)
  · intro id hmem
    rw [← add_assoc,Multiset.mem_add,Multiset.mem_singleton] at hmem
    rcases hmem with hold | rfl
    · exact ⟨(h.below id hold).1,(h.below id hold).2.trans (Nat.lt_succ_self _)⟩
    · exact ⟨hpos,Nat.lt_succ_self _⟩

/-- A producer gives its payload up. -/
theorem Ledger.drop {id : ℕ} (h : Ledger (held+{id}) pending pushed recorded nextId) :
    Ledger held pending pushed recorded nextId := by
  have hle : pushed+held≤pushed+(held+{id}) := by
    rw [← add_assoc]
    exact Multiset.le_add_right _ _
  exact ⟨Multiset.nodup_of_le hle h.unique,fun u hu => h.below u (Multiset.mem_of_le hle hu),
    h.complete⟩

/-- A payload is pushed. -/
theorem Ledger.push {id : ℕ} (h : Ledger (held+{id}) pending pushed recorded nextId) :
    Ledger held (pending+{id}) (pushed+{id}) recorded nextId := by
  have hsame : pushed+{id}+held=pushed+(held+{id}) := by rw [add_assoc,add_comm held]
  refine ⟨?_,?_,?_⟩
  · rw [hsame]
    exact h.unique
  · rw [hsame]
    exact h.below
  · rw [← add_assoc,h.complete]

/-- A pushed payload is recorded. -/
theorem Ledger.record {id : ℕ} (h : Ledger held (pending+{id}) pushed recorded nextId) :
    Ledger held pending pushed (recorded+{id}) nextId := by
  refine ⟨h.unique,h.below,?_⟩
  rw [← h.complete,add_assoc,add_comm pending]

end Ledger

/-- A step changes the share of its producer only. -/
theorem total_update {M : Type} [AddCommMonoid M] (share : ProducerPc → M)
    {producer : Fin n → Producer} {p : Fin n} {pc : ProducerPc} (hp : (producer p).pc=pc) (l : ℕ)
    (pc' : ProducerPc) :
    total share (update producer p ⟨l,pc'⟩)+share pc=total share producer+share pc' := by
  rw [← hp]
  exact sum_update (fun x : Producer => share x.pc) producer p ⟨l,pc'⟩

/-- A step to a program point with the same share. -/
theorem total_update_of_eq {M : Type} [AddCommMonoid M] (share : ProducerPc → M)
    {producer : Fin n → Producer} {p : Fin n} {pc : ProducerPc} (hp : (producer p).pc=pc) (l : ℕ)
    (pc' : ProducerPc) (hsame : share pc'=share pc) :
    total share (update producer p ⟨l,pc'⟩)=total share producer := by
  rw [← hp] at hsame
  exact sum_update_of_eq (fun x : Producer => share x.pc) producer p hsame

section Countdown

variable {remaining : ℕ} {done idle : Prop} {producer : Fin n → Producer} {p : Fin n}
  {pc pc' : ProducerPc}

/-- The counter is positive while a producer is active. -/
theorem Countdown.remaining_pos (h : Countdown remaining done idle producer)
    (hp : (producer p).pc=pc) (hactive : active pc=1) : 1≤remaining := by
  have hle : active (producer p).pc≤total active producer :=
    Finset.single_le_sum (f:=fun u => active (producer u).pc) (fun _ _ => Nat.zero_le _)
      (Finset.mem_univ p)
  rw [h.counts,← hactive,← hp]
  exact hle

/-- Producers on their way to the flag, behind a step to another program point. -/
theorem Countdown.closing_update (h : Countdown remaining done idle producer) (l : ℕ)
    (hpc : pc'≠.close) : ∀ u,(update producer p ⟨l,pc'⟩ u).pc=.close → remaining=0 := by
  intro u hu
  by_cases he : u=p
  · rw [he,update_self] at hu
    exact absurd hu hpc
  · rw [update_of_ne he] at hu
    exact h.closing u hu

/-- An active producer stays active. -/
theorem Countdown.goto (h : Countdown remaining done idle producer) (hp : (producer p).pc=pc)
    (hactive : active pc=1) (l : ℕ) (hactive' : active pc'=1) (idle' : Prop) :
    Countdown remaining done idle' (update producer p ⟨l,pc'⟩) := by
  have hclose : pc'≠.close := by
    rintro rfl
    cases hactive'
  refine ⟨?_,h.last,h.closing_update l hclose,?_⟩
  · rw [total_update_of_eq active hp l pc' (hactive'.trans hactive.symm)]
    exact h.counts
  · intro hzero
    have hpos := h.remaining_pos hp hactive
    omega

/-- A producer decrements the counter, and the last one heads for the flag. -/
theorem Countdown.decrement (h : Countdown remaining done idle producer)
    (hp : (producer p).pc=.fetchSub) (l : ℕ) :
    Countdown (remaining-1) done idle
      (update producer p ⟨l,if remaining=1 then .close else .exited⟩) := by
  have hpos := h.remaining_pos hp rfl
  have hleft : active (if remaining=1 then .close else .exited)=0 := by
    split <;> rfl
  have hsum := total_update active hp l (if remaining=1 then .close else .exited)
  rw [hleft,← h.counts] at hsum
  simp only [active] at hsum
  refine ⟨by omega,?_,?_,?_⟩
  · intro hdone
    have hzero := h.last hdone
    omega
  · intro u hu
    by_cases he : u=p
    · rw [he,update_self] at hu
      split at hu
      · omega
      · cases hu
    · rw [update_of_ne he] at hu
      have hzero := h.closing u hu
      omega
  · intro hzero
    have hone : remaining=1 := by omega
    refine .inr (.inl ⟨p,?_⟩)
    rw [update_self,if_pos hone]

/-- The last producer sets the flag. -/
theorem Countdown.close (h : Countdown remaining done idle producer)
    (hp : (producer p).pc=.close) (l : ℕ) {done' : Prop} (hdone : done') :
    Countdown remaining done' idle (update producer p ⟨l,.exited⟩) := by
  refine ⟨?_,fun _ => h.closing p hp,h.closing_update l nofun,fun _ => .inl hdone⟩
  rw [total_update_of_eq active hp l .exited rfl]
  exact h.counts

end Countdown

section Steps

variable {t : Trial} {s s' : State n m} {p : Fin n}

/-- Behind a step every producer is sound. -/
theorem Inv.sound_update (h : Inv t s) {x : Producer} {nextId : ℕ} (hle : s.nextId≤nextId)
    (hx : Sound t nextId x) : ∀ u,Sound t nextId (update s.producer p x u) := by
  intro u
  by_cases hu : u=p
  · rw [hu,update_self]
    exact hx
  · rw [update_of_ne hu]
    exact ⟨(h.sound u).pos,(h.sound u).le.trans hle,(h.sound u).carries⟩

/-- A producer at another program point, behind a step that draws no
identifier. -/
theorem Inv.sound_goto (h : Inv t s) {pc : ProducerPc} (hpc : Carries t pc) :
    ∀ u,Sound t s.nextId (update s.producer p ⟨(s.producer p).localSequence,pc⟩ u) :=
  h.sound_update le_rfl ⟨(h.sound p).pos,(h.sound p).le,hpc⟩

/-- No producer is active once the flag is set. -/
theorem Inv.not_done (h : Inv t s) {pc : ProducerPc} (hp : (s.producer p).pc=pc)
    (hactive : active pc=1) : s.shared.done=false := by
  rw [← Bool.not_eq_true]
  intro hdone
  have hpos := h.countdown.remaining_pos hp hactive
  have hzero := h.countdown.last hdone
  omega

/-- The identifiers behind a step that neither draws, pushes nor records one. -/
theorem Inv.ledger_same (h : Inv t s) {pc : ProducerPc} (hp : (s.producer p).pc=pc) (l : ℕ)
    (pc' : ProducerPc) (hheld : held pc'=held pc) (hpending : pending pc'=pending pc) :
    Ledger (total held (update s.producer p ⟨l,pc'⟩)) (total pending (update s.producer p ⟨l,pc'⟩))
      (s.shared.pushed.map Prod.fst : List ℕ) s.publishedIds s.nextId := by
  rw [total_update_of_eq held hp l pc' hheld,total_update_of_eq pending hp l pc' hpending]
  exact h.ledger

/-- The counter `published` behind a step that neither records nor counts. -/
theorem Inv.counted_same (h : Inv t s) {pc : ProducerPc} (hp : (s.producer p).pc=pc) (l : ℕ)
    (pc' : ProducerPc) (huncounted : uncounted pc'=uncounted pc) :
    s.published+total uncounted (update s.producer p ⟨l,pc'⟩)=s.publishedIds.length := by
  rw [total_update_of_eq uncounted hp l pc' huncounted]
  exact h.counted

/-- An active producer moves on and its shares stay the same. -/
theorem Inv.goto (h : Inv t s) {pc : ProducerPc} (hp : (s.producer p).pc=pc) (pc' : ProducerPc)
    (hheld : held pc'=held pc) (hpending : pending pc'=pending pc)
    (huncounted : uncounted pc'=uncounted pc) (hactive : active pc=1) (hactive' : active pc'=1)
    (hcarries : Carries t pc') (fullRetries : ℕ) :
    Inv t ({s with fullRetries := fullRetries}.goto p pc') :=
  ⟨h.shared,h.ledger_same hp _ pc' hheld hpending,h.counted_same hp _ pc' huncounted,
    h.countdown.goto hp hactive _ hactive' _,h.sound_goto hcarries,h.recorded⟩

/-- Drawing an identifier. -/
theorem Inv.fetch (h : Inv t s) (hp : (s.producer p).pc=.fetchId) {l : ℕ}
    (hl : l=(s.producer p).localSequence) {payload : List Byte}
    (hpayload : payload=makePayload t.random t.payloadSize (.ofNat p) (.ofNat l) (.ofNat s.nextId)) :
    Inv t {s with
      nextId := s.nextId+1
      producer := update s.producer p ⟨l+1,.push s.nextId payload⟩} := by
  have hsound := h.sound p
  have hissued : Issued t s.nextId payload := ⟨_,l,hl ▸ hsound.pos,hl ▸ hsound.le,hpayload⟩
  have hheld := total_update held hp (l+1) (.push s.nextId payload)
  simp only [held,add_zero] at hheld
  refine ⟨h.shared,?_,h.counted_same hp _ (.push s.nextId payload) rfl,
    h.countdown.goto hp rfl _ rfl _,h.sound_update (Nat.le_succ _) ?_,?_⟩ <;> dsimp only
  · rw [hheld,total_update_of_eq pending hp _ (.push s.nextId payload) rfl]
    exact h.ledger.fetch (hsound.pos.trans hsound.le)
  · exact ⟨Nat.le_add_left _ _,Nat.succ_le_succ (hl ▸ hsound.le),hissued⟩
  · intro hfits
    exact h.recorded (Nat.le_of_succ_le hfits)

/-- An accepted push. -/
theorem Inv.push (h : Inv t s) {id : ℕ} {payload : List Byte}
    (hp : (s.producer p).pc=.push id payload) (hissued : Issued t id payload) :
    Inv t ({s with shared := {s.shared with
        queue := ⟨s.shared.queue.popped,s.shared.queue.queue++[payload]⟩
        pushed := s.shared.pushed++[(id,payload)]}}.goto p (.recordId id)) := by
  have hheld := total_update held hp (s.producer p).localSequence (.recordId id)
  have hpending := total_update pending hp (s.producer p).localSequence (.recordId id)
  simp only [held,pending,add_zero] at hheld hpending
  refine ⟨h.shared.push hissued (h.not_done hp rfl),?_,h.counted_same hp _ (.recordId id) rfl,
    h.countdown.goto hp rfl _ rfl _,h.sound_goto trivial,?_⟩ <;> dsimp only [State.goto]
  · have hledger := h.ledger
    rw [← hheld] at hledger
    rw [hpending,List.map_append,← Multiset.coe_add]
    exact hledger.push
  · intro hfits
    obtain ⟨hrecorded,herrors⟩ := h.recorded hfits
    exact ⟨hrecorded.push h.shared _ _,herrors⟩

/-- Recording an identifier. -/
theorem Inv.record (h : Inv t s) {id : ℕ} (hp : (s.producer p).pc=.recordId id) :
    Inv t ({s with publishedIds := s.publishedIds++[id]}.goto p .countPublished) := by
  have hpending := total_update pending hp (s.producer p).localSequence .countPublished
  have huncounted := total_update uncounted hp (s.producer p).localSequence .countPublished
  simp only [pending,uncounted,add_zero] at hpending huncounted
  refine ⟨h.shared,?_,?_,h.countdown.goto hp rfl _ rfl _,h.sound_goto trivial,h.recorded⟩
    <;> dsimp only [State.goto]
  · have hledger := h.ledger
    rw [← hpending] at hledger
    rw [total_update_of_eq held hp _ .countPublished rfl,← Multiset.coe_add]
    exact hledger.record
  · have hcounted := h.counted
    rw [huncounted,List.length_append,List.length_singleton]
    omega

/-- Counting a recorded payload. -/
theorem Inv.count (h : Inv t s) (hp : (s.producer p).pc=.countPublished) :
    Inv t ({s with published := s.published+1}.goto p .checkRunning) := by
  have huncounted := total_update uncounted hp (s.producer p).localSequence .checkRunning
  simp only [uncounted,add_zero] at huncounted
  refine ⟨h.shared,h.ledger_same hp _ .checkRunning rfl rfl,?_,h.countdown.goto hp rfl _ rfl _,
    h.sound_goto trivial,h.recorded⟩
  have hcounted := h.counted
  dsimp only [State.goto]
  omega

/-- Giving up a payload that met a full queue. -/
theorem Inv.giveUp (h : Inv t s) {id : ℕ} {payload : List Byte}
    (hp : (s.producer p).pc=.recheckRunning id payload) : Inv t (s.goto p .checkRunning) := by
  have hheld := total_update held hp (s.producer p).localSequence .checkRunning
  simp only [held,add_zero] at hheld
  refine ⟨h.shared,?_,h.counted_same hp _ .checkRunning rfl,h.countdown.goto hp rfl _ rfl _,
    h.sound_goto trivial,h.recorded⟩
  have hledger := h.ledger
  rw [← hheld] at hledger
  dsimp only [State.goto]
  rw [total_update_of_eq pending hp _ .checkRunning rfl]
  exact hledger.drop

/-- Leaving the loop. -/
theorem Inv.leave (h : Inv t s) (hp : (s.producer p).pc=.fetchSub) :
    Inv t ({s with remaining := s.remaining-1}.goto p
      (if s.remaining=1 then .close else .exited)) := by
  have hheld : held (if s.remaining=1 then .close else .exited)=0 := by split <;> rfl
  have hpending : pending (if s.remaining=1 then .close else .exited)=0 := by split <;> rfl
  have huncounted : uncounted (if s.remaining=1 then .close else .exited)=0 := by split <;> rfl
  have hcarries : Carries t (if s.remaining=1 then .close else .exited) := by split <;> trivial
  exact ⟨h.shared,h.ledger_same hp _ _ hheld hpending,h.counted_same hp _ _ huncounted,
    h.countdown.decrement hp _,h.sound_goto hcarries,h.recorded⟩

/-- Setting the flag where this is safe. -/
theorem Inv.close (h : Inv t s) (hp : (s.producer p).pc=.close)
    (hsafe : MayClose s.shared.queue.queue s.shared.consumer) :
    Inv t ({s with shared := {s.shared with done := true}}.goto p .exited) := by
  refine ⟨h.shared.close hsafe,h.ledger_same hp _ .exited rfl rfl,h.counted_same hp _ .exited rfl,
    h.countdown.close hp _ rfl,h.sound_goto trivial,?_⟩
  intro hfits
  obtain ⟨hrecorded,herrors⟩ := h.recorded hfits
  exact ⟨⟨hrecorded.reads,hrecorded.ids,hrecorded.clean⟩,herrors⟩

/-- Every step of a producer keeps the invariant where it sets the flag
safely. -/
theorem Inv.stepProducer (h : Inv t s) (hs : WorkSharingBenchmark.stepProducer t s p=some s')
    (hsafe : (s.producer p).pc=.close → MayClose s.shared.queue.queue s.shared.consumer) :
    Inv t s' := by
  have hcarries := (h.sound p).carries
  unfold WorkSharingBenchmark.stepProducer at hs
  cases hp : (s.producer p).pc with
  | checkRunning =>
    simp only [hp,Option.some.injEq] at hs
    rw [← hs]
    cases s.running
    · exact h.goto hp .fetchSub rfl rfl rfl rfl rfl trivial _
    · exact h.goto hp .fetchId rfl rfl rfl rfl rfl trivial _
  | fetchId =>
    simp only [hp,Option.some.injEq] at hs
    rw [← hs]
    exact h.fetch hp rfl rfl
  | push id payload =>
    rw [hp] at hcarries
    rcases tryPush_cases (s:=s.shared) hcarries with hfull | hpushed
    · simp only [hp,hfull,afterPush,Option.some.injEq] at hs
      rw [← hs]
      exact h.goto hp (.countFull id payload) rfl rfl rfl rfl rfl hcarries _
    · simp only [hp,hpushed,afterPush,Option.some.injEq] at hs
      rw [← hs]
      exact h.push hp hcarries
  | recordId id =>
    simp only [hp,Option.some.injEq] at hs
    rw [← hs]
    exact h.record hp
  | countPublished =>
    simp only [hp,Option.some.injEq] at hs
    rw [← hs]
    exact h.count hp
  | countError =>
    rw [hp] at hcarries
    exact hcarries.elim
  | countFull id payload =>
    rw [hp] at hcarries
    simp only [hp,Option.some.injEq] at hs
    rw [← hs]
    exact h.goto hp (.recheckRunning id payload) rfl rfl rfl rfl rfl hcarries _
  | recheckRunning id payload =>
    rw [hp] at hcarries
    simp only [hp,Option.some.injEq] at hs
    rw [← hs]
    cases s.running
    · exact h.giveUp hp
    · exact h.goto hp (.push id payload) rfl rfl rfl rfl rfl hcarries _
  | fetchSub =>
    simp only [hp,Option.some.injEq] at hs
    rw [← hs]
    exact h.leave hp
  | close =>
    simp only [hp,Option.some.injEq] at hs
    rw [← hs]
    exact h.close hp (hsafe hp)
  | exited =>
    simp only [hp] at hs
    cases hs

/-- No identifier is pushed twice. -/
theorem Inv.pushed_nodup (h : Inv t s) : (s.shared.pushed.map Prod.fst).Nodup :=
  Multiset.nodup_of_le (Multiset.le_add_right _ _) h.ledger.unique

/-- Identifiers and their number fit their 64 bits. -/
theorem Inv.pushed_lt (h : Inv t s) (hfits : s.nextId≤2^64) :
    s.shared.pushed.length<2^64 ∧ ∀ entry ∈ s.shared.pushed,entry.1<2^64 := by
  have hbelow : ∀ id ∈ s.shared.pushed.map Prod.fst,1 ≤ id ∧ id<s.nextId := by
    intro id hmem
    exact h.ledger.below id (Multiset.mem_add.mpr (.inl hmem))
  have hsub : (s.shared.pushed.map Prod.fst).toFinset⊆Finset.Ico 1 s.nextId := by
    intro id hmem
    exact Finset.mem_Ico.mpr (hbelow id (List.mem_toFinset.mp hmem))
  have hcard := Finset.card_le_card hsub
  rw [List.toFinset_card_of_nodup h.pushed_nodup,List.length_map,Nat.card_Ico] at hcard
  refine ⟨by omega,?_⟩
  intro entry hmem
  exact (hbelow entry.1 (List.mem_map_of_mem hmem)).2.trans_le hfits

/-- Every step of a consumer keeps the invariant. -/
theorem Inv.stepConsumer (h : Inv t s) {c : Fin m} {shared : Shared m}
    (heffect : ConsumerEffect t s.shared c shared) : Inv t {s with shared := shared} := by
  obtain ⟨hdone,hpushed⟩ := heffect.frame
  refine ⟨heffect.inv h.shared,?_,h.counted,?_,h.sound,?_⟩ <;> dsimp only
  · rw [hpushed]
    exact h.ledger
  · rw [hdone,hpushed]
    exact h.countdown
  · intro hfits
    obtain ⟨hcount,hids⟩ := h.pushed_lt hfits
    obtain ⟨hrecorded,herrors⟩ := h.recorded hfits
    exact ⟨heffect.recorded h.shared hrecorded hcount hids,herrors⟩

/-- Every safe step keeps the invariant. -/
theorem Inv.step (h : Inv t s) {a : Action n m} (hs : WorkSharingBenchmark.step t s a=some s')
    (hsafe : FlagSafe s a) : Inv t s' := by
  cases a with
  | producer p => exact h.stepProducer hs (hsafe p rfl)
  | consumer c =>
    obtain ⟨shared,hshared,rfl⟩ := Option.map_eq_some_iff.mp hs
    exact h.stepConsumer (effect_of_stepConsumer h.shared hshared)
  | stop =>
    cases hs
    exact ⟨h.shared,h.ledger,h.counted,h.countdown,h.sound,h.recorded⟩

/-- No shares are left once all producers have returned. -/
theorem total_exited {M : Type} [AddCommMonoid M] {share : ProducerPc → M}
    {producer : Fin n → Producer} (hexited : ∀ p,(producer p).pc=.exited)
    (hzero : share .exited=0) : total share producer=0 := by
  refine Finset.sum_eq_zero ?_
  intro p _
  rw [hexited p,hzero]

end Steps

/-- Before the threads run. -/
theorem inv_init (t : Trial) (n m : ℕ) : Inv t (init n m) where
  shared := ⟨rfl,rfl,nofun,drains_nil nofun⟩
  ledger := by
    have hheld : total held (init n m).producer=0 := Finset.sum_eq_zero fun _ _ => rfl
    have hpending : total pending (init n m).producer=0 := Finset.sum_eq_zero fun _ _ => rfl
    rw [hheld,hpending]
    exact ⟨Multiset.nodup_zero,nofun,rfl⟩
  counted := by
    have huncounted : total uncounted (init n m).producer=0 := Finset.sum_eq_zero fun _ _ => rfl
    rw [huncounted]
    rfl
  countdown := by
    refine ⟨?_,nofun,nofun,fun _ => .inr (.inr rfl)⟩
    have hsum : ∑ _ : Fin n,1=n := by simp
    exact hsum.symm
  sound := fun _ => ⟨le_rfl,le_rfl,trivial⟩
  recorded := by
    intro _
    exact ⟨⟨Finset.sum_eq_zero fun _ _ => rfl,Finset.sum_eq_zero fun _ _ => rfl,
      fun _ => ⟨rfl,nofun⟩⟩,rfl⟩

/-- While the flag is set safely, every pushed payload is popped, and
validation passes unless the identifiers exceed their 64 bits. -/
theorem drained_of_safe {t : Trial} {n m : ℕ} {s : State n m}
    (h : Guarded (system t n m) FlagSafe s) (hexited : Exited s) :
    s.shared.pushed.map Prod.snd=s.shared.popped.map Prod.snd ∧
      (s.nextId≤2^64 → (result s).validationErrors=0) := by
  have hinv : Inv t s := by
    refine Guarded.invariant (I:=Inv t) (inv_init t n m) ?_ h
    intro s a s' _ hi hsafe hs
    exact hi.step hs hsafe
  have hempty : s.shared.queue.queue=[] := by
    have hzero : s.remaining=0 := hinv.countdown.counts.trans (total_exited hexited.1 rfl)
    rcases hinv.countdown.handed hzero with hdone | ⟨p,hp⟩ | hidle
    · exact hinv.shared.drains.drained hdone hexited.2
    · rw [hexited.1 p] at hp
      cases hp
    · have hconserved := hinv.shared.conserved
      rw [hidle] at hconserved
      exact (List.append_eq_nil_iff.mp hconserved.symm).2
  refine ⟨by rw [hinv.shared.conserved,hempty,List.append_nil],?_⟩
  intro hfits
  obtain ⟨hrecorded,herrors⟩ := hinv.recorded hfits
  have hcount : s.published=s.publishedIds.length := by
    rw [← hinv.counted,total_exited hexited.1 rfl,Nat.add_zero]
  have hpublished : s.publishedIds.Perm (s.shared.pushed.map Prod.fst) := by
    refine Multiset.coe_eq_coe.mp ?_
    rw [← hinv.ledger.complete,total_exited hexited.1 rfl,add_zero]
  rw [result,hcount,herrors]
  exact hrecorded.passes hinv.shared hempty hpublished (hpublished.nodup_iff.mpr hinv.pushed_nodup)
    s.fullRetries

end Line64.WorkSharingBenchmark
