import Mathlib.Data.Fintype.Card
import Line64.StressMpmcConsumers
import Line64.StressMpmcProducers

/-!
# The stress run of the MPMC queue passes

The invariant holds before the threads run and every step keeps it. Hence no
thread ever records a failure or has to stop, whatever the clock and the loads
return. When all threads have returned, the consumed messages are the
published ones, and the main thread reports success.
-/

namespace Line64.StressMpmcDelivery

open Function Result Transition ReleaseAcquire AtomicCounters Census StressConfig StressPayload
  StressMpmc MpmcMemoryCalls StressMpmcInvariant
open MpmcModel (PushCall PopCall)

variable {n m : ℕ}

section Start

/-- The producers among the threads. -/
def workers (n m : ℕ) : Finset (Thread n m) :=
  Finset.univ.map ⟨Thread.producer,fun _ _ h => Thread.producer.inj h⟩

/-- Every producer works. -/
theorem mem_workers (p : Fin n) : Thread.producer p ∈ workers n m :=
  Finset.mem_map.mpr ⟨p,Finset.mem_univ p,rfl⟩

/-- There are as many as were configured. -/
theorem card_workers (n m : ℕ) : (workers n m).card=n := by
  rw [workers,Finset.card_map,Finset.card_univ,Fintype.card_fin]

/-- The counters before the threads run. -/
theorem memory_init (n m : ℕ) :
    Memory (init n m).history (init n m).views (workers n m) 0 0 where
  sane := Sane.initial _
  signOff := by
    refine ⟨Chained.initial _ _ rfl,?_,Nat.le_of_eq (card_workers n m),.inl rfl⟩
    rw [card_workers,Nat.sub_self]
    exact Chained.initial _ _ rfl
  poppedChain := Chained.initial _ _ rfl
  fullChain := ⟨0,Chained.initial _ _ rfl⟩
  emptyChain := ⟨0,Chained.initial _ _ rfl⟩
  knownPushed := .inl rfl
  knownPopped := .inl rfl

/-- A producer that has not called yet. -/
theorem producerOk_init (r : Trial) (p : ℕ) :
    ProducerOk r p (fun _ _ => .idle) ⟨1,0,.test⟩ where
  pos := le_rfl
  le := Nat.le_add_left _ _
  within h := by cases h
  later _ _ _ := rfl
  payload _ _ h := absurd rfl h
  once _ _ _ h := absurd rfl h
  present _ h := absurd rfl h
  called h := by cases h
  sound _ h := by cases h

/-- A consumer that has not called yet. -/
theorem consumerOk_init (r : Trial) : ConsumerOk r (fun _ => .idle) ⟨0,0,.enter⟩ where
  later _ _ := rfl
  buffer _ h := absurd rfl h
  called h := by cases h
  holds _ _ h := by cases h
  last := .inl rfl
  newest h := by cases h
  sound _ h := by cases h

/-- Nothing is marked at first. -/
theorem card_marked_false (bound : ℕ) : (marked (fun _ => false) bound).card=0 := by
  rw [Finset.card_eq_zero,Finset.eq_empty_iff_forall_notMem]
  intro i hi
  exact Bool.false_ne_true (mem_marked.mp hi).2

/-- Before the threads run. -/
theorem inv_init (r : Trial) : Inv r (init n m) (workers n m) 0 0 where
  queue := .init
  memory := memory_init n m
  working p := iff_of_true (mem_workers p) (by simp [init])
  pushers _ _ _ := rfl
  producers p := producerOk_init r p
  consumers _ := consumerOk_init r
  waits _ := trivial
  published g := by
    refine iff_of_false Bool.false_ne_true ?_
    rintro ⟨p,l,hpos,-,-,hmarked⟩
    rcases hmarked with hlt | ⟨-,hpc⟩
    · exact absurd hpos (Nat.not_le_of_lt hlt)
    · cases hpc
  pushedCount := by
    simp only [init,uncounted,card_marked_false,Finset.sum_const_zero,Nat.add_zero]
  consumed _ hg := absurd hg Bool.false_ne_true
  poppedCount := by
    simp only [init,unmarked,card_marked_false,Finset.sum_const_zero,Nat.add_zero]
  clean := rfl

/-- The invariant holds throughout the run. -/
theorem reachable_inv {r : Trial} {s : State r.config.producers r.config.consumers}
    (h : Reachable (system r) s) : ∃ active pushed popped,Inv r s active pushed popped := by
  refine Reachable.invariant (I:=fun s => ∃ active pushed popped,Inv r s active pushed popped)
    ⟨_,_,_,inv_init r⟩ ?_ h
  rintro s a s' - ⟨active,pushed,popped,hinv⟩ hs
  cases a with
  | producer p ts spurious expired =>
    obtain ⟨active',pushed',hnext⟩ := hinv.stepProducer rfl hs
    exact ⟨active',pushed',popped,hnext⟩
  | consumer c ts spurious pushedFirst =>
    obtain ⟨popped',hnext⟩ := hinv.stepConsumer rfl hs
    exact ⟨active,pushed,popped',hnext⟩

end Start

section Live

variable {r : Trial} {s : State n m} {active : Finset (Thread n m)} {pushed popped : ℕ}

/-- A counter can be incremented. -/
theorem increment_live (h : Inv r s active pushed popped) (t : Thread n m) {a : Counter} {k : ℕ}
    (hchain : Chained s.history a id k) : ∃ s',s.increment t a k=some s' := by
  obtain ⟨done,hdone⟩ := hchain.updatable h.memory.sane t .relaxed (·+1)
  exact ⟨_,Option.map_eq_some_iff.mpr ⟨done,hdone,rfl⟩⟩

/-- A counter can be loaded. -/
theorem loadAt_live (h : Inv r s active pushed popped) (t : Thread n m) (order : LoadOrder)
    (a : Counter) (next : State n m → ℕ → State n m) :
    ∃ ts s',s.loadAt t order a ts next=some s' := by
  obtain ⟨loaded,hloaded⟩ := (h.memory.sane.threads t).loadable order a
  exact ⟨_,_,Option.map_eq_some_iff.mpr ⟨loaded,hloaded,rfl⟩⟩

/-- The queue makes a step for the run. -/
theorem stepQueue_live {a : MpmcMemoryModel.Action (Call n m)}
    (h : ∃ queue,MpmcMemoryModel.step r.ring Prod.fst s.queue a=some queue) :
    ∃ s',s.stepQueue r a=some s' := by
  obtain ⟨queue,hqueue⟩ := h
  exact ⟨_,Option.map_eq_some_iff.mpr ⟨queue,hqueue,rfl⟩⟩

/-- A producer that has not returned has a next step. -/
theorem producer_live (h : Inv r s active pushed popped) (p : Fin n) (expired : Bool)
    (hp : (s.producer p).pc≠.exited) :
    ∃ ts s',step r s (.producer p ts false expired)=some s' := by
  have hok := h.producers p
  simp only [step,stepProducer]
  cases hpc : (s.producer p).pc with
  | test =>
    by_cases hmore : (s.producer p).localSequence ≤ r.config.iterations ∧ expired=false
    · have hidle := hok.later (s.producer p).localSequence (s.producer p).attempts
        (.inr ⟨rfl,le_rfl⟩)
      obtain ⟨s₁,hs₁⟩ := stepQueue_live (r:=r) (callPush_live hidle
        (r.payload p (s.producer p).localSequence))
      simp only [if_pos hmore]
      exact ⟨0,_,Option.map_eq_some_iff.mpr ⟨s₁,hs₁,rfl⟩⟩
    · simp only [if_neg hmore]
      exact ⟨0,_,rfl⟩
  | pushing =>
    have hcalled := (hok.called hpc).2
    cases hcall : s.queue.push (.producer p,(s.producer p).localSequence,
        (s.producer p).attempts-1) with
    | idle => exact absurd hcall hcalled
    | running payload pc =>
      obtain ⟨ts,hts⟩ := h.delivers.push_live _ _ _ hcall
      obtain ⟨s₁,hs₁⟩ := stepQueue_live hts
      exact ⟨ts,s₁,hs₁⟩
    | returned payload position result => exact ⟨0,_,rfl⟩
  | mark => exact ⟨0,_,rfl⟩
  | countPushed =>
    obtain ⟨s₁,hs₁⟩ := increment_live h (.producer p) h.memory.signOff.counted
    exact ⟨_,_,Option.map_eq_some_iff.mpr ⟨s₁,hs₁,rfl⟩⟩
  | countFull =>
    obtain ⟨k,hchain⟩ := h.memory.fullChain
    obtain ⟨s₁,hs₁⟩ := increment_live h (.producer p) hchain
    exact ⟨_,_,Option.map_eq_some_iff.mpr ⟨s₁,hs₁,rfl⟩⟩
  | fail result => exact absurd hpc (hok.sound result)
  | leave =>
    obtain ⟨done,hdone⟩ :=
      h.memory.signOff.signed.updatable h.memory.sane (.producer p) .acqRel (·-1)
    exact ⟨_,_,Option.map_eq_some_iff.mpr ⟨done,hdone,rfl⟩⟩
  | exited => exact absurd hpc hp

/-- A consumer that has not returned has a next step. -/
theorem consumer_live (h : Inv r s active pushed popped) (c : Fin m) (pushedFirst : Bool)
    (hc : (s.consumer c).pc≠.exited) :
    ∃ ts s',step r s (.consumer c ts false pushedFirst)=some s' := by
  have hok := h.consumers c
  simp only [step,stepConsumer]
  cases hpc : (s.consumer c).pc with
  | enter =>
    have hidle := hok.later (s.consumer c).calls le_rfl
    obtain ⟨s₁,hs₁⟩ := stepQueue_live (r:=r) (callPop_live hidle
      (List.replicate r.config.payloadSize 0))
    exact ⟨0,_,Option.map_eq_some_iff.mpr ⟨s₁,hs₁,rfl⟩⟩
  | popping =>
    have hcalled := (hok.called hpc).2
    cases hcall : s.queue.pop (.consumer c,(s.consumer c).calls-1,0) with
    | idle => exact absurd hcall hcalled
    | running original destination pc =>
      obtain ⟨ts,hts⟩ := h.delivers.pop_live _ _ _ _ hcall
      obtain ⟨s₁,hs₁⟩ := stepQueue_live hts
      exact ⟨ts,s₁,hs₁⟩
    | returned original destination position result => exact ⟨0,_,rfl⟩
  | countPopped payload result =>
    obtain ⟨s₁,hs₁⟩ := increment_live h (.consumer c) h.memory.poppedChain
    exact ⟨_,_,Option.map_eq_some_iff.mpr ⟨s₁,hs₁,rfl⟩⟩
  | checkOrder payload result => exact ⟨0,_,rfl⟩
  | validate payload result => exact ⟨0,_,rfl⟩
  | mark payload result => exact ⟨0,_,rfl⟩
  | countEmpty =>
    obtain ⟨k,hchain⟩ := h.memory.emptyChain
    obtain ⟨s₁,hs₁⟩ := increment_live h (.consumer c) hchain
    exact ⟨_,_,Option.map_eq_some_iff.mpr ⟨s₁,hs₁,rfl⟩⟩
  | loadRemaining => exact loadAt_live h _ _ _ _
  | compare found known =>
    cases found with
    | none =>
      cases known with
      | none =>
        cases pushedFirst with
        | false =>
          simp only [Bool.false_eq_true,if_false]
          exact loadAt_live h _ _ _ _
        | true =>
          simp only [if_true]
          exact loadAt_live h _ _ _ _
      | some known => exact loadAt_live h _ _ _ _
    | some found =>
      cases known with
      | none => exact loadAt_live h _ _ _ _
      | some known => exact ⟨0,_,rfl⟩
  | fail result => exact absurd hpc (hok.sound result)
  | exited => exact absurd hpc hc

end Live

section End

variable {r : Trial} {s : State n m} {active : Finset (Thread n m)} {pushed popped : ℕ}

/-- Behind the producers every message that was taken is marked as published. -/
theorem published_of_consumed (h : Inv r s active pushed popped) (hexit : Exited s) {g : ℕ}
    (hg : s.consumed g=true) : s.published g=true := by
  obtain ⟨c,k,p,l,-,-,htaken,hglobal⟩ := h.consumed g hg
  obtain ⟨hpos,hl⟩ := h.taken_within htaken
  obtain ⟨original,position,result,a,-,presult,hpush⟩ := htaken
  have hok := h.producers p
  have hclaimed : Claimed (s.queue.push (.producer p,l,a)) := by
    simp [Claimed,hpush,PushCall.position]
  refine (h.published g).mpr ⟨p,l,hpos,hl,hglobal,.inl ?_⟩
  rcases Nat.lt_trichotomy l (s.producer p).localSequence with hlt | heq | hgt
  · exact hlt
  · have hsending := (hok.present a (heq ▸ hclaimed)).1
    rw [hexit.1 p] at hsending
    cases hsending
  · exact absurd (hok.later l a (.inl hgt)) (by simp [hpush])

/-- Marks of published messages are within the bound. -/
theorem published_lt (h : Inv r s active pushed popped) (hn : n=r.config.producers) {g : ℕ}
    (hg : s.published g=true) : g < bound r := by
  obtain ⟨p,l,-,hl,hglobal,-⟩ := (h.published g).mp hg
  rw [hglobal]
  exact Nat.lt_succ_of_le (r.globalSequence_le (hn ▸ p.isLt) hl)

/-- Nothing is between mark and counter when all threads have returned. -/
theorem counts_of_exited (h : Inv r s active pushed popped) (hexit : Exited s) :
    pushed=(marked s.published (bound r)).card ∧ popped=(marked s.consumed (bound r)).card := by
  have hpushed := h.pushedCount
  have hpopped := h.poppedCount
  simp only [uncounted,unmarked,hexit.1,hexit.2,Finset.sum_const_zero,Nat.add_zero] at hpushed hpopped
  exact ⟨hpushed,hpopped⟩

/-- When all threads have returned every published message was consumed. -/
theorem drained (h : Inv r s active pushed popped) (hn : n=r.config.producers)
    (hm : m=r.config.consumers) (hexit : Exited s) :
    popped=pushed ∧ ∀ g,s.published g=s.consumed g := by
  obtain ⟨hpushed,hpopped⟩ := counts_of_exited h hexit
  -- a consumer leaves its loop only when no fewer messages were popped than pushed
  have hle : pushed≤popped := by
    have hwait := h.waits ⟨0,hm ▸ r.valid.consumers.1⟩
    rw [hexit.2] at hwait
    exact hwait.2
  have hsub : marked s.consumed (bound r) ⊆ marked s.published (bound r) := by
    intro g hg
    obtain ⟨hlt,hmark⟩ := mem_marked.mp hg
    exact mem_marked.mpr ⟨hlt,published_of_consumed h hexit hmark⟩
  -- consumed messages are among the published ones and not fewer
  have hsame : marked s.consumed (bound r)=marked s.published (bound r) :=
    Finset.eq_of_subset_of_card_le hsub (by omega)
  refine ⟨by rw [hpopped,hsame,hpushed],?_⟩
  intro g
  rw [Bool.eq_iff_iff]
  constructor
  · intro hg
    have hmember := mem_marked.mpr ⟨published_lt h hn hg,hg⟩
    rw [← hsame] at hmember
    exact (mem_marked.mp hmember).2
  · exact published_of_consumed h hexit

/-- Equal marks are no difference. -/
theorem compareMarks_of_eq (h : ∀ g,s.published g=s.consumed g) :
    compareMarks r s=(0,s.failures) := by
  unfold compareMarks
  refine List.foldlRecOn (motive := fun found => found=(0,s.failures)) _ _ rfl ?_
  rintro _ rfl index -
  simp only [h index,ne_eq,not_true_eq_false,if_false]

/-- Every thread is joined. -/
theorem mem_threads (t : Thread n m) : t ∈ threads n m := by
  cases t with
  | producer p => simp [threads]
  | consumer c => simp [threads]

/-- The main thread knows what a thread knew. -/
theorem known_join {views : Thread n m → Local (Thread n m) Counter} {a : Counter} {count : ℕ}
    (h : Known views a count) : count ≤ (join views (threads n m)).current.seen a := by
  rcases h with rfl | ⟨t,ht⟩
  · exact Nat.zero_le _
  · exact ht.trans (View.seen_le (le_join views (mem_threads t)) a)

/-- What the main thread reports. -/
theorem finish_eq (h : Inv r s active pushed popped) (hn : n=r.config.producers)
    (hm : m=r.config.consumers) (hexit : Exited s) {pushedTs poppedTs : ℕ} {report : Report}
    (hf : finish r s pushedTs poppedTs=some report) : report=⟨pushed,pushed,0,none⟩ := by
  obtain ⟨htotal,hmarks⟩ := drained h hn hm hexit
  unfold finish at hf
  rw [compareMarks_of_eq hmarks,h.clean] at hf
  obtain ⟨⟨found,main⟩,hfirst,hf⟩ := Option.bind_eq_some_iff.mp hf
  obtain ⟨⟨found',main'⟩,hsecond,hf⟩ := Option.bind_eq_some_iff.mp hf
  obtain ⟨hvalue,hle,hseen⟩ := h.memory.signOff.counted.load hfirst
  obtain ⟨hvalue',hle',hseen'⟩ := h.memory.poppedChain.load hsecond
  have hpushed : found=pushed :=
    hvalue.trans (Nat.le_antisymm hle ((known_join h.memory.knownPushed).trans hseen))
  have hpopped : found'=pushed := by
    have hkeeps : popped ≤ main.current.seen .popped := by
      obtain ⟨_,-,-,-,rfl⟩ := load_eq_some hfirst
      exact (known_join h.memory.knownPopped).trans
        (View.seen_le (le_observe .relaxed _ Counter.pushed pushedTs _) Counter.popped)
    rw [← htotal]
    exact hvalue'.trans (Nat.le_antisymm hle' (hkeeps.trans hseen'))
  subst hpushed hpopped
  simp only [ne_eq,not_true_eq_false,or_self,if_false] at hf
  cases hf
  rfl

/-- The main thread can load the last values. -/
theorem finish_live (h : Inv r s active pushed popped) :
    ∃ report,finish r s pushed popped=some report := by
  have hseen : ∀ {a : Counter} {k : ℕ},Chained s.history a id k →
      (join s.views (threads n m)).current.seen a ≤ k := by
    intro a k hchain
    obtain ⟨_,hlast,-⟩ := hchain.latest
    exact join_seen_le fun t _ => hlast.seen_le (h.memory.sane.threads t).current
  obtain ⟨first,hfirst⟩ := h.memory.signOff.counted.loadable
    (hseen h.memory.signOff.counted) .relaxed
  have hother : (observe .relaxed (join s.views (threads n m)) .pushed pushed first).current.seen
      .popped ≤ popped := by
    rw [observe,View.see_of_ne _ _ (by decide)]
    exact hseen h.memory.poppedChain
  obtain ⟨second,hsecond⟩ := h.memory.poppedChain.loadable hother .relaxed
  unfold finish
  simp only [hfirst,hsecond,Option.bind_eq_bind,Option.bind_some]
  split <;> exact ⟨_,rfl⟩

end End

/-- What holds in a state of the run. -/
structure Passes (r : Trial) (s : State r.config.producers r.config.consumers) : Prop where
  /-- No failure was recorded. -/
  clean : s.failures=none
  /-- A producer that has not returned has a next step, whatever the clock says. -/
  producers : ∀ p expired,(s.producer p).pc≠.exited →
    ∃ ts s',step r s (.producer p ts false expired)=some s'
  /-- A consumer that has not returned has a next step. -/
  consumers : ∀ c pushedFirst,(s.consumer c).pc≠.exited →
    ∃ ts s',step r s (.consumer c ts false pushedFirst)=some s'
  /-- When all threads have returned every published message was consumed. -/
  delivered : Exited s → ∀ g,s.published g=s.consumed g
  /-- The main thread then finishes. -/
  finished : Exited s → ∃ pushedTs poppedTs report,finish r s pushedTs poppedTs=some report
  /-- It reports equal totals, nothing missing and no failure. -/
  passed : Exited s → ∀ pushedTs poppedTs report,finish r s pushedTs poppedTs=some report →
    report.passed=true ∧ report.missing=0 ∧ report.pushed=report.popped

/-- Under RC11 the stress run of the MPMC queue never records a failure,
whatever the interleaving, the clock and the values that loads return, and it
passes. -/
theorem mpmc_stress_passes (r : Trial) {s : State r.config.producers r.config.consumers}
    (h : Reachable (system r) s) : Passes r s := by
  obtain ⟨active,pushed,popped,hinv⟩ := reachable_inv h
  refine {
    clean := hinv.clean
    producers := producer_live hinv
    consumers := consumer_live hinv
    delivered := fun hexit => (drained hinv rfl rfl hexit).2
    finished := fun _ => ⟨pushed,popped,finish_live hinv⟩
    passed := ?_}
  intro hexit pushedTs poppedTs report hf
  rw [finish_eq hinv rfl rfl hexit hf]
  exact ⟨rfl,rfl,rfl⟩

instance (s : State n m) : Decidable (Exited s) := inferInstanceAs (Decidable ((∀ _,_) ∧ ∀ _,_))

/-- One message of each of two producers, for two consumers. -/
def contendedConfig : Config := ⟨0,1,1,"mpmc",2,2,32,2,false⟩

/-- A run with these messages, the generator of bytes being constant. -/
def contended : Trial where
  config := contendedConfig
  valid := {
    seed := by decide
    duration := by decide
    iterations := by decide
    queue := by decide
    producers := by decide
    consumers := by decide
    payload := by decide
    capacity := by decide
    mpmc := fun _ => rfl
    spsc := by decide
    multicast := by decide }
  random := fun _ _ => 0
  selected := .inr rfl

/-- The producers and then the consumers take turns. The second producer loses
its first position to the first one. The first consumer does not see a message
at first, nor that the producers have signed off, and looks again while the
second one consumes the first message. -/
def contendedSchedule : List (Action 2 2) :=
  let producers (first second : ℕ) : List (Action 2 2) :=
    [.producer ⟨0,Nat.zero_lt_two⟩ first false false,
      .producer ⟨1,Nat.one_lt_two⟩ second false false]
  let consumers (first second : ℕ) : List (Action 2 2) :=
    [.consumer ⟨0,Nat.zero_lt_two⟩ first false false,
      .consumer ⟨1,Nat.one_lt_two⟩ second false false]
  [(3,producers 0 0),(1,producers 0 1),(1,producers 0 0),(1,producers 0 1),(33,producers 0 0),
    (1,producers 1 0),(1,producers 0 0),(1,producers 0 1),(2,producers 0 0),(1,producers 0 1),
    (1,producers 0 0),(1,producers 0 1),
    (2,consumers 0 0),(1,consumers 0 1),(4,consumers 0 0),(3,consumers 1 0),(30,consumers 0 0),
    (1,consumers 0 2),(5,consumers 0 0),(1,consumers 2 0),(1,consumers 0 2),(1,consumers 1 2),
    (1,consumers 0 0),(1,consumers 0 1),(2,consumers 0 2),(1,consumers 2 2),(1,consumers 2 0),
    (1,consumers 0 0),(4,consumers 2 0)].flatMap
      fun part => (List.replicate part.1 part.2).flatten

/-- A whole run in which two messages are sent and consumed. -/
theorem mpmc_stress_passes_contended :
    Exited (run (system contended) contendedSchedule) ∧
    (run (system contended) contendedSchedule).published 1=true ∧
    (run (system contended) contendedSchedule).published 2=true ∧
    Passes contended (run (system contended) contendedSchedule) :=
  ⟨by decide +kernel,by decide +kernel,by decide +kernel,
    mpmc_stress_passes contended (run_reachable _ _)⟩

end Line64.StressMpmcDelivery
