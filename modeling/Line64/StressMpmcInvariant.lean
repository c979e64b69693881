import Mathlib.Data.Fintype.Basic
import Line64.Census
import Line64.MpmcMemoryCalls
import Line64.StressMpmc

/-!
# What holds throughout the stress run of the MPMC queue

A message is accepted by at most one call of `try_push` and returned by at
most one call of `try_pop`. The counters count the marks, up to messages that
are on their way between the two. A consumer that found all producers signed
off knows the final value of `pushed`.
-/

namespace Line64.StressMpmcInvariant

open Function Result BenchmarkPayload Transition ReleaseAcquire AtomicCounters Census StressConfig
  StressPayload StressMpmc MpmcMemoryCalls
open MpmcModel (PushCall PopCall)

/-- The push has claimed a position. -/
def Claimed (call : PushCall) : Prop := call.position≠none

/-- The message is being sent, or was accepted and is not yet counted. -/
def sending : ProducerPc → Bool
  | .pushing => true
  | .mark => true
  | .countPushed => true
  | _ => false

/-- What the calls of one producer have done. -/
structure ProducerOk (r : Trial) (p : ℕ) (push : ℕ → ℕ → PushCall) (x : Producer) : Prop where
  /-- Messages are numbered from one. -/
  pos : 1 ≤ x.localSequence
  /-- There are no more messages than configured. -/
  le : x.localSequence ≤ r.config.iterations+1
  /-- The message that is being sent is one of them. -/
  within : sending x.pc=true → x.localSequence ≤ r.config.iterations
  /-- Calls that are still to come. -/
  later : ∀ l a,x.localSequence<l ∨ l=x.localSequence ∧ x.attempts ≤ a → push l a=.idle
  /-- Calls carry their message. -/
  payload : ∀ l a,push l a≠.idle →
    payloadOf (push l a)=some (r.payload p l) ∧ 1≤l ∧ l ≤ r.config.iterations
  /-- A message is accepted once. -/
  once : ∀ l a a',Claimed (push l a) → Claimed (push l a') → a=a'
  /-- The present message is accepted by the last call, if it is. -/
  present : ∀ a,Claimed (push x.localSequence a) → sending x.pc=true ∧ a+1=x.attempts
  /-- The call in progress. -/
  called : x.pc=.pushing → 1 ≤ x.attempts ∧ push x.localSequence (x.attempts-1)≠.idle
  /-- Nothing unexpected was returned. -/
  sound : ∀ result,x.pc≠.fail result

/-- The message in the hands of a consumer. -/
def held : ConsumerPc → Option (List Byte × ReadResult)
  | .countPopped payload result => some (payload,result)
  | .checkOrder payload result => some (payload,result)
  | .validate payload result => some (payload,result)
  | .mark payload result => some (payload,result)
  | _ => none

/-- What the last call returned, if anything, is not yet marked. -/
def pending : ConsumerPc → Bool
  | .popping => true
  | pc => (held pc).isSome

/-- The sequence of the last call has not been looked at. -/
def unchecked : ConsumerPc → Bool
  | .popping => true
  | .countPopped _ _ => true
  | .checkOrder _ _ => true
  | _ => false

/-- What the calls of one consumer have done. -/
structure ConsumerOk (r : Trial) (pop : ℕ → PopCall) (x : Consumer) : Prop where
  /-- Calls that are still to come. -/
  later : ∀ k,x.calls ≤ k → pop k=.idle
  /-- Every call was given room for a message. -/
  buffer : ∀ k,pop k≠.idle → originalOf (pop k)=some (List.replicate r.config.payloadSize 0)
  /-- The call in progress. -/
  called : x.pc=.popping → 1 ≤ x.calls ∧ pop (x.calls-1)≠.idle
  /-- The message at hand was returned by the last call. -/
  holds : ∀ payload result,held x.pc=some (payload,result) → 1 ≤ x.calls ∧
    ∃ original position,pop (x.calls-1)=.returned original payload (some position) result
  /-- The last sequence belongs to an earlier call. -/
  last : x.lastQueueSequence=0 ∨ ∃ k position,k < x.calls ∧ (pop k).position=some position ∧
    x.lastQueueSequence=position+1 ∧ (unchecked x.pc=true → k+1≠x.calls)
  /-- Positions ascend. -/
  newest : unchecked x.pc=true → ∀ position,(pop (x.calls-1)).position=some position →
    x.lastQueueSequence ≤ position
  /-- Nothing unexpected was returned. -/
  sound : ∀ result,x.pc≠.fail result

/-- Somebody has seen the last value of a counter. -/
def Known {τ α : Type} (views : τ → Local τ α) (a : α) (count : ℕ) : Prop :=
  count=0 ∨ ∃ t,count ≤ (views t).current.seen a

/-- The counters. -/
structure Memory {n m : ℕ} (history : History (Thread n m) Counter ℕ)
    (views : Thread n m → Local (Thread n m) Counter) (active : Finset (Thread n m))
    (pushed popped : ℕ) : Prop where
  /-- Views point to values. -/
  sane : Sane history views
  /-- Producers count and sign off. -/
  signOff : SignOff history views .pushed .remainingProducers active n pushed
  /-- The counter `popped`. -/
  poppedChain : Chained history .popped id popped
  /-- The counter `full_retries`. -/
  fullChain : ∃ k,Chained history .fullRetries id k
  /-- The counter `empty_retries`. -/
  emptyChain : ∃ k,Chained history .emptyRetries id k
  /-- The last value of `pushed` was seen. -/
  knownPushed : Known views .pushed pushed
  /-- The last value of `popped` was seen. -/
  knownPopped : Known views .popped popped

/-- What a consumer knows about the end of the run. -/
def Waits {n m : ℕ} (views : Thread n m → Local (Thread n m) Counter)
    (active : Finset (Thread n m)) (pushed popped : ℕ) (c : Fin m) : ConsumerPc → Prop
  | .compare found known => active=∅ ∧ pushed ≤ (views (.consumer c)).current.seen .pushed ∧
      (∀ v,found=some v → v≤popped) ∧ ∀ v,known=some v → v=pushed
  | .exited => active=∅ ∧ pushed≤popped
  | _ => True

variable {n m : ℕ}

/-- The pop returned this message of this producer. -/
def Taken (r : Trial) (queue : MpmcMemoryModel.State (Call n m) (Thread n m) maxPayloadSize)
    (j : Call n m) (p : Fin n) (l : ℕ) : Prop :=
  ∃ original position result a,
    queue.pop j=.returned original (r.payload p l) (some position) result ∧
    (queue.push (.producer p,l,a)).Published (r.payload p l) position

/-- One for a message that is marked and not yet counted. -/
def uncounted (x : Producer) : ℕ :=
  match x.pc with
  | .countPushed => 1
  | _ => 0

/-- One for a message that is counted and not yet marked. -/
def unmarked (x : Consumer) : ℕ :=
  match x.pc with
  | .checkOrder _ _ => 1
  | .validate _ _ => 1
  | .mark _ _ => 1
  | _ => 0

/-- One more than the number of the last message. -/
def bound (r : Trial) : ℕ := r.config.iterations*r.config.producers+1

/-- The message was marked by its producer. -/
def Marked (x : Producer) (l : ℕ) : Prop :=
  l < x.localSequence ∨ l=x.localSequence ∧ x.pc=.countPushed

/-- The inductive invariant. -/
structure Inv (r : Trial) (s : State n m) (active : Finset (Thread n m)) (pushed popped : ℕ) :
    Prop where
  /-- The queue is in a state of its own. -/
  queue : Reachable (MpmcMemoryModel.system r.ring Prod.fst maxPayloadSize) s.queue
  /-- The counters. -/
  memory : Memory s.history s.views active pushed popped
  /-- Producers that have not signed off. -/
  working : ∀ p,.producer p ∈ active ↔ (s.producer p).pc≠.exited
  /-- Only producers push. -/
  pushers : ∀ c l a,s.queue.push (.consumer c,l,a)=.idle
  /-- The producers. -/
  producers : ∀ p : Fin n,ProducerOk r p (fun l a => s.queue.push (.producer p,l,a)) (s.producer p)
  /-- The consumers. -/
  consumers : ∀ c,ConsumerOk r (fun k => s.queue.pop (.consumer c,k,0)) (s.consumer c)
  /-- The end of the run. -/
  waits : ∀ c,Waits s.views active pushed popped c (s.consumer c).pc
  /-- Marks of published messages. -/
  published : ∀ g,s.published g=true ↔ ∃ (p : Fin n) (l : ℕ),1≤l ∧ l ≤ r.config.iterations ∧
    g=r.globalSequence p l ∧ Marked (s.producer p) l
  /-- Marked messages are counted, or about to be. -/
  pushedCount : pushed+∑ p,uncounted (s.producer p)=(marked s.published (bound r)).card
  /-- Consumed messages were returned by earlier calls. -/
  consumed : ∀ g,s.consumed g=true → ∃ c k p l,k < (s.consumer c).calls ∧
    (pending (s.consumer c).pc=true → k+1≠(s.consumer c).calls) ∧
    Taken r s.queue (.consumer c,k,0) p l ∧ g=r.globalSequence p l
  /-- Counted messages are marked, or about to be. -/
  poppedCount : popped=(marked s.consumed (bound r)).card+∑ c,unmarked (s.consumer c)
  /-- No failure was recorded. -/
  clean : s.failures=none

section Memory

variable {history history' : History (Thread n m) Counter ℕ}
  {views : Thread n m → Local (Thread n m) Counter} {active : Finset (Thread n m)}
  {pushed popped ts found : ℕ} {t : Thread n m} {l : Local (Thread n m) Counter}

/-- Somebody sees more. -/
theorem Known.observe {a : Counter} {count : ℕ} (h : Known views a count)
    (hle : (views t).current ≤ l.current) : Known (update views t l) a count := by
  rcases h with hzero | ⟨u,hu⟩
  · exact .inl hzero
  · exact .inr ⟨u,hu.trans (seen_le_update views hle u a)⟩

/-- A counter is incremented by somebody who then knows its value. -/
theorem Known.increment {a : Counter} {order : UpdateOrder} {f : ℕ → ℕ}
    (hx : fetchUpdate history (views t) order a ts f=some (found,history',l)) :
    Known (update views t l) a (ts+1) := by
  obtain ⟨m,-,-,-,-,rfl⟩ := fetchUpdate_eq_some hx
  refine .inr ⟨t,?_⟩
  rw [update_self]
  exact updated_seen (views t) order a ts m

/-- A read-modify-write adds to the views of its thread. -/
theorem le_of_fetchUpdate {a : Counter} {order : UpdateOrder} {f : ℕ → ℕ}
    (hx : fetchUpdate history (views t) order a ts f=some (found,history',l)) :
    (views t).current ≤ l.current := by
  obtain ⟨m,-,-,-,-,rfl⟩ := fetchUpdate_eq_some hx
  exact le_updated (views t) order a ts m

/-- A counter that is only counted keeps its values when another one changes. -/
theorem chain_elsewhere {a b : Counter} {order : UpdateOrder} {f : ℕ → ℕ}
    (h : ∃ k,Chained history a id k) (hb : a≠b)
    (hx : fetchUpdate history (views t) order b ts f=some (found,history',l)) :
    ∃ k,Chained history' a id k :=
  h.imp fun _ hk => hk.fetchUpdate_of_ne hb hx

/-- A counter that is only counted is incremented. -/
theorem chain_increment {a : Counter} {order : UpdateOrder} (h : ∃ k,Chained history a id k)
    (hx : fetchUpdate history (views t) order a ts (·+1)=some (found,history',l)) :
    ∃ k,Chained history' a id k := by
  obtain ⟨k,hk⟩ := h
  exact ⟨k+1,(hk.fetchUpdate rfl hx).2.2⟩

/-- A counter is loaded. -/
theorem Memory.load (h : Memory history views active pushed popped) {order : LoadOrder}
    {a : Counter} (hl : load history (views t) order a ts=some (found,l)) :
    Memory history (update views t l) active pushed popped := by
  have hle : (views t).current ≤ l.current := by
    obtain ⟨m,-,-,-,rfl⟩ := load_eq_some hl
    exact le_observe order (views t) a ts m
  exact ⟨h.sane.load hl,h.signOff.observe hle,h.poppedChain,h.fullChain,h.emptyChain,
    h.knownPushed.observe hle,h.knownPopped.observe hle⟩

/-- A producer counts a message. -/
theorem Memory.push (h : Memory history views active pushed popped) (ht : t ∈ active)
    (hx : fetchUpdate history (views t) .relaxed .pushed ts (·+1)=some (found,history',l)) :
    Memory history' (update views t l) active (pushed+1) popped := by
  obtain ⟨rfl,-,-⟩ := h.signOff.counted.fetchUpdate rfl hx
  exact ⟨sane_fetchUpdate h.sane hx,h.signOff.tally ht (by decide) hx,
    h.poppedChain.fetchUpdate_of_ne (by decide) hx,chain_elsewhere h.fullChain (by decide) hx,
    chain_elsewhere h.emptyChain (by decide) hx,Known.increment hx,
    h.knownPopped.observe (le_of_fetchUpdate hx)⟩

/-- A producer signs off. -/
theorem Memory.leave (h : Memory history views active pushed popped) (ht : t ∈ active)
    (hx : fetchUpdate history (views t) .acqRel .remainingProducers ts (·-1)=
      some (found,history',l)) :
    Memory history' (update views t l) (active.erase t) pushed popped := by
  have hle := le_of_fetchUpdate hx
  exact ⟨sane_fetchUpdate h.sane hx,h.signOff.leave ht (by decide) hx,
    h.poppedChain.fetchUpdate_of_ne (by decide) hx,chain_elsewhere h.fullChain (by decide) hx,
    chain_elsewhere h.emptyChain (by decide) hx,h.knownPushed.observe hle,
    h.knownPopped.observe hle⟩

/-- A consumer counts a message. -/
theorem Memory.pop (h : Memory history views active pushed popped)
    (hx : fetchUpdate history (views t) .relaxed .popped ts (·+1)=some (found,history',l)) :
    Memory history' (update views t l) active pushed (popped+1) := by
  obtain ⟨rfl,-,hchain⟩ := h.poppedChain.fetchUpdate rfl hx
  exact ⟨sane_fetchUpdate h.sane hx,h.signOff.elsewhere (by decide) (by decide) hx,hchain,
    chain_elsewhere h.fullChain (by decide) hx,chain_elsewhere h.emptyChain (by decide) hx,
    h.knownPushed.observe (le_of_fetchUpdate hx),Known.increment hx⟩

/-- A producer counts a full queue. -/
theorem Memory.full (h : Memory history views active pushed popped)
    (hx : fetchUpdate history (views t) .relaxed .fullRetries ts (·+1)=some (found,history',l)) :
    Memory history' (update views t l) active pushed popped := by
  have hle := le_of_fetchUpdate hx
  exact ⟨sane_fetchUpdate h.sane hx,h.signOff.elsewhere (by decide) (by decide) hx,
    h.poppedChain.fetchUpdate_of_ne (by decide) hx,chain_increment h.fullChain hx,
    chain_elsewhere h.emptyChain (by decide) hx,h.knownPushed.observe hle,
    h.knownPopped.observe hle⟩

/-- A consumer counts an empty queue. -/
theorem Memory.empty (h : Memory history views active pushed popped)
    (hx : fetchUpdate history (views t) .relaxed .emptyRetries ts (·+1)=some (found,history',l)) :
    Memory history' (update views t l) active pushed popped := by
  have hle := le_of_fetchUpdate hx
  exact ⟨sane_fetchUpdate h.sane hx,h.signOff.elsewhere (by decide) (by decide) hx,
    h.poppedChain.fetchUpdate_of_ne (by decide) hx,chain_elsewhere h.fullChain (by decide) hx,
    chain_increment h.emptyChain hx,h.knownPushed.observe hle,h.knownPopped.observe hle⟩

end Memory

section Queue

variable {r : Trial}
  {queue queue' : MpmcMemoryModel.State (Call n m) (Thread n m) maxPayloadSize}

/-- What has returned stays as it is. -/
structure Keeps (queue queue' : MpmcMemoryModel.State (Call n m) (Thread n m) maxPayloadSize) :
    Prop where
  /-- Pushes. -/
  pushes : ∀ i payload position,(queue.push i).Published payload position →
    (queue'.push i).Published payload position
  /-- Pops. -/
  pops : ∀ j original destination position result,
    queue.pop j=.returned original destination position result →
    queue'.pop j=.returned original destination position result

/-- Nothing happened. -/
theorem Keeps.refl (queue : MpmcMemoryModel.State (Call n m) (Thread n m) maxPayloadSize) :
    Keeps queue queue := ⟨fun _ _ _ => id,fun _ _ _ _ _ => id⟩

/-- A push is called or makes an access. -/
theorem Keeps.of_pop_eq {a : MpmcMemoryModel.Action (Call n m)}
    (hs : MpmcMemoryModel.step r.ring Prod.fst queue a=some queue')
    (hpop : queue'.pop=queue.pop) : Keeps queue queue' where
  pushes _ _ _ := MpmcMemoryDelivery.published_step hs
  pops _ _ _ _ _ hj := by rw [hpop,hj]

/-- A pop is called or makes an access. -/
theorem Keeps.of_update {a : MpmcMemoryModel.Action (Call n m)} {j : Call n m} {call : PopCall}
    (hs : MpmcMemoryModel.step r.ring Prod.fst queue a=some queue')
    (hopen : ∀ original destination position result,
      queue.pop j≠.returned original destination position result)
    (hpop : queue'.pop=update queue.pop j call) : Keeps queue queue' where
  pushes _ _ _ := MpmcMemoryDelivery.published_step hs
  pops j' original destination position result hj := by
    have hne : j'≠j := by
      rintro rfl
      exact hopen original destination position result hj
    rw [hpop,update_of_ne hne,hj]

/-- A message that was returned stays returned. -/
theorem Taken.keeps {j : Call n m} {p : Fin n} {l : ℕ} (h : Taken r queue j p l)
    (hk : Keeps queue queue') : Taken r queue' j p l := by
  obtain ⟨original,position,result,a,hpop,hpush⟩ := h
  exact ⟨original,position,result,a,hk.pops _ _ _ _ _ hpop,hk.pushes _ _ _ hpush⟩

end Queue

section Messages

variable {r : Trial} {s : State n m} {active : Finset (Thread n m)} {pushed popped : ℕ}

/-- The queue keeps its contract. -/
theorem Inv.delivers (h : Inv r s active pushed popped) :
    MpmcMemoryDelivery.Delivers r.ring Prod.fst s.queue := by
  obtain ⟨t,ht⟩ := MpmcMemoryRefinement.reachable_related h.queue
  exact MpmcMemoryDelivery.delivers_of_related ht
    (MpmcMemoryDelivery.reachable_answers h.queue)

/-- A message has one pop. -/
theorem Inv.taken_unique (h : Inv r s active pushed popped) {j j' : Call n m} {p : Fin n} {l : ℕ}
    (hj : Taken r s.queue j p l) (hj' : Taken r s.queue j' p l) : j=j' := by
  obtain ⟨original,position,result,a,hpop,result',hpush⟩ := hj
  obtain ⟨original',position',_,a',hpop',_,hpush'⟩ := hj'
  -- both pops took the position of the one push that was accepted
  have hsame : a=a' := (h.producers p).once l a a' (by simp [Claimed,hpush,PushCall.position])
    (by simp [Claimed,hpush',PushCall.position])
  subst hsame
  rw [hpush] at hpush'
  cases hpush'
  exact h.delivers.pop_unique j j' position (by rw [hpop]; rfl) (by rw [hpop']; rfl)

/-- What a consumer got is a message. -/
theorem Inv.taken (h : Inv r s active pushed popped) {c : Fin m} {k position : ℕ}
    {original destination : List Byte} {result : ReadResult}
    (hpop : s.queue.pop (.consumer c,k,0)=.returned original destination (some position) result) :
    ∃ (p : Fin n) (l : ℕ),1≤l ∧ l ≤ r.config.iterations ∧ destination=r.payload p l ∧
      result=⟨.success,r.config.payloadSize,position+1⟩ ∧
      Taken r s.queue (.consumer c,k,0) p l := by
  obtain ⟨⟨t,l,a⟩,payload,⟨presult,hpush⟩,hdelivery⟩ := h.delivers.pop_result _ _ _ _ _ hpop
  cases t with
  | consumer d =>
    rw [h.pushers d l a] at hpush
    cases hpush
  | producer p =>
    have hmade := (h.producers p).payload l a (by simp [hpush])
    simp only [hpush,payloadOf,Option.some.injEq] at hmade
    obtain ⟨rfl,hpos,hle⟩ := hmade
    have hbuffer := (h.consumers c).buffer k (by simp [hpop])
    simp only [hpop,originalOf,Option.some.injEq] at hbuffer
    subst hbuffer
    rw [FixedMessageAccess.delivery,if_neg (by rw [List.length_replicate,r.payload_length]; omega),
      List.drop_eq_nil_of_le (by rw [List.length_replicate,r.payload_length]),List.append_nil,
      r.payload_length,Prod.mk.injEq] at hdelivery
    obtain ⟨rfl,rfl⟩ := hdelivery
    exact ⟨p,l,hpos,hle,rfl,rfl,_,_,_,_,hpop,_,hpush⟩

end Messages

section Steps

variable {r : Trial} {s s' : State n m} {active : Finset (Thread n m)} {pushed popped : ℕ}

/-- Knowledge about the end of the run lasts. -/
theorem Waits.mono {views views' : Thread n m → Local (Thread n m) Counter} {popped' : ℕ}
    {c : Fin m} {pc : ConsumerPc} (h : Waits views active pushed popped c pc)
    (hseen : (views (.consumer c)).current.seen .pushed ≤
      (views' (.consumer c)).current.seen .pushed) (hle : popped≤popped') :
    Waits views' active pushed popped' c pc := by
  cases pc with
  | compare found known =>
    obtain ⟨hnone,hknown,hfound,hvalue⟩ := h
    exact ⟨hnone,hknown.trans hseen,fun v hv => (hfound v hv).trans hle,hvalue⟩
  | exited => exact ⟨h.1,h.2.trans hle⟩
  | _ => trivial

/-- Nobody knows the end of the run while a producer works. -/
theorem Waits.of_active {views views' : Thread n m → Local (Thread n m) Counter}
    {active' : Finset (Thread n m)} {pushed' popped' : ℕ} {c : Fin m} {pc : ConsumerPc}
    {t : Thread n m} (h : Waits views active pushed popped c pc) (ht : t ∈ active) :
    Waits views' active' pushed' popped' c pc := by
  cases pc with
  | compare found known =>
    rw [h.1] at ht
    exact absurd ht (Finset.notMem_empty t)
  | exited =>
    rw [h.1] at ht
    exact absurd ht (Finset.notMem_empty t)
  | _ => trivial

/-- Counters that are not compared change. -/
theorem Inv.setMemory (h : Inv r s active pushed popped) {t : Thread n m}
    {history : History (Thread n m) Counter ℕ} {l : Local (Thread n m) Counter}
    (hmemory : Memory history (update s.views t l) active pushed popped)
    (hle : (s.views t).current ≤ l.current) :
    Inv r (s.setMemory t history l) active pushed popped :=
  {h with
    memory := hmemory
    waits := fun c => (h.waits c).mono (seen_le_update s.views hle (.consumer c) .pushed) le_rfl}

/-- A step of the queue. -/
theorem Inv.stepQueue (h : Inv r s active pushed popped) {a : MpmcMemoryModel.Action (Call n m)}
    (hs : s.stepQueue r a=some s') :
    ∃ queue,MpmcMemoryModel.step r.ring Prod.fst s.queue a=some queue ∧
      Reachable (MpmcMemoryModel.system r.ring Prod.fst maxPayloadSize) queue ∧
      s'={s with queue := queue} := by
  obtain ⟨queue,hqueue,rfl⟩ := Option.map_eq_some_iff.mp hs
  exact ⟨queue,hqueue,h.queue.step (a:=a) hqueue,rfl⟩

/-- An increment. -/
theorem increment_eq_some {t : Thread n m} {a : Counter} {ts : ℕ}
    (hs : s.increment t a ts=some s') :
    ∃ found history l,fetchUpdate s.history (s.views t) .relaxed a ts (·+1)=
      some (found,history,l) ∧ s'=s.setMemory t history l := by
  obtain ⟨⟨found,history,l⟩,hx,rfl⟩ := Option.map_eq_some_iff.mp hs
  exact ⟨found,history,l,hx,rfl⟩

end Steps

end Line64.StressMpmcInvariant
