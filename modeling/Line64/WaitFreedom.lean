import Line64.BoundedSteps
import Line64.SpscMemoryDelivery
import Line64.VersionedMemoryDelivery

/-!
# Calls that cannot be delayed by other threads

`try_push` and `try_pop` of the SPSC queue and `try_publish` and `try_read` of
the versioned queue are wait-free on their memory orders: in every reachable
state a running call has a next access, and however the other threads are
scheduled and whatever their loads return, it returns after a bounded number
of its own accesses. A read of the versioned queue pays for all its attempts.
-/

namespace Line64.WaitFreedom

open Function Result FixedMessageAccess Transition BoundedSteps ReleaseAcquire

/-- A copy from a message that fits leaves one access less. -/
theorem copyStep_rest_le {N : ℕ} {m : FixedMessage N} {destination : List Byte}
    {pc pc' : CopyPc} (hm : m.size≤N) (h : (copyStep m destination pc).2=.running pc') :
    copyRest N pc'<copyRest N pc := by
  cases pc with
  | loadSize =>
    simp only [copyStep,Progress.running.injEq] at h
    split at h <;> subst h <;> simp only [copyRest] <;> omega
  | loadCount =>
    simp only [copyStep,Progress.running.injEq,copyFrom] at h
    split at h <;> subst h <;> simp only [copyRest] <;> omega
  | copy count index =>
    simp only [copyStep,Progress.running.injEq,copyFrom] at h
    split at h <;> subst h <;> simp only [copyRest] <;> omega
  | loadBytesRead =>
    cases h
    exact Nat.lt_succ_self _
  | loadRejected => cases h
  | loadSequence bytesRead => cases h

section Spsc

open SpscMemoryModel SpscMemoryDelivery
open SpscModel (Ring Producer Consumer PushPc PopPc afterAssign)

variable {N : ℕ} {q : Ring} {s s' : SpscMemoryModel.State N}

/-- The payload of the running push. -/
def pushPayload : Producer → Option (List Byte)
  | .idle => none
  | .running payload _ => some payload

/-- A push of this payload is running. -/
def Pushing (payload : List Byte) (s : SpscMemoryModel.State N) : Prop :=
  pushPayload s.producer=some payload

/-- A pop is running. -/
def Popping (s : SpscMemoryModel.State N) : Prop := s.consumer≠.idle

instance (payload : List Byte) : DecidablePred (Pushing (N:=N) payload) :=
  fun _ => inferInstanceAs (Decidable (_=_))

/-- Program point of the running push. -/
theorem Pushing.running {payload : List Byte} (h : Pushing payload s) :
    ∃ pc,s.producer=.running payload pc := by
  unfold Pushing at h
  cases hp : s.producer with
  | idle =>
    rw [hp] at h
    cases h
  | running current pc =>
    rw [hp] at h
    cases h
    exact ⟨pc,rfl⟩

/-- Program point of the running pop. -/
theorem Popping.running (h : Popping s) :
    ∃ original destination pc,s.consumer=.running original destination pc := by
  cases hc : s.consumer with
  | idle => exact absurd hc h
  | running original destination pc => exact ⟨original,destination,pc,rfl⟩

/-- An access of the push. -/
def pushes : SpscMemoryModel.Action → Bool
  | .push _ => true
  | _ => false

/-- An access of the pop. -/
def pops : SpscMemoryModel.Action → Bool
  | .pop _ => true
  | _ => false

/-- Bound on the accesses that a push has left. -/
def pushRest (payload : List Byte) : PushPc → ℕ
  | .loadHead => payload.length+7
  | .loadTail _ => payload.length+6
  | .assign _ pc => assignRest payload pc+1
  | .storeHead _ _ => 1

/-- Bound on the accesses that a pop has left. -/
def popRest (N : ℕ) : PopPc → ℕ
  | .loadTail => N+10
  | .loadHead _ => N+9
  | .copy _ pc => copyRest N pc+1
  | .storeTail _ _ => 1

/-- Bound on the accesses that the producer has left. -/
def producerRest : Producer → ℕ
  | .idle => 0
  | .running payload pc => pushRest payload pc

/-- Bound on the accesses that the consumer has left. -/
def consumerRest (N : ℕ) : Consumer → ℕ
  | .idle => 0
  | .running _ _ pc => popRest N pc

/-- A push never has more left than at its first access. -/
theorem pushRest_le (payload : List Byte) (pc : PushPc) :
    pushRest payload pc≤payload.length+7 := by
  cases pc with
  | loadHead => exact le_refl _
  | loadTail head => exact Nat.le_succ _
  | assign head pc => cases pc <;> simp only [pushRest,assignRest] <;> omega
  | storeHead head result => exact Nat.le_add_left 1 (payload.length+6)

/-- A running push has its store left at least. -/
theorem pushRest_pos (payload : List Byte) (pc : PushPc) : 0<pushRest payload pc := by
  cases pc <;> exact Nat.succ_pos _

/-- A running pop has its store left at least. -/
theorem popRest_pos (N : ℕ) (pc : PopPc) : 0<popRest N pc := by
  cases pc <;> exact Nat.succ_pos _

/-- The first access of `assign` pays for the test in front of it. -/
theorem pushRest_assignEnter (payload : List Byte) (head : ℕ) :
    pushRest payload (afterAssign head (assignEnter N payload (head+1)))<payload.length+6 := by
  unfold assignEnter
  split
  · simp only [afterAssign,pushRest]
    omega
  · unfold assignFrom
    split <;> simp only [afterAssign,pushRest,assignRest] <;> omega

/-- Every access of a push leaves one less. -/
theorem stepPush_rest {payload : List Byte} {ts : ℕ} {pc : PushPc}
    (hs : stepPush q s payload ts pc=some s') :
    producerRest s'.producer<pushRest payload pc := by
  cases pc with
  | loadHead =>
    obtain ⟨loaded,-,rfl⟩ := Option.map_eq_some_iff.mp hs
    exact Nat.lt_succ_self _
  | loadTail head =>
    obtain ⟨loaded,-,rfl⟩ := Option.map_eq_some_iff.mp hs
    unfold testRoom
    split
    · exact Nat.succ_pos _
    · exact pushRest_assignEnter payload head
  | assign head pc =>
    cases hs
    cases hnext : (assignStep payload (head+1) (s.slots (head%q.capacity)) pc).2 with
    | running pc' =>
      simp only [producerRest,afterAssign,pushRest]
      exact Nat.succ_lt_succ (assignStep_rest hnext)
    | finished result =>
      simp only [producerRest,afterAssign,pushRest]
      cases pc <;> simp only [assignRest] <;> omega
  | storeHead head result =>
    obtain ⟨written,-,rfl⟩ := Option.map_eq_some_iff.mp hs
    exact Nat.zero_lt_one

/-- Every access of a pop leaves one less. -/
theorem stepPop_rest (hfit : ∀ index,(s.slots index).size≤N) {original destination : List Byte}
    {ts : ℕ} {pc : PopPc} (hs : stepPop q s original destination ts pc=some s') :
    consumerRest N s'.consumer<popRest N pc := by
  cases pc with
  | loadTail =>
    obtain ⟨loaded,-,rfl⟩ := Option.map_eq_some_iff.mp hs
    exact Nat.lt_succ_self _
  | loadHead tail =>
    obtain ⟨loaded,-,rfl⟩ := Option.map_eq_some_iff.mp hs
    unfold testMessage
    split
    · exact Nat.succ_pos _
    · exact Nat.lt_succ_self _
  | copy tail pc =>
    cases hs
    cases hnext : (copyStep (s.slots (tail%q.capacity)) destination pc).2 with
    | running pc' => exact Nat.succ_lt_succ (copyStep_rest_le (hfit _) hnext)
    | finished result =>
      unfold afterCopy
      simp only
      split
      · cases pc <;> simp only [consumerRest,popRest,copyRest] <;> omega
      · exact Nat.succ_pos _
  | storeTail tail result =>
    obtain ⟨written,-,rfl⟩ := Option.map_eq_some_iff.mp hs
    exact Nat.zero_lt_one

/-- Accesses of the pop leave the push and the slots alone. -/
theorem stepPop_frame {original destination : List Byte} {ts : ℕ} {pc : PopPc}
    (hs : stepPop q s original destination ts pc=some s') :
    s'.producer=s.producer ∧ s'.slots=s.slots := by
  cases pc with
  | loadTail =>
    obtain ⟨loaded,-,rfl⟩ := Option.map_eq_some_iff.mp hs
    exact ⟨rfl,rfl⟩
  | loadHead tail =>
    obtain ⟨loaded,-,rfl⟩ := Option.map_eq_some_iff.mp hs
    unfold testMessage
    split <;> exact ⟨rfl,rfl⟩
  | copy tail pc =>
    cases hs
    unfold afterCopy
    split
    · exact ⟨rfl,rfl⟩
    · split <;> exact ⟨rfl,rfl⟩
  | storeTail tail result =>
    obtain ⟨written,-,rfl⟩ := Option.map_eq_some_iff.mp hs
    exact ⟨rfl,rfl⟩

/-- Accesses of the push leave the pop alone. -/
theorem stepPush_consumer {payload : List Byte} {ts : ℕ} {pc : PushPc}
    (hs : stepPush q s payload ts pc=some s') : s'.consumer=s.consumer := by
  cases pc with
  | loadHead =>
    obtain ⟨loaded,-,rfl⟩ := Option.map_eq_some_iff.mp hs
    rfl
  | loadTail head =>
    obtain ⟨loaded,-,rfl⟩ := Option.map_eq_some_iff.mp hs
    unfold testRoom
    split <;> rfl
  | assign head pc =>
    cases hs
    rfl
  | storeHead head result =>
    obtain ⟨written,-,rfl⟩ := Option.map_eq_some_iff.mp hs
    rfl

/-- One access of `assign` of a payload that fits leaves a size that fits. -/
theorem assignStep_fits {payload : List Byte} (hp : payload.length≤N) {m : FixedMessage N}
    (hm : m.size≤N) (sequence : ℕ) (pc : AssignPc) :
    (assignStep payload sequence m pc).1.size≤N := by
  cases pc with
  | copy index => exact hm
  | storeSize => exact hp
  | storeSequence => exact hm
  | loadSequence => exact hm

/-- The sizes in the slots fit into them. -/
theorem reachable_fits (h : Reachable (SpscMemoryModel.system q N) s) :
    ∀ index,(s.slots index).size≤N := by
  refine Reachable.invariant (I:=fun s => ∀ index,(s.slots index).size≤N) ?_ ?_ h
  · exact fun _ => Nat.zero_le N
  · intro s a s' hr hfit hs
    cases a with
    | callPush payload =>
      simp only [SpscMemoryModel.system,SpscMemoryModel.step] at hs
      split at hs
      · cases hs
        unfold enterPush
        split <;> exact hfit
      · cases hs
    | push ts =>
      simp only [SpscMemoryModel.system,SpscMemoryModel.step] at hs
      split at hs
      · rename_i payload pc hp
        cases pc with
        | loadHead =>
          obtain ⟨loaded,-,rfl⟩ := Option.map_eq_some_iff.mp hs
          exact hfit
        | loadTail head =>
          obtain ⟨loaded,-,rfl⟩ := Option.map_eq_some_iff.mp hs
          unfold testRoom
          split <;> exact hfit
        | assign head pc =>
          cases hs
          obtain ⟨f,hf⟩ := reachable_inv hr
          have hok := hf.producer
          rw [hp] at hok
          intro index
          by_cases hi : index=head%q.capacity
          · subst hi
            simp only [update_self]
            exact assignStep_fits hok.1 (hfit _) _ pc
          · simp only [update_of_ne hi]
            exact hfit index
        | storeHead head result =>
          obtain ⟨written,-,rfl⟩ := Option.map_eq_some_iff.mp hs
          exact hfit
      · cases hs
    | callPop destination =>
      simp only [SpscMemoryModel.system,SpscMemoryModel.step] at hs
      split at hs
      · cases hs
        exact hfit
      · cases hs
    | pop ts =>
      simp only [SpscMemoryModel.system,SpscMemoryModel.step] at hs
      split at hs
      · rw [(stepPop_frame hs).2]
        exact hfit
      · cases hs

/-- A pop never has more left than at its first access. -/
theorem popRest_le (h : Reachable (SpscMemoryModel.system q N) s)
    {original destination : List Byte} {pc : PopPc}
    (hc : s.consumer=.running original destination pc) : popRest N pc≤N+10 := by
  cases pc with
  | loadTail => exact le_refl _
  | loadHead tail => exact Nat.le_succ _
  | storeTail tail result => exact Nat.le_add_left 1 (N+9)
  | copy tail pc =>
    obtain ⟨f,hf⟩ := reachable_inv h
    have hok := hf.consumer
    rw [hc] at hok
    obtain ⟨-,payload,rest,hqueue,hcopied⟩ := hok
    -- the loop runs over the size of the oldest message
    have hholds := hf.slots 0 payload (by rw [hqueue]; rfl)
    have hsize : payload.length≤N := hholds.size_eq ▸ reachable_fits h _
    cases pc with
    | copy count index =>
      have hcount := hcopied.1
      simp only [popRest,copyRest]
      omega
    | _ => simp only [popRest,copyRest]; omega

/-- A running push has a next access. -/
theorem push_live (h : Reachable (SpscMemoryModel.system q N) s) {payload : List Byte}
    {pc : PushPc} (hp : s.producer=.running payload pc) :
    ∃ ts s',SpscMemoryModel.step q s (.push ts)=some s' := by
  obtain ⟨f,hf⟩ := reachable_inv h
  have hload := (hf.memory.sane.threads .producer).loadable
  simp only [SpscMemoryModel.step,hp]
  cases pc with
  | loadHead =>
    obtain ⟨loaded,hl⟩ := hload .relaxed .head
    exact ⟨_,_,by rw [stepPush,hl,Option.map_some]⟩
  | loadTail head =>
    obtain ⟨loaded,hl⟩ := hload .acquire .tail
    exact ⟨_,_,by rw [stepPush,hl,Option.map_some]⟩
  | assign head pc => exact ⟨0,_,rfl⟩
  | storeHead head result =>
    obtain ⟨m,hm,-⟩ := hf.memory.head_owned.last
    exact ⟨_,_,by rw [stepPush,hm.storable hf.memory.sane .producer,Option.map_some]⟩

/-- A running pop has a next access. -/
theorem pop_live (h : Reachable (SpscMemoryModel.system q N) s)
    {original destination : List Byte} {pc : PopPc}
    (hc : s.consumer=.running original destination pc) :
    ∃ ts s',SpscMemoryModel.step q s (.pop ts)=some s' := by
  obtain ⟨f,hf⟩ := reachable_inv h
  have hload := (hf.memory.sane.threads .consumer).loadable
  simp only [SpscMemoryModel.step,hc]
  cases pc with
  | loadTail =>
    obtain ⟨loaded,hl⟩ := hload .relaxed .tail
    exact ⟨_,_,by rw [stepPop,hl,Option.map_some]⟩
  | loadHead tail =>
    obtain ⟨loaded,hl⟩ := hload .acquire .head
    exact ⟨_,_,by rw [stepPop,hl,Option.map_some]⟩
  | copy tail pc => exact ⟨0,_,rfl⟩
  | storeTail tail result =>
    obtain ⟨m,hm,-⟩ := hf.memory.tail_owned.last
    exact ⟨_,_,by rw [stepPop,hm.storable hf.memory.sane .consumer,Option.map_some]⟩

/-- What a running push has left is bounded. -/
theorem Pushing.rest {payload : List Byte} (h : Pushing payload s) :
    0<producerRest s.producer ∧ producerRest s.producer≤payload.length+7 := by
  obtain ⟨pc,hp⟩ := h.running
  simp only [hp,producerRest]
  exact ⟨pushRest_pos payload pc,pushRest_le payload pc⟩

/-- Every access of the push leaves one less. -/
theorem Pushing.own {payload : List Byte} (h : Pushing payload s) {a : SpscMemoryModel.Action}
    (ha : pushes a=true) (hs : SpscMemoryModel.step q s a=some s') :
    producerRest s'.producer<producerRest s.producer := by
  obtain ⟨pc,hp⟩ := h.running
  cases a with
  | push ts =>
    simp only [SpscMemoryModel.step,hp] at hs
    simp only [hp]
    exact stepPush_rest hs
  | _ => cases ha

/-- All other steps leave a running push alone. -/
theorem Pushing.frame {payload : List Byte} (h : Pushing payload s) {a : SpscMemoryModel.Action}
    (ha : pushes a=false) (hs : SpscMemoryModel.step q s a=some s') :
    s'.producer=s.producer := by
  obtain ⟨pc,hp⟩ := h.running
  cases a with
  | push ts => cases ha
  | callPush other => simp only [SpscMemoryModel.step,hp,reduceCtorEq] at hs
  | callPop destination =>
    simp only [SpscMemoryModel.step] at hs
    split at hs <;> cases hs
    rfl
  | pop ts =>
    simp only [SpscMemoryModel.step] at hs
    split at hs
    · exact (stepPop_frame hs).1
    · cases hs

/-- Pushes are wait-free. -/
theorem push_wait_free (payload : List Byte) (h : Reachable (SpscMemoryModel.system q N) s) :
    WaitFree (SpscMemoryModel.system q N) (Pushing payload) pushes (payload.length+7) s := by
  refine WaitFree.of_measure (fun s => producerRest s.producer) ?_ (fun _ _ hp => hp.rest.2)
    (fun _ hp => hp.rest.1) (fun _ _ _ _ hp _ => hp.own)
    (fun _ _ _ hp ha hs => by rw [hp.frame ha hs]) h
  intro s hr hp
  obtain ⟨pc,hp⟩ := hp.running
  obtain ⟨ts,s',hs⟩ := push_live hr hp
  exact ⟨.push ts,s',rfl,hs⟩

/-- What a running pop has left is positive. -/
theorem Popping.rest_pos (h : Popping s) : 0<consumerRest N s.consumer := by
  obtain ⟨original,destination,pc,hc⟩ := h.running
  simp only [hc,consumerRest]
  exact popRest_pos N pc

/-- What a running pop has left is bounded. -/
theorem Popping.rest_le (h : Popping s) (hr : Reachable (SpscMemoryModel.system q N) s) :
    consumerRest N s.consumer≤N+10 := by
  obtain ⟨original,destination,pc,hc⟩ := h.running
  simp only [hc,consumerRest]
  exact popRest_le hr hc

/-- Every access of the pop leaves one less. -/
theorem Popping.own (h : Popping s) (hr : Reachable (SpscMemoryModel.system q N) s)
    {a : SpscMemoryModel.Action} (ha : pops a=true) (hs : SpscMemoryModel.step q s a=some s') :
    consumerRest N s'.consumer<consumerRest N s.consumer := by
  obtain ⟨original,destination,pc,hc⟩ := h.running
  cases a with
  | pop ts =>
    simp only [SpscMemoryModel.step,hc] at hs
    simp only [hc]
    exact stepPop_rest (reachable_fits hr) hs
  | _ => cases ha

/-- All other steps leave a running pop alone. -/
theorem Popping.frame (h : Popping s) {a : SpscMemoryModel.Action} (ha : pops a=false)
    (hs : SpscMemoryModel.step q s a=some s') : s'.consumer=s.consumer := by
  obtain ⟨original,destination,pc,hc⟩ := h.running
  cases a with
  | pop ts => cases ha
  | callPop other => simp only [SpscMemoryModel.step,hc,reduceCtorEq] at hs
  | callPush payload =>
    simp only [SpscMemoryModel.step] at hs
    split at hs <;> cases hs
    unfold enterPush
    split <;> rfl
  | push ts =>
    simp only [SpscMemoryModel.step] at hs
    split at hs
    · exact stepPush_consumer hs
    · cases hs

/-- Pops are wait-free. -/
theorem pop_wait_free (h : Reachable (SpscMemoryModel.system q N) s) :
    WaitFree (SpscMemoryModel.system q N) Popping pops (N+10) s := by
  refine WaitFree.of_measure (fun s => consumerRest N s.consumer) ?_ (fun _ hr hc => hc.rest_le hr)
    (fun _ hc => hc.rest_pos) (fun _ _ _ hr hc _ => hc.own hr)
    (fun _ _ _ hc ha hs => by rw [hc.frame ha hs]) h
  intro s hr hc
  obtain ⟨original,destination,pc,hc⟩ := hc.running
  obtain ⟨ts,s',hs⟩ := pop_live hr hc
  exact ⟨.pop ts,s',rfl,hs⟩

/-- However the other thread is scheduled and whatever the loads return, a
push makes at most seven accesses and one for each payload byte, and a pop at
most ten and one for each byte of a slot. -/
theorem spsc_calls_wait_free (q : Ring) (payload : List Byte)
    (h : Reachable (SpscMemoryModel.system q N) s) :
    WaitFree (SpscMemoryModel.system q N) (Pushing payload) pushes (payload.length+7) s ∧
      WaitFree (SpscMemoryModel.system q N) Popping pops (N+10) s :=
  ⟨push_wait_free payload h,pop_wait_free h⟩

/-- A push of two bytes on the way, with two pops scheduled in between. -/
def delayedPush : List SpscMemoryModel.Action :=
  [.push 0,.callPop [],.push 0,.pop 0,.push 0,.push 0,.pop 0,.push 0,.callPop [0],.push 0,.push 0]

/-- The push has made seven accesses and has the store of the head left. -/
theorem spsc_calls_wait_free_delayed :
    (∃ t,Path (SpscMemoryModel.system (.ofSucc _ 0) 2) (Pushing [1,2])
      (run (SpscMemoryModel.system (.ofSucc _ 0) 2) [.callPush [1,2]]) delayedPush t) ∧
    delayedPush.countP pushes=7 ∧
    WaitFree (SpscMemoryModel.system (.ofSucc _ 0) 2) (Pushing [1,2]) pushes 9
      (run (SpscMemoryModel.system (.ofSucc _ 0) 2) [.callPush [1,2]]) :=
  ⟨path_of_passes (by decide +kernel),rfl,
    (spsc_calls_wait_free (.ofSucc _ 0) [1,2] (run_reachable _ _)).1⟩

end Spsc

section Versioned

open RetainedHistory VersionedMemoryModel VersionedMemoryDelivery
open VersionedModel (Ring Producer Consumer PublishPc ReadPc index storeFrom loadFrom readAttempts
  deliver)

variable {κ : Type} {N : ℕ} {q : Ring} {s s' : VersionedMemoryModel.State κ N}

/-- The payload of the running publication. -/
def publishPayload : Producer → Option (List Byte)
  | .idle => none
  | .running payload _ _ => some payload

/-- A publication of this payload is running. -/
def Publishing (payload : List Byte) (s : VersionedMemoryModel.State κ N) : Prop :=
  publishPayload s.producer=some payload

/-- The consumer is inside a read. -/
def isReading : Consumer N → Bool
  | .running _ _ _ _ _ => true
  | _ => false

/-- A read by this consumer is running. -/
def Reading (c : κ) (s : VersionedMemoryModel.State κ N) : Prop := isReading (s.consumer c)=true

instance (c : κ) : DecidablePred (Reading (N:=N) c) := fun _ => inferInstanceAs (Decidable (_=_))

/-- An access of the publication. -/
def publishes : VersionedMemoryModel.Action κ → Bool
  | .publish _ => true
  | _ => false

/-- An access of a read by this consumer. -/
def reads [DecidableEq κ] (c : κ) : VersionedMemoryModel.Action κ → Bool
  | .read c' _ => c'=c
  | _ => false

/-- Bound on the accesses that a publication has left. -/
def publishRest (payload : List Byte) : PublishPc → ℕ
  | .loadVersion => payload.length+6
  | .storeOdd _ => payload.length+5
  | .storeSequence _ => payload.length+4
  | .storeSize _ => payload.length+3
  | .storeByte _ k => max (payload.length-k) 1+2
  | .storeEven _ => 2
  | .storePublished => 1

/-- Accesses behind the current attempt: those of the attempts that are left
and the second load of the boundary. -/
def behindAttempt (N attempt : ℕ) : ℕ := (readAttempts-1-attempt)*(N+4)+1

/-- Bound on the accesses that a read has left. -/
def readRest (N attempt : ℕ) : ReadPc → ℕ
  | .loadPublished => readAttempts*(N+4)+2
  | .loadBefore => behindAttempt N attempt+(N+4)
  | .loadSequence _ => behindAttempt N attempt+(N+3)
  | .loadSize _ => behindAttempt N attempt+(N+2)
  | .loadByte _ k => behindAttempt N attempt+(max (N-k) 1+1)
  | .loadAfter _ => behindAttempt N attempt+1
  | .reloadPublished => 1

/-- Bound on the accesses that the producer has left. -/
def publicationRest : Producer → ℕ
  | .idle => 0
  | .running payload _ pc => publishRest payload pc

/-- Bound on the accesses that a consumer has left. -/
def readerRest : Consumer N → ℕ
  | .running _ _ attempt _ pc => readRest N attempt pc
  | _ => 0

/-- Program point of the running publication. -/
theorem Publishing.running {payload : List Byte} (h : Publishing payload s) :
    ∃ sequence pc,s.producer=.running payload sequence pc := by
  unfold Publishing at h
  cases hp : s.producer with
  | idle =>
    rw [hp] at h
    cases h
  | running current sequence pc =>
    rw [hp] at h
    cases h
    exact ⟨sequence,pc,rfl⟩

/-- Program point of the running read. -/
theorem Reading.running {c : κ} (h : Reading c s) :
    ∃ want destination attempt snapshot pc,
      s.consumer c=.running want destination attempt snapshot pc := by
  unfold Reading at h
  cases hc : s.consumer c with
  | unregistered =>
    rw [hc] at h
    cases h
  | idle nextSequence =>
    rw [hc] at h
    cases h
  | running want destination attempt snapshot pc =>
    exact ⟨want,destination,attempt,snapshot,pc,rfl⟩

/-- A publication never has more left than at its first access. -/
theorem publishRest_le (payload : List Byte) (pc : PublishPc) :
    publishRest payload pc≤payload.length+6 := by
  cases pc <;> simp only [publishRest] <;> omega

/-- A running publication has its store of the boundary left at least. -/
theorem publishRest_pos (payload : List Byte) (pc : PublishPc) : 0<publishRest payload pc := by
  cases pc <;> exact Nat.succ_pos _

/-- The byte loop of a publication is entered or left. -/
theorem publishRest_storeFrom (payload : List Byte) (version k : ℕ) :
    publishRest payload (storeFrom payload version k)≤payload.length-k+2 := by
  unfold storeFrom
  split <;> simp only [publishRest] <;> omega

/-- The first attempt and those behind it are all attempts. -/
theorem behindAttempt_zero (N : ℕ) : behindAttempt N 0+(N+4)=readAttempts*(N+4)+1 := by
  unfold behindAttempt readAttempts
  omega

/-- The next attempt is one of those behind the current one. -/
theorem behindAttempt_succ {N attempt : ℕ} (h : attempt+1<readAttempts) :
    behindAttempt N (attempt+1)+(N+4)=behindAttempt N attempt := by
  unfold behindAttempt
  obtain ⟨k,hk⟩ : ∃ k,readAttempts-1-attempt=k+1 := ⟨readAttempts-1-attempt-1,by omega⟩
  rw [show readAttempts-1-(attempt+1)=k by omega,hk,Nat.add_mul]
  omega

/-- The second load of the boundary is behind every attempt. -/
theorem behindAttempt_pos (N attempt : ℕ) : 0<behindAttempt N attempt := Nat.succ_pos _

/-- Later attempts leave less behind them. -/
theorem behindAttempt_le (N attempt : ℕ) : behindAttempt N attempt≤behindAttempt N 0 := by
  unfold behindAttempt
  exact Nat.succ_le_succ (Nat.mul_le_mul_right _ (Nat.sub_le_sub_left (Nat.zero_le _) _))

/-- A read never has more left than at its first access. -/
theorem readRest_le (N attempt : ℕ) (pc : ReadPc) :
    readRest N attempt pc≤readAttempts*(N+4)+2 := by
  have hzero := behindAttempt_zero N
  have hle := behindAttempt_le N attempt
  cases pc <;> simp only [readRest] <;> omega

/-- A running read has an access left. -/
theorem readRest_pos (N attempt : ℕ) (pc : ReadPc) : 0<readRest N attempt pc := by
  cases pc <;> exact Nat.succ_pos _

/-- The byte loop of a read is entered or left. -/
theorem readRest_loadFrom (N attempt before k : ℕ) :
    readRest N attempt (loadFrom N before k)≤behindAttempt N attempt+(N-k+1) := by
  unfold loadFrom
  split <;> simp only [readRest] <;> omega

/-- What a running publication has left is bounded. -/
theorem Publishing.rest {payload : List Byte} (h : Publishing payload s) :
    0<publicationRest s.producer ∧ publicationRest s.producer≤payload.length+6 := by
  obtain ⟨sequence,pc,hp⟩ := h.running
  simp only [hp,publicationRest]
  exact ⟨publishRest_pos payload pc,publishRest_le payload pc⟩

/-- What a running read has left is bounded. -/
theorem Reading.rest {c : κ} (h : Reading c s) :
    0<readerRest (s.consumer c) ∧ readerRest (s.consumer c)≤readAttempts*(N+4)+2 := by
  obtain ⟨want,destination,attempt,snapshot,pc,hc⟩ := h.running
  simp only [hc,readerRest]
  exact ⟨readRest_pos N attempt pc,readRest_le N attempt pc⟩

variable [DecidableEq κ]

/-- Every access of a publication leaves one less and leaves the consumers
alone. -/
theorem stepPublish_rest {payload : List Byte} {sequence ts : ℕ} {pc : PublishPc}
    (hs : stepPublish q s payload sequence ts pc=some s') :
    publicationRest s'.producer<publishRest payload pc ∧ s'.consumer=s.consumer := by
  cases pc with
  | loadVersion =>
    obtain ⟨loaded,-,rfl⟩ := Option.map_eq_some_iff.mp hs
    exact ⟨Nat.lt_succ_self _,rfl⟩
  | storeOdd version =>
    obtain ⟨written,-,rfl⟩ := Option.map_eq_some_iff.mp hs
    exact ⟨Nat.lt_succ_self _,rfl⟩
  | storeSequence version =>
    obtain ⟨written,-,rfl⟩ := Option.map_eq_some_iff.mp hs
    exact ⟨Nat.lt_succ_self _,rfl⟩
  | storeSize version =>
    obtain ⟨written,-,rfl⟩ := Option.map_eq_some_iff.mp hs
    exact ⟨Nat.lt_succ_of_le (publishRest_storeFrom payload version 0),rfl⟩
  | storeByte version k =>
    obtain ⟨written,-,rfl⟩ := Option.map_eq_some_iff.mp hs
    have hnext := publishRest_storeFrom payload version (k+1)
    have hrest : payload.length-(k+1)+2<publishRest payload (.storeByte version k) := by
      simp only [publishRest]
      omega
    exact ⟨Nat.lt_of_le_of_lt hnext hrest,rfl⟩
  | storeEven version =>
    obtain ⟨written,-,rfl⟩ := Option.map_eq_some_iff.mp hs
    exact ⟨Nat.lt_succ_self _,rfl⟩
  | storePublished =>
    obtain ⟨written,-,rfl⟩ := Option.map_eq_some_iff.mp hs
    exact ⟨Nat.zero_lt_one,rfl⟩

/-- A step of one consumer: its accesses that are left, and everything else
unchanged. -/
structure ReaderStep (s s' : VersionedMemoryModel.State κ N) (c : κ) (rest : ℕ) : Prop where
  /-- The accesses that are left. -/
  left : readerRest (s'.consumer c)<rest
  /-- The producer. -/
  producer : s'.producer=s.producer
  /-- The other consumers. -/
  others : ∀ c',c'≠c → s'.consumer c'=s.consumer c'

/-- The consumer goes on at another program point. -/
theorem ReaderStep.setConsumer (s : VersionedMemoryModel.State κ N) (c : κ)
    {consumer : Consumer N} {rest : ℕ} (h : readerRest consumer<rest) :
    ReaderStep s (s.setConsumer c consumer) c rest where
  left := by
    rw [State.setConsumer]
    simp only [update_self]
    exact h
  producer := rfl
  others := fun c' hne => update_of_ne hne _ _

/-- The read returns. -/
theorem ReaderStep.returnRead (s : VersionedMemoryModel.State κ N) (c : κ) (want : ℕ)
    (original : List Byte) (answer : Answer) {rest : ℕ} (h : 0<rest) :
    ReaderStep s (s.returnRead c want original answer) c rest where
  left := by
    rw [State.returnRead]
    simp only [update_self]
    exact h
  producer := rfl
  others := fun c' hne => update_of_ne hne _ _

/-- A failed attempt is followed by the next one or by the second load of
the boundary. -/
theorem ReaderStep.retry (s : VersionedMemoryModel.State κ N) (c : κ) (want : ℕ)
    (destination : List Byte) (attempt : ℕ) (snapshot : FixedMessage N) {rest : ℕ}
    (h : behindAttempt N attempt<rest) :
    ReaderStep s (s.retry c want destination attempt snapshot) c rest := by
  unfold State.retry
  split
  · rename_i hmore
    refine .setConsumer s c ?_
    simp only [readerRest,readRest]
    rwa [behindAttempt_succ hmore]
  · exact .setConsumer s c (Nat.lt_of_le_of_lt (behindAttempt_pos N attempt) h)

/-- The access itself only changes the views of the consumer. -/
theorem ReaderStep.behindLoad {c : κ} {rest : ℕ} {l : Local (Thread κ) Place}
    (h : ReaderStep (s.setMemory (.consumer c) s.history l) s' c rest) : ReaderStep s s' c rest :=
  ⟨h.left,h.producer,h.others⟩

/-- Every access of a read leaves one less. -/
theorem stepRead_rest {c : κ} {want attempt ts : ℕ} {destination : List Byte}
    {snapshot : FixedMessage N} {pc : ReadPc}
    (hs : stepRead q s c want destination attempt snapshot ts pc=some s') :
    ReaderStep s s' c (readRest N attempt pc) := by
  cases pc with
  | loadPublished =>
    obtain ⟨loaded,-,rfl⟩ := Option.map_eq_some_iff.mp hs
    refine .behindLoad (l:=loaded.2) ?_
    simp only [testPublished]
    split
    · exact .returnRead _ c _ _ _ (Nat.succ_pos _)
    · split
      · exact .returnRead _ c _ _ _ (Nat.succ_pos _)
      · refine .setConsumer _ c ?_
        simp only [readerRest,readRest]
        rw [behindAttempt_zero]
        exact Nat.lt_succ_self _
  | loadBefore =>
    obtain ⟨loaded,-,rfl⟩ := Option.map_eq_some_iff.mp hs
    refine .behindLoad (l:=loaded.2) ?_
    simp only [testBefore]
    split
    · exact .retry _ c want destination attempt snapshot (Nat.lt_add_of_pos_right (Nat.succ_pos _))
    · exact .setConsumer _ c (Nat.lt_succ_self _)
  | loadSequence before =>
    obtain ⟨loaded,-,rfl⟩ := Option.map_eq_some_iff.mp hs
    exact .behindLoad (l:=loaded.2) (.setConsumer _ c (Nat.lt_succ_self _))
  | loadSize before =>
    obtain ⟨loaded,-,rfl⟩ := Option.map_eq_some_iff.mp hs
    exact .behindLoad (l:=loaded.2)
      (.setConsumer _ c (Nat.lt_succ_of_le (readRest_loadFrom N attempt before 0)))
  | loadByte before k =>
    obtain ⟨loaded,-,rfl⟩ := Option.map_eq_some_iff.mp hs
    have hnext := readRest_loadFrom N attempt before (k+1)
    have hrest : behindAttempt N attempt+(N-(k+1)+1)<readRest N attempt (.loadByte before k) := by
      simp only [readRest]
      omega
    exact .behindLoad (l:=loaded.2) (.setConsumer _ c (Nat.lt_of_le_of_lt hnext hrest))
  | loadAfter before =>
    obtain ⟨loaded,-,rfl⟩ := Option.map_eq_some_iff.mp hs
    refine .behindLoad (l:=loaded.2) ?_
    simp only [testAfter]
    split
    · split
      · exact .setConsumer _ c (Nat.succ_lt_succ (behindAttempt_pos N attempt))
      · exact .returnRead _ c _ _ _ (Nat.succ_pos _)
    · exact .retry _ c want destination attempt snapshot (Nat.lt_succ_self _)
  | reloadPublished =>
    obtain ⟨loaded,-,rfl⟩ := Option.map_eq_some_iff.mp hs
    exact .behindLoad (l:=loaded.2) (.returnRead _ c _ _ _ Nat.zero_lt_one)

/-- Every access of the publication leaves one less. -/
theorem Publishing.own {payload : List Byte} (h : Publishing payload s)
    {a : VersionedMemoryModel.Action κ} (ha : publishes a=true)
    (hs : VersionedMemoryModel.step q s a=some s') :
    publicationRest s'.producer<publicationRest s.producer := by
  obtain ⟨sequence,pc,hp⟩ := h.running
  cases a with
  | publish ts =>
    simp only [VersionedMemoryModel.step,hp] at hs
    simp only [hp]
    exact (stepPublish_rest hs).1
  | _ => cases ha

/-- All other steps leave a running publication alone. -/
theorem Publishing.frame {payload : List Byte} (h : Publishing payload s)
    {a : VersionedMemoryModel.Action κ} (ha : publishes a=false)
    (hs : VersionedMemoryModel.step q s a=some s') : s'.producer=s.producer := by
  obtain ⟨sequence,pc,hp⟩ := h.running
  cases a with
  | publish ts => cases ha
  | callPublish other => simp only [VersionedMemoryModel.step,hp,reduceCtorEq] at hs
  | register c ts =>
    simp only [VersionedMemoryModel.step] at hs
    split at hs
    · obtain ⟨loaded,-,rfl⟩ := Option.map_eq_some_iff.mp hs
      rfl
    · cases hs
  | callRead c destination =>
    simp only [VersionedMemoryModel.step] at hs
    split at hs <;> cases hs
    rfl
  | read c ts =>
    simp only [VersionedMemoryModel.step] at hs
    split at hs
    · exact (stepRead_rest hs).producer
    · cases hs

/-- Publications are wait-free. -/
theorem publish_wait_free (payload : List Byte)
    (h : Reachable (VersionedMemoryModel.system q κ N) s) :
    WaitFree (VersionedMemoryModel.system q κ N) (Publishing payload) publishes
      (payload.length+6) s := by
  refine WaitFree.of_measure (fun s => publicationRest s.producer) ?_ (fun _ _ hp => hp.rest.2)
    (fun _ hp => hp.rest.1) (fun _ _ _ _ hp _ => hp.own)
    (fun _ _ _ hp ha hs => by rw [hp.frame ha hs]) h
  intro s hr hp
  obtain ⟨sequence,pc,hp⟩ := hp.running
  obtain ⟨⟨r,past,g,hinv⟩,-⟩ := reachable_kept hr
  obtain ⟨ts,s',hs⟩ := producer_live hinv.stores hp
  exact ⟨.publish ts,s',rfl,hs⟩

/-- Every access of the read leaves one less. -/
theorem Reading.own {c : κ} (h : Reading c s) {a : VersionedMemoryModel.Action κ}
    (ha : reads c a=true) (hs : VersionedMemoryModel.step q s a=some s') :
    readerRest (s'.consumer c)<readerRest (s.consumer c) := by
  obtain ⟨want,destination,attempt,snapshot,pc,hc⟩ := h.running
  cases a with
  | read c' ts =>
    obtain rfl : c'=c := of_decide_eq_true ha
    simp only [VersionedMemoryModel.step,hc] at hs
    simp only [hc]
    exact (stepRead_rest hs).left
  | _ => cases ha

/-- All other steps leave a running read alone. A registration and the call of
a read concern another consumer, since this one is running. -/
theorem Reading.frame {c : κ} (h : Reading c s) {a : VersionedMemoryModel.Action κ}
    (ha : reads c a=false) (hs : VersionedMemoryModel.step q s a=some s') :
    s'.consumer c=s.consumer c := by
  obtain ⟨want,destination,attempt,snapshot,pc,hc⟩ := h.running
  cases a with
  | callPublish payload =>
    simp only [VersionedMemoryModel.step] at hs
    split at hs <;> cases hs
    unfold enterPublish
    split <;> rfl
  | publish ts =>
    simp only [VersionedMemoryModel.step] at hs
    split at hs
    · rw [(stepPublish_rest hs).2]
    · cases hs
  | register c' ts =>
    simp only [VersionedMemoryModel.step] at hs
    split at hs
    · rename_i hnew
      have hne : c≠c' := by
        rintro rfl
        rw [hc] at hnew
        cases hnew
      obtain ⟨loaded,-,rfl⟩ := Option.map_eq_some_iff.mp hs
      exact update_of_ne hne _ _
    · cases hs
  | callRead c' destination' =>
    simp only [VersionedMemoryModel.step] at hs
    split at hs <;> cases hs
    rename_i nextSequence hidle
    have hne : c≠c' := by
      rintro rfl
      rw [hc] at hidle
      cases hidle
    exact update_of_ne hne _ _
  | read c' ts =>
    have hne : c≠c' := fun he => of_decide_eq_false ha he.symm
    simp only [VersionedMemoryModel.step] at hs
    split at hs
    · exact (stepRead_rest hs).others c hne
    · cases hs

/-- Reads are wait-free. -/
theorem read_wait_free (c : κ) (h : Reachable (VersionedMemoryModel.system q κ N) s) :
    WaitFree (VersionedMemoryModel.system q κ N) (Reading c) (reads c)
      (readAttempts*(N+4)+2) s := by
  refine WaitFree.of_measure (fun s => readerRest (s.consumer c)) ?_ (fun _ _ hc => hc.rest.2)
    (fun _ hc => hc.rest.1) (fun _ _ _ _ hc _ => hc.own)
    (fun _ _ _ hc ha hs => by rw [hc.frame ha hs]) h
  intro s hr hc
  obtain ⟨want,destination,attempt,snapshot,pc,hc⟩ := hc.running
  obtain ⟨⟨r,past,g,hinv⟩,-⟩ := reachable_kept hr
  obtain ⟨ts,s',hs⟩ := consumer_live hinv.stores hc
  exact ⟨.read c ts,s',decide_eq_true rfl,hs⟩

/-- However the other threads are scheduled and whatever the loads return, a
publication makes at most six accesses and one for each payload byte, and a
read at most 64 attempts, with two loads of the boundary around them. -/
theorem versioned_calls_wait_free (q : Ring) (payload : List Byte) (c : κ)
    (h : Reachable (VersionedMemoryModel.system q κ N) s) :
    WaitFree (VersionedMemoryModel.system q κ N) (Publishing payload) publishes
        (payload.length+6) s ∧
      WaitFree (VersionedMemoryModel.system q κ N) (Reading c) (reads c)
        (readAttempts*(N+4)+2) s :=
  ⟨publish_wait_free payload h,read_wait_free c h⟩

/-- One message in a single cell, and a read of it that has begun. -/
def readBegun : List (VersionedMemoryModel.Action Bool) :=
  [.register false 0,.callPublish [1],.publish 0,.publish 1,.publish 1,.publish 1,.publish 1,
    .publish 2,.publish 1,.callRead false [0]]

/-- The cell is overwritten: the copy meets an odd version behind it, and the
next two attempts meet it in front of theirs. -/
def disturbedRead : List (VersionedMemoryModel.Action Bool) :=
  [.read false 1,.read false 2,.callPublish [3],.publish 2,.publish 3,.read false 1,.publish 2,
    .read false 1,.read false 1,.read false 3,.read false 3,.read false 3]

/-- The read has made eight accesses and is in its fourth attempt. -/
theorem versioned_calls_wait_free_disturbed :
    (∃ t,Path (VersionedMemoryModel.system (.ofSucc _ 0) Bool 1) (Reading false)
      (run (VersionedMemoryModel.system (.ofSucc _ 0) Bool 1) readBegun) disturbedRead t) ∧
    disturbedRead.countP (reads false)=8 ∧
    WaitFree (VersionedMemoryModel.system (.ofSucc _ 0) Bool 1) (Reading false) (reads false) 322
      (run (VersionedMemoryModel.system (.ofSucc _ 0) Bool 1) readBegun) :=
  ⟨path_of_passes (by decide +kernel),rfl,
    (versioned_calls_wait_free (.ofSucc _ 0) [] false (run_reachable _ _)).2⟩

end Versioned

end Line64.WaitFreedom
