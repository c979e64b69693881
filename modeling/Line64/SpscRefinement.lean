import Line64.SpscMemoryDelivery
import Line64.SpscTla

/-!
# The SPSC code refines its TLA+ specification

The specification writes a slot in one action and copies one in another. The
code writes the members of a message one by one, and the store of the message
sequence is the write of the specification. It reads them one by one as well,
and the last load is the copy. Loads of outdated counters, refused calls and
copies into too small a destination are invisible.
-/

namespace Line64.SpscRefinement

open Function Result FixedMessageAccess Transition BoundedFifo ReleaseAcquire MessageRaces
open SpscMemoryModel SpscMemoryDelivery
open SpscModel (Ring Producer Consumer PushPc PopPc subWord afterAssign)

/-- Phase of the producer in the specification. -/
def producerPhase : Producer → SpscTla.ProducerPhase
  | .running _ (.assign _ .loadSequence) => .written
  | .running _ (.storeHead _ _) => .written
  | _ => .idle

/-- Position of the producer in the specification. -/
def producerPosition : Producer → Option ℕ
  | .running _ (.assign head .loadSequence) => some head
  | .running _ (.storeHead head _) => some head
  | _ => none

/-- Phase of the consumer in the specification. -/
def consumerPhase : Consumer → SpscTla.ConsumerPhase
  | .running _ _ (.storeTail _ _) => .copied
  | _ => .idle

/-- Position of the consumer in the specification. -/
def consumerPosition : Consumer → Option ℕ
  | .running _ _ (.storeTail tail _) => some tail
  | _ => none

/-- Value of the consumer in the specification. -/
def consumerValue : Consumer → ℕ
  | .running _ _ (.storeTail _ result) => result.sequence
  | _ => 0

variable {N : ℕ} {q : Ring}

/-- The refinement mapping. -/
def specState (s : State N) : SpscTla.State where
  slots := fun index => (s.slots index).sequence
  head := (pushed s.log).length
  tail := (popped s.log).length
  producerPhase := producerPhase s.producer
  producerPosition := producerPosition s.producer
  consumerPhase := consumerPhase s.consumer
  consumerPosition := consumerPosition s.consumer
  consumerValue := consumerValue s.consumer
  consumed := (popped s.log).map fun call => call.2.2.sequence

/-- Action of the specification performed by a scheduled step, if any. -/
def label (s : State N) : Action → Option SpscTla.Action
  | .push _ =>
    match s.producer with
    | .running _ (.assign _ .storeSequence) => some .producerWrite
    | .running _ (.storeHead _ _) => some .producerPublish
    | _ => none
  | .pop _ =>
    match s.consumer with
    | .running _ _ (.copy _ (.loadSequence _)) => some .consumerCopy
    | .running _ _ (.storeTail _ _) => some .consumerRelease
    | _ => none
  | _ => none

/-- Calls of `try_push` in a schedule. -/
def calls (actions : List Action) : ℕ :=
  actions.countP fun
    | .callPush _ => true
    | _ => false

/-- Calls of the producer that have not returned. -/
def inFlight : Producer → ℕ
  | .idle => 0
  | .running _ _ => 1

section Counting

variable {s s' : State N}

/-- One more event is at most one more push. -/
theorem pushed_length_append_le (log : List Event) (event : Event) :
    (pushed (log++[event])).length≤(pushed log).length+1 := by
  rw [pushed_append,List.length_append]
  cases event.successfulPush with
  | none => exact Nat.le_succ _
  | some result => exact Nat.le_refl _

/-- A pop is not a push. -/
theorem pushed_append_pop (log : List Event) (original destination : List Byte)
    (result : ReadResult) : pushed (log++[.pop original destination result])=pushed log := by
  rw [pushed_append]
  exact List.append_nil _

/-- A push is not a pop. -/
theorem popped_append_push (log : List Event) (payload : List Byte) (result : WriteResult) :
    popped (log++[.push payload result])=popped log := by
  rw [popped_append]
  exact List.append_nil _

/-- An access of the producer completes its call or none. -/
theorem stepPush_count {payload : List Byte} {ts : ℕ} {pc : PushPc}
    (hstep : stepPush q s payload ts pc=some s') :
    (pushed s'.log).length+inFlight s'.producer≤(pushed s.log).length+1 := by
  cases pc with
  | loadHead =>
    obtain ⟨loaded,-,rfl⟩ := Option.map_eq_some_iff.mp hstep
    exact Nat.le_refl _
  | loadTail head =>
    obtain ⟨loaded,-,rfl⟩ := Option.map_eq_some_iff.mp hstep
    unfold testRoom
    split
    · exact pushed_length_append_le s.log _
    · exact Nat.le_refl _
  | assign head pc =>
    cases hstep
    exact Nat.le_refl _
  | storeHead head result =>
    obtain ⟨written,-,rfl⟩ := Option.map_eq_some_iff.mp hstep
    exact pushed_length_append_le s.log _

/-- An access of the consumer pushes nothing. -/
theorem stepPop_pushed {original destination : List Byte} {ts : ℕ} {pc : PopPc}
    (hstep : stepPop q s original destination ts pc=some s') :
    pushed s'.log=pushed s.log ∧ s'.producer=s.producer := by
  cases pc with
  | loadTail =>
    obtain ⟨loaded,-,rfl⟩ := Option.map_eq_some_iff.mp hstep
    exact ⟨rfl,rfl⟩
  | loadHead tail =>
    obtain ⟨loaded,-,rfl⟩ := Option.map_eq_some_iff.mp hstep
    unfold testMessage
    split
    · exact ⟨pushed_append_pop _ _ _ _,rfl⟩
    · exact ⟨rfl,rfl⟩
  | copy tail pc =>
    cases hstep
    cases (copyStep (s.slots (tail%q.capacity)) destination pc).2 with
    | running pc' => exact ⟨rfl,rfl⟩
    | finished result =>
      cases hok : ok result.status with
      | true =>
        simp only [afterCopy,hok,if_true]
        exact ⟨rfl,rfl⟩
      | false =>
        simp only [afterCopy,hok,Bool.false_eq_true,if_false]
        exact ⟨pushed_append_pop _ _ _ _,rfl⟩
  | storeTail tail result =>
    obtain ⟨written,-,rfl⟩ := Option.map_eq_some_iff.mp hstep
    exact ⟨pushed_append_pop _ _ _ _,rfl⟩

/-- Completed and running pushes were called. -/
theorem pushed_le_calls {actions : List Action} (h : Schedule (system q N) actions s) :
    (pushed s.log).length+inFlight s.producer≤calls actions := by
  induction h with
  | init => exact Nat.le_refl _
  | @step actions s s' a _ hs ih =>
    rw [calls,List.countP_append,← calls]
    change step q s a=some s' at hs
    cases a with
    | callPush payload =>
      simp only [step] at hs
      split at hs <;> cases hs
      rename_i hidle
      have hcount : (pushed (enterPush s payload).log).length+
          inFlight (enterPush s payload).producer≤(pushed s.log).length+1 := by
        unfold enterPush
        split
        · exact pushed_length_append_le s.log _
        · exact Nat.le_refl _
      exact hcount.trans (Nat.add_le_add_right ((Nat.le_add_right _ _).trans ih) 1)
    | push ts =>
      simp only [step] at hs
      split at hs
      · rename_i payload pc hp
        have hcount := stepPush_count hs
        rw [hp] at ih
        exact hcount.trans ih
      · cases hs
    | callPop destination =>
      simp only [step] at hs
      split at hs <;> cases hs
      exact ih
    | pop ts =>
      simp only [step] at hs
      split at hs
      · obtain ⟨hpushed,hproducer⟩ := stepPop_pushed hs
        rw [hpushed,hproducer]
        exact ih
      · cases hs

end Counting

section Simulation

variable {s s' : State N} {f : Fifo} {totalOps : ℕ}

/-- A step is invisible, or it is one action of the specification. -/
def Simulated (q : Ring) (totalOps : ℕ) (s s' : State N) (a : Action) : Prop :=
  (label s a=none ∧ specState s'=specState s) ∨
    ∃ l,label s a=some l ∧ SpscTla.Next q.capacity totalOps l (specState s) (specState s')

/-- The counters of the list and of the log. -/
theorem head_eq (h : Inv q s f) : (pushed s.log).length=f.popped+f.queue.length :=
  h.conserved.length_eq

/-- The tails of the list and of the log. -/
theorem tail_eq (h : Inv q s f) : (popped s.log).length=f.popped := h.conserved.popped_eq.symm

/-- A call of `try_push` is invisible. -/
theorem enterPush_simulated (payload : List Byte) (hs : s.producer=.idle) :
    specState (enterPush s payload)=specState s := by
  unfold enterPush
  split
  · simp only [specState,State.returnPush,hs,popped_append_push,pushed_append,
      Event.successfulPush,ok_iff,reduceCtorEq,if_false,Option.toList_none,List.append_nil]
  · simp only [specState,hs,producerPhase,producerPosition]

/-- The test for room is invisible. -/
theorem loadTail_simulated {payload : List Byte} {head tail : ℕ} (l : Local Role Counter)
    (hs : s.producer=.running payload (.loadTail head)) (hp : payload.length≤N) :
    specState (testRoom q (s.setView .producer l) payload head tail)=specState s := by
  unfold testRoom
  split
  · simp only [specState,State.returnPush,State.setView,hs,popped_append_push,pushed_append,
      Event.successfulPush,ok_iff,reduceCtorEq,if_false,Option.toList_none,List.append_nil,
      producerPhase,producerPosition]
  · rw [(assignEnter_progress (head+1) (s.slots 0) hp).1]
    unfold assignFrom
    split <;>
      simp only [specState,State.setView,hs,afterAssign,producerPhase,producerPosition]

/-- Sequences of the slots behind the store of a message sequence. -/
theorem sequence_update (slots : ℕ → FixedMessage N) (index : ℕ) (m : FixedMessage N) :
    (fun other => (update slots index m other).sequence)=
      update (fun other => (slots other).sequence) index m.sequence := by
  funext other
  by_cases h : other=index
  · subst h
    rw [update_self,update_self]
  · rw [update_of_ne h,update_of_ne h]

/-- An access of `assign` is invisible, or it is the write of the
specification. -/
theorem assign_simulated (h : Inv q s f) {payload : List Byte} {head ts : ℕ} {pc : AssignPc}
    (hs : s.producer=.running payload (.assign head pc)) (hops : (pushed s.log).length<totalOps)
    (hstep : stepPush q s payload ts (.assign head pc)=some s') :
    Simulated q totalOps s s' (.push ts) := by
  have hok := h.producer
  rw [hs] at hok
  obtain ⟨-,rfl,hroom,-⟩ := hok
  have hhead := head_eq h
  have htail := tail_eq h
  cases hstep
  cases pc with
  | storeSequence =>
    refine .inr ⟨.producerWrite,by simp only [label,hs],?_⟩
    refine ⟨by simp only [specState,hs,producerPhase],hops,?_,?_⟩
    · show (pushed s.log).length<(popped s.log).length+q.capacity
      omega
    · simp only [specState,State.touch,assignStep,afterAssign,producerPhase,producerPosition,
        sequence_update,hhead]
  | copy index =>
    refine .inl ⟨by simp only [label,hs],?_⟩
    simp only [specState,State.touch,assignStep,afterAssign,sequence_update,update_eq_self,hs,
      assignFrom]
    split <;> rfl
  | storeSize =>
    refine .inl ⟨by simp only [label,hs],?_⟩
    simp only [specState,State.touch,assignStep,afterAssign,sequence_update,update_eq_self,hs,
      producerPhase,producerPosition]
  | loadSequence =>
    refine .inl ⟨by simp only [label,hs],?_⟩
    simp only [specState,State.touch,assignStep,afterAssign,update_eq_self,hs,producerPhase,
      producerPosition]

/-- The store of the head is the publication of the specification. -/
theorem storeHead_simulated (h : Inv q s f) {payload : List Byte} {head ts : ℕ}
    {result : WriteResult} {history : History Role Counter ℕ} {l : Local Role Counter}
    (hs : s.producer=.running payload (.storeHead head result)) :
    Simulated q totalOps s ((s.setMemory .producer history l).returnPush payload result)
      (.push ts) := by
  have hok := h.producer
  rw [hs] at hok
  obtain ⟨-,rfl,-,rfl,-⟩ := hok
  refine .inr ⟨.producerPublish,by simp only [label,hs],by simp only [specState,hs,producerPhase],
    ?_,?_⟩
  · simp only [specState,hs,producerPosition,head_eq h]
  · simp only [specState,State.returnPush,State.setMemory,popped_append_push,pushed_append,
      Event.successfulPush,ok_iff,if_true,Option.toList_some,List.length_append,
      List.length_singleton,producerPhase,producerPosition]

/-- Every access of the producer is simulated. -/
theorem stepPush_simulated (h : Inv q s f) {payload : List Byte} {ts : ℕ} {pc : PushPc}
    (hs : s.producer=.running payload pc) (hops : (pushed s.log).length<totalOps)
    (hstep : stepPush q s payload ts pc=some s') : Simulated q totalOps s s' (.push ts) := by
  cases pc with
  | loadHead =>
    obtain ⟨loaded,-,rfl⟩ := Option.map_eq_some_iff.mp hstep
    refine .inl ⟨by simp only [label,hs],?_⟩
    simp only [specState,State.setView,hs,producerPhase,producerPosition]
  | loadTail head =>
    obtain ⟨loaded,-,rfl⟩ := Option.map_eq_some_iff.mp hstep
    have hok := h.producer
    rw [hs] at hok
    exact .inl ⟨by simp only [label,hs],loadTail_simulated loaded.2 hs hok.1⟩
  | assign head pc => exact assign_simulated h hs hops hstep
  | storeHead head result =>
    obtain ⟨written,-,rfl⟩ := Option.map_eq_some_iff.mp hstep
    exact storeHead_simulated h hs

/-- A refused pop is invisible. -/
theorem returnPop_simulated (l : Local Role Counter) {original destination : List Byte}
    {result : ReadResult} (hbad : ok result.status=false) (hidle : consumerPhase s.consumer=.idle ∧
      consumerPosition s.consumer=none ∧ consumerValue s.consumer=0) :
    specState ((s.setView .consumer l).returnPop original destination result)=specState s := by
  simp only [specState,State.returnPop,State.setView,pushed_append_pop,popped_append,
    Event.successfulPop,hbad,Bool.false_eq_true,if_false,Option.toList_none,List.append_nil,
    hidle.1,hidle.2.1,hidle.2.2]
  rfl

/-- An access of `copy_to` is invisible, or it is the copy of the
specification. -/
theorem copy_simulated (h : Inv q s f) {original destination : List Byte} {tail ts : ℕ}
    {pc : CopyPc} (hs : s.consumer=.running original destination (.copy tail pc))
    (hstep : stepPop q s original destination ts (.copy tail pc)=some s') :
    Simulated q totalOps s s' (.pop ts) := by
  have hok := h.consumer
  have hlt := (h.copies (by rw [hs]; trivial)).lt h.memory
  rw [hs] at hok
  obtain ⟨rfl,-⟩ := hok
  have hhead := head_eq h
  have htail := tail_eq h
  cases hstep
  have hrunning : ∀ destination pc',specState
      (afterCopy (s.touch .consumer (f.popped%q.capacity) (copyAccess pc)) original destination
        f.popped (.running pc'))=specState s := by
    intro destination pc'
    simp only [specState,afterCopy,State.touch,hs,consumerPhase,consumerPosition,consumerValue]
  cases pc with
  | loadSequence bytesRead =>
    refine .inr ⟨.consumerCopy,by simp only [label,hs],by simp only [specState,hs,consumerPhase],
      ?_,?_⟩
    · show (popped s.log).length<(pushed s.log).length
      omega
    · simp only [specState,copyStep,afterCopy,ok_iff,if_true,State.touch,consumerPhase,
        consumerPosition,consumerValue,htail]
  | loadRejected =>
    refine .inl ⟨by simp only [label,hs],?_⟩
    simp only [copyStep,afterCopy,ok_iff,reduceCtorEq,if_false]
    exact returnPop_simulated ((s.views .consumer).tick .consumer) rfl
      (by rw [hs]; exact ⟨rfl,rfl,rfl⟩)
  | loadSize => exact .inl ⟨by simp only [label,hs],hrunning _ _⟩
  | loadCount => exact .inl ⟨by simp only [label,hs],hrunning _ _⟩
  | copy count index => exact .inl ⟨by simp only [label,hs],hrunning _ _⟩
  | loadBytesRead => exact .inl ⟨by simp only [label,hs],hrunning _ _⟩

/-- The store of the tail is the release of the specification. -/
theorem storeTail_simulated (h : Inv q s f) {original destination : List Byte} {tail ts : ℕ}
    {result : ReadResult} {history : History Role Counter ℕ} {l : Local Role Counter}
    (hs : s.consumer=.running original destination (.storeTail tail result)) :
    Simulated q totalOps s
      ((s.setMemory .consumer history l).returnPop original destination result) (.pop ts) := by
  have hok := h.consumer
  rw [hs] at hok
  obtain ⟨rfl,payload,rest,-,hfits,hd⟩ := hok
  rw [delivery_of_fits _ hfits] at hd
  cases hd
  refine .inr ⟨.consumerRelease,by simp only [label,hs],by simp only [specState,hs,consumerPhase],
    ?_,?_⟩
  · simp only [specState,hs,consumerPosition,tail_eq h]
  · simp only [specState,State.returnPop,State.setMemory,pushed_append_pop,popped_append,
      Event.successfulPop,ok_iff,if_true,Option.toList_some,List.length_append,
      List.length_singleton,List.map_append,List.map_cons,List.map_nil,hs,consumerPhase,
      consumerPosition,consumerValue]

/-- Every access of the consumer is simulated. -/
theorem stepPop_simulated (h : Inv q s f) {original destination : List Byte} {ts : ℕ} {pc : PopPc}
    (hs : s.consumer=.running original destination pc)
    (hstep : stepPop q s original destination ts pc=some s') :
    Simulated q totalOps s s' (.pop ts) := by
  cases pc with
  | loadTail =>
    obtain ⟨loaded,-,rfl⟩ := Option.map_eq_some_iff.mp hstep
    refine .inl ⟨by simp only [label,hs],?_⟩
    simp only [specState,State.setView,hs,consumerPhase,consumerPosition,consumerValue]
  | loadHead tail =>
    obtain ⟨loaded,-,rfl⟩ := Option.map_eq_some_iff.mp hstep
    refine .inl ⟨by simp only [label,hs],?_⟩
    unfold testMessage
    split
    · exact returnPop_simulated loaded.2 rfl (by rw [hs]; exact ⟨rfl,rfl,rfl⟩)
    · simp only [specState,State.setView,hs,consumerPhase,consumerPosition,consumerValue]
  | copy tail pc => exact copy_simulated h hs hstep
  | storeTail tail result =>
    obtain ⟨written,-,rfl⟩ := Option.map_eq_some_iff.mp hstep
    exact storeTail_simulated h hs

/-- Every scheduled step is simulated while the calls suffice. -/
theorem step_simulated (h : Inv q s f) {a : Action}
    (hops : (pushed s.log).length+inFlight s.producer≤totalOps)
    (hstep : step q s a=some s') : Simulated q totalOps s s' a := by
  cases a with
  | callPush payload =>
    simp only [step] at hstep
    split at hstep <;> cases hstep
    rename_i hidle
    exact .inl ⟨rfl,enterPush_simulated payload hidle⟩
  | push ts =>
    simp only [step] at hstep
    split at hstep
    · rename_i payload pc hp
      rw [hp] at hops
      exact stepPush_simulated h hp hops hstep
    · cases hstep
  | callPop destination =>
    simp only [step] at hstep
    split at hstep <;> cases hstep
    rename_i hidle
    refine .inl ⟨rfl,?_⟩
    simp only [specState,hidle,consumerPhase,consumerPosition,consumerValue]
  | pop ts =>
    simp only [step] at hstep
    split at hstep
    · rename_i original destination pc hc
      exact stepPop_simulated h hc hstep
    · cases hstep

end Simulation

/-- Every run of the code on its memory orders is, through the mapping, a
stuttering run of the specification with the capacity of the queue and at
least as many operations as pushes are called. -/
theorem spsc_refines_specification (q : Ring) {actions : List Action} {s : State N}
    (h : Schedule (system q N) actions s) {totalOps : ℕ} (hcalls : calls actions≤totalOps) :
    Matched (system q N) label SpscTla.init (SpscTla.Next q.capacity totalOps)
      (fun s t => t=specState s) actions s (specState s) := by
  have hshorter : ∀ (actions : List Action) (a : Action),
      calls (actions++[a])≤totalOps → calls actions≤totalOps := by
    intro actions a hle
    rw [calls,List.countP_append] at hle
    exact (Nat.le_add_right _ _).trans hle
  have hmatched : ∃ t,Matched (system q N) label SpscTla.init (SpscTla.Next q.capacity totalOps)
      (fun s t => t=specState s) actions s t := by
    refine h.matched_within (R:=fun s t => t=specState s)
      (P:=fun actions => calls actions≤totalOps) hshorter rfl ?_ hcalls
    rintro actions s t a s' hr hle rfl hs
    obtain ⟨f,hf⟩ := reachable_inv hr.reachable
    have hops := (pushed_le_calls hr).trans (hshorter actions a hle)
    rcases step_simulated hf hops hs with ⟨hl,he⟩ | ⟨l,hl,hn⟩
    · exact .inl ⟨hl,he.symm⟩
    · exact .inr ⟨l,specState s',hl,hn,rfl⟩
  obtain ⟨t,hm⟩ := hmatched
  have he := hm.related
  subst he
  exact hm

/-- The refinement at a run with an outdated load, in which all four actions
are performed. -/
theorem spsc_refines_specification_outdated :
    ∃ s,Schedule (system (.ofSucc _ 0) 2) outdatedPop s ∧ calls outdatedPop=2 ∧
      (popped s.log).map (fun call => call.2.2.sequence)=[1] ∧
      Matched (system (.ofSucc _ 0) 2) label SpscTla.init (SpscTla.Next 1 2)
        (fun s t => t=specState s) outdatedPop s (specState s) := by
  have hlog : (outdatedPop.foldlM (system (.ofSucc _ 0) 2).step (system (.ofSucc _ 0) 2).init).map
      (fun s => (popped s.log).map fun call => call.2.2.sequence)=some [1] := by decide +kernel
  obtain ⟨s,hrun,hpopped⟩ := Option.map_eq_some_iff.mp hlog
  have hsch := schedule_of_foldlM hrun
  exact ⟨s,hsch,by decide,hpopped,
    spsc_refines_specification (.ofSucc _ 0) hsch (by decide : calls outdatedPop≤2)⟩

end Line64.SpscRefinement
