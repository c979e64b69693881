import Line64.RingIndex
import Line64.SpscModel

/-!
# The SPSC queue is linearizable to a bounded FIFO

The unread messages, from the tail to the head, are the contents of a list
that explains the whole log. Producer and consumer act on a possibly stale
copy of the other counter, which is harmless because the counters only grow
and each thread owns the slot it is working on.
-/

namespace Line64.SpscFifo

open Function Result FixedMessageAccess Transition BoundedFifo SpscModel

variable {ι : Type} {N : ℕ}

/-- What the producer knows at its program point. -/
def ProducerOk (q : Ring) (slots : ℕ → FixedMessage N) (head tail : ℕ) : Producer → Prop
  | .idle => True
  | .running payload .loadHead => payload.length≤N
  | .running payload (.loadTail head') => payload.length≤N ∧ head'=head
  | .running payload (.assign head' pc) => payload.length≤N ∧ head'=head ∧
      head<tail+q.capacity ∧ AssignProgress payload (head+1) (slots (head%q.capacity)) pc
  | .running payload (.storeHead head' result) => payload.length≤N ∧ head'=head ∧
      head<tail+q.capacity ∧ result=⟨.success,head+1⟩ ∧
      Holds (slots (head%q.capacity)) payload (head+1)

/-- What the consumer knows at its program point about the unread messages. -/
def ConsumerOk (queue : List (List Byte)) (tail : ℕ) : Consumer → Prop
  | .idle => True
  | .running original destination .loadTail => destination=original
  | .running original destination (.loadHead tail') => destination=original ∧ tail'=tail
  | .running original destination (.copy tail' pc) => tail'=tail ∧
      ∃ payload rest,queue=payload::rest ∧ CopyProgress payload original destination pc
  | .running original destination (.storeTail tail' result) => tail'=tail ∧
      ∃ payload rest,queue=payload::rest ∧ payload.length≤original.length ∧
        (destination,result)=delivery payload (tail+1) original

/-- Every unread message is in the slot of its position. -/
def SlotsHold (q : Ring) (slots : ℕ → FixedMessage N) (tail : ℕ) (queue : List (List Byte)) :
    Prop :=
  ∀ k payload,queue[k]?=some payload →
    Holds (slots ((tail+k)%q.capacity)) payload (tail+k+1)

/-- The inductive invariant: the list `f` explains the log and is stored
between the two counters. -/
structure Inv (q : Ring) (s : State ι N) (f : Fifo) : Prop where
  /-- The list returns what the calls returned. -/
  explained : Explains N q.capacity true s.log f
  /-- The tail counts the removed messages. -/
  popped_eq : f.popped=s.tail
  /-- The head is behind the unread messages. -/
  head_eq : s.head=s.tail+f.queue.length
  /-- There are at most `capacity` unread messages. -/
  bound : f.queue.length≤q.capacity
  /-- They are in their slots. -/
  slots : SlotsHold q s.slots s.tail f.queue
  /-- Knowledge of the producer. -/
  producer : ProducerOk q s.slots s.head s.tail s.producer
  /-- Knowledge of the consumer. -/
  consumer : ConsumerOk f.queue s.tail s.consumer

/-- The constructed queue is the empty list. -/
theorem inv_init (q : Ring) : Inv q (init ι N) ⟨0,[]⟩ where
  explained := .nil
  popped_eq := rfl
  head_eq := rfl
  bound := Nat.zero_le _
  slots := nofun
  producer := trivial
  consumer := trivial

section Access

variable {q : Ring} {s : State ι N} {f : Fifo}

/-- The room test of the producer compares the number of unread messages. -/
theorem Inv.subWord_eq (h : Inv q s f) : subWord s.head s.tail=f.queue.length := by
  have hhead := h.head_eq
  rw [subWord,if_pos (by omega)]
  omega

/-- Writing the slot behind the unread messages touches none of them. -/
theorem SlotsHold.write {slots : ℕ → FixedMessage N} {tail head : ℕ} {queue : List (List Byte)}
    (h : SlotsHold q slots tail queue) (hhead : head=tail+queue.length)
    (hroom : head<tail+q.capacity) (message : FixedMessage N) :
    SlotsHold q (update slots (head%q.capacity) message) tail queue := by
  intro k payload hk
  have hlt := (List.getElem?_eq_some_iff.mp hk).1
  have hne : (tail+k)%q.capacity≠head%q.capacity := by
    intro he
    have heq := RingIndex.eq_of_index_eq he (by omega) (by omega)
    omega
  rw [update_of_ne hne]
  exact h k payload hk

/-- A written slot behind the unread messages extends them. -/
theorem SlotsHold.push {slots : ℕ → FixedMessage N} {tail head : ℕ} {queue : List (List Byte)}
    {payload : List Byte} (h : SlotsHold q slots tail queue) (hhead : head=tail+queue.length)
    (hslot : Holds (slots (head%q.capacity)) payload (head+1)) :
    SlotsHold q slots tail (queue++[payload]) := by
  intro k other hk
  rw [List.getElem?_append] at hk
  split at hk
  · exact h k other hk
  · have hbound := (List.getElem?_eq_some_iff.mp hk).1
    rw [List.length_singleton] at hbound
    have hlast : k=queue.length := by omega
    subst hlast
    rw [Nat.sub_self] at hk
    cases hk
    rw [← hhead]
    exact hslot

/-- The slot of the tail holds the oldest unread message. -/
theorem SlotsHold.front {slots : ℕ → FixedMessage N} {tail : ℕ} {payload : List Byte}
    {rest : List (List Byte)} (h : SlotsHold q slots tail (payload::rest)) :
    Holds (slots (tail%q.capacity)) payload (tail+1) := h 0 payload rfl

/-- Advancing the tail drops the oldest unread message. -/
theorem SlotsHold.pop {slots : ℕ → FixedMessage N} {tail : ℕ} {payload : List Byte}
    {rest : List (List Byte)} (h : SlotsHold q slots tail (payload::rest)) :
    SlotsHold q slots (tail+1) rest := by
  intro k other hk
  have hnext := h (k+1) other (by rw [List.getElem?_cons_succ]; exact hk)
  have hpos : tail+(k+1)=tail+1+k := by omega
  rw [hpos] at hnext
  exact hnext

/-- The producer keeps its knowledge while the tail advances. -/
theorem ProducerOk.tail_succ {slots : ℕ → FixedMessage N} {head tail : ℕ} {producer : Producer}
    (h : ProducerOk q slots head tail producer) : ProducerOk q slots head (tail+1) producer := by
  cases producer with
  | idle => trivial
  | running payload pc =>
    cases pc with
    | loadHead => exact h
    | loadTail head' => exact h
    | assign head' pc =>
      obtain ⟨hp,he,hroom,hprog⟩ := h
      exact ⟨hp,he,by omega,hprog⟩
    | storeHead head' result =>
      obtain ⟨hp,he,hroom,hrest⟩ := h
      exact ⟨hp,he,by omega,hrest⟩

/-- The consumer keeps its knowledge while messages are appended. -/
theorem ConsumerOk.append {queue : List (List Byte)} {tail : ℕ} {consumer : Consumer}
    (h : ConsumerOk queue tail consumer) (added : List (List Byte)) :
    ConsumerOk (queue++added) tail consumer := by
  cases consumer with
  | idle => trivial
  | running original destination pc =>
    cases pc with
    | loadTail => exact h
    | loadHead tail' => exact h
    | copy tail' pc =>
      obtain ⟨ht,payload,rest,rfl,hprog⟩ := h
      exact ⟨ht,payload,rest++added,rfl,hprog⟩
    | storeTail tail' result =>
      obtain ⟨ht,payload,rest,rfl,hrest⟩ := h
      exact ⟨ht,payload,rest++added,rfl,hrest⟩

/-- A call of `try_push` keeps the invariant. -/
theorem Inv.enterPush (h : Inv q s f) (payload : List Byte) :
    Inv q (SpscModel.enterPush s payload) f := by
  unfold SpscModel.enterPush
  split
  · rename_i hlarge
    have hpush : f.push N q.capacity payload=(f,⟨.messageTooLarge,0⟩) := if_pos hlarge
    exact {h with explained := h.explained.push hpush, producer := trivial}
  · rename_i hfits
    exact {h with producer := Nat.not_lt.mp hfits}

/-- The room test either reports a full list or enters `assign`. -/
theorem Inv.loadTail (h : Inv q s f) {payload : List Byte} {head : ℕ}
    (hs : s.producer=.running payload (.loadTail head)) :
    Inv q (stepPush q s payload (.loadTail head)) f := by
  have hok := h.producer
  rw [hs] at hok
  obtain ⟨hp,rfl⟩ := hok
  have hsub := h.subWord_eq
  have hhead := h.head_eq
  have hbound := h.bound
  simp only [stepPush,hsub]
  split
  · rename_i hfull
    have hpush : f.push N q.capacity payload=(f,⟨.full,0⟩) := by
      rw [Fifo.push,if_neg (Nat.not_lt.mpr hp),if_pos hfull]
    exact {h with explained := h.explained.push hpush, producer := trivial}
  · rename_i hroom
    have henter := assignEnter_progress (s.head+1) (s.slots (s.head%q.capacity)) hp
    have hlt : s.head<s.tail+q.capacity := by omega
    rw [henter.1]
    exact {h with producer := ⟨hp,rfl,hlt,henter.2⟩}

/-- An access of `assign` only touches the slot behind the unread ones. -/
theorem Inv.assign (h : Inv q s f) {payload : List Byte} {head : ℕ} {pc : AssignPc}
    (hs : s.producer=.running payload (.assign head pc)) :
    Inv q (stepPush q s payload (.assign head pc)) f := by
  have hok := h.producer
  rw [hs] at hok
  obtain ⟨hp,rfl,hroom,hprog⟩ := hok
  have hnext := assignStep_progress hp hprog
  have hslots := h.slots.write h.head_eq hroom
    (assignStep payload (s.head+1) (s.slots (s.head%q.capacity)) pc).1
  have hproducer : ProducerOk q
      (update s.slots (s.head%q.capacity)
        (assignStep payload (s.head+1) (s.slots (s.head%q.capacity)) pc).1) s.head s.tail
      (.running payload (afterAssign s.head
        (assignStep payload (s.head+1) (s.slots (s.head%q.capacity)) pc).2)) := by
    cases pc with
    | loadSequence =>
      obtain ⟨hresult,hholds⟩ := hnext
      refine ⟨hp,rfl,hroom,hresult,?_⟩
      rw [update_self]
      exact hholds
    | _ =>
      refine ⟨hp,rfl,hroom,?_⟩
      rw [update_self]
      exact hnext
  exact {h with slots := hslots, producer := hproducer}

/-- The store of the head completes a push of the list. -/
theorem Inv.storeHead (h : Inv q s f) {payload : List Byte} {head : ℕ} {result : WriteResult}
    (hs : s.producer=.running payload (.storeHead head result)) :
    Inv q (stepPush q s payload (.storeHead head result)) ⟨f.popped,f.queue++[payload]⟩ := by
  have hok := h.producer
  rw [hs] at hok
  obtain ⟨hp,rfl,hroom,rfl,hholds⟩ := hok
  have hhead := h.head_eq
  have hpopped := h.popped_eq
  have hpush := Fifo.push_of_room (f:=f) hp (by omega : f.queue.length≠q.capacity)
  have hsequence : f.popped+f.queue.length+1=s.head+1 := by omega
  rw [hsequence] at hpush
  have hlength : (f.queue++[payload]).length=f.queue.length+1 := List.length_append
  exact {
    explained := h.explained.push hpush
    popped_eq := h.popped_eq
    head_eq := by simp only [stepPush,State.returnPush,hlength]; omega
    bound := by simp only [hlength]; omega
    slots := h.slots.push h.head_eq hholds
    producer := trivial
    consumer := h.consumer.append [payload] }

/-- Every access of the producer keeps the invariant. -/
theorem Inv.stepPush (h : Inv q s f) {payload : List Byte} {pc : PushPc}
    (hs : s.producer=.running payload pc) : ∃ f',Inv q (SpscModel.stepPush q s payload pc) f' := by
  cases pc with
  | loadHead =>
    have hok := h.producer
    rw [hs] at hok
    exact ⟨f,{h with producer := ⟨hok,rfl⟩}⟩
  | loadTail head => exact ⟨f,h.loadTail hs⟩
  | assign head pc => exact ⟨f,h.assign hs⟩
  | storeHead head result => exact ⟨_,h.storeHead hs⟩

/-- The message test either reports an empty list or enters `copy_to`. -/
theorem Inv.loadHead (h : Inv q s f) {original destination : List Byte} {tail : ℕ}
    (hs : s.consumer=.running original destination (.loadHead tail)) :
    Inv q (stepPop q s original destination (.loadHead tail)) f := by
  have hok := h.consumer
  rw [hs] at hok
  obtain ⟨rfl,rfl⟩ := hok
  have hhead := h.head_eq
  simp only [stepPop]
  cases hqueue : f.queue with
  | nil =>
    have hempty : s.tail=s.head := by rw [hhead,hqueue]; rfl
    have hpop : f.pop true destination=(f,destination,⟨.empty,0,0⟩) := by rw [Fifo.pop,hqueue]
    rw [if_pos hempty]
    exact {h with explained := h.explained.pop hpop, consumer := trivial}
  | cons payload rest =>
    have hsome : s.tail≠s.head := by
      rw [hqueue,List.length_cons] at hhead
      omega
    rw [if_neg hsome]
    exact {h with consumer := ⟨rfl,payload,rest,hqueue,rfl⟩}

/-- The end of `copy_to`: a success goes on to the store of the tail, a
rejected message stays where it is. -/
theorem Inv.copied (h : Inv q s f) {original destination : List Byte} {payload : List Byte}
    {rest : List (List Byte)} {result : ReadResult} (hqueue : f.queue=payload::rest)
    (hd : (destination,result)=delivery payload (s.tail+1) original) :
    Inv q (afterCopy s original destination s.tail (.finished result)) f := by
  by_cases hshort : original.length<payload.length
  · have hpop : f.pop true original=(f,destination,result) := by
      rw [Fifo.pop_of_rejects hqueue hshort,h.popped_eq,hd]
    rw [delivery_of_rejects _ hshort,Prod.mk.injEq] at hd
    have hbad : ¬ok result.status=true := by rw [hd.2]; simp
    rw [afterCopy,if_neg hbad]
    exact {h with explained := h.explained.pop hpop, consumer := trivial}
  · have hfits := Nat.not_lt.mp hshort
    have hdelivered := hd
    rw [delivery_of_fits _ hfits,Prod.mk.injEq] at hd
    have hgood : ok result.status=true := by rw [hd.2]; simp
    rw [afterCopy,if_pos hgood]
    exact {h with consumer := ⟨rfl,payload,rest,hqueue,hfits,hdelivered⟩}

/-- An access of `copy_to` reads the oldest unread message. -/
theorem Inv.copy (h : Inv q s f) {original destination : List Byte} {tail : ℕ} {pc : CopyPc}
    (hs : s.consumer=.running original destination (.copy tail pc)) :
    Inv q (stepPop q s original destination (.copy tail pc)) f := by
  have hok := h.consumer
  rw [hs] at hok
  obtain ⟨rfl,payload,rest,hqueue,hprog⟩ := hok
  have hslots := h.slots
  rw [hqueue] at hslots
  have hnext := copyStep_progress hslots.front hprog
  simp only [stepPop]
  cases hresult : (copyStep (s.slots (s.tail%q.capacity)) destination pc).2 with
  | running pc' =>
    rw [hresult] at hnext
    exact {h with consumer := ⟨rfl,payload,rest,hqueue,hnext⟩}
  | finished result =>
    rw [hresult] at hnext
    exact h.copied hqueue hnext

/-- The store of the tail completes a pop of the list. -/
theorem Inv.storeTail (h : Inv q s f) {original destination : List Byte} {tail : ℕ}
    {result : ReadResult} (hs : s.consumer=.running original destination (.storeTail tail result)) :
    ∃ f',Inv q (stepPop q s original destination (.storeTail tail result)) f' := by
  have hok := h.consumer
  rw [hs] at hok
  obtain ⟨rfl,payload,rest,hqueue,hfits,hd⟩ := hok
  have hpop : f.pop true original=(⟨f.popped+1,rest⟩,destination,result) := by
    rw [Fifo.pop_of_fits true hqueue hfits,hd,h.popped_eq]
  have hhead := h.head_eq
  have hbound := h.bound
  have hslots := h.slots
  rw [hqueue] at hslots
  rw [hqueue,List.length_cons] at hhead hbound
  refine ⟨⟨f.popped+1,rest⟩,?_⟩
  exact {
    explained := h.explained.pop hpop
    popped_eq := by simp only [stepPop,State.returnPop,h.popped_eq]
    head_eq := by simp only [stepPop,State.returnPop]; omega
    bound := by simp only; omega
    slots := hslots.pop
    producer := h.producer.tail_succ
    consumer := trivial }

/-- Every access of the consumer keeps the invariant. -/
theorem Inv.stepPop (h : Inv q s f) {original destination : List Byte} {pc : PopPc}
    (hs : s.consumer=.running original destination pc) :
    ∃ f',Inv q (SpscModel.stepPop q s original destination pc) f' := by
  cases pc with
  | loadTail =>
    have hok := h.consumer
    rw [hs] at hok
    exact ⟨f,{h with consumer := ⟨hok,rfl⟩}⟩
  | loadHead tail => exact ⟨f,h.loadHead hs⟩
  | copy tail pc => exact ⟨f,h.copy hs⟩
  | storeTail tail result => exact h.storeTail hs

end Access

/-- Where a step that completes a call stood, and what it returned. -/
inductive Completes (q : Ring) (s s' : State ι N) : Action ι → Event → Prop
  | oversized (payload : List Byte) (hlarge : N<payload.length) :
      Completes q s s' (.callPush payload) (.push payload ⟨.messageTooLarge,0⟩)
  | full (payload : List Byte) (head : ℕ)
      (hs : s.producer=.running payload (.loadTail head))
      (hfull : subWord head s.tail=q.capacity) : Completes q s s' .push (.push payload ⟨.full,0⟩)
  | pushed (payload : List Byte) (head : ℕ) (result : WriteResult)
      (hs : s.producer=.running payload (.storeHead head result)) :
      Completes q s s' .push (.push payload result)
  | empty (original destination : List Byte) (tail : ℕ)
      (hs : s.consumer=.running original destination (.loadHead tail)) (hempty : tail=s.head) :
      Completes q s s' .pop (.pop original destination ⟨.empty,0,0⟩)
  | rejected (original destination destination' : List Byte) (tail : ℕ) (pc : CopyPc)
      (result : ReadResult) (hs : s.consumer=.running original destination (.copy tail pc))
      (hcopy : copyStep (s.slots (tail%q.capacity)) destination pc=(destination',.finished result))
      (htail : s'.tail=s.tail) :
      Completes q s s' .pop (.pop original destination' result)
  | popped (original destination : List Byte) (tail : ℕ) (result : ReadResult)
      (hs : s.consumer=.running original destination (.storeTail tail result)) :
      Completes q s s' .pop (.pop original destination result)

/-- A step of the producer adds to the log only where it returns. -/
theorem stepPush_log {q : Ring} {s : State ι N} {payload : List Byte} {pc : PushPc}
    (hs : s.producer=.running payload pc) :
    (stepPush q s payload pc).log=s.log ∨
      ∃ event,(stepPush q s payload pc).log=s.log++[event] ∧
        Completes q s (stepPush q s payload pc) .push event := by
  cases pc with
  | loadHead => exact .inl rfl
  | loadTail head =>
    by_cases hfull : subWord head s.tail=q.capacity
    · exact .inr ⟨_,by simp only [stepPush,if_pos hfull,State.returnPush],.full payload head hs hfull⟩
    · exact .inl (by simp only [stepPush,if_neg hfull])
  | assign head pc => exact .inl rfl
  | storeHead head result => exact .inr ⟨_,rfl,.pushed payload head result hs⟩

/-- A step of the consumer adds to the log only where it returns. -/
theorem stepPop_log {q : Ring} {s : State ι N} {original destination : List Byte} {pc : PopPc}
    (hs : s.consumer=.running original destination pc) :
    (stepPop q s original destination pc).log=s.log ∨
      ∃ event,(stepPop q s original destination pc).log=s.log++[event] ∧
        Completes q s (stepPop q s original destination pc) .pop event := by
  cases pc with
  | loadTail => exact .inl rfl
  | loadHead tail =>
    by_cases hempty : tail=s.head
    · exact .inr ⟨_,by simp only [stepPop,if_pos hempty,State.returnPop],
        .empty original destination tail hs hempty⟩
    · exact .inl (by simp only [stepPop,if_neg hempty])
  | copy tail pc =>
    obtain ⟨destination',progress,hcopy⟩ : ∃ d p,
      copyStep (s.slots (tail%q.capacity)) destination pc=(d,p) := ⟨_,_,rfl⟩
    cases progress with
    | running pc' => exact .inl (by simp only [stepPop,hcopy,afterCopy])
    | finished result =>
      cases hok : ok result.status with
      | true => exact .inl (by simp only [stepPop,hcopy,afterCopy,hok,if_true])
      | false =>
        have hstep : stepPop q s original destination (.copy tail pc)=
            s.returnPop original destination' result := by
          simp only [stepPop,hcopy,afterCopy,hok,Bool.false_eq_true,if_false]
        rw [hstep]
        exact .inr ⟨_,rfl,.rejected original destination destination' tail pc result hs hcopy rfl⟩
  | storeTail tail result => exact .inr ⟨_,rfl,.popped original destination tail result hs⟩

section Exact

variable {q : Ring} {s s' : State ι N} {f : Fifo} {a : Action ι}

/-- A full report comes from the load of the tail. -/
theorem Inv.full_exact (h : Inv q s f) {payload : List Byte} {result : WriteResult}
    (hc : Completes q s s' a (.push payload result)) (hfull : result.status=.full) :
    (∃ head,s.producer=.running payload (.loadTail head)) ∧ s.head=s.tail+q.capacity := by
  cases hc with
  | oversized _ hlarge => cases hfull
  | full _ head hs hsub =>
    have hok := h.producer
    rw [hs] at hok
    have hhead := h.head_eq
    rw [hok.2,h.subWord_eq] at hsub
    exact ⟨⟨head,hs⟩,by omega⟩
  | pushed _ head _ hs =>
    have hok := h.producer
    rw [hs] at hok
    rw [hok.2.2.2.1] at hfull
    cases hfull

/-- What the end of `copy_to` returned. -/
theorem Inv.copied_result (h : Inv q s f) {original destination destination' : List Byte}
    {tail : ℕ} {pc : CopyPc} {result : ReadResult}
    (hs : s.consumer=.running original destination (.copy tail pc))
    (hcopy : copyStep (s.slots (tail%q.capacity)) destination pc=
      (destination',.finished result)) :
    ∃ payload rest,f.queue=payload::rest ∧
      (destination',result)=delivery payload (s.tail+1) original := by
  have hok := h.consumer
  rw [hs] at hok
  obtain ⟨rfl,payload,rest,hqueue,hprog⟩ := hok
  have hslots := h.slots
  rw [hqueue] at hslots
  have hnext := copyStep_progress hslots.front hprog
  rw [hcopy] at hnext
  exact ⟨payload,rest,hqueue,hnext⟩

/-- An empty report comes from the load of the head. -/
theorem Inv.empty_exact (h : Inv q s f) {original destination : List Byte} {result : ReadResult}
    (hc : Completes q s s' a (.pop original destination result)) (hempty : result.status=.empty) :
    (∃ tail,s.consumer=.running original destination (.loadHead tail)) ∧ s.head=s.tail := by
  cases hc with
  | empty _ _ tail hs htail =>
    have hok := h.consumer
    rw [hs] at hok
    exact ⟨⟨tail,hs⟩,by rw [← htail,hok.2]⟩
  | rejected _ _ _ tail pc _ hs hcopy _ =>
    obtain ⟨payload,rest,-,hd⟩ := h.copied_result hs hcopy
    unfold delivery at hd
    split at hd <;> cases hd <;> cases hempty
  | popped _ _ tail _ hs =>
    have hok := h.consumer
    rw [hs] at hok
    obtain ⟨-,payload,rest,-,hfits,hd⟩ := hok
    rw [delivery_of_fits _ hfits] at hd
    cases hd
    cases hempty

/-- A rejected message is the oldest unread one and is not removed. -/
theorem Inv.rejected_kept (h : Inv q s f) {original destination : List Byte}
    {result : ReadResult} (hc : Completes q s s' a (.pop original destination result))
    (hlarge : result.status=.messageTooLarge) :
    result=⟨.messageTooLarge,0,s.tail+1⟩ ∧ destination=original ∧ s'.tail=s.tail ∧
    ∃ (payload : List Byte) (written : WriteResult),
      (pushed s.log)[s.tail]?=some (payload,written) ∧ original.length<payload.length := by
  cases hc with
  | empty _ _ tail hs htail => cases hlarge
  | rejected _ _ _ tail pc _ hs hcopy htail =>
    obtain ⟨payload,rest,hqueue,hd⟩ := h.copied_result hs hcopy
    obtain ⟨written,hpushed⟩ := h.explained.conserves.front hqueue
    rw [h.popped_eq] at hpushed
    by_cases hshort : original.length<payload.length
    · rw [delivery_of_rejects _ hshort] at hd
      cases hd
      exact ⟨rfl,rfl,htail,payload,written,hpushed,hshort⟩
    · rw [delivery_of_fits _ (Nat.not_lt.mp hshort)] at hd
      cases hd
      cases hlarge
  | popped _ _ tail _ hs =>
    have hok := h.consumer
    rw [hs] at hok
    obtain ⟨-,payload,rest,-,hfits,hd⟩ := hok
    rw [delivery_of_fits _ hfits] at hd
    cases hd
    cases hlarge

end Exact

variable [DecidableEq ι]

/-- Every scheduled step keeps the invariant. -/
theorem Inv.step {q : Ring} {s s' : State ι N} {f : Fifo} {a : Action ι} (h : Inv q s f)
    (hs : SpscModel.step q s a=some s') : ∃ f',Inv q s' f' := by
  cases a with
  | callPush payload =>
    simp only [SpscModel.step] at hs
    split at hs <;> cases hs
    exact ⟨f,h.enterPush payload⟩
  | push =>
    simp only [SpscModel.step] at hs
    split at hs <;> cases hs
    rename_i payload pc hp
    exact h.stepPush hp
  | callPop destination =>
    simp only [SpscModel.step] at hs
    split at hs <;> cases hs
    exact ⟨f,{h with consumer := rfl}⟩
  | pop =>
    simp only [SpscModel.step] at hs
    split at hs <;> cases hs
    rename_i original destination pc hc
    exact h.stepPop hc
  | callObserver i question headFirst =>
    simp only [SpscModel.step] at hs
    split at hs <;> cases hs
    exact ⟨f,{h with}⟩
  | observe i =>
    obtain ⟨next,-,rfl⟩ := Option.map_eq_some_iff.mp hs
    exact ⟨f,{h with}⟩

/-- The invariant holds in every reachable state. -/
theorem reachable_inv {q : Ring} {s : State ι N} (h : Reachable (system q ι N) s) :
    ∃ f,Inv q s f := by
  refine Reachable.invariant (I:=fun s => ∃ f,Inv q s f) ⟨_,inv_init q⟩ ?_ h
  rintro s a s' - ⟨f,hf⟩ hs
  exact hf.step hs

/-- Every step leaves the log alone or completes one call. -/
theorem step_log {q : Ring} {s s' : State ι N} {a : Action ι}
    (hs : SpscModel.step q s a=some s') :
    s'.log=s.log ∨ ∃ event,s'.log=s.log++[event] ∧ Completes q s s' a event := by
  cases a with
  | callPush payload =>
    simp only [SpscModel.step] at hs
    split at hs <;> cases hs
    by_cases hlarge : N<payload.length
    · exact .inr ⟨_,by simp only [enterPush,if_pos hlarge,State.returnPush],
        .oversized payload hlarge⟩
    · exact .inl (by simp only [enterPush,if_neg hlarge])
  | push =>
    simp only [SpscModel.step] at hs
    split at hs <;> cases hs
    rename_i payload pc hp
    exact stepPush_log hp
  | callPop destination =>
    simp only [SpscModel.step] at hs
    split at hs <;> cases hs
    exact .inl rfl
  | pop =>
    simp only [SpscModel.step] at hs
    split at hs <;> cases hs
    rename_i original destination pc hc
    exact stepPop_log hc
  | callObserver i question headFirst =>
    simp only [SpscModel.step] at hs
    split at hs <;> cases hs
    exact .inl rfl
  | observe i =>
    obtain ⟨next,-,rfl⟩ := Option.map_eq_some_iff.mp hs
    exact .inl rfl

/-- The completed call of a step that extends the log. -/
theorem completes_of_log {q : Ring} {s s' : State ι N} {a : Action ι} {event : Event}
    (hs : SpscModel.step q s a=some s') (hlog : s'.log=s.log++[event]) :
    Completes q s s' a event := by
  rcases step_log hs with hsame | ⟨other,hother,hc⟩
  · rw [hsame] at hlog
    exact absurd hlog.symm (by simp)
  · rw [hother] at hlog
    have he := List.append_cancel_left hlog
    cases he
    exact hc

/-- Linearizability to a bounded FIFO, as a property of one state of a run
and of the steps possible there. -/
structure Linearizable (q : Ring) (s : State ι N) : Prop where
  /-- A bounded list, run over the completed calls in the order of their last
  shared accesses, returns what they returned and holds the unread messages. -/
  explained : ∃ f,Explains N q.capacity true s.log f ∧ f.popped=s.tail ∧
    f.popped+f.queue.length=s.head
  /-- The pushes that succeeded are numbered from one. -/
  push_sequence : ∀ (i : ℕ) (payload : List Byte) (result : WriteResult),
    (pushed s.log)[i]?=some (payload,result) → result=⟨.success,i+1⟩
  /-- The pops that succeeded deliver these pushes one by one. -/
  pop_delivery : ∀ (i : ℕ) (original destination : List Byte) (result : ReadResult),
    (popped s.log)[i]?=some (original,destination,result) →
    ∃ (payload : List Byte) (written : WriteResult),(pushed s.log)[i]?=some (payload,written) ∧
      payload.length≤original.length ∧ destination=payload++original.drop payload.length ∧
      result=⟨.success,payload.length,i+1⟩
  /-- The counters count the successful calls. -/
  counters : s.head=(pushed s.log).length ∧ s.tail=(popped s.log).length
  /-- The number of unread messages is between zero and the capacity. -/
  unread : s.tail ≤ s.head ∧ s.head ≤ s.tail+q.capacity
  /-- A push that returns full does so at its load of the tail, with exactly
  `capacity` messages unread at that instant. -/
  full_exact : ∀ a s' payload result,SpscModel.step q s a=some s' →
    s'.log=s.log++[.push payload result] → result.status=.full →
    (∃ head,s.producer=.running payload (.loadTail head)) ∧ s.head=s.tail+q.capacity
  /-- A pop that returns empty does so at its load of the head, with no
  message unread at that instant. -/
  empty_exact : ∀ a s' original destination result,SpscModel.step q s a=some s' →
    s'.log=s.log++[.pop original destination result] → result.status=.empty →
    (∃ tail,s.consumer=.running original destination (.loadHead tail)) ∧ s.head=s.tail
  /-- A pop that returns too large names the oldest unread message, which is
  longer than the destination and stays the next to be popped. -/
  rejected_kept : ∀ a s' original destination result,SpscModel.step q s a=some s' →
    s'.log=s.log++[.pop original destination result] → result.status=.messageTooLarge →
    result=⟨.messageTooLarge,0,s.tail+1⟩ ∧ destination=original ∧ s'.tail=s.tail ∧
    ∃ (payload : List Byte) (written : WriteResult),
      (pushed s.log)[s.tail]?=some (payload,written) ∧ original.length<payload.length

/-- Every interleaving of one producer, one consumer and any observers is
linearizable to a bounded FIFO, for every capacity. -/
theorem spsc_linearizable (q : Ring) {s : State ι N} (h : Reachable (system q ι N) s) :
    Linearizable q s := by
  obtain ⟨f,hf⟩ := reachable_inv h
  have hcons := hf.explained.conserves
  have hlength := hcons.length_eq
  have hcount := hcons.popped_eq
  have hpopped := hf.popped_eq
  have hhead := hf.head_eq
  have hbound := hf.bound
  exact {
    explained := ⟨f,hf.explained,hpopped,by omega⟩
    push_sequence := hcons.push_sequence
    pop_delivery := hcons.pop_delivery
    counters := ⟨by omega,by omega⟩
    unread := ⟨by omega,by omega⟩
    full_exact := fun a s' payload result hs hlog hfull =>
      hf.full_exact (completes_of_log hs hlog) hfull
    empty_exact := fun a s' original destination result hs hlog hempty =>
      hf.empty_exact (completes_of_log hs hlog) hempty
    rejected_kept := fun a s' original destination result hs hlog hlarge =>
      hf.rejected_kept (completes_of_log hs hlog) hlarge }

/-- A push into a queue of one slot, a refused push, a pop with too small a
destination, its retry, and a pop that finds nothing. -/
def retriedPop : List (Action Unit) :=
  .callPush [1,2]::List.replicate 8 .push++.callPush [3]::List.replicate 2 .push++
  .callPop [0]::List.replicate 4 .pop++.callPop [0,0,0]::List.replicate 9 .pop++
  .callPop [0]::List.replicate 2 .pop

/-- Linearizability at a run that meets every kind of result. -/
theorem spsc_linearizable_retried :
    (run (system (.ofSucc _ 0) Unit 2) retriedPop).log=
      [.push [1,2] ⟨.success,1⟩,.push [3] ⟨.full,0⟩,.pop [0] [0] ⟨.messageTooLarge,0,1⟩,
        .pop [0,0,0] [1,2,0] ⟨.success,2,1⟩,.pop [0] [0] ⟨.empty,0,0⟩] ∧
    Linearizable (.ofSucc _ 0) (run (system (.ofSucc _ 0) Unit 2) retriedPop) :=
  ⟨by decide +kernel,spsc_linearizable _ (run_reachable _ _)⟩

end Line64.SpscFifo
