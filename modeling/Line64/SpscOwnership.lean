import Line64.SpscFifo

/-!
# Slot ownership of the SPSC queue

The producer writes the slot of its local head once its load of the tail has
shown room, the consumer reads the slot of its local tail once its load of the
head has shown a message. Both loads may be outdated by then. The positions
are nevertheless less than a lap apart and different, so the slots differ.
-/

namespace Line64.SpscOwnership

open Result FixedMessageAccess Transition BoundedFifo SpscModel SpscFifo

variable {ι : Type} {N : ℕ}

/-- Slot of a producer that has passed its full check, up to its store of the
head. -/
def producerSlot (q : Ring) : Producer → Option ℕ
  | .running _ (.assign head _) => some (head%q.capacity)
  | .running _ (.storeHead head _) => some (head%q.capacity)
  | _ => none

/-- Slot of a consumer that has passed its empty check, up to the end of its
copy or its store of the tail. -/
def consumerSlot (q : Ring) : Consumer → Option ℕ
  | .running _ _ (.copy tail _) => some (tail%q.capacity)
  | .running _ _ (.storeTail tail _) => some (tail%q.capacity)
  | _ => none

section Owner

variable {q : Ring} {s : State ι N} {f : Fifo}

/-- The producer owns the slot of the head, and the head has room. -/
theorem producer_owns (h : Inv q s f) {slot : ℕ} (hslot : producerSlot q s.producer=some slot) :
    slot=s.head%q.capacity ∧ s.head<s.tail+q.capacity := by
  have hok := h.producer
  cases hp : s.producer with
  | idle =>
    rw [hp] at hslot
    cases hslot
  | running payload pc =>
    rw [hp] at hok hslot
    cases pc with
    | assign head pc =>
      cases hslot
      obtain ⟨-,rfl,hroom,-⟩ := hok
      exact ⟨rfl,hroom⟩
    | storeHead head result =>
      cases hslot
      obtain ⟨-,rfl,hroom,-⟩ := hok
      exact ⟨rfl,hroom⟩
    | _ => cases hslot

/-- The consumer owns the slot of the tail, and there is a message. -/
theorem consumer_owns (h : Inv q s f) {slot : ℕ} (hslot : consumerSlot q s.consumer=some slot) :
    slot=s.tail%q.capacity ∧ s.tail<s.head := by
  have hok := h.consumer
  have hhead := h.head_eq
  -- The front of the list keeps the tail behind the head.
  have hbehind : ∀ payload rest,f.queue=payload::rest → s.tail<s.head := by
    intro payload rest hqueue
    rw [hqueue,List.length_cons] at hhead
    omega
  cases hc : s.consumer with
  | idle =>
    rw [hc] at hslot
    cases hslot
  | running original destination pc =>
    rw [hc] at hok hslot
    cases pc with
    | copy tail pc =>
      cases hslot
      obtain ⟨rfl,payload,rest,hqueue,-⟩ := hok
      exact ⟨rfl,hbehind payload rest hqueue⟩
    | storeTail tail result =>
      cases hslot
      obtain ⟨rfl,payload,rest,hqueue,-⟩ := hok
      exact ⟨rfl,hbehind payload rest hqueue⟩
    | _ => cases hslot

end Owner

variable [DecidableEq ι]

/-- Producer and consumer are never in the same slot. -/
theorem slots_in_use_differ (q : Ring) {s : State ι N} (h : Reachable (system q ι N) s)
    {written read : ℕ} (hwritten : producerSlot q s.producer=some written)
    (hread : consumerSlot q s.consumer=some read) :
    written=s.head%q.capacity ∧ read=s.tail%q.capacity ∧ written≠read := by
  obtain ⟨f,hf⟩ := reachable_inv h
  obtain ⟨rfl,hroom⟩ := producer_owns hf hwritten
  obtain ⟨rfl,hmessage⟩ := consumer_owns hf hread
  refine ⟨rfl,rfl,?_⟩
  intro hsame
  have hequal := RingIndex.eq_of_index_eq hsame (by omega) (by omega)
  omega

/-- One message is queued; a second push is inside its slot while a pop is
inside the first one. -/
def bothInside : List (Action Unit) :=
  .callPush [1]::List.replicate 7 .push++.callPush [2]::List.replicate 3 .push++
  .callPop [0]::List.replicate 3 .pop

/-- The slots of a push and a pop that are both inside their messages. -/
theorem slots_in_use_differ_both :
    producerSlot (.ofSucc _ 1) (run (system (.ofSucc _ 1) Unit 1) bothInside).producer=some 1 ∧
    consumerSlot (.ofSucc _ 1) (run (system (.ofSucc _ 1) Unit 1) bothInside).consumer=some 0 ∧
    1=(run (system (.ofSucc _ 1) Unit 1) bothInside).head%2 ∧
    0=(run (system (.ofSucc _ 1) Unit 1) bothInside).tail%2 ∧ 1≠0 :=
  ⟨by decide +kernel,by decide +kernel,
    slots_in_use_differ (.ofSucc _ 1) (run_reachable (system (.ofSucc _ 1) Unit 1) bothInside)
      (by decide +kernel) (by decide +kernel)⟩

end Line64.SpscOwnership
