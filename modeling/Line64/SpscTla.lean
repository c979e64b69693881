import Mathlib.Data.List.Range
import Line64.RingIndex
import Line64.Transition

/-!
# The repository's TLA+ specification of the SPSC queue

Variables and actions of `SPSCQueue.tla`, kept action by action. The model
checker covers capacity two with four operations. Here the capacity and the
number of operations are arbitrary, and one inductive invariant yields every
invariant of the configuration for all behaviours.
-/

namespace Line64.SpscTla

open Function Transition

/-- Phases of the producer. -/
inductive ProducerPhase
  | idle
  | written
  deriving DecidableEq, Repr

/-- Phases of the consumer. -/
inductive ConsumerPhase
  | idle
  | copied
  deriving DecidableEq, Repr

/-- The variables of the specification; a slot holds the number of the
publication that wrote it. -/
structure State where
  /-- Slots by index; only indices below the capacity are used. -/
  slots : ℕ → ℕ
  /-- Publications. -/
  head : ℕ
  /-- Releases. -/
  tail : ℕ
  /-- Phase of the producer. -/
  producerPhase : ProducerPhase
  /-- Position of the producer, `none` for `NoPos`. -/
  producerPosition : Option ℕ
  /-- Phase of the consumer. -/
  consumerPhase : ConsumerPhase
  /-- Position of the consumer, `none` for `NoPos`. -/
  consumerPosition : Option ℕ
  /-- Value the consumer has copied. -/
  consumerValue : ℕ
  /-- Values that were consumed, oldest first. -/
  consumed : List ℕ

/-- The predicate `Init`, which determines the state. -/
def init : State where
  slots := fun _ => 0
  head := 0
  tail := 0
  producerPhase := .idle
  producerPosition := none
  consumerPhase := .idle
  consumerPosition := none
  consumerValue := 0
  consumed := []

/-- The action `ProducerWrite`. -/
def ProducerWrite (capacity totalOps : ℕ) (t t' : State) : Prop :=
  t.producerPhase=.idle ∧ t.head<totalOps ∧ t.head<t.tail+capacity ∧
  t'={t with
    slots := update t.slots (t.head%capacity) (t.head+1)
    producerPhase := .written
    producerPosition := some t.head}

/-- The action `ProducerPublish`. -/
def ProducerPublish (t t' : State) : Prop :=
  t.producerPhase=.written ∧ t.producerPosition=some t.head ∧
  t'={t with
    head := t.head+1
    producerPhase := .idle
    producerPosition := none}

/-- The action `ConsumerCopy`. -/
def ConsumerCopy (capacity : ℕ) (t t' : State) : Prop :=
  t.consumerPhase=.idle ∧ t.tail<t.head ∧
  t'={t with
    consumerPhase := .copied
    consumerPosition := some t.tail
    consumerValue := t.slots (t.tail%capacity)}

/-- The action `ConsumerRelease`. -/
def ConsumerRelease (t t' : State) : Prop :=
  t.consumerPhase=.copied ∧ t.consumerPosition=some t.tail ∧
  t'={t with
    consumed := t.consumed++[t.consumerValue]
    tail := t.tail+1
    consumerPhase := .idle
    consumerPosition := none
    consumerValue := 0}

/-- Names of the four actions. -/
inductive Action
  | producerWrite
  | producerPublish
  | consumerCopy
  | consumerRelease
  deriving DecidableEq, Repr

/-- The relation `Next`, split by the action that is taken. -/
def Next (capacity totalOps : ℕ) : Action → State → State → Prop
  | .producerWrite => ProducerWrite capacity totalOps
  | .producerPublish => ProducerPublish
  | .consumerCopy => ConsumerCopy capacity
  | .consumerRelease => ConsumerRelease

/-- The operator `ExpectedPrefix`. -/
def ExpectedPrefix (length : ℕ) : List ℕ := List.range' 1 length

/-- The invariants of the configuration. -/
structure Invariants (capacity totalOps : ℕ) (t : State) : Prop where
  /-- Slots of `TypeOK`. -/
  slots_type : ∀ index<capacity,t.slots index≤totalOps
  /-- Counters of `TypeOK`. -/
  counters_type : t.head≤totalOps ∧ t.tail≤totalOps
  /-- Positions of `TypeOK`. -/
  positions_type : (∀ position,t.producerPosition=some position → position≤totalOps) ∧
    ∀ position,t.consumerPosition=some position → position≤totalOps
  /-- Values of `TypeOK`. -/
  values_type : t.consumerValue≤totalOps ∧ ∀ value ∈ t.consumed,1≤value ∧ value≤totalOps
  /-- `CapacityInvariant`. -/
  capacity_invariant : t.tail≤t.head ∧ t.head≤t.tail+capacity
  /-- `ConsumedInOrder`. -/
  consumed_in_order : t.consumed=ExpectedPrefix t.tail
  /-- `CopyOwnsTail`. -/
  copy_owns_tail : t.consumerPhase=.copied →
    t.consumerPosition=some t.tail ∧ t.consumerValue=t.tail+1
  /-- `PublishedSlotsMatch`. -/
  published_slots_match : ∀ position,t.tail≤position → position<t.head →
    t.slots (position%capacity)=position+1

/-- The inductive invariant. -/
structure Inv (capacity totalOps : ℕ) (t : State) : Prop where
  /-- The invariants of the configuration. -/
  invariants : Invariants capacity totalOps t
  /-- A producer without a written slot has no position. -/
  producer_idle : t.producerPhase=.idle → t.producerPosition=none
  /-- A written slot is the next one to be published. -/
  producer_written : t.producerPhase=.written → t.producerPosition=some t.head ∧
    t.head<totalOps ∧ t.head<t.tail+capacity ∧ t.slots (t.head%capacity)=t.head+1
  /-- A consumer without a copy has no position. -/
  consumer_idle : t.consumerPhase=.idle → t.consumerPosition=none ∧ t.consumerValue=0
  /-- A copied message has been published. -/
  consumer_copied : t.consumerPhase=.copied → t.tail<t.head

/-- The invariant holds initially. -/
theorem inv_init (capacity totalOps : ℕ) : Inv capacity totalOps init where
  invariants :=
    { slots_type := fun _ _ => Nat.zero_le _
      counters_type := ⟨Nat.zero_le _,Nat.zero_le _⟩
      positions_type := ⟨fun _ h => (by cases h),fun _ h => (by cases h)⟩
      values_type := ⟨Nat.zero_le _,fun _ h => (by cases h)⟩
      capacity_invariant := ⟨Nat.le_refl _,Nat.zero_le _⟩
      consumed_in_order := rfl
      copy_owns_tail := fun h => (by cases h)
      published_slots_match := fun _ _ h => absurd h (Nat.not_lt_zero _) }
  producer_idle := fun _ => rfl
  producer_written := fun h => (by cases h)
  consumer_idle := fun _ => ⟨rfl,rfl⟩
  consumer_copied := fun h => (by cases h)

variable {capacity totalOps : ℕ} {t t' : State}

/-- The producer writes a slot no unread message is in. -/
theorem Inv.producerWrite (h : Inv capacity totalOps t)
    (hs : ProducerWrite capacity totalOps t t') : Inv capacity totalOps t' := by
  obtain ⟨hidle,hops,hroom,rfl⟩ := hs
  have hi := h.invariants
  have hother : ∀ position,t.tail≤position → position<t.head →
      update t.slots (t.head%capacity) (t.head+1) (position%capacity)=position+1 := by
    intro position hle hlt
    have hne : position%capacity≠t.head%capacity := by
      intro he
      have := RingIndex.eq_of_index_eq he (by omega) (by omega)
      omega
    rw [update_of_ne hne]
    exact hi.published_slots_match position hle hlt
  refine ⟨{hi with
    slots_type := ?_
    positions_type := ⟨?_,hi.positions_type.2⟩
    published_slots_match := hother },?_,?_,h.consumer_idle,h.consumer_copied⟩
  · intro index hindex
    by_cases he : index=t.head%capacity
    · subst he
      simp only [update_self]
      omega
    · simp only [update_of_ne he]
      exact hi.slots_type index hindex
  · rintro position ⟨⟩
    omega
  · intro hphase
    cases hphase
  · intro _
    exact ⟨rfl,hops,hroom,update_self _ _ _⟩

/-- The producer publishes the slot it has written. -/
theorem Inv.producerPublish (h : Inv capacity totalOps t) (hs : ProducerPublish t t') :
    Inv capacity totalOps t' := by
  obtain ⟨hwritten,-,rfl⟩ := hs
  obtain ⟨-,hops,hroom,hslot⟩ := h.producer_written hwritten
  have hi := h.invariants
  have hcap := hi.capacity_invariant
  refine ⟨{hi with
    counters_type := ⟨hops,hi.counters_type.2⟩
    positions_type := ⟨fun _ he => (by cases he),hi.positions_type.2⟩
    capacity_invariant := ⟨Nat.le_succ_of_le hcap.1,hroom⟩
    published_slots_match := ?_ },fun _ => rfl,?_,h.consumer_idle,?_⟩
  · intro position hle hlt
    rcases Nat.lt_succ_iff_lt_or_eq.mp hlt with hold | rfl
    · exact hi.published_slots_match position hle hold
    · exact hslot
  · intro hphase
    cases hphase
  · intro hcopied
    exact Nat.lt_succ_of_lt (h.consumer_copied hcopied)

/-- The consumer copies the oldest unread message. -/
theorem Inv.consumerCopy (h : Inv capacity totalOps t) (hs : ConsumerCopy capacity t t') :
    Inv capacity totalOps t' := by
  obtain ⟨-,hlt,rfl⟩ := hs
  have hi := h.invariants
  have hvalue := hi.published_slots_match t.tail (Nat.le_refl _) hlt
  have hhead := hi.counters_type.1
  refine ⟨{hi with
    positions_type := ⟨hi.positions_type.1,?_⟩
    values_type := ⟨?_,hi.values_type.2⟩
    copy_owns_tail := fun _ => ⟨rfl,hvalue⟩ },h.producer_idle,h.producer_written,?_,fun _ => hlt⟩
  · rintro position ⟨⟩
    exact hi.counters_type.2
  · show t.slots (t.tail%capacity)≤totalOps
    omega
  · intro hphase
    cases hphase

/-- The consumer releases the message it has copied. -/
theorem Inv.consumerRelease (h : Inv capacity totalOps t) (hs : ConsumerRelease t t') :
    Inv capacity totalOps t' := by
  obtain ⟨hcopied,-,rfl⟩ := hs
  have hi := h.invariants
  have hlt := h.consumer_copied hcopied
  have hvalue := (hi.copy_owns_tail hcopied).2
  have hhead := hi.counters_type.1
  have hcap := hi.capacity_invariant
  refine ⟨{hi with
    counters_type := ⟨hhead,Nat.le_trans hlt hhead⟩
    positions_type := ⟨hi.positions_type.1,fun _ he => (by cases he)⟩
    values_type := ⟨Nat.zero_le _,?_⟩
    capacity_invariant := ⟨hlt,?_⟩
    consumed_in_order := ?_
    copy_owns_tail := fun he => (by cases he)
    published_slots_match := fun position hle hlt' =>
      hi.published_slots_match position (Nat.le_of_succ_le hle) hlt' },
    h.producer_idle,?_,fun _ => ⟨rfl,rfl⟩,fun he => (by cases he)⟩
  · intro value hmem
    rcases List.mem_append.mp hmem with hold | hnew
    · exact hi.values_type.2 value hold
    · rw [List.mem_singleton] at hnew
      omega
  · show t.head≤t.tail+1+capacity
    omega
  · show t.consumed++[t.consumerValue]=ExpectedPrefix (t.tail+1)
    rw [hi.consumed_in_order,hvalue,ExpectedPrefix,ExpectedPrefix,List.range'_concat,Nat.one_mul,
      Nat.add_comm 1 t.tail]
  · intro hwritten
    obtain ⟨hposition,hops,hroom,hslot⟩ := h.producer_written hwritten
    exact ⟨hposition,hops,by show t.head<t.tail+1+capacity; omega,hslot⟩

/-- Every action keeps the invariant. -/
theorem Inv.next (h : Inv capacity totalOps t) {l : Action} (hs : Next capacity totalOps l t t') :
    Inv capacity totalOps t' := by
  cases l with
  | producerWrite => exact h.producerWrite hs
  | producerPublish => exact h.producerPublish hs
  | consumerCopy => exact h.consumerCopy hs
  | consumerRelease => exact h.consumerRelease hs

/-- The invariants of the configuration hold along every behaviour, for all
capacities and numbers of operations. -/
theorem behaviour_invariants (h : Behaviour init (Next capacity totalOps) t) :
    Invariants capacity totalOps t :=
  (h.invariant (inv_init capacity totalOps) fun _ _ _ hi hs => hi.next hs).invariants

/-- The invariants behind one message through a single slot. -/
theorem behaviour_invariants_message : ∃ t,t.consumed=[1] ∧ Invariants 1 1 t := by
  have hwrite : Next 1 1 .producerWrite init _ := ⟨rfl,Nat.zero_lt_one,Nat.zero_lt_one,rfl⟩
  have hwritten := Behaviour.init.step hwrite
  have hpublished := hwritten.step (l:=Action.producerPublish) ⟨rfl,rfl,rfl⟩
  have hcopied := hpublished.step (l:=Action.consumerCopy) ⟨rfl,Nat.zero_lt_one,rfl⟩
  have hreleased := hcopied.step (l:=Action.consumerRelease) ⟨rfl,rfl,rfl⟩
  exact ⟨_,rfl,behaviour_invariants hreleased⟩

end Line64.SpscTla
