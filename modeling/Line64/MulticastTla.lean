import Mathlib.Data.Set.Insert
import Mathlib.Order.Interval.Set.Defs
import Line64.RingIndex
import Line64.Transition

/-!
# The repository's TLA+ specification of the multicast queue

Variables and actions of `SPMCMulticastQueue.tla`, kept action by action. The
model checker covers capacity two, two consumers and four publications. Here
all three are arbitrary, and one inductive invariant yields every invariant of
the configuration for all behaviours.
-/

namespace Line64.MulticastTla

open Function Transition

/-- The operator `Oldest`. -/
def Oldest (capacity sequence : ℕ) : ℕ := if capacity ≤ sequence then sequence-capacity+1 else 1

/-- The operator `Retained`. -/
def Retained (capacity sequence : ℕ) : Set ℕ :=
  if sequence=0 then ∅ else Set.Icc (Oldest capacity sequence) sequence

/-- The operator `StrictlyIncreasing`. -/
def StrictlyIncreasing (sequence : List ℕ) : Prop := sequence.Pairwise (·<·)

/-- The variables of the specification; a slot holds the sequence of the
publication that wrote it. -/
structure State (κ : Type) where
  /-- Registered consumers. -/
  active : Set κ
  /-- Publications. -/
  published : ℕ
  /-- Slots by index; only indices below the capacity are used. -/
  slots : ℕ → ℕ
  /-- Cursors, zero before the registration. -/
  nextSequence : κ → ℕ
  /-- First cursors, zero before the registration. -/
  registeredAt : κ → ℕ
  /-- Sequences read by every consumer, oldest first. -/
  reads : κ → List ℕ
  /-- Reported lags of every consumer. -/
  lagEvents : κ → ℕ

variable {κ : Type}

/-- The predicate `Init`, which determines the state. -/
def init : State κ where
  active := ∅
  published := 0
  slots := fun _ => 0
  nextSequence := fun _ => 0
  registeredAt := fun _ => 0
  reads := fun _ => []
  lagEvents := fun _ => 0

/-- The action `Publish`. -/
def Publish (capacity totalPublications : ℕ) (t t' : State κ) : Prop :=
  t.published<totalPublications ∧
  t'={t with
    slots := update t.slots ((t.published+1-1)%capacity) (t.published+1)
    published := t.published+1}

section Actions

variable [DecidableEq κ]

/-- The action `Register`. -/
def Register (consumer : κ) (t t' : State κ) : Prop :=
  consumer ∉ t.active ∧
  t'={t with
    active := insert consumer t.active
    nextSequence := update t.nextSequence consumer (t.published+1)
    registeredAt := update t.registeredAt consumer (t.published+1)}

/-- The action `ReportLag`. -/
def ReportLag (capacity : ℕ) (consumer : κ) (t t' : State κ) : Prop :=
  consumer ∈ t.active ∧ t.nextSequence consumer≤t.published ∧
  t.nextSequence consumer<Oldest capacity t.published ∧
  t'={t with
    nextSequence := update t.nextSequence consumer (Oldest capacity t.published)
    lagEvents := update t.lagEvents consumer (t.lagEvents consumer+1)}

/-- The action `Read`. -/
def Read (capacity : ℕ) (consumer : κ) (t t' : State κ) : Prop :=
  consumer ∈ t.active ∧ t.nextSequence consumer≤t.published ∧
  Oldest capacity t.published≤t.nextSequence consumer ∧
  t.slots ((t.nextSequence consumer-1)%capacity)=t.nextSequence consumer ∧
  t'={t with
    reads := update t.reads consumer (t.reads consumer++[t.nextSequence consumer])
    nextSequence := update t.nextSequence consumer (t.nextSequence consumer+1)}

/-- Names of the action instances. -/
inductive Action (κ : Type)
  | register (consumer : κ)
  | publish
  | reportLag (consumer : κ)
  | read (consumer : κ)
  deriving DecidableEq, Repr

/-- The relation `Next`, split by the action that is taken. -/
def Next (capacity totalPublications : ℕ) : Action κ → State κ → State κ → Prop
  | .register consumer => Register consumer
  | .publish => Publish capacity totalPublications
  | .reportLag consumer => ReportLag capacity consumer
  | .read consumer => Read capacity consumer

end Actions

/-- The invariants of the configuration. -/
structure Invariants (capacity totalPublications : ℕ) (t : State κ) : Prop where
  /-- Counter of `TypeOK`. -/
  published_type : t.published≤totalPublications
  /-- Slots of `TypeOK`. -/
  slots_type : ∀ index<capacity,t.slots index≤totalPublications
  /-- Cursors of `TypeOK`. -/
  cursors_type : ∀ consumer,t.nextSequence consumer≤totalPublications+1 ∧
    t.registeredAt consumer≤totalPublications+1
  /-- Sequences of `TypeOK`. -/
  reads_type : ∀ consumer,∀ sequence ∈ t.reads consumer,1 ≤ sequence ∧ sequence≤totalPublications
  /-- `RegistrationInvariant` for registered consumers. -/
  registered : ∀ consumer ∈ t.active,1≤t.registeredAt consumer ∧
    t.registeredAt consumer≤t.nextSequence consumer ∧ t.nextSequence consumer≤t.published+1
  /-- `RegistrationInvariant` for the others. -/
  unregistered : ∀ consumer,consumer ∉ t.active → t.registeredAt consumer=0 ∧
    t.nextSequence consumer=0 ∧ t.reads consumer=[]
  /-- `ReadsAreOrdered`. -/
  reads_are_ordered : ∀ consumer,StrictlyIncreasing (t.reads consumer)
  /-- `ReadsRespectRegistration`. -/
  reads_respect_registration : ∀ consumer ∈ t.active,∀ sequence ∈ t.reads consumer,
    t.registeredAt consumer ≤ sequence ∧ sequence≤t.published
  /-- `RetainedSlotsMatch`. -/
  retained_slots_match : ∀ sequence ∈ Retained capacity t.published,
    t.slots ((sequence-1)%capacity)=sequence

/-- The inductive invariant. -/
structure Inv (capacity totalPublications : ℕ) (t : State κ) : Prop where
  /-- The invariants of the configuration. -/
  invariants : Invariants capacity totalPublications t
  /-- What was read is behind the cursor. -/
  behind : ∀ consumer,∀ sequence ∈ t.reads consumer,sequence<t.nextSequence consumer

/-- The window of the last publications. -/
theorem mem_retained {capacity published sequence : ℕ} :
    sequence ∈ Retained capacity published ↔
      1 ≤ sequence ∧ sequence≤published ∧ published<sequence+capacity := by
  unfold Retained Oldest
  split
  · constructor
    · intro hmem
      cases hmem
    · omega
  · rw [Set.mem_Icc]
    split <;> omega

/-- The oldest retained sequence is one of the next publications at most. -/
theorem oldest_le (capacity sequence : ℕ) :
    Oldest capacity sequence ≤ sequence+1 := by
  unfold Oldest
  split <;> omega

/-- The invariant holds initially. -/
theorem inv_init (capacity totalPublications : ℕ) :
    Inv capacity totalPublications (init : State κ) where
  invariants :=
    { published_type := Nat.zero_le _
      slots_type := fun _ _ => Nat.zero_le _
      cursors_type := fun _ => ⟨Nat.zero_le _,Nat.zero_le _⟩
      reads_type := fun _ _ hmem => absurd hmem List.not_mem_nil
      registered := fun _ hmem => absurd hmem (Set.notMem_empty _)
      unregistered := fun _ _ => ⟨rfl,rfl,rfl⟩
      reads_are_ordered := fun _ => .nil
      reads_respect_registration := fun _ hmem => absurd hmem (Set.notMem_empty _)
      retained_slots_match := fun _ hmem => absurd hmem (Set.notMem_empty _) }
  behind := fun _ _ hmem => absurd hmem List.not_mem_nil

variable {capacity totalPublications : ℕ} {t t' : State κ}

/-- A publication overwrites the slot that leaves the window. -/
theorem Inv.publish (h : Inv capacity totalPublications t)
    (hs : Publish capacity totalPublications t t') : Inv capacity totalPublications t' := by
  obtain ⟨hroom,rfl⟩ := hs
  have hi := h.invariants
  refine ⟨{hi with
    published_type := hroom
    slots_type := ?_
    registered := ?_
    reads_respect_registration := ?_
    retained_slots_match := ?_ },h.behind⟩
  · intro index hindex
    by_cases he : index=(t.published+1-1)%capacity
    · subst he
      simp only [update_self]
      omega
    · simp only [update_of_ne he]
      exact hi.slots_type index hindex
  · intro consumer hactive
    obtain ⟨hpos,hle,hnext⟩ := hi.registered consumer hactive
    exact ⟨hpos,hle,Nat.le_succ_of_le hnext⟩
  · intro consumer hactive sequence hmem
    obtain ⟨hfirst,hlast⟩ := hi.reads_respect_registration consumer hactive sequence hmem
    exact ⟨hfirst,Nat.le_succ_of_le hlast⟩
  · intro sequence hmem
    obtain ⟨hpos,hle,hwindow⟩ := mem_retained.mp hmem
    dsimp only at hle hwindow ⊢
    rcases Nat.lt_succ_iff_lt_or_eq.mp (Nat.lt_succ_of_le hle) with hold | rfl
    · have hne : (sequence-1)%capacity≠(t.published+1-1)%capacity := by
        intro he
        have := RingIndex.eq_of_index_eq he (by omega) (by omega)
        omega
      rw [update_of_ne hne]
      exact hi.retained_slots_match sequence (mem_retained.mpr ⟨hpos,by omega,by omega⟩)
    · exact update_self _ _ _

variable [DecidableEq κ]

/-- A new consumer starts behind the last publication. -/
theorem Inv.register (h : Inv capacity totalPublications t) {consumer : κ}
    (hs : Register consumer t t') : Inv capacity totalPublications t' := by
  obtain ⟨hnew,rfl⟩ := hs
  have hi := h.invariants
  obtain ⟨-,-,hunread⟩ := hi.unregistered consumer hnew
  have htype := hi.published_type
  refine ⟨{hi with
    cursors_type := ?_
    registered := ?_
    unregistered := ?_
    reads_respect_registration := ?_ },?_⟩
  · intro other
    by_cases he : other=consumer
    · subst he
      simp only [update_self]
      omega
    · simp only [update_of_ne he]
      exact hi.cursors_type other
  · intro other hmem
    by_cases he : other=consumer
    · subst he
      simp only [update_self]
      omega
    · simp only [update_of_ne he]
      exact hi.registered other (Set.mem_of_mem_insert_of_ne hmem he)
  · intro other hmem
    have he : other≠consumer := fun he => hmem (he ▸ Set.mem_insert _ _)
    simp only [update_of_ne he]
    exact hi.unregistered other fun hold => hmem (Set.mem_insert_of_mem _ hold)
  · intro other hmem sequence hread
    by_cases he : other=consumer
    · subst he
      rw [hunread] at hread
      exact absurd hread List.not_mem_nil
    · simp only [update_of_ne he]
      exact hi.reads_respect_registration other (Set.mem_of_mem_insert_of_ne hmem he) sequence hread
  · intro other sequence hread
    by_cases he : other=consumer
    · subst he
      rw [hunread] at hread
      exact absurd hread List.not_mem_nil
    · simp only [update_of_ne he]
      exact h.behind other sequence hread

/-- A reported lag moves the cursor to the window. -/
theorem Inv.reportLag (h : Inv capacity totalPublications t) {consumer : κ}
    (hs : ReportLag capacity consumer t t') : Inv capacity totalPublications t' := by
  obtain ⟨hactive,hnext,hlag,rfl⟩ := hs
  have hi := h.invariants
  have hold := oldest_le capacity t.published
  have htype := hi.published_type
  refine ⟨{hi with
    cursors_type := ?_
    registered := ?_
    unregistered := ?_ },?_⟩
  · intro other
    obtain ⟨hcursor,hfirst⟩ := hi.cursors_type other
    refine ⟨?_,hfirst⟩
    by_cases he : other=consumer
    · subst he
      simp only [update_self]
      omega
    · simp only [update_of_ne he]
      exact hcursor
  · intro other hmem
    obtain ⟨hpos,hle,hbound⟩ := hi.registered other hmem
    by_cases he : other=consumer
    · subst he
      simp only [update_self]
      omega
    · simp only [update_of_ne he]
      exact ⟨hpos,hle,hbound⟩
  · intro other hmem
    have he : other≠consumer := fun he => hmem (he ▸ hactive)
    simp only [update_of_ne he]
    exact hi.unregistered other hmem
  · intro other sequence hread
    have hlt := h.behind other sequence hread
    by_cases he : other=consumer
    · subst he
      simp only [update_self]
      omega
    · simp only [update_of_ne he]
      exact hlt

/-- A read delivers the cursor and moves it on. -/
theorem Inv.read (h : Inv capacity totalPublications t) {consumer : κ}
    (hs : Read capacity consumer t t') : Inv capacity totalPublications t' := by
  obtain ⟨hactive,hnext,-,-,rfl⟩ := hs
  have hi := h.invariants
  have htype := hi.published_type
  obtain ⟨hpos,hle,hbound⟩ := hi.registered consumer hactive
  have hmem_read : ∀ sequence ∈ t.reads consumer++[t.nextSequence consumer],
      sequence ∈ t.reads consumer ∨ sequence=t.nextSequence consumer := by
    intro sequence hmem
    rw [List.mem_append,List.mem_singleton] at hmem
    exact hmem
  refine ⟨{hi with
    cursors_type := ?_
    reads_type := ?_
    registered := ?_
    unregistered := ?_
    reads_are_ordered := ?_
    reads_respect_registration := ?_ },?_⟩
  · intro other
    obtain ⟨hcursor,hfirst⟩ := hi.cursors_type other
    refine ⟨?_,hfirst⟩
    by_cases he : other=consumer
    · subst he
      simp only [update_self]
      omega
    · simp only [update_of_ne he]
      exact hcursor
  · intro other sequence hread
    by_cases he : other=consumer
    · subst he
      simp only [update_self] at hread
      rcases hmem_read sequence hread with hold | rfl
      · exact hi.reads_type other sequence hold
      · omega
    · simp only [update_of_ne he] at hread
      exact hi.reads_type other sequence hread
  · intro other hmem
    by_cases he : other=consumer
    · subst he
      simp only [update_self]
      omega
    · simp only [update_of_ne he]
      exact hi.registered other hmem
  · intro other hmem
    have he : other≠consumer := fun he => hmem (he ▸ hactive)
    simp only [update_of_ne he]
    exact hi.unregistered other hmem
  · intro other
    by_cases he : other=consumer
    · subst he
      simp only [update_self]
      refine List.pairwise_append.mpr ⟨hi.reads_are_ordered other,List.pairwise_singleton _ _,?_⟩
      intro earlier hold last hlast
      rw [List.mem_singleton] at hlast
      rw [hlast]
      exact h.behind other earlier hold
    · simp only [update_of_ne he]
      exact hi.reads_are_ordered other
  · intro other hmem sequence hread
    by_cases he : other=consumer
    · subst he
      simp only [update_self] at hread
      rcases hmem_read sequence hread with hold | rfl
      · exact hi.reads_respect_registration other hmem sequence hold
      · exact ⟨hle,hnext⟩
    · simp only [update_of_ne he] at hread
      exact hi.reads_respect_registration other hmem sequence hread
  · intro other sequence hread
    by_cases he : other=consumer
    · subst he
      simp only [update_self] at hread ⊢
      rcases hmem_read sequence hread with hold | rfl
      · exact Nat.lt_succ_of_lt (h.behind other sequence hold)
      · exact Nat.lt_succ_self _
    · simp only [update_of_ne he] at hread ⊢
      exact h.behind other sequence hread

/-- Every action keeps the invariant. -/
theorem Inv.next (h : Inv capacity totalPublications t) {l : Action κ}
    (hs : Next capacity totalPublications l t t') : Inv capacity totalPublications t' := by
  cases l with
  | register consumer => exact h.register hs
  | publish => exact h.publish hs
  | reportLag consumer => exact h.reportLag hs
  | read consumer => exact h.read hs

/-- The invariants of the configuration hold along every behaviour, for all
capacities, all sets of consumers and all numbers of publications. -/
theorem multicast_behaviour_invariants
    (h : Behaviour init (Next capacity totalPublications) t) :
    Invariants capacity totalPublications t :=
  (h.invariant (inv_init capacity totalPublications) fun _ _ _ hi hs =>
    hi.next hs).invariants

/-- The invariants behind a lag and a read of the second publication. -/
theorem multicast_behaviour_invariants_lag :
    ∃ t : State Unit,t.reads ()=[2] ∧ t.lagEvents ()=1 ∧ Invariants 1 2 t := by
  have hregister : Next 1 2 (.register ()) init _ := ⟨Set.notMem_empty (),rfl⟩
  have hregistered := Behaviour.init.step hregister
  have hfirst := hregistered.step (l:=Action.publish) ⟨Nat.zero_lt_two,rfl⟩
  have hsecond := hfirst.step (l:=Action.publish) ⟨Nat.one_lt_two,rfl⟩
  have hlag := hsecond.step (l:=Action.reportLag ())
    ⟨Set.mem_insert _ _,Nat.one_lt_two.le,Nat.one_lt_two,rfl⟩
  have hread := hlag.step (l:=Action.read ())
    ⟨Set.mem_insert _ _,Nat.le_refl _,Nat.le_refl _,rfl,rfl⟩
  exact ⟨_,rfl,rfl,multicast_behaviour_invariants hread⟩

end Line64.MulticastTla
