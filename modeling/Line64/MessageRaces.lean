import Line64.FixedMessageAccess
import Line64.ReleaseAcquire

/-!
# Plain accesses of message slots

The members of a message are ordinary memory. Every access of `assign` and
`copy_to` reads or writes one of them and is recorded for its thread, so that
a queue can be asked whether an access races with an earlier one.
-/

namespace Line64.MessageRaces

open Function FixedMessageAccess ReleaseAcquire

/-- The plain members of a message. -/
inductive Field
  /-- The byte `storage_[index]`. -/
  | byte (index : ℕ)
  /-- The member `size_`. -/
  | size
  /-- The member `sequence_`. -/
  | sequence
  deriving DecidableEq, Repr

/-- Member and kind of an access of `assign`. -/
def assignAccess : AssignPc → Field × Access
  | .copy index => (.byte index,.write)
  | .storeSize => (.size,.write)
  | .storeSequence => (.sequence,.write)
  | .loadSequence => (.sequence,.read)

/-- Member and kind of an access of `copy_to`. -/
def copyAccess : CopyPc → Field × Access
  | .loadSize => (.size,.read)
  | .loadRejected => (.sequence,.read)
  | .loadCount => (.size,.read)
  | .copy _ index => (.byte index,.read)
  | .loadBytesRead => (.size,.read)
  | .loadSequence _ => (.sequence,.read)

/-- Recorded accesses by slot and member. -/
abbrev Footprints (τ : Type) := ℕ → Field → Footprint τ

variable {τ α : Type}

/-- The accesses of one thread to a slot are part of a view. -/
def SlotKnown (p : Footprints τ) (index : ℕ) (u : τ) (v : View τ α) : Prop :=
  ∀ field,(p index field).KnownOf u v

/-- What is known stays known. -/
theorem SlotKnown.mono {p : Footprints τ} {index : ℕ} {u : τ} {v w : View τ α}
    (h : SlotKnown p index u v) (hle : v≤w) : SlotKnown p index u w :=
  fun field => (h field).mono hle

/-- A slot whose accesses are all known is accessed without a race. -/
theorem SlotKnown.not_races {p : Footprints τ} {index : ℕ} {v : View τ α}
    (h : ∀ u,SlotKnown p index u v) (access : Field × Access) :
    ¬Races v (p index access.1) access.2 :=
  Footprint.not_races (fun u => h u access.1) access.2

variable [DecidableEq τ]

/-- An access of a slot is recorded. -/
def Footprints.record (p : Footprints τ) (index : ℕ) (access : Field × Access) (t : τ)
    (clock : ℕ) : Footprints τ :=
  update p index (update (p index) access.1 ((p index access.1).record t clock access.2))

/-- Accesses of another slot do not matter. -/
theorem SlotKnown.record_slot {p : Footprints τ} {index other : ℕ} {u : τ} {v : View τ α}
    (h : SlotKnown p other u v) (hne : other≠index) (access : Field × Access) (t : τ)
    (clock : ℕ) : SlotKnown (p.record index access t clock) other u v := by
  intro field
  rw [Footprints.record,update_of_ne hne]
  exact h field

/-- Accesses of another thread do not matter. -/
theorem SlotKnown.record_thread {p : Footprints τ} {index other : ℕ} {t u : τ} {v : View τ α}
    (h : SlotKnown p other u v) (hne : u≠t) (access : Field × Access) (clock : ℕ) :
    SlotKnown (p.record index access t clock) other u v := by
  intro field
  by_cases ho : other=index
  · subst ho
    rw [Footprints.record,update_self]
    by_cases hf : field=access.1
    · subst hf
      rw [update_self]
      exact (h access.1).record_of_ne hne clock access.2
    · rw [update_of_ne hf]
      exact h field
  · exact h.record_slot ho access t clock field

/-- A thread knows its own accesses. -/
theorem SlotKnown.record_self {p : Footprints τ} {other : ℕ} {t : τ} {l : Local τ α}
    (h : SlotKnown p other t l.current) (index : ℕ) (access : Field × Access) :
    SlotKnown (p.record index access t ((l.tick t).current.clock t)) other t
      (l.tick t).current := by
  intro field
  by_cases ho : other=index
  · subst ho
    rw [Footprints.record,update_self]
    by_cases hf : field=access.1
    · subst hf
      rw [update_self]
      exact (h access.1).record_self access.2
    · rw [update_of_ne hf]
      exact (h field).mono (l.le_tick t)
  · exact (h.mono (l.le_tick t)).record_slot ho access t _ field

end Line64.MessageRaces
