import Line64.MessageRaces

/-!
# Handing a slot over by release stores

A slot is guarded by an atomic number whose stores ascend. Whoever holds the
slot knows all accesses made to it and the last store of the number. A
release store of a larger number gives the slot back, and a thread that has
acquired the last store may take it. The rules say what the accesses of the
holder and of the other threads do to this.
-/

namespace Line64.SlotCustody

open Function ReleaseAcquire MessageRaces

variable {τ α : Type}

/-- Who knows all accesses of a slot: its holder or, while there is none,
whoever acquires the last store of its number. -/
def Covered (views : τ → Local τ α) (p : Footprints τ) (a : α) (index ts : ℕ)
    (m : Message τ α ℕ) : Option τ → Prop
  | none => ∀ u,SlotKnown p index u m.view
  | some t => (views t).current.seen a=ts ∧ ∀ u,SlotKnown p index u (views t).current

/-- State of a slot with its number and its holder. -/
structure Custody (h : History τ α ℕ) (views : τ → Local τ α) (p : Footprints τ) (a : α)
    (index value : ℕ) (holder : Option τ) : Prop where
  /-- The stores of the number ascend. -/
  ascending : ∀ ts ts' m m',ts<ts' → h a ts=some m → h a ts'=some m' → m.value < m'.value
  /-- The last store of the number, and who knows all accesses. -/
  latest : ∃ ts m,Latest h a ts m ∧ m.value=value ∧ Covered views p a index ts m holder

/-- A slot nobody has accessed. -/
theorem Custody.initial (number : α → ℕ) (a : α) (index : ℕ) :
    Custody (History.initial τ number) (fun _ => Local.initial τ α) (fun _ _ => .initial τ) a index
      (number a) none where
  ascending := by
    intro ts ts' m m' hlt _ hm'
    cases ts' with
    | zero => exact absurd hlt (Nat.not_lt_zero ts)
    | succ k => cases hm'
  latest := ⟨0,_,Latest.initial τ number a,rfl,fun _ _ => ⟨le_refl 0,le_refl 0⟩⟩

section Rules

variable {h : History τ α ℕ} {views : τ → Local τ α} {p : Footprints τ} {a : α}
  {index value : ℕ} {holder : Option τ}

/-- No stored number is larger than the last one. -/
theorem Custody.value_le (hc : Custody h views p a index value holder) {ts : ℕ}
    {m : Message τ α ℕ} (hm : h a ts=some m) : m.value≤value := by
  obtain ⟨last,ml,hl,rfl,-⟩ := hc.latest
  rcases Nat.lt_or_eq_of_le (hl.last ts m hm) with hlt | rfl
  · exact (hc.ascending ts last m ml hlt hm hl.message).le
  · rw [hl.message] at hm
    cases hm
    exact le_refl _

/-- The last number is stored once. -/
theorem Custody.eq_latest (hc : Custody h views p a index value holder) {ts last : ℕ}
    {m ml : Message τ α ℕ} (hm : h a ts=some m) (hl : Latest h a last ml)
    (hvalue : m.value=ml.value) : ts=last := by
  by_contra hne
  have hlt := lt_of_le_of_ne (hl.last ts m hm) hne
  exact absurd hvalue (hc.ascending ts last m ml hlt hm hl.message).ne

/-- The holder does not race. -/
theorem Custody.not_races {t : τ} (hc : Custody h views p a index value (some t))
    (access : Field × Access) : ¬Races (views t).current (p index access.1) access.2 := by
  obtain ⟨ts,m,-,-,-,hknown⟩ := hc.latest
  exact SlotKnown.not_races hknown access

/-- Stores to other locations do not matter. -/
theorem Custody.of_history_eq {h' : History τ α ℕ}
    (hc : Custody h views p a index value holder) (he : h' a=h a) :
    Custody h' views p a index value holder := by
  obtain ⟨ts,m,hl,hvalue,hcov⟩ := hc.latest
  refine ⟨?_,ts,m,⟨?_,?_⟩,hvalue,hcov⟩
  · rw [he]
    exact hc.ascending
  · rw [he]
    exact hl.message
  · rw [he]
    exact hl.last

variable [DecidableEq τ]

/-- A thread learns more. -/
theorem Custody.setView (hc : Custody h views p a index value holder) {t : τ} {l : Local τ α}
    (hle : (views t).current ≤ l.current) (hw : l.current.Within h) :
    Custody h (update views t l) p a index value holder := by
  obtain ⟨ts,m,hl,hvalue,hcov⟩ := hc.latest
  refine ⟨hc.ascending,ts,m,hl,hvalue,?_⟩
  cases holder with
  | none => exact hcov
  | some u =>
    by_cases hu : u=t
    · subst hu
      rw [Covered,update_self]
      refine ⟨?_,fun w => (hcov.2 w).mono hle⟩
      refine le_antisymm (hl.seen_le hw) ?_
      rw [← hcov.1]
      exact View.seen_le hle a
    · rw [Covered,update_of_ne hu]
      exact hcov

/-- The holder accesses the slot. -/
theorem Custody.touch {t : τ} (hc : Custody h views p a index value (some t))
    (access : Field × Access) :
    Custody h (update views t ((views t).tick t))
      (p.record index access t (((views t).tick t).current.clock t)) a index value (some t) := by
  obtain ⟨ts,m,hl,hvalue,hseen,hknown⟩ := hc.latest
  refine ⟨hc.ascending,ts,m,hl,hvalue,?_⟩
  rw [Covered,update_self]
  refine ⟨hseen,?_⟩
  intro u
  by_cases hu : u=t
  · subst hu
    exact (hknown u).record_self index access
  · exact ((hknown u).mono ((views t).le_tick t)).record_thread hu access _

/-- Another slot is accessed. -/
theorem Custody.touch_of_ne (hc : Custody h views p a index value holder) {other : ℕ}
    (hne : index≠other) (t : τ) (access : Field × Access) :
    Custody h (update views t ((views t).tick t))
      (p.record other access t (((views t).tick t).current.clock t)) a index value holder := by
  obtain ⟨ts,m,hl,hvalue,hcov⟩ := hc.latest
  refine ⟨hc.ascending,ts,m,hl,hvalue,?_⟩
  cases holder with
  | none => exact fun u => (hcov u).record_slot hne access t _
  | some w =>
    by_cases hw : w=t
    · subst hw
      rw [Covered,update_self]
      exact ⟨hcov.1,fun u => ((hcov.2 u).mono ((views w).le_tick w)).record_slot hne access w _⟩
    · rw [Covered,update_of_ne hw]
      exact ⟨hcov.1,fun u => (hcov.2 u).record_slot hne access t _⟩

omit [DecidableEq τ] in
/-- A free slot is taken by a thread that has acquired the last number. -/
theorem Custody.take (hc : Custody h views p a index value none) {t : τ}
    (hw : (views t).current.Within h) (hacq : Acquired h (views t) a value) :
    Custody h views p a index value (some t) := by
  obtain ⟨last,ml,hl,hvalue,hknown⟩ := hc.latest
  obtain ⟨ts,m,hm,hm',hseen,hview⟩ := hacq
  have he : ts=last := hc.eq_latest hm hl (hm'.trans hvalue.symm)
  subst he
  rw [hl.message] at hm
  cases hm
  exact ⟨hc.ascending,ts,ml,hl,hvalue,le_antisymm (hl.seen_le hw) hseen,
    fun u => (hknown u).mono hview⟩

/-- The holder gives the slot back with a release store of a larger number. -/
theorem Custody.release [DecidableEq α] {t : τ} (hc : Custody h views p a index value (some t))
    {ts value' : ℕ} {h' : History τ α ℕ} {l : Local τ α}
    (hs : store h (views t) .release a ts value'=some (h',l)) (hlt : value<value') :
    Custody h' (update views t l) p a index value' none := by
  obtain ⟨last,ml,hl,hvalue,hseen,hknown⟩ := hc.latest
  obtain ⟨hts,hfree,rfl,rfl⟩ := store_eq_some hs
  rw [hseen] at hts
  refine ⟨?_,ts,_,hl.add hts _,rfl,?_⟩
  · intro t₁ t₂ m₁ m₂ hlt₁₂ hm₁ hm₂
    rcases History.add_eq_some hm₁ with ⟨-,rfl,rfl⟩ | hold₁
    · rcases History.add_eq_some hm₂ with ⟨-,rfl,-⟩ | hold₂
      · exact absurd hlt₁₂ (lt_irrefl _)
      · exact absurd (hl.last t₂ m₂ hold₂) (Nat.not_le.mpr (hts.trans hlt₁₂))
    · rcases History.add_eq_some hm₂ with ⟨-,rfl,rfl⟩ | hold₂
      · exact (hc.value_le hold₁).trans_lt hlt
      · exact hc.ascending t₁ t₂ m₁ m₂ hlt₁₂ hold₁ hold₂
  · exact fun u => (hknown u).mono ((views t).current.le_see a ts)

end Rules

end Line64.SlotCustody
