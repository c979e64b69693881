import Mathlib.Logic.Function.Basic
import Mathlib.Data.Nat.Notation

/-!
# Positions handed out by a counter

Operations claim consecutive positions from a counter, each operation at most
one. The claimed positions are then a prefix and no two operations share one.
-/

namespace Line64.ClaimLedger

open Function

variable {ι : Type} {position : ι → Option ℕ} {next : ℕ}

/-- The claims are those of a counter. -/
structure Ledger (position : ι → Option ℕ) (next : ℕ) : Prop where
  /-- The claimed positions form a prefix. -/
  claims : ∀ p,p<next ↔ ∃ i,position i=some p
  /-- No position is claimed by two operations. -/
  unique : ∀ i i' p,position i=some p → position i'=some p → i=i'

/-- An operation with a claim is not the one without. -/
theorem ne_of_claimed {i i' : ι} {p : ℕ} (hnone : position i=none) (h : position i'=some p) :
    i'≠i := by
  rintro rfl
  rw [hnone] at h
  cases h

/-- A final value is kept when another operation reaches it. -/
theorem update_of_reached {α : Type} [DecidableEq ι] {f : ι → α} {x : α} {i' : ι} (i : ι)
    (h : f i'=x) : update f i x i'=x := by
  by_cases he : i'=i
  · rw [he,update_self]
  · rw [update_of_ne he,h]

/-- A claim that was made since is at or above the old counter. -/
theorem Ledger.later {position' : ι → Option ℕ} {next' : ℕ} (h : Ledger position next)
    (h' : Ledger position' next') (hkept : ∀ i p,position i=some p → position' i=some p)
    {i : ι} {p : ℕ} (hnone : position i=none) (hnew : position' i=some p) : next≤p := by
  by_contra hlt
  obtain ⟨i',hi'⟩ := (h.claims p).mp (Nat.not_le.mp hlt)
  exact ne_of_claimed hnone hi' (h'.unique i' i p (hkept i' p hi') hnew)

section Claim

variable [DecidableEq ι] {i i' : ι} {p : ℕ}

/-- A claim behind one more is the new one or an old one. -/
theorem claim_cases (h : update position i (some next) i'=some p) :
    (i'=i ∧ p=next) ∨ (i'≠i ∧ position i'=some p) := by
  by_cases he : i'=i
  · rw [he,update_self] at h
    exact .inl ⟨he,(Option.some.inj h).symm⟩
  · rw [update_of_ne he] at h
    exact .inr ⟨he,h⟩

/-- An old claim is kept. -/
theorem claim_kept (hnone : position i=none) (h : position i'=some p) :
    update position i (some next) i'=some p := by
  rw [update_of_ne (ne_of_claimed hnone h),h]

/-- One more operation claims the next position. -/
theorem Ledger.claim (h : Ledger position next) (hnone : position i=none) :
    Ledger (update position i (some next)) (next+1) where
  claims := by
    intro p
    constructor
    · intro hp
      rcases Nat.lt_succ_iff_lt_or_eq.mp hp with hlt | rfl
      · obtain ⟨i',hi'⟩ := (h.claims p).mp hlt
        exact ⟨i',claim_kept hnone hi'⟩
      · exact ⟨i,update_self _ _ _⟩
    · rintro ⟨i',hi'⟩
      rcases claim_cases hi' with ⟨-,rfl⟩ | ⟨-,hold⟩
      · exact Nat.lt_succ_self _
      · exact Nat.lt_succ_of_lt ((h.claims p).mpr ⟨i',hold⟩)
  unique := by
    intro i₁ i₂ p h₁ h₂
    rcases claim_cases h₁ with ⟨rfl,hp₁⟩ | ⟨-,ho₁⟩ <;>
      rcases claim_cases h₂ with ⟨rfl,hp₂⟩ | ⟨-,ho₂⟩
    · rfl
    · exact absurd ((h.claims p).mpr ⟨i₂,ho₂⟩) (by omega)
    · exact absurd ((h.claims p).mpr ⟨i₁,ho₁⟩) (by omega)
    · exact h.unique i₁ i₂ p ho₁ ho₂

end Claim

section Phase

variable {φ : Type} {phase : ι → φ} {idle x : φ} [DecidableEq ι] {i : ι}

/-- A started operation moves on; exactly the started ones hold a claim. -/
theorem idle_iff_of_move (h : ∀ i',phase i'=idle ↔ position i'=none) (hclaimed : position i≠none)
    (hx : x≠idle) (i' : ι) : update phase i x i'=idle ↔ position i'=none := by
  by_cases he : i'=i
  · rw [he,update_self]
    exact iff_of_false hx hclaimed
  · rw [update_of_ne he]
    exact h i'

/-- An operation starts with its claim; exactly the started ones hold one. -/
theorem idle_iff_of_claim (h : ∀ i',phase i'=idle ↔ position i'=none) (hx : x≠idle) (i' : ι) :
    update phase i x i'=idle ↔ update position i (some next) i'=none := by
  by_cases he : i'=i
  · rw [he,update_self,update_self]
    exact iff_of_false hx nofun
  · rw [update_of_ne he,update_of_ne he]
    exact h i'

end Phase

end Line64.ClaimLedger
