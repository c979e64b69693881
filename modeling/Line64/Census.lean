import Mathlib.Algebra.BigOperators.Group.Finset.Basic
import Mathlib.Data.Finset.Card

/-!
# Counting members in a phase

Lower bounds on the number of members of a family that are in some phase,
kept while single members change their phase. The index type need not be
finite: a bound is witnessed by a finite set of members. Sums over all members
of a finite family change by the share of the one member that changes.
-/

namespace Line64.Census

open Function

variable {τ σ : Type} {p p' : τ → Prop} {n n' : ℕ}

/-- At least `n` members satisfy a predicate. -/
def AtLeast (p : τ → Prop) (n : ℕ) : Prop :=
  ∃ members : Finset τ,n ≤ members.card ∧ ∀ t ∈ members,p t

/-- No member is needed for zero. -/
theorem atLeast_zero (p : τ → Prop) : AtLeast p 0 :=
  ⟨∅,Nat.zero_le _,fun _ ht => absurd ht (Finset.notMem_empty _)⟩

/-- A smaller bound for a weaker predicate. -/
theorem AtLeast.mono (h : AtLeast p n) (hp : ∀ t,p t → p' t) (hn : n'≤n) : AtLeast p' n' := by
  obtain ⟨members,hcard,hall⟩ := h
  exact ⟨members,hn.trans hcard,fun t ht => hp t (hall t ht)⟩

/-- A positive bound gives a member. -/
theorem AtLeast.exists_member (h : AtLeast p n) (hn : 0<n) : ∃ t,p t := by
  obtain ⟨members,hcard,hall⟩ := h
  have hpos : 0 < members.card := hn.trans_le hcard
  obtain ⟨t,ht⟩ := Finset.card_pos.mp hpos
  exact ⟨t,hall t ht⟩

variable [DecidableEq τ]

/-- One more member. -/
theorem AtLeast.gain (h : AtLeast p n) {t : τ} (hbefore : ¬p t) (hafter : p' t)
    (hrest : ∀ u,u≠t → p u → p' u) : AtLeast p' (n+1) := by
  obtain ⟨members,hcard,hall⟩ := h
  have hout : t∉members := fun ht => hbefore (hall t ht)
  refine ⟨insert t members,?_,?_⟩
  · rw [Finset.card_insert_of_notMem hout]
    omega
  · intro u hu
    rcases Finset.mem_insert.mp hu with rfl | hin
    · exact hafter
    · have hne : u≠t := fun he => hout (he ▸ hin)
      exact hrest u hne (hall u hin)

/-- One member less. -/
theorem AtLeast.lose (h : AtLeast p n) (t : τ) (hrest : ∀ u,u≠t → p u → p' u) :
    AtLeast p' (n-1) := by
  obtain ⟨members,hcard,hall⟩ := h
  have herase : members.card-1≤(members.erase t).card := Finset.pred_card_le_card_erase
  refine ⟨members.erase t,by omega,?_⟩
  intro u hu
  have hboth := Finset.mem_erase.mp hu
  exact hrest u hboth.1 (hall u hboth.2)

/-- The bound follows the balance of the one member that changes. -/
theorem AtLeast.update {phase : σ → Bool} {f : τ → σ} (h : AtLeast (fun u => phase (f u)=true) n)
    (t : τ) (x : σ) (hbalance : n'+(phase (f t)).toNat≤n+(phase x).toNat) :
    AtLeast (fun u => phase (update f t x u)=true) n' := by
  have hrest : ∀ u,u≠t → phase (f u)=true → phase (Function.update f t x u)=true := by
    intro u hne hu
    rw [update_of_ne hne]
    exact hu
  cases hafter : phase x with
  | true =>
    have hnew : phase (Function.update f t x t)=true := by rw [update_self,hafter]
    cases hbefore : phase (f t) with
    | true =>
      rw [hbefore,hafter] at hbalance
      refine h.mono ?_ (Nat.add_le_add_iff_right.mp hbalance)
      intro u hu
      by_cases hne : u=t
      · rw [hne]
        exact hnew
      · exact hrest u hne hu
    | false =>
      rw [hbefore,hafter] at hbalance
      have hgain := h.gain (by rw [hbefore]; exact nofun) hnew hrest
      exact hgain.mono (fun _ hu => hu) hbalance
  | false =>
    cases hbefore : phase (f t) with
    | true =>
      rw [hbefore,hafter] at hbalance
      have hless : n'≤n-1 := Nat.le_sub_one_of_lt hbalance
      exact (h.lose t hrest).mono (fun _ hu => hu) hless
    | false =>
      rw [hbefore,hafter] at hbalance
      refine h.mono ?_ hbalance
      intro u hu
      have hne : u≠t := by
        intro he
        rw [he,hbefore] at hu
        cases hu
      exact hrest u hne hu

/-- A sum over a family exchanges the share of the one member that changes. -/
theorem sum_update {M : Type} [AddCommMonoid M] [Fintype τ] (share : σ → M) (f : τ → σ) (t : τ)
    (x : σ) : ∑ u,share (Function.update f t x u)+share (f t)=∑ u,share (f u)+share x := by
  have hrest : ∑ u ∈ Finset.univ.erase t,share (Function.update f t x u)=
      ∑ u ∈ Finset.univ.erase t,share (f u) := by
    refine Finset.sum_congr rfl ?_
    intro u hu
    rw [update_of_ne (Finset.ne_of_mem_erase hu)]
  rw [← Finset.add_sum_erase _ _ (Finset.mem_univ t),← Finset.add_sum_erase Finset.univ
    (fun u => share (f u)) (Finset.mem_univ t),hrest,update_self]
  rw [add_right_comm,add_comm (share x),add_right_comm]

/-- A member with the same share changes no sum. -/
theorem sum_update_of_eq {M : Type} [AddCommMonoid M] [Fintype τ] (share : σ → M) (f : τ → σ)
    (t : τ) {x : σ} (h : share x=share (f t)) :
    ∑ u,share (Function.update f t x u)=∑ u,share (f u) := by
  refine Finset.sum_congr rfl ?_
  intro u _
  by_cases hu : u=t
  · rw [hu,update_self,h]
  · rw [update_of_ne hu]

/-- Indices below a bound that carry a mark. -/
def marked (f : ℕ → Bool) (bound : ℕ) : Finset ℕ := (Finset.range bound).filter fun i => f i=true

/-- Which indices are marked. -/
theorem mem_marked {f : ℕ → Bool} {bound i : ℕ} : i ∈ marked f bound ↔ i<bound ∧ f i=true := by
  rw [marked,Finset.mem_filter,Finset.mem_range]

/-- A new mark is one more. -/
theorem card_marked_update {f : ℕ → Bool} {bound i : ℕ} (hi : i<bound) (hnew : f i=false) :
    (marked (Function.update f i true) bound).card=(marked f bound).card+1 := by
  have hinsert : marked (Function.update f i true) bound=insert i (marked f bound) := by
    ext j
    rw [Finset.mem_insert,mem_marked,mem_marked]
    by_cases hj : j=i
    · subst hj
      simp [hi]
    · simp [hj]
  have hout : i∉marked f bound := by
    rw [mem_marked,hnew]
    exact fun h => Bool.false_ne_true h.2
  rw [hinsert,Finset.card_insert_of_notMem hout]

end Line64.Census
