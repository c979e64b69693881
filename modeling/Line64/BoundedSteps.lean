import Line64.Transition

/-!
# Bounded numbers of own steps

A call of one thread is watched while all other threads are scheduled
arbitrarily. As long as every step of the call decreases a measure and no
other step increases it, the call takes at most as many steps as the measure
was when it was first looked at. No program is mentioned here.
-/

namespace Line64.BoundedSteps

open Transition

universe u v

variable {σ : Type u} {α : Type v}

/-- Consecutive enabled actions, with a property of all states they pass. -/
inductive Path (S : System σ α) (P : σ → Prop) : σ → List α → σ → Prop
  | nil {s : σ} : P s → Path S P s [] s
  | cons {s s' t : σ} {a : α} {rest : List α} : P s → S.step s a=some s' → Path S P s' rest t →
      Path S P s (a::rest) t

variable {S : System σ α} {P : σ → Prop} {s t : σ} {actions : List α}

/-- The property holds where a path begins. -/
theorem Path.first (h : Path S P s actions t) : P s := by
  cases h with
  | nil hp => exact hp
  | cons hp _ _ => exact hp

/-- The property holds where a path ends. -/
theorem Path.last (h : Path S P s actions t) : P t := by
  induction h with
  | nil hp => exact hp
  | cons _ _ _ ih => exact ih

/-- A path from a reachable state passes reachable states only. -/
theorem Path.reachable (h : Path S P s actions t) (hr : Reachable S s) :
    Path S (fun s => P s ∧ Reachable S s) s actions t := by
  induction h with
  | nil hp => exact .nil ⟨hp,hr⟩
  | cons hp hs _ ih => exact .cons ⟨hp,hr⟩ hs (ih (hr.step hs))

/-- Own steps are paid for by the measure. -/
theorem Path.count_le {own : α → Bool} (μ : σ → ℕ)
    (hown : ∀ s a s',P s → P s' → own a=true → S.step s a=some s' → μ s'<μ s)
    (hother : ∀ s a s',P s → own a=false → S.step s a=some s' → μ s'≤μ s)
    (h : Path S P s actions t) : actions.countP own+μ t≤μ s := by
  induction h with
  | nil hp => exact Nat.le_of_eq (Nat.zero_add _)
  | @cons s s' t a rest hp hs hrest ih =>
    rw [List.countP_cons]
    cases ha : own a with
    | true =>
      have hlt := hown s a s' hp hrest.first ha hs
      simp only [if_true]
      omega
    | false =>
      have hle := hother s a s' hp ha hs
      simp only [Bool.false_eq_true,if_false]
      omega

/-- A call that is running has a next step of its own, and it takes at most
`bound` of them while it runs, the one that returns included. -/
structure WaitFree (S : System σ α) (running : σ → Prop) (own : α → Bool) (bound : ℕ) (s : σ) :
    Prop where
  /-- The next step. -/
  live : running s → ∃ a s',own a=true ∧ S.step s a=some s'
  /-- All steps so far leave room for one more. -/
  bounded : ∀ actions t,Path S running s actions t → actions.countP own<bound

/-- A measure of what a call has left to do shows that it is wait-free. -/
theorem WaitFree.of_measure {own : α → Bool} {bound : ℕ} (μ : σ → ℕ)
    (hlive : ∀ s,Reachable S s → P s → ∃ a s',own a=true ∧ S.step s a=some s')
    (hbound : ∀ s,Reachable S s → P s → μ s≤bound) (hpos : ∀ s,P s → 0<μ s)
    (hown : ∀ s a s',Reachable S s → P s → P s' → own a=true → S.step s a=some s' → μ s'<μ s)
    (hother : ∀ s a s',P s → own a=false → S.step s a=some s' → μ s'≤μ s)
    (hr : Reachable S s) : WaitFree S P own bound s where
  live := hlive s hr
  bounded := by
    intro actions t hpath
    have hcount := (hpath.reachable hr).count_le μ
      (fun s a s' hp hp' => hown s a s' hp.2 hp.1 hp'.1) (fun s a s' hp => hother s a s' hp.1)
    have hstart := hbound s hr hpath.first
    have hend := hpos t hpath.last
    omega

/-- All actions are enabled and all states they pass have a decidable
property. -/
def passes (S : System σ α) (P : σ → Prop) [DecidablePred P] : σ → List α → Bool
  | s,[] => decide (P s)
  | s,a::rest =>
    match S.step s a with
    | some s' => decide (P s) && passes S P s' rest
    | none => false

/-- Such actions form a path. -/
theorem path_of_passes [DecidablePred P] (h : passes S P s actions=true) :
    ∃ t,Path S P s actions t := by
  induction actions generalizing s with
  | nil => exact ⟨s,.nil (of_decide_eq_true h)⟩
  | cons a rest ih =>
    rw [passes] at h
    split at h
    · rename_i s' hs
      obtain ⟨hp,hrest⟩ := Bool.and_eq_true_iff.mp h
      obtain ⟨t,ht⟩ := ih hrest
      exact ⟨t,.cons (of_decide_eq_true hp) hs ht⟩
    · cases h

end Line64.BoundedSteps
