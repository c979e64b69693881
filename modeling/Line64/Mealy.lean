import Mathlib.Data.List.Basic

/-!
# Machines that answer every action

A machine with a total transition function and one answer per action, as
needed for operations that are atomic. The module gives the simulation rule
for two machines fed with the same actions, and the unwinding rule for one
machine fed with a list of actions and with a part of it. No queue is
mentioned here.
-/

namespace Line64.Mealy

universe u v w x

variable {σ : Type u} {τ : Type v} {α : Type w} {ω : Type x}

/-- An initial state, and the successor and the answer of every action. -/
structure Machine (σ : Type u) (α : Type w) (ω : Type x) where
  /-- State before any action. -/
  init : σ
  /-- Successor state and answer of one action. -/
  perform : σ → α → σ × ω

/-- State after a list of actions. -/
def Machine.finalFrom (M : Machine σ α ω) : σ → List α → σ
  | s,[] => s
  | s,a::rest => M.finalFrom (M.perform s a).1 rest

/-- Answers to the actions that satisfy `keep`, in order. -/
def Machine.answersFrom (M : Machine σ α ω) (keep : α → Bool) : σ → List α → List ω
  | _,[] => []
  | s,a::rest =>
    if keep a then (M.perform s a).2::M.answersFrom keep (M.perform s a).1 rest
    else M.answersFrom keep (M.perform s a).1 rest

/-- State after a list of actions from the initial state. -/
def Machine.final (M : Machine σ α ω) (actions : List α) : σ := M.finalFrom M.init actions

/-- Selected answers from the initial state. -/
def Machine.answers (M : Machine σ α ω) (keep : α → Bool) (actions : List α) : List ω :=
  M.answersFrom keep M.init actions

/-- The state after one more action. -/
theorem Machine.finalFrom_append_singleton (M : Machine σ α ω) (s : σ) (actions : List α) (a : α) :
    M.finalFrom s (actions++[a])=(M.perform (M.finalFrom s actions) a).1 := by
  induction actions generalizing s with
  | nil => rfl
  | cons b rest ih => exact ih _

/-- What holds initially and survives every action holds after every list of
actions. -/
theorem Machine.final_invariant {M : Machine σ α ω} {I : σ → Prop} (hinit : I M.init)
    (hstep : ∀ s a,I s → I (M.perform s a).1) (actions : List α) : I (M.final actions) := by
  have hrun : ∀ s,I s → I (M.finalFrom s actions) := by
    induction actions with
    | nil => exact fun s h => h
    | cons a rest ih => exact fun s h => ih _ (hstep s a h)
  exact hrun _ hinit

/-- One more action adds its answer. -/
theorem Machine.answersFrom_append_singleton (M : Machine σ α ω) (s : σ) (actions : List α)
    (a : α) : M.answersFrom (fun _ => true) s (actions++[a])=
      M.answersFrom (fun _ => true) s actions++[(M.perform (M.finalFrom s actions) a).2] := by
  induction actions generalizing s with
  | nil => rfl
  | cons b rest ih =>
    simp only [List.cons_append,Machine.answersFrom,Machine.finalFrom,if_true,ih]

/-- Every action is performed where `P` allows it. -/
def Machine.AlongFrom (M : Machine σ α ω) (P : σ → α → Prop) : σ → List α → Prop
  | _,[] => True
  | s,a::rest => P s a ∧ M.AlongFrom P (M.perform s a).1 rest

/-- Machines that agree wherever `P` allows an action answer alike. -/
theorem Machine.answers_eq_of_along {M M' : Machine σ α ω} {P : σ → α → Prop}
    (hinit : M.init=M'.init) (hstep : ∀ s a,P s a → M.perform s a=M'.perform s a)
    (keep : α → Bool) {actions : List α} (h : M.AlongFrom P M.init actions) :
    M.answers keep actions=M'.answers keep actions := by
  have hrun : ∀ s,M.AlongFrom P s actions →
      M.answersFrom keep s actions=M'.answersFrom keep s actions := by
    clear h
    induction actions with
    | nil => exact fun s _ => rfl
    | cons a rest ih =>
      rintro s ⟨ha,hrest⟩
      have hnext := ih _ hrest
      simp only [Machine.answersFrom,hstep s a ha] at hnext ⊢
      rw [hnext]
  rw [Machine.answers,Machine.answers,← hinit]
  exact hrun _ h

/-- What holds of every possible answer holds along every run. -/
theorem Machine.answers_forall {M : Machine σ α ω} {P : ω → Prop}
    (h : ∀ s a,P (M.perform s a).2) (keep : α → Bool) (actions : List α) :
    ∀ answer ∈ M.answers keep actions,P answer := by
  have hrun : ∀ s,∀ answer ∈ M.answersFrom keep s actions,P answer := by
    induction actions with
    | nil => exact fun s answer hmem => absurd hmem List.not_mem_nil
    | cons a rest ih =>
      intro s answer hmem
      rw [Machine.answersFrom] at hmem
      split at hmem
      · rcases List.mem_cons.mp hmem with rfl | hrest
        · exact h s a
        · exact ih _ answer hrest
      · exact ih _ answer hmem
  exact hrun M.init

/-- Simulation: two machines whose related states give equal answers and
related successors stay related and answer alike. -/
theorem Machine.simulation {M : Machine σ α ω} {M' : Machine τ α ω} {R : σ → τ → Prop}
    (hstep : ∀ s t a,R s t → R (M.perform s a).1 (M'.perform t a).1 ∧
      (M.perform s a).2=(M'.perform t a).2)
    (hinit : R M.init M'.init) (keep : α → Bool) (actions : List α) :
    R (M.final actions) (M'.final actions) ∧
      M.answers keep actions=M'.answers keep actions := by
  have hrun : ∀ s t,R s t → R (M.finalFrom s actions) (M'.finalFrom t actions) ∧
      M.answersFrom keep s actions=M'.answersFrom keep t actions := by
    induction actions with
    | nil => exact fun s t h => ⟨h,rfl⟩
    | cons a rest ih =>
      intro s t h
      have ha := hstep s t a h
      have hrest := ih _ _ ha.1
      refine ⟨hrest.1,?_⟩
      simp only [Machine.answersFrom,ha.2,hrest.2]
  exact hrun _ _ hinit

/-- Unwinding: where dropped actions stay inside a relation and kept actions
respect it, dropping actions changes no answer to the kept ones. -/
theorem Machine.unwinding {M : Machine σ α ω} {E : σ → σ → Prop} {keep : α → Bool}
    (hrefl : ∀ s,E s s)
    (hkeep : ∀ s t a,E s t → keep a=true → E (M.perform s a).1 (M.perform t a).1 ∧
      (M.perform s a).2=(M.perform t a).2)
    (hdrop : ∀ s t a,E s t → keep a=false → E (M.perform s a).1 t) (actions : List α) :
    M.answers keep (actions.filter keep)=M.answers keep actions := by
  have hrun : ∀ s t,E s t →
      M.answersFrom keep t (actions.filter keep)=M.answersFrom keep s actions := by
    induction actions with
    | nil => exact fun s t _ => rfl
    | cons a rest ih =>
      intro s t h
      cases hk : keep a with
      | true =>
        have ha := hkeep s t a h hk
        have hrest := ih _ _ ha.1
        rw [List.filter_cons_of_pos hk]
        simp only [Machine.answersFrom,hk,if_true,ha.2,hrest]
      | false =>
        have hrest := ih _ _ (hdrop s t a h hk)
        rw [List.filter_cons_of_neg (by rw [hk]; exact Bool.false_ne_true)]
        simpa only [Machine.answersFrom,hk,Bool.false_eq_true,if_false] using hrest
  exact hrun _ _ (hrefl _)

end Line64.Mealy
