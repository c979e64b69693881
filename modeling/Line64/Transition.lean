import Mathlib.Data.List.Induction
import Mathlib.Logic.Function.Basic

/-!
# Systems with a partial step function

A system is an initial state and the partial effect of every scheduled
action. One action is one indivisible access, so a schedule is an arbitrary
interleaving. The module collects the induction rule for reachable states,
executable schedules, runs confined to a predicate, and the stuttering
simulation rule. No queue, thread or memory layout is mentioned here.
-/

namespace Line64.Transition

universe u v w x

variable {σ : Type u} {α : Type v} {τ : Type w} {ℓ : Type x}

/-- An initial state together with the partial effect of every action. -/
structure System (σ : Type u) (α : Type v) where
  /-- The only state before any action has been scheduled. -/
  init : σ
  /-- Effect of one action; `none` marks an action that is not enabled. -/
  step : σ → α → Option σ

/-- States met by some finite schedule of enabled actions. -/
inductive Reachable (S : System σ α) : σ → Prop
  | init : Reachable S S.init
  | step {s s' : σ} {a : α} : Reachable S s → S.step s a=some s' → Reachable S s'

/-- A predicate that holds initially and survives every enabled action of a
reachable state holds of all reachable states. -/
theorem Reachable.invariant {S : System σ α} {I : σ → Prop} (hinit : I S.init)
    (hstep : ∀ s a s',Reachable S s → I s → S.step s a=some s' → I s')
    {s : σ} (h : Reachable S s) : I s := by
  induction h with
  | init => exact hinit
  | step hr hs ih => exact hstep _ _ _ hr ih hs

/-- Execute a schedule from a given state, skipping actions not enabled. -/
def runFrom (S : System σ α) : σ → List α → σ
  | s,[] => s
  | s,a::rest => runFrom S ((S.step s a).getD s) rest

/-- Execute a schedule from the initial state. -/
def run (S : System σ α) (schedule : List α) : σ := runFrom S S.init schedule

/-- An executed schedule never leaves the reachable states. -/
theorem runFrom_reachable {S : System σ α} {s : σ} (h : Reachable S s) (schedule : List α) :
    Reachable S (runFrom S s schedule) := by
  induction schedule generalizing s with
  | nil => exact h
  | cons a rest ih =>
    cases hs : S.step s a with
    | none => simpa only [runFrom,hs,Option.getD_none] using ih h
    | some s' => simpa only [runFrom,hs,Option.getD_some] using ih (h.step hs)

/-- Every executed schedule yields a reachable state. -/
theorem run_reachable (S : System σ α) (schedule : List α) : Reachable S (run S schedule) :=
  runFrom_reachable .init schedule

/-- Executing one more action. -/
theorem runFrom_append_singleton (S : System σ α) (s : σ) (schedule : List α) (a : α) :
    runFrom S s (schedule++[a])=(S.step (runFrom S s schedule) a).getD (runFrom S s schedule) := by
  induction schedule generalizing s with
  | nil => rfl
  | cons b rest ih => exact ih _

/-- An enabled last action of a schedule is a step of the system. -/
theorem step_run (S : System σ α) (schedule : List α) (a : α)
    (h : (S.step (run S schedule) a).isSome=true) :
    S.step (run S schedule) a=some (run S (schedule++[a])) := by
  obtain ⟨s',hs'⟩ := Option.isSome_iff_exists.mp h
  have hlast := runFrom_append_singleton S S.init schedule a
  rw [run] at hs'
  rw [run,run,hlast,hs',Option.getD_some]

/-- States met by runs in which every action is taken where `P` allows it. -/
inductive Guarded (S : System σ α) (P : σ → α → Prop) : σ → Prop
  | init : Guarded S P S.init
  | step {s s' : σ} {a : α} : Guarded S P s → P s a → S.step s a=some s' → Guarded S P s'

/-- Guarding only removes runs. -/
theorem Guarded.reachable {S : System σ α} {P : σ → α → Prop} {s : σ} (h : Guarded S P s) :
    Reachable S s := by
  induction h with
  | init => exact .init
  | step _ _ hs ih => exact ih.step hs

/-- A predicate that survives every allowed action holds along guarded runs. -/
theorem Guarded.invariant {S : System σ α} {P : σ → α → Prop} {I : σ → Prop} (hinit : I S.init)
    (hstep : ∀ s a s',Reachable S s → I s → P s a → S.step s a=some s' → I s')
    {s : σ} (h : Guarded S P s) : I s := by
  induction h with
  | init => exact hinit
  | step hr hp hs ih => exact hstep _ _ _ hr.reachable ih hp hs

/-- Whether every action of a schedule is taken where `P` allows it. -/
def allowedFrom (S : System σ α) (P : σ → α → Prop) [∀ s a,Decidable (P s a)] :
    σ → List α → Bool
  | _,[] => true
  | s,a::rest => decide (P s a) && allowedFrom S P ((S.step s a).getD s) rest

/-- An executed schedule of allowed actions is a guarded run. -/
theorem runFrom_guarded {S : System σ α} {P : σ → α → Prop} [∀ s a,Decidable (P s a)] {s : σ}
    (h : Guarded S P s) {schedule : List α} (hall : allowedFrom S P s schedule=true) :
    Guarded S P (runFrom S s schedule) := by
  induction schedule generalizing s with
  | nil => exact h
  | cons a rest ih =>
    rw [allowedFrom,Bool.and_eq_true,decide_eq_true_eq] at hall
    obtain ⟨ha,hrest⟩ := hall
    cases hs : S.step s a with
    | none =>
      rw [hs,Option.getD_none] at hrest
      simpa only [runFrom,hs,Option.getD_none] using ih h hrest
    | some s' =>
      rw [hs,Option.getD_some] at hrest
      simpa only [runFrom,hs,Option.getD_some] using ih (h.step ha hs) hrest

/-- A finite schedule, oldest action first, and the state it ends in. -/
inductive Schedule (S : System σ α) : List α → σ → Prop
  | init : Schedule S [] S.init
  | step {actions : List α} {s s' : σ} {a : α} : Schedule S actions s →
      S.step s a=some s' → Schedule S (actions++[a]) s'

/-- Executing every action of a list, without skipping, is a schedule. -/
theorem schedule_of_foldlM {S : System σ α} {actions : List α} {s : σ}
    (h : actions.foldlM S.step S.init=some s) : Schedule S actions s := by
  induction actions using List.reverseRecOn generalizing s with
  | nil =>
    cases h
    exact .init
  | append_singleton rest a ih =>
    rw [List.foldlM_append] at h
    obtain ⟨s₀,h₀,h₁⟩ := Option.bind_eq_some_iff.mp h
    have hlast : S.step s₀ a=some s := by simpa using h₁
    exact (ih h₀).step hlast

/-- Repeating one action some number of times from `s` establishes `P`. -/
def LeadsTo (S : System σ α) (a : α) (P : σ → Prop) (s : σ) : Prop :=
  ∃ n,P (runFrom S s (List.replicate n a))

/-- What holds already needs no repetition. -/
theorem LeadsTo.now {S : System σ α} {a : α} {P : σ → Prop} {s : σ} (h : P s) :
    LeadsTo S a P s := ⟨0,h⟩

/-- One more repetition in front. -/
theorem LeadsTo.next {S : System σ α} {a : α} {P : σ → Prop} {s s' : σ}
    (hs : S.step s a=some s') (h : LeadsTo S a P s') : LeadsTo S a P s := by
  obtain ⟨n,hn⟩ := h
  refine ⟨n+1,?_⟩
  rw [List.replicate_succ,runFrom,hs,Option.getD_some]
  exact hn

/-- A weaker goal. -/
theorem LeadsTo.mono {S : System σ α} {a : α} {P Q : σ → Prop} {s : σ} (h : LeadsTo S a P s)
    (hw : ∀ s,P s → Q s) : LeadsTo S a Q s := by
  obtain ⟨n,hn⟩ := h
  exact ⟨n,hw _ hn⟩

/-- An action that decreases a measure until the goal holds leads there. -/
theorem leadsTo_of_measure {S : System σ α} {a : α} {I P : σ → Prop} (μ : σ → ℕ)
    (hstep : ∀ s,I s → ¬P s → ∃ s',S.step s a=some s' ∧ I s' ∧ μ s'<μ s) {s : σ} (h : I s) :
    LeadsTo S a (fun s => I s ∧ P s) s := by
  induction hn : μ s using Nat.strongRecOn generalizing s with
  | ind n ih =>
    by_cases hp : P s
    · exact .now ⟨h,hp⟩
    · obtain ⟨s',hs,hi,hlt⟩ := hstep s h hp
      exact .next hs (ih (μ s') (hn ▸ hlt) hi rfl)

/-- States met by the runs of a labelled relation. -/
inductive Behaviour (first : τ) (next : ℓ → τ → τ → Prop) : τ → Prop
  | init : Behaviour first next first
  | step {l : ℓ} {t t' : τ} : Behaviour first next t → next l t t' → Behaviour first next t'

/-- A predicate kept by every labelled step holds along every behaviour. -/
theorem Behaviour.invariant {first : τ} {next : ℓ → τ → τ → Prop} {I : τ → Prop}
    (hinit : I first) (hstep : ∀ l t t',I t → next l t t' → I t') {t : τ}
    (h : Behaviour first next t) : I t := by
  induction h with
  | init => exact hinit
  | step _ hs ih => exact hstep _ _ _ ih hs

/-- A schedule and a stuttering run of a labelled relation, built together.
A visible step is exactly one step of the given label, every other step
leaves the abstract state alone, and `R` relates all pairs of states met. -/
inductive Matched (S : System σ α) (label : σ → α → Option ℓ) (first : τ)
    (next : ℓ → τ → τ → Prop) (R : σ → τ → Prop) : List α → σ → τ → Prop
  | init : R S.init first → Matched S label first next R [] S.init first
  | stutter {actions : List α} {s s' : σ} {t : τ} {a : α} :
      Matched S label first next R actions s t → S.step s a=some s' → label s a=none →
      R s' t → Matched S label first next R (actions++[a]) s' t
  | visible {actions : List α} {s s' : σ} {t t' : τ} {a : α} {l : ℓ} :
      Matched S label first next R actions s t → S.step s a=some s' → label s a=some l →
      next l t t' → R s' t' → Matched S label first next R (actions++[a]) s' t'

/-- The relation holds at the end of a matched run. -/
theorem Matched.related {S : System σ α} {label : σ → α → Option ℓ} {first : τ}
    {next : ℓ → τ → τ → Prop} {R : σ → τ → Prop} {actions : List α} {s : σ} {t : τ}
    (h : Matched S label first next R actions s t) : R s t := by
  cases h with
  | init hr => exact hr
  | stutter _ _ _ hr => exact hr
  | visible _ _ _ _ hr => exact hr

/-- A weaker relation is matched by the same run. -/
theorem Matched.mono {S : System σ α} {label : σ → α → Option ℓ} {first : τ}
    {next : ℓ → τ → τ → Prop} {R R' : σ → τ → Prop} (hw : ∀ s t,R s t → R' s t)
    {actions : List α} {s : σ} {t : τ} (h : Matched S label first next R actions s t) :
    Matched S label first next R' actions s t := by
  induction h with
  | init hr => exact .init (hw _ _ hr)
  | stutter _ hs hl hr ih => exact ih.stutter hs hl (hw _ _ hr)
  | visible _ hs hl hn hr ih => exact ih.visible hs hl hn (hw _ _ hr)

/-- Stuttering simulation for the schedules that satisfy a predicate closed
under prefixes: related states stay related, after one step of the announced
label where there is one. -/
theorem Schedule.matched_within {S : System σ α} {label : σ → α → Option ℓ} {first : τ}
    {next : ℓ → τ → τ → Prop} {R : σ → τ → Prop} {P : List α → Prop}
    (hshorter : ∀ actions a,P (actions++[a]) → P actions) (hinit : R S.init first)
    (hstep : ∀ actions s t a s',Schedule S actions s → P (actions++[a]) → R s t →
      S.step s a=some s' →
      (label s a=none ∧ R s' t) ∨ ∃ l t',label s a=some l ∧ next l t t' ∧ R s' t')
    {actions : List α} {s : σ} (h : Schedule S actions s) (hp : P actions) :
    ∃ t,Matched S label first next R actions s t := by
  induction h with
  | init => exact ⟨first,.init hinit⟩
  | step hr hs ih =>
    obtain ⟨t,hm⟩ := ih (hshorter _ _ hp)
    rcases hstep _ _ _ _ _ hr hp hm.related hs with ⟨hl,hr'⟩ | ⟨l,t',hl,hn,hr'⟩
    · exact ⟨t,hm.stutter hs hl hr'⟩
    · exact ⟨t',hm.visible hs hl hn hr'⟩

/-- Stuttering simulation: related states stay related, after one step of
the announced label where there is one. -/
theorem Schedule.matched {S : System σ α} {label : σ → α → Option ℓ} {first : τ}
    {next : ℓ → τ → τ → Prop} {R : σ → τ → Prop} (hinit : R S.init first)
    (hstep : ∀ s t a s',R s t → S.step s a=some s' →
      (label s a=none ∧ R s' t) ∨ ∃ l t',label s a=some l ∧ next l t t' ∧ R s' t')
    {actions : List α} {s : σ} (h : Schedule S actions s) :
    ∃ t,Matched S label first next R actions s t :=
  h.matched_within (P:=fun _ => True) (fun _ _ _ => trivial) hinit
    (fun _ s t a s' _ _ hr hs => hstep s t a s' hr hs) trivial

/-- A schedule ends in a reachable state. -/
theorem Schedule.reachable {S : System σ α} {actions : List α} {s : σ}
    (h : Schedule S actions s) : Reachable S s := by
  induction h with
  | init => exact .init
  | step _ hs ih => exact ih.step hs

/-- Stuttering simulation for the schedules that end in a state with a
property inherited from every later state. -/
theorem Schedule.matched_until {S : System σ α} {label : σ → α → Option ℓ} {first : τ}
    {next : ℓ → τ → τ → Prop} {R : σ → τ → Prop} {P : σ → Prop}
    (hearlier : ∀ s a s',S.step s a=some s' → P s' → P s) (hinit : R S.init first)
    (hstep : ∀ s t a s',Reachable S s → P s' → R s t → S.step s a=some s' →
      (label s a=none ∧ R s' t) ∨ ∃ l t',label s a=some l ∧ next l t t' ∧ R s' t')
    {actions : List α} {s : σ} (h : Schedule S actions s) (hp : P s) :
    ∃ t,Matched S label first next R actions s t := by
  induction h with
  | init => exact ⟨first,.init hinit⟩
  | step hr hs ih =>
    obtain ⟨t,hm⟩ := ih (hearlier _ _ _ hs hp)
    rcases hstep _ _ _ _ hr.reachable hp hm.related hs with ⟨hl,hr'⟩ | ⟨l,t',hl,hn,hr'⟩
    · exact ⟨t,hm.stutter hs hl hr'⟩
    · exact ⟨t',hm.visible hs hl hn hr'⟩

end Line64.Transition
