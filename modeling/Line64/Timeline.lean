import Mathlib.Data.List.Infix
import Line64.Transition

/-!
# Instants of a run

A schedule fixes a run, and the instants of the run are the states behind
its prefixes. The module states what it means that something held at some
instant, that every action met a guard and that something happened a number
of times, together with the rules that carry such facts from one action to
the next. No queue, thread or memory layout is mentioned here.
-/

namespace Line64.Timeline

open Transition

universe u v

variable {σ : Type u} {α : Type v} {S : System σ α} {P Q : σ → Prop} {G : σ → α → Prop}
  {actions : List α} {a : α}

/-- Executing one more action from the initial state. -/
theorem run_append_singleton (S : System σ α) (actions : List α) (a : α) :
    run S (actions++[a])=(S.step (run S actions) a).getD (run S actions) :=
  runFrom_append_singleton S S.init actions a

/-- One more action is skipped or is a step of the system. -/
theorem run_succ (S : System σ α) (actions : List α) (a : α) :
    run S (actions++[a])=run S actions ∨
      S.step (run S actions) a=some (run S (actions++[a])) := by
  rw [run_append_singleton]
  cases S.step (run S actions) a with
  | none => exact .inl rfl
  | some s' => exact .inr rfl

/-- The predicate held at some instant of the run, the last one included. -/
def Sometime (S : System σ α) (P : σ → Prop) (actions : List α) : Prop :=
  ∃ earlier,earlier <+: actions ∧ P (run S earlier)

/-- The last instant is an instant. -/
theorem Sometime.now (h : P (run S actions)) : Sometime S P actions :=
  ⟨actions,List.prefix_rfl,h⟩

/-- Instants of a beginning are instants of the run. -/
theorem Sometime.extend {earlier : List α} (h : Sometime S P earlier)
    (hpre : earlier <+: actions) : Sometime S P actions := by
  obtain ⟨first,hfirst,hp⟩ := h
  exact ⟨first,hfirst.trans hpre,hp⟩

/-- Instants stay in the past. -/
theorem Sometime.later (h : Sometime S P actions) (a : α) : Sometime S P (actions++[a]) :=
  h.extend (List.prefix_append _ _)

/-- A weaker predicate held at the same instant. -/
theorem Sometime.mono (h : Sometime S P actions) (hw : ∀ s,P s → Q s) : Sometime S Q actions := by
  obtain ⟨earlier,hpre,hp⟩ := h
  exact ⟨earlier,hpre,hw _ hp⟩

/-- The instant is the last one or an earlier one. -/
theorem sometime_succ (h : Sometime S P (actions++[a])) :
    Sometime S P actions ∨ P (run S (actions++[a])) := by
  obtain ⟨earlier,hpre,hp⟩ := h
  rcases List.prefix_concat_iff.mp hpre with heq | hshort
  · rw [← heq]
    exact .inr hp
  · exact .inl ⟨earlier,hshort,hp⟩

/-- What no step destroys still holds at the end. -/
theorem Sometime.stable (h : Sometime S P actions)
    (hstep : ∀ s a s',P s → S.step s a=some s' → P s') : P (run S actions) := by
  induction actions using List.reverseRecOn with
  | nil =>
    obtain ⟨earlier,hpre,hp⟩ := h
    rwa [List.prefix_nil.mp hpre] at hp
  | append_singleton rest a ih =>
    rcases sometime_succ h with hearlier | hnow
    · rcases run_succ S rest a with hskip | hs
      · rw [hskip]
        exact ih hearlier
      · exact hstep _ _ _ (ih hearlier) hs
    · exact hnow

/-- What does not hold initially has been established by a step. -/
theorem exists_entry (hinit : ¬P S.init) (h : P (run S actions)) :
    ∃ earlier a,earlier++[a] <+: actions ∧ ¬P (run S earlier) ∧
      S.step (run S earlier) a=some (run S (earlier++[a])) ∧ P (run S (earlier++[a])) := by
  induction actions using List.reverseRecOn with
  | nil => exact absurd h hinit
  | append_singleton rest a ih =>
    by_cases hbefore : P (run S rest)
    · obtain ⟨earlier,b,hpre,hentry⟩ := ih hbefore
      exact ⟨earlier,b,hpre.trans (List.prefix_append _ _),hentry⟩
    · rcases run_succ S rest a with hskip | hs
      · rw [hskip] at h
        exact absurd h hbefore
      · exact ⟨rest,a,List.prefix_rfl,hbefore,hs,h⟩

/-- Every action of the run is taken where `G` allows it. -/
def Along (S : System σ α) (G : σ → α → Prop) (actions : List α) : Prop :=
  ∀ earlier a,earlier++[a] <+: actions → G (run S earlier) a

/-- The actions before the last one. -/
theorem Along.init (h : Along S G (actions++[a])) : Along S G actions :=
  fun earlier b hpre => h earlier b (hpre.trans (List.prefix_append _ _))

/-- The last action. -/
theorem Along.last (h : Along S G (actions++[a])) : G (run S actions) a :=
  h actions a List.prefix_rfl

/-- A guard that is met everywhere. -/
theorem along_of_forall (h : ∀ s a,G s a) (actions : List α) : Along S G actions :=
  fun _ _ _ => h _ _

/-- An executed check of the guard. -/
theorem along_of_allowed [∀ s a,Decidable (G s a)] (h : allowedFrom S G S.init actions=true) :
    Along S G actions := by
  have hrun : ∀ s earlier a rest,allowedFrom S G s (earlier++[a]++rest)=true →
      G (runFrom S s earlier) a := by
    intro s earlier a rest
    induction earlier generalizing s with
    | nil =>
      intro hall
      rw [List.nil_append,List.cons_append,allowedFrom,Bool.and_eq_true,decide_eq_true_eq] at hall
      exact hall.1
    | cons b earlier ih =>
      intro hall
      rw [List.cons_append,List.cons_append,allowedFrom,Bool.and_eq_true] at hall
      exact ih _ hall.2
  rintro earlier a ⟨rest,hrest⟩
  rw [← hrest] at h
  exact hrun S.init earlier a rest h

/-- While a phase lasts, either the awaited event is still pending or it has
been seen at an instant of the phase. -/
theorem pending_or_seen (During Pending Seen : σ → Prop) (hinit : ¬During S.init)
    (henter : ∀ s a s',Reachable S s → G s a → S.step s a=some s' → ¬During s → During s' →
      Pending s' ∨ Seen s')
    (hkeep : ∀ s a s',Reachable S s → G s a → S.step s a=some s' → During s → During s' →
      Pending s → Pending s' ∨ Seen s')
    (h : Along S G actions) (hd : During (run S actions)) :
    Pending (run S actions) ∨ Sometime S (fun s => During s ∧ Seen s) actions := by
  induction actions using List.reverseRecOn with
  | nil => exact absurd hd hinit
  | append_singleton rest a ih =>
    rcases run_succ S rest a with hskip | hs
    · rw [hskip] at hd ⊢
      exact (ih h.init hd).imp_right fun hseen => hseen.later a
    · have hr := run_reachable S rest
      by_cases hbefore : During (run S rest)
      · rcases ih h.init hbefore with hpending | hseen
        · have hnext := hkeep _ _ _ hr h.last hs hbefore hd hpending
          exact hnext.imp_right fun hseen => .now ⟨hd,hseen⟩
        · exact .inr (hseen.later a)
      · have hnext := henter _ _ _ hr h.last hs hbefore hd
        exact hnext.imp_right fun hseen => .now ⟨hd,hseen⟩

/-- Number of steps of a schedule at which `p` holds; skipped actions do not
count. -/
def countFrom (S : System σ α) (p : σ → α → Bool) : σ → List α → ℕ
  | _,[] => 0
  | s,a::rest =>
    match S.step s a with
    | none => countFrom S p s rest
    | some s' => (p s a).toNat+countFrom S p s' rest

/-- Counting over two schedules in a row. -/
theorem countFrom_append (S : System σ α) (p : σ → α → Bool) (s : σ) (first second : List α) :
    countFrom S p s (first++second)=
      countFrom S p s first+countFrom S p (runFrom S s first) second := by
  induction first generalizing s with
  | nil => exact (Nat.zero_add _).symm
  | cons a rest ih =>
    rw [List.cons_append,countFrom,countFrom,runFrom]
    cases S.step s a with
    | none => exact ih s
    | some s' =>
      dsimp only
      rw [ih s',Nat.add_assoc]
      rfl

/-- One more action is skipped, or it is a step and counts where `p` holds. -/
theorem count_succ (S : System σ α) (p : σ → α → Bool) (actions : List α) (a : α) :
    (S.step (run S actions) a=none ∧ run S (actions++[a])=run S actions ∧
      countFrom S p S.init (actions++[a])=countFrom S p S.init actions) ∨
    (S.step (run S actions) a=some (run S (actions++[a])) ∧
      countFrom S p S.init (actions++[a])=
        countFrom S p S.init actions+(p (run S actions) a).toNat) := by
  rw [run_append_singleton,countFrom_append,countFrom,← run]
  cases S.step (run S actions) a with
  | none => exact .inl ⟨rfl,rfl,rfl⟩
  | some s' => exact .inr ⟨rfl,rfl⟩

/-- A beginning counts no more than the whole. -/
theorem countFrom_prefix_le {p : σ → α → Bool} {s : σ} {earlier : List α}
    (hpre : earlier <+: actions) : countFrom S p s earlier≤countFrom S p s actions := by
  obtain ⟨rest,rfl⟩ := hpre
  rw [countFrom_append]
  exact Nat.le_add_right _ _

end Line64.Timeline
