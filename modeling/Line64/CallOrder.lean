import Line64.ClaimLedger
import Line64.Timeline

/-!
# Real time order of calls

A call is idle, then running, then returned. One call is before another if
it has returned at an instant at which the other is still idle. Calls of a
thread that runs one call at a time are totally ordered in this way, and
numbers claimed from a counter respect the order. No queue is mentioned here.
-/

namespace Line64.CallOrder

open Transition Timeline ClaimLedger

/-- Life of a call. -/
inductive Stage
  | idle
  | running
  | returned
  deriving DecidableEq, Repr

variable {σ α κ θ : Type} {S : System σ α} {stage : σ → κ → Stage} {actions : List α}
  {k k' : κ}

/-- One call has returned before the other one starts. -/
def Before (S : System σ α) (stage : σ → κ → Stage) (k k' : κ) (actions : List α) : Prop :=
  Sometime S (fun s => stage s k=.returned ∧ stage s k'=.idle) actions

/-- A call of a thread starts only where no call of the thread is running. -/
def InTurn (S : System σ α) (stage : σ → κ → Stage) (thread : κ → θ) (actions : List α) : Prop :=
  ∀ earlier a,earlier++[a] <+: actions → ∀ k',stage (run S earlier) k'=.idle →
    stage (run S (earlier++[a])) k'≠.idle →
    ∀ k,thread k=thread k' → stage (run S earlier) k≠.running

/-- Calls in turn are in turn in the beginning of the run. -/
theorem InTurn.init {thread : κ → θ} {a : α} (h : InTurn S stage thread (actions++[a])) :
    InTurn S stage thread actions :=
  fun earlier b hpre => h earlier b (hpre.trans (List.prefix_append _ _))

/-- The calls of a system. -/
structure Calls (S : System σ α) (stage : σ → κ → Stage) : Prop where
  /-- No call has started initially. -/
  fresh : ∀ k,stage S.init k=.idle
  /-- A step that starts a call leaves the other calls alone. -/
  alone : ∀ s a s' k k',S.step s a=some s' → stage s k'=.idle → stage s' k'≠.idle → k≠k' →
    stage s' k=stage s k

/-- A call that starts in turn is behind every call of its thread that has
started. -/
theorem Calls.before_of_start (h : Calls S stage) {thread : κ → θ} {a : α}
    (hturn : InTurn S stage thread (actions++[a])) (hthread : thread k=thread k') (hne : k≠k')
    (hk : stage (run S (actions++[a])) k≠.idle) (hidle : stage (run S actions) k'=.idle)
    (hstart : stage (run S (actions++[a])) k'≠.idle) :
    Before S stage k k' (actions++[a]) := by
  have hquiet := hturn actions a List.prefix_rfl k' hidle hstart k hthread
  have hsame : stage (run S (actions++[a])) k=stage (run S actions) k := by
    rcases run_succ S actions a with hskip | hs
    · rw [hskip]
    · exact h.alone _ _ _ k k' hs hidle hstart hne
  refine Sometime.later (.now ⟨?_,hidle⟩) a
  cases hstage : stage (run S actions) k with
  | idle => exact absurd (hsame.trans hstage) hk
  | running => exact absurd hstage hquiet
  | returned => rfl

/-- Two started calls of one thread are ordered. -/
theorem Calls.ordered (h : Calls S stage) {thread : κ → θ} (hturn : InTurn S stage thread actions)
    (hthread : thread k=thread k') (hne : k≠k') (hk : stage (run S actions) k≠.idle)
    (hk' : stage (run S actions) k'≠.idle) :
    Before S stage k k' actions ∨ Before S stage k' k actions := by
  induction actions using List.reverseRecOn with
  | nil => exact absurd (h.fresh k) hk
  | append_singleton rest a ih =>
    by_cases hidle' : stage (run S rest) k'=.idle
    · exact .inl (h.before_of_start hturn hthread hne hk hidle' hk')
    · by_cases hidle : stage (run S rest) k=.idle
      · exact .inr (h.before_of_start hturn hthread.symm hne.symm hk' hidle hk)
      · exact (ih hturn.init hidle hidle').imp (fun hb => hb.later a) (fun hb => hb.later a)

/-- Calls that claim numbers from a counter while they run. -/
structure Numbered (S : System σ α) (stage : σ → κ → Stage) (position : σ → κ → Option ℕ)
    (counter : σ → ℕ) : Prop where
  /-- The numbers are those of a counter. -/
  ledger : ∀ s,Reachable S s → Ledger (position s) (counter s)
  /-- A claimed number is kept. -/
  kept : ∀ s a s' k p,S.step s a=some s' → position s k=some p → position s' k=some p
  /-- A call that has not started has no number. -/
  unclaimed : ∀ s k,stage s k=.idle → position s k=none
  /-- A returned call does not change. -/
  frozen : ∀ s a s' k,S.step s a=some s' → stage s k=.returned →
    stage s' k=.returned ∧ position s' k=position s k

/-- Numbers respect real time. -/
theorem Numbered.increases {position : σ → κ → Option ℕ} {counter : σ → ℕ}
    (h : Numbered S stage position counter) (hb : Before S stage k k' actions) {p p' : ℕ}
    (hp : position (run S actions) k=some p) (hp' : position (run S actions) k'=some p') :
    p<p' := by
  -- From the instant of the order on, any later claim is above the first one.
  obtain ⟨earlier,hpre,hreturned,hidle⟩ := hb
  have hsince : Sometime S (fun s => Reachable S s ∧ stage s k=.returned ∧
      ∀ p p',position s k=some p → position s k'=some p' → p<p') actions := by
    refine ⟨earlier,hpre,run_reachable S earlier,hreturned,?_⟩
    intro p p' _ hclaim
    rw [h.unclaimed _ _ hidle] at hclaim
    cases hclaim
  refine (hsince.stable ?_).2.2 p p' hp hp'
  rintro s a s' ⟨hr,hret,hlt⟩ hs
  obtain ⟨hret',hsame⟩ := h.frozen s a s' k hs hret
  refine ⟨hr.step hs,hret',?_⟩
  intro p p' hk hk'
  rw [hsame] at hk
  cases hold : position s k' with
  | some p'' =>
    rw [h.kept s a s' k' p'' hs hold] at hk'
    cases hk'
    exact hlt p p' hk hold
  | none =>
    have hcounter := ((h.ledger s hr).claims p).mpr ⟨k,hk⟩
    have hnew := (h.ledger s hr).later (h.ledger s' (hr.step hs)) (fun i p => h.kept s a s' i p hs)
      hold hk'
    omega

end Line64.CallOrder
