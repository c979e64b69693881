import Line64.Timeline

/-!
# Optimistic claim loops on a shared counter

A claim loop loads a counter, inspects something at the loaded position and
tries to claim the position by a compare-exchange. It loads again where it
finds itself behind. The module lists the moves such a loop and the other
users of the counter can make, and derives that the held position grows with
every retry and that retries are paid for by the claims of others. No queue
is mentioned here.
-/

namespace Line64.ClaimLoop

open Transition Timeline

universe u v

/-- Where an operation is in its claim loop. -/
inductive View
  /-- Not in the loop: not started, claimed, or returned. -/
  | outside
  /-- About to load the counter. -/
  | loading
  /-- Holding a loaded position. -/
  | holding (position : ℕ)
  deriving DecidableEq, Repr

/-- One step of the system, seen from one operation: the counter and its view
before, whether it retries, whether somebody else claims, and the counter and
its view after. -/
inductive Move : ℕ → View → Bool → Bool → ℕ → View → Prop
  /-- The loop is not involved; others may claim. -/
  | other (counter : ℕ) (view : View) (claims : Bool) :
      Move counter view false claims (counter+claims.toNat) view
  /-- The operation enters the loop. -/
  | enter (counter : ℕ) : Move counter .outside false false counter .loading
  /-- The counter is loaded. -/
  | load (counter : ℕ) : Move counter .loading false false counter (.holding counter)
  /-- The inspection shows that the position is behind the counter. -/
  | behind {counter position : ℕ} (h : position<counter) :
      Move counter (.holding position) true false counter .loading
  /-- The compare-exchange fails and loads the counter. -/
  | fail {counter position : ℕ} (h : position<counter) :
      Move counter (.holding position) true false counter (.holding counter)
  /-- The compare-exchange succeeds. -/
  | claim (counter : ℕ) : Move counter (.holding counter) false false (counter+1) .outside
  /-- The operation gives up. -/
  | leave (counter position : ℕ) :
      Move counter (.holding position) false false counter .outside

variable {σ : Type u} {α : Type v}

/-- Every step taken from a state of `I` stays in `I` and is a move of the
loop, as long as the action is one of `fair`. -/
def Follows (S : System σ α) (I : σ → Prop) (fair : α → Prop) (counter : σ → ℕ) (view : σ → View)
    (retries claims : σ → α → Bool) : Prop :=
  ∀ s a s',I s → fair a → S.step s a=some s' →
    I s' ∧ Move (counter s) (view s) (retries s a) (claims s a) (counter s') (view s')

variable {S : System σ α} {I : σ → Prop} {fair : α → Prop} {counter : σ → ℕ} {view : σ → View}
  {retries claims : σ → α → Bool}

/-- The counter only grows. -/
theorem Move.counter_le {c c' : ℕ} {v v' : View} {r k : Bool} (h : Move c v r k c' v') : c≤c' := by
  cases h with
  | other => exact Nat.le_add_right _ _
  | claim => exact Nat.le_succ _
  | _ => exact le_rfl

/-- Position up to which the operation has followed the counter. -/
def reached (counter : ℕ) : View → ℕ
  | .holding position => position
  | _ => counter

/-- A held position never passes the counter. -/
theorem Move.reached_le {c c' : ℕ} {v v' : View} {r k : Bool} (h : Move c v r k c' v')
    (hle : reached c v≤c) : reached c' v'≤c' := by
  cases h with
  | other =>
    cases v with
    | holding position => exact Nat.le_add_right_of_le hle
    | _ => exact le_rfl
  | _ => exact le_rfl

/-- Whatever has been passed stays passed. -/
theorem Move.passed {c c' b : ℕ} {v v' : View} {r k : Bool} (h : Move c v r k c' v') (hc : b<c)
    (hv : b<reached c v) : b<c' ∧ b<reached c' v' := by
  have hle := h.counter_le
  refine ⟨by omega,?_⟩
  cases h with
  | other =>
    cases v with
    | holding position => exact hv
    | _ =>
      simp only [reached]
      omega
  | enter => exact hc
  | load => exact hc
  | behind => exact hc
  | fail => exact hc
  | claim =>
    simp only [reached]
    omega
  | leave => exact hc

/-- A retry passes the position it gives up. -/
theorem Move.passed_of_retry {c c' p : ℕ} {v' : View} {k : Bool}
    (h : Move c (.holding p) true k c' v') : p<c' ∧ p<reached c' v' := by
  cases h with
  | behind h => exact ⟨h,h⟩
  | fail h => exact ⟨h,h⟩

/-- Balance of one move: what the retry spends, the claim of another or the
lag behind the counter has paid. -/
theorem Move.balance {c c' : ℕ} {v v' : View} {r k : Bool} (h : Move c v r k c' v')
    (hle : reached c v≤c) : r.toNat+reached c v+c'≤k.toNat+c+reached c' v' := by
  cases h with
  | other =>
    cases v with
    | holding position =>
      simp only [reached,Bool.toNat_false]
      omega
    | _ =>
      simp only [reached,Bool.toNat_false]
      omega
  | enter => exact le_rfl
  | load => exact le_rfl
  | behind h =>
    simp only [reached,Bool.toNat_true,Bool.toNat_false]
    omega
  | fail h =>
    simp only [reached,Bool.toNat_true,Bool.toNat_false]
    omega
  | claim =>
    simp only [reached,Bool.toNat_false]
    omega
  | leave =>
    simp only [reached] at hle ⊢
    omega

/-- Along a run, what has been passed stays passed. -/
theorem Follows.passed (h : Follows S I fair counter view retries claims) {s : σ} {b : ℕ}
    (hs : I s) (hc : b<counter s) (hv : b<reached (counter s) (view s)) {actions : List α}
    (hfair : ∀ a ∈ actions,fair a) :
    b<reached (counter (runFrom S s actions)) (view (runFrom S s actions)) := by
  induction actions generalizing s with
  | nil => exact hv
  | cons a rest ih =>
    have hrest : ∀ b ∈ rest,fair b := fun b hb => hfair b (List.mem_cons_of_mem _ hb)
    rw [runFrom]
    cases hstep : S.step s a with
    | none => exact ih hs hc hv hrest
    | some s' =>
      obtain ⟨hi,hmove⟩ := h s a s' hs (hfair a List.mem_cons_self) hstep
      have hnext := hmove.passed hc hv
      exact ih hi hnext.1 hnext.2 hrest

/-- Along a run, the retries are at most the claims of others and the initial
lag behind the counter. -/
theorem Follows.retries_le (h : Follows S I fair counter view retries claims) {s : σ} (hs : I s)
    (hle : reached (counter s) (view s)≤counter s) {actions : List α}
    (hfair : ∀ a ∈ actions,fair a) :
    countFrom S retries s actions+reached (counter s) (view s)≤
      countFrom S claims s actions+counter s := by
  induction actions generalizing s with
  | nil =>
    simp only [countFrom]
    omega
  | cons a rest ih =>
    have hrest : ∀ b ∈ rest,fair b := fun b hb => hfair b (List.mem_cons_of_mem _ hb)
    simp only [countFrom]
    cases hstep : S.step s a with
    | none => exact ih hs hle hrest
    | some s' =>
      obtain ⟨hi,hmove⟩ := h s a s' hs (hfair a List.mem_cons_self) hstep
      have hafter := ih hi (hmove.reached_le hle) hrest
      have hbalance := hmove.balance hle
      dsimp only
      omega

/-- Counted from a load of the counter, the retries are at most the claims of
others. -/
theorem Follows.retries_le_of_load (h : Follows S I fair counter view retries claims) {s : σ}
    (hs : I s) (hview : view s=.holding (counter s)) {actions : List α}
    (hfair : ∀ a ∈ actions,fair a) :
    countFrom S retries s actions≤countFrom S claims s actions := by
  have hle := h.retries_le hs (by rw [hview]; exact le_rfl) hfair
  rw [hview] at hle
  exact Nat.le_of_add_le_add_right hle

/-- Every position held after a retry is larger than the one given up. -/
theorem Follows.increases (h : Follows S I fair counter view retries claims) {s s' : σ} {a : α}
    {position position' : ℕ} (hs : I s) (hview : view s=.holding position)
    (hretry : retries s a=true) (ha : fair a) (hstep : S.step s a=some s') {actions : List α}
    (hfair : ∀ a ∈ actions,fair a) (hlater : view (runFrom S s' actions)=.holding position') :
    position<position' := by
  obtain ⟨hi,hmove⟩ := h s a s' hs ha hstep
  rw [hview,hretry] at hmove
  have hpassed := hmove.passed_of_retry
  have hend := h.passed hi hpassed.1 hpassed.2 hfair
  rwa [hlater] at hend

end Line64.ClaimLoop
