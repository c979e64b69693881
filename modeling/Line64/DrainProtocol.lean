import Mathlib.Data.List.Basic
import Mathlib.Logic.Function.Basic

/-!
# Leaving a queue that is no longer filled

Takers empty a queue that is filled until a flag is raised. A taker that finds
nothing looks at the flag and leaves if it is raised. Whether everything is
taken depends on the takers that have found nothing and have not yet looked
when the flag is raised: at least one taker has to come back, unless nothing
is left. No program is mentioned here.
-/

namespace Line64.DrainProtocol

open Function

variable {κ β : Type}

/-- A taker in front of the queue, behind a vain attempt and in front of the
flag, or gone. -/
inductive Phase
  | taking
  | checking
  | exited
  deriving DecidableEq, Repr

/-- The flag may be raised: nothing is left, or a taker will come back. -/
def MayClose (queue : List β) (phase : κ → Phase) : Prop := queue=[] ∨ ∃ c,phase c=.taking

/-- The queue will be emptied. -/
structure Drains (queue : List β) (done : Bool) (phase : κ → Phase) : Prop where
  /-- Takers only leave behind the flag. -/
  exited : ∀ c,phase c=.exited → done=true
  /-- Behind the flag, what is left is left to a taker. -/
  left : done=true → MayClose queue phase

variable {queue : List β} {done : Bool} {phase : κ → Phase}

/-- Nothing is queued and nobody has left. -/
theorem drains_nil (h : ∀ c,phase c≠.exited) : Drains ([] : List β) done phase :=
  ⟨fun c hc => absurd hc (h c),fun _ => .inl rfl⟩

/-- The queue is filled in front of the flag. -/
theorem Drains.fill (h : Drains queue done phase) (hopen : done=false) (queue' : List β) :
    Drains queue' done phase := by
  refine ⟨h.exited,?_⟩
  rw [hopen]
  exact nofun

/-- A taker takes and comes back. -/
theorem Drains.take (h : Drains queue done phase) {c : κ} (hc : phase c=.taking)
    (queue' : List β) : Drains queue' done phase :=
  ⟨h.exited,fun _ => .inr ⟨c,hc⟩⟩

/-- The flag is raised. -/
theorem Drains.close (h : MayClose queue phase) : Drains queue true phase :=
  ⟨fun _ _ => rfl,fun _ => h⟩

/-- All takers have left behind the flag. -/
theorem Drains.drained (h : Drains queue done phase) (hdone : done=true)
    (hall : ∀ c,phase c=.exited) : queue=[] := by
  rcases h.left hdone with hempty | ⟨c,hc⟩
  · exact hempty
  · rw [hall c] at hc
    cases hc

variable [DecidableEq κ]

/-- A taker that does not leave. -/
theorem Drains.exited_update (h : Drains queue done phase) (c : κ) {x : Phase} (hx : x≠.exited) :
    ∀ d,update phase c x d=.exited → done=true := by
  intro d hd
  by_cases he : d=c
  · rw [he,update_self] at hd
    exact absurd hd hx
  · rw [update_of_ne he] at hd
    exact h.exited d hd

/-- A taker finds nothing. -/
theorem Drains.miss (h : Drains queue done phase) (hempty : queue=[]) (c : κ) :
    Drains queue done (update phase c .checking) :=
  ⟨h.exited_update c nofun,fun _ => .inl hempty⟩

/-- A taker finds the flag down and comes back. -/
theorem Drains.resume (h : Drains queue done phase) (c : κ) :
    Drains queue done (update phase c .taking) :=
  ⟨h.exited_update c nofun,fun _ => .inr ⟨c,update_self ..⟩⟩

/-- A taker finds the flag raised and leaves. -/
theorem Drains.leave (h : Drains queue done phase) {c : κ} (hc : phase c=.checking)
    (hdone : done=true) : Drains queue done (update phase c .exited) := by
  refine ⟨fun _ _ => hdone,?_⟩
  intro _
  rcases h.left hdone with hempty | ⟨d,hd⟩
  · exact .inl hempty
  · have hne : d≠c := by
      intro he
      rw [he,hc] at hd
      cases hd
    exact .inr ⟨d,by rw [update_of_ne hne]; exact hd⟩

end Line64.DrainProtocol
