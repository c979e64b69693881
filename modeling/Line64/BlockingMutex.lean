import Line64.BlockingModel

/-!
# The mutex of the blocking queue

The owner recorded by the mutex is the thread inside it, and there is at most
one.
-/

namespace Line64.BlockingMutex

open Function Result Transition BlockingModel

variable {τ α : Type}

/-- The thread has locked the mutex. -/
def holds : Thread α → Bool
  | .inside _ _ => true
  | .leaving todo _ => Exit.unlock ∈ todo
  | _ => false

/-- The remaining statements have no repetition. -/
def Tidy : Thread α → Prop
  | .leaving todo _ => todo.Nodup
  | _ => True

/-- The owner is the only thread inside. -/
structure Locked (s : State τ α) : Prop where
  /-- Exactly the owner has locked the mutex. -/
  owner : ∀ t,holds (s.thread t)=true ↔ s.owner=some t
  /-- Remaining statements are tidy. -/
  tidy : ∀ t,Tidy (s.thread t)

/-- A critical section ends with one unlocking. -/
theorem critical_todo {q : Capacity} {queue : List α} {closed : Bool} {op : Op α} {ran : Ran α}
    (h : critical q queue closed op=some ran) : Exit.unlock ∈ ran.todo ∧ ran.todo.Nodup := by
  cases op with
  | close =>
    cases h
    exact ⟨by simp,by simp⟩
  | _ =>
    simp only [critical] at h
    repeat' split at h
    all_goals cases h
    all_goals exact ⟨by simp,by simp⟩

/-- Threads change without locking or unlocking. -/
theorem Locked.frame {s s' : State τ α} (h : Locked s) (howner : s'.owner=s.owner)
    (hholds : ∀ u,holds (s'.thread u)=holds (s.thread u)) (htidy : ∀ u,Tidy (s'.thread u)) :
    Locked s' := by
  refine ⟨?_,htidy⟩
  intro t
  rw [hholds,howner]
  exact h.owner t

/-- A waiter that is woken is still outside the mutex. -/
theorem wake_of_blocked {x : Thread α} {c : Condition} (h : x.blocked c=true) :
    holds x.wake=holds x ∧ Tidy x.wake := by
  cases x with
  | waiting op => exact ⟨rfl,trivial⟩
  | _ => cases h

/-- A statement other than unlocking is executed behind a body. -/
theorem holds_exit {exit : Exit} (todo : List Exit) (answer : Answer α) (h : exit≠.unlock) :
    holds (.leaving todo answer)=holds (.leaving (exit::todo) answer) := by
  simp only [holds,List.mem_cons,Ne.symm h,false_or]

/-- All waiters of a condition variable are woken. -/
theorem Locked.wakeAll {s : State τ α} (h : Locked s) (c : Condition) :
    Locked {s with thread := fun u =>
      if (s.thread u).blocked c then (s.thread u).wake else s.thread u} := by
  have hwoken : ∀ u,holds (if (s.thread u).blocked c then (s.thread u).wake else s.thread u)=
      holds (s.thread u) ∧
      Tidy (if (s.thread u).blocked c then (s.thread u).wake else s.thread u) := by
    intro u
    split
    · rename_i hu
      exact wake_of_blocked hu
    · exact ⟨rfl,h.tidy u⟩
  exact h.frame rfl (fun u => (hwoken u).1) (fun u => (hwoken u).2)

section Step

variable [DecidableEq τ] {q : Capacity} {s s' : State τ α} {t : τ}

/-- Tidiness after the change of one thread. -/
theorem Locked.tidy_update (h : Locked s) {x : Thread α} (hx : Tidy x) :
    ∀ u,Tidy (update s.thread t x u) := by
  intro u
  by_cases hu : u=t
  · rw [hu,update_self]
    exact hx
  · rw [update_of_ne hu]
    exact h.tidy u

/-- One thread changes without locking or unlocking. -/
theorem Locked.set (h : Locked s) {x : Thread α} (hthread : s'.thread=update s.thread t x)
    (howner : s'.owner=s.owner) (hholds : holds x=holds (s.thread t)) (hx : Tidy x) :
    Locked s' := by
  refine h.frame howner ?_ ?_
  · intro u
    rw [hthread]
    by_cases hu : u=t
    · rw [hu,update_self,hholds]
    · rw [update_of_ne hu]
  · rw [hthread]
    exact h.tidy_update hx

/-- A thread locks the free mutex. -/
theorem Locked.acquire (h : Locked s) {x : Thread α} (hfree : s.owner=none)
    (hthread : s'.thread=update s.thread t x) (howner : s'.owner=some t) (hholds : holds x=true)
    (hx : Tidy x) : Locked s' := by
  refine ⟨?_,?_⟩
  · intro u
    rw [hthread,howner]
    by_cases hu : u=t
    · rw [hu,update_self]
      exact ⟨fun _ => rfl,fun _ => hholds⟩
    · have hnone := h.owner u
      rw [hfree] at hnone
      rw [update_of_ne hu]
      refine ⟨fun hin => ?_,fun he => absurd (Option.some.inj he).symm hu⟩
      cases hnone.mp hin
  · rw [hthread]
    exact h.tidy_update hx

/-- The owner unlocks the mutex. -/
theorem Locked.release (h : Locked s) {x : Thread α} (hin : holds (s.thread t)=true)
    (hthread : s'.thread=update s.thread t x) (howner : s'.owner=none) (hholds : holds x=false)
    (hx : Tidy x) : Locked s' := by
  refine ⟨?_,?_⟩
  · intro u
    rw [hthread,howner]
    by_cases hu : u=t
    · rw [hu,update_self,hholds]
      exact ⟨nofun,nofun⟩
    · rw [update_of_ne hu]
      refine ⟨?_,nofun⟩
      intro hother
      have hmine := (h.owner t).mp hin
      rw [(h.owner u).mp hother] at hmine
      exact absurd (Option.some.inj hmine) hu
  · rw [hthread]
    exact h.tidy_update hx

variable [Fintype τ]

/-- Every step of every thread keeps the mutex exclusive. -/
theorem Locked.step (h : Locked s) {a : Action τ α}
    (hs : BlockingModel.step q s a=some s') : Locked s' := by
  obtain ⟨t,heffect⟩ := effect_of_step hs
  have htidy := h.tidy t
  cases heffect with
  | call op ht => exact h.set rfl rfl (by rw [ht]; rfl) trivial
  | lock op was ht hfree => exact h.acquire hfree rfl rfl rfl trivial
  | block op was ht hblocks => exact h.release (by rw [ht]; rfl) rfl rfl rfl trivial
  | body op was ran ht hran =>
    have htodo := critical_todo hran
    refine h.set rfl rfl ?_ htodo.2
    rw [ht]
    exact decide_eq_true htodo.1
  | unlock todo answer ht =>
    rw [ht] at htidy
    have hnodup := List.nodup_cons.mp htidy
    exact h.release (by rw [ht]; simp [holds]) rfl rfl (decide_eq_false hnodup.1) hnodup.2
  | notifyNone c todo answer ht hnone =>
    rw [ht] at htidy
    refine h.set rfl rfl ?_ (List.nodup_cons.mp htidy).2
    rw [ht]
    exact holds_exit todo answer nofun
  | notifyOne c todo answer waiter ht hwaiter =>
    rw [ht] at htidy
    have hne : t≠waiter := by
      intro he
      rw [← he,ht] at hwaiter
      cases hwaiter
    have hwake := wake_of_blocked hwaiter
    have hwoken : Locked (s.setThread waiter (s.thread waiter).wake) :=
      h.set rfl rfl hwake.1 hwake.2
    have hkept : (s.setThread waiter (s.thread waiter).wake).thread t=
        .leaving (.notifyOne c::todo) answer := (update_of_ne hne _ _).trans ht
    refine hwoken.set rfl rfl ?_ (List.nodup_cons.mp htidy).2
    rw [hkept]
    exact holds_exit todo answer nofun
  | notifyAll c todo answer ht =>
    rw [ht] at htidy
    refine (h.wakeAll c).set rfl rfl ?_ (List.nodup_cons.mp htidy).2
    simp only [ht,Thread.blocked,Bool.false_eq_true,if_false]
    exact holds_exit todo answer nofun
  | finish answer ht => exact h.set rfl rfl (by rw [ht]; rfl) trivial
  | wake op ht => exact h.set rfl rfl (by rw [ht]; rfl) trivial

/-- The mutex is exclusive in every reachable state. -/
theorem locked_of_reachable (h : Reachable (system q τ α) s) : Locked s := by
  refine Reachable.invariant (I:=Locked) ?_ ?_ h
  · exact ⟨fun _ => ⟨nofun,nofun⟩,fun _ => trivial⟩
  intro s a s' _ hi hs
  exact hi.step hs

/-- At most one thread is inside the mutex. -/
theorem holds_unique (h : Reachable (system q τ α) s) {u : τ} (ht : holds (s.thread t)=true)
    (hu : holds (s.thread u)=true) : t=u := by
  have hlocked := locked_of_reachable h
  have hmine := (hlocked.owner t).mp ht
  rw [(hlocked.owner u).mp hu] at hmine
  exact (Option.some.inj hmine).symm

end Step

end Line64.BlockingMutex
