import Line64.BlockingModel
import Line64.Census

/-!
# No lost wakeup

A waiter of the blocking queue is never left behind. While the queue is open,
the items in it are covered by threads on their way to the waiters of
`not_empty_`: woken waiters that have not yet looked again, and operations
that have not yet notified. The free places are covered in the same way for
`not_full_`. After `close`, its notifications are still to come for as long as
a waiter is blocked.
-/

namespace Line64.BlockingWakeup

open Function Result Transition Census BlockingModel

variable {τ α : Type}

/-- Woken from a condition variable, predicate not yet evaluated again. -/
def woken (c : Condition) : Thread α → Bool
  | .locking op woken => woken && op.condition=some c
  | .inside op woken => woken && op.condition=some c
  | _ => false

/-- The state is changed and a notification is still to be executed. -/
def notifies (c : Condition) : Thread α → Bool
  | .leaving todo _ => Exit.notifyOne c ∈ todo || Exit.notifyAll c ∈ todo
  | _ => false

/-- A notification of all waiters is still to be executed. -/
def broadcasts (c : Condition) : Thread α → Bool
  | .leaving todo _ => Exit.notifyAll c ∈ todo
  | _ => false

/-- On its way to the waiters of a condition variable. -/
def inFlight (c : Condition) (thread : Thread α) : Bool := woken c thread || notifies c thread

/-- The wait predicate of a condition variable. -/
def Ready (q : Capacity) (s : State τ α) : Condition → Prop
  | .notEmpty => s.closed=true ∨ s.queue≠[]
  | .notFull => s.closed=true ∨ s.queue.length<q.capacity

/-- Waiters that an open queue can serve. -/
def tokens (q : Capacity) (queue : List α) : Condition → ℕ
  | .notEmpty => queue.length
  | .notFull => q.capacity-queue.length

/-- Waiters of a condition variable are covered. -/
structure Covered (q : Capacity) (s : State τ α) (c : Condition) : Prop where
  /-- While the queue is open, each token has a thread in flight. -/
  opened : s.closed=false → (∃ t,(s.thread t).blocked c=true) →
    AtLeast (fun u => inFlight c (s.thread u)=true) (tokens q s.queue c)
  /-- After the closure, all waiters are still to be notified. -/
  closed : s.closed=true → (∃ t,(s.thread t).blocked c=true) →
    ∃ u,broadcasts c (s.thread u)=true

/-- A change of a thread that cannot uncover a waiter. -/
structure Keeps (c : Condition) (x x' : Thread α) : Prop where
  /-- The thread does not begin to block. -/
  blocked : x'.blocked c=true → x.blocked c=true
  /-- The thread stays in flight. -/
  inFlight : inFlight c x=true → inFlight c x'=true
  /-- The thread keeps its notification of all waiters. -/
  broadcasts : broadcasts c x=true → broadcasts c x'=true

/-- No change at all. -/
theorem Keeps.refl (c : Condition) (x : Thread α) : Keeps c x x :=
  ⟨fun h => h,fun h => h,fun h => h⟩

/-- Threads that are neither in flight nor blocked can be replaced by each
other. -/
theorem Keeps.of_quiet {c : Condition} {x x' : Thread α} (hflight : BlockingWakeup.inFlight c x=false)
    (hbroadcast : BlockingWakeup.broadcasts c x=false) (hblocked : x'.blocked c=false) :
    Keeps c x x' := by
  refine ⟨?_,?_,?_⟩
  · rw [hblocked]
    exact nofun
  · rw [hflight]
    exact nofun
  · rw [hbroadcast]
    exact nofun

/-- A statement that notifies another condition variable, or none, is
executed. -/
theorem Keeps.exit {c : Condition} {exit : Exit} (todo : List Exit) (answer : Answer α)
    (hone : exit≠.notifyOne c) (hall : exit≠.notifyAll c) :
    Keeps c (.leaving (exit::todo) answer) (.leaving todo answer) := by
  refine ⟨nofun,?_,?_⟩
  · simp only [BlockingWakeup.inFlight,woken,notifies,List.mem_cons,Ne.symm hone,Ne.symm hall,false_or]
    exact fun h => h
  · simp only [BlockingWakeup.broadcasts,List.mem_cons,Ne.symm hall,false_or]
    exact fun h => h

/-- Waking from another condition variable, or from this one. -/
theorem Keeps.wake (c : Condition) (op : Op α) : Keeps c (.waiting op) (.locking op true) :=
  ⟨nofun,nofun,nofun⟩

/-- After the closure only new waiters and executed notifications matter. -/
theorem Covered.broadcast_kept {q : Capacity} {s s' : State τ α} {c : Condition}
    (h : Covered q s c) (hclosed : s'.closed=s.closed)
    (hblocked : ∀ u,(s'.thread u).blocked c=true → (s.thread u).blocked c=true)
    (hkept : ∀ u,broadcasts c (s.thread u)=true → broadcasts c (s'.thread u)=true) :
    s'.closed=true → (∃ t,(s'.thread t).blocked c=true) →
      ∃ u,broadcasts c (s'.thread u)=true := by
  rintro hshut ⟨t,ht⟩
  rw [hclosed] at hshut
  obtain ⟨u,hu⟩ := h.closed hshut ⟨t,hblocked t ht⟩
  exact ⟨u,hkept u hu⟩

/-- Steps that keep every thread keep the cover. -/
theorem Covered.frame {q : Capacity} {s s' : State τ α} {c : Condition} (h : Covered q s c)
    (hqueue : s'.queue=s.queue) (hclosed : s'.closed=s.closed)
    (hkeeps : ∀ u,Keeps c (s.thread u) (s'.thread u)) : Covered q s' c := by
  refine ⟨?_,h.broadcast_kept hclosed (fun u => (hkeeps u).blocked) fun u => (hkeeps u).broadcasts⟩
  rintro hopen ⟨t,ht⟩
  rw [hclosed] at hopen
  have hold := h.opened hopen ⟨t,(hkeeps t).blocked ht⟩
  rw [hqueue]
  exact hold.mono (fun u => (hkeeps u).inFlight) le_rfl

/-- Without a waiter there is nothing to cover. -/
theorem covered_of_unblocked {q : Capacity} {s : State τ α} {c : Condition}
    (h : ∀ u,(s.thread u).blocked c=false) : Covered q s c := by
  have hnone : ¬∃ t,(s.thread t).blocked c=true := by
    rintro ⟨t,ht⟩
    rw [h t] at ht
    cases ht
  exact ⟨fun _ hsome => absurd hsome hnone,fun _ hsome => absurd hsome hnone⟩

/-- The wait predicate is what the code evaluates. -/
theorem blocks_iff {q : Capacity} {s : State τ α} {op : Op α} {c : Condition}
    (h : op.condition=some c) : critical q s.queue s.closed op=none ↔ ¬Ready q s c := by
  cases op with
  | push item =>
    cases h
    simp only [critical,Ready]
    split
    · split <;> simp_all
    · simp_all
  | pop =>
    cases h
    simp only [critical,Ready]
    split
    · split <;> simp_all
    · simp_all
  | _ => cases h

/-- Only `push` and `pop` block. -/
theorem condition_of_blocks {q : Capacity} {queue : List α} {closed : Bool} {op : Op α}
    (h : critical q queue closed op=none) : ∃ c,op.condition=some c := by
  cases op with
  | push item => exact ⟨.notFull,rfl⟩
  | pop => exact ⟨.notEmpty,rfl⟩
  | tryPush item =>
    simp only [critical] at h
    split at h
    · cases h
    · split at h <;> cases h
  | tryPop =>
    simp only [critical] at h
    split at h <;> cases h
  | close => cases h

/-- A thread blocks only on an open queue without a token for it. -/
theorem tokens_of_not_ready {q : Capacity} {s : State τ α} {c : Condition} (h : ¬Ready q s c) :
    s.closed=false ∧ tokens q s.queue c=0 := by
  cases c with
  | notEmpty =>
    simp only [Ready,not_or,Bool.not_eq_true,ne_eq,not_not] at h
    exact ⟨h.1,List.length_eq_zero_iff.mpr h.2⟩
  | notFull =>
    simp only [Ready,not_or,Bool.not_eq_true] at h
    exact ⟨h.1,Nat.sub_eq_zero_of_le (Nat.not_lt.mp h.2)⟩

/-- An item is added: one token more for `not_empty_`, with a notification,
and one less for `not_full_`, which the thread may have been woken for. -/
theorem balance_of_add {q : Capacity} {queue : List α} {item : α} {op : Op α} {todo : List Exit}
    (answer : Answer α) (was : Bool) (hop : op.condition≠some .notEmpty)
    (hroom : op.condition=some .notFull → queue.length<q.capacity)
    (htodo : Exit.notifyOne .notEmpty ∈ todo) (c : Condition) :
    tokens q (queue++[item]) c+(inFlight c (.inside op was)).toNat≤
      tokens q queue c+(inFlight c (.leaving todo answer)).toNat := by
  cases c with
  | notEmpty =>
    have hbefore : inFlight .notEmpty (.inside op was)=false := by
      simp [inFlight,woken,notifies,hop]
    have hafter : inFlight .notEmpty (.leaving todo answer)=true := by
      simp [inFlight,woken,notifies,htodo]
    rw [hbefore,hafter]
    simp [tokens]
  | notFull =>
    have hless : tokens q (queue++[item]) .notFull=tokens q queue .notFull-1 := by
      simp only [tokens,List.length_append,List.length_singleton]
      omega
    cases hbefore : inFlight .notFull (.inside op was) with
    | false =>
      simp only [hless,Bool.toNat_false]
      omega
    | true =>
      have hboth : was=true ∧ op.condition=some .notFull := by
        simpa [inFlight,woken,notifies] using hbefore
      have hpos : 0<tokens q queue .notFull := Nat.sub_pos_of_lt (hroom hboth.2)
      simp only [hless,Bool.toNat_true]
      omega

/-- An item is removed: one token more for `not_full_`, with a notification,
and one less for `not_empty_`, which the thread may have been woken for. -/
theorem balance_of_remove {q : Capacity} {rest : List α} {item : α} {op : Op α} {todo : List Exit}
    (answer : Answer α) (was : Bool) (hop : op.condition≠some .notFull)
    (htodo : Exit.notifyOne .notFull ∈ todo) (c : Condition) :
    tokens q rest c+(inFlight c (.inside op was)).toNat≤
      tokens q (item::rest) c+(inFlight c (.leaving todo answer)).toNat := by
  cases c with
  | notEmpty =>
    have hbefore : (inFlight .notEmpty (.inside op was)).toNat≤1 := Bool.toNat_le _
    simp only [tokens,List.length_cons]
    omega
  | notFull =>
    have hbefore : inFlight .notFull (.inside op was)=false := by
      simp [inFlight,woken,notifies,hop]
    have hafter : inFlight .notFull (.leaving todo answer)=true := by
      simp [inFlight,woken,notifies,htodo]
    rw [hbefore,hafter]
    simp only [tokens,List.length_cons,Bool.toNat_false,Bool.toNat_true]
    omega

/-- Nothing is added or removed by a thread that was not woken. -/
theorem balance_of_same {q : Capacity} {queue : List α} {op : Op α} {todo : List Exit}
    (answer : Answer α) (was : Bool) (hop : op.condition=none) (c : Condition) :
    tokens q queue c+(inFlight c (.inside op was)).toNat≤
      tokens q queue c+(inFlight c (.leaving todo answer)).toNat := by
  have hbefore : inFlight c (.inside op was)=false := by
    simp [inFlight,woken,notifies,hop]
  simp only [hbefore,Bool.toNat_false]
  omega

/-- A critical section that leaves the queue open found it open, and keeps
the balance of tokens and threads in flight. -/
theorem critical_balance {q : Capacity} {queue : List α} {closed : Bool} {op : Op α} {ran : Ran α}
    (h : critical q queue closed op=some ran) (hopen : ran.closed=false) (was : Bool)
    (c : Condition) :
    closed=false ∧ tokens q ran.queue c+(inFlight c (.inside op was)).toNat≤
      tokens q queue c+(inFlight c (.leaving ran.todo ran.answer)).toNat := by
  cases op with
  | push item =>
    simp only [critical] at h
    split at h
    · rename_i hready
      split at h <;> cases h
      · simp_all
      · rename_i hnot
        have hroom : queue.length<q.capacity := hready.resolve_left hnot
        exact ⟨hopen,balance_of_add _ was (by simp [Op.condition]) (fun _ => hroom) (by simp) c⟩
    · cases h
  | tryPush item =>
    simp only [critical] at h
    split at h
    · cases h
      simp_all
    · split at h <;> cases h
      · exact ⟨hopen,balance_of_same _ was rfl c⟩
      · exact ⟨hopen,balance_of_add _ was (by simp [Op.condition])
          (by simp [Op.condition]) (by simp) c⟩
  | pop =>
    simp only [critical] at h
    split at h
    · rename_i hready
      split at h <;> cases h
      · simp_all
      · exact ⟨hopen,balance_of_remove _ was (by simp [Op.condition]) (by simp) c⟩
    · cases h
  | tryPop =>
    simp only [critical] at h
    split at h <;> cases h
    · exact ⟨hopen,balance_of_same _ was rfl c⟩
    · exact ⟨hopen,balance_of_remove _ was (by simp [Op.condition]) (by simp) c⟩
  | close =>
    cases h
    cases hopen

/-- A critical section that leaves the queue closed found it closed, or will
notify all waiters. -/
theorem critical_closed {q : Capacity} {queue : List α} {closed : Bool} {op : Op α} {ran : Ran α}
    (h : critical q queue closed op=some ran) (hshut : ran.closed=true) (c : Condition) :
    closed=true ∨ broadcasts c (.leaving ran.todo ran.answer)=true := by
  cases op with
  | close =>
    cases h
    cases c <;> exact .inr rfl
  | _ =>
    left
    simp only [critical] at h
    repeat' split at h
    all_goals cases h
    all_goals exact hshut

section Step

variable [DecidableEq τ] {q : Capacity} {s s' : State τ α} {t : τ} {c : Condition}

/-- One thread changes and keeps the cover. -/
theorem Covered.set (h : Covered q s c) {x : Thread α} (hthread : s'.thread=update s.thread t x)
    (hqueue : s'.queue=s.queue) (hclosed : s'.closed=s.closed) (hkeeps : Keeps c (s.thread t) x) :
    Covered q s' c := by
  refine h.frame hqueue hclosed ?_
  intro u
  rw [hthread]
  by_cases hu : u=t
  · rw [hu,update_self]
    exact hkeeps
  · rw [update_of_ne hu]
    exact .refl c _

/-- A thread blocks. -/
theorem Covered.block (h : Covered q s c) {op : Op α} {was : Bool}
    (ht : s.thread t=.inside op was) (hblocks : critical q s.queue s.closed op=none)
    (hthread : s'.thread=update s.thread t (.waiting op)) (hqueue : s'.queue=s.queue)
    (hclosed : s'.closed=s.closed) : Covered q s' c := by
  obtain ⟨c',hcondition⟩ := condition_of_blocks hblocks
  obtain ⟨hopen,htokens⟩ := tokens_of_not_ready ((blocks_iff hcondition).mp hblocks)
  by_cases hc : c'=c
  · subst hc
    refine ⟨?_,?_⟩
    · intro _ _
      rw [hqueue,htokens]
      exact atLeast_zero _
    · rw [hclosed,hopen]
      exact nofun
  · refine h.set hthread hqueue hclosed ?_
    have hother : op.condition≠some c := by
      rw [hcondition]
      exact fun he => hc (Option.some.inj he)
    rw [ht]
    refine .of_quiet ?_ rfl ?_
    · simp [inFlight,woken,notifies,hother]
    · simp [Thread.blocked,hother]

/-- A critical section runs. -/
theorem Covered.ran (h : Covered q s c) {op : Op α} {was : Bool} {ran : Ran α}
    (ht : s.thread t=.inside op was) (hran : critical q s.queue s.closed op=some ran)
    (hthread : s'.thread=update s.thread t (.leaving ran.todo ran.answer))
    (hqueue : s'.queue=ran.queue) (hclosed : s'.closed=ran.closed) : Covered q s' c := by
  have hwaiter : (∃ u,(s'.thread u).blocked c=true) → ∃ u,(s.thread u).blocked c=true := by
    rintro ⟨u,hu⟩
    rw [hthread] at hu
    by_cases hne : u=t
    · rw [hne,update_self] at hu
      cases hu
    · rw [update_of_ne hne] at hu
      exact ⟨u,hu⟩
  refine ⟨?_,?_⟩
  · intro hopen hblocked
    rw [hclosed] at hopen
    have hbalance := critical_balance hran hopen was c
    have hold := h.opened hbalance.1 (hwaiter hblocked)
    rw [hthread,hqueue]
    refine hold.update t _ ?_
    rw [ht]
    exact hbalance.2
  · intro hshut hblocked
    rw [hclosed] at hshut
    rw [hthread]
    rcases critical_closed hran hshut c with hbefore | hall
    · obtain ⟨u,hu⟩ := h.closed hbefore (hwaiter hblocked)
      have hne : u≠t := by
        intro he
        rw [he,ht] at hu
        cases hu
      exact ⟨u,by rw [update_of_ne hne]; exact hu⟩
    · exact ⟨t,by rw [update_self]; exact hall⟩

/-- A blocked thread waits for its condition variable. -/
theorem waiting_of_blocked {x : Thread α} (h : x.blocked c=true) :
    ∃ op : Op α,x=.waiting op ∧ op.condition=some c := by
  cases x with
  | waiting op => exact ⟨op,rfl,of_decide_eq_true h⟩
  | _ => cases h

/-- A single notification is executed while one more thread than needed is in
flight. -/
theorem Covered.spend (h : Covered q s c) {todo : List Exit} {answer : Answer α}
    (ht : s.thread t=.leaving (.notifyOne c::todo) answer)
    (hspare : s.closed=false →
      AtLeast (fun u => inFlight c (s.thread u)=true) (tokens q s.queue c+1))
    (hthread : s'.thread=update s.thread t (.leaving todo answer)) (hqueue : s'.queue=s.queue)
    (hclosed : s'.closed=s.closed) : Covered q s' c := by
  refine ⟨?_,h.broadcast_kept hclosed ?_ ?_⟩
  · intro hopen _
    rw [hclosed] at hopen
    have hlast := Bool.toNat_le (inFlight c (s.thread t))
    rw [hthread,hqueue]
    exact (hspare hopen).update t _ (by omega)
  · intro u hu
    rw [hthread] at hu
    by_cases hut : u=t
    · rw [hut,update_self] at hu
      cases hu
    · rwa [update_of_ne hut] at hu
  · intro u hu
    rw [hthread]
    by_cases hut : u=t
    · rw [hut,ht] at hu
      rw [hut,update_self]
      simpa [broadcasts] using hu
    · rwa [update_of_ne hut]

/-- A single notification wakes a waiter: the thread in flight hands over to
the waiter. -/
theorem Covered.notify (h : Covered q s c) {c' : Condition} {todo : List Exit} {answer : Answer α}
    {waiter : τ} (ht : s.thread t=.leaving (.notifyOne c'::todo) answer)
    (hwaiter : (s.thread waiter).blocked c'=true)
    (hthread : s'.thread=
      update (update s.thread waiter (s.thread waiter).wake) t (.leaving todo answer))
    (hqueue : s'.queue=s.queue) (hclosed : s'.closed=s.closed) : Covered q s' c := by
  obtain ⟨op,hop,hcondition⟩ := waiting_of_blocked hwaiter
  have hne : t≠waiter := by
    intro he
    rw [← he,ht] at hop
    cases hop
  have hwoken : Covered q (s.setThread waiter (.locking op true)) c := by
    refine h.set rfl rfl rfl ?_
    rw [hop]
    exact .wake c op
  have hkept : (s.setThread waiter (.locking op true)).thread t=
      .leaving (.notifyOne c'::todo) answer :=
    (update_of_ne hne _ _).trans ht
  rw [hop] at hthread
  by_cases hc : c'=c
  · subst hc
    refine hwoken.spend hkept ?_ hthread hqueue hclosed
    intro hopen
    have hold := h.opened hopen ⟨waiter,hwaiter⟩
    have hbefore : inFlight c' (s.thread waiter)=false := by
      rw [hop]
      rfl
    have hafter : inFlight c' (Thread.locking op true)=true := by
      simp [inFlight,woken,hcondition]
    exact hold.update waiter (.locking op true) (by rw [hbefore,hafter]; exact le_rfl)
  · refine hwoken.set hthread hqueue hclosed ?_
    rw [hkept]
    exact .exit todo answer (fun he => hc (Exit.notifyOne.inj he)) nofun

/-- All waiters of a condition variable are woken. -/
theorem Covered.notifyAll (h : Covered q s c) {c' : Condition} {todo : List Exit}
    {answer : Answer α} (ht : s.thread t=.leaving (.notifyAll c'::todo) answer)
    (hthread : s'.thread=update
      (fun u => if (s.thread u).blocked c' then (s.thread u).wake else s.thread u) t
      (.leaving todo answer))
    (hqueue : s'.queue=s.queue) (hclosed : s'.closed=s.closed) : Covered q s' c := by
  have hwake : ∀ u,(s.thread u).blocked c'=true → ∃ op,s.thread u=.waiting op ∧
      (s.thread u).wake=.locking op true := by
    intro u hu
    obtain ⟨op,hop,-⟩ := waiting_of_blocked hu
    exact ⟨op,hop,by rw [hop]; rfl⟩
  by_cases hc : c'=c
  · subst hc
    refine covered_of_unblocked ?_
    intro u
    rw [hthread]
    by_cases hut : u=t
    · rw [hut,update_self]
      rfl
    · rw [update_of_ne hut]
      cases hu : (s.thread u).blocked c' with
      | true =>
        obtain ⟨op,-,hop⟩ := hwake u hu
        rw [if_pos rfl,hop]
        rfl
      | false =>
        rw [if_neg nofun]
        exact hu
  · refine h.frame hqueue hclosed ?_
    intro u
    rw [hthread]
    by_cases hut : u=t
    · rw [hut,ht,update_self]
      exact .exit todo answer nofun (fun he => hc (Exit.notifyAll.inj he))
    · rw [update_of_ne hut]
      cases hu : (s.thread u).blocked c' with
      | true =>
        obtain ⟨op,hwaiting,hop⟩ := hwake u hu
        rw [if_pos rfl,hop,hwaiting]
        exact .wake c op
      | false =>
        rw [if_neg nofun]
        exact .refl c _

/-- A single notification without a waiter is not needed. -/
theorem Covered.notifyNone (h : Covered q s c) {c' : Condition} {todo : List Exit}
    {answer : Answer α} (ht : s.thread t=.leaving (.notifyOne c'::todo) answer)
    (hnone : ∀ u,(s.thread u).blocked c'=false)
    (hthread : s'.thread=update s.thread t (.leaving todo answer)) (hqueue : s'.queue=s.queue)
    (hclosed : s'.closed=s.closed) : Covered q s' c := by
  by_cases hc : c'=c
  · subst hc
    refine covered_of_unblocked ?_
    intro u
    rw [hthread]
    by_cases hut : u=t
    · rw [hut,update_self]
      rfl
    · rw [update_of_ne hut]
      exact hnone u
  · refine h.set hthread hqueue hclosed ?_
    rw [ht]
    exact .exit todo answer (fun he => hc (Exit.notifyOne.inj he)) nofun

variable [Fintype τ]

/-- Every step of every thread keeps the cover. -/
theorem Covered.step (h : Covered q s c) {a : Action τ α}
    (hs : BlockingModel.step q s a=some s') : Covered q s' c := by
  obtain ⟨t,heffect⟩ := effect_of_step hs
  cases heffect with
  | call op ht =>
    refine h.set rfl rfl rfl ?_
    rw [ht]
    exact .of_quiet rfl rfl rfl
  | lock op was ht hfree =>
    refine h.set rfl rfl rfl ?_
    rw [ht]
    exact ⟨nofun,fun hflight => hflight,nofun⟩
  | block op was ht hblocks => exact h.block ht hblocks rfl rfl rfl
  | body op was ran ht hran => exact h.ran ht hran rfl rfl rfl
  | unlock todo answer ht =>
    refine h.set rfl rfl rfl ?_
    rw [ht]
    exact .exit todo answer nofun nofun
  | notifyNone c' todo answer ht hnone => exact h.notifyNone ht hnone rfl rfl rfl
  | notifyOne c' todo answer waiter ht hwaiter => exact h.notify ht hwaiter rfl rfl rfl
  | notifyAll c' todo answer ht => exact h.notifyAll ht rfl rfl rfl
  | finish answer ht =>
    refine h.set rfl rfl rfl ?_
    rw [ht]
    exact .of_quiet rfl rfl rfl
  | wake op ht =>
    refine h.set rfl rfl rfl ?_
    rw [ht]
    exact .wake c op

/-- The waiters of both condition variables are covered in every reachable
state. -/
theorem covered_of_reachable (h : Reachable (system q τ α) s) (c : Condition) : Covered q s c := by
  refine Reachable.invariant (I:=fun s => Covered q s c) ?_ ?_ h
  · exact covered_of_unblocked fun _ => rfl
  intro s a s' _ hi hs
  exact hi.step hs

end Step

/-- A ready open queue has a token. -/
theorem tokens_pos {q : Capacity} {s : State τ α} {c : Condition} (h : Ready q s c)
    (hopen : s.closed=false) : 0<tokens q s.queue c := by
  cases c with
  | notEmpty =>
    have hitems : s.queue≠[] := h.resolve_left (by rw [hopen]; exact nofun)
    exact List.length_pos_iff.mpr hitems
  | notFull =>
    have hroom : s.queue.length<q.capacity := h.resolve_left (by rw [hopen]; exact nofun)
    exact Nat.sub_pos_of_lt hroom

/-- A notification of all waiters is a notification. -/
theorem inFlight_of_broadcasts {c : Condition} {x : Thread α} (h : broadcasts c x=true) :
    inFlight c x=true := by
  cases x with
  | leaving todo answer =>
    have hmem : Exit.notifyAll c ∈ todo := of_decide_eq_true h
    simp [inFlight,notifies,hmem]
  | _ => cases h

/-- Next to a covered waiter whose predicate is true a thread is on its way. -/
theorem Covered.exists_inFlight {q : Capacity} {s : State τ α} {c : Condition} {t : τ}
    (h : Covered q s c) (ht : (s.thread t).blocked c=true) (hready : Ready q s c) :
    ∃ u,u≠t ∧ inFlight c (s.thread u)=true := by
  have hflight : ∃ u,inFlight c (s.thread u)=true := by
    cases hclosed : s.closed with
    | true =>
      obtain ⟨u,hu⟩ := h.closed hclosed ⟨t,ht⟩
      exact ⟨u,inFlight_of_broadcasts hu⟩
    | false => exact (h.opened hclosed ⟨t,ht⟩).exists_member (tokens_pos hready hclosed)
  obtain ⟨u,hu⟩ := hflight
  obtain ⟨op,hop,-⟩ := waiting_of_blocked ht
  refine ⟨u,?_,hu⟩
  intro he
  rw [he,hop] at hu
  cases hu

/-- Every thread is idle or blocked. -/
def Quiet (s : State τ α) : Prop := ∀ t,s.thread t=.idle ∨ ∃ c,(s.thread t).blocked c=true

/-- A quiet state leaves no covered waiter whose predicate is true. -/
theorem Covered.not_ready {q : Capacity} {s : State τ α} {c : Condition} {t : τ}
    (h : Covered q s c) (hquiet : Quiet s) (ht : (s.thread t).blocked c=true) : ¬Ready q s c := by
  intro hready
  obtain ⟨u,-,hu⟩ := h.exists_inFlight ht hready
  rcases hquiet u with hidle | ⟨c',hblocked⟩
  · rw [hidle] at hu
    cases hu
  · obtain ⟨op,hop,-⟩ := waiting_of_blocked hblocked
    rw [hop] at hu
    cases hu

section Results

variable [DecidableEq τ] [Fintype τ]

/-- No wakeup is lost: next to a blocked thread whose predicate is true there
is another thread on its way, and no state in which every thread is idle or
blocked leaves a waiter whose predicate is true. -/
theorem no_lost_wakeup (q : Capacity) {s : State τ α} (h : Reachable (system q τ α) s) :
    (∀ (c : Condition) (t : τ),(s.thread t).blocked c=true → Ready q s c →
      ∃ u,u≠t ∧ (woken c (s.thread u)=true ∨ notifies c (s.thread u)=true)) ∧
    ((∀ t,s.thread t=.idle ∨ ∃ c,(s.thread t).blocked c=true) →
      ∀ (c : Condition) (t : τ),(s.thread t).blocked c=true → ¬Ready q s c) := by
  refine ⟨?_,?_⟩
  · intro c t ht hready
    obtain ⟨u,hne,hu⟩ := (covered_of_reachable h c).exists_inFlight ht hready
    exact ⟨u,hne,(Bool.or_eq_true _ _).mp hu⟩
  · intro hquiet c t ht
    exact (covered_of_reachable h c).not_ready hquiet ht

end Results

/-- A thread blocks in `pop`. -/
def blockedPop : List (BlockingModel.Action Bool ℕ) := [.call false .pop,.run false,.run false]

/-- Another thread then runs `push` up to its notification. -/
def unnotifiedPush : List (BlockingModel.Action Bool ℕ) :=
  blockedPop++[.call true (.push 7),.run true,.run true,.run true]

/-- No lost wakeup between the body of a push and its notification, and in a
state in which the only waiter rightly sleeps. -/
theorem no_lost_wakeup_unnotified :
    (∃ u,u≠false ∧
      (woken .notEmpty ((run (system (.ofSucc _ 0) Bool ℕ) unnotifiedPush).thread u)=true ∨
        notifies .notEmpty
          ((run (system (.ofSucc _ 0) Bool ℕ) unnotifiedPush).thread u)=true)) ∧
    ¬Ready (.ofSucc _ 0) (run (system (.ofSucc _ 0) Bool ℕ) blockedPop) .notEmpty := by
  have hbusy := no_lost_wakeup (.ofSucc _ 0)
    (run_reachable (system (.ofSucc _ 0) Bool ℕ) unnotifiedPush)
  have hquiet := no_lost_wakeup (.ofSucc _ 0)
    (run_reachable (system (.ofSucc _ 0) Bool ℕ) blockedPop)
  refine ⟨hbusy.1 .notEmpty false (by decide) (.inr (by decide)),?_⟩
  refine hquiet.2 ?_ .notEmpty false (by decide)
  intro t
  cases t with
  | true => exact .inl (by decide)
  | false => exact .inr ⟨.notEmpty,by decide⟩

end Line64.BlockingWakeup
