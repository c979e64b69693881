import Line64.BlockingConservation
import Line64.BlockingMutex

/-!
# The critical sections of the blocking queue, statement by statement

The functions of `BlockingQueue` access `closed_` and `queue_` one after
another while other threads run. Only the thread inside the mutex accesses
them, so that a critical section might as well run in one step when its last
statement does: every interleaving of the statements is a run of the queue
whose bodies are single steps, and every such run is one of the statements.
-/

namespace Line64.BlockingStatements

open Function Result Transition BlockingModel BlockingMutex
open BlockingConservation (Conserved conserved_init accepted delivered)

/-- What is left of a critical section: the next access of a member, and how
it goes on behind the value it loads. -/
inductive Body (α : Type)
  | loadClosed (next : Bool → Body α)
  | loadSize (next : ℕ → Body α)
  | loadFront (next : Option α → Body α)
  | pushBack (item : α) (next : Body α)
  | popFront (next : Body α)
  | storeClosed (next : Body α)
  /-- The wait predicate is false. -/
  | wait
  /-- The statements behind the members, and the answer. -/
  | leave (todo : List Exit) (answer : Answer α)

variable {τ α : Type}

/-- A wait predicate `closed_ || test(queue_.size())` in front of a body. -/
def waitFor (test : ℕ → Bool) (admitted : Body α) : Body α :=
  .loadClosed fun closed =>
    if closed then admitted
    else .loadSize fun size => if test size then admitted else .wait

/-- The accesses of the member functions between locking and leaving. -/
def body (q : Capacity) : Op α → Body α
  | .push item =>
    waitFor (fun size => size<q.capacity) (.loadClosed fun closed =>
      if closed then .leave [.unlock] (.pushed .closed)
      else .pushBack item (.leave [.unlock,.notifyOne .notEmpty] (.pushed .success)))
  | .tryPush item =>
    .loadClosed fun closed =>
      if closed then .leave [.unlock] (.pushed .closed)
      else .loadSize fun size =>
        if size=q.capacity then .leave [.unlock] (.pushed .full)
        else .pushBack item (.leave [.notifyOne .notEmpty,.unlock] (.pushed .success))
  | .pop =>
    waitFor (fun size => size≠0) (.loadSize fun size =>
      if size=0 then .leave [.unlock] (.popped none)
      else .loadFront fun item => .popFront (.leave [.unlock,.notifyOne .notFull] (.popped item)))
  | .tryPop =>
    .loadSize fun size =>
      if size=0 then
        .loadClosed fun closed =>
          .leave [.unlock] (.tried (if closed then .closed else .empty) none)
      else .loadFront fun item =>
        .popFront (.leave [.notifyOne .notFull,.unlock] (.tried .success item))
  | .close => .storeClosed (.leave [.unlock,.notifyAll .notEmpty,.notifyAll .notFull] .closed)

/-- Both members, and how a critical section ends unless it waits. -/
abbrev End (α : Type) := List α × Bool × Option (List Exit × Answer α)

/-- The rest of a critical section without interruption. -/
def Body.exec : Body α → List α → Bool → End α
  | .loadClosed next,queue,closed => (next closed).exec queue closed
  | .loadSize next,queue,closed => (next queue.length).exec queue closed
  | .loadFront next,queue,closed => (next queue.head?).exec queue closed
  | .pushBack item next,queue,closed => next.exec (queue++[item]) closed
  | .popFront next,queue,closed => next.exec queue.tail closed
  | .storeClosed next,queue,_ => next.exec queue true
  | .wait,queue,closed => (queue,closed,none)
  | .leave todo answer,queue,closed => (queue,closed,some (todo,answer))

/-- The critical section that runs in one step. -/
def whole (q : Capacity) (queue : List α) (closed : Bool) (op : Op α) : End α :=
  match critical q queue closed op with
  | none => (queue,closed,none)
  | some ran => (ran.queue,ran.closed,some (ran.todo,ran.answer))

/-- The accesses of a function add up to its critical section. -/
theorem exec_body (q : Capacity) (op : Op α) (queue : List α) (closed : Bool) :
    (body q op).exec queue closed=whole q queue closed op := by
  cases op with
  | push item =>
    cases closed with
    | true => rfl
    | false =>
      by_cases hroom : queue.length<q.capacity
      · simp [body,waitFor,Body.exec,whole,critical,hroom]
      · simp [body,waitFor,Body.exec,whole,critical,hroom]
  | tryPush item =>
    cases closed with
    | true => rfl
    | false =>
      by_cases hfull : queue.length=q.capacity
      · simp [body,Body.exec,whole,critical,hfull]
      · simp [body,Body.exec,whole,critical,hfull]
  | pop => cases queue <;> cases closed <;> rfl
  | tryPop => cases queue <;> rfl
  | close => rfl

/-- The queue with its threads, and what is left of the critical section of
each thread that is inside the mutex. -/
structure State (τ α : Type) where
  /-- Members and threads. -/
  shared : BlockingModel.State τ α
  /-- The rest of a critical section; of no meaning outside the mutex. -/
  rest : τ → Body α

/-- The constructed queue. -/
def init (τ α : Type) : State τ α := ⟨BlockingModel.init τ α,fun _ => .wait⟩

/-- The thread and the operation whose critical section an action goes on
with. -/
def continued (s : BlockingModel.State τ α) : Action τ α → Option (τ × Op α)
  | .run t =>
    match s.thread t with
    | .inside op _ => some (t,op)
    | _ => none
  | _ => none

section Model

variable [DecidableEq τ]

/-- One access of a thread inside the mutex. -/
def access (s : State τ α) (t : τ) (op : Op α) : Body α → State τ α
  | .loadClosed next => {s with rest := update s.rest t (next s.shared.closed)}
  | .loadSize next => {s with rest := update s.rest t (next s.shared.queue.length)}
  | .loadFront next => {s with rest := update s.rest t (next s.shared.queue.head?)}
  | .pushBack item next =>
    ⟨{s.shared with queue := s.shared.queue++[item]},update s.rest t next⟩
  | .popFront next => ⟨{s.shared with queue := s.shared.queue.tail},update s.rest t next⟩
  | .storeClosed next => ⟨{s.shared with closed := true},update s.rest t next⟩
  | .wait =>
    {s with shared := {s.shared with
      owner := none
      thread := update s.shared.thread t (.waiting op)}}
  | .leave todo answer =>
    {s with shared := {s.shared with
      thread := update s.shared.thread t (.leaving todo answer)
      log := s.shared.log++[⟨t,op,answer⟩]}}

/-- A thread that locks the mutex has its critical section in front of it. -/
def entered (q : Capacity) (s : State τ α) : Action τ α → τ → Body α
  | .run t =>
    match s.shared.thread t with
    | .locking op _ => update s.rest t (body q op)
    | _ => s.rest
  | _ => s.rest

variable [Fintype τ]

/-- One scheduled step: an access inside the mutex, or a step of the queue
outside. -/
def step (q : Capacity) (s : State τ α) (a : Action τ α) : Option (State τ α) :=
  match continued s.shared a with
  | some (t,op) => some (access s t op (s.rest t))
  | none => (BlockingModel.step q s.shared a).map fun shared => ⟨shared,entered q s a⟩

/-- The queue under every interleaving of its statements. -/
def system (q : Capacity) (τ α : Type) [DecidableEq τ] [Fintype τ] :
    System (State τ α) (Action τ α) where
  init := init τ α
  step := step q

end Model

/-- The last statement of a critical section. -/
def Body.ends : Body α → Bool
  | .wait | .leave _ _ => true
  | _ => false

/-- The step of the queue with single-step bodies: a critical section runs
with its last statement. -/
def label (s : State τ α) (a : Action τ α) : Option (Action τ α) :=
  match continued s.shared a with
  | some (t,_) => if (s.rest t).ends then some a else none
  | none => some a

/-- One thread changes, and is inside neither before nor after; the others are
inside as before. -/
theorem inside_update [DecidableEq τ] {thread woke : τ → Thread α} {u : τ} {x : Thread α}
    (hsame : ∀ v op woken,woke v=.inside op woken ↔ thread v=.inside op woken)
    (hu : ∀ op woken,thread u≠.inside op woken) (hx : ∀ op woken,x≠.inside op woken) (v : τ)
    (op : Op α) (woken : Bool) :
    update woke u x v=.inside op woken ↔ thread v=.inside op woken := by
  by_cases hv : v=u
  · rw [hv,update_self]
    exact ⟨fun h => absurd h (hx op woken),fun h => absurd h (hu op woken)⟩
  · rw [update_of_ne hv,hsame]

/-- Waking a thread puts none inside. -/
theorem inside_wake (x : Thread α) (op : Op α) (woken : Bool) :
    x.wake=.inside op woken ↔ x=.inside op woken := by
  cases x <;> simp [Thread.wake]

section Reduction

variable [DecidableEq τ] [Fintype τ] {q : Capacity} {s s' : State τ α}
  {t t' : BlockingModel.State τ α} {a : Action τ α} {u : τ} {op : Op α} {woken : Bool}

/-- The queue with single-step bodies has not yet run the critical section in
progress. -/
structure Reduces (q : Capacity) (s : State τ α) (t : BlockingModel.State τ α) : Prop where
  /-- It can be in this state. -/
  reachable : Reachable (BlockingModel.system q τ α) t
  /-- The mutex is the same. -/
  owner : s.shared.owner=t.owner
  /-- The threads are the same. -/
  thread : s.shared.thread=t.thread
  /-- The same critical sections have run. -/
  log : s.shared.log=t.log
  /-- Between critical sections the members are the same. -/
  members : (∀ u op woken,t.thread u≠.inside op woken) →
    s.shared.queue=t.queue ∧ s.shared.closed=t.closed
  /-- The rest of a critical section does to the members what the whole does
  to those in front of it. -/
  rest : ∀ u op woken,t.thread u=.inside op woken →
    (s.rest u).exec s.shared.queue s.shared.closed=whole q t.queue t.closed op

/-- Only one thread is inside. -/
theorem inside_unique (h : Reachable (BlockingModel.system q τ α) t) {v : τ} {op' : Op α}
    {woken' : Bool} (hu : t.thread u=.inside op woken) (hv : t.thread v=.inside op' woken') :
    v=u :=
  holds_unique h (by rw [hv]; rfl) (by rw [hu]; rfl)

/-- An access that leaves as much to do as it found. -/
theorem Reduces.access (h : Reduces q s t) (hu : t.thread u=.inside op woken) {queue : List α}
    {closed : Bool} {next : Body α}
    (hexec : next.exec queue closed=(s.rest u).exec s.shared.queue s.shared.closed) :
    Reduces q ⟨{s.shared with queue := queue, closed := closed},update s.rest u next⟩ t where
  reachable := h.reachable
  owner := h.owner
  thread := h.thread
  log := h.log
  members := fun hnone => absurd hu (hnone u op woken)
  rest := by
    intro v op' woken' hv
    obtain rfl := inside_unique h.reachable hu hv
    simp only [update_self]
    exact hexec.trans (h.rest _ op' woken' hv)

/-- A critical section has ended on both sides, and the members agree. -/
theorem Reduces.settle (h : Reduces q s t) (hu : t.thread u=.inside op woken) {x : Thread α}
    (hx : ∀ op woken,x≠.inside op woken) (hs : BlockingModel.step q t (.run u)=some t')
    (howner : s'.shared.owner=t'.owner) (hthread : s'.shared.thread=t'.thread)
    (hmoved : t'.thread=update t.thread u x) (hlog : s'.shared.log=t'.log)
    (hmembers : s'.shared.queue=t'.queue ∧ s'.shared.closed=t'.closed) : Reduces q s' t' where
  reachable := h.reachable.step (a:=.run u) hs
  owner := howner
  thread := hthread
  log := hlog
  members := fun _ => hmembers
  rest := by
    intro v op' woken' hv
    rw [hmoved] at hv
    by_cases hvu : v=u
    · rw [hvu,update_self] at hv
      exact absurd hv (hx op' woken')
    · rw [update_of_ne hvu] at hv
      exact absurd (inside_unique h.reachable hu hv) hvu

/-- Steps outside the critical sections neither read nor write the members. -/
theorem step_members (hout : continued t a=none) (queue : List α) (closed : Bool) :
    BlockingModel.step q {t with queue := queue, closed := closed} a=
      (BlockingModel.step q t a).map fun t' => {t' with queue := queue, closed := closed} := by
  cases a with
  | call v op =>
    simp only [BlockingModel.step]
    split <;> rfl
  | run v =>
    simp only [BlockingModel.step]
    split
    · split <;> rfl
    · rename_i hv
      simp [continued,hv] at hout
    · rfl
    · rename_i exit todo answer hv
      cases exit with
      | unlock => rfl
      | notifyOne c =>
        simp only [runExit]
        split <;> rfl
      | notifyAll c => rfl
    · rfl
  | notify v waiter =>
    simp only [BlockingModel.step]
    split
    · split <;> rfl
    · rfl
  | wake v =>
    simp only [BlockingModel.step]
    split <;> rfl

/-- What a step outside the critical sections does to the threads inside: it
leaves them alone, or a thread locks the free mutex. -/
inductive Outside (t t' : BlockingModel.State τ α) (a : Action τ α) : Prop
  | same (idle : ∀ v op woken,a=.run v → t.thread v≠.locking op woken)
      (inside : ∀ v op woken,t'.thread v=.inside op woken ↔ t.thread v=.inside op woken)
  | lock (v : τ) (op : Op α) (woken : Bool) (action : a=.run v) (free : t.owner=none)
      (locking : t.thread v=.locking op woken)
      (thread : t'.thread=update t.thread v (.inside op woken))

/-- Every step outside the critical sections. -/
theorem outside_of_step (hs : BlockingModel.step q t a=some t') (hout : continued t a=none) :
    Outside t t' a := by
  obtain ⟨v,heffect⟩ := effect_of_step hs
  have hleaving : ∀ {todo : List Exit} {answer : Answer α},t.thread v=.leaving todo answer →
      ∀ w op woken,Action.run (α:=α) v=.run w → t.thread w≠.locking op woken := by
    intro todo answer hv w op woken he
    cases he
    simp [hv]
  have hrefl : ∀ w op woken,t.thread w=.inside op woken ↔ t.thread w=.inside op woken :=
    fun _ _ _ => Iff.rfl
  cases heffect with
  | call op hv =>
    exact .same (fun _ _ _ he => by cases he) (inside_update hrefl (by simp [hv]) (by simp))
  | lock op was hv hfree => exact .lock v op was rfl hfree hv rfl
  | block op was hv _ => simp [continued,hv] at hout
  | body op was ran hv _ => simp [continued,hv] at hout
  | unlock todo answer hv =>
    exact .same (hleaving hv) (inside_update hrefl (by simp [hv]) (by simp))
  | notifyNone c todo answer hv _ =>
    exact .same (hleaving hv) (inside_update hrefl (by simp [hv]) (by simp))
  | notifyOne c todo answer waiter hv _ =>
    have hwoken : ∀ w op woken,update t.thread waiter (t.thread waiter).wake w=.inside op woken ↔
        t.thread w=.inside op woken := by
      intro w op woken
      by_cases hw : w=waiter
      · rw [hw,update_self,inside_wake]
      · rw [update_of_ne hw]
    exact .same (fun _ _ _ he => by cases he) (inside_update hwoken (by simp [hv]) (by simp))
  | notifyAll c todo answer hv =>
    have hwoken : ∀ w op woken,(if (t.thread w).blocked c then (t.thread w).wake else t.thread w)=
        .inside op woken ↔ t.thread w=.inside op woken := by
      intro w op woken
      split
      · exact inside_wake _ op woken
      · rfl
    exact .same (hleaving hv) (inside_update hwoken (by simp [hv]) (by simp))
  | finish answer hv => exact .same (hleaving hv) (inside_update hrefl (by simp [hv]) (by simp))
  | wake op hv =>
    exact .same (fun _ _ _ he => by cases he) (inside_update hrefl (by simp [hv]) (by simp))

/-- No critical section begins or ends. -/
theorem Reduces.same (h : Reduces q s t) (hs : BlockingModel.step q t a=some t')
    (hidle : ∀ v op woken,a=.run v → t.thread v≠.locking op woken)
    (hinside : ∀ v op woken,t'.thread v=.inside op woken ↔ t.thread v=.inside op woken)
    (hkept : t'.queue=t.queue ∧ t'.closed=t.closed) :
    Reduces q ⟨{t' with queue := s.shared.queue, closed := s.shared.closed},entered q s a⟩ t' := by
  have hrest : entered q s a=s.rest := by
    cases a with
    | run v =>
      simp only [entered,h.thread]
      split
      · rename_i op woken hv
        exact absurd hv (hidle v op woken rfl)
      · rfl
    | _ => rfl
  refine ⟨h.reachable.step (a:=a) hs,rfl,rfl,rfl,?_,?_⟩
  · intro hnone
    obtain ⟨hqueue,hclosed⟩ := h.members fun v op woken hv =>
      hnone v op woken ((hinside v op woken).mpr hv)
    exact ⟨hqueue.trans hkept.1.symm,hclosed.trans hkept.2.symm⟩
  · intro v op woken hv
    rw [hrest,hkept.1,hkept.2]
    exact h.rest v op woken ((hinside v op woken).mp hv)

/-- A thread locks the free mutex: its whole critical section is left. -/
theorem Reduces.lock (h : Reduces q s t) (hs : BlockingModel.step q t (.run u)=some t')
    (hfree : t.owner=none) (hu : t.thread u=.locking op woken)
    (hthread : t'.thread=update t.thread u (.inside op woken))
    (hkept : t'.queue=t.queue ∧ t'.closed=t.closed) :
    Reduces q ⟨{t' with queue := s.shared.queue, closed := s.shared.closed},
      entered q s (.run u)⟩ t' := by
  -- The mutex is free, so that no critical section is in progress.
  have hnone : ∀ w op woken,t.thread w≠.inside op woken := by
    intro w op' woken' hw
    have hown := ((locked_of_reachable h.reachable).owner w).mp (by rw [hw]; rfl)
    rw [hfree] at hown
    cases hown
  obtain ⟨hqueue,hclosed⟩ := h.members hnone
  refine ⟨h.reachable.step (a:=.run u) hs,rfl,rfl,rfl,?_,?_⟩
  · intro hno
    exact absurd (by rw [hthread,update_self]) (hno u op woken)
  · intro w op' woken' hw
    rw [hthread] at hw
    by_cases hwu : w=u
    · subst hwu
      rw [update_self] at hw
      cases hw
      simp only [entered,h.thread,hu,update_self]
      rw [exec_body,hqueue,hclosed,hkept.1,hkept.2]
    · rw [update_of_ne hwu] at hw
      exact absurd hw (hnone w op' woken')

/-- The sides differ at most in the members. -/
theorem Reduces.shared (h : Reduces q s t) :
    s.shared={t with queue := s.shared.queue, closed := s.shared.closed} := by
  rw [← h.owner,← h.thread,← h.log]

/-- The same critical section is in progress. -/
theorem Reduces.continued (h : Reduces q s t) (a : Action τ α) :
    BlockingStatements.continued s.shared a=BlockingStatements.continued t a := by
  cases a with
  | run v => simp only [BlockingStatements.continued,h.thread]
  | _ => rfl

/-- A step outside the critical sections is the same step on both sides. -/
theorem Reduces.outside (h : Reduces q s t) (hout : BlockingStatements.continued s.shared a=none)
    {shared : BlockingModel.State τ α} (hs : BlockingModel.step q s.shared a=some shared) :
    ∃ t',BlockingModel.step q t a=some t' ∧ Reduces q ⟨shared,entered q s a⟩ t' := by
  have hout' : BlockingStatements.continued t a=none := by rw [← h.continued,hout]
  rw [h.shared,step_members hout'] at hs
  obtain ⟨t',ht',rfl⟩ := Option.map_eq_some_iff.mp hs
  -- The members of the other side are left alone as well.
  have hkept : t'.queue=t.queue ∧ t'.closed=t.closed := by
    have hsame := step_members (q:=q) hout' t.queue t.closed
    rw [ht',Option.map_some,Option.some.injEq] at hsame
    exact ⟨congrArg (·.queue) hsame,congrArg (·.closed) hsame⟩
  cases outside_of_step ht' hout' with
  | same hidle hinside => exact ⟨t',ht',h.same ht' hidle hinside hkept⟩
  | lock v op woken haction hfree hlocking hthread =>
    subst haction
    exact ⟨t',ht',h.lock ht' hfree hlocking hthread hkept⟩

omit [DecidableEq τ] [Fintype τ] in
/-- An action that continues a critical section. -/
theorem inside_of_continued {t : BlockingModel.State τ α} (h : continued t a=some (u,op)) :
    a=.run u ∧ ∃ woken,t.thread u=.inside op woken := by
  cases a with
  | run v =>
    simp only [continued] at h
    split at h
    · rename_i woken hv
      cases h
      exact ⟨rfl,woken,hv⟩
    · cases h
  | _ => cases h

/-- A critical section that waits has left the members alone. -/
theorem critical_of_wait {queue queue' : List α} {closed closed' : Bool}
    (h : (queue',closed',none)=whole q queue closed op) :
    critical q queue closed op=none ∧ queue'=queue ∧ closed'=closed := by
  unfold whole at h
  split at h
  · rename_i hnone
    cases h
    exact ⟨hnone,rfl,rfl⟩
  · cases h

/-- A critical section that is left. -/
theorem critical_of_leave {queue queue' : List α} {closed closed' : Bool} {todo : List Exit}
    {answer : Answer α} (h : (queue',closed',some (todo,answer))=whole q queue closed op) :
    critical q queue closed op=some ⟨queue',closed',todo,answer⟩ := by
  unfold whole at h
  split at h
  · cases h
  · rename_i hran
    cases h
    exact hran

/-- An access that does not end its critical section is invisible. -/
theorem Reduces.unfinished (h : Reduces q s t) (hu : t.thread u=.inside op woken)
    (hends : (s.rest u).ends=false) :
    Reduces q (BlockingStatements.access s u op (s.rest u)) t := by
  cases hb : s.rest u with
  | loadClosed next => exact h.access hu (by rw [hb]; rfl)
  | loadSize next => exact h.access hu (by rw [hb]; rfl)
  | loadFront next => exact h.access hu (by rw [hb]; rfl)
  | pushBack item next => exact h.access hu (by rw [hb]; rfl)
  | popFront next => exact h.access hu (by rw [hb]; rfl)
  | storeClosed next => exact h.access hu (by rw [hb]; rfl)
  | wait =>
    rw [hb] at hends
    cases hends
  | leave todo answer =>
    rw [hb] at hends
    cases hends

/-- With its last statement the whole critical section runs. -/
theorem Reduces.last (h : Reduces q s t) (hu : t.thread u=.inside op woken)
    (hends : (s.rest u).ends=true) :
    ∃ t',BlockingModel.step q t (.run u)=some t' ∧
      Reduces q (BlockingStatements.access s u op (s.rest u)) t' := by
  have hrest := h.rest u op woken hu
  cases hb : s.rest u with
  | wait =>
    rw [hb,Body.exec] at hrest
    obtain ⟨hnone,hqueue,hclosed⟩ := critical_of_wait hrest
    have hstep : BlockingModel.step q t (.run u)=
        some {t with owner := none, thread := update t.thread u (.waiting op)} := by
      simp only [BlockingModel.step,hu,runInside,hnone]
    refine ⟨_,hstep,h.settle hu (by simp) hstep rfl ?_ rfl h.log ⟨hqueue,hclosed⟩⟩
    simp only [BlockingStatements.access,h.thread]
  | leave todo answer =>
    rw [hb,Body.exec] at hrest
    have hran := critical_of_leave hrest
    have hstep : BlockingModel.step q t (.run u)=some {t with
        queue := s.shared.queue
        closed := s.shared.closed
        thread := update t.thread u (.leaving todo answer)
        log := t.log++[⟨u,op,answer⟩]} := by
      simp only [BlockingModel.step,hu,runInside,hran]
    refine ⟨_,hstep,h.settle hu (by simp) hstep h.owner ?_ rfl ?_ ⟨rfl,rfl⟩⟩
    · simp only [BlockingStatements.access,h.thread]
    · simp only [BlockingStatements.access,h.log]
  | _ =>
    rw [hb] at hends
    cases hends

/-- Every statement keeps the relation. -/
theorem Reduces.step (h : Reduces q s t) (hs : BlockingStatements.step q s a=some s') :
    (label s a=none ∧ Reduces q s' t) ∨
      ∃ l t',label s a=some l ∧ BlockingModel.step q t l=some t' ∧ Reduces q s' t' := by
  unfold BlockingStatements.step at hs
  unfold label
  split at hs
  · rename_i u op hcont
    cases hs
    obtain ⟨rfl,woken,hu⟩ := inside_of_continued hcont
    rw [h.thread] at hu
    cases hends : (s.rest u).ends with
    | false => exact .inl ⟨rfl,h.unfinished hu hends⟩
    | true =>
      obtain ⟨t',ht',hkept⟩ := h.last hu hends
      exact .inr ⟨.run u,t',rfl,ht',hkept⟩
  · rename_i hout
    obtain ⟨shared,hshared,rfl⟩ := Option.map_eq_some_iff.mp hs
    obtain ⟨t',ht',hkept⟩ := h.outside hout hshared
    exact .inr ⟨a,t',rfl,ht',hkept⟩

/-- A thread inside the mutex makes its next access. -/
theorem step_inside (hu : s.shared.thread u=.inside op woken) :
    BlockingStatements.step q s (.run u)=some (access s u op (s.rest u)) := by
  simp only [BlockingStatements.step,continued,hu]

/-- One access, and what the rest of its critical section leads to. -/
theorem Reduces.proceed {P : State τ α → Prop} {rest : Body α} (h : Reduces q s t)
    (hu : t.thread u=.inside op woken) (hrest : s.rest u=rest) (hends : rest.ends=false)
    (hnext : Reduces q (BlockingStatements.access s u op rest) t →
      LeadsTo (system q τ α) (.run u) P (BlockingStatements.access s u op rest)) :
    LeadsTo (system q τ α) (.run u) P s := by
  subst hrest
  exact .next (step_inside (by rw [h.thread,hu])) (hnext (h.unfinished hu hends))

/-- A critical section that is not interrupted ends as the whole does. -/
theorem Reduces.finish (hs : BlockingModel.step q t (.run u)=some t')
    (hu : t.thread u=.inside op woken) (rest : Body α) (h : Reduces q s t)
    (hrest : s.rest u=rest) :
    LeadsTo (system q τ α) (.run u) (fun s' => Reduces q s' t') s := by
  have hlast : ∀ {s : State τ α},Reduces q s t → (s.rest u).ends=true →
      LeadsTo (system q τ α) (.run u) (fun s' => Reduces q s' t') s := by
    intro s h hends
    obtain ⟨t₁,ht₁,hkept⟩ := h.last hu hends
    rw [hs] at ht₁
    cases ht₁
    exact .next (step_inside (by rw [h.thread,hu])) (.now hkept)
  -- One access less is left, whatever it loads.
  induction rest generalizing s with
  | loadClosed next ih => exact h.proceed hu hrest rfl fun hk => ih _ hk (update_self ..)
  | loadSize next ih => exact h.proceed hu hrest rfl fun hk => ih _ hk (update_self ..)
  | loadFront next ih => exact h.proceed hu hrest rfl fun hk => ih _ hk (update_self ..)
  | pushBack item next ih => exact h.proceed hu hrest rfl fun hk => ih hk (update_self ..)
  | popFront next ih => exact h.proceed hu hrest rfl fun hk => ih hk (update_self ..)
  | storeClosed next ih => exact h.proceed hu hrest rfl fun hk => ih hk (update_self ..)
  | wait => exact hlast h (by rw [hrest]; rfl)
  | leave todo answer => exact hlast h (by rw [hrest]; rfl)

/-- Every step of the queue with single-step bodies is taken by the
statements as well. -/
theorem Reduces.taken (h : Reduces q s t) (ht : BlockingModel.step q t a=some t') :
    LeadsTo (system q τ α) a (fun s' => Reduces q s' t') s := by
  cases hcont : BlockingStatements.continued t a with
  | some inside =>
    obtain ⟨rfl,woken,hu⟩ := inside_of_continued hcont
    exact Reduces.finish ht hu _ h rfl
  | none =>
    have hout : BlockingStatements.continued s.shared a=none := by rw [h.continued,hcont]
    have hs : BlockingModel.step q s.shared a=
        some {t' with queue := s.shared.queue, closed := s.shared.closed} := by
      rw [h.shared,step_members hcont,ht]
      rfl
    obtain ⟨t₁,ht₁,hkept⟩ := h.outside hout hs
    rw [ht] at ht₁
    cases ht₁
    have hnext : BlockingStatements.step q s a=some
        ⟨{t' with queue := s.shared.queue, closed := s.shared.closed},entered q s a⟩ := by
      simp only [BlockingStatements.step,hout,hs,Option.map_some]
    exact .next hnext (.now hkept)

/-- The constructed queues. -/
theorem reduces_init (q : Capacity) : Reduces q (init τ α) (BlockingModel.init τ α) where
  reachable := .init
  owner := rfl
  thread := rfl
  log := rfl
  members := fun _ => ⟨rfl,rfl⟩
  rest := fun _ _ _ hinside => by cases hinside

/-- The queue with single-step bodies keeps its items. -/
theorem conserved_of_reachable (h : Reachable (BlockingModel.system q τ α) t) :
    Conserved q t.queue t.closed t.log :=
  Reachable.invariant (I:=fun t : BlockingModel.State τ α => Conserved q t.queue t.closed t.log)
    (conserved_init q) (fun _ _ _ _ hold hs => hold.step hs) h

/-- What a run of the statements and one of the single-step bodies have to do
with each other. -/
structure Atomic (q : Capacity) (actions : List (Action τ α)) (s : State τ α)
    (t : BlockingModel.State τ α) : Prop where
  /-- The critical sections run one after another, each with its last
  statement, and everything else is the same. -/
  matched : Matched (system q τ α) label (BlockingModel.init τ α)
    (fun l t t' => BlockingModel.step q t l=some t') (Reduces q) actions s t
  /-- Conversely, every step that is possible with single-step bodies is taken
  by the statements, a critical section by some number of them. -/
  taken : ∀ a t',BlockingModel.step q t a=some t' →
    LeadsTo (system q τ α) a (fun s' => Reduces q s' t') s
  /-- Never do two threads access the members. -/
  exclusive : ∀ u v op op' woken woken',s.shared.thread u=.inside op woken →
    s.shared.thread v=.inside op' woken' → u=v
  /-- Between critical sections no item is lost or duplicated. -/
  conserved : (∀ u op woken,s.shared.thread u≠.inside op woken) →
    Conserved q s.shared.queue s.shared.closed s.shared.log

/-- Every interleaving of the statements of the blocking queue is a run of the
queue whose critical sections are single steps, which can do nothing that the
statements cannot. -/
theorem critical_sections_atomic (q : Capacity) {actions : List (Action τ α)} {s : State τ α}
    (h : Schedule (system q τ α) actions s) : ∃ t,Atomic q actions s t := by
  obtain ⟨t,hm⟩ := h.matched (R:=Reduces q) (reduces_init q) fun s t a s' hr hs => hr.step hs
  have hr := hm.related
  refine ⟨t,hm,fun a t' ht => hr.taken ht,?_,?_⟩
  · intro u v op op' woken woken' hu hv
    rw [hr.thread] at hu hv
    exact (inside_unique hr.reachable hu hv).symm
  · intro hnone
    rw [hr.thread] at hnone
    obtain ⟨hqueue,hclosed⟩ := hr.members hnone
    rw [hqueue,hclosed,hr.log]
    exact conserved_of_reachable hr.reachable

/-- `pop()` is called while the queue is empty, `push(1)` between the accesses
of its wait predicate. The waiter wakes between the accesses of `push()`, and
takes the item out while that thread still has to notify. -/
def interrupted : List (BlockingModel.Action Bool ℕ) :=
  [.call false .pop,.run false,.run false,.call true (.push 1),.run false,.run false,
    .run true,.run true,.wake false,.run true,.run true,.run true,.run true,.run true,
    .run false,.run false,.run false,.run true,.run false,.run false,.run false,.run false]

/-- The reduction at a run in which threads interrupt each other's critical
sections. -/
theorem critical_sections_atomic_interrupted :
    ∃ (s : State Bool ℕ) (t : BlockingModel.State Bool ℕ),
      Schedule (system (.ofSucc _ 0) Bool ℕ) interrupted s ∧ accepted s.shared.log=[1] ∧
      delivered s.shared.log=[1] ∧ Atomic (.ofSucc _ 0) interrupted s t := by
  have hlog : (interrupted.foldlM (system (.ofSucc _ 0) Bool ℕ).step
      (system (.ofSucc _ 0) Bool ℕ).init).map
        (fun s => (accepted s.shared.log,delivered s.shared.log))=some ([1],[1]) := by
    decide +kernel
  obtain ⟨s,hrun,hshown⟩ := Option.map_eq_some_iff.mp hlog
  have hsch := schedule_of_foldlM hrun
  obtain ⟨t,hatomic⟩ := critical_sections_atomic (.ofSucc _ 0) hsch
  exact ⟨s,t,hsch,congrArg Prod.fst hshown,congrArg Prod.snd hshown,hatomic⟩

end Reduction

end Line64.BlockingStatements
