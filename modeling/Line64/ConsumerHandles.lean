import Line64.MulticastModel

/-!
# Movable consumer handles

The handles of both multicast queues are a pointer to the queue and a cursor.
Moving a handle transfers both and leaves the source without a pointer, at
its last cursor. Here a queue is any set of member functions, and a session
calls them through named handles, one call after another. Two queues with
related states answer every session alike.
-/

namespace Line64.ConsumerHandles

open Function Result RetainedHistory Mealy MulticastModel

/-- Member functions of a multicast queue and of its handles. -/
structure Ops (σ : Type) where
  /-- The constructed queue. -/
  init : σ
  /-- The member function `try_publish`. -/
  tryPublish : σ → List Byte → σ × WriteResult
  /-- The member function `register_consumer`. -/
  registerConsumer : σ → Consumer
  /-- The member function `published_sequence`. -/
  publishedSequence : σ → ℕ
  /-- The member function `try_read` of a handle. -/
  tryRead : σ → Consumer → List Byte → Answer
  /-- The move constructor of a handle, which also changes the other one. -/
  moveConstruct : Consumer → Consumer × Consumer
  /-- The move assignment of a handle, told whether it is the other one. -/
  moveAssign : Bool → Consumer → Consumer → Consumer × Consumer

/-- Calls of a session, on handles by name. -/
inductive Action (η : Type)
  | publish (payload : List Byte)
  /-- Construct a handle by registration. -/
  | register (handle : η)
  /-- Construct a handle from another one. -/
  | moveConstruct (target source : η)
  | moveAssign (target source : η)
  | read (handle : η) (destination : List Byte)
  | publishedSequence
  | nextSequence (handle : η)

/-- What a call returns. -/
inductive Output
  | wrote (result : WriteResult)
  | answered (answer : Answer)
  | sequence (value : ℕ)
  | done
  /-- A handle of the call does not exist, or is constructed from itself. -/
  | absent
  deriving DecidableEq, Repr

/-- A queue and the handles that have been constructed. -/
structure Session (σ η : Type) where
  /-- State of the queue. -/
  queue : σ
  /-- Handles by name. -/
  handles : η → Option Consumer

variable {σ τ η : Type} [DecidableEq η]

/-- Both handles behind a move. -/
def setMoved (handles : η → Option Consumer) (target source : η) (moved : Consumer × Consumer) :
    η → Option Consumer :=
  update (update handles source (some moved.2)) target (some moved.1)

/-- One call. -/
def perform (A : Ops σ) (s : Session σ η) : Action η → Session σ η × Output
  | .publish payload =>
    let written := A.tryPublish s.queue payload
    ({s with queue := written.1},.wrote written.2)
  | .register handle =>
    ({s with handles := update s.handles handle (some (A.registerConsumer s.queue))},.done)
  | .moveConstruct target source =>
    match s.handles source with
    | none => (s,.absent)
    | some consumer =>
      if target=source then (s,.absent)
      else
        ({s with handles := setMoved s.handles target source (A.moveConstruct consumer)},.done)
  | .moveAssign target source =>
    match s.handles target,s.handles source with
    | some old,some consumer =>
      let moved := A.moveAssign (decide (target=source)) old consumer
      ({s with handles := setMoved s.handles target source moved},.done)
    | _,_ => (s,.absent)
  | .read handle destination =>
    match s.handles handle with
    | none => (s,.absent)
    | some consumer =>
      let answer := A.tryRead s.queue consumer destination
      ({s with handles := update s.handles handle (some ⟨consumer.attached,answer.cursor⟩)},
        .answered answer)
  | .publishedSequence => (s,.sequence (A.publishedSequence s.queue))
  | .nextSequence handle =>
    match s.handles handle with
    | none => (s,.absent)
    | some consumer => (s,.sequence consumer.nextSequence)

/-- Sessions with a queue. -/
def machine (A : Ops σ) (η : Type) [DecidableEq η] : Machine (Session σ η) (Action η) Output where
  init := ⟨A.init,fun _ => none⟩
  perform := perform A

/-- A relation between the states of two queues that no call of a session can
tell apart. Cursors of handles are positive. -/
structure Interchangeable (A : Ops σ) (B : Ops τ) (R : σ → τ → Prop) : Prop where
  /-- The constructed queues are related. -/
  init : R A.init B.init
  /-- Publications return the same and keep the relation. -/
  publish : ∀ s t payload,R s t → R (A.tryPublish s payload).1 (B.tryPublish t payload).1 ∧
    (A.tryPublish s payload).2=(B.tryPublish t payload).2
  /-- Registrations start at the same positive cursor. -/
  register : ∀ s t,R s t → A.registerConsumer s=B.registerConsumer t ∧
    1≤(A.registerConsumer s).nextSequence
  /-- The published sequences are the same. -/
  published : ∀ s t,R s t → A.publishedSequence s=B.publishedSequence t
  /-- Reads return the same and leave a positive cursor. -/
  read : ∀ s t consumer destination,R s t → 1≤consumer.nextSequence →
    A.tryRead s consumer destination=B.tryRead t consumer destination ∧
      1≤(A.tryRead s consumer destination).cursor
  /-- Move constructors do the same and leave positive cursors. -/
  moveConstruct : ∀ other,1≤other.nextSequence → A.moveConstruct other=B.moveConstruct other ∧
    1≤(A.moveConstruct other).1.nextSequence ∧ 1≤(A.moveConstruct other).2.nextSequence
  /-- So do move assignments. -/
  moveAssign : ∀ same target other,1≤target.nextSequence → 1≤other.nextSequence →
    A.moveAssign same target other=B.moveAssign same target other ∧
      1≤(A.moveAssign same target other).1.nextSequence ∧
      1≤(A.moveAssign same target other).2.nextSequence

/-- All cursors are positive. -/
def Positive (handles : η → Option Consumer) : Prop :=
  ∀ handle consumer,handles handle=some consumer → 1≤consumer.nextSequence

/-- Sessions with related queues and the same handles. -/
structure Same (R : σ → τ → Prop) (s : Session σ η) (t : Session τ η) : Prop where
  /-- The queues are related. -/
  queue : R s.queue t.queue
  /-- The handles are the same. -/
  handles : s.handles=t.handles
  /-- Their cursors are positive. -/
  positive : Positive s.handles

/-- A handle gets a positive cursor. -/
theorem Positive.set {handles : η → Option Consumer} (h : Positive handles) (handle : η)
    {consumer : Consumer} (hpos : 1≤consumer.nextSequence) :
    Positive (update handles handle (some consumer)) := by
  intro other consumer' hother
  by_cases he : other=handle
  · rw [he,update_self,Option.some.injEq] at hother
    rwa [← hother]
  · rw [update_of_ne he] at hother
    exact h other consumer' hother

/-- Both handles of a move get a positive cursor. -/
theorem Positive.setMoved {handles : η → Option Consumer} (h : Positive handles)
    (target source : η) {moved : Consumer × Consumer} (htarget : 1 ≤ moved.1.nextSequence)
    (hsource : 1 ≤ moved.2.nextSequence) :
    Positive (ConsumerHandles.setMoved handles target source moved) := by
  have hleft : Positive (update handles source (some moved.2)) := h.set source hsource
  exact hleft.set target htarget

section Step

variable {A : Ops σ} {B : Ops τ} {R : σ → τ → Prop} {s : Session σ η} {t : Session τ η}

/-- One call returns the same on both sides. -/
theorem Interchangeable.perform (h : Interchangeable A B R) (hsame : Same R s t) (a : Action η) :
    Same R (ConsumerHandles.perform A s a).1 (ConsumerHandles.perform B t a).1 ∧
      (ConsumerHandles.perform A s a).2=(ConsumerHandles.perform B t a).2 := by
  have hhandles := hsame.handles
  cases a with
  | publish payload =>
    obtain ⟨hqueue,hresult⟩ := h.publish _ _ payload hsame.queue
    exact ⟨⟨hqueue,hhandles,hsame.positive⟩,congrArg Output.wrote hresult⟩
  | register handle =>
    obtain ⟨hconsumer,hpos⟩ := h.register _ _ hsame.queue
    simp only [ConsumerHandles.perform,← hconsumer,← hhandles]
    exact ⟨⟨hsame.queue,rfl,hsame.positive.set handle hpos⟩,trivial⟩
  | moveConstruct target source =>
    simp only [ConsumerHandles.perform,← hhandles]
    cases hsource : s.handles source with
    | none => exact ⟨hsame,rfl⟩
    | some consumer =>
      obtain ⟨hmove,htarget,hleft⟩ := h.moveConstruct consumer (hsame.positive _ _ hsource)
      dsimp only
      rw [← hmove]
      split
      · exact ⟨hsame,rfl⟩
      · exact ⟨⟨hsame.queue,rfl,hsame.positive.setMoved target source htarget hleft⟩,rfl⟩
  | moveAssign target source =>
    simp only [ConsumerHandles.perform,← hhandles]
    cases htarget : s.handles target with
    | none => exact ⟨hsame,rfl⟩
    | some old =>
      cases hsource : s.handles source with
      | none => exact ⟨hsame,rfl⟩
      | some consumer =>
        obtain ⟨hmove,hnew,hleft⟩ := h.moveAssign (decide (target=source)) old consumer
          (hsame.positive _ _ htarget) (hsame.positive _ _ hsource)
        dsimp only
        rw [← hmove]
        exact ⟨⟨hsame.queue,rfl,hsame.positive.setMoved target source hnew hleft⟩,rfl⟩
  | read handle destination =>
    simp only [ConsumerHandles.perform,← hhandles]
    cases hhandle : s.handles handle with
    | none => exact ⟨hsame,rfl⟩
    | some consumer =>
      obtain ⟨hanswer,hpos⟩ := h.read _ _ consumer destination hsame.queue
        (hsame.positive _ _ hhandle)
      dsimp only
      rw [← hanswer]
      exact ⟨⟨hsame.queue,rfl,hsame.positive.set handle hpos⟩,rfl⟩
  | publishedSequence => exact ⟨hsame,congrArg Output.sequence (h.published _ _ hsame.queue)⟩
  | nextSequence handle =>
    simp only [ConsumerHandles.perform,← hhandles]
    cases s.handles handle with
    | none => exact ⟨hsame,rfl⟩
    | some consumer => exact ⟨hsame,rfl⟩

end Step

/-- Interchangeable queues answer every session alike and end with the same
handles. -/
theorem Interchangeable.sessions {A : Ops σ} {B : Ops τ} {R : σ → τ → Prop}
    (h : Interchangeable A B R) (keep : Action η → Bool) (actions : List (Action η)) :
    Same R ((machine A η).final actions) ((machine B η).final actions) ∧
      (machine A η).answers keep actions=(machine B η).answers keep actions := by
  refine Machine.simulation (R:=Same R) (fun s t a hsame => h.perform hsame a) ?_ keep actions
  exact ⟨h.init,rfl,nofun⟩

end Line64.ConsumerHandles
