import Line64.ConsumerHandles
import Line64.MulticastRefinement
import Line64.VersionedSequential

/-!
# The multicast queues are interchangeable in sequential use

Seqlock cells and mutex-protected slots store the same retained window of the
same history. Both queues read it alike, so sessions of non-overlapping calls
cannot tell them apart, with handles moved in any way in between.
-/

namespace Line64.SequentialMulticast

open Function Result FixedMessageAccess RetainedHistory ConsumerHandles
open VersionedModel (index Cell)
open VersionedRead (deliver_of_holds)
open VersionedSequential (attempts_of_even conclude)

variable {N : ℕ}

/-- The member functions `make_consumer` and `register_consumer` of the
versioned queue. -/
def makeConsumer (s : VersionedSequential.Queue N) : MulticastModel.Consumer :=
  ⟨true,s.published+1⟩

/-- The member functions `try_read` and `try_pop` of its handles. -/
def tryRead (q : VersionedModel.Ring) (s : VersionedSequential.Queue N)
    (consumer : MulticastModel.Consumer) (destination : List Byte) : Answer :=
  if consumer.attached then VersionedSequential.read q s consumer.nextSequence destination
  else ⟨consumer.nextSequence,destination,⟨.invalidConsumer,0,consumer.nextSequence⟩⟩

/-- The move constructor of its handles. -/
def moveConstruct (other : MulticastModel.Consumer) :
    MulticastModel.Consumer × MulticastModel.Consumer :=
  other.transfer

/-- The move assignment of its handles; `same` tells that both are one
object. -/
def moveAssign (same : Bool) (target other : MulticastModel.Consumer) :
    MulticastModel.Consumer × MulticastModel.Consumer :=
  if same then (target,other) else other.transfer

/-- The versioned queue. -/
def versioned (q : VersionedModel.Ring) (N : ℕ) : Ops (VersionedSequential.Queue N) where
  init := .initial N
  tryPublish := VersionedSequential.tryPublish q
  registerConsumer := makeConsumer
  publishedSequence s := s.published
  tryRead := tryRead q
  moveConstruct := moveConstruct
  moveAssign := moveAssign

/-- The mutex-protected queue. -/
def multicast (q : MulticastModel.Ring) (N : ℕ) : Ops (MulticastModel.Queue N) where
  init := .initial N
  tryPublish := MulticastModel.tryPublish q
  registerConsumer := MulticastModel.registerConsumer
  publishedSequence s := s.publishedSequence
  tryRead s consumer destination := consumer.tryRead q s destination
  moveConstruct := MulticastModel.Consumer.moveConstruct
  moveAssign := MulticastModel.Consumer.moveAssign

/-- The mutex-protected queue of the same capacity. -/
def sibling (q : VersionedModel.Ring) : MulticastModel.Ring := q.withOwner _

/-- The cells store the retained part of a history, and no cell is being
written. -/
structure Stores (q : VersionedModel.Ring) (history : List (List Byte))
    (s : VersionedSequential.Queue N) : Prop where
  /-- The private counter is the length of the history. -/
  produced : s.produced=history.length
  /-- The boundary is the length of the history. -/
  published : s.published=history.length
  /-- All versions are even. -/
  stable : ∀ i,(s.cells i).version%2=0
  /-- The retained window is in the cells. -/
  retained : RetainedSlots q.capacity (fun i => (s.cells i).content) history

/-- Both queues store the same history. -/
def Agree (q : VersionedModel.Ring) (s : VersionedSequential.Queue N) (t : MulticastModel.Queue N) :
    Prop :=
  ∃ history,Stores q history s ∧ t.publishedSequence=history.length ∧
    RetainedSlots q.capacity t.slots history

section Versioned

variable {q : VersionedModel.Ring} {history : List (List Byte)} {s : VersionedSequential.Queue N}

/-- An accepted publication extends the history. -/
theorem Stores.publish (h : Stores q history s) {payload : List Byte} (hp : payload.length≤N) :
    Stores q (history++[payload]) (VersionedSequential.tryPublish q s payload).1 ∧
      (VersionedSequential.tryPublish q s payload).2=⟨.success,history.length+1⟩ := by
  have hfits : ¬N<payload.length := Nat.not_lt.mpr hp
  have hlength : (history++[payload]).length=history.length+1 := by simp
  have hwindow := h.retained.publish hp
  simp only [VersionedSequential.tryPublish,if_neg hfits,h.produced]
  refine ⟨⟨hlength.symm,hlength.symm,?_,?_⟩,trivial⟩
  · intro i
    by_cases hi : i=index q (history.length+1)
    · rw [hi]
      simp only [update_self]
      have heven := h.stable (index q (history.length+1))
      omega
    · simp only [update_of_ne hi]
      exact h.stable i
  · simp only [assign,if_neg hfits] at hwindow
    convert hwindow using 2 with i
    by_cases hi : i=history.length%q.capacity
    · simp only [hi,index,Nat.add_sub_cancel,update_self]
    · simp only [index,Nat.add_sub_cancel,update_of_ne hi]

/-- A read of the cells is the read of the history. The first attempt copies
the cell, and the cell of a retained cursor holds it. -/
theorem Stores.read (h : Stores q history s) {cursor : ℕ} (hpos : 1≤cursor)
    (destination : List Byte) :
    VersionedSequential.read q s cursor destination=
      readHistory q.capacity history cursor destination := by
  unfold VersionedSequential.read readHistory
  simp only [h.published,oldestRetained_eq_max]
  by_cases hempty : history.length<cursor
  · rw [if_pos hempty,if_pos hempty]
  · rw [if_neg hempty,if_neg hempty]
    by_cases hlag : cursor < max 1 (history.length+1-q.capacity)
    · rw [if_pos hlag,if_pos hlag]
    · have hcell : Holds (s.cells (index q cursor)).content (payloadOf history cursor) cursor :=
        h.retained cursor hpos (by omega) (by omega)
      rw [if_neg hlag,if_neg hlag,VersionedModel.readAttempts,attempts_of_even (h.stable _),conclude,
        if_neg (not_not.mpr hcell.sequence_eq),deliver_of_holds hcell]

end Versioned

/-- No call can tell the two queues apart. -/
theorem interchangeable (q : VersionedModel.Ring) (N : ℕ) :
    Interchangeable (versioned q N) (multicast (sibling q) N) (Agree q) where
  init := ⟨[],⟨rfl,rfl,fun _ => rfl,retainedSlots_nil _ _⟩,rfl,retainedSlots_nil _ _⟩
  publish := by
    rintro s t payload ⟨history,hs,hpublished,hslots⟩
    by_cases hp : N<payload.length
    · simp only [versioned,multicast,VersionedSequential.tryPublish,MulticastModel.tryPublish,
        if_pos hp]
      exact ⟨⟨history,hs,hpublished,hslots⟩,trivial⟩
    · obtain ⟨hs',hresult⟩ := hs.publish (Nat.not_lt.mp hp)
      have hslots' := hslots.publish (Nat.not_lt.mp hp)
      refine ⟨⟨history++[payload],hs',?_,?_⟩,?_⟩
      · simp [multicast,MulticastModel.tryPublish,hp,hpublished]
      · simp only [multicast,MulticastModel.tryPublish,if_neg hp,hpublished,Nat.add_sub_cancel]
        exact hslots'
      · simp only [versioned,hresult]
        simp only [multicast,MulticastModel.tryPublish,if_neg hp,assign,hpublished]
  register := by
    rintro s t ⟨history,hs,hpublished,-⟩
    refine ⟨?_,Nat.le_add_left _ _⟩
    simp only [versioned,multicast,makeConsumer,MulticastModel.registerConsumer,hs.published,
      hpublished]
  published := by
    rintro s t ⟨history,hs,hpublished,-⟩
    exact hs.published.trans hpublished.symm
  read := by
    rintro s t consumer destination ⟨history,hs,hpublished,hslots⟩ hpos
    simp only [versioned,multicast,tryRead,MulticastModel.Consumer.tryRead]
    have hcells := hs.read hpos destination
    have hring := MulticastRefinement.tryRead_eq_readHistory (q:=sibling q) hpublished hslots hpos
      destination
    split
    · rw [hcells,hring]
      exact ⟨rfl,readHistory_cursor_pos history destination hpos⟩
    · exact ⟨rfl,hpos⟩
  moveConstruct := fun _ hpos => ⟨rfl,hpos,hpos⟩
  moveAssign := by
    intro same target other htarget hother
    refine ⟨rfl,?_⟩
    cases same with
    | false => exact ⟨hother,hother⟩
    | true => exact ⟨htarget,hother⟩

/-- Every session returns the same from both queues, and leaves the same
cursors in all handles. -/
theorem multicast_queues_interchangeable (q : VersionedModel.Ring) (N : ℕ) (η : Type)
    [DecidableEq η] (actions : List (Action η)) :
    (machine (versioned q N) η).answers (fun _ => true) actions=
      (machine (multicast (sibling q) N) η).answers (fun _ => true) actions ∧
    ((machine (versioned q N) η).final actions).handles=
      ((machine (multicast (sibling q) N) η).final actions).handles := by
  obtain ⟨hsame,hanswers⟩ := (interchangeable q N).sessions (fun _ => true) actions
  exact ⟨hanswers,hsame.handles⟩

/-- A handle is moved after its consumer was overtaken, and used through the
new handle and through the old one; it is assigned to itself and moved back. -/
def movedSession : List (Action Bool) :=
  [.register false,.publish [1],.publish [2,3],.publish [4],.moveConstruct true false,
    .read false [9],.read true [9,9],.read true [9],.moveAssign true true,.read true [9,9],
    .moveAssign false true,.read true [9],.nextSequence false,.publishedSequence]

/-- This session on the versioned queue, as on its sibling: the old handle is
rejected, the new one reports the lag, rejects the short destination and
delivers. -/
theorem multicast_queues_interchangeable_moved :
    (machine (versioned (.ofSucc _ 1) 2) Bool).answers (fun _ => true) movedSession=
      [.done,.wrote ⟨.success,1⟩,.wrote ⟨.success,2⟩,.wrote ⟨.success,3⟩,.done,
        .answered ⟨1,[9],⟨.invalidConsumer,0,1⟩⟩,.answered ⟨2,[9,9],⟨.consumerLagged,0,2⟩⟩,
        .answered ⟨2,[9],⟨.messageTooLarge,0,2⟩⟩,.done,.answered ⟨3,[2,3],⟨.success,2,2⟩⟩,.done,
        .answered ⟨3,[9],⟨.invalidConsumer,0,3⟩⟩,.sequence 3,.sequence 3] := by
  rw [(multicast_queues_interchangeable (.ofSucc _ 1) 2 Bool movedSession).1]
  decide +kernel

end Line64.SequentialMulticast
