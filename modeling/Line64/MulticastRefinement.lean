import Mathlib.Data.List.Induction
import Line64.MulticastModel

/-!
# The multicast queue refines the unbounded history

The ring of slots, the published counter and the consumer handles behave as
the list of all accepted payloads read at independent cursors. An overwrite
report is therefore unreachable, and the reads of one consumer are invisible
to all others.
-/

namespace Line64.MulticastRefinement

open Function Result FixedMessageAccess RetainedHistory Mealy MulticastModel

/-- The purpose of the queue: all accepted payloads and one cursor for each
registered consumer. -/
structure Log (κ : Type) where
  /-- Accepted payloads, oldest first. -/
  history : List (List Byte)
  /-- Cursors of the registered consumers. -/
  cursors : κ → Option ℕ

variable {κ : Type} {N : ℕ}

section Definitions

variable [DecidableEq κ]

/-- One operation on the unbounded history. -/
def performLog (N capacity : ℕ) (t : Log κ) : Action κ → Log κ × Output
  | .publish payload =>
    if N<payload.length then (t,.wrote ⟨.messageTooLarge,0⟩)
    else ({t with history := t.history++[payload]},.wrote ⟨.success,t.history.length+1⟩)
  | .register c =>
    ({t with cursors := update t.cursors c (some (t.history.length+1))},
      .registered (t.history.length+1))
  | .read c destination =>
    match t.cursors c with
    | none => (t,.absent)
    | some cursor =>
      let answer := readHistory capacity t.history cursor destination
      ({t with cursors := update t.cursors c (some answer.cursor)},.answered answer)

/-- The unbounded history as a machine over the same operations. -/
def logMachine (N capacity : ℕ) (κ : Type) [DecidableEq κ] :
    Machine (Log κ) (Action κ) Output where
  init := ⟨[],fun _ => none⟩
  perform := performLog N capacity

end Definitions

/-- Payloads accepted by a list of operations. -/
def accepted (N : ℕ) (actions : List (Action κ)) : List (List Byte) :=
  actions.filterMap fun
    | .publish payload => if N<payload.length then none else some payload
    | _ => none

/-- Two states that agree on the queue and on one consumer. -/
def AgreeOn (c : κ) (s t : State κ N) : Prop :=
  s.queue=t.queue ∧ s.consumers c=t.consumers c

/-- What the queue shows of the history, in one state. -/
structure FollowsHistory (q : Ring) (s : State κ N) (history : List (List Byte)) : Prop where
  /-- The published sequence counts the accepted payloads. -/
  published : s.queue.publishedSequence=history.length
  /-- A registration starts behind the history. -/
  registration : registerConsumer s.queue=⟨true,history.length+1⟩
  /-- A read by any consumer, with any destination, is the read of the
  history at its cursor. -/
  read : ∀ c consumer destination,s.consumers c=some consumer →
    1≤consumer.nextSequence ∧ consumer.tryRead q s.queue destination=
      readHistory q.capacity history consumer.nextSequence destination

/-- The queue stores the retained part of the history and the cursors. -/
structure Represents (q : Ring) (s : State κ N) (t : Log κ) : Prop where
  /-- The published counter is the length of the history. -/
  published : s.queue.publishedSequence=t.history.length
  /-- The retained window is in the slots. -/
  retained : RetainedSlots q.capacity s.queue.slots t.history
  /-- All handles are attached and hold the cursors. -/
  consumers : ∀ c,s.consumers c=(t.cursors c).map fun cursor => ⟨true,cursor⟩
  /-- Cursors are sequences, so they are positive. -/
  cursors_pos : ∀ c cursor,t.cursors c=some cursor → 1≤cursor

/-- The critical section of `try_read` computes the read of the history. The
slot check never fails because the slot of a retained cursor holds it. -/
theorem tryRead_eq_readHistory {q : Ring} {s : Queue N} {history : List (List Byte)}
    (hpub : s.publishedSequence=history.length)
    (hret : RetainedSlots q.capacity s.slots history) {cursor : ℕ} (hpos : 1≤cursor)
    (destination : List Byte) :
    tryRead q s cursor destination=readHistory q.capacity history cursor destination := by
  unfold tryRead readHistory
  simp only [hpub,oldestRetained_eq_max]
  by_cases hempty : history.length<cursor
  · rw [if_pos hempty,if_pos hempty]
  · rw [if_neg hempty,if_neg hempty]
    by_cases hlag : cursor < max 1 (history.length+1-q.capacity)
    · rw [if_pos hlag,if_pos hlag]
    · have hslot := hret cursor hpos (by omega) (by omega)
      rw [if_neg hlag,if_neg hlag,if_neg (not_not.mpr hslot.sequence_eq),copyTo_of_holds hslot]
      unfold delivery
      split
      · rfl
      · rfl

/-- A publication is accepted by the queue and by the history alike. -/
theorem tryPublish_represents {q : Ring} {s : State κ N} {t : Log κ} (h : Represents q s t)
    {payload : List Byte} (hp : payload.length≤N) :
    Represents q {s with queue := (tryPublish q s.queue payload).1}
      {t with history := t.history++[payload]} ∧
    (tryPublish q s.queue payload).2=⟨.success,t.history.length+1⟩ := by
  have hfits : ¬N<payload.length := by omega
  have hring := h.retained.publish hp
  unfold tryPublish
  simp only [if_neg hfits,h.published,Nat.add_sub_cancel]
  refine ⟨⟨?_,hring,h.consumers,h.cursors_pos⟩,?_⟩
  · simp only [List.length_append,List.length_singleton]
  · simp only [assign,if_neg hfits]

variable [DecidableEq κ]

/-- Setting one cursor on both sides keeps the representation. -/
theorem Represents.setCursor {q : Ring} {s : State κ N} {t : Log κ} (h : Represents q s t) (c : κ)
    {cursor : ℕ} (hpos : 1≤cursor) :
    Represents q {s with consumers := update s.consumers c (some ⟨true,cursor⟩)}
      {t with cursors := update t.cursors c (some cursor)} := by
  refine ⟨h.published,h.retained,?_,?_⟩
  · intro d
    by_cases hd : d=c
    · subst hd
      simp only [update_self,Option.map_some]
    · simp only [update_of_ne hd,h.consumers]
  · intro d cursor' hd'
    by_cases hd : d=c
    · subst hd
      simp only [update_self,Option.some.injEq] at hd'
      omega
    · simp only [update_of_ne hd] at hd'
      exact h.cursors_pos d cursor' hd'

/-- One operation: equal answers, and the representation is kept. -/
theorem Represents.perform {q : Ring} {s : State κ N} {t : Log κ} (h : Represents q s t)
    (a : Action κ) :
    Represents q (MulticastModel.perform q s a).1 (performLog N q.capacity t a).1 ∧
      (MulticastModel.perform q s a).2=(performLog N q.capacity t a).2 := by
  cases a with
  | publish payload =>
    by_cases hp : N<payload.length
    · simp only [MulticastModel.perform,performLog,tryPublish,if_pos hp]
      exact ⟨h,trivial⟩
    · have hboth := tryPublish_represents h (Nat.not_lt.mp hp)
      simp only [MulticastModel.perform,performLog,if_neg hp,hboth.2]
      exact ⟨hboth.1,trivial⟩
  | register c =>
    have hpos : 1≤t.history.length+1 := Nat.le_add_left _ _
    have hset := h.setCursor c hpos
    simp only [MulticastModel.perform,performLog,registerConsumer,h.published]
    exact ⟨hset,trivial⟩
  | read c destination =>
    cases hc : t.cursors c with
    | none =>
      have hs : s.consumers c=none := by rw [h.consumers,hc,Option.map_none]
      simp only [MulticastModel.perform,performLog,hc,hs]
      exact ⟨h,trivial⟩
    | some cursor =>
      have hs : s.consumers c=some ⟨true,cursor⟩ := by rw [h.consumers,hc,Option.map_some]
      have hpos := h.cursors_pos c cursor hc
      have hread := tryRead_eq_readHistory h.published h.retained hpos destination
      have hnext : 1≤(readHistory q.capacity t.history cursor destination).cursor :=
        readHistory_cursor_pos t.history destination hpos
      simp only [MulticastModel.perform,performLog,hc,hs,Consumer.tryRead,if_true,hread]
      exact ⟨h.setCursor c hnext,trivial⟩

/-- Every order of critical sections is answered as by the history. -/
theorem represents_final (q : Ring) (keep : Action κ → Bool) (actions : List (Action κ)) :
    Represents q ((machine q κ N).final actions) ((logMachine N q.capacity κ).final actions) ∧
      (machine q κ N).answers keep actions=(logMachine N q.capacity κ).answers keep actions := by
  refine Machine.simulation (fun s t a h => h.perform a) ?_ keep actions
  exact ⟨rfl,retainedSlots_nil _ _,fun _ => rfl,nofun⟩

/-- The history is the list of accepted payloads. -/
theorem final_history (N capacity : ℕ) (actions : List (Action κ)) :
    ((logMachine N capacity κ).final actions).history=accepted N actions := by
  induction actions using List.reverseRecOn with
  | nil => rfl
  | append_singleton rest a ih =>
    have hlast := Machine.finalFrom_append_singleton (logMachine N capacity κ)
      (logMachine N capacity κ).init rest a
    rw [Machine.final,hlast,accepted,List.filterMap_append]
    change (performLog N capacity ((logMachine N capacity κ).final rest) a).1.history=
      accepted N rest++_
    rw [← ih]
    cases a with
    | publish payload =>
      by_cases hp : N<payload.length
      · simp [performLog,hp]
      · simp [performLog,hp]
    | register c => simp [performLog]
    | read c destination =>
      simp only [performLog]
      split <;> simp

/-- The answers that may depend on consumer `c`: everything but the reads of
the other consumers. -/
def concerns (c : κ) : Action κ → Bool
  | .read d _ => d=c
  | _ => true

/-- Operations that concern `c` only depend on the queue and on `c`. -/
theorem agreeOn_perform (q : Ring) {c : κ} {s t : State κ N} {a : Action κ} (h : AgreeOn c s t)
    (ha : concerns c a=true) :
    AgreeOn c (MulticastModel.perform q s a).1 (MulticastModel.perform q t a).1 ∧
      (MulticastModel.perform q s a).2=(MulticastModel.perform q t a).2 := by
  obtain ⟨hqueue,hconsumer⟩ := h
  cases a with
  | publish payload => exact ⟨⟨by simp only [MulticastModel.perform,hqueue],hconsumer⟩,
      by simp only [MulticastModel.perform,hqueue]⟩
  | register d =>
    refine ⟨⟨hqueue,?_⟩,by simp only [MulticastModel.perform,hqueue]⟩
    simp only [MulticastModel.perform,hqueue]
    by_cases hd : c=d
    · rw [hd,update_self,update_self]
    · rw [update_of_ne hd,update_of_ne hd,hconsumer]
  | read d destination =>
    have hd : d=c := by simpa only [concerns,decide_eq_true_eq] using ha
    subst hd
    simp only [MulticastModel.perform,hconsumer,hqueue]
    cases t.consumers d with
    | none => exact ⟨⟨hqueue,hconsumer⟩,rfl⟩
    | some consumer => exact ⟨⟨rfl,by simp only [update_self]⟩,rfl⟩

/-- The reads of other consumers touch neither the queue nor `c`. -/
theorem agreeOn_dropped (q : Ring) {c : κ} {s t : State κ N} {a : Action κ} (h : AgreeOn c s t)
    (ha : concerns c a=false) : AgreeOn c (MulticastModel.perform q s a).1 t := by
  cases a with
  | publish payload => cases ha
  | register d => cases ha
  | read d destination =>
    have hd : d≠c := by simpa only [concerns,decide_eq_false_iff_not] using ha
    simp only [MulticastModel.perform]
    split
    · exact h
    · exact ⟨h.1,by simp only [update_of_ne hd.symm,h.2]⟩

/-- No operation on the history reports an overwrite. -/
theorem performLog_status (N capacity : ℕ) (t : Log κ) (a : Action κ) (answer : Answer)
    (h : (performLog N capacity t a).2=.answered answer) : answer.result.status≠.overwritten := by
  cases a with
  | publish payload =>
    simp only [performLog] at h
    split at h <;> cases h
  | register c => cases h
  | read c destination =>
    simp only [performLog] at h
    split at h <;> cases h
    exact readHistory_status _ _ _ _

/-- For every order of critical sections the queue answers as the unbounded
history and leaves its cursors in the handles, follows the history of accepted
payloads, never reports an overwrite, and answers each consumer as if the
other consumers had not read. -/
theorem multicast_refines_history (q : Ring) (actions : List (Action κ)) :
    (machine q κ N).answers (fun _ => true) actions=
      (logMachine N q.capacity κ).answers (fun _ => true) actions ∧
    (∀ c,((machine q κ N).final actions).consumers c=
      (((logMachine N q.capacity κ).final actions).cursors c).map fun cursor => ⟨true,cursor⟩) ∧
    FollowsHistory q ((machine q κ N).final actions) (accepted N actions) ∧
    (∀ answer,.answered answer ∈ (machine q κ N).answers (fun _ => true) actions →
      answer.result.status≠.overwritten) ∧
    ∀ c,(machine q κ N).answers (concerns c) (actions.filter (concerns c))=
      (machine q κ N).answers (concerns c) actions := by
  have hrep := represents_final (N:=N) q (fun _ => true) actions
  have hhist := final_history (κ:=κ) N q.capacity actions
  refine ⟨hrep.2,hrep.1.consumers,⟨?_,?_,?_⟩,?_,?_⟩
  · rw [hrep.1.published,hhist]
  · rw [registerConsumer,hrep.1.published,hhist]
  · intro c consumer destination hc
    rw [hrep.1.consumers] at hc
    obtain ⟨cursor,hcursor,rfl⟩ := Option.map_eq_some_iff.mp hc
    have hpos := hrep.1.cursors_pos c cursor hcursor
    have hread := tryRead_eq_readHistory hrep.1.published hrep.1.retained hpos destination
    rw [hhist] at hread
    exact ⟨hpos,hread⟩
  · intro answer hmem
    rw [hrep.2] at hmem
    have hall := Machine.answers_forall (M:=logMachine N q.capacity κ)
      (P:=fun output => ∀ answer,output=.answered answer → answer.result.status≠.overwritten)
      (fun t a answer => performLog_status N q.capacity t a answer) (fun _ => true) actions
    exact hall _ hmem answer rfl
  · intro c
    exact Machine.unwinding (E:=AgreeOn c) (fun s => ⟨rfl,rfl⟩)
      (fun s t a => agreeOn_perform q) (fun s t a => agreeOn_dropped q) actions

/-- A consumer is overtaken in a queue of two slots, comes back with a short
destination and then with a sufficient one; a second consumer starts behind
the history. -/
def overtaken : List (Action Bool) :=
  [.register false,.publish [1],.publish [2,3],.publish [4],.publish [5,6,7],.read false [9],
    .read false [9],.read false [9,9],.register true,.read true [9],.read false [9,9]]

/-- The history gives the answers of the queue at this run: a lag, a rejected
destination, deliveries and an empty read. -/
theorem multicast_refines_history_overtaken :
    (logMachine 2 2 Bool).answers (fun _ => true) overtaken=
      [.registered 1,.wrote ⟨.success,1⟩,.wrote ⟨.success,2⟩,.wrote ⟨.success,3⟩,
        .wrote ⟨.messageTooLarge,0⟩,
        .answered ⟨2,[9],⟨.consumerLagged,0,2⟩⟩,.answered ⟨2,[9],⟨.messageTooLarge,0,2⟩⟩,
        .answered ⟨3,[2,3],⟨.success,2,2⟩⟩,.registered 4,.answered ⟨4,[9],⟨.empty,0,4⟩⟩,
        .answered ⟨4,[4,9],⟨.success,1,3⟩⟩] := by
  have hqueue : (machine (.ofSucc _ 1) Bool 2).answers (fun _ => true) overtaken=
      (logMachine 2 2 Bool).answers (fun _ => true) overtaken :=
    (multicast_refines_history (.ofSucc _ 1) overtaken).1
  rw [← hqueue]
  decide +kernel

end Line64.MulticastRefinement
