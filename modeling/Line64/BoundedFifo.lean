import Mathlib.Data.List.Basic
import Line64.FixedMessageAccess
import Line64.Mealy

/-!
# Bounded first-in first-out queues of messages

The sequential meaning of the exclusive queues: a list of at most `capacity`
payloads, with sequences counted from one. A flag says whether a pop that
finds too small a destination leaves the message in place. A log of
completed calls is explained if the list produces every logged result.
-/

namespace Line64.BoundedFifo

open Result FixedMessageAccess Mealy

/-- Number of removed messages, and the messages that are still queued. -/
structure Fifo where
  /-- Messages removed so far. -/
  popped : ℕ
  /-- Queued payloads, oldest first. -/
  queue : List (List Byte)
  deriving DecidableEq, Repr

/-- A push to the list. -/
def Fifo.push (N capacity : ℕ) (f : Fifo) (payload : List Byte) : Fifo × WriteResult :=
  if N<payload.length then (f,⟨.messageTooLarge,0⟩)
  else if f.queue.length=capacity then (f,⟨.full,0⟩)
  else (⟨f.popped,f.queue++[payload]⟩,⟨.success,f.popped+f.queue.length+1⟩)

/-- A pop from the list, with the destination it writes. -/
def Fifo.pop (keepsRejected : Bool) (f : Fifo) (destination : List Byte) :
    Fifo × List Byte × ReadResult :=
  match f.queue with
  | [] => (f,destination,⟨.empty,0,0⟩)
  | payload::rest =>
    (if keepsRejected ∧ destination.length<payload.length then f else ⟨f.popped+1,rest⟩,
      delivery payload (f.popped+1) destination)

/-- A push that finds room. -/
theorem Fifo.push_of_room {N capacity : ℕ} {f : Fifo} {payload : List Byte}
    (hp : payload.length≤N) (hroom : f.queue.length≠capacity) :
    f.push N capacity payload=
      (⟨f.popped,f.queue++[payload]⟩,⟨.success,f.popped+f.queue.length+1⟩) := by
  rw [Fifo.push,if_neg (Nat.not_lt.mpr hp),if_neg hroom]

/-- A pop into a large enough destination removes the front. -/
theorem Fifo.pop_of_fits (keepsRejected : Bool) {f : Fifo} {payload destination : List Byte}
    {rest : List (List Byte)} (hqueue : f.queue=payload::rest)
    (hfits : payload.length≤destination.length) :
    f.pop keepsRejected destination=
      (⟨f.popped+1,rest⟩,delivery payload (f.popped+1) destination) := by
  have hkeep : ¬(keepsRejected=true ∧ destination.length<payload.length) := by omega
  rw [Fifo.pop,hqueue]
  simp only [if_neg hkeep]

/-- A pop into a smaller destination may leave the front in place. -/
theorem Fifo.pop_of_rejects {f : Fifo} {payload destination : List Byte}
    {rest : List (List Byte)} (hqueue : f.queue=payload::rest)
    (hshort : destination.length<payload.length) :
    f.pop true destination=(f,delivery payload (f.popped+1) destination) := by
  rw [Fifo.pop,hqueue]
  simp [hshort]

/-- A completed call with its arguments and everything it returned. -/
inductive Event
  | push (payload : List Byte) (result : WriteResult)
  | pop (original destination : List Byte) (result : ReadResult)
  deriving DecidableEq, Repr

/-- The list, run over the calls of a log in order, returns what is logged
and ends in the given state. -/
inductive Explains (N capacity : ℕ) (keepsRejected : Bool) : List Event → Fifo → Prop
  | nil : Explains N capacity keepsRejected [] ⟨0,[]⟩
  | push {log : List Event} {f f' : Fifo} {payload : List Byte} {result : WriteResult} :
      Explains N capacity keepsRejected log f → f.push N capacity payload=(f',result) →
      Explains N capacity keepsRejected (log++[.push payload result]) f'
  | pop {log : List Event} {f f' : Fifo} {original destination : List Byte}
      {result : ReadResult} : Explains N capacity keepsRejected log f →
      f.pop keepsRejected original=(f',destination,result) →
      Explains N capacity keepsRejected (log++[.pop original destination result]) f'

/-- Payload and result of a successful push. -/
def Event.successfulPush : Event → Option (List Byte × WriteResult)
  | .push payload result => if ok result.status then some (payload,result) else none
  | .pop _ _ _ => none

/-- Destinations and result of a successful pop. -/
def Event.successfulPop : Event → Option (List Byte × List Byte × ReadResult)
  | .push _ _ => none
  | .pop original destination result =>
    if ok result.status then some (original,destination,result) else none

/-- The successful pushes of a log. -/
def pushed (log : List Event) : List (List Byte × WriteResult) :=
  log.filterMap Event.successfulPush

/-- The successful pops of a log. -/
def popped (log : List Event) : List (List Byte × List Byte × ReadResult) :=
  log.filterMap Event.successfulPop

/-- One more event, seen by the list of successful pushes. -/
theorem pushed_append (log : List Event) (event : Event) :
    pushed (log++[event])=pushed log++event.successfulPush.toList := by
  rw [pushed,List.filterMap_append]
  cases h : event.successfulPush <;> simp [pushed,h]

/-- One more event, seen by the list of successful pops. -/
theorem popped_append (log : List Event) (event : Event) :
    popped (log++[event])=popped log++event.successfulPop.toList := by
  rw [popped,List.filterMap_append]
  cases h : event.successfulPop <;> simp [popped,h]

/-- The list holds exactly the payloads that were pushed and not removed. -/
structure Conserves (log : List Event) (f : Fifo) : Prop where
  /-- Successful pops are counted. -/
  popped_eq : f.popped=(popped log).length
  /-- Removed and queued payloads are the pushed ones, in order. -/
  queue_eq : f.queue=((pushed log).map Prod.fst).drop f.popped
  /-- No more is removed than was pushed. -/
  popped_le : f.popped≤(pushed log).length
  /-- The pushes are numbered from one. -/
  push_sequence : ∀ (i : ℕ) (payload : List Byte) (result : WriteResult),
    (pushed log)[i]?=some (payload,result) → result=⟨.success,i+1⟩
  /-- Each successful pop delivers the push of the same number. -/
  pop_delivery : ∀ (i : ℕ) (original destination : List Byte) (result : ReadResult),
    (popped log)[i]?=some (original,destination,result) →
    ∃ (payload : List Byte) (written : WriteResult),(pushed log)[i]?=some (payload,written) ∧
      payload.length≤original.length ∧ destination=payload++original.drop payload.length ∧
      result=⟨.success,payload.length,i+1⟩

/-- Payloads in the list and in front of it. -/
theorem Conserves.length_eq {log : List Event} {f : Fifo} (h : Conserves log f) :
    (pushed log).length=f.popped+f.queue.length := by
  have hle := h.popped_le
  rw [h.queue_eq,List.length_drop,List.length_map]
  omega

/-- The front of the list is the oldest push that was not removed. -/
theorem Conserves.front {log : List Event} {f : Fifo} {payload : List Byte}
    {rest : List (List Byte)} (h : Conserves log f) (hqueue : f.queue=payload::rest) :
    ∃ written,(pushed log)[f.popped]?=some (payload,written) := by
  have hdrop : ((pushed log).map Prod.fst).drop f.popped=payload::rest := by
    rw [← h.queue_eq,hqueue]
  have hget : ((pushed log).map Prod.fst)[f.popped]?=some payload := by
    have hhead := congrArg (fun l => l[0]?) hdrop
    simpa only [List.getElem?_drop,Nat.add_zero,List.getElem?_cons_zero] using hhead
  rw [List.getElem?_map] at hget
  obtain ⟨⟨front,written⟩,hpushed,rfl⟩ := Option.map_eq_some_iff.mp hget
  exact ⟨written,hpushed⟩

/-- Delivery succeeds exactly into a large enough destination. -/
theorem delivery_of_fits {payload destination : List Byte} (sequence : ℕ)
    (h : payload.length≤destination.length) :
    delivery payload sequence destination=
      (payload++destination.drop payload.length,⟨.success,payload.length,sequence⟩) :=
  if_neg (Nat.not_lt.mpr h)

/-- Delivery into a smaller destination is refused. -/
theorem delivery_of_rejects {payload destination : List Byte} (sequence : ℕ)
    (h : destination.length<payload.length) :
    delivery payload sequence destination=(destination,⟨.messageTooLarge,0,sequence⟩) :=
  if_pos h

/-- An event that is neither a successful push nor a successful pop changes
nothing. -/
theorem Conserves.unsuccessful {log : List Event} {f : Fifo} (h : Conserves log f) {event : Event}
    (hpush : event.successfulPush=none) (hpop : event.successfulPop=none) :
    Conserves (log++[event]) f := by
  have hp : pushed (log++[event])=pushed log := by
    rw [pushed_append,hpush,Option.toList_none,List.append_nil]
  have hq : popped (log++[event])=popped log := by
    rw [popped_append,hpop,Option.toList_none,List.append_nil]
  constructor
  · rw [hq]
    exact h.popped_eq
  · rw [hp]
    exact h.queue_eq
  · rw [hp]
    exact h.popped_le
  · rw [hp]
    exact h.push_sequence
  · rw [hp,hq]
    exact h.pop_delivery

/-- A successful push gets the next number and joins the queue. -/
theorem Conserves.push {log : List Event} {f : Fifo} (h : Conserves log f) (payload : List Byte) :
    Conserves (log++[.push payload ⟨.success,f.popped+f.queue.length+1⟩])
      ⟨f.popped,f.queue++[payload]⟩ := by
  have hlen := h.length_eq
  have hle := h.popped_le
  have hp := pushed_append log (.push payload ⟨.success,f.popped+f.queue.length+1⟩)
  have hq := popped_append log (.push payload ⟨.success,f.popped+f.queue.length+1⟩)
  simp only [Event.successfulPush,Event.successfulPop,ok_iff,if_true,Option.toList_some,
    Option.toList_none,List.append_nil] at hp hq
  constructor
  · rw [hq]
    exact h.popped_eq
  · rw [hp,List.map_append,List.drop_append_of_le_length (by rw [List.length_map]; exact hle),
      ← h.queue_eq]
    rfl
  · rw [hp,List.length_append]
    exact Nat.le_add_right_of_le hle
  · intro i other result hi
    rw [hp,List.getElem?_append] at hi
    split at hi
    · exact h.push_sequence i other result hi
    · have hlast : i-(pushed log).length=0 := by
        have hbound := (List.getElem?_eq_some_iff.mp hi).1
        rw [List.length_singleton] at hbound
        omega
      rw [hlast] at hi
      cases hi
      have hnumber : f.popped+f.queue.length=i := by omega
      rw [hnumber]
  · intro i original destination result hi
    rw [hq] at hi
    obtain ⟨other,written,hget,hrest⟩ := h.pop_delivery i original destination result hi
    have hbound := (List.getElem?_eq_some_iff.mp hget).1
    refine ⟨other,written,?_,hrest⟩
    rw [hp,List.getElem?_append_left hbound]
    exact hget

/-- A successful pop removes the front and delivers it. -/
theorem Conserves.pop {log : List Event} {f : Fifo} {payload : List Byte}
    {rest : List (List Byte)} {original : List Byte} (h : Conserves log f)
    (hqueue : f.queue=payload::rest) (hfits : payload.length≤original.length) :
    Conserves (log++[.pop original (payload++original.drop payload.length)
        ⟨.success,payload.length,f.popped+1⟩]) ⟨f.popped+1,rest⟩ := by
  have hlen := h.length_eq
  have hcount := h.popped_eq
  have hfront : ((pushed log).map Prod.fst).drop f.popped=payload::rest := by
    rw [← h.queue_eq,hqueue]
  have hp := pushed_append log (.pop original (payload++original.drop payload.length)
    ⟨.success,payload.length,f.popped+1⟩)
  have hq := popped_append log (.pop original (payload++original.drop payload.length)
    ⟨.success,payload.length,f.popped+1⟩)
  simp only [Event.successfulPush,Event.successfulPop,ok_iff,if_true,Option.toList_some,
    Option.toList_none,List.append_nil] at hp hq
  rw [hqueue,List.length_cons] at hlen
  constructor
  · rw [hq,List.length_append,← hcount]
    rfl
  · rw [hp,← List.drop_drop,hfront]
    rfl
  · rw [hp]
    show f.popped+1≤_
    omega
  · rw [hp]
    exact h.push_sequence
  · intro i other destination result hi
    rw [hq,List.getElem?_append] at hi
    rw [hp]
    split at hi
    · exact h.pop_delivery i other destination result hi
    · have hlast : i-(popped log).length=0 := by
        have hbound := (List.getElem?_eq_some_iff.mp hi).1
        rw [List.length_singleton] at hbound
        omega
      rw [hlast] at hi
      cases hi
      have hnumber : f.popped=i := by omega
      obtain ⟨written,hget⟩ := h.front hqueue
      rw [hnumber] at hget ⊢
      exact ⟨payload,written,hget,hfits,rfl,rfl⟩

/-- Every explained log of a queue that keeps rejected messages delivers the
pushes in order. -/
theorem Explains.conserves {N capacity : ℕ} {log : List Event} {f : Fifo}
    (h : Explains N capacity true log f) : Conserves log f := by
  induction h with
  | nil => exact ⟨rfl,rfl,Nat.le_refl _,nofun,nofun⟩
  | @push log f f' payload result _ hpush ih =>
    unfold Fifo.push at hpush
    split at hpush
    · cases hpush
      exact ih.unsuccessful rfl rfl
    · split at hpush
      · cases hpush
        exact ih.unsuccessful rfl rfl
      · cases hpush
        exact ih.push payload
  | @pop log f f' original destination result _ hpop ih =>
    cases hqueue : f.queue with
    | nil =>
      rw [Fifo.pop,hqueue] at hpop
      cases hpop
      exact ih.unsuccessful rfl rfl
    | cons payload rest =>
      by_cases hshort : original.length<payload.length
      · rw [Fifo.pop_of_rejects hqueue hshort,delivery_of_rejects _ hshort] at hpop
        cases hpop
        exact ih.unsuccessful rfl rfl
      · have hfits := Nat.not_lt.mp hshort
        rw [Fifo.pop_of_fits true hqueue hfits,delivery_of_fits _ hfits] at hpop
        cases hpop
        exact ih.pop hqueue hfits

/-- The operations of a queue. -/
inductive Call
  | push (payload : List Byte)
  | pop (destination : List Byte)
  | empty
  deriving DecidableEq, Repr

/-- Everything an operation hands back. -/
inductive Answer
  | pushed (result : WriteResult)
  | popped (destination : List Byte) (result : ReadResult)
  | observed (empty : Bool)
  deriving DecidableEq, Repr

/-- One operation on the list. -/
def Fifo.perform (N capacity : ℕ) (keepsRejected : Bool) (f : Fifo) : Call → Fifo × Answer
  | .push payload => ((f.push N capacity payload).1,.pushed (f.push N capacity payload).2)
  | .pop destination =>
    ((f.pop keepsRejected destination).1,
      .popped (f.pop keepsRejected destination).2.1 (f.pop keepsRejected destination).2.2)
  | .empty => (f,.observed f.queue.isEmpty)

/-- The bounded list as a machine. -/
def fifo (N capacity : ℕ) (keepsRejected : Bool) : Machine Fifo Call Answer where
  init := ⟨0,[]⟩
  perform := Fifo.perform N capacity keepsRejected

/-- A pop has room for the front of the list. -/
def Fits (f : Fifo) : Call → Prop
  | .pop destination => ∀ payload ∈ f.queue.head?,payload.length≤destination.length
  | _ => True

/-- Where every destination is large enough the flag makes no difference. -/
theorem Fifo.perform_of_fits (N capacity : ℕ) {f : Fifo} {call : Call} (h : Fits f call) :
    f.perform N capacity false call=f.perform N capacity true call := by
  cases call with
  | push payload => rfl
  | empty => rfl
  | pop destination =>
    cases hqueue : f.queue with
    | nil => simp only [Fifo.perform,Fifo.pop,hqueue]
    | cons payload rest =>
      have hfits : payload.length≤destination.length := h payload (by rw [hqueue]; rfl)
      simp only [Fifo.perform,Fifo.pop_of_fits _ hqueue hfits]

/-- A log that ends in a push is explained up to it. -/
theorem Explains.push_inv {N capacity : ℕ} {keepsRejected : Bool} {log : List Event} {f' : Fifo}
    {payload : List Byte} {result : WriteResult}
    (h : Explains N capacity keepsRejected (log++[.push payload result]) f') :
    ∃ f,Explains N capacity keepsRejected log f ∧ f.push N capacity payload=(f',result) := by
  generalize hlog : log++[Event.push payload result]=whole at h
  cases h with
  | nil => simp at hlog
  | push hrest hpush =>
    obtain ⟨rfl,he⟩ := List.append_inj' hlog rfl
    cases he
    exact ⟨_,hrest,hpush⟩
  | pop _ _ =>
    obtain ⟨-,he⟩ := List.append_inj' hlog rfl
    cases he

/-- A log that ends in a pop is explained up to it. -/
theorem Explains.pop_inv {N capacity : ℕ} {keepsRejected : Bool} {log : List Event} {f' : Fifo}
    {original destination : List Byte} {result : ReadResult}
    (h : Explains N capacity keepsRejected (log++[.pop original destination result]) f') :
    ∃ f,Explains N capacity keepsRejected log f ∧
      f.pop keepsRejected original=(f',destination,result) := by
  generalize hlog : log++[Event.pop original destination result]=whole at h
  cases h with
  | nil => simp at hlog
  | push _ _ =>
    obtain ⟨-,he⟩ := List.append_inj' hlog rfl
    cases he
  | pop hrest hpop =>
    obtain ⟨rfl,he⟩ := List.append_inj' hlog rfl
    cases he
    exact ⟨_,hrest,hpop⟩

/-- A log is explained by one list only. -/
theorem Explains.unique {N capacity : ℕ} {keepsRejected : Bool} {log : List Event} {f f' : Fifo}
    (h : Explains N capacity keepsRejected log f) (h' : Explains N capacity keepsRejected log f') :
    f=f' := by
  induction h generalizing f' with
  | nil =>
    generalize hlog : ([] : List Event)=log at h'
    cases h' with
    | nil => rfl
    | push _ _ => simp at hlog
    | pop _ _ => simp at hlog
  | push _ hpush ih =>
    obtain ⟨g,hg,hpush'⟩ := h'.push_inv
    rw [ih hg,hpush'] at hpush
    exact (Prod.mk.inj hpush).1.symm
  | pop _ hpop ih =>
    obtain ⟨g,hg,hpop'⟩ := h'.pop_inv
    rw [ih hg,hpop'] at hpop
    exact (Prod.mk.inj hpop).1.symm

end Line64.BoundedFifo
