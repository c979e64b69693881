import Line64.FixedMessageAccess
import Line64.RingIndex

/-!
# Unbounded history with a retained window

What a multicast queue is for: publications form one unbounded list, every
consumer reads it at its own cursor, and only the last `capacity`
publications can still be read. A ring of slots is a sound store for the
window as soon as each retained sequence is in the slot of its index.
-/

namespace Line64.RetainedHistory

open Function Result FixedMessageAccess

/-- Oldest sequence that is still retained, as the queues compute it. -/
def oldestRetained (capacity published : ℕ) : ℕ :=
  if capacity≤published then published-capacity+1 else 1

/-- The oldest retained sequence is at least one. -/
theorem oldestRetained_pos (capacity published : ℕ) : 1≤oldestRetained capacity published := by
  unfold oldestRetained
  split <;> omega

/-- A positive sequence has left the window exactly after `capacity` more
publications. -/
theorem lt_oldestRetained_iff {capacity published sequence : ℕ} (hs : 1 ≤ sequence) :
    sequence<oldestRetained capacity published ↔ sequence+capacity≤published := by
  unfold oldestRetained
  split <;> omega

/-- The same bound without a case distinction. -/
theorem oldestRetained_eq_max (capacity published : ℕ) :
    oldestRetained capacity published=max 1 (published+1-capacity) := by
  unfold oldestRetained
  split <;> omega

/-- A window of positive size never passes the next publication. -/
theorem oldestRetained_le {capacity : ℕ} (hc : 0<capacity) (published : ℕ) :
    oldestRetained capacity published≤published+1 := by
  unfold oldestRetained
  split <;> omega

/-- Outcome of one read: new cursor, destination and result record. -/
structure Answer where
  /-- Cursor of the consumer after the call. -/
  cursor : ℕ
  /-- Destination after the call. -/
  destination : List Byte
  /-- Returned record. -/
  result : ReadResult
  deriving DecidableEq, Repr

/-- Payload with a given sequence; sequences start at one. -/
def payloadOf (history : List (List Byte)) (sequence : ℕ) : List Byte :=
  history.getD (sequence-1) []

/-- A read of the history at a cursor. -/
def readHistory (capacity : ℕ) (history : List (List Byte)) (cursor : ℕ)
    (destination : List Byte) : Answer :=
  let oldest := max 1 (history.length+1-capacity)
  let payload := payloadOf history cursor
  if history.length<cursor then ⟨cursor,destination,⟨.empty,0,cursor⟩⟩
  else if cursor<oldest then ⟨oldest,destination,⟨.consumerLagged,0,oldest⟩⟩
  else if destination.length<payload.length then
    ⟨cursor,destination,⟨.messageTooLarge,0,cursor⟩⟩
  else ⟨cursor+1,payload++destination.drop payload.length,⟨.success,payload.length,cursor⟩⟩

/-- Reads of the history never report an overwrite. -/
theorem readHistory_status (capacity : ℕ) (history : List (List Byte)) (cursor : ℕ)
    (destination : List Byte) :
    (readHistory capacity history cursor destination).result.status≠.overwritten := by
  unfold readHistory
  dsimp only
  split
  · exact nofun
  · split
    · exact nofun
    · split <;> exact nofun

/-- Cursors stay positive. -/
theorem readHistory_cursor_pos {capacity cursor : ℕ} (history : List (List Byte))
    (destination : List Byte) (hc : 1≤cursor) :
    1≤(readHistory capacity history cursor destination).cursor := by
  unfold readHistory
  dsimp only
  split
  · exact hc
  · split
    · exact le_max_left _ _
    · split
      · exact hc
      · exact Nat.le_add_left _ _

/-- Earlier payloads are not changed by a publication. -/
theorem payloadOf_append_of_le {history : List (List Byte)} {sequence : ℕ} (payload : List Byte)
    (hpos : 1 ≤ sequence) (hle : sequence≤history.length) :
    payloadOf (history++[payload]) sequence=payloadOf history sequence := by
  simp only [payloadOf,List.getD_eq_getElem?_getD]
  rw [List.getElem?_append_left (by omega)]

/-- The newest payload is the published one. -/
theorem payloadOf_append_self (history : List (List Byte)) (payload : List Byte) :
    payloadOf (history++[payload]) (history.length+1)=payload := by
  simp [payloadOf]

/-- A payload of the history, read as an element of the list. -/
theorem getElem?_payloadOf {history : List (List Byte)} {sequence : ℕ} (hpos : 1 ≤ sequence)
    (hle : sequence≤history.length) :
    history[sequence-1]?=some (payloadOf history sequence) := by
  rw [payloadOf,List.getD_eq_getElem?_getD,List.getElem?_eq_getElem (by omega),Option.getD_some]

/-- Every retained sequence is in the slot of its index, with its payload. -/
def RetainedSlots {N : ℕ} (capacity : ℕ) (slots : ℕ → FixedMessage N)
    (history : List (List Byte)) : Prop :=
  ∀ sequence,1 ≤ sequence → sequence≤history.length → history.length<sequence+capacity →
    Holds (slots ((sequence-1)%capacity)) (payloadOf history sequence) sequence

/-- Nothing has to be retained before the first publication. -/
theorem retainedSlots_nil {N : ℕ} (capacity : ℕ) (slots : ℕ → FixedMessage N) :
    RetainedSlots capacity slots [] := by
  intro sequence hpos hle
  rw [List.length_nil] at hle
  omega

/-- Assigning the next publication to the slot of its index keeps the
window: every other retained sequence has another index. -/
theorem RetainedSlots.publish {N capacity : ℕ} {slots : ℕ → FixedMessage N}
    {history : List (List Byte)} {payload : List Byte}
    (h : RetainedSlots capacity slots history) (hp : payload.length≤N) :
    RetainedSlots capacity
      (update slots (history.length%capacity)
        (assign payload (history.length+1) (slots (history.length%capacity))).1)
      (history++[payload]) := by
  intro sequence hpos hle hwindow
  rw [List.length_append,List.length_singleton] at hle hwindow
  rcases Nat.eq_or_lt_of_le hle with rfl | hlt
  · have hassign := assign_holds (history.length+1) (slots (history.length%capacity)) hp
    rw [Nat.add_sub_cancel,update_self,payloadOf_append_self]
    exact hassign
  · have hne : (sequence-1)%capacity≠history.length%capacity := by
      intro he
      have heq := RingIndex.eq_of_index_eq he (by omega) (by omega)
      omega
    have hold := h sequence hpos (by omega) (by omega)
    rw [update_of_ne hne,payloadOf_append_of_le payload hpos (by omega)]
    exact hold

end Line64.RetainedHistory
