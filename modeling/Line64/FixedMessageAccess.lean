import Mathlib.Data.List.Basic
import Line64.Result

/-!
# Bounded messages and their byte-by-byte accesses

A message owns a fixed byte array, an active size and a logical sequence.
`assign` and `copyTo` are the complete member functions. The lock-free rings
run the same two functions while other threads are scheduled, so both are
also given as programs whose every step is one access of one member. The
step programs are proved to end in the result of the complete functions
whenever nobody else touches the message.
-/

namespace Line64.FixedMessageAccess

open Result

/-- Storage, active size and sequence of one message slot. -/
structure FixedMessage (N : ℕ) where
  /-- All `MaxPayloadSize` bytes, stale ones behind the active size included. -/
  storage : Vector Byte N
  /-- Number of active bytes. -/
  size : ℕ
  /-- Logical sequence of the stored message. -/
  sequence : ℕ

/-- A value-initialised message. -/
def FixedMessage.initial (N : ℕ) : FixedMessage N := ⟨Vector.replicate N 0,0,0⟩

/-- The message exactly stores this payload under this sequence. Bytes
behind the payload are unconstrained. -/
structure Holds {N : ℕ} (m : FixedMessage N) (payload : List Byte) (sequence : ℕ) : Prop where
  /-- The active size is the payload length. -/
  size_eq : m.size=payload.length
  /-- The stored sequence is the given one. -/
  sequence_eq : m.sequence=sequence
  /-- Every active byte is the payload byte of the same index. -/
  bytes_eq : ∀ k<payload.length,m.storage[k]?=payload[k]?

/-- What a read of a message with this payload must return for a given
destination: the written destination and the result record. -/
def delivery (payload : List Byte) (sequence : ℕ) (destination : List Byte) :
    List Byte × ReadResult :=
  if destination.length<payload.length then (destination,⟨.messageTooLarge,0,sequence⟩)
  else (payload++destination.drop payload.length,⟨.success,payload.length,sequence⟩)

/-- Overwrite the leading storage bytes with the payload. -/
def copyIn {N : ℕ} (payload : List Byte) (storage : Vector Byte N) : Vector Byte N :=
  Vector.ofFn fun k => payload.getD k storage[k]

/-- The complete `assign` member function. -/
def assign {N : ℕ} (payload : List Byte) (sequence : ℕ) (m : FixedMessage N) :
    FixedMessage N × WriteResult :=
  if N<payload.length then (m,⟨.messageTooLarge,sequence⟩)
  else (⟨copyIn payload m.storage,payload.length,sequence⟩,⟨.success,sequence⟩)

/-- The complete `copy_to` member function. -/
def copyTo {N : ℕ} (m : FixedMessage N) (destination : List Byte) : List Byte × ReadResult :=
  if destination.length < m.size then (destination,⟨.messageTooLarge,0,m.sequence⟩)
  else (m.storage.toList.take m.size++destination.drop m.size,⟨.success,m.size,m.sequence⟩)

/-- An accepted assignment stores exactly its payload. -/
theorem assign_holds {N : ℕ} {payload : List Byte} (sequence : ℕ) (m : FixedMessage N)
    (hp : payload.length≤N) : Holds (assign payload sequence m).1 payload sequence := by
  rw [assign,if_neg (by omega)]
  refine ⟨rfl,rfl,?_⟩
  intro k hk
  have hkN : k<N := by omega
  simp only [copyIn,Vector.getElem?_ofFn,hkN,reduceDIte,List.getD_eq_getElem?_getD,
    List.getElem?_eq_getElem hk,Option.getD_some]

/-- Active bytes of a stored payload, read as a list. -/
theorem Holds.take_eq {N : ℕ} {m : FixedMessage N} {payload : List Byte} {sequence : ℕ}
    (h : Holds m payload sequence) : m.storage.toList.take payload.length=payload := by
  apply List.ext_getElem?
  intro k
  by_cases hk : k<payload.length
  · rw [List.getElem?_take_of_lt hk]
    simpa only [Vector.getElem?_toList] using h.bytes_eq k hk
  · rw [List.getElem?_eq_none_iff.mpr (by rw [List.length_take]; omega),
      List.getElem?_eq_none_iff.mpr (by omega)]

/-- Reading a stored payload delivers it. -/
theorem copyTo_of_holds {N : ℕ} {m : FixedMessage N} {payload : List Byte} {sequence : ℕ}
    (h : Holds m payload sequence) (destination : List Byte) :
    copyTo m destination=delivery payload sequence destination := by
  simp only [copyTo,delivery,h.size_eq,h.sequence_eq,h.take_eq]

/-- A member function in progress: its next access, or its result. -/
inductive Progress (π ρ : Type)
  | running (pc : π)
  | finished (result : ρ)
  deriving DecidableEq, Repr

/-- Accesses of `assign` after its local size check. -/
inductive AssignPc
  /-- Store payload byte `index`. -/
  | copy (index : ℕ)
  /-- Store the active size. -/
  | storeSize
  /-- Store the logical sequence. -/
  | storeSequence
  /-- Load the sequence that the result record repeats. -/
  | loadSequence
  deriving DecidableEq, Repr

/-- Next access of the byte loop once `index` bytes are stored. -/
def assignFrom (payload : List Byte) (index : ℕ) : AssignPc :=
  if index<payload.length then .copy index else .storeSize

/-- Entry of `assign`; the size check touches no shared member. -/
def assignEnter (N : ℕ) (payload : List Byte) (sequence : ℕ) : Progress AssignPc WriteResult :=
  if N<payload.length then .finished ⟨.messageTooLarge,sequence⟩
  else .running (assignFrom payload 0)

/-- One access of `assign`. -/
def assignStep {N : ℕ} (payload : List Byte) (sequence : ℕ) (m : FixedMessage N) :
    AssignPc → FixedMessage N × Progress AssignPc WriteResult
  | .copy index =>
    ({m with storage := m.storage.setIfInBounds index (payload.getD index 0)},
      .running (assignFrom payload (index+1)))
  | .storeSize => ({m with size := payload.length},.running .storeSequence)
  | .storeSequence => ({m with sequence := sequence},.running .loadSequence)
  | .loadSequence => (m,.finished ⟨.success,m.sequence⟩)

/-- What the accesses done so far have established. -/
def AssignProgress {N : ℕ} (payload : List Byte) (sequence : ℕ) (m : FixedMessage N) :
    AssignPc → Prop
  | .copy index => index<payload.length ∧ ∀ k < index,m.storage[k]?=payload[k]?
  | .storeSize => ∀ k<payload.length,m.storage[k]?=payload[k]?
  | .storeSequence => m.size=payload.length ∧ ∀ k<payload.length,m.storage[k]?=payload[k]?
  | .loadSequence => Holds m payload sequence

/-- The byte loop is entered or left with every earlier byte stored. -/
theorem assignFrom_progress {N : ℕ} {payload : List Byte} {m : FixedMessage N} {index : ℕ}
    (sequence : ℕ) (hi : index≤payload.length) (hb : ∀ k < index,m.storage[k]?=payload[k]?) :
    AssignProgress payload sequence m (assignFrom payload index) := by
  unfold assignFrom
  split
  · exact ⟨by assumption,hb⟩
  · intro k hk
    exact hb k (by omega)

/-- An accepted payload enters the byte loop. -/
theorem assignEnter_progress {N : ℕ} {payload : List Byte} (sequence : ℕ) (m : FixedMessage N)
    (hp : payload.length≤N) :
    assignEnter N payload sequence=.running (assignFrom payload 0) ∧
      AssignProgress payload sequence m (assignFrom payload 0) := by
  refine ⟨if_neg (by omega),assignFrom_progress sequence (Nat.zero_le _) ?_⟩
  intro k hk
  omega

/-- One stored byte extends the stored bytes of a payload. -/
theorem setIfInBounds_bytes {N : ℕ} {payload : List Byte} {storage : Vector Byte N} {index : ℕ}
    (hp : payload.length≤N) (hi : index<payload.length)
    (hb : ∀ k < index,storage[k]?=payload[k]?) :
    ∀ k < index+1,(storage.setIfInBounds index (payload.getD index 0))[k]?=payload[k]? := by
  intro k hk
  rcases Nat.lt_succ_iff_lt_or_eq.mp hk with hlt | rfl
  · rw [Vector.getElem?_setIfInBounds_ne (by omega : index≠k)]
    exact hb k hlt
  · rw [Vector.getElem?_setIfInBounds_self_of_lt (by omega : k<N),
      List.getD_eq_getElem?_getD,List.getElem?_eq_getElem hi,Option.getD_some]

/-- Each access extends what has been established, and the last one returns
success with the given sequence on a message that holds the payload. -/
theorem assignStep_progress {N : ℕ} {payload : List Byte} {sequence : ℕ} {m : FixedMessage N}
    {pc : AssignPc} (hp : payload.length≤N) (h : AssignProgress payload sequence m pc) :
    match (assignStep payload sequence m pc).2 with
    | .running pc' => AssignProgress payload sequence (assignStep payload sequence m pc).1 pc'
    | .finished result => result=⟨.success,sequence⟩ ∧ Holds m payload sequence := by
  cases pc with
  | copy index =>
    obtain ⟨hi,hb⟩ := h
    exact assignFrom_progress sequence hi (setIfInBounds_bytes hp hi hb)
  | storeSize => exact ⟨rfl,h⟩
  | storeSequence => exact ⟨h.1,rfl,h.2⟩
  | loadSequence => exact ⟨by rw [h.sequence_eq],h⟩

/-- Bound on the accesses of `assign` that are left. -/
def assignRest (payload : List Byte) : AssignPc → ℕ
  | .copy index => payload.length-index+4
  | .storeSize => 3
  | .storeSequence => 2
  | .loadSequence => 1

/-- Every access of `assign` is one less that is left. -/
theorem assignStep_rest {N : ℕ} {payload : List Byte} {sequence : ℕ} {m : FixedMessage N}
    {pc pc' : AssignPc} (h : (assignStep payload sequence m pc).2=.running pc') :
    assignRest payload pc'<assignRest payload pc := by
  cases pc with
  | copy index =>
    simp only [assignStep,Progress.running.injEq,assignFrom] at h
    split at h <;> subst h <;> simp only [assignRest] <;> omega
  | storeSize =>
    cases h
    exact Nat.lt_succ_self _
  | storeSequence =>
    cases h
    exact Nat.lt_succ_self _
  | loadSequence => cases h

/-- Accesses of `copy_to`. -/
inductive CopyPc
  /-- Load the size that is compared with the destination. -/
  | loadSize
  /-- Load the sequence of a message that does not fit. -/
  | loadRejected
  /-- Load the size that bounds the byte loop. -/
  | loadCount
  /-- Load storage byte `index` of `count` into the destination. -/
  | copy (count index : ℕ)
  /-- Load the size repeated in the result record. -/
  | loadBytesRead
  /-- Load the sequence repeated in the result record. -/
  | loadSequence (bytesRead : ℕ)
  deriving DecidableEq, Repr

/-- Next access of the byte loop once `index` bytes are copied. -/
def copyFrom (count index : ℕ) : CopyPc :=
  if index<count then .copy count index else .loadBytesRead

/-- One access of `copy_to`; the destination belongs to the caller alone. -/
def copyStep {N : ℕ} (m : FixedMessage N) (destination : List Byte) :
    CopyPc → List Byte × Progress CopyPc ReadResult
  | .loadSize =>
    (destination,.running (if destination.length < m.size then .loadRejected else .loadCount))
  | .loadRejected => (destination,.finished ⟨.messageTooLarge,0,m.sequence⟩)
  | .loadCount => (destination,.running (copyFrom m.size 0))
  | .copy count index =>
    (destination.set index (m.storage[index]?.getD 0),.running (copyFrom count (index+1)))
  | .loadBytesRead => (destination,.running (.loadSequence m.size))
  | .loadSequence bytesRead => (destination,.finished ⟨.success,bytesRead,m.sequence⟩)

/-- What the accesses done so far have established about the destination,
for a message that holds `payload` throughout. -/
def CopyProgress (payload original destination : List Byte) : CopyPc → Prop
  | .loadSize => destination=original
  | .loadRejected => destination=original ∧ original.length<payload.length
  | .loadCount => destination=original ∧ payload.length≤original.length
  | .copy count index => count=payload.length ∧ index<count ∧ count≤original.length ∧
      destination=payload.take index++original.drop index
  | .loadBytesRead => payload.length≤original.length ∧
      destination=payload++original.drop payload.length
  | .loadSequence bytesRead => bytesRead=payload.length ∧ payload.length≤original.length ∧
      destination=payload++original.drop payload.length

/-- The byte loop is entered or left with every earlier byte delivered. -/
theorem copyFrom_progress {payload original destination : List Byte} {index : ℕ}
    (hi : index≤payload.length) (ho : payload.length≤original.length)
    (hd : destination=payload.take index++original.drop index) :
    CopyProgress payload original destination (copyFrom payload.length index) := by
  unfold copyFrom
  split
  · exact ⟨rfl,by assumption,ho,hd⟩
  · have he : index=payload.length := by omega
    subst he
    exact ⟨ho,by rw [hd,List.take_length]⟩

/-- One delivered byte extends the delivered prefix. -/
theorem set_take_append_drop {payload original : List Byte} {index : ℕ}
    (hi : index<payload.length) (ho : payload.length≤original.length) :
    (payload.take index++original.drop index).set index payload[index]=
      payload.take (index+1)++original.drop (index+1) := by
  have hl : (payload.take index).length=index := by rw [List.length_take]; omega
  rw [List.set_append_right _ _ (by omega),hl,Nat.sub_self,
    List.drop_eq_getElem_cons (by omega : index<original.length),List.set_cons_zero,
    List.take_succ_eq_append_getElem hi,List.append_assoc,List.singleton_append]

/-- Each access extends what has been established, and the last one returns
the delivery of the stored payload. -/
theorem copyStep_progress {N : ℕ} {m : FixedMessage N} {payload original destination : List Byte}
    {sequence : ℕ} {pc : CopyPc} (hm : Holds m payload sequence)
    (h : CopyProgress payload original destination pc) :
    match (copyStep m destination pc).2 with
    | .running pc' => CopyProgress payload original (copyStep m destination pc).1 pc'
    | .finished result =>
      ((copyStep m destination pc).1,result)=delivery payload sequence original := by
  cases pc with
  | loadSize =>
    cases h
    simp only [copyStep,hm.size_eq]
    split
    · exact ⟨rfl,by assumption⟩
    · exact ⟨rfl,by omega⟩
  | loadRejected =>
    obtain ⟨rfl,hl⟩ := h
    simp only [copyStep,delivery,if_pos hl,hm.sequence_eq]
  | loadCount =>
    obtain ⟨rfl,hl⟩ := h
    simp only [copyStep,hm.size_eq]
    exact copyFrom_progress (Nat.zero_le _) hl (by simp)
  | copy count index =>
    obtain ⟨rfl,hi,ho,rfl⟩ := h
    apply copyFrom_progress hi ho
    simp only [copyStep,hm.bytes_eq index hi,List.getElem?_eq_getElem hi,Option.getD_some]
    exact set_take_append_drop hi ho
  | loadBytesRead => exact ⟨hm.size_eq,h⟩
  | loadSequence bytesRead =>
    obtain ⟨rfl,ho,rfl⟩ := h
    simp only [copyStep,delivery,if_neg (by omega : ¬original.length<payload.length),
      hm.sequence_eq]

/-- Bound on the accesses of `copy_to` that are left, for a message of the
given size. -/
def copyRest (size : ℕ) : CopyPc → ℕ
  | .loadSize => size+7
  | .loadRejected => 1
  | .loadCount => size+6
  | .copy count index => count-index+3
  | .loadBytesRead => 2
  | .loadSequence _ => 1

/-- Every access of `copy_to` is one less that is left. -/
theorem copyStep_rest {N : ℕ} {m : FixedMessage N} {destination : List Byte} {pc pc' : CopyPc}
    (h : (copyStep m destination pc).2=.running pc') : copyRest m.size pc'<copyRest m.size pc := by
  cases pc with
  | loadSize =>
    simp only [copyStep,Progress.running.injEq] at h
    split at h <;> subst h <;> simp only [copyRest] <;> omega
  | loadCount =>
    simp only [copyStep,Progress.running.injEq,copyFrom] at h
    split at h <;> subst h <;> simp only [copyRest] <;> omega
  | copy count index =>
    simp only [copyStep,Progress.running.injEq,copyFrom] at h
    split at h <;> subst h <;> simp only [copyRest] <;> omega
  | loadBytesRead =>
    cases h
    exact Nat.lt_succ_self _
  | loadRejected => cases h
  | loadSequence bytesRead => cases h

end Line64.FixedMessageAccess
