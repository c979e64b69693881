import Line64.BenchmarkPayload
import Line64.WordMixing

/-!
# Corrupted payloads

Validation recomputes the checksum and the random bytes from the identifying
fields of the header. A payload with one wrong byte is always rejected: either
the identifying fields survive, and the payload they belong to is another one,
or exactly one of them changes, and the checksum no longer fits.
-/

namespace Line64.PayloadCorruption

open Result BenchmarkPayload WordMixing

section Checksum

variable {before after : PayloadHeader}

/-- The identifying fields in one word, the argument of the mixing rounds. -/
def identity (header : PayloadHeader) : UInt64 :=
  header.globalId^^^(header.producerId.toUInt64<<<32)^^^header.localSequence

/-- The checksum scrambles the identifying fields. -/
theorem mix_toBitVec (header : PayloadHeader) :
    (mix header).toBitVec=scramble 30 27 31 0xbf58476d1ce4e5b9#64 0x94d049bb133111eb#64
      (identity header^^^0x4f52424954515545).toBitVec := by
  simp [mix,scramble,xorShift,identity]

/-- Equal checksums come from equal identifying words. -/
theorem identity_eq_of_mix (h : mix before=mix after) : identity before=identity after := by
  have hwords := congrArg UInt64.toBitVec h
  rw [mix_toBitVec,mix_toBitVec] at hwords
  have hword := scramble_injective (by decide) (by decide) (by decide) (by decide) (by decide) hwords
  exact (UInt64.xor_left_inj _).mp (UInt64.toBitVec_inj.mp hword)

/-- The number of a producer is kept by its shift. -/
theorem producerId_eq_of_shifted {left right : UInt32}
    (h : left.toUInt64<<<32=right.toUInt64<<<32) : left=right := by
  have hwords := congrArg UInt64.toNat h
  rw [UInt64.toNat_shiftLeft,UInt64.toNat_shiftLeft] at hwords
  simp only [UInt32.toNat_toUInt64,UInt64.reduceToNat,Nat.reduceMod,Nat.shiftLeft_eq] at hwords
  have hleft := left.toNat_lt
  have hright := right.toNat_lt
  exact UInt32.toNat_inj.mp (by omega)

/-- At most one of the identifying fields and the checksum differs. -/
def OneField (before after : PayloadHeader) : Prop :=
  let sameId := before.globalId=after.globalId
  let sameSequence := before.localSequence=after.localSequence
  let sameProducer := before.producerId=after.producerId
  let sameChecksum := before.checksum=after.checksum
  sameSequence ∧ sameProducer ∧ sameChecksum ∨ sameId ∧ sameProducer ∧ sameChecksum ∨
    sameId ∧ sameSequence ∧ sameChecksum ∨ sameId ∧ sameSequence ∧ sameProducer

/-- Where both checksums fit, no identifying field alone can differ. -/
theorem OneField.same (h : OneField before after) (hbefore : before.checksum=mix before)
    (hafter : after.checksum=mix after) :
    before.globalId=after.globalId ∧ before.localSequence=after.localSequence ∧
      before.producerId=after.producerId := by
  have hidentity : before.checksum=after.checksum → identity before=identity after := by
    intro hsame
    rw [hbefore,hafter] at hsame
    exact identity_eq_of_mix hsame
  unfold identity at hidentity
  rcases h with ⟨hlocal,hproducer,hsame⟩ | ⟨hid,hproducer,hsame⟩ | ⟨hid,hlocal,hsame⟩ | hfields
  · have hword := hidentity hsame
    rw [hlocal,hproducer,UInt64.xor_left_inj,UInt64.xor_left_inj] at hword
    exact ⟨hword,hlocal,hproducer⟩
  · have hword := hidentity hsame
    rw [hid,hproducer,UInt64.xor_right_inj] at hword
    exact ⟨hid,hword,hproducer⟩
  · have hword := hidentity hsame
    rw [hid,hlocal,UInt64.xor_left_inj,UInt64.xor_right_inj] at hword
    exact ⟨hid,hlocal,producerId_eq_of_shifted hword⟩
  · exact hfields

end Checksum

/-- A field is kept where a byte outside of it is replaced. -/
theorem field_set {payload : List Byte} {i offset width : ℕ} (h : i<offset ∨ offset+width ≤ i)
    (byte : Byte) : field (payload.set i byte) offset width=field payload offset width := by
  unfold field
  rcases h with hbefore | hbehind
  · rw [List.drop_set_of_lt hbefore]
  · rw [List.take_drop,List.take_set_of_le hbehind,← List.take_drop]

/-- A replaced byte belongs to at most one field. -/
theorem oneField_set (payload : List Byte) (i : ℕ) (byte : Byte) :
    OneField (readHeader payload) (readHeader (payload.set i byte)) := by
  unfold readHeader
  rw [List.length_set]
  split
  · have hlong : ∀ offset,i<offset ∨ offset+8 ≤ i →
        UInt64.ofNat (field payload offset 8)=.ofNat (field (payload.set i byte) offset 8) :=
      fun offset h => by rw [field_set h]
    have hshort : ∀ offset,i<offset ∨ offset+4 ≤ i →
        UInt32.ofNat (field payload offset 4)=.ofNat (field (payload.set i byte) offset 4) :=
      fun offset h => by rw [field_set h]
    rcases lt_or_ge i 8 with hi | hid
    · exact .inl ⟨hlong 8 (by omega),hshort 16 (by omega),hlong 24 (by omega)⟩
    rcases lt_or_ge i 16 with hi | hlocal
    · exact .inr (.inl ⟨hlong 0 (by omega),hshort 16 (by omega),hlong 24 (by omega)⟩)
    rcases lt_or_ge i 20 with hi | hproducer
    · exact .inr (.inr (.inl ⟨hlong 0 (by omega),hlong 8 (by omega),hlong 24 (by omega)⟩))
    · exact .inr (.inr (.inr ⟨hlong 0 (by omega),hlong 8 (by omega),hshort 16 (by omega)⟩))
  · exact .inl ⟨rfl,rfl,rfl⟩

/-- What validation accepts has a fitting checksum and is the payload of its
identifying fields. -/
theorem of_validPayload {random : UInt64 → ℕ → Byte} {payload : List Byte} {size : ℕ}
    (h : validPayload random payload size=true) :
    (readHeader payload).checksum=mix (readHeader payload) ∧
      payload=makePayload random payload.length (readHeader payload).producerId
        (readHeader payload).localSequence (readHeader payload).globalId := by
  unfold validPayload at h
  split at h
  · cases h
  · dsimp only at h
    split at h
    · cases h
    · rename_i hheader
      push Not at hheader
      exact ⟨hheader.2.2.2,of_decide_eq_true h⟩

section Payloads

variable (random : UInt64 → ℕ → Byte) {size : ℕ} (producerId : UInt32)
  {localSequence globalId : UInt64}

/-- A payload that is accepted with one replaced byte has not changed. -/
theorem set_eq_of_validPayload {payload : List Byte} {i : ℕ} {byte : Byte}
    (hbefore : validPayload random payload size=true)
    (hafter : validPayload random (payload.set i byte) size=true) : payload.set i byte=payload := by
  obtain ⟨hchecksum,hpayload⟩ := of_validPayload hbefore
  obtain ⟨hchecksum',hpayload'⟩ := of_validPayload hafter
  obtain ⟨hid,hlocal,hproducer⟩ := (oneField_set payload i byte).same hchecksum hchecksum'
  rw [hpayload',List.length_set,← hid,← hlocal,← hproducer,← hpayload]

/-- Validation accepts a payload as it was made, its header returns what it
was made from, and every replaced byte is detected. -/
theorem single_byte_corruption_detected (hmin : payloadHeaderSize ≤ size)
    (hmax : size ≤ maxPayloadSize) (hlocal : localSequence≠0) (hglobal : globalId≠0) :
    let payload := makePayload random size producerId localSequence globalId
    validPayload random payload size=true ∧
      (readHeader payload).globalId=globalId ∧
      (readHeader payload).localSequence=localSequence ∧
      (readHeader payload).producerId=producerId ∧
      (readHeader payload).payloadSize.toNat=size ∧
      ∀ i < size,∀ byte,payload[i]?≠some byte →
        validPayload random (payload.set i byte) size=false := by
  intro payload
  have hfits : size<2^32 := by
    unfold maxPayloadSize at hmax
    omega
  have hvalid : validPayload random payload size=true :=
    validPayload_makePayload random producerId hmin hfits hlocal hglobal
  have hheader : readHeader payload=⟨globalId,localSequence,producerId,.ofNat size,
      mix ⟨globalId,localSequence,producerId,.ofNat size,0⟩⟩ :=
    readHeader_makePayload random producerId hmin
  refine ⟨hvalid,by rw [hheader],by rw [hheader],by rw [hheader],?_,?_⟩
  · rw [hheader]
    exact UInt32.toNat_ofNat_of_lt' hfits
  · intro i hi byte hbyte
    rw [← Bool.not_eq_true]
    intro hcorrupt
    have hsame := set_eq_of_validPayload random hvalid hcorrupt
    have hlength : i<payload.length := by
      rw [makePayload_length]
      exact hi
    refine hbyte ?_
    rw [← hsame,List.getElem?_set_self hlength]

end Payloads

/-- A payload with one random byte, whose identifier is damaged. -/
theorem single_byte_corruption_identifier :
    let random : UInt64 → ℕ → Byte := fun seed index => seed.toUInt8+.ofNat index
    payloadHeaderSize ≤ 33 ∧ 33 ≤ maxPayloadSize ∧
      (makePayload random 33 2 1 5)[0]?≠some 4 ∧
      validPayload random ((makePayload random 33 2 1 5).set 0 4) 33=false := by
  intro random
  have hbyte : (makePayload random 33 2 1 5)[0]?≠some 4 := by decide
  refine ⟨by decide,by decide,hbyte,?_⟩
  exact (single_byte_corruption_detected random 2 (by decide) (by decide) (by decide)
    (by decide)).2.2.2.2.2 0 (by decide) 4 hbyte

end Line64.PayloadCorruption
