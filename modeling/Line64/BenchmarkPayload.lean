import Mathlib.Algebra.Group.Nat.Defs
import Mathlib.Data.List.Basic
import Line64.Result

/-!
# Payloads of the benchmark

A benchmark payload is a header of five fields followed by bytes that a
pseudorandom generator derives from the checksum. The generator is any
function from its seed to a stream of bytes. A payload is the part of its
array below the active size.
-/

namespace Line64.BenchmarkPayload

open Result

/-- Bytes of a word, least significant first. -/
def encode : ℕ → ℕ → List Byte
  | 0,_ => []
  | width+1,value => UInt8.ofNat value::encode width (value/256)

/-- Value of a word, least significant byte first. -/
def decode : List Byte → ℕ
  | [] => 0
  | byte::rest => byte.toNat+256*decode rest

/-- A word has its width. -/
@[simp] theorem encode_length (width value : ℕ) : (encode width value).length=width := by
  induction width generalizing value with
  | zero => rfl
  | succ width ih => rw [encode,List.length_cons,ih]

/-- Decoding returns what the width can hold. -/
theorem decode_encode (width value : ℕ) : decode (encode width value)=value%256^width := by
  induction width generalizing value with
  | zero => rw [encode,decode,pow_zero,Nat.mod_one]
  | succ width ih =>
    have hbyte : (UInt8.ofNat value).toNat=value%256 := UInt8.toNat_ofNat
    rw [encode,decode,ih,hbyte,pow_succ',Nat.mod_mul]

/-- Fields of the header, in the order of their bytes. -/
structure PayloadHeader where
  /-- Identifier that is unique in a trial. -/
  globalId : UInt64
  /-- Number of the payload within its producer. -/
  localSequence : UInt64
  /-- Number of the producer. -/
  producerId : UInt32
  /-- Size of the whole payload. -/
  payloadSize : UInt32
  /-- Checksum of the first three fields. -/
  checksum : UInt64
  deriving DecidableEq

/-- The constant `payload_header_size`. -/
def payloadHeaderSize : ℕ := 32

/-- The constant `max_payload_size`. -/
def maxPayloadSize : ℕ := 256

/-- Checksum of the identifying fields. -/
def mix (header : PayloadHeader) : UInt64 :=
  let value := header.globalId^^^(header.producerId.toUInt64<<<32)^^^
    header.localSequence^^^0x4f52424954515545
  let value := value^^^(value>>>30)
  let value := value*0xbf58476d1ce4e5b9
  let value := value^^^(value>>>27)
  let value := value*0x94d049bb133111eb
  value^^^(value>>>31)

/-- Bytes of the header in memory. -/
def headerBytes (header : PayloadHeader) : List Byte :=
  encode 8 header.globalId.toNat++encode 8 header.localSequence.toNat++
    encode 4 header.producerId.toNat++encode 4 header.payloadSize.toNat++
    encode 8 header.checksum.toNat

/-- Word of the payload at a byte offset. -/
def field (payload : List Byte) (offset width : ℕ) : ℕ :=
  decode ((payload.drop offset).take width)

/-- The function `read_header`. -/
def readHeader (payload : List Byte) : PayloadHeader :=
  if payloadHeaderSize≤payload.length then
    { globalId := .ofNat (field payload 0 8)
      localSequence := .ofNat (field payload 8 8)
      producerId := .ofNat (field payload 16 4)
      payloadSize := .ofNat (field payload 20 4)
      checksum := .ofNat (field payload 24 8) }
  else ⟨0,0,0,0,0⟩

/-- The function `make_payload`. -/
def makePayload (random : UInt64 → ℕ → Byte) (payloadSize : ℕ) (producerId : UInt32)
    (localSequence globalId : UInt64) : List Byte :=
  let header : PayloadHeader := ⟨globalId,localSequence,producerId,.ofNat payloadSize,0⟩
  let checksum := mix header
  let tail := (List.range (payloadSize-payloadHeaderSize)).map (random checksum)
  (headerBytes {header with checksum := checksum}++tail).take payloadSize

/-- The function `valid_payload`. -/
def validPayload (random : UInt64 → ℕ → Byte) (payload : List Byte) (expectedSize : ℕ) : Bool :=
  if payload.length≠expectedSize ∨ payload.length<payloadHeaderSize then false
  else
    let header := readHeader payload
    if header.payloadSize.toNat≠payload.length ∨ header.globalId=0 ∨ header.localSequence=0 ∨
        header.checksum≠mix header then false
    else
      payload=makePayload random payload.length header.producerId header.localSequence
        header.globalId

/-- The header fills its size. -/
@[simp] theorem headerBytes_length (header : PayloadHeader) :
    (headerBytes header).length=payloadHeaderSize := by
  simp [headerBytes,payloadHeaderSize]

/-- A field behind leading bytes. -/
theorem field_skip {leading rest : List Byte} {n : ℕ} (h : leading.length=n) (offset width : ℕ) :
    field (leading++rest) (n+offset) width=field rest offset width := by
  rw [field,← h,List.drop_append,List.drop_eq_nil_of_le (Nat.le_add_right _ _),List.nil_append,
    Nat.add_sub_cancel_left,field]

/-- The leading field. -/
theorem field_encode (width value : ℕ) (rest : List Byte) :
    field (encode width value++rest) 0 width=value%256^width := by
  rw [field,List.drop_zero,List.take_left' (encode_length width value),decode_encode]

/-- Eight bytes hold a 64-bit word. -/
theorem ofNat_word64 (value : UInt64) : UInt64.ofNat (value.toNat%256^8)=value := by
  have hlt : value.toNat<256^8 := value.toNat_lt
  rw [Nat.mod_eq_of_lt hlt,UInt64.ofNat_toNat]

/-- Four bytes hold a 32-bit word. -/
theorem ofNat_word32 (value : UInt32) : UInt32.ofNat (value.toNat%256^4)=value := by
  have hlt : value.toNat<256^4 := value.toNat_lt
  rw [Nat.mod_eq_of_lt hlt,UInt32.ofNat_toNat]

/-- Reading a header returns its fields. -/
theorem readHeader_headerBytes (header : PayloadHeader) (rest : List Byte) :
    readHeader (headerBytes header++rest)=header := by
  obtain ⟨globalId,localSequence,producerId,payloadSize,checksum⟩ := header
  have hlong : payloadHeaderSize≤
      (headerBytes ⟨globalId,localSequence,producerId,payloadSize,checksum⟩++rest).length := by
    rw [List.length_append,headerBytes_length]
    exact Nat.le_add_right _ _
  have skip8 : ∀ (value : UInt64) (rest : List Byte) (offset width : ℕ),
      field (encode 8 value.toNat++rest) (8+offset) width=field rest offset width :=
    fun value _ => field_skip (encode_length 8 value.toNat)
  have skip4 : ∀ (value : UInt32) (rest : List Byte) (offset width : ℕ),
      field (encode 4 value.toNat++rest) (4+offset) width=field rest offset width :=
    fun value _ => field_skip (encode_length 4 value.toNat)
  rw [readHeader,if_pos hlong]
  simp only [headerBytes,List.append_assoc,PayloadHeader.mk.injEq]
  refine ⟨?_,?_,?_,?_,?_⟩
  · rw [field_encode,ofNat_word64]
  · rw [skip8 globalId _ 0 8,field_encode,ofNat_word64]
  · rw [skip8 globalId _ 8 4,skip8 localSequence _ 0 4,field_encode,ofNat_word32]
  · rw [skip8 globalId _ 12 4,skip8 localSequence _ 4 4,skip4 producerId _ 0 4,field_encode,
      ofNat_word32]
  · rw [skip8 globalId _ 16 8,skip8 localSequence _ 8 8,skip4 producerId _ 4 8,
      skip4 payloadSize _ 0 8,field_encode,ofNat_word64]

section Payloads

variable (random : UInt64 → ℕ → Byte) {size : ℕ} (producerId : UInt32)
  {localSequence globalId : UInt64}

/-- A payload has its size. -/
theorem makePayload_length (size : ℕ) (localSequence globalId : UInt64) :
    (makePayload random size producerId localSequence globalId).length=size := by
  simp only [makePayload,List.length_take,List.length_append,headerBytes_length,List.length_map,
    List.length_range]
  omega

/-- The header of a payload. -/
theorem readHeader_makePayload (hsize : payloadHeaderSize ≤ size) :
    readHeader (makePayload random size producerId localSequence globalId)=
      ⟨globalId,localSequence,producerId,.ofNat size,
        mix ⟨globalId,localSequence,producerId,.ofNat size,0⟩⟩ := by
  rw [makePayload,List.take_of_length_le,readHeader_headerBytes]
  simp only [List.length_append,headerBytes_length,List.length_map,List.length_range]
  omega

/-- Validation accepts what was made. -/
theorem validPayload_makePayload (hsize : payloadHeaderSize ≤ size) (hmax : size<2^32)
    (hlocal : localSequence≠0) (hglobal : globalId≠0) :
    validPayload random (makePayload random size producerId localSequence globalId) size=true := by
  have hfield : (UInt32.ofNat size).toNat=size := UInt32.toNat_ofNat_of_lt' hmax
  have hlength := makePayload_length random producerId size localSequence globalId
  have hlong : ¬size<payloadHeaderSize := Nat.not_lt.mpr hsize
  simp only [validPayload,hlength,readHeader_makePayload random producerId hsize]
  rw [if_neg (by simp [hlong]),if_neg (by simp [hfield,hlocal,hglobal,mix])]
  exact decide_eq_true trivial

end Payloads

end Line64.BenchmarkPayload
