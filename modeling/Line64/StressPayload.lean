import Line64.StressConfig

/-!
# Payloads and failures of the stress program

A payload is a header followed by bytes of a pseudorandom generator that is
seeded with the checksum. The generator is any function from its seed to a
stream of words. The header has the layout of the benchmark's header, with the
global sequence in front. A consumer rebuilds the payload it expects from the
header and compares all bytes. The recorder keeps the first failure.
-/

namespace Line64.StressPayload

open Result BenchmarkPayload StressConfig

/-- What is printed about a failure. -/
structure Failure where
  /-- Name of the queue. -/
  queue : String
  /-- Seed of the run. -/
  seed : ℕ
  /-- Number of the operation. -/
  operation : ℕ
  /-- Expected sequence. -/
  expectedSequence : ℕ
  /-- Sequence that was found. -/
  observedSequence : ℕ
  /-- Expected checksum. -/
  expectedChecksum : ℕ
  /-- Checksum that was found. -/
  observedChecksum : ℕ
  /-- Description. -/
  reason : String
  deriving DecidableEq, Repr

/-- The member `failure_` of a recorder. -/
abbrev Recorder := Option Failure

/-- The member function `record`. -/
def Recorder.record (failures : Recorder) (failure : Failure) : Recorder :=
  match failures with
  | none => some failure
  | some first => some first

/-- The function `mixed_seed`. -/
def mixedSeed (seed : UInt64) (producerId : UInt32) (localSequence : UInt64) : UInt64 :=
  let value := seed^^^(producerId.toUInt64<<<32)^^^localSequence
  let value := value^^^(value>>>30)
  let value := value*0xbf58476d1ce4e5b9
  let value := value^^^(value>>>27)
  let value := value*0x94d049bb133111eb
  value^^^(value>>>31)

section Payloads

variable (random : UInt64 → ℕ → UInt64) (config : Config)

/-- The function `make_payload`. -/
def makePayload (producerId : UInt32) (localSequence globalSequence : UInt64) : List Byte :=
  let checksum := mixedSeed (.ofNat config.seed) producerId localSequence
  let header : PayloadHeader :=
    ⟨globalSequence,localSequence,producerId,.ofNat config.payloadSize,checksum⟩
  headerBytes header++(List.range (config.payloadSize-payloadHeaderSize)).map fun index =>
    (random checksum index&&&0xff).toUInt8

/-- The function `validate_payload`: the answer and the recorder behind it. -/
def validatePayload (queue : String) (payload : List Byte) (expectedProducer : UInt32)
    (expectedLocal expectedGlobal : UInt64) (operation : ℕ) (failures : Recorder) :
    Bool × Recorder :=
  let observed := readHeader payload
  let expected := makePayload random config expectedProducer expectedLocal expectedGlobal
  if payload.length≠expected.length ∨ payload≠expected then
    (false,failures.record ⟨queue,config.seed,operation,expectedGlobal.toNat,
      observed.globalId.toNat,(readHeader expected).checksum.toNat,observed.checksum.toNat,
      "payload sequence/checksum/pattern mismatch"⟩)
  else (true,failures)

variable {config} (hconfig : Valid config)

include hconfig in
/-- A payload has the configured size. -/
theorem makePayload_length (producerId : UInt32) (localSequence globalSequence : UInt64) :
    (makePayload random config producerId localSequence globalSequence).length=
      config.payloadSize := by
  have hsize := hconfig.payload.1
  simp only [makePayload,List.length_append,headerBytes_length,List.length_map,List.length_range]
  omega

/-- The header of a payload. -/
theorem readHeader_makePayload (producerId : UInt32) (localSequence globalSequence : UInt64) :
    readHeader (makePayload random config producerId localSequence globalSequence)=
      ⟨globalSequence,localSequence,producerId,.ofNat config.payloadSize,
        mixedSeed (.ofNat config.seed) producerId localSequence⟩ := by
  rw [makePayload,readHeader_headerBytes]

/-- What was made for the expected fields passes. -/
theorem validatePayload_makePayload (queue : String) (producerId : UInt32)
    (localSequence globalSequence : UInt64) (operation : ℕ) (failures : Recorder) :
    validatePayload random config queue
        (makePayload random config producerId localSequence globalSequence) producerId
        localSequence globalSequence operation failures=(true,failures) := by
  unfold validatePayload
  dsimp only
  rw [if_neg (by simp)]

end Payloads

/-- A configuration that was accepted, with the generator of payload bytes. -/
structure Setup where
  /-- The configuration. -/
  config : Config
  /-- It was accepted. -/
  valid : Valid config
  /-- The generator by its seed. -/
  random : UInt64 → ℕ → UInt64

/-- Number of a message among those of all producers. -/
def Setup.globalSequence (r : Setup) (producerId localSequence : ℕ) : ℕ :=
  producerId*r.config.iterations+localSequence

/-- The payload of a message. -/
def Setup.payload (r : Setup) (producerId localSequence : ℕ) : List Byte :=
  makePayload r.random r.config (.ofNat producerId) (.ofNat localSequence)
    (.ofNat (r.globalSequence producerId localSequence))

/-- A header names one of the messages that may be sent. -/
def Setup.inRange (r : Setup) (header : PayloadHeader) : Bool :=
  header.producerId.toNat<r.config.producers && 1≤header.localSequence.toNat &&
    header.localSequence.toNat ≤ r.config.iterations &&
    header.globalId==header.producerId.toUInt64*.ofNat r.config.iterations+header.localSequence

section Messages

variable {r : Setup} {p l : ℕ}

/-- Payloads have one size. -/
theorem Setup.payload_length (r : Setup) (p l : ℕ) : (r.payload p l).length=r.config.payloadSize :=
  makePayload_length r.random r.valid _ _ _

/-- Payloads fit a slot. -/
theorem Setup.payload_fits (r : Setup) (p l : ℕ) : (r.payload p l).length ≤ maxPayloadSize := by
  rw [r.payload_length]
  exact r.valid.payload.2

/-- Numbers of messages fit a word. -/
theorem Setup.globalSequence_le (r : Setup) (hp : p<r.config.producers)
    (hl : l ≤ r.config.iterations) :
    r.globalSequence p l ≤ r.config.iterations*r.config.producers := by
  have hmul : (p+1)*r.config.iterations ≤ r.config.producers*r.config.iterations :=
    Nat.mul_le_mul_right _ hp
  rw [Nat.add_mul,one_mul] at hmul
  rw [globalSequence,Nat.mul_comm r.config.iterations]
  omega

/-- There are not too many messages. -/
theorem Setup.slots_lt (r : Setup) : r.config.iterations*r.config.producers<2^32 := by
  have hmul : r.config.iterations*r.config.producers ≤ 10000000*64 :=
    Nat.mul_le_mul r.valid.iterations.2 r.valid.producers.2
  omega

/-- The header of a message. -/
theorem Setup.readHeader_payload (r : Setup) (p l : ℕ) :
    readHeader (r.payload p l)=⟨.ofNat (r.globalSequence p l),.ofNat l,.ofNat p,
      .ofNat r.config.payloadSize,mixedSeed (.ofNat r.config.seed) (.ofNat p) (.ofNat l)⟩ :=
  readHeader_makePayload r.random _ _ _

/-- The producer in the header. -/
theorem Setup.toNat_producer (r : Setup) (hp : p<r.config.producers) :
    (UInt32.ofNat p).toNat=p :=
  UInt32.toNat_ofNat_of_lt' (hp.trans (Nat.lt_of_le_of_lt r.valid.producers.2 (by decide)))

/-- The local sequence in the header. -/
theorem Setup.toNat_local (r : Setup) (hl : l ≤ r.config.iterations) :
    (UInt64.ofNat l).toNat=l :=
  UInt64.toNat_ofNat_of_lt' (Nat.lt_of_le_of_lt (hl.trans r.valid.iterations.2) (by decide))

/-- The global sequence in the header. -/
theorem Setup.toNat_global (r : Setup) (hp : p<r.config.producers)
    (hl : l ≤ r.config.iterations) :
    (UInt64.ofNat (r.globalSequence p l)).toNat=r.globalSequence p l :=
  UInt64.toNat_ofNat_of_lt' (Nat.lt_of_le_of_lt (r.globalSequence_le hp hl)
    (r.slots_lt.trans (by decide)))

/-- Messages are in range. -/
theorem Setup.inRange_payload (r : Setup) (hp : p<r.config.producers) (hpos : 1≤l)
    (hl : l ≤ r.config.iterations) : r.inRange (readHeader (r.payload p l))=true := by
  have hproducer := r.toNat_producer hp
  have hlocal := r.toNat_local hl
  have hword : UInt64.ofNat (r.globalSequence p l)=
      (UInt32.ofNat p).toUInt64*.ofNat r.config.iterations+.ofNat l := by
    have hid : (UInt32.ofNat p).toUInt64=UInt64.ofNat p := by
      rw [← UInt64.toNat_inj,UInt32.toNat_toUInt64,hproducer]
      exact (UInt64.toNat_ofNat_of_lt' (hp.trans
        (Nat.lt_of_le_of_lt r.valid.producers.2 (by decide)))).symm
    rw [hid,globalSequence,UInt64.ofNat_add,UInt64.ofNat_mul]
  simp only [inRange,r.readHeader_payload,hproducer,hlocal,Bool.and_eq_true,decide_eq_true_eq,
    beq_iff_eq]
  exact ⟨⟨⟨hp,hpos⟩,hl⟩,hword⟩

/-- A message passes the check that its header asks for. -/
theorem Setup.validate_payload (r : Setup) (queue : String) (p l operation : ℕ)
    (failures : Recorder) :
    validatePayload r.random r.config queue (r.payload p l)
      (readHeader (r.payload p l)).producerId (readHeader (r.payload p l)).localSequence
      (readHeader (r.payload p l)).globalId operation failures=(true,failures) := by
  rw [r.readHeader_payload]
  exact validatePayload_makePayload r.random queue _ _ _ operation failures

/-- Different messages have different numbers. -/
theorem Setup.globalSequence_inj (r : Setup) {p' l' : ℕ} (hpos : 1≤l)
    (hl : l ≤ r.config.iterations) (hpos' : 1≤l') (hl' : l' ≤ r.config.iterations)
    (h : r.globalSequence p l=r.globalSequence p' l') : p=p' ∧ l=l' := by
  unfold globalSequence at h
  have hp : p=p' := by
    rcases Nat.lt_trichotomy p p' with hlt | heq | hgt
    · have hmul := Nat.mul_le_mul_right r.config.iterations (Nat.succ_le_of_lt hlt)
      rw [Nat.succ_mul] at hmul
      omega
    · exact heq
    · have hmul := Nat.mul_le_mul_right r.config.iterations (Nat.succ_le_of_lt hgt)
      rw [Nat.succ_mul] at hmul
      omega
  subst hp
  exact ⟨rfl,by omega⟩

end Messages

end Line64.StressPayload
