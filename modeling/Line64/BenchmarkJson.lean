import Line64.BenchmarkResult
import Line64.JsonLiteral
import Line64.TextStream

/-!
# The JSON report of the benchmark

`json_escape` and `to_json` write through an output stream whose formatting
state outlasts every insertion. Floating-point numbers are any type with a
printed form that holds no quote, such as numbers of thousandths.
-/

namespace Line64.BenchmarkJson

open Result BenchmarkResult JsonLiteral TextStream

/-- Loop body of `json_escape`. -/
def putCharacter (output : OutputStream) (character : Byte) : OutputStream :=
  match character.toNat with
  | 0x22 => output.insert (bytes "\\\"")
  | 0x5c => output.insert (bytes "\\\\")
  | 0x08 => output.insert (bytes "\\b")
  | 0x0c => output.insert (bytes "\\f")
  | 0x0a => output.insert (bytes "\\n")
  | 0x0d => output.insert (bytes "\\r")
  | 0x09 => output.insert (bytes "\\t")
  | _ =>
    if character<0x20 then
      let output := (output.insert (bytes "\\u")).hex
      let output := (output.setw 4).setfill (byteOf '0')
      (output.insertNumber character.toNat).dec
    else output.insert [character]

/-- The function `json_escape`. -/
def jsonEscape (value : List Byte) : List Byte := (value.foldl putCharacter .fresh).output

/-- The function `append_json_array`, for a way to insert a value. -/
def appendJsonArray {α : Type} (put : OutputStream → α → OutputStream) (output : OutputStream)
    (values : List α) : OutputStream :=
  let output := output.insert (bytes "[")
  let output := match values with
    | [] => output
    | first::rest => rest.foldl (fun output value => put (output.insert (bytes ",")) value)
        (put output first)
  output.insert (bytes "]")

/-- Floating-point numbers of the report. -/
structure Doubles (δ : Type) where
  /-- Milliseconds as seconds. -/
  seconds : ℕ → δ
  /-- Printed form with twelve digits. -/
  print : δ → List Byte
  /-- Numbers are printed without quotes. -/
  unquoted : ∀ value,quote ∉ print value

variable {δ : Type}

/-- The structure `Result`: the counters of a trial with its settings, rates
and descriptive texts. -/
structure Report (δ : Type) extends TrialResult where
  /-- Group of the benchmark. -/
  benchmarkGroup : List Byte
  /-- Name of the queue. -/
  queue : List Byte
  /-- Delivery semantics. -/
  deliverySemantics : List Byte
  /-- Number of the trial. -/
  trial : ℕ
  /-- Capacity of the queue. -/
  capacity : ℕ
  /-- Size of a payload. -/
  payloadSize : ℕ
  /-- Number of producers. -/
  producerCount : ℕ
  /-- Number of consumers. -/
  consumerCount : ℕ
  /-- Measured time. -/
  durationMs : ℕ
  /-- Time before the measurement. -/
  warmupMs : ℕ
  /-- Published messages per second. -/
  throughputMessagesPerSecond : δ
  /-- Reads per second. -/
  throughputReadsPerSecond : δ
  /-- Bytes per second. -/
  throughputBytesPerSecond : δ
  /-- Reads per second of each consumer. -/
  consumerReadsPerSecond : List δ
  /-- Kind of the build. -/
  buildType : List Byte
  /-- Compiler. -/
  compiler : List Byte
  /-- Commit of the sources. -/
  gitCommit : List Byte
  /-- Time of the trial. -/
  timestamp : List Byte
  /-- Remarks. -/
  notes : List Byte

/-- Values of the members of the report. -/
inductive Value (δ : Type)
  /-- A text that is escaped. -/
  | string (value : List Byte)
  /-- The verdict on a number of failures. -/
  | verdict (errors : ℕ)
  | number (value : ℕ)
  | real (value : δ)
  | numbers (values : List ℕ)
  | reals (values : List δ)

/-- The text of a verdict. -/
def verdictText (errors : ℕ) : String := if errors=0 then "passed" else "failed"

/-- Insert a text in quotes. -/
def putQuoted (output : OutputStream) (text : List Byte) : OutputStream :=
  ((output.insert [quote]).insert text).insert [quote]

/-- Insert the value of a member. -/
def putValue (doubles : Doubles δ) (output : OutputStream) : Value δ → OutputStream
  | .string value => putQuoted output (jsonEscape value)
  | .verdict errors => putQuoted output (bytes (verdictText errors))
  | .number value => output.insertNumber value
  | .real value => output.insert (doubles.print value)
  | .numbers values => appendJsonArray OutputStream.insertNumber output values
  | .reals values =>
    appendJsonArray (fun output value => output.insert (doubles.print value)) output values

/-- Insert a member. -/
def putMember (doubles : Doubles δ) (output : OutputStream) (member : String × Value δ) :
    OutputStream :=
  putValue doubles ((putQuoted output (bytes member.1)).insert (bytes ":")) member.2

/-- The members of the report behind the first one. -/
def members (doubles : Doubles δ) (result : Report δ) : List (String × Value δ) :=
  [("queue",.string result.queue),
    ("delivery_semantics",.string result.deliverySemantics),
    ("trial",.number result.trial),
    ("capacity",.number result.capacity),
    ("payload_size",.number result.payloadSize),
    ("payload_bytes",.number result.payloadSize),
    ("producer_count",.number result.producerCount),
    ("producers",.number result.producerCount),
    ("consumer_count",.number result.consumerCount),
    ("consumers",.number result.consumerCount),
    ("duration_ms",.number result.durationMs),
    ("duration_seconds",.real (doubles.seconds result.durationMs)),
    ("warmup_ms",.number result.warmupMs),
    ("messages_published",.number result.messagesPublished),
    ("messages_produced",.number result.messagesPublished),
    ("aggregate_reads",.number result.aggregateReads),
    ("messages_consumed",.number result.aggregateReads),
    ("unique_sequences_verified",.number result.uniqueSequencesVerified),
    ("dropped_or_lagged",.number result.droppedOrLagged),
    ("invalid_payloads",.number result.invalidPayloads),
    ("full_retries",.number result.fullRetries),
    ("producer_failed_tries",.number result.fullRetries),
    ("empty_retries",.number result.emptyRetries),
    ("consumer_failed_tries",.number result.emptyRetries),
    ("consumer_lagged_count",.number result.droppedOrLagged),
    ("validation_errors",.number result.validationErrors),
    ("validation",.verdict result.validationErrors),
    ("throughput_messages_per_second",.real result.throughputMessagesPerSecond),
    ("messages_per_second",.real result.throughputMessagesPerSecond),
    ("throughput_reads_per_second",.real result.throughputReadsPerSecond),
    ("bytes_per_second",.real result.throughputBytesPerSecond),
    ("consumer_reads",.numbers result.consumerReads),
    ("consumer_reads_per_second",.reals result.consumerReadsPerSecond),
    ("build_type",.string result.buildType),
    ("compiler",.string result.compiler),
    ("git_commit",.string result.gitCommit),
    ("timestamp",.string result.timestamp),
    ("notes",.string result.notes)]

/-- The first member of the report. -/
def firstMember (result : Report δ) : String × Value δ :=
  ("benchmark_group",.string result.benchmarkGroup)

/-- The function `to_json`. -/
def toJson (doubles : Doubles δ) (result : Report δ) : List Byte :=
  let output := putMember doubles (OutputStream.fresh.insert (bytes "\x7b")) (firstMember result)
  let output := (members doubles result).foldl
    (fun output member => putMember doubles (output.insert (bytes ",")) member) output
  (output.insert (bytes "\x7d")).output

section Escape

/-- What is written for one character. -/
def escaped (character : Byte) : List Byte := (putCharacter .fresh character).output

/-- The loop body appends to a stream that is ready and leaves it ready. The
fill character it leaves is not looked at again. -/
theorem putCharacter_ready {output : OutputStream} (h : output.Ready) (character : Byte) :
    (putCharacter output character).Ready ∧
      (putCharacter output character).output=output.output++escaped character := by
  have hinsert : ∀ text : List Byte,(output.insert text).Ready ∧
      (output.insert text).output=output.output++(OutputStream.fresh.insert text).output := by
    intro text
    obtain ⟨hready,houtput⟩ := h.insert text
    exact ⟨hready,by rw [houtput,(OutputStream.ready_fresh.insert text).2]; rfl⟩
  unfold escaped putCharacter
  split
  case h_8 =>
    split
    · refine ⟨⟨rfl,rfl⟩,?_⟩
      have hescape := (hinsert (bytes "\\u")).2
      simp only [OutputStream.dec,OutputStream.insertNumber,OutputStream.insert,
        OutputStream.setfill,OutputStream.setw,OutputStream.hex] at hescape ⊢
      rw [hescape]
      simp only [List.append_assoc]
    · exact hinsert _
  all_goals exact hinsert _

/-- The loop writes character by character. -/
theorem jsonEscape_eq_flatMap (value : List Byte) : jsonEscape value=value.flatMap escaped := by
  have hloop : ∀ (output : OutputStream),output.Ready →
      (value.foldl putCharacter output).output=output.output++value.flatMap escaped := by
    induction value with
    | nil => intro output _; simp
    | cons character rest ih =>
      intro output hready
      obtain ⟨hnext,houtput⟩ := putCharacter_ready hready character
      rw [List.foldl_cons,ih _ hnext,houtput,List.flatMap_cons,List.append_assoc]
  exact hloop _ OutputStream.ready_fresh

/-- Control characters are written with four hexadecimal digits. -/
theorem hexadecimal_escape : ∀ n < 32,
    ((((OutputStream.fresh.insert (bytes "\\u")).hex.setw 4).setfill (byteOf '0')).insertNumber
        n).dec.output=
      [backslash,0x75,0x30,0x30,byteOf (n/16).digitChar,byteOf (n%16).digitChar] := by
  decide

/-- The value of a printed hexadecimal digit. -/
theorem hexValue_digit : ∀ n < 16,hexValue (byteOf n.digitChar)=some n := by
  decide

/-- Every character is written by the rules of the format. -/
theorem encodes_escaped (character : Byte) : Encodes character (escaped character) := by
  have hself : character=.ofNat character.toNat := UInt8.ofNat_toNat.symm
  unfold escaped putCharacter
  split
  case h_8 hquote hbackslash _ _ _ _ _ =>
    split
    · rename_i hcontrol
      have hsmall : character.toNat<32 := UInt8.lt_iff_toNat_lt.mp hcontrol
      have hvalue : 16*(character.toNat/16)+character.toNat%16=character.toNat := by omega
      have htext := hexadecimal_escape character.toNat hsmall
      rw [htext]
      exact .unicode (hexValue_digit _ (by omega)) (hexValue_digit _ (by omega)) (by omega)
        (by rw [hvalue]; exact hself)
    · rename_i hvisible
      refine .plain ⟨?_,?_,UInt8.not_lt.mp hvisible⟩
      · rintro rfl
        exact hquote rfl
      · rintro rfl
        exact hbackslash rfl
  all_goals
    rename_i hvalue
    rw [hvalue] at hself
    rw [hself]
    exact .letter rfl

example : jsonEscape (bytes "\"a\n\x1f")=bytes "\\\"a\\n\\u001f" := by decide

end Escape

/-- String literals of a value. -/
def Value.strings : Value δ → List (List Byte)
  | .string value => [value]
  | .verdict errors => [bytes (verdictText errors)]
  | .number _ | .real _ | .numbers _ | .reals _ => []

/-- String literals of a member: its key and those of its value. -/
def memberStrings (member : String × Value δ) : List (List Byte) :=
  bytes member.1::member.2.strings

/-- String literals of the report, in order. -/
def reportStrings (doubles : Doubles δ) (result : Report δ) : List (List Byte) :=
  (firstMember result::members doubles result).flatMap memberStrings

/-- What has been written ends between two literals, behind the given ones. -/
structure Scanned (output : OutputStream) (found : List (List Byte)) : Prop where
  /-- Nothing is pending. -/
  ready : output.Ready
  /-- Decoded literals. -/
  scan : Scan.start.run output.output=some ⟨.outside,[],found⟩

section Document

variable {output : OutputStream} {found : List (List Byte)}

/-- Text between literals. -/
theorem Scanned.insert (h : Scanned output found) {text : List Byte} (htext : quote ∉ text) :
    Scanned (output.insert text) found := by
  obtain ⟨hready,houtput⟩ := h.ready.insert text
  refine ⟨hready,?_⟩
  rw [houtput,Scan.run_append,h.scan,Option.bind_some,run_between [] found htext]

/-- A literal. -/
theorem Scanned.quoted (h : Scanned output found) {body content : List Byte}
    (hbody : Scan.run ⟨.inside,[],found⟩ body=some ⟨.inside,content,found⟩) :
    Scanned (putQuoted output body) (found++[content]) := by
  obtain ⟨hopened,hopen⟩ := h.ready.insert [quote]
  obtain ⟨hwritten,hwrite⟩ := hopened.insert body
  obtain ⟨hclosed,hclose⟩ := hwritten.insert [quote]
  refine ⟨hclosed,?_⟩
  have hfirst : Scan.run ⟨.outside,[],found⟩ [quote]=some ⟨.inside,[],found⟩ := rfl
  have hlast : Scan.run ⟨.inside,content,found⟩ [quote]=some ⟨.outside,[],found++[content]⟩ := rfl
  rw [putQuoted,hclose,hwrite,hopen,Scan.run_append,Scan.run_append,Scan.run_append,h.scan,
    Option.bind_some,hfirst,Option.bind_some,hbody,Option.bind_some,hlast]

/-- An escaped text. -/
theorem Scanned.string (h : Scanned output found) (value : List Byte) :
    Scanned (putQuoted output (jsonEscape value)) (found++[value]) := by
  refine h.quoted ?_
  rw [jsonEscape_eq_flatMap,run_flatMap encodes_escaped,List.nil_append]

/-- A text that is written as it is. -/
theorem Scanned.plain (h : Scanned output found) {text : List Byte}
    (htext : ∀ byte ∈ text,Plain byte) : Scanned (putQuoted output text) (found++[text]) := by
  refine h.quoted ?_
  rw [run_plain [] found htext,List.nil_append]

/-- A number. -/
theorem Scanned.number (h : Scanned output found) (value : ℕ) :
    Scanned (output.insertNumber value) found := by
  rw [OutputStream.insertNumber,h.ready.base]
  refine h.insert ?_
  intro hmem
  exact absurd (digit_of_mem_digits hmem) (by decide)

/-- An array of values without literals. -/
theorem Scanned.array {α : Type} {put : OutputStream → α → OutputStream}
    (hput : ∀ output value,Scanned output found → Scanned (put output value) found)
    (h : Scanned output found) (values : List α) :
    Scanned (appendJsonArray put output values) found := by
  have hseparator : quote ∉ bytes "," := by decide
  have hloop : ∀ (rest : List α) (output : OutputStream),Scanned output found →
      Scanned (rest.foldl (fun output value => put (output.insert (bytes ",")) value) output)
        found := by
    intro rest
    induction rest with
    | nil => exact fun _ hstart => hstart
    | cons value rest ih =>
      exact fun _ hstart => ih _ (hput _ value (hstart.insert hseparator))
  have hopened : Scanned (output.insert (bytes "[")) found := h.insert (by decide)
  unfold appendJsonArray
  cases values with
  | nil => exact hopened.insert (by decide)
  | cons first rest => exact (hloop rest _ (hput _ first hopened)).insert (by decide)

/-- The value of a member. -/
theorem Scanned.value (h : Scanned output found) (doubles : Doubles δ) (value : Value δ) :
    Scanned (putValue doubles output value) (found++value.strings) := by
  cases value with
  | string value => exact h.string value
  | verdict errors =>
    refine h.plain ?_
    unfold verdictText
    split <;> exact plain_of_all (by decide)
  | number value =>
    rw [Value.strings,List.append_nil]
    exact h.number value
  | real value =>
    rw [Value.strings,List.append_nil]
    exact h.insert (doubles.unquoted value)
  | numbers values =>
    rw [Value.strings,List.append_nil]
    exact h.array (fun _ value hstart => hstart.number value) values
  | reals values =>
    rw [Value.strings,List.append_nil]
    exact h.array (fun _ value hstart => hstart.insert (doubles.unquoted value)) values

/-- A member. -/
theorem Scanned.member (h : Scanned output found) (doubles : Doubles δ)
    (member : String × Value δ) (hkey : ∀ byte ∈ bytes member.1,Plain byte) :
    Scanned (putMember doubles output member) (found++memberStrings member) := by
  have hvalue := (((h.plain hkey).insert (by decide : quote ∉ bytes ":"))).value doubles member.2
  rwa [List.append_assoc] at hvalue

/-- The keys of the report are plain. -/
theorem plain_keys (doubles : Doubles δ) (result : Report δ) :
    ∀ member ∈ members doubles result,∀ byte ∈ bytes member.1,Plain byte := by
  simp only [members,List.forall_mem_cons,List.not_mem_nil,false_implies,implies_true,
    and_true]
  and_intros
  all_goals exact plain_of_all (by decide)

/-- The literals of the report are its keys and texts. -/
theorem literals_toJson (doubles : Doubles δ) (result : Report δ) :
    literals (toJson doubles result)=some (reportStrings doubles result) := by
  have hloop : ∀ (rest : List (String × Value δ)) (output : OutputStream)
      (found : List (List Byte)),(∀ member ∈ rest,∀ byte ∈ bytes member.1,Plain byte) →
      Scanned output found →
      Scanned (rest.foldl (fun output member => putMember doubles (output.insert (bytes ",")) member)
        output) (found++rest.flatMap memberStrings) := by
    intro rest
    induction rest with
    | nil =>
      intro output found _ hstart
      simpa using hstart
    | cons member rest ih =>
      intro output found hkeys hstart
      have hmember := (hstart.insert (by decide : quote ∉ bytes ",")).member doubles member
        (hkeys member List.mem_cons_self)
      have hrest := ih _ _ (fun other hmem => hkeys other (List.mem_cons_of_mem _ hmem)) hmember
      rwa [List.append_assoc] at hrest
  have hstart : Scanned OutputStream.fresh [] := ⟨OutputStream.ready_fresh,rfl⟩
  have hkey : ∀ byte ∈ bytes "benchmark_group",Plain byte := plain_of_all (by decide)
  have hfirst := (hstart.insert (by decide : quote ∉ bytes "\x7b")).member doubles
    (firstMember result) hkey
  have hall := (hloop _ _ _ (plain_keys doubles result) hfirst).insert
    (by decide : quote ∉ bytes "\x7d")
  rw [literals,toJson,hall.scan]
  rfl

end Document

/-- Escaped texts hold no control bytes, every quote in them is escaped, they
are decoded to the text they come from, and in a report every text is read
back as a whole. -/
theorem json_escape_correct :
    (∀ value,∀ byte ∈ jsonEscape value,0x20≤byte) ∧
    (∀ value front rest,jsonEscape value=front++quote::rest → trailing front%2=1 ∧
      ∃ before after,value=before++quote::after ∧ front=jsonEscape before++[backslash]) ∧
    (∀ value,decode (jsonEscape value)=some value) ∧
    Function.Injective jsonEscape ∧
    ∀ (δ : Type) (doubles : Doubles δ) (result : Report δ),
      literals (toJson doubles result)=some (reportStrings doubles result) := by
  have hescape : jsonEscape=fun value => value.flatMap escaped := funext jsonEscape_eq_flatMap
  refine ⟨?_,?_,?_,?_,fun δ => literals_toJson⟩
  · intro value
    rw [hescape]
    exact visible_flatMap encodes_escaped value
  · intro value front rest htext
    rw [hescape] at htext ⊢
    obtain ⟨before,after,hvalue,hfront⟩ := quote_flatMap encodes_escaped htext
    have heven := trailing_flatMap encodes_escaped before
    refine ⟨?_,before,after,hvalue,hfront⟩
    rw [hfront,trailing_concat,if_pos rfl]
    omega
  · intro value
    rw [hescape]
    exact decode_flatMap encodes_escaped value
  · rw [hescape]
    exact flatMap_injective encodes_escaped

/-- Printed form of a number of thousandths, without trailing zeros. -/
def printThousandths (value : ℕ) : List Byte :=
  let fraction := ([value%10,value/10%10,value/100%10].dropWhile (·=0)).reverse
  digits 10 (value/1000)++if fraction=[] then [] else bytes "."++fraction.flatMap (digits 10)

/-- Numbers with three decimal places, exact for the durations of a trial. -/
def thousandths : Doubles ℕ where
  seconds := id
  print := printThousandths
  unquoted := by
    have hdigits : ∀ number,quote ∉ digits 10 number := fun number hmem =>
      absurd (digit_of_mem_digits hmem) (by decide)
    have hpoint : quote ∉ bytes "." := by decide
    intro value
    unfold printThousandths
    dsimp only
    rw [List.mem_append,not_or]
    refine ⟨hdigits _,?_⟩
    split
    · exact List.not_mem_nil
    · rw [List.mem_append,List.mem_flatMap,not_or]
      exact ⟨hpoint,fun ⟨number,_,hmem⟩ => hdigits number hmem⟩

/-- The report of the unit test, with a newline in the name of the queue and
quotes in the remarks. -/
def testReport : Report ℕ where
  benchmarkGroup := bytes "example_group"
  queue := bytes "example\nqueue"
  deliverySemantics := bytes "exclusive_pop"
  trial := 2
  capacity := 16
  payloadSize := 32
  producerCount := 1
  consumerCount := 3
  durationMs := 25
  warmupMs := 5
  messagesPublished := 100
  aggregateReads := 90
  uniqueSequencesVerified := 80
  droppedOrLagged := 2
  invalidPayloads := 1
  fullRetries := 7
  emptyRetries := 9
  validationErrors := 3
  throughputMessagesPerSecond := 4000000
  throughputReadsPerSecond := 3600000
  throughputBytesPerSecond := 115200000
  consumerReads := [30,31,29]
  consumerReadsPerSecond := [1200000,1240000,1160000]
  buildType := bytes "Release"
  compiler := bytes "Example 1.0"
  gitCommit := bytes "abc123"
  timestamp := bytes "2026-06-22T00:00:00Z"
  notes := bytes "quoted: \"value\""

/-- A reader of the report of the unit test finds its keys and texts again,
among them the two that are escaped. -/
theorem json_escape_correct_report :
    thousandths.print (thousandths.seconds testReport.durationMs)=bytes "0.025" ∧
    literals (toJson thousandths testReport)=some (reportStrings thousandths testReport) ∧
    (reportStrings thousandths testReport)[3]?=some (bytes "example\nqueue") ∧
    (reportStrings thousandths testReport).getLast?=some (bytes "quoted: \"value\"") :=
  ⟨by decide,json_escape_correct.2.2.2.2 ℕ thousandths testReport,rfl,rfl⟩

end Line64.BenchmarkJson
