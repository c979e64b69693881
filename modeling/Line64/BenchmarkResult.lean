import Mathlib.Algebra.BigOperators.Group.List.Basic
import Mathlib.Algebra.GroupWithZero.Nat
import Mathlib.Data.List.Destutter
import Mathlib.Data.List.Sort
import Line64.BenchmarkPayload

/-!
# Accounting of the benchmark

What a consumer records of every payload, and the validation of a trial in
`make_result`. Throughput figures and descriptive texts are left out; counters
are natural numbers.
-/

namespace Line64.BenchmarkResult

open Result BenchmarkPayload

/-- Consecutive sequences. -/
structure SequenceRange where
  /-- First sequence. -/
  first : ℕ
  /-- Last sequence. -/
  last : ℕ
  deriving DecidableEq, Repr

/-- The largest 64-bit value. -/
def maxSequence : ℕ := 2^64-1

/-- Ranges of increasing sequences, oldest first. -/
structure SequenceTracker where
  /-- The member `ranges_`. -/
  ranges : List SequenceRange
  deriving DecidableEq, Repr

/-- The member function `record`, with the tracker it leaves. -/
def SequenceTracker.record (tracker : SequenceTracker) (sequence : ℕ) : SequenceTracker × Bool :=
  if sequence=0 then (tracker,false)
  else
    match tracker.ranges.getLast? with
    | none => (⟨tracker.ranges++[⟨sequence,sequence⟩]⟩,true)
    | some back =>
      if back.last≠maxSequence ∧ back.last+1<sequence then
        (⟨tracker.ranges++[⟨sequence,sequence⟩]⟩,true)
      else if back.last≠maxSequence ∧ sequence=back.last+1 then
        (⟨tracker.ranges.dropLast++[⟨back.first,sequence⟩]⟩,true)
      else (tracker,false)

/-- Counters of one consumer. -/
structure ConsumerMetrics where
  /-- Successful reads. -/
  reads : ℕ
  /-- Reads that reported a lag or an overwrite. -/
  lagEvents : ℕ
  /-- Reads that found nothing. -/
  emptyRetries : ℕ
  /-- Payloads that failed validation. -/
  invalidPayloads : ℕ
  /-- Detected failures. -/
  validationErrors : ℕ
  /-- Identifiers of the valid payloads, oldest first. -/
  payloadIds : List ℕ
  /-- Sequences assigned by the queue. -/
  queueSequences : SequenceTracker
  deriving DecidableEq, Repr

/-- Counters of a consumer that has not started. -/
def ConsumerMetrics.initial : ConsumerMetrics := ⟨0,0,0,0,0,[],⟨[]⟩⟩

/-- The function `record_payload`. -/
def recordPayload (random : UInt64 → ℕ → Byte) (metrics : ConsumerMetrics) (payload : List Byte)
    (expectedSize queueSequence : ℕ) : ConsumerMetrics :=
  let counted := {metrics with reads := metrics.reads+1}
  if validPayload random payload expectedSize then
    let ids := metrics.payloadIds++[(readHeader payload).globalId.toNat]
    let recorded := metrics.queueSequences.record queueSequence
    if queueSequence≠0 then
      {counted with
        payloadIds := ids
        queueSequences := recorded.1
        validationErrors := metrics.validationErrors+(if recorded.2 then 0 else 1)}
    else {counted with payloadIds := ids}
  else
    {counted with
      invalidPayloads := metrics.invalidPayloads+1
      validationErrors := metrics.validationErrors+1}

/-- The function `collect_payload_ids`. -/
def collectPayloadIds (metrics : List ConsumerMetrics) : List ℕ :=
  metrics.flatMap ConsumerMetrics.payloadIds

/-- Sorted identifiers. -/
def sort (ids : List ℕ) : List ℕ := ids.insertionSort (·≤·)

/-- The function `count_unique_ids`: distinct identifiers and duplicates. -/
def countUniqueIds (ids : List ℕ) : ℕ × ℕ :=
  if ids=[] then (0,0)
  else
    let unique := ((sort ids).destutter (·≠·)).length
    (unique,ids.length-unique)

/-- The function `has_same_ids`. -/
def hasSameIds (observed expected : List ℕ) : Bool := sort observed=sort expected

/-- Counters of a trial. -/
structure TrialResult where
  /-- Accepted publications. -/
  messagesPublished : ℕ
  /-- Reads of all consumers. -/
  aggregateReads : ℕ
  /-- Distinct identifiers. -/
  uniqueSequencesVerified : ℕ
  /-- Lag events of all consumers. -/
  droppedOrLagged : ℕ
  /-- Invalid payloads of all consumers. -/
  invalidPayloads : ℕ
  /-- Pushes that found the queue full. -/
  fullRetries : ℕ
  /-- Reads that found nothing. -/
  emptyRetries : ℕ
  /-- Detected failures. -/
  validationErrors : ℕ
  /-- Reads of each consumer. -/
  consumerReads : List ℕ
  deriving DecidableEq, Repr

/-- The function `make_result`. -/
def makeResult (published : ℕ) (publishedIds : List ℕ) (metrics : List ConsumerMetrics)
    (fullRetries producerErrors : ℕ) (requireCompleteWorkSharing : Bool) : TrialResult :=
  let aggregateReads := (metrics.map ConsumerMetrics.reads).sum
  let errors := (metrics.map ConsumerMetrics.validationErrors).sum+producerErrors
  let observedIds := collectPayloadIds metrics
  let counted := countUniqueIds observedIds
  let incomplete := aggregateReads≠published ∨ counted.1≠published ∨
    publishedIds.length≠published ∨ hasSameIds observedIds publishedIds=false
  { messagesPublished := published
    aggregateReads := aggregateReads
    uniqueSequencesVerified := counted.1
    droppedOrLagged := (metrics.map ConsumerMetrics.lagEvents).sum
    invalidPayloads := (metrics.map ConsumerMetrics.invalidPayloads).sum
    fullRetries := fullRetries
    emptyRetries := (metrics.map ConsumerMetrics.emptyRetries).sum
    validationErrors :=
      if requireCompleteWorkSharing then errors+counted.2+(if incomplete then 1 else 0)
      else errors
    consumerReads := metrics.map ConsumerMetrics.reads }

/-- Later sequences are accepted, and the last one is remembered. -/
theorem SequenceTracker.record_later {tracker : SequenceTracker} {sequence : ℕ}
    (hpos : 0 < sequence) (hmax : sequence ≤ maxSequence)
    (hlater : ∀ back,tracker.ranges.getLast?=some back → back.last < sequence) :
    (tracker.record sequence).2=true ∧
      ∀ back,(tracker.record sequence).1.ranges.getLast?=some back → back.last=sequence := by
  have hlast : ∀ (ranges : List SequenceRange) (first : ℕ) (back : SequenceRange),
      (ranges++[(⟨first,sequence⟩ : SequenceRange)]).getLast?=some back → back.last=sequence := by
    intro ranges first back hback
    rw [List.getLast?_concat,Option.some.injEq] at hback
    rw [← hback]
  unfold SequenceTracker.record
  rw [if_neg hpos.ne']
  cases hback : tracker.ranges.getLast? with
  | none => exact ⟨rfl,hlast _ _⟩
  | some back =>
    have hlt := hlater back hback
    have hroom : back.last≠maxSequence := by omega
    dsimp only
    by_cases hgap : back.last+1 < sequence
    · rw [if_pos ⟨hroom,hgap⟩]
      exact ⟨rfl,hlast _ _⟩
    · have hnext : sequence=back.last+1 := by omega
      rw [if_neg (fun h => hgap h.2),if_pos ⟨hroom,hnext⟩]
      exact ⟨rfl,hlast _ _⟩

/-- A valid payload with a later sequence is recorded without a failure. -/
theorem recordPayload_valid {random : UInt64 → ℕ → Byte} {metrics : ConsumerMetrics}
    {payload : List Byte} {size sequence : ℕ} (hvalid : validPayload random payload size=true)
    (hpos : 0 < sequence) (hmax : sequence ≤ maxSequence)
    (hlater : ∀ back,metrics.queueSequences.ranges.getLast?=some back → back.last < sequence) :
    (recordPayload random metrics payload size sequence).reads=metrics.reads+1 ∧
    (recordPayload random metrics payload size sequence).payloadIds=
      metrics.payloadIds++[(readHeader payload).globalId.toNat] ∧
    (recordPayload random metrics payload size sequence).validationErrors=
      metrics.validationErrors ∧
    ∀ back,(recordPayload random metrics payload size sequence).queueSequences.ranges.getLast?=
      some back → back.last=sequence := by
  obtain ⟨haccepted,hlast⟩ := SequenceTracker.record_later hpos hmax hlater
  simp only [recordPayload,hvalid,if_true,hpos.ne',ne_eq,not_false_eq_true,haccepted]
  exact ⟨trivial,trivial,rfl,hlast⟩

/-- Sorted identifiers without repeated neighbours have no repetitions. -/
theorem destutter_sort (ids : List ℕ) : (sort ids).destutter (·≠·)=(sort ids).dedup :=
  (List.pairwise_insertionSort (·≤·) ids).destutter_eq_dedup

/-- Distinct identifiers have no duplicates. -/
theorem countUniqueIds_of_nodup {ids : List ℕ} (h : ids.Nodup) :
    countUniqueIds ids=(ids.length,0) := by
  have hsorted : (sort ids).Nodup := (List.perm_insertionSort _ ids).nodup_iff.mpr h
  have hunique : (sort ids).destutter (·≠·)=sort ids := by
    rw [destutter_sort,hsorted.dedup]
  unfold countUniqueIds
  split
  · rename_i hempty
    rw [hempty,List.length_nil]
  · have hlength : (sort ids).length=ids.length := List.length_insertionSort _ ids
    simp only [hunique,hlength,Nat.sub_self]

/-- Identifiers in any order are the same. -/
theorem hasSameIds_of_perm {observed expected : List ℕ} (h : observed.Perm expected) :
    hasSameIds observed expected=true := by
  have hperm : (sort observed).Perm (sort expected) :=
    (List.perm_insertionSort _ observed).trans (h.trans (List.perm_insertionSort _ expected).symm)
  exact decide_eq_true (hperm.eq_of_pairwise' (List.pairwise_insertionSort _ _)
    (List.pairwise_insertionSort _ _))

/-- A trial in which every published identifier is read once passes. -/
theorem makeResult_passes {publishedIds : List ℕ} {metrics : List ConsumerMetrics}
    (hreads : (metrics.map ConsumerMetrics.reads).sum=publishedIds.length)
    (herrors : ∀ metric ∈ metrics,metric.validationErrors=0)
    (hids : (collectPayloadIds metrics).Perm publishedIds) (hnodup : publishedIds.Nodup)
    (fullRetries : ℕ) :
    (makeResult publishedIds.length publishedIds metrics fullRetries 0 true).validationErrors=0 := by
  have hunique := countUniqueIds_of_nodup (hids.nodup_iff.mpr hnodup)
  have hzero : (metrics.map ConsumerMetrics.validationErrors).sum=0 := by
    refine List.sum_eq_zero ?_
    intro errors hmem
    obtain ⟨metric,hmetric,rfl⟩ := List.mem_map.mp hmem
    exact herrors metric hmetric
  simp [makeResult,hreads,hunique,hzero,hasSameIds_of_perm hids,hids.length_eq]

end Line64.BenchmarkResult
