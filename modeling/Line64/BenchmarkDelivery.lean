import Line64.BenchmarkSequences

/-!
# The verdict of a benchmark trial

`make_result` adds up failures, compares counts and compares sorted
identifiers. Without wrapping counters its verdict on a trial with complete
work sharing is the exact one: no failure is reported if and only if every
published identifier was read exactly once and nothing else went wrong.
-/

namespace Line64.BenchmarkDelivery

open Result BenchmarkPayload BenchmarkResult BenchmarkSequences

/-- What a consumer loop does to its counters. -/
inductive Event
  /-- A call of `record_payload`. -/
  | recorded (payload : List Byte) (expectedSize : UInt32) (queueSequence : UInt64)
  /-- A read that reported a lag or an overwrite. -/
  | lagged
  /-- A read that found nothing. -/
  | empty
  /-- Any other result of a read. -/
  | failed

/-- Effect of an event on the counters. -/
def apply (random : UInt64 → ℕ → Byte) (metrics : ConsumerMetrics) : Event → ConsumerMetrics
  | .recorded payload expectedSize queueSequence =>
    recordPayload random metrics payload expectedSize.toNat queueSequence.toNat
  | .lagged => {metrics with lagEvents := metrics.lagEvents+1}
  | .empty => {metrics with emptyRetries := metrics.emptyRetries+1}
  | .failed => {metrics with validationErrors := metrics.validationErrors+1}

/-- Counters of a consumer after a list of events. -/
def metricsOf (random : UInt64 → ℕ → Byte) (events : List Event) : ConsumerMetrics :=
  events.foldl (apply random) .initial

/-- The consumer loop added a failure. -/
def isFailed : Event → Bool
  | .failed => true
  | _ => false

/-- The payload of the call was not valid. -/
def isInvalid (random : UInt64 → ℕ → Byte) : Event → Bool
  | .recorded payload expectedSize _ => !validPayload random payload expectedSize.toNat
  | _ => false

/-- The identifier of a valid payload. -/
def payloadId (random : UInt64 → ℕ → Byte) : Event → Option ℕ
  | .recorded payload expectedSize _ =>
    if validPayload random payload expectedSize.toNat then some (readHeader payload).globalId.toNat
    else none
  | _ => none

/-- Identifiers observed by a consumer, oldest first. -/
def observedIds (random : UInt64 → ℕ → Byte) (events : List Event) : List ℕ :=
  events.filterMap (payloadId random)

/-- A sequence assigned by the queue. -/
def queueSequence : Event → Option UInt64
  | .recorded _ _ queueSequence => if queueSequence=0 then none else some queueSequence
  | _ => none

/-- Non-zero sequences of all recorded payloads, oldest first. -/
def queueSequences (events : List Event) : List UInt64 := events.filterMap queueSequence

/-- Those of the valid payloads, which reach the tracker. -/
def trackedSequences (random : UInt64 → ℕ → Byte) (events : List Event) : List UInt64 :=
  queueSequences (events.filter fun event => !isInvalid random event)

/-- Zero stands for no sequence. -/
theorem queueSequences_ne_zero (events : List Event) :
    ∀ sequence ∈ queueSequences events,sequence≠0 := by
  intro sequence hmem
  obtain ⟨event,-,hevent⟩ := List.mem_filterMap.mp hmem
  cases event with
  | recorded payload expectedSize other =>
    simp only [queueSequence] at hevent
    split at hevent
    · cases hevent
    · rename_i hne
      cases hevent
      exact hne
  | _ => cases hevent

section Tracker

/-- Accepted sequences are a part of the recorded ones. -/
theorem acceptedOf_sublist (calls : List UInt64) : (acceptedOf calls).Sublist calls := by
  induction calls using List.reverseRecOn with
  | nil => exact List.Sublist.slnil
  | append_singleton rest sequence ih =>
    rw [(driven_append rest sequence).2]
    split
    · exact ih.append_right [sequence]
    · exact ih.trans (List.sublist_append_left _ _)

/-- All sequences are accepted exactly if they increase. -/
theorem acceptedOf_eq_iff {calls : List UInt64} (hzero : ∀ sequence ∈ calls,sequence≠0) :
    acceptedOf calls=calls ↔ calls.Pairwise (·<·) := by
  induction calls using List.reverseRecOn with
  | nil => exact ⟨fun _ => .nil,fun _ => rfl⟩
  | append_singleton rest sequence ih =>
    have hrest := ih fun other hother => hzero other (List.mem_append_left _ hother)
    have hanswer := ((tracks rest).record sequence).1
    have hne : sequence≠0 := hzero sequence (by simp)
    have hlength := (acceptedOf_sublist rest).length_le
    rw [(driven_append rest sequence).2,List.pairwise_append,← hrest]
    constructor
    · intro hall
      split at hall
      · rename_i htrue
        have hsame := List.append_cancel_right hall
        have hlater := (hanswer.mp htrue).2
        rw [hsame] at hlater
        exact ⟨hsame,List.pairwise_singleton _ _,by simpa using hlater⟩
      · have hlengths := congrArg List.length hall
        rw [List.length_append,List.length_singleton] at hlengths
        omega
    · rintro ⟨hsame,-,hlater⟩
      have htrue : ((tracked rest).record sequence.toNat).2=true := by
        refine hanswer.mpr ⟨hne,?_⟩
        rw [hsame]
        exact fun earlier hmem => hlater earlier hmem sequence List.mem_cons_self
      rw [if_pos htrue,hsame]

end Tracker

section Consumer

variable (random : UInt64 → ℕ → Byte)

/-- What the counters of a consumer add up to. -/
structure Accounts (events : List Event) (metrics : ConsumerMetrics) : Prop where
  /-- The tracker has seen the sequences of the valid payloads. -/
  tracker : metrics.queueSequences=tracked (trackedSequences random events)
  /-- Identifiers of the valid payloads. -/
  ids : metrics.payloadIds=observedIds random events
  /-- Every read is valid or not. -/
  reads : metrics.reads=metrics.payloadIds.length+events.countP (isInvalid random)
  /-- Failures of the loop, invalid payloads and rejected sequences. -/
  errors : metrics.validationErrors+(acceptedOf (trackedSequences random events)).length=
    events.countP isFailed+events.countP (isInvalid random)+
      (trackedSequences random events).length

/-- Tracked sequences with one more event. -/
theorem trackedSequences_append (events : List Event) (event : Event) :
    trackedSequences random (events++[event])=trackedSequences random events++
      if isInvalid random event then [] else (queueSequence event).toList := by
  rw [trackedSequences,List.filter_append,queueSequences,List.filterMap_append]
  congr 1
  cases hinvalid : isInvalid random event with
  | true => simp [hinvalid]
  | false =>
    cases hsequence : queueSequence event <;> simp [hinvalid,hsequence]

variable {random}

/-- An event that is not a recorded payload. -/
theorem Accounts.other {events : List Event} {metrics : ConsumerMetrics}
    (h : Accounts random events metrics) {event : Event} {lagEvents emptyRetries : ℕ}
    (hinvalid : isInvalid random event=false) (hid : payloadId random event=none)
    (hsequence : queueSequence event=none) :
    Accounts random (events++[event]) {metrics with
      lagEvents := lagEvents
      emptyRetries := emptyRetries
      validationErrors := metrics.validationErrors+(isFailed event).toNat} := by
  have htracked : trackedSequences random (events++[event])=trackedSequences random events := by
    simp [trackedSequences_append,hinvalid,hsequence]
  have herrors := h.errors
  constructor
  · rw [htracked]
    exact h.tracker
  · simpa [observedIds,hid] using h.ids
  · simpa [List.countP_append,hinvalid] using h.reads
  · rw [htracked]
    cases hfailed : isFailed event <;>
      simp only [List.countP_append,List.countP_singleton,hinvalid,hfailed,if_true,
        Bool.false_eq_true,if_false,Bool.toNat_true,Bool.toNat_false] <;> omega

/-- A recorded payload that is not valid. -/
theorem Accounts.recorded_invalid {events : List Event} {metrics : ConsumerMetrics}
    (h : Accounts random events metrics) {payload : List Byte} {expectedSize : UInt32}
    (sequence : UInt64) (hvalid : validPayload random payload expectedSize.toNat=false) :
    Accounts random (events++[.recorded payload expectedSize sequence])
      (recordPayload random metrics payload expectedSize.toNat sequence.toNat) := by
  have htracked := trackedSequences_append random events (.recorded payload expectedSize sequence)
  have hreads := h.reads
  have herrors := h.errors
  simp only [isInvalid,hvalid,Bool.not_false,if_true,List.append_nil] at htracked
  simp only [recordPayload,hvalid,Bool.false_eq_true,if_false]
  constructor
  · rw [htracked]
    exact h.tracker
  · simpa [observedIds,payloadId,hvalid] using h.ids
  · simp only [List.countP_append,List.countP_singleton,isInvalid,hvalid,Bool.not_false,if_true]
    omega
  · rw [htracked]
    simp only [List.countP_append,List.countP_singleton,isInvalid,isFailed,hvalid,Bool.not_false,
      Bool.false_eq_true,if_true,if_false]
    omega

/-- A recorded payload that is valid. -/
theorem Accounts.recorded_valid {events : List Event} {metrics : ConsumerMetrics}
    (h : Accounts random events metrics) {payload : List Byte} {expectedSize : UInt32}
    (sequence : UInt64) (hvalid : validPayload random payload expectedSize.toNat=true) :
    Accounts random (events++[.recorded payload expectedSize sequence])
      (recordPayload random metrics payload expectedSize.toNat sequence.toNat) := by
  have htracked := trackedSequences_append random events (.recorded payload expectedSize sequence)
  have hreads := h.reads
  have herrors := h.errors
  have hzero := toNat_eq_zero_iff sequence
  simp only [isInvalid,hvalid,Bool.not_true,Bool.false_eq_true,if_false,queueSequence] at htracked
  have hcounts : (events++[Event.recorded payload expectedSize sequence]).countP isFailed=
        events.countP isFailed ∧
      (events++[Event.recorded payload expectedSize sequence]).countP (isInvalid random)=
        events.countP (isInvalid random) := by
    simp [isFailed,isInvalid,hvalid]
  have hids : observedIds random (events++[Event.recorded payload expectedSize sequence])=
      metrics.payloadIds++[(readHeader payload).globalId.toNat] := by
    simp [observedIds,payloadId,hvalid,h.ids]
  have hlength : metrics.reads+1=
      (metrics.payloadIds++[(readHeader payload).globalId.toNat]).length+
        events.countP (isInvalid random) := by
    rw [List.length_append,List.length_singleton]
    omega
  by_cases hnull : sequence=0
  · -- Without a sequence the tracker is not called.
    simp only [hnull,if_true,Option.toList_none,List.append_nil] at htracked
    rw [← hnull] at htracked
    simp only [recordPayload,hvalid,hzero.mpr hnull,ne_eq,not_true_eq_false,if_true,if_false]
    refine ⟨?_,hids.symm,by rw [hcounts.2]; exact hlength,?_⟩
    · rw [htracked]
      exact h.tracker
    · rw [htracked,hcounts.1,hcounts.2]
      exact herrors
  · simp only [hnull,if_false,Option.toList_some] at htracked
    obtain ⟨hnext,haccepted⟩ := driven_append (trackedSequences random events) sequence
    have hword : sequence.toNat≠0 := mt hzero.mp hnull
    simp only [recordPayload,hvalid,hword,ne_eq,not_false_eq_true,if_true,h.tracker]
    refine ⟨by rw [htracked,hnext],hids.symm,by rw [hcounts.2]; exact hlength,?_⟩
    rw [htracked,haccepted,hcounts.1,hcounts.2]
    cases ((tracked (trackedSequences random events)).record sequence.toNat).2 <;>
      simp only [Bool.false_eq_true,if_true,if_false,List.length_append,
        List.length_singleton] <;> omega

variable (random)

/-- The counters of every consumer. -/
theorem accounts (events : List Event) : Accounts random events (metricsOf random events) := by
  induction events using List.reverseRecOn with
  | nil => exact ⟨rfl,rfl,rfl,rfl⟩
  | append_singleton rest event ih =>
    rw [metricsOf,List.foldl_append]
    cases event with
    | recorded payload expectedSize sequence =>
      cases hvalid : validPayload random payload expectedSize.toNat with
      | false => exact ih.recorded_invalid sequence hvalid
      | true => exact ih.recorded_valid sequence hvalid
    | lagged => exact ih.other rfl rfl rfl
    | empty => exact ih.other rfl rfl rfl
    | failed => exact ih.other rfl rfl rfl

/-- A consumer reports no failure exactly if its loop added none, its
payloads were valid and its sequences increased. -/
theorem errors_eq_zero_iff (events : List Event) :
    (metricsOf random events).validationErrors=0 ↔
      (∀ event ∈ events,isFailed event=false) ∧ (∀ event ∈ events,isInvalid random event=false) ∧
        (queueSequences events).Pairwise (·<·) := by
  have herrors := (accounts random events).errors
  have hsublist := acceptedOf_sublist (trackedSequences random events)
  have hlength := hsublist.length_le
  have hnonzero : ∀ sequence ∈ trackedSequences random events,sequence≠0 :=
    queueSequences_ne_zero _
  have hfailed : events.countP isFailed=0 ↔ ∀ event ∈ events,isFailed event=false := by
    simp [List.countP_eq_zero]
  have hinvalid : events.countP (isInvalid random)=0 ↔
      ∀ event ∈ events,isInvalid random event=false := by
    simp [List.countP_eq_zero]
  have hall : (∀ event ∈ events,isInvalid random event=false) →
      trackedSequences random events=queueSequences events := by
    intro hvalid
    rw [trackedSequences,List.filter_eq_self.mpr]
    intro event hmem
    rw [hvalid event hmem,Bool.not_false]
  rw [← hfailed]
  constructor
  · intro hzero
    have hvalid := hinvalid.mp (by omega)
    refine ⟨by omega,hvalid,?_⟩
    rw [← hall hvalid,← acceptedOf_eq_iff hnonzero]
    exact hsublist.eq_of_length (by omega)
  · rintro ⟨hnone,hvalid,hincreasing⟩
    rw [← hall hvalid,← acceptedOf_eq_iff hnonzero] at hincreasing
    have hcount := hinvalid.mpr hvalid
    rw [hincreasing] at herrors
    omega

/-- No consumer reports a failure. -/
theorem sum_errors_eq_zero_iff (consumers : List (List Event)) :
    ((consumers.map (metricsOf random)).map ConsumerMetrics.validationErrors).sum=0 ↔
      ∀ events ∈ consumers,(metricsOf random events).validationErrors=0 := by
  induction consumers with
  | nil => simp
  | cons events rest ih => simp [← ih]

/-- Identifiers of all consumers. -/
theorem collectPayloadIds_metricsOf (consumers : List (List Event)) :
    collectPayloadIds (consumers.map (metricsOf random))=
      consumers.flatMap (observedIds random) := by
  rw [collectPayloadIds,List.flatMap_map]
  exact List.flatMap_congr fun events _ => (accounts random events).ids

/-- Without failures every read has an identifier. -/
theorem sum_reads_eq (consumers : List (List Event))
    (h : ∀ events ∈ consumers,(metricsOf random events).validationErrors=0) :
    ((consumers.map (metricsOf random)).map ConsumerMetrics.reads).sum=
      (consumers.flatMap (observedIds random)).length := by
  induction consumers with
  | nil => rfl
  | cons events rest ih =>
    have hrest := ih fun other hother => h other (List.mem_cons_of_mem _ hother)
    have hclean := (errors_eq_zero_iff random events).mp (h events List.mem_cons_self)
    have hvalid : events.countP (isInvalid random)=0 := by
      simpa [List.countP_eq_zero] using hclean.2.1
    have hreads := (accounts random events).reads
    rw [(accounts random events).ids] at hreads
    simp only [List.map_cons,List.sum_cons,List.flatMap_cons,List.length_append] at hrest ⊢
    omega

end Consumer

section Identifiers

/-- No duplicates are counted exactly if there are none. -/
theorem duplicates_eq_zero_iff (ids : List ℕ) : (countUniqueIds ids).2=0 ↔ ids.Nodup := by
  refine ⟨?_,fun h => by rw [countUniqueIds_of_nodup h]⟩
  unfold countUniqueIds
  split
  · rename_i hempty
    intro _
    rw [hempty]
    exact List.nodup_nil
  · intro hzero
    have hperm : (sort ids).Perm ids := List.perm_insertionSort _ ids
    have hsublist := List.dedup_sublist (sort ids)
    have hlength := hsublist.length_le
    rw [destutter_sort] at hzero
    rw [hperm.length_eq] at hlength
    have hunique : (sort ids).dedup=sort ids :=
      hsublist.eq_of_length (by rw [hperm.length_eq]; dsimp only at hzero; omega)
    exact hperm.nodup_iff.mp (List.dedup_eq_self.mp hunique)

/-- Sorted identifiers are compared as collections. -/
theorem hasSameIds_iff (observed expected : List ℕ) :
    hasSameIds observed expected=true ↔ observed.Perm expected := by
  refine ⟨?_,hasSameIds_of_perm⟩
  intro hsame
  have hsort : sort observed=sort expected := of_decide_eq_true hsame
  have hobserved : (sort observed).Perm observed := List.perm_insertionSort _ observed
  have hexpected : (sort expected).Perm expected := List.perm_insertionSort _ expected
  exact hobserved.symm.trans (hsort ▸ hexpected)

end Identifiers

/-- The verdict of a trial with complete work sharing is the exact one. -/
theorem delivery_check_exact (random : UInt64 → ℕ → Byte) (published : ℕ) (publishedIds : List ℕ)
    (consumers : List (List Event)) (fullRetries producerErrors : ℕ) :
    (makeResult published publishedIds (consumers.map (metricsOf random)) fullRetries
        producerErrors true).validationErrors=0 ↔
      producerErrors=0 ∧
      (∀ events ∈ consumers,(∀ event ∈ events,isFailed event=false) ∧
        (∀ event ∈ events,isInvalid random event=false) ∧
        (queueSequences events).Pairwise (·<·)) ∧
      published=publishedIds.length ∧
      (consumers.flatMap (observedIds random)).Nodup ∧
      (consumers.flatMap (observedIds random)).Perm publishedIds := by
  have herrors := sum_errors_eq_zero_iff random consumers
  have hreads := sum_reads_eq random consumers
  simp only [← errors_eq_zero_iff random,← herrors]
  simp only [makeResult,if_true,collectPayloadIds_metricsOf]
  generalize consumers.flatMap (observedIds random)=ids at hreads ⊢
  constructor
  · -- Every summand of the verdict is zero.
    intro hzero
    have hclean : ((consumers.map (metricsOf random)).map ConsumerMetrics.validationErrors).sum=0 :=
      by omega
    have hnodup : ids.Nodup := (duplicates_eq_zero_iff ids).mp (by omega)
    have hcomplete := Nat.eq_zero_of_add_eq_zero_left hzero
    rw [ite_eq_right_iff] at hcomplete
    have hmatch : published=publishedIds.length ∧ hasSameIds ids publishedIds=true := by
      refine ⟨?_,?_⟩
      · by_contra hne
        exact Nat.one_ne_zero (hcomplete (.inr (.inr (.inl (Ne.symm hne)))))
      · by_contra hne
        exact Nat.one_ne_zero (hcomplete (.inr (.inr (.inr (Bool.eq_false_iff.mpr hne)))))
    exact ⟨by omega,hclean,hmatch.1,hnodup,(hasSameIds_iff ids publishedIds).mp hmatch.2⟩
  · rintro ⟨hproducer,hclean,hpublished,hnodup,hperm⟩
    have hunique := countUniqueIds_of_nodup hnodup
    rw [if_neg]
    · rw [hclean,hproducer,hunique]
      rfl
    · rw [hreads (herrors.mp hclean),hunique,hpublished,hasSameIds_of_perm hperm,hperm.length_eq]
      simp

end Line64.BenchmarkDelivery
