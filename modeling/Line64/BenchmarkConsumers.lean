import Mathlib.Algebra.BigOperators.Fin
import Line64.BenchmarkResult
import Line64.BoundedFifo
import Line64.Census
import Line64.DrainProtocol

/-!
# Queue and consumers of a benchmark trial

The part that all work-sharing trials have in common: a queue whose
operations are atomic, the flag that tells the consumers that the producers
are done, and the consumer loop. A consumer whose pop finds nothing loads the
flag in a separate step. The successful pushes and pops are logged in lists
that no thread reads.
-/

namespace Line64.BenchmarkConsumers

open Function Result BoundedFifo FixedMessageAccess Census DrainProtocol BenchmarkPayload
  BenchmarkResult

/-- A configuration accepted by `parse_config`, and the generator that fills
the payloads. -/
structure Trial where
  /-- Capacity of the queue. -/
  capacity : ℕ
  /-- Size of all payloads. -/
  payloadSize : ℕ
  /-- A payload holds its header. -/
  header_le : payloadHeaderSize≤payloadSize
  /-- A payload fits into the queue. -/
  le_max : payloadSize ≤ maxPayloadSize
  /-- Bytes of the generator by seed. -/
  random : UInt64 → ℕ → Byte

/-- Shared objects of a trial with `m` consumers. -/
structure Shared (m : ℕ) where
  /-- The queue. -/
  queue : Fifo
  /-- The flag `producer_done` or `producers_done`. -/
  done : Bool
  /-- Program points of the consumers: in front of `try_pop`, behind an empty
  pop in front of the flag, or returned. -/
  consumer : Fin m → Phase
  /-- Their counters. -/
  metrics : Fin m → ConsumerMetrics
  /-- Successful pushes with their identifiers, oldest first. -/
  pushed : List (ℕ × List Byte)
  /-- Successful pops with their consumers, oldest first. -/
  popped : List (Fin m × List Byte)

/-- Before any thread runs. -/
def Shared.initial (m : ℕ) : Shared m :=
  ⟨⟨0,[]⟩,false,fun _ => .taking,fun _ => .initial,[],[]⟩

variable {m : ℕ}

/-- The member function `try_push` of an adapter. -/
def tryPush (t : Trial) (s : Shared m) (id : ℕ) (payload : List Byte) : Shared m × WriteResult :=
  let written := s.queue.push maxPayloadSize t.capacity payload
  ({s with
      queue := written.1
      pushed := if ok written.2.status then s.pushed++[(id,payload)] else s.pushed},written.2)

/-- One step of the consumer loop. The queues differ in whether a pop keeps a
message that does not fit. -/
def stepConsumer (t : Trial) (keepsRejected : Bool) (s : Shared m) (c : Fin m) :
    Option (Shared m) :=
  match s.consumer c with
  | .taking =>
    let read := s.queue.pop keepsRejected (List.replicate t.payloadSize 0)
    let metrics := s.metrics c
    match read.2.2.status with
    | .success =>
      some {s with
        queue := read.1
        metrics := update s.metrics c
          (recordPayload t.random metrics read.2.1 t.payloadSize read.2.2.sequence)
        popped := s.popped++[(c,read.2.1)]}
    | .empty => some {s with queue := read.1, consumer := update s.consumer c .checking}
    | _ =>
      some {s with
        queue := read.1
        metrics := update s.metrics c
          {metrics with validationErrors := metrics.validationErrors+1}
        consumer := update s.consumer c .exited}
  | .checking =>
    let metrics := s.metrics c
    if s.done then some {s with consumer := update s.consumer c .exited}
    else
      some {s with
        metrics := update s.metrics c {metrics with emptyRetries := metrics.emptyRetries+1}
        consumer := update s.consumer c .taking}
  | .exited => none

/-- A payload of the trial with this identifier. -/
def Issued (t : Trial) (id : ℕ) (payload : List Byte) : Prop :=
  ∃ producerId l,1≤l ∧ l ≤ id ∧
    payload=makePayload t.random t.payloadSize producerId (.ofNat l) (.ofNat id)

/-- Queue and logs. -/
structure Inv (t : Trial) (s : Shared m) : Prop where
  /-- What was pushed has been popped or is queued, in order. -/
  conserved : s.pushed.map Prod.snd=s.popped.map Prod.snd++s.queue.queue
  /-- The queue counts the pops. -/
  counted : s.queue.popped=s.popped.length
  /-- Only payloads of the trial are pushed. -/
  issued : ∀ entry ∈ s.pushed,Issued t entry.1 entry.2
  /-- The consumers will empty the queue. -/
  drains : Drains s.queue.queue s.done s.consumer

/-- Counters of a consumer that has met no failure. -/
structure Clean (popped : ℕ) (metrics : ConsumerMetrics) : Prop where
  /-- No failure is recorded. -/
  errors : metrics.validationErrors=0
  /-- Recorded sequences do not exceed the number of pops. -/
  latest : ∀ back,metrics.queueSequences.ranges.getLast?=some back → back.last≤popped

/-- Counters of the consumers while no identifier exceeds its 64 bits. -/
structure Recorded (s : Shared m) : Prop where
  /-- All pops are counted. -/
  reads : ∑ c,(s.metrics c).reads=s.popped.length
  /-- All identifiers are recorded. -/
  ids : ∑ c,((s.metrics c).payloadIds : Multiset ℕ)=
    ((s.pushed.take s.popped.length).map Prod.fst : List ℕ)
  /-- No consumer has met a failure. -/
  clean : ∀ c,Clean s.popped.length (s.metrics c)

/-- Payloads have the size of the trial. -/
theorem Issued.length_eq {t : Trial} {id : ℕ} {payload : List Byte} (h : Issued t id payload) :
    payload.length=t.payloadSize := by
  obtain ⟨producerId,l,-,-,rfl⟩ := h
  exact makePayload_length ..

/-- A 64-bit word that does not wrap to zero. -/
theorem ofNat_ne_zero {n : ℕ} (hpos : 1≤n) (hlt : n<2^64) : UInt64.ofNat n≠0 := by
  intro h
  have hvalue : (UInt64.ofNat n).toNat=n := UInt64.toNat_ofNat_of_lt' hlt
  rw [h] at hvalue
  have hzero : (0 : UInt64).toNat=0 := rfl
  omega

/-- Payloads are valid and name their identifier. -/
theorem Issued.valid {t : Trial} {id : ℕ} {payload : List Byte} (h : Issued t id payload)
    (hid : id<2^64) : validPayload t.random payload t.payloadSize=true ∧
      (readHeader payload).globalId.toNat=id := by
  obtain ⟨producerId,l,hpos,hle,rfl⟩ := h
  have hsize : t.payloadSize<2^32 := t.le_max.trans_lt (by decide)
  refine ⟨validPayload_makePayload t.random producerId t.header_le hsize
    (ofNat_ne_zero hpos (by omega)) (ofNat_ne_zero (by omega) hid),?_⟩
  rw [readHeader_makePayload t.random producerId t.header_le]
  exact UInt64.toNat_ofNat_of_lt' hid

/-- More pops. -/
theorem Clean.mono {popped popped' : ℕ} {metrics : ConsumerMetrics} (h : Clean popped metrics)
    (hle : popped≤popped') : Clean popped' metrics :=
  ⟨h.errors,fun back hback => (h.latest back hback).trans hle⟩

/-- Collected identifiers, as the sum of those of all consumers. -/
theorem coe_collectPayloadIds (metrics : List ConsumerMetrics) :
    (collectPayloadIds metrics : Multiset ℕ)=
      (metrics.map fun metric => (metric.payloadIds : Multiset ℕ)).sum := by
  induction metrics with
  | nil => rfl
  | cons metric rest ih =>
    rw [List.map_cons,List.sum_cons,← ih,Multiset.coe_add]
    rfl

/-- What a step of a consumer does. -/
inductive ConsumerEffect (t : Trial) (s : Shared m) (c : Fin m) : Shared m → Prop
  /-- A payload is popped and recorded. -/
  | popped (payload : List Byte) (rest : List (List Byte)) (hc : s.consumer c=.taking)
      (hqueue : s.queue.queue=payload::rest) : ConsumerEffect t s c
        {s with
          queue := ⟨s.queue.popped+1,rest⟩
          metrics := update s.metrics c
            (recordPayload t.random (s.metrics c) payload t.payloadSize (s.queue.popped+1))
          popped := s.popped++[(c,payload)]}
  /-- The queue is empty. -/
  | missed (hc : s.consumer c=.taking) (hempty : s.queue.queue=[]) : ConsumerEffect t s c
      {s with consumer := update s.consumer c .checking}
  /-- The flag is set. -/
  | left (hc : s.consumer c=.checking) (hdone : s.done=true) : ConsumerEffect t s c
      {s with consumer := update s.consumer c .exited}
  /-- The flag is not set. -/
  | resumed (hc : s.consumer c=.checking) (hopen : s.done=false) : ConsumerEffect t s c
      {s with
        metrics := update s.metrics c
          {s.metrics c with emptyRetries := (s.metrics c).emptyRetries+1}
        consumer := update s.consumer c .taking}

section Steps

variable {t : Trial} {s s' : Shared m} {c : Fin m}

/-- The oldest queued payload is the next one to be popped. -/
theorem Inv.front (h : Inv t s) {payload : List Byte} {rest : List (List Byte)}
    (hqueue : s.queue.queue=payload::rest) :
    ∃ id,s.pushed[s.popped.length]?=some (id,payload) ∧ Issued t id payload := by
  have hentry : (s.pushed.map Prod.snd)[s.popped.length]?=some payload := by
    rw [h.conserved,hqueue,List.getElem?_append_right (by rw [List.length_map]),List.length_map,
      Nat.sub_self,List.getElem?_cons_zero]
  rw [List.getElem?_map,Option.map_eq_some_iff] at hentry
  obtain ⟨⟨id,_⟩,hget,rfl⟩ := hentry
  exact ⟨id,hget,h.issued _ (List.mem_of_getElem? hget)⟩

/-- No other effect occurs: the destination has the size of the payloads. -/
theorem effect_of_stepConsumer (h : Inv t s) {keepsRejected : Bool}
    (hs : stepConsumer t keepsRejected s c=some s') : ConsumerEffect t s c s' := by
  unfold stepConsumer at hs
  cases hc : s.consumer c with
  | taking =>
    rw [hc] at hs
    cases hqueue : s.queue.queue with
    | nil =>
      simp only [Fifo.pop,hqueue,Option.some.injEq] at hs
      rw [← hs]
      exact .missed hc hqueue
    | cons payload rest =>
      obtain ⟨id,-,hissued⟩ := h.front hqueue
      have hlength := hissued.length_eq
      have hread : s.queue.pop keepsRejected (List.replicate t.payloadSize 0)=
          (⟨s.queue.popped+1,rest⟩,payload,⟨.success,t.payloadSize,s.queue.popped+1⟩) := by
        rw [Fifo.pop_of_fits keepsRejected hqueue (by rw [List.length_replicate,hlength])]
        simp [delivery,hlength]
      simp only [hread,Option.some.injEq] at hs
      rw [← hs]
      exact .popped payload rest hc hqueue
  | checking =>
    rw [hc] at hs
    dsimp only at hs
    split at hs <;> cases hs
    · rename_i hdone
      exact .left hc hdone
    · rename_i hopen
      exact .resumed hc (Bool.not_eq_true _ ▸ hopen)
  | exited =>
    rw [hc] at hs
    cases hs

/-- Consumers do not touch the flag and the log of pushes. -/
theorem ConsumerEffect.frame (heffect : ConsumerEffect t s c s') :
    s'.done=s.done ∧ s'.pushed=s.pushed := by
  cases heffect <;> exact ⟨rfl,rfl⟩

/-- Consumers keep the invariant. -/
theorem ConsumerEffect.inv (h : Inv t s) (heffect : ConsumerEffect t s c s') : Inv t s' := by
  cases heffect with
  | popped payload rest hc hqueue =>
    refine ⟨?_,?_,h.issued,h.drains.take hc rest⟩
    · simp [h.conserved,hqueue]
    · simp [h.counted]
  | missed hc hempty => exact ⟨h.conserved,h.counted,h.issued,h.drains.miss hempty c⟩
  | left hc hdone => exact ⟨h.conserved,h.counted,h.issued,h.drains.leave hc hdone⟩
  | resumed hc hopen => exact ⟨h.conserved,h.counted,h.issued,h.drains.resume c⟩

/-- A push finds the queue full and changes nothing, or adds its payload. -/
theorem tryPush_cases {id : ℕ} {payload : List Byte} (hissued : Issued t id payload) :
    tryPush t s id payload=(s,⟨.full,0⟩) ∨
    tryPush t s id payload=
      ({s with
          queue := ⟨s.queue.popped,s.queue.queue++[payload]⟩
          pushed := s.pushed++[(id,payload)]},
        ⟨.success,s.queue.popped+s.queue.queue.length+1⟩) := by
  have hfits : payload.length ≤ maxPayloadSize := hissued.length_eq.trans_le t.le_max
  by_cases hfull : s.queue.queue.length=t.capacity
  · left
    simp [tryPush,Fifo.push,Nat.not_lt.mpr hfits,hfull,ok]
  · right
    simp [tryPush,Fifo.push_of_room hfits hfull,ok]

/-- An added payload keeps the invariant as long as the flag is not set. -/
theorem Inv.push (h : Inv t s) {id : ℕ} {payload : List Byte} (hissued : Issued t id payload)
    (hopen : s.done=false) :
    Inv t {s with
      queue := ⟨s.queue.popped,s.queue.queue++[payload]⟩
      pushed := s.pushed++[(id,payload)]} := by
  refine ⟨?_,h.counted,?_,h.drains.fill hopen _⟩
  · simp [h.conserved]
  · intro entry hmem
    rcases List.mem_append.mp hmem with hold | hnew
    · exact h.issued entry hold
    · cases List.mem_singleton.mp hnew
      exact hissued

/-- The flag may be set where the queue is empty or a consumer comes back. -/
theorem Inv.close (h : Inv t s) (hsafe : MayClose s.queue.queue s.consumer) :
    Inv t {s with done := true} :=
  ⟨h.conserved,h.counted,h.issued,.close hsafe⟩

/-- Pushes are counted by the queue. -/
theorem Inv.pushed_length (h : Inv t s) :
    s.pushed.length=s.queue.popped+s.queue.queue.length := by
  have hlength := congrArg List.length h.conserved
  rwa [List.length_map,List.length_append,List.length_map,← h.counted] at hlength

/-- No more is popped than was pushed. -/
theorem Inv.popped_le (h : Inv t s) : s.popped.length ≤ s.pushed.length := by
  rw [h.pushed_length,h.counted]
  exact Nat.le_add_right _ _

/-- An added payload changes no counter. -/
theorem Recorded.push (hr : Recorded s) (h : Inv t s) (queue : Fifo) (entry : ℕ × List Byte) :
    Recorded {s with queue := queue, pushed := s.pushed++[entry]} := by
  refine ⟨hr.reads,?_,hr.clean⟩
  simp only [List.take_append_of_le_length h.popped_le]
  exact hr.ids

/-- Consumers record without failures while the identifiers fit their 64
bits. -/
theorem ConsumerEffect.recorded (h : Inv t s) (hr : Recorded s)
    (heffect : ConsumerEffect t s c s') (hcount : s.pushed.length<2^64)
    (hids : ∀ entry ∈ s.pushed,entry.1<2^64) : Recorded s' := by
  cases heffect with
  | popped payload rest hc hqueue =>
    obtain ⟨id,hget,hissued⟩ := h.front hqueue
    have hlt : s.popped.length < s.pushed.length := (List.getElem?_eq_some_iff.mp hget).1
    obtain ⟨hvalid,hid⟩ := hissued.valid (hids _ (List.mem_of_getElem? hget))
    have hmax : s.queue.popped+1 ≤ maxSequence := by
      rw [h.counted,maxSequence]
      omega
    have hlater : ∀ back,(s.metrics c).queueSequences.ranges.getLast?=some back →
        back.last < s.queue.popped+1 := by
      intro back hback
      have hle := (hr.clean c).latest back hback
      rw [h.counted]
      omega
    have hpos : 0 < s.queue.popped+1 := Nat.succ_pos _
    obtain ⟨hreads,hpayload,herrors,hlatest⟩ := recordPayload_valid hvalid hpos hmax hlater
    have hlength : (s.popped++[(c,payload)]).length=s.popped.length+1 := by simp
    refine ⟨?_,?_,?_⟩ <;> dsimp only
    · have hsum := sum_update ConsumerMetrics.reads s.metrics c
        (recordPayload t.random (s.metrics c) payload t.payloadSize (s.queue.popped+1))
      have hold := hr.reads
      rw [hlength]
      omega
    · have hsum := sum_update (fun metrics => (metrics.payloadIds : Multiset ℕ)) s.metrics c
        (recordPayload t.random (s.metrics c) payload t.payloadSize (s.queue.popped+1))
      rw [hpayload,hid,← Multiset.coe_add,hr.ids,add_comm (_ : Multiset ℕ) (([id] : List ℕ) : Multiset ℕ),
        ← add_assoc] at hsum
      rw [hlength,List.take_add_one,hget,add_right_cancel hsum,Multiset.coe_add]
      simp
    · intro d
      rw [hlength]
      by_cases hd : d=c
      · rw [hd,update_self]
        refine ⟨herrors.trans (hr.clean c).errors,?_⟩
        intro back hback
        rw [hlatest back hback,h.counted]
      · rw [update_of_ne hd]
        exact (hr.clean d).mono (Nat.le_succ _)
  | missed hc hempty => exact ⟨hr.reads,hr.ids,hr.clean⟩
  | left hc hdone => exact ⟨hr.reads,hr.ids,hr.clean⟩
  | resumed hc hopen =>
    refine ⟨?_,?_,?_⟩ <;> dsimp only
    · refine Eq.trans (sum_update_of_eq ConsumerMetrics.reads s.metrics c ?_) hr.reads
      rfl
    · refine Eq.trans (sum_update_of_eq (fun metrics => (metrics.payloadIds : Multiset ℕ))
        s.metrics c ?_) hr.ids
      rfl
    · intro d
      by_cases hd : d=c
      · rw [hd,update_self]
        exact ⟨(hr.clean c).errors,(hr.clean c).latest⟩
      · rw [update_of_ne hd]
        exact hr.clean d

/-- Once the queue is empty and all identifiers are published, validation
passes. -/
theorem Recorded.passes (hr : Recorded s) (h : Inv t s) (hempty : s.queue.queue=[])
    {publishedIds : List ℕ} (hpublished : publishedIds.Perm (s.pushed.map Prod.fst))
    (hnodup : publishedIds.Nodup) (fullRetries : ℕ) :
    (makeResult publishedIds.length publishedIds (List.ofFn s.metrics) fullRetries 0
      true).validationErrors=0 := by
  have hall : s.popped.length=s.pushed.length := by
    rw [h.pushed_length,hempty,h.counted,List.length_nil,Nat.add_zero]
  have hids := hr.ids
  rw [hall,List.take_length] at hids
  refine makeResult_passes ?_ ?_ ?_ hnodup fullRetries
  · rw [List.map_ofFn,List.sum_ofFn,hpublished.length_eq,List.length_map,← hall]
    exact hr.reads
  · intro metric hmem
    obtain ⟨c,rfl⟩ := (List.mem_ofFn' _ _).mp hmem
    exact (hr.clean c).errors
  · refine Multiset.coe_eq_coe.mp ?_
    rw [coe_collectPayloadIds,List.map_ofFn,List.sum_ofFn]
    exact hids.trans (Multiset.coe_eq_coe.mpr hpublished).symm

end Steps

end Line64.BenchmarkConsumers
