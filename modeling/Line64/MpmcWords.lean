import Mathlib.Data.Set.Function
import Line64.MpmcClaimLoop

/-!
# The MPMC queue on 64-bit words

Capacity, mask and positions of the queue are words of 64 bits. The first part
is the indexing of the cells on such words, the wrap of a position included.
The second part compares the queue whose sums are taken modulo the word size
with the queue on natural numbers. While at most `2^64-capacity` positions are
claimed by pushes, no sum reaches the word size and both take the same steps.
-/

namespace Line64.MpmcWords

open Result Transition Timeline ClaimLoop MpmcModel MpmcRefinement MpmcClaimLoop

/-- The member function `validate_capacity` on words. -/
def validateWord (capacity : UInt64) : Except String UInt64 :=
  if capacity<2 ∨ capacity&&&(capacity-1)≠0 then
    .error "MPMCQueue capacity must be a power of two greater than one"
  else .ok capacity

/-- Cell index of a position, masked by `mask_`. -/
def indexWord (capacity position : UInt64) : UInt64 := position&&&(capacity-1)

section Indexing

variable {capacity : UInt64}

/-- Positive words are decremented like their values. -/
theorem toNat_sub_one (h : 1≤capacity.toNat) : (capacity-1).toNat=capacity.toNat-1 :=
  UInt64.toNat_sub_of_le capacity 1 h

/-- The check on words is the check on their values. -/
theorem validateWord_iff :
    validateWord capacity=.ok capacity ↔
      validateCapacity capacity.toNat=.ok capacity.toNat := by
  have hsmall : capacity<2 ↔ capacity.toNat<2 := UInt64.lt_iff_toNat_lt
  unfold validateWord validateCapacity
  by_cases hlt : capacity.toNat<2
  · rw [if_pos (.inl (hsmall.mpr hlt)),if_pos (.inl hlt)]
    exact ⟨nofun,nofun⟩
  · have hmask : capacity&&&(capacity-1)=0 ↔ capacity.toNat&&&(capacity.toNat-1)=0 := by
      rw [← UInt64.toNat_inj,UInt64.toNat_and,toNat_sub_one (by omega)]
      rfl
    simp only [hsmall,hmask,ne_eq]
    split_ifs <;> simp

/-- The ring of an accepted word. -/
def ringOf (h : validateWord capacity=.ok capacity) : Ring :=
  ⟨capacity.toNat,validateWord_iff.mp h⟩

/-- The capacities that are accepted. -/
theorem accepted_iff_pow :
    validateWord capacity=.ok capacity ↔ ∃ k,1≤k ∧ capacity.toNat=2^k := by
  refine ⟨fun h => (ringOf h).capacity_eq_pow,?_⟩
  rintro ⟨k,hk,hpow⟩
  have htwo : 2≤capacity.toNat := by
    rw [hpow]
    exact Nat.le_self_pow (by omega) 2
  have hmask : capacity.toNat&&&(capacity.toNat-1)=0 :=
    (Nat.and_sub_one_eq_zero_iff_isPowerOfTwo (by omega)).mpr ⟨k,hpow⟩
  rw [validateWord_iff,validateCapacity,if_neg]
  omega

/-- An accepted capacity divides the number of words. -/
theorem dvd_of_accepted (h : validateWord capacity=.ok capacity) : capacity.toNat∣2^64 := by
  obtain ⟨k,-,hpow⟩ := accepted_iff_pow.mp h
  have hle : k≤64 := by
    by_contra hgt
    have hlt := capacity.toNat_lt
    have hmono := Nat.pow_le_pow_right (n:=2) (by decide) (Nat.le_of_not_le hgt)
    omega
  rw [hpow]
  exact Nat.pow_dvd_pow 2 hle

/-- The mask on words is the mask of the ring. -/
theorem indexWord_ringOf (h : validateWord capacity=.ok capacity) (position : UInt64) :
    (indexWord capacity position).toNat=(ringOf h).index position.toNat := by
  have htwo : 2≤capacity.toNat := (ringOf h).two_le
  rw [indexWord,UInt64.toNat_and,toNat_sub_one (by omega)]
  rfl

/-- Value of an index. -/
theorem indexWord_toNat (h : validateWord capacity=.ok capacity) (position : UInt64) :
    (indexWord capacity position).toNat=position.toNat%capacity.toNat :=
  (indexWord_ringOf h position).trans ((ringOf h).index_eq_mod position.toNat)

/-- Every index is a cell. -/
theorem indexWord_lt (h : validateWord capacity=.ok capacity) (position : UInt64) :
    indexWord capacity position<capacity := by
  have htwo := (ringOf h).two_le
  rw [UInt64.lt_iff_toNat_lt,indexWord_toNat h]
  exact Nat.mod_lt _ (Nat.lt_of_lt_of_le Nat.zero_lt_two htwo)

/-- Index of a position counted from another, also across the wrap. -/
theorem indexWord_add (h : validateWord capacity=.ok capacity) (start i : UInt64) :
    (indexWord capacity (start+i)).toNat=(start.toNat+i.toNat)%capacity.toNat := by
  rw [indexWord_toNat h,UInt64.toNat_add,Nat.mod_mod_of_dvd _ (dvd_of_accepted h)]

/-- The next `capacity` positions have different indices. -/
theorem indexWord_injOn (h : validateWord capacity=.ok capacity) (start : UInt64) :
    Set.InjOn (fun i => indexWord capacity (start+i)) {i | i<capacity} := by
  intro i hi j hj hsame
  have hi' : i.toNat<capacity.toNat := UInt64.lt_iff_toNat_lt.mp hi
  have hj' : j.toNat<capacity.toNat := UInt64.lt_iff_toNat_lt.mp hj
  have hvalue := congrArg UInt64.toNat hsame
  simp only [indexWord_add h] at hvalue
  have hposition := RingIndex.eq_of_index_eq hvalue (by omega) (by omega)
  exact UInt64.toNat_inj.mp (by omega)

/-- The next `capacity` positions use every cell. -/
theorem indexWord_surjOn (h : validateWord capacity=.ok capacity) (start : UInt64) :
    Set.SurjOn (fun i => indexWord capacity (start+i)) {i | i<capacity} {cell | cell<capacity} := by
  intro cell hcell
  have hcell' : cell.toNat<capacity.toNat := UInt64.lt_iff_toNat_lt.mp hcell
  -- The cell is found by going back from it to the index of the start.
  have hback : indexWord capacity (cell-start)<capacity := indexWord_lt h _
  refine ⟨indexWord capacity (cell-start),hback,UInt64.toNat_inj.mp ?_⟩
  dsimp only
  rw [indexWord_add h,indexWord_toNat h,Nat.add_mod_mod,
    ← Nat.mod_mod_of_dvd _ (dvd_of_accepted h),← UInt64.toNat_add,UInt64.add_comm,
    UInt64.sub_add_cancel,Nat.mod_eq_of_lt hcell']

end Indexing

/-- The check accepts the powers of two from two on. With an accepted capacity
the mask takes the remainder, and the `capacity` positions from any position
on use every cell once. -/
theorem mask_indexing_sound (capacity : UInt64) :
    (validateWord capacity=.ok capacity ↔ ∃ k,1≤k ∧ capacity.toNat=2^k) ∧
      (validateWord capacity=.ok capacity → ∀ position : UInt64,
        indexWord capacity position=position%capacity ∧
        indexWord capacity position<capacity ∧
        Set.BijOn (fun i => indexWord capacity (position+i)) {i | i<capacity}
          {cell | cell<capacity}) := by
  refine ⟨accepted_iff_pow,?_⟩
  intro h position
  refine ⟨?_,indexWord_lt h position,?_⟩
  · rw [← UInt64.toNat_inj,indexWord_toNat h,UInt64.toNat_mod]
  · exact ⟨fun i _ => indexWord_lt h _,indexWord_injOn h position,indexWord_surjOn h position⟩

/-- Four cells, from the last position before the wrap. -/
theorem mask_indexing_four :
    validateWord 4=.ok 4 ∧ indexWord 4 (0-1)=3 ∧ indexWord 4 (0-1+1)=0 ∧
      Set.BijOn (fun i => indexWord 4 (0-1+i)) {i | i<4} {cell | cell<4} :=
  ⟨by decide,by decide,by decide,((mask_indexing_sound 4).2 (by decide) (0-1)).2.2⟩

/-- Arithmetic of `size_t`. -/
def word (n : ℕ) : ℕ := n%2^64

/-- Sums computed by an access of `try_push`, the logical sequence included. -/
def pushSums : PushPc → List ℕ
  | .compareExchange position => [position+1]
  | .assign position _ => [position+1]
  | .publish position _ => [position+1]
  | _ => []

/-- Sums computed by an access of `try_pop`. -/
def popSums (q : Ring) : PopPc → List ℕ
  | .loadSequence position => [position+1]
  | .compareExchange position => [position+1]
  | .release position _ => [position+q.capacity]
  | _ => []

variable {ι : Type} {N : ℕ}

/-- Sums computed by a scheduled step. -/
def sums (q : Ring) (s : State ι N) : Action ι → List ℕ
  | .push i _ =>
    match s.push i with
    | .running _ pc => pushSums pc
    | _ => []
  | .pop i _ =>
    match s.pop i with
    | .running _ _ pc => popSums q pc
    | _ => []
  | .empty i =>
    match s.probe i with
    | .loadSequence position => [position+1]
    | _ => []
  | _ => []

/-- The step is the successful compare-exchange of a push. -/
def claims [DecidableEq ι] (s : State ι N) (a : Action ι) : Bool :=
  match label s a with
  | some (.pushClaim _) => true
  | _ => false

section Exact

variable [DecidableEq ι] {q : Ring} {s s' : State ι N} {a : Action ι}

/-- Two ways to compute agree on an access of a push if they agree on its
sums. -/
theorem stepPush_congr {f : ℕ → ℕ} {i : ι} {payload : List Byte} {spurious : Bool} {pc : PushPc}
    (h : ∀ n ∈ pushSums pc,f n=n) :
    stepPush f q s i payload spurious pc=stepPush id q s i payload spurious pc := by
  cases pc with
  | loadPosition => rfl
  | loadSequence position => rfl
  | compareExchange position => simp only [stepPush,h _ List.mem_cons_self,id]
  | assign position pc => simp only [stepPush,h _ List.mem_cons_self,id]
  | publish position result => simp only [stepPush,h _ List.mem_cons_self,id]

/-- Two ways to compute agree on an access of a pop if they agree on its
sums. -/
theorem stepPop_congr {f : ℕ → ℕ} {i : ι} {original destination : List Byte} {spurious : Bool}
    {pc : PopPc} (h : ∀ n ∈ popSums q pc,f n=n) :
    stepPop f q s i original destination spurious pc=
      stepPop id q s i original destination spurious pc := by
  cases pc with
  | loadPosition => rfl
  | loadSequence position => simp only [stepPop,h _ List.mem_cons_self,id]
  | compareExchange position => simp only [stepPop,h _ List.mem_cons_self,id]
  | copy position pc => rfl
  | release position result => simp only [stepPop,h _ List.mem_cons_self,id]

/-- Two ways to compute agree on a step if they agree on its sums. -/
theorem step_congr {f : ℕ → ℕ} (h : ∀ n ∈ sums q s a,f n=n) : step f q s a=step id q s a := by
  cases a with
  | callPush i payload => rfl
  | push i spurious =>
    cases hi : s.push i with
    | running payload pc =>
      simp only [sums,hi] at h
      simp only [step,hi,stepPush_congr h]
    | _ => simp only [step,hi]
  | callPop i destination => rfl
  | pop i spurious =>
    cases hi : s.pop i with
    | running original destination pc =>
      simp only [sums,hi] at h
      simp only [step,hi,stepPop_congr h]
    | _ => simp only [step,hi]
  | callEmpty i => rfl
  | empty i =>
    cases hi : s.probe i with
    | loadSequence position =>
      simp only [sums,hi] at h
      simp only [step,hi,h _ List.mem_cons_self,id]
    | _ => simp only [step,hi]

omit [DecidableEq ι] in
/-- A push works with a position that it has loaded or claimed. -/
theorem pushSums_le {t : MpmcTla.State ι} (ht : Sim q s t) (hl : Loaded s) {i : ι}
    {payload : List Byte} {pc : PushPc} (hi : s.push i=.running payload pc) :
    ∀ n ∈ pushSums pc,n ≤ s.enqueuePos+1 := by
  intro n hn
  have hview := hl.push i
  have hclaimed : ∀ p,(s.push i).position=some p → p < s.enqueuePos :=
    fun p hp => (ht.push_claimed_iff p).mpr ⟨i,hp⟩
  rw [hi] at hview hclaimed
  cases pc with
  | compareExchange position =>
    simp only [pushSums,List.mem_singleton] at hn
    simp only [pushView,reached] at hview
    omega
  | assign position pc =>
    have hlt := hclaimed position rfl
    simp only [pushSums,List.mem_singleton] at hn
    omega
  | publish position result =>
    have hlt := hclaimed position rfl
    simp only [pushSums,List.mem_singleton] at hn
    omega
  | _ => simp [pushSums] at hn

omit [DecidableEq ι] in
/-- A pop works with a position that it has loaded, or releases one that it
has claimed. -/
theorem popSums_le {t : MpmcTla.State ι} (ht : Sim q s t) (hl : Loaded s) {i : ι}
    {original destination : List Byte} {pc : PopPc}
    (hi : s.pop i=.running original destination pc) :
    ∀ n ∈ popSums q pc,n ≤ s.dequeuePos+1 ∨ ∃ p,p < s.dequeuePos ∧ n=p+q.capacity := by
  intro n hn
  have hview := hl.pop i
  have hclaimed : ∀ p,(s.pop i).position=some p → p < s.dequeuePos :=
    fun p hp => (ht.pop_claimed_iff p).mpr ⟨i,hp⟩
  rw [hi] at hview hclaimed
  cases pc with
  | loadSequence position =>
    simp only [popSums,List.mem_singleton] at hn
    simp only [popView,reached] at hview
    omega
  | compareExchange position =>
    simp only [popSums,List.mem_singleton] at hn
    simp only [popView,reached] at hview
    omega
  | release position result =>
    have hlt := hclaimed position rfl
    simp only [popSums,List.mem_singleton] at hn
    exact .inr ⟨position,hlt,hn⟩
  | _ => simp [popSums] at hn

/-- Every position a call works with is at most the enqueue counter, and the
released ones are below it. -/
theorem sums_le (h : Reachable (system id q ι N) s) :
    ∀ n ∈ sums q s a,n ≤ s.enqueuePos+1 ∨ ∃ p,p < s.enqueuePos ∧ n=p+q.capacity := by
  obtain ⟨t,ht⟩ := reachable_sim h
  have hl := loaded_of_reachable h
  have hd : s.dequeuePos ≤ s.enqueuePos := by
    have hle := ht.inv.dequeue_le
    rwa [ht.refines.enqueue,ht.refines.dequeue] at hle
  intro n hn
  cases a with
  | push i spurious =>
    cases hi : s.push i with
    | running payload pc =>
      simp only [sums,hi] at hn
      exact .inl (pushSums_le ht hl hi n hn)
    | _ => simp [sums,hi] at hn
  | pop i spurious =>
    cases hi : s.pop i with
    | running original destination pc =>
      simp only [sums,hi] at hn
      rcases popSums_le ht hl hi n hn with hle | ⟨p,hp,hsum⟩
      · exact .inl (by omega)
      · exact .inr ⟨p,by omega,hsum⟩
    | _ => simp [sums,hi] at hn
  | empty i =>
    cases hi : s.probe i with
    | loadSequence position =>
      have hview := hl.probe i
      simp only [hi,probeView,reached] at hview
      simp only [sums,hi,List.mem_singleton] at hn
      omega
    | _ => simp [sums,hi] at hn
  | _ => simp [sums] at hn

/-- The enqueue counter counts the successful compare-exchanges. -/
theorem step_enqueuePos (hs : step id q s a=some s') :
    s'.enqueuePos=s.enqueuePos+(claims s a).toNat := by
  cases a with
  | push i spurious =>
    simp only [step] at hs
    split at hs <;> cases hs
    rename_i payload pc hi
    rw [(stepPush_counters i payload spurious pc).1]
    simp only [claims,label,hi]
    cases pc with
    | compareExchange position =>
      simp only [pushLabel]
      split_ifs <;> simp
    | assign position pc => cases pc <;> rfl
    | _ => rfl
  | pop i spurious =>
    simp only [step] at hs
    split at hs <;> cases hs
    rename_i original destination pc hi
    rw [(stepPop_counters i original destination spurious pc).2.1]
    simp only [claims,label,hi]
    cases pc with
    | compareExchange position =>
      simp only [popLabel]
      split_ifs <;> rfl
    | _ => rfl
  | _ =>
    simp only [step] at hs
    split at hs <;> cases hs <;> rfl

/-- Nothing wraps while the enqueue counter leaves room for one lap. -/
theorem sums_fit (h : Reachable (system id q ι N) s) (hroom : s.enqueuePos ≤ 2^64-q.capacity) :
    ∀ n ∈ sums q s a,n<2^64 := by
  intro n hn
  have htwo := q.two_le
  rcases sums_le h n hn with hle | ⟨p,hp,rfl⟩ <;> omega

/-- The bounded run is the unbounded one, and its enqueue counter counts the
claims. -/
theorem run_word_eq {actions : List (Action ι)}
    (h : countFrom (system word q ι N) claims (init ι N) actions≤2^64-q.capacity) :
    run (system word q ι N) actions=run (system id q ι N) actions ∧
      (run (system word q ι N) actions).enqueuePos=
        countFrom (system word q ι N) claims (init ι N) actions := by
  induction actions using List.reverseRecOn with
  | nil => exact ⟨rfl,rfl⟩
  | append_singleton rest a ih =>
    have hearlier := countFrom_prefix_le (S:=system word q ι N) (p:=claims) (s:=init ι N)
      (List.prefix_append rest [a])
    obtain ⟨hrun,hcount⟩ := ih (hearlier.trans h)
    have hr : Reachable (system id q ι N) (run (system word q ι N) rest) := by
      rw [hrun]
      exact run_reachable _ rest
    have hstep : step word q (run (system word q ι N) rest) a=
        step id q (run (system word q ι N) rest) a := by
      refine step_congr fun n hn => Nat.mod_eq_of_lt (sums_fit hr ?_ n hn)
      rw [hcount]
      exact hearlier.trans h
    rcases count_succ (system word q ι N) claims rest a with ⟨hnone,hskip,hsame⟩ | ⟨hsome,hmore⟩
    · have hid : (system id q ι N).step (run (system id q ι N) rest) a=none := by
        rw [← hrun]
        exact hstep.symm.trans hnone
      rw [hskip,run_append_singleton,hid]
      exact ⟨hrun,hcount.trans hsame.symm⟩
    · have hs : step id q (run (system word q ι N) rest) a=
          some (run (system word q ι N) (rest++[a])) := hstep.symm.trans hsome
      have hid : (system id q ι N).step (run (system id q ι N) rest) a=
          some (run (system word q ι N) (rest++[a])) := by
        rw [← hrun]
        exact hs
      refine ⟨?_,(step_enqueuePos hs).trans (by rw [hcount]; exact hmore.symm)⟩
      rw [run_append_singleton (system id q ι N),hid]
      rfl

end Exact

/-- As long as the successful pushes of a run leave room for one lap below
`2^64`, no sum computed in it wraps, and every step does what it does on
unbounded numbers. A push counts as soon as its compare-exchange has
succeeded. -/
theorem arithmetic_exact [DecidableEq ι] (q : Ring) (actions : List (Action ι))
    (h : countFrom (system word q ι N) claims (init ι N) actions≤2^64-q.capacity)
    (earlier : List (Action ι)) (hpre : earlier <+: actions) :
    run (system word q ι N) earlier=run (system id q ι N) earlier ∧
      ∀ a,(∀ n ∈ sums q (run (system word q ι N) earlier) a,n<2^64) ∧
        step word q (run (system word q ι N) earlier) a=
          step id q (run (system id q ι N) earlier) a := by
  obtain ⟨hrun,hcount⟩ := run_word_eq ((countFrom_prefix_le hpre).trans h)
  refine ⟨hrun,?_⟩
  intro a
  have hfit : ∀ n ∈ sums q (run (system word q ι N) earlier) a,n<2^64 := by
    refine sums_fit ?_ (hcount.le.trans ((countFrom_prefix_le hpre).trans h))
    rw [hrun]
    exact run_reachable _ earlier
  refine ⟨hfit,?_⟩
  rw [← hrun]
  exact step_congr fun n hn => Nat.mod_eq_of_lt (hfit n hn)

/-- One byte is pushed through the smallest ring and popped. -/
theorem arithmetic_exact_push_pop :
    let actions : List (Action Unit) :=
      .callPush () [7]::.callPop () [0]::(List.replicate 9 (.push () false)++
        List.replicate 9 (.pop () false))
    countFrom (system word .smallest Unit 1) claims (init Unit 1) actions=1 ∧
      run (system word .smallest Unit 1) actions=run (system id .smallest Unit 1) actions ∧
      ((run (system word .smallest Unit 1) actions).pop ())=
        .returned [0] [7] (some 0) ⟨.success,1,1⟩ := by
  intro actions
  have hcount : countFrom (system word .smallest Unit 1) claims (init Unit 1) actions=1 := by
    decide
  refine ⟨hcount,(arithmetic_exact .smallest actions ?_ actions List.prefix_rfl).1,?_⟩
  · rw [hcount]
    decide
  · decide

end Line64.MpmcWords
