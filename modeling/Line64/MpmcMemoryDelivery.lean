import Line64.MpmcDelivery
import Line64.MpmcMemoryRefinement

/-!
# Exactly-once delivery on the memory orders of the MPMC queue

No access of a message races, although only the cell sequences are acquired
and released and all positions are relaxed. Every claimed position belongs
to one push and at most one pop, and a pop returns the bytes of the push
with its position. A call is never stuck, and `empty` answers `false` only
where a push has published.
-/

namespace Line64.MpmcMemoryDelivery

open Function Result FixedMessageAccess Transition ReleaseAcquire MessageRaces SlotCustody
open MpmcModel (Ring PushPc PushCall PopPc PopCall EmptyCall)
open MpmcRefinement (Sim)
open MpmcMemoryModel MpmcMemoryCustody MpmcMemoryRefinement

variable {ι θ : Type} {N : ℕ}

/-- A cell whose sequence is behind a position was published there. -/
theorem published_of_sequence {q : Ring} {s : MpmcModel.State ι N} {t : MpmcTla.State ι}
    (h : Sim q s t) {p : ℕ} (hp : p+1 ≤ (s.cells (q.index p)).sequence) :
    ∃ i payload,(s.push i).Published payload p := by
  have hlt : p < s.enqueuePos := by
    by_contra hle
    have hbound := h.inv.push_bound p (by rw [h.refines.enqueue]; omega)
    rw [← q.index_eq_mod,h.refines.sequence] at hbound
    omega
  obtain ⟨i,hi⟩ := (h.push_claimed_iff p).mp hlt
  rcases h.started hi with hw | hpub
  · have hown := h.writing hi hw
    omega
  · exact ⟨i,MpmcRefinement.published_of_phase hpub hi⟩

section Memory

variable {q : Ring} {thread : ι → θ} {s : State ι θ N} {t : MpmcTla.State ι}

/-- No push is about to race. -/
theorem push_not_racy (h : Related q thread s t) (i : ι) : ¬PushRacy q thread s i := by
  obtain ⟨e,d,number,holder,-,hm⟩ := h
  unfold PushRacy
  split
  · rename_i payload p pc hi
    have hcell := hm.custody (q.index p)
    rw [hm.push_holds i p (by rw [hi]; trivial) (by rw [hi]; rfl)] at hcell
    exact hcell.not_races (assignAccess pc)
  · exact id

/-- No pop is about to race. -/
theorem pop_not_racy (h : Related q thread s t) (j : ι) : ¬PopRacy q thread s j := by
  obtain ⟨e,d,number,holder,-,hm⟩ := h
  unfold PopRacy
  split
  · rename_i original destination p pc hj
    have hcell := hm.custody (q.index p)
    rw [hm.pop_holds j p (by rw [hj]; trivial) (by rw [hj]; rfl)] at hcell
    exact hcell.not_races (copyAccess pc)
  · exact id

variable [DecidableEq ι] [DecidableEq θ]

/-- A running push can take its next access. -/
theorem push_live (h : Related q thread s t) {i : ι} {payload : List Byte} {pc : PushPc}
    (hi : s.push i=.running payload pc) : ∃ ts s',step q thread s (.push i ts false)=some s' := by
  obtain ⟨e,d,number,holder,-,hm⟩ := h
  simp only [step,hi]
  cases pc with
  | loadPosition =>
    obtain ⟨m,hl,-⟩ := hm.enqueue.latest
    exact ⟨e,_,by rw [stepPush,hl.loadable hm.sane,Option.map_some]⟩
  | loadSequence p =>
    obtain ⟨ts,m,hl,-⟩ := (hm.custody (q.index p)).latest
    exact ⟨ts,_,by rw [stepPush,hl.loadable hm.sane,Option.map_some]⟩
  | compareExchange p =>
    obtain ⟨done,hdone⟩ := hm.enqueue.exchangeable hm.sane (thread i) p (p+1)
    exact ⟨e,_,by rw [stepPush,hdone,Option.map_some]⟩
  | assign p pc => exact ⟨0,_,rfl⟩
  | publish p result =>
    obtain ⟨ts,m,hl,-⟩ := (hm.custody (q.index p)).latest
    exact ⟨ts+1,_,by rw [stepPush,hl.storable hm.sane,Option.map_some]⟩

/-- A running pop can take its next access. -/
theorem pop_live (h : Related q thread s t) {j : ι} {original destination : List Byte} {pc : PopPc}
    (hj : s.pop j=.running original destination pc) :
    ∃ ts s',step q thread s (.pop j ts false)=some s' := by
  obtain ⟨e,d,number,holder,-,hm⟩ := h
  simp only [step,hj]
  cases pc with
  | loadPosition =>
    obtain ⟨m,hl,-⟩ := hm.dequeue.latest
    exact ⟨d,_,by rw [stepPop,hl.loadable hm.sane,Option.map_some]⟩
  | loadSequence p =>
    obtain ⟨ts,m,hl,-⟩ := (hm.custody (q.index p)).latest
    exact ⟨ts,_,by rw [stepPop,hl.loadable hm.sane,Option.map_some]⟩
  | compareExchange p =>
    obtain ⟨done,hdone⟩ := hm.dequeue.exchangeable hm.sane (thread j) p (p+1)
    exact ⟨d,_,by rw [stepPop,hdone,Option.map_some]⟩
  | copy p pc => exact ⟨0,_,rfl⟩
  | release p result =>
    obtain ⟨ts,m,hl,-⟩ := (hm.custody (q.index p)).latest
    exact ⟨ts+1,_,by rw [stepPop,hl.storable hm.sane,Option.map_some]⟩

/-- A called `empty` that has not answered has a next access. -/
theorem empty_live {t : MpmcTla.State ι} (h : Related q thread s t) {k : ι}
    (hcalled : s.probe k≠.idle) (hopen : ∀ p answer,s.probe k≠.returned p answer) :
    ∃ ts s',step q thread s (.empty k ts)=some s' := by
  obtain ⟨e,d,number,holder,-,hm⟩ := h
  cases hk : s.probe k with
  | idle => exact absurd hk hcalled
  | loadPosition =>
    obtain ⟨m,hl,-⟩ := hm.dequeue.latest
    exact ⟨d,_,by rw [step,hk,stepEmpty,hl.loadable hm.sane,Option.map_some]⟩
  | loadSequence p =>
    obtain ⟨ts,m,hl,-⟩ := (hm.custody (q.index p)).latest
    exact ⟨ts,_,by rw [step,hk,stepEmpty,hl.loadable hm.sane,Option.map_some]⟩
  | returned p answer => exact absurd hk (hopen p answer)

end Memory

section Answers

variable [DecidableEq ι] [DecidableEq θ] {q : Ring} {thread : ι → θ} {s s' : State ι θ N}

/-- An access of a push only changes that push. -/
theorem stepPush_frame {u : θ} {i : ι} {payload : List Byte} {ts : ℕ} {spurious : Bool}
    {pc : PushPc} (hs : stepPush q s u i payload ts spurious pc=some s') :
    (∀ i'≠i,s'.push i'=s.push i') ∧ s'.probe=s.probe := by
  cases pc with
  | assign p pc =>
    cases hs
    exact ⟨fun i' hi => update_of_ne hi _ _,rfl⟩
  | _ =>
    obtain ⟨x,-,rfl⟩ := Option.map_eq_some_iff.mp hs
    exact ⟨fun i' hi => update_of_ne hi _ _,rfl⟩

/-- An access of a pop changes no push and no call of `empty`. -/
theorem stepPop_frame {u : θ} {j : ι} {original destination : List Byte} {ts : ℕ}
    {spurious : Bool} {pc : PopPc}
    (hs : stepPop q s u j original destination ts spurious pc=some s') :
    s'.push=s.push ∧ s'.probe=s.probe := by
  cases pc with
  | copy p pc =>
    cases hs
    exact ⟨rfl,rfl⟩
  | _ =>
    obtain ⟨x,-,rfl⟩ := Option.map_eq_some_iff.mp hs
    exact ⟨rfl,rfl⟩

/-- An access of `empty` only changes that call. -/
theorem stepEmpty_frame {u : θ} {k : ι} {ts : ℕ} {call : EmptyCall}
    (hs : stepEmpty q s u k ts call=some s') :
    s'.push=s.push ∧ ∀ k'≠k,s'.probe k'=s.probe k' := by
  cases call with
  | idle => cases hs
  | returned p answer => cases hs
  | _ =>
    obtain ⟨x,-,rfl⟩ := Option.map_eq_some_iff.mp hs
    exact ⟨rfl,fun k' hk => update_of_ne hk _ _⟩

/-- A returned push stays as it is. -/
theorem published_step {a : Action ι} (hs : step q thread s a=some s') {i : ι}
    {payload : List Byte} {p : ℕ} (hp : (s.push i).Published payload p) :
    (s'.push i).Published payload p := by
  obtain ⟨result,hi⟩ := hp
  have hkeep : s'.push i=s.push i := by
    cases a with
    | callPush i' payload' =>
      simp only [step] at hs
      split at hs
      · rename_i hidle
        cases hs
        exact update_of_ne (by rintro rfl; rw [hidle] at hi; cases hi) _ _
      · cases hs
    | push i' ts spurious =>
      simp only [step] at hs
      split at hs
      · rename_i payload' pc hrun
        exact (stepPush_frame hs).1 i (by rintro rfl; rw [hrun] at hi; cases hi)
      · cases hs
    | callPop j destination =>
      simp only [step] at hs
      split at hs <;> cases hs
      rfl
    | pop j ts spurious =>
      simp only [step] at hs
      split at hs
      · rw [(stepPop_frame hs).1]
      · cases hs
    | callEmpty k =>
      simp only [step] at hs
      split at hs <;> cases hs
      rfl
    | empty k ts => rw [(stepEmpty_frame hs).1]
  exact ⟨result,by rw [hkeep,hi]⟩

/-- The answer `false` follows the load of a sequence behind the position. -/
theorem answer_published {t : MpmcTla.State ι} (h : Related q thread s t) {k : ι} {ts : ℕ}
    {call : EmptyCall} (hs : stepEmpty q s (thread k) k ts call=some s') {p : ℕ}
    (hk : s'.probe k=.returned p false) : ∃ i payload,(s.push i).Published payload p := by
  cases call with
  | idle => cases hs
  | returned p' answer => cases hs
  | loadPosition =>
    obtain ⟨x,-,rfl⟩ := Option.map_eq_some_iff.mp hs
    simp only [State.setProbe,update_self,reduceCtorEq] at hk
  | loadSequence p' =>
    obtain ⟨⟨value,l⟩,hl,rfl⟩ := Option.map_eq_some_iff.mp hs
    simp only [State.setProbe,update_self,EmptyCall.returned.injEq,decide_eq_false_iff_not] at hk
    obtain ⟨rfl,hle⟩ := hk
    obtain ⟨e,d,number,holder,hsim,hm⟩ := h
    obtain ⟨m,hmsg,-,rfl,-⟩ := load_eq_some hl
    have hvalue := (hm.custody (q.index p')).value_le hmsg
    exact published_of_sequence hsim ((Nat.le_of_not_lt hle).trans hvalue)

/-- A new answer `false` follows the acquire load of a published sequence. -/
theorem answer_step {t : MpmcTla.State ι} (h : Related q thread s t) {a : Action ι}
    (hs : step q thread s a=some s') {k : ι} {p : ℕ} (hk : s'.probe k=.returned p false)
    (hnew : s.probe k≠.returned p false) : ∃ i payload,(s.push i).Published payload p := by
  cases a with
  | callPush i' payload' =>
    simp only [step] at hs
    split at hs <;> cases hs
    exact absurd hk hnew
  | push i' ts spurious =>
    simp only [step] at hs
    split at hs
    · rw [(stepPush_frame hs).2] at hk
      exact absurd hk hnew
    · cases hs
  | callPop j destination =>
    simp only [step] at hs
    split at hs <;> cases hs
    exact absurd hk hnew
  | pop j ts spurious =>
    simp only [step] at hs
    split at hs
    · rw [(stepPop_frame hs).2] at hk
      exact absurd hk hnew
    · cases hs
  | callEmpty k' =>
    simp only [step] at hs
    split at hs <;> cases hs
    by_cases hkk : k=k'
    · subst hkk
      simp only [State.setProbe,update_self,reduceCtorEq] at hk
    · simp only [State.setProbe,update_of_ne hkk] at hk
      exact absurd hk hnew
  | empty k' ts =>
    by_cases hkk : k=k'
    · subst hkk
      exact answer_published h hs hk
    · rw [(stepEmpty_frame hs).2 k hkk] at hk
      exact absurd hk hnew

end Answers

/-- What the memory orders guarantee in one state of a run. -/
structure Delivers [DecidableEq ι] [DecidableEq θ] (q : Ring) (thread : ι → θ) (s : State ι θ N) :
    Prop where
  /-- No next access of a message races. -/
  race_free : ∀ i,¬PushRacy q thread s i ∧ ¬PopRacy q thread s i
  /-- The positions claimed by pushes are a prefix. -/
  push_claims : ∃ n,∀ p,p<n ↔ ∃ i,(s.push i).position=some p
  /-- No position is claimed by two pushes. -/
  push_unique : ∀ i i' p,(s.push i).position=some p → (s.push i').position=some p → i=i'
  /-- A returned push succeeded exactly if it claimed a position, and then
  its sequence is the successor of that position. -/
  push_result : ∀ i payload position result,s.push i=.returned payload position result →
    (result.status=.success ↔ ∃ p,position=some p) ∧
      ∀ p,position=some p → result=⟨.success,p+1⟩
  /-- A claimed pop position was published before. -/
  published_first : ∀ j p,(s.pop j).position=some p → ∃ i payload,(s.push i).Published payload p
  /-- A pop that claimed `p` returns the message of the push that claimed
  `p`, or reports it as too large without touching the destination. -/
  pop_result : ∀ j original destination p result,
    s.pop j=.returned original destination (some p) result →
    ∃ i payload,(s.push i).Published payload p ∧
      (destination,result)=delivery payload (p+1) original
  /-- A pop that returned without a position reports an empty queue. -/
  pop_empty : ∀ j original destination result,
    s.pop j=.returned original destination none result →
    destination=original ∧ result=⟨.empty,0,0⟩
  /-- No position is claimed by two pops. -/
  pop_unique : ∀ j j' p,(s.pop j).position=some p → (s.pop j').position=some p → j=j'
  /-- A running push has a next access. -/
  push_live : ∀ i payload pc,s.push i=.running payload pc →
    ∃ ts s',step q thread s (.push i ts false)=some s'
  /-- A running pop has a next access. -/
  pop_live : ∀ j original destination pc,s.pop j=.running original destination pc →
    ∃ ts s',step q thread s (.pop j ts false)=some s'
  /-- A called `empty` that has not answered has a next access. -/
  empty_live : ∀ k,s.probe k≠.idle → (∀ p answer,s.probe k≠.returned p answer) →
    ∃ ts s',step q thread s (.empty k ts)=some s'
  /-- A call of `empty` answers `false` only behind a published push. -/
  empty_false : ∀ k p,s.probe k=.returned p false → ∃ i payload,(s.push i).Published payload p

/-- The answers of `empty` in every reachable state. -/
theorem reachable_answers [DecidableEq ι] [DecidableEq θ] {q : Ring} {thread : ι → θ}
    {s : State ι θ N} (h : Reachable (system q thread N) s) :
    ∀ k p,s.probe k=.returned p false → ∃ i payload,(s.push i).Published payload p := by
  refine Reachable.invariant
    (I:=fun s => ∀ k p,s.probe k=.returned p false → ∃ i payload,(s.push i).Published payload p)
    (fun _ _ hk => by cases hk) ?_ h
  intro s a s' hr hold hs k p hk
  obtain ⟨t,ht⟩ := reachable_related hr
  have hbefore : ∃ i payload,(s.push i).Published payload p := by
    by_cases hk' : s.probe k=.returned p false
    · exact hold k p hk'
    · exact answer_step ht hs hk hk'
  obtain ⟨i,payload,hp⟩ := hbefore
  exact ⟨i,payload,published_step hs hp⟩

/-- What the simulation relation says about all calls. -/
theorem delivers_of_related [DecidableEq ι] [DecidableEq θ] {q : Ring} {thread : ι → θ}
    {s : State ι θ N} {t : MpmcTla.State ι} (ht : Related q thread s t)
    (hanswers : ∀ k p,s.probe k=.returned p false → ∃ i payload,(s.push i).Published payload p) :
    Delivers q thread s := by
  obtain ⟨e,d,number,holder,hsim,-⟩ := id ht
  refine {
    race_free := fun i => ⟨push_not_racy ht i,pop_not_racy ht i⟩
    push_claims := ⟨e,hsim.push_claimed_iff⟩
    push_unique := fun _ _ _ => hsim.push_unique
    push_result := fun _ _ _ _ => MpmcDelivery.push_result_of_sim hsim
    published_first := ?_
    pop_result := fun _ _ _ _ _ => MpmcDelivery.pop_result_of_sim hsim
    pop_empty := ?_
    pop_unique := fun _ _ _ => hsim.pop_unique
    push_live := fun _ _ _ => push_live ht
    pop_live := fun _ _ _ _ => pop_live ht
    empty_live := fun _ => empty_live ht
    empty_false := hanswers}
  · intro j p hp
    obtain ⟨i,payload,-,hpub,-⟩ := hsim.copiesCaptured j p hp
    exact ⟨i,payload,hpub⟩
  · intro j original destination result hj
    have hok := hsim.pop_ok j
    rw [show (flat s e d number).pop j=_ from hj] at hok
    exact hok

/-- On the memory orders of the code under RC11, with every interleaving of
any number of threads and every outdated value their loads may return, no
message access races, every message is delivered once and intact, and no call
is stuck. -/
theorem mpmc_memory_orders_suffice [DecidableEq ι] [DecidableEq θ] (q : Ring) (thread : ι → θ)
    {s : State ι θ N} (h : Reachable (system q thread N) s) : Delivers q thread s := by
  obtain ⟨t,ht⟩ := reachable_related h
  exact delivers_of_related ht (reachable_answers h)

/-- Delivery at a run with outdated loads: the first pop and the call of
`empty` both act on values that are no longer the last ones. -/
theorem mpmc_memory_orders_suffice_outdated :
    (run (system .smallest twoThreads 1) (outdatedSequence++[.callEmpty 0,.empty 0 0,.empty 0 1])).pop
      2=.returned [0] [7] (some 0) ⟨.success,1,1⟩ ∧
    (run (system .smallest twoThreads 1)
      (outdatedSequence++[.callEmpty 0,.empty 0 0,.empty 0 1])).probe 0=.returned 0 false ∧
    Delivers .smallest twoThreads (run (system .smallest twoThreads 1)
      (outdatedSequence++[.callEmpty 0,.empty 0 0,.empty 0 1])) :=
  ⟨by decide +kernel,by decide +kernel,mpmc_memory_orders_suffice .smallest twoThreads
    (run_reachable _ _)⟩

end Line64.MpmcMemoryDelivery
