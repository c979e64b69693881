import Line64.MpmcRefinement

/-!
# Exactly-once delivery of the MPMC queue

The simulation invariant, read as a statement about returned calls. Each
claimed position belongs to one push, is popped at most once and only after
its push has published, and the pop returns the bytes of that push. A call
that has claimed a position is never blocked: its own next accesses return,
whatever state the other calls are left in.
-/

namespace Line64.MpmcDelivery

open Function Result FixedMessageAccess Transition MpmcModel MpmcRefinement

variable {ι : Type} {N : ℕ}

/-- Result of a returned push in related states. -/
theorem push_result_of_sim {q : Ring} {s : State ι N} {t : MpmcTla.State ι} (h : Sim q s t)
    {i : ι} {payload : List Byte} {position : Option ℕ} {result : WriteResult}
    (hi : s.push i=.returned payload position result) :
    (result.status=.success ↔ ∃ p,position=some p) ∧
      ∀ p,position=some p → result=⟨.success,p+1⟩ := by
  have hok := h.push_ok i
  rw [hi] at hok
  cases position with
  | none =>
    have hfail : result.status≠.success := by
      rcases hok with rfl | ⟨-,rfl⟩ <;> decide
    simp only [reduceCtorEq,exists_false,iff_false,false_implies,implies_true,and_true]
    exact hfail
  | some p =>
    have hres := hok.2.1
    subst hres
    refine ⟨⟨fun _ => ⟨p,rfl⟩,fun _ => rfl⟩,?_⟩
    intro p' hp'
    cases hp'
    rfl

/-- Result of a returned pop in related states. -/
theorem pop_result_of_sim {q : Ring} {s : State ι N} {t : MpmcTla.State ι} (h : Sim q s t)
    {j : ι} {original destination : List Byte} {p : ℕ} {result : ReadResult}
    (hj : s.pop j=.returned original destination (some p) result) :
    ∃ i payload,(s.push i).Published payload p ∧
      (destination,result)=delivery payload (p+1) original := by
  obtain ⟨i,payload,-,hpub,hcopy⟩ := h.copiesCaptured j p (by rw [hj]; rfl)
  rw [hj] at hcopy
  exact ⟨i,payload,hpub,hcopy⟩

variable [DecidableEq ι]

/-- An access of a push leaves all pops alone. -/
theorem stepPush_pop (word : ℕ → ℕ) (q : Ring) (s : State ι N) (i : ι) (payload : List Byte)
    (spurious : Bool) (pc : PushPc) : (stepPush word q s i payload spurious pc).pop=s.pop := by
  cases pc with
  | loadSequence position =>
    simp only [stepPush]
    split_ifs <;> rfl
  | compareExchange position =>
    simp only [stepPush]
    split_ifs <;> rfl
  | _ => rfl

/-- An access of a pop leaves all pushes alone. -/
theorem stepPop_push (word : ℕ → ℕ) (q : Ring) (s : State ι N) (j : ι)
    (original destination : List Byte) (spurious : Bool) (pc : PopPc) :
    (stepPop word q s j original destination spurious pc).push=s.push := by
  cases pc with
  | loadSequence position =>
    simp only [stepPop]
    split_ifs <;> rfl
  | compareExchange position =>
    simp only [stepPop]
    split_ifs <;> rfl
  | _ => rfl

/-- A step changes push calls or pop calls, never both. -/
theorem step_push_or_pop {word : ℕ → ℕ} {q : Ring} {s s' : State ι N} {a : Action ι}
    (hs : step word q s a=some s') : s'.pop=s.pop ∨ s'.push=s.push := by
  cases a with
  | callPush i payload =>
    simp only [step] at hs
    split at hs <;> cases hs
    exact .inl rfl
  | push i spurious =>
    simp only [step] at hs
    split at hs <;> cases hs
    exact .inl (stepPush_pop ..)
  | callPop j destination =>
    simp only [step] at hs
    split at hs <;> cases hs
    exact .inr rfl
  | pop j spurious =>
    simp only [step] at hs
    split at hs <;> cases hs
    exact .inr (stepPop_push ..)
  | callEmpty i =>
    simp only [step] at hs
    split at hs <;> cases hs
    exact .inl rfl
  | empty i =>
    simp only [step] at hs
    split at hs <;> cases hs <;> exact .inl rfl

section Progress

variable {q : Ring} {s : State ι N}

/-- A running push is enabled in every state. -/
theorem push_enabled {i : ι} {payload : List Byte} {pc : PushPc}
    (hi : s.push i=.running payload pc) :
    (system id q ι N).step s (.push i false)=some (stepPush id q s i payload false pc) := by
  simp only [system,step,hi]

/-- A running pop is enabled in every state. -/
theorem pop_enabled {j : ι} {original destination : List Byte} {pc : PopPc}
    (hj : s.pop j=.running original destination pc) :
    (system id q ι N).step s (.pop j false)=
      some (stepPop id q s j original destination false pc) := by
  simp only [system,step,hj]

/-- The publishing store returns. -/
theorem publish_returns {i : ι} {payload : List Byte} {p : ℕ} {result : WriteResult}
    (hi : s.push i=.running payload (.publish p result)) :
    LeadsTo (system id q ι N) (.push i false) (fun s => ∃ payload,(s.push i).Published payload p) s :=
  .next (push_enabled hi) (.now ⟨payload,result,update_self ..⟩)

/-- The store of the message sequence is followed by two more accesses. -/
theorem storeSequence_returns {i : ι} {payload : List Byte} {p : ℕ}
    (hi : s.push i=.running payload (.assign p .storeSequence)) :
    LeadsTo (system id q ι N) (.push i false) (fun s => ∃ payload,(s.push i).Published payload p) s := by
  refine .next (push_enabled hi) (.next (push_enabled (update_self ..)) ?_)
  exact publish_returns (update_self ..)

/-- The byte loop of `assign` ends and the push returns. -/
theorem assignFrom_returns {i : ι} {payload : List Byte} {p index n : ℕ}
    (hn : payload.length-index=n)
    (hi : s.push i=.running payload (.assign p (assignFrom payload index))) :
    LeadsTo (system id q ι N) (.push i false) (fun s => ∃ payload,(s.push i).Published payload p) s := by
  induction n generalizing s index with
  | zero =>
    rw [assignFrom,if_neg (by omega)] at hi
    exact .next (push_enabled hi) (storeSequence_returns (update_self ..))
  | succ n ih =>
    rw [assignFrom,if_pos (by omega)] at hi
    exact .next (push_enabled hi) (ih (by omega) (update_self ..))

/-- A push that has claimed a position returns after enough own accesses. -/
theorem push_returns {i : ι} {p : ℕ} (hp : (s.push i).position=some p) :
    LeadsTo (system id q ι N) (.push i false) (fun s => ∃ payload,(s.push i).Published payload p) s := by
  cases hi : s.push i with
  | idle => simp only [hi,PushCall.position,reduceCtorEq] at hp
  | running payload pc =>
    rw [hi] at hp
    cases pc with
    | assign p' pc =>
      cases hp
      cases pc with
      | copy index =>
        exact .next (push_enabled hi) (assignFrom_returns rfl (update_self ..))
      | storeSize => exact .next (push_enabled hi) (storeSequence_returns (update_self ..))
      | storeSequence => exact storeSequence_returns hi
      | loadSequence => exact .next (push_enabled hi) (publish_returns (update_self ..))
    | publish p' result =>
      cases hp
      exact publish_returns hi
    | _ => simp only [PushCall.position,reduceCtorEq] at hp
  | returned payload position result =>
    rw [hi] at hp
    cases hp
    exact .now ⟨payload,result,hi⟩

/-- The releasing store returns. -/
theorem release_returns {j : ι} {original destination : List Byte} {p : ℕ} {result : ReadResult}
    (hj : s.pop j=.running original destination (.release p result)) :
    LeadsTo (system id q ι N) (.pop j false) (fun s => (s.pop j).Released p) s :=
  .next (pop_enabled hj) (.now ⟨original,destination,result,update_self ..⟩)

/-- After the byte loop three more accesses return. -/
theorem loadBytesRead_returns {j : ι} {original destination : List Byte} {p : ℕ}
    (hj : s.pop j=.running original destination (.copy p .loadBytesRead)) :
    LeadsTo (system id q ι N) (.pop j false) (fun s => (s.pop j).Released p) s := by
  refine .next (pop_enabled hj) (.next (pop_enabled (update_self ..)) ?_)
  exact release_returns (update_self ..)

/-- The byte loop of `copy_to` ends and the pop returns. -/
theorem copyFrom_returns {j : ι} {original destination : List Byte} {p count index n : ℕ}
    (hn : count-index=n)
    (hj : s.pop j=.running original destination (.copy p (copyFrom count index))) :
    LeadsTo (system id q ι N) (.pop j false) (fun s => (s.pop j).Released p) s := by
  induction n generalizing s index destination with
  | zero =>
    rw [copyFrom,if_neg (by omega)] at hj
    exact loadBytesRead_returns hj
  | succ n ih =>
    rw [copyFrom,if_pos (by omega)] at hj
    exact .next (pop_enabled hj) (ih (by omega) (update_self ..))

/-- A pop that has claimed a position returns after enough own accesses. -/
theorem pop_returns {j : ι} {p : ℕ} (hp : (s.pop j).position=some p) :
    LeadsTo (system id q ι N) (.pop j false) (fun s => (s.pop j).Released p) s := by
  cases hj : s.pop j with
  | idle => simp only [hj,PopCall.position,reduceCtorEq] at hp
  | running original destination pc =>
    rw [hj] at hp
    cases pc with
    | copy p' pc =>
      cases hp
      have hcount : ∀ {s : State ι N},
          s.pop j=.running original destination (.copy p .loadCount) →
          LeadsTo (system id q ι N) (.pop j false) (fun s => (s.pop j).Released p) s := fun h =>
        .next (pop_enabled h) (copyFrom_returns rfl (update_self ..))
      have hreject : ∀ {s : State ι N},
          s.pop j=.running original destination (.copy p .loadRejected) →
          LeadsTo (system id q ι N) (.pop j false) (fun s => (s.pop j).Released p) s := fun h =>
        .next (pop_enabled h) (release_returns (update_self ..))
      cases pc with
      | loadSize =>
        refine .next (pop_enabled hj) ?_
        by_cases hl : destination.length<(s.cells (q.index p)).message.size
        · exact hreject (by simp only [stepPop,copyStep,if_pos hl,afterCopy,State.setPop,update_self])
        · exact hcount (by simp only [stepPop,copyStep,if_neg hl,afterCopy,State.setPop,update_self])
      | loadRejected => exact hreject hj
      | loadCount => exact hcount hj
      | copy count index =>
        exact .next (pop_enabled hj) (copyFrom_returns rfl (update_self ..))
      | loadBytesRead => exact loadBytesRead_returns hj
      | loadSequence bytesRead =>
        exact .next (pop_enabled hj) (release_returns (update_self ..))
    | release p' result =>
      cases hp
      exact release_returns hj
    | _ => simp only [PopCall.position,reduceCtorEq] at hp
  | returned original destination position result =>
    rw [hj] at hp
    cases hp
    exact .now ⟨original,destination,result,hj⟩

end Progress

/-- Exactly-once delivery, as a property of one state of a run. -/
structure ExactlyOnce (q : Ring) (s : State ι N) : Prop where
  /-- The positions claimed by pushes are exactly `0,…,enqueue_pos_-1`. -/
  push_claims : ∀ p,p<s.enqueuePos ↔ ∃ i,(s.push i).position=some p
  /-- No position is claimed by two pushes. -/
  push_unique : ∀ i i' p,(s.push i).position=some p → (s.push i').position=some p → i=i'
  /-- A returned push succeeded exactly if it claimed a position, and then
  its sequence is the successor of that position. -/
  push_result : ∀ i payload position result,s.push i=.returned payload position result →
    (result.status=.success ↔ ∃ p,position=some p) ∧
      ∀ p,position=some p → result=⟨.success,p+1⟩
  /-- A push that claimed a position returns after enough own accesses. -/
  push_returns : ∀ i p,(s.push i).position=some p →
    LeadsTo (system id q ι N) (.push i false) (fun s => ∃ payload,(s.push i).Published payload p) s
  /-- A pop that claimed `p` returns the message of the push that claimed
  `p`, or reports it as too large without touching the destination. -/
  pop_result : ∀ j original destination p result,
    s.pop j=.returned original destination (some p) result →
    ∃ i payload,(s.push i).Published payload p ∧
      (original.length<payload.length →
        destination=original ∧ result=⟨.messageTooLarge,0,p+1⟩) ∧
      (payload.length≤original.length →
        destination=payload++original.drop payload.length ∧
          result=⟨.success,payload.length,p+1⟩)
  /-- A pop that claimed a position returns after enough own accesses. -/
  pop_returns : ∀ j p,(s.pop j).position=some p →
    LeadsTo (system id q ι N) (.pop j false) (fun s => (s.pop j).Released p) s
  /-- A pop that returned without a position found the queue empty. -/
  pop_empty : ∀ j original destination result,
    s.pop j=.returned original destination none result →
    destination=original ∧ result=⟨.empty,0,0⟩
  /-- When a pop claims a position, its push has already published. -/
  published_first : ∀ a s' j p,step id q s a=some s' → (s.pop j).position=none →
    (s'.pop j).position=some p → ∃ i payload,(s.push i).Published payload p
  /-- No position is claimed by two pops. -/
  pop_unique : ∀ j j' p,(s.pop j).position=some p → (s.pop j').position=some p → j=j'

/-- Every interleaving of any number of pushes and pops delivers exactly
once and intact. -/
theorem delivers_exactly_once (q : Ring) {s : State ι N}
    (h : Reachable (system id q ι N) s) : ExactlyOnce q s := by
  obtain ⟨t,ht⟩ := reachable_sim h
  refine ⟨ht.push_claimed_iff,fun i i' p => ht.push_unique,
    fun i payload position result => push_result_of_sim ht,fun i p => push_returns,?_,
    fun j p => pop_returns,?_,?_,fun j j' p => ht.pop_unique⟩
  · intro j original destination p result hj
    obtain ⟨i,payload,hpub,hd⟩ := pop_result_of_sim ht hj
    refine ⟨i,payload,hpub,?_,?_⟩
    · intro hl
      simpa only [delivery,if_pos hl,Prod.mk.injEq] using hd
    · intro hl
      simpa only [delivery,if_neg (Nat.not_lt.mpr hl),Prod.mk.injEq] using hd
  · intro j original destination result hj
    have hok := ht.pop_ok j
    rw [hj] at hok
    exact hok
  · intro a s' j p hs hnone hsome
    rcases step_push_or_pop hs with hpop | hpush
    · rw [hpop,hnone] at hsome
      cases hsome
    · obtain ⟨t',ht'⟩ := reachable_sim (h.step hs)
      obtain ⟨i,payload,-,hpub,-⟩ := ht'.copiesCaptured j p hsome
      rw [hpush] at hpub
      exact ⟨i,payload,hpub⟩

/-- Two overlapping pushes of different lengths, then two overlapping pops,
one of them with room for a single byte. -/
def contended : List (Action Bool) :=
  .callPush false [1]::.callPush true [2,3]::
    (List.replicate 12 [.push false false,.push true false]).flatten++
  .callPop false [9,9,9]::.callPop true [9]::
    (List.replicate 14 [.pop false false,.pop true false]).flatten

/-- Exactly-once delivery at a contended run: one pop receives the first
message, the other one rejects and releases the second. -/
theorem delivers_exactly_once_contended :
    (run (system id .smallest Bool 2) contended).pop false=
      .returned [9,9,9] [1,9,9] (some 0) ⟨.success,1,1⟩ ∧
    (run (system id .smallest Bool 2) contended).pop true=
      .returned [9] [9] (some 1) ⟨.messageTooLarge,0,2⟩ ∧
    ExactlyOnce .smallest (run (system id .smallest Bool 2) contended) :=
  ⟨by decide +kernel,by decide +kernel,delivers_exactly_once .smallest (run_reachable _ _)⟩

end Line64.MpmcDelivery
