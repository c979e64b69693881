import Line64.MpmcRefinement

/-!
# Exclusive cell ownership of the MPMC queue

Where every cell stands in its generation, which operation may be inside its
message, and why a message is kept until its pop has released it. The facts
come from the specification invariant through the simulation relation and
are stated over the memory and the calls of the code alone.
-/

namespace Line64.MpmcOwnership

open Function Result FixedMessageAccess Transition MpmcModel MpmcRefinement

variable {ι : Type} {N : ℕ}

/-- Stage of the cell `index` in the generation of position `p`, with the
operation that is in flight there. -/
inductive CellStage (q : Ring) (s : State ι N) (index p : ℕ) : Prop
  /-- Never claimed since construction. -/
  | fresh (hfirst : p=index) (hunclaimed : s.enqueuePos≤p)
      (hseq : (s.cells index).sequence=p)
  /-- Claimed by a push that is still writing the message. -/
  | writing (i : ι) (hposition : (s.push i).position=some p) (hpayload : (s.push i).inPayload)
      (hseq : (s.cells index).sequence=p)
  /-- Published and not yet claimed by a pop. -/
  | unread (i : ι) (payload : List Byte) (hpublished : (s.push i).Published payload p)
      (hunclaimed : s.dequeuePos≤p) (hseq : (s.cells index).sequence=p+1)
  /-- Claimed by a pop that is still reading the message. -/
  | reading (i : ι) (payload : List Byte) (j : ι) (hpublished : (s.push i).Published payload p)
      (hposition : (s.pop j).position=some p) (hpayload : (s.pop j).inPayload)
      (hseq : (s.cells index).sequence=p+1)
  /-- Released, and not yet claimed by the push of the next lap. -/
  | released (j : ι) (hreleased : (s.pop j).Released p) (hunclaimed : s.enqueuePos≤p+q.capacity)
      (hseq : (s.cells index).sequence=p+q.capacity)

/-- The operation is between its successful compare-exchange and its last
store to the cell sequence. Pushes are on the left, pops on the right. -/
def Accesses (q : Ring) (s : State ι N) (index : ℕ) : ι ⊕ ι → Prop
  | .inl i => ∃ p,(s.push i).position=some p ∧ (s.push i).inPayload ∧ q.index p=index
  | .inr j => ∃ p,(s.pop j).position=some p ∧ (s.pop j).inPayload ∧ q.index p=index

/-- Exclusive ownership, as a property of one state of a run. -/
structure Exclusive (q : Ring) (s : State ι N) : Prop where
  /-- Pops never overtake pushes. -/
  dequeue_le : s.dequeuePos ≤ s.enqueuePos
  /-- Pushes are at most one lap ahead of pops. -/
  enqueue_le : s.enqueuePos ≤ s.dequeuePos+q.capacity
  /-- Every cell is in a definite stage of a definite generation. -/
  stage : ∀ index<q.capacity,∃ p,q.index p=index ∧ CellStage q s index p
  /-- At most one operation in total is inside the message of a cell. -/
  exclusive : ∀ index x y,Accesses q s index x → Accesses q s index y → x=y
  /-- A claimed push finds every earlier message of its cell released. -/
  released_before : ∀ i p,(s.push i).position=some p → ∀ p'<p,q.index p'=q.index p →
    ∃ j,(s.pop j).Released p'
  /-- A published message stays in its cell until its pop has released it. -/
  unread_kept : ∀ i payload p,(s.push i).Published payload p →
    (∀ j,¬(s.pop j).Released p) →
    (s.cells (q.index p)).sequence=p+1 ∧ Holds (s.cells (q.index p)).message payload (p+1)

/-- The pop phases that mark a release. -/
theorem released_of_phase {call : PopCall} {p : ℕ} (hphase : popPhase call=.released)
    (hp : call.position=some p) : call.Released p := by
  cases call with
  | idle => cases hphase
  | running original destination pc => cases pc <;> cases hphase
  | returned original destination position result =>
    cases hp
    exact ⟨original,destination,result,rfl⟩

/-- The payload section of a push is its two writing phases. -/
theorem push_inPayload_iff (call : PushCall) :
    call.inPayload ↔ pushPhase call=.claimed ∨ pushPhase call=.written := by
  cases call with
  | idle => simp [PushCall.inPayload,pushPhase]
  | running payload pc =>
    cases pc with
    | assign p pc => cases pc <;> simp [PushCall.inPayload,pushPhase]
    | _ => simp [PushCall.inPayload,pushPhase]
  | returned payload position result => cases position <;> simp [PushCall.inPayload,pushPhase]

/-- The payload section of a pop is its claimed phase. -/
theorem pop_inPayload_iff (call : PopCall) : call.inPayload ↔ popPhase call=.claimed := by
  cases call with
  | idle => simp [PopCall.inPayload,popPhase]
  | running original destination pc => cases pc <;> simp [PopCall.inPayload,popPhase]
  | returned original destination position result =>
    cases position <;> simp [PopCall.inPayload,popPhase]

section Sim

variable {q : Ring} {s : State ι N} {t : MpmcTla.State ι}

/-- A specification pop that has released is a released call. -/
theorem released_of_sim (h : Sim q s t) {j : ι} {p : ℕ} (hp : t.popPosition j=some p)
    (hr : t.popPhase j=.released) : (s.pop j).Released p := by
  rw [h.refines.popPosition_eq] at hp
  rw [h.refines.popPhase_eq] at hr
  exact released_of_phase hr hp

/-- A specification push that has published is a published call. -/
theorem published_of_sim (h : Sim q s t) {i : ι} {p : ℕ} (hp : t.pushPosition i=some p)
    (hpub : t.pushPhase i=.published) : ∃ payload,(s.push i).Published payload p := by
  rw [h.refines.pushPosition_eq] at hp
  rw [h.refines.pushPhase_eq] at hpub
  exact published_of_phase hpub hp

/-- The stage of a cell, read off its generation in the specification. A
released cell waits for the next lap, so its generation is one lap back. -/
theorem cellStage_of_sim (h : Sim q s t) {index : ℕ} (hlt : index<q.capacity) :
    ∃ p,q.index p=index ∧ CellStage q s index p := by
  obtain ⟨p,hp,hwait | hread⟩ := h.inv.generation index hlt
  · obtain ⟨hseq,hreuse,hclaim⟩ := hwait
    rw [h.refines.sequence] at hseq
    rw [h.refines.enqueue] at hclaim
    by_cases hclaimed : p<s.enqueuePos
    · obtain ⟨i,hi,hw⟩ := hclaim hclaimed
      rw [h.refines.pushPosition_eq] at hi
      rw [MpmcTla.Writing,h.refines.pushPhase_eq,← push_inPayload_iff] at hw
      exact ⟨p,by rw [q.index_eq_mod,hp],.writing i hi hw hseq⟩
    · by_cases hlap : q.capacity≤p
      · obtain ⟨j,hj,hr⟩ := hreuse hlap
        have hrel := released_of_sim h hj hr
        have hidx := RingIndex.index_sub_lap hlap
        exact ⟨p-q.capacity,by rw [q.index_eq_mod,hidx,hp],
          .released j hrel (by omega) (by rw [hseq]; omega)⟩
      · have hfirst : p=index := by rw [← hp,Nat.mod_eq_of_lt (by omega)]
        exact ⟨p,by rw [q.index_eq_mod,hp],.fresh hfirst (by omega) hseq⟩
  · obtain ⟨hseq,⟨i,hi,hpub⟩,hclaim⟩ := hread
    obtain ⟨payload,hpublished⟩ := published_of_sim h hi hpub
    rw [h.refines.sequence] at hseq
    rw [h.refines.dequeue] at hclaim
    by_cases hclaimed : p<s.dequeuePos
    · obtain ⟨j,hj,hr⟩ := hclaim hclaimed
      rw [h.refines.popPosition_eq] at hj
      rw [h.refines.popPhase_eq,← pop_inPayload_iff] at hr
      exact ⟨p,by rw [q.index_eq_mod,hp],.reading i payload j hpublished hj hr hseq⟩
    · exact ⟨p,by rw [q.index_eq_mod,hp],.unread i payload hpublished (by omega) hseq⟩

/-- The cell of an operation inside a message shows whose turn it is. -/
theorem accesses_sequence (h : Sim q s t) {index : ℕ} {x : ι ⊕ ι} (hx : Accesses q s index x) :
    ∃ p,p%q.capacity=index ∧
      match x with
      | .inl i => (s.push i).position=some p ∧ (s.cells index).sequence=p
      | .inr j => (s.pop j).position=some p ∧ (s.cells index).sequence=p+1 := by
  cases x with
  | inl i =>
    obtain ⟨p,hp,hin,rfl⟩ := hx
    have hseq := h.writing hp ((push_inPayload_iff _).mp hin)
    exact ⟨p,(q.index_eq_mod p).symm,hp,hseq⟩
  | inr j =>
    obtain ⟨p,hp,hin,rfl⟩ := hx
    have hseq := h.reading hp ((pop_inPayload_iff _).mp hin)
    exact ⟨p,(q.index_eq_mod p).symm,hp,hseq⟩

/-- At most one operation is inside the message of a cell: two pushes or
two pops would share a position, a push and a pop would be neighbours. -/
theorem accesses_unique (h : Sim q s t) {index : ℕ} {x y : ι ⊕ ι}
    (hx : Accesses q s index x) (hy : Accesses q s index y) : x=y := by
  obtain ⟨p,hp,hx⟩ := accesses_sequence h hx
  obtain ⟨p',hp',hy⟩ := accesses_sequence h hy
  have hidx : p%q.capacity=p'%q.capacity := by rw [hp,hp']
  cases x with
  | inl i =>
    cases y with
    | inl i' =>
      have hpos : p'=p := by rw [← hx.2,hy.2]
      rw [h.push_unique hx.1 (hpos ▸ hy.1)]
    | inr j =>
      have hnext : p=p'+1 := by rw [← hx.2,hy.2]
      exact absurd hnext (RingIndex.ne_succ_of_index_eq q.two_le hidx)
  | inr j =>
    cases y with
    | inl i =>
      have hnext : p'=p+1 := by rw [← hx.2,hy.2]
      exact absurd hnext (RingIndex.ne_succ_of_index_eq q.two_le hidx.symm)
    | inr j' =>
      have hpos : p'=p := by
        have hseq : p+1=p'+1 := by rw [← hx.2,hy.2]
        omega
      rw [h.pop_unique hx.1 (hpos ▸ hy.1)]

/-- A published message that is not released is intact in its cell. -/
theorem unread_kept_of_sim (h : Sim q s t) {i : ι} {payload : List Byte} {p : ℕ}
    (hpub : (s.push i).Published payload p) (hun : ∀ j,¬(s.pop j).Released p) :
    (s.cells (q.index p)).sequence=p+1 ∧
      Holds (s.cells (q.index p)).message payload (p+1) := by
  have hphase := PushCall.Published.phase hpub
  have hseq := h.inv.unreleased_sequence (i:=i) (p:=p) q.two_le
    (by rw [h.refines.pushPosition_eq,hphase.2]) (by rw [h.refines.pushPhase_eq,hphase.1])
    (fun j hj hr => hun j (released_of_sim h hj hr))
  rw [h.refines.sequence,← q.index_eq_mod] at hseq
  obtain ⟨result,hi⟩ := hpub
  have hok := h.push_ok i
  rw [hi] at hok
  exact ⟨hseq,hok.2.2 hseq⟩

end Sim

variable [DecidableEq ι]

/-- In every reachable state of every interleaving the cells are owned
exclusively and unread messages are kept. -/
theorem cell_ownership_exclusive (q : Ring) {s : State ι N}
    (h : Reachable (system id q ι N) s) : Exclusive q s := by
  obtain ⟨t,ht⟩ := reachable_sim h
  have hd := ht.inv.dequeue_le
  have he := ht.inv.enqueue_le
  rw [ht.refines.dequeue,ht.refines.enqueue] at hd he
  refine ⟨hd,he,fun index hlt => cellStage_of_sim ht hlt,
    fun index x y => accesses_unique ht,?_,fun i payload p => unread_kept_of_sim ht⟩
  intro i p hp p' hlt hidx
  rw [q.index_eq_mod,q.index_eq_mod] at hidx
  rw [← ht.refines.pushPosition_eq] at hp
  have hclaimed := (ht.inv.push_claims p).mpr ⟨i,hp⟩
  obtain ⟨j,hj,hr⟩ := ht.inv.earlier_released hclaimed hidx hlt
  exact ⟨j,released_of_sim ht hj hr⟩

/-- A push stopped after its first payload byte. -/
def pausedPush : List (Action Bool) :=
  .callPush true [5,6]::List.replicate 4 (.push true false)

/-- Exclusive ownership while a push is paused inside its message. -/
theorem cell_ownership_exclusive_paused :
    Accesses .smallest (run (system id .smallest Bool 2) pausedPush) 0 (.inl true) ∧
      Exclusive .smallest (run (system id .smallest Bool 2) pausedPush) :=
  ⟨⟨0,rfl,trivial,rfl⟩,cell_ownership_exclusive .smallest (run_reachable _ _)⟩

end Line64.MpmcOwnership
