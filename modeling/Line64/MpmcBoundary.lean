import Line64.MpmcClaimLoop
import Line64.MpmcOwnership

/-!
# Boundary answers of the MPMC queue are honest

A push reports full, a pop reports empty and `empty` answers from a position
that may be outdated and a cell that is loaded later. An outdated position
never produces a report: the cell of a claimed position has already reached
it. So a report describes the queue at the instant of its last load, up to
the calls that are then inside a message.
-/

namespace Line64.MpmcBoundary

open Function Result FixedMessageAccess Transition Timeline ClaimLoop MpmcModel MpmcRefinement
open MpmcDelivery MpmcOwnership MpmcClaimLoop

variable {ι : Type} {N : ℕ}

/-- What a push that returns full sees at its last load. -/
structure FullReport (q : Ring) (s : State ι N) (position : ℕ) : Prop where
  /-- The local position is the present counter. -/
  current : position=s.enqueuePos
  /-- A whole lap has been claimed. -/
  lap : q.capacity ≤ s.enqueuePos
  /-- Every position of the last lap is claimed by a push. -/
  claimed : ∀ p,s.enqueuePos-q.capacity≤p → p < s.enqueuePos → ∃ i,(s.push i).position=some p
  /-- The oldest position of this lap has not been released. -/
  unreleased : ∀ j,¬(s.pop j).Released (s.enqueuePos-q.capacity)
  /-- Unless a pop is inside a message, exactly `capacity` messages wait to be
  claimed by a pop. -/
  waiting : (∀ j,¬(s.pop j).inPayload) → s.enqueuePos=s.dequeuePos+q.capacity ∧
    ∀ p,((∃ i,(s.push i).position=some p) ∧ ∀ j,(s.pop j).position≠some p) ↔
      s.dequeuePos≤p ∧ p < s.dequeuePos+q.capacity

/-- What a pop that returns empty, or an affirmative `empty`, sees at its last
load. -/
structure EmptyReport (s : State ι N) (position : ℕ) : Prop where
  /-- The local position is the present counter. -/
  current : position=s.dequeuePos
  /-- Its message is not published. -/
  unpublished : ∀ i payload,¬(s.push i).Published payload s.dequeuePos
  /-- Unless a push is inside a message, every claimed position has been
  popped. -/
  drained : (∀ i,¬(s.push i).inPayload) → s.enqueuePos=s.dequeuePos

/-- The message at the dequeue counter is published and no pop has claimed it. -/
def Available (s : State ι N) : Prop :=
  (∃ i payload,(s.push i).Published payload s.dequeuePos) ∧ ∀ j,(s.pop j).position≠some s.dequeuePos

section Specification

variable {capacity : ℕ} {t : MpmcTla.State ι}

/-- The cell of a claimed push position has reached it. -/
theorem sequence_ge_of_pushed (h : MpmcTla.Inv capacity t) {p : ℕ} (hp : p<t.enqueuePosition) :
    p≤(t.cells (p%capacity)).sequence := by
  obtain ⟨i,hi⟩ := (h.push_claims p).mp hp
  rcases h.started hi with hw | hpub
  · exact (h.writing i p hi hw).ge
  · exact Nat.le_of_succ_le (h.published i p hi hpub).1

/-- The cell of a claimed pop position has passed its publication. -/
theorem sequence_gt_of_popped (h : MpmcTla.Inv capacity t) {p : ℕ} (hp : p<t.dequeuePosition) :
    p+1≤(t.cells (p%capacity)).sequence := by
  obtain ⟨j,hj⟩ := (h.pop_claims p).mp hp
  obtain ⟨i,-,hi,hpub⟩ := h.captured j p hj
  exact (h.published i p hi hpub).1

/-- A cell behind the enqueue counter belongs to an earlier lap. -/
theorem lap_of_behind (h : MpmcTla.Inv capacity t) (hc : 0<capacity)
    (hlt : (t.cells (t.enqueuePosition%capacity)).sequence<t.enqueuePosition) :
    capacity≤t.enqueuePosition := by
  by_contra hfirst
  have hidx : t.enqueuePosition%capacity=t.enqueuePosition := Nat.mod_eq_of_lt (by omega)
  obtain ⟨p,hp,hgen⟩ := h.generation (t.enqueuePosition%capacity) (Nat.mod_lt _ hc)
  have hle : p≤(t.cells (t.enqueuePosition%capacity)).sequence := by
    rcases hgen with hwait | hread
    · exact hwait.1.ge
    · exact Nat.le_of_succ_le hread.1.ge
  rw [hidx] at hp
  rw [Nat.mod_eq_of_lt (by omega)] at hp
  omega

end Specification

section Reports

variable {q : Ring} {s : State ι N} {t : MpmcTla.State ι}

/-- The cell of a published position has passed it. -/
theorem sequence_gt_of_published (h : Sim q s t) {i : ι} {payload : List Byte} {p : ℕ}
    (hpub : (s.push i).Published payload p) : p<(s.cells (q.index p)).sequence := by
  obtain ⟨hphase,hp⟩ := PushCall.Published.phase hpub
  rw [← h.refines.pushPhase_eq] at hphase
  rw [← h.refines.pushPosition_eq] at hp
  have hle := (h.inv.published i p hp hphase).1
  rwa [h.refines.sequence,← q.index_eq_mod] at hle

/-- A pop with a position is inside its message or has released it. -/
theorem inPayload_or_released {call : PopCall} {p : ℕ} (hp : call.position=some p) :
    call.inPayload ∨ call.Released p := by
  cases call with
  | idle => cases hp
  | running original destination pc =>
    cases pc with
    | copy p' pc => exact .inl trivial
    | release p' result => exact .inl trivial
    | _ => cases hp
  | returned original destination position result =>
    cases hp
    exact .inr ⟨original,destination,result,rfl⟩

/-- A push with a position is inside its message or has published it. -/
theorem inPayload_or_published {call : PushCall} {p : ℕ} (hp : call.position=some p) :
    call.inPayload ∨ ∃ payload,call.Published payload p := by
  cases call with
  | idle => cases hp
  | running payload pc =>
    cases pc with
    | assign p' pc => exact .inl trivial
    | publish p' result => exact .inl trivial
    | _ => cases hp
  | returned payload position result =>
    cases hp
    exact .inr ⟨payload,result,rfl⟩

/-- A push that finds its cell behind its position reports a full queue. -/
theorem fullReport_of_behind (h : Sim q s t) {position : ℕ} (hle : position ≤ s.enqueuePos)
    (hlt : (s.cells (q.index position)).sequence<position) : FullReport q s position := by
  have hcap := q.two_le
  have hcurrent : position=s.enqueuePos := by
    rcases Nat.eq_or_lt_of_le hle with heq | hold
    · exact heq
    · have hge := sequence_ge_of_pushed h.inv (h.refines.enqueue ▸ hold)
      rw [h.refines.sequence,← q.index_eq_mod] at hge
      omega
  subst hcurrent
  have hlap : q.capacity ≤ s.enqueuePos := by
    have hbehind := lap_of_behind h.inv (by omega)
    rw [h.refines.enqueue,h.refines.sequence,← q.index_eq_mod] at hbehind
    exact hbehind hlt
  have hunreleased : ∀ j,¬(s.pop j).Released (s.enqueuePos-q.capacity) := by
    rintro j ⟨original,destination,result,hj⟩
    have hge := h.inv.released j (s.enqueuePos-q.capacity)
      (by rw [h.refines.popPosition_eq,hj]; rfl) (by rw [h.refines.popPhase_eq,hj]; rfl)
    rw [RingIndex.index_sub_lap hlap,h.refines.sequence,← q.index_eq_mod] at hge
    omega
  refine ⟨rfl,hlap,fun p _ hp => (h.push_claimed_iff p).mp hp,hunreleased,?_⟩
  intro hquiet
  have hdequeue : s.dequeuePos ≤ s.enqueuePos-q.capacity := by
    by_contra hpast
    obtain ⟨j,hj⟩ := (h.pop_claimed_iff (s.enqueuePos-q.capacity)).mp (Nat.not_le.mp hpast)
    rcases inPayload_or_released hj with hin | hreleased
    · exact hquiet j hin
    · exact hunreleased j hreleased
  have henqueue := h.inv.enqueue_le
  rw [h.refines.enqueue,h.refines.dequeue] at henqueue
  have hfull : s.enqueuePos=s.dequeuePos+q.capacity := by omega
  refine ⟨hfull,?_⟩
  intro p
  have hpushed := h.push_claimed_iff p
  have hpopped := h.pop_claimed_iff p
  rw [← hpushed,hfull,← not_exists,← hpopped,Nat.not_lt]
  exact and_comm

/-- A load behind the publication of its position reports an empty queue. -/
theorem emptyReport_of_behind (h : Sim q s t) {position : ℕ} (hle : position ≤ s.dequeuePos)
    (hlt : (s.cells (q.index position)).sequence<position+1) : EmptyReport s position := by
  have hcurrent : position=s.dequeuePos := by
    rcases Nat.eq_or_lt_of_le hle with heq | hold
    · exact heq
    · have hge := sequence_gt_of_popped h.inv (h.refines.dequeue ▸ hold)
      rw [h.refines.sequence,← q.index_eq_mod] at hge
      omega
  subst hcurrent
  have hunpublished : ∀ i payload,¬(s.push i).Published payload s.dequeuePos := by
    intro i payload hpub
    have hgt := sequence_gt_of_published h hpub
    omega
  refine ⟨rfl,hunpublished,?_⟩
  intro hquiet
  have hdequeue := h.inv.dequeue_le
  rw [h.refines.enqueue,h.refines.dequeue] at hdequeue
  rcases Nat.eq_or_lt_of_le hdequeue with heq | hlt'
  · exact heq.symm
  · obtain ⟨i,hi⟩ := (h.push_claimed_iff s.dequeuePos).mp hlt'
    rcases inPayload_or_published hi with hin | ⟨payload,hpub⟩
    · exact absurd hin (hquiet i)
    · exact absurd hpub (hunpublished i payload)

/-- The cell of an unpublished dequeue position has not reached it. -/
theorem sequence_le_of_unpublished (h : Sim q s t)
    (hnone : ∀ i payload,¬(s.push i).Published payload s.dequeuePos) :
    (s.cells (q.index s.dequeuePos)).sequence<s.dequeuePos+1 := by
  by_contra hge
  have hbound := h.inv.pop_bound s.dequeuePos h.refines.dequeue.le
  rw [h.refines.sequence,← q.index_eq_mod] at hbound
  have hready : (t.cells (s.dequeuePos%q.capacity)).sequence=s.dequeuePos+1 := by
    rw [h.refines.sequence,← q.index_eq_mod]
    omega
  have hpending := h.inv.pending (by rw [h.refines.dequeue]; exact hready)
  rw [h.refines.enqueue,h.refines.dequeue,h.push_claimed_iff] at hpending
  obtain ⟨i,hi⟩ := hpending
  rw [← h.refines.pushPosition_eq] at hi
  obtain ⟨payload,hpub⟩ := published_of_sim h hi (h.inv.published_of_sequence hi hready).1
  exact hnone i payload hpub

/-- The dequeue position itself is never claimed by a pop. -/
theorem unclaimed_at_dequeue (h : Sim q s t) (j : ι) : (s.pop j).position≠some s.dequeuePos :=
  fun hj => lt_irrefl _ ((h.pop_claimed_iff s.dequeuePos).mpr ⟨j,hj⟩)

end Reports

section Returns

variable [DecidableEq ι] {q : Ring} {s s' : State ι N} {t : MpmcTla.State ι}

/-- The entry of a push never answers full. -/
theorem enterPush_ne_full {payload payload' : List Byte} {position : Option ℕ}
    {result : WriteResult} (hret : enterPush N payload=.returned payload' position result) :
    result.status≠.full := by
  rw [enterPush] at hret
  split_ifs at hret
  cases hret
  simp

/-- A push returns full from its cell load alone, where the cell is behind. -/
theorem behind_of_full (h : Sim q s t) {i : ι} {payload payload' : List Byte} {pc : PushPc}
    {position : Option ℕ} {result : WriteResult} {spurious : Bool}
    (hi : s.push i=.running payload pc)
    (hret : (stepPush id q s i payload spurious pc).push i=.returned payload' position result)
    (hfull : result.status=.full) :
    ∃ p,payload=payload' ∧ pc=.loadSequence p ∧ (s.cells (q.index p)).sequence<p := by
  cases pc with
  | loadPosition => simp [stepPush,State.setPush] at hret
  | loadSequence p =>
    simp only [stepPush] at hret
    split_ifs at hret with heq hlt
    · simp [State.setPush] at hret
    · simp only [State.setPush,update_self,PushCall.returned.injEq] at hret
      exact ⟨p,hret.1,rfl,hlt⟩
    · simp [State.setPush] at hret
  | compareExchange p =>
    simp only [stepPush] at hret
    split_ifs at hret <;> simp [State.setPush] at hret
  | assign p pc => simp [stepPush,State.setPush] at hret
  | publish p result' =>
    have hok := h.push_ok i
    rw [hi] at hok
    have hres : result'=⟨.success,p+1⟩ := hok.2.1
    simp only [stepPush,State.setPush,update_self,PushCall.returned.injEq] at hret
    rw [← hret.2.2,hres] at hfull
    cases hfull

/-- A pop returns empty from its cell load alone, where the cell is behind. -/
theorem behind_of_empty (h : Sim q s t) {j : ι} {original original' destination destination' : List Byte}
    {pc : PopPc} {position : Option ℕ} {result : ReadResult} {spurious : Bool}
    (hj : s.pop j=.running original destination pc)
    (hret : (stepPop id q s j original destination spurious pc).pop j=
      .returned original' destination' position result)
    (hempty : result.status=.empty) :
    ∃ p,original=original' ∧ destination=destination' ∧ pc=.loadSequence p ∧
      (s.cells (q.index p)).sequence<p+1 := by
  cases pc with
  | loadPosition => simp [stepPop,State.setPop] at hret
  | loadSequence p =>
    simp only [stepPop,id] at hret
    split_ifs at hret with heq hlt
    · simp [State.setPop] at hret
    · simp only [State.setPop,update_self,PopCall.returned.injEq] at hret
      exact ⟨p,hret.1,hret.2.1,rfl,hlt⟩
    · simp [State.setPop] at hret
  | compareExchange p =>
    simp only [stepPop] at hret
    split_ifs at hret <;> simp [State.setPop] at hret
  | copy p pc => simp [stepPop,State.setPop] at hret
  | release p result' =>
    have hok := h.pop_ok j
    rw [hj] at hok
    obtain ⟨payload,-,hdelivery⟩ := hok
    simp only [stepPop,State.setPop,update_self,PopCall.returned.injEq] at hret
    have hres : result'=(delivery payload (p+1) original).2 := congrArg Prod.snd hdelivery
    rw [← hret.2.2.2,hres,delivery] at hempty
    split_ifs at hempty

/-- The dequeue counter waits at an unpublished position. -/
theorem waits_at_unpublished (h : Reachable (system id q ι N) s) {a : Action ι}
    (hs : step id q s a=some s')
    (hnone : ∀ i payload,¬(s.push i).Published payload s.dequeuePos) :
    s'.dequeuePos=s.dequeuePos := by
  obtain ⟨t,ht⟩ := reachable_sim h
  obtain ⟨t',ht'⟩ := reachable_sim (h.step hs)
  rcases Nat.eq_or_lt_of_le (step_counters_mono hs).2 with heq | hlt
  · exact heq.symm
  · obtain ⟨j,hj⟩ := (ht'.pop_claimed_iff s.dequeuePos).mp hlt
    rcases step_push_or_pop hs with hpop | hpush
    · rw [hpop] at hj
      exact absurd hj (unclaimed_at_dequeue ht j)
    · obtain ⟨i,payload,-,hpub,-⟩ := ht'.copiesCaptured j s.dequeuePos hj
      rw [hpush] at hpub
      exact absurd hpub (hnone i payload)

/-- A call of `empty` that has loaded its position has seen an available
message since, or the position is still the unpublished counter. -/
theorem probe_pending_or_seen (q : Ring) (i : ι) (p : ℕ) {actions : List (Action ι)}
    (hd : (run (system id q ι N) actions).probe i=.loadSequence p) :
    ((run (system id q ι N) actions).dequeuePos=p ∧
      ∀ k payload,¬((run (system id q ι N) actions).push k).Published payload p) ∨
    Sometime (system id q ι N)
      (fun m => m.probe i=.loadSequence p ∧ m.dequeuePos=p ∧ Available m) actions := by
  -- An instant at which the counter stands at `p` decides between the two.
  have hdecide : ∀ s : State ι N,Reachable (system id q ι N) s → s.dequeuePos=p →
      (s.dequeuePos=p ∧ ∀ k payload,¬(s.push k).Published payload p) ∨
        (s.dequeuePos=p ∧ Available s) := by
    intro s hr hp
    obtain ⟨t,ht⟩ := reachable_sim hr
    by_cases hpub : ∃ k payload,(s.push k).Published payload p
    · exact .inr ⟨hp,by rwa [hp],fun j => unclaimed_at_dequeue ht j⟩
    · push Not at hpub
      exact .inl ⟨hp,hpub⟩
  refine pending_or_seen (S:=system id q ι N) (G:=fun _ _ => True)
    (fun s => s.probe i=.loadSequence p)
    (fun s => s.dequeuePos=p ∧ ∀ k payload,¬(s.push k).Published payload p)
    (fun s => s.dequeuePos=p ∧ Available s) ?_ ?_ ?_ (along_of_forall (fun _ _ => trivial) _) hd
  · exact fun hidle => EmptyCall.noConfusion hidle
  · intro s a s' hr _ hs hout hin
    refine hdecide s' (hr.step hs) ?_
    rcases step_probe_cases hs i with hsame | ⟨-,-,rfl⟩ | ⟨-,rfl⟩ | ⟨p',-,rfl⟩
    · exact absurd (hsame.symm.trans hin) hout
    · simp [State.setProbe] at hin
    · simpa [State.setProbe] using hin
    · simp [State.setProbe] at hin
  · rintro s a s' hr - hs - - ⟨hp,hnone⟩
    refine hdecide s' (hr.step hs) ?_
    rw [waits_at_unpublished hr hs (by rwa [hp]),hp]

/-- A negative `empty` has seen an available message. -/
theorem available_of_probe_false (q : Ring) (i : ι) (p : ℕ) {actions : List (Action ι)}
    (h : (run (system id q ι N) actions).probe i=.returned p false) :
    Sometime (system id q ι N)
      (fun m => m.probe i=.loadSequence p ∧ m.dequeuePos=p ∧ Available m) actions := by
  obtain ⟨earlier,a,hpre,hbefore,hs,hafter⟩ :=
    exists_entry (S:=system id q ι N) (P:=fun s => s.probe i=.returned p false)
      (fun hidle => EmptyCall.noConfusion hidle) h
  refine Sometime.extend ?_ ((List.prefix_append earlier [a]).trans hpre)
  generalize hrun : run (system id q ι N) (earlier++[a])=s' at hs hafter
  rcases step_probe_cases hs i with hsame | ⟨-,-,rfl⟩ | ⟨-,rfl⟩ | ⟨p',hload,rfl⟩
  · exact absurd (hsame.symm.trans hafter) hbefore
  · simp [State.setProbe] at hafter
  · simp [State.setProbe] at hafter
  · simp only [State.setProbe,update_self,EmptyCall.returned.injEq,decide_eq_false_iff_not] at hafter
    obtain ⟨rfl,hreached⟩ := hafter
    rcases probe_pending_or_seen q i p' hload with ⟨hp,hnone⟩ | hseen
    · obtain ⟨t,ht⟩ := reachable_sim (run_reachable (system id q ι N) earlier)
      subst hp
      exact absurd (sequence_le_of_unpublished ht hnone) hreached
    · exact hseen

/-- The boundary answers given by the next step after a schedule, and those
of `empty` within it. -/
structure HonestBoundaries (q : Ring) (actions : List (Action ι)) : Prop where
  /-- A push that returns full has just loaded its cell, and reports a full
  queue at that instant. -/
  full : ∀ a s' i payload position result,step id q (run (system id q ι N) actions) a=some s' →
    (run (system id q ι N) actions).push i≠.returned payload position result →
    s'.push i=.returned payload position result → result.status=.full →
    ∃ p,(run (system id q ι N) actions).push i=.running payload (.loadSequence p) ∧
      FullReport q (run (system id q ι N) actions) p
  /-- A pop that returns empty has just loaded its cell, and reports an empty
  queue at that instant. -/
  empty : ∀ a s' j original destination position result,
    step id q (run (system id q ι N) actions) a=some s' →
    (run (system id q ι N) actions).pop j≠.returned original destination position result →
    s'.pop j=.returned original destination position result → result.status=.empty →
    ∃ p,(run (system id q ι N) actions).pop j=.running original destination (.loadSequence p) ∧
      EmptyReport (run (system id q ι N) actions) p
  /-- So does `empty` when it answers true. -/
  probe_true : ∀ a s' i p,step id q (run (system id q ι N) actions) a=some s' →
    (run (system id q ι N) actions).probe i≠.returned p true → s'.probe i=.returned p true →
    (run (system id q ι N) actions).probe i=.loadSequence p ∧
      EmptyReport (run (system id q ι N) actions) p
  /-- When `empty` answers false, a message was available at its position at
  some instant between its two loads. -/
  probe_false : ∀ i p,(run (system id q ι N) actions).probe i=.returned p false →
    Sometime (system id q ι N)
      (fun m => m.probe i=.loadSequence p ∧ m.dequeuePos=p ∧ Available m) actions

/-- Boundary answers are honest under every interleaving. -/
theorem boundary_answers_honest (q : Ring) (actions : List (Action ι)) :
    HonestBoundaries (N:=N) q actions := by
  have hr := run_reachable (system id q ι N) actions
  obtain ⟨t,ht⟩ := reachable_sim hr
  have hloaded := loaded_of_reachable hr
  refine ⟨?_,?_,?_,fun i p => available_of_probe_false q i p⟩
  · intro a s' i payload position result hs hbefore hret hfull
    rcases step_push_cases hs i with hsame | ⟨payload',-,-,rfl⟩ | ⟨payload',pc,_,-,hrun,rfl⟩
    · exact absurd (hsame.symm.trans hret) hbefore
    · simp only [State.setPush,update_self] at hret
      exact absurd hfull (enterPush_ne_full hret)
    · obtain ⟨p,rfl,rfl,hlt⟩ := behind_of_full ht hrun hret hfull
      have hle := hloaded.push i
      rw [hrun] at hle
      exact ⟨p,hrun,fullReport_of_behind ht hle hlt⟩
  · intro a s' j original destination position result hs hbefore hret hempty
    rcases step_pop_cases hs j with hsame | ⟨_,-,-,rfl⟩ | ⟨original',destination',pc,_,-,hrun,rfl⟩
    · exact absurd (hsame.symm.trans hret) hbefore
    · simp [State.setPop] at hret
    · obtain ⟨p,rfl,rfl,rfl,hlt⟩ := behind_of_empty ht hrun hret hempty
      have hle := hloaded.pop j
      rw [hrun] at hle
      exact ⟨p,hrun,emptyReport_of_behind ht hle hlt⟩
  · intro a s' i p hs hbefore hret
    rcases step_probe_cases hs i with hsame | ⟨-,-,rfl⟩ | ⟨-,rfl⟩ | ⟨p',hload,rfl⟩
    · exact absurd (hsame.symm.trans hret) hbefore
    · simp [State.setProbe] at hret
    · simp [State.setProbe] at hret
    · simp only [State.setProbe,update_self,EmptyCall.returned.injEq,decide_eq_true_eq] at hret
      obtain ⟨rfl,hlt⟩ := hret
      have hle := hloaded.probe i
      rw [hload] at hle
      exact ⟨hload,emptyReport_of_behind ht hle hlt⟩

end Returns

/-- Two pushes fill the smallest queue, a third one has loaded its position. -/
def filled : List (Action ℕ) :=
  .callPush 0 [5]::List.replicate 8 (.push 0 false)++
    .callPush 1 [6]::List.replicate 8 (.push 1 false)++[.callPush 2 [7],.push 2 false]

/-- A push has claimed the first position and not published it; a pop and a
call of `empty` have loaded theirs. -/
def claimed : List (Action ℕ) :=
  .callPush 0 [5]::List.replicate 3 (.push 0 false)++
    [.callPop 0 [9],.pop 0 false,.callEmpty 1,.empty 1]

/-- The push has published in the meantime. -/
def published : List (Action ℕ) := claimed++List.replicate 5 (.push 0 false)

/-- The boundary answers of three runs: full from a filled queue, empty and an
affirmative `empty` while the only push is inside its message, and a negative
`empty` once it has published. -/
theorem boundary_answers_honest_answered :
    ((run (system id .smallest ℕ 1) (filled++[.push 2 false])).push 2=
        .returned [7] none ⟨.full,0⟩ ∧
      ∃ p,FullReport .smallest (run (system id .smallest ℕ 1) filled) p) ∧
    ((run (system id .smallest ℕ 1) (claimed++[.pop 0 false])).pop 0=
        .returned [9] [9] none ⟨.empty,0,0⟩ ∧
      ∃ p,EmptyReport (run (system id .smallest ℕ 1) claimed) p) ∧
    ((run (system id .smallest ℕ 1) (claimed++[.empty 1])).probe 1=.returned 0 true ∧
      EmptyReport (run (system id .smallest ℕ 1) claimed) 0) ∧
    (run (system id .smallest ℕ 1) (published++[.empty 1])).probe 1=.returned 0 false ∧
      Sometime (system id .smallest ℕ 1)
        (fun m => m.probe 1=.loadSequence 0 ∧ m.dequeuePos=0 ∧ Available m)
        (published++[.empty 1]) := by
  have hfull : (run (system id .smallest ℕ 1) (filled++[.push 2 false])).push 2=
      .returned [7] none ⟨.full,0⟩ := by decide +kernel
  have hempty : (run (system id .smallest ℕ 1) (claimed++[.pop 0 false])).pop 0=
      .returned [9] [9] none ⟨.empty,0,0⟩ := by decide +kernel
  have htrue : (run (system id .smallest ℕ 1) (claimed++[.empty 1])).probe 1=
      .returned 0 true := by decide +kernel
  have hfalse : (run (system id .smallest ℕ 1) (published++[.empty 1])).probe 1=
      .returned 0 false := by decide +kernel
  have hpush := step_run (system id .smallest ℕ 1) filled (.push 2 false) (by decide +kernel)
  have hpop := step_run (system id .smallest ℕ 1) claimed (.pop 0 false) (by decide +kernel)
  have hprobe := step_run (system id .smallest ℕ 1) claimed (.empty 1) (by decide +kernel)
  obtain ⟨p,-,hfullReport⟩ := (boundary_answers_honest (N:=1) .smallest filled).full
    (.push 2 false) _ 2 _ _ _ hpush (by decide +kernel) hfull rfl
  obtain ⟨p',-,hemptyReport⟩ := (boundary_answers_honest (N:=1) .smallest claimed).empty
    (.pop 0 false) _ 0 _ _ _ _ hpop (by decide +kernel) hempty rfl
  have htrueReport := (boundary_answers_honest (N:=1) .smallest claimed).probe_true
    (.empty 1) _ 1 0 hprobe (by decide +kernel) htrue
  exact ⟨⟨hfull,p,hfullReport⟩,⟨hempty,p',hemptyReport⟩,⟨htrue,htrueReport.2⟩,hfalse,
    (boundary_answers_honest (N:=1) .smallest _).probe_false 1 0 hfalse⟩

end Line64.MpmcBoundary
