import Line64.ClaimLoop
import Line64.MpmcDelivery

/-!
# The claim loops of the MPMC queue retry only behind others

Both loops hold a position that was loaded from their counter. A push finds a
cell ahead of its position, or fails its compare-exchange, only where other
pushes have claimed in between, and the same holds for pops. So every retry
moves to a later position, retries are at most the claims of others, and a
call that is left alone returns.
-/

namespace Line64.MpmcClaimLoop

open Function Result FixedMessageAccess Transition Timeline ClaimLoop MpmcModel MpmcRefinement
open MpmcDelivery

variable {ι : Type} {N : ℕ}

/-- A push in its claim loop. -/
def pushView : PushCall → View
  | .running _ .loadPosition => .loading
  | .running _ (.loadSequence position) => .holding position
  | .running _ (.compareExchange position) => .holding position
  | _ => .outside

/-- A pop in its claim loop. -/
def popView : PopCall → View
  | .running _ _ .loadPosition => .loading
  | .running _ _ (.loadSequence position) => .holding position
  | .running _ _ (.compareExchange position) => .holding position
  | _ => .outside

/-- A call of `empty` holds the position it loaded. -/
def probeView : EmptyCall → View
  | .loadPosition => .loading
  | .loadSequence position => .holding position
  | _ => .outside

/-- The step is a retry of a push: its cell is ahead of its position, or its
compare-exchange fails. -/
def pushRetries (q : Ring) (i : ι) [DecidableEq ι] (s : State ι N) : Action ι → Bool
  | .push k spurious =>
    k=i && match s.push i with
    | .running _ (.loadSequence position) => position<(s.cells (q.index position)).sequence
    | .running _ (.compareExchange position) => ¬(s.enqueuePos=position ∧ spurious=false)
    | _ => false
  | _ => false

/-- The step is a retry of a pop. -/
def popRetries (q : Ring) (j : ι) [DecidableEq ι] (s : State ι N) : Action ι → Bool
  | .pop k spurious =>
    k=j && match s.pop j with
    | .running _ _ (.loadSequence position) => position+1<(s.cells (q.index position)).sequence
    | .running _ _ (.compareExchange position) => ¬(s.dequeuePos=position ∧ spurious=false)
    | _ => false
  | _ => false

/-- The step is a successful compare-exchange of another push. -/
def otherPushClaims (i : ι) [DecidableEq ι] (s : State ι N) (a : Action ι) : Bool :=
  match label s a with
  | some (.pushClaim k) => k≠i
  | _ => false

/-- The step is a successful compare-exchange of another pop. -/
def otherPopClaims (j : ι) [DecidableEq ι] (s : State ι N) (a : Action ι) : Bool :=
  match label s a with
  | some (.popClaim k) => k≠j
  | _ => false

/-- The action is not a spurious failure of this push. -/
def PushFair (i : ι) (a : Action ι) : Prop := a≠.push i true

/-- The action is not a spurious failure of this pop. -/
def PopFair (j : ι) (a : Action ι) : Prop := a≠.pop j true

/-- Behind its compare-exchange a push is outside of its loop. -/
@[simp] theorem pushView_afterAssign (payload : List Byte) (p : ℕ)
    (progress : Progress AssignPc WriteResult) :
    pushView (.running payload (afterAssign p progress))=.outside := by
  cases progress <;> rfl

/-- Behind its compare-exchange a push has its position. -/
@[simp] theorem position_afterAssign (payload : List Byte) (p : ℕ)
    (progress : Progress AssignPc WriteResult) :
    (PushCall.running payload (afterAssign p progress)).position=some p := by
  cases progress <;> rfl

/-- Behind its compare-exchange a pop is outside of its loop. -/
@[simp] theorem popView_afterCopy (original destination : List Byte) (p : ℕ)
    (progress : Progress CopyPc ReadResult) :
    popView (.running original destination (afterCopy p progress))=.outside := by
  cases progress <;> rfl

section Fields

variable [DecidableEq ι] {q : Ring} {s : State ι N}

/-- An access of a push leaves the other pushes alone. -/
theorem stepPush_push_of_ne {i k : ι} (hne : i≠k) (payload : List Byte) (spurious : Bool)
    (pc : PushPc) : (stepPush id q s k payload spurious pc).push i=s.push i := by
  cases pc with
  | loadSequence position =>
    simp only [stepPush]
    split_ifs <;> exact update_of_ne hne _ _
  | compareExchange position =>
    simp only [stepPush]
    split_ifs <;> exact update_of_ne hne _ _
  | _ => exact update_of_ne hne _ _

/-- An access of a pop leaves the other pops alone. -/
theorem stepPop_pop_of_ne {j k : ι} (hne : j≠k) (original destination : List Byte)
    (spurious : Bool) (pc : PopPc) :
    (stepPop id q s k original destination spurious pc).pop j=s.pop j := by
  cases pc with
  | loadSequence position =>
    simp only [stepPop]
    split_ifs <;> exact update_of_ne hne _ _
  | compareExchange position =>
    simp only [stepPop]
    split_ifs <;> exact update_of_ne hne _ _
  | _ => exact update_of_ne hne _ _

/-- A push only moves the enqueue counter, by its successful compare-exchange. -/
theorem stepPush_counters (i : ι) (payload : List Byte) (spurious : Bool) (pc : PushPc) :
    (stepPush id q s i payload spurious pc).enqueuePos=s.enqueuePos+
      (pushLabel s i spurious pc=some (.pushClaim i) : Bool).toNat ∧
    (stepPush id q s i payload spurious pc).dequeuePos=s.dequeuePos ∧
    (stepPush id q s i payload spurious pc).probe=s.probe := by
  cases pc with
  | loadSequence position =>
    simp only [stepPush]
    split_ifs <;> exact ⟨rfl,rfl,rfl⟩
  | compareExchange position =>
    simp only [stepPush,pushLabel]
    split_ifs with hcas
    · refine ⟨?_,rfl,rfl⟩
      rw [hcas.1]
      simp [State.setPush]
    · exact ⟨rfl,rfl,rfl⟩
  | assign position pc => cases pc <;> exact ⟨rfl,rfl,rfl⟩
  | _ => exact ⟨rfl,rfl,rfl⟩

/-- A pop only moves the dequeue counter, by its successful compare-exchange. -/
theorem stepPop_counters (j : ι) (original destination : List Byte) (spurious : Bool)
    (pc : PopPc) :
    (stepPop id q s j original destination spurious pc).dequeuePos=s.dequeuePos+
      (popLabel s j spurious pc=some (.popClaim j) : Bool).toNat ∧
    (stepPop id q s j original destination spurious pc).enqueuePos=s.enqueuePos ∧
    (stepPop id q s j original destination spurious pc).probe=s.probe := by
  cases pc with
  | loadSequence position =>
    simp only [stepPop]
    split_ifs <;> exact ⟨rfl,rfl,rfl⟩
  | compareExchange position =>
    simp only [stepPop,popLabel]
    split_ifs with hcas
    · refine ⟨?_,rfl,rfl⟩
      rw [hcas.1]
      simp [State.setPop]
    · exact ⟨rfl,rfl,rfl⟩
  | _ => exact ⟨rfl,rfl,rfl⟩

/-- A push is changed by its start and by its own accesses alone. -/
theorem step_push_cases {s' : State ι N} {a : Action ι} (hs : step id q s a=some s') (i : ι) :
    s'.push i=s.push i ∨
      (∃ payload,a=.callPush i payload ∧ s.push i=.idle ∧
        s'=s.setPush i (enterPush N payload)) ∨
      ∃ payload pc spurious,a=.push i spurious ∧ s.push i=.running payload pc ∧
        s'=stepPush id q s i payload spurious pc := by
  cases a with
  | callPush k payload =>
    simp only [step] at hs
    split at hs <;> cases hs
    rename_i hk
    by_cases hne : i=k
    · subst hne
      exact .inr (.inl ⟨payload,rfl,hk,rfl⟩)
    · exact .inl (update_of_ne hne _ _)
  | push k spurious =>
    simp only [step] at hs
    split at hs <;> cases hs
    rename_i payload pc hk
    by_cases hne : i=k
    · subst hne
      exact .inr (.inr ⟨payload,pc,spurious,rfl,hk,rfl⟩)
    · exact .inl (stepPush_push_of_ne hne payload spurious pc)
  | callPop k destination =>
    simp only [step] at hs
    split at hs <;> cases hs
    exact .inl rfl
  | pop k spurious =>
    simp only [step] at hs
    split at hs <;> cases hs
    rename_i original destination pc hk
    exact .inl (congrFun (stepPop_push id q s k original destination spurious pc) i)
  | callEmpty k =>
    simp only [step] at hs
    split at hs <;> cases hs
    exact .inl rfl
  | empty k =>
    simp only [step] at hs
    split at hs <;> cases hs <;> exact .inl rfl

/-- A pop is changed by its start and by its own accesses alone. -/
theorem step_pop_cases {s' : State ι N} {a : Action ι} (hs : step id q s a=some s') (j : ι) :
    s'.pop j=s.pop j ∨
      (∃ destination,a=.callPop j destination ∧ s.pop j=.idle ∧
        s'=s.setPop j (.running destination destination .loadPosition)) ∨
      ∃ original destination pc spurious,a=.pop j spurious ∧
        s.pop j=.running original destination pc ∧
        s'=stepPop id q s j original destination spurious pc := by
  cases a with
  | callPush k payload =>
    simp only [step] at hs
    split at hs <;> cases hs
    exact .inl rfl
  | push k spurious =>
    simp only [step] at hs
    split at hs <;> cases hs
    rename_i payload pc hk
    exact .inl (congrFun (stepPush_pop id q s k payload spurious pc) j)
  | callPop k destination =>
    simp only [step] at hs
    split at hs <;> cases hs
    rename_i hk
    by_cases hne : j=k
    · subst hne
      exact .inr (.inl ⟨destination,rfl,hk,rfl⟩)
    · exact .inl (update_of_ne hne _ _)
  | pop k spurious =>
    simp only [step] at hs
    split at hs <;> cases hs
    rename_i original destination pc hk
    by_cases hne : j=k
    · subst hne
      exact .inr (.inr ⟨original,destination,pc,spurious,rfl,hk,rfl⟩)
    · exact .inl (stepPop_pop_of_ne hne original destination spurious pc)
  | callEmpty k =>
    simp only [step] at hs
    split at hs <;> cases hs
    exact .inl rfl
  | empty k =>
    simp only [step] at hs
    split at hs <;> cases hs <;> exact .inl rfl

/-- A call of `empty` is changed by its start and its two loads alone. -/
theorem step_probe_cases {s' : State ι N} {a : Action ι} (hs : step id q s a=some s') (i : ι) :
    s'.probe i=s.probe i ∨
      (a=.callEmpty i ∧ s.probe i=.idle ∧ s'=s.setProbe i .loadPosition) ∨
      (s.probe i=.loadPosition ∧ s'=s.setProbe i (.loadSequence s.dequeuePos)) ∨
      ∃ p,s.probe i=.loadSequence p ∧
        s'=s.setProbe i (.returned p (decide ((s.cells (q.index p)).sequence<p+1))) := by
  cases a with
  | callPush k payload =>
    simp only [step] at hs
    split at hs <;> cases hs
    exact .inl rfl
  | push k spurious =>
    simp only [step] at hs
    split at hs <;> cases hs
    rename_i payload pc hk
    exact .inl (congrFun (stepPush_counters k payload spurious pc).2.2 i)
  | callPop k destination =>
    simp only [step] at hs
    split at hs <;> cases hs
    exact .inl rfl
  | pop k spurious =>
    simp only [step] at hs
    split at hs <;> cases hs
    rename_i original destination pc hk
    exact .inl (congrFun (stepPop_counters k original destination spurious pc).2.2 i)
  | callEmpty k =>
    simp only [step] at hs
    split at hs <;> cases hs
    rename_i hk
    by_cases hne : i=k
    · subst hne
      exact .inr (.inl ⟨rfl,hk,rfl⟩)
    · exact .inl (update_of_ne hne _ _)
  | empty k =>
    simp only [step] at hs
    split at hs <;> cases hs
    · rename_i hk
      by_cases hne : i=k
      · subst hne
        exact .inr (.inr (.inl ⟨hk,rfl⟩))
      · exact .inl (update_of_ne hne _ _)
    · rename_i p hk
      by_cases hne : i=k
      · subst hne
        exact .inr (.inr (.inr ⟨p,hk,rfl⟩))
      · exact .inl (update_of_ne hne _ _)

/-- Counters only grow. -/
theorem step_counters_mono {s' : State ι N} {a : Action ι} (hs : step id q s a=some s') :
    s.enqueuePos ≤ s'.enqueuePos ∧ s.dequeuePos ≤ s'.dequeuePos := by
  cases a with
  | push k spurious =>
    simp only [step] at hs
    split at hs <;> cases hs
    rename_i payload pc hk
    obtain ⟨he,hd,-⟩ := stepPush_counters (q:=q) (s:=s) k payload spurious pc
    rw [he,hd]
    exact ⟨Nat.le_add_right _ _,le_rfl⟩
  | pop k spurious =>
    simp only [step] at hs
    split at hs <;> cases hs
    rename_i original destination pc hk
    obtain ⟨hd,he,-⟩ := stepPop_counters (q:=q) (s:=s) k original destination spurious pc
    rw [he,hd]
    exact ⟨le_rfl,Nat.le_add_right _ _⟩
  | _ =>
    simp only [step] at hs
    split at hs <;> cases hs <;> exact ⟨le_rfl,le_rfl⟩

end Fields

section Moves

variable {q : Ring} {s s' : State ι N} {t : MpmcTla.State ι}

/-- Only an outdated position finds its cell ahead. -/
theorem behind_of_ahead_push (h : Sim q s t) {p : ℕ} (hle : p ≤ s.enqueuePos)
    (hahead : p<(s.cells (q.index p)).sequence) : p < s.enqueuePos := by
  rcases Nat.eq_or_lt_of_le hle with rfl | hlt
  · have hbound := h.inv.push_bound s.enqueuePos h.refines.enqueue.le
    rw [h.refines.sequence,← q.index_eq_mod] at hbound
    omega
  · exact hlt

/-- Only an outdated position finds its cell ahead. -/
theorem behind_of_ahead_pop (h : Sim q s t) {p : ℕ} (hle : p ≤ s.dequeuePos)
    (hahead : p+1<(s.cells (q.index p)).sequence) : p < s.dequeuePos := by
  rcases Nat.eq_or_lt_of_le hle with rfl | hlt
  · have hbound := h.inv.pop_bound s.dequeuePos h.refines.dequeue.le
    rw [h.refines.sequence,← q.index_eq_mod] at hbound
    omega
  · exact hlt

variable [DecidableEq ι]

/-- An access of the push itself is a move of its loop. -/
theorem move_of_stepPush (h : Sim q s t) {i : ι} {payload : List Byte} {pc : PushPc}
    (hi : s.push i=.running payload pc)
    (hle : reached s.enqueuePos (pushView (s.push i)) ≤ s.enqueuePos) :
    Move s.enqueuePos (pushView (s.push i)) (pushRetries q i s (.push i false)) false
      (stepPush id q s i payload false pc).enqueuePos
      (pushView ((stepPush id q s i payload false pc).push i)) := by
  rw [hi] at hle
  cases pc with
  | loadPosition =>
    simp only [pushRetries,hi,stepPush,State.setPush,update_self,decide_true,Bool.true_and]
    exact .load _
  | loadSequence p =>
    simp only [pushRetries,hi,stepPush,State.setPush]
    split_ifs with heq hlt
    · simp only [update_self,heq,lt_irrefl,decide_false,Bool.and_false]
      exact .other _ _ false
    · simp only [update_self,Nat.not_lt.mpr hlt.le,decide_false,Bool.and_false]
      exact .leave _ p
    · have hahead : p<(s.cells (q.index p)).sequence := by omega
      simp only [update_self,hahead,decide_true,Bool.true_and]
      exact .behind (behind_of_ahead_push h hle hahead)
  | compareExchange p =>
    simp only [pushRetries,hi,stepPush,State.setPush]
    split_ifs with hcas
    · simp only [update_self,hcas,pushView_afterAssign,id]
      exact .claim p
    · have hlt : p < s.enqueuePos := Nat.lt_of_le_of_ne hle fun he => hcas ⟨he.symm,trivial⟩
      simp only [update_self,hcas,not_false_eq_true,decide_true,Bool.true_and]
      exact .fail hlt
  | assign p pc =>
    simp only [pushRetries,hi,stepPush,State.setPush,update_self,pushView_afterAssign,Bool.and_false]
    exact .other _ _ false
  | publish p result =>
    simp only [pushRetries,hi,stepPush,State.setPush,update_self,Bool.and_false]
    exact .other _ _ false

/-- An access of the pop itself is a move of its loop. -/
theorem move_of_stepPop (h : Sim q s t) {j : ι} {original destination : List Byte} {pc : PopPc}
    (hj : s.pop j=.running original destination pc)
    (hle : reached s.dequeuePos (popView (s.pop j)) ≤ s.dequeuePos) :
    Move s.dequeuePos (popView (s.pop j)) (popRetries q j s (.pop j false)) false
      (stepPop id q s j original destination false pc).dequeuePos
      (popView ((stepPop id q s j original destination false pc).pop j)) := by
  rw [hj] at hle
  cases pc with
  | loadPosition =>
    simp only [popRetries,hj,stepPop,State.setPop,update_self,decide_true,Bool.true_and]
    exact .load _
  | loadSequence p =>
    simp only [popRetries,hj,stepPop,State.setPop,id]
    split_ifs with heq hlt
    · simp only [update_self,heq,lt_irrefl,decide_false,Bool.and_false]
      exact .other _ _ false
    · simp only [update_self,Nat.not_lt.mpr hlt.le,decide_false,Bool.and_false]
      exact .leave _ p
    · have hahead : p+1<(s.cells (q.index p)).sequence := by omega
      simp only [update_self,hahead,decide_true,Bool.true_and]
      exact .behind (behind_of_ahead_pop h hle hahead)
  | compareExchange p =>
    simp only [popRetries,hj,stepPop,State.setPop]
    split_ifs with hcas
    · simp only [update_self,hcas,id]
      exact .claim p
    · have hlt : p < s.dequeuePos := Nat.lt_of_le_of_ne hle fun he => hcas ⟨he.symm,trivial⟩
      simp only [update_self,hcas,not_false_eq_true,decide_true,Bool.true_and]
      exact .fail hlt
  | copy p pc =>
    simp only [popRetries,hj,stepPop,State.setPop,update_self,popView_afterCopy,Bool.and_false]
    exact .other _ _ false
  | release p result =>
    simp only [popRetries,hj,stepPop,State.setPop,update_self,Bool.and_false]
    exact .other _ _ false

/-- Pushes claim for themselves. -/
theorem otherPushClaims_push {i k : ι} {payload : List Byte} {pc : PushPc} {spurious : Bool}
    (hk : s.push k=.running payload pc) :
    otherPushClaims i s (.push k spurious)=
      (k≠i ∧ pushLabel s k spurious pc=some (.pushClaim k) : Bool) := by
  simp only [otherPushClaims,label,hk]
  cases pc with
  | compareExchange p =>
    simp only [pushLabel]
    split_ifs <;> simp
  | assign p pc => cases pc <;> simp [pushLabel]
  | _ => simp [pushLabel]

/-- Pops claim for themselves. -/
theorem otherPopClaims_pop {j k : ι} {original destination : List Byte} {pc : PopPc}
    {spurious : Bool} (hk : s.pop k=.running original destination pc) :
    otherPopClaims j s (.pop k spurious)=
      (k≠j ∧ popLabel s k spurious pc=some (.popClaim k) : Bool) := by
  simp only [otherPopClaims,label,hk]
  cases pc with
  | compareExchange p =>
    simp only [popLabel]
    split_ifs <;> simp
  | _ => simp [popLabel]

/-- Pops claim no position of a push. -/
theorem otherPushClaims_pop {i k : ι} {original destination : List Byte} {pc : PopPc}
    {spurious : Bool} (hk : s.pop k=.running original destination pc) :
    otherPushClaims i s (.pop k spurious)=false := by
  simp only [otherPushClaims,label,hk]
  cases pc with
  | compareExchange p =>
    simp only [popLabel]
    split_ifs <;> rfl
  | _ => rfl

/-- Pushes claim no position of a pop. -/
theorem otherPopClaims_push {j k : ι} {payload : List Byte} {pc : PushPc} {spurious : Bool}
    (hk : s.push k=.running payload pc) : otherPopClaims j s (.push k spurious)=false := by
  simp only [otherPopClaims,label,hk]
  cases pc with
  | compareExchange p =>
    simp only [pushLabel]
    split_ifs <;> rfl
  | assign p pc => cases pc <;> rfl
  | _ => rfl

/-- Every fair step is a move of the loop of a push. -/
theorem push_move (h : Sim q s t) (i : ι)
    (hle : reached s.enqueuePos (pushView (s.push i)) ≤ s.enqueuePos) {a : Action ι}
    (hfair : PushFair i a) (hs : step id q s a=some s') :
    Move s.enqueuePos (pushView (s.push i)) (pushRetries q i s a) (otherPushClaims i s a)
      s'.enqueuePos (pushView (s'.push i)) := by
  cases a with
  | callPush k payload =>
    simp only [step] at hs
    split at hs <;> cases hs
    rename_i hk
    by_cases hne : i=k
    · subst hne
      simp only [hk,enterPush,State.setPush]
      split_ifs
      · simp only [update_self]
        exact .other _ _ false
      · simp only [update_self]
        exact .enter _
    · simp only [State.setPush,update_of_ne hne]
      exact .other _ _ false
  | push k spurious =>
    simp only [step] at hs
    split at hs <;> cases hs
    rename_i payload pc hk
    by_cases hne : i=k
    · subst hne
      cases spurious with
      | true => exact absurd rfl hfair
      | false =>
        have hown : otherPushClaims i s (.push i false)=false := by
          simp [otherPushClaims_push hk]
        rw [hown]
        exact move_of_stepPush h hk hle
    · have hretry : pushRetries q i s (.push k spurious)=false := by
        simp [pushRetries,Ne.symm hne]
      have hclaims : otherPushClaims i s (.push k spurious)=
          (pushLabel s k spurious pc=some (.pushClaim k) : Bool) := by
        simp [otherPushClaims_push hk,Ne.symm hne]
      rw [hretry,hclaims,(stepPush_counters k payload spurious pc).1,
        stepPush_push_of_ne hne payload spurious pc]
      exact .other _ _ _
  | callPop k destination =>
    simp only [step] at hs
    split at hs <;> cases hs
    exact .other _ _ false
  | pop k spurious =>
    simp only [step] at hs
    split at hs <;> cases hs
    rename_i original destination pc hk
    rw [otherPushClaims_pop hk,(stepPop_counters k original destination spurious pc).2.1,stepPop_push]
    exact .other _ _ false
  | callEmpty k =>
    simp only [step] at hs
    split at hs <;> cases hs
    exact .other _ _ false
  | empty k =>
    simp only [step] at hs
    split at hs <;> cases hs <;> exact .other _ _ false

/-- Every fair step is a move of the loop of a pop. -/
theorem pop_move (h : Sim q s t) (j : ι)
    (hle : reached s.dequeuePos (popView (s.pop j)) ≤ s.dequeuePos) {a : Action ι}
    (hfair : PopFair j a) (hs : step id q s a=some s') :
    Move s.dequeuePos (popView (s.pop j)) (popRetries q j s a) (otherPopClaims j s a)
      s'.dequeuePos (popView (s'.pop j)) := by
  cases a with
  | callPop k destination =>
    simp only [step] at hs
    split at hs <;> cases hs
    rename_i hk
    by_cases hne : j=k
    · subst hne
      simp only [hk,State.setPop,update_self]
      exact .enter _
    · simp only [State.setPop,update_of_ne hne]
      exact .other _ _ false
  | pop k spurious =>
    simp only [step] at hs
    split at hs <;> cases hs
    rename_i original destination pc hk
    by_cases hne : j=k
    · subst hne
      cases spurious with
      | true => exact absurd rfl hfair
      | false =>
        have hown : otherPopClaims j s (.pop j false)=false := by
          simp [otherPopClaims_pop hk]
        rw [hown]
        exact move_of_stepPop h hk hle
    · have hretry : popRetries q j s (.pop k spurious)=false := by
        simp [popRetries,Ne.symm hne]
      have hclaims : otherPopClaims j s (.pop k spurious)=
          (popLabel s k spurious pc=some (.popClaim k) : Bool) := by
        simp [otherPopClaims_pop hk,Ne.symm hne]
      rw [hretry,hclaims,(stepPop_counters k original destination spurious pc).1,
        stepPop_pop_of_ne hne original destination spurious pc]
      exact .other _ _ _
  | callPush k payload =>
    simp only [step] at hs
    split at hs <;> cases hs
    exact .other _ _ false
  | push k spurious =>
    simp only [step] at hs
    split at hs <;> cases hs
    rename_i payload pc hk
    rw [otherPopClaims_push hk,(stepPush_counters k payload spurious pc).2.1,stepPush_pop]
    exact .other _ _ false
  | callEmpty k =>
    simp only [step] at hs
    split at hs <;> cases hs
    exact .other _ _ false
  | empty k =>
    simp only [step] at hs
    split at hs <;> cases hs <;> exact .other _ _ false

/-- A spurious failure loads the counter, any other access ignores the flag. -/
theorem stepPush_spurious (i : ι) (payload : List Byte) (pc : PushPc) :
    stepPush id q s i payload true pc=stepPush id q s i payload false pc ∨
      stepPush id q s i payload true pc=
        s.setPush i (.running payload (.loadSequence s.enqueuePos)) := by
  cases pc with
  | compareExchange p => exact .inr (if_neg (by simp))
  | _ => exact .inl rfl

/-- A spurious failure loads the counter, any other access ignores the flag. -/
theorem stepPop_spurious (j : ι) (original destination : List Byte) (pc : PopPc) :
    stepPop id q s j original destination true pc=stepPop id q s j original destination false pc ∨
      stepPop id q s j original destination true pc=
        s.setPop j (.running original destination (.loadSequence s.dequeuePos)) := by
  cases pc with
  | compareExchange p => exact .inr (if_neg (by simp))
  | _ => exact .inl rfl

/-- No call holds a position that its counter has not reached. -/
structure Loaded (s : State ι N) : Prop where
  /-- Positions held by pushes. -/
  push : ∀ i,reached s.enqueuePos (pushView (s.push i)) ≤ s.enqueuePos
  /-- Positions held by pops. -/
  pop : ∀ j,reached s.dequeuePos (popView (s.pop j)) ≤ s.dequeuePos
  /-- Positions held by calls of `empty`. -/
  probe : ∀ i,reached s.dequeuePos (probeView (s.probe i)) ≤ s.dequeuePos

/-- Pushes keep within the enqueue counter. -/
theorem Loaded.push_step (hl : Loaded s) (h : Sim q s t) {a : Action ι}
    (hs : step id q s a=some s') (i : ι) :
    reached s'.enqueuePos (pushView (s'.push i)) ≤ s'.enqueuePos := by
  by_cases hfair : PushFair i a
  · exact (push_move h i (hl.push i) hfair hs).reached_le (hl.push i)
  · have ha : a=.push i true := not_not.mp hfair
    subst ha
    simp only [step] at hs
    split at hs <;> cases hs
    rename_i payload pc hi
    rcases stepPush_spurious (q:=q) (s:=s) i payload pc with hsame | hload
    · rw [hsame]
      exact (move_of_stepPush h hi (hl.push i)).reached_le (hl.push i)
    · rw [hload]
      simp [State.setPush,pushView,reached]

/-- Pops keep within the dequeue counter. -/
theorem Loaded.pop_step (hl : Loaded s) (h : Sim q s t) {a : Action ι}
    (hs : step id q s a=some s') (j : ι) :
    reached s'.dequeuePos (popView (s'.pop j)) ≤ s'.dequeuePos := by
  by_cases hfair : PopFair j a
  · exact (pop_move h j (hl.pop j) hfair hs).reached_le (hl.pop j)
  · have ha : a=.pop j true := not_not.mp hfair
    subst ha
    simp only [step] at hs
    split at hs <;> cases hs
    rename_i original destination pc hj
    rcases stepPop_spurious (q:=q) (s:=s) j original destination pc with hsame | hload
    · rw [hsame]
      exact (move_of_stepPop h hj (hl.pop j)).reached_le (hl.pop j)
    · rw [hload]
      simp [State.setPop,popView,reached]

/-- Calls of `empty` keep within the dequeue counter. -/
theorem Loaded.probe_step (hl : Loaded s) {a : Action ι} (hs : step id q s a=some s') (i : ι) :
    reached s'.dequeuePos (probeView (s'.probe i)) ≤ s'.dequeuePos := by
  rcases step_probe_cases hs i with hsame | ⟨-,-,rfl⟩ | ⟨-,rfl⟩ | ⟨p,-,rfl⟩
  · have hold := hl.probe i
    rw [hsame]
    cases hv : probeView (s.probe i) with
    | holding p =>
      rw [hv] at hold
      exact hold.trans (step_counters_mono hs).2
    | _ => exact le_rfl
  · simp [State.setProbe,probeView,reached]
  · simp [State.setProbe,probeView,reached]
  · simp [State.setProbe,probeView,reached]

/-- Held positions are within the counters in every reachable state. -/
theorem loaded_of_reachable (h : Reachable (system id q ι N) s) : Loaded s := by
  refine Reachable.invariant (I:=Loaded) ⟨?_,?_,?_⟩ ?_ h
  · exact fun _ => le_rfl
  · exact fun _ => le_rfl
  · exact fun _ => le_rfl
  intro s a s' hr hl hs
  obtain ⟨t,ht⟩ := reachable_sim hr
  exact ⟨hl.push_step ht hs,hl.pop_step ht hs,hl.probe_step hs⟩

/-- The loop of a push, over all reachable states. -/
theorem push_follows (q : Ring) (i : ι) :
    Follows (system id q ι N) (Reachable (system id q ι N)) (PushFair i) State.enqueuePos
      (fun s => pushView (s.push i)) (pushRetries q i) (otherPushClaims i) := by
  intro s a s' hr hfair hs
  obtain ⟨t,ht⟩ := reachable_sim hr
  exact ⟨hr.step hs,push_move ht i ((loaded_of_reachable hr).push i) hfair hs⟩

/-- The loop of a pop, over all reachable states. -/
theorem pop_follows (q : Ring) (j : ι) :
    Follows (system id q ι N) (Reachable (system id q ι N)) (PopFair j) State.dequeuePos
      (fun s => popView (s.pop j)) (popRetries q j) (otherPopClaims j) := by
  intro s a s' hr hfair hs
  obtain ⟨t,ht⟩ := reachable_sim hr
  exact ⟨hr.step hs,pop_move ht j ((loaded_of_reachable hr).pop j) hfair hs⟩

end Moves

section Alone

variable [DecidableEq ι] {q : Ring} {s : State ι N}

/-- The push has returned. -/
def PushReturned (call : PushCall) : Prop :=
  ∃ payload position result,call=.returned payload position result

/-- The pop has returned. -/
def PopReturned (call : PopCall) : Prop :=
  ∃ original destination position result,call=.returned original destination position result

/-- A push that has claimed its position returns. -/
theorem claimed_push_finishes {i : ι} {p : ℕ} (hp : (s.push i).position=some p) :
    LeadsTo (system id q ι N) (.push i false) (fun s => PushReturned (s.push i)) s :=
  (push_returns hp).mono fun _ ⟨payload,result,hi⟩ => ⟨payload,some p,result,hi⟩

/-- A push whose compare-exchange holds the present counter claims. -/
theorem current_push_finishes {i : ι} {payload : List Byte}
    (hi : s.push i=.running payload (.compareExchange s.enqueuePos)) :
    LeadsTo (system id q ι N) (.push i false) (fun s => PushReturned (s.push i)) s := by
  refine .next (push_enabled hi) (claimed_push_finishes (p:=s.enqueuePos) ?_)
  simp only [stepPush,and_self,if_true,State.setPush,update_self,position_afterAssign]

/-- A push that has just loaded the counter claims or finds the queue full. -/
theorem fresh_push_finishes (hr : Reachable (system id q ι N) s) {i : ι} {payload : List Byte}
    (hi : s.push i=.running payload (.loadSequence s.enqueuePos)) :
    LeadsTo (system id q ι N) (.push i false) (fun s => PushReturned (s.push i)) s := by
  obtain ⟨t,ht⟩ := reachable_sim hr
  have hstep := push_enabled (q:=q) hi
  rcases Nat.lt_trichotomy (s.cells (q.index s.enqueuePos)).sequence s.enqueuePos with
    hlt | heq | hgt
  · rw [stepPush,if_neg hlt.ne,if_pos hlt] at hstep
    exact .next hstep (.now ⟨payload,none,⟨.full,0⟩,update_self ..⟩)
  · rw [stepPush,if_pos heq] at hstep
    exact .next hstep (current_push_finishes (update_self ..))
  · exact absurd (behind_of_ahead_push ht le_rfl hgt) (lt_irrefl _)

/-- A push that loads the counter next. -/
theorem loading_push_finishes (hr : Reachable (system id q ι N) s) {i : ι} {payload : List Byte}
    (hi : s.push i=.running payload .loadPosition) :
    LeadsTo (system id q ι N) (.push i false) (fun s => PushReturned (s.push i)) s := by
  have hstep := push_enabled (q:=q) hi
  exact .next hstep (fresh_push_finishes (hr.step hstep) (update_self ..))

/-- A push at its compare-exchange. -/
theorem exchanging_push_finishes (hr : Reachable (system id q ι N) s) {i : ι}
    {payload : List Byte} {p : ℕ} (hi : s.push i=.running payload (.compareExchange p)) :
    LeadsTo (system id q ι N) (.push i false) (fun s => PushReturned (s.push i)) s := by
  by_cases hp : s.enqueuePos=p
  · subst hp
    exact current_push_finishes hi
  · have hstep := push_enabled (q:=q) hi
    rw [stepPush,if_neg (fun h => hp h.1)] at hstep
    exact .next hstep (fresh_push_finishes (hr.step hstep) (update_self ..))

/-- A push that is left alone returns, from every reachable state. -/
theorem push_finishes (hr : Reachable (system id q ι N) s) {i : ι} {payload : List Byte}
    {pc : PushPc} (hi : s.push i=.running payload pc) :
    LeadsTo (system id q ι N) (.push i false) (fun s => PushReturned (s.push i)) s := by
  cases pc with
  | loadPosition => exact loading_push_finishes hr hi
  | loadSequence p =>
    have hstep := push_enabled (q:=q) hi
    rcases Nat.lt_trichotomy (s.cells (q.index p)).sequence p with hlt | heq | hgt
    · rw [stepPush,if_neg hlt.ne,if_pos hlt] at hstep
      exact .next hstep (.now ⟨payload,none,⟨.full,0⟩,update_self ..⟩)
    · rw [stepPush,if_pos heq] at hstep
      exact .next hstep (exchanging_push_finishes (hr.step hstep) (update_self ..))
    · rw [stepPush,if_neg hgt.ne',if_neg hgt.asymm] at hstep
      exact .next hstep (loading_push_finishes (hr.step hstep) (update_self ..))
  | compareExchange p => exact exchanging_push_finishes hr hi
  | assign p pc => exact claimed_push_finishes (p:=p) (by rw [hi]; rfl)
  | publish p result => exact claimed_push_finishes (p:=p) (by rw [hi]; rfl)

/-- A pop that has claimed its position returns. -/
theorem claimed_pop_finishes {j : ι} {p : ℕ} (hp : (s.pop j).position=some p) :
    LeadsTo (system id q ι N) (.pop j false) (fun s => PopReturned (s.pop j)) s :=
  (pop_returns hp).mono fun _ ⟨original,destination,result,hj⟩ =>
    ⟨original,destination,some p,result,hj⟩

/-- A pop whose compare-exchange holds the present counter claims. -/
theorem current_pop_finishes {j : ι} {original destination : List Byte}
    (hj : s.pop j=.running original destination (.compareExchange s.dequeuePos)) :
    LeadsTo (system id q ι N) (.pop j false) (fun s => PopReturned (s.pop j)) s := by
  refine .next (pop_enabled hj) (claimed_pop_finishes (p:=s.dequeuePos) ?_)
  simp only [stepPop,and_self,if_true,State.setPop,update_self]
  rfl

/-- A pop that has just loaded the counter claims or finds the queue empty. -/
theorem fresh_pop_finishes (hr : Reachable (system id q ι N) s) {j : ι}
    {original destination : List Byte}
    (hj : s.pop j=.running original destination (.loadSequence s.dequeuePos)) :
    LeadsTo (system id q ι N) (.pop j false) (fun s => PopReturned (s.pop j)) s := by
  obtain ⟨t,ht⟩ := reachable_sim hr
  have hstep := pop_enabled (q:=q) hj
  rcases Nat.lt_trichotomy (s.cells (q.index s.dequeuePos)).sequence (s.dequeuePos+1) with
    hlt | heq | hgt
  · simp only [stepPop,id,if_neg hlt.ne,if_pos hlt] at hstep
    exact .next hstep (.now ⟨original,destination,none,⟨.empty,0,0⟩,update_self ..⟩)
  · simp only [stepPop,id,if_pos heq] at hstep
    exact .next hstep (current_pop_finishes (update_self ..))
  · exact absurd (behind_of_ahead_pop ht le_rfl hgt) (lt_irrefl _)

/-- A pop that loads the counter next. -/
theorem loading_pop_finishes (hr : Reachable (system id q ι N) s) {j : ι}
    {original destination : List Byte} (hj : s.pop j=.running original destination .loadPosition) :
    LeadsTo (system id q ι N) (.pop j false) (fun s => PopReturned (s.pop j)) s := by
  have hstep := pop_enabled (q:=q) hj
  exact .next hstep (fresh_pop_finishes (hr.step hstep) (update_self ..))

/-- A pop at its compare-exchange. -/
theorem exchanging_pop_finishes (hr : Reachable (system id q ι N) s) {j : ι}
    {original destination : List Byte} {p : ℕ}
    (hj : s.pop j=.running original destination (.compareExchange p)) :
    LeadsTo (system id q ι N) (.pop j false) (fun s => PopReturned (s.pop j)) s := by
  by_cases hp : s.dequeuePos=p
  · subst hp
    exact current_pop_finishes hj
  · have hstep := pop_enabled (q:=q) hj
    rw [stepPop,if_neg (fun h => hp h.1)] at hstep
    exact .next hstep (fresh_pop_finishes (hr.step hstep) (update_self ..))

/-- A pop that is left alone returns, from every reachable state. -/
theorem pop_finishes (hr : Reachable (system id q ι N) s) {j : ι}
    {original destination : List Byte} {pc : PopPc}
    (hj : s.pop j=.running original destination pc) :
    LeadsTo (system id q ι N) (.pop j false) (fun s => PopReturned (s.pop j)) s := by
  cases pc with
  | loadPosition => exact loading_pop_finishes hr hj
  | loadSequence p =>
    have hstep := pop_enabled (q:=q) hj
    rcases Nat.lt_trichotomy (s.cells (q.index p)).sequence (p+1) with hlt | heq | hgt
    · simp only [stepPop,id,if_neg hlt.ne,if_pos hlt] at hstep
      exact .next hstep (.now ⟨original,destination,none,⟨.empty,0,0⟩,update_self ..⟩)
    · simp only [stepPop,id,if_pos heq] at hstep
      exact .next hstep (exchanging_pop_finishes (hr.step hstep) (update_self ..))
    · simp only [stepPop,id,if_neg hgt.ne',if_neg hgt.asymm] at hstep
      exact .next hstep (loading_pop_finishes (hr.step hstep) (update_self ..))
  | compareExchange p => exact exchanging_pop_finishes hr hj
  | copy p pc => exact claimed_pop_finishes (p:=p) (by rw [hj]; rfl)
  | release p result => exact claimed_pop_finishes (p:=p) (by rw [hj]; rfl)

end Alone

/-- What a claim loop promises in one state: of a push. -/
structure PushLoop (q : Ring) (s : State ι N) (i : ι) [DecidableEq ι] : Prop where
  /-- The local position never exceeds the counter. -/
  position_le : ∀ position,pushView (s.push i)=.holding position → position ≤ s.enqueuePos
  /-- A retry gives up its position for good: every position held later in the
  call is larger. -/
  increases : ∀ position s',pushView (s.push i)=.holding position →
    pushRetries q i s (.push i false)=true → step id q s (.push i false)=some s' →
    ∀ later,(∀ a ∈ later,PushFair i a) → ∀ position',
      pushView ((runFrom (system id q ι N) s' later).push i)=.holding position' →
      position<position'
  /-- After a load of the counter, however the other calls are scheduled, the
  retries are at most the successful compare-exchanges of other pushes. -/
  retries_le : ∀ s',pushView (s.push i)=.loading → step id q s (.push i false)=some s' →
    ∀ later,(∀ a ∈ later,PushFair i a) →
      countFrom (system id q ι N) (pushRetries q i) s' later≤
        countFrom (system id q ι N) (otherPushClaims i) s' later
  /-- A running call that is left alone returns. -/
  finishes : ∀ payload pc,s.push i=.running payload pc →
    LeadsTo (system id q ι N) (.push i false) (fun s => PushReturned (s.push i)) s

/-- What a claim loop promises in one state: of a pop. -/
structure PopLoop (q : Ring) (s : State ι N) (j : ι) [DecidableEq ι] : Prop where
  /-- The local position never exceeds the counter. -/
  position_le : ∀ position,popView (s.pop j)=.holding position → position ≤ s.dequeuePos
  /-- A retry gives up its position for good: every position held later in the
  call is larger. -/
  increases : ∀ position s',popView (s.pop j)=.holding position →
    popRetries q j s (.pop j false)=true → step id q s (.pop j false)=some s' →
    ∀ later,(∀ a ∈ later,PopFair j a) → ∀ position',
      popView ((runFrom (system id q ι N) s' later).pop j)=.holding position' →
      position<position'
  /-- After a load of the counter, however the other calls are scheduled, the
  retries are at most the successful compare-exchanges of other pops. -/
  retries_le : ∀ s',popView (s.pop j)=.loading → step id q s (.pop j false)=some s' →
    ∀ later,(∀ a ∈ later,PopFair j a) →
      countFrom (system id q ι N) (popRetries q j) s' later≤
        countFrom (system id q ι N) (otherPopClaims j) s' later
  /-- A running call that is left alone returns. -/
  finishes : ∀ original destination pc,s.pop j=.running original destination pc →
    LeadsTo (system id q ι N) (.pop j false) (fun s => PopReturned (s.pop j)) s

variable [DecidableEq ι]

/-- In every reachable state both claim loops retry only because others made
progress, and a call without interference finishes. -/
theorem claim_loops_progress (q : Ring) {s : State ι N} (h : Reachable (system id q ι N) s)
    (i : ι) : PushLoop q s i ∧ PopLoop q s i := by
  have hloaded := loaded_of_reachable h
  refine ⟨⟨?_,?_,?_,fun _ _ hi => push_finishes h hi⟩,
    ⟨?_,?_,?_,fun _ _ _ hj => pop_finishes h hj⟩⟩
  · intro position hview
    simpa only [hview,reached] using hloaded.push i
  · intro position s' hview hretry hs later hfair position' hlater
    exact (push_follows q i).increases h hview hretry (by simp [PushFair]) hs hfair hlater
  · intro s' hview hs later hfair
    refine (push_follows q i).retries_le_of_load (h.step (a:=.push i false) hs) ?_ hfair
    cases hi : s.push i with
    | running payload pc =>
      simp only [hi,pushView] at hview
      cases pc <;> cases hview
      simp only [step,hi,Option.some.injEq] at hs
      subst hs
      simp only [stepPush,State.setPush,update_self,pushView]
    | _ =>
      rw [hi] at hview
      cases hview
  · intro position hview
    simpa only [hview,reached] using hloaded.pop i
  · intro position s' hview hretry hs later hfair position' hlater
    exact (pop_follows q i).increases h hview hretry (by simp [PopFair]) hs hfair hlater
  · intro s' hview hs later hfair
    refine (pop_follows q i).retries_le_of_load (h.step (a:=.pop i false) hs) ?_ hfair
    cases hj : s.pop i with
    | running original destination pc =>
      simp only [hj,popView] at hview
      cases pc <;> cases hview
      simp only [step,hj,Option.some.injEq] at hs
      subst hs
      simp only [stepPop,State.setPop,update_self,popView]
    | _ =>
      rw [hj] at hview
      cases hview

/-- Two pushes have loaded the same position and one of them has claimed it. -/
def lostRace : List (Action Bool) :=
  [.callPush false [1],.callPush true [2],.push false false,.push true false,.push false false,
    .push true false,.push true false]

/-- The loops in a state in which the next access of a push is a retry. -/
theorem claim_loops_progress_lost :
    pushRetries .smallest false (run (system id .smallest Bool 1) lostRace) (.push false false)=true ∧
      PushLoop .smallest (run (system id .smallest Bool 1) lostRace) false ∧
      PopLoop .smallest (run (system id .smallest Bool 1) lostRace) false :=
  ⟨by decide +kernel,claim_loops_progress .smallest (run_reachable _ _) false⟩

end Line64.MpmcClaimLoop
