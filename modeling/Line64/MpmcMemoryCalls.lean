import Line64.MpmcMemoryDelivery

/-!
# Calls of the MPMC queue as a client sees them

What a client of the queue may rely on: which call a step changes, what it
keeps, and that a pop which claims a position claims one behind all positions
that were claimed before.
-/

namespace Line64.MpmcMemoryCalls

open Function Result FixedMessageAccess Transition ReleaseAcquire MessageRaces
open MpmcModel (Ring PushPc PushCall PopPc PopCall enterPush afterAssign afterCopy)
open MpmcMemoryModel MpmcMemoryCustody MpmcMemoryRefinement MpmcMemoryDelivery

/-- Payload of a push that was called. -/
def payloadOf : PushCall → Option (List Byte)
  | .idle => none
  | .running payload _ => some payload
  | .returned payload _ _ => some payload

/-- Destination with which a pop was called. -/
def originalOf : PopCall → Option (List Byte)
  | .idle => none
  | .running original _ _ => some original
  | .returned original _ _ _ => some original

/-- A call knows its payload from the start. -/
@[simp]
theorem payloadOf_enterPush (N : ℕ) (payload : List Byte) :
    payloadOf (enterPush N payload)=some payload := by
  unfold enterPush
  split <;> rfl

/-- A call that was just made has no position. -/
@[simp]
theorem position_enterPush (N : ℕ) (payload : List Byte) :
    (enterPush N payload).position=none := by
  unfold enterPush
  split <;> rfl

variable {ι θ : Type} [DecidableEq ι] [DecidableEq θ] {N : ℕ} {q : Ring} {thread : ι → θ}
  {s s' : State ι θ N}

/-- A push is called. -/
theorem callPush_step {i : ι} {payload : List Byte}
    (hs : step q thread s (.callPush i payload)=some s') :
    s.push i=.idle ∧ s'.push=update s.push i (enterPush N payload) ∧ s'.pop=s.pop := by
  simp only [step] at hs
  split at hs
  · rename_i hidle
    cases hs
    exact ⟨hidle,rfl,rfl⟩
  · cases hs

/-- A call that was not made can be made. -/
theorem callPush_live {i : ι} (hi : s.push i=.idle) (payload : List Byte) :
    ∃ s',step q thread s (.callPush i payload)=some s' := by
  simp only [step,hi]
  exact ⟨_,rfl⟩

/-- An access of a push. -/
theorem push_step {i : ι} {ts : ℕ} {spurious : Bool}
    (hs : step q thread s (.push i ts spurious)=some s') :
    ∃ payload pc call,s.push i=.running payload pc ∧ s'.push=update s.push i call ∧
      payloadOf call=some payload ∧ s'.pop=s.pop := by
  simp only [step] at hs
  split at hs
  · rename_i payload pc hi
    refine ⟨payload,pc,s'.push i,hi,?_⟩
    cases pc with
    | loadPosition =>
      obtain ⟨loaded,-,rfl⟩ := Option.map_eq_some_iff.mp hs
      exact ⟨by simp [State.setPush,State.setMemory],by simp [State.setPush,payloadOf],rfl⟩
    | loadSequence p =>
      obtain ⟨loaded,-,rfl⟩ := Option.map_eq_some_iff.mp hs
      refine ⟨by simp [State.setPush,State.setMemory],?_,rfl⟩
      simp only [State.setPush,update_self,testFree]
      split
      · rfl
      · split <;> rfl
    | compareExchange p =>
      obtain ⟨⟨result,history,l⟩,-,rfl⟩ := Option.map_eq_some_iff.mp hs
      refine ⟨by simp [State.setPush,State.setMemory],?_,rfl⟩
      cases result <;> simp [State.setPush,afterPushExchange,payloadOf]
    | assign p pc =>
      cases hs
      exact ⟨by simp [State.setPush,State.touch],by simp [State.setPush,payloadOf],rfl⟩
    | publish p result =>
      obtain ⟨written,-,rfl⟩ := Option.map_eq_some_iff.mp hs
      exact ⟨by simp [State.setPush,State.setMemory],by simp [State.setPush,payloadOf],rfl⟩
  · cases hs

/-- A pop is called. -/
theorem callPop_step {j : ι} {destination : List Byte}
    (hs : step q thread s (.callPop j destination)=some s') :
    s.pop j=.idle ∧ s'.pop=update s.pop j (.running destination destination .loadPosition) ∧
      s'.push=s.push := by
  simp only [step] at hs
  split at hs
  · rename_i hidle
    cases hs
    exact ⟨hidle,rfl,rfl⟩
  · cases hs

/-- A call that was not made can be made. -/
theorem callPop_live {j : ι} (hj : s.pop j=.idle) (destination : List Byte) :
    ∃ s',step q thread s (.callPop j destination)=some s' := by
  simp only [step,hj]
  exact ⟨_,rfl⟩

/-- An access of a pop. -/
theorem pop_step {j : ι} {ts : ℕ} {spurious : Bool}
    (hs : step q thread s (.pop j ts spurious)=some s') :
    ∃ original destination pc call,s.pop j=.running original destination pc ∧
      s'.pop=update s.pop j call ∧ originalOf call=some original ∧ s'.push=s.push := by
  simp only [step] at hs
  split at hs
  · rename_i original destination pc hj
    refine ⟨original,destination,pc,s'.pop j,hj,?_⟩
    cases pc with
    | loadPosition =>
      obtain ⟨loaded,-,rfl⟩ := Option.map_eq_some_iff.mp hs
      exact ⟨by simp [State.setPop,State.setMemory],by simp [State.setPop,originalOf],rfl⟩
    | loadSequence p =>
      obtain ⟨loaded,-,rfl⟩ := Option.map_eq_some_iff.mp hs
      refine ⟨by simp [State.setPop,State.setMemory],?_,rfl⟩
      simp only [State.setPop,update_self,testReady]
      split
      · rfl
      · split <;> rfl
    | compareExchange p =>
      obtain ⟨⟨result,history,l⟩,-,rfl⟩ := Option.map_eq_some_iff.mp hs
      refine ⟨by simp [State.setPop,State.setMemory],?_,rfl⟩
      cases result <;> simp [State.setPop,afterPopExchange,originalOf]
    | copy p pc =>
      cases hs
      exact ⟨by simp [State.setPop,State.touch],by simp [State.setPop,originalOf],rfl⟩
    | release p result =>
      obtain ⟨written,-,rfl⟩ := Option.map_eq_some_iff.mp hs
      exact ⟨by simp [State.setPop,State.setMemory],by simp [State.setPop,originalOf],rfl⟩
  · cases hs

/-- A claimed position is behind those that the other pops had claimed before,
unless it was claimed before itself. -/
theorem pop_claims_behind (hr : Reachable (system q thread N) s) {j : ι} {ts : ℕ}
    {spurious : Bool} (hs : step q thread s (.pop j ts spurious)=some s') {p : ℕ}
    (hp : (s'.pop j).position=some p) (hnew : (s.pop j).position≠some p) {j' : ι} {p' : ℕ}
    (hp' : (s.pop j').position=some p') : p'<p := by
  obtain ⟨t,e,d,number,holder,hsim,-⟩ := reachable_related hr
  obtain ⟨t',e',d',number',holder',hsim',-⟩ := reachable_related (hr.step (a:=.pop j ts spurious) hs)
  obtain ⟨original,destination,pc,call,-,hpop,-⟩ := pop_step hs
  have hclaims := hsim.pop_claimed_iff
  have hbelow : p'<d := (hclaims p').mpr ⟨j',hp'⟩
  by_contra hle
  obtain ⟨j'',hj''⟩ := (hclaims p).mp (Nat.lt_of_le_of_lt (Nat.le_of_not_lt hle) hbelow)
  have hsame : (s'.pop j'').position=some p := by
    rw [hpop]
    by_cases he : j''=j
    · subst he
      exact absurd hj'' hnew
    · rw [update_of_ne he]
      exact hj''
  have hunique : j''=j := hsim'.pop_unique hsame hp
  subst hunique
  exact hnew hj''

/-- A push that fits and was refused found the queue full. -/
theorem refused_full (hr : Reachable (system q thread N) s) {i : ι} {payload : List Byte}
    {result : WriteResult} (hi : s.push i=.returned payload none result)
    (hfits : payload.length≤N) : result=⟨.full,0⟩ := by
  obtain ⟨t,e,d,number,holder,hsim,-⟩ := reachable_related hr
  have hpush : (flat s e d number).push i=.returned payload none result := hi
  have hok := hsim.push_ok i
  rw [hpush] at hok
  rcases hok with hfull | ⟨hlong,-⟩
  · exact hfull
  · omega

end Line64.MpmcMemoryCalls
