import Line64.CallOrder
import Line64.MpmcClaimLoop

/-!
# Sequences of the MPMC queue respect real time

Positions are claimed from stale local values and published out of order.
A call that starts after another one has returned still claims a larger
position, because the claim itself is made on the present counter. Threads
run one call at a time, so their own sequences increase and each consumer
receives the messages of a producer in the order of its pushes.
-/

namespace Line64.MpmcOrder

open Function Result FixedMessageAccess Transition Timeline CallOrder ClaimLedger MpmcModel
open MpmcRefinement MpmcDelivery MpmcClaimLoop

variable {ι : Type} {N : ℕ}

/-- Life of a push. -/
def pushStage : PushCall → Stage
  | .idle => .idle
  | .running _ _ => .running
  | .returned _ _ _ => .returned

/-- Life of a pop. -/
def popStage : PopCall → Stage
  | .idle => .idle
  | .running _ _ _ => .running
  | .returned _ _ _ _ => .returned

/-- A pop that claims a message: it delivers or rejects it. -/
def Claims (result : ReadResult) : Prop :=
  result.status=.success ∨ result.status=.messageTooLarge

/-- Behind its compare-exchange a pop has its position. -/
@[simp] theorem position_afterCopy (original destination : List Byte) (p : ℕ)
    (progress : Progress CopyPc ReadResult) :
    (PopCall.running original destination (afterCopy p progress)).position=some p := by
  cases progress <;> rfl

/-- An idle push has no position. -/
theorem push_unclaimed {call : PushCall} (h : pushStage call=.idle) : call.position=none := by
  cases call with
  | idle => rfl
  | _ => cases h

/-- An idle pop has no position. -/
theorem pop_unclaimed {call : PopCall} (h : popStage call=.idle) : call.position=none := by
  cases call with
  | idle => rfl
  | _ => cases h

section Steps

variable [DecidableEq ι] {q : Ring} {s s' : State ι N} {a : Action ι}

/-- A push keeps the position it has claimed. -/
theorem push_position_kept (hs : step id q s a=some s') {i : ι} {p : ℕ}
    (hp : (s.push i).position=some p) : (s'.push i).position=some p := by
  rcases step_push_cases hs i with hsame | ⟨payload,-,hidle,-⟩ | ⟨payload,pc,spurious,-,hi,rfl⟩
  · rwa [hsame]
  · rw [hidle] at hp
    cases hp
  · rw [hi] at hp
    cases pc with
    | assign p' pc =>
      cases hp
      simp [stepPush,State.setPush]
    | publish p' result =>
      cases hp
      simp [stepPush,State.setPush,PushCall.position]
    | _ => cases hp

/-- A pop keeps the position it has claimed. -/
theorem pop_position_kept (hs : step id q s a=some s') {j : ι} {p : ℕ}
    (hp : (s.pop j).position=some p) : (s'.pop j).position=some p := by
  rcases step_pop_cases hs j with
    hsame | ⟨destination,-,hidle,-⟩ | ⟨original,destination,pc,spurious,-,hj,rfl⟩
  · rwa [hsame]
  · rw [hidle] at hp
    cases hp
  · rw [hj] at hp
    cases pc with
    | copy p' pc =>
      cases hp
      simp [stepPop,State.setPop]
    | release p' result =>
      cases hp
      simp [stepPop,State.setPop,PopCall.position]
    | _ => cases hp

/-- A returned push does not change. -/
theorem push_frozen (hs : step id q s a=some s') {i : ι} (h : pushStage (s.push i)=.returned) :
    s'.push i=s.push i := by
  rcases step_push_cases hs i with hsame | ⟨payload,-,hidle,-⟩ | ⟨payload,pc,spurious,-,hi,-⟩
  · exact hsame
  · rw [hidle] at h
    cases h
  · rw [hi] at h
    cases h

/-- A returned pop does not change. -/
theorem pop_frozen (hs : step id q s a=some s') {j : ι} (h : popStage (s.pop j)=.returned) :
    s'.pop j=s.pop j := by
  rcases step_pop_cases hs j with
    hsame | ⟨destination,-,hidle,-⟩ | ⟨original,destination,pc,spurious,-,hj,-⟩
  · exact hsame
  · rw [hidle] at h
    cases h
  · rw [hj] at h
    cases h

/-- The pushes are calls of the system. -/
theorem push_calls (q : Ring) :
    Calls (system id q ι N) (fun s i => pushStage (s.push i)) where
  fresh := fun _ => rfl
  alone := by
    intro s a s' i i' hs hidle hstart hne
    rcases step_push_cases hs i' with hsame | ⟨payload,-,-,rfl⟩ | ⟨payload,pc,spurious,-,hi,-⟩
    · exact absurd (congrArg pushStage hsame |>.trans hidle) hstart
    · simp only [State.setPush,update_of_ne hne]
    · rw [hi] at hidle
      cases hidle

/-- The pops are calls of the system. -/
theorem pop_calls (q : Ring) :
    Calls (system id q ι N) (fun s j => popStage (s.pop j)) where
  fresh := fun _ => rfl
  alone := by
    intro s a s' j j' hs hidle hstart hne
    rcases step_pop_cases hs j' with
      hsame | ⟨destination,-,-,rfl⟩ | ⟨original,destination,pc,spurious,-,hj,-⟩
    · exact absurd (congrArg popStage hsame |>.trans hidle) hstart
    · simp only [State.setPop,update_of_ne hne]
    · rw [hj] at hidle
      cases hidle

/-- Pushes claim from the enqueue counter. -/
theorem push_numbered (q : Ring) :
    Numbered (system id q ι N) (fun s i => pushStage (s.push i)) (fun s i => (s.push i).position)
      State.enqueuePos where
  ledger := by
    intro s hr
    obtain ⟨t,ht⟩ := reachable_sim hr
    have hledger := ht.inv.pushLedger
    rwa [ht.refines.enqueue,funext ht.refines.pushPosition_eq] at hledger
  kept := fun _ _ _ _ _ hs hp => push_position_kept hs hp
  unclaimed := fun _ _ hidle => push_unclaimed hidle
  frozen := by
    intro s a s' i hs hret
    rw [push_frozen hs hret]
    exact ⟨hret,rfl⟩

/-- Pops claim from the dequeue counter. -/
theorem pop_numbered (q : Ring) :
    Numbered (system id q ι N) (fun s j => popStage (s.pop j)) (fun s j => (s.pop j).position)
      State.dequeuePos where
  ledger := by
    intro s hr
    obtain ⟨t,ht⟩ := reachable_sim hr
    have hledger := ht.inv.popLedger
    rwa [ht.refines.dequeue,funext ht.refines.popPosition_eq] at hledger
  kept := fun _ _ _ _ _ hs hp => pop_position_kept hs hp
  unclaimed := fun _ _ hidle => pop_unclaimed hidle
  frozen := by
    intro s a s' j hs hret
    rw [pop_frozen hs hret]
    exact ⟨hret,rfl⟩

end Steps

section Results

variable {q : Ring} {s : State ι N} {t : MpmcTla.State ι}

/-- A successful push has claimed the position in front of its sequence. -/
theorem position_of_success (h : Sim q s t) {i : ι} {payload : List Byte} {position : Option ℕ}
    {result : WriteResult} (hi : s.push i=.returned payload position result)
    (hsuccess : result.status=.success) :
    ∃ p,(s.push i).position=some p ∧ result.sequence=p+1 := by
  obtain ⟨hiff,hresult⟩ := push_result_of_sim h hi
  obtain ⟨p,rfl⟩ := hiff.mp hsuccess
  exact ⟨p,by rw [hi]; rfl,by rw [hresult p rfl]⟩

/-- A pop that claims a message returns the sequence of its push. -/
theorem position_of_claims (h : Sim q s t) {j : ι} {original destination : List Byte}
    {position : Option ℕ} {result : ReadResult}
    (hj : s.pop j=.returned original destination position result) (hclaims : Claims result) :
    ∃ p i payload,(s.pop j).position=some p ∧ result.sequence=p+1 ∧
      (s.push i).Published payload p ∧ (destination,result)=delivery payload (p+1) original := by
  cases position with
  | none =>
    have hok := h.pop_ok j
    rw [hj] at hok
    obtain ⟨-,rfl⟩ := hok
    rcases hclaims with hstatus | hstatus <;> cases hstatus
  | some p =>
    obtain ⟨i,payload,hpub,hdelivery⟩ := pop_result_of_sim h hj
    have hsequence : result.sequence=p+1 := by
      have hres : result=(delivery payload (p+1) original).2 := congrArg Prod.snd hdelivery
      rw [hres,delivery]
      split_ifs <;> rfl
    exact ⟨p,i,payload,by rw [hj]; rfl,hsequence,hpub,hdelivery⟩

end Results

variable [DecidableEq ι]

/-- One push has returned before the other one starts. -/
def PushBefore (q : Ring) (N : ℕ) (actions : List (Action ι)) (i i' : ι) : Prop :=
  Before (system id q ι N) (fun s i => pushStage (s.push i)) i i' actions

/-- One pop has returned before the other one starts. -/
def PopBefore (q : Ring) (N : ℕ) (actions : List (Action ι)) (j j' : ι) : Prop :=
  Before (system id q ι N) (fun s j => popStage (s.pop j)) j j' actions

/-- Every thread runs one push at a time. -/
def PushesInTurn {θ : Type} (q : Ring) (N : ℕ) (actions : List (Action ι)) (thread : ι → θ) :
    Prop :=
  InTurn (system id q ι N) (fun s i => pushStage (s.push i)) thread actions

/-- Every thread runs one pop at a time. -/
def PopsInTurn {θ : Type} (q : Ring) (N : ℕ) (actions : List (Action ι)) (thread : ι → θ) :
    Prop :=
  InTurn (system id q ι N) (fun s j => popStage (s.pop j)) thread actions

/-- Real time order of sequences, over one schedule. -/
structure RealTime (q : Ring) (N : ℕ) (actions : List (Action ι)) (s : State ι N) : Prop where
  /-- Of two successful pushes in order, the first has the smaller sequence. -/
  push_increases : ∀ i i' payload payload' position position' result result',
    PushBefore q N actions i i' →
    s.push i=.returned payload position result → result.status=.success →
    s.push i'=.returned payload' position' result' → result'.status=.success →
    result.sequence<result'.sequence
  /-- Of two pops in order that claim a message, the first has the smaller
  sequence. -/
  pop_increases : ∀ j j' original original' destination destination' position position' result
    result',PopBefore q N actions j j' →
    s.pop j=.returned original destination position result → Claims result →
    s.pop j'=.returned original' destination' position' result' → Claims result' →
    result.sequence<result'.sequence
  /-- Any two successful pushes of one thread are in order, with increasing
  sequences. -/
  producer_increases : ∀ (θ : Type) (thread : ι → θ),PushesInTurn q N actions thread →
    ∀ i i' payload payload' position position' result result',i≠i' → thread i=thread i' →
    s.push i=.returned payload position result → result.status=.success →
    s.push i'=.returned payload' position' result' → result'.status=.success →
    (PushBefore q N actions i i' ∧ result.sequence<result'.sequence) ∨
      (PushBefore q N actions i' i ∧ result'.sequence<result.sequence)
  /-- Any two pops of one thread that claim a message are in order, with
  increasing sequences. -/
  consumer_increases : ∀ (θ : Type) (thread : ι → θ),PopsInTurn q N actions thread →
    ∀ j j' original original' destination destination' position position' result result',
    j≠j' → thread j=thread j' →
    s.pop j=.returned original destination position result → Claims result →
    s.pop j'=.returned original' destination' position' result' → Claims result' →
    (PopBefore q N actions j j' ∧ result.sequence<result'.sequence) ∨
      (PopBefore q N actions j' j ∧ result'.sequence<result.sequence)
  /-- Pops in order, those of one consumer in particular, receive the messages
  of one producer in the order in which it pushed them. -/
  receives_in_order : ∀ (θ : Type) (producer : ι → θ),PushesInTurn q N actions producer →
    ∀ j j' original original' destination destination' position position' result result',
    PopBefore q N actions j j' →
    s.pop j=.returned original destination position result → Claims result →
    s.pop j'=.returned original' destination' position' result' → Claims result' →
    ∃ p i payload p' i' payload',
      ((s.push i).Published payload p ∧ (destination,result)=delivery payload (p+1) original) ∧
      ((s.push i').Published payload' p' ∧
        (destination',result')=delivery payload' (p'+1) original') ∧
      (producer i=producer i' → PushBefore q N actions i i')

/-- Pushes in order have increasing positions. -/
theorem push_position_increases (q : Ring) {actions : List (Action ι)} {i i' : ι}
    (hb : PushBefore q N actions i i') {p p' : ℕ}
    (hp : ((run (system id q ι N) actions).push i).position=some p)
    (hp' : ((run (system id q ι N) actions).push i').position=some p') : p<p' :=
  (push_numbered q).increases hb hp hp'

/-- Pops in order have increasing positions. -/
theorem pop_position_increases (q : Ring) {actions : List (Action ι)} {j j' : ι}
    (hb : PopBefore q N actions j j') {p p' : ℕ}
    (hp : ((run (system id q ι N) actions).pop j).position=some p)
    (hp' : ((run (system id q ι N) actions).pop j').position=some p') : p<p' :=
  (pop_numbered q).increases hb hp hp'

/-- A push with a position has started. -/
theorem push_started {call : PushCall} {p : ℕ} (hp : call.position=some p) :
    pushStage call≠.idle := by
  intro hidle
  rw [push_unclaimed hidle] at hp
  cases hp

/-- A pop with a position has started. -/
theorem pop_started {call : PopCall} {p : ℕ} (hp : call.position=some p) :
    popStage call≠.idle := by
  intro hidle
  rw [pop_unclaimed hidle] at hp
  cases hp

/-- Sequences respect real time under every interleaving. -/
theorem sequences_respect_real_time (q : Ring) (actions : List (Action ι)) :
    RealTime q N actions (run (system id q ι N) actions) := by
  obtain ⟨t,ht⟩ := reachable_sim (run_reachable (system id q ι N) actions)
  refine ⟨?_,?_,?_,?_,?_⟩
  · intro i i' payload payload' position position' result result' hb hi hok hi' hok'
    obtain ⟨p,hp,hseq⟩ := position_of_success ht hi hok
    obtain ⟨p',hp',hseq'⟩ := position_of_success ht hi' hok'
    have hlt := push_position_increases q hb hp hp'
    omega
  · intro j j' original original' destination destination' position position' result result' hb
      hj hok hj' hok'
    obtain ⟨p,_,_,hp,hseq,-⟩ := position_of_claims ht hj hok
    obtain ⟨p',_,_,hp',hseq',-⟩ := position_of_claims ht hj' hok'
    have hlt := pop_position_increases q hb hp hp'
    omega
  · intro θ thread hturn i i' payload payload' position position' result result' hne hthread hi
      hok hi' hok'
    obtain ⟨p,hp,hseq⟩ := position_of_success ht hi hok
    obtain ⟨p',hp',hseq'⟩ := position_of_success ht hi' hok'
    rcases (push_calls q).ordered hturn hthread hne (push_started hp) (push_started hp') with
      hb | hb
    · have hlt := push_position_increases q hb hp hp'
      exact .inl ⟨hb,by omega⟩
    · have hlt := push_position_increases q hb hp' hp
      exact .inr ⟨hb,by omega⟩
  · intro θ thread hturn j j' original original' destination destination' position position' result
      result' hne hthread hj hok hj' hok'
    obtain ⟨p,_,_,hp,hseq,-⟩ := position_of_claims ht hj hok
    obtain ⟨p',_,_,hp',hseq',-⟩ := position_of_claims ht hj' hok'
    rcases (pop_calls q).ordered hturn hthread hne (pop_started hp) (pop_started hp') with hb | hb
    · have hlt := pop_position_increases q hb hp hp'
      exact .inl ⟨hb,by omega⟩
    · have hlt := pop_position_increases q hb hp' hp
      exact .inr ⟨hb,by omega⟩
  · intro θ producer hturn j j' original original' destination destination' position position'
      result result' hb hj hok hj' hok'
    obtain ⟨p,i,payload,hp,-,hpub,hdelivery⟩ := position_of_claims ht hj hok
    obtain ⟨p',i',payload',hp',-,hpub',hdelivery'⟩ := position_of_claims ht hj' hok'
    refine ⟨p,i,payload,p',i',payload',⟨hpub,hdelivery⟩,⟨hpub',hdelivery'⟩,?_⟩
    intro hthread
    -- The pops claimed in order, so the producer cannot have pushed in reverse.
    have hlt := pop_position_increases q hb hp hp'
    have hi := (PushCall.Published.phase hpub).2
    have hi' := (PushCall.Published.phase hpub').2
    have hne : i≠i' := by
      rintro rfl
      rw [hi] at hi'
      cases hi'
      exact lt_irrefl _ hlt
    rcases (push_calls q).ordered hturn hthread hne (push_started hi) (push_started hi') with
      hpush | hpush
    · exact hpush
    · have hgt := push_position_increases q hpush hi' hi
      omega

end Line64.MpmcOrder
