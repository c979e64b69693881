import Line64.MpmcMemoryCustody

/-!
# The MPMC memory orders refine the specification

The state described by the last stores keeps its relation to the
specification although the threads load outdated values. A position that was
tested with an outdated sequence is tested again by the compare-exchange,
which only ever exchanges the last position. Each access of the code is one
action of the specification or invisible, whatever its loads return.
-/

namespace Line64.MpmcMemoryRefinement

open Function Result FixedMessageAccess Transition ReleaseAcquire MessageRaces SlotCustody
open MpmcModel (Ring Cell PushPc PushCall PopPc PopCall EmptyCall afterAssign afterCopy enterPush)
open MpmcRefinement (Sim)
open MpmcMemoryModel MpmcMemoryCustody

variable {ι θ : Type} {N : ℕ}

/-- The message of one cell is replaced. -/
theorem cells_message (number : ℕ → ℕ) (messages : ℕ → FixedMessage N) (index : ℕ)
    (message : FixedMessage N) :
    update (fun other => (⟨number other,messages other⟩ : Cell N)) index ⟨number index,message⟩=
      fun other => ⟨number other,update messages index message other⟩ := by
  funext other
  by_cases ho : other=index
  · subst ho
    rw [update_self,update_self]
  · rw [update_of_ne ho,update_of_ne ho]

/-- The sequence of one cell is replaced. -/
theorem cells_sequence (number : ℕ → ℕ) (messages : ℕ → FixedMessage N) (index value : ℕ) :
    update (fun other => (⟨number other,messages other⟩ : Cell N)) index ⟨value,messages index⟩=
      fun other => ⟨update number index value other,messages other⟩ := by
  funext other
  by_cases ho : other=index
  · subst ho
    rw [update_self,update_self]
  · rw [update_of_ne ho,update_of_ne ho]

section Simulation

variable [DecidableEq ι] [DecidableEq θ]

/-- Action of the specification performed by an access of a push. -/
def pushLabel (s : State ι θ N) (t : θ) (i : ι) (ts : ℕ) (spurious : Bool) :
    PushPc → Option (MpmcTla.Action ι)
  | .compareExchange position =>
    match compareExchange s.history (s.views t) .enqueuePos ts position (position+1) spurious with
    | some (.stored,_) => some (.pushClaim i)
    | _ => none
  | .assign _ .storeSequence => some (.pushWrite i)
  | .publish _ _ => some (.pushPublish i)
  | _ => none

/-- Action of the specification performed by an access of a pop. -/
def popLabel (s : State ι θ N) (t : θ) (j : ι) (ts : ℕ) (spurious : Bool) :
    PopPc → Option (MpmcTla.Action ι)
  | .compareExchange position =>
    match compareExchange s.history (s.views t) .dequeuePos ts position (position+1) spurious with
    | some (.stored,_) => some (.popClaim j)
    | _ => none
  | .release _ _ => some (.popRelease j)
  | _ => none

/-- Action of the specification performed by a scheduled step, if any. -/
def label (thread : ι → θ) (s : State ι θ N) : Action ι → Option (MpmcTla.Action ι)
  | .push i ts spurious =>
    match s.push i with
    | .running _ pc => pushLabel s (thread i) i ts spurious pc
    | _ => none
  | .pop j ts spurious =>
    match s.pop j with
    | .running _ _ pc => popLabel s (thread j) j ts spurious pc
    | _ => none
  | _ => none

/-- A step is matched by the action with its label, or invisible. -/
def Simulated (q : Ring) (thread : ι → θ) (t : MpmcTla.State ι)
    (announced : Option (MpmcTla.Action ι)) (s : State ι θ N) : Prop :=
  (announced=none ∧ Related q thread s t) ∨
    ∃ l t',announced=some l ∧ MpmcTla.Next q.capacity l t t' ∧ Related q thread s t'

variable {q : Ring} {thread : ι → θ} {s s' : State ι θ N} {t : MpmcTla.State ι}
  {e d : ℕ} {number : ℕ → ℕ} {holder : ℕ → Option θ}

/-- A push before its claim learns something and goes on. -/
theorem push_looks (hsim : Sim q (flat s e d number) t) {i : ι} {l : Local θ Place}
    (hm : MemoryOk q thread (s.setMemory (thread i) s.history l) e d number holder)
    {call : PushCall} (hphase : MpmcRefinement.pushPhase (s.push i)=.idle)
    (hpos : (s.push i).position=none) (hphase' : MpmcRefinement.pushPhase call=.idle)
    (hpos' : call.position=none) (hpay : ¬call.inPayload)
    (hok : MpmcRefinement.PushOk q (flat s e d number).cells call)
    (htested : ∀ payload p,call=.running payload (.compareExchange p) →
      Acquired s.history l (.sequence (q.index p)) p) :
    Related q thread ((s.setMemory (thread i) s.history l).setPush i call) t := by
  have hphases : MpmcRefinement.pushPhase call=MpmcRefinement.pushPhase (s.push i) := by
    rw [hphase,hphase']
  have hold : MpmcRefinement.pushPhase (s.push i)≠.published := by
    rw [hphase]
    decide
  refine ⟨e,d,number,holder,hsim.push_local hphases (by rw [hpos']; exact hpos.symm) hold hok,?_⟩
  refine hm.setPush (fun p hp => absurd hp hpay) ?_
  intro payload p hcall
  rw [State.setMemory_views,update_self]
  exact htested payload p hcall

/-- A pop before its claim learns something and goes on. -/
theorem pop_looks (hsim : Sim q (flat s e d number) t) {j : ι} {l : Local θ Place}
    (hm : MemoryOk q thread (s.setMemory (thread j) s.history l) e d number holder)
    {call : PopCall} (hphase : MpmcRefinement.popPhase (s.pop j)=.idle)
    (hpos : (s.pop j).position=none) (hphase' : MpmcRefinement.popPhase call=.idle)
    (hpos' : call.position=none) (hpay : ¬call.inPayload)
    (hok : MpmcRefinement.PopOk q (flat s e d number).cells s.push (t.popValue j) call)
    (htested : ∀ original destination p,
      call=.running original destination (.compareExchange p) →
      Acquired s.history l (.sequence (q.index p)) (p+1)) :
    Related q thread ((s.setMemory (thread j) s.history l).setPop j call) t := by
  have hphases : MpmcRefinement.popPhase call=MpmcRefinement.popPhase (s.pop j) := by
    rw [hphase,hphase']
  refine ⟨e,d,number,holder,hsim.pop_local hphases (by rw [hpos']; exact hpos.symm) hok,?_⟩
  refine hm.setPop (fun p hp => absurd hp hpay) ?_
  intro original destination p hcall
  rw [State.setMemory_views,update_self]
  exact htested original destination p hcall

/-- The push loads a cell sequence and tests it. -/
theorem push_tests (hsim : Sim q (flat s e d number) t)
    (hm : MemoryOk q thread s e d number holder) {i : ι} {payload : List Byte} {p ts value : ℕ}
    {l : Local θ Place} (hi : s.push i=.running payload (.loadSequence p))
    (hl : load s.history (s.views (thread i)) .acquire (.sequence (q.index p)) ts=
      some (value,l)) :
    Related q thread ((s.setMemory (thread i) s.history l).setPush i
      (testFree payload p value)) t := by
  have hok := hsim.push_ok i
  rw [show (flat s e d number).push i=_ from hi] at hok
  have hle : value ≤ number (q.index p) := by
    obtain ⟨m,hmsg,-,rfl,-⟩ := load_eq_some hl
    exact (hm.custody (q.index p)).value_le hmsg
  have hacq := acquired_of_load hl
  have hidle : MpmcRefinement.pushPhase (s.push i)=.idle := by rw [hi]; rfl
  have hnone : (s.push i).position=none := by rw [hi]; rfl
  have hpay := testFree_not_inPayload payload p value
  unfold testFree at hpay ⊢
  split_ifs at hpay ⊢ with heq hlt
  · subst heq
    refine push_looks hsim (hm.load hl) hidle hnone rfl rfl hpay ⟨hok,hle⟩ ?_
    rintro payload' p' he
    cases he
    exact hacq
  · exact push_looks hsim (hm.load hl) hidle hnone rfl rfl hpay (.inl rfl)
      (fun _ _ he => by cases he)
  · exact push_looks hsim (hm.load hl) hidle hnone rfl rfl hpay hok (fun _ _ he => by cases he)

/-- The pop loads a cell sequence and tests it. -/
theorem pop_tests (hsim : Sim q (flat s e d number) t)
    (hm : MemoryOk q thread s e d number holder) {j : ι} {original destination : List Byte}
    {p ts value : ℕ} {l : Local θ Place}
    (hj : s.pop j=.running original destination (.loadSequence p))
    (hl : load s.history (s.views (thread j)) .acquire (.sequence (q.index p)) ts=
      some (value,l)) :
    Related q thread ((s.setMemory (thread j) s.history l).setPop j
      (testReady original destination p value)) t := by
  have hok := hsim.pop_ok j
  rw [show (flat s e d number).pop j=_ from hj] at hok
  have hle : value ≤ number (q.index p) := by
    obtain ⟨m,hmsg,-,rfl,-⟩ := load_eq_some hl
    exact (hm.custody (q.index p)).value_le hmsg
  have hacq := acquired_of_load hl
  have hidle : MpmcRefinement.popPhase (s.pop j)=.idle := by rw [hj]; rfl
  have hnone : (s.pop j).position=none := by rw [hj]; rfl
  have hpay := testReady_not_inPayload original destination p value
  unfold testReady at hpay ⊢
  split_ifs at hpay ⊢ with heq hlt
  · subst heq
    refine pop_looks hsim (hm.load hl) hidle hnone rfl rfl hpay ⟨hok,hle⟩ ?_
    rintro original' destination' p' he
    cases he
    exact hacq
  · exact pop_looks hsim (hm.load hl) hidle hnone rfl rfl hpay ⟨hok,rfl⟩
      (fun _ _ _ he => by cases he)
  · exact pop_looks hsim (hm.load hl) hidle hnone rfl rfl hpay hok (fun _ _ _ he => by cases he)

/-- The compare-exchange of a push is `PushClaim` or invisible. -/
theorem push_exchanges (hsim : Sim q (flat s e d number) t)
    (hm : MemoryOk q thread s e d number holder) {i : ι} {payload : List Byte} {p ts : ℕ}
    {spurious : Bool} {result : Exchange ℕ} {history : History θ Place ℕ} {l : Local θ Place}
    (hi : s.push i=.running payload (.compareExchange p))
    (hx : compareExchange s.history (s.views (thread i)) .enqueuePos ts p (p+1) spurious=
      some (result,history,l)) :
    Simulated q thread t (pushLabel s (thread i) i ts spurious (.compareExchange p))
      ((s.setMemory (thread i) history l).setPush i (afterPushExchange N payload p result)) := by
  have hok := hsim.push_ok i
  rw [show (flat s e d number).push i=_ from hi] at hok
  cases result with
  | stored =>
    obtain ⟨rfl,-⟩ := hm.enqueue.compareExchange hx
    have hnumber : number (q.index p)=p := hsim.guardsHold.push i payload hi
    have hclaimed := hm.claimPush hx hnumber (hm.push_tested i payload p hi)
    rcases hsim.push_compareExchange hi false with ⟨hl,-⟩ | ⟨a,t',hl,hn,hnext⟩
    · rw [MpmcRefinement.pushLabel,if_pos ⟨rfl,rfl⟩] at hl
      cases hl
    · refine .inr ⟨a,t',?_,hn,p+1,d,number,update holder (q.index p) (some (thread i)),?_,?_⟩
      · rw [MpmcRefinement.pushLabel,if_pos ⟨rfl,rfl⟩] at hl
        simp only [pushLabel,hx]
        exact hl
      · rw [MpmcModel.stepPush,if_pos ⟨rfl,rfl⟩] at hnext
        exact hnext
      · refine hclaimed.setPush ?_ (fun _ _ he => absurd he (afterAssign_ne _ _ _ _ _))
        intro p' _ hp'
        rw [afterPushExchange,position_afterAssign] at hp'
        cases hp'
        rw [update_self]
  | failed found =>
    have hsane := hm.sane.compareExchange hx
    have hfailed := compareExchange_failed hx
    obtain ⟨rfl,hle⟩ := hfailed
    refine .inl ⟨?_,?_⟩
    · simp only [pushLabel,hx]
    · exact push_looks hsim (hm.setView hle hsane) (by rw [hi]; rfl) (by rw [hi]; rfl) rfl rfl id
        hok.1 (fun _ _ he => by cases he)

/-- The compare-exchange of a pop is `PopClaim` or invisible. -/
theorem pop_exchanges (hsim : Sim q (flat s e d number) t)
    (hm : MemoryOk q thread s e d number holder) {j : ι} {original destination : List Byte}
    {p ts : ℕ} {spurious : Bool} {result : Exchange ℕ} {history : History θ Place ℕ}
    {l : Local θ Place} (hj : s.pop j=.running original destination (.compareExchange p))
    (hx : compareExchange s.history (s.views (thread j)) .dequeuePos ts p (p+1) spurious=
      some (result,history,l)) :
    Simulated q thread t (popLabel s (thread j) j ts spurious (.compareExchange p))
      ((s.setMemory (thread j) history l).setPop j
        (afterPopExchange original destination p result)) := by
  have hok := hsim.pop_ok j
  rw [show (flat s e d number).pop j=_ from hj] at hok
  cases result with
  | stored =>
    obtain ⟨rfl,-⟩ := hm.dequeue.compareExchange hx
    have hnumber : number (q.index p)=p+1 := hsim.guardsHold.pop j original destination hj
    have hclaimed := hm.claimPop hx hnumber (hm.pop_tested j original destination p hj)
    rcases hsim.pop_compareExchange hj false with ⟨hl,-⟩ | ⟨a,t',hl,hn,hnext⟩
    · rw [MpmcRefinement.popLabel,if_pos ⟨rfl,rfl⟩] at hl
      cases hl
    · refine .inr ⟨a,t',?_,hn,e,p+1,number,update holder (q.index p) (some (thread j)),?_,?_⟩
      · rw [MpmcRefinement.popLabel,if_pos ⟨rfl,rfl⟩] at hl
        simp only [popLabel,hx]
        exact hl
      · rw [MpmcModel.stepPop,if_pos ⟨rfl,rfl⟩] at hnext
        exact hnext
      · refine hclaimed.setPop ?_ (fun _ _ _ he => by cases he)
        intro p' _ hp'
        cases hp'
        rw [update_self]
  | failed found =>
    have hsane := hm.sane.compareExchange hx
    have hfailed := compareExchange_failed hx
    obtain ⟨rfl,hle⟩ := hfailed
    refine .inl ⟨?_,?_⟩
    · simp only [popLabel,hx]
    · exact pop_looks hsim (hm.setView hle hsane) (by rw [hj]; rfl) (by rw [hj]; rfl) rfl rfl id
        hok.1 (fun _ _ _ he => by cases he)

/-- An access of `assign` is `PushWrite` or invisible. -/
theorem push_assigns (hsim : Sim q (flat s e d number) t)
    (hm : MemoryOk q thread s e d number holder) {i : ι} {payload : List Byte} {p : ℕ}
    {pc : AssignPc} (hi : s.push i=.running payload (.assign p pc)) (ts : ℕ) (spurious : Bool)
    (hs : stepPush q s (thread i) i payload ts spurious (.assign p pc)=some s') :
    Simulated q thread t (pushLabel s (thread i) i ts spurious (.assign p pc)) s' := by
  have hholder := hm.push_holds i p (by rw [hi]; trivial) (by rw [hi]; rfl)
  have hflat : flat s' e d number=
      MpmcModel.stepPush id q (flat s e d number) i payload false (.assign p pc) := by
    cases hs
    simp only [MpmcModel.stepPush,flat,MpmcModel.State.setCell,MpmcModel.State.setPush,
      State.touch,State.setPush,id,cells_message]
  have hmemory : MemoryOk q thread s' e d number holder := by
    cases hs
    refine (hm.touch hholder (assignAccess pc) _).setPush ?_
      (fun _ _ he => absurd he (afterAssign_ne _ _ _ _ _))
    intro p' _ hp'
    rw [position_afterAssign] at hp'
    cases hp'
    exact hholder
  have hlabel : pushLabel s (thread i) i ts spurious (.assign p pc)=
      MpmcRefinement.pushLabel (flat s e d number) i false (.assign p pc) := by
    cases pc <;> rfl
  rw [hlabel]
  rcases hsim.push_assign hi false with ⟨hl,hnext⟩ | ⟨a,t',hl,hn,hnext⟩
  · exact .inl ⟨hl,e,d,number,holder,by rw [hflat]; exact hnext,hmemory⟩
  · exact .inr ⟨a,t',hl,hn,e,d,number,holder,by rw [hflat]; exact hnext,hmemory⟩

/-- The publishing store is `PushPublish`. -/
theorem push_publishes (hsim : Sim q (flat s e d number) t)
    (hm : MemoryOk q thread s e d number holder) {i : ι} {payload : List Byte} {p ts : ℕ}
    {result : WriteResult} {history : History θ Place ℕ} {l : Local θ Place}
    (hi : s.push i=.running payload (.publish p result))
    (hw : store s.history (s.views (thread i)) .release (.sequence (q.index p)) ts (p+1)=
      some (history,l)) (spurious : Bool) :
    Simulated q thread t (pushLabel s (thread i) i ts spurious (.publish p result))
      ((s.setMemory (thread i) history l).setPush i (.returned payload (some p) result)) := by
  have hpay : (s.push i).inPayload := by rw [hi]; trivial
  have hp : (s.push i).position=some p := by rw [hi]; rfl
  have hholder := hm.push_holds i p hpay hp
  have hnumber : number (q.index p)=p := hsim.writing hp (phase_of_push hpay)
  have hreturned : MemoryOk q thread (s.setPush i (.returned payload (some p) result)) e d number
      holder := hm.setPush (fun _ hno => hno.elim) (fun _ _ he => by cases he)
  have hmemory := hreturned.giveBack hholder hw (by omega) ?_ ?_
  · obtain ⟨a,t',hl,hn,hnext⟩ := hsim.push_publish hi false
    refine .inr ⟨a,t',hl,hn,e,d,_,_,?_,hmemory⟩
    simpa only [MpmcModel.stepPush,flat,MpmcModel.State.setCell,MpmcModel.State.setPush,
      State.setMemory,State.setPush,id,cells_sequence] using hnext
  · intro i' p' hpay' hp' he
    have hne : i'≠i := by
      rintro rfl
      simp only [State.setPush,update_self] at hpay'
      exact hpay'
    simp only [State.setPush,update_of_ne hne] at hpay' hp'
    exact hne (pushes_apart hsim hpay hp hpay' hp' he)
  · intro j p' hpay' hp'
    exact push_pop_apart hsim hpay hp hpay' hp'

/-- An access of `copy_to` is invisible. -/
theorem pop_copies (hsim : Sim q (flat s e d number) t)
    (hm : MemoryOk q thread s e d number holder) {j : ι} {original destination : List Byte}
    {p : ℕ} {pc : CopyPc} (hj : s.pop j=.running original destination (.copy p pc)) (ts : ℕ)
    (spurious : Bool)
    (hs : stepPop q s (thread j) j original destination ts spurious (.copy p pc)=some s') :
    Related q thread s' t := by
  have hholder := hm.pop_holds j p (by rw [hj]; trivial) (by rw [hj]; rfl)
  have hnext := hsim.pop_copy hj false
  cases hs
  refine ⟨e,d,number,holder,hnext,?_⟩
  refine (hm.touch hholder (copyAccess pc) s.messages).setPop ?_
    (fun _ _ _ he => absurd he (afterCopy_ne _ _ _ _ _ _ _))
  intro p' _ hp'
  rw [position_afterCopy] at hp'
  cases hp'
  exact hholder

/-- The releasing store is `PopRelease`. -/
theorem pop_releases (hsim : Sim q (flat s e d number) t)
    (hm : MemoryOk q thread s e d number holder) {j : ι} {original destination : List Byte}
    {p ts : ℕ} {result : ReadResult} {history : History θ Place ℕ} {l : Local θ Place}
    (hj : s.pop j=.running original destination (.release p result))
    (hw : store s.history (s.views (thread j)) .release (.sequence (q.index p)) ts
      (p+q.capacity)=some (history,l)) (spurious : Bool) :
    Simulated q thread t (popLabel s (thread j) j ts spurious (.release p result))
      ((s.setMemory (thread j) history l).setPop j
        (.returned original destination (some p) result)) := by
  have hpay : (s.pop j).inPayload := by rw [hj]; trivial
  have hp : (s.pop j).position=some p := by rw [hj]; rfl
  have hholder := hm.pop_holds j p hpay hp
  have hnumber : number (q.index p)=p+1 := hsim.reading hp (phase_of_pop hpay)
  have htwo := q.two_le
  have hreturned : MemoryOk q thread
      (s.setPop j (.returned original destination (some p) result)) e d number holder :=
    hm.setPop (fun _ hno => hno.elim) (fun _ _ _ he => by cases he)
  have hmemory := hreturned.giveBack hholder hw (by omega) ?_ ?_
  · obtain ⟨a,t',hl,hn,hnext⟩ := hsim.pop_release hj false
    refine .inr ⟨a,t',hl,hn,e,d,_,_,?_,hmemory⟩
    simpa only [MpmcModel.stepPop,flat,MpmcModel.State.setCell,MpmcModel.State.setPop,
      State.setMemory,State.setPop,id,cells_sequence] using hnext
  · intro i p' hpay' hp' he
    exact push_pop_apart hsim hpay' hp' hpay hp he.symm
  · intro j' p' hpay' hp' he
    have hne : j'≠j := by
      rintro rfl
      simp only [State.setPop,update_self] at hpay'
      exact hpay'
    simp only [State.setPop,update_of_ne hne] at hpay' hp'
    exact hne (pops_apart hsim hpay hp hpay' hp' he)

/-- Every access of a push is matched. -/
theorem stepPush_simulated (h : Related q thread s t) {i : ι} {payload : List Byte} {ts : ℕ}
    {spurious : Bool} {pc : PushPc} (hi : s.push i=.running payload pc)
    (hs : stepPush q s (thread i) i payload ts spurious pc=some s') :
    Simulated q thread t (pushLabel s (thread i) i ts spurious pc) s' := by
  obtain ⟨e,d,number,holder,hsim,hm⟩ := h
  cases pc with
  | loadPosition =>
    obtain ⟨⟨value,l⟩,hl,rfl⟩ := Option.map_eq_some_iff.mp hs
    have hok := hsim.push_ok i
    rw [show (flat s e d number).push i=_ from hi] at hok
    exact .inl ⟨rfl,push_looks hsim (hm.load hl) (by rw [hi]; rfl) (by rw [hi]; rfl) rfl rfl id hok
      (fun _ _ he => by cases he)⟩
  | loadSequence p =>
    obtain ⟨⟨value,l⟩,hl,rfl⟩ := Option.map_eq_some_iff.mp hs
    exact .inl ⟨rfl,push_tests hsim hm hi hl⟩
  | compareExchange p =>
    obtain ⟨⟨result,history,l⟩,hx,rfl⟩ := Option.map_eq_some_iff.mp hs
    exact push_exchanges hsim hm hi hx
  | assign p pc => exact push_assigns hsim hm hi ts spurious hs
  | publish p result =>
    obtain ⟨⟨history,l⟩,hw,rfl⟩ := Option.map_eq_some_iff.mp hs
    exact push_publishes hsim hm hi hw spurious

/-- Every access of a pop is matched. -/
theorem stepPop_simulated (h : Related q thread s t) {j : ι} {original destination : List Byte}
    {ts : ℕ} {spurious : Bool} {pc : PopPc} (hj : s.pop j=.running original destination pc)
    (hs : stepPop q s (thread j) j original destination ts spurious pc=some s') :
    Simulated q thread t (popLabel s (thread j) j ts spurious pc) s' := by
  obtain ⟨e,d,number,holder,hsim,hm⟩ := h
  cases pc with
  | loadPosition =>
    obtain ⟨⟨value,l⟩,hl,rfl⟩ := Option.map_eq_some_iff.mp hs
    have hok := hsim.pop_ok j
    rw [show (flat s e d number).pop j=_ from hj] at hok
    exact .inl ⟨rfl,pop_looks hsim (hm.load hl) (by rw [hj]; rfl) (by rw [hj]; rfl) rfl rfl id hok
      (fun _ _ _ he => by cases he)⟩
  | loadSequence p =>
    obtain ⟨⟨value,l⟩,hl,rfl⟩ := Option.map_eq_some_iff.mp hs
    exact .inl ⟨rfl,pop_tests hsim hm hj hl⟩
  | compareExchange p =>
    obtain ⟨⟨result,history,l⟩,hx,rfl⟩ := Option.map_eq_some_iff.mp hs
    exact pop_exchanges hsim hm hj hx
  | copy p pc => exact .inl ⟨rfl,pop_copies hsim hm hj ts spurious hs⟩
  | release p result =>
    obtain ⟨⟨history,l⟩,hw,rfl⟩ := Option.map_eq_some_iff.mp hs
    exact pop_releases hsim hm hj hw spurious

/-- A call of `empty` only learns. -/
theorem stepEmpty_related (h : Related q thread s t) {i : ι} {ts : ℕ} {call : EmptyCall}
    (hs : stepEmpty q s (thread i) i ts call=some s') : Related q thread s' t := by
  obtain ⟨e,d,number,holder,hsim,hm⟩ := h
  cases call with
  | loadPosition =>
    obtain ⟨⟨value,l⟩,hl,rfl⟩ := Option.map_eq_some_iff.mp hs
    exact ⟨e,d,number,holder,hsim.probe_local i _,{hm.load hl with}⟩
  | loadSequence p =>
    obtain ⟨⟨value,l⟩,hl,rfl⟩ := Option.map_eq_some_iff.mp hs
    exact ⟨e,d,number,holder,hsim.probe_local i _,{hm.load hl with}⟩
  | idle => cases hs
  | returned p answer => cases hs

/-- Every scheduled step is matched. -/
theorem step_simulated (h : Related q thread s t) {a : Action ι}
    (hs : step q thread s a=some s') : Simulated q thread t (label thread s a) s' := by
  cases a with
  | callPush i payload =>
    simp only [step] at hs
    split at hs
    · rename_i hi
      cases hs
      obtain ⟨e,d,number,holder,hsim,hm⟩ := h
      have hnp : MpmcRefinement.pushPhase ((flat s e d number).push i)≠.published := by
        rw [show (flat s e d number).push i=_ from hi]
        decide
      refine .inl ⟨rfl,e,d,number,holder,?_,?_⟩
      · unfold enterPush
        split
        · rename_i hlong
          exact hsim.push_local (by rw [show (flat s e d number).push i=_ from hi]; rfl)
            (by rw [show (flat s e d number).push i=_ from hi]; rfl) hnp (.inr ⟨hlong,rfl⟩)
        · rename_i hfits
          exact hsim.push_local (by rw [show (flat s e d number).push i=_ from hi]; rfl)
            (by rw [show (flat s e d number).push i=_ from hi]; rfl) hnp (Nat.le_of_not_lt hfits)
      · unfold enterPush
        split <;> exact hm.setPush (fun _ hno => hno.elim) (fun _ _ he => by cases he)
    · cases hs
  | push i ts spurious =>
    simp only [step] at hs
    split at hs
    · rename_i payload pc hi
      simp only [label,hi]
      exact stepPush_simulated h hi hs
    · cases hs
  | callPop j destination =>
    simp only [step] at hs
    split at hs
    · rename_i hj
      cases hs
      obtain ⟨e,d,number,holder,hsim,hm⟩ := h
      refine .inl ⟨rfl,e,d,number,holder,?_,?_⟩
      · exact hsim.pop_local (by rw [show (flat s e d number).pop j=_ from hj]; rfl)
          (by rw [show (flat s e d number).pop j=_ from hj]; rfl) rfl
      · exact hm.setPop (fun _ hno => hno.elim) (fun _ _ _ he => by cases he)
    · cases hs
  | pop j ts spurious =>
    simp only [step] at hs
    split at hs
    · rename_i original destination pc hj
      simp only [label,hj]
      exact stepPop_simulated h hj hs
    · cases hs
  | callEmpty i =>
    simp only [step] at hs
    split at hs
    · cases hs
      obtain ⟨e,d,number,holder,hsim,hm⟩ := h
      exact .inl ⟨rfl,e,d,number,holder,hsim.probe_local i _,{hm with}⟩
    · cases hs
  | empty i ts => exact .inl ⟨rfl,stepEmpty_related h hs⟩

end Simulation

/-- Every reachable state is related to some specification state. -/
theorem reachable_related [DecidableEq ι] [DecidableEq θ] {q : Ring} {thread : ι → θ}
    {s : State ι θ N} (h : Reachable (system q thread N) s) : ∃ t,Related q thread s t := by
  refine Reachable.invariant (I:=fun s => ∃ t,Related q thread s t)
    ⟨MpmcTla.init,related_init q thread⟩ ?_ h
  rintro s a s' - ⟨t,ht⟩ hs
  rcases step_simulated ht hs with ⟨-,hr⟩ | ⟨l,t',-,-,hr⟩
  · exact ⟨t,hr⟩
  · exact ⟨t',hr⟩

/-- The specification state shows the last stores and the claims of the code,
and a pop copies the payload of the push captured for it. -/
structure Shows (s : State ι θ N) (t : MpmcTla.State ι) : Prop where
  /-- Last stores of the cell sequences. -/
  sequence : ∀ index,∃ ts m,Latest s.history (.sequence index) ts m ∧
    m.value=(t.cells index).sequence
  /-- Last store of `enqueue_pos_`. -/
  enqueue : ∃ ts m,Latest s.history .enqueuePos ts m ∧ m.value=t.enqueuePosition
  /-- Last store of `dequeue_pos_`. -/
  dequeue : ∃ ts m,Latest s.history .dequeuePos ts m ∧ m.value=t.dequeuePosition
  /-- Phases and positions of the pushes. -/
  push : ∀ i,t.pushPhase i=MpmcRefinement.pushPhase (s.push i) ∧
    t.pushPosition i=(s.push i).position
  /-- Phases and positions of the pops. -/
  pop : ∀ j,t.popPhase j=MpmcRefinement.popPhase (s.pop j) ∧ t.popPosition j=(s.pop j).position
  /-- Captured payloads are copied. -/
  copies : ∀ j p,(s.pop j).position=some p → ∃ i payload,t.popValue j=some i ∧
    (s.push i).Published payload p ∧ MpmcRefinement.CopiesPayload payload p (s.pop j)

/-- Related states. -/
theorem shows_of_related {q : Ring} {thread : ι → θ} {s : State ι θ N} {t : MpmcTla.State ι}
    (h : Related q thread s t) : Shows s t := by
  obtain ⟨e,d,number,holder,hsim,hm⟩ := h
  refine ⟨?_,?_,?_,?_,?_,hsim.copiesCaptured⟩
  · intro index
    obtain ⟨ts,m,hl,hvalue,-⟩ := (hm.custody index).latest
    exact ⟨ts,m,hl,hvalue.trans (hsim.refines.sequence index).symm⟩
  · obtain ⟨m,hl,hvalue⟩ := hm.enqueue.latest
    exact ⟨e,m,hl,hvalue.trans hsim.refines.enqueue.symm⟩
  · obtain ⟨m,hl,hvalue⟩ := hm.dequeue.latest
    exact ⟨d,m,hl,hvalue.trans hsim.refines.dequeue.symm⟩
  · exact fun i => ⟨hsim.refines.pushPhase_eq i,hsim.refines.pushPosition_eq i⟩
  · exact fun j => ⟨hsim.refines.popPhase_eq j,hsim.refines.popPosition_eq j⟩

/-- Every schedule of the code's accesses on its memory orders under RC11,
with every choice of what the loads return, is matched by a stuttering run of
the specification that shows the last stores and the claims. -/
theorem memory_refines_specification [DecidableEq ι] [DecidableEq θ] (q : Ring) (thread : ι → θ)
    {actions : List (Action ι)} {s : State ι θ N}
    (h : Schedule (system q thread N) actions s) :
    ∃ t,Matched (system q thread N) (label thread) MpmcTla.init (MpmcTla.Next q.capacity) Shows
      actions s t := by
  have hmatched : ∃ t,Matched (system q thread N) (label thread) MpmcTla.init
      (MpmcTla.Next q.capacity) (Related q thread) actions s t := by
    refine h.matched (related_init q thread) ?_
    intro s t a s' hr hs
    exact step_simulated hr hs
  obtain ⟨t,hm⟩ := hmatched
  exact ⟨t,hm.mono fun _ _ hr => shows_of_related hr⟩

/-- Calls other than the first one belong to the second thread. -/
def twoThreads (i : ℕ) : Bool := decide (i≠0)

/-- A whole push, a pop that loads the outdated sequence of the cell and
returns `empty`, and a pop of the same thread that loads the published one. -/
def outdatedSequence : List (Action ℕ) :=
  [.callPush 0 [7],.push 0 0 false,.push 0 0 false,.push 0 0 false,.push 0 0 false,
    .push 0 0 false,.push 0 0 false,.push 0 0 false,.push 0 1 false,
    .callPop 1 [0],.pop 1 0 false,.pop 1 0 false,
    .callPop 2 [0],.pop 2 0 false,.pop 2 1 false,.pop 2 0 false,.pop 2 0 false,.pop 2 0 false,
    .pop 2 0 false,.pop 2 0 false,.pop 2 0 false,.pop 2 2 false]

/-- The refinement at a run that loads an outdated sequence and performs all
five actions. -/
theorem memory_refines_specification_outdated :
    ∃ s t,Schedule (system .smallest twoThreads 1) outdatedSequence s ∧
      s.pop 1=.returned [0] [0] none ⟨.empty,0,0⟩ ∧
      s.pop 2=.returned [0] [7] (some 0) ⟨.success,1,1⟩ ∧
      Matched (system .smallest twoThreads 1) (label twoThreads) MpmcTla.init
        (MpmcTla.Next Ring.smallest.capacity) Shows outdatedSequence s t := by
  have hrun : outdatedSequence.foldlM (system .smallest twoThreads 1).step
      (system .smallest twoThreads 1).init=some _ := rfl
  have hsch := schedule_of_foldlM hrun
  obtain ⟨t,ht⟩ := memory_refines_specification .smallest twoThreads hsch
  exact ⟨_,t,hsch,rfl,rfl,ht⟩

end Line64.MpmcMemoryRefinement
