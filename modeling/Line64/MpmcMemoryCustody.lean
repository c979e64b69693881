import Line64.MpmcMemoryModel
import Line64.MpmcRefinement
import Line64.SlotCustody

/-!
# Who holds the cells of an MPMC queue

The last stores of the two counters and of the cell sequences describe a
state of the interleaved model. A call between its compare-exchange and its
release store holds its cell: it knows every earlier access of the message.
The lemmas say what each kind of access does to counters, cells and holders.
-/

namespace Line64.MpmcMemoryCustody

open Function Result FixedMessageAccess Transition ReleaseAcquire MessageRaces SlotCustody
open MpmcModel (Ring Cell PushPc PushCall PopPc PopCall EmptyCall afterAssign afterCopy enterPush)
open MpmcRefinement (Sim ne_succ_of_same_cell)
open MpmcMemoryModel

variable {ι θ : Type} {N : ℕ}

/-- The state of the interleaved model that the last stores describe. -/
def flat (s : State ι θ N) (e d : ℕ) (number : ℕ → ℕ) : MpmcModel.State ι N where
  cells := fun index => ⟨number index,s.messages index⟩
  enqueuePos := e
  dequeuePos := d
  push := s.push
  pop := s.pop
  probe := s.probe

/-- What the memory says about counters, cells, calls and the holders of the
cells. -/
structure MemoryOk (q : Ring) (thread : ι → θ) (s : State ι θ N) (e d : ℕ) (number : ℕ → ℕ)
    (holder : ℕ → Option θ) : Prop where
  /-- Views point to stores. -/
  sane : Sane s.history s.views
  /-- The last enqueue position. -/
  enqueue : Counted s.history .enqueuePos e
  /-- The last dequeue position. -/
  dequeue : Counted s.history .dequeuePos d
  /-- The cells and their holders. -/
  custody : ∀ index,Custody s.history s.views s.footprints (.sequence index) index (number index)
    (holder index)
  /-- A push in its payload holds its cell. -/
  push_holds : ∀ i p,(s.push i).inPayload → (s.push i).position=some p →
    holder (q.index p)=some (thread i)
  /-- A pop in its payload holds its cell. -/
  pop_holds : ∀ j p,(s.pop j).inPayload → (s.pop j).position=some p →
    holder (q.index p)=some (thread j)
  /-- A free cell has no holder before its position is claimed. -/
  free : ∀ p,e≤p → number (q.index p)=p → holder (q.index p)=none
  /-- A published cell has no holder before its position is claimed. -/
  ready : ∀ p,d≤p → number (q.index p)=p+1 → holder (q.index p)=none
  /-- A push at its compare-exchange has acquired the sequence it tested. -/
  push_tested : ∀ i payload p,s.push i=.running payload (.compareExchange p) →
    Acquired s.history (s.views (thread i)) (.sequence (q.index p)) p
  /-- A pop at its compare-exchange has acquired the sequence it tested. -/
  pop_tested : ∀ j original destination p,
    s.pop j=.running original destination (.compareExchange p) →
    Acquired s.history (s.views (thread j)) (.sequence (q.index p)) (p+1)

/-- Both levels together. -/
def Related (q : Ring) (thread : ι → θ) (s : State ι θ N) (t : MpmcTla.State ι) : Prop :=
  ∃ e d number holder,Sim q (flat s e d number) t ∧ MemoryOk q thread s e d number holder

/-- The constructed queue. -/
theorem related_init (q : Ring) (thread : ι → θ) :
    Related q thread (init ι θ N) MpmcTla.init := by
  refine ⟨0,0,fun index => index,fun _ => none,MpmcRefinement.sim_init q,?_⟩
  exact {
    sane := Sane.initial Place.initial
    enqueue := Counted.initial θ Place.initial rfl
    dequeue := Counted.initial θ Place.initial rfl
    custody := fun index => Custody.initial Place.initial (.sequence index) index
    push_holds := fun _ _ hpay => hpay.elim
    pop_holds := fun _ _ hpay => hpay.elim
    free := fun _ _ _ => rfl
    ready := fun _ _ _ => rfl
    push_tested := fun _ _ _ hi => by cases hi
    pop_tested := fun _ _ _ _ hj => by cases hj}

section Holders

variable {q : Ring} {s : MpmcModel.State ι N} {t : MpmcTla.State ι}

/-- A push in its payload has claimed or written. -/
theorem phase_of_push {call : PushCall} (h : call.inPayload) :
    MpmcRefinement.pushPhase call=.claimed ∨ MpmcRefinement.pushPhase call=.written := by
  cases call with
  | idle => exact h.elim
  | running payload pc =>
    cases pc with
    | assign p pc =>
      cases pc with
      | loadSequence => exact .inr rfl
      | _ => exact .inl rfl
    | publish p result => exact .inr rfl
    | _ => exact h.elim
  | returned payload position result => exact h.elim

/-- A pop in its payload has claimed. -/
theorem phase_of_pop {call : PopCall} (h : call.inPayload) :
    MpmcRefinement.popPhase call=.claimed := by
  cases call with
  | idle => exact h.elim
  | running original destination pc =>
    cases pc with
    | copy p pc => rfl
    | release p result => rfl
    | _ => exact h.elim
  | returned original destination position result => exact h.elim

/-- Two pushes are never in the payload of one cell. -/
theorem pushes_apart (h : Sim q s t) {i i' : ι} {p p' : ℕ} (hpay : (s.push i).inPayload)
    (hp : (s.push i).position=some p) (hpay' : (s.push i').inPayload)
    (hp' : (s.push i').position=some p') (he : q.index p'=q.index p) : i'=i := by
  have hown := h.writing hp (phase_of_push hpay)
  have hother := h.writing hp' (phase_of_push hpay')
  rw [he,hown] at hother
  subst hother
  exact h.push_unique hp' hp

/-- A push and a pop are never in the payload of one cell. -/
theorem push_pop_apart (h : Sim q s t) {i j : ι} {p p' : ℕ} (hpay : (s.push i).inPayload)
    (hp : (s.push i).position=some p) (hpay' : (s.pop j).inPayload)
    (hp' : (s.pop j).position=some p') : q.index p'≠q.index p := by
  intro he
  have hown := h.writing hp (phase_of_push hpay)
  have hother := h.reading hp' (phase_of_pop hpay')
  rw [he,hown] at hother
  exact ne_succ_of_same_cell q he.symm hother

/-- Two pops are never in the payload of one cell. -/
theorem pops_apart (h : Sim q s t) {j j' : ι} {p p' : ℕ} (hpay : (s.pop j).inPayload)
    (hp : (s.pop j).position=some p) (hpay' : (s.pop j').inPayload)
    (hp' : (s.pop j').position=some p') (he : q.index p'=q.index p) : j'=j := by
  have hown := h.reading hp (phase_of_pop hpay)
  have hother := h.reading hp' (phase_of_pop hpay')
  rw [he,hown] at hother
  have hpp : p'=p := Nat.succ.inj hother.symm
  subst hpp
  exact h.pop_unique hp' hp

end Holders

/-- A push between its entry and its claim is in no payload. -/
theorem testFree_not_inPayload (payload : List Byte) (position sequence : ℕ) :
    ¬(testFree payload position sequence).inPayload := by
  unfold testFree
  split_ifs <;> exact id

/-- A pop between its entry and its claim is in no payload. -/
theorem testReady_not_inPayload (original destination : List Byte) (position sequence : ℕ) :
    ¬(testReady original destination position sequence).inPayload := by
  unfold testReady
  split_ifs <;> exact id

/-- The payload of a push begins with its position. -/
theorem position_afterAssign (payload : List Byte) (p : ℕ) (next : Progress AssignPc WriteResult) :
    (PushCall.running payload (afterAssign p next)).position=some p := by
  cases next <;> rfl

/-- A push in its payload does not exchange. -/
theorem afterAssign_ne (payload payload' : List Byte) (p p' : ℕ)
    (next : Progress AssignPc WriteResult) :
    PushCall.running payload (afterAssign p next)≠.running payload' (.compareExchange p') := by
  intro he
  cases next <;> cases he

/-- The payload of a pop begins with its position. -/
theorem position_afterCopy (original destination : List Byte) (p : ℕ)
    (next : Progress CopyPc ReadResult) :
    (PopCall.running original destination (afterCopy p next)).position=some p := by
  cases next <;> rfl

/-- A pop in its payload does not exchange. -/
theorem afterCopy_ne (original destination original' destination' : List Byte) (p p' : ℕ)
    (next : Progress CopyPc ReadResult) :
    PopCall.running original destination (afterCopy p next)≠
      .running original' destination' (.compareExchange p') := by
  intro he
  cases next <;> cases he

section Memory

variable {q : Ring} {thread : ι → θ} {s : State ι θ N} {e d : ℕ} {number : ℕ → ℕ}
  {holder : ℕ → Option θ}

/-- A free cell is taken; the other cells keep their holders. -/
theorem take_cell {history : History θ Place ℕ} {views : θ → Local θ Place} {p : Footprints θ}
    (hc : ∀ index,Custody history views p (.sequence index) index (number index) (holder index))
    {index : ℕ} {t : θ} (hnone : holder index=none) (hw : (views t).current.Within history)
    (hacq : Acquired history (views t) (.sequence index) (number index)) (other : ℕ) :
    Custody history views p (.sequence other) other (number other)
      (update holder index (some t) other) := by
  by_cases ho : other=index
  · subst ho
    rw [update_self]
    have hfree := hc other
    rw [hnone] at hfree
    exact hfree.take hw hacq
  · rw [update_of_ne ho]
    exact hc other

/-- A holder other than the new one holds another cell. -/
theorem holder_of_none {index other : ℕ} {t u : θ} (hnone : holder index=none)
    (ho : holder other=some u) : update holder index (some t) other=some u := by
  have hne : other≠index := by
    rintro rfl
    rw [hnone] at ho
    cases ho
  rw [update_of_ne hne]
  exact ho

section Calls

variable [DecidableEq ι]

/-- A push call changes. -/
theorem MemoryOk.setPush (h : MemoryOk q thread s e d number holder) {i : ι} {call : PushCall}
    (hholds : ∀ p,call.inPayload → call.position=some p → holder (q.index p)=some (thread i))
    (htested : ∀ payload p,call=.running payload (.compareExchange p) →
      Acquired s.history (s.views (thread i)) (.sequence (q.index p)) p) :
    MemoryOk q thread (s.setPush i call) e d number holder := by
  refine {h with push_holds := ?_,push_tested := ?_}
  · intro i' p hpay hp
    by_cases hi : i'=i
    · subst hi
      simp only [State.setPush,update_self] at hpay hp
      exact hholds p hpay hp
    · simp only [State.setPush,update_of_ne hi] at hpay hp
      exact h.push_holds i' p hpay hp
  · intro i' payload p hcall
    by_cases hi : i'=i
    · subst hi
      simp only [State.setPush,update_self] at hcall
      exact htested payload p hcall
    · simp only [State.setPush,update_of_ne hi] at hcall
      exact h.push_tested i' payload p hcall

/-- A pop call changes. -/
theorem MemoryOk.setPop (h : MemoryOk q thread s e d number holder) {j : ι} {call : PopCall}
    (hholds : ∀ p,call.inPayload → call.position=some p → holder (q.index p)=some (thread j))
    (htested : ∀ original destination p,
      call=.running original destination (.compareExchange p) →
      Acquired s.history (s.views (thread j)) (.sequence (q.index p)) (p+1)) :
    MemoryOk q thread (s.setPop j call) e d number holder := by
  refine {h with pop_holds := ?_,pop_tested := ?_}
  · intro j' p hpay hp
    by_cases hj : j'=j
    · subst hj
      simp only [State.setPop,update_self] at hpay hp
      exact hholds p hpay hp
    · simp only [State.setPop,update_of_ne hj] at hpay hp
      exact h.pop_holds j' p hpay hp
  · intro j' original destination p hcall
    by_cases hj : j'=j
    · subst hj
      simp only [State.setPop,update_self] at hcall
      exact htested original destination p hcall
    · simp only [State.setPop,update_of_ne hj] at hcall
      exact h.pop_tested j' original destination p hcall

end Calls

variable [DecidableEq θ]

/-- What a thread acquired is still acquired when some thread has learned
more. -/
theorem acquired_update {views : θ → Local θ Place} {history : History θ Place ℕ} {t u : θ}
    {l : Local θ Place} {a : Place} {value : ℕ} (hacq : Acquired history (views u) a value)
    (hle : (views t).current ≤ l.current) : Acquired history (update views t l u) a value := by
  by_cases hu : u=t
  · subst hu
    rw [update_self]
    exact hacq.mono hle
  · rw [update_of_ne hu]
    exact hacq

/-- A thread learns more. -/
theorem MemoryOk.setView (h : MemoryOk q thread s e d number holder) {t : θ} {l : Local θ Place}
    (hle : (s.views t).current ≤ l.current) (hsane : Sane s.history (update s.views t l)) :
    MemoryOk q thread (s.setMemory t s.history l) e d number holder := by
  have hw : l.current.Within s.history := by
    have ht := (hsane.threads t).current
    rwa [update_self] at ht
  exact {h with
    sane := hsane
    custody := fun index => (h.custody index).setView hle hw
    push_tested := fun i payload p hi => acquired_update (h.push_tested i payload p hi) hle
    pop_tested := fun j original destination p hj =>
      acquired_update (h.pop_tested j original destination p hj) hle}

/-- A thread loads. -/
theorem MemoryOk.load (h : MemoryOk q thread s e d number holder) {t : θ} {order : LoadOrder}
    {a : Place} {ts value : ℕ} {l : Local θ Place}
    (hl : load s.history (s.views t) order a ts=some (value,l)) :
    MemoryOk q thread (s.setMemory t s.history l) e d number holder := by
  obtain ⟨m,-,-,-,rfl⟩ := load_eq_some hl
  exact h.setView (le_observe order _ _ _ _) (h.sane.load hl)

/-- A counter is incremented and the thread that did it takes a cell, which no
longer counts as free or published. -/
theorem MemoryOk.claim (h : MemoryOk q thread s e d number holder) {t : θ} {a : Place}
    {ts index e' d' : ℕ} {m : Message θ Place ℕ} {l : Local θ Place}
    (hplace : ∀ other,Place.sequence other≠a) (hfree : s.history a ts=none)
    (hle : (s.views t).current ≤ l.current)
    (hsane : Sane (s.history.add a ts m) (update s.views t l))
    (henqueue : Counted (s.history.add a ts m) .enqueuePos e')
    (hdequeue : Counted (s.history.add a ts m) .dequeuePos d')
    (hnone : holder index=none)
    (hacq : Acquired s.history (s.views t) (.sequence index) (number index))
    (hfrees : ∀ p,e'≤p → number (q.index p)=p → e≤p ∧ q.index p≠index)
    (hreadies : ∀ p,d'≤p → number (q.index p)=p+1 → d≤p ∧ q.index p≠index) :
    MemoryOk q thread (s.setMemory t (s.history.add a ts m) l) e' d' number
      (update holder index (some t)) := by
  have hw := (hsane.threads t).current
  have hkeep : ∀ u other value,Acquired s.history (s.views u) (.sequence other) value →
      Acquired (s.history.add a ts m) (update s.views t l u) (.sequence other) value :=
    fun u other value hacq => acquired_update (hacq.add hfree m) hle
  have hcells : ∀ other,Custody (s.history.add a ts m) (update s.views t l) s.footprints
      (.sequence other) other (number other) (holder other) := by
    intro other
    rw [update_self] at hw
    exact ((h.custody other).of_history_eq (s.history.add_of_ne ts m (hplace other))).setView hle hw
  exact {
    sane := hsane
    enqueue := henqueue
    dequeue := hdequeue
    custody := take_cell hcells hnone hw (hkeep t index _ hacq)
    push_holds := fun i p hpay hp => holder_of_none hnone (h.push_holds i p hpay hp)
    pop_holds := fun j p hpay hp => holder_of_none hnone (h.pop_holds j p hpay hp)
    free := fun p hp hn => by
      obtain ⟨hle,hne⟩ := hfrees p hp hn
      rw [update_of_ne hne]
      exact h.free p hle hn
    ready := fun p hp hn => by
      obtain ⟨hle,hne⟩ := hreadies p hp hn
      rw [update_of_ne hne]
      exact h.ready p hle hn
    push_tested := fun i payload p hi => hkeep _ _ _ (h.push_tested i payload p hi)
    pop_tested := fun j original destination p hj =>
      hkeep _ _ _ (h.pop_tested j original destination p hj)}

/-- A push claims the last enqueue position and holds its cell. -/
theorem MemoryOk.claimPush (h : MemoryOk q thread s e d number holder) {t : θ} {ts : ℕ}
    {spurious : Bool} {history : History θ Place ℕ} {l : Local θ Place}
    (hx : compareExchange s.history (s.views t) .enqueuePos ts e (e+1) spurious=
      some (.stored,history,l))
    (hnumber : number (q.index e)=e)
    (hacq : Acquired s.history (s.views t) (.sequence (q.index e)) e) :
    MemoryOk q thread (s.setMemory t history l) (e+1) d number
      (update holder (q.index e) (some t)) := by
  have hsane := h.sane.compareExchange hx
  obtain ⟨-,hcount,hle,m,hfree,rfl⟩ := h.enqueue.compareExchange hx
  refine h.claim (fun _ he => by cases he) hfree hle hsane hcount
    (h.dequeue.add_of_ne (fun he => by cases he) _ m) (h.free e (le_refl e) hnumber)
    (by rw [hnumber]; exact hacq) ?_ ?_
  · intro p hp hn
    refine ⟨by omega,fun he => ?_⟩
    rw [he,hnumber] at hn
    omega
  · intro p hp hn
    refine ⟨hp,fun he => ?_⟩
    rw [he,hnumber] at hn
    exact ne_succ_of_same_cell q he.symm hn

/-- A pop claims the last dequeue position and holds its cell. -/
theorem MemoryOk.claimPop (h : MemoryOk q thread s e d number holder) {t : θ} {ts : ℕ}
    {spurious : Bool} {history : History θ Place ℕ} {l : Local θ Place}
    (hx : compareExchange s.history (s.views t) .dequeuePos ts d (d+1) spurious=
      some (.stored,history,l))
    (hnumber : number (q.index d)=d+1)
    (hacq : Acquired s.history (s.views t) (.sequence (q.index d)) (d+1)) :
    MemoryOk q thread (s.setMemory t history l) e (d+1) number
      (update holder (q.index d) (some t)) := by
  have hsane := h.sane.compareExchange hx
  obtain ⟨-,hcount,hle,m,hfree,rfl⟩ := h.dequeue.compareExchange hx
  refine h.claim (fun _ he => by cases he) hfree hle hsane
    (h.enqueue.add_of_ne (fun he => by cases he) _ m) hcount (h.ready d (le_refl d) hnumber)
    (by rw [hnumber]; exact hacq) ?_ ?_
  · intro p hp hn
    refine ⟨hp,fun he => ?_⟩
    rw [he,hnumber] at hn
    exact ne_succ_of_same_cell q he hn.symm
  · intro p hp hn
    refine ⟨by omega,fun he => ?_⟩
    rw [he,hnumber] at hn
    omega

/-- The holder of a cell accesses its message. -/
theorem MemoryOk.touch (h : MemoryOk q thread s e d number holder) {t : θ} {index : ℕ}
    (hholder : holder index=some t) (access : Field × Access)
    (messages : ℕ → FixedMessage N) :
    MemoryOk q thread {s.touch t index access with messages := messages} e d number holder := by
  have hle := (s.views t).le_tick t
  have hold := h.sane.threads t
  refine {h with
    sane := h.sane.setView ⟨hold.current.of_seen_eq rfl,hold.acquired,hold.released⟩
    custody := ?_
    push_tested := fun i payload p hi => acquired_update (h.push_tested i payload p hi) hle
    pop_tested := fun j original destination p hj =>
      acquired_update (h.pop_tested j original destination p hj) hle}
  intro other
  by_cases ho : other=index
  · subst ho
    have hc := h.custody other
    rw [hholder] at hc ⊢
    exact hc.touch access
  · exact (h.custody other).touch_of_ne ho t access

/-- The holder of a cell gives it back, when no call is in the payload of the
cell any more. -/
theorem MemoryOk.giveBack (h : MemoryOk q thread s e d number holder) {t : θ} {index : ℕ}
    (hholder : holder index=some t) {ts value : ℕ} {history : History θ Place ℕ}
    {l : Local θ Place}
    (hs : store s.history (s.views t) .release (.sequence index) ts value=some (history,l))
    (hlt : number index<value)
    (hpush : ∀ i p,(s.push i).inPayload → (s.push i).position=some p → q.index p≠index)
    (hpop : ∀ j p,(s.pop j).inPayload → (s.pop j).position=some p → q.index p≠index) :
    MemoryOk q thread (s.setMemory t history l) e d (update number index value)
      (update holder index none) := by
  have hsane := h.sane.store hs
  have hcell := h.custody index
  rw [hholder] at hcell
  have hgiven := hcell.release hs hlt
  obtain ⟨-,hfree,rfl,rfl⟩ := store_eq_some hs
  have hle := (s.views t).current.le_see (.sequence index) ts
  have hw := (hsane.threads t).current
  rw [update_self] at hw
  refine {
    sane := hsane
    enqueue := h.enqueue.add_of_ne (fun he => by cases he) _ _
    dequeue := h.dequeue.add_of_ne (fun he => by cases he) _ _
    custody := ?_
    push_holds := fun i p hpay hp => ?_
    pop_holds := fun j p hpay hp => ?_
    free := ?_
    ready := ?_
    push_tested := fun i payload p hi =>
      acquired_update ((h.push_tested i payload p hi).add hfree _) hle
    pop_tested := fun j original destination p hj =>
      acquired_update ((h.pop_tested j original destination p hj).add hfree _) hle}
  · intro other
    by_cases ho : other=index
    · subst ho
      rw [update_self,update_self]
      exact hgiven
    · rw [update_of_ne ho,update_of_ne ho]
      have hne : Place.sequence other≠.sequence index := fun he => ho (Place.sequence.inj he)
      exact ((h.custody other).of_history_eq (s.history.add_of_ne _ _ hne)).setView hle hw
  · rw [update_of_ne (hpush i p hpay hp)]
    exact h.push_holds i p hpay hp
  · rw [update_of_ne (hpop j p hpay hp)]
    exact h.pop_holds j p hpay hp
  · intro p hp hn
    by_cases ho : q.index p=index
    · rw [ho,update_self]
    · rw [update_of_ne ho] at hn ⊢
      exact h.free p hp hn
  · intro p hp hn
    by_cases ho : q.index p=index
    · rw [ho,update_self]
    · rw [update_of_ne ho] at hn ⊢
      exact h.ready p hp hn

end Memory

end Line64.MpmcMemoryCustody
