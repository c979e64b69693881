import Line64.MpmcModel
import Line64.MpmcTla

/-!
# The MPMC code refines its TLA+ specification

The specification tests a cell and claims a position in one action, writes
the payload in another and captures the popped value when the pop claims.
The code loads, tests, claims and copies in separate accesses. A stale test
is harmless because cell sequences only grow and no cell is ahead of an
unclaimed position.
-/

namespace Line64.MpmcRefinement

open Function Result FixedMessageAccess Transition MpmcModel

/-- Phase of a push call in the specification. The last payload store is
the one of the message sequence. -/
def pushPhase : PushCall → MpmcTla.PushPhase
  | .running _ (.assign _ .loadSequence) => .written
  | .running _ (.assign _ _) => .claimed
  | .running _ (.publish _ _) => .written
  | .returned _ (some _) _ => .published
  | _ => .idle

/-- Phase of a pop call in the specification. -/
def popPhase : PopCall → MpmcTla.PopPhase
  | .running _ _ (.copy _ _) => .claimed
  | .running _ _ (.release _ _) => .claimed
  | .returned _ _ (some _) _ => .released
  | _ => .idle

variable {ι : Type} {N : ℕ}

/-- Action of the specification performed by an access of a push. -/
def pushLabel (s : State ι N) (i : ι) (spurious : Bool) : PushPc → Option (MpmcTla.Action ι)
  | .compareExchange position =>
    if s.enqueuePos=position ∧ spurious=false then some (.pushClaim i) else none
  | .assign _ .storeSequence => some (.pushWrite i)
  | .publish _ _ => some (.pushPublish i)
  | _ => none

/-- Action of the specification performed by an access of a pop. -/
def popLabel (s : State ι N) (i : ι) (spurious : Bool) : PopPc → Option (MpmcTla.Action ι)
  | .compareExchange position =>
    if s.dequeuePos=position ∧ spurious=false then some (.popClaim i) else none
  | .release _ _ => some (.popRelease i)
  | _ => none

/-- Action of the specification performed by a scheduled step, if any. -/
def label (s : State ι N) : Action ι → Option (MpmcTla.Action ι)
  | .push i spurious =>
    match s.push i with
    | .running _ pc => pushLabel s i spurious pc
    | _ => none
  | .pop i spurious =>
    match s.pop i with
    | .running _ _ pc => popLabel s i spurious pc
    | _ => none
  | _ => none

/-- The specification state shows exactly the counters, the cell sequences
and the claims of the code. -/
structure Refines (s : State ι N) (t : MpmcTla.State ι) : Prop where
  /-- Same cell sequences. -/
  sequence : ∀ index,(t.cells index).sequence=(s.cells index).sequence
  /-- Same enqueue counter. -/
  enqueue : t.enqueuePosition=s.enqueuePos
  /-- Same dequeue counter. -/
  dequeue : t.dequeuePosition=s.dequeuePos
  /-- Push phases read off the program points. -/
  pushPhase_eq : ∀ i,t.pushPhase i=pushPhase (s.push i)
  /-- Same claimed push positions. -/
  pushPosition_eq : ∀ i,t.pushPosition i=(s.push i).position
  /-- Pop phases read off the program points. -/
  popPhase_eq : ∀ j,t.popPhase j=popPhase (s.pop j)
  /-- Same claimed pop positions. -/
  popPosition_eq : ∀ j,t.popPosition j=(s.pop j).position

/-- What a push call knows about shared memory at its program point. -/
def PushOk (q : Ring) (cells : ℕ → Cell N) : PushCall → Prop
  | .idle => True
  | .running payload .loadPosition => payload.length≤N
  | .running payload (.loadSequence _) => payload.length≤N
  | .running payload (.compareExchange p) =>
    payload.length≤N ∧ p≤(cells (q.index p)).sequence
  | .running payload (.assign p pc) =>
    payload.length≤N ∧ AssignProgress payload (p+1) (cells (q.index p)).message pc
  | .running payload (.publish p result) =>
    payload.length≤N ∧ result=⟨.success,p+1⟩ ∧ Holds (cells (q.index p)).message payload (p+1)
  | .returned payload (some p) result =>
    payload.length≤N ∧ result=⟨.success,p+1⟩ ∧
      ((cells (q.index p)).sequence=p+1 → Holds (cells (q.index p)).message payload (p+1))
  | .returned payload none result =>
    result=⟨.full,0⟩ ∨ (N<payload.length ∧ result=⟨.messageTooLarge,0⟩)

/-- The pop captured `value`, a push that has published `payload` at `p`. -/
def Captured (push : ι → PushCall) (value : Option ι) (p : ℕ) (payload : List Byte) : Prop :=
  ∃ i,value=some i ∧ (push i).Published payload p

/-- What a pop call knows at its program point, given the value that the
specification captured for it. -/
def PopOk (q : Ring) (cells : ℕ → Cell N) (push : ι → PushCall) (value : Option ι) :
    PopCall → Prop
  | .idle => True
  | .running original destination .loadPosition => destination=original
  | .running original destination (.loadSequence _) => destination=original
  | .running original destination (.compareExchange p) =>
    destination=original ∧ p+1≤(cells (q.index p)).sequence
  | .running original destination (.copy p pc) =>
    ∃ payload,Captured push value p payload ∧ CopyProgress payload original destination pc
  | .running original destination (.release p result) =>
    ∃ payload,Captured push value p payload ∧ (destination,result)=delivery payload (p+1) original
  | .returned original destination (some p) result =>
    ∃ payload,Captured push value p payload ∧ (destination,result)=delivery payload (p+1) original
  | .returned original destination none result =>
    destination=original ∧ result=⟨.empty,0,0⟩

/-- The simulation relation: refinement, the invariant of the specification
and what every call knows. -/
structure Sim (q : Ring) (s : State ι N) (t : MpmcTla.State ι) : Prop where
  /-- The specification state shows the state of the code. -/
  refines : Refines s t
  /-- The specification invariant. -/
  inv : MpmcTla.Inv q.capacity t
  /-- Knowledge of all pushes. -/
  push_ok : ∀ i,PushOk q s.cells (s.push i)
  /-- Knowledge of all pops. -/
  pop_ok : ∀ j,PopOk q s.cells s.push (t.popValue j) (s.pop j)

/-- The constructed queue is related to `Init`. -/
theorem sim_init (q : Ring) : Sim q (init ι N) MpmcTla.init where
  refines := by constructor <;> intros <;> rfl
  inv := MpmcTla.inv_init q.capacity
  push_ok := fun _ => trivial
  pop_ok := fun _ => trivial

/-- A push keeps its knowledge while sequences grow, provided its own cell
is untouched or it has published and the cell left its generation. -/
theorem PushOk.frame {q : Ring} {cells cells' : ℕ → Cell N} {call : PushCall}
    (h : PushOk q cells call)
    (hmono : ∀ index,(cells index).sequence≤(cells' index).sequence)
    (hcell : ∀ p,call.position=some p → cells' (q.index p)=cells (q.index p) ∨
      (pushPhase call=.published ∧ (cells' (q.index p)).sequence≠p+1)) :
    PushOk q cells' call := by
  cases call with
  | idle => trivial
  | running payload pc =>
    cases pc with
    | loadPosition => exact h
    | loadSequence p => exact h
    | compareExchange p => exact ⟨h.1,h.2.trans (hmono _)⟩
    | assign p pc =>
      rcases hcell p rfl with he | ⟨hpub,-⟩
      · simpa only [PushOk,he] using h
      · cases pc <;> cases hpub
    | publish p result =>
      rcases hcell p rfl with he | ⟨hpub,-⟩
      · simpa only [PushOk,he] using h
      · cases hpub
  | returned payload position result =>
    cases position with
    | none => exact h
    | some p =>
      rcases hcell p rfl with he | ⟨-,hne⟩
      · simpa only [PushOk,he] using h
      · exact ⟨h.1,h.2.1,fun hs => absurd hs hne⟩

/-- A pop keeps its knowledge while sequences grow and published pushes
keep what they published. -/
theorem PopOk.frame {q : Ring} {cells cells' : ℕ → Cell N} {push push' : ι → PushCall}
    {value : Option ι} {call : PopCall} (h : PopOk q cells push value call)
    (hmono : ∀ index,(cells index).sequence≤(cells' index).sequence)
    (hpush : ∀ i payload p,(push i).Published payload p → (push' i).Published payload p) :
    PopOk q cells' push' value call := by
  have hcap : ∀ {p payload},Captured push value p payload → Captured push' value p payload := by
    rintro p payload ⟨i,hv,hpub⟩
    exact ⟨i,hv,hpush i payload p hpub⟩
  cases call with
  | idle => trivial
  | running original destination pc =>
    cases pc with
    | loadPosition => exact h
    | loadSequence p => exact h
    | compareExchange p => exact ⟨h.1,h.2.trans (hmono _)⟩
    | copy p pc =>
      obtain ⟨payload,hc,hd⟩ := h
      exact ⟨payload,hcap hc,hd⟩
    | release p result =>
      obtain ⟨payload,hc,hd⟩ := h
      exact ⟨payload,hcap hc,hd⟩
  | returned original destination position result =>
    cases position with
    | none => exact h
    | some p =>
      obtain ⟨payload,hc,hd⟩ := h
      exact ⟨payload,hcap hc,hd⟩

/-- A call that has published is a returned call with its position. -/
theorem published_of_phase {call : PushCall} {p : ℕ} (hphase : pushPhase call=.published)
    (hp : call.position=some p) : ∃ payload,call.Published payload p := by
  cases call with
  | idle => cases hphase
  | running payload pc =>
    cases pc with
    | assign p pc => cases pc <;> cases hphase
    | _ => cases hphase
  | returned payload position result =>
    cases hp
    exact ⟨payload,result,rfl⟩

/-- The phase of a published call. -/
theorem PushCall.Published.phase {call : PushCall} {payload : List Byte} {p : ℕ}
    (h : call.Published payload p) : pushPhase call=.published ∧ call.position=some p := by
  obtain ⟨result,rfl⟩ := h
  exact ⟨rfl,rfl⟩

section Step

variable {q : Ring} {s : State ι N} {t : MpmcTla.State ι}

/-- A push that owns its cell sees its own position there. -/
theorem Sim.writing (h : Sim q s t) {i : ι} {p : ℕ} (hp : (s.push i).position=some p)
    (hw : pushPhase (s.push i)=.claimed ∨ pushPhase (s.push i)=.written) :
    (s.cells (q.index p)).sequence=p := by
  have hi := h.inv.writing i p (by rw [h.refines.pushPosition_eq,hp])
    (by simpa only [MpmcTla.Writing,h.refines.pushPhase_eq] using hw)
  rw [h.refines.sequence,← q.index_eq_mod] at hi
  exact hi

/-- A pop that owns its cell sees the published sequence there. -/
theorem Sim.reading (h : Sim q s t) {j : ι} {p : ℕ} (hp : (s.pop j).position=some p)
    (hr : popPhase (s.pop j)=.claimed) : (s.cells (q.index p)).sequence=p+1 := by
  have hj := h.inv.reading j p (by rw [h.refines.popPosition_eq,hp])
    (by rw [h.refines.popPhase_eq,hr])
  rw [h.refines.sequence,← q.index_eq_mod] at hj
  exact hj

/-- A position is claimed by one push only. -/
theorem Sim.push_unique (h : Sim q s t) {i i' : ι} {p : ℕ} (hp : (s.push i).position=some p)
    (hp' : (s.push i').position=some p) : i=i' :=
  h.inv.push_unique i i' p (by rw [h.refines.pushPosition_eq,hp])
    (by rw [h.refines.pushPosition_eq,hp'])

/-- No position is claimed by two pops. -/
theorem Sim.pop_unique (h : Sim q s t) {j j' : ι} {p : ℕ} (hp : (s.pop j).position=some p)
    (hp' : (s.pop j').position=some p) : j=j' :=
  h.inv.pop_unique j j' p (by rw [h.refines.popPosition_eq,hp])
    (by rw [h.refines.popPosition_eq,hp'])

/-- The enqueue counter counts the positions claimed by pushes. -/
theorem Sim.push_claimed_iff (h : Sim q s t) (p : ℕ) :
    p < s.enqueuePos ↔ ∃ i,(s.push i).position=some p := by
  have hclaims := h.inv.push_claims p
  simpa only [h.refines.enqueue,h.refines.pushPosition_eq] using hclaims

/-- The dequeue counter counts the positions claimed by pops. -/
theorem Sim.pop_claimed_iff (h : Sim q s t) (p : ℕ) :
    p < s.dequeuePos ↔ ∃ j,(s.pop j).position=some p := by
  have hclaims := h.inv.pop_claims p
  simpa only [h.refines.dequeue,h.refines.popPosition_eq] using hclaims

/-- A push with a position owns its cell or has published. -/
theorem Sim.started (h : Sim q s t) {i : ι} {p : ℕ} (hp : (s.push i).position=some p) :
    (pushPhase (s.push i)=.claimed ∨ pushPhase (s.push i)=.written) ∨
      pushPhase (s.push i)=.published := by
  have hi := h.inv.started (i:=i) (p:=p) (by rw [h.refines.pushPosition_eq,hp])
  simpa only [MpmcTla.Writing,h.refines.pushPhase_eq] using hi

/-- Positions in one cell are never neighbours. -/
theorem ne_succ_of_same_cell (q : Ring) {p p' : ℕ} (h : q.index p=q.index p') : p≠p'+1 :=
  RingIndex.ne_succ_of_index_eq q.two_le (by rw [← q.index_eq_mod,← q.index_eq_mod,h])

/-- Cell sequences after replacing one cell. -/
theorem update_sequence (cells : ℕ → Cell N) (index other : ℕ) (cell : Cell N) :
    (update cells index cell other).sequence=
      if other=index then cell.sequence else (cells other).sequence := by
  by_cases h : other=index
  · rw [h,update_self,if_pos rfl]
  · rw [update_of_ne h,if_neg h]

/-- Replacing a cell by one with a larger sequence lets sequences grow. -/
theorem update_sequence_mono {cells : ℕ → Cell N} {index : ℕ} {cell : Cell N}
    (h : (cells index).sequence≤cell.sequence) (other : ℕ) :
    (cells other).sequence≤(update cells index cell other).sequence := by
  rw [update_sequence]
  split
  · rename_i he
    rw [he]
    exact h
  · exact le_rfl

/-- Replacing the cell of `p` leaves another push alone, unless that push is
in the same cell and has published an older generation. -/
theorem Sim.push_ok_other (h : Sim q s t) {i' : ι} {p : ℕ} (cell : Cell N)
    (hmono : (s.cells (q.index p)).sequence≤cell.sequence)
    (hsame : ∀ p',(s.push i').position=some p' → q.index p'=q.index p →
      pushPhase (s.push i')=.published ∧ cell.sequence≠p'+1) :
    PushOk q (update s.cells (q.index p) cell) (s.push i') := by
  apply (h.push_ok i').frame (update_sequence_mono hmono)
  intro p' hp'
  by_cases he : q.index p'=q.index p
  · have hs := hsame p' hp' he
    refine .inr ⟨hs.1,?_⟩
    rw [he,update_self]
    exact hs.2
  · exact .inl (update_of_ne he _ _)

/-- Another push that shares the cell of a push owning it has published. -/
theorem Sim.shared_published (h : Sim q s t) {i i' : ι} {p p' : ℕ} (hne : i'≠i)
    (hp : (s.push i).position=some p)
    (hw : pushPhase (s.push i)=.claimed ∨ pushPhase (s.push i)=.written)
    (hp' : (s.push i').position=some p') (hidx : q.index p'=q.index p) :
    pushPhase (s.push i')=.published := by
  rcases h.started hp' with hw' | hpub
  · have hown := h.writing hp hw
    have hother := h.writing hp' hw'
    rw [hidx,hown] at hother
    exact absurd (h.push_unique hp' (hother ▸ hp)) hne
  · exact hpub

/-- A message write by the push that owns the cell leaves all other pushes
with what they know. -/
theorem Sim.push_ok_message (h : Sim q s t) {i : ι} {p : ℕ} (hp : (s.push i).position=some p)
    (hw : pushPhase (s.push i)=.claimed ∨ pushPhase (s.push i)=.written)
    (message : FixedMessage N) (i' : ι) (hne : i'≠i) :
    PushOk q (update s.cells (q.index p) ⟨(s.cells (q.index p)).sequence,message⟩)
      (s.push i') := by
  refine h.push_ok_other ⟨(s.cells (q.index p)).sequence,message⟩ le_rfl ?_
  intro p' hp' hidx
  refine ⟨h.shared_published hne hp hw hp' hidx,?_⟩
  have hown := h.writing hp hw
  simp only [hown]
  exact ne_succ_of_same_cell q hidx.symm

/-- A message write changes no cell sequence. -/
theorem message_sequence (cells : ℕ → Cell N) (index other : ℕ) (message : FixedMessage N) :
    (update cells index ⟨(cells index).sequence,message⟩ other).sequence=
      (cells other).sequence := by
  rw [update_sequence]
  split
  · rename_i he
    rw [he]
  · rfl

/-- The cell tested at an earlier load still shows the position when the
compare-exchange of the push succeeds. -/
theorem Sim.push_guard (h : Sim q s t) {i : ι} {payload : List Byte}
    (hi : s.push i=.running payload (.compareExchange s.enqueuePos)) :
    (t.cells (t.enqueuePosition%q.capacity)).sequence=t.enqueuePosition := by
  have hok := h.push_ok i
  rw [hi] at hok
  have hle := hok.2
  have hbound := h.inv.push_bound t.enqueuePosition le_rfl
  rw [q.index_eq_mod,← h.refines.sequence,← h.refines.enqueue] at hle
  omega

/-- The cell tested at an earlier load still shows the published sequence
when the compare-exchange of the pop succeeds. -/
theorem Sim.pop_guard (h : Sim q s t) {j : ι} {original destination : List Byte}
    (hj : s.pop j=.running original destination (.compareExchange s.dequeuePos)) :
    (t.cells (t.dequeuePosition%q.capacity)).sequence=t.dequeuePosition+1 := by
  have hok := h.pop_ok j
  rw [hj] at hok
  have hle := hok.2
  have hbound := h.inv.pop_bound t.dequeuePosition le_rfl
  rw [q.index_eq_mod,← h.refines.sequence,← h.refines.dequeue] at hle
  omega

/-- The cell of a claimed pop still holds the captured payload. -/
theorem Sim.captured_holds (h : Sim q s t) {j : ι} {p : ℕ} {payload : List Byte}
    (hp : (s.pop j).position=some p) (hr : popPhase (s.pop j)=.claimed)
    (hc : Captured s.push (t.popValue j) p payload) :
    Holds (s.cells (q.index p)).message payload (p+1) := by
  obtain ⟨i,-,result,hi⟩ := hc
  have hok := h.push_ok i
  rw [hi] at hok
  exact hok.2.2 (h.reading hp hr)

variable [DecidableEq ι]

/-- A step of one push, matched by a specification state that differs in the
same counter, cells and push. -/
theorem Sim.push_step (h : Sim q s t) {i : ι} {call : PushCall} (cells : ℕ → Cell N) {e : ℕ}
    {t' : MpmcTla.State ι} (hinv : MpmcTla.Inv q.capacity t')
    (hseq : ∀ index,(t'.cells index).sequence=(cells index).sequence)
    (he : t'.enqueuePosition=e) (hd : t'.dequeuePosition=t.dequeuePosition)
    (hphase : t'.pushPhase=update t.pushPhase i (pushPhase call))
    (hpos : t'.pushPosition=update t.pushPosition i call.position)
    (hpop : t'.popPhase=t.popPhase ∧ t'.popPosition=t.popPosition ∧ t'.popValue=t.popValue)
    (hmono : ∀ index,(s.cells index).sequence≤(cells index).sequence)
    (hold : pushPhase (s.push i)≠.published) (hok : PushOk q cells call)
    (hothers : ∀ i'≠i,PushOk q cells (s.push i')) :
    Sim q {s with cells := cells, enqueuePos := e, push := update s.push i call} t' := by
  have hpublished : ∀ i' payload p,(s.push i').Published payload p →
      (update s.push i call i').Published payload p := by
    intro i' payload p hpub
    have hne : i'≠i := by
      rintro rfl
      exact hold (PushCall.Published.phase hpub).1
    rwa [update_of_ne hne]
  refine ⟨⟨hseq,he,hd.trans h.refines.dequeue,?_,?_,?_,?_⟩,hinv,?_,?_⟩
  · intro i'
    by_cases hi : i'=i
    · subst hi
      simp only [hphase,update_self]
    · simp only [hphase,update_of_ne hi,h.refines.pushPhase_eq]
  · intro i'
    by_cases hi : i'=i
    · subst hi
      simp only [hpos,update_self]
    · simp only [hpos,update_of_ne hi,h.refines.pushPosition_eq]
  · intro j
    rw [hpop.1,h.refines.popPhase_eq]
  · intro j
    rw [hpop.2.1,h.refines.popPosition_eq]
  · intro i'
    by_cases hi : i'=i
    · subst hi
      simpa only [update_self] using hok
    · simpa only [update_of_ne hi] using hothers i' hi
  · intro j
    rw [hpop.2.2]
    exact (h.pop_ok j).frame hmono hpublished

/-- A step of one push that the specification does not see. -/
theorem Sim.push_stutter (h : Sim q s t) {i : ι} {call : PushCall} (cells : ℕ → Cell N)
    (hseq : ∀ index,(cells index).sequence=(s.cells index).sequence)
    (hphase : pushPhase call=pushPhase (s.push i)) (hpos : call.position=(s.push i).position)
    (hold : pushPhase (s.push i)≠.published) (hok : PushOk q cells call)
    (hothers : ∀ i'≠i,PushOk q cells (s.push i')) :
    Sim q {s with cells := cells, push := update s.push i call} t := by
  have hphase' : t.pushPhase=update t.pushPhase i (pushPhase call) := by
    rw [hphase,← h.refines.pushPhase_eq,update_eq_self]
  have hpos' : t.pushPosition=update t.pushPosition i call.position := by
    rw [hpos,← h.refines.pushPosition_eq,update_eq_self]
  exact h.push_step cells h.inv (fun index => by rw [h.refines.sequence,hseq]) h.refines.enqueue rfl
    hphase' hpos' ⟨rfl,rfl,rfl⟩ (fun index => (hseq index).ge) hold hok hothers

/-- A push step that only changes the local variables of the push. -/
theorem Sim.push_local (h : Sim q s t) {i : ι} {call : PushCall}
    (hphase : pushPhase call=pushPhase (s.push i)) (hpos : call.position=(s.push i).position)
    (hold : pushPhase (s.push i)≠.published) (hok : PushOk q s.cells call) :
    Sim q (s.setPush i call) t :=
  h.push_stutter s.cells (fun _ => rfl) hphase hpos hold hok (fun i' _ => h.push_ok i')

/-- A step of one pop, matched by a specification state that differs in the
same counter, cells and pop. -/
theorem Sim.pop_step (h : Sim q s t) {j : ι} {call : PopCall} (cells : ℕ → Cell N) {d : ℕ}
    {value : Option ι} {t' : MpmcTla.State ι} (hinv : MpmcTla.Inv q.capacity t')
    (hseq : ∀ index,(t'.cells index).sequence=(cells index).sequence)
    (he : t'.enqueuePosition=t.enqueuePosition) (hd : t'.dequeuePosition=d)
    (hpush : t'.pushPhase=t.pushPhase ∧ t'.pushPosition=t.pushPosition)
    (hphase : t'.popPhase=update t.popPhase j (popPhase call))
    (hpos : t'.popPosition=update t.popPosition j call.position)
    (hvalue : t'.popValue=update t.popValue j value)
    (hmono : ∀ index,(s.cells index).sequence≤(cells index).sequence)
    (hok : PopOk q cells s.push value call) (hpushes : ∀ i,PushOk q cells (s.push i)) :
    Sim q {s with cells := cells, dequeuePos := d, pop := update s.pop j call} t' := by
  refine ⟨⟨hseq,he.trans h.refines.enqueue,hd,?_,?_,?_,?_⟩,hinv,hpushes,?_⟩
  · intro i
    rw [hpush.1,h.refines.pushPhase_eq]
  · intro i
    rw [hpush.2,h.refines.pushPosition_eq]
  · intro j'
    by_cases hj : j'=j
    · subst hj
      simp only [hphase,update_self]
    · simp only [hphase,update_of_ne hj,h.refines.popPhase_eq]
  · intro j'
    by_cases hj : j'=j
    · subst hj
      simp only [hpos,update_self]
    · simp only [hpos,update_of_ne hj,h.refines.popPosition_eq]
  · intro j'
    rw [hvalue]
    by_cases hj : j'=j
    · subst hj
      simpa only [update_self] using hok
    · simp only [update_of_ne hj]
      exact (h.pop_ok j').frame hmono (fun _ _ _ hp => hp)

/-- A pop step that only changes the local variables of the pop. -/
theorem Sim.pop_local (h : Sim q s t) {j : ι} {call : PopCall}
    (hphase : popPhase call=popPhase (s.pop j)) (hpos : call.position=(s.pop j).position)
    (hok : PopOk q s.cells s.push (t.popValue j) call) : Sim q (s.setPop j call) t := by
  have hphase' : t.popPhase=update t.popPhase j (popPhase call) := by
    rw [hphase,← h.refines.popPhase_eq,update_eq_self]
  have hpos' : t.popPosition=update t.popPosition j call.position := by
    rw [hpos,← h.refines.popPosition_eq,update_eq_self]
  exact h.pop_step s.cells h.inv h.refines.sequence rfl h.refines.dequeue ⟨rfl,rfl⟩ hphase' hpos'
    (update_eq_self j t.popValue).symm (fun _ => le_rfl) hok h.push_ok

/-- Entering or continuing the byte loop of `assign` is the phase `claimed`. -/
theorem pushPhase_assignFrom (bytes payload : List Byte) (p index : ℕ) :
    pushPhase (.running bytes (.assign p (assignFrom payload index)))=.claimed := by
  unfold assignFrom
  split <;> rfl

/-- The compare-exchange of a push is `PushClaim` or invisible. -/
theorem Sim.push_compareExchange (h : Sim q s t) {i : ι} {payload : List Byte} {p : ℕ}
    (hi : s.push i=.running payload (.compareExchange p)) (spurious : Bool) :
    (pushLabel s i spurious (.compareExchange p)=none ∧
      Sim q (stepPush id q s i payload spurious (.compareExchange p)) t) ∨
    ∃ l t',pushLabel s i spurious (.compareExchange p)=some l ∧ MpmcTla.Next q.capacity l t t' ∧
      Sim q (stepPush id q s i payload spurious (.compareExchange p)) t' := by
  have hok := h.push_ok i
  rw [hi] at hok
  have hnp : pushPhase (s.push i)≠.published := by rw [hi]; simp [pushPhase]
  by_cases hcas : s.enqueuePos=p ∧ spurious=false
  · right
    have hp := hcas.1
    subst hp
    have hguard := h.push_guard hi
    have hidle : t.pushPhase i=.idle := by rw [h.refines.pushPhase_eq,hi]; rfl
    have hclaim : MpmcTla.PushClaim q.capacity i t _ := ⟨hidle,hguard,rfl⟩
    have henter := assignEnter_progress (s.enqueuePos+1) (s.cells (q.index s.enqueuePos)).message hok.1
    refine ⟨.pushClaim i,_,if_pos hcas,hclaim,?_⟩
    rw [stepPush,if_pos hcas]
    simp only [id,henter.1,afterAssign]
    refine h.push_step s.cells (h.inv.pushClaim q.two_le hclaim) h.refines.sequence ?_ rfl ?_ ?_
      ⟨rfl,rfl,rfl⟩ (fun _ => le_rfl) hnp ⟨hok.1,henter.2⟩ (fun i' _ => h.push_ok i')
    · simp only [h.refines.enqueue]
    · rw [pushPhase_assignFrom]
    · simp only [PushCall.position,h.refines.enqueue]
  · left
    refine ⟨if_neg hcas,?_⟩
    rw [stepPush,if_neg hcas]
    exact h.push_local (by rw [hi]; rfl) (by rw [hi]; rfl) hnp hok.1

/-- An access of `assign` is `PushWrite` at the last store, else invisible. -/
theorem Sim.push_assign (h : Sim q s t) {i : ι} {payload : List Byte} {p : ℕ} {pc : AssignPc}
    (hi : s.push i=.running payload (.assign p pc)) (spurious : Bool) :
    (pushLabel s i spurious (.assign p pc)=none ∧
      Sim q (stepPush id q s i payload spurious (.assign p pc)) t) ∨
    ∃ l t',pushLabel s i spurious (.assign p pc)=some l ∧ MpmcTla.Next q.capacity l t t' ∧
      Sim q (stepPush id q s i payload spurious (.assign p pc)) t' := by
  have hok := h.push_ok i
  rw [hi] at hok
  have hp : (s.push i).position=some p := by rw [hi]; rfl
  have hw : pushPhase (s.push i)=.claimed ∨ pushPhase (s.push i)=.written := by
    rw [hi]
    cases pc <;> simp [pushPhase]
  have hnp : pushPhase (s.push i)≠.published := by
    rcases hw with hw | hw <;> rw [hw] <;> simp
  have hprogress := assignStep_progress hok.1 hok.2
  let message := (assignStep payload (p+1) (s.cells (q.index p)).message pc).1
  let cells := update s.cells (q.index p) ⟨(s.cells (q.index p)).sequence,message⟩
  have hcell : (cells (q.index p)).message=message := by simp only [cells,update_self]
  have hseq : ∀ index,(cells index).sequence=(s.cells index).sequence :=
    fun index => message_sequence s.cells (q.index p) index message
  have hothers := h.push_ok_message hp hw message
  cases pc with
  | copy index =>
    refine .inl ⟨rfl,h.push_stutter cells hseq ?_ hp.symm hnp ⟨hok.1,?_⟩ hothers⟩
    · rw [hi]
      exact pushPhase_assignFrom _ _ _ _
    · rw [hcell]
      exact hprogress
  | storeSize =>
    refine .inl ⟨rfl,h.push_stutter cells hseq (by rw [hi]; rfl) hp.symm hnp ⟨hok.1,?_⟩ hothers⟩
    rw [hcell]
    exact hprogress
  | storeSequence =>
    right
    have hclaimed : t.pushPhase i=.claimed := by rw [h.refines.pushPhase_eq,hi]; rfl
    have hpos : t.pushPosition i=some p := by rw [h.refines.pushPosition_eq,hp]
    have hkeep : t.pushPosition=update t.pushPosition i (some p) := by rw [← hpos,update_eq_self]
    have hwrite : MpmcTla.PushWrite q.capacity i t _ := ⟨hclaimed,p,hpos,rfl⟩
    refine ⟨.pushWrite i,_,rfl,hwrite,?_⟩
    refine h.push_step cells (h.inv.pushWrite q.two_le hwrite) ?_ h.refines.enqueue rfl rfl ?_
      ⟨rfl,rfl,rfl⟩ (fun index => (hseq index).ge) hnp ⟨hok.1,?_⟩ hothers
    · intro index
      rw [MpmcTla.storeValue_sequence,hseq,h.refines.sequence]
    · exact hkeep
    · rw [hcell]
      exact hprogress
  | loadSequence =>
    refine .inl ⟨rfl,h.push_stutter cells hseq (by rw [hi]; rfl) hp.symm hnp
      ⟨hok.1,hprogress.1,?_⟩ hothers⟩
    rw [hcell]
    exact hprogress.2

/-- The publishing store is `PushPublish`. -/
theorem Sim.push_publish (h : Sim q s t) {i : ι} {payload : List Byte} {p : ℕ}
    {result : WriteResult} (hi : s.push i=.running payload (.publish p result)) (spurious : Bool) :
    ∃ l t',pushLabel s i spurious (.publish p result)=some l ∧ MpmcTla.Next q.capacity l t t' ∧
      Sim q (stepPush id q s i payload spurious (.publish p result)) t' := by
  have hok := h.push_ok i
  rw [hi] at hok
  have hp : (s.push i).position=some p := by rw [hi]; rfl
  have hphase : pushPhase (s.push i)=.written := by rw [hi]; rfl
  have hown := h.writing hp (.inr hphase)
  have hwritten : t.pushPhase i=.written := by rw [h.refines.pushPhase_eq,hphase]
  have hpos : t.pushPosition i=some p := by rw [h.refines.pushPosition_eq,hp]
  have hkeep : t.pushPosition=update t.pushPosition i (some p) := by rw [← hpos,update_eq_self]
  have hpublish : MpmcTla.PushPublish q.capacity i t _ := ⟨hwritten,p,hpos,rfl⟩
  have hgrow : (s.cells (q.index p)).sequence≤p+1 := by omega
  let cell : Cell N := ⟨p+1,(s.cells (q.index p)).message⟩
  let cells := update s.cells (q.index p) cell
  refine ⟨.pushPublish i,_,rfl,hpublish,?_⟩
  refine h.push_step cells (h.inv.pushPublish q.two_le hpublish) ?_ h.refines.enqueue rfl rfl ?_
    ⟨rfl,rfl,rfl⟩ (update_sequence_mono hgrow) (by rw [hphase]; simp) ⟨hok.1,hok.2.1,?_⟩ ?_
  · intro index
    rw [MpmcTla.storeSequence_sequence,update_sequence,← q.index_eq_mod,h.refines.sequence]
  · exact hkeep
  · intro _
    simpa only [cells,update_self] using hok.2.2
  · intro i' hne
    refine h.push_ok_other cell hgrow ?_
    intro p' hp' hidx
    refine ⟨h.shared_published hne hp (.inr hphase) hp' hidx,?_⟩
    intro hs
    have he : p=p' := Nat.succ.inj hs
    exact hne (h.push_unique hp' (he ▸ hp))

/-- Every access of a push is matched. -/
theorem Sim.stepPush (h : Sim q s t) {i : ι} {payload : List Byte} {pc : PushPc}
    (hi : s.push i=.running payload pc) (spurious : Bool) :
    (pushLabel s i spurious pc=none ∧ Sim q (stepPush id q s i payload spurious pc) t) ∨
    ∃ l t',pushLabel s i spurious pc=some l ∧ MpmcTla.Next q.capacity l t t' ∧
      Sim q (stepPush id q s i payload spurious pc) t' := by
  have hok := h.push_ok i
  rw [hi] at hok
  cases pc with
  | loadPosition =>
    exact .inl ⟨rfl,h.push_local (by rw [hi]; rfl) (by rw [hi]; rfl) (by rw [hi]; simp [pushPhase]) hok⟩
  | loadSequence p =>
    refine .inl ⟨rfl,?_⟩
    simp only [MpmcModel.stepPush]
    split
    · rename_i hs
      exact h.push_local (by rw [hi]; rfl) (by rw [hi]; rfl) (by rw [hi]; simp [pushPhase])
        ⟨hok,hs.ge⟩
    · split
      · exact h.push_local (by rw [hi]; rfl) (by rw [hi]; rfl) (by rw [hi]; simp [pushPhase])
          (.inl rfl)
      · exact h.push_local (by rw [hi]; rfl) (by rw [hi]; rfl) (by rw [hi]; simp [pushPhase]) hok
  | compareExchange p => exact h.push_compareExchange hi spurious
  | assign p pc => exact h.push_assign hi spurious
  | publish p result => exact .inr (h.push_publish hi spurious)

/-- The compare-exchange of a pop is `PopClaim` or invisible. -/
theorem Sim.pop_compareExchange (h : Sim q s t) {j : ι} {original destination : List Byte} {p : ℕ}
    (hj : s.pop j=.running original destination (.compareExchange p)) (spurious : Bool) :
    (popLabel s j spurious (.compareExchange p)=none ∧
      Sim q (stepPop id q s j original destination spurious (.compareExchange p)) t) ∨
    ∃ l t',popLabel s j spurious (.compareExchange p)=some l ∧ MpmcTla.Next q.capacity l t t' ∧
      Sim q (stepPop id q s j original destination spurious (.compareExchange p)) t' := by
  have hok := h.pop_ok j
  rw [hj] at hok
  by_cases hcas : s.dequeuePos=p ∧ spurious=false
  · right
    have hp := hcas.1
    subst hp
    have hguard := h.pop_guard hj
    have hidle : t.popPhase j=.idle := by rw [h.refines.popPhase_eq,hj]; rfl
    have hclaim : MpmcTla.PopClaim q.capacity j t _ := ⟨hidle,hguard,rfl⟩
    have hinv := h.inv.popClaim hclaim
    obtain ⟨i,hv,hpos,hpub⟩ := hinv.captured j t.dequeuePosition (update_self _ _ _)
    dsimp only at hv hpos hpub
    rw [update_self] at hv
    rw [h.refines.pushPosition_eq,h.refines.dequeue] at hpos
    rw [h.refines.pushPhase_eq] at hpub
    obtain ⟨payload,hpayload⟩ := published_of_phase hpub hpos
    refine ⟨.popClaim j,_,if_pos hcas,hclaim,?_⟩
    rw [stepPop,if_pos hcas]
    refine h.pop_step s.cells hinv h.refines.sequence rfl ?_ ⟨rfl,rfl⟩ rfl ?_ rfl
      (fun _ => le_rfl) ⟨payload,⟨i,hv,hpayload⟩,hok.1⟩ h.push_ok
    · simp only [h.refines.dequeue,id]
    · simp only [PopCall.position,h.refines.dequeue]
  · left
    refine ⟨if_neg hcas,?_⟩
    rw [stepPop,if_neg hcas]
    exact h.pop_local (by rw [hj]; rfl) (by rw [hj]; rfl) hok.1

/-- An access of `copy_to` is invisible, and delivers the captured payload. -/
theorem Sim.pop_copy (h : Sim q s t) {j : ι} {original destination : List Byte} {p : ℕ}
    {pc : CopyPc} (hj : s.pop j=.running original destination (.copy p pc)) (spurious : Bool) :
    Sim q (stepPop id q s j original destination spurious (.copy p pc)) t := by
  have hok := h.pop_ok j
  rw [hj] at hok
  obtain ⟨payload,hcap,hprogress⟩ := hok
  have hp : (s.pop j).position=some p := by rw [hj]; rfl
  have hr : popPhase (s.pop j)=.claimed := by rw [hj]; rfl
  have hnext := copyStep_progress (h.captured_holds hp hr hcap) hprogress
  rw [stepPop]
  cases hpc : (copyStep (s.cells (q.index p)).message destination pc).2 with
  | running pc' =>
    rw [hpc] at hnext
    exact h.pop_local (by rw [hj]; rfl) (by rw [hj]; rfl) ⟨payload,hcap,hnext⟩
  | finished result =>
    rw [hpc] at hnext
    exact h.pop_local (by rw [hj]; rfl) (by rw [hj]; rfl) ⟨payload,hcap,hnext⟩

/-- The releasing store is `PopRelease`. -/
theorem Sim.pop_release (h : Sim q s t) {j : ι} {original destination : List Byte} {p : ℕ}
    {result : ReadResult} (hj : s.pop j=.running original destination (.release p result))
    (spurious : Bool) :
    ∃ l t',popLabel s j spurious (.release p result)=some l ∧ MpmcTla.Next q.capacity l t t' ∧
      Sim q (stepPop id q s j original destination spurious (.release p result)) t' := by
  have hok := h.pop_ok j
  rw [hj] at hok
  have hp : (s.pop j).position=some p := by rw [hj]; rfl
  have hphase : popPhase (s.pop j)=.claimed := by rw [hj]; rfl
  have hown := h.reading hp hphase
  have hclaimed : t.popPhase j=.claimed := by rw [h.refines.popPhase_eq,hphase]
  have hpos : t.popPosition j=some p := by rw [h.refines.popPosition_eq,hp]
  have hkeep : t.popPosition=update t.popPosition j (some p) := by rw [← hpos,update_eq_self]
  have hrelease : MpmcTla.PopRelease q.capacity j t _ := ⟨hclaimed,p,hpos,rfl⟩
  have htwo := q.two_le
  have hgrow : (s.cells (q.index p)).sequence≤p+q.capacity := by omega
  let cell : Cell N := ⟨p+q.capacity,(s.cells (q.index p)).message⟩
  let cells := update s.cells (q.index p) cell
  refine ⟨.popRelease j,_,rfl,hrelease,?_⟩
  refine h.pop_step cells (h.inv.popRelease q.two_le hrelease) ?_ rfl h.refines.dequeue ⟨rfl,rfl⟩
    rfl hkeep (update_eq_self j t.popValue).symm (update_sequence_mono hgrow) hok ?_
  · intro index
    rw [MpmcTla.storeSequence_sequence,update_sequence,← q.index_eq_mod,h.refines.sequence]
  · intro i'
    refine h.push_ok_other cell hgrow ?_
    intro p' hp' hidx
    constructor
    · rcases h.started hp' with hw | hpub
      · have hother := h.writing hp' hw
        rw [hidx,hown] at hother
        exact absurd hother.symm (ne_succ_of_same_cell q hidx)
      · exact hpub
    · have hlap : (p+q.capacity)%q.capacity=p'%q.capacity := by
        rw [Nat.add_mod_right,← q.index_eq_mod,← q.index_eq_mod,hidx]
      exact RingIndex.ne_succ_of_index_eq q.two_le hlap

/-- Every access of a pop is matched. -/
theorem Sim.stepPop (h : Sim q s t) {j : ι} {original destination : List Byte} {pc : PopPc}
    (hj : s.pop j=.running original destination pc) (spurious : Bool) :
    (popLabel s j spurious pc=none ∧
      Sim q (stepPop id q s j original destination spurious pc) t) ∨
    ∃ l t',popLabel s j spurious pc=some l ∧ MpmcTla.Next q.capacity l t t' ∧
      Sim q (stepPop id q s j original destination spurious pc) t' := by
  have hok := h.pop_ok j
  rw [hj] at hok
  cases pc with
  | loadPosition => exact .inl ⟨rfl,h.pop_local (by rw [hj]; rfl) (by rw [hj]; rfl) hok⟩
  | loadSequence p =>
    refine .inl ⟨rfl,?_⟩
    simp only [MpmcModel.stepPop]
    split
    · rename_i hs
      exact h.pop_local (by rw [hj]; rfl) (by rw [hj]; rfl) ⟨hok,hs.ge⟩
    · split
      · exact h.pop_local (by rw [hj]; rfl) (by rw [hj]; rfl) ⟨hok,rfl⟩
      · exact h.pop_local (by rw [hj]; rfl) (by rw [hj]; rfl) hok
  | compareExchange p => exact h.pop_compareExchange hj spurious
  | copy p pc => exact .inl ⟨rfl,h.pop_copy hj spurious⟩
  | release p result => exact .inr (h.pop_release hj spurious)

/-- Calls of `empty` change nothing the specification sees. -/
theorem Sim.probe_local (h : Sim q s t) (i : ι) (call : EmptyCall) :
    Sim q (s.setProbe i call) t := ⟨⟨h.refines.sequence,h.refines.enqueue,h.refines.dequeue,
      h.refines.pushPhase_eq,h.refines.pushPosition_eq,h.refines.popPhase_eq,
      h.refines.popPosition_eq⟩,h.inv,h.push_ok,h.pop_ok⟩

/-- Every scheduled step is matched. -/
theorem Sim.step (h : Sim q s t) {a : Action ι} {s' : State ι N}
    (hs : (system id q ι N).step s a=some s') :
    (label s a=none ∧ Sim q s' t) ∨
      ∃ l t',label s a=some l ∧ MpmcTla.Next q.capacity l t t' ∧ Sim q s' t' := by
  cases a with
  | callPush i payload =>
    cases hi : s.push i with
    | idle =>
      simp only [system,MpmcModel.step,hi,Option.some.injEq] at hs
      subst hs
      refine .inl ⟨rfl,?_⟩
      unfold enterPush
      split
      · rename_i hp
        exact h.push_local (by rw [hi]; rfl) (by rw [hi]; rfl) (by rw [hi]; simp [pushPhase])
          (.inr ⟨hp,rfl⟩)
      · rename_i hp
        exact h.push_local (by rw [hi]; rfl) (by rw [hi]; rfl) (by rw [hi]; simp [pushPhase])
          (Nat.le_of_not_lt hp)
    | running payload pc => simp [system,MpmcModel.step,hi] at hs
    | returned payload position result => simp [system,MpmcModel.step,hi] at hs
  | push i spurious =>
    cases hi : s.push i with
    | idle => simp [system,MpmcModel.step,hi] at hs
    | running payload pc =>
      simp only [system,MpmcModel.step,hi,Option.some.injEq] at hs
      subst hs
      simp only [label,hi]
      exact h.stepPush hi spurious
    | returned payload position result => simp [system,MpmcModel.step,hi] at hs
  | callPop j destination =>
    cases hj : s.pop j with
    | idle =>
      simp only [system,MpmcModel.step,hj,Option.some.injEq] at hs
      subst hs
      exact .inl ⟨rfl,h.pop_local (by rw [hj]; rfl) (by rw [hj]; rfl) rfl⟩
    | running original destination pc => simp [system,MpmcModel.step,hj] at hs
    | returned original destination position result => simp [system,MpmcModel.step,hj] at hs
  | pop j spurious =>
    cases hj : s.pop j with
    | idle => simp [system,MpmcModel.step,hj] at hs
    | running original destination pc =>
      simp only [system,MpmcModel.step,hj,Option.some.injEq] at hs
      subst hs
      simp only [label,hj]
      exact h.stepPop hj spurious
    | returned original destination position result => simp [system,MpmcModel.step,hj] at hs
  | callEmpty i =>
    refine .inl ⟨rfl,?_⟩
    cases hi : s.probe i with
    | idle =>
      simp only [system,MpmcModel.step,hi,Option.some.injEq] at hs
      subst hs
      exact h.probe_local i _
    | _ => simp [system,MpmcModel.step,hi] at hs
  | empty i =>
    refine .inl ⟨rfl,?_⟩
    cases hi : s.probe i with
    | loadPosition =>
      simp only [system,MpmcModel.step,hi,Option.some.injEq] at hs
      subst hs
      exact h.probe_local i _
    | loadSequence p =>
      simp only [system,MpmcModel.step,hi,Option.some.injEq] at hs
      subst hs
      exact h.probe_local i _
    | _ => simp [system,MpmcModel.step,hi] at hs

end Step

/-- Every reachable state is related to some specification state. -/
theorem reachable_sim {ι : Type} [DecidableEq ι] {N : ℕ} {q : Ring} {s : State ι N}
    (h : Reachable (system id q ι N) s) : ∃ t,Sim q s t := by
  refine Reachable.invariant (I:=fun s => ∃ t,Sim q s t) ⟨MpmcTla.init,sim_init q⟩ ?_ h
  rintro s a s' - ⟨t,ht⟩ hs
  rcases ht.step hs with ⟨-,hsim⟩ | ⟨l,t',-,-,hsim⟩
  · exact ⟨t,hsim⟩
  · exact ⟨t',hsim⟩

/-- A claim test made at an earlier load still holds where the
compare-exchange of the same call would now succeed. -/
structure GuardsHold (q : Ring) (s : State ι N) : Prop where
  /-- The guard of `PushClaim` at a compare-exchange that can succeed. -/
  push : ∀ i payload,s.push i=.running payload (.compareExchange s.enqueuePos) →
    (s.cells (q.index s.enqueuePos)).sequence=s.enqueuePos
  /-- The guard of `PopClaim` at a compare-exchange that can succeed. -/
  pop : ∀ j original destination,
    s.pop j=.running original destination (.compareExchange s.dequeuePos) →
    (s.cells (q.index s.dequeuePos)).sequence=s.dequeuePos+1

/-- What a pop that claimed `p` has done with the captured payload so far. -/
def CopiesPayload (payload : List Byte) (p : ℕ) : PopCall → Prop
  | .running original destination (.copy _ pc) => CopyProgress payload original destination pc
  | .running original destination (.release _ result) =>
    (destination,result)=delivery payload (p+1) original
  | .returned original destination _ result => (destination,result)=delivery payload (p+1) original
  | _ => False

/-- Every pop copies the payload of the push that the specification captured
when the pop claimed its position. -/
def CopiesCaptured (s : State ι N) (t : MpmcTla.State ι) : Prop :=
  ∀ j p,(s.pop j).position=some p →
    ∃ i payload,t.popValue j=some i ∧ (s.push i).Published payload p ∧
      CopiesPayload payload p (s.pop j)

/-- Both claim guards hold in related states. -/
theorem Sim.guardsHold {q : Ring} {s : State ι N} {t : MpmcTla.State ι} (h : Sim q s t) :
    GuardsHold q s where
  push := by
    intro i payload hi
    have hguard := h.push_guard hi
    rwa [h.refines.sequence,h.refines.enqueue,← q.index_eq_mod] at hguard
  pop := by
    intro j original destination hj
    have hguard := h.pop_guard hj
    rwa [h.refines.sequence,h.refines.dequeue,← q.index_eq_mod] at hguard

/-- Pops copy what the specification captured. -/
theorem Sim.copiesCaptured {q : Ring} {s : State ι N} {t : MpmcTla.State ι} (h : Sim q s t) :
    CopiesCaptured s t := by
  intro j p hp
  have hok := h.pop_ok j
  cases hj : s.pop j with
  | idle => simp [hj,PopCall.position] at hp
  | running original destination pc =>
    rw [hj] at hok hp
    cases pc with
    | copy p' pc =>
      cases hp
      obtain ⟨payload,⟨i,hv,hpub⟩,hd⟩ := hok
      exact ⟨i,payload,hv,hpub,hd⟩
    | release p' result =>
      cases hp
      obtain ⟨payload,⟨i,hv,hpub⟩,hd⟩ := hok
      exact ⟨i,payload,hv,hpub,hd⟩
    | _ => simp [PopCall.position] at hp
  | returned original destination position result =>
    rw [hj] at hok hp
    cases hp
    obtain ⟨payload,⟨i,hv,hpub⟩,hd⟩ := hok
    exact ⟨i,payload,hv,hpub,hd⟩

/-- Every schedule of the code's accesses is matched by a stuttering run of
the specification: the successful compare-exchanges, the last payload store,
the publishing store and the releasing store are its five actions, every
other access leaves its state alone. Along the whole run the counters, cell
sequences and claims agree, a claim guard tested at an earlier load still
holds at the compare-exchange, and a pop copies the value captured there. -/
theorem refines_specification {ι : Type} [DecidableEq ι] {N : ℕ} (q : Ring)
    {actions : List (Action ι)} {s : State ι N} (h : Schedule (system id q ι N) actions s) :
    ∃ t,Matched (system id q ι N) label MpmcTla.init (MpmcTla.Next q.capacity)
      (fun s t => Refines s t ∧ GuardsHold q s ∧ CopiesCaptured s t) actions s t := by
  have hmatched : ∃ t,Matched (system id q ι N) label MpmcTla.init (MpmcTla.Next q.capacity)
      (Sim q) actions s t := h.matched (sim_init q) fun _ _ _ _ hsim hs => hsim.step hs
  obtain ⟨t,hm⟩ := hmatched
  have hweak : ∀ (s : State ι N) t,Sim q s t → Refines s t ∧ GuardsHold q s ∧ CopiesCaptured s t :=
    fun _ _ hsim => ⟨hsim.refines,hsim.guardsHold,hsim.copiesCaptured⟩
  exact ⟨t,hm.mono hweak⟩

/-- Schedule of a whole push of one byte and a whole pop after it. -/
def onePushOnePop : List (Action Bool) :=
  .callPush true [7]::List.replicate 8 (.push true false)++
    .callPop true [0]::List.replicate 9 (.pop true false)

/-- The refinement at a schedule that performs all five actions. -/
theorem refines_specification_push_pop :
    ∃ s t,Schedule (system id .smallest Bool 1) onePushOnePop s ∧
      s.pop true=.returned [0] [7] (some 0) ⟨.success,1,1⟩ ∧
      Matched (system id .smallest Bool 1) label MpmcTla.init
        (MpmcTla.Next Ring.smallest.capacity)
        (fun s t => Refines s t ∧ GuardsHold .smallest s ∧ CopiesCaptured s t) onePushOnePop s t := by
  have hrun : onePushOnePop.foldlM (system id .smallest Bool 1).step
      (system id .smallest Bool 1).init=some _ := rfl
  have hsch := schedule_of_foldlM hrun
  obtain ⟨t,ht⟩ := refines_specification .smallest hsch
  exact ⟨_,t,hsch,rfl,ht⟩

end Line64.MpmcRefinement
