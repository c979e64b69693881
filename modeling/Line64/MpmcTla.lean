import Line64.ClaimLedger
import Line64.RingIndex
import Line64.Transition

/-!
# The repository's TLA+ specification of the MPMC queue

Variables and actions of `MPMCQueue.tla`, kept action by action. The model
checker covers capacity two with four operations on each side. Here the
capacity and the set of operations are arbitrary, and one inductive
invariant yields the position bounds, unique claims, publication before
every pop and the matching of popped values for all behaviours.
-/

namespace Line64.MpmcTla

open Function ClaimLedger RingIndex Transition

variable {ι : Type}

/-- Phases of a push operation. -/
inductive PushPhase
  | idle
  | claimed
  | written
  | published
  deriving DecidableEq, Repr

/-- Phases of a pop operation. -/
inductive PopPhase
  | idle
  | claimed
  | released
  deriving DecidableEq, Repr

/-- A cell record; the stored value is the push operation that wrote it. -/
structure Cell (ι : Type) where
  /-- Generation number of the cell. -/
  sequence : ℕ
  /-- Last writer, `none` for the constant `NoValue`. -/
  value : Option ι

/-- The variables of the specification. -/
structure State (ι : Type) where
  /-- Cells by index; only indices below the capacity are used. -/
  cells : ℕ → Cell ι
  /-- Next position to be claimed by a push. -/
  enqueuePosition : ℕ
  /-- Next position to be claimed by a pop. -/
  dequeuePosition : ℕ
  /-- Phase of every push operation. -/
  pushPhase : ι → PushPhase
  /-- Claimed position of every push, `none` for `NoPosition`. -/
  pushPosition : ι → Option ℕ
  /-- Phase of every pop operation. -/
  popPhase : ι → PopPhase
  /-- Claimed position of every pop, `none` for `NoPosition`. -/
  popPosition : ι → Option ℕ
  /-- Value captured by every pop, `none` for `NoValue`. -/
  popValue : ι → Option ι

/-- The predicate `Init`, which determines the state. -/
def init : State ι where
  cells := fun index => ⟨index,none⟩
  enqueuePosition := 0
  dequeuePosition := 0
  pushPhase := fun _ => .idle
  pushPosition := fun _ => none
  popPhase := fun _ => .idle
  popPosition := fun _ => none
  popValue := fun _ => none

/-- `EXCEPT ![index].sequence`. -/
def State.storeSequence (t : State ι) (index sequence : ℕ) : ℕ → Cell ι :=
  update t.cells index {t.cells index with sequence := sequence}

/-- `EXCEPT ![index].value`. -/
def State.storeValue (t : State ι) (index : ℕ) (value : ι) : ℕ → Cell ι :=
  update t.cells index {t.cells index with value := some value}

section Actions

variable [DecidableEq ι]

/-- The action `PushClaim`. -/
def PushClaim (capacity : ℕ) (operation : ι) (t t' : State ι) : Prop :=
  t.pushPhase operation=.idle ∧
  (t.cells (t.enqueuePosition%capacity)).sequence=t.enqueuePosition ∧
  t'={t with
    enqueuePosition := t.enqueuePosition+1
    pushPhase := update t.pushPhase operation .claimed
    pushPosition := update t.pushPosition operation (some t.enqueuePosition)}

/-- The action `PushWrite`. -/
def PushWrite (capacity : ℕ) (operation : ι) (t t' : State ι) : Prop :=
  t.pushPhase operation=.claimed ∧
  ∃ position,t.pushPosition operation=some position ∧
  t'={t with
    cells := t.storeValue (position%capacity) operation
    pushPhase := update t.pushPhase operation .written}

/-- The action `PushPublish`. -/
def PushPublish (capacity : ℕ) (operation : ι) (t t' : State ι) : Prop :=
  t.pushPhase operation=.written ∧
  ∃ position,t.pushPosition operation=some position ∧
  t'={t with
    cells := t.storeSequence (position%capacity) (position+1)
    pushPhase := update t.pushPhase operation .published}

/-- The action `PopClaim`, which also captures the stored value. -/
def PopClaim (capacity : ℕ) (operation : ι) (t t' : State ι) : Prop :=
  t.popPhase operation=.idle ∧
  (t.cells (t.dequeuePosition%capacity)).sequence=t.dequeuePosition+1 ∧
  t'={t with
    dequeuePosition := t.dequeuePosition+1
    popPhase := update t.popPhase operation .claimed
    popPosition := update t.popPosition operation (some t.dequeuePosition)
    popValue := update t.popValue operation (t.cells (t.dequeuePosition%capacity)).value}

/-- The action `PopRelease`. -/
def PopRelease (capacity : ℕ) (operation : ι) (t t' : State ι) : Prop :=
  t.popPhase operation=.claimed ∧
  ∃ position,t.popPosition operation=some position ∧
  t'={t with
    cells := t.storeSequence (position%capacity) (position+capacity)
    popPhase := update t.popPhase operation .released}

/-- Names of the five action instances. -/
inductive Action (ι : Type)
  | pushClaim (operation : ι)
  | pushWrite (operation : ι)
  | pushPublish (operation : ι)
  | popClaim (operation : ι)
  | popRelease (operation : ι)
  deriving DecidableEq, Repr

/-- The relation `Next`, split by the action that is taken. -/
def Next (capacity : ℕ) : Action ι → State ι → State ι → Prop
  | .pushClaim operation => PushClaim capacity operation
  | .pushWrite operation => PushWrite capacity operation
  | .pushPublish operation => PushPublish capacity operation
  | .popClaim operation => PopClaim capacity operation
  | .popRelease operation => PopRelease capacity operation

end Actions

/-- A push that owns its cell: claimed and not yet published. -/
def Writing (t : State ι) (i : ι) : Prop := t.pushPhase i=.claimed ∨ t.pushPhase i=.written

/-- The generation a cell is in, together with the operation that may be in
flight there. In the first case position `p` waits for its push, in the
second one it waits for its pop. -/
def Generation (capacity : ℕ) (t : State ι) (index p : ℕ) : Prop :=
  p%capacity=index ∧
  (((t.cells index).sequence=p ∧
      (capacity≤p → ∃ j,t.popPosition j=some (p-capacity) ∧ t.popPhase j=.released) ∧
      (p<t.enqueuePosition → ∃ i,t.pushPosition i=some p ∧ Writing t i)) ∨
   ((t.cells index).sequence=p+1 ∧
      (∃ i,t.pushPosition i=some p ∧ t.pushPhase i=.published) ∧
      (p<t.dequeuePosition → ∃ j,t.popPosition j=some p ∧ t.popPhase j=.claimed)))

/-- The inductive invariant of the specification. -/
structure Inv (capacity : ℕ) (t : State ι) : Prop where
  /-- Pops never overtake pushes. -/
  dequeue_le : t.dequeuePosition≤t.enqueuePosition
  /-- Pushes are at most one lap ahead of pops. -/
  enqueue_le : t.enqueuePosition≤t.dequeuePosition+capacity
  /-- Exactly the started pushes hold a position. -/
  push_idle : ∀ i,t.pushPhase i=.idle ↔ t.pushPosition i=none
  /-- Exactly the started pops hold a position. -/
  pop_idle : ∀ j,t.popPhase j=.idle ↔ t.popPosition j=none
  /-- The claimed push positions form a prefix. -/
  push_claims : ∀ p,p<t.enqueuePosition ↔ ∃ i,t.pushPosition i=some p
  /-- The claimed pop positions form a prefix. -/
  pop_claims : ∀ p,p<t.dequeuePosition ↔ ∃ j,t.popPosition j=some p
  /-- No position is claimed by two pushes. -/
  push_unique : ∀ i i' p,t.pushPosition i=some p → t.pushPosition i'=some p → i=i'
  /-- No position is claimed by two pops. -/
  pop_unique : ∀ j j' p,t.popPosition j=some p → t.popPosition j'=some p → j=j'
  /-- A writing push sees its own position in its cell. -/
  writing : ∀ i p,t.pushPosition i=some p → Writing t i → (t.cells (p%capacity)).sequence=p
  /-- A push that has written is the value of its cell. -/
  written : ∀ i p,t.pushPosition i=some p → t.pushPhase i=.written →
    (t.cells (p%capacity)).value=some i
  /-- A published cell keeps its value until the next generation. -/
  published : ∀ i p,t.pushPosition i=some p → t.pushPhase i=.published →
    p+1≤(t.cells (p%capacity)).sequence ∧
      ((t.cells (p%capacity)).sequence=p+1 → (t.cells (p%capacity)).value=some i)
  /-- A claimed pop sees the published sequence in its cell. -/
  reading : ∀ j p,t.popPosition j=some p → t.popPhase j=.claimed →
    (t.cells (p%capacity)).sequence=p+1
  /-- A released cell never falls behind the next generation. -/
  released : ∀ j p,t.popPosition j=some p → t.popPhase j=.released →
    p+capacity≤(t.cells (p%capacity)).sequence
  /-- A pop captured the value of the published push of its position. -/
  captured : ∀ j p,t.popPosition j=some p →
    ∃ i,t.popValue j=some i ∧ t.pushPosition i=some p ∧ t.pushPhase i=.published
  /-- No cell is ahead of an unclaimed push position. -/
  push_bound : ∀ p,t.enqueuePosition≤p → (t.cells (p%capacity)).sequence≤p
  /-- No cell is ahead of an unclaimed pop position. -/
  pop_bound : ∀ p,t.dequeuePosition≤p → (t.cells (p%capacity)).sequence≤p+1
  /-- Every cell is in a definite generation. -/
  generation : ∀ index<capacity,∃ p,Generation capacity t index p
  /-- A claimed position reuses a released one. -/
  reuse : ∀ p,capacity≤p → p<t.enqueuePosition →
    ∃ j,t.popPosition j=some (p-capacity) ∧ t.popPhase j=.released

/-- Sequences after a sequence store. -/
@[simp] theorem storeSequence_sequence (t : State ι) (index sequence other : ℕ) :
    (t.storeSequence index sequence other).sequence=
      if other=index then sequence else (t.cells other).sequence := by
  unfold State.storeSequence
  by_cases h : other=index
  · subst h
    simp
  · simp [h]

/-- A sequence store keeps every value. -/
@[simp] theorem storeSequence_value (t : State ι) (index sequence other : ℕ) :
    (t.storeSequence index sequence other).value=(t.cells other).value := by
  unfold State.storeSequence
  by_cases h : other=index
  · subst h
    simp
  · simp [h]

/-- A value store keeps every sequence. -/
@[simp] theorem storeValue_sequence (t : State ι) (index other : ℕ) (value : ι) :
    (t.storeValue index value other).sequence=(t.cells other).sequence := by
  unfold State.storeValue
  by_cases h : other=index
  · subst h
    simp
  · simp [h]

/-- Values after a value store. -/
@[simp] theorem storeValue_value (t : State ι) (index other : ℕ) (value : ι) :
    (t.storeValue index value other).value=
      if other=index then some value else (t.cells other).value := by
  unfold State.storeValue
  by_cases h : other=index
  · subst h
    simp
  · simp [h]

/-- The invariant holds initially. -/
theorem inv_init (capacity : ℕ) : Inv capacity (init : State ι) where
  dequeue_le := le_rfl
  enqueue_le := Nat.zero_le _
  push_idle := by simp [init]
  pop_idle := by simp [init]
  push_claims := by simp [init]
  pop_claims := by simp [init]
  push_unique := by simp [init]
  pop_unique := by simp [init]
  writing := by simp [init]
  written := by simp [init]
  published := by simp [init]
  reading := by simp [init]
  released := by simp [init]
  captured := by simp [init]
  push_bound := fun p _ => Nat.mod_le p capacity
  pop_bound := fun p _ => (Nat.mod_le p capacity).trans (Nat.le_succ p)
  generation := by
    intro index hi
    refine ⟨index,Nat.mod_eq_of_lt hi,.inl ⟨rfl,?_,?_⟩⟩
    · intro h
      omega
    · intro h
      exact absurd h (Nat.not_lt_zero _)
  reuse := by simp [init]

variable {capacity : ℕ} {t t' : State ι}

/-- The claims of the pushes. -/
theorem Inv.pushLedger (h : Inv capacity t) : Ledger t.pushPosition t.enqueuePosition :=
  ⟨h.push_claims,h.push_unique⟩

/-- The claims of the pops. -/
theorem Inv.popLedger (h : Inv capacity t) : Ledger t.popPosition t.dequeuePosition :=
  ⟨h.pop_claims,h.pop_unique⟩

/-- A free cell at the enqueue position leaves room for one more claim. -/
theorem Inv.room (hc : 2≤capacity) (h : Inv capacity t)
    (hfree : (t.cells (t.enqueuePosition%capacity)).sequence=t.enqueuePosition) :
    t.enqueuePosition<t.dequeuePosition+capacity := by
  have hle := h.enqueue_le
  by_contra hlap
  have he : t.enqueuePosition=t.dequeuePosition+capacity := by omega
  have hb := h.pop_bound t.dequeuePosition le_rfl
  rw [he,Nat.add_mod_right] at hfree
  omega

/-- A published cell at the dequeue position is a claimed position. -/
theorem Inv.pending (h : Inv capacity t)
    (hready : (t.cells (t.dequeuePosition%capacity)).sequence=t.dequeuePosition+1) :
    t.dequeuePosition<t.enqueuePosition := by
  have hle := h.dequeue_le
  by_contra hempty
  have he : t.enqueuePosition=t.dequeuePosition := by omega
  have hb := h.push_bound t.enqueuePosition le_rfl
  rw [he] at hb
  omega

/-- The phase of a push that holds a position is not idle. -/
theorem Inv.started (h : Inv capacity t) {i : ι} {p : ℕ} (hp : t.pushPosition i=some p) :
    Writing t i ∨ t.pushPhase i=.published := by
  cases he : t.pushPhase i with
  | idle => simp [(h.push_idle i).mp he] at hp
  | claimed => exact .inl (.inl he)
  | written => exact .inl (.inr he)
  | published => exact .inr rfl

/-- The push of a position whose cell shows the published sequence has
published, and its cell still holds its value. -/
theorem Inv.published_of_sequence (h : Inv capacity t) {i : ι} {p : ℕ}
    (hp : t.pushPosition i=some p) (hs : (t.cells (p%capacity)).sequence=p+1) :
    t.pushPhase i=.published ∧ (t.cells (p%capacity)).value=some i := by
  rcases h.started hp with hw | hpub
  · have := h.writing i p hp hw
    omega
  · exact ⟨hpub,(h.published i p hp hpub).2 hs⟩

/-- A free cell at a position of the second lap or later was released. -/
theorem Inv.reusable (hc : 2≤capacity) (h : Inv capacity t) {p : ℕ}
    (hs : (t.cells (p%capacity)).sequence=p) (hp : capacity≤p) :
    ∃ j,t.popPosition j=some (p-capacity) ∧ t.popPhase j=.released := by
  obtain ⟨q,hq,hgen⟩ := h.generation (p%capacity) (Nat.mod_lt _ (by omega))
  rcases hgen with ⟨hseq,hrel,-⟩ | ⟨hseq,-,-⟩
  · have he : q=p := by omega
    subst he
    exact hrel hp
  · exact absurd (by omega : p=q+1) (ne_succ_of_index_eq hc hq.symm)

/-- The next lap of a cell that is still being read is unclaimed. -/
theorem Inv.unclaimed_lap (hc : 2≤capacity) (h : Inv capacity t) {p : ℕ}
    (hs : (t.cells (p%capacity)).sequence=p+1) : t.enqueuePosition≤p+capacity := by
  by_contra hclaim
  obtain ⟨i,hi⟩ := (h.push_claims (p+capacity)).mp (by omega)
  rcases h.started hi with hw | hpub
  · have := h.writing i _ hi hw
    rw [Nat.add_mod_right] at this
    omega
  · have := (h.published i _ hi hpub).1
    rw [Nat.add_mod_right] at this
    omega

/-- Two writing pushes are in different cells. -/
theorem Inv.writers_apart (h : Inv capacity t) {i i' : ι} {p p' : ℕ} (hp : t.pushPosition i=some p)
    (hw : Writing t i) (hp' : t.pushPosition i'=some p') (hw' : Writing t i') (hne : i'≠i) :
    p'%capacity≠p%capacity := by
  intro hidx
  have hown := h.writing i p hp hw
  have hother := h.writing i' p' hp' hw'
  rw [hidx,hown] at hother
  rw [← hother] at hp'
  exact hne (h.push_unique i' i p hp' hp)

/-- A writing push and a reading pop are in different cells. -/
theorem Inv.writer_reader_apart (hc : 2≤capacity) (h : Inv capacity t) {i j : ι} {p p' : ℕ}
    (hp : t.pushPosition i=some p) (hw : Writing t i) (hp' : t.popPosition j=some p')
    (hr : t.popPhase j=.claimed) : p%capacity≠p'%capacity := by
  intro hidx
  have hown := h.writing i p hp hw
  have hother := h.reading j p' hp' hr
  rw [← hidx,hown] at hother
  exact ne_succ_of_index_eq hc hidx hother

/-- Two reading pops are in different cells. -/
theorem Inv.readers_apart (h : Inv capacity t) {j j' : ι} {p p' : ℕ} (hp : t.popPosition j=some p)
    (hr : t.popPhase j=.claimed) (hp' : t.popPosition j'=some p') (hr' : t.popPhase j'=.claimed)
    (hne : j'≠j) : p'%capacity≠p%capacity := by
  intro hidx
  have hown := h.reading j p hp hr
  have hother := h.reading j' p' hp' hr'
  rw [hidx,hown] at hother
  obtain rfl : p'=p := by omega
  exact hne (h.pop_unique j' j p' hp' hp)

/-- A position that is still being written is not popped. -/
theorem Inv.unpopped (h : Inv capacity t) {i : ι} {p : ℕ} (hp : t.pushPosition i=some p)
    (hwritten : t.pushPhase i=.written) : t.dequeuePosition≤p := by
  by_contra hpop
  obtain ⟨j,hj⟩ := (h.pop_claims p).mp (by omega)
  obtain ⟨i',-,hi',hpub⟩ := h.captured j p hj
  rw [h.push_unique i' i p hi' hp,hwritten] at hpub
  cases hpub

section Preservation

variable [DecidableEq ι]

/-- `PushClaim` keeps the invariant. -/
theorem Inv.pushClaim (hc : 2≤capacity) (h : Inv capacity t) {i : ι}
    (hn : PushClaim capacity i t t') : Inv capacity t' := by
  obtain ⟨hidle,hfree,rfl⟩ := hn
  have hnone := (h.push_idle i).mp hidle
  have hledger := h.pushLedger.claim hnone
  have hkeep : ∀ i' p,t.pushPosition i'=some p →
      update t.pushPosition i (some t.enqueuePosition) i'=some p ∧
        update t.pushPhase i .claimed i'=t.pushPhase i' := by
    intro i' p hp
    exact ⟨claim_kept hnone hp,update_of_ne (ne_of_claimed hnone hp) _ _⟩
  constructor
  all_goals dsimp only [Writing,Generation]
  case dequeue_le => exact h.dequeue_le.trans (Nat.le_succ _)
  case enqueue_le => exact h.room hc hfree
  case push_idle => exact idle_iff_of_claim h.push_idle nofun
  case pop_idle => exact h.pop_idle
  case push_claims => exact hledger.claims
  case pop_claims => exact h.pop_claims
  case push_unique => exact hledger.unique
  case pop_unique => exact h.pop_unique
  case writing =>
    intro i' p hp hw
    rcases claim_cases hp with ⟨rfl,rfl⟩ | ⟨hne,hold⟩
    · exact hfree
    · rw [update_of_ne hne] at hw
      exact h.writing i' p hold hw
  case written =>
    intro i' p hp hw
    rcases claim_cases hp with ⟨rfl,rfl⟩ | ⟨hne,hold⟩
    · simp at hw
    · rw [update_of_ne hne] at hw
      exact h.written i' p hold hw
  case published =>
    intro i' p hp hw
    rcases claim_cases hp with ⟨rfl,rfl⟩ | ⟨hne,hold⟩
    · simp at hw
    · rw [update_of_ne hne] at hw
      exact h.published i' p hold hw
  case reading => exact h.reading
  case released => exact h.released
  case captured =>
    intro j p hp
    obtain ⟨i',hv,hi',hpub⟩ := h.captured j p hp
    exact ⟨i',hv,(hkeep i' p hi').1,(hkeep i' p hi').2.trans hpub⟩
  case push_bound =>
    intro p hp
    exact h.push_bound p (by omega)
  case pop_bound => exact h.pop_bound
  case generation =>
    intro index hi
    obtain ⟨p,hp,hgen⟩ := h.generation index hi
    refine ⟨p,hp,?_⟩
    rcases hgen with ⟨hs,hrel,hcl⟩ | ⟨hs,⟨i',hi',hpub⟩,hcl⟩
    · refine .inl ⟨hs,hrel,?_⟩
      intro hlt
      rcases Nat.lt_succ_iff_lt_or_eq.mp hlt with hlt | rfl
      · obtain ⟨i',hi',hw⟩ := hcl hlt
        exact ⟨i',(hkeep i' p hi').1,by rw [(hkeep i' p hi').2]; exact hw⟩
      · exact ⟨i,update_self _ _ _,.inl (update_self _ _ _)⟩
    · exact .inr ⟨hs,⟨i',(hkeep i' p hi').1,(hkeep i' p hi').2.trans hpub⟩,hcl⟩
  case reuse =>
    intro p hcap hp
    rcases Nat.lt_succ_iff_lt_or_eq.mp hp with hlt | rfl
    · exact h.reuse p hcap hlt
    · exact h.reusable hc hfree hcap

/-- `PushWrite` keeps the invariant. -/
theorem Inv.pushWrite (hc : 2≤capacity) (h : Inv capacity t) {i : ι}
    (hn : PushWrite capacity i t t') : Inv capacity t' := by
  obtain ⟨hclaimed,p,hp,rfl⟩ := hn
  have hown := h.writing i p hp (.inl hclaimed)
  have hphase : ∀ i',update t.pushPhase i .written i'=.published ↔ t.pushPhase i'=.published := by
    intro i'
    by_cases he : i'=i
    · subst he
      simp [hclaimed]
    · rw [update_of_ne he]
  have hwriting : ∀ i',(update t.pushPhase i .written i'=.claimed ∨
      update t.pushPhase i .written i'=.written) ↔ Writing t i' := by
    intro i'
    by_cases he : i'=i
    · subst he
      simp [Writing,hclaimed]
    · rw [update_of_ne he]
      rfl
  constructor
  all_goals dsimp only [Writing,Generation]
  all_goals try simp only [storeValue_sequence,storeValue_value,hphase,hwriting]
  case dequeue_le => exact h.dequeue_le
  case enqueue_le => exact h.enqueue_le
  case push_idle => exact idle_iff_of_move h.push_idle (by rw [hp]; exact nofun) nofun
  case pop_idle => exact h.pop_idle
  case push_claims => exact h.push_claims
  case pop_claims => exact h.pop_claims
  case push_unique => exact h.push_unique
  case pop_unique => exact h.pop_unique
  case writing => exact h.writing
  case written =>
    intro i' p' hp' hw
    by_cases he : i'=i
    · subst he
      rw [if_pos (by rw [Option.some.inj (hp'.symm.trans hp)])]
    · rw [update_of_ne he] at hw
      rw [if_neg (h.writers_apart hp (.inl hclaimed) hp' (.inr hw) he)]
      exact h.written i' p' hp' hw
  case published =>
    intro i' p' hp' hpub
    obtain ⟨hle,hv⟩ := h.published i' p' hp' hpub
    refine ⟨hle,fun hs => ?_⟩
    rw [if_neg]
    · exact hv hs
    · intro hidx
      rw [hidx,hown] at hs
      exact ne_succ_of_index_eq hc hidx.symm hs
  case reading => exact h.reading
  case released => exact h.released
  case captured => exact h.captured
  case push_bound => exact h.push_bound
  case pop_bound => exact h.pop_bound
  case generation => exact h.generation
  case reuse => exact h.reuse

/-- `PushPublish` moves its cell on to wait for the pop. -/
theorem Inv.generation_pushPublish (h : Inv capacity t) {i : ι} {p : ℕ}
    (hp : t.pushPosition i=some p) (hwritten : t.pushPhase i=.written) :
    ∀ index<capacity,∃ q,Generation capacity
      {t with
        cells := t.storeSequence (p%capacity) (p+1)
        pushPhase := update t.pushPhase i .published} index q := by
  have hunpopped := h.unpopped hp hwritten
  simp only [Generation,Writing,storeSequence_sequence]
  intro index hi
  by_cases hidx : index=p%capacity
  · subst hidx
    rw [if_pos rfl]
    exact ⟨p,rfl,.inr ⟨rfl,⟨i,hp,update_self _ _ _⟩,fun hpop => absurd hpop (by omega)⟩⟩
  · rw [if_neg hidx]
    obtain ⟨q,hq,hgen⟩ := h.generation index hi
    refine ⟨q,hq,?_⟩
    rcases hgen with ⟨hs,hrel,hcl⟩ | ⟨hs,⟨i',hi',hpub⟩,hcl⟩
    · refine .inl ⟨hs,hrel,fun hlt => ?_⟩
      obtain ⟨i',hi',hw⟩ := hcl hlt
      refine ⟨i',hi',?_⟩
      rw [update_of_ne]
      · exact hw
      · rintro rfl
        exact hidx (by rw [← hq,Option.some.inj (hi'.symm.trans hp)])
    · exact .inr ⟨hs,⟨i',hi',update_of_reached i hpub⟩,hcl⟩

/-- `PushPublish` keeps the invariant. -/
theorem Inv.pushPublish (hc : 2≤capacity) (h : Inv capacity t) {i : ι}
    (hn : PushPublish capacity i t t') : Inv capacity t' := by
  obtain ⟨hwritten,p,hp,rfl⟩ := hn
  have hown := h.writing i p hp (.inr hwritten)
  have hlt : p<t.enqueuePosition := (h.push_claims p).mpr ⟨i,hp⟩
  have hunpopped := h.unpopped hp hwritten
  have hgeneration := h.generation_pushPublish hp hwritten
  constructor
  all_goals dsimp only [Writing,Generation]
  all_goals try simp only [storeSequence_sequence,storeSequence_value]
  case dequeue_le => exact h.dequeue_le
  case enqueue_le => exact h.enqueue_le
  case push_idle => exact idle_iff_of_move h.push_idle (by rw [hp]; exact nofun) nofun
  case pop_idle => exact h.pop_idle
  case push_claims => exact h.push_claims
  case pop_claims => exact h.pop_claims
  case push_unique => exact h.push_unique
  case pop_unique => exact h.pop_unique
  case writing =>
    intro i' p' hp' hw
    by_cases he : i'=i
    · subst he
      simp at hw
    · rw [update_of_ne he] at hw
      rw [if_neg (h.writers_apart hp (.inr hwritten) hp' hw he)]
      exact h.writing i' p' hp' hw
  case written =>
    intro i' p' hp' hw
    by_cases he : i'=i
    · subst he
      simp at hw
    · rw [update_of_ne he] at hw
      exact h.written i' p' hp' hw
  case published =>
    intro i' p' hp' hpub
    by_cases he : i'=i
    · subst he
      obtain rfl : p'=p := Option.some.inj (hp'.symm.trans hp)
      rw [if_pos rfl]
      exact ⟨le_rfl,fun _ => h.written i' p' hp hwritten⟩
    · rw [update_of_ne he] at hpub
      obtain ⟨hle,hv⟩ := h.published i' p' hp' hpub
      by_cases hidx : p'%capacity=p%capacity
      · rw [if_pos hidx]
        rw [hidx,hown] at hle
        refine ⟨by omega,fun hs => ?_⟩
        obtain rfl : p=p' := by omega
        exact absurd (h.push_unique i' i p hp' hp) he
      · rw [if_neg hidx]
        exact ⟨hle,hv⟩
  case reading =>
    intro j p' hp' hr
    rw [if_neg (h.writer_reader_apart hc hp (.inr hwritten) hp' hr).symm]
    exact h.reading j p' hp' hr
  case released =>
    intro j p' hp' hr
    have hother := h.released j p' hp' hr
    split
    · rename_i hidx
      rw [hidx,hown] at hother
      omega
    · exact hother
  case captured =>
    intro j p' hp'
    obtain ⟨i',hv,hi',hpub⟩ := h.captured j p' hp'
    exact ⟨i',hv,hi',update_of_reached i hpub⟩
  case push_bound =>
    intro q hq
    split
    · omega
    · exact h.push_bound q hq
  case pop_bound =>
    intro q hq
    split
    · rename_i hidx
      have hle := h.enqueue_le
      by_contra hlap
      have := lap_le hidx (by omega)
      omega
    · exact h.pop_bound q hq
  case generation => simpa only [Generation,Writing,storeSequence_sequence] using hgeneration
  case reuse => exact h.reuse

/-- `PopClaim` keeps the invariant. -/
theorem Inv.popClaim (h : Inv capacity t) {j : ι} (hn : PopClaim capacity j t t') :
    Inv capacity t' := by
  obtain ⟨hidle,hready,rfl⟩ := hn
  have hnone := (h.pop_idle j).mp hidle
  have hpending := h.pending hready
  have hle := h.enqueue_le
  have hledger := h.popLedger.claim hnone
  have hkeep : ∀ j' p,t.popPosition j'=some p →
      update t.popPosition j (some t.dequeuePosition) j'=some p ∧
        update t.popPhase j .claimed j'=t.popPhase j' := by
    intro j' p hp
    exact ⟨claim_kept hnone hp,update_of_ne (ne_of_claimed hnone hp) _ _⟩
  constructor
  all_goals dsimp only [Writing,Generation]
  case dequeue_le => exact hpending
  case enqueue_le => omega
  case push_idle => exact h.push_idle
  case pop_idle => exact idle_iff_of_claim h.pop_idle nofun
  case push_claims => exact h.push_claims
  case pop_claims => exact hledger.claims
  case push_unique => exact h.push_unique
  case pop_unique => exact hledger.unique
  case writing => exact h.writing
  case written => exact h.written
  case published => exact h.published
  case reading =>
    intro j' p hp hr
    rcases claim_cases hp with ⟨rfl,rfl⟩ | ⟨hne,hold⟩
    · exact hready
    · rw [update_of_ne hne] at hr
      exact h.reading j' p hold hr
  case released =>
    intro j' p hp hr
    rcases claim_cases hp with ⟨rfl,rfl⟩ | ⟨hne,hold⟩
    · simp at hr
    · rw [update_of_ne hne] at hr
      exact h.released j' p hold hr
  case captured =>
    intro j' p hp
    rcases claim_cases hp with ⟨rfl,rfl⟩ | ⟨hne,hold⟩
    · obtain ⟨i,hi⟩ := (h.push_claims t.dequeuePosition).mp hpending
      obtain ⟨hpub,hv⟩ := h.published_of_sequence hi hready
      exact ⟨i,by rw [update_self,hv],hi,hpub⟩
    · rw [update_of_ne hne]
      exact h.captured j' p hold
  case push_bound => exact h.push_bound
  case pop_bound =>
    intro p hp
    exact h.pop_bound p (by omega)
  case generation =>
    intro index hi
    obtain ⟨p,hp,hgen⟩ := h.generation index hi
    refine ⟨p,hp,?_⟩
    rcases hgen with ⟨hs,hrel,hcl⟩ | ⟨hs,hpub,hcl⟩
    · refine .inl ⟨hs,fun hcap => ?_,hcl⟩
      obtain ⟨j',hj',hr⟩ := hrel hcap
      exact ⟨j',(hkeep j' _ hj').1,(hkeep j' _ hj').2.trans hr⟩
    · refine .inr ⟨hs,hpub,fun hlt => ?_⟩
      rcases Nat.lt_succ_iff_lt_or_eq.mp hlt with hlt | rfl
      · obtain ⟨j',hj',hr⟩ := hcl hlt
        exact ⟨j',(hkeep j' p hj').1,(hkeep j' p hj').2.trans hr⟩
      · exact ⟨j,update_self _ _ _,update_self _ _ _⟩
  case reuse =>
    intro p hcap hp
    obtain ⟨j',hj',hr⟩ := h.reuse p hcap hp
    exact ⟨j',(hkeep j' _ hj').1,(hkeep j' _ hj').2.trans hr⟩

/-- `PopRelease` moves its cell on to wait for the push of the next lap. -/
theorem Inv.generation_popRelease (hc : 2≤capacity) (h : Inv capacity t) {j : ι} {p : ℕ}
    (hp : t.popPosition j=some p) (hclaimed : t.popPhase j=.claimed) :
    ∀ index<capacity,∃ q,Generation capacity
      {t with
        cells := t.storeSequence (p%capacity) (p+capacity)
        popPhase := update t.popPhase j .released} index q := by
  have hown := h.reading j p hp hclaimed
  simp only [Generation,Writing,storeSequence_sequence]
  intro index hi
  by_cases hidx : index=p%capacity
  · subst hidx
    rw [if_pos rfl]
    refine ⟨p+capacity,Nat.add_mod_right _ _,.inl ⟨rfl,fun _ => ?_,fun hclaim => ?_⟩⟩
    · exact ⟨j,by rw [Nat.add_sub_cancel,hp],update_self _ _ _⟩
    · exact absurd (h.unclaimed_lap hc hown) (by omega)
  · rw [if_neg hidx]
    obtain ⟨q,hq,hgen⟩ := h.generation index hi
    refine ⟨q,hq,?_⟩
    rcases hgen with ⟨hs,hrel,hcl⟩ | ⟨hs,hpub,hcl⟩
    · refine .inl ⟨hs,fun hcap => ?_,hcl⟩
      obtain ⟨j',hj',hr⟩ := hrel hcap
      exact ⟨j',hj',update_of_reached j hr⟩
    · refine .inr ⟨hs,hpub,fun hlt => ?_⟩
      obtain ⟨j',hj',hr⟩ := hcl hlt
      refine ⟨j',hj',?_⟩
      rw [update_of_ne]
      · exact hr
      · rintro rfl
        exact hidx (by rw [← hq,Option.some.inj (hj'.symm.trans hp)])

/-- `PopRelease` keeps the invariant. -/
theorem Inv.popRelease (hc : 2≤capacity) (h : Inv capacity t) {j : ι}
    (hn : PopRelease capacity j t t') : Inv capacity t' := by
  obtain ⟨hclaimed,p,hp,rfl⟩ := hn
  have hown := h.reading j p hp hclaimed
  have hlt : p<t.dequeuePosition := (h.pop_claims p).mpr ⟨j,hp⟩
  have hle := h.dequeue_le
  have hgeneration := h.generation_popRelease hc hp hclaimed
  constructor
  all_goals dsimp only [Writing,Generation]
  all_goals try simp only [storeSequence_sequence,storeSequence_value]
  case dequeue_le => exact h.dequeue_le
  case enqueue_le => exact h.enqueue_le
  case push_idle => exact h.push_idle
  case pop_idle => exact idle_iff_of_move h.pop_idle (by rw [hp]; exact nofun) nofun
  case push_claims => exact h.push_claims
  case pop_claims => exact h.pop_claims
  case push_unique => exact h.push_unique
  case pop_unique => exact h.pop_unique
  case writing =>
    intro i p' hp' hw
    rw [if_neg (h.writer_reader_apart hc hp' hw hp hclaimed)]
    exact h.writing i p' hp' hw
  case written => exact h.written
  case published =>
    intro i p' hp' hpub
    obtain ⟨hpublished,hv⟩ := h.published i p' hp' hpub
    by_cases hidx : p'%capacity=p%capacity
    · rw [if_pos hidx]
      rw [hidx,hown] at hpublished
      refine ⟨by omega,fun hs => ?_⟩
      exact absurd hs (ne_succ_of_index_eq hc (by rw [Nat.add_mod_right,hidx]))
    · rw [if_neg hidx]
      exact ⟨hpublished,hv⟩
  case reading =>
    intro j' p' hp' hr
    by_cases he : j'=j
    · subst he
      simp at hr
    · rw [update_of_ne he] at hr
      rw [if_neg (h.readers_apart hp hclaimed hp' hr he)]
      exact h.reading j' p' hp' hr
  case released =>
    intro j' p' hp' hr
    by_cases he : j'=j
    · subst he
      rw [Option.some.inj (hp'.symm.trans hp),if_pos rfl]
    · rw [update_of_ne he] at hr
      have hother := h.released j' p' hp' hr
      split
      · rename_i hidx
        rw [hidx,hown] at hother
        omega
      · exact hother
  case captured => exact h.captured
  case push_bound =>
    intro q hq
    split
    · rename_i hidx
      exact lap_le hidx.symm (by omega)
    · exact h.push_bound q hq
  case pop_bound =>
    intro q hq
    split
    · rename_i hidx
      exact (lap_le hidx.symm (by omega)).trans (Nat.le_succ q)
    · exact h.pop_bound q hq
  case generation => simpa only [Generation,Writing,storeSequence_sequence] using hgeneration
  case reuse =>
    intro q hcap hq
    obtain ⟨j',hj',hr⟩ := h.reuse q hcap hq
    exact ⟨j',hj',update_of_reached j hr⟩

/-- Every action keeps the invariant. -/
theorem Inv.next (hc : 2≤capacity) (h : Inv capacity t) {l : Action ι}
    (hn : Next capacity l t t') : Inv capacity t' := by
  cases l with
  | pushClaim i => exact h.pushClaim hc hn
  | pushWrite i => exact h.pushWrite hc hn
  | pushPublish i => exact h.pushPublish hc hn
  | popClaim j => exact h.popClaim hn
  | popRelease j => exact h.popRelease hc hn

/-- Every behaviour of the specification satisfies the invariant, for all
capacities of at least two and any set of operations. -/
theorem behaviour_inv (hc : 2≤capacity) (h : Behaviour init (Next capacity) t) :
    Inv capacity t :=
  h.invariant (inv_init capacity) (fun _ _ _ hi hn => hi.next hc hn)

end Preservation

/-- All earlier laps of a claimed position have been released. -/
theorem Inv.earlier_released (h : Inv capacity t) {p q : ℕ} (hp : p<t.enqueuePosition)
    (hidx : q%capacity=p%capacity) (hq : q<p) :
    ∃ j,t.popPosition j=some q ∧ t.popPhase j=.released := by
  induction p using Nat.strong_induction_on with
  | _ p ih =>
    have hlap := lap_le hidx hq
    rcases Nat.eq_or_lt_of_le hlap with heq | hlt
    · obtain ⟨j,hj,hr⟩ := h.reuse p (by omega) hp
      exact ⟨j,by rw [hj,← heq,Nat.add_sub_cancel],hr⟩
    · rcases Nat.eq_zero_or_pos capacity with rfl | hcap
      · simp only [Nat.mod_zero] at hidx
        omega
      · exact ih (p-capacity) (by omega) (by omega) (by rw [index_sub_lap (by omega),hidx])
          (by omega)

/-- A published position that no pop has released is still in its cell. -/
theorem Inv.unreleased_sequence (hc : 2≤capacity) (h : Inv capacity t) {i : ι} {p : ℕ}
    (hp : t.pushPosition i=some p) (hpub : t.pushPhase i=.published)
    (hun : ∀ j,t.popPosition j=some p → t.popPhase j≠.released) :
    (t.cells (p%capacity)).sequence=p+1 := by
  have hlow := (h.published i p hp hpub).1
  obtain ⟨r,hr,hwait | hread⟩ := h.generation (p%capacity) (Nat.mod_lt _ (by omega))
  · obtain ⟨hseq,hreuse,-⟩ := hwait
    have hlap := lap_le hr.symm (by omega : p<r)
    obtain ⟨j,hj,hrel⟩ := hreuse (by omega)
    rcases Nat.eq_or_lt_of_le hlap with heq | hlt
    · exact absurd hrel (hun j (by rw [hj,← heq,Nat.add_sub_cancel]))
    · have hclaimed := (h.pop_claims (r-capacity)).mpr ⟨j,hj⟩
      have hbound := h.dequeue_le
      obtain ⟨j',hj',hrel'⟩ := h.earlier_released (p:=r-capacity) (q:=p) (by omega)
        (by rw [index_sub_lap (by omega),hr]) (by omega)
      exact absurd hrel' (hun j' hj')
  · obtain ⟨hseq,⟨i',hi',-⟩,-⟩ := hread
    rcases Nat.eq_or_lt_of_le (by omega : p≤r) with heq | hlt
    · rw [hseq,heq]
    · have hclaimed := (h.push_claims r).mpr ⟨i',hi'⟩
      obtain ⟨j',hj',hrel'⟩ := h.earlier_released hclaimed hr.symm hlt
      exact absurd hrel' (hun j' hj')

end Line64.MpmcTla
