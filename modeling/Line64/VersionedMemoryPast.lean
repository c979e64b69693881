import Line64.SingleWriter
import Line64.VersionedMemoryModel
import Line64.VersionedRead

/-!
# The past of the versioned queue

Only the producer stores, so its program has a memory at every time: the
states of the interleaved model behind each of its stores. The invariant of
that model holds in all of them, and from one to a later one versions, the
boundary and the accepted payloads only grow. The record of the stores says
what a consumer learns from each: behind a guarded member, that the odd
version of its cell has been stored.
-/

namespace Line64.VersionedMemoryPast

open Function Result FixedMessageAccess Transition RetainedHistory ReleaseAcquire SingleWriter
open VersionedModel (Ring PublishPc Producer ReadPc Consumer Event Cell index storeFrom)
open VersionedInvariant (accepted acceptedPayload accepted_append accepted_append_none writing
  lap_of_index_eq)
open VersionedMemoryModel

variable {κ : Type} {N : ℕ}

/-- Members of a cell as numbers. -/
def cellContents (cell : Cell N) : Part → ℕ
  | .version => cell.version
  | .sequence => cell.content.sequence
  | .size => cell.content.size
  | .byte k => (cell.content.storage[k]?.getD 0).toNat

/-- Atomic members of a queue in the interleaved model. -/
def contents (g : VersionedModel.State κ N) : Place → ℕ
  | .published => g.published
  | .member i part => cellContents (g.cells i) part

/-- Constructed contents. -/
theorem contents_init : contents (VersionedModel.init κ N)=fun _ => 0 := by
  funext a
  cases a with
  | published => rfl
  | member i part =>
    cases part with
    | byte k =>
      simp only [contents,cellContents,VersionedModel.init,FixedMessage.initial]
      by_cases hk : k<N
      · simp [hk]
      · simp [hk]
    | _ => rfl

/-- One member of one cell is stored. -/
theorem contents_member {g g' : VersionedModel.State κ N} {i value : ℕ} {part : Part}
    {cell : Cell N} (hcells : g'.cells=update g.cells i cell) (hpub : g'.published=g.published)
    (hcell : cellContents cell=update (cellContents (g.cells i)) part value) :
    contents g'=update (contents g) (.member i part) value := by
  funext a
  cases a with
  | published => rw [update_of_ne (fun he => by cases he)]; exact hpub
  | member j other =>
    by_cases hj : j=i
    · subst hj
      simp only [contents,hcells,update_self,hcell]
      by_cases ho : other=part
      · subst ho
        rw [update_self,update_self]
      · rw [update_of_ne ho,update_of_ne (fun he => ho (Place.member.inj he).2)]
        rfl
    · simp only [contents,hcells,update_of_ne hj]
      rw [update_of_ne (fun he => hj (Place.member.inj he).1)]
      rfl

/-- The boundary is stored. -/
theorem contents_published {g g' : VersionedModel.State κ N} {value : ℕ}
    (hcells : g'.cells=g.cells) (hpub : g'.published=value) :
    contents g'=update (contents g) .published value := by
  funext a
  cases a with
  | published =>
    rw [update_self]
    exact hpub
  | member j other =>
    rw [update_of_ne (fun he => by cases he)]
    simp only [contents,hcells]

/-- Another version. -/
theorem cellContents_version (cell : Cell N) (version : ℕ) :
    cellContents (⟨version,cell.content⟩ : Cell N)=update (cellContents cell) .version version := by
  funext part
  cases part with
  | version => rw [update_self]; rfl
  | _ => rw [update_of_ne (fun he => by cases he)]; rfl

/-- Another sequence. -/
theorem cellContents_sequence (cell : Cell N) (sequence : ℕ) :
    cellContents (⟨cell.version,⟨cell.content.storage,cell.content.size,sequence⟩⟩ : Cell N)=
      update (cellContents cell) .sequence sequence := by
  funext part
  cases part with
  | sequence => rw [update_self]; rfl
  | _ => rw [update_of_ne (fun he => by cases he)]; rfl

/-- Another size. -/
theorem cellContents_size (cell : Cell N) (size : ℕ) :
    cellContents (⟨cell.version,⟨cell.content.storage,size,cell.content.sequence⟩⟩ : Cell N)=
      update (cellContents cell) .size size := by
  funext part
  cases part with
  | size => rw [update_self]; rfl
  | _ => rw [update_of_ne (fun he => by cases he)]; rfl

/-- Another byte inside the storage. -/
theorem cellContents_byte (cell : Cell N) {k : ℕ} (hk : k<N) (byte : Byte) :
    cellContents (⟨cell.version,⟨cell.content.storage.setIfInBounds k byte,cell.content.size,
      cell.content.sequence⟩⟩ : Cell N)=update (cellContents cell) (.byte k) byte.toNat := by
  funext part
  cases part with
  | byte j =>
    by_cases hj : j=k
    · subst hj
      rw [update_self]
      simp [cellContents,hk]
    · rw [update_of_ne (fun he => hj (Part.byte.inj he))]
      simp only [cellContents]
      rw [Vector.getElem?_setIfInBounds_ne (fun he => hj he.symm)]
  | _ => rw [update_of_ne (fun he => by cases he)]; rfl

/-- What grows from one state of the producer to a later one. -/
structure Follows (q : Ring) (g g' : VersionedModel.State κ N) : Prop where
  /-- Versions do not decrease. -/
  version : ∀ i,(g.cells i).version ≤ (g'.cells i).version
  /-- The boundary does not decrease. -/
  published : g.published ≤ g'.published
  /-- Publications that have begun stay begun. -/
  begun : g.begun ≤ g'.begun
  /-- Accepted payloads stay accepted. -/
  accepted : ∃ added,accepted g'.log=accepted g.log++added
  /-- A stable cell of a published sequence only changes when the publication
  one lap later begins. -/
  overtaken : ∀ want,1≤want → want ≤ g.published → (g.cells (index q want)).version%2=0 →
    (g.cells (index q want)).version<(g'.cells (index q want)).version →
    want+q.capacity ≤ g'.begun

/-- Nothing has happened. -/
theorem Follows.refl (q : Ring) (g : VersionedModel.State κ N) : Follows q g g :=
  ⟨fun _ => le_refl _,le_refl _,le_refl _,⟨[],(List.append_nil _).symm⟩,
    fun _ _ _ _ hlt => absurd hlt (lt_irrefl _)⟩

/-- One thing after the other. -/
theorem Follows.trans {q : Ring} {g₁ g₂ g₃ : VersionedModel.State κ N} (h : Follows q g₁ g₂)
    (h' : Follows q g₂ g₃) : Follows q g₁ g₃ where
  version := fun i => (h.version i).trans (h'.version i)
  published := h.published.trans h'.published
  begun := h.begun.trans h'.begun
  accepted := by
    obtain ⟨added,ha⟩ := h.accepted
    obtain ⟨added',ha'⟩ := h'.accepted
    exact ⟨added++added',by rw [ha',ha,List.append_assoc]⟩
  overtaken := by
    intro want hpos hle heven hlt
    rcases Nat.lt_or_eq_of_le (h.version (index q want)) with hlt' | he
    · exact (h.overtaken want hpos hle heven hlt').trans h'.begun
    · rw [he] at heven hlt
      exact h'.overtaken want hpos (hle.trans h.published) heven hlt

/-- A step that stores nothing. -/
theorem Follows.of_eq {q : Ring} {g g' : VersionedModel.State κ N} (hcells : g'.cells=g.cells)
    (hpub : g'.published=g.published) (hbegun : g'.begun=g.begun)
    (hacc : VersionedInvariant.accepted g'.log=VersionedInvariant.accepted g.log) :
    Follows q g g' := by
  refine ⟨?_,hpub.ge,hbegun.ge,⟨[],by rw [hacc,List.append_nil]⟩,?_⟩
  · rw [hcells]
    exact fun _ => le_refl _
  · rw [hcells]
    exact fun _ _ _ _ hlt => absurd hlt (lt_irrefl _)

section Publish

variable {q : Ring} {g : VersionedModel.State κ N} {payload : List Byte} {sequence : ℕ}

/-- A store into the cell of the publication. -/
theorem Follows.of_store {cell : Cell N} {pc : PublishPc}
    (hversion : (g.cells (index q sequence)).version ≤ cell.version)
    (hbegun : g.begun ≤ (g.store q payload sequence cell pc).begun)
    (hover : ∀ want,1≤want → want ≤ g.published → index q want=index q sequence →
      (g.cells (index q sequence)).version%2=0 →
      (g.cells (index q sequence)).version<cell.version →
      want+q.capacity ≤ (g.store q payload sequence cell pc).begun) :
    Follows q g (g.store q payload sequence cell pc) where
  version := by
    intro i
    by_cases hi : i=index q sequence
    · subst hi
      simp only [VersionedModel.State.store,update_self]
      exact hversion
    · simp only [VersionedModel.State.store,update_of_ne hi]
      exact le_refl _
  published := le_refl _
  begun := hbegun
  accepted := ⟨[],(List.append_nil _).symm⟩
  overtaken := by
    intro want hpos hle heven hlt
    by_cases hi : index q want=index q sequence
    · rw [hi] at heven hlt
      simp only [VersionedModel.State.store,update_self] at hlt
      exact hover want hpos hle hi heven hlt
    · simp only [VersionedModel.State.store,update_of_ne hi] at hlt
      exact absurd hlt (lt_irrefl _)

/-- A store of a guarded member. -/
theorem Follows.of_guarded {pc' : PublishPc} {content : FixedMessage N}
    (hp : writing g.producer=some sequence)
    (hw : writing (.running payload sequence pc')=some sequence) :
    Follows q g (g.store q payload sequence ⟨(g.cells (index q sequence)).version,content⟩ pc') := by
  have hbegun := VersionedInvariant.begun_of_writing hp
  have hbegun' : (g.store q payload sequence ⟨(g.cells (index q sequence)).version,content⟩
      pc').begun=sequence := VersionedInvariant.begun_of_writing hw
  refine Follows.of_store (le_refl _) (by rw [hbegun,hbegun']) ?_
  intro want _ _ _ _ hlt
  exact absurd hlt (lt_irrefl _)

/-- The byte loop writes its cell. -/
theorem writing_storeFrom (payload : List Byte) (sequence version k : ℕ) :
    writing (.running payload sequence (storeFrom payload version k))=some sequence := by
  unfold storeFrom
  split <;> rfl

/-- A rejected or started publication. -/
theorem enterPublish_follows (hidle : g.producer=.idle) (payload : List Byte) :
    Follows q g (VersionedModel.enterPublish g payload) := by
  have hbegun : g.begun=g.published := by rw [VersionedModel.State.begun,hidle]
  unfold VersionedModel.enterPublish
  split
  · exact Follows.of_eq rfl rfl (by rw [hbegun]; rfl) (accepted_append_none _ rfl)
  · exact Follows.of_eq rfl rfl (by rw [hbegun]; rfl) rfl

/-- Every access of the producer. -/
theorem stepPublish_follows (h : VersionedInvariant.Inv q g) {pc : PublishPc}
    (hp : g.producer=.running payload sequence pc) :
    Follows q g (VersionedModel.stepPublish q g payload sequence pc) := by
  have hok := h.producer
  rw [hp] at hok
  obtain ⟨-,hseq,hcell⟩ := hok
  have hle := h.published_le_begun
  cases pc with
  | loadVersion =>
    exact Follows.of_eq rfl rfl (by rw [VersionedModel.State.begun.eq_def g,hp]; rfl) rfl
  | storeOdd version =>
    have hbegun : g.begun=g.published := by rw [VersionedModel.State.begun,hp]
    have hversion : (g.cells (index q sequence)).version=version := hcell
    have hbegun' : (g.store q payload sequence
        ⟨version+1,(g.cells (index q sequence)).content⟩ (.storeSequence version)).begun=sequence :=
      VersionedInvariant.begun_of_writing rfl
    refine Follows.of_store (by dsimp only; omega) (by omega) ?_
    intro want hpos hwant hidx _ _
    rw [hbegun']
    exact lap_of_index_eq hpos (by omega) hidx
  | storeSequence version => exact Follows.of_guarded (by rw [hp]; rfl) rfl
  | storeSize version => exact Follows.of_guarded (by rw [hp]; rfl) (writing_storeFrom _ _ _ _)
  | storeByte version k =>
    exact Follows.of_guarded (by rw [hp]; rfl) (writing_storeFrom _ _ _ _)
  | storeEven version =>
    obtain ⟨hversion,heven,-⟩ := hcell
    refine Follows.of_store (by dsimp only; omega) ?_ ?_
    · rw [VersionedInvariant.begun_of_writing (by rw [hp]; rfl : writing g.producer=some sequence)]
      exact le_refl _
    · intro want _ _ _ hstable _
      omega
  | storePublished =>
    refine ⟨fun _ => le_refl _,?_,?_,⟨_,accepted_append _ _⟩,
      fun _ _ _ _ hlt => absurd hlt (lt_irrefl _)⟩
    · exact Nat.le_of_lt (by rw [VersionedModel.stepPublish]; exact (by omega : g.published<sequence))
    · rw [VersionedModel.State.begun,hp]
      exact le_refl _

end Publish

/-- What a store makes known: the boundary and an even version everything in
front of them, a guarded member that the odd version of its cell has been
stored. -/
def Informs (r : Record Place) (past : ℕ → VersionedModel.State κ N) (j : ℕ) : Prop :=
  match r.place j with
  | .published => r.known j=j+1
  | .member i .version => ((past (j+1)).cells i).version%2=0 → r.known j=j+1
  | .member i _ => ((past (r.known j)).cells i).version%2=1 ∧
      ((past (r.known j)).cells i).version=((past (j+1)).cells i).version

/-- The stores of the producer, their memory at every time, and its present
state in the interleaved model. -/
structure PastOk (q : Ring) (s : State κ N) (r : Record Place)
    (past : ℕ → VersionedModel.State κ N) (g : VersionedModel.State κ N) : Prop where
  /-- Views point to stores. -/
  sane : Sane s.history s.views
  /-- The recorded stores are all. -/
  logged : Logged s.history (fun k => contents (past k)) r
  /-- The invariant of the interleaved model held at every time. -/
  inv : ∀ k≤r.now,VersionedInvariant.Inv q (past k)
  /-- What has grown since. -/
  follows : ∀ j k,j≤k → k≤r.now → Follows q (past j) (past k)
  /-- Stores do not make known what was stored behind them. -/
  known_le : ∀ j<r.now,r.known j≤j+1
  /-- What the stores make known. -/
  informs : ∀ j<r.now,Informs r past j
  /-- The invariant holds now. -/
  present : VersionedInvariant.Inv q g
  /-- Nothing has been stored since. -/
  cells_eq : g.cells=(past r.now).cells
  /-- The boundary has not been stored since. -/
  published_eq : g.published=(past r.now).published
  /-- No publication has begun since. -/
  begun_eq : g.begun=(past r.now).begun
  /-- No payload has been accepted since. -/
  accepted_eq : accepted g.log=accepted (past r.now).log
  /-- Same producer. -/
  producer_eq : g.producer=s.producer
  /-- Same private counter. -/
  produced_eq : g.produced=s.produced
  /-- Same accepted payloads. -/
  log_eq : accepted g.log=accepted s.log
  /-- The producer knows its stores. -/
  knows : Knows r (s.views .producer).current r.now
  /-- The last release fence of the producer is behind the odd version of the
  cell it writes. -/
  fenced : ∃ b,Knows r (s.views .producer).released b ∧ ∀ sequence,
    writing s.producer=some sequence →
      ((past b).cells (index q sequence)).version=(g.cells (index q sequence)).version

/-- The constructed queue. -/
theorem pastOk_init (q : Ring) : PastOk q (init κ N) (Record.initial .published)
    (fun _ => VersionedModel.init κ N) (VersionedModel.init κ N) where
  sane := Sane.initial _
  logged := by
    rw [contents_init]
    exact Logged.initial _ _ _
  inv := fun _ _ => VersionedInvariant.inv_init q
  follows := fun _ _ _ _ => Follows.refl q _
  known_le := fun _ hj => absurd hj (Nat.not_lt_zero _)
  informs := fun _ hj => absurd hj (Nat.not_lt_zero _)
  present := VersionedInvariant.inv_init q
  cells_eq := rfl
  published_eq := rfl
  begun_eq := rfl
  accepted_eq := rfl
  producer_eq := rfl
  produced_eq := rfl
  log_eq := rfl
  knows := Knows.zero _ _
  fenced := ⟨0,Knows.zero _ _,fun _ hw => by cases hw⟩

section Stores

variable {q : Ring} {s s' : State κ N} {r : Record Place} {past : ℕ → VersionedModel.State κ N}
  {g g' : VersionedModel.State κ N}

/-- The past before one more store. -/
theorem past_of_le (past : ℕ → VersionedModel.State κ N) (g : VersionedModel.State κ N)
    {now k : ℕ} (hk : k≤now) : update past (now+1) g k=past k := update_of_ne (by omega) _ _

/-- The present follows the past. -/
theorem PastOk.present_follows (h : PastOk q s r past g) {k : ℕ} (hk : k≤r.now) :
    Follows q (past k) g :=
  (h.follows k r.now hk (le_refl _)).trans
    (Follows.of_eq h.cells_eq h.published_eq h.begun_eq h.accepted_eq)

/-- What earlier stores make known. -/
theorem Informs.add {j : ℕ} (hj : j<r.now) (hle : r.known j≤j+1) (h : Informs r past j) (a : Place)
    (ts known : ℕ) : Informs (r.add a ts known) (update past (r.now+1) g') j := by
  unfold Informs at h ⊢
  rw [Record.add_place hj,Record.add_known hj,past_of_le past g' (by omega : j+1≤r.now),
    past_of_le past g' (by omega : r.known j≤r.now)]
  exact h

variable [DecidableEq κ]

/-- The producer goes on without a store. -/
theorem PastOk.local (h : PastOk q s r past g) (hinv : VersionedInvariant.Inv q g')
    (hcells : g'.cells=g.cells) (hpub : g'.published=g.published) (hbegun : g'.begun=g.begun)
    (hacc : accepted g'.log=accepted g.log) {l : Local (Thread κ) Place}
    (hsane : Sane s.history (update s.views .producer l)) (hhistory : s'.history=s.history)
    (hviews : s'.views=update s.views .producer l) (hcurrent : (s.views .producer).current ≤ l.current)
    (hreleased : l.released=(s.views .producer).released)
    (hproducer : g'.producer=s'.producer) (hproduced : g'.produced=s'.produced)
    (hlog : accepted g'.log=accepted s'.log) (hidle : writing s'.producer=none) :
    PastOk q s' r past g' := by
  obtain ⟨b,hb,-⟩ := h.fenced
  have hself : s'.views .producer=l := by rw [hviews,update_self]
  exact {h with
    sane := by rw [hhistory,hviews]; exact hsane
    logged := by rw [hhistory]; exact h.logged
    present := hinv
    cells_eq := hcells.trans h.cells_eq
    published_eq := hpub.trans h.published_eq
    begun_eq := hbegun.trans h.begun_eq
    accepted_eq := hacc.trans h.accepted_eq
    producer_eq := hproducer
    produced_eq := hproduced
    log_eq := hlog
    knows := by rw [hself]; exact h.knows.mono hcurrent
    fenced := ⟨b,by rw [hself,hreleased]; exact hb,fun n hw => by rw [hidle] at hw; cases hw⟩}

/-- The producer stores. -/
theorem PastOk.store (h : PastOk q s r past g) {l l' behind : Local (Thread κ) Place}
    {order : StoreOrder} {a : Place} {ts value b b' : ℕ} {history : History (Thread κ) Place ℕ}
    (hl : l.current=(s.views .producer).current) (hb : Knows r l.released b)
    (hs : ReleaseAcquire.store s.history l order a ts value=some (history,l'))
    (hinv : VersionedInvariant.Inv q g') (hfollows : Follows q g g')
    (hcontents : contents g'=update (contents g) a value)
    (hinforms : Informs (r.add a ts (knownBy r b order)) (update past (r.now+1) g') r.now)
    (hsane : Sane history (update s.views .producer behind)) (hhistory : s'.history=history)
    (hviews : s'.views=update s.views .producer behind) (hcurrent : behind.current=l'.current)
    (hb' : Knows (r.add a ts (knownBy r b order)) behind.released b')
    (hproducer : g'.producer=s'.producer) (hproduced : g'.produced=s'.produced)
    (hlog : accepted g'.log=accepted s'.log)
    (hfenced : ∀ sequence,writing s'.producer=some sequence →
      ((update past (r.now+1) g' b').cells (index q sequence)).version=
        (g'.cells (index q sequence)).version) :
    PastOk q s' (r.add a ts (knownBy r b order)) (update past (r.now+1) g') g' := by
  have hnow : contents g=contents (past r.now) := by
    funext place
    cases place with
    | published => exact h.published_eq
    | member i part => simp only [contents,h.cells_eq]
  have hself : update past (r.now+1) g' (r.now+1)=g' := update_self _ _ _
  have hlast : update past (r.now+1) g' (r.add a ts (knownBy r b order)).now=g' := hself
  have hstored : Logged history (fun k => contents (update past (r.now+1) g' k))
      (r.add a ts (knownBy r b order)) ∧
      Knows (r.add a ts (knownBy r b order)) l'.current (r.now+1) :=
    h.logged.store (by rw [hl]; exact h.knows) hb hs (fun k hk => by rw [past_of_le past g' hk])
      (by rw [hself,hcontents,hnow])
  have hknown : knownBy r b order≤r.now+1 := by
    cases order with
    | relaxed => exact Nat.le_succ_of_le hb.le_now
    | release => exact le_refl _
  have hlocal : s'.views .producer=behind := by rw [hviews,update_self]
  refine {
    sane := by rw [hhistory,hviews]; exact hsane
    logged := by rw [hhistory]; exact hstored.1
    inv := ?_
    follows := ?_
    known_le := ?_
    informs := ?_
    present := hinv
    cells_eq := by rw [hlast]
    published_eq := by rw [hlast]
    begun_eq := by rw [hlast]
    accepted_eq := by rw [hlast]
    producer_eq := hproducer
    produced_eq := hproduced
    log_eq := hlog
    knows := by rw [hlocal,hcurrent]; exact hstored.2
    fenced := ⟨b',by rw [hlocal]; exact hb',hfenced⟩}
  · intro k hk
    rcases Nat.le_succ_iff.mp hk with hle | rfl
    · rw [past_of_le past g' hle]
      exact h.inv k hle
    · rw [hself]
      exact hinv
  · intro j k hjk hk
    rcases Nat.le_succ_iff.mp hk with hle | rfl
    · rw [past_of_le past g' hle,past_of_le past g' (hjk.trans hle)]
      exact h.follows j k hjk hle
    · rw [hself]
      rcases Nat.le_succ_iff.mp hjk with hle | rfl
      · rw [past_of_le past g' hle]
        exact (h.present_follows hle).trans hfollows
      · rw [hself]
        exact Follows.refl q g'
  · intro j hj
    rcases Nat.lt_succ_iff_lt_or_eq.mp hj with hlt | rfl
    · rw [Record.add_known hlt]
      exact h.known_le j hlt
    · simp only [Record.add,update_self]
      exact hknown
  · intro j hj
    rcases Nat.lt_succ_iff_lt_or_eq.mp hj with hlt | rfl
    · exact (h.informs j hlt).add hlt (h.known_le j hlt) a ts _
    · exact hinforms

end Stores

/-- What a step of the producer leaves to the consumers. -/
structure Extends (q : Ring) (s s' : State κ N) (r r' : Record Place)
    (past past' : ℕ → VersionedModel.State κ N) (g g' : VersionedModel.State κ N) : Prop where
  /-- Stores are only added. -/
  now_le : r.now≤r'.now
  /-- What views contain. -/
  knows : ∀ (v : View (Thread κ) Place) k,Knows r v k → Knows r' v k
  /-- The past does not change. -/
  past : ∀ k≤r.now,past' k=past k
  /-- The present moves on. -/
  follows : Follows q g g'
  /-- Views of the consumers. -/
  views : ∀ c,s'.views (.consumer c)=s.views (.consumer c)
  /-- Local variables of the consumers. -/
  consumer : s'.consumer=s.consumer

section Producer

variable [DecidableEq κ] {q : Ring} {s s' : State κ N} {r : Record Place}
  {past : ℕ → VersionedModel.State κ N} {g : VersionedModel.State κ N} {payload : List Byte}
  {sequence ts : ℕ}

/-- A store is added to the record. -/
theorem extends_add {g' : VersionedModel.State κ N} {a : Place} {known : ℕ}
    {l : Local (Thread κ) Place} (hfollows : Follows q g g')
    (hviews : s'.views=update s.views .producer l) (hconsumer : s'.consumer=s.consumer) :
    Extends q s s' r (r.add a ts known) past (update past (r.now+1) g') g g' where
  now_le := Nat.le_succ _
  knows := fun _ _ hk => hk.add
  past := fun _ hk => past_of_le past g' hk
  follows := hfollows
  views := fun c => by rw [hviews,update_of_ne (fun he => by cases he)]
  consumer := hconsumer

/-- Only the producer goes on. -/
theorem extends_local {g' : VersionedModel.State κ N} {l : Local (Thread κ) Place}
    (hfollows : Follows q g g') (hviews : s'.views=update s.views .producer l)
    (hconsumer : s'.consumer=s.consumer) : Extends q s s' r r past past g g' where
  now_le := le_refl _
  knows := fun _ _ hk => hk
  past := fun _ _ => rfl
  follows := hfollows
  views := fun c => by rw [hviews,update_of_ne (fun he => by cases he)]
  consumer := hconsumer

/-- The memory behind a store of the producer whose views were changed by a
fence only. -/
theorem sane_store (h : PastOk q s r past g) {l l' : Local (Thread κ) Place} {order : StoreOrder}
    {a : Place} {value : ℕ} {history : History (Thread κ) Place ℕ} (hl : l.Within s.history)
    (hs : store s.history l order a ts value=some (history,l')) :
    Sane history (update s.views .producer l') := by
  have hfenced := h.sane.setView (t:=Thread.producer) hl
  have hstored := hfenced.store (t:=Thread.producer) (by rw [update_self]; exact hs)
  rw [update_idem] at hstored
  exact hstored

/-- The producer loads the version of its cell. -/
theorem past_loadVersion (h : PastOk q s r past g)
    (hp : s.producer=.running payload sequence .loadVersion)
    (hs : stepPublish q s payload sequence ts .loadVersion=some s') :
    ∃ g',PastOk q s' r past g' ∧ Extends q s s' r r past past g g' := by
  obtain ⟨⟨version,l⟩,hl,rfl⟩ := Option.map_eq_some_iff.mp hs
  have hg : g.producer=.running payload sequence .loadVersion := h.producer_eq.trans hp
  have hversion : version=(g.cells (index q sequence)).version := by
    rw [h.cells_eq]
    exact h.logged.load_now h.knows hl
  have hsane := h.sane.load hl
  have hbegun : (VersionedModel.stepPublish q g payload sequence .loadVersion).begun=g.begun := by
    rw [VersionedModel.State.begun.eq_def g,hg]
    rfl
  obtain ⟨m,-,-,-,rfl⟩ := load_eq_some hl
  refine ⟨VersionedModel.stepPublish q g payload sequence .loadVersion,?_,
    extends_local (stepPublish_follows h.present hg) rfl rfl⟩
  refine h.local (h.present.stepPublish hg) rfl rfl hbegun rfl hsane rfl rfl
    (le_observe .relaxed _ _ _ _) rfl ?_ h.produced_eq h.log_eq rfl
  rw [hversion]
  rfl

/-- The producer stores the odd version and fences. -/
theorem past_storeOdd (h : PastOk q s r past g) {version : ℕ}
    (hp : s.producer=.running payload sequence (.storeOdd version))
    (hs : stepPublish q s payload sequence ts (.storeOdd version)=some s') :
    ∃ r' past' g',PastOk q s' r' past' g' ∧ Extends q s s' r r' past past' g g' := by
  obtain ⟨⟨history,l⟩,hw,rfl⟩ := Option.map_eq_some_iff.mp hs
  have hg : g.producer=.running payload sequence (.storeOdd version) := h.producer_eq.trans hp
  obtain ⟨b,hb,-⟩ := h.fenced
  have hok := h.present.producer
  rw [hg] at hok
  have hversion : (g.cells (index q sequence)).version=version := hok.2.2
  have heven : version%2=0 := by
    rw [← hversion]
    refine h.present.stable _ ?_
    intro other hother
    rw [hg] at hother
    cases hother
  have hsane := sane_store h (h.sane.threads .producer) hw
  have hfence := hsane.setView (t:=Thread.producer) (hsane.threads .producer).releaseFence
  rw [update_self,update_idem] at hfence
  have hfollows := stepPublish_follows h.present hg
  have hknows : Knows (r.add (.member (index q sequence) .version) ts (knownBy r b .relaxed))
      l.releaseFence.released (r.now+1) := by
    obtain ⟨-,-,-,rfl⟩ := store_eq_some hw
    exact h.knows.see
  refine ⟨_,_,_,h.store rfl hb hw (h.present.stepPublish hg) hfollows
    (contents_member rfl rfl (cellContents_version _ _)) ?_ hfence rfl rfl rfl hknows rfl
    h.produced_eq h.log_eq ?_,extends_add hfollows rfl rfl⟩
  · simp only [Informs,Record.add,update_self,VersionedModel.stepPublish,
      VersionedModel.State.store]
    omega
  · intro other _
    rw [update_self]

/-- The producer stores a guarded member. -/
theorem past_guarded (h : PastOk q s r past g) {pc pc' : PublishPc} {part : Part} {value : ℕ}
    {content : FixedMessage N} (hp : s.producer=.running payload sequence pc)
    (hw : writing (.running payload sequence pc)=some sequence)
    (hw' : writing (.running payload sequence pc')=some sequence) (hpart : part≠.version)
    (hg' : VersionedModel.stepPublish q g payload sequence pc=
      g.store q payload sequence ⟨(g.cells (index q sequence)).version,content⟩ pc')
    (hcontents : cellContents (⟨(g.cells (index q sequence)).version,content⟩ : Cell N)=
      update (cellContents (g.cells (index q sequence))) part value)
    (hs : s.storeAt (s.views .producer) .relaxed (.member (index q sequence) part) ts value
      (.running payload sequence pc')=some s') :
    ∃ r' past' g',PastOk q s' r' past' g' ∧ Extends q s s' r r' past past' g g' := by
  obtain ⟨⟨history,l⟩,hstore,rfl⟩ := Option.map_eq_some_iff.mp hs
  have hg : g.producer=.running payload sequence pc := h.producer_eq.trans hp
  obtain ⟨b,hb,hsame⟩ := h.fenced
  have hbver := hsame sequence (by rw [hp]; exact hw)
  have hodd := h.present.writing_odd (by rw [hg]; exact hw)
  have hinv := h.present.stepPublish hg
  have hfollows := stepPublish_follows h.present hg
  rw [hg'] at hinv hfollows
  have hversion : ((g.store q payload sequence ⟨(g.cells (index q sequence)).version,content⟩
      pc').cells (index q sequence)).version=(g.cells (index q sequence)).version := by
    simp only [VersionedModel.State.store,update_self]
  have hreleased : l.released=(s.views .producer).released := by
    obtain ⟨-,-,-,rfl⟩ := store_eq_some hstore
    rfl
  refine ⟨_,_,_,h.store rfl hb hstore hinv hfollows (contents_member rfl rfl hcontents) ?_
    (sane_store h (h.sane.threads .producer) hstore) rfl rfl rfl
    (by rw [hreleased]; exact hb.add) rfl h.produced_eq h.log_eq ?_,extends_add hfollows rfl rfl⟩
  · have hb' := past_of_le past (g.store q payload sequence
      ⟨(g.cells (index q sequence)).version,content⟩ pc') hb.le_now
    have hinformed : ((past b).cells (index q sequence)).version%2=1 ∧
        ((past b).cells (index q sequence)).version=
          (g.cells (index q sequence)).version := ⟨by rw [hbver]; exact hodd,hbver⟩
    cases part with
    | version => exact absurd rfl hpart
    | _ =>
      simp only [Informs,Record.add,update_self,knownBy,hb',hversion]
      exact hinformed
  · intro other hother
    have ho : other=sequence := by
      have hsome := hw'.symm.trans hother
      exact (Option.some.inj hsome).symm
    rw [ho,past_of_le past _ hb.le_now,hbver,hversion]

/-- The producer fences and stores the even version. -/
theorem past_storeEven (h : PastOk q s r past g) {version : ℕ}
    (hp : s.producer=.running payload sequence (.storeEven version))
    (hs : stepPublish q s payload sequence ts (.storeEven version)=some s') :
    ∃ r' past' g',PastOk q s' r' past' g' ∧ Extends q s s' r r' past past' g g' := by
  obtain ⟨⟨history,l⟩,hw,rfl⟩ := Option.map_eq_some_iff.mp hs
  have hg : g.producer=.running payload sequence (.storeEven version) := h.producer_eq.trans hp
  have hfollows := stepPublish_follows h.present hg
  have hb : Knows r (s.views .producer).releaseFence.released r.now := h.knows
  have hreleased : l.released=(s.views .producer).current := by
    obtain ⟨-,-,-,rfl⟩ := store_eq_some hw
    rfl
  refine ⟨_,_,_,h.store (l:=(s.views .producer).releaseFence) rfl hb hw (h.present.stepPublish hg) hfollows
    (contents_member rfl rfl (cellContents_version _ _)) ?_
    (sane_store h (h.sane.threads .producer).releaseFence hw) rfl rfl rfl
    (by rw [hreleased]; exact h.knows.add) rfl h.produced_eq h.log_eq
    (fun _ hother => by cases hother),extends_add hfollows rfl rfl⟩
  simp only [Informs,Record.add,update_self,knownBy,implies_true]

/-- The producer stores the boundary and returns. -/
theorem past_storePublished (h : PastOk q s r past g)
    (hp : s.producer=.running payload sequence .storePublished)
    (hs : stepPublish q s payload sequence ts .storePublished=some s') :
    ∃ r' past' g',PastOk q s' r' past' g' ∧ Extends q s s' r r' past past' g g' := by
  obtain ⟨⟨history,l⟩,hw,rfl⟩ := Option.map_eq_some_iff.mp hs
  have hg : g.producer=.running payload sequence .storePublished := h.producer_eq.trans hp
  have hfollows := stepPublish_follows h.present hg
  obtain ⟨b,hb,-⟩ := h.fenced
  have hreleased : l.released=(s.views .producer).released := by
    obtain ⟨-,-,-,rfl⟩ := store_eq_some hw
    rfl
  refine ⟨_,_,_,h.store rfl hb hw (h.present.stepPublish hg) hfollows
    (contents_published rfl rfl) ?_ (sane_store h (h.sane.threads .producer) hw) rfl rfl rfl
    (by rw [hreleased]; exact hb.add) rfl rfl ?_ (fun _ hother => by cases hother),
    extends_add hfollows rfl rfl⟩
  · simp only [Informs,Record.add,update_self,knownBy]
  · simp only [VersionedModel.stepPublish,VersionedModel.State.returnPublish,State.returnPublish,
      State.setMemory,accepted_append,h.log_eq]

/-- Every access of the producer. -/
theorem past_stepPublish (h : PastOk q s r past g) {pc : PublishPc}
    (hp : s.producer=.running payload sequence pc)
    (hs : stepPublish q s payload sequence ts pc=some s') :
    ∃ r' past' g',PastOk q s' r' past' g' ∧ Extends q s s' r r' past past' g g' := by
  have hok := h.present.producer
  rw [h.producer_eq,hp] at hok
  cases pc with
  | loadVersion =>
    obtain ⟨g',hnext⟩ := past_loadVersion h hp hs
    exact ⟨r,past,g',hnext⟩
  | storeOdd version => exact past_storeOdd h hp hs
  | storeSequence version =>
    exact past_guarded h hp rfl rfl (fun he => by cases he) rfl (cellContents_sequence _ _) hs
  | storeSize version =>
    exact past_guarded h hp rfl (writing_storeFrom _ _ _ _) (fun he => by cases he) rfl
      (cellContents_size _ _) hs
  | storeByte version k =>
    obtain ⟨hfits,-,-,-,-,-,hk,-⟩ := hok
    exact past_guarded h hp rfl (writing_storeFrom _ _ _ _) (fun he => by cases he) rfl
      (cellContents_byte _ (hk.trans_le hfits) _) hs
  | storeEven version => exact past_storeEven h hp hs
  | storePublished => exact past_storePublished h hp hs

/-- A call of `try_publish`. -/
theorem past_enterPublish (h : PastOk q s r past g) (hidle : s.producer=.idle)
    (payload : List Byte) :
    ∃ g',PastOk q (enterPublish s payload) r past g' ∧
      Extends q s (enterPublish s payload) r r past past g g' := by
  have hg : g.producer=.idle := h.producer_eq.trans hidle
  have hbegun : g.begun=g.published := by rw [VersionedModel.State.begun,hg]
  have hself : update s.views .producer (s.views .producer)=s.views := update_eq_self _ _
  have hinv := h.present.enterPublish hg payload
  have hfollows := enterPublish_follows (q:=q) hg payload
  refine ⟨VersionedModel.enterPublish g payload,?_,?_⟩
  · unfold VersionedModel.enterPublish at hinv ⊢
    unfold enterPublish
    split
    · rename_i hlarge
      rw [if_pos hlarge] at hinv
      refine h.local hinv rfl rfl (by rw [hbegun]; rfl) (accepted_append_none _ rfl)
        (by rw [hself]; exact h.sane) rfl hself.symm (le_refl _) rfl rfl h.produced_eq ?_ rfl
      rw [VersionedModel.State.returnPublish,State.returnPublish,accepted_append_none _ rfl,
        accepted_append_none _ rfl]
      exact h.log_eq
    · rename_i hfits
      rw [if_neg hfits] at hinv
      refine h.local hinv rfl rfl (by rw [hbegun]; rfl) rfl (by rw [hself]; exact h.sane) rfl
        hself.symm (le_refl _) rfl ?_ h.produced_eq h.log_eq rfl
      rw [h.produced_eq]
  · unfold enterPublish
    split <;> exact extends_local hfollows hself.symm rfl

end Producer

end Line64.VersionedMemoryPast
