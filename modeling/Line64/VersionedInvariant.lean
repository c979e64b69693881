import Line64.RingIndex
import Line64.VersionedModel

/-!
# The seqlock invariant of the versioned multicast queue

A cell version is odd exactly while the producer writes the guarded members,
and it never decreases. A reader that meets the same even version twice has
therefore copied one generation, and a reader that meets an odd or a changed
version has been overtaken by a publication at least one lap later. The
invariant states this for every program point of the producer and of all
consumers.
-/

namespace Line64.VersionedInvariant

open Function Result FixedMessageAccess Transition RetainedHistory VersionedModel

variable {κ : Type} {N : ℕ}

/-- Payload of an accepted publication. -/
def acceptedPayload : Event κ → Option (List Byte)
  | .publish payload result => if ok result.status then some payload else none
  | _ => none

/-- Accepted payloads of a log, oldest first. -/
def accepted (log : List (Event κ)) : List (List Byte) := log.filterMap acceptedPayload

/-- One more event, seen by the accepted payloads. -/
theorem accepted_append (log : List (Event κ)) (event : Event κ) :
    accepted (log++[event])=accepted log++(acceptedPayload event).toList := by
  rw [accepted,List.filterMap_append]
  cases h : acceptedPayload event <;> simp [accepted,h]

/-- Only an accepted publication changes the accepted payloads. -/
theorem accepted_append_none (log : List (Event κ)) {event : Event κ}
    (h : acceptedPayload event=none) : accepted (log++[event])=accepted log := by
  rw [accepted_append,h,Option.toList_none,List.append_nil]

/-- Sequence whose cell is being written, between the odd and the even
version. -/
def writing : Producer → Option ℕ
  | .running _ sequence (.storeSequence _) => some sequence
  | .running _ sequence (.storeSize _) => some sequence
  | .running _ sequence (.storeByte _ _) => some sequence
  | .running _ sequence (.storeEven _) => some sequence
  | _ => none

/-- The history together with a publication that is completely written but
not yet published. -/
def written (history : List (List Byte)) : Producer → List (List Byte)
  | .running payload _ .storePublished => history++[payload]
  | _ => history

/-- What the producer has done to its cell. -/
def WriteOk (payload : List Byte) (sequence : ℕ) (cell : Cell N) : PublishPc → Prop
  | .loadVersion => True
  | .storeOdd version => cell.version=version
  | .storeSequence version => cell.version=version+1 ∧ version%2=0
  | .storeSize version => cell.version=version+1 ∧ version%2=0 ∧ cell.content.sequence=sequence
  | .storeByte version k => cell.version=version+1 ∧ version%2=0 ∧
      cell.content.sequence=sequence ∧ cell.content.size=payload.length ∧ k<payload.length ∧
      ∀ j<k,cell.content.storage[j]?=payload[j]?
  | .storeEven version => cell.version=version+1 ∧ version%2=0 ∧
      Holds cell.content payload sequence
  | .storePublished => True

/-- What the producer knows at its program point. -/
def ProducerOk (q : Ring) (cells : ℕ → Cell N) (published : ℕ) : Producer → Prop
  | .idle => True
  | .running payload sequence pc => payload.length≤N ∧ sequence=published+1 ∧
      WriteOk payload sequence (cells (index q sequence)) pc

/-- The part of the snapshot that has been loaded agrees with the content. -/
def Loaded (content snapshot : FixedMessage N) : ReadPc → Prop
  | .loadSize _ => snapshot.sequence=content.sequence
  | .loadByte _ k => snapshot.sequence=content.sequence ∧ snapshot.size=content.size ∧ k<N ∧
      ∀ j<k,snapshot.storage[j]?=content.storage[j]?
  | .loadAfter _ => snapshot=content
  | _ => True

/-- A copy that started at version `before`: it is untouched so far, or a
publication one lap later has begun. -/
structure Copying (q : Ring) (cell : Cell N) (published begun want : ℕ)
    (snapshot : FixedMessage N) (pc : ReadPc) (before : ℕ) : Prop where
  /-- The wanted sequence had been published. -/
  published : want≤published
  /-- The copy started at a stable version. -/
  even : before%2=0
  /-- Versions do not decrease. -/
  version_ge : before≤cell.version
  /-- A changed version is the work of a later publication. -/
  overtaken : before<cell.version → want+q.capacity≤begun
  /-- Under an unchanged version the loads agree with the cell. -/
  loaded : cell.version=before → Loaded cell.content snapshot pc

/-- What a read knows at its program point. -/
def ReadOk (q : Ring) (cell : Cell N) (published begun want : ℕ) (snapshot : FixedMessage N)
    (pc : ReadPc) : Prop :=
  match pc with
  | .loadPublished => True
  | .loadBefore => want≤published
  | .loadSequence before => Copying q cell published begun want snapshot pc before
  | .loadSize before => Copying q cell published begun want snapshot pc before
  | .loadByte before _ => Copying q cell published begun want snapshot pc before
  | .loadAfter before => Copying q cell published begun want snapshot pc before
  | .reloadPublished => want≤published ∧ want+q.capacity≤begun

/-- What a consumer knows at its program point. -/
def ConsumerOk (q : Ring) (cells : ℕ → Cell N) (published begun : ℕ) : Consumer N → Prop
  | .unregistered => True
  | .idle cursor => 1≤cursor ∧ cursor≤published+1
  | .running want _ _ snapshot pc => 1≤want ∧ want≤published+1 ∧
      ReadOk q (cells (index q want)) published begun want snapshot pc

/-- The inductive invariant. -/
structure Inv (q : Ring) (s : State κ N) : Prop where
  /-- The private counter agrees with the boundary between calls and inside
  them, because both are stored together. -/
  produced_eq : s.produced=s.published
  /-- The boundary counts the accepted payloads. -/
  published_eq : s.published=(accepted s.log).length
  /-- Accepted payloads fit into a cell. -/
  fits : ∀ payload ∈ accepted s.log,payload.length≤N
  /-- A cell that is not being written has an even version. -/
  stable : ∀ i,(∀ sequence,writing s.producer=some sequence → index q sequence≠i) →
    (s.cells i).version%2=0
  /-- Every written sequence stays in its cell until the write of the next
  lap begins. -/
  stored : ∀ sequence,1 ≤ sequence → sequence≤(written (accepted s.log) s.producer).length →
    s.begun<sequence+q.capacity →
    Holds (s.cells (index q sequence)).content
      (payloadOf (written (accepted s.log) s.producer) sequence) sequence
  /-- Knowledge of the producer. -/
  producer : ProducerOk q s.cells s.published s.producer
  /-- Knowledge of all consumers. -/
  consumer : ∀ c,ConsumerOk q s.cells s.published s.begun (s.consumer c)

/-- The constructed queue satisfies the invariant. -/
theorem inv_init (q : Ring) : Inv q (init κ N) where
  produced_eq := rfl
  published_eq := rfl
  fits := nofun
  stable := fun _ _ => rfl
  stored := by
    intro sequence hpos hle
    simp only [init,accepted,List.filterMap_nil,written,List.length_nil] at hle
    omega
  producer := trivial
  consumer := fun _ => trivial

/-- A later sequence in the same cell is at least one lap later. -/
theorem lap_of_index_eq {q : Ring} {a b : ℕ} (ha : 1≤a) (hab : a<b)
    (h : index q a=index q b) : a+q.capacity≤b := by
  have hlap := RingIndex.lap_le h (by omega : a-1<b-1)
  omega

/-- The written history extends the published one. -/
theorem length_le_written (history : List (List Byte)) (producer : Producer) :
    history.length≤(written history producer).length := by
  unfold written
  split
  · rw [List.length_append]
    exact Nat.le_add_right _ _
  · exact le_rfl

/-- Published payloads are the same in the written history. -/
theorem payloadOf_written {history : List (List Byte)} {sequence : ℕ} (producer : Producer)
    (hpos : 1 ≤ sequence) (hle : sequence≤history.length) :
    payloadOf (written history producer) sequence=payloadOf history sequence := by
  unfold written
  split
  · exact payloadOf_append_of_le _ hpos hle
  · rfl

/-- A sequence that is being written has begun. -/
theorem begun_of_writing {s : State κ N} {sequence : ℕ} (h : writing s.producer=some sequence) :
    s.begun=sequence := by
  unfold State.begun
  cases hp : s.producer with
  | idle => rw [hp] at h; cases h
  | running payload sequence' pc =>
    rw [hp] at h
    cases pc <;> cases h <;> rfl

/-- Nothing is completely written while a cell is being written. -/
theorem written_of_writing (history : List (List Byte)) {producer : Producer} {sequence : ℕ}
    (h : writing producer=some sequence) : written history producer=history := by
  cases producer with
  | idle => rfl
  | running payload sequence' pc => cases pc <;> cases h <;> rfl

section Facts

variable {q : Ring} {s : State κ N}

/-- What has begun is what is written, and the sequence being written. -/
theorem Inv.begun_cases (h : Inv q s) :
    (writing s.producer=none ∧ s.begun=(written (accepted s.log) s.producer).length) ∨
    (writing s.producer=some s.begun ∧
      s.begun=(written (accepted s.log) s.producer).length+1) := by
  have hpub := h.published_eq
  have hok := h.producer
  unfold State.begun
  cases hp : s.producer with
  | idle => exact .inl ⟨rfl,hpub⟩
  | running payload sequence pc =>
    rw [hp] at hok
    have hseq := hok.2.1
    cases pc with
    | loadVersion => exact .inl ⟨rfl,hpub⟩
    | storeOdd version => exact .inl ⟨rfl,hpub⟩
    | storePublished =>
      refine .inl ⟨rfl,?_⟩
      simp only [written,List.length_append,List.length_singleton]
      omega
    | _ => exact .inr ⟨rfl,by simp only [written]; omega⟩

/-- Everything published has begun. -/
theorem Inv.published_le_begun (h : Inv q s) : s.published ≤ s.begun := by
  have hok := h.producer
  unfold State.begun
  cases hp : s.producer with
  | idle => exact le_rfl
  | running payload sequence pc =>
    rw [hp] at hok
    have hseq := hok.2.1
    cases pc with
    | loadVersion => exact le_rfl
    | storeOdd version => exact le_rfl
    | _ => simp only; omega

/-- Every accepted payload has begun. -/
theorem Inv.accepted_le_begun (h : Inv q s) : (accepted s.log).length ≤ s.begun := by
  rw [← h.published_eq]
  exact h.published_le_begun

/-- Cells other than the one being written are stable. -/
theorem Inv.stable_other (h : Inv q s) {sequence i : ℕ} (hw : writing s.producer=some sequence)
    (hi : i≠index q sequence) : (s.cells i).version%2=0 := by
  refine h.stable i ?_
  intro other hother
  rw [hw] at hother
  cases hother
  exact hi.symm

/-- At most one publication has begun and is not published. -/
theorem Inv.begun_le_succ (h : Inv q s) : s.begun ≤ s.published+1 := by
  have hok := h.producer
  unfold State.begun
  cases hp : s.producer with
  | idle => exact Nat.le_succ _
  | running payload sequence pc =>
    rw [hp] at hok
    have hseq := hok.2.1
    cases pc with
    | loadVersion => exact Nat.le_succ _
    | storeOdd version => exact Nat.le_succ _
    | _ => simp only; omega

/-- The sequence being written is the next one. -/
theorem Inv.writing_eq (h : Inv q s) {sequence : ℕ} (hw : writing s.producer=some sequence) :
    sequence=s.begun ∧ sequence=s.published+1 := by
  rcases h.begun_cases with ⟨hnone,-⟩ | ⟨hsome,-⟩
  · rw [hnone] at hw
    cases hw
  · rw [hsome] at hw
    cases hw
    have hok := h.producer
    cases hp : s.producer with
    | idle => rw [hp] at hsome; cases hsome
    | running payload sequence pc =>
      rw [hp] at hok hsome
      cases pc <;> cases hsome <;> exact ⟨rfl,hok.2.1⟩

/-- The cell being written has an odd version. -/
theorem Inv.writing_odd (h : Inv q s) {sequence : ℕ} (hw : writing s.producer=some sequence) :
    (s.cells (index q sequence)).version%2=1 := by
  have hok := h.producer
  cases hp : s.producer with
  | idle => rw [hp] at hw; cases hw
  | running payload sequence' pc =>
    rw [hp] at hok hw
    obtain ⟨-,-,hcell⟩ := hok
    cases pc with
    | storeSequence version =>
      cases hw
      obtain ⟨hversion,heven⟩ := hcell
      omega
    | storeSize version =>
      cases hw
      obtain ⟨hversion,heven,-⟩ := hcell
      omega
    | storeByte version k =>
      cases hw
      obtain ⟨hversion,heven,-⟩ := hcell
      omega
    | storeEven version =>
      cases hw
      obtain ⟨hversion,heven,-⟩ := hcell
      omega
    | _ => cases hw

/-- A published sequence whose cell shows an odd version is being
overwritten. -/
theorem Inv.overtaken_of_odd (h : Inv q s) {want : ℕ} (hpos : 1≤want) (hle : want ≤ s.published)
    (hodd : (s.cells (index q want)).version%2≠0) : want+q.capacity ≤ s.begun := by
  by_contra hnot
  apply hodd
  apply h.stable
  intro sequence hw hidx
  have hseq := h.writing_eq hw
  have hlap := lap_of_index_eq hpos (by omega : want<sequence) hidx.symm
  omega

/-- A published sequence that has not been overtaken is in its cell. -/
theorem Inv.holds_of_current (h : Inv q s) {want : ℕ} (hpos : 1≤want) (hle : want ≤ s.published)
    (hcur : s.begun<want+q.capacity) :
    Holds (s.cells (index q want)).content (payloadOf (accepted s.log) want) want := by
  have hpub := h.published_eq
  have hlen := length_le_written (accepted s.log) s.producer
  have hstored := h.stored want hpos (by omega) hcur
  rw [payloadOf_written s.producer hpos (by omega)] at hstored
  exact hstored

/-- A stable cell that shows the wanted sequence has not been overtaken:
otherwise the latest publication of that cell would show instead. -/
theorem Inv.current_of_sequence (h : Inv q s) {want : ℕ} (hpos : 1≤want)
    (heven : (s.cells (index q want)).version%2=0)
    (hseq : (s.cells (index q want)).content.sequence=want) : s.begun<want+q.capacity := by
  by_contra hnot
  have hle : want-1 ≤ s.begun-1 := by omega
  obtain ⟨last,hge,hlast,hlap,hidx⟩ := RingIndex.exists_last_lap q.pos hle
  have hcell : index q (last+1)=index q want := hidx
  rcases h.begun_cases with ⟨-,hlen⟩ | ⟨hw,hlen⟩
  · have hstored := h.stored (last+1) (by omega) (by omega) (by omega)
    rw [hcell] at hstored
    have hshown := hstored.sequence_eq
    omega
  · by_cases hlatest : last+1=s.begun
    · have hodd := h.writing_odd hw
      rw [← hlatest,hcell] at hodd
      omega
    · have hstored := h.stored (last+1) (by omega) (by omega) (by omega)
      rw [hcell] at hstored
      have hshown := hstored.sequence_eq
      omega

end Facts

section Frame

variable {q : Ring}

/-- A copy survives a change of its cell that raises the version, or leaves
a stable cell alone, provided a raise from a stable version belongs to a
publication one lap later. -/
theorem Copying.frame {cell cell' : Cell N} {published published' begun begun' want before : ℕ}
    {snapshot : FixedMessage N} {pc : ReadPc}
    (h : Copying q cell published begun want snapshot pc before)
    (hpub : published≤published') (hbegun : begun≤begun') (hmono : cell.version≤cell'.version)
    (hsame : cell'.version=cell.version → cell.version%2=0 → cell'.content=cell.content)
    (hover : cell.version%2=0 → cell.version<cell'.version → want+q.capacity≤begun') :
    Copying q cell' published' begun' want snapshot pc before := by
  have heven := h.even
  have hge := h.version_ge
  have hle := h.published
  refine ⟨by omega,heven,by omega,?_,?_⟩
  · intro hlt
    by_cases hchanged : before<cell.version
    · have hold := h.overtaken hchanged
      omega
    · have hstable : cell.version=before := by omega
      exact hover (by omega) (by omega)
  · intro hsamever
    have hstable : cell.version=before := by omega
    rw [hsame (by omega) (by omega)]
    exact h.loaded hstable

/-- A consumer survives every change of the cells of the kind above. -/
theorem ConsumerOk.frame {cells cells' : ℕ → Cell N} {published published' begun begun' : ℕ}
    {consumer : Consumer N} (h : ConsumerOk q cells published begun consumer)
    (hpub : published≤published') (hbegun : begun≤begun')
    (hmono : ∀ i,(cells i).version≤(cells' i).version)
    (hsame : ∀ i,(cells' i).version=(cells i).version → (cells i).version%2=0 →
      (cells' i).content=(cells i).content)
    (hover : ∀ want,1≤want → want≤published → (cells (index q want)).version%2=0 →
      (cells (index q want)).version<(cells' (index q want)).version →
      want+q.capacity≤begun') :
    ConsumerOk q cells' published' begun' consumer := by
  cases consumer with
  | unregistered => trivial
  | idle cursor => exact ⟨h.1,by have := h.2; omega⟩
  | running want destination attempt snapshot pc =>
    obtain ⟨hpos,hle,hread⟩ := h
    refine ⟨hpos,by omega,?_⟩
    have hcopy : ∀ before,
        Copying q (cells (index q want)) published begun want snapshot pc before →
        Copying q (cells' (index q want)) published' begun' want snapshot pc before := by
      intro before hc
      exact hc.frame hpub hbegun (hmono _) (hsame _) (hover want hpos hc.published)
    cases pc with
    | loadPublished => trivial
    | loadBefore => exact Nat.le_trans hread hpub
    | loadSequence before => exact hcopy before hread
    | loadSize before => exact hcopy before hread
    | loadByte before k => exact hcopy before hread
    | loadAfter before => exact hcopy before hread
    | reloadPublished => exact ⟨Nat.le_trans hread.1 hpub,Nat.le_trans hread.2 hbegun⟩

/-- A store to the cell of the next sequence, as seen by all consumers. -/
theorem Inv.consumer_store {s : State κ N} (h : Inv q s) {sequence begun' : ℕ} (cell : Cell N)
    (hseq : sequence=s.published+1) (hbegun : s.begun≤begun')
    (hmono : (s.cells (index q sequence)).version≤cell.version)
    (hsame : cell.version=(s.cells (index q sequence)).version →
      (s.cells (index q sequence)).version%2=0 →
      cell.content=(s.cells (index q sequence)).content)
    (hover : (s.cells (index q sequence)).version%2=0 →
      (s.cells (index q sequence)).version<cell.version → sequence≤begun') (c : κ) :
    ConsumerOk q (update s.cells (index q sequence) cell) s.published begun' (s.consumer c) := by
  refine (h.consumer c).frame le_rfl hbegun ?_ ?_ ?_
  · intro i
    by_cases hi : i=index q sequence
    · rw [hi,update_self]
      exact hmono
    · rw [update_of_ne hi]
  · intro i
    by_cases hi : i=index q sequence
    · rw [hi,update_self]
      exact hsame
    · rw [update_of_ne hi]
      exact fun _ _ => rfl
  · intro want hpos hle heven hlt
    by_cases hi : index q want=index q sequence
    · rw [hi] at heven
      rw [hi,update_self] at hlt
      have hlap := lap_of_index_eq hpos (by omega : want<sequence) hi
      have hlate := hover heven hlt
      omega
    · rw [update_of_ne hi] at hlt
      omega

/-- Cells of the retained window other than the one being written. -/
theorem Inv.stored_other {s : State κ N} (h : Inv q s) {sequence : ℕ} (cell : Cell N)
    (hseq : sequence=s.published+1) {other : ℕ} (hpos : 1≤other) (hlt : other<sequence)
    (hlen : other≤(written (accepted s.log) s.producer).length)
    (hcur : s.begun<other+q.capacity) (hnear : sequence<other+q.capacity) :
    Holds (update s.cells (index q sequence) cell (index q other)).content
      (payloadOf (written (accepted s.log) s.producer) other) other := by
  have hne : index q other≠index q sequence := by
    intro he
    have hlap := lap_of_index_eq hpos hlt he
    omega
  rw [update_of_ne hne]
  exact h.stored other hpos hlen hcur

end Frame

section Publish

variable {q : Ring} {s : State κ N}

/-- A change of the producer's local state and of the log that touches no
cell, boundary or accepted payload. -/
theorem Inv.local (h : Inv q s) {producer : Producer} {log : List (Event κ)}
    (hlog : accepted log=accepted s.log) (hnone : writing s.producer=none)
    (hwritten : written (accepted s.log) producer=written (accepted s.log) s.producer)
    (hbegun : (⟨s.cells,s.produced,s.published,producer,s.consumer,log⟩ : State κ N).begun=s.begun)
    (hok : ProducerOk q s.cells s.published producer) :
    Inv q ⟨s.cells,s.produced,s.published,producer,s.consumer,log⟩ where
  produced_eq := h.produced_eq
  published_eq := by rw [h.published_eq,hlog]
  fits := by
    rw [hlog]
    exact h.fits
  stable := by
    intro i _
    exact h.stable i (by rw [hnone]; exact nofun)
  stored := by
    intro sequence hpos hle hcur
    rw [hbegun] at hcur
    simp only [hlog,hwritten] at hle ⊢
    exact h.stored sequence hpos hle hcur
  producer := hok
  consumer := by
    intro c
    rw [hbegun]
    exact h.consumer c

/-- A call of `try_publish`. -/
theorem Inv.enterPublish (h : Inv q s) (hidle : s.producer=.idle) (payload : List Byte) :
    Inv q (VersionedModel.enterPublish s payload) := by
  have hbegun : s.begun=s.published := by rw [State.begun,hidle]
  unfold VersionedModel.enterPublish
  split
  · have hlog : accepted (s.log++[.publish payload ⟨.messageTooLarge,0⟩])=accepted s.log :=
      accepted_append_none s.log rfl
    refine h.local hlog ?_ ?_ hbegun.symm trivial
    · rw [hidle]
      rfl
    · rw [hidle]
  · rename_i hfits
    refine h.local rfl ?_ ?_ hbegun.symm ⟨Nat.not_lt.mp hfits,?_,trivial⟩
    · rw [hidle]
      rfl
    · rw [hidle]
      rfl
    · rw [h.produced_eq]

/-- The load of the version. -/
theorem Inv.loadVersion (h : Inv q s) {payload : List Byte} {sequence : ℕ}
    (hs : s.producer=.running payload sequence .loadVersion) :
    Inv q (stepPublish q s payload sequence .loadVersion) := by
  have hok := h.producer
  have hbegun : s.begun=s.published := by rw [State.begun,hs]
  rw [hs] at hok
  refine h.local rfl ?_ ?_ hbegun.symm ⟨hok.1,hok.2.1,rfl⟩
  · rw [hs]
    rfl
  · rw [hs]
    rfl

/-- The store of the odd version: the write of the sequence begins, and with
it every reader of an older sequence in this cell is overtaken. -/
theorem Inv.storeOdd (h : Inv q s) {payload : List Byte} {sequence version : ℕ}
    (hs : s.producer=.running payload sequence (.storeOdd version)) :
    Inv q (stepPublish q s payload sequence (.storeOdd version)) := by
  have hok := h.producer
  have hbegun : s.begun=s.published := by rw [State.begun,hs]
  have hpub := h.published_eq
  have hnone : writing s.producer=none := by rw [hs]; rfl
  have hwritten : written (accepted s.log) s.producer=accepted s.log := by rw [hs]; rfl
  rw [hs] at hok
  obtain ⟨hp,hseq,hcell⟩ := hok
  have hversion : (s.cells (index q sequence)).version=version := hcell
  have heven := h.stable (index q sequence) (by rw [hnone]; exact nofun)
  exact {
    produced_eq := h.produced_eq
    published_eq := h.published_eq
    fits := h.fits
    stable := by
      intro i hi
      have hne : i≠index q sequence := (hi sequence rfl).symm
      simp only [stepPublish,State.store,update_of_ne hne]
      exact h.stable i (by rw [hnone]; exact nofun)
    stored := by
      intro other hpos hle hcur
      have hother := h.stored_other ⟨version+1,(s.cells (index q sequence)).content⟩ hseq hpos
      rw [hwritten] at hother
      have hle' : other≤(accepted s.log).length := hle
      have hcur' : sequence<other+q.capacity := hcur
      exact hother (by omega) hle' (by omega) hcur'
    producer := by
      refine ⟨hp,hseq,?_⟩
      simp only [stepPublish,State.store,update_self,WriteOk]
      exact ⟨trivial,by omega⟩
    consumer := h.consumer_store ⟨version+1,(s.cells (index q sequence)).content⟩ hseq
      (by show s.begun ≤ sequence; omega) (by simp only; omega) (fun _ _ => rfl)
      (fun _ _ => le_rfl) }

/-- A store to a guarded member, made while the version is odd. -/
theorem Inv.guarded (h : Inv q s) {payload : List Byte} {sequence : ℕ} {pc pc' : PublishPc}
    {content : FixedMessage N} (hs : s.producer=.running payload sequence pc)
    (hw : writing (.running payload sequence pc)=some sequence)
    (hw' : writing (.running payload sequence pc')=some sequence)
    (hok : WriteOk payload sequence ⟨(s.cells (index q sequence)).version,content⟩ pc') :
    Inv q (s.store q payload sequence ⟨(s.cells (index q sequence)).version,content⟩ pc') := by
  have hprod := h.producer
  have hwriting : writing s.producer=some sequence := by rw [hs,hw]
  have hodd := h.writing_odd hwriting
  have hbegun := begun_of_writing hwriting
  have hbegun' : (s.store q payload sequence
      ⟨(s.cells (index q sequence)).version,content⟩ pc').begun=sequence := begun_of_writing hw'
  have hwritten := written_of_writing (accepted s.log) hwriting
  have hwritten' := written_of_writing (accepted s.log) hw'
  have hpub := h.published_eq
  rw [hs] at hprod
  have hseq := hprod.2.1
  exact {
    produced_eq := h.produced_eq
    published_eq := h.published_eq
    fits := h.fits
    stable := by
      intro i hi
      have hne : i≠index q sequence := (hi sequence hw').symm
      simp only [State.store,update_of_ne hne]
      exact h.stable_other hwriting hne
    stored := by
      intro other hpos hle hcur
      have hother := h.stored_other ⟨(s.cells (index q sequence)).version,content⟩ hseq hpos
      rw [hwritten] at hother
      rw [hbegun'] at hcur
      simp only [State.store,hwritten'] at hle ⊢
      exact hother (by omega) hle (by omega) hcur
    producer := by
      refine ⟨hprod.1,hseq,?_⟩
      simp only [State.store,update_self]
      exact hok
    consumer := by
      intro c
      rw [hbegun']
      refine h.consumer_store ⟨(s.cells (index q sequence)).version,content⟩ hseq hbegun.le
        le_rfl ?_ ?_ c
      · intro _ heven
        omega
      · intro _ hlt
        exact absurd hlt (lt_irrefl _) }

/-- The store of the even version: the sequence is completely written. -/
theorem Inv.storeEven (h : Inv q s) {payload : List Byte} {sequence version : ℕ}
    (hs : s.producer=.running payload sequence (.storeEven version)) :
    Inv q (stepPublish q s payload sequence (.storeEven version)) := by
  have hok := h.producer
  have hwriting : writing s.producer=some sequence := by rw [hs]; rfl
  have hbegun := begun_of_writing hwriting
  have hwritten := written_of_writing (accepted s.log) hwriting
  have hpub := h.published_eq
  rw [hs] at hok
  obtain ⟨hp,hseq,hversion,heven,hholds⟩ := hok
  exact {
    produced_eq := h.produced_eq
    published_eq := h.published_eq
    fits := h.fits
    stable := by
      intro i _
      by_cases hi : i=index q sequence
      · simp only [stepPublish,State.store,hi,update_self]
        omega
      · simp only [stepPublish,State.store,update_of_ne hi]
        exact h.stable_other hwriting hi
    stored := by
      intro other hpos hle hcur
      have hle' : other≤(accepted s.log++[payload]).length := hle
      have hcur' : sequence<other+q.capacity := hcur
      rw [List.length_append,List.length_singleton] at hle'
      show Holds (update s.cells (index q sequence)
        ⟨version+2,(s.cells (index q sequence)).content⟩ (index q other)).content
        (payloadOf (accepted s.log++[payload]) other) other
      by_cases hlast : other=sequence
      · have hnumber : other=(accepted s.log).length+1 := by omega
        rw [hlast,update_self,← hlast,hnumber,payloadOf_append_self,← hnumber,hlast]
        exact hholds
      · have hother := h.stored_other ⟨version+2,(s.cells (index q sequence)).content⟩ hseq hpos
        rw [hwritten] at hother
        rw [payloadOf_append_of_le payload hpos (by omega)]
        exact hother (by omega) (by omega) (by omega) hcur'
    producer := ⟨hp,hseq,trivial⟩
    consumer := by
      refine h.consumer_store ⟨version+2,(s.cells (index q sequence)).content⟩ hseq hbegun.le
        (by simp only; omega) ?_ ?_
      · intro hsame
        simp only at hsame
        omega
      · intro hstable
        omega }

/-- The store of the boundary publishes what is written. -/
theorem Inv.storePublished (h : Inv q s) {payload : List Byte} {sequence : ℕ}
    (hs : s.producer=.running payload sequence .storePublished) :
    Inv q (stepPublish q s payload sequence .storePublished) := by
  have hok := h.producer
  have hpub := h.published_eq
  have hbegun : s.begun=sequence := by rw [State.begun,hs]
  have hwritten : written (accepted s.log) s.producer=accepted s.log++[payload] := by rw [hs]; rfl
  have hlog : accepted (s.log++[.publish payload ⟨.success,sequence⟩])=
      accepted s.log++[payload] := by
    rw [accepted_append]
    rfl
  rw [hs] at hok
  have hseq := hok.2.1
  exact {
    produced_eq := rfl
    published_eq := by
      simp only [stepPublish,State.returnPublish,hlog,List.length_append,List.length_singleton]
      omega
    fits := by
      intro other hother
      simp only [stepPublish,State.returnPublish,hlog,List.mem_append,List.mem_singleton] at hother
      rcases hother with hold | rfl
      · exact h.fits other hold
      · exact hok.1
    stable := by
      intro i _
      exact h.stable i (by rw [hs]; exact nofun)
    stored := by
      intro other hpos hle hcur
      simp only [stepPublish,State.returnPublish,written,hlog] at hle ⊢
      have hcur' : sequence<other+q.capacity := hcur
      have hstored := h.stored other hpos
      rw [hwritten] at hstored
      exact hstored hle (by omega)
    producer := trivial
    consumer := by
      intro c
      refine (h.consumer c).frame ?_ hbegun.le (fun i => le_rfl) (fun i _ _ => rfl) ?_
      · simp only [stepPublish,State.returnPublish]
        omega
      · intro want _ _ _ hlt
        exact absurd hlt (lt_irrefl _) }

/-- The byte loop of the producer is entered or left with every earlier byte
stored. -/
theorem storeFrom_ok {payload : List Byte} {sequence version k : ℕ} (cell : Cell N)
    (hversion : cell.version=version+1) (heven : version%2=0)
    (hseq : cell.content.sequence=sequence) (hsize : cell.content.size=payload.length)
    (hk : k≤payload.length) (hbytes : ∀ j<k,cell.content.storage[j]?=payload[j]?) :
    WriteOk payload sequence cell (storeFrom payload version k) ∧
      writing (.running payload sequence (storeFrom payload version k))=some sequence := by
  unfold storeFrom
  split
  · exact ⟨⟨hversion,heven,hseq,hsize,by assumption,hbytes⟩,rfl⟩
  · have hfull : ∀ j<payload.length,cell.content.storage[j]?=payload[j]? :=
      fun j hj => hbytes j (by omega)
    exact ⟨⟨hversion,heven,hsize,hseq,hfull⟩,rfl⟩

/-- Every access of the producer keeps the invariant. -/
theorem Inv.stepPublish (h : Inv q s) {payload : List Byte} {sequence : ℕ} {pc : PublishPc}
    (hs : s.producer=.running payload sequence pc) :
    Inv q (VersionedModel.stepPublish q s payload sequence pc) := by
  have hok := h.producer
  rw [hs] at hok
  obtain ⟨hp,hseq,hcell⟩ := hok
  cases pc with
  | loadVersion => exact h.loadVersion hs
  | storeOdd version => exact h.storeOdd hs
  | storeSequence version =>
    obtain ⟨hversion,heven⟩ := hcell
    exact h.guarded hs rfl rfl ⟨hversion,heven,rfl⟩
  | storeSize version =>
    obtain ⟨hversion,heven,hsequence⟩ := hcell
    have hnext := storeFrom_ok (k:=0)
      ⟨(s.cells (index q sequence)).version,⟨(s.cells (index q sequence)).content.storage,
        payload.length,(s.cells (index q sequence)).content.sequence⟩⟩
      hversion heven hsequence rfl (Nat.zero_le _) (by intro j hj; omega)
    exact h.guarded hs rfl hnext.2 hnext.1
  | storeByte version k =>
    obtain ⟨hversion,heven,hsequence,hsize,hk,hbytes⟩ := hcell
    have hstored := setIfInBounds_bytes hp hk hbytes
    have hnext := storeFrom_ok (k:=k+1)
      ⟨(s.cells (index q sequence)).version,
        ⟨(s.cells (index q sequence)).content.storage.setIfInBounds k (payload.getD k 0),
          (s.cells (index q sequence)).content.size,(s.cells (index q sequence)).content.sequence⟩⟩
      hversion heven hsequence hsize hk hstored
    exact h.guarded hs rfl hnext.2 hnext.1
  | storeEven version => exact h.storeEven hs
  | storePublished => exact h.storePublished hs

end Publish

end Line64.VersionedInvariant
