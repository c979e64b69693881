import Line64.VersionedDelivery
import Line64.VersionedMemoryPast

/-!
# Reads of the versioned queue on its memory orders

A read that has loaded an even version knows the memory of some time, and
loads every guarded member from that time or a later one. A later member was
stored behind the odd version of a later publication, and the acquire fence
makes this version known before the version is loaded again. So two equal
versions mean one time: the copy is the content of the cell at that time,
although the loads may be outdated and of different ages.
-/

namespace Line64.VersionedMemoryRead

open Function Result FixedMessageAccess Transition RetainedHistory ReleaseAcquire SingleWriter
open VersionedModel (Ring PublishPc Producer ReadPc Consumer Event Cell index loadFrom
  resumeAfterOverwrite deliver)
open VersionedInvariant (accepted acceptedPayload accepted_append accepted_append_none Loaded)
open VersionedDelivery (Intact)
open VersionedMemoryModel VersionedMemoryPast

variable {κ : Type} {N : ℕ}

/-- A copy whose version was loaded as the one of time `k`: everything loaded
since is of that time, or an acquire fence will show a later version. -/
structure Copying (q : Ring) (r : Record Place) (past : ℕ → VersionedModel.State κ N)
    (l : Local (Thread κ) Place) (want : ℕ) (snapshot : FixedMessage N) (pc : ReadPc)
    (before k : ℕ) : Prop where
  /-- The consumer knows the time. -/
  knows : Knows r l.current k
  /-- The wanted sequence had been published. -/
  published : want ≤ (past k).published
  /-- The version of the cell. -/
  version : ((past k).cells (index q want)).version=before
  /-- The cell was stable. -/
  even : before%2=0
  /-- What was loaded. -/
  loaded : Loaded ((past k).cells (index q want)).content snapshot pc ∨
    ∃ b,Knows r l.acquired b ∧ before<((past b).cells (index q want)).version

/-- What a read knows at its program point. -/
def ReadOk (q : Ring) (r : Record Place) (past : ℕ → VersionedModel.State κ N)
    (g : VersionedModel.State κ N) (l : Local (Thread κ) Place) (want : ℕ)
    (snapshot : FixedMessage N) (pc : ReadPc) : Prop :=
  match pc with
  | .loadPublished => True
  | .loadBefore => ∃ k,Knows r l.current k ∧ want ≤ (past k).published
  | .loadSequence before => ∃ k,Copying q r past l want snapshot pc before k
  | .loadSize before => ∃ k,Copying q r past l want snapshot pc before k
  | .loadByte before _ => ∃ k,Copying q r past l want snapshot pc before k
  | .loadAfter before => ∃ k,Copying q r past l want snapshot pc before k
  | .reloadPublished => want+q.capacity ≤ g.begun

/-- What a consumer knows at its program point. -/
def ConsumerOk (q : Ring) (r : Record Place) (past : ℕ → VersionedModel.State κ N)
    (g : VersionedModel.State κ N) (l : Local (Thread κ) Place) : Consumer N → Prop
  | .unregistered => True
  | .idle cursor => 1≤cursor ∧ cursor ≤ g.published+1
  | .running want _ _ snapshot pc => 1≤want ∧ want ≤ g.published+1 ∧
      ReadOk q r past g l want snapshot pc

section Frame

variable {q : Ring} {s s' : State κ N} {r r' : Record Place}
  {past past' : ℕ → VersionedModel.State κ N} {g g' : VersionedModel.State κ N}
  {l : Local (Thread κ) Place}

/-- A copy survives the steps of the producer. -/
theorem Copying.extend {want before k : ℕ} {snapshot : FixedMessage N} {pc : ReadPc}
    (h : Copying q r past l want snapshot pc before k)
    (he : Extends q s s' r r' past past' g g') :
    Copying q r' past' l want snapshot pc before k := by
  have hk := he.past k h.knows.le_now
  refine ⟨he.knows _ k h.knows,by rw [hk]; exact h.published,by rw [hk]; exact h.version,h.even,?_⟩
  rw [hk]
  rcases h.loaded with hl | ⟨b,hb,hlt⟩
  · exact .inl hl
  · exact .inr ⟨b,he.knows _ b hb,by rw [he.past b hb.le_now]; exact hlt⟩

/-- A read survives the steps of the producer. -/
theorem ReadOk.extend {want : ℕ} {snapshot : FixedMessage N} {pc : ReadPc}
    (h : ReadOk q r past g l want snapshot pc) (he : Extends q s s' r r' past past' g g') :
    ReadOk q r' past' g' l want snapshot pc := by
  cases pc with
  | loadPublished => trivial
  | loadBefore =>
    obtain ⟨k,hk,hle⟩ := h
    exact ⟨k,he.knows _ k hk,by rw [he.past k hk.le_now]; exact hle⟩
  | reloadPublished => exact Nat.le_trans h he.follows.begun
  | _ =>
    obtain ⟨k,hk⟩ := h
    exact ⟨k,hk.extend he⟩

/-- A consumer survives the steps of the producer. -/
theorem ConsumerOk.extend {consumer : Consumer N} (h : ConsumerOk q r past g l consumer)
    (he : Extends q s s' r r' past past' g g') : ConsumerOk q r' past' g' l consumer := by
  have hpub := he.follows.published
  cases consumer with
  | unregistered => trivial
  | idle cursor => exact ⟨h.1,h.2.trans (by omega)⟩
  | running want destination attempt snapshot pc =>
    exact ⟨h.1,h.2.1.trans (by omega),h.2.2.extend he⟩

end Frame

/-- The exits of `read` at cursor `want`. The boundary that a read loads may
be outdated, so only what follows from the loaded one is stated. -/
inductive Outcome (N capacity : ℕ) (history : List (List Byte)) (begun want : ℕ)
    (destination : List Byte) : Answer → Prop
  /-- The loaded boundary is in front of the cursor. -/
  | empty : Outcome N capacity history begun want destination
      ⟨want,destination,⟨.empty,0,want⟩⟩
  /-- The cursor has left the window of the loaded boundary. -/
  | lagged (published : ℕ) (hle : published≤history.length) (hlag : want+capacity≤published) :
      Outcome N capacity history begun want destination
        ⟨oldestRetained capacity published,destination,
          ⟨.consumerLagged,0,oldestRetained capacity published⟩⟩
  /-- The wanted message does not fit. -/
  | tooLarge (hle : want≤history.length)
      (hshort : destination.length<(payloadOf history want).length) :
      Outcome N capacity history begun want destination
        ⟨want,destination,⟨.messageTooLarge,0,want⟩⟩
  /-- The wanted message is delivered. -/
  | success (hle : want≤history.length) (hsize : (payloadOf history want).length≤N)
      (hfits : (payloadOf history want).length≤destination.length) :
      Outcome N capacity history begun want destination
        ⟨want+1,payloadOf history want++destination.drop (payloadOf history want).length,
          ⟨.success,(payloadOf history want).length,want⟩⟩
  /-- The wanted message was overwritten and the loaded boundary shows it. -/
  | skipped (published : ℕ) (hle : published≤history.length) (hlag : want+capacity≤published) :
      Outcome N capacity history begun want destination
        ⟨oldestRetained capacity published,destination,
          ⟨.overwritten,0,oldestRetained capacity published⟩⟩
  /-- The overwriting publication has begun. -/
  | stale (hbegun : want+capacity≤begun) :
      Outcome N capacity history begun want destination
        ⟨want,destination,⟨.overwritten,0,want⟩⟩

section Loads

variable {q : Ring} {s : State κ N} {r : Record Place} {past : ℕ → VersionedModel.State κ N}
  {g : VersionedModel.State κ N} {l l' : Local (Thread κ) Place} {want before k ts value : ℕ}
  {snapshot snapshot' : FixedMessage N} {pc pc' : ReadPc}

/-- A store of a guarded member makes the odd version of its cell known. -/
theorem informed_member (h : PastOk q s r past g) {j i : ℕ} {part : Part} (hj : j<r.now)
    (hplace : r.place j=.member i part) (hpart : part≠.version) :
    ((past (r.known j)).cells i).version%2=1 ∧
      ((past (r.known j)).cells i).version=((past (j+1)).cells i).version := by
  have hinf := h.informs j hj
  unfold Informs at hinf
  rw [hplace] at hinf
  cases part with
  | version => exact absurd rfl hpart
  | _ => exact hinf

/-- The load of a guarded member. -/
theorem Copying.load (hc : Copying q r past l want snapshot pc before k) (h : PastOk q s r past g)
    {part : Part} (hpart : part≠.version)
    (hl : load s.history l .relaxed (.member (index q want) part) ts=some (value,l'))
    (hnext : value=cellContents ((past k).cells (index q want)) part →
      Loaded ((past k).cells (index q want)).content snapshot pc →
      Loaded ((past k).cells (index q want)).content snapshot' pc') :
    Copying q r past l' want snapshot' pc' before k := by
  obtain ⟨hcur,hacq,hvalue⟩ := h.logged.load hc.knows hl
  refine ⟨hc.knows.mono hcur,hc.published,hc.version,hc.even,?_⟩
  rcases hvalue with hvalue | ⟨j,hkj,hj,hplace,-,hknown,-⟩
  · rcases hc.loaded with hloaded | ⟨b,hb,hlt⟩
    · exact .inl (hnext hvalue hloaded)
    · exact .inr ⟨b,hb.mono hacq,hlt⟩
  · obtain ⟨hodd,hsame⟩ := informed_member h hj hplace hpart
    have hgrow := (h.follows k (j+1) (by omega) (by omega)).version (index q want)
    rw [hc.version,← hsame] at hgrow
    have heven := hc.even
    exact .inr ⟨r.known j,hknown,by omega⟩

/-- The load of the version in front of the copy. -/
theorem load_before (h : PastOk q s r past g) (hpos : 1≤want) (hk : Knows r l.current k)
    (hle : want ≤ (past k).published)
    (hl : load s.history l .acquire (.member (index q want) .version) ts=some (value,l'))
    (snapshot : FixedMessage N) :
    (value%2≠0 ∧ want+q.capacity ≤ g.begun) ∨
      ∃ k',Copying q r past l' want snapshot (.loadSequence value) value k' := by
  obtain ⟨hcur,-,hvalue⟩ := h.logged.load hk hl
  rcases hvalue with hvalue | ⟨j,hkj,hj,hplace,hvalue,-,hknown⟩
  · by_cases heven : value%2=0
    · exact .inr ⟨k,hk.mono hcur,hle,hvalue.symm,heven,.inl trivial⟩
    · have hodd : ((past k).cells (index q want)).version%2≠0 := by
        rw [show ((past k).cells (index q want)).version=value from hvalue.symm]
        exact heven
      have hover := (h.inv k hk.le_now).overtaken_of_odd hpos hle hodd
      exact .inl ⟨heven,hover.trans (h.present_follows hk.le_now).begun⟩
  · have hpub : want ≤ (past (j+1)).published :=
      hle.trans (h.follows k (j+1) (by omega) (by omega)).published
    have hversion : ((past (j+1)).cells (index q want)).version=value := hvalue.symm
    by_cases heven : value%2=0
    · have hinf := h.informs j hj
      unfold Informs at hinf
      rw [hplace] at hinf
      have hall := hinf (by rw [hversion]; exact heven)
      have hknows := hknown rfl
      rw [hall] at hknows
      exact .inr ⟨j+1,hknows,hpub,hversion,heven,.inl trivial⟩
    · have hover := (h.inv (j+1) hj).overtaken_of_odd hpos hpub (by rw [hversion]; exact heven)
      exact .inl ⟨heven,hover.trans (h.present_follows hj).begun⟩

/-- A version loaded by a thread that knows time `k` is one of a later time. -/
theorem version_later (h : PastOk q s r past g) {i : ℕ} {order : LoadOrder}
    (hk : Knows r l.current k)
    (hl : load s.history l order (.member i .version) ts=some (value,l')) :
    ∃ k',k≤k' ∧ k'≤r.now ∧ value=((past k').cells i).version := by
  obtain ⟨-,-,hvalue | ⟨j,hkj,hj,-,hvalue,-⟩⟩ := h.logged.load hk hl
  · exact ⟨k,le_refl k,hk.le_now,hvalue⟩
  · exact ⟨j+1,by omega,hj,hvalue⟩

/-- The load of the version behind the copy and its acquire fence: an equal
version means an unchanged cell, another one that it was overtaken. -/
theorem load_after (h : PastOk q s r past g) (hpos : 1≤want)
    (hc : Copying q r past l want snapshot (.loadAfter before) before k)
    (hl : load s.history l.acquireFence .relaxed (.member (index q want) .version) ts=
      some (value,l')) :
    (before=value → snapshot=((past k).cells (index q want)).content) ∧
      (before≠value → want+q.capacity ≤ g.begun) := by
  have hknows : Knows r l.acquireFence.current k := hc.knows.mono le_sup_left
  constructor
  · rintro rfl
    rcases hc.loaded with hloaded | ⟨b,hb,hlt⟩
    · exact hloaded
    · have hbk : Knows r l.acquireFence.current b := hb.mono le_sup_right
      obtain ⟨k',hle,hnow,hversion⟩ := version_later h hbk hl
      have hgrow := (h.follows b k' hle hnow).version (index q want)
      omega
  · intro hne
    obtain ⟨k',hle,hnow,hversion⟩ := version_later h hknows hl
    have hgrow := h.follows k k' hle hnow
    have hversions := hgrow.version (index q want)
    have hbefore := hc.version
    have hover := hgrow.overtaken want hpos hc.published (by rw [hbefore]; exact hc.even)
      (by omega)
    exact hover.trans (h.present_follows hnow).begun

/-- A loaded boundary is one of the past, and acquiring it makes that time
known. -/
theorem load_published (h : PastOk q s r past g)
    (hl : load s.history l .acquire .published ts=some (value,l')) :
    ∃ k,Knows r l'.current k ∧ value=(past k).published := by
  obtain ⟨-,-,hvalue | ⟨j,-,hj,hplace,hvalue,-,hknown⟩⟩ := h.logged.load (Knows.zero r l.current) hl
  · exact ⟨0,Knows.zero r _,hvalue⟩
  · have hinf := h.informs j hj
    unfold Informs at hinf
    rw [hplace] at hinf
    have hknows := hknown rfl
    rw [show r.known j=j+1 from hinf] at hknows
    exact ⟨j+1,hknows,hvalue⟩

/-- The history at an earlier time is the beginning of the accepted one. -/
theorem payloadOf_past (h : PastOk q s r past g) (hk : k≤r.now) (hpos : 1≤want)
    (hle : want ≤ (past k).published) :
    want ≤ (accepted s.log).length ∧
      payloadOf (accepted s.log) want=payloadOf (accepted (past k).log) want := by
  obtain ⟨added,hadded⟩ := (h.present_follows hk).accepted
  rw [h.log_eq] at hadded
  have hlen := (h.inv k hk).published_eq
  rw [hadded]
  refine ⟨by rw [List.length_append]; omega,?_⟩
  simp only [payloadOf,List.getD_eq_getElem?_getD]
  rw [List.getElem?_append_left (by omega)]

/-- A stable copy of the wanted sequence is delivered. -/
theorem outcome_deliver (h : PastOk q s r past g) (hpos : 1≤want)
    (hc : Copying q r past l want snapshot pc before k)
    (hsnapshot : snapshot=((past k).cells (index q want)).content)
    (hseq : snapshot.sequence=want) (destination : List Byte) :
    Outcome N q.capacity (accepted s.log) g.begun want destination
      (deliver want destination snapshot) := by
  have hinv := h.inv k hc.knows.le_now
  have hcur := hinv.current_of_sequence hpos (by rw [hc.version]; exact hc.even)
    (by rw [← hsnapshot]; exact hseq)
  have hholds := hinv.holds_of_current hpos hc.published hcur
  obtain ⟨hle,hpayload⟩ := payloadOf_past h hc.knows.le_now hpos hc.published
  rw [← hsnapshot,← hpayload] at hholds
  have hmem : payloadOf (accepted (past k).log) want ∈ accepted (past k).log :=
    List.mem_of_getElem? (getElem?_payloadOf hpos (by rw [← hinv.published_eq]; exact hc.published))
  rw [VersionedRead.deliver_of_holds hholds]
  split
  · rename_i hshort
    exact .tooLarge hle hshort
  · rename_i hfits
    exact .success hle (by rw [hpayload]; exact hinv.fits _ hmem) (Nat.le_of_not_lt hfits)

/-- A stable copy of another sequence was overtaken. -/
theorem overtaken_of_other (h : PastOk q s r past g) (hpos : 1≤want)
    (hc : Copying q r past l want snapshot pc before k)
    (hsnapshot : snapshot=((past k).cells (index q want)).content)
    (hseq : snapshot.sequence≠want) : want+q.capacity ≤ g.begun := by
  have hbegun := (h.present_follows hc.knows.le_now).begun
  by_contra hnot
  have hholds := (h.inv k hc.knows.le_now).holds_of_current hpos hc.published (by omega)
  rw [← hsnapshot] at hholds
  exact hseq hholds.sequence_eq

/-- The end of a read that lost its message. -/
theorem outcome_recover (h : PastOk q s r past g) (hpos : 1≤want)
    (hover : want+q.capacity ≤ g.begun) {published : ℕ} (hk : k≤r.now)
    (hpub : published=(past k).published) (destination : List Byte) :
    Outcome N q.capacity (accepted s.log) g.begun want destination
      ⟨resumeAfterOverwrite q published want,destination,
        ⟨.overwritten,0,resumeAfterOverwrite q published want⟩⟩ := by
  have hle : published ≤ (accepted s.log).length := by
    rw [hpub,← h.log_eq,← h.present.published_eq]
    exact (h.present_follows hk).published
  unfold resumeAfterOverwrite
  dsimp only
  split
  · rename_i hlt
    exact .skipped published hle ((lt_oldestRetained_iff hpos).mp hlt)
  · exact .stale hover

/-- A copy inside or behind the byte loop. -/
theorem readOk_loadFrom {j : ℕ}
    (h : Copying q r past l want snapshot (loadFrom N before j) before k) :
    ReadOk q r past g l want snapshot (loadFrom N before j) := by
  unfold loadFrom at h ⊢
  split
  · rw [if_pos (by assumption)] at h
    exact ⟨k,h⟩
  · rw [if_neg (by assumption)] at h
    exact ⟨k,h⟩

end Loads

section Steps

variable [DecidableEq κ] {q : Ring} {s s' : State κ N} {r : Record Place}
  {past : ℕ → VersionedModel.State κ N} {g : VersionedModel.State κ N} {c : κ} {want ts : ℕ}
  {destination : List Byte} {attempt : ℕ} {snapshot : FixedMessage N}

/-- What one access of a read does: it moves on, or returns. -/
inductive ReadStep (q : Ring) (r : Record Place) (past : ℕ → VersionedModel.State κ N)
    (g : VersionedModel.State κ N) (s : State κ N) (c : κ) (want : ℕ) (destination : List Byte) :
    State κ N → Prop
  | moves (l : Local (Thread κ) Place) (attempt : ℕ) (snapshot : FixedMessage N) (pc : ReadPc)
      (hsane : Sane s.history (update s.views (.consumer c) l))
      (hok : ReadOk q r past g l want snapshot pc) :
      ReadStep q r past g s c want destination ((s.setMemory (.consumer c) s.history l).setConsumer
        c (.running want destination attempt snapshot pc))
  | returns (l : Local (Thread κ) Place) (answer : Answer)
      (hsane : Sane s.history (update s.views (.consumer c) l))
      (hout : Outcome N q.capacity (accepted s.log) g.begun want destination answer) :
      ReadStep q r past g s c want destination ((s.setMemory (.consumer c) s.history l).returnRead
        c want destination answer)

/-- The memory behind a load of a consumer whose views were changed by a
fence only. -/
theorem sane_load (h : PastOk q s r past g) {l l' : Local (Thread κ) Place} {order : LoadOrder}
    {a : Place} {value : ℕ} (hl : l.Within s.history)
    (hload : load s.history l order a ts=some (value,l')) :
    Sane s.history (update s.views (.consumer c) l') := by
  have hfenced := h.sane.setView (t:=Thread.consumer c) hl
  have hloaded := hfenced.load (t:=Thread.consumer c) (by rw [update_self]; exact hload)
  rw [update_idem] at hloaded
  exact hloaded

/-- A failed attempt of a read that was overtaken. -/
theorem readStep_retry {l : Local (Thread κ) Place} {k : ℕ}
    (hsane : Sane s.history (update s.views (.consumer c) l)) (hk : Knows r l.current k)
    (hle : want ≤ (past k).published) (hover : want+q.capacity ≤ g.begun) :
    ReadStep q r past g s c want destination ((s.setMemory (.consumer c) s.history l).retry c want
      destination attempt snapshot) := by
  unfold State.retry
  split
  · exact .moves l _ _ .loadBefore hsane ⟨k,hk,hle⟩
  · exact .moves l _ _ .reloadPublished hsane hover

/-- The load of the boundary at the beginning. -/
theorem readStep_loadPublished (h : PastOk q s r past g) (hpos : 1≤want)
    (hs : stepRead q s c want destination attempt snapshot ts .loadPublished=some s') :
    ReadStep q r past g s c want destination s' := by
  obtain ⟨⟨published,l⟩,hl,rfl⟩ := Option.map_eq_some_iff.mp hs
  have hsane := sane_load (c:=c) h (h.sane.threads (.consumer c)) hl
  obtain ⟨k,hk,hpub⟩ := load_published h hl
  have hle : published ≤ (accepted s.log).length := by
    rw [hpub,← h.log_eq,← h.present.published_eq]
    exact (h.present_follows hk.le_now).published
  unfold testPublished
  dsimp only
  split
  · exact .returns l _ hsane .empty
  · rename_i hwant
    split
    · rename_i hlag
      exact .returns l _ hsane (.lagged published hle ((lt_oldestRetained_iff hpos).mp hlag))
    · exact .moves l _ _ .loadBefore hsane ⟨k,hk,by omega⟩

/-- The load of the version in front of the copy. -/
theorem readStep_loadBefore (h : PastOk q s r past g) (hpos : 1≤want)
    (hok : ReadOk q r past g (s.views (.consumer c)) want snapshot .loadBefore)
    (hs : stepRead q s c want destination attempt snapshot ts .loadBefore=some s') :
    ReadStep q r past g s c want destination s' := by
  obtain ⟨⟨before,l⟩,hl,rfl⟩ := Option.map_eq_some_iff.mp hs
  have hsane := sane_load (c:=c) h (h.sane.threads (.consumer c)) hl
  obtain ⟨k,hk,hle⟩ := hok
  have hcur := (h.logged.load hk hl).1
  have hone : before&&&1=before%2 := Nat.and_one_is_mod before
  unfold testBefore
  dsimp only
  rcases load_before h hpos hk hle hl snapshot with ⟨hodd,hover⟩ | ⟨k',hcopy⟩
  · rw [if_pos (by rw [hone]; exact hodd)]
    exact readStep_retry hsane (hk.mono hcur) hle hover
  · have heven := hcopy.even
    rw [if_neg (by rw [hone]; omega)]
    exact .moves l _ _ (.loadSequence before) hsane ⟨k',hcopy⟩

/-- The load of the version behind the copy. -/
theorem readStep_loadAfter (h : PastOk q s r past g) (hpos : 1≤want) {before : ℕ}
    (hok : ReadOk q r past g (s.views (.consumer c)) want snapshot (.loadAfter before))
    (hs : stepRead q s c want destination attempt snapshot ts (.loadAfter before)=some s') :
    ReadStep q r past g s c want destination s' := by
  obtain ⟨⟨version,l⟩,hl,rfl⟩ := Option.map_eq_some_iff.mp hs
  have hsane := sane_load (c:=c) h (h.sane.threads (.consumer c)).acquireFence hl
  obtain ⟨k,hc⟩ := hok
  obtain ⟨hsame,hother⟩ := load_after h hpos hc hl
  have hfence : Knows r (s.views (.consumer c)).acquireFence.current k := hc.knows.mono le_sup_left
  have hknows := hfence.mono (h.logged.load hfence hl).1
  unfold testAfter
  dsimp only
  by_cases heq : before=version
  · have hsnapshot := hsame heq
    rw [if_pos heq]
    by_cases hseq : snapshot.sequence=want
    · rw [if_neg (not_not.mpr hseq)]
      exact .returns l _ hsane (outcome_deliver h hpos hc hsnapshot hseq destination)
    · rw [if_pos hseq]
      exact .moves l _ _ .reloadPublished hsane (overtaken_of_other h hpos hc hsnapshot hseq)
  · rw [if_neg heq]
    exact readStep_retry hsane hknows hc.published (hother heq)

/-- Every access of a read. -/
theorem readStep_of_ok (h : PastOk q s r past g) (hpos : 1≤want) {pc : ReadPc}
    (hok : ReadOk q r past g (s.views (.consumer c)) want snapshot pc)
    (hs : stepRead q s c want destination attempt snapshot ts pc=some s') :
    ReadStep q r past g s c want destination s' := by
  have hwithin := h.sane.threads (.consumer c)
  cases pc with
  | loadPublished => exact readStep_loadPublished h hpos hs
  | loadBefore => exact readStep_loadBefore h hpos hok hs
  | loadSequence before =>
    obtain ⟨⟨sequence,l⟩,hl,rfl⟩ := Option.map_eq_some_iff.mp hs
    obtain ⟨k,hc⟩ := hok
    exact .moves l _ _ (.loadSize before) (sane_load h hwithin hl)
      ⟨k,hc.load h (fun he => by cases he) hl fun hvalue _ => hvalue⟩
  | loadSize before =>
    obtain ⟨⟨size,l⟩,hl,rfl⟩ := Option.map_eq_some_iff.mp hs
    obtain ⟨k,hc⟩ := hok
    refine .moves l _ _ (loadFrom N before 0) (sane_load h hwithin hl) (readOk_loadFrom (k:=k) ?_)
    refine hc.load h (fun he => by cases he) hl fun hvalue hloaded => ?_
    exact VersionedRead.loaded_loadFrom hloaded hvalue (Nat.zero_le _)
      (fun j hj => absurd hj (Nat.not_lt_zero j))
  | loadByte before j =>
    obtain ⟨⟨byte,l⟩,hl,rfl⟩ := Option.map_eq_some_iff.mp hs
    obtain ⟨k,hc⟩ := hok
    refine .moves l _ _ (loadFrom N before (j+1)) (sane_load h hwithin hl)
      (readOk_loadFrom (k:=k) ?_)
    refine hc.load h (fun he => by cases he) hl fun hvalue hloaded => ?_
    have hbyte : UInt8.ofNat byte=((past k).cells (index q want)).content.storage[j]?.getD 0 := by
      rw [hvalue,cellContents,UInt8.ofNat_toNat]
    rw [hbyte]
    exact VersionedRead.loaded_loadByte hloaded
  | loadAfter before => exact readStep_loadAfter h hpos hok hs
  | reloadPublished =>
    obtain ⟨⟨published,l⟩,hl,rfl⟩ := Option.map_eq_some_iff.mp hs
    obtain ⟨k,hk,hpub⟩ := load_published h hl
    exact .returns l _ (sane_load h hwithin hl)
      (outcome_recover h hpos hok hk.le_now hpub destination)

end Steps

end Line64.VersionedMemoryRead
