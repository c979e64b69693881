import Line64.VersionedInvariant

/-!
# Exits of a versioned read

Every access of a consumer either moves the call on or returns through one
of its exits. Each exit is described by the publications of that instant:
what is published, what has begun, and the payload of the wanted sequence.
With this the invariant of the queue is kept by all threads.
-/

namespace Line64.VersionedRead

open Function Result FixedMessageAccess Transition RetainedHistory VersionedModel
open VersionedInvariant

variable {κ : Type} {N : ℕ}

/-- The exits of `read` at cursor `want`, given the accepted payloads and the
number of publications that have begun at the last access. -/
inductive Outcome (N capacity : ℕ) (history : List (List Byte)) (begun want : ℕ)
    (destination : List Byte) : Answer → Prop
  /-- Nothing is published at the cursor. -/
  | empty (hempty : history.length<want) :
      Outcome N capacity history begun want destination
        ⟨want,destination,⟨.empty,0,want⟩⟩
  /-- The cursor has left the window before the cell was looked at. -/
  | lagged (hlag : want+capacity≤history.length) :
      Outcome N capacity history begun want destination
        ⟨oldestRetained capacity history.length,destination,
          ⟨.consumerLagged,0,oldestRetained capacity history.length⟩⟩
  /-- The wanted message does not fit. -/
  | tooLarge (hle : want≤history.length) (hcur : begun<want+capacity)
      (hshort : destination.length<(payloadOf history want).length) :
      Outcome N capacity history begun want destination
        ⟨want,destination,⟨.messageTooLarge,0,want⟩⟩
  /-- The wanted message is delivered. -/
  | success (hle : want≤history.length) (hcur : begun<want+capacity)
      (hsize : (payloadOf history want).length≤N)
      (hfits : (payloadOf history want).length≤destination.length) :
      Outcome N capacity history begun want destination
        ⟨want+1,payloadOf history want++destination.drop (payloadOf history want).length,
          ⟨.success,(payloadOf history want).length,want⟩⟩
  /-- The wanted message was overwritten and its successor is published. -/
  | skipped (hlag : want+capacity≤history.length) :
      Outcome N capacity history begun want destination
        ⟨oldestRetained capacity history.length,destination,
          ⟨.overwritten,0,oldestRetained capacity history.length⟩⟩
  /-- The overwriting publication has begun and is not published. -/
  | stale (hpublished : history.length+1=want+capacity) (hbegun : begun=want+capacity) :
      Outcome N capacity history begun want destination
        ⟨want,destination,⟨.overwritten,0,want⟩⟩

/-- The cursor after any exit is a sequence and at most the next one. -/
theorem Outcome.cursor_bounds {N capacity begun want : ℕ} {history : List (List Byte)}
    {destination : List Byte} {answer : Answer} (hcap : 0<capacity) (hpos : 1≤want)
    (hle : want≤history.length+1)
    (h : Outcome N capacity history begun want destination answer) :
    1≤answer.cursor ∧ answer.cursor≤history.length+1 := by
  have hold := oldestRetained_pos capacity history.length
  have hnew := oldestRetained_le hcap history.length
  cases h with
  | empty hempty => exact ⟨hpos,hle⟩
  | lagged hlag => exact ⟨hold,hnew⟩
  | tooLarge hle' hcur hshort => exact ⟨hpos,hle⟩
  | success hle' hcur hsize hfits => exact ⟨Nat.le_add_left _ _,by simp only; omega⟩
  | skipped hlag => exact ⟨hold,hnew⟩
  | stale hpublished hbegun => exact ⟨hpos,hle⟩

/-- No exit moves the cursor backwards. -/
theorem Outcome.cursor_ge {N capacity begun want : ℕ} {history : List (List Byte)}
    {destination : List Byte} {answer : Answer} (hpos : 1≤want)
    (h : Outcome N capacity history begun want destination answer) : want≤answer.cursor := by
  have hlag : want<oldestRetained capacity history.length ↔ want+capacity≤history.length :=
    lt_oldestRetained_iff hpos
  cases h with
  | empty hempty => exact le_rfl
  | lagged hlate => exact (hlag.mpr hlate).le
  | tooLarge hle hcur hshort => exact le_rfl
  | success hle hcur hsize hfits => exact Nat.le_succ _
  | skipped hlate => exact (hlag.mpr hlate).le
  | stale hpublished hbegun => exact le_rfl

/-- Delivery from a snapshot that holds the wanted payload. -/
theorem deliver_of_holds {want : ℕ} {snapshot : FixedMessage N} {payload : List Byte}
    (h : Holds snapshot payload want) (destination : List Byte) :
    deliver want destination snapshot=
      if destination.length<payload.length then ⟨want,destination,⟨.messageTooLarge,0,want⟩⟩
      else ⟨want+1,payload++destination.drop payload.length,⟨.success,payload.length,want⟩⟩ := by
  simp only [deliver,h.size_eq,h.take_eq]

section Access

variable {q : Ring} {cell : Cell N} {published begun want before : ℕ}
  {snapshot snapshot' : FixedMessage N} {pc pc' : ReadPc}

/-- One more load of a copy. -/
theorem copying_next (h : Copying q cell published begun want snapshot pc before)
    (hload : Loaded cell.content snapshot pc → Loaded cell.content snapshot' pc') :
    Copying q cell published begun want snapshot' pc' before :=
  ⟨h.published,h.even,h.version_ge,h.overtaken,fun hsame => hload (h.loaded hsame)⟩

/-- The byte loop is entered or left with every earlier byte loaded. -/
theorem loaded_loadFrom {content : FixedMessage N} {k : ℕ}
    (hseq : snapshot.sequence=content.sequence) (hsize : snapshot.size=content.size) (hk : k≤N)
    (hbytes : ∀ j<k,snapshot.storage[j]?=content.storage[j]?) :
    Loaded content snapshot (loadFrom N before k) := by
  unfold loadFrom
  split
  · exact ⟨hseq,hsize,by assumption,hbytes⟩
  · have hstorage : snapshot.storage=content.storage := by
      apply Vector.ext
      intro j hj
      have hbyte := hbytes j (by omega)
      rw [Vector.getElem?_eq_getElem hj,Vector.getElem?_eq_getElem hj] at hbyte
      exact Option.some.inj hbyte
    cases snapshot
    cases content
    simp only at hseq hsize hstorage
    simp only [Loaded,hseq,hsize,hstorage]

/-- A copy inside or behind the byte loop. -/
theorem readOk_loadFrom {k : ℕ}
    (h : Copying q cell published begun want snapshot (loadFrom N before k) before) :
    ReadOk q cell published begun want snapshot (loadFrom N before k) := by
  unfold loadFrom at h ⊢
  split
  · rw [if_pos (by assumption)] at h
    exact h
  · rw [if_neg (by assumption)] at h
    exact h

/-- Loading byte `k` extends the loaded bytes. -/
theorem loaded_loadByte {k : ℕ} (hl : Loaded cell.content snapshot (.loadByte before k)) :
    Loaded cell.content
      ⟨snapshot.storage.setIfInBounds k (cell.content.storage[k]?.getD 0),snapshot.size,
        snapshot.sequence⟩ (loadFrom N before (k+1)) := by
  obtain ⟨hseq,hsize,hk,hbytes⟩ := hl
  refine loaded_loadFrom hseq hsize hk ?_
  intro j hj
  rcases Nat.lt_succ_iff_lt_or_eq.mp hj with hlt | rfl
  · rw [Vector.getElem?_setIfInBounds_ne (by omega : k≠j)]
    exact hbytes j hlt
  · rw [Vector.getElem?_setIfInBounds_self_of_lt hk,Vector.getElem?_eq_getElem hk,
      Option.getD_some]

end Access

/-- Logging an event that accepts no payload keeps the invariant. -/
theorem inv_log {q : Ring} {s : State κ N} (h : Inv q s) {event : Event κ}
    (hevent : acceptedPayload event=none) :
    Inv q {s with log := s.log++[event]} := by
  have hlog := accepted_append_none s.log hevent
  constructor
  · exact h.produced_eq
  · rw [hlog]
    exact h.published_eq
  · rw [hlog]
    exact h.fits
  · exact h.stable
  · rw [hlog]
    exact h.stored
  · exact h.producer
  · exact h.consumer

section Step

variable [DecidableEq κ] {q : Ring} {s : State κ N} {c : κ} {want attempt : ℕ}
  {destination : List Byte} {snapshot : FixedMessage N}

/-- The effect of one access of a read: the call moves on with its cursor and
destination unchanged, or it returns through one of its exits. -/
inductive ReadStep (q : Ring) (s : State κ N) (c : κ) (want : ℕ) (destination : List Byte) :
    State κ N → Prop
  | moves (attempt : ℕ) (snapshot : FixedMessage N) (pc : ReadPc)
      (hok : ReadOk q (s.cells (index q want)) s.published s.begun want snapshot pc) :
      ReadStep q s c want destination
        (s.setConsumer c (.running want destination attempt snapshot pc))
  | returns (answer : Answer)
      (hout : Outcome N q.capacity (accepted s.log) s.begun want destination answer) :
      ReadStep q s c want destination (s.returnRead c want destination answer)

/-- A failed attempt has been overtaken, so it may be repeated or given up. -/
theorem readStep_retry (hle : want ≤ s.published) (hover : want+q.capacity ≤ s.begun) :
    ReadStep q s c want destination (s.retry c want destination attempt snapshot) := by
  unfold State.retry
  split
  · exact .moves _ _ _ hle
  · exact .moves _ _ _ ⟨hle,hover⟩

/-- The first load of the boundary. -/
theorem readStep_loadPublished (h : Inv q s) (hpos : 1≤want) :
    ReadStep q s c want destination
      (stepRead q s c want destination attempt snapshot .loadPublished) := by
  have hpub := h.published_eq
  simp only [stepRead]
  split
  · exact .returns _ (.empty (by omega))
  · split
    · rename_i hlag
      rw [lt_oldestRetained_iff hpos] at hlag
      rw [hpub]
      exact .returns _ (.lagged (by omega))
    · exact .moves _ _ _ (by show want ≤ s.published; omega)

/-- The load of the version in front of the copy. -/
theorem readStep_loadBefore (h : Inv q s) (hpos : 1≤want) (hle : want ≤ s.published) :
    ReadStep q s c want destination
      (stepRead q s c want destination attempt snapshot .loadBefore) := by
  simp only [stepRead,Nat.and_one_is_mod]
  split
  · rename_i hodd
    exact readStep_retry hle (h.overtaken_of_odd hpos hle hodd)
  · rename_i heven
    refine .moves _ _ _ ⟨hle,by omega,le_rfl,?_,fun _ => trivial⟩
    intro hlt
    exact absurd hlt (lt_irrefl _)

/-- The load of the version behind the copy. Under an unchanged version the
snapshot is the content of a stable cell. -/
theorem readStep_loadAfter (h : Inv q s) {before : ℕ} (hpos : 1≤want)
    (hcopy : Copying q (s.cells (index q want)) s.published s.begun want snapshot
      (.loadAfter before) before) :
    ReadStep q s c want destination
      (stepRead q s c want destination attempt snapshot (.loadAfter before)) := by
  have hle := hcopy.published
  have hpub := h.published_eq
  simp only [stepRead]
  split
  · rename_i hsame
    have hloaded : snapshot=(s.cells (index q want)).content := hcopy.loaded hsame.symm
    have heven : (s.cells (index q want)).version%2=0 := by rw [← hsame]; exact hcopy.even
    by_cases hseq : snapshot.sequence=want
    · rw [if_neg (not_not.mpr hseq)]
      have hcur := h.current_of_sequence hpos heven (by rw [← hloaded]; exact hseq)
      have hholds := h.holds_of_current hpos hle hcur
      rw [← hloaded] at hholds
      have hdeliver := deliver_of_holds hholds destination
      have hmem : payloadOf (accepted s.log) want∈accepted s.log :=
        List.mem_of_getElem? (getElem?_payloadOf hpos (by omega))
      rw [hdeliver]
      split
      · exact .returns _ (.tooLarge (by omega) hcur (by assumption))
      · exact .returns _ (.success (by omega) hcur (h.fits _ hmem) (by omega))
    · rw [if_pos hseq]
      refine .moves _ _ _ ⟨hle,?_⟩
      by_contra hnot
      have hholds := h.holds_of_current hpos hle (by omega)
      rw [← hloaded] at hholds
      exact hseq hholds.sequence_eq
  · rename_i hchanged
    have hge := hcopy.version_ge
    exact readStep_retry hle (hcopy.overtaken (by omega))

/-- The reload of the boundary after an overwrite. -/
theorem readStep_reloadPublished (h : Inv q s) (hpos : 1≤want)
    (hover : want+q.capacity ≤ s.begun) :
    ReadStep q s c want destination
      (stepRead q s c want destination attempt snapshot .reloadPublished) := by
  have hpub := h.published_eq
  have hnext := h.begun_le_succ
  have hlag : want<oldestRetained q.capacity s.published ↔ want+q.capacity ≤ s.published :=
    lt_oldestRetained_iff hpos
  simp only [stepRead,resumeAfterOverwrite]
  by_cases hskip : want<oldestRetained q.capacity s.published
  · rw [if_pos hskip,hpub]
    exact .returns _ (.skipped (by have := hlag.mp hskip; omega))
  · rw [if_neg hskip]
    have hwindow : s.published<want+q.capacity := by
      by_contra hnot
      exact hskip (hlag.mpr (by omega))
    exact .returns _ (.stale (by omega) (by omega))

/-- Every access of a read is of one of the two kinds. -/
theorem readStep_of_inv (h : Inv q s) {pc : ReadPc}
    (hs : s.consumer c=.running want destination attempt snapshot pc) :
    ReadStep q s c want destination
      (stepRead q s c want destination attempt snapshot pc) := by
  have hok := h.consumer c
  rw [hs] at hok
  obtain ⟨hpos,-,hread⟩ := hok
  cases pc with
  | loadPublished => exact readStep_loadPublished h hpos
  | loadBefore => exact readStep_loadBefore h hpos hread
  | loadSequence before => exact .moves _ _ _ (copying_next hread fun _ => rfl)
  | loadSize before =>
    refine .moves _ _ _ (readOk_loadFrom (copying_next hread ?_))
    intro hl
    exact loaded_loadFrom hl rfl (Nat.zero_le _) (by intro j hj; omega)
  | loadByte before k =>
    exact .moves _ _ _ (readOk_loadFrom (copying_next hread loaded_loadByte))
  | loadAfter before => exact readStep_loadAfter h hpos hread
  | reloadPublished => exact readStep_reloadPublished h hpos hread.2

/-- Only the reload of the boundary reports an overwrite. -/
theorem reloads_of_overwritten {pc : ReadPc} {start : ℕ} {original : List Byte} {answer : Answer}
    (hlog : (stepRead q s c want destination attempt snapshot pc).log=
      s.log++[.read c start original answer])
    (hstatus : answer.result.status=.overwritten) : pc=.reloadPublished := by
  have hsilent : ∀ consumer,(s.setConsumer c consumer).log≠
      s.log++[.read c start original answer] := by
    intro consumer he
    exact absurd (List.self_eq_append_right.mp he) (List.cons_ne_nil _ _)
  have hretry : (s.retry c want destination attempt snapshot).log≠
      s.log++[.read c start original answer] := by
    unfold State.retry
    split
    · exact hsilent _
    · exact hsilent _
  have hother : ∀ other,other.result.status≠.overwritten →
      (s.returnRead c want destination other).log≠s.log++[.read c start original answer] := by
    intro other hne he
    have hevent := List.append_cancel_left he
    cases hevent
    exact hne hstatus
  cases pc with
  | loadPublished =>
    simp only [stepRead] at hlog
    split at hlog
    · exact absurd hlog (hother _ nofun)
    · split at hlog
      · exact absurd hlog (hother _ nofun)
      · exact absurd hlog (hsilent _)
  | loadBefore =>
    simp only [stepRead] at hlog
    split at hlog
    · exact absurd hlog hretry
    · exact absurd hlog (hsilent _)
  | loadSequence before => exact absurd hlog (hsilent _)
  | loadSize before => exact absurd hlog (hsilent _)
  | loadByte before k => exact absurd hlog (hsilent _)
  | loadAfter before =>
    have hdeliver : (deliver want destination snapshot).result.status≠.overwritten := by
      unfold deliver
      split <;> exact nofun
    simp only [stepRead] at hlog
    split at hlog
    · split at hlog
      · exact absurd hlog (hsilent _)
      · exact absurd hlog (hother _ hdeliver)
    · exact absurd hlog hretry
  | reloadPublished => rfl

/-- A consumer that keeps what it may know keeps the invariant. -/
theorem inv_setConsumer (h : Inv q s) {consumer : Consumer N}
    (hok : ConsumerOk q s.cells s.published s.begun consumer) :
    Inv q (s.setConsumer c consumer) where
  produced_eq := h.produced_eq
  published_eq := h.published_eq
  fits := h.fits
  stable := h.stable
  stored := h.stored
  producer := h.producer
  consumer := by
    intro d
    show ConsumerOk q s.cells s.published s.begun (update s.consumer c consumer d)
    by_cases hd : d=c
    · rw [hd,update_self]
      exact hok
    · rw [update_of_ne hd]
      exact h.consumer d

/-- A returning read keeps the invariant. -/
theorem inv_returnRead (h : Inv q s) {start : ℕ} {original : List Byte} {answer : Answer}
    (hcursor : 1≤answer.cursor ∧ answer.cursor ≤ s.published+1) :
    Inv q (s.returnRead c start original answer) := by
  have hidle : ConsumerOk q s.cells s.published s.begun (.idle answer.cursor) := hcursor
  have hset := inv_setConsumer (c:=c) h hidle
  have hread : acceptedPayload (.read c start original answer)=none := rfl
  exact inv_log hset hread

/-- What a step that returns from a call has logged and changed. -/
inductive Recorded (q : Ring) (s s' : State κ N) : Action κ → Event κ → Prop
  | oversized (payload : List Byte) (hlarge : N<payload.length)
      (hpublished : s'.published=s.published) (hconsumer : s'.consumer=s.consumer) :
      Recorded q s s' (.callPublish payload) (.publish payload ⟨.messageTooLarge,0⟩)
  | published (payload : List Byte) (hfits : payload.length≤N)
      (hpublished : s'.published=s.published+1) (hconsumer : s'.consumer=s.consumer)
      (hproducer : s.producer=.running payload (s.published+1) .storePublished) :
      Recorded q s s' .publish (.publish payload ⟨.success,s.published+1⟩)
  | registered (c : κ) (hnew : s.consumer c=.unregistered) (hpublished : s'.published=s.published)
      (hconsumer : s'.consumer=update s.consumer c (.idle (s.published+1))) :
      Recorded q s s' (.register c) (.register c (s.published+1))
  | read (c : κ) (want : ℕ) (original : List Byte) (answer : Answer) (hpos : 1≤want)
      (hle : want ≤ s.published+1) (hcursor : (s.consumer c).cursor=some want)
      (hout : Outcome N q.capacity (accepted s.log) s.begun want original answer)
      (hpublished : s'.published=s.published)
      (hconsumer : s'.consumer=update s.consumer c (.idle answer.cursor))
      (hrunning : ∃ attempt snapshot pc,s.consumer c=.running want original attempt snapshot pc) :
      Recorded q s s' (.read c) (.read c want original answer)

/-- A step inside a call: nothing is logged, published or moved. -/
structure Silent (s s' : State κ N) : Prop where
  /-- The log is the same. -/
  log : s'.log=s.log
  /-- The boundary is the same. -/
  published : s'.published=s.published
  /-- All cursors are the same. -/
  cursor : ∀ c,(s'.consumer c).cursor=(s.consumer c).cursor

/-- A change of one consumer that keeps its cursor is silent. -/
theorem silent_setConsumer {consumer : Consumer N}
    (hcursor : consumer.cursor=(s.consumer c).cursor) : Silent s (s.setConsumer c consumer) := by
  refine ⟨rfl,rfl,?_⟩
  intro d
  by_cases hd : d=c
  · subst hd
    simpa only [State.setConsumer,update_self] using hcursor
  · simp only [State.setConsumer,update_of_ne hd]

/-- An access of the producer is silent up to the store of the boundary. -/
theorem stepPublish_cases (h : Inv q s) {payload : List Byte} {sequence : ℕ} {pc : PublishPc}
    (hs : s.producer=.running payload sequence pc) :
    Silent s (stepPublish q s payload sequence pc) ∨
      ∃ event,(stepPublish q s payload sequence pc).log=s.log++[event] ∧
        Recorded q s (stepPublish q s payload sequence pc) .publish event := by
  have hok := h.producer
  rw [hs] at hok
  obtain ⟨hp,hseq,-⟩ := hok
  cases pc with
  | storePublished =>
    rw [hseq] at hs ⊢
    exact .inr ⟨_,rfl,.published payload hp rfl rfl hs⟩
  | _ => exact .inl ⟨rfl,rfl,fun _ => rfl⟩

/-- A scheduled access of a consumer is one of a running read. -/
theorem step_read {s' : State κ N} (hs : step q s (.read c)=some s') :
    ∃ want destination attempt snapshot pc,
      s.consumer c=.running want destination attempt snapshot pc ∧
      stepRead q s c want destination attempt snapshot pc=s' := by
  simp only [step] at hs
  split at hs
  · rename_i want destination attempt snapshot pc hc
    exact ⟨want,destination,attempt,snapshot,pc,hc,Option.some.inj hs⟩
  · cases hs

/-- Every step of every thread is silent or records one completed call. -/
theorem step_cases (h : Inv q s) {s' : State κ N} {a : Action κ} (hs : step q s a=some s') :
    Silent s s' ∨ ∃ event,s'.log=s.log++[event] ∧ Recorded q s s' a event := by
  cases a with
  | callPublish payload =>
    simp only [step] at hs
    split at hs <;> cases hs
    unfold enterPublish
    split
    · rename_i hlarge
      exact .inr ⟨_,rfl,.oversized payload hlarge rfl rfl⟩
    · exact .inl ⟨rfl,rfl,fun _ => rfl⟩
  | publish =>
    simp only [step] at hs
    split at hs <;> cases hs
    rename_i payload sequence pc hp
    exact stepPublish_cases h hp
  | register c =>
    simp only [step] at hs
    split at hs <;> cases hs
    rename_i hnew
    exact .inr ⟨_,rfl,.registered c hnew rfl rfl⟩
  | callRead c destination =>
    simp only [step] at hs
    split at hs <;> cases hs
    rename_i cursor hc
    exact .inl (silent_setConsumer (by rw [hc]; rfl))
  | read c =>
    obtain ⟨want,destination,attempt,snapshot,pc,hc,hstep⟩ := step_read hs
    have hok := h.consumer c
    have hcursor : (s.consumer c).cursor=some want := by rw [hc]; rfl
    have hread := readStep_of_inv h hc
    rw [hc] at hok
    rw [hstep] at hread
    cases hread with
    | moves attempt' snapshot' pc' hnext => exact .inl (silent_setConsumer hcursor.symm)
    | returns answer hout =>
      exact .inr ⟨_,rfl,.read c want destination answer hok.1 hok.2.1 hcursor hout rfl rfl
        ⟨attempt,snapshot,pc,hc⟩⟩

/-- The completed call of a step that extends the log. -/
theorem recorded_of_log (h : Inv q s) {s' : State κ N} {a : Action κ} {event : Event κ}
    (hs : step q s a=some s') (hlog : s'.log=s.log++[event]) : Recorded q s s' a event := by
  rcases step_cases h hs with hsilent | ⟨other,hother,hrec⟩
  · rw [hsilent.log] at hlog
    exact absurd hlog.symm (by simp)
  · rw [hother] at hlog
    have he := List.append_cancel_left hlog
    cases he
    exact hrec

/-- A completed call keeps a cursor, or is a read of that consumer. -/
theorem Recorded.cursor_cases {s' : State κ N} {a : Action κ} {event : Event κ}
    (hrec : Recorded q s s' a event) {d : κ} {cursor : ℕ}
    (hd : (s.consumer d).cursor=some cursor) :
    (s'.consumer d).cursor=some cursor ∨ ∃ original answer,
      event=.read d cursor original answer ∧ (s'.consumer d).cursor=some answer.cursor ∧
      1≤cursor ∧ Outcome N q.capacity (accepted s.log) s.begun cursor original answer := by
  cases hrec with
  | oversized payload hlarge hpublished hconsumer => exact .inl (by rw [hconsumer,hd])
  | published payload hfits hpublished hconsumer hproducer => exact .inl (by rw [hconsumer,hd])
  | registered c hnew hpublished hconsumer =>
    have hne : d≠c := by
      intro he
      rw [he,hnew] at hd
      cases hd
    exact .inl (by rw [hconsumer,update_of_ne hne,hd])
  | read c want original answer hpos hle hcursor hout hpublished hconsumer hrunning =>
    by_cases he : d=c
    · subst he
      rw [hd] at hcursor
      cases hcursor
      have hnew : (s'.consumer d).cursor=some answer.cursor := by
        rw [hconsumer,update_self]
        rfl
      exact .inr ⟨original,answer,rfl,hnew,hpos,hout⟩
    · exact .inl (by rw [hconsumer,update_of_ne he,hd])

/-- Every step of every thread keeps the invariant. -/
theorem inv_step (h : Inv q s) {s' : State κ N} {a : Action κ} (hs : step q s a=some s') :
    Inv q s' := by
  cases a with
  | callPublish payload =>
    simp only [step] at hs
    split at hs <;> cases hs
    rename_i hidle
    exact h.enterPublish hidle payload
  | publish =>
    simp only [step] at hs
    split at hs <;> cases hs
    rename_i payload sequence pc hp
    exact h.stepPublish hp
  | register c =>
    simp only [step] at hs
    split at hs <;> cases hs
    have hidle : ConsumerOk q s.cells s.published s.begun (.idle (s.published+1)) :=
      ⟨Nat.le_add_left _ _,le_rfl⟩
    have hset := inv_setConsumer (c:=c) h hidle
    have hregister : acceptedPayload (.register c (s.published+1))=none := rfl
    exact inv_log hset hregister
  | callRead c destination =>
    simp only [step] at hs
    split at hs <;> cases hs
    rename_i cursor hc
    have hok := h.consumer c
    rw [hc] at hok
    exact inv_setConsumer h ⟨hok.1,hok.2,trivial⟩
  | read c =>
    obtain ⟨want,destination,attempt,snapshot,pc,hc,hstep⟩ := step_read hs
    have hok := h.consumer c
    have hpub := h.published_eq
    have hread := readStep_of_inv h hc
    rw [hc] at hok
    rw [hstep] at hread
    cases hread with
    | moves attempt' snapshot' pc' hnext => exact inv_setConsumer h ⟨hok.1,hok.2.1,hnext⟩
    | returns answer hout =>
      have hbounds := hout.cursor_bounds q.pos hok.1 (by rw [← hpub]; exact hok.2.1)
      rw [← hpub] at hbounds
      exact inv_returnRead h hbounds

end Step

/-- The invariant holds in every reachable state. -/
theorem reachable_inv [DecidableEq κ] {q : Ring} {s : State κ N}
    (h : Reachable (system q κ N) s) : Inv q s := by
  refine Reachable.invariant (I:=Inv q) (inv_init q) ?_ h
  intro s a s' _ hi hs
  exact inv_step hi hs

end Line64.VersionedRead
