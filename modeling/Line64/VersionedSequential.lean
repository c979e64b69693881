import Line64.VersionedRead

/-!
# The versioned multicast queue in sequential use

`try_publish` and `read` of `VersionedSPMCQueue` as complete functions, for
calls that do not overlap. In the access-by-access model a call that runs
alone computes exactly these functions, the retry loop of a read included.
-/

namespace Line64.VersionedSequential

open Function Result FixedMessageAccess Transition RetainedHistory VersionedModel VersionedInvariant
  VersionedRead

/-- Members of the queue. -/
structure Queue (N : ℕ) where
  /-- Ring cells; only indices below the capacity are used. -/
  cells : ℕ → Cell N
  /-- The private counter `produced_`. -/
  produced : ℕ
  /-- The atomic boundary `published_`. -/
  published : ℕ

/-- The constructed queue. -/
def Queue.initial (N : ℕ) : Queue N := ⟨fun _ => ⟨0,.initial N⟩,0,0⟩

variable {κ : Type} {N : ℕ}

/-- The complete `try_publish`: the version passes through the odd value and
ends at the next even one. -/
def tryPublish (q : Ring) (s : Queue N) (payload : List Byte) : Queue N × WriteResult :=
  if N<payload.length then (s,⟨.messageTooLarge,0⟩)
  else
    let sequence := s.produced+1
    let cell := s.cells (index q sequence)
    let content := ⟨copyIn payload cell.content.storage,payload.length,sequence⟩
    (⟨update s.cells (index q sequence) ⟨cell.version+2,content⟩,sequence,sequence⟩,
      ⟨.success,sequence⟩)

/-- One attempt to copy a cell: sequence, size and all storage bytes, between
two loads of the version. -/
def attempt (cell : Cell N) : Option (FixedMessage N) :=
  let before := cell.version
  if before&&&1≠0 then none
  else
    let scratch := cell.content
    let after := cell.version
    if before=after then some scratch else none

/-- The loop over the attempts, with the number of those left. -/
def attempts (cell : Cell N) : ℕ → Option (FixedMessage N)
  | 0 => none
  | left+1 =>
    match attempt cell with
    | some snapshot => some snapshot
    | none => attempts cell left

/-- The cursor moves on to what is still retained. -/
def overwritten (q : Ring) (published want : ℕ) (destination : List Byte) : Answer :=
  let resume := resumeAfterOverwrite q published want
  ⟨resume,destination,⟨.overwritten,0,resume⟩⟩

/-- The part of `read` behind the loop, with the stable copy if there is one. -/
def conclude (q : Ring) (published want : ℕ) (destination : List Byte) :
    Option (FixedMessage N) → Answer
  | none => overwritten q published want destination
  | some snapshot =>
    if snapshot.sequence≠want then overwritten q published want destination
    else deliver want destination snapshot

/-- The complete `read`. -/
def read (q : Ring) (s : Queue N) (nextSequence : ℕ) (destination : List Byte) : Answer :=
  if s.published<nextSequence then ⟨nextSequence,destination,⟨.empty,0,nextSequence⟩⟩
  else
    let oldest := oldestRetained q.capacity s.published
    if nextSequence<oldest then ⟨oldest,destination,⟨.consumerLagged,0,oldest⟩⟩
    else
      let snapshot := attempts (s.cells (index q nextSequence)) readAttempts
      conclude q s.published nextSequence destination snapshot

/-- Members of the queue in a state of the access model. -/
def queue (s : State κ N) : Queue N := ⟨s.cells,s.produced,s.published⟩

/-- Replace the members of the queue. -/
def withQueue (s : State κ N) (members : Queue N) : State κ N :=
  {s with cells := members.cells, produced := members.produced, published := members.published}

/-- A stable cell is copied by the first attempt. -/
theorem attempts_of_even {cell : Cell N} (h : cell.version%2=0) (left : ℕ) :
    attempts cell (left+1)=some cell.content := by
  simp [attempts,attempt,Nat.and_one_is_mod,h]

/-- All attempts fail on a cell that is being written. -/
theorem attempts_of_odd {cell : Cell N} (h : cell.version%2≠0) (left : ℕ) :
    attempts cell left=none := by
  induction left with
  | zero => rfl
  | succ left ih =>
    have hfails : attempt cell=none := by
      rw [attempt]
      simp only [Nat.and_one_is_mod,ne_eq,h,not_false_eq_true,if_true]
    rw [attempts,hfails]
    exact ih

/-- No byte overwrites nothing. -/
theorem copyIn_nil (storage : Vector Byte N) : copyIn [] storage=storage := by
  apply Vector.ext
  intro j hj
  simp [copyIn]

/-- One more stored byte of the payload. -/
theorem copyIn_take_succ {payload : List Byte} {k : ℕ} (storage : Vector Byte N)
    (hk : k<payload.length) :
    (copyIn (payload.take k) storage).setIfInBounds k (payload.getD k 0)=
      copyIn (payload.take (k+1)) storage := by
  apply Vector.ext
  intro j hj
  simp only [copyIn,Vector.getElem_setIfInBounds,Vector.getElem_ofFn,List.getD_eq_getElem?_getD,
    List.getElem?_take]
  by_cases hjk : k=j
  · subst hjk
    rw [if_pos rfl,if_pos (Nat.lt_succ_self k),List.getElem?_eq_getElem hk,Option.getD_some,
      Option.getD_some]
  · rw [if_neg hjk]
    by_cases hlt : j<k
    · rw [if_pos hlt,if_pos (Nat.lt_succ_of_lt hlt)]
    · rw [if_neg hlt,if_neg (by omega)]

/-- The stored cell. -/
theorem store_cell {q : Ring} {s : State κ N} {payload : List Byte} {sequence : ℕ} (cell : Cell N)
    (pc : PublishPc) : (s.store q payload sequence cell pc).cells (index q sequence)=cell :=
  update_self ..

section Publish

variable [DecidableEq κ] {q : Ring} {s : State κ N} {payload : List Byte} {sequence : ℕ}
  {P : State κ N → Prop}

/-- The next access of the producer. -/
theorem publish_next {pc : PublishPc} (hp : s.producer=.running payload sequence pc)
    (h : LeadsTo (system q κ N) .publish P (stepPublish q s payload sequence pc)) :
    LeadsTo (system q κ N) .publish P s :=
  .next (by simp only [system,step,hp]) h

/-- The next store into the cell. -/
theorem store_next {cell cell' : Cell N} {pc pc' : PublishPc}
    (hstep : stepPublish q (s.store q payload sequence cell pc) payload sequence pc=
      (s.store q payload sequence cell pc).store q payload sequence cell' pc')
    (h : LeadsTo (system q κ N) .publish P (s.store q payload sequence cell' pc')) :
    LeadsTo (system q κ N) .publish P (s.store q payload sequence cell pc) := by
  refine publish_next rfl ?_
  rw [hstep]
  simpa only [State.store,update_idem] using h

/-- The byte loop stores the rest of the payload. -/
theorem publish_bytes {version k : ℕ} {storage : Vector Byte N} (hk : k≤payload.length)
    (h : LeadsTo (system q κ N) .publish P (s.store q payload sequence
      ⟨version+1,⟨copyIn payload storage,payload.length,sequence⟩⟩ (.storeEven version))) :
    LeadsTo (system q κ N) .publish P (s.store q payload sequence
      ⟨version+1,⟨copyIn (payload.take k) storage,payload.length,sequence⟩⟩
      (storeFrom payload version k)) := by
  induction hn : payload.length-k generalizing k with
  | zero =>
    have hend : k=payload.length := by omega
    rw [storeFrom,if_neg (by omega),hend,List.take_length]
    exact h
  | succ n ih =>
    have hlt : k<payload.length := by omega
    have hrest := ih hlt (by omega)
    rw [storeFrom,if_pos hlt]
    refine store_next ?_ hrest
    simp only [stepPublish,store_cell,copyIn_take_succ storage hlt]

/-- All accesses of an accepted publication, from the last one back to the
first. -/
theorem publish_accesses (hp : s.producer=.running payload sequence .loadVersion) :
    LeadsTo (system q κ N) .publish (fun s' => s'=State.returnPublish
      {s with
        cells := update s.cells (index q sequence)
          ⟨(s.cells (index q sequence)).version+2,
            ⟨copyIn payload (s.cells (index q sequence)).content.storage,payload.length,sequence⟩⟩
        produced := sequence
        published := sequence} payload ⟨.success,sequence⟩) s := by
  generalize hcell : s.cells (index q sequence)=cell
  obtain ⟨version,storage,size,old⟩ := cell
  have hpublished : LeadsTo (system q κ N) .publish (fun s' => s'=State.returnPublish
      {s with
        cells := update s.cells (index q sequence)
          ⟨version+2,⟨copyIn payload storage,payload.length,sequence⟩⟩
        produced := sequence
        published := sequence} payload ⟨.success,sequence⟩)
      (s.store q payload sequence ⟨version+2,⟨copyIn payload storage,payload.length,sequence⟩⟩
        .storePublished) := publish_next rfl (.now rfl)
  have heven : LeadsTo (system q κ N) .publish _ (s.store q payload sequence
      ⟨version+1,⟨copyIn payload storage,payload.length,sequence⟩⟩ (.storeEven version)) :=
    store_next (by simp only [stepPublish,store_cell]) hpublished
  have hbytes := publish_bytes (Nat.zero_le _) heven
  rw [List.take_zero,copyIn_nil] at hbytes
  have hsize : LeadsTo (system q κ N) .publish _ (s.store q payload sequence
      ⟨version+1,⟨storage,size,sequence⟩⟩ (.storeSize version)) :=
    store_next (by simp only [stepPublish,store_cell]) hbytes
  have hsequence : LeadsTo (system q κ N) .publish _ (s.store q payload sequence
      ⟨version+1,⟨storage,size,old⟩⟩ (.storeSequence version)) :=
    store_next (by simp only [stepPublish,store_cell]) hsize
  refine publish_next hp ?_
  simp only [stepPublish,hcell]
  refine publish_next rfl ?_
  simp only [stepPublish,hcell]
  exact hsequence

/-- A publication that runs alone. -/
theorem publish_alone (hidle : s.producer=.idle) (payload : List Byte) :
    ∃ n,runFrom (system q κ N) s (.callPublish payload::List.replicate n .publish)=
      (withQueue s (tryPublish q (queue s) payload).1).returnPublish payload
        (tryPublish q (queue s) payload).2 := by
  have hcall : (system q κ N).step s (.callPublish payload)=some (enterPublish s payload) := by
    simp only [system,step,hidle]
  simp only [runFrom,hcall,Option.getD_some]
  by_cases hlarge : N<payload.length
  · refine ⟨0,?_⟩
    simp only [enterPublish,tryPublish,if_pos hlarge]
    rfl
  · simp only [enterPublish,tryPublish,if_neg hlarge]
    exact publish_accesses rfl

end Publish

section Read

variable [DecidableEq κ] {q : Ring} {s : State κ N} {c : κ} {want k before : ℕ}
  {destination : List Byte} {P : State κ N → Prop}

/-- The consumer is inside its read. -/
def reading (s : State κ N) (c : κ) (want : ℕ) (destination : List Byte) (attempt : ℕ)
    (snapshot : FixedMessage N) (pc : ReadPc) : State κ N :=
  s.setConsumer c (.running want destination attempt snapshot pc)

/-- The next access of the consumer. -/
theorem read_next {k' : ℕ} {m m' : FixedMessage N} {pc pc' : ReadPc}
    (hstep : stepRead q (reading s c want destination k m pc) c want destination k m pc=
      reading (reading s c want destination k m pc) c want destination k' m' pc')
    (h : LeadsTo (system q κ N) (.read c) P (reading s c want destination k' m' pc')) :
    LeadsTo (system q κ N) (.read c) P (reading s c want destination k m pc) := by
  have hs : (system q κ N).step (reading s c want destination k m pc) (.read c)=
      some (reading s c want destination k' m' pc') := by
    have hc : (reading s c want destination k m pc).consumer c=
        .running want destination k m pc := update_self ..
    simp only [system,step,hc,hstep]
    simp only [reading,State.setConsumer,update_idem]
  exact .next hs h

/-- The last access of the consumer. -/
theorem read_last {m : FixedMessage N} {pc : ReadPc} {answer : Answer}
    (hstep : stepRead q (reading s c want destination k m pc) c want destination k m pc=
      (reading s c want destination k m pc).returnRead c want destination answer) :
    LeadsTo (system q κ N) (.read c) (fun s' => s'=s.returnRead c want destination answer)
      (reading s c want destination k m pc) := by
  have hs : (system q κ N).step (reading s c want destination k m pc) (.read c)=
      some (s.returnRead c want destination answer) := by
    have hc : (reading s c want destination k m pc).consumer c=
        .running want destination k m pc := update_self ..
    simp only [system,step,hc,hstep]
    simp only [reading,State.setConsumer,State.returnRead,update_idem]
  exact .next hs (.now rfl)

/-- An overwritten read reloads the boundary and returns. -/
theorem read_reload (attempt : ℕ) (m : FixedMessage N) :
    LeadsTo (system q κ N) (.read c)
      (fun s' => s'=s.returnRead c want destination (overwritten q s.published want destination))
      (reading s c want destination attempt m .reloadPublished) := read_last rfl

/-- The byte loop loads the rest of the cell. -/
theorem read_bytes {j : ℕ} {m : FixedMessage N} (hj : j≤N)
    (hloaded : Loaded (s.cells (index q want)).content m (loadFrom N before j))
    (h : LeadsTo (system q κ N) (.read c) P
      (reading s c want destination k (s.cells (index q want)).content (.loadAfter before))) :
    LeadsTo (system q κ N) (.read c) P
      (reading s c want destination k m (loadFrom N before j)) := by
  induction hn : N-j generalizing j m with
  | zero =>
    rw [loadFrom,if_neg (by omega)] at hloaded ⊢
    rw [hloaded]
    exact h
  | succ n ih =>
    have hlt : j<N := by omega
    have hbyte := hloaded
    rw [loadFrom,if_pos hlt] at hbyte ⊢
    exact read_next rfl (ih hlt (loaded_loadByte hbyte) (by omega))

/-- A stable cell is copied and checked. -/
theorem read_stable {m : FixedMessage N} (heven : (s.cells (index q want)).version%2=0) :
    LeadsTo (system q κ N) (.read c)
      (fun s' => s'=s.returnRead c want destination
        (conclude q s.published want destination (some (s.cells (index q want)).content)))
      (reading s c want destination k m .loadBefore) := by
  generalize hcell : s.cells (index q want)=cell at heven
  have hcells : ∀ m' pc,(reading s c want destination k m' pc).cells (index q want)=cell :=
    fun _ _ => hcell
  have hafter : LeadsTo (system q κ N) (.read c)
      (fun s' => s'=s.returnRead c want destination
        (conclude q s.published want destination (some cell.content)))
      (reading s c want destination k cell.content (.loadAfter cell.version)) := by
    by_cases hsequence : cell.content.sequence≠want
    · rw [conclude,if_pos hsequence]
      refine read_next ?_ (read_reload k cell.content)
      simp only [stepRead,hcells,if_true,if_pos hsequence]
      rfl
    · rw [conclude,if_neg hsequence]
      refine read_last ?_
      simp only [stepRead,hcells,if_true,if_neg hsequence]
  have hloaded : Loaded (s.cells (index q want)).content
      ⟨m.storage,cell.content.size,cell.content.sequence⟩ (loadFrom N cell.version 0) := by
    rw [hcell]
    exact loaded_loadFrom rfl rfl (Nat.zero_le _) (fun j hj => absurd hj (Nat.not_lt_zero j))
  have hbytes := read_bytes (Nat.zero_le _) hloaded (by rw [hcell]; exact hafter)
  have hsize : LeadsTo (system q κ N) (.read c) _ (reading s c want destination k
      ⟨m.storage,m.size,cell.content.sequence⟩ (.loadSize cell.version)) :=
    read_next (by simp only [stepRead,hcells]; rfl) hbytes
  have hsequence : LeadsTo (system q κ N) (.read c) _ (reading s c want destination k m
      (.loadSequence cell.version)) :=
    read_next (by simp only [stepRead,hcells]; rfl) hsize
  refine read_next ?_ hsequence
  simp only [stepRead,hcells,Nat.and_one_is_mod,heven,ne_eq,not_true_eq_false,if_false]
  rfl

/-- All remaining attempts fail on a cell that is being written. -/
theorem read_unstable {m : FixedMessage N} (hodd : (s.cells (index q want)).version%2≠0)
    (hk : k<readAttempts) :
    LeadsTo (system q κ N) (.read c)
      (fun s' => s'=s.returnRead c want destination (overwritten q s.published want destination))
      (reading s c want destination k m .loadBefore) := by
  have hretry : ∀ k,stepRead q (reading s c want destination k m .loadBefore) c want destination k m
      .loadBefore=(reading s c want destination k m .loadBefore).retry c want destination k m := by
    intro k
    have hcells : (reading s c want destination k m .loadBefore).cells=s.cells := rfl
    simp only [stepRead,hcells,Nat.and_one_is_mod,ne_eq,hodd,not_false_eq_true,if_true]
  induction hn : readAttempts-k generalizing k with
  | zero => omega
  | succ n ih =>
    by_cases hmore : k+1<readAttempts
    · refine read_next ?_ (ih hmore (by omega))
      rw [hretry,State.retry,if_pos hmore]
      rfl
    · refine read_next ?_ (read_reload k m)
      rw [hretry,State.retry,if_neg hmore]
      rfl

/-- A read that runs alone. -/
theorem read_alone {cursor : ℕ} (hidle : s.consumer c=.idle cursor) (destination : List Byte) :
    ∃ n,runFrom (system q κ N) s (.callRead c destination::List.replicate n (.read c))=
      s.returnRead c cursor destination (read q (queue s) cursor destination) := by
  have hcall : (system q κ N).step s (.callRead c destination)=
      some (reading s c cursor destination 0 (.initial N) .loadPublished) := by
    simp only [system,step,hidle,reading]
  simp only [runFrom,hcall,Option.getD_some]
  have hpublished : (reading s c cursor destination 0 (.initial N) .loadPublished).published=
      s.published := rfl
  change LeadsTo (system q κ N) (.read c)
    (fun s' => s'=s.returnRead c cursor destination (read q (queue s) cursor destination)) _
  simp only [read,queue]
  by_cases hempty : s.published<cursor
  · simp only [hempty,if_true]
    refine read_last ?_
    simp only [stepRead,hpublished,if_pos hempty]
  · simp only [hempty,if_false]
    by_cases hlag : cursor<oldestRetained q.capacity s.published
    · simp only [hlag,if_true]
      refine read_last ?_
      simp only [stepRead,hpublished,if_neg hempty,if_pos hlag]
    · simp only [hlag,if_false]
      have hbefore : LeadsTo (system q κ N) (.read c)
          (fun s' => s'=s.returnRead c cursor destination (conclude q s.published cursor destination
            (attempts (s.cells (index q cursor)) readAttempts)))
          (reading s c cursor destination 0 (.initial N) .loadBefore) := by
        by_cases heven : (s.cells (index q cursor)).version%2=0
        · rw [readAttempts,attempts_of_even heven]
          exact read_stable heven
        · rw [attempts_of_odd heven]
          exact read_unstable heven (by decide)
      refine read_next ?_ hbefore
      simp only [stepRead,hpublished,if_neg hempty,if_neg hlag]
      rfl

end Read

end Line64.VersionedSequential
