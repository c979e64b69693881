import Line64.MulticastRefinement
import Line64.VersionedRead

/-!
# A multicast consumer can always drain

While nothing is published, the calls of one consumer walk through the
retained window: at most one lag report, the retained messages in order, and
then nothing more. The walk is given in closed form over the history, and
both multicast queues follow it from every state in which no publication is
in progress, whatever the other consumers do.
-/

namespace Line64.MulticastDrain

open Function Result FixedMessageAccess Transition RetainedHistory Mealy

/-- The destination holds every retained message. -/
def FitsRetained (capacity : ℕ) (history : List (List Byte)) (destination : List Byte) : Prop :=
  ∀ sequence,oldestRetained capacity history.length ≤ sequence → sequence≤history.length →
    (payloadOf history sequence).length≤destination.length

/-- Number of lag reports in front of the first message. -/
def lagReports (capacity : ℕ) (history : List (List Byte)) (cursor : ℕ) : ℕ :=
  if cursor<oldestRetained capacity history.length then 1 else 0

/-- Sequence asked for by call number `k`, counted from zero. -/
def drainSequence (capacity : ℕ) (history : List (List Byte)) (cursor k : ℕ) : ℕ :=
  max cursor (oldestRetained capacity history.length)+(k-lagReports capacity history cursor)

/-- Answer to call number `k` of a consumer that started at `cursor`. -/
def drainAnswer (capacity : ℕ) (history : List (List Byte)) (cursor k : ℕ)
    (destination : List Byte) : Answer :=
  let oldest := oldestRetained capacity history.length
  let sequence := drainSequence capacity history cursor k
  let payload := payloadOf history sequence
  if k<lagReports capacity history cursor then
    ⟨oldest,destination,⟨.consumerLagged,0,oldest⟩⟩
  else if sequence≤history.length then
    ⟨sequence+1,payload++destination.drop payload.length,⟨.success,payload.length,sequence⟩⟩
  else ⟨history.length+1,destination,⟨.empty,0,history.length+1⟩⟩

/-- Cursor in front of call number `k`. -/
def drainCursor (capacity : ℕ) (history : List (List Byte)) (cursor k : ℕ) : ℕ :=
  if k<lagReports capacity history cursor then cursor
  else min (drainSequence capacity history cursor k) (history.length+1)

/-- Calls with the given destinations, each with its answer. -/
def drainCalls (capacity : ℕ) (history : List (List Byte)) (cursor : ℕ)
    (destinations : List (List Byte)) : List (List Byte × Answer) :=
  destinations.mapIdx fun k destination =>
    (destination,drainAnswer capacity history cursor k destination)

section Walk

variable {capacity cursor k : ℕ} {history : List (List Byte)} {destination : List Byte}

/-- The walk starts at the cursor. -/
theorem drainCursor_zero (hle : cursor≤history.length+1) :
    drainCursor capacity history cursor 0=cursor := by
  unfold drainCursor drainSequence lagReports
  split_ifs <;> omega

/-- Cursors of the walk are sequences. -/
theorem drainCursor_pos (hpos : 1≤cursor) : 1≤drainCursor capacity history cursor k := by
  unfold drainCursor drainSequence
  split_ifs <;> omega

/-- Only the first call reports a lag, and only for a cursor that has left the
window. -/
theorem lt_lagReports_iff : k<lagReports capacity history cursor ↔
    k=0 ∧ cursor<oldestRetained capacity history.length := by
  unfold lagReports
  split_ifs <;> omega

/-- The call that reports the lag. -/
theorem readHistory_lagged (hcapacity : 0<capacity) (hlag : k<lagReports capacity history cursor) :
    readHistory capacity history (drainCursor capacity history cursor k) destination=
        drainAnswer capacity history cursor k destination ∧
      (drainAnswer capacity history cursor k destination).cursor=
        drainCursor capacity history cursor (k+1) := by
  have holdest := oldestRetained_le hcapacity history.length
  have hmax := oldestRetained_eq_max capacity history.length
  obtain ⟨hzero,hbehind⟩ := lt_lagReports_iff.mp hlag
  have hcursor : drainCursor capacity history cursor k=cursor := if_pos hlag
  have hnext : drainCursor capacity history cursor (k+1)=
      oldestRetained capacity history.length := by
    simp only [drainCursor,drainSequence,lagReports,if_pos hbehind,hzero]
    rw [if_neg (by omega)]
    omega
  unfold readHistory
  dsimp only
  rw [← hmax,hcursor,hnext,if_neg (by omega),if_pos hbehind,drainAnswer,if_pos hlag]
  exact ⟨rfl,rfl⟩

/-- Each call reads the history at the cursor of the walk and moves it on. -/
theorem readHistory_drainCursor (cursor k : ℕ) (hcapacity : 0<capacity)
    (hfits : FitsRetained capacity history destination) :
    readHistory capacity history (drainCursor capacity history cursor k) destination=
        drainAnswer capacity history cursor k destination ∧
      (drainAnswer capacity history cursor k destination).cursor=
        drainCursor capacity history cursor (k+1) := by
  by_cases hlag : k<lagReports capacity history cursor
  · exact readHistory_lagged hcapacity hlag
  · have holdest := oldestRetained_le hcapacity history.length
    have hmax := oldestRetained_eq_max capacity history.length
    have hcursor : drainCursor capacity history cursor k=
        min (drainSequence capacity history cursor k) (history.length+1) := if_neg hlag
    have hnext : drainCursor capacity history cursor (k+1)=
        min (drainSequence capacity history cursor k+1) (history.length+1) := by
      rw [drainCursor,if_neg (by omega)]
      unfold drainSequence
      omega
    have hwindow : oldestRetained capacity history.length≤
        drainSequence capacity history cursor k := by
      unfold drainSequence
      omega
    unfold readHistory
    dsimp only
    rw [← hmax,hnext,hcursor,drainAnswer,if_neg hlag]
    by_cases hmore : drainSequence capacity history cursor k≤history.length
    · have hsize := hfits _ hwindow hmore
      rw [min_eq_left (by omega),if_neg (by omega),if_neg (by omega),if_neg (by omega),
        if_pos hmore]
      exact ⟨rfl,by dsimp only; omega⟩
    · rw [min_eq_right (by omega),if_pos (by omega),if_neg hmore]
      exact ⟨rfl,by dsimp only; omega⟩

/-- The walk ends: behind the lag report and at most `capacity` messages
every call finds nothing. -/
theorem drainAnswer_empty_iff (hcapacity : 0<capacity) :
    ∃ first,first≤capacity+1 ∧ ∀ k destination,
      (drainAnswer capacity history cursor k destination).result.status=.empty ↔ first≤k := by
  have holdest := oldestRetained_le hcapacity history.length
  have hmax := oldestRetained_eq_max capacity history.length
  refine ⟨lagReports capacity history cursor+
    (history.length+1-max cursor (oldestRetained capacity history.length)),?_,?_⟩
  · unfold lagReports
    split_ifs <;> omega
  · intro k destination
    unfold drainAnswer drainSequence
    dsimp only
    split_ifs <;> simp <;> omega

/-- A lag is reported at most once, in front of everything else, exactly if
the cursor has left the window. -/
theorem drainAnswer_lagged_iff :
    (drainAnswer capacity history cursor k destination).result.status=.consumerLagged ↔
      k=0 ∧ cursor<oldestRetained capacity history.length := by
  unfold drainAnswer lagReports
  dsimp only
  split_ifs <;> simp <;> omega

/-- Neither loss of a message nor a short destination is ever reported. -/
theorem drainAnswer_status :
    (drainAnswer capacity history cursor k destination).result.status≠.overwritten ∧
      (drainAnswer capacity history cursor k destination).result.status≠.messageTooLarge := by
  unfold drainAnswer
  dsimp only
  split_ifs <;> exact ⟨nofun,nofun⟩

/-- One more call. -/
theorem drainCalls_append (destinations : List (List Byte)) :
    drainCalls capacity history cursor (destinations++[destination])=
      drainCalls capacity history cursor destinations++
        [(destination,drainAnswer capacity history cursor destinations.length destination)] := by
  simp [drainCalls,List.mapIdx_append]

end Walk

/-- A read never moves a cursor past the next publication. -/
theorem readHistory_cursor_le {capacity cursor : ℕ} {history : List (List Byte)}
    (hcapacity : 0<capacity) (destination : List Byte) (hle : cursor≤history.length+1) :
    (readHistory capacity history cursor destination).cursor≤history.length+1 := by
  unfold readHistory
  dsimp only
  split_ifs <;> dsimp only <;> omega

section Mutex

open MulticastModel MulticastRefinement

variable {κ : Type} [DecidableEq κ] {N : ℕ}

/-- The action is a read of this consumer. -/
def readsBy (c : κ) : Action κ → Bool
  | .read d _ => d=c
  | _ => false

/-- Destinations of the reads of one consumer, in order. -/
def destinationsOf (c : κ) (actions : List (Action κ)) : List (List Byte) :=
  actions.filterMap fun
    | .read d destination => if d=c then some destination else none
    | _ => none

/-- Nothing is published, and the handle is not replaced. -/
def LeavesAlone (c : κ) : Action κ → Prop
  | .publish _ => False
  | .register d => d≠c
  | .read _ _ => True

/-- No cursor passes the next publication. -/
theorem cursor_le (q : Ring) (actions : List (Action κ)) :
    ∀ c cursor,((logMachine N q.capacity κ).final actions).cursors c=some cursor →
      cursor≤((logMachine N q.capacity κ).final actions).history.length+1 := by
  refine Machine.final_invariant
    (I:=fun t : Log κ => ∀ c cursor,t.cursors c=some cursor → cursor≤t.history.length+1)
    ?_ ?_ actions
  · intro c cursor hc
    cases hc
  intro t a h c cursor hc
  cases a with
  | publish payload =>
    simp only [logMachine,performLog] at hc ⊢
    split at hc
    · rename_i hlarge
      rw [if_pos hlarge]
      exact h c cursor hc
    · rename_i hfits
      have hle := h c cursor hc
      rw [if_neg hfits,List.length_append]
      omega
  | register d =>
    simp only [logMachine,performLog] at hc ⊢
    by_cases hd : c=d
    · rw [hd,update_self] at hc
      exact (Option.some.inj hc).ge
    · rw [update_of_ne hd] at hc
      exact h c cursor hc
  | read d destination =>
    cases hcursor : t.cursors d with
    | none =>
      simp only [logMachine,performLog,hcursor] at hc ⊢
      exact h c cursor hc
    | some start =>
      simp only [logMachine,performLog,hcursor] at hc ⊢
      by_cases hd : c=d
      · rw [hd,update_self] at hc
        rw [← Option.some.inj hc]
        exact readHistory_cursor_le q.pos destination (h d start hcursor)
      · rw [update_of_ne hd] at hc
        exact h c cursor hc

/-- The reads of a consumer that has come to call number `k` go on with the
walk. -/
theorem answersFrom_drains {q : Ring} {history : List (List Byte)} {c : κ} {cursor : ℕ}
    (hpos : 1≤cursor) {later : List (Action κ)}
    (hquiet : ∀ a ∈ later,LeavesAlone c a)
    (hfits : ∀ destination ∈ destinationsOf c later,FitsRetained q.capacity history destination)
    {s : State κ N} (hpub : s.queue.publishedSequence=history.length)
    (hret : RetainedSlots q.capacity s.queue.slots history) {k : ℕ}
    (hc : s.consumers c=some ⟨true,drainCursor q.capacity history cursor k⟩) :
    (machine q κ N).answersFrom (readsBy c) s later=
      (destinationsOf c later).mapIdx fun i destination =>
        .answered (drainAnswer q.capacity history cursor (k+i) destination) := by
  induction later generalizing s k with
  | nil => rfl
  | cons a rest ih =>
    have hrest : ∀ b ∈ rest,LeavesAlone c b := fun b hb => hquiet b (List.mem_cons_of_mem _ hb)
    have ha := hquiet a List.mem_cons_self
    cases a with
    | publish payload => exact absurd ha id
    | register d =>
      have hother : (perform q s (.register d)).1.consumers c=s.consumers c :=
        update_of_ne (Ne.symm ha) _ _
      exact ih (s:=(perform q s (.register d)).1) hrest hfits hpub hret (hother.trans hc)
    | read d destination =>
      by_cases hd : d=c
      · subst hd
        have hlist : destinationsOf d (.read d destination::rest)=
            destination::destinationsOf d rest := by simp [destinationsOf]
        rw [hlist] at hfits ⊢
        have hwalk := readHistory_drainCursor cursor k q.pos
          (hfits destination List.mem_cons_self)
        have hread := (tryRead_eq_readHistory hpub hret
          (drainCursor_pos (k:=k) hpos) destination).trans hwalk.1
        have hperform : (machine q κ N).perform s (.read d destination)=
            (⟨s.queue,update s.consumers d
              (some ⟨true,drainCursor q.capacity history cursor (k+1)⟩)⟩,
              .answered (drainAnswer q.capacity history cursor k destination)) := by
          simp only [machine,perform,hc,Consumer.tryRead,if_true,hread,hwalk.2]
        have hlater := ih hrest (fun e he => hfits e (List.mem_cons_of_mem _ he)) (k:=k+1)
          (s:=⟨s.queue,update s.consumers d
            (some ⟨true,drainCursor q.capacity history cursor (k+1)⟩)⟩) hpub hret (update_self ..)
        rw [Machine.answersFrom,hperform,List.mapIdx_cons]
        simp only [readsBy,decide_true,if_true,hlater,Nat.add_zero,Nat.add_assoc,Nat.add_comm 1]
      · have hkeep : readsBy c (.read d destination)=false := decide_eq_false hd
        have hlist : destinationsOf c (.read d destination::rest)=destinationsOf c rest := by
          simp [destinationsOf,hd]
        rw [hlist] at hfits ⊢
        have hframe := agreeOn_dropped (s:=s) (t:=s) q ⟨rfl,rfl⟩
          (show concerns c (.read d destination)=false from decide_eq_false hd)
        rw [Machine.answersFrom,hkeep]
        refine ih hrest hfits ?_ ?_ (hframe.2.trans hc)
        · exact (congrArg Queue.publishedSequence hframe.1).trans hpub
        · exact (congrArg Queue.slots hframe.1) ▸ hret

end Mutex

section Versioned

open VersionedModel VersionedInvariant VersionedRead

variable {κ : Type} {N : ℕ}

/-- Between publications everything begun is published. -/
theorem begun_of_idle {s : State κ N} (h : s.producer=.idle) : s.begun=s.published := by
  rw [State.begun,h]

/-- The action does not belong to the producer. -/
def Quiet : Action κ → Prop
  | .callPublish _ => False
  | .publish => False
  | _ => True

variable [DecidableEq κ]

/-- Completed reads of one consumer with their destinations, oldest first. -/
def readsOf (c : κ) (log : List (Event κ)) : List (List Byte × Answer) :=
  log.filterMap fun
    | .read d _ original answer => if d=c then some (original,answer) else none
    | _ => none

/-- Bound on the accesses a read still has to make when no cell changes. -/
def remaining (N : ℕ) : ReadPc → ℕ
  | .loadPublished => N+6
  | .loadBefore => N+5
  | .loadSequence _ => N+4
  | .loadSize _ => N+3
  | .loadByte _ k => N-k+2
  | .loadAfter _ => 1
  | .reloadPublished => 0

/-- The rest of the byte loop. -/
theorem remaining_loadFrom (before k : ℕ) :
    remaining N (loadFrom N before k)=if k<N then N-k+2 else 1 := by
  unfold loadFrom
  split <;> rfl

section Step

variable {q : Ring} {s s' : State κ N} {c : κ} {want attempt : ℕ} {destination : List Byte}
  {snapshot : FixedMessage N}

/-- The load of the boundary decides whether the window is looked at. -/
theorem quiet_loadPublished (h : Inv q s) (hpos : 1≤want) :
    stepRead q s c want destination attempt snapshot .loadPublished=s.returnRead c want destination
        (readHistory q.capacity (accepted s.log) want destination) ∨
      (stepRead q s c want destination attempt snapshot .loadPublished=
        s.setConsumer c (.running want destination 0 (.initial N) .loadBefore) ∧
        s.published<want+q.capacity) := by
  have hpub := h.published_eq
  have hmax := oldestRetained_eq_max q.capacity s.published
  have hlag : want<oldestRetained q.capacity s.published ↔ want+q.capacity ≤ s.published :=
    lt_oldestRetained_iff hpos
  simp only [stepRead,readHistory,← hpub,← hmax]
  by_cases hempty : s.published<want
  · simp only [hempty,if_true]
    exact .inl trivial
  · by_cases hbehind : want<oldestRetained q.capacity s.published
    · simp only [hempty,hbehind,if_true,if_false]
      exact .inl trivial
    · simp only [hempty,hbehind,if_false]
      exact .inr ⟨trivial,by omega⟩

/-- The load behind the copy finds the version unchanged and delivers. -/
theorem quiet_loadAfter (h : Inv q s) (hidle : s.producer=.idle) {before : ℕ} (hpos : 1≤want)
    (hwindow : s.published<want+q.capacity)
    (hcopy : Copying q (s.cells (index q want)) s.published s.begun want snapshot
      (.loadAfter before) before) :
    stepRead q s c want destination attempt snapshot (.loadAfter before)=
      s.returnRead c want destination
        (readHistory q.capacity (accepted s.log) want destination) := by
  have hle := hcopy.published
  have hpub := h.published_eq
  have hbegun := begun_of_idle hidle
  have hge := hcopy.version_ge
  have hsame : before=(s.cells (index q want)).version := by
    by_contra hne
    have hovertaken := hcopy.overtaken (by omega)
    omega
  have hholds := h.holds_of_current hpos hle (by omega)
  rw [← (hcopy.loaded hsame.symm : snapshot=(s.cells (index q want)).content)] at hholds
  have hpublished : ¬(accepted s.log).length<want := by omega
  have hretained : ¬want < max 1 ((accepted s.log).length+1-q.capacity) := by omega
  simp only [stepRead,if_pos hsame,if_neg (not_not.mpr hholds.sequence_eq),
    deliver_of_holds hholds,readHistory,if_neg hpublished,if_neg hretained]

/-- An access of a read while nothing is published: the call returns what
the history says, or comes closer to its end inside the window. -/
theorem quiet_read (h : Inv q s) (hidle : s.producer=.idle) {pc : ReadPc}
    (hs : s.consumer c=.running want destination attempt snapshot pc)
    (hwindow : pc≠.loadPublished → s.published<want+q.capacity) :
    stepRead q s c want destination attempt snapshot pc=s.returnRead c want destination
        (readHistory q.capacity (accepted s.log) want destination) ∨
      ∃ attempt' snapshot' pc',stepRead q s c want destination attempt snapshot pc=
          s.setConsumer c (.running want destination attempt' snapshot' pc') ∧
        s.published<want+q.capacity ∧ remaining N pc'<remaining N pc := by
  have hok := h.consumer c
  have hbegun := begun_of_idle hidle
  rw [hs] at hok
  obtain ⟨hpos,-,hread⟩ := hok
  cases pc with
  | loadPublished =>
    rcases quiet_loadPublished h hpos with hreturns | ⟨hmoves,hinside⟩
    · exact .inl hreturns
    · exact .inr ⟨0,.initial N,.loadBefore,hmoves,hinside,Nat.lt_succ_self _⟩
  | loadBefore =>
    have hinside := hwindow (by simp)
    have heven : (s.cells (index q want)).version%2=0 := by
      by_contra hodd
      have hovertaken := h.overtaken_of_odd hpos hread hodd
      omega
    refine .inr ⟨attempt,snapshot,.loadSequence (s.cells (index q want)).version,?_,hinside,
      Nat.lt_succ_self _⟩
    simp only [stepRead,Nat.and_one_is_mod,heven,ne_eq,not_true_eq_false,if_false]
  | loadSequence before => exact .inr ⟨_,_,_,rfl,hwindow (by simp),Nat.lt_succ_self _⟩
  | loadSize before =>
    refine .inr ⟨_,_,_,rfl,hwindow (by simp),?_⟩
    rw [remaining_loadFrom,remaining]
    split <;> omega
  | loadByte before k =>
    refine .inr ⟨_,_,_,rfl,hwindow (by simp),?_⟩
    rw [remaining_loadFrom,remaining]
    split <;> omega
  | loadAfter before => exact .inl (quiet_loadAfter h hidle hpos (hwindow (by simp)) hread)
  | reloadPublished =>
    have hinside := hwindow (by simp)
    have hovertaken : want+q.capacity ≤ s.begun := hread.2
    omega

end Step

/-- A consumer in the middle of its walk: nothing is being published, the
calls with the given destinations have returned as they should, and a call in
progress that has passed the load of the boundary is inside the window. -/
structure Draining (q : Ring) (c : κ) (history : List (List Byte)) (cursor : ℕ)
    (earlier : List (List Byte × Answer)) (destinations : List (List Byte)) (s : State κ N) :
    Prop where
  /-- Invariant of the queue. -/
  inv : Inv q s
  /-- No publication is in progress. -/
  idle : s.producer=.idle
  /-- Nothing has been published since. -/
  history_eq : accepted s.log=history
  /-- Returned reads. -/
  reads : readsOf c s.log=earlier++drainCalls q.capacity history cursor destinations
  /-- Cursor of the consumer. -/
  cursor_eq : (s.consumer c).cursor=
    some (drainCursor q.capacity history cursor destinations.length)
  /-- The call in progress. -/
  window : ∀ want destination attempt snapshot pc,
    s.consumer c=.running want destination attempt snapshot pc →
      FitsRetained q.capacity history destination ∧
        (pc≠.loadPublished → s.published<want+q.capacity)

section Run

variable {q : Ring} {s s' : State κ N} {c : κ} {history : List (List Byte)} {cursor : ℕ}
  {earlier : List (List Byte × Answer)} {destinations : List (List Byte)}

/-- A read that returns. -/
theorem readsOf_returnRead (start : ℕ) (original : List Byte) (answer : Answer) :
    readsOf c (s.returnRead c start original answer).log=
      readsOf c s.log++[(original,answer)] := by
  simp [readsOf,State.returnRead]

/-- The walk starts at a consumer that is not in a call. -/
theorem draining_idle (hinv : Inv q s) (hidle : s.producer=.idle) (hc : s.consumer c=.idle cursor)
    (hle : cursor≤(accepted s.log).length+1) :
    Draining q c (accepted s.log) cursor (readsOf c s.log) [] s where
  inv := hinv
  idle := hidle
  history_eq := rfl
  reads := (List.append_nil _).symm
  cursor_eq := by
    rw [hc,List.length_nil,drainCursor_zero hle]
    rfl
  window := by
    intro want destination attempt snapshot pc hrunning
    rw [hc] at hrunning
    cases hrunning

/-- Steps of other consumers. -/
theorem Draining.frame (h : Draining q c history cursor earlier destinations s) (hinv : Inv q s')
    (hproducer : s'.producer=s.producer) (hlog : accepted s'.log=accepted s.log)
    (hreads : readsOf c s'.log=readsOf c s.log) (hpublished : s'.published=s.published)
    (hc : s'.consumer c=s.consumer c) :
    Draining q c history cursor earlier destinations s' where
  inv := hinv
  idle := hproducer.trans h.idle
  history_eq := hlog.trans h.history_eq
  reads := hreads.trans h.reads
  cursor_eq := by rw [hc]; exact h.cursor_eq
  window := by
    intro want destination attempt snapshot pc hrunning
    rw [hpublished]
    exact h.window want destination attempt snapshot pc (hc.symm.trans hrunning)

/-- An access of the consumer itself: its call goes on, closer to its end,
or returns the next answer of the walk. -/
theorem Draining.read_self (h : Draining q c history cursor earlier destinations s)
    {want attempt : ℕ} {destination : List Byte}
    {snapshot : FixedMessage N} {pc : ReadPc}
    (hrunning : s.consumer c=.running want destination attempt snapshot pc) :
    ∃ s',step q s (.read c)=some s' ∧
      ((Draining q c history cursor earlier (destinations++[destination]) s' ∧
          ∃ next,s'.consumer c=.idle next) ∨
        (Draining q c history cursor earlier destinations s' ∧
          ∃ attempt' snapshot' pc',
            s'.consumer c=.running want destination attempt' snapshot' pc' ∧
            remaining N pc'<remaining N pc)) := by
  obtain ⟨hfits,hwindow⟩ := h.window _ _ _ _ _ hrunning
  have hcursor := h.cursor_eq
  rw [hrunning] at hcursor
  have hwant : want=drainCursor q.capacity history cursor destinations.length :=
    Option.some.inj hcursor
  have hs : step q s (.read c)=some (stepRead q s c want destination attempt snapshot pc) := by
    simp only [step,hrunning]
  have hinv := inv_step h.inv hs
  refine ⟨_,hs,?_⟩
  rcases quiet_read h.inv h.idle hrunning hwindow with
    hreturns | ⟨attempt',snapshot',pc',hmoves,hinside,hless⟩
  · have hwalk := readHistory_drainCursor cursor destinations.length q.pos hfits
    rw [h.history_eq,hwant,hwalk.1] at hreturns
    rw [hwant,hreturns] at hinv ⊢
    refine .inl ⟨⟨hinv,h.idle,?_,?_,?_,?_⟩,_,update_self ..⟩
    · exact (accepted_append_none s.log rfl).trans h.history_eq
    · rw [readsOf_returnRead,drainCalls_append,← List.append_assoc,← h.reads]
    · simp only [State.returnRead,update_self,Consumer.cursor,hwalk.2,List.length_append,
        List.length_singleton]
    · intro want' destination' attempt' snapshot' pc' hrunning'
      simp only [State.returnRead,update_self] at hrunning'
      cases hrunning'
  · rw [hmoves] at hinv ⊢
    refine .inr ⟨⟨hinv,h.idle,h.history_eq,h.reads,?_,?_⟩,attempt',snapshot',pc',update_self ..,
      hless⟩
    · simp only [State.setConsumer,update_self,Consumer.cursor,hwant]
    · intro want' destination' attempt'' snapshot'' pc'' hrunning'
      simp only [State.setConsumer,update_self] at hrunning'
      cases hrunning'
      exact ⟨hfits,fun _ => hinside⟩

/-- An access of another consumer. -/
theorem Draining.read_other (h : Draining q c history cursor earlier destinations s) {d : κ}
    {want attempt : ℕ} {destination : List Byte} {snapshot : FixedMessage N} {pc : ReadPc}
    (hinv : Inv q (stepRead q s d want destination attempt snapshot pc)) (hd : d≠c)
    (hrunning : s.consumer d=.running want destination attempt snapshot pc) :
    Draining q c history cursor earlier destinations
      (stepRead q s d want destination attempt snapshot pc) := by
  have hread := readStep_of_inv h.inv hrunning
  generalize stepRead q s d want destination attempt snapshot pc=s' at hread hinv
  cases hread with
  | moves attempt' snapshot' pc' hok =>
    exact h.frame hinv rfl rfl rfl rfl (update_of_ne (Ne.symm hd) _ _)
  | returns answer hout =>
    refine h.frame hinv rfl (accepted_append_none s.log rfl) ?_ rfl
      (update_of_ne (Ne.symm hd) _ _)
    simp [State.returnRead,readsOf,hd]

/-- Any step that does not belong to the producer. -/
theorem Draining.step (h : Draining q c history cursor earlier destinations s)
    {a : Action κ} (hquiet : Quiet a)
    (hfits : ∀ destination,a=.callRead c destination → FitsRetained q.capacity history destination)
    (hs : VersionedModel.step q s a=some s') :
    Draining q c history cursor earlier destinations s' ∨
      ∃ destination,Draining q c history cursor earlier (destinations++[destination]) s' := by
  have hinv := inv_step h.inv hs
  cases a with
  | callPublish payload => exact absurd hquiet id
  | publish => exact absurd hquiet id
  | register d =>
    simp only [VersionedModel.step] at hs
    split at hs <;> cases hs
    rename_i hnew
    have hne : c≠d := by
      intro he
      have hcursor := h.cursor_eq
      rw [he,hnew] at hcursor
      cases hcursor
    refine .inl (h.frame hinv rfl ?_ ?_ rfl (update_of_ne hne _ _))
    · exact accepted_append_none s.log rfl
    · simp [makeConsumer,readsOf]
  | callRead d destination =>
    simp only [VersionedModel.step] at hs
    split at hs <;> cases hs
    rename_i next hidle
    by_cases hd : d=c
    · subst hd
      have hcursor := h.cursor_eq
      rw [hidle] at hcursor
      refine .inl ⟨hinv,h.idle,h.history_eq,h.reads,?_,?_⟩
      · simp only [State.setConsumer,update_self]
        exact hcursor
      · intro want' destination' attempt' snapshot' pc' hrunning'
        simp only [State.setConsumer,update_self] at hrunning'
        cases hrunning'
        exact ⟨hfits destination rfl,fun hne => absurd rfl hne⟩
    · exact .inl (h.frame hinv rfl rfl rfl rfl (update_of_ne (Ne.symm hd) _ _))
  | read d =>
    obtain ⟨want,destination,attempt,snapshot,pc,hrunning,rfl⟩ := step_read hs
    by_cases hd : d=c
    · subst hd
      obtain ⟨s',hs',hnext⟩ := h.read_self hrunning
      rw [hs] at hs'
      cases hs'
      rcases hnext with ⟨hreturned,-⟩ | ⟨hmoved,-⟩
      · exact .inr ⟨destination,hreturned⟩
      · exact .inl hmoved
    · exact .inl (h.read_other hinv hd hrunning)

/-- Any run without the producer. -/
theorem Draining.runFrom (h : Draining q c history cursor earlier destinations s)
    {later : List (Action κ)} (hquiet : ∀ a ∈ later,Quiet a)
    (hfits : ∀ destination,.callRead c destination ∈ later →
      FitsRetained q.capacity history destination) :
    ∃ returned,Draining q c history cursor earlier returned
      (Transition.runFrom (system q κ N) s later) := by
  induction later generalizing s destinations with
  | nil => exact ⟨destinations,h⟩
  | cons a rest ih =>
    have hrest : ∀ b ∈ rest,Quiet b := fun b hb => hquiet b (List.mem_cons_of_mem _ hb)
    have hfits' : ∀ destination,.callRead c destination ∈ rest →
        FitsRetained q.capacity history destination :=
      fun destination hd => hfits destination (List.mem_cons_of_mem _ hd)
    rw [Transition.runFrom]
    cases hs : (system q κ N).step s a with
    | none => exact ih h hrest hfits'
    | some s' =>
      have ha : ∀ destination,a=.callRead c destination →
          FitsRetained q.capacity history destination := by
        rintro destination rfl
        exact hfits destination List.mem_cons_self
      rcases h.step (hquiet a List.mem_cons_self) ha hs with hsame | ⟨destination,hmore⟩
      · exact ih hsame hrest hfits'
      · exact ih hmore hrest hfits'

/-- A call in progress returns the next answer of the walk after a bounded
number of its own accesses. -/
theorem Draining.returns (h : Draining q c history cursor earlier destinations s)
    {want attempt : ℕ} {destination : List Byte}
    {snapshot : FixedMessage N} {pc : ReadPc}
    (hrunning : s.consumer c=.running want destination attempt snapshot pc) :
    LeadsTo (system q κ N) (.read c) (fun s' =>
      Draining q c history cursor earlier (destinations++[destination]) s' ∧
        ∃ next,s'.consumer c=.idle next) s := by
  induction hn : remaining N pc using Nat.strongRecOn generalizing s attempt snapshot pc with
  | ind n ih =>
    obtain ⟨s',hs,hnext⟩ := h.read_self hrunning
    rcases hnext with hreturned | ⟨hmoved,attempt',snapshot',pc',hrunning',hless⟩
    · exact .next hs (.now hreturned)
    · exact .next hs (ih _ (hn ▸ hless) hmoved hrunning' rfl)

end Run

end Versioned

/-- While nothing is published, every consumer of both queues drains. Its
calls return the answers of the walk from its cursor, whatever the other
consumers do; a call in progress returns after its own accesses. The walk
reports a lag exactly once if the cursor has left the window, then delivers
the retained messages in order, and finds nothing from call number
`capacity+2` on at the latest. -/
theorem multicast_consumer_drains {κ : Type} [DecidableEq κ] {N : ℕ} (c : κ) :
    (∀ (q : MulticastModel.Ring) (earlier later : List (MulticastModel.Action κ))
        (consumer : MulticastModel.Consumer),
      ((MulticastModel.machine q κ N).final earlier).consumers c=some consumer →
      (∀ a ∈ later,LeavesAlone c a) →
      (∀ destination ∈ destinationsOf c later,
        FitsRetained q.capacity (MulticastRefinement.accepted N earlier) destination) →
      (MulticastModel.machine q κ N).answersFrom (readsBy c)
          ((MulticastModel.machine q κ N).final earlier) later=
        (destinationsOf c later).mapIdx fun k destination =>
          .answered (drainAnswer q.capacity (MulticastRefinement.accepted N earlier)
            consumer.nextSequence k destination)) ∧
    (∀ (q : VersionedModel.Ring) (s : VersionedModel.State κ N) (cursor : ℕ)
        (later : List (VersionedModel.Action κ)),
      Reachable (VersionedModel.system q κ N) s → s.producer=.idle →
      s.consumer c=.idle cursor → (∀ a ∈ later,Quiet a) →
      (∀ destination,.callRead c destination ∈ later →
        FitsRetained q.capacity (VersionedInvariant.accepted s.log) destination) →
      ∃ destinations,
        readsOf c (runFrom (VersionedModel.system q κ N) s later).log=readsOf c s.log++
          drainCalls q.capacity (VersionedInvariant.accepted s.log) cursor destinations ∧
        ∀ want destination attempt snapshot pc,
          (runFrom (VersionedModel.system q κ N) s later).consumer c=
            .running want destination attempt snapshot pc →
          LeadsTo (VersionedModel.system q κ N) (.read c)
            (fun s' => readsOf c s'.log=readsOf c s.log++
              drainCalls q.capacity (VersionedInvariant.accepted s.log) cursor
                (destinations++[destination]) ∧ ∃ next,s'.consumer c=.idle next)
            (runFrom (VersionedModel.system q κ N) s later)) ∧
    ∀ capacity history cursor,0<capacity →
      (∃ first,first≤capacity+1 ∧ ∀ k destination,
        (drainAnswer capacity history cursor k destination).result.status=.empty ↔ first≤k) ∧
      ∀ k destination,
        ((drainAnswer capacity history cursor k destination).result.status=.consumerLagged ↔
          k=0 ∧ cursor<oldestRetained capacity history.length) ∧
        (drainAnswer capacity history cursor k destination).result.status≠.overwritten ∧
        (drainAnswer capacity history cursor k destination).result.status≠.messageTooLarge := by
  refine ⟨?_,?_,?_⟩
  · intro q earlier later consumer hc hquiet hfits
    have hrep := (MulticastRefinement.represents_final (N:=N) q (fun _ => true) earlier).1
    have hhist := MulticastRefinement.final_history (κ:=κ) N q.capacity earlier
    rw [hrep.consumers] at hc
    obtain ⟨cursor,hcursor,rfl⟩ := Option.map_eq_some_iff.mp hc
    have hpos := hrep.cursors_pos c cursor hcursor
    have hle := cursor_le (N:=N) q earlier c cursor hcursor
    rw [hhist] at hle
    have hanswers := answersFrom_drains (k:=0) hpos hquiet hfits
      (hrep.published.trans (congrArg List.length hhist)) (hhist ▸ hrep.retained)
      (by rw [drainCursor_zero hle,hrep.consumers,hcursor]; rfl)
    simpa only [Nat.zero_add] using hanswers
  · intro q s cursor later hr hidle hc hquiet hfits
    have hinv := VersionedRead.reachable_inv hr
    have hbounds := hinv.consumer c
    rw [hc] at hbounds
    have hle : cursor≤(VersionedInvariant.accepted s.log).length+1 := by
      rw [← hinv.published_eq]
      exact hbounds.2
    obtain ⟨returned,hreturned⟩ := (draining_idle hinv hidle hc hle).runFrom hquiet hfits
    refine ⟨returned,hreturned.reads,?_⟩
    intro want destination attempt snapshot pc hrunning
    refine (hreturned.returns hrunning).mono ?_
    rintro s' ⟨hnext,hdone⟩
    exact ⟨hnext.reads,hdone⟩
  · intro capacity history cursor hcapacity
    exact ⟨drainAnswer_empty_iff hcapacity,
      fun k destination => ⟨drainAnswer_lagged_iff,drainAnswer_status⟩⟩

/-- A consumer is registered, and two bytes are published into one cell. -/
def overtaken : List (VersionedModel.Action Unit) :=
  .register ()::.callPublish [1]::(List.replicate 7 .publish++
    .callPublish [2]::List.replicate 7 .publish)

/-- Three calls with the accesses of a lag report, a message and an empty
queue. -/
def threeReads : List (VersionedModel.Action Unit) :=
  .callRead () [0]::.read ()::.callRead () [0]::(List.replicate 6 (.read ())++
    [.callRead () [0],.read ()])

/-- In a queue of one cell, the first call of an overtaken consumer reports
the lag, the second reads the second byte and the third finds nothing. -/
theorem multicast_consumer_drains_overtaken :
    (MulticastModel.machine (.ofSucc _ 0) Unit 1).answersFrom (readsBy ())
        ((MulticastModel.machine (.ofSucc _ 0) Unit 1).final
          [.register (),.publish [1],.publish [2]])
        [.read () [0],.read () [0],.read () [0]]=
      [.answered ⟨2,[0],⟨.consumerLagged,0,2⟩⟩,.answered ⟨3,[2],⟨.success,1,2⟩⟩,
        .answered ⟨3,[0],⟨.empty,0,3⟩⟩] ∧
    readsOf () (runFrom (VersionedModel.system (.ofSucc _ 0) Unit 1)
        (run (VersionedModel.system (.ofSucc _ 0) Unit 1) overtaken) threeReads).log=
      [([0],⟨2,[0],⟨.consumerLagged,0,2⟩⟩),([0],⟨3,[2],⟨.success,1,2⟩⟩),
        ([0],⟨3,[0],⟨.empty,0,3⟩⟩)] ∧
    ∃ destinations,
      readsOf () (runFrom (VersionedModel.system (.ofSucc _ 0) Unit 1)
          (run (VersionedModel.system (.ofSucc _ 0) Unit 1) overtaken) threeReads).log=
        drainCalls 1 [[1],[2]] 1 destinations := by
  have hfits : FitsRetained 1 [[1],[2]] [0] := by
    intro sequence hge hle
    obtain rfl : sequence=2 := Nat.le_antisymm hle hge
    decide
  obtain ⟨hmutex,hversioned,-⟩ := multicast_consumer_drains (N:=1) ()
  refine ⟨?_,by decide,?_⟩
  · refine (hmutex (.ofSucc _ 0) [.register (),.publish [1],.publish [2]]
      [.read () [0],.read () [0],.read () [0]] ⟨true,1⟩ rfl ?_ ?_).trans rfl
    · simp [LeavesAlone]
    · intro destination hd
      simp only [destinationsOf,List.filterMap,if_true,List.mem_cons,List.not_mem_nil,or_false,
        or_self] at hd
      rw [hd]
      exact hfits
  · have hquiet : ∀ a ∈ threeReads,Quiet a := by simp [threeReads,Quiet]
    have hlong : ∀ destination,.callRead () destination ∈ threeReads →
        FitsRetained 1 [[1],[2]] destination := by
      intro destination hd
      simp only [threeReads,List.replicate,List.cons_append,List.nil_append,List.mem_cons,
        VersionedModel.Action.callRead.injEq,true_and,reduceCtorEq,false_or,List.not_mem_nil,
        or_false,or_self] at hd
      rw [hd]
      exact hfits
    obtain ⟨destinations,hreads,-⟩ := hversioned (.ofSucc _ 0)
      (run (VersionedModel.system (.ofSucc _ 0) Unit 1) overtaken) 1 threeReads
      (run_reachable _ _) (by decide) rfl hquiet hlong
    exact ⟨destinations,hreads⟩

end Line64.MulticastDrain
