import Line64.MulticastRefinement
import Line64.VersionedRead

/-!
# The versioned queue linearizes to the mutex-protected queue

The log of the versioned queue lists every call at its last shared access: a
publication at its store of the boundary, a registration at its load, a read
at the load that decides its exit. In this order the calls are calls of
`SPMCMulticastQueue`, with an overwrite identified with a lag. The only reads
without a counterpart report an overwrite and keep their cursor, while the
overwriting publication has begun and is not yet published.
-/

namespace Line64.VersionedLinearization

open Function Result Transition RetainedHistory VersionedModel VersionedInvariant VersionedRead
open MulticastRefinement

variable {κ : Type} {N : ℕ}

/-- The mutex-protected queue of the same capacity. -/
def sibling (q : Ring) : MulticastModel.Ring := q.withOwner "SPMCMulticastQueue"

/-- Both loss reports count as one. -/
def identify (result : ReadResult) : ReadResult :=
  if result.status=.overwritten then ⟨.consumerLagged,result.bytesRead,result.sequence⟩ else result

/-- A read reports an overwrite and keeps its cursor. -/
def Stale (start : ℕ) (answer : Answer) : Prop :=
  answer.result.status=.overwritten ∧ answer.cursor=start

/-- Cursors of all consumers. -/
def cursors (s : State κ N) : κ → Option ℕ := fun c => (s.consumer c).cursor

/-- Every exit is the read of the history at that instant, or stale. -/
theorem readHistory_of_outcome {capacity begun want : ℕ} {history : List (List Byte)}
    {original : List Byte} {answer : Answer} (hpos : 1≤want) (hbegun : history.length≤begun)
    (h : Outcome N capacity history begun want original answer) :
    readHistory capacity history want original=
      ⟨answer.cursor,answer.destination,identify answer.result⟩ ∨
    Stale want answer := by
  have hlag : want<oldestRetained capacity history.length ↔ want+capacity≤history.length :=
    lt_oldestRetained_iff hpos
  have hmax := oldestRetained_eq_max capacity history.length
  unfold readHistory
  simp only [← hmax]
  cases h with
  | empty hempty =>
    rw [if_pos hempty]
    exact .inl rfl
  | lagged hlate =>
    rw [if_neg (by omega),if_pos (hlag.mpr hlate)]
    exact .inl rfl
  | tooLarge hle hcur hshort =>
    have hretained : ¬want<oldestRetained capacity history.length := by
      rw [hlag]
      omega
    rw [if_neg (by omega),if_neg hretained,if_pos hshort]
    exact .inl rfl
  | success hle hcur hsize hfits =>
    have hretained : ¬want<oldestRetained capacity history.length := by
      rw [hlag]
      omega
    rw [if_neg (by omega),if_neg hretained,if_neg (by omega)]
    exact .inl rfl
  | skipped hlate =>
    rw [if_neg (by omega),if_pos (hlag.mpr hlate)]
    exact .inl rfl
  | stale hpublished hlast => exact .inr ⟨rfl,rfl⟩

/-- A stale read is overtaken by a publication that is not yet published. -/
theorem begun_of_stale {capacity begun want : ℕ} {history : List (List Byte)}
    {original : List Byte} {answer : Answer} (hpos : 1≤want)
    (h : Outcome N capacity history begun want original answer) (hstale : Stale want answer) :
    history.length+1=want+capacity ∧ begun=want+capacity := by
  obtain ⟨hstatus,hcursor⟩ := hstale
  cases h with
  | skipped hlate =>
    have hlag := (lt_oldestRetained_iff hpos).mpr hlate
    have hsame : oldestRetained capacity history.length=want := hcursor
    omega
  | stale hpublished hlast => exact ⟨hpublished,hlast⟩
  | _ => cases hstatus

/-- A handle of the replayed queue stands at the cursor of its consumer. -/
theorem consumer_of_represents {q : MulticastModel.Ring} {t : MulticastModel.State κ N}
    {s : State κ N} {c : κ} {want : ℕ} (h : Represents q t ⟨accepted s.log,cursors s⟩)
    (hcursor : (s.consumer c).cursor=some want) : t.consumers c=some ⟨true,want⟩ := by
  have hc := h.consumers c
  simpa only [cursors,hcursor,Option.map_some] using hc

variable [DecidableEq κ]

/-- A log of the versioned queue, replayed call by call on the
mutex-protected queue. -/
inductive Linearizes (q : MulticastModel.Ring) :
    List (Event κ) → MulticastModel.State κ N → Prop
  | nil : Linearizes q [] (MulticastModel.machine q κ N).init
  | publish {log : List (Event κ)} {t t' : MulticastModel.State κ N} {payload : List Byte}
      {result : WriteResult} : Linearizes q log t →
      MulticastModel.perform q t (.publish payload)=(t',.wrote result) →
      Linearizes q (log++[.publish payload result]) t'
  | register {log : List (Event κ)} {t t' : MulticastModel.State κ N} {c : κ} {cursor : ℕ} :
      Linearizes q log t → t.consumers c=none →
      MulticastModel.perform q t (.register c)=(t',.registered cursor) →
      Linearizes q (log++[.register c cursor]) t'
  | read {log : List (Event κ)} {t t' : MulticastModel.State κ N} {c : κ} {start : ℕ}
      {original : List Byte} {answer : Answer} :
      Linearizes q log t → t.consumers c=some ⟨true,start⟩ →
      MulticastModel.perform q t (.read c original)=
        (t',.answered ⟨answer.cursor,answer.destination,identify answer.result⟩) →
      Linearizes q (log++[.read c start original answer]) t'
  | stale {log : List (Event κ)} {t : MulticastModel.State κ N} {c : κ} {start : ℕ}
      {original : List Byte} {answer : Answer} :
      Linearizes q log t → t.consumers c=some ⟨true,start⟩ → Stale start answer →
      Linearizes q (log++[.read c start original answer]) t

/-- The step that completes a call is an access of this call: the store of
the boundary, the load of the boundary, or an access of the running read. A
stale read reloads the boundary while the overwriting publication has begun
and is not yet published. -/
def TakesEffect (q : Ring) (s : State κ N) (a : Action κ) : Event κ → Prop
  | .publish payload result => result.status=.success →
    a=.publish ∧ s.producer=.running payload result.sequence .storePublished
  | .register c cursor => a=.register c ∧ cursor=s.published+1
  | .read c start original answer => a=.read c ∧ ∃ attempt snapshot pc,
    s.consumer c=.running start original attempt snapshot pc ∧ (Stale start answer →
      pc=.reloadPublished ∧ s.published+1=start+q.capacity ∧ s.begun=start+q.capacity)

/-- The replayed queue stores the accepted payloads and the cursors. -/
def Replayed (q : Ring) (s : State κ N) (t : MulticastModel.State κ N) : Prop :=
  Linearizes (sibling q) s.log t ∧ Represents (sibling q) t ⟨accepted s.log,cursors s⟩

/-- Cursors after one consumer has been set. -/
theorem cursors_update {s s' : State κ N} {c : κ} {cursor : ℕ}
    (h : s'.consumer=update s.consumer c (.idle cursor)) :
    cursors s'=update (cursors s) c (some cursor) := by
  funext d
  by_cases hd : d=c
  · subst hd
    simp only [cursors,h,update_self]
    rfl
  · simp only [cursors,h,update_of_ne hd]

/-- A recorded call is replayed by one operation, or is a stale read. -/
theorem replayed_recorded {q : Ring} {s s' : State κ N} {a : Action κ} {event : Event κ}
    {t : MulticastModel.State κ N} (h : Replayed q s t) (hinv : Inv q s)
    (hlog : s'.log=s.log++[event]) (hrec : Recorded q s s' a event) :
    ∃ t',Replayed q s' t' := by
  obtain ⟨hlin,hrep⟩ := h
  have hlen := hinv.published_eq
  unfold Replayed
  rw [hlog]
  cases hrec with
  | oversized payload hlarge hpublished hconsumer =>
    have hnext := hrep.perform (.publish payload)
    have hsame : cursors s'=cursors s := by
      unfold cursors
      rw [hconsumer]
    simp only [performLog,if_pos hlarge] at hnext
    rw [accepted_append_none _ rfl,hsame]
    exact ⟨_,.publish hlin (Prod.ext rfl hnext.2),hnext.1⟩
  | published payload hfits hpublished hconsumer hproducer =>
    have hnext := hrep.perform (.publish payload)
    have hsame : cursors s'=cursors s := by
      unfold cursors
      rw [hconsumer]
    simp only [performLog,if_neg (Nat.not_lt.mpr hfits),← hlen] at hnext
    rw [accepted_append,hsame]
    exact ⟨_,.publish hlin (Prod.ext rfl hnext.2),hnext.1⟩
  | registered c hnew hpublished hconsumer =>
    have hnext := hrep.perform (.register c)
    have hnone : t.consumers c=none := by
      rw [hrep.consumers c]
      simp only [cursors,hnew]
      rfl
    simp only [performLog,← hlen] at hnext
    rw [accepted_append_none _ rfl,cursors_update hconsumer]
    exact ⟨_,.register hlin hnone (Prod.ext rfl hnext.2),hnext.1⟩
  | read c want original answer hpos hle hcursor hout hpublished hconsumer hrunning =>
    have hhandle := consumer_of_represents hrep hcursor
    rw [accepted_append_none _ rfl,cursors_update hconsumer]
    rcases readHistory_of_outcome hpos hinv.accepted_le_begun hout with hread | hstale
    · have hnext := hrep.perform (.read c original)
      have hat : cursors s c=some want := hcursor
      have hcap : (sibling q).capacity=q.capacity := rfl
      simp only [performLog,hat,hcap,hread] at hnext
      exact ⟨_,.read hlin hhandle (Prod.ext rfl hnext.2),hnext.1⟩
    · have hsame : update (cursors s) c (some answer.cursor)=cursors s := by
        rw [hstale.2]
        exact update_eq_self_iff.mpr hcursor.symm
      rw [hsame]
      exact ⟨t,.stale hlin hhandle hstale,hrep⟩

/-- Every reachable log is replayed. -/
theorem replayed_of_reachable {q : Ring} {s : State κ N} (h : Reachable (system q κ N) s) :
    ∃ t,Replayed q s t := by
  refine Reachable.invariant (I:=fun s => ∃ t,Replayed q s t) ?_ ?_ h
  · exact ⟨_,.nil,rfl,retainedSlots_nil _ _,fun _ => rfl,nofun⟩
  intro s a s' hr hi hstep
  obtain ⟨t,ht⟩ := hi
  have hinv := reachable_inv hr
  rcases step_cases hinv hstep with hsilent | ⟨event,hlog,hrec⟩
  · have hsame : cursors s'=cursors s := funext hsilent.cursor
    refine ⟨t,?_⟩
    unfold Replayed
    rw [hsilent.log,hsame]
    exact ht
  · exact replayed_recorded ht hinv hlog hrec

/-- A completed call takes effect at its own access. -/
theorem takesEffect_of_log {q : Ring} {s s' : State κ N} {a : Action κ} {event : Event κ}
    (hr : Reachable (system q κ N) s) (hs : step q s a=some s') (hlog : s'.log=s.log++[event]) :
    TakesEffect q s a event := by
  have hinv := reachable_inv hr
  have hlen := hinv.published_eq
  cases recorded_of_log hinv hs hlog with
  | oversized payload hlarge hpublished hconsumer => exact nofun
  | published payload hfits hpublished hconsumer hproducer => exact fun _ => ⟨rfl,hproducer⟩
  | registered c hnew hpublished hconsumer => exact ⟨rfl,rfl⟩
  | read c want original answer hpos hle hcursor hout hpublished hconsumer hrunning =>
    obtain ⟨want',destination,attempt,snapshot,pc,hc,hstep⟩ := step_read hs
    obtain ⟨attempt',snapshot',pc',hc'⟩ := hrunning
    rw [hc] at hc'
    cases hc'
    rw [← hstep] at hlog
    refine ⟨rfl,attempt,snapshot,pc,hc,?_⟩
    intro hstale
    have hpc := reloads_of_overwritten hlog hstale.1
    have hlast := begun_of_stale hpos hout hstale
    rw [← hlen] at hlast
    exact ⟨hpc,hlast⟩

/-- The versioned queue linearizes to the mutex-protected queue of the same
capacity: the calls, in the order of accesses inside the calls, are answered
alike and leave the same cursors, apart from stale reads. -/
theorem versioned_linearizes (q : Ring) {s : State κ N} (h : Reachable (system q κ N) s) :
    (∃ t : MulticastModel.State κ N,Linearizes (sibling q) s.log t ∧
      t.queue.publishedSequence=s.published ∧
      ∀ c,t.consumers c=(s.consumer c).cursor.map fun cursor => ⟨true,cursor⟩) ∧
    ∀ (a : Action κ) (s' : State κ N) (event : Event κ),step q s a=some s' →
      s'.log=s.log++[event] → TakesEffect q s a event := by
  obtain ⟨t,hlin,hrep⟩ := replayed_of_reachable h
  have hpublished : t.queue.publishedSequence=s.published :=
    hrep.published.trans (reachable_inv h).published_eq.symm
  exact ⟨⟨t,hlin,hpublished,hrep.consumers⟩,fun _ _ _ => takesEffect_of_log h⟩

/-- A read of the first publication up to its last access, with the producer
paused in the second publication in front of its store of the boundary. -/
def pausedOverwrite : List (Action Unit) :=
  .register ()::.callPublish [1]::List.replicate 7 .publish++
  .callPublish [2]::List.replicate 6 .publish++.callRead () [0]::List.replicate 6 (.read ())

/-- Linearization at a run whose next step completes a stale read. -/
theorem versioned_linearizes_paused :
    (∃ t : MulticastModel.State Unit 1,
      Linearizes (sibling (.ofSucc _ 0))
        (run (system (.ofSucc _ 0) Unit 1) pausedOverwrite).log t ∧
      t.queue.publishedSequence=(run (system (.ofSucc _ 0) Unit 1) pausedOverwrite).published ∧
      ∀ c,t.consumers c=((run (system (.ofSucc _ 0) Unit 1) pausedOverwrite).consumer c).cursor.map
        fun cursor => ⟨true,cursor⟩) ∧
    TakesEffect (.ofSucc _ 0) (run (system (.ofSucc _ 0) Unit 1) pausedOverwrite) (.read ())
      (.read () 1 [0] ⟨1,[0],⟨.overwritten,0,1⟩⟩) := by
  have hall := versioned_linearizes (.ofSucc _ 0)
    (run_reachable (system (.ofSucc _ 0) Unit 1) pausedOverwrite)
  have hstep := step_run (system (.ofSucc _ 0) Unit 1) pausedOverwrite (.read ())
    (by decide +kernel)
  have hlog : (run (system (.ofSucc _ 0) Unit 1) (pausedOverwrite++[.read ()])).log=
      (run (system (.ofSucc _ 0) Unit 1) pausedOverwrite).log++
        [.read () 1 [0] ⟨1,[0],⟨.overwritten,0,1⟩⟩] := by decide +kernel
  exact ⟨hall.1,hall.2 _ _ _ hstep hlog⟩

end Line64.VersionedLinearization
