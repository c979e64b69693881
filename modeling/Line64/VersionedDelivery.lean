import Line64.VersionedRead

/-!
# What a versioned read returns

Over every interleaving a successful read delivers the publication of the
cursor it started at, whole and unmixed, and no other exit writes the
destination. The recovery after an overwrite moves the cursor forward exactly
where the overwriting publication has already reached the boundary; between
its first store to the cell and its store of the boundary the lost sequence
is handed back.
-/

namespace Line64.VersionedDelivery

open Function Result FixedMessageAccess Transition RetainedHistory VersionedModel
open VersionedInvariant VersionedRead

variable {κ : Type} {N : ℕ}

/-- A completed read is untorn and of the right generation. -/
def Intact (N : ℕ) (history : List (List Byte)) : Event κ → Prop
  | .read _ start original answer =>
    (answer.result.status=.success → answer.result.sequence=start ∧
      ∃ payload,1 ≤ start ∧ history[start-1]?=some payload ∧ payload.length≤N ∧
        answer.result.bytesRead=payload.length ∧ payload.length≤original.length ∧
        answer.destination=payload++original.drop payload.length) ∧
    (answer.result.status=.messageTooLarge → answer.result.sequence=start ∧
      ∃ payload,1 ≤ start ∧ history[start-1]?=some payload ∧ original.length<payload.length) ∧
    (answer.result.status≠.success → answer.destination=original)
  | _ => True

/-- Every exit of a read is intact. -/
theorem intact_of_outcome {capacity begun want : ℕ} {history : List (List Byte)}
    {original : List Byte} {answer : Answer} (c : κ) (hpos : 1≤want)
    (h : Outcome N capacity history begun want original answer) :
    Intact N history (.read c want original answer) := by
  cases h with
  | empty hempty => exact ⟨nofun,nofun,fun _ => rfl⟩
  | lagged hlag => exact ⟨nofun,nofun,fun _ => rfl⟩
  | tooLarge hle hcur hshort =>
    have hget := getElem?_payloadOf hpos hle
    exact ⟨nofun,fun _ => ⟨rfl,_,hpos,hget,hshort⟩,fun _ => rfl⟩
  | success hle hcur hsize hfits =>
    have hget := getElem?_payloadOf hpos hle
    exact ⟨fun _ => ⟨rfl,_,hpos,hget,hsize,rfl,hfits,rfl⟩,nofun,fun hne => absurd rfl hne⟩
  | skipped hlag => exact ⟨nofun,nofun,fun _ => rfl⟩
  | stale hpublished hbegun => exact ⟨nofun,nofun,fun _ => rfl⟩

/-- Later publications do not change what was read. -/
theorem Intact.append {history : List (List Byte)} {event : Event κ}
    (h : Intact N history event) (added : List (List Byte)) :
    Intact N (history++added) event := by
  cases event with
  | read c start original answer =>
    obtain ⟨hsuccess,hlarge,hrest⟩ := h
    refine ⟨?_,?_,hrest⟩
    · intro hs
      obtain ⟨hseq,payload,hpos,hget,hbounds⟩ := hsuccess hs
      have hlt := (List.getElem?_eq_some_iff.mp hget).1
      exact ⟨hseq,payload,hpos,by rw [List.getElem?_append_left hlt]; exact hget,hbounds⟩
    · intro hs
      obtain ⟨hseq,payload,hpos,hget,hshort⟩ := hlarge hs
      have hlt := (List.getElem?_eq_some_iff.mp hget).1
      exact ⟨hseq,payload,hpos,by rw [List.getElem?_append_left hlt]; exact hget,hshort⟩
  | _ => trivial

/-- A read that reports an overwrite resumes behind the lost sequence, in its
result and in its handle. -/
def Advances : Event κ → Prop
  | .read _ start _ answer => answer.result.status=.overwritten →
      start<answer.result.sequence ∧ start<answer.cursor
  | _ => True

/-- The condition on a scheduled step: a read that reloads the boundary finds
the publication one lap behind its cursor already published. -/
def ReloadsPublished (q : Ring) (s : State κ N) : Action κ → Prop
  | .read c =>
    match s.consumer c with
    | .running want _ _ _ .reloadPublished => want+q.capacity ≤ s.published
    | _ => True
  | _ => True

instance (q : Ring) (s : State κ N) (a : Action κ) : Decidable (ReloadsPublished q s a) := by
  unfold ReloadsPublished
  split
  · split
    · exact inferInstanceAs (Decidable (_≤_))
    · exact isTrue trivial
  · exact isTrue trivial

/-- An overwrite that was reported is not reported again: later reads of the
same consumer start behind it. -/
def ReportedOnce : Event κ → Event κ → Prop
  | .read c start _ answer,.read d later _ _ =>
    c=d → answer.result.status=.overwritten → start<later
  | _,_ => True

/-- Reported overwrites lie in front of the present cursor. -/
def LossesBehind (s : State κ N) : Prop :=
  ∀ c start original answer,.read c start original answer ∈ s.log →
    answer.result.status=.overwritten → ∃ cursor,(s.consumer c).cursor=some cursor ∧ start<cursor

/-- An overwrite exit advances exactly behind the published boundary. -/
theorem advances_iff_of_outcome {capacity begun want : ℕ} {history : List (List Byte)}
    {original : List Byte} {answer : Answer} (c : κ) (hpos : 1≤want)
    (h : Outcome N capacity history begun want original answer)
    (hstatus : answer.result.status=.overwritten) :
    Advances (.read c want original answer) ↔ want+capacity≤history.length := by
  have hlag : want<oldestRetained capacity history.length ↔ want+capacity≤history.length :=
    lt_oldestRetained_iff hpos
  cases h with
  | skipped hlate =>
    have hlt := hlag.mpr hlate
    exact ⟨fun _ => hlate,fun _ _ => ⟨hlt,hlt⟩⟩
  | stale hpublished hbegun =>
    constructor
    · intro hadv
      exact absurd (hadv rfl).1 (lt_irrefl _)
    · intro hlate
      omega
  | _ => cases hstatus

variable [DecidableEq κ]

/-- Over every interleaving of one producer with any number of consumers no
read is torn or of a wrong generation. -/
theorem reads_intact (q : Ring) {s : State κ N} (h : Reachable (system q κ N) s) :
    ∀ event ∈ s.log,Intact N (accepted s.log) event := by
  refine Reachable.invariant (I:=fun s => ∀ event ∈ s.log,Intact N (accepted s.log) event)
    ?_ ?_ h
  · intro event hmem
    exact absurd hmem List.not_mem_nil
  intro s a s' hr hall hs
  rcases step_cases (reachable_inv hr) hs with hsilent | ⟨event,hlog,hrec⟩
  · rw [hsilent.log]
    exact hall
  · rw [hlog]
    intro other hmem
    rw [accepted_append]
    rcases List.mem_append.mp hmem with hold | hnew
    · exact (hall other hold).append _
    · rw [List.mem_singleton] at hnew
      subst hnew
      cases hrec with
      | read c want original answer hpos hle hcursor hout hpublished hconsumer =>
        exact (intact_of_outcome c hpos hout).append _
      | _ => trivial

/-- A read of the first of two publications into a single cell, overtaken by
the second one between its loads, and a read of the second one. -/
def overtakenRead : List (Action Unit) :=
  .register ()::.callPublish [1,2]::List.replicate 8 .publish++
  .callRead () [0,0,0]::List.replicate 4 (.read ())++
  .callPublish [3]::List.replicate 4 .publish++List.replicate 4 (.read ())++
  List.replicate 3 .publish++List.replicate 8 (.read ())++
  .callRead () [0,0,0]::List.replicate 7 (.read ())

/-- Intact reads at a run in which a half-copied message is overwritten. -/
theorem reads_intact_overtaken :
    (run (system (.ofSucc _ 0) Unit 2) overtakenRead).log=
      [.register () 1,.publish [1,2] ⟨.success,1⟩,.publish [3] ⟨.success,2⟩,
        .read () 1 [0,0,0] ⟨2,[0,0,0],⟨.overwritten,0,2⟩⟩,
        .read () 2 [0,0,0] ⟨3,[3,0,0],⟨.success,1,2⟩⟩] ∧
    ∀ event ∈ (run (system (.ofSucc _ 0) Unit 2) overtakenRead).log,
      Intact 2 (accepted (run (system (.ofSucc _ 0) Unit 2) overtakenRead).log) event :=
  ⟨by decide +kernel,reads_intact _ (run_reachable _ _)⟩

/-- At every step that returns an overwrite the recovery advances exactly if
the overwriting publication is published at the reload. -/
theorem advances_iff_published {q : Ring} {s s' : State κ N} {a : Action κ} {c : κ} {start : ℕ}
    {original : List Byte} {answer : Answer} (hr : Reachable (system q κ N) s)
    (hs : step q s a=some s') (hlog : s'.log=s.log++[.read c start original answer])
    (hstatus : answer.result.status=.overwritten) :
    Advances (.read c start original answer) ↔ start+q.capacity ≤ s.published := by
  have hinv := reachable_inv hr
  cases recorded_of_log hinv hs hlog with
  | read _ _ _ _ hpos hle hcursor hout hpublished hconsumer =>
    rw [hinv.published_eq]
    exact advances_iff_of_outcome c hpos hout hstatus

/-- A step that meets the condition and returns an overwrite advances. -/
theorem advances_of_reloads {q : Ring} {s s' : State κ N} {a : Action κ} {event : Event κ}
    (hr : Reachable (system q κ N) s) (hs : step q s a=some s') (hlog : s'.log=s.log++[event])
    (hmeets : ReloadsPublished q s a) : Advances event := by
  have hrec := recorded_of_log (reachable_inv hr) hs hlog
  cases hrec with
  | read c want original answer hpos hle hcursor hout hpublished hconsumer =>
    intro hstatus
    obtain ⟨want',destination,attempt,snapshot,pc,hc,hstep⟩ := step_read hs
    have hwant : want'=want := by
      rw [hc] at hcursor
      exact Option.some.inj hcursor
    subst hwant
    rw [← hstep] at hlog
    have hpc := reloads_of_overwritten hlog hstatus
    subst hpc
    have hpublished' : want'+q.capacity ≤ s.published := by
      simpa only [ReloadsPublished,hc] using hmeets
    rw [← hstep] at hs
    exact (advances_iff_published hr hs hlog hstatus).mpr hpublished' hstatus
  | _ => trivial

/-- Reported overwrites stay behind the cursors along a step that logs a
call, because cursors do not move backwards. -/
theorem lossesBehind_recorded {q : Ring} {s s' : State κ N} {a : Action κ} {event : Event κ}
    (hrec : Recorded q s s' a event) (hlog : s'.log=s.log++[event]) (hadv : Advances event)
    (h : LossesBehind s) : LossesBehind s' := by
  intro d start original answer hmem hstatus
  rw [hlog,List.mem_append,List.mem_singleton] at hmem
  rcases hmem with hold | rfl
  · obtain ⟨cursor,hcursor,hlt⟩ := h d start original answer hold hstatus
    rcases hrec.cursor_cases hcursor with hsame | ⟨_,answer',-,hnew,hpos,hout⟩
    · exact ⟨cursor,hsame,hlt⟩
    · have hge := hout.cursor_ge hpos
      exact ⟨answer'.cursor,hnew,by omega⟩
  · cases hrec with
    | read _ _ _ _ hpos hle hcursor hout hpublished hconsumer =>
      exact ⟨answer.cursor,by rw [hconsumer,update_self]; rfl,(hadv hstatus).2⟩

/-- The new call of a consumer starts behind all its reported overwrites. -/
theorem reportedOnce_recorded {q : Ring} {s s' : State κ N} {a : Action κ} {event : Event κ}
    (hrec : Recorded q s s' a event) (h : LossesBehind s) :
    ∀ earlier ∈ s.log,ReportedOnce earlier event := by
  intro earlier hmem
  cases hrec with
  | read c want original answer hpos hle hcursor hout hpublished hconsumer =>
    cases earlier with
    | read d start original' answer' =>
      rintro rfl hstatus
      obtain ⟨cursor,hcursor',hlt⟩ := h d start original' answer' hmem hstatus
      rw [hcursor] at hcursor'
      cases hcursor'
      exact hlt
    | _ => trivial
  | _ => cases earlier <;> trivial

/-- Overwrite recovery: in every run whose reloads of the boundary all find
the overwriting publication published, every reported overwrite advances the
result and the cursor and is reported once. In every other reachable step
that returns an overwrite the lost sequence is handed back. -/
theorem overwrite_recovery_advances (q : Ring) :
    (∀ s : State κ N,Guarded (system q κ N) (ReloadsPublished q) s →
      (∀ event ∈ s.log,Advances event) ∧ s.log.Pairwise ReportedOnce) ∧
    ∀ (s s' : State κ N) (a : Action κ) (c : κ) (start : ℕ) (original : List Byte)
      (answer : Answer),Reachable (system q κ N) s → step q s a=some s' →
      s'.log=s.log++[.read c start original answer] → answer.result.status=.overwritten →
      (Advances (.read c start original answer) ↔ start+q.capacity ≤ s.published) := by
  refine ⟨?_,fun s s' a c start original answer => advances_iff_published⟩
  intro s hs
  have hall : (∀ event ∈ s.log,Advances event) ∧ s.log.Pairwise ReportedOnce ∧
      LossesBehind s := by
    refine Guarded.invariant (I:=fun s => (∀ event ∈ s.log,Advances event) ∧
      s.log.Pairwise ReportedOnce ∧ LossesBehind s) ?_ ?_ hs
    · exact ⟨fun _ hmem => absurd hmem List.not_mem_nil,.nil,
        fun _ _ _ _ hmem => absurd hmem List.not_mem_nil⟩
    intro s a s' hr hi hmeets hstep
    obtain ⟨hadv,hpair,hbehind⟩ := hi
    rcases step_cases (reachable_inv hr) hstep with hsilent | ⟨event,hlog,hrec⟩
    · have hcursors : LossesBehind s' := by
        intro c start original answer hmem hstatus
        rw [hsilent.cursor]
        rw [hsilent.log] at hmem
        exact hbehind c start original answer hmem hstatus
      rw [hsilent.log]
      exact ⟨hadv,hpair,hcursors⟩
    · have hnew := advances_of_reloads hr hstep hlog hmeets
      have hbehind' := lossesBehind_recorded hrec hlog hnew hbehind
      have honce := reportedOnce_recorded hrec hbehind
      refine ⟨?_,?_,hbehind'⟩
      · intro other hmem
        rw [hlog,List.mem_append,List.mem_singleton] at hmem
        rcases hmem with hold | rfl
        · exact hadv other hold
        · exact hnew
      · rw [hlog,List.pairwise_append]
        refine ⟨hpair,List.pairwise_singleton _ _,?_⟩
        intro earlier hmem other hother
        rw [List.mem_singleton] at hother
        subst hother
        exact honce earlier hmem
  exact ⟨hall.1,hall.2.1⟩

/-- Two reads of the first publication, up to the last access of the second
read, while the second publication is written into the same cell and the
producer is paused in front of its store of the boundary. -/
def stalledRecovery : List (Action Unit) :=
  .register ()::.callPublish [1]::List.replicate 7 .publish++
  .callPublish [2]::List.replicate 6 .publish++
  .callRead () [0]::List.replicate 7 (.read ())++.callRead () [0]::List.replicate 6 (.read ())

/-- Overwrite recovery at a run in which the overtaken read reloads the
boundary after the second publication has stored it, and at the last step of
a run in which it has not. -/
theorem overwrite_recovery_advances_overtaken :
    Guarded (system (.ofSucc _ 0) Unit 2) (ReloadsPublished (.ofSucc _ 0))
      (run (system (.ofSucc _ 0) Unit 2) overtakenRead) ∧
    ((∀ event ∈ (run (system (.ofSucc _ 0) Unit 2) overtakenRead).log,Advances event) ∧
      (run (system (.ofSucc _ 0) Unit 2) overtakenRead).log.Pairwise ReportedOnce) ∧
    (Advances (.read () 1 [0] ⟨1,[0],⟨.overwritten,0,1⟩⟩) ↔
      1+1≤(run (system (.ofSucc _ 0) Unit 1) stalledRecovery).published) := by
  have hguarded : Guarded (system (.ofSucc _ 0) Unit 2) (ReloadsPublished (.ofSucc _ 0))
      (run (system (.ofSucc _ 0) Unit 2) overtakenRead) :=
    runFrom_guarded .init (by decide +kernel)
  have hstep : step (.ofSucc _ 0) (run (system (.ofSucc _ 0) Unit 1) stalledRecovery) (.read ())=
      some (run (system (.ofSucc _ 0) Unit 1) (stalledRecovery++[.read ()])) :=
    step_run (system (.ofSucc _ 0) Unit 1) stalledRecovery (.read ()) (by decide +kernel)
  have hlog : (run (system (.ofSucc _ 0) Unit 1) (stalledRecovery++[.read ()])).log=
      (run (system (.ofSucc _ 0) Unit 1) stalledRecovery).log++
        [.read () 1 [0] ⟨1,[0],⟨.overwritten,0,1⟩⟩] := by decide +kernel
  exact ⟨hguarded,(overwrite_recovery_advances _).1 _ hguarded,
    (overwrite_recovery_advances _).2 _ _ _ _ _ _ _ (run_reachable _ _) hstep hlog rfl⟩

/-- The recovery does not always advance: here both reads report sequence one
as overwritten and both name it as the place to resume. -/
theorem overwrite_recovery_stalls :
    Reachable (system (.ofSucc _ 0) Unit 1)
      (run (system (.ofSucc _ 0) Unit 1) (stalledRecovery++[.read ()])) ∧
    (run (system (.ofSucc _ 0) Unit 1) (stalledRecovery++[.read ()])).log=
      [.register () 1,.publish [1] ⟨.success,1⟩,
        .read () 1 [0] ⟨1,[0],⟨.overwritten,0,1⟩⟩,.read () 1 [0] ⟨1,[0],⟨.overwritten,0,1⟩⟩] ∧
    ¬∀ event ∈ (run (system (.ofSucc _ 0) Unit 1) (stalledRecovery++[.read ()])).log,
      Advances event := by
  have hlog : (run (system (.ofSucc _ 0) Unit 1) (stalledRecovery++[.read ()])).log=
      [.register () 1,.publish [1] ⟨.success,1⟩,
        .read () 1 [0] ⟨1,[0],⟨.overwritten,0,1⟩⟩,.read () 1 [0] ⟨1,[0],⟨.overwritten,0,1⟩⟩] := by
    decide +kernel
  refine ⟨run_reachable _ _,hlog,?_⟩
  rw [hlog]
  intro hall
  have hread := hall (.read () 1 [0] ⟨1,[0],⟨.overwritten,0,1⟩⟩) (by simp)
  exact absurd (hread rfl).1 (lt_irrefl _)

end Line64.VersionedDelivery
