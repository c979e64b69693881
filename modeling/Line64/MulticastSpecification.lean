import Line64.MulticastTla
import Line64.VersionedConsumers
import Line64.VersionedLinearization

/-!
# Both multicast queues refine their TLA+ specification

The specification was written for the mutex-protected queue. A completed call
of either queue is at most one of its actions: an accepted publication, a
registration, a successful read, or a loss report that moves its cursor. The
versioned queue performs them with its last accesses, while publications and
reads overlap. Refused calls, reads of nothing and overwrite reports that keep
their cursor are invisible.
-/

namespace Line64.MulticastSpecification

open Function Result FixedMessageAccess Transition RetainedHistory
open VersionedModel (Event)
open VersionedConsumers (successes delivered successes_append)

variable {κ : Type} {N : ℕ}

/-- What both queues show: the boundary, the cursors and the completed
calls. -/
structure View (κ : Type) where
  /-- The published boundary. -/
  published : ℕ
  /-- Cursors of the registered consumers. -/
  cursor : κ → Option ℕ
  /-- Completed calls, oldest first. -/
  log : List (Event κ)

/-- A constructed queue. -/
def View.initial (κ : Type) : View κ := ⟨0,fun _ => none,[]⟩

/-- Action of the specification performed by a completed call, if any. -/
def action : Event κ → Option (MulticastTla.Action κ)
  | .publish _ result => if result.status=.success then some .publish else none
  | .register c _ => some (.register c)
  | .read c start _ answer =>
    if answer.result.status=.success then some (.read c)
    else if start<answer.cursor then some (.reportLag c)
    else none

/-- Action of the specification performed by a scheduled step: the one of the
call it completes. -/
def label {σ α : Type} (S : System σ α) (view : σ → View κ) (s : σ) (a : α) :
    Option (MulticastTla.Action κ) :=
  (S.step s a).bind fun s' => ((view s').log[(view s).log.length]?).bind action

section Definitions

variable [DecidableEq κ]

/-- Loss reports of a consumer that moved its cursor. -/
def lags (c : κ) (log : List (Event κ)) : ℕ :=
  log.countP fun event => action event=some (.reportLag c)

/-- The specification is in the state a queue shows. -/
structure Shows (x : View κ) (t : MulticastTla.State κ) : Prop where
  /-- The boundary. -/
  published : t.published=x.published
  /-- The registered consumers. -/
  active : ∀ c,c ∈ t.active ↔ ∃ cursor,x.cursor c=some cursor
  /-- The cursors. -/
  nextSequence : ∀ c cursor,x.cursor c=some cursor → t.nextSequence c=cursor
  /-- The delivered sequences. -/
  reads : ∀ c,t.reads c=successes c x.log
  /-- The loss reports. -/
  lagEvents : ∀ c,t.lagEvents c=lags c x.log

/-- What a completed call does to the boundary and to the cursors. -/
inductive Effect (capacity published : ℕ) (cursor : κ → Option ℕ) :
    Event κ → ℕ → (κ → Option ℕ) → Prop
  /-- A publication is refused. -/
  | refused (payload : List Byte) (result : WriteResult) (hstatus : result.status≠.success) :
      Effect capacity published cursor (.publish payload result) published cursor
  /-- A payload is published. -/
  | published (payload : List Byte) :
      Effect capacity published cursor (.publish payload ⟨.success,published+1⟩) (published+1)
        cursor
  /-- A consumer is registered. -/
  | registered (c : κ) (hnew : cursor c=none) :
      Effect capacity published cursor (.register c (published+1)) published
        (update cursor c (some (published+1)))
  /-- A read keeps its cursor. -/
  | kept (c : κ) (start : ℕ) (original : List Byte) (answer : Answer)
      (hstatus : answer.result.status≠.success) (hcursor : cursor c=some start)
      (hsame : answer.cursor=start) :
      Effect capacity published cursor (.read c start original answer) published cursor
  /-- A read reports a loss and moves its cursor to the window. -/
  | lost (c : κ) (start : ℕ) (original : List Byte) (answer : Answer)
      (hstatus : answer.result.status≠.success) (hcursor : cursor c=some start) (hpos : 1 ≤ start)
      (hlag : start+capacity≤published)
      (hnext : answer.cursor=oldestRetained capacity published) :
      Effect capacity published cursor (.read c start original answer) published
        (update cursor c (some answer.cursor))
  /-- A read delivers its cursor. -/
  | delivered (c : κ) (start : ℕ) (original : List Byte) (answer : Answer)
      (hstatus : answer.result.status=.success) (hsequence : answer.result.sequence=start)
      (hcursor : cursor c=some start) (hpos : 1 ≤ start) (hle : start≤published)
      (hcurrent : published<start+capacity) (hnext : answer.cursor=start+1) :
      Effect capacity published cursor (.read c start original answer) published
        (update cursor c (some answer.cursor))

end Definitions

section Calls

variable [DecidableEq κ] {capacity total published : ℕ} {cursor : κ → Option ℕ}
  {log : List (Event κ)} {t : MulticastTla.State κ}

/-- Loss reports are counted call by call. -/
theorem lags_append (c : κ) (log : List (Event κ)) (event : Event κ) :
    lags c (log++[event])=lags c log+if action event=some (.reportLag c) then 1 else 0 := by
  simp only [lags,List.countP_append,List.countP_singleton,decide_eq_true_eq]

/-- A call without an action leaves the specification alone. -/
theorem Shows.silent (h : Shows ⟨published,cursor,log⟩ t) {event : Event κ}
    (haction : action event=none) (hdelivered : ∀ c,delivered c event=none) :
    Shows ⟨published,cursor,log++[event]⟩ t where
  published := h.published
  active := h.active
  nextSequence := h.nextSequence
  reads := by
    intro c
    rw [h.reads,successes_append,hdelivered c]
    exact (List.append_nil _).symm
  lagEvents := by
    intro c
    rw [h.lagEvents,lags_append,haction]
    rfl

/-- The cursor of one consumer is moved on both sides. -/
theorem Shows.cursor_update (h : Shows ⟨published,cursor,log⟩ t) {c : κ} {next : ℕ}
    (d : κ) (n : ℕ) (hd : update cursor c (some next) d=some n) :
    update t.nextSequence c next d=n := by
  by_cases he : d=c
  · subst he
    rw [update_self,Option.some.injEq] at hd
    rw [update_self,hd]
  · rw [update_of_ne he] at hd
    rw [update_of_ne he]
    exact h.nextSequence d n hd

/-- A moved cursor belongs to a registered consumer. -/
theorem Shows.active_update (h : Shows ⟨published,cursor,log⟩ t) {c : κ} {start next : ℕ}
    (hcursor : cursor c=some start) (d : κ) :
    d ∈ t.active ↔ ∃ n,update cursor c (some next) d=some n := by
  have hactive : d ∈ t.active ↔ ∃ n,cursor d=some n := h.active d
  rw [hactive]
  by_cases he : d=c
  · subst he
    rw [update_self]
    exact ⟨fun _ => ⟨next,rfl⟩,fun _ => ⟨start,hcursor⟩⟩
  · rw [update_of_ne he]

/-- An accepted publication. -/
theorem Shows.publish (h : Shows ⟨published,cursor,log⟩ t) (hroom : published<total)
    (payload : List Byte) :
    ∃ t',MulticastTla.Next capacity total .publish t t' ∧
      Shows ⟨published+1,cursor,log++[.publish payload ⟨.success,published+1⟩]⟩ t' := by
  have hpublished : t.published=published := h.published
  refine ⟨_,⟨by rw [hpublished]; exact hroom,rfl⟩,?_,h.active,h.nextSequence,?_,?_⟩
  · show t.published+1=published+1
    rw [hpublished]
  · intro c
    rw [successes_append]
    exact (h.reads c).trans (List.append_nil _).symm
  · intro c
    rw [lags_append]
    exact h.lagEvents c

/-- A registration. -/
theorem Shows.register (h : Shows ⟨published,cursor,log⟩ t) (total : ℕ) {c : κ}
    (hnew : cursor c=none) :
    ∃ t',MulticastTla.Next capacity total (.register c) t t' ∧
      Shows ⟨published,update cursor c (some (published+1)),log++[.register c (published+1)]⟩
        t' := by
  have hpublished : t.published=published := h.published
  have hinactive : c ∉ t.active := by
    rw [h.active c]
    rintro ⟨n,hn⟩
    cases hnew.symm.trans hn
  refine ⟨_,⟨hinactive,rfl⟩,h.published,?_,?_,?_,?_⟩
  · intro d
    have hactive : d ∈ t.active ↔ ∃ n,cursor d=some n := h.active d
    show d ∈ insert c t.active ↔ _
    rw [Set.mem_insert_iff,hactive]
    by_cases he : d=c
    · subst he
      exact ⟨fun _ => ⟨_,update_self _ _ _⟩,fun _ => .inl rfl⟩
    · simp only [he,false_or,update_of_ne he]
  · intro d n hd
    have hmoved := h.cursor_update d n hd
    rw [← hpublished] at hmoved
    exact hmoved
  · intro d
    rw [successes_append]
    exact (h.reads d).trans (List.append_nil _).symm
  · intro d
    rw [lags_append]
    exact h.lagEvents d

/-- A loss report that moves its cursor. -/
theorem Shows.reportLag (h : Shows ⟨published,cursor,log⟩ t) (total : ℕ) {c : κ} {start : ℕ}
    (original : List Byte) {answer : Answer} (hstatus : answer.result.status≠.success)
    (hcursor : cursor c=some start) (hpos : 1 ≤ start) (hlag : start+capacity≤published)
    (hnext : answer.cursor=oldestRetained capacity published) :
    action (.read c start original answer)=some (.reportLag c) ∧
    ∃ t',MulticastTla.Next capacity total (.reportLag c) t t' ∧
      Shows ⟨published,update cursor c (some answer.cursor),
        log++[.read c start original answer]⟩ t' := by
  have hpublished : t.published=published := h.published
  have hat : t.nextSequence c=start := h.nextSequence c start hcursor
  have hlt : start<oldestRetained capacity published := (lt_oldestRetained_iff hpos).mpr hlag
  have haction : action (.read c start original answer)=some (.reportLag c) := by
    rw [action,if_neg hstatus,if_pos (by rw [hnext]; exact hlt)]
  refine ⟨haction,_,⟨(h.active c).mpr ⟨start,hcursor⟩,?_,?_,rfl⟩,h.published,
    h.active_update hcursor,?_,?_,?_⟩
  · rw [hat,hpublished]
    omega
  · rw [hat,hpublished]
    exact hlt
  · intro d n hd
    have hmoved := h.cursor_update d n hd
    rw [hnext,← hpublished] at hmoved
    exact hmoved
  · intro d
    have hnone : delivered d (.read c start original answer)=none :=
      if_neg fun hboth => hstatus hboth.2
    rw [successes_append,hnone]
    exact (h.reads d).trans (List.append_nil _).symm
  · intro d
    have hold : t.lagEvents d=lags d log := h.lagEvents d
    rw [lags_append,haction]
    show update t.lagEvents c (t.lagEvents c+1) d=_
    by_cases he : d=c
    · subst he
      rw [update_self,hold,if_pos rfl]
    · have hother : ¬some (MulticastTla.Action.reportLag c)=some (.reportLag d) := by
        intro hsame
        cases hsame
        exact he rfl
      rw [update_of_ne he,hold,if_neg hother,Nat.add_zero]

/-- A successful read. -/
theorem Shows.read (h : Shows ⟨published,cursor,log⟩ t) (hinv : MulticastTla.Inv capacity total t)
    {c : κ} {start : ℕ} (original : List Byte) {answer : Answer}
    (hstatus : answer.result.status=.success) (hsequence : answer.result.sequence=start)
    (hcursor : cursor c=some start) (hpos : 1 ≤ start) (hle : start≤published)
    (hcurrent : published<start+capacity) (hnext : answer.cursor=start+1) :
    action (.read c start original answer)=some (.read c) ∧
    ∃ t',MulticastTla.Next capacity total (.read c) t t' ∧
      Shows ⟨published,update cursor c (some answer.cursor),
        log++[.read c start original answer]⟩ t' := by
  have hpublished : t.published=published := h.published
  have hat : t.nextSequence c=start := h.nextSequence c start hcursor
  have hretained : start ∈ MulticastTla.Retained capacity t.published := by
    rw [MulticastTla.mem_retained,hpublished]
    exact ⟨hpos,hle,hcurrent⟩
  have hwindow : oldestRetained capacity published ≤ start := by
    rw [← Nat.not_lt,lt_oldestRetained_iff hpos]
    omega
  have haction : action (.read c start original answer)=some (.read c) := by
    rw [action,if_pos hstatus]
  refine ⟨haction,_,⟨(h.active c).mpr ⟨start,hcursor⟩,?_,?_,?_,rfl⟩,h.published,
    h.active_update hcursor,?_,?_,?_⟩
  · rw [hat,hpublished]
    exact hle
  · rw [hat,hpublished]
    exact hwindow
  · rw [hat]
    exact hinv.invariants.retained_slots_match start hretained
  · intro d n hd
    have hmoved := h.cursor_update d n hd
    rw [hnext,← hat] at hmoved
    exact hmoved
  · intro d
    have hold : t.reads d=successes d log := h.reads d
    rw [successes_append]
    show update t.reads c (t.reads c++[t.nextSequence c]) d=_
    by_cases he : d=c
    · subst he
      rw [update_self,hold,hat,delivered,if_pos ⟨rfl,hstatus⟩,hsequence]
      rfl
    · have hother : delivered d (.read c start original answer)=none :=
        if_neg fun hboth => he hboth.1.symm
      rw [update_of_ne he,hold,hother]
      exact (List.append_nil _).symm
  · intro d
    rw [lags_append,haction]
    exact h.lagEvents d

/-- A completed call is one action of the specification, or none. -/
theorem Shows.call (h : Shows ⟨published,cursor,log⟩ t) (hinv : MulticastTla.Inv capacity total t)
    {event : Event κ} {published' : ℕ} {cursor' : κ → Option ℕ}
    (heffect : Effect capacity published cursor event published' cursor')
    (htotal : published'≤total) :
    (action event=none ∧ Shows ⟨published',cursor',log++[event]⟩ t) ∨
      ∃ l t',action event=some l ∧ MulticastTla.Next capacity total l t t' ∧
        Shows ⟨published',cursor',log++[event]⟩ t' := by
  cases heffect with
  | refused payload result hstatus =>
    have haction : action (.publish payload result : Event κ)=none := if_neg hstatus
    exact .inl ⟨haction,h.silent haction fun _ => rfl⟩
  | published payload =>
    obtain ⟨t',hnext,hshows⟩ := h.publish htotal payload
    exact .inr ⟨.publish,t',rfl,hnext,hshows⟩
  | registered c hnew =>
    obtain ⟨t',hnext,hshows⟩ := h.register total hnew
    exact .inr ⟨.register c,t',rfl,hnext,hshows⟩
  | kept c start original answer hstatus hcursor hsame =>
    have haction : action (.read c start original answer)=none := by
      rw [action,if_neg hstatus,if_neg (by rw [hsame]; exact lt_irrefl _)]
    exact .inl ⟨haction,h.silent haction fun _ => if_neg fun hboth => hstatus hboth.2⟩
  | lost c start original answer hstatus hcursor hpos hlag hnext =>
    obtain ⟨haction,t',hstep,hshows⟩ :=
      h.reportLag total original hstatus hcursor hpos hlag hnext
    exact .inr ⟨.reportLag c,t',haction,hstep,hshows⟩
  | delivered c start original answer hstatus hsequence hcursor hpos hle hcurrent hnext =>
    obtain ⟨haction,t',hstep,hshows⟩ :=
      h.read hinv original hstatus hsequence hcursor hpos hle hcurrent hnext
    exact .inr ⟨.read c,t',haction,hstep,hshows⟩

end Calls

section Simulation

variable {σ α : Type} {S : System σ α} {view : σ → View κ} {capacity total : ℕ}

/-- The label of a step that shows nothing. -/
theorem label_of_eq {s s' : σ} {a : α} (hs : S.step s a=some s') (hview : view s'=view s) :
    label S view s a=none := by
  rw [label,hs,Option.bind_some,hview,List.getElem?_eq_none (Nat.le_refl _),Option.bind_none]

/-- The label of a step that completes a call. -/
theorem label_of_append {s s' : σ} {a : α} {event : Event κ} (hs : S.step s a=some s')
    (hlog : (view s').log=(view s).log++[event]) : label S view s a=action event := by
  rw [label,hs,Option.bind_some,hlog,List.getElem?_concat_length,Option.bind_some]

variable [DecidableEq κ]

/-- A step of a queue shows nothing, or one completed call. -/
def Follows (capacity : ℕ) (x x' : View κ) : Prop :=
  x'=x ∨ ∃ event,x'.log=x.log++[event] ∧
    Effect capacity x.published x.cursor event x'.published x'.cursor

/-- A step is simulated by the action of the call it completes. -/
theorem step_simulated {s s' : σ} {a : α} {t : MulticastTla.State κ} (hs : S.step s a=some s')
    (hfollows : Follows capacity (view s) (view s')) (htotal : (view s').published≤total)
    (hshows : Shows (view s) t) (hinv : MulticastTla.Inv capacity total t) :
    (label S view s a=none ∧ Shows (view s') t ∧ MulticastTla.Inv capacity total t) ∨
      ∃ l t',label S view s a=some l ∧ MulticastTla.Next capacity total l t t' ∧
        Shows (view s') t' ∧ MulticastTla.Inv capacity total t' := by
  rcases hfollows with hsame | ⟨event,hlog,heffect⟩
  · exact .inl ⟨label_of_eq hs hsame,by rw [hsame]; exact hshows,hinv⟩
  · have hview : view s'=⟨(view s').published,(view s').cursor,(view s).log++[event]⟩ := by
      rw [← hlog]
    rw [label_of_append hs hlog,hview]
    rcases hshows.call hinv heffect htotal with ⟨haction,hshows'⟩ | ⟨l,t',haction,hnext,hshows'⟩
    · exact .inl ⟨haction,hshows',hinv⟩
    · exact .inr ⟨l,t',haction,hnext,hshows',hinv.next hnext⟩

/-- A queue whose steps show nothing or one completed call refines the
specification, with at least as many publications as it is asked for. -/
theorem matched_of_follows {asks : α → Bool} (hinit : view S.init=.initial κ)
    (hasked : ∀ actions s,Schedule S actions s → (view s).published≤actions.countP asks)
    (hfollows : ∀ actions s a s',Schedule S actions s → S.step s a=some s' →
      Follows capacity (view s) (view s'))
    {actions : List α} {s : σ} (h : Schedule S actions s) (htotal : actions.countP asks≤total) :
    ∃ t,Matched S (label S view) MulticastTla.init (MulticastTla.Next capacity total)
      (fun s t => Shows (view s) t) actions s t := by
  have hshorter : ∀ (actions : List α) (a : α),
      (actions++[a]).countP asks≤total → actions.countP asks≤total := by
    intro actions a hle
    rw [List.countP_append] at hle
    exact (Nat.le_add_right _ _).trans hle
  have hfirst : Shows (view S.init) (MulticastTla.init : MulticastTla.State κ) := by
    rw [hinit]
    refine ⟨rfl,fun c => ⟨fun hmem => absurd hmem (Set.notMem_empty _),?_⟩,?_,fun _ => rfl,
      fun _ => rfl⟩
    · rintro ⟨cursor,hnone⟩
      cases hnone
    · intro c cursor hnone
      cases hnone
  have hmatched : ∃ t,Matched S (label S view) MulticastTla.init
      (MulticastTla.Next capacity total)
      (fun s t => Shows (view s) t ∧ MulticastTla.Inv capacity total t) actions s t := by
    refine h.matched_within
      (R:=fun s t => Shows (view s) t ∧ MulticastTla.Inv capacity total t)
      (P:=fun actions => actions.countP asks≤total) hshorter
      ⟨hfirst,MulticastTla.inv_init capacity total⟩ ?_ htotal
    rintro actions s t a s' hr hle ⟨hshows,hinv⟩ hs
    exact step_simulated hs (hfollows actions s a s' hr hs)
      ((hasked _ s' (hr.step hs)).trans hle) hshows hinv
  obtain ⟨t,hm⟩ := hmatched
  exact ⟨t,hm.mono fun _ _ hr => hr.1⟩

end Simulation

section Mutex

open MulticastModel MulticastRefinement

/-- The mutex-protected queue and its completed calls. -/
structure Logged (κ : Type) (N : ℕ) where
  /-- Queue and handles. -/
  state : MulticastModel.State κ N
  /-- Completed calls, oldest first. -/
  log : List (Event κ)

/-- The completed call of an operation. A name is registered once, and only
registered handles read. -/
def recorded (s : MulticastModel.State κ N) : MulticastModel.Action κ → Output → Option (Event κ)
  | .publish payload,.wrote result => some (.publish payload result)
  | .register c,.registered cursor =>
    match s.consumers c with
    | none => some (.register c cursor)
    | some _ => none
  | .read c original,.answered answer =>
    (s.consumers c).map fun consumer => .read c consumer.nextSequence original answer
  | _,_ => none

/-- The operation asks for a publication. -/
def publishes : MulticastModel.Action κ → Bool
  | .publish _ => true
  | _ => false

variable [DecidableEq κ]

variable {q : MulticastModel.Ring} {s s' : Logged κ N}

/-- Cursors of all handles, behind an update of one of them. -/
theorem cursor_update (consumers : κ → Option Consumer) (c : κ) (consumer : Consumer) :
    (fun d => (update consumers c (some consumer) d).map Consumer.nextSequence)=
      update (fun d => (consumers d).map Consumer.nextSequence) c (some consumer.nextSequence) := by
  funext d
  by_cases he : d=c
  · subst he
    rw [update_self,update_self,Option.map_some]
  · rw [update_of_ne he,update_of_ne he]

end Mutex

section Versioned

open VersionedModel VersionedInvariant VersionedRead VersionedLinearization

/-- What the versioned queue shows. -/
def versionedView (s : VersionedModel.State κ N) : View κ := ⟨s.published,cursors s,s.log⟩

/-- The call asks for a publication. -/
def callsPublish : VersionedModel.Action κ → Bool
  | .callPublish _ => true
  | _ => false

/-- Publications that have not returned. -/
def inFlight : Producer → ℕ
  | .idle => 0
  | .running _ _ _ => 1

variable [DecidableEq κ] {q : VersionedModel.Ring} {s s' : VersionedModel.State κ N}

/-- The exits of a read. -/
theorem effect_outcome {capacity begun : ℕ} {history : List (List Byte)} {cursor : κ → Option ℕ}
    {c : κ} {start : ℕ} {original : List Byte} {answer : Answer} (hcursor : cursor c=some start)
    (hpos : 1 ≤ start) (hbegun : history.length≤begun)
    (h : Outcome N capacity history begun start original answer) :
    Effect capacity history.length cursor (.read c start original answer) history.length
      (update cursor c (some answer.cursor)) := by
  have hself : update cursor c (some start)=cursor := update_eq_self_iff.mpr hcursor.symm
  cases h with
  | empty hempty =>
    rw [hself]
    exact .kept c start original _ (fun h => by cases h) hcursor rfl
  | lagged hlag => exact .lost c start original _ (fun h => by cases h) hcursor hpos hlag rfl
  | tooLarge hle hcur hshort =>
    rw [hself]
    exact .kept c start original _ (fun h => by cases h) hcursor rfl
  | success hle hcur hsize hfits =>
    exact .delivered c start original _ rfl rfl hcursor hpos hle (hbegun.trans_lt hcur) rfl
  | skipped hlag => exact .lost c start original _ (fun h => by cases h) hcursor hpos hlag rfl
  | stale hpublished hlast =>
    rw [hself]
    exact .kept c start original _ (fun h => by cases h) hcursor rfl

/-- Every access of the versioned queue shows nothing or completes a call. -/
theorem versioned_follows (h : Reachable (system q κ N) s) {a : VersionedModel.Action κ}
    (hs : step q s a=some s') : Follows q.capacity (versionedView s) (versionedView s') := by
  have hinv := reachable_inv h
  have hlen := hinv.published_eq
  rcases step_cases hinv hs with hsilent | ⟨event,hlog,hrec⟩
  · have hsame : cursors s'=cursors s := funext hsilent.cursor
    exact .inl (by rw [versionedView,versionedView,hsilent.log,hsilent.published,hsame])
  · refine .inr ⟨event,hlog,?_⟩
    unfold versionedView
    dsimp only
    cases hrec with
    | oversized payload hlarge hpublished hconsumer =>
      have hsame : cursors s'=cursors s := by
        unfold cursors
        rw [hconsumer]
      rw [hpublished,hsame]
      exact .refused payload _ (fun h => by cases h)
    | published payload hfits hpublished hconsumer hproducer =>
      have hsame : cursors s'=cursors s := by
        unfold cursors
        rw [hconsumer]
      rw [hpublished,hsame]
      exact .published payload
    | registered c hnew hpublished hconsumer =>
      rw [hpublished,cursors_update hconsumer]
      exact .registered c (by simp only [cursors,hnew]; rfl)
    | read c want original answer hpos hle hcursor hout hpublished hconsumer hrunning =>
      rw [hpublished,cursors_update hconsumer,hlen]
      exact effect_outcome hcursor hpos hinv.accepted_le_begun hout

/-- Publications are asked for. -/
theorem versioned_published_le {actions : List (VersionedModel.Action κ)}
    (h : Schedule (system q κ N) actions s) :
    s.published+inFlight s.producer≤actions.countP callsPublish := by
  induction h with
  | init => exact Nat.le_refl _
  | @step actions s s' a hr hs ih =>
    rw [List.countP_append,List.countP_singleton]
    cases a with
    | callPublish payload =>
      simp only [system,step] at hs
      split at hs <;> cases hs
      rename_i hidle
      rw [hidle] at ih
      unfold enterPublish
      split
      · exact ih.trans (Nat.le_add_right _ _)
      · exact Nat.succ_le_succ ih
    | publish =>
      simp only [system,step] at hs
      split at hs <;> cases hs
      rename_i payload sequence pc hp
      have hsequence := (reachable_inv hr.reachable).producer
      rw [hp] at hsequence ih
      cases pc with
      | storePublished =>
        have he : sequence=s.published+1 := hsequence.2.1
        subst he
        exact ih
      | _ => exact ih
    | register c =>
      simp only [system,step] at hs
      split at hs <;> cases hs
      exact ih
    | callRead c destination =>
      simp only [system,step] at hs
      split at hs <;> cases hs
      exact ih
    | read c =>
      obtain ⟨want,destination,attempt,snapshot,pc,hc,hstep⟩ := step_read hs
      have hread := readStep_of_inv (reachable_inv hr.reachable) hc
      rw [hstep] at hread
      cases hread with
      | moves attempt' snapshot' pc' hnext => exact ih
      | returns answer hout => exact ih

/-- Every interleaving of the versioned queue is a stuttering run of the
specification of the mutex-protected queue. -/
theorem versioned_refines_specification (q : VersionedModel.Ring)
    {actions : List (VersionedModel.Action κ)} {s : VersionedModel.State κ N}
    (h : Schedule (system q κ N) actions s) {total : ℕ}
    (htotal : actions.countP callsPublish≤total) :
    ∃ t,Matched (system q κ N) (label (system q κ N) versionedView) MulticastTla.init
      (MulticastTla.Next q.capacity total) (fun s t => Shows (versionedView s) t) actions s t :=
  matched_of_follows rfl
    (fun _ _ hr => (Nat.le_add_right _ _).trans (versioned_published_le hr))
    (fun _ _ _ _ hr hs => versioned_follows hr.reachable hs) h htotal

/-- A read reports an overwrite whose publication is not yet published and
keeps its cursor, the next one reports the loss, and a third one succeeds. -/
def overtakenRead : List (VersionedModel.Action Unit) :=
  pausedOverwrite++.read ()::.publish::.callRead () [0]::.read ()::.callRead () [0]::
    List.replicate 6 (.read ())

/-- The refinement at a run in which a read is overtaken. -/
theorem versioned_refines_specification_overtaken :
    ∃ s t,Schedule (system (.ofSucc _ 0) Unit 1) overtakenRead s ∧
      overtakenRead.countP callsPublish=2 ∧ successes () s.log=[2] ∧ lags () s.log=1 ∧
      Matched (system (.ofSucc _ 0) Unit 1) (label (system (.ofSucc _ 0) Unit 1) versionedView)
        MulticastTla.init (MulticastTla.Next 1 2) (fun s t => Shows (versionedView s) t)
        overtakenRead s t := by
  have hlog : (overtakenRead.foldlM (system (.ofSucc _ 0) Unit 1).step
      (system (.ofSucc _ 0) Unit 1).init).map
      (fun s => (successes () s.log,lags () s.log))=some ([2],1) := by decide +kernel
  obtain ⟨s,hrun,hshown⟩ := Option.map_eq_some_iff.mp hlog
  have hsch := schedule_of_foldlM hrun
  have hcount : overtakenRead.countP callsPublish=2 := by decide
  obtain ⟨t,ht⟩ := versioned_refines_specification (.ofSucc _ 0) hsch hcount.le
  exact ⟨s,t,hsch,hcount,congrArg Prod.fst hshown,congrArg Prod.snd hshown,ht⟩

end Versioned

end Line64.MulticastSpecification
