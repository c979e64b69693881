import Line64.VersionedRead
import Mathlib.Data.List.Sort

/-!
# Losses of versioned consumers

The whole run of one consumer beside the producer and all other consumers:
what it reads increases, its cursor only moves forward, every sequence it
passes was delivered or had left the window, and a loss is reported only
after the producer has re-entered the cell. A consumer whose cell is not
re-entered in time reads consecutive sequences from its registration on.
-/

namespace Line64.VersionedConsumers

open Function Result Transition RetainedHistory VersionedModel VersionedInvariant VersionedRead

/-- Both loss reports. -/
def Lossy (status : QueueStatus) : Prop := status=.consumerLagged ∨ status=.overwritten

section Definitions

variable {κ : Type} {N : ℕ}

/-- Consumer that made a call. -/
def caller : Event κ → Option κ
  | .publish _ _ => none
  | .register c _ => some c
  | .read c _ _ _ => some c

/-- A sequence was passed by a loss report and has left the window. -/
def Lost (capacity : ℕ) (s : State κ N) (c : κ) (sequence : ℕ) : Prop :=
  sequence+capacity ≤ s.published ∧ ∃ start original answer,.read c start original answer ∈ s.log ∧
    Lossy answer.result.status ∧ start ≤ sequence ∧ sequence<answer.cursor

/-- The producer has not re-entered the cell of the cursor. -/
def InTime (q : Ring) (c : κ) (s : State κ N) (_ : Action κ) : Prop :=
  ∀ cursor ∈ (s.consumer c).cursor,s.begun<cursor+q.capacity

instance (q : Ring) (c : κ) (s : State κ N) (a : Action κ) : Decidable (InTime q c s a) :=
  inferInstanceAs (Decidable (∀ cursor ∈ (s.consumer c).cursor,s.begun<cursor+q.capacity))

variable [DecidableEq κ]

/-- Sequence delivered to a consumer by a call. -/
def delivered (c : κ) : Event κ → Option ℕ
  | .read d _ _ answer =>
    if d=c ∧ answer.result.status=.success then some answer.result.sequence else none
  | _ => none

/-- Sequences delivered to a consumer, oldest first. -/
def successes (c : κ) (log : List (Event κ)) : List ℕ := log.filterMap (delivered c)

/-- The run of one consumer up to a state. -/
structure Accounted (q : Ring) (s : State κ N) (c : κ) : Prop where
  /-- Delivered sequences strictly increase. -/
  increasing : (successes c s.log).Pairwise (·<·)
  /-- Delivered sequences lie behind the boundary at the registration. -/
  future : ∀ (before after : List (Event κ)) (first : ℕ),
    s.log=before++.register c first::after → first=(accepted before).length+1 ∧
      ∀ sequence ∈ successes c s.log,(accepted before).length<sequence
  /-- The cursor is at most the next publication. -/
  bounded : ∀ cursor,(s.consumer c).cursor=some cursor → cursor ≤ s.published+1
  /-- Every passed sequence was delivered or lost. -/
  passed : ∀ first cursor sequence,.register c first ∈ s.log →
    (s.consumer c).cursor=some cursor → first ≤ sequence → sequence<cursor →
    sequence ∈ successes c s.log ∨ Lost q.capacity s c sequence

/-- One step as one consumer sees it. -/
structure Advanced (q : Ring) (s s' : State κ N) (c : κ) : Prop where
  /-- The cursor never moves back. -/
  forward : ∀ cursor,(s.consumer c).cursor=some cursor →
    ∃ cursor',(s'.consumer c).cursor=some cursor' ∧ cursor≤cursor'
  /-- A passed sequence is delivered by the returning call, or has left the
  window and the call reports a loss. -/
  passed : ∀ cursor cursor' sequence,(s.consumer c).cursor=some cursor →
    (s'.consumer c).cursor=some cursor' → cursor ≤ sequence → sequence<cursor' →
    ∃ original answer,s'.log=s.log++[.read c cursor original answer] ∧
      ((answer.result.status=.success ∧ answer.result.sequence=sequence) ∨
        (Lossy answer.result.status ∧ sequence+q.capacity ≤ s.published))
  /-- A loss is reported only when a later publication has begun to write the
  cell of the cursor. -/
  real : ∀ (start : ℕ) (original : List Byte) (answer : Answer),
    s'.log=s.log++[.read c start original answer] → Lossy answer.result.status →
    ∃ k,1≤k ∧ start+k*q.capacity ≤ s.begun ∧ index q (start+k*q.capacity)=index q start

/-- What the run of a consumer maintains. -/
structure Tracked (capacity : ℕ) (s : State κ N) (c : κ) : Prop where
  /-- Nothing is delivered before the registration. -/
  unread : (s.consumer c).cursor=none → successes c s.log=[]
  /-- Delivered sequences are behind the cursor. -/
  behind : ∀ cursor,(s.consumer c).cursor=some cursor →
    ∀ sequence ∈ successes c s.log,sequence<cursor
  /-- The registration comes first. -/
  registered : ∀ first,.register c first ∈ s.log →
    (∃ cursor,(s.consumer c).cursor=some cursor ∧ first≤cursor) ∧
      ∀ sequence ∈ successes c s.log,first ≤ sequence
  /-- Delivered sequences strictly increase. -/
  increasing : (successes c s.log).Pairwise (·<·)
  /-- Every passed sequence was delivered or lost. -/
  passed : ∀ first cursor sequence,.register c first ∈ s.log →
    (s.consumer c).cursor=some cursor → first ≤ sequence → sequence<cursor →
    sequence ∈ successes c s.log ∨ Lost capacity s c sequence

end Definitions

/-- An exit delivers the cursor and moves past it, or passes only sequences
that have left the window. -/
theorem passes_of_outcome {N capacity begun want : ℕ} {history : List (List Byte)}
    {original : List Byte} {answer : Answer} (hpos : 1≤want)
    (h : Outcome N capacity history begun want original answer) :
    (answer.result.status=.success ∧ answer.result.sequence=want ∧ answer.cursor=want+1) ∨
    (answer.result.status≠.success ∧ want≤answer.cursor ∧ ∀ sequence,want ≤ sequence →
      sequence<answer.cursor → Lossy answer.result.status ∧
        sequence+capacity≤history.length) := by
  have hleft : ∀ sequence,want ≤ sequence → sequence<oldestRetained capacity history.length →
      sequence+capacity≤history.length := by
    intro sequence hle hlt
    exact (lt_oldestRetained_iff (by omega)).mp hlt
  cases h with
  | empty hempty => exact .inr ⟨nofun,le_rfl,fun _ hle hlt => absurd hle (Nat.not_le.mpr hlt)⟩
  | lagged hlag =>
    have hlt := (lt_oldestRetained_iff hpos).mpr hlag
    exact .inr ⟨nofun,hlt.le,fun sequence hle hpass => ⟨.inl rfl,hleft sequence hle hpass⟩⟩
  | tooLarge hle hcur hshort =>
    exact .inr ⟨nofun,le_rfl,fun _ hle hlt => absurd hle (Nat.not_le.mpr hlt)⟩
  | success hle hcur hsize hfits => exact .inl ⟨rfl,rfl,rfl⟩
  | skipped hlag =>
    have hlt := (lt_oldestRetained_iff hpos).mpr hlag
    exact .inr ⟨nofun,hlt.le,fun sequence hle hpass => ⟨.inr rfl,hleft sequence hle hpass⟩⟩
  | stale hpublished hbegun =>
    exact .inr ⟨nofun,le_rfl,fun _ hle hlt => absurd hle (Nat.not_le.mpr hlt)⟩

/-- A loss is reported only after the next lap has begun. -/
theorem begun_of_lossy {N capacity begun want : ℕ} {history : List (List Byte)}
    {original : List Byte} {answer : Answer} (hbegun : history.length≤begun)
    (h : Outcome N capacity history begun want original answer)
    (hlossy : Lossy answer.result.status) : want+capacity≤begun := by
  cases h with
  | lagged hlag => omega
  | skipped hlag => omega
  | stale hpublished hlast => omega
  | _ => rcases hlossy with hstatus | hstatus <;> cases hstatus

/-- A lost sequence stays lost. -/
theorem Lost.mono {κ : Type} {N capacity sequence : ℕ} {s s' : State κ N} {c : κ}
    (h : Lost capacity s c sequence)
    (hpublished : s.published ≤ s'.published) (hlog : s.log⊆s'.log) :
    Lost capacity s' c sequence := by
  obtain ⟨hleft,start,original,answer,hmem,hlossy,hspan⟩ := h
  exact ⟨hleft.trans hpublished,start,original,answer,hlog hmem,hlossy,hspan⟩

section Run

variable {κ : Type} {N : ℕ} [DecidableEq κ] {s s' : State κ N} {c : κ} {capacity : ℕ}

/-- Successes are collected call by call. -/
theorem successes_append (c : κ) (log : List (Event κ)) (event : Event κ) :
    successes c (log++[event])=successes c log++(delivered c event).toList := by
  rw [successes,List.filterMap_append]
  cases h : delivered c event <;> simp [successes,h]

/-- A call of another thread delivers nothing. -/
theorem delivered_of_caller {event : Event κ} (h : caller event≠some c) :
    delivered c event=none := by
  cases event with
  | read d start original answer =>
    have hd : d≠c := fun he => h (congrArg some he)
    exact if_neg (fun hboth => hd hboth.1)
  | _ => rfl

/-- A step that completes no call of the consumer keeps its account. -/
theorem Tracked.frame (h : Tracked capacity s c) (hsuccesses : successes c s'.log=successes c s.log)
    (hregister : ∀ first,.register c first ∈ s'.log → .register c first ∈ s.log)
    (hlog : s.log⊆s'.log) (hcursor : (s'.consumer c).cursor=(s.consumer c).cursor)
    (hpublished : s.published ≤ s'.published) : Tracked capacity s' c where
  unread := by
    rw [hsuccesses,hcursor]
    exact h.unread
  behind := by
    rw [hsuccesses,hcursor]
    exact h.behind
  registered := by
    rw [hsuccesses,hcursor]
    exact fun first hmem => h.registered first (hregister first hmem)
  increasing := by
    rw [hsuccesses]
    exact h.increasing
  passed := by
    intro first cursor sequence hmem hat hle hlt
    rw [hcursor] at hat
    rw [hsuccesses]
    have hpast := h.passed first cursor sequence (hregister first hmem) hat hle hlt
    exact hpast.imp_right fun hlost => hlost.mono hpublished hlog

/-- A completed call of another thread keeps the account. -/
theorem Tracked.other (h : Tracked capacity s c) {event : Event κ}
    (hlog : s'.log=s.log++[event]) (hcaller : caller event≠some c)
    (hcursor : (s'.consumer c).cursor=(s.consumer c).cursor)
    (hpublished : s.published ≤ s'.published) : Tracked capacity s' c := by
  refine h.frame ?_ ?_ ?_ hcursor hpublished
  · rw [hlog,successes_append,delivered_of_caller hcaller]
    exact List.append_nil _
  · intro first hmem
    rw [hlog,List.mem_append,List.mem_singleton] at hmem
    rcases hmem with hold | hnew
    · exact hold
    · rw [← hnew] at hcaller
      exact absurd rfl hcaller
  · rw [hlog]
    exact List.subset_append_left _ _

/-- A registration opens the account. -/
theorem Tracked.register (h : Tracked capacity s c) {first : ℕ}
    (hlog : s'.log=s.log++[.register c first]) (hnone : (s.consumer c).cursor=none)
    (hcursor : (s'.consumer c).cursor=some first) : Tracked capacity s' c := by
  have hsuccesses : successes c s'.log=[] := by
    rw [hlog,successes_append,h.unread hnone]
    rfl
  have hregister : ∀ first',.register c first' ∈ s'.log → first'=first := by
    intro first' hmem
    rw [hlog,List.mem_append,List.mem_singleton] at hmem
    rcases hmem with hold | hnew
    · obtain ⟨⟨cursor,hsome,-⟩,-⟩ := h.registered first' hold
      rw [hnone] at hsome
      cases hsome
    · cases hnew
      rfl
  refine ⟨fun _ => hsuccesses,?_,?_,?_,?_⟩
  · rw [hsuccesses]
    exact fun _ _ _ hmem => absurd hmem List.not_mem_nil
  · intro first' hmem
    rw [hsuccesses]
    exact ⟨⟨first,hcursor,(hregister first' hmem).le⟩,fun _ hnil => absurd hnil List.not_mem_nil⟩
  · rw [hsuccesses]
    exact .nil
  · intro first' cursor sequence hmem hat hle hlt
    have hsame := hregister first' hmem
    rw [hcursor] at hat
    cases hat
    omega

/-- The account after a move of the cursor that delivers at most the cursor
itself and loses the other passed sequences. -/
theorem Tracked.move (h : Tracked capacity s c) {want cursor : ℕ} {next : Option ℕ}
    (hregister : ∀ first,.register c first ∈ s'.log → .register c first ∈ s.log)
    (hlog : s.log⊆s'.log) (hpublished : s.published ≤ s'.published)
    (hold : (s.consumer c).cursor=some want) (hnew : (s'.consumer c).cursor=some cursor)
    (hge : want≤cursor) (hsuccesses : successes c s'.log=successes c s.log++next.toList)
    (hnext : ∀ sequence ∈ next,sequence=want ∧ want<cursor)
    (hpass : ∀ sequence,want ≤ sequence → sequence<cursor →
      sequence ∈ next ∨ Lost capacity s' c sequence) : Tracked capacity s' c := by
  have hmem : ∀ sequence ∈ successes c s'.log,
      sequence ∈ successes c s.log ∨ (sequence=want ∧ want<cursor) := by
    intro sequence hs
    rw [hsuccesses,List.mem_append,Option.mem_toList] at hs
    exact hs.imp_right (hnext sequence)
  have hfirst : ∀ first,.register c first ∈ s.log → first≤want := by
    intro first hr
    obtain ⟨⟨cursor',hsome,hle⟩,-⟩ := h.registered first hr
    rw [hold] at hsome
    cases hsome
    exact hle
  refine ⟨?_,?_,?_,?_,?_⟩
  · rw [hnew]
    exact nofun
  · intro cursor' hat sequence hs
    rw [hnew] at hat
    cases hat
    rcases hmem sequence hs with hin | ⟨rfl,hlt⟩
    · have hlt := h.behind want hold sequence hin
      omega
    · exact hlt
  · intro first hr
    have hin := hregister first hr
    have hle := hfirst first hin
    refine ⟨⟨cursor,hnew,hle.trans hge⟩,?_⟩
    intro sequence hs
    rcases hmem sequence hs with hpast | ⟨rfl,-⟩
    · exact (h.registered first hin).2 sequence hpast
    · exact hle
  · rw [hsuccesses,List.pairwise_append]
    refine ⟨h.increasing,?_,?_⟩
    · cases next with
      | none => exact .nil
      | some sequence => exact List.pairwise_singleton _ _
    · intro earlier hin sequence hs
      rw [Option.mem_toList] at hs
      have hlt := h.behind want hold earlier hin
      have hlast := hnext sequence hs
      omega
  · intro first cursor' sequence hr hat hle hlt
    rw [hnew] at hat
    cases hat
    rw [hsuccesses,List.mem_append,Option.mem_toList]
    rcases Nat.lt_or_ge sequence want with hbefore | hafter
    · have hpast := h.passed first want sequence (hregister first hr) hold hle hbefore
      exact hpast.imp .inl fun hlost => hlost.mono hpublished hlog
    · exact (hpass sequence hafter hlt).imp_left .inr

/-- A completed read of the consumer keeps its account. -/
theorem Tracked.read (h : Tracked capacity s c) {want begun : ℕ} {original : List Byte}
    {answer : Answer} {history : List (List Byte)} (hpos : 1≤want)
    (hlog : s'.log=s.log++[.read c want original answer])
    (hold : (s.consumer c).cursor=some want) (hnew : (s'.consumer c).cursor=some answer.cursor)
    (hlen : history.length=s'.published) (hpublished : s'.published=s.published)
    (hout : Outcome N capacity history begun want original answer) :
    Tracked capacity s' c := by
  have hsub : s.log⊆s'.log := by
    rw [hlog]
    exact List.subset_append_left _ _
  have hlast : .read c want original answer ∈ s'.log := by
    rw [hlog]
    exact List.mem_append_right _ (List.mem_singleton.mpr rfl)
  have hregister : ∀ first,.register c first ∈ s'.log → .register c first ∈ s.log := by
    intro first hmem
    rw [hlog,List.mem_append,List.mem_singleton] at hmem
    exact hmem.resolve_right nofun
  have hsuccesses := successes_append c s.log (.read c want original answer)
  rw [← hlog] at hsuccesses
  rcases passes_of_outcome hpos hout with ⟨hstatus,hsequence,hcursor⟩ | ⟨hstatus,hge,hpass⟩
  · have hdelivered : delivered c (.read c want original answer)=some want := by
      rw [delivered,if_pos ⟨rfl,hstatus⟩,hsequence]
    rw [hdelivered] at hsuccesses
    rw [hcursor] at hnew
    refine h.move hregister hsub hpublished.ge hold hnew (Nat.le_succ want) hsuccesses ?_ ?_
    · intro sequence hs
      cases hs
      exact ⟨rfl,Nat.lt_succ_self want⟩
    · intro sequence hle hlt
      have hsame : want=sequence := by omega
      exact .inl (congrArg some hsame)
  · have hdelivered : delivered c (.read c want original answer)=none :=
      if_neg fun hboth => hstatus hboth.2
    rw [hdelivered] at hsuccesses
    refine h.move hregister hsub hpublished.ge hold hnew hge hsuccesses nofun ?_
    intro sequence hle hlt
    have hleft := hpass sequence hle hlt
    rw [hlen] at hleft
    exact .inr ⟨hleft.2,want,original,answer,hlast,hleft.1,hle,hlt⟩

/-- Every consumer is tracked in every reachable state. -/
theorem tracked_of_reachable {q : Ring} (h : Reachable (system q κ N) s) (c : κ) :
    Tracked q.capacity s c := by
  refine Reachable.invariant (I:=fun s => Tracked q.capacity s c) ?_ ?_ h
  · exact ⟨fun _ => rfl,nofun,fun _ hmem => absurd hmem List.not_mem_nil,.nil,nofun⟩
  intro s a s' hr hi hstep
  have hinv := reachable_inv hr
  have hlen := hinv.published_eq
  rcases step_cases hinv hstep with hsilent | ⟨event,hlog,hrec⟩
  · have hsame := hsilent.log
    refine hi.frame ?_ ?_ ?_ (hsilent.cursor c) hsilent.published.ge
    · rw [hsame]
    · rw [hsame]
      exact fun _ hmem => hmem
    · rw [hsame]
      exact List.Subset.refl _
  · cases hrec with
    | oversized payload hlarge hpublished hconsumer =>
      exact hi.other hlog nofun (by rw [hconsumer]) hpublished.ge
    | published payload hfits hpublished hconsumer hproducer =>
      exact hi.other hlog nofun (by rw [hconsumer]) (by omega)
    | registered d hnew hpublished hconsumer =>
      by_cases hd : d=c
      · subst hd
        refine hi.register hlog ?_ ?_
        · rw [hnew]
          rfl
        · rw [hconsumer,update_self]
          rfl
      · have hcursor : (s'.consumer c).cursor=(s.consumer c).cursor := by
          rw [hconsumer,update_of_ne (Ne.symm hd)]
        exact hi.other hlog (fun he => hd (Option.some.inj he)) hcursor hpublished.ge
    | read d want original answer hpos hle hcursor hout hpublished hconsumer hrunning =>
      by_cases hd : d=c
      · subst hd
        have hnew : (s'.consumer d).cursor=some answer.cursor := by
          rw [hconsumer,update_self]
          rfl
        exact hi.read hpos hlog hcursor hnew (by omega) hpublished hout
      · have hsame : (s'.consumer c).cursor=(s.consumer c).cursor := by
          rw [hconsumer,update_of_ne (Ne.symm hd)]
        exact hi.other hlog (fun he => hd (Option.some.inj he)) hsame hpublished.ge

/-- A registration starts behind the boundary of its own instant. -/
theorem boundary_of_register {q : Ring} (h : Reachable (system q κ N) s) :
    ∀ (before after : List (Event κ)) (first : ℕ),
      s.log=before++.register c first::after → first=(accepted before).length+1 := by
  refine Reachable.invariant (I:=fun s => ∀ (before after : List (Event κ)) (first : ℕ),
    s.log=before++.register c first::after → first=(accepted before).length+1) ?_ ?_ h
  · intro before after first hlog
    exact absurd hlog.symm (List.append_ne_nil_of_right_ne_nil _ (List.cons_ne_nil _ _))
  intro s a s' hr hi hstep before after first hlog
  have hinv := reachable_inv hr
  have hlen := hinv.published_eq
  rcases step_cases hinv hstep with hsilent | ⟨event,hevent,hrec⟩
  · rw [hsilent.log] at hlog
    exact hi before after first hlog
  · rw [hevent] at hlog
    rcases List.eq_nil_or_concat' after with rfl | ⟨after',last,rfl⟩
    · have hboth := List.append_inj' hlog rfl
      rw [List.singleton_inj.mp hboth.2] at hrec
      cases hrec
      rw [← hboth.1,hlen]
    · rw [← List.cons_append,← List.append_assoc] at hlog
      exact hi before after' first (List.append_inj' hlog rfl).1

/-- A reported loss is real. -/
theorem begun_of_log {q : Ring} {a : Action κ} (hr : Reachable (system q κ N) s)
    (hs : step q s a=some s') {start : ℕ} {original : List Byte} {answer : Answer}
    (hlog : s'.log=s.log++[.read c start original answer]) (hlossy : Lossy answer.result.status) :
    1 ≤ start ∧ (s.consumer c).cursor=some start ∧ start+q.capacity ≤ s.begun := by
  have hinv := reachable_inv hr
  cases recorded_of_log hinv hs hlog with
  | read _ _ _ _ hpos hle hcursor hout hpublished hconsumer hrunning =>
    exact ⟨hpos,hcursor,begun_of_lossy hinv.accepted_le_begun hout hlossy⟩

/-- A step that keeps a cursor passes nothing. -/
theorem advanced_of_cursor {q : Ring} {a : Action κ} (hr : Reachable (system q κ N) s)
    (hs : step q s a=some s')
    (hmove : ∀ cursor,(s.consumer c).cursor=some cursor →
      (s'.consumer c).cursor=some cursor ∨ ∃ original answer,
        s'.log=s.log++[.read c cursor original answer] ∧
        (s'.consumer c).cursor=some answer.cursor ∧ 1≤cursor ∧
        Outcome N q.capacity (accepted s.log) s.begun cursor original answer) :
    Advanced q s s' c where
  forward := by
    intro cursor hcursor
    rcases hmove cursor hcursor with hsame | ⟨original,answer,-,hnew,hpos,hout⟩
    · exact ⟨cursor,hsame,le_rfl⟩
    · refine ⟨answer.cursor,hnew,?_⟩
      rcases passes_of_outcome hpos hout with ⟨-,-,hnext⟩ | ⟨-,hge,-⟩
      · omega
      · exact hge
  passed := by
    intro cursor cursor' sequence hcursor hcursor' hle hlt
    have hlen := (reachable_inv hr).published_eq
    rcases hmove cursor hcursor with hsame | ⟨original,answer,hlog,hnew,hpos,hout⟩
    · rw [hsame] at hcursor'
      cases hcursor'
      omega
    · rw [hnew] at hcursor'
      cases hcursor'
      refine ⟨original,answer,hlog,?_⟩
      rcases passes_of_outcome hpos hout with ⟨hstatus,hsequence,hnext⟩ | ⟨-,-,hpass⟩
      · exact .inl ⟨hstatus,by omega⟩
      · rw [hlen]
        exact .inr (hpass sequence hle hlt)
  real := by
    intro start original answer hlog hlossy
    obtain ⟨hpos,-,hbegun⟩ := begun_of_log hr hs hlog hlossy
    refine ⟨1,le_rfl,by omega,?_⟩
    unfold index
    rw [one_mul,Nat.sub_add_comm hpos,Nat.add_mod_right]

/-- Every step of every thread moves every cursor forward only. -/
theorem advanced_of_step {q : Ring} {a : Action κ} (hr : Reachable (system q κ N) s)
    (hs : step q s a=some s') (c : κ) : Advanced q s s' c := by
  refine advanced_of_cursor hr hs ?_
  intro cursor hcursor
  rcases step_cases (reachable_inv hr) hs with hsilent | ⟨event,hlog,hrec⟩
  · exact .inl ((hsilent.cursor c).trans hcursor)
  · rcases hrec.cursor_cases hcursor with hsame | ⟨original,answer,rfl,hnew,hpos,hout⟩
    · exact .inl hsame
    · exact .inr ⟨original,answer,hlog,hnew,hpos,hout⟩

/-- A consumer in time reports no loss. -/
theorem not_lossy_of_inTime {q : Ring} (h : Guarded (system q κ N) (InTime q c) s) :
    ∀ (start : ℕ) (original : List Byte) (answer : Answer),
      .read c start original answer ∈ s.log → ¬Lossy answer.result.status := by
  refine Guarded.invariant (I:=fun s => ∀ (start : ℕ) (original : List Byte) (answer : Answer),
    .read c start original answer ∈ s.log → ¬Lossy answer.result.status) ?_ ?_ h
  · exact fun _ _ _ hmem => absurd hmem List.not_mem_nil
  intro s a s' hr hi htime hs start original answer hmem hlossy
  rcases step_cases (reachable_inv hr) hs with hsilent | ⟨event,hlog,hrec⟩
  · rw [hsilent.log] at hmem
    exact hi start original answer hmem hlossy
  · rw [hlog,List.mem_append,List.mem_singleton] at hmem
    rcases hmem with hold | rfl
    · exact hi start original answer hold hlossy
    · obtain ⟨-,hcursor,hbegun⟩ := begun_of_log hr hs hlog hlossy
      have hlt := htime start hcursor
      omega

/-- A strictly increasing list of all numbers of an interval. -/
theorem eq_range_of_increasing {first last : ℕ} {numbers : List ℕ}
    (hincreasing : numbers.Pairwise (·<·)) (hmem : ∀ n,n ∈ numbers ↔ first≤n ∧ n<last) :
    numbers=List.range' first (last-first) := by
  have hrange : (List.range' first (last-first)).Pairwise (·<·) := List.pairwise_lt_range'
  have hperm : numbers.Perm (List.range' first (last-first)) := by
    rw [List.perm_ext_iff_of_nodup hincreasing.nodup hrange.nodup]
    intro n
    rw [hmem,List.mem_range'_1]
    omega
  exact hperm.eq_of_pairwise (fun _ _ _ _ hab hba => absurd hab (Nat.lt_asymm hba))
    hincreasing hrange

/-- A consumer in time has read every sequence from its registration on. -/
theorem consecutive_of_inTime {q : Ring} (h : Guarded (system q κ N) (InTime q c) s) {first : ℕ}
    (hregister : .register c first ∈ s.log) :
    ∃ cursor,(s.consumer c).cursor=some cursor ∧
      successes c s.log=List.range' first (cursor-first) := by
  have htracked := tracked_of_reachable h.reachable c
  have hsound := not_lossy_of_inTime h
  obtain ⟨⟨cursor,hcursor,hle⟩,hfirst⟩ := htracked.registered first hregister
  refine ⟨cursor,hcursor,eq_range_of_increasing htracked.increasing ?_⟩
  intro sequence
  constructor
  · intro hmem
    exact ⟨hfirst sequence hmem,htracked.behind cursor hcursor sequence hmem⟩
  · rintro ⟨hge,hlt⟩
    rcases htracked.passed first cursor sequence hregister hcursor hge hlt with hread | hlost
    · exact hread
    · obtain ⟨-,start,original,answer,hmem,hlossy,-⟩ := hlost
      exact absurd hlossy (hsound start original answer hmem)

/-- Losses of a versioned consumer are real, reported and counted: its whole
run is accounted for in every reachable state, every step moves its cursor
forward only, and a consumer in time reads consecutive sequences. -/
theorem versioned_losses_real (q : Ring) (c : κ) :
    (∀ s : State κ N,Reachable (system q κ N) s → Accounted q s c ∧
      ∀ (a : Action κ) (s' : State κ N),step q s a=some s' → Advanced q s s' c) ∧
    ∀ (s : State κ N) (first : ℕ),Guarded (system q κ N) (InTime q c) s →
      .register c first ∈ s.log → ∃ cursor,(s.consumer c).cursor=some cursor ∧
        successes c s.log=List.range' first (cursor-first) := by
  refine ⟨?_,fun s first hs hregister => consecutive_of_inTime hs hregister⟩
  intro s hs
  have hinv := reachable_inv hs
  have htracked := tracked_of_reachable hs c
  refine ⟨⟨htracked.increasing,?_,?_,htracked.passed⟩,fun a s' hstep => advanced_of_step hs hstep c⟩
  · intro before after first hlog
    have hboundary := boundary_of_register hs before after first hlog
    have hmem : .register c first ∈ s.log := by
      rw [hlog]
      exact List.mem_append_right _ List.mem_cons_self
    refine ⟨hboundary,?_⟩
    intro sequence hin
    have hge := (htracked.registered first hmem).2 sequence hin
    omega
  · intro cursor hcursor
    have hok := hinv.consumer c
    cases hc : s.consumer c with
    | unregistered =>
      rw [hc] at hcursor
      cases hcursor
    | idle nextSequence =>
      rw [hc] at hok hcursor
      cases hcursor
      exact hok.2
    | running nextSequence destination attempt snapshot pc =>
      rw [hc] at hok hcursor
      cases hcursor
      exact hok.2.1

end Run

/-- Two publications over one cell, and a read up to its last access. -/
def lappedRead : List (Action Unit) :=
  .register ()::.callPublish [1]::List.replicate 7 .publish++
  .callPublish [2]::List.replicate 7 .publish++[.callRead () [0]]

/-- The same publications, each read before the next one. -/
def promptReads : List (Action Unit) :=
  .register ()::.callPublish [1]::List.replicate 7 .publish++
  .callRead () [0]::List.replicate 6 (.read ())++
  .callPublish [2]::List.replicate 7 .publish++.callRead () [0]::List.replicate 6 (.read ())

/-- Losses at a lapped consumer, and at one that reads in time. -/
theorem versioned_losses_real_lapped :
    (Accounted (.ofSucc _ 0) (run (system (.ofSucc _ 0) Unit 1) lappedRead) () ∧
      Advanced (.ofSucc _ 0) (run (system (.ofSucc _ 0) Unit 1) lappedRead)
        (run (system (.ofSucc _ 0) Unit 1) (lappedRead++[.read ()])) ()) ∧
    ∃ cursor,((run (system (.ofSucc _ 0) Unit 1) promptReads).consumer ()).cursor=some cursor ∧
      successes () (run (system (.ofSucc _ 0) Unit 1) promptReads).log=
        List.range' 1 (cursor-1) := by
  have hall := versioned_losses_real (N:=1) (.ofSucc _ 0) ()
  have hlapped := hall.1 _ (run_reachable (system (.ofSucc _ 0) Unit 1) lappedRead)
  have hstep := step_run (system (.ofSucc _ 0) Unit 1) lappedRead (.read ()) (by decide +kernel)
  have hprompt : Guarded (system (.ofSucc _ 0) Unit 1) (InTime (.ofSucc _ 0) ())
      (run (system (.ofSucc _ 0) Unit 1) promptReads) :=
    runFrom_guarded .init (by decide +kernel)
  exact ⟨⟨hlapped.1,hlapped.2 (.read ()) _ hstep⟩,hall.2 _ 1 hprompt (by decide +kernel)⟩

/-- The lapped consumer is told so and resumes behind the lost sequence. -/
example : (run (system (.ofSucc _ 0) Unit 1) (lappedRead++[.read ()])).log=
    [.register () 1,.publish [1] ⟨.success,1⟩,.publish [2] ⟨.success,2⟩,
      .read () 1 [0] ⟨2,[0],⟨.consumerLagged,0,2⟩⟩] := by
  decide +kernel

end Line64.VersionedConsumers
