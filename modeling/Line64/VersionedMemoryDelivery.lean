import Line64.VersionedConsumers
import Line64.VersionedMemoryRead

/-!
# Intact delivery on the memory orders of the versioned queue

The fences and orders of the code suffice for what the queue promises: a
read that succeeds returns exactly the publication at its cursor, never a
mixture and never another generation. Each read starts at the cursor that the
last call left in the handle, and the cursor only moves forward; it skips
publications that have begun to be overwritten only, and a read reports a
loss only then. No thread ever waits for another one.
-/

namespace Line64.VersionedMemoryDelivery

open Function Result FixedMessageAccess Transition RetainedHistory ReleaseAcquire SingleWriter
open VersionedModel (Ring PublishPc Producer ReadPc Consumer Event index)
open VersionedInvariant (accepted acceptedPayload accepted_append accepted_append_none)
open VersionedDelivery (Intact)
open VersionedConsumers (Lossy successes delivered successes_append)
open VersionedMemoryModel VersionedMemoryPast VersionedMemoryRead

variable {κ : Type} {N : ℕ}

/-- What a completed call has to keep, given the accepted payloads and the
number of publications that have begun. -/
def Kept (N capacity : ℕ) (history : List (List Byte)) (begun : ℕ) : Event κ → Prop
  | .publish _ _ => True
  | .register _ cursor => 1≤cursor ∧ cursor≤history.length+1
  | .read c start original answer =>
    Intact N history (.read c start original answer) ∧
    start ≤ answer.cursor ∧ answer.cursor≤history.length+1 ∧
    (answer.result.status=.success → answer.cursor=start+1) ∧
    (Lossy answer.result.status → start+capacity≤begun) ∧
    ∀ n,start≤n → n<answer.cursor → (answer.result.status=.success ∧ n=start) ∨
      (Lossy answer.result.status ∧ n+capacity≤begun)

/-- Later publications change nothing. -/
theorem Kept.later {capacity begun begun' : ℕ} {history : List (List Byte)} {event : Event κ}
    (h : Kept N capacity history begun event) (added : List (List Byte)) (hle : begun≤begun') :
    Kept N capacity (history++added) begun' event := by
  cases event with
  | publish payload result => trivial
  | register c cursor =>
    obtain ⟨hpos,hcursor⟩ := h
    exact ⟨hpos,by rw [List.length_append]; omega⟩
  | read c start original answer =>
    obtain ⟨hintact,hge,hcursor,hnext,hlost,hskip⟩ := h
    refine ⟨hintact.append added,hge,by rw [List.length_append]; omega,hnext,
      fun hs => (hlost hs).trans hle,?_⟩
    intro n hn hlt
    rcases hskip n hn hlt with hdone | ⟨hlossy,hover⟩
    · exact .inl hdone
    · exact .inr ⟨hlossy,hover.trans hle⟩

/-- A cursor that has left the window of a boundary moves over lost
publications only. -/
theorem window_moves {capacity begun published want length : ℕ} (hcap : 0<capacity) (hpos : 1≤want)
    (hpub : published≤length) (hbegun : length≤begun) (hlag : want+capacity≤published) :
    want≤oldestRetained capacity published ∧ oldestRetained capacity published≤length+1 ∧
      want+capacity≤begun ∧
      ∀ n,want≤n → n<oldestRetained capacity published → n+capacity≤begun := by
  have hold := oldestRetained_le hcap published
  refine ⟨((lt_oldestRetained_iff hpos).mpr hlag).le,by omega,by omega,?_⟩
  intro n hn hlt
  have hout := (lt_oldestRetained_iff (hpos.trans hn)).mp hlt
  omega

/-- Every exit of a read is kept. -/
theorem kept_of_outcome {capacity begun want : ℕ} {history : List (List Byte)}
    {original : List Byte} {answer : Answer} (c : κ) (hcap : 0<capacity) (hpos : 1≤want)
    (hle : want≤history.length+1) (hbegun : history.length≤begun)
    (h : Outcome N capacity history begun want original answer) :
    Kept N capacity history begun (.read c want original answer) := by
  have hstays : ∀ {status : QueueStatus} n,want≤n → n<want →
      (status=.success ∧ n=want) ∨ (Lossy status ∧ n+capacity≤begun) := fun n hn hlt => by omega
  cases h with
  | empty =>
    exact ⟨⟨(fun hs => by cases hs),(fun hs => by cases hs),fun _ => rfl⟩,le_refl _,hle,
      (fun hs => by cases hs),(fun hs => by rcases hs with hs | hs <;> cases hs),hstays⟩
  | lagged published hpub hlag =>
    obtain ⟨hge,hnext,hlost,hskip⟩ := window_moves hcap hpos hpub hbegun hlag
    exact ⟨⟨(fun hs => by cases hs),(fun hs => by cases hs),fun _ => rfl⟩,hge,hnext,
      (fun hs => by cases hs),fun _ => hlost,fun n hn hlt => .inr ⟨.inl rfl,hskip n hn hlt⟩⟩
  | tooLarge hwant hshort =>
    have hget := getElem?_payloadOf hpos hwant
    exact ⟨⟨(fun hs => by cases hs),fun _ => ⟨rfl,_,hpos,hget,hshort⟩,fun _ => rfl⟩,le_refl _,hle,
      (fun hs => by cases hs),(fun hs => by rcases hs with hs | hs <;> cases hs),hstays⟩
  | success hwant hsize hfits =>
    have hget := getElem?_payloadOf hpos hwant
    refine ⟨⟨fun _ => ⟨rfl,_,hpos,hget,hsize,rfl,hfits,rfl⟩,(fun hs => by cases hs),
      fun hne => absurd rfl hne⟩,Nat.le_succ _,Nat.succ_le_succ hwant,fun _ => rfl,
      (fun hs => by rcases hs with hs | hs <;> cases hs),?_⟩
    intro n hn hlt
    exact .inl ⟨rfl,Nat.le_antisymm (Nat.le_of_lt_succ hlt) hn⟩
  | skipped published hpub hlag =>
    obtain ⟨hge,hnext,hlost,hskip⟩ := window_moves hcap hpos hpub hbegun hlag
    exact ⟨⟨(fun hs => by cases hs),(fun hs => by cases hs),fun _ => rfl⟩,hge,hnext,
      (fun hs => by cases hs),fun _ => hlost,fun n hn hlt => .inr ⟨.inr rfl,hskip n hn hlt⟩⟩
  | stale hover =>
    exact ⟨⟨(fun hs => by cases hs),(fun hs => by cases hs),fun _ => rfl⟩,le_refl _,hle,
      (fun hs => by cases hs),fun _ => hover,hstays⟩

/-- What a step does to the log and to the cursors of the handles. -/
inductive Moved [DecidableEq κ] (q : Ring) (s s' : State κ N) : Prop
  | silent (log : s'.log=s.log) (cursor : ∀ c,(s'.consumer c).cursor=(s.consumer c).cursor)
  | publish (payload : List Byte) (result : WriteResult)
      (log : s'.log=s.log++[.publish payload result])
      (cursor : ∀ c,(s'.consumer c).cursor=(s.consumer c).cursor)
  | register (c : κ) (first : ℕ) (fresh : (s.consumer c).cursor=none)
      (log : s'.log=s.log++[.register c first])
      (kept : Kept N q.capacity (accepted s.log) s.begun (.register c first))
      (consumer : s'.consumer=update s.consumer c (.idle first))
  | read (c : κ) (start : ℕ) (original : List Byte) (answer : Answer)
      (handle : (s.consumer c).cursor=some start)
      (log : s'.log=s.log++[.read c start original answer])
      (kept : Kept N q.capacity (accepted s.log) s.begun (.read c start original answer))
      (consumer : s'.consumer=update s.consumer c (.idle answer.cursor))

/-- One step as the handle of one consumer sees it. -/
structure Advanced (q : Ring) (s s' : State κ N) (c : κ) : Prop where
  /-- The cursor never moves back. -/
  forward : ∀ cursor,(s.consumer c).cursor=some cursor →
    ∃ cursor',(s'.consumer c).cursor=some cursor' ∧ cursor≤cursor'
  /-- A passed sequence is delivered by the returning read, or has begun to be
  overwritten and the read reports a loss. -/
  passed : ∀ cursor cursor' sequence,(s.consumer c).cursor=some cursor →
    (s'.consumer c).cursor=some cursor' → cursor ≤ sequence → sequence<cursor' →
    ∃ original answer,s'.log=s.log++[.read c cursor original answer] ∧
      ((answer.result.status=.success ∧ answer.result.sequence=sequence) ∨
        (Lossy answer.result.status ∧ sequence+q.capacity ≤ s.begun))
  /-- A returning read has started at the cursor of the handle and leaves the
  cursor of its answer there. -/
  reads : ∀ start original answer,s'.log=s.log++[.read c start original answer] →
    (s.consumer c).cursor=some start ∧ (s'.consumer c).cursor=some answer.cursor
  /-- A registration leaves its cursor in a new handle. -/
  registers : ∀ first,s'.log=s.log++[.register c first] →
    (s.consumer c).cursor=none ∧ (s'.consumer c).cursor=some first

/-- What the reads of one consumer have delivered. -/
structure Tracked [DecidableEq κ] (s : State κ N) (c : κ) : Prop where
  /-- Nothing is delivered before the registration. -/
  unread : (s.consumer c).cursor=none → successes c s.log=[]
  /-- Delivered sequences are behind the cursor. -/
  behind : ∀ cursor,(s.consumer c).cursor=some cursor →
    ∀ sequence ∈ successes c s.log,sequence<cursor
  /-- Delivered sequences strictly increase. -/
  increasing : (successes c s.log).Pairwise (·<·)

section Handles

variable {q : Ring} {s s' : State κ N} {c : κ}

/-- Logs that grow by one event each grow by the same one. -/
theorem event_inj {log : List (Event κ)} {event event' : Event κ}
    (h : log++[event]=log++[event']) : event=event' :=
  List.singleton_inj.mp (List.append_cancel_left h)

/-- A handle that keeps its cursor and completes no call. -/
theorem Advanced.still (hcursor : (s'.consumer c).cursor=(s.consumer c).cursor)
    (hread : ∀ start original answer,s'.log≠s.log++[.read c start original answer])
    (hregister : ∀ first,s'.log≠s.log++[.register c first]) : Advanced q s s' c where
  forward := fun cursor hc => ⟨cursor,hcursor.trans hc,le_refl _⟩
  passed := by
    intro cursor cursor' sequence hc hc' hle hlt
    rw [hcursor,hc] at hc'
    cases hc'
    omega
  reads := fun start original answer hlog => absurd hlog (hread start original answer)
  registers := fun first hlog => absurd hlog (hregister first)

/-- A registration as its own handle sees it. -/
theorem Advanced.registered {first : ℕ} (hfresh : (s.consumer c).cursor=none)
    (hlog : s'.log=s.log++[.register c first])
    (hconsumer : (s'.consumer c).cursor=some first) : Advanced q s s' c where
  forward := fun cursor hc => by rw [hfresh] at hc; cases hc
  passed := fun cursor _ _ hc => by rw [hfresh] at hc; cases hc
  reads := fun start original answer hnew => by cases event_inj (hlog.symm.trans hnew)
  registers := by
    intro first' hnew
    cases event_inj (hlog.symm.trans hnew)
    exact ⟨hfresh,hconsumer⟩

/-- A read as its own handle sees it. -/
theorem Advanced.returned {start : ℕ} {original : List Byte} {answer : Answer}
    (hhandle : (s.consumer c).cursor=some start)
    (hlog : s'.log=s.log++[.read c start original answer])
    (hkept : Kept N q.capacity (accepted s.log) s.begun (.read c start original answer))
    (hconsumer : (s'.consumer c).cursor=some answer.cursor) : Advanced q s s' c := by
  obtain ⟨hintact,hge,-,-,-,hskip⟩ := hkept
  refine ⟨?_,?_,?_,?_⟩
  · intro cursor hc
    cases hhandle.symm.trans hc
    exact ⟨answer.cursor,hconsumer,hge⟩
  · intro cursor cursor' sequence hc hc' hle hlt
    cases hhandle.symm.trans hc
    cases hconsumer.symm.trans hc'
    refine ⟨original,answer,hlog,?_⟩
    rcases hskip sequence hle hlt with ⟨hsuccess,rfl⟩ | hlost
    · exact .inl ⟨hsuccess,(hintact.1 hsuccess).1⟩
    · exact .inr hlost
  · intro start' original' answer' hnew
    cases event_inj (hlog.symm.trans hnew)
    exact ⟨hhandle,hconsumer⟩
  · intro first hnew
    cases event_inj (hlog.symm.trans hnew)

variable [DecidableEq κ]

/-- A new event is kept. -/
theorem Moved.event (h : Moved q s s') : s'.log=s.log ∨ ∃ event,s'.log=s.log++[event] ∧
    Kept N q.capacity (accepted s.log) s.begun event := by
  cases h with
  | silent hlog _ => exact .inl hlog
  | publish payload result hlog _ => exact .inr ⟨_,hlog,trivial⟩
  | register c first _ hlog hkept _ => exact .inr ⟨_,hlog,hkept⟩
  | read c start original answer _ hlog hkept _ => exact .inr ⟨_,hlog,hkept⟩

/-- Every handle advances. -/
theorem Moved.advanced (h : Moved q s s') (c : κ) : Advanced q s s' c := by
  have hgrows : ∀ event : Event κ,s.log≠s.log++[event] := fun event he => by
    simpa using congrArg List.length he
  cases h with
  | silent hlog hcursor =>
    exact .still (hcursor c) (fun _ _ _ => by rw [hlog]; exact hgrows _)
      fun _ => by rw [hlog]; exact hgrows _
  | publish payload result hlog hcursor =>
    exact .still (hcursor c) (fun _ _ _ hnew => by cases event_inj (hlog.symm.trans hnew))
      fun _ hnew => by cases event_inj (hlog.symm.trans hnew)
  | register d first hfresh hlog _ hconsumer =>
    by_cases hc : c=d
    · subst hc
      exact .registered hfresh hlog (by rw [hconsumer,update_self]; rfl)
    · refine .still (by rw [hconsumer,update_of_ne hc]) ?_ ?_
      · exact fun _ _ _ hnew => by cases event_inj (hlog.symm.trans hnew)
      · intro first' hnew
        cases event_inj (hlog.symm.trans hnew)
        exact hc rfl
  | read d start original answer hhandle hlog hkept hconsumer =>
    by_cases hc : c=d
    · subst hc
      exact .returned hhandle hlog hkept (by rw [hconsumer,update_self]; rfl)
    · refine .still (by rw [hconsumer,update_of_ne hc]) ?_ ?_
      · intro start' original' answer' hnew
        cases event_inj (hlog.symm.trans hnew)
        exact hc rfl
      · exact fun _ hnew => by cases event_inj (hlog.symm.trans hnew)

/-- A step without a delivery keeps the account of a consumer. -/
theorem Tracked.frame (h : Tracked s c) (hadvanced : Advanced q s s' c)
    (hsuccesses : successes c s'.log=successes c s.log) : Tracked s' c where
  unread := by
    intro hnone
    rw [hsuccesses]
    cases hc : (s.consumer c).cursor with
    | none => exact h.unread hc
    | some cursor =>
      obtain ⟨cursor',hc',-⟩ := hadvanced.forward cursor hc
      cases hnone.symm.trans hc'
  behind := by
    intro cursor' hc' sequence hmem
    rw [hsuccesses] at hmem
    cases hc : (s.consumer c).cursor with
    | none =>
      rw [h.unread hc] at hmem
      exact absurd hmem List.not_mem_nil
    | some cursor =>
      obtain ⟨later,hlater,hle⟩ := hadvanced.forward cursor hc
      cases hlater.symm.trans hc'
      exact (h.behind cursor hc sequence hmem).trans_le hle
  increasing := by
    rw [hsuccesses]
    exact h.increasing

/-- A delivery at the cursor. -/
theorem Tracked.deliver (h : Tracked s c) {start : ℕ} (hhandle : (s.consumer c).cursor=some start)
    (hconsumer : (s'.consumer c).cursor=some (start+1))
    (hsuccesses : successes c s'.log=successes c s.log++[start]) : Tracked s' c where
  unread := fun hnone => by cases hnone.symm.trans hconsumer
  behind := by
    intro cursor hc sequence hmem
    cases hconsumer.symm.trans hc
    rw [hsuccesses,List.mem_append,List.mem_singleton] at hmem
    rcases hmem with hold | rfl
    · exact (h.behind start hhandle sequence hold).trans (Nat.lt_succ_self start)
    · exact Nat.lt_succ_self sequence
  increasing := by
    rw [hsuccesses,List.pairwise_append]
    refine ⟨h.increasing,List.pairwise_singleton _ _,?_⟩
    intro earlier hold sequence hlast
    rw [List.mem_singleton] at hlast
    rw [hlast]
    exact h.behind start hhandle earlier hold

/-- Every step keeps the accounts. -/
theorem Moved.tracked (h : Moved q s s') (ht : Tracked s c) : Tracked s' c := by
  have hadvanced := h.advanced c
  have hsilent : ∀ event : Event κ,s'.log=s.log++[event] → delivered c event=none →
      successes c s'.log=successes c s.log := by
    intro event hlog hnone
    rw [hlog,successes_append,hnone]
    exact List.append_nil _
  cases h with
  | silent hlog _ => exact ht.frame hadvanced (by rw [hlog])
  | publish payload result hlog _ => exact ht.frame hadvanced (hsilent _ hlog rfl)
  | register d first _ hlog _ _ => exact ht.frame hadvanced (hsilent _ hlog rfl)
  | read d start original answer hhandle hlog hkept hconsumer =>
    by_cases hdone : d=c ∧ answer.result.status=.success
    · obtain ⟨rfl,hsuccess⟩ := hdone
      obtain ⟨hintact,-,-,hnext,-⟩ := hkept
      have hdelivered : delivered d (.read d start original answer)=some start := by
        rw [delivered,if_pos ⟨rfl,hsuccess⟩,(hintact.1 hsuccess).1]
      refine ht.deliver hhandle ?_ (by rw [hlog,successes_append,hdelivered]; rfl)
      rw [hconsumer,update_self,hnext hsuccess]
      rfl
    · exact ht.frame hadvanced (hsilent _ hlog (if_neg hdone))

end Handles

/-- The past of the producer and the knowledge of all consumers. -/
structure Inv (q : Ring) (s : State κ N) (r : Record Place)
    (past : ℕ → VersionedModel.State κ N) (g : VersionedModel.State κ N) : Prop where
  /-- The past. -/
  stores : PastOk q s r past g
  /-- The consumers. -/
  consumer : ∀ c,ConsumerOk q r past g (s.views (.consumer c)) (s.consumer c)

section Steps

variable {q : Ring} {s s' : State κ N} {r : Record Place}
  {past : ℕ → VersionedModel.State κ N} {g : VersionedModel.State κ N} {c : κ}

/-- The published boundary counts the accepted payloads. -/
theorem published_eq (h : PastOk q s r past g) : g.published=(accepted s.log).length := by
  rw [← h.log_eq,h.present.published_eq]

/-- Both models count the same publications as begun. -/
theorem begun_eq (h : PastOk q s r past g) : g.begun=s.begun := by
  have hpub : g.published=s.produced := h.present.produced_eq.symm.trans h.produced_eq
  cases hp : s.producer with
  | idle => simp [VersionedModel.State.begun,State.begun,h.producer_eq,hp,hpub]
  | running payload sequence pc =>
    cases pc <;> simp [VersionedModel.State.begun,State.begun,h.producer_eq,hp,hpub]

/-- A step of the producer keeps the invariant. -/
theorem Inv.producer_step (h : Inv q s r past g) {r' : Record Place}
    {past' : ℕ → VersionedModel.State κ N} {g' : VersionedModel.State κ N}
    (hpast : PastOk q s' r' past' g') (he : Extends q s s' r r' past past' g g') :
    Inv q s' r' past' g' := by
  refine ⟨hpast,?_⟩
  intro c
  rw [he.views,he.consumer]
  exact (h.consumer c).extend he

variable [DecidableEq κ]

/-- What a step keeps and what it records. -/
structure Recorded (q : Ring) (s s' : State κ N) : Prop where
  /-- The invariant holds behind the step. -/
  inv : ∃ r past g,Inv q s' r past g
  /-- Accepted payloads are only added. -/
  accepted : ∃ added,accepted s'.log=accepted s.log++added
  /-- Begun publications stay begun. -/
  begun : s.begun ≤ s'.begun
  /-- The log and the cursors. -/
  moved : Moved q s s'

/-- A step of the producer records publications only. -/
theorem recorded_producer (h : Inv q s r past g) {r' : Record Place}
    {past' : ℕ → VersionedModel.State κ N} {g' : VersionedModel.State κ N}
    (hpast : PastOk q s' r' past' g') (he : Extends q s s' r r' past past' g g')
    (hlog : s'.log=s.log ∨ ∃ payload result,s'.log=s.log++[.publish payload result]) :
    Recorded q s s' where
  inv := ⟨r',past',g',h.producer_step hpast he⟩
  accepted := by
    rw [← hpast.log_eq,← h.stores.log_eq]
    exact he.follows.accepted
  begun := by
    rw [← begun_eq hpast,← begun_eq h.stores]
    exact he.follows.begun
  moved := by
    have hcursor : ∀ c,(s'.consumer c).cursor=(s.consumer c).cursor := fun c => by rw [he.consumer]
    rcases hlog with hsame | ⟨payload,result,hnew⟩
    · exact .silent hsame hcursor
    · exact .publish payload result hnew hcursor

/-- A step of a consumer. -/
theorem recorded_consumer (hinv : Inv q s' r past g) (hproducer : s'.producer=s.producer)
    (hproduced : s'.produced=s.produced) (hacc : accepted s'.log=accepted s.log)
    (hmoved : Moved q s s') : Recorded q s s' where
  inv := ⟨r,past,g,hinv⟩
  accepted := ⟨[],by rw [hacc,List.append_nil]⟩
  begun := by rw [State.begun,State.begun,hproducer,hproduced]
  moved := hmoved

/-- A step of a consumer leaves the past alone. -/
theorem PastOk.consumer_step (h : PastOk q s r past g) {l : Local (Thread κ) Place}
    (hhistory : s'.history=s.history) (hviews : s'.views=update s.views (.consumer c) l)
    (hsane : Sane s.history (update s.views (.consumer c) l)) (hproducer : s'.producer=s.producer)
    (hproduced : s'.produced=s.produced) (hlog : accepted s'.log=accepted s.log) :
    PastOk q s' r past g := by
  have hsame : s'.views .producer=s.views .producer := by
    rw [hviews,update_of_ne (fun he => by cases he)]
  exact {h with
    sane := by rw [hhistory,hviews]; exact hsane
    logged := by rw [hhistory]; exact h.logged
    producer_eq := h.producer_eq.trans hproducer.symm
    produced_eq := h.produced_eq.trans hproduced.symm
    log_eq := h.log_eq.trans hlog.symm
    knows := by rw [hsame]; exact h.knows
    fenced := by rw [hsame,hproducer]; exact h.fenced}

/-- A step of a consumer keeps the invariant. -/
theorem Inv.consumer_step (h : Inv q s r past g) {l : Local (Thread κ) Place}
    {consumer : Consumer N} (hhistory : s'.history=s.history)
    (hviews : s'.views=update s.views (.consumer c) l)
    (hsane : Sane s.history (update s.views (.consumer c) l)) (hproducer : s'.producer=s.producer)
    (hproduced : s'.produced=s.produced) (hlog : accepted s'.log=accepted s.log)
    (hconsumer : s'.consumer=update s.consumer c consumer)
    (hok : ConsumerOk q r past g l consumer) : Inv q s' r past g := by
  refine ⟨PastOk.consumer_step h.stores hhistory hviews hsane hproducer hproduced hlog,?_⟩
  intro c'
  rw [hviews,hconsumer]
  by_cases hc : c'=c
  · subst hc
    rw [update_self,update_self]
    exact hok
  · rw [update_of_ne hc,update_of_ne (fun he => hc (Thread.consumer.inj he))]
    exact h.consumer c'

/-- Accesses of the producer record publications only. -/
theorem stepPublish_log {payload : List Byte} {sequence ts : ℕ} {pc : PublishPc}
    (hs : stepPublish q s payload sequence ts pc=some s') :
    s'.log=s.log ∨ ∃ payload result,s'.log=s.log++[.publish payload result] := by
  cases pc with
  | storePublished =>
    obtain ⟨written,-,rfl⟩ := Option.map_eq_some_iff.mp hs
    exact .inr ⟨payload,_,rfl⟩
  | _ =>
    obtain ⟨x,-,rfl⟩ := Option.map_eq_some_iff.mp hs
    exact .inl rfl

/-- Local variables that keep the cursor of their handle. -/
theorem cursor_update {consumer : Consumer N} (hcursor : consumer.cursor=(s.consumer c).cursor)
    (d : κ) : (update s.consumer c consumer d).cursor=(s.consumer d).cursor := by
  by_cases hd : d=c
  · subst hd
    rw [update_self,hcursor]
  · rw [update_of_ne hd]

/-- An access of a read. -/
theorem recorded_read (h : Inv q s r past g) {want ts attempt : ℕ} {destination : List Byte}
    {snapshot : FixedMessage N} {pc : ReadPc}
    (hc : s.consumer c=.running want destination attempt snapshot pc)
    (hs : stepRead q s c want destination attempt snapshot ts pc=some s') : Recorded q s s' := by
  have hok := h.consumer c
  rw [hc] at hok
  obtain ⟨hpos,hwant,hread⟩ := hok
  have hlen := published_eq h.stores
  have hbegun := begun_eq h.stores
  cases readStep_of_ok h.stores hpos hread hs with
  | moves l attempt' snapshot' pc' hsane hnext =>
    exact recorded_consumer (h.consumer_step rfl rfl hsane rfl rfl rfl rfl ⟨hpos,hwant,hnext⟩)
      rfl rfl rfl (.silent rfl (cursor_update (s:=s) (by rw [hc]; rfl)))
  | returns l answer hsane hout =>
    have hacc : accepted (s.log++[.read c want destination answer])=accepted s.log :=
      accepted_append_none _ rfl
    have hkept := kept_of_outcome c q.pos hpos (by rw [← hlen]; exact hwant)
      (by rw [← hlen]; exact h.stores.present.published_le_begun) hout
    have hcursor : ConsumerOk q r past g l (.idle answer.cursor) := by
      obtain ⟨-,hge,hle,-⟩ := hkept
      exact ⟨hpos.trans hge,by rw [hlen]; exact hle⟩
    rw [hbegun] at hkept
    exact recorded_consumer (h.consumer_step rfl rfl hsane rfl rfl hacc rfl hcursor) rfl rfl hacc
      (.read c want destination answer (by rw [hc]; rfl) rfl hkept rfl)

/-- Every step keeps the invariant and records what is kept. -/
theorem step_recorded (h : Inv q s r past g) {a : Action κ} (hs : step q s a=some s') :
    Recorded q s s' := by
  cases a with
  | callPublish payload =>
    simp only [step] at hs
    split at hs
    · rename_i hidle
      cases hs
      obtain ⟨g',hpast,he⟩ := past_enterPublish h.stores hidle payload
      refine recorded_producer h hpast he ?_
      unfold enterPublish
      split
      · exact .inr ⟨payload,_,rfl⟩
      · exact .inl rfl
    · cases hs
  | publish ts =>
    simp only [step] at hs
    split at hs
    · rename_i payload sequence pc hp
      obtain ⟨r',past',g',hpast,he⟩ := past_stepPublish h.stores hp hs
      exact recorded_producer h hpast he (stepPublish_log hs)
    · cases hs
  | register c ts =>
    simp only [step] at hs
    split at hs
    · rename_i hnew
      obtain ⟨⟨published,l⟩,hl,rfl⟩ := Option.map_eq_some_iff.mp hs
      obtain ⟨k,hk,hpub⟩ := load_published h.stores hl
      have hle := (h.stores.present_follows hk.le_now).published
      have hlen := published_eq h.stores
      have hacc : accepted (s.log++[.register c (published+1)])=accepted s.log :=
        accepted_append_none _ rfl
      have hsane := sane_load (c:=c) h.stores (h.stores.sane.threads (.consumer c)) hl
      have hcursor : ConsumerOk q r past g l (.idle (published+1)) :=
        ⟨Nat.le_add_left _ _,by omega⟩
      exact recorded_consumer (h.consumer_step rfl rfl hsane rfl rfl hacc rfl hcursor) rfl rfl hacc
        (.register c (published+1) (by rw [hnew]; rfl) rfl ⟨Nat.le_add_left _ _,by omega⟩ rfl)
    · cases hs
  | callRead c destination =>
    simp only [step] at hs
    split at hs
    · rename_i cursor hc
      cases hs
      have hok := h.consumer c
      rw [hc] at hok
      have hself : update s.views (.consumer c) (s.views (.consumer c))=s.views :=
        update_eq_self _ _
      exact recorded_consumer (h.consumer_step rfl hself.symm (by rw [hself]; exact h.stores.sane)
        rfl rfl rfl rfl ⟨hok.1,hok.2,trivial⟩) rfl rfl rfl
        (.silent rfl (cursor_update (by rw [hc]; rfl)))
    · cases hs
  | read c ts =>
    simp only [step] at hs
    split at hs
    · rename_i want destination attempt snapshot pc hc
      exact recorded_read h hc hs
    · cases hs

end Steps

/-- The invariant, the kept events and the accounts in every reachable
state. -/
theorem reachable_kept [DecidableEq κ] {q : Ring} {s : State κ N}
    (h : Reachable (system q κ N) s) :
    (∃ r past g,Inv q s r past g) ∧ (∀ c,Tracked s c) ∧
      ∀ event ∈ s.log,Kept N q.capacity (accepted s.log) s.begun event := by
  refine Reachable.invariant (I:=fun s => (∃ r past g,Inv q s r past g) ∧ (∀ c,Tracked s c) ∧
    ∀ event ∈ s.log,Kept N q.capacity (accepted s.log) s.begun event) ?_ ?_ h
  · exact ⟨⟨_,_,_,pastOk_init q,fun _ => trivial⟩,
      fun _ => ⟨fun _ => rfl,(fun _ hc => by cases hc),.nil⟩,
      fun _ hmem => absurd hmem List.not_mem_nil⟩
  · rintro s a s' - ⟨⟨r,past,g,hinv⟩,htracked,hkept⟩ hs
    have hrec := step_recorded hinv hs
    refine ⟨hrec.inv,fun c => hrec.moved.tracked (htracked c),?_⟩
    obtain ⟨added,hadded⟩ := hrec.accepted
    intro event hmem
    rw [hadded]
    rcases hrec.moved.event with hsame | ⟨new,hnew,hk⟩
    · rw [hsame] at hmem
      exact (hkept event hmem).later added hrec.begun
    · rw [hnew] at hmem
      rcases List.mem_append.mp hmem with hold | hlast
      · exact (hkept event hold).later added hrec.begun
      · rw [List.mem_singleton] at hlast
        subst hlast
        exact hk.later added hrec.begun

/-- What the memory orders guarantee in one state of a run. -/
structure Delivers [DecidableEq κ] (q : Ring) (s : State κ N) : Prop where
  /-- Every completed call. -/
  events : ∀ event ∈ s.log,Kept N q.capacity (accepted s.log) s.begun event
  /-- The deliveries to every consumer. -/
  deliveries : ∀ c,Tracked s c
  /-- Every handle under every next step. -/
  handles : ∀ a s',step q s a=some s' → ∀ c,Advanced q s s' c
  /-- A running publication has a next access. -/
  producer_live : ∀ payload sequence pc,s.producer=.running payload sequence pc →
    ∃ ts s',step q s (.publish ts)=some s'
  /-- A running read has a next access. -/
  consumer_live : ∀ c want destination attempt snapshot pc,
    s.consumer c=.running want destination attempt snapshot pc →
    ∃ ts s',step q s (.read c ts)=some s'
  /-- A registration has its load. -/
  register_live : ∀ c,s.consumer c=.unregistered → ∃ ts s',step q s (.register c ts)=some s'

section Live

variable [DecidableEq κ] {q : Ring} {s : State κ N} {r : Record Place}
  {past : ℕ → VersionedModel.State κ N} {g : VersionedModel.State κ N}

/-- The producer is never stuck. -/
theorem producer_live (h : PastOk q s r past g) {payload : List Byte} {sequence : ℕ}
    {pc : PublishPc} (hp : s.producer=.running payload sequence pc) :
    ∃ ts s',step q s (.publish ts)=some s' := by
  simp only [step,hp]
  have hstore := h.logged.storable h.knows
  have hfenced := h.logged.storable (l:=(s.views .producer).releaseFence) h.knows
  cases pc with
  | loadVersion =>
    obtain ⟨loaded,hl⟩ := (h.sane.threads .producer).loadable .relaxed
      (.member (index q sequence) .version)
    exact ⟨_,_,by rw [stepPublish,hl,Option.map_some]⟩
  | storeOdd version =>
    obtain ⟨written,hw⟩ := hstore .relaxed (.member (index q sequence) .version) (version+1)
    exact ⟨_,_,by rw [stepPublish,hw,Option.map_some]⟩
  | storeSequence version =>
    obtain ⟨written,hw⟩ := hstore .relaxed (.member (index q sequence) .sequence) sequence
    exact ⟨_,_,by rw [stepPublish,State.storeAt,hw,Option.map_some]⟩
  | storeSize version =>
    obtain ⟨written,hw⟩ := hstore .relaxed (.member (index q sequence) .size) payload.length
    exact ⟨_,_,by rw [stepPublish,State.storeAt,hw,Option.map_some]⟩
  | storeByte version k =>
    obtain ⟨written,hw⟩ := hstore .relaxed (.member (index q sequence) (.byte k))
      (payload.getD k 0).toNat
    exact ⟨_,_,by rw [stepPublish,State.storeAt,hw,Option.map_some]⟩
  | storeEven version =>
    obtain ⟨written,hw⟩ := hfenced .release (.member (index q sequence) .version) (version+2)
    exact ⟨_,_,by rw [stepPublish,State.storeAt,hw,Option.map_some]⟩
  | storePublished =>
    obtain ⟨written,hw⟩ := hstore .release .published sequence
    exact ⟨_,_,by rw [stepPublish,hw,Option.map_some]⟩

/-- A consumer is never stuck. -/
theorem consumer_live (h : PastOk q s r past g) {c : κ} {want attempt : ℕ}
    {destination : List Byte} {snapshot : FixedMessage N} {pc : ReadPc}
    (hc : s.consumer c=.running want destination attempt snapshot pc) :
    ∃ ts s',step q s (.read c ts)=some s' := by
  simp only [step,hc]
  have hload := (h.sane.threads (.consumer c)).loadable
  have hfenced := (h.sane.threads (.consumer c)).acquireFence.loadable
  cases pc with
  | loadPublished =>
    obtain ⟨loaded,hl⟩ := hload .acquire .published
    exact ⟨_,_,by rw [stepRead,State.loadAt,hl,Option.map_some]⟩
  | loadBefore =>
    obtain ⟨loaded,hl⟩ := hload .acquire (.member (index q want) .version)
    exact ⟨_,_,by rw [stepRead,State.loadAt,hl,Option.map_some]⟩
  | loadSequence before =>
    obtain ⟨loaded,hl⟩ := hload .relaxed (.member (index q want) .sequence)
    exact ⟨_,_,by rw [stepRead,State.loadAt,hl,Option.map_some]⟩
  | loadSize before =>
    obtain ⟨loaded,hl⟩ := hload .relaxed (.member (index q want) .size)
    exact ⟨_,_,by rw [stepRead,State.loadAt,hl,Option.map_some]⟩
  | loadByte before k =>
    obtain ⟨loaded,hl⟩ := hload .relaxed (.member (index q want) (.byte k))
    exact ⟨_,_,by rw [stepRead,State.loadAt,hl,Option.map_some]⟩
  | loadAfter before =>
    obtain ⟨loaded,hl⟩ := hfenced .relaxed (.member (index q want) .version)
    exact ⟨_,_,by rw [stepRead,State.loadAt,hl,Option.map_some]⟩
  | reloadPublished =>
    obtain ⟨loaded,hl⟩ := hload .acquire .published
    exact ⟨_,_,by rw [stepRead,State.loadAt,hl,Option.map_some]⟩

/-- A registration is never stuck. -/
theorem register_live (h : PastOk q s r past g) {c : κ} (hc : s.consumer c=.unregistered) :
    ∃ ts s',step q s (.register c ts)=some s' := by
  obtain ⟨loaded,hl⟩ := (h.sane.threads (.consumer c)).loadable .acquire .published
  exact ⟨_,_,by rw [step,hc,State.loadAt,hl,Option.map_some]⟩

end Live

/-- On the memory orders and fences of the code under RC11, with every
interleaving of the producer and any number of consumers and every outdated
value their loads may return, reads are intact and start where the last one
ended, cursors move forward and skip overwritten publications only, losses are
real, and nobody is stuck. -/
theorem versioned_memory_orders_suffice [DecidableEq κ] (q : Ring) {s : State κ N}
    (h : Reachable (system q κ N) s) : Delivers q s := by
  obtain ⟨⟨r,past,g,hinv⟩,htracked,hkept⟩ := reachable_kept h
  exact {
    events := hkept
    deliveries := htracked
    handles := fun _ _ hs => (step_recorded hinv hs).moved.advanced
    producer_live := fun _ _ _ => producer_live hinv.stores
    consumer_live := fun _ _ _ _ _ _ => consumer_live hinv.stores
    register_live := fun _ => register_live hinv.stores}

/-- Two publications into a single cell. The first consumer copies a byte of
the second one into its copy of the first, finds another version and loses
the message. The second consumer loads the first publication as a whole,
long after it was overwritten. -/
def mixedAges : List (Action Bool) :=
  [.register false 0,.register true 0,.callPublish [1,2],.publish 0,.publish 1,.publish 1,
    .publish 1,.publish 1,.publish 1,.publish 2,.publish 1,
    .callRead false [0,0,0],.read false 1,.read false 2,.read false 1,.read false 1,
    .callPublish [3],.publish 2,.publish 3,.publish 2,.publish 2,.publish 2,.publish 4,.publish 2,
    .read false 2,.read false 1,.read false 3,
    .read false 4,.read false 2,.read false 2,.read false 2,.read false 1,.read false 4,
    .read false 1,
    .callRead true [0,0,0],.read true 1,.read true 2,.read true 1,.read true 1,.read true 1,
    .read true 1,.read true 2]

/-- Intact delivery at a run in which loads of different ages meet. -/
theorem versioned_memory_orders_suffice_mixed :
    (run (system (.ofSucc _ 0) Bool 2) mixedAges).log=
      [.register false 1,.register true 1,.publish [1,2] ⟨.success,1⟩,.publish [3] ⟨.success,2⟩,
        .read false 1 [0,0,0] ⟨1,[0,0,0],⟨.overwritten,0,1⟩⟩,
        .read true 1 [0,0,0] ⟨2,[1,2,0],⟨.success,2,1⟩⟩] ∧
    Delivers (.ofSucc _ 0) (run (system (.ofSucc _ 0) Bool 2) mixedAges) :=
  ⟨by decide +kernel,versioned_memory_orders_suffice (.ofSucc _ 0) (run_reachable _ _)⟩

end Line64.VersionedMemoryDelivery
