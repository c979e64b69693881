import Line64.StressMpmcInvariant

/-!
# Producers of the MPMC stress run

Every step of a producer keeps the invariant. A producer calls `try_push` with
one message until it is accepted, marks it, counts it and turns to the next.
-/

namespace Line64.StressMpmcInvariant

open Function Result BenchmarkPayload Transition ReleaseAcquire AtomicCounters Census StressConfig
  StressPayload StressMpmc MpmcMemoryCalls
open MpmcModel (PushCall)

variable {n m : ℕ}

section Producers

variable {r : Trial} {s : State n m} {active : Finset (Thread n m)} {pushed popped : ℕ}
  {p : Fin n} {x : Producer}

/-- Most producers have nothing to count. -/
theorem uncounted_eq_zero (h : x.pc≠.countPushed) : uncounted x=0 := by
  unfold uncounted
  split
  · rename_i hpc
    exact absurd hpc h
  · rfl

/-- Producers that have not signed off, behind a step of one that goes on. -/
theorem Inv.working_update (h : Inv r s active pushed popped) (hactive : .producer p ∈ active)
    (hx : x.pc≠.exited) (p' : Fin n) :
    .producer p' ∈ active ↔ (update s.producer p x p').pc≠.exited := by
  by_cases hp : p'=p
  · subst hp
    rw [update_self]
    exact iff_of_true hactive hx
  · rw [update_of_ne hp]
    exact h.working p'

/-- The producers behind a step of one of them. -/
theorem Inv.producers_update (h : Inv r s active pushed popped)
    (hx : ProducerOk r p (fun l a => s.queue.push (.producer p,l,a)) x) (p' : Fin n) :
    ProducerOk r p' (fun l a => s.queue.push (.producer p',l,a)) (update s.producer p x p') := by
  by_cases hp : p'=p
  · subst hp
    rw [update_self]
    exact hx
  · rw [update_of_ne hp]
    exact h.producers p'

/-- The producers behind a step that neither marks nor counts. -/
structure Moves (s : State n m) (p : Fin n) (x : Producer) : Prop where
  /-- The producer was working. -/
  working : (s.producer p).pc≠.exited
  /-- It goes on. -/
  stays : x.pc≠.exited
  /-- It keeps its message. -/
  same : x.localSequence=(s.producer p).localSequence
  /-- Its message was not marked. -/
  before : (s.producer p).pc≠.countPushed
  /-- Its message is not marked now. -/
  behind : x.pc≠.countPushed

/-- Marks do not depend on such a step. -/
theorem Moves.marked_iff (hm : Moves s p x) (p' : Fin n) (l : ℕ) :
    Marked (update s.producer p x p') l ↔ Marked (s.producer p') l := by
  by_cases hp : p'=p
  · subst hp
    simp only [update_self,Marked,hm.same,hm.before,hm.behind,and_false]
  · rw [update_of_ne hp]

/-- A step of a producer that neither marks nor counts. -/
theorem Inv.moveProducer (h : Inv r s active pushed popped) (hm : Moves s p x)
    {queue : MpmcMemoryModel.State (Call n m) (Thread n m) maxPayloadSize}
    (hqueue : Reachable (MpmcMemoryModel.system r.ring Prod.fst maxPayloadSize) queue)
    (hkeeps : Keeps s.queue queue) (hpop : queue.pop=s.queue.pop)
    (hothers : ∀ i : Call n m,i.1≠.producer p → queue.push i=s.queue.push i)
    (hok : ProducerOk r p (fun l a => queue.push (.producer p,l,a)) x) :
    Inv r ({s with queue := queue}.setProducer p x) active pushed popped where
  queue := hqueue
  memory := h.memory
  working := h.working_update ((h.working p).mpr hm.working) hm.stays
  pushers c l a := (hothers _ (fun he => by cases he)).trans (h.pushers c l a)
  producers := by
    refine (forall_update_iff s.producer fun (p' : Fin n) y => ProducerOk r p'
      (fun l a => queue.push (.producer p',l,a)) y).mpr ⟨hok,?_⟩
    intro p' hp
    have hsame : (fun l a => queue.push (.producer p',l,a))=
        fun l a => s.queue.push (.producer p',l,a) := by
      funext l a
      exact hothers _ (by simpa using hp)
    rw [hsame]
    exact h.producers p'
  consumers := by
    intro c
    simp only [State.setProducer,hpop]
    exact h.consumers c
  waits := h.waits
  published := by
    intro g
    simp only [State.setProducer,hm.marked_iff]
    exact h.published g
  pushedCount := by
    have hsum := sum_update_of_eq uncounted s.producer p (x:=x)
      (by rw [uncounted_eq_zero hm.before,uncounted_eq_zero hm.behind])
    simp only [State.setProducer,hsum]
    exact h.pushedCount
  consumed := by
    intro g hg
    obtain ⟨c,k,p',l,hk,hpending,htaken,hglobal⟩ := h.consumed g hg
    exact ⟨c,k,p',l,hk,hpending,htaken.keeps hkeeps,hglobal⟩
  poppedCount := h.poppedCount
  clean := h.clean

/-- A step of a producer that only moves it. -/
theorem Inv.gotoProducer (h : Inv r s active pushed popped) {pc : ProducerPc}
    (hm : Moves s p {s.producer p with pc := pc})
    (hok : ProducerOk r p (fun l a => s.queue.push (.producer p,l,a)) {s.producer p with pc := pc}) :
    Inv r (s.gotoProducer p pc) active pushed popped :=
  h.moveProducer hm h.queue (.refl s.queue) rfl (fun _ _ => rfl) hok

/-- A producer at rest has no accepted call with its present message. -/
theorem ProducerOk.rest {push : ℕ → ℕ → PushCall} (h : ProducerOk r p push x)
    (hx : sending x.pc=false) {pc : ProducerPc} (hpc : sending pc=false)
    (hfail : ∀ result,pc≠.fail result) : ProducerOk r p push {x with pc := pc} where
  pos := h.pos
  le := h.le
  within hsend := by
    rw [hpc] at hsend
    cases hsend
  later := h.later
  payload := h.payload
  once := h.once
  present a ha := by
    have hsend := (h.present a ha).1
    rw [hx] at hsend
    cases hsend
  called he := by
    have hsend := congrArg sending he
    rw [hpc] at hsend
    cases hsend
  sound := hfail

/-- A producer calls `try_push`. -/
theorem ProducerOk.call {push : ℕ → ℕ → PushCall} (h : ProducerOk r p push x)
    (hx : sending x.pc=false) (hle : x.localSequence ≤ r.config.iterations) {call : PushCall}
    (hpayload : payloadOf call=some (r.payload p x.localSequence)) (hfree : call.position=none) :
    ProducerOk r p
      (fun l a => if l=x.localSequence ∧ a=x.attempts then call else push l a)
      ⟨x.localSequence,x.attempts+1,.pushing⟩ := by
  have hnone : ∀ a,¬Claimed (push x.localSequence a) := by
    intro a ha
    have hsend := (h.present a ha).1
    rw [hx] at hsend
    cases hsend
  have hclaimed : ∀ l a,Claimed (if l=x.localSequence ∧ a=x.attempts then call else push l a) →
      Claimed (push l a) := by
    intro l a ha
    split at ha
    · exact absurd hfree ha
    · exact ha
  refine ⟨h.pos,h.le,fun _ => hle,?_,?_,?_,?_,?_,nofun⟩
  · intro l a hl
    have hne : ¬(l=x.localSequence ∧ a=x.attempts) := by
      simp only at hl
      omega
    simp only [if_neg hne]
    exact h.later l a (by simp only at hl; omega)
  · intro l a hl
    split
    · rename_i heq
      rw [heq.1]
      exact ⟨hpayload,h.pos,hle⟩
    · rename_i hne
      rw [if_neg hne] at hl
      exact h.payload l a hl
  · intro l a a' ha ha'
    exact h.once l a a' (hclaimed l a ha) (hclaimed l a' ha')
  · intro a ha
    exact absurd (hclaimed _ a ha) (hnone a)
  · intro _
    refine ⟨Nat.succ_pos _,?_⟩
    simp only [Nat.add_sub_cancel,and_self,if_true]
    intro hidle
    rw [hidle] at hpayload
    cases hpayload

/-- The call in progress makes an access. -/
theorem ProducerOk.access {push : ℕ → ℕ → PushCall} (h : ProducerOk r p push x)
    (hx : x.pc=.pushing) {call : PushCall}
    (hpayload : payloadOf call=payloadOf (push x.localSequence (x.attempts-1))) :
    ProducerOk r p (fun l a => if l=x.localSequence ∧ a=x.attempts-1 then call else push l a)
      x := by
  obtain ⟨hpos,hcalled⟩ := h.called hx
  have hmade := h.payload x.localSequence (x.attempts-1) hcalled
  have hcall : call≠.idle := by
    rintro rfl
    rw [hmade.1] at hpayload
    cases hpayload
  refine ⟨h.pos,h.le,h.within,?_,?_,?_,?_,?_,h.sound⟩
  · intro l a hl
    have hne : ¬(l=x.localSequence ∧ a=x.attempts-1) := by omega
    simp only [if_neg hne]
    exact h.later l a hl
  · intro l a hl
    split
    · rename_i heq
      rw [heq.1,hpayload]
      exact hmade
    · rename_i hne
      rw [if_neg hne] at hl
      exact h.payload l a hl
  · intro l a a' ha ha'
    by_cases hl : l=x.localSequence
    · subst hl
      have hlast : ∀ a,Claimed (if x.localSequence=x.localSequence ∧ a=x.attempts-1 then call
          else push x.localSequence a) → a=x.attempts-1 := by
        intro a ha
        split at ha
        · rename_i heq
          exact heq.2
        · have := (h.present a ha).2
          omega
      rw [hlast a ha,hlast a' ha']
    · have hne : ∀ a,¬(l=x.localSequence ∧ a=x.attempts-1) := fun a hboth => hl hboth.1
      simp only [if_neg (hne _)] at ha ha'
      exact h.once l a a' ha ha'
  · intro a ha
    refine ⟨by rw [hx]; rfl,?_⟩
    simp only [true_and] at ha
    split at ha
    · omega
    · exact (h.present a ha).2
  · intro _
    refine ⟨hpos,?_⟩
    simp only [and_self,if_true]
    exact hcall

/-- The present message was accepted. -/
theorem ProducerOk.accepted {push : ℕ → ℕ → PushCall} (h : ProducerOk r p push x)
    (hx : sending x.pc=true) {pc : ProducerPc} (hpc : sending pc=true) (hnot : pc≠.pushing) :
    ProducerOk r p push {x with pc := pc} :=
  ⟨h.pos,h.le,fun _ => h.within hx,h.later,h.payload,h.once,
    fun a ha => ⟨hpc,(h.present a ha).2⟩,fun he => absurd he hnot,
    fun result he => by
      subst he
      cases hpc⟩

/-- The present message was refused. -/
theorem ProducerOk.refused {push : ℕ → ℕ → PushCall} (h : ProducerOk r p push x)
    (hfree : ¬Claimed (push x.localSequence (x.attempts-1))) {pc : ProducerPc}
    (hpc : sending pc=false) (hfail : ∀ result,pc≠.fail result) :
    ProducerOk r p push {x with pc := pc} where
  pos := h.pos
  le := h.le
  within hsend := by
    rw [hpc] at hsend
    cases hsend
  later := h.later
  payload := h.payload
  once := h.once
  present a ha := by
    have hlast : a=x.attempts-1 := by
      have := (h.present a ha).2
      omega
    rw [hlast] at ha
    exact absurd ha hfree
  called he := by
    have hsend := congrArg sending he
    rw [hpc] at hsend
    cases hsend
  sound := hfail

/-- The present message was counted. -/
theorem ProducerOk.next {push : ℕ → ℕ → PushCall} (h : ProducerOk r p push x)
    (hx : sending x.pc=true) : ProducerOk r p push ⟨x.localSequence+1,0,.test⟩ where
  pos := Nat.succ_pos _
  le := Nat.succ_le_succ (h.within hx)
  within := nofun
  later l a hl := h.later l a (.inl (by simp only at hl; omega))
  payload := h.payload
  once := h.once
  present a ha := by
    rw [Claimed,h.later _ a (.inl (Nat.lt_succ_self _))] at ha
    exact absurd rfl ha
  called := nofun
  sound := nofun

/-- One call is replaced among the calls of a thread. -/
theorem update_call (push : Call n m → PushCall) (t : Thread n m) (l₀ a₀ : ℕ) (call : PushCall) :
    (fun l a => update push (t,l₀,a₀) call (t,l,a))=
      fun l a => if l=l₀ ∧ a=a₀ then call else push (t,l,a) := by
  funext l a
  simp only [update_apply,Prod.mk.injEq,true_and]

end Producers

section Steps

variable {r : Trial} {s s' : State n m} {active : Finset (Thread n m)} {pushed popped : ℕ}

/-- A producer marks its message. -/
theorem Inv.mark (h : Inv r s active pushed popped) {p : Fin n} (hp : (s.producer p).pc=.mark)
    (hn : n=r.config.producers) {g : ℕ}
    (hg : g=r.globalSequence p (s.producer p).localSequence) :
    Inv r ({s with published := update s.published g true}.gotoProducer p .countPushed)
      active pushed popped := by
  have hok := h.producers p
  have hle : (s.producer p).localSequence ≤ r.config.iterations :=
    hok.within (by rw [hp]; rfl)
  have hlt : g<bound r := by
    rw [hg]
    exact Nat.lt_succ_of_le (r.globalSequence_le (hn ▸ p.isLt) hle)
  have hmine : ∀ (p' : Fin n) (l : ℕ),1≤l → l ≤ r.config.iterations → g=r.globalSequence p' l →
      p=p' ∧ l=(s.producer p).localSequence := by
    intro p' l hpos hl hsame
    obtain ⟨hid,hlocal⟩ := r.globalSequence_inj hok.pos hle hpos hl (hg.symm.trans hsame)
    exact ⟨Fin.ext hid,hlocal.symm⟩
  have hfresh : s.published g=false := by
    by_contra hset
    obtain ⟨p',l,hpos,hl,hsame,hmarked⟩ := (h.published g).mp (Bool.eq_true_of_not_eq_false hset)
    obtain ⟨rfl,rfl⟩ := hmine p' l hpos hl hsame
    rcases hmarked with hlt | ⟨-,hpc⟩
    · exact absurd hlt (Nat.lt_irrefl _)
    · rw [hp] at hpc
      cases hpc
  refine {h with working := ?_, producers := ?_, published := ?_, pushedCount := ?_}
  · exact h.working_update ((h.working p).mpr (by rw [hp]; nofun)) (by nofun)
  · exact h.producers_update (hok.accepted (by rw [hp]; rfl) rfl nofun)
  · intro g'
    simp only [State.gotoProducer,State.setProducer]
    by_cases hsame : g'=g
    · subst hsame
      rw [update_self]
      refine iff_of_true rfl ⟨p,(s.producer p).localSequence,hok.pos,hle,hg,?_⟩
      rw [update_self]
      exact .inr ⟨rfl,rfl⟩
    · rw [update_of_ne hsame,h.published g']
      refine exists_congr fun p' => exists_congr fun l => and_congr_right fun hpos =>
        and_congr_right fun hl => and_congr_right fun hother => ?_
      by_cases hp' : p'=p
      · subst hp'
        have hne : l≠(s.producer p').localSequence := by
          rintro rfl
          exact hsame (hother.trans hg.symm)
        simp only [update_self,Marked,hne,false_and,or_false]
      · rw [update_of_ne hp']
  · have hsum := sum_update uncounted s.producer p {s.producer p with pc := .countPushed}
    rw [uncounted_eq_zero (by rw [hp]; nofun)] at hsum
    have hcount := h.pushedCount
    simp only [State.gotoProducer,State.setProducer]
    rw [card_marked_update hlt hfresh,← hcount]
    simp only [uncounted] at hsum ⊢
    omega

/-- A producer counts its message. -/
theorem Inv.countPushed (h : Inv r s active pushed popped) {p : Fin n}
    (hp : (s.producer p).pc=.countPushed) {history : History (Thread n m) Counter ℕ}
    {l : Local (Thread n m) Counter}
    (hmemory : Memory history (update s.views (.producer p) l) active (pushed+1) popped) :
    Inv r ((s.setMemory (.producer p) history l).setProducer p
      ⟨(s.producer p).localSequence+1,0,.test⟩) active (pushed+1) popped := by
  have hactive : Thread.producer p ∈ active := (h.working p).mpr (by rw [hp]; nofun)
  refine {h with
    memory := hmemory, working := ?_, producers := ?_, published := ?_, pushedCount := ?_
    waits := fun c => (h.waits c).of_active hactive}
  · exact h.working_update hactive (by nofun)
  · exact h.producers_update ((h.producers p).next (by rw [hp]; rfl))
  · intro g
    refine (h.published g).trans (exists_congr fun p' => exists_congr fun l =>
      and_congr_right fun _ => and_congr_right fun _ => and_congr_right fun _ => ?_)
    simp only [State.setProducer,State.setMemory]
    by_cases hp' : p'=p
    · subst hp'
      simp only [update_self,Marked,hp,and_true,reduceCtorEq,and_false,or_false]
      omega
    · rw [update_of_ne hp']
  · have hsum := sum_update uncounted s.producer p ⟨(s.producer p).localSequence+1,0,.test⟩
    have hcount := h.pushedCount
    simp only [State.setProducer,State.setMemory]
    simp only [uncounted,hp] at hsum hcount ⊢
    omega

/-- A producer signs off. -/
theorem Inv.leave (h : Inv r s active pushed popped) {p : Fin n} (hp : (s.producer p).pc=.leave)
    {history : History (Thread n m) Counter ℕ} {l : Local (Thread n m) Counter}
    (hmemory : Memory history (update s.views (.producer p) l) (active.erase (.producer p)) pushed
      popped) :
    Inv r ((s.setMemory (.producer p) history l).gotoProducer p .exited)
      (active.erase (.producer p)) pushed popped := by
  have hactive : Thread.producer p ∈ active := (h.working p).mpr (by rw [hp]; nofun)
  refine {h with
    memory := hmemory, working := ?_, producers := ?_, published := ?_, pushedCount := ?_
    waits := fun c => (h.waits c).of_active hactive}
  · refine (forall_update_iff s.producer fun p' y =>
      .producer p' ∈ active.erase (.producer p) ↔ y.pc≠.exited).mpr ⟨?_,?_⟩
    · exact ⟨fun hmem => absurd rfl (Finset.ne_of_mem_erase hmem),fun hne => absurd rfl hne⟩
    · intro p' hp'
      rw [Finset.mem_erase,h.working p']
      exact ⟨And.right,fun hne => ⟨by simpa using hp',hne⟩⟩
  · exact h.producers_update ((h.producers p).rest (by rw [hp]; rfl) rfl nofun)
  · intro g
    refine (h.published g).trans (exists_congr fun p' => exists_congr fun l =>
      and_congr_right fun _ => and_congr_right fun _ => and_congr_right fun _ => ?_)
    simp only [State.gotoProducer,State.setProducer,State.setMemory]
    by_cases hp' : p'=p
    · subst hp'
      simp only [update_self,Marked,hp,reduceCtorEq,and_false]
    · rw [update_of_ne hp']
  · have hsum := sum_update_of_eq uncounted s.producer p (x:={s.producer p with pc := .exited})
      (by simp only [uncounted,hp])
    simp only [State.gotoProducer,State.setProducer,State.setMemory,hsum]
    exact h.pushedCount

/-- A producer calls `try_push`. -/
theorem Inv.callPush (h : Inv r s active pushed popped) {p : Fin n}
    (hp : (s.producer p).pc=.test) (hle : (s.producer p).localSequence ≤ r.config.iterations)
    (hs : s.stepQueue r (.callPush
      (.producer p,(s.producer p).localSequence,(s.producer p).attempts)
      (r.payload p (s.producer p).localSequence))=some s') :
    Inv r (s'.setProducer p ⟨(s.producer p).localSequence,(s.producer p).attempts+1,.pushing⟩)
      active pushed popped := by
  obtain ⟨queue,hqueue,hreach,rfl⟩ := h.stepQueue hs
  obtain ⟨-,hpush,hpop⟩ := callPush_step hqueue
  have hmoves : Moves s p ⟨(s.producer p).localSequence,(s.producer p).attempts+1,.pushing⟩ :=
    ⟨by rw [hp]; nofun,nofun,rfl,by rw [hp]; nofun,nofun⟩
  refine h.moveProducer hmoves hreach (.of_pop_eq hqueue hpop) hpop ?_ ?_
  · intro i hi
    rw [hpush,update_of_ne]
    rintro rfl
    exact hi rfl
  · rw [hpush,update_call]
    exact (h.producers p).call (by rw [hp]; rfl) hle (payloadOf_enterPush _ _)
      (position_enterPush _ _)

/-- A push makes an access. -/
theorem Inv.push (h : Inv r s active pushed popped) {p : Fin n}
    (hp : (s.producer p).pc=.pushing) {ts : ℕ} {spurious : Bool}
    (hs : s.stepQueue r (.push
      (.producer p,(s.producer p).localSequence,(s.producer p).attempts-1) ts spurious)=
      some s') : Inv r s' active pushed popped := by
  obtain ⟨queue,hqueue,hreach,rfl⟩ := h.stepQueue hs
  obtain ⟨payload,pc,call,hcall,hpush,hpayload,hpop⟩ := push_step hqueue
  have hmoves : Moves s p (s.producer p) :=
    ⟨by rw [hp]; nofun,by rw [hp]; nofun,rfl,by rw [hp]; nofun,by rw [hp]; nofun⟩
  have hothers : ∀ i : Call n m,i.1≠.producer p → queue.push i=s.queue.push i := by
    intro i hi
    rw [hpush,update_of_ne]
    rintro rfl
    exact hi rfl
  have hok : ProducerOk r p (fun l a => queue.push (.producer p,l,a)) (s.producer p) := by
    rw [hpush,update_call]
    exact (h.producers p).access hp (by rw [hcall,hpayload]; rfl)
  have hmove := h.moveProducer hmoves hreach (.of_pop_eq hqueue hpop) hpop hothers hok
  rwa [State.setProducer,update_eq_self] at hmove

/-- A push returns. -/
theorem Inv.pushReturns (h : Inv r s active pushed popped) {p : Fin n}
    (hp : (s.producer p).pc=.pushing) {payload : List Byte} {position : Option ℕ}
    {result : WriteResult}
    (hcall : s.queue.push (.producer p,(s.producer p).localSequence,(s.producer p).attempts-1)=
      .returned payload position result) :
    Inv r (s.gotoProducer p (afterPush result)) active pushed popped := by
  have hok := h.producers p
  cases position with
  | some q =>
    have hresult := (h.delivers.push_result _ _ _ _ hcall).2 q rfl
    subst hresult
    have hmoves : Moves s p {s.producer p with pc := .mark} :=
      ⟨by simp [hp],by simp,rfl,by simp [hp],by simp⟩
    exact h.gotoProducer hmoves (hok.accepted (by rw [hp]; rfl) rfl (by simp [afterPush]))
  | none =>
    have hmade := hok.payload (s.producer p).localSequence ((s.producer p).attempts-1)
      (by simp [hcall])
    simp only [hcall,payloadOf,Option.some.injEq] at hmade
    have hfull := refused_full h.queue hcall (by rw [hmade.1]; exact r.payload_fits _ _)
    subst hfull
    have hmoves : Moves s p {s.producer p with pc := .countFull} :=
      ⟨by simp [hp],by simp,rfl,by simp [hp],by simp⟩
    exact h.gotoProducer hmoves
      (hok.refused (by simp [Claimed,hcall,PushCall.position]) rfl (by simp [afterPush]))

/-- Every step of a producer keeps the invariant. -/
theorem Inv.stepProducer (h : Inv r s active pushed popped) (hn : n=r.config.producers)
    {p : Fin n} {ts : ℕ} {spurious expired : Bool}
    (hs : StressMpmc.stepProducer r s p ts spurious expired=some s') :
    ∃ active' pushed',Inv r s' active' pushed' popped := by
  unfold StressMpmc.stepProducer at hs
  dsimp only at hs
  split at hs
  · rename_i hp
    split at hs
    · rename_i hmore
      obtain ⟨s₁,hs₁,rfl⟩ := Option.map_eq_some_iff.mp hs
      exact ⟨_,_,h.callPush hp hmore.1 hs₁⟩
    · cases hs
      exact ⟨_,_,h.gotoProducer ⟨by rw [hp]; nofun,nofun,rfl,by rw [hp]; nofun,nofun⟩
        ((h.producers p).rest (by rw [hp]; rfl) rfl nofun)⟩
  · rename_i hp
    split at hs
    · rename_i hcall
      cases hs
      exact ⟨_,_,h.pushReturns hp hcall⟩
    · exact ⟨_,_,h.push hp hs⟩
  · rename_i hp
    cases hs
    exact ⟨_,_,h.mark hp hn rfl⟩
  · rename_i hp
    obtain ⟨s₁,hs₁,rfl⟩ := Option.map_eq_some_iff.mp hs
    obtain ⟨found,history,l,hx,rfl⟩ := increment_eq_some hs₁
    have hactive : Thread.producer p ∈ active := (h.working p).mpr (by rw [hp]; nofun)
    exact ⟨_,_,h.countPushed hp (h.memory.push hactive hx)⟩
  · rename_i hp
    obtain ⟨s₁,hs₁,rfl⟩ := Option.map_eq_some_iff.mp hs
    obtain ⟨found,history,l,hx,rfl⟩ := increment_eq_some hs₁
    have hmemory := h.setMemory (h.memory.full hx) (le_of_fetchUpdate hx)
    exact ⟨_,_,hmemory.gotoProducer
      ⟨by rw [State.setMemory,hp]; nofun,nofun,rfl,by rw [State.setMemory,hp]; nofun,nofun⟩
      ((h.producers p).rest (by rw [hp]; rfl) rfl nofun)⟩
  · rename_i result hp
    exact absurd hp ((h.producers p).sound result)
  · rename_i hp
    obtain ⟨⟨found,history,l⟩,hx,rfl⟩ := Option.map_eq_some_iff.mp hs
    have hactive : Thread.producer p ∈ active := (h.working p).mpr (by rw [hp]; nofun)
    exact ⟨_,_,h.leave hp (h.memory.leave hactive hx)⟩
  · cases hs

end Steps

end Line64.StressMpmcInvariant
