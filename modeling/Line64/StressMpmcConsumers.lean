import Line64.StressMpmcInvariant

/-!
# Consumers of the MPMC stress run

Every step of a consumer keeps the invariant. A message that is returned has
a position behind all earlier ones of its consumer, passes every check and was
not consumed before.
-/

namespace Line64.StressMpmcInvariant

open Function Result BenchmarkPayload Transition ReleaseAcquire AtomicCounters Census StressConfig
  StressPayload StressMpmc MpmcMemoryCalls
open MpmcModel (PopCall)

variable {n m : ℕ}

section Consumers

variable {r : Trial} {pop : ℕ → PopCall} {x : Consumer}

/-- A consumer calls `try_pop`. -/
theorem ConsumerOk.call (h : ConsumerOk r pop x) :
    ConsumerOk r (fun k => if k=x.calls then
        .running (List.replicate r.config.payloadSize 0) (List.replicate r.config.payloadSize 0)
          .loadPosition
      else pop k) ⟨x.lastQueueSequence,x.calls+1,.popping⟩ where
  later k hk := by
    simp only at hk
    rw [if_neg (by omega)]
    exact h.later k (by omega)
  buffer k hk := by
    split
    · rfl
    · rename_i hne
      rw [if_neg hne] at hk
      exact h.buffer k hk
  called _ := by simp
  holds _ _ := nofun
  last := by
    rcases h.last with hzero | ⟨k,position,hk,hposition,hlast,-⟩
    · exact .inl hzero
    · refine .inr ⟨k,position,Nat.lt_succ_of_lt hk,?_,hlast,fun _ => by simp only; omega⟩
      rw [if_neg (by omega)]
      exact hposition
  newest _ position hposition := by
    simp [PopCall.position] at hposition
  sound := nofun

/-- The call in progress makes an access. -/
theorem ConsumerOk.access (h : ConsumerOk r pop x) (hx : x.pc=.popping) {call : PopCall}
    (horiginal : originalOf call=originalOf (pop (x.calls-1)))
    (hclaim : ∀ position,call.position=some position →
      (pop (x.calls-1)).position=some position ∨
        ∀ k position',(pop k).position=some position' → position'<position) :
    ConsumerOk r (fun k => if k=x.calls-1 then call else pop k) x := by
  obtain ⟨hpos,hcalled⟩ := h.called hx
  have hbuffer := h.buffer (x.calls-1) hcalled
  refine ⟨?_,?_,?_,?_,?_,?_,h.sound⟩
  · intro k hk
    rw [if_neg (by omega)]
    exact h.later k hk
  · intro k hk
    split
    · rw [horiginal]
      exact hbuffer
    · rename_i hne
      rw [if_neg hne] at hk
      exact h.buffer k hk
  · intro _
    refine ⟨hpos,?_⟩
    rw [if_pos rfl]
    rintro rfl
    rw [hbuffer] at horiginal
    cases horiginal
  · intro payload result hheld
    rw [hx] at hheld
    cases hheld
  · rcases h.last with hzero | ⟨k,position,hk,hposition,hlast,hother⟩
    · exact .inl hzero
    · have hne : k≠x.calls-1 := by
        have := hother (by rw [hx]; rfl)
        omega
      refine .inr ⟨k,position,hk,?_,hlast,hother⟩
      rw [if_neg hne]
      exact hposition
  · intro hopen position hposition
    rw [if_pos rfl] at hposition
    -- a position that was claimed just now is behind all earlier ones
    rcases hclaim position hposition with hold | hbehind
    · exact h.newest hopen position hold
    · rcases h.last with hzero | ⟨k,position',-,hposition',hlast,-⟩
      · omega
      · have := hbehind k position' hposition'
        omega

/-- A consumer moves to a program point that asks for no more. -/
theorem ConsumerOk.goto (h : ConsumerOk r pop x) {pc : ConsumerPc}
    (hheld : ∀ payload result,held pc=some (payload,result) → 1 ≤ x.calls ∧
      ∃ original position,pop (x.calls-1)=.returned original payload (some position) result)
    (hopen : unchecked pc=true → unchecked x.pc=true) (hpop : pc≠.popping)
    (hfail : ∀ result,pc≠.fail result) : ConsumerOk r pop {x with pc := pc} where
  later := h.later
  buffer := h.buffer
  called he := absurd he hpop
  holds := hheld
  last := by
    rcases h.last with hzero | ⟨k,position,hk,hposition,hlast,hother⟩
    · exact .inl hzero
    · exact .inr ⟨k,position,hk,hposition,hlast,fun ho => hother (hopen ho)⟩
  newest ho := h.newest (hopen ho)
  sound := hfail

/-- A consumer has looked at the sequence of its message. -/
theorem ConsumerOk.checked (h : ConsumerOk r pop x) {payload : List Byte} {result : ReadResult}
    {position : ℕ} {original : List Byte} (hpos : 1 ≤ x.calls)
    (hpop : pop (x.calls-1)=.returned original payload (some position) result)
    (hsequence : result.sequence=position+1) :
    ConsumerOk r pop ⟨result.sequence,x.calls,.validate payload result⟩ where
  later := h.later
  buffer := h.buffer
  called := nofun
  holds payload' result' hheld := by
    cases hheld
    exact ⟨hpos,original,position,hpop⟩
  last := .inr ⟨x.calls-1,position,Nat.sub_lt hpos Nat.zero_lt_one,by rw [hpop]; rfl,hsequence,
    nofun⟩
  newest := nofun
  sound := nofun

end Consumers

section Moves

variable {r : Trial} {s s' : State n m} {active : Finset (Thread n m)} {pushed popped : ℕ} {c : Fin m}
  {y : Consumer}

/-- The consumers behind a step of one of them. -/
theorem Inv.consumers_update (h : Inv r s active pushed popped)
    (hy : ConsumerOk r (fun k => s.queue.pop (.consumer c,k,0)) y) (c' : Fin m) :
    ConsumerOk r (fun k => s.queue.pop (.consumer c',k,0)) (update s.consumer c y c') := by
  by_cases hc : c'=c
  · subst hc
    rw [update_self]
    exact hy
  · rw [update_of_ne hc]
    exact h.consumers c'

/-- A consumer takes a step that leaves its earlier messages alone. -/
structure MovesOn (s : State n m) (c : Fin m) (y : Consumer) : Prop where
  /-- Calls are only made. -/
  calls : (s.consumer c).calls ≤ y.calls
  /-- The last call was pending, or is a new one. -/
  pending : pending y.pc=true → pending (s.consumer c).pc=true ∨ (s.consumer c).calls < y.calls

/-- Marks of consumed messages behind such a step. -/
theorem Inv.consumed_update (h : Inv r s active pushed popped) (hm : MovesOn s c y)
    {queue : MpmcMemoryModel.State (Call n m) (Thread n m) maxPayloadSize}
    (hkeeps : Keeps s.queue queue) {g : ℕ} (hg : s.consumed g=true) :
    ∃ c' k p l,k < (update s.consumer c y c').calls ∧
      (pending (update s.consumer c y c').pc=true → k+1≠(update s.consumer c y c').calls) ∧
      Taken r queue (.consumer c',k,0) p l ∧ g=r.globalSequence p l := by
  obtain ⟨c',k,p,l,hk,hpending,htaken,hglobal⟩ := h.consumed g hg
  refine ⟨c',k,p,l,?_,?_,htaken.keeps hkeeps,hglobal⟩
  · by_cases hc : c'=c
    · subst hc
      rw [update_self]
      exact hk.trans_le hm.calls
    · rwa [update_of_ne hc]
  · by_cases hc : c'=c
    · subst hc
      rw [update_self]
      intro hy
      have hcalls := hm.calls
      rcases hm.pending hy with hold | hnew
      · have := hpending hold
        omega
      · omega
    · rwa [update_of_ne hc]

/-- Knowledge about the end of the run behind a step of one consumer. -/
theorem Inv.waits_update (h : Inv r s active pushed popped)
    (hy : Waits s.views active pushed popped c y.pc) (c' : Fin m) :
    Waits s.views active pushed popped c' (update s.consumer c y c').pc := by
  by_cases hc : c'=c
  · subst hc
    rw [update_self]
    exact hy
  · rw [update_of_ne hc]
    exact h.waits c'

/-- A step of a consumer that neither marks nor counts. -/
theorem Inv.moveConsumer (h : Inv r s active pushed popped) (hm : MovesOn s c y)
    {queue : MpmcMemoryModel.State (Call n m) (Thread n m) maxPayloadSize}
    (hqueue : Reachable (MpmcMemoryModel.system r.ring Prod.fst maxPayloadSize) queue)
    (hkeeps : Keeps s.queue queue) (hpush : queue.push=s.queue.push)
    (hothers : ∀ j : Call n m,j.1≠.consumer c → queue.pop j=s.queue.pop j)
    (hok : ConsumerOk r (fun k => queue.pop (.consumer c,k,0)) y)
    (hwait : Waits s.views active pushed popped c y.pc)
    (hunmarked : unmarked y=unmarked (s.consumer c)) :
    Inv r ({s with queue := queue}.setConsumer c y) active pushed popped where
  queue := hqueue
  memory := h.memory
  working := h.working
  pushers d l a := by
    simp only [State.setConsumer,hpush]
    exact h.pushers d l a
  producers p := by
    simp only [State.setConsumer,hpush]
    exact h.producers p
  consumers := by
    refine (forall_update_iff s.consumer fun (c' : Fin m) z => ConsumerOk r
      (fun k => queue.pop (.consumer c',k,0)) z).mpr ⟨hok,?_⟩
    intro c' hc
    have hsame : (fun k => queue.pop (.consumer c',k,0))=fun k => s.queue.pop (.consumer c',k,0) := by
      funext k
      exact hothers _ (by simpa using hc)
    rw [hsame]
    exact h.consumers c'
  waits := h.waits_update hwait
  published := h.published
  pushedCount := h.pushedCount
  consumed g hg := h.consumed_update hm hkeeps hg
  poppedCount := by
    simp only [State.setConsumer,sum_update_of_eq unmarked s.consumer c hunmarked]
    exact h.poppedCount
  clean := h.clean

/-- A step of a consumer that only moves it. -/
theorem Inv.gotoConsumer (h : Inv r s active pushed popped) {pc : ConsumerPc}
    (hpending : pending pc=true → pending (s.consumer c).pc=true)
    (hok : ConsumerOk r (fun k => s.queue.pop (.consumer c,k,0)) {s.consumer c with pc := pc})
    (hwait : Waits s.views active pushed popped c pc)
    (hunmarked : unmarked {s.consumer c with pc := pc}=unmarked (s.consumer c)) :
    Inv r (s.gotoConsumer c pc) active pushed popped :=
  h.moveConsumer (y:={s.consumer c with pc := pc}) ⟨le_rfl,fun hp => .inl (hpending hp)⟩ h.queue
    (.refl s.queue) rfl (fun _ _ => rfl) hok hwait hunmarked

/-- One call is replaced among the calls of a consumer. -/
theorem update_pop (pop : Call n m → PopCall) (t : Thread n m) (k₀ : ℕ) (call : PopCall) :
    (fun k => update pop (t,k₀,0) call (t,k,0))=
      fun k => if k=k₀ then call else pop (t,k,0) := by
  funext k
  simp only [update_apply,Prod.mk.injEq,true_and,and_true]

/-- A consumer calls `try_pop`. -/
theorem Inv.callPop (h : Inv r s active pushed popped) (hc : (s.consumer c).pc=.enter)
    (hs : s.stepQueue r (.callPop (.consumer c,(s.consumer c).calls,0)
      (List.replicate r.config.payloadSize 0))=some s') :
    Inv r (s'.setConsumer c ⟨(s.consumer c).lastQueueSequence,(s.consumer c).calls+1,.popping⟩)
      active pushed popped := by
  obtain ⟨queue,hqueue,hreach,rfl⟩ := h.stepQueue hs
  obtain ⟨hidle,hpop,hpush⟩ := callPop_step hqueue
  have hkeeps : Keeps s.queue queue :=
    .of_update hqueue (fun _ _ _ _ he => by rw [hidle] at he; cases he) hpop
  refine h.moveConsumer ⟨Nat.le_succ _,fun _ => .inr (Nat.lt_succ_self _)⟩ hreach hkeeps hpush
    ?_ ?_ trivial (by simp only [unmarked,hc])
  · intro j hj
    rw [hpop,update_of_ne]
    rintro rfl
    exact hj rfl
  · rw [hpop,update_pop]
    exact (h.consumers c).call

/-- A pop makes an access. -/
theorem Inv.pop (h : Inv r s active pushed popped) (hc : (s.consumer c).pc=.popping) {ts : ℕ}
    {spurious : Bool}
    (hs : s.stepQueue r (.pop (.consumer c,(s.consumer c).calls-1,0) ts spurious)=some s') :
    Inv r s' active pushed popped := by
  obtain ⟨queue,hqueue,hreach,rfl⟩ := h.stepQueue hs
  obtain ⟨original,destination,pc,call,hcall,hpop,horiginal,hpush⟩ := pop_step hqueue
  have hkeeps : Keeps s.queue queue :=
    .of_update hqueue (fun _ _ _ _ he => by rw [hcall] at he; cases he) hpop
  have hothers : ∀ j : Call n m,j.1≠.consumer c → queue.pop j=s.queue.pop j := by
    intro j hj
    rw [hpop,update_of_ne]
    rintro rfl
    exact hj rfl
  have hok : ConsumerOk r (fun k => queue.pop (.consumer c,k,0)) (s.consumer c) := by
    rw [hpop,update_pop]
    refine (h.consumers c).access hc (by rw [hcall,horiginal]; rfl) ?_
    intro position hposition
    by_cases hold : (s.queue.pop (.consumer c,(s.consumer c).calls-1,0)).position=some position
    · exact .inl hold
    · refine .inr fun k position' hk => ?_
      refine pop_claims_behind h.queue hqueue ?_ hold hk
      rw [hpop,update_self]
      exact hposition
  have hmove := h.moveConsumer (y:=s.consumer c) ⟨le_rfl,.inl⟩ hreach hkeeps hpush hothers hok
    (h.waits c) rfl
  rwa [State.setConsumer,update_eq_self] at hmove

/-- A pop returns. -/
theorem Inv.popReturns (h : Inv r s active pushed popped) (hc : (s.consumer c).pc=.popping)
    {original destination : List Byte} {position : Option ℕ} {result : ReadResult}
    (hcall : s.queue.pop (.consumer c,(s.consumer c).calls-1,0)=
      .returned original destination position result) :
    Inv r (s.gotoConsumer c (afterPop destination result)) active pushed popped := by
  have hok := h.consumers c
  have hcalls := (hok.called hc).1
  cases position with
  | some q =>
    obtain ⟨p,l,-,-,-,rfl,-⟩ := h.taken hcall
    refine h.gotoConsumer (fun _ => by rw [hc]; rfl) (hok.goto ?_ (fun _ => by rw [hc]; rfl)
      nofun nofun) trivial (by simp only [unmarked,afterPop,hc])
    intro payload result' hheld
    cases hheld
    exact ⟨hcalls,original,q,hcall⟩
  | none =>
    obtain ⟨rfl,rfl⟩ := h.delivers.pop_empty _ _ _ _ hcall
    exact h.gotoConsumer nofun (hok.goto nofun nofun nofun nofun) trivial
      (by simp only [unmarked,afterPop,hc])

/-- A consumer counts a message. -/
theorem Inv.countPopped (h : Inv r s active pushed popped) {payload : List Byte}
    {result : ReadResult} (hc : (s.consumer c).pc=.countPopped payload result)
    {history : History (Thread n m) Counter ℕ} {l : Local (Thread n m) Counter}
    (hmemory : Memory history (update s.views (.consumer c) l) active pushed (popped+1))
    (hle : (s.views (.consumer c)).current ≤ l.current) :
    Inv r ((s.setMemory (.consumer c) history l).gotoConsumer c (.checkOrder payload result))
      active pushed (popped+1) := by
  have hmoves : MovesOn s c {s.consumer c with pc := .checkOrder payload result} :=
    ⟨le_rfl,fun _ => .inl (by rw [hc]; rfl)⟩
  have hok : ConsumerOk r (fun k => s.queue.pop (.consumer c,k,0))
      {s.consumer c with pc := .checkOrder payload result} := by
    refine (h.consumers c).goto ?_ (fun _ => by rw [hc]; rfl) nofun nofun
    intro payload' result' hheld
    exact (h.consumers c).holds payload' result' (by rw [hc]; exact hheld)
  refine {h with
    memory := hmemory, consumers := h.consumers_update hok, waits := ?_, poppedCount := ?_
    consumed := fun g hg => h.consumed_update hmoves (.refl s.queue) hg}
  · exact (forall_update_iff s.consumer fun c' z =>
      Waits (update s.views (.consumer c) l) active pushed (popped+1) c' z.pc).mpr ⟨trivial,
        fun c' _ => (h.waits c').mono (seen_le_update s.views hle _ _) (Nat.le_succ _)⟩
  · have hsum := sum_update unmarked s.consumer c
      {s.consumer c with pc := .checkOrder payload result}
    have hcount := h.poppedCount
    simp only [State.gotoConsumer,State.setConsumer,State.setMemory]
    simp only [unmarked,hc] at hsum hcount ⊢
    omega

/-- The message at hand. -/
theorem Inv.holding (h : Inv r s active pushed popped) {payload : List Byte} {result : ReadResult}
    (hheld : held (s.consumer c).pc=some (payload,result)) :
    1 ≤ (s.consumer c).calls ∧ ∃ (p : Fin n) (l position : ℕ) (original : List Byte),
      1≤l ∧ l ≤ r.config.iterations ∧ payload=r.payload p l ∧ result.sequence=position+1 ∧
      s.queue.pop (.consumer c,(s.consumer c).calls-1,0)=
        .returned original payload (some position) result ∧
      Taken r s.queue (.consumer c,(s.consumer c).calls-1,0) p l := by
  obtain ⟨hcalls,original,position,hpop⟩ := (h.consumers c).holds payload result hheld
  obtain ⟨p,l,hpos,hl,hpayload,rfl,htaken⟩ := h.taken hpop
  exact ⟨hcalls,p,l,position,original,hpos,hl,hpayload,rfl,hpop,htaken⟩

/-- Sequences ascend. -/
theorem Inv.checkOrder (h : Inv r s active pushed popped) {payload : List Byte}
    {result : ReadResult} (hc : (s.consumer c).pc=.checkOrder payload result) :
    Inv r (StressMpmc.checkOrder r s c payload result) active pushed popped := by
  have hheld : held (s.consumer c).pc=some (payload,result) := by rw [hc]; rfl
  obtain ⟨hcalls,p,l,position,original,-,-,-,hsequence,hpop,-⟩ := h.holding hheld
  have hnew : ¬result.sequence ≤ (s.consumer c).lastQueueSequence := by
    have := (h.consumers c).newest (by rw [hc]; rfl) position (by rw [hpop]; rfl)
    omega
  unfold StressMpmc.checkOrder
  simp only [if_neg hnew]
  exact h.moveConsumer (y:=⟨result.sequence,(s.consumer c).calls,.validate payload result⟩)
    ⟨le_rfl,fun _ => .inl (by rw [hc]; rfl)⟩ h.queue (.refl s.queue) rfl (fun _ _ => rfl)
    ((h.consumers c).checked hcalls hpop hsequence) trivial (by simp only [unmarked,hc])

/-- Messages pass their check. -/
theorem Inv.validate (h : Inv r s active pushed popped) (hn : n=r.config.producers)
    {payload : List Byte} {result : ReadResult}
    (hc : (s.consumer c).pc=.validate payload result) :
    Inv r (StressMpmc.validate r s c payload result) active pushed popped := by
  have hheld : held (s.consumer c).pc=some (payload,result) := by rw [hc]; rfl
  obtain ⟨-,p,l,-,-,hpos,hl,hpayload,-,-,-⟩ := h.holding hheld
  have hrange : r.inRange (readHeader payload)=true := by
    rw [hpayload]
    exact r.inRange_payload (hn ▸ p.isLt) hpos hl
  have hchecked : validatePayload r.random r.config "mpmc" payload (readHeader payload).producerId
      (readHeader payload).localSequence (readHeader payload).globalId result.sequence
      s.failures=(true,s.failures) := by
    rw [hpayload]
    exact r.validate_payload "mpmc" p l result.sequence s.failures
  unfold StressMpmc.validate
  simp only [hrange,hchecked,if_true]
  have hok : ConsumerOk r (fun k => s.queue.pop (.consumer c,k,0))
      {s.consumer c with pc := .mark payload result} := by
    refine (h.consumers c).goto ?_ nofun nofun nofun
    intro payload' result' hsame
    exact (h.consumers c).holds payload' result' (by rw [hc]; exact hsame)
  exact h.gotoConsumer (fun _ => by rw [hc]; rfl) hok trivial (by simp only [unmarked,hc])

/-- Messages are within the configured numbers. -/
theorem Inv.taken_within (h : Inv r s active pushed popped) {j : Call n m} {p : Fin n} {l : ℕ}
    (ht : Taken r s.queue j p l) : 1≤l ∧ l ≤ r.config.iterations := by
  obtain ⟨_,_,_,a,-,_,hpush⟩ := ht
  exact ((h.producers p).payload l a (by simp [hpush])).2

/-- The message at hand was not consumed before. -/
theorem Inv.unconsumed (h : Inv r s active pushed popped) {p : Fin n} {l : ℕ}
    (hcalls : 1 ≤ (s.consumer c).calls) (hpending : pending (s.consumer c).pc=true)
    (ht : Taken r s.queue (.consumer c,(s.consumer c).calls-1,0) p l) :
    s.consumed (r.globalSequence p l)=false := by
  by_contra hset
  obtain ⟨c',k,p',l',-,hother,ht',hsame⟩ := h.consumed _ (Bool.eq_true_of_not_eq_false hset)
  obtain ⟨hpos,hl⟩ := h.taken_within ht
  obtain ⟨hpos',hl'⟩ := h.taken_within ht'
  obtain ⟨hid,rfl⟩ := r.globalSequence_inj hpos hl hpos' hl' hsame
  obtain rfl := Fin.ext hid
  -- the mark was set behind a call that is not the last one
  have hcall := h.taken_unique ht' ht
  simp only [Prod.mk.injEq,Thread.consumer.injEq,and_true] at hcall
  obtain ⟨rfl,rfl⟩ := hcall
  exact hother hpending (Nat.sub_add_cancel hcalls)

/-- A consumer marks its message. -/
theorem Inv.markConsumed (h : Inv r s active pushed popped) (hn : n=r.config.producers)
    {payload : List Byte} {result : ReadResult} (hc : (s.consumer c).pc=.mark payload result) :
    Inv r (StressMpmc.markConsumed r s c payload result) active pushed popped := by
  have hheld : held (s.consumer c).pc=some (payload,result) := by rw [hc]; rfl
  obtain ⟨hcalls,p,l,-,-,-,hl,hpayload,-,-,htaken⟩ := h.holding hheld
  have hp : (p : ℕ)<r.config.producers := hn ▸ p.isLt
  have hglobal : (readHeader payload).globalId.toNat=r.globalSequence p l := by
    rw [hpayload,r.readHeader_payload]
    exact r.toNat_global hp hl
  have hfresh := h.unconsumed hcalls (by rw [hc]; rfl) htaken
  have hmoves : MovesOn s c {s.consumer c with pc := .enter} := ⟨le_rfl,nofun⟩
  unfold StressMpmc.markConsumed
  simp only [hglobal,hfresh,Bool.false_eq_true,if_false]
  refine {h with consumers := ?_, waits := h.waits_update trivial, consumed := ?_, poppedCount := ?_}
  · exact h.consumers_update ((h.consumers c).goto nofun nofun nofun nofun)
  · intro g hg
    simp only [State.gotoConsumer,State.setConsumer] at hg ⊢
    by_cases hsame : g=r.globalSequence p l
    · refine ⟨c,(s.consumer c).calls-1,p,l,?_,?_,htaken,hsame⟩
      · rw [update_self]
        exact Nat.sub_lt hcalls Nat.zero_lt_one
      · rw [update_self]
        nofun
    · rw [update_of_ne hsame] at hg
      exact h.consumed_update hmoves (.refl s.queue) hg
  · have hsum := sum_update unmarked s.consumer c {s.consumer c with pc := .enter}
    have hcount := h.poppedCount
    have hlt : r.globalSequence p l < bound r := Nat.lt_succ_of_le (r.globalSequence_le hp hl)
    have hcard := card_marked_update hlt hfresh
    simp only [State.gotoConsumer,State.setConsumer,hcard]
    simp only [unmarked,hc] at hsum hcount ⊢
    omega

/-- A load and what follows it. -/
theorem loadAt_eq_some {t : Thread n m} {order : LoadOrder} {a : Counter} {ts : ℕ}
    {next : State n m → ℕ → State n m} (hs : s.loadAt t order a ts next=some s') :
    ∃ found l,load s.history (s.views t) order a ts=some (found,l) ∧
      s'=next (s.setMemory t s.history l) found := by
  obtain ⟨⟨found,l⟩,hl,rfl⟩ := Option.map_eq_some_iff.mp hs
  exact ⟨found,l,hl,rfl⟩

/-- A counter is loaded. -/
theorem Inv.load (h : Inv r s active pushed popped) {t : Thread n m} {order : LoadOrder}
    {a : Counter} {ts found : ℕ} {l : Local (Thread n m) Counter}
    (hl : ReleaseAcquire.load s.history (s.views t) order a ts=some (found,l)) :
    Inv r (s.setMemory t s.history l) active pushed popped := by
  refine h.setMemory (h.memory.load hl) ?_
  obtain ⟨_,-,-,-,rfl⟩ := load_eq_some hl
  exact le_observe order (s.views t) a ts _

/-- A consumer without a message goes on to a program point where it has none. -/
theorem Inv.idle (h : Inv r s active pushed popped) {pc : ConsumerPc}
    (hfree : unmarked (s.consumer c)=0) (hpc : pending pc=false)
    (hfail : ∀ result,pc≠.fail result) (hwait : Waits s.views active pushed popped c pc) :
    Inv r (s.gotoConsumer c pc) active pushed popped := by
  have hopen : unchecked pc=true → unchecked (s.consumer c).pc=true := by
    intro ho
    cases pc <;> cases ho <;> cases hpc
  refine h.gotoConsumer (fun hp => by rw [hpc] at hp; cases hp)
    ((h.consumers c).goto ?_ hopen ?_ hfail) hwait ?_
  · intro payload result hheld
    cases pc <;> cases hheld <;> cases hpc
  · rintro rfl
    cases hpc
  · rw [hfree]
    cases pc <;> first | rfl | cases hpc

/-- A consumer asks whether producers are still working. -/
theorem Inv.loadRemaining (h : Inv r s active pushed popped)
    (hc : (s.consumer c).pc=.loadRemaining) {ts found : ℕ} {l : Local (Thread n m) Counter}
    (hl : ReleaseAcquire.load s.history (s.views (.consumer c)) .acquire .remainingProducers ts=
      some (found,l)) :
    Inv r ((s.setMemory (.consumer c) s.history l).gotoConsumer c
      (if found=0 then .compare none none else .enter)) active pushed popped := by
  have hfree : unmarked (s.consumer c)=0 := by simp only [unmarked,hc]
  split
  · rename_i hzero
    subst hzero
    -- the last signature was acquired, and with it the final value of `pushed`
    obtain ⟨hnone,hseen⟩ := h.memory.signOff.acquire hl
    refine (h.load hl).idle hfree rfl nofun ⟨hnone,?_,nofun,nofun⟩
    simp only [State.setMemory,update_self]
    exact hseen
  · exact (h.load hl).idle hfree rfl nofun trivial

/-- The comparison ends. -/
theorem Inv.afterCompare (h : Inv r s active pushed popped)
    (hfree : unmarked (s.consumer c)=0) (hnone : active=∅) {found known : ℕ}
    (hfound : found≤popped) (hknown : known=pushed) :
    Inv r (s.gotoConsumer c (StressMpmc.afterCompare found known)) active pushed popped := by
  unfold StressMpmc.afterCompare
  split
  · rename_i hle
    exact h.idle hfree rfl nofun ⟨hnone,hknown ▸ hle.trans hfound⟩
  · exact h.idle hfree rfl nofun trivial

/-- A consumer that found all producers signed off loads the final value of `pushed`. -/
theorem Inv.load_pushed (h : Inv r s active pushed popped) {order : LoadOrder} {ts found : ℕ}
    {l : Local (Thread n m) Counter}
    (hseen : pushed ≤ (s.views (.consumer c)).current.seen .pushed)
    (hl : ReleaseAcquire.load s.history (s.views (.consumer c)) order .pushed ts=
      some (found,l)) : found=pushed := by
  obtain ⟨hvalue,hle,hts⟩ := h.memory.signOff.counted.load hl
  exact hvalue.trans (Nat.le_antisymm hle (hseen.trans hts))

/-- A consumer loads no more than the final value of `popped`. -/
theorem Inv.load_popped (h : Inv r s active pushed popped) {order : LoadOrder} {ts found : ℕ}
    {l : Local (Thread n m) Counter}
    (hl : ReleaseAcquire.load s.history (s.views (.consumer c)) order .popped ts=
      some (found,l)) : found≤popped := by
  obtain ⟨hvalue,hle,-⟩ := h.memory.poppedChain.load hl
  exact hvalue.trans_le hle

/-- Every step of a consumer keeps the invariant. -/
theorem Inv.stepConsumer (h : Inv r s active pushed popped) (hn : n=r.config.producers) {ts : ℕ}
    {spurious pushedFirst : Bool}
    (hs : StressMpmc.stepConsumer r s c ts spurious pushedFirst=some s') :
    ∃ popped',Inv r s' active pushed popped' := by
  have hwait := h.waits c
  unfold StressMpmc.stepConsumer at hs
  dsimp only at hs
  split at hs
  · rename_i hc
    obtain ⟨s₁,hs₁,rfl⟩ := Option.map_eq_some_iff.mp hs
    exact ⟨_,h.callPop hc hs₁⟩
  · rename_i hc
    split at hs
    · rename_i hcall
      cases hs
      exact ⟨_,h.popReturns hc hcall⟩
    · exact ⟨_,h.pop hc hs⟩
  · rename_i hc
    obtain ⟨s₁,hs₁,rfl⟩ := Option.map_eq_some_iff.mp hs
    obtain ⟨found,history,l,hx,rfl⟩ := increment_eq_some hs₁
    exact ⟨_,h.countPopped hc (h.memory.pop hx) (le_of_fetchUpdate hx)⟩
  · rename_i hc
    cases hs
    exact ⟨_,h.checkOrder hc⟩
  · rename_i hc
    cases hs
    exact ⟨_,h.validate hn hc⟩
  · rename_i hc
    cases hs
    exact ⟨_,h.markConsumed hn hc⟩
  · rename_i hc
    obtain ⟨s₁,hs₁,rfl⟩ := Option.map_eq_some_iff.mp hs
    obtain ⟨found,history,l,hx,rfl⟩ := increment_eq_some hs₁
    exact ⟨_,(h.setMemory (h.memory.empty hx) (le_of_fetchUpdate hx)).idle
      (by simp only [unmarked,State.setMemory,hc]) rfl nofun trivial⟩
  · rename_i hc
    obtain ⟨found,l,hl,rfl⟩ := loadAt_eq_some hs
    exact ⟨_,h.loadRemaining hc hl⟩
  all_goals
    rename_i hc
    rw [hc] at hwait
  · obtain ⟨hnone,hseen,-,-⟩ := hwait
    have hfree : unmarked (s.consumer c)=0 := by simp only [unmarked,hc]
    split at hs
    · obtain ⟨found,l,hl,rfl⟩ := loadAt_eq_some hs
      have hloaded := (h.load hl).waits c
      rw [State.setMemory,hc] at hloaded
      refine ⟨_,(h.load hl).idle hfree rfl nofun ⟨hnone,hloaded.2.1,nofun,?_⟩⟩
      intro v hv
      cases hv
      exact h.load_pushed hseen hl
    · obtain ⟨found,l,hl,rfl⟩ := loadAt_eq_some hs
      have hloaded := (h.load hl).waits c
      rw [State.setMemory,hc] at hloaded
      refine ⟨_,(h.load hl).idle hfree rfl nofun ⟨hnone,hloaded.2.1,?_,nofun⟩⟩
      intro v hv
      cases hv
      exact h.load_popped hl
  · obtain ⟨hnone,hseen,hfound,-⟩ := hwait
    obtain ⟨found,l,hl,rfl⟩ := loadAt_eq_some hs
    exact ⟨_,(h.load hl).afterCompare (by simp only [unmarked,State.setMemory,hc]) hnone
      (hfound _ rfl) (h.load_pushed hseen hl)⟩
  · obtain ⟨hnone,-,-,hknown⟩ := hwait
    obtain ⟨found,l,hl,rfl⟩ := loadAt_eq_some hs
    exact ⟨_,(h.load hl).afterCompare (by simp only [unmarked,State.setMemory,hc]) hnone
      (h.load_popped hl) (hknown _ rfl)⟩
  · obtain ⟨hnone,-,hfound,hknown⟩ := hwait
    cases hs
    exact ⟨_,h.afterCompare (by simp only [unmarked,hc]) hnone (hfound _ rfl) (hknown _ rfl)⟩
  · exact absurd hc ((h.consumers c).sound _)
  · cases hs

end Moves

end Line64.StressMpmcInvariant
