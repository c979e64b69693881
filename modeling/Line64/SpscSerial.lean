import Line64.SerialCalls
import Line64.SpscFifo

/-!
# The SPSC queue in sequential use

Calls that do not overlap are completed in the order in which they are made,
so the list that explains the log is the list of a sequential execution. A
pop with too small a destination leaves the front of this list in place.
-/

namespace Line64.SpscSerial

open Function Result FixedMessageAccess Transition BoundedFifo SerialCalls SpscModel SpscFifo

variable {N : ℕ}

/-- Calls by number: the last logged call is the one that has returned, and
`empty` may load its two counters in either order. -/
def service (q : Ring) (N : ℕ) : Service (State ℕ N) (Action ℕ) Call Answer where
  system := system q ℕ N
  start
    | _,.push payload,a => a=.callPush payload
    | _,.pop destination,a => a=.callPop destination
    | k,.empty,a => ∃ headFirst,a=.callObserver k .empty headFirst
  access
    | _,.push _,a => a=.push
    | _,.pop _,a => a=.pop
    | k,.empty,a => a=.observe k
  answer
    | s,_,.push _ =>
      match s.producer,s.log.getLast? with
      | .idle,some (.push _ result) => some (.pushed result)
      | _,_ => none
    | s,_,.pop _ =>
      match s.consumer,s.log.getLast? with
      | .idle,some (.pop _ destination result) => some (.popped destination result)
      | _,_ => none
    | s,k,.empty =>
      match s.observer k with
      | .returned _ answer => some (.observed answer)
      | _ => none

/-- The state is one of a run, and observers from `k` on have not started. -/
structure Waiting (q : Ring) (k : ℕ) (s : State ℕ N) : Prop where
  /-- The state is one of a run. -/
  reachable : Reachable (system q ℕ N) s
  /-- Later observers have not started. -/
  fresh : ∀ i,k ≤ i → s.observer i=.idle

/-- No push or pop is in progress and the list explains the log. -/
structure Between (q : Ring) (k : ℕ) (f : Fifo) (s : State ℕ N) : Prop extends Waiting q k s where
  /-- The producer is between calls. -/
  producer : s.producer=.idle
  /-- The consumer is between calls. -/
  consumer : s.consumer=.idle
  /-- The list returns what the calls returned. -/
  explained : Explains N q.capacity true s.log f

/-- The push is the only call in progress. -/
structure DuringPush (q : Ring) (k : ℕ) (payload : List Byte) (f : Fifo) (s : State ℕ N) : Prop
    extends Waiting q (k+1) s where
  /-- The consumer is between calls. -/
  consumer : s.consumer=.idle
  /-- The push is running, or it is the last call of the log. -/
  own : (∃ pc,s.producer=.running payload pc ∧ Explains N q.capacity true s.log f) ∨
    (s.producer=.idle ∧ ∃ log result,s.log=log++[.push payload result] ∧
      Explains N q.capacity true log f)

/-- The pop is the only call in progress. -/
structure DuringPop (q : Ring) (k : ℕ) (original : List Byte) (f : Fifo) (s : State ℕ N) : Prop
    extends Waiting q (k+1) s where
  /-- The producer is between calls. -/
  producer : s.producer=.idle
  /-- The pop is running, or it is the last call of the log. -/
  own : (∃ destination pc,s.consumer=.running original destination pc ∧
      Explains N q.capacity true s.log f) ∨
    (s.consumer=.idle ∧ ∃ log destination result,
      s.log=log++[.pop original destination result] ∧ Explains N q.capacity true log f)

/-- The only `empty` in progress, with the counter it has loaded. -/
inductive Observing (f : Fifo) (head tail : ℕ) : Observer → Prop
  | first (headFirst : Bool) : Observing f head tail (.first .empty headFirst)
  | second (headFirst : Bool) :
      Observing f head tail (.second .empty headFirst (if headFirst then head else tail))
  | returned : Observing f head tail (.returned .empty f.queue.isEmpty)

/-- The call of `empty` is the only one in progress. -/
structure DuringEmpty (q : Ring) (k : ℕ) (f : Fifo) (s : State ℕ N) : Prop
    extends Between q (k+1) f s where
  /-- The call itself. -/
  own : Observing f s.head s.tail (s.observer k)

/-- The call of an operation is the only one in progress. -/
def During (q : Ring) (k : ℕ) : Call → Fifo → State ℕ N → Prop
  | .push payload,f,s => DuringPush q k payload f s
  | .pop destination,f,s => DuringPop q k destination f s
  | .empty,f,s => DuringEmpty q k f s

/-- Bound on the accesses that are left to the producer. -/
def producerRest : Producer → ℕ
  | .idle => 0
  | .running payload .loadHead => payload.length+8
  | .running payload (.loadTail _) => payload.length+7
  | .running payload (.assign _ pc) => assignRest payload pc+2
  | .running _ (.storeHead _ _) => 1

/-- Bound on the accesses that are left to the consumer. -/
def consumerRest (q : Ring) (s : State ℕ N) : Consumer → ℕ
  | .idle => 0
  | .running _ _ .loadTail => (s.slots (s.tail%q.capacity)).size+11
  | .running _ _ (.loadHead tail) => (s.slots (tail%q.capacity)).size+10
  | .running _ _ (.copy tail pc) => copyRest (s.slots (tail%q.capacity)).size pc+2
  | .running _ _ (.storeTail _ _) => 1

section Steps

variable {q : Ring} {s : State ℕ N}

/-- Every access of the producer is one less that is left. -/
theorem stepPush_rest (payload : List Byte) (pc : PushPc) :
    producerRest (stepPush q s payload pc).producer<producerRest (.running payload pc) := by
  cases pc with
  | loadHead => exact Nat.lt_succ_self _
  | loadTail head =>
    simp only [stepPush]
    split_ifs
    · exact Nat.succ_pos _
    · simp only [assignEnter]
      split_ifs
      · simp only [afterAssign,producerRest]
        omega
      · simp only [afterAssign,producerRest,assignFrom]
        split_ifs <;> simp only [assignRest] <;> omega
  | assign head pc =>
    simp only [stepPush]
    cases hnext : (assignStep payload (head+1) (s.slots (head%q.capacity)) pc).2 with
    | running pc' =>
      have hrest := assignStep_rest hnext
      simp only [afterAssign,producerRest]
      omega
    | finished result =>
      simp only [afterAssign,producerRest]
      omega
  | storeHead head result => exact Nat.succ_pos _

/-- Every access of the consumer is one less that is left. -/
theorem stepPop_rest (original destination : List Byte) (pc : PopPc) :
    consumerRest q (stepPop q s original destination pc)
        (stepPop q s original destination pc).consumer<
      consumerRest q s (.running original destination pc) := by
  cases pc with
  | loadTail => exact Nat.lt_succ_self _
  | loadHead tail =>
    simp only [stepPop]
    split_ifs
    · exact Nat.succ_pos _
    · exact Nat.lt_succ_self _
  | copy tail pc =>
    simp only [stepPop]
    cases hnext : (copyStep (s.slots (tail%q.capacity)) destination pc).2 with
    | running pc' =>
      have hrest := copyStep_rest hnext
      simp only [afterCopy,consumerRest]
      omega
    | finished result =>
      simp only [afterCopy]
      split_ifs
      · simp only [consumerRest]
        omega
      · exact Nat.succ_pos _
  | storeTail tail result => exact Nat.succ_pos _

end Steps

section Calls

variable {q : Ring} {k : ℕ} {f : Fifo} {s s' : State ℕ N}

/-- A push starts between calls. -/
theorem Between.start_push (h : Between q k f s) (payload : List Byte) :
    ∃ s',step q s (.callPush payload)=some s' ∧ DuringPush q k payload f s' := by
  have hs : step q s (.callPush payload)=some (enterPush s payload) := by
    simp only [step,h.producer]
  have hfresh : ∀ i,k+1 ≤ i → s.observer i=.idle := fun i hi => h.fresh i (Nat.le_of_succ_le hi)
  refine ⟨_,hs,?_⟩
  have hr : Reachable (system q ℕ N) (enterPush s payload) :=
    h.reachable.step (a:=.callPush payload) hs
  simp only [enterPush] at hr ⊢
  split_ifs at hr ⊢ with hlarge
  · exact ⟨⟨hr,hfresh⟩,h.consumer,.inr ⟨rfl,s.log,_,rfl,h.explained⟩⟩
  · exact ⟨⟨hr,hfresh⟩,h.consumer,.inl ⟨.loadHead,rfl,h.explained⟩⟩

/-- An access of the only push brings it closer to its return. -/
theorem DuringPush.access {payload : List Byte} (h : DuringPush q k payload f s)
    (hs : step q s .push=some s') :
    DuringPush q k payload f s' ∧ producerRest s'.producer<producerRest s.producer := by
  have hr : Reachable (system q ℕ N) s' := h.reachable.step (a:=.push) hs
  rcases h.own with ⟨pc,hp,hexplained⟩ | ⟨hidle,-⟩
  · simp only [step,hp,Option.some.injEq] at hs
    subst hs
    obtain ⟨hconsumer,hobserver,hnext⟩ := stepPush_outcome (q:=q) (s:=s) payload pc
    refine ⟨⟨⟨hr,by rw [hobserver]; exact h.fresh⟩,hconsumer.trans h.consumer,?_⟩,?_⟩
    · rcases hnext with ⟨pc',hp',hlog⟩ | ⟨result,hp',hlog⟩
      · exact .inl ⟨pc',hp',by rwa [hlog]⟩
      · exact .inr ⟨hp',s.log,result,hlog,hexplained⟩
    · rw [hp]
      exact stepPush_rest payload pc
  · simp only [step,hidle,reduceCtorEq] at hs

/-- The only push answers like the list. -/
theorem DuringPush.answer {payload : List Byte} (h : DuringPush q k payload f s) {answer : Answer}
    (hanswer : (service q N).answer s k (.push payload)=some answer) :
    answer=.pushed (f.push N q.capacity payload).2 ∧
      Between q (k+1) (f.push N q.capacity payload).1 s := by
  rcases h.own with ⟨pc,hp,-⟩ | ⟨hidle,log,result,hlog,hexplained⟩
  · simp only [service,hp,reduceCtorEq] at hanswer
  · simp only [service,hidle,hlog,List.getLast?_append_of_ne_nil _ (List.cons_ne_nil _ _),
      List.getLast?_singleton,Option.some.injEq] at hanswer
    obtain ⟨f',hf'⟩ := reachable_inv h.reachable
    have hwhole := hf'.explained
    rw [hlog] at hwhole
    obtain ⟨g,hg,hpush⟩ := hwhole.push_inv
    rw [← hexplained.unique hg] at hpush
    rw [hpush]
    exact ⟨hanswer.symm,h.toWaiting,hidle,h.consumer,hf'.explained⟩

/-- A push in progress returns. -/
theorem DuringPush.returns {payload : List Byte} (h : DuringPush q k payload f s) :
    ∃ n,((service q N).answer (runFrom (system q ℕ N) s (List.replicate n .push)) k
      (.push payload)).isSome=true := by
  have hfinish : LeadsTo (system q ℕ N) .push
      (fun s => DuringPush q k payload f s ∧ s.producer=.idle) s := by
    refine leadsTo_of_measure (fun s => producerRest s.producer) ?_ h
    intro s h hrunning
    rcases h.own with ⟨pc,hp,-⟩ | ⟨hidle,-⟩
    · have hs : step q s .push=some (stepPush q s payload pc) := by simp only [step,hp]
      exact ⟨_,hs,h.access hs⟩
    · exact absurd hidle hrunning
  obtain ⟨n,hd,hidle⟩ := hfinish
  rcases hd.own with ⟨pc,hp,-⟩ | ⟨-,log,result,hlog,-⟩
  · rw [hidle] at hp
    cases hp
  · exact ⟨n,by simp [service,hidle,hlog]⟩

/-- A pop starts between calls. -/
theorem Between.start_pop (h : Between q k f s) (destination : List Byte) :
    ∃ s',step q s (.callPop destination)=some s' ∧ DuringPop q k destination f s' := by
  have hs : step q s (.callPop destination)=
      some {s with consumer := .running destination destination .loadTail} := by
    simp only [step,h.consumer]
  exact ⟨_,hs,⟨h.reachable.step (a:=.callPop destination) hs,
    fun i hi => h.fresh i (Nat.le_of_succ_le hi)⟩,h.producer,
    .inl ⟨destination,.loadTail,rfl,h.explained⟩⟩

/-- An access of the only pop brings it closer to its return. -/
theorem DuringPop.access {original : List Byte} (h : DuringPop q k original f s)
    (hs : step q s .pop=some s') :
    DuringPop q k original f s' ∧ consumerRest q s' s'.consumer<consumerRest q s s.consumer := by
  have hr : Reachable (system q ℕ N) s' := h.reachable.step (a:=.pop) hs
  rcases h.own with ⟨destination,pc,hc,hexplained⟩ | ⟨hidle,-⟩
  · simp only [step,hc,Option.some.injEq] at hs
    subst hs
    obtain ⟨hproducer,hobserver,hnext⟩ := stepPop_outcome (q:=q) (s:=s) original destination pc
    refine ⟨⟨⟨hr,by rw [hobserver]; exact h.fresh⟩,hproducer.trans h.producer,?_⟩,?_⟩
    · rcases hnext with ⟨destination',pc',hc',hlog⟩ | ⟨destination',result,hc',hlog⟩
      · exact .inl ⟨destination',pc',hc',by rwa [hlog]⟩
      · exact .inr ⟨hc',s.log,destination',result,hlog,hexplained⟩
    · rw [hc]
      exact stepPop_rest original destination pc
  · simp only [step,hidle,reduceCtorEq] at hs

/-- The only pop answers like the list. -/
theorem DuringPop.answer {original : List Byte} (h : DuringPop q k original f s) {answer : Answer}
    (hanswer : (service q N).answer s k (.pop original)=some answer) :
    answer=.popped (f.pop true original).2.1 (f.pop true original).2.2 ∧
      Between q (k+1) (f.pop true original).1 s := by
  rcases h.own with ⟨destination,pc,hc,-⟩ | ⟨hidle,log,destination,result,hlog,hexplained⟩
  · simp only [service,hc,reduceCtorEq] at hanswer
  · simp only [service,hidle,hlog,List.getLast?_append_of_ne_nil _ (List.cons_ne_nil _ _),
      List.getLast?_singleton,Option.some.injEq] at hanswer
    obtain ⟨f',hf'⟩ := reachable_inv h.reachable
    have hwhole := hf'.explained
    rw [hlog] at hwhole
    obtain ⟨g,hg,hpop⟩ := hwhole.pop_inv
    rw [← hexplained.unique hg] at hpop
    rw [hpop]
    exact ⟨hanswer.symm,h.toWaiting,h.producer,hidle,hf'.explained⟩

/-- A pop in progress returns. -/
theorem DuringPop.returns {original : List Byte} (h : DuringPop q k original f s) :
    ∃ n,((service q N).answer (runFrom (system q ℕ N) s (List.replicate n .pop)) k
      (.pop original)).isSome=true := by
  have hfinish : LeadsTo (system q ℕ N) .pop
      (fun s => DuringPop q k original f s ∧ s.consumer=.idle) s := by
    refine leadsTo_of_measure (fun s => consumerRest q s s.consumer) ?_ h
    intro s h hrunning
    rcases h.own with ⟨destination,pc,hc,-⟩ | ⟨hidle,-⟩
    · have hs : step q s .pop=some (stepPop q s original destination pc) := by
        simp only [step,hc]
      exact ⟨_,hs,h.access hs⟩
    · exact absurd hidle hrunning
  obtain ⟨n,hd,hidle⟩ := hfinish
  rcases hd.own with ⟨destination,pc,hc,-⟩ | ⟨-,log,destination,result,hlog,-⟩
  · rw [hidle] at hc
    cases hc
  · exact ⟨n,by simp [service,hidle,hlog]⟩

/-- `empty` starts between calls. -/
theorem Between.start_empty (h : Between q k f s) (headFirst : Bool) :
    ∃ s',step q s (.callObserver k .empty headFirst)=some s' ∧ DuringEmpty q k f s' := by
  have hs : step q s (.callObserver k .empty headFirst)=
      some {s with observer := update s.observer k (.first .empty headFirst)} := by
    simp only [step,h.fresh k le_rfl]
  refine ⟨_,hs,⟨⟨h.reachable.step (a:=.callObserver k .empty headFirst) hs,?_⟩,h.producer,h.consumer,
    h.explained⟩,?_⟩
  · intro i hi
    simp only [update_of_ne (by omega : i≠k)]
    exact h.fresh i (Nat.le_of_succ_le hi)
  · simp only [update_self]
    exact .first headFirst

/-- Equal counters mean an empty list. -/
theorem Between.head_eq_tail_iff (h : Between q k f s) :
    s.head=s.tail ↔ f.queue.isEmpty=true := by
  obtain ⟨f',hf'⟩ := reachable_inv h.reachable
  have hhead := hf'.head_eq
  rw [← h.explained.unique hf'.explained] at hhead
  rw [List.isEmpty_iff,← List.length_eq_zero_iff]
  omega

/-- A load of the only `empty`. -/
theorem DuringEmpty.access (h : DuringEmpty q k f s) (hs : step q s (.observe k)=some s') :
    DuringEmpty q k f s' := by
  have hr : Reachable (system q ℕ N) s' := h.reachable.step (a:=.observe k) hs
  have hown := h.own
  simp only [step] at hs
  obtain ⟨next,hnext,rfl⟩ := Option.map_eq_some_iff.mp hs
  have hfresh : ∀ i,k+1 ≤ i → update s.observer k next i=.idle := by
    intro i hi
    rw [update_of_ne (by omega : i≠k)]
    exact h.fresh i hi
  refine ⟨⟨⟨hr,hfresh⟩,h.producer,h.consumer,h.explained⟩,?_⟩
  simp only [update_self]
  generalize s.observer k=observer at hnext hown
  cases hown with
  | first headFirst =>
    cases hnext
    exact .second headFirst
  | second headFirst =>
    have hanswer : decide (s.head=s.tail)=f.queue.isEmpty := by
      rw [Bool.eq_iff_iff,decide_eq_true_eq]
      exact h.head_eq_tail_iff
    cases headFirst <;>
      simp only [stepObserver,SpscModel.answer,Bool.false_eq_true,if_false,if_true,Option.some.injEq] at hnext <;>
      rw [← hnext,hanswer] <;> exact .returned
  | returned => cases hnext

/-- The only `empty` answers like the list. -/
theorem DuringEmpty.answer (h : DuringEmpty q k f s) {answer : Answer}
    (hanswer : (service q N).answer s k .empty=some answer) :
    answer=.observed f.queue.isEmpty ∧ Between q (k+1) f s := by
  have hown := h.own
  refine ⟨?_,h.toBetween⟩
  simp only [service] at hanswer
  generalize s.observer k=observer at hanswer hown
  cases hown with
  | first headFirst => cases hanswer
  | second headFirst => cases hanswer
  | returned => exact (Option.some.inj hanswer).symm

/-- `empty` returns behind its second load. -/
theorem DuringEmpty.returns (h : DuringEmpty q k f s) :
    ∃ n,((service q N).answer (runFrom (system q ℕ N) s (List.replicate n (.observe k))) k
      .empty).isSome=true := by
  have hsecond : ∀ {s : State ℕ N} {question : Question} {headFirst : Bool} {loaded : ℕ},
      s.observer k=.second question headFirst loaded →
      LeadsTo (system q ℕ N) (.observe k)
        (fun s => ∃ question answer,s.observer k=.returned question answer) s := by
    intro s question headFirst loaded ho
    have hs : (system q ℕ N).step s (.observe k)=some {s with
        observer := update s.observer k (.returned question (if headFirst
          then SpscModel.answer q loaded s.tail question
          else SpscModel.answer q s.head loaded question))} := by
      simp only [system,step,ho,stepObserver,Option.map_some]
    exact .next hs (.now ⟨question,_,update_self ..⟩)
  have hfinish : LeadsTo (system q ℕ N) (.observe k)
      (fun s => ∃ question answer,s.observer k=.returned question answer) s := by
    have hown := h.own
    cases ho : s.observer k with
    | idle =>
      rw [ho] at hown
      cases hown
    | first question headFirst =>
      have hs : (system q ℕ N).step s (.observe k)=some {s with
          observer := update s.observer k
            (.second question headFirst (if headFirst then s.head else s.tail))} := by
        simp only [system,step,ho,stepObserver,Option.map_some]
      exact .next hs (hsecond (update_self ..))
    | second question headFirst loaded => exact hsecond ho
    | returned question verdict => exact .now ⟨question,verdict,ho⟩
  obtain ⟨n,question,verdict,ho⟩ := hfinish
  exact ⟨n,by simp only [service,ho,Option.isSome_some]⟩

end Calls

/-- In sequential use the queue answers like a list that keeps a front which
does not fit. -/
theorem implements (q : Ring) (N : ℕ) :
    Implements (service q N) (fifo N q.capacity true) (Between q) (During q) where
  init := ⟨⟨.init,fun _ _ => rfl⟩,rfl,rfl,.nil⟩
  starts := by
    intro k call
    cases call with
    | empty => exact ⟨_,true,rfl⟩
    | _ => exact ⟨_,rfl⟩
  start := by
    intro k call f s a h ha
    cases call with
    | push payload =>
      cases ha
      exact h.start_push payload
    | pop destination =>
      cases ha
      exact h.start_pop destination
    | empty =>
      obtain ⟨headFirst,rfl⟩ := ha
      exact h.start_empty headFirst
  access := by
    intro k call f s a s' h ha hs
    cases call with
    | push payload =>
      cases ha
      exact (DuringPush.access h hs).1
    | pop destination =>
      cases ha
      exact (DuringPop.access h hs).1
    | empty =>
      cases ha
      exact DuringEmpty.access h hs
  answer := by
    intro k call f s answer h hanswer
    cases call with
    | push payload => exact DuringPush.answer h hanswer
    | pop destination => exact DuringPop.answer h hanswer
    | empty => exact DuringEmpty.answer h hanswer
  returns := by
    intro k call f s h
    cases call with
    | push payload =>
      obtain ⟨n,hn⟩ := DuringPush.returns h
      exact ⟨_,fun a ha => List.eq_of_mem_replicate ha,hn⟩
    | pop destination =>
      obtain ⟨n,hn⟩ := DuringPop.returns h
      exact ⟨_,fun a ha => List.eq_of_mem_replicate ha,hn⟩
    | empty =>
      obtain ⟨n,hn⟩ := DuringEmpty.returns h
      exact ⟨_,fun a ha => List.eq_of_mem_replicate ha,hn⟩

end Line64.SpscSerial
