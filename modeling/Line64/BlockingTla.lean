import Mathlib.Data.Finset.Dedup
import Mathlib.Data.Set.Card
import Line64.BlockingConservation

/-!
# The TLA+ specification of the blocking queue and its refinement

Variables and actions of `BlockingQueue.tla`, kept action by action, with all
invariants of its configuration for every capacity and every set of values.
The specification has no threads, locks or waits. The code performs its
actions inside critical sections: blocking, waking, notifying and refused
calls are invisible, and so is a second `close`.
-/

namespace Line64.BlockingTla

open Function Result Transition

variable {α τ : Type}

/-- The variables of the specification. -/
structure State (α : Type) where
  /-- Items in the queue, front first. -/
  queue : List α
  /-- Accepted items, oldest first. -/
  accepted : List α
  /-- Popped items, oldest first. -/
  popped : List α
  /-- Whether the queue is closed. -/
  closed : Bool

/-- The predicate `Init`, which determines the state. -/
def init : State α := ⟨[],[],[],false⟩

/-- The action `Push`. -/
def Push (capacity : ℕ) (values : Set α) (value : α) (t t' : State α) : Prop :=
  t.closed=false ∧ t.queue.length<capacity ∧ value ∈ values ∧ value ∉ t.accepted ∧
  t'={t with queue := t.queue++[value], accepted := t.accepted++[value]}

/-- The action `Pop`. -/
def Pop (t t' : State α) : Prop :=
  ∃ value rest,t.queue=value::rest ∧ t'={t with popped := t.popped++[value], queue := rest}

/-- The action `Close`. -/
def Close (t t' : State α) : Prop := t.closed=false ∧ t'={t with closed := true}

/-- Names of the action instances. -/
inductive Action (α : Type)
  | push (value : α)
  | pop
  | close
  deriving DecidableEq, Repr

/-- The relation `Next`, split by the action that is taken. -/
def Next (capacity : ℕ) (values : Set α) : Action α → State α → State α → Prop
  | .push value => Push capacity values value
  | .pop => Pop
  | .close => Close

/-- The operator `NoDuplicates`: as many different elements as places. -/
def NoDuplicates (sequence : List α) : Prop := {value | value ∈ sequence}.ncard=sequence.length

/-- The invariants of the configuration. -/
structure Invariants (capacity : ℕ) (values : Set α) (t : State α) : Prop where
  /-- Items of `TypeOK`. -/
  type_ok : (∀ value ∈ t.queue,value ∈ values) ∧ (∀ value ∈ t.accepted,value ∈ values) ∧
    ∀ value ∈ t.popped,value ∈ values
  /-- `Bounded`. -/
  bounded : t.queue.length ≤ capacity
  /-- `Conservation`. -/
  conservation : t.accepted=t.popped++t.queue
  /-- `UniqueAcceptance`. -/
  unique_acceptance : NoDuplicates t.accepted
  /-- `UniqueConsumption`. -/
  unique_consumption : NoDuplicates t.popped

/-- The inductive invariant. -/
structure Inv (capacity : ℕ) (values : Set α) (t : State α) : Prop where
  /-- Accepted items are values. -/
  typed : ∀ value ∈ t.accepted,value ∈ values
  /-- The queue fits. -/
  bounded : t.queue.length ≤ capacity
  /-- The queue holds what was accepted and not popped. -/
  conservation : t.accepted=t.popped++t.queue
  /-- Nothing is accepted twice. -/
  unique : t.accepted.Nodup

section Specification

variable {capacity : ℕ} {values : Set α} {t t' : State α}

/-- A list without repetitions has as many elements as places. -/
theorem noDuplicates_of_nodup {sequence : List α} (h : sequence.Nodup) :
    NoDuplicates sequence := by
  classical
  have hset : {value | value ∈ sequence}=(sequence.toFinset : Set α) := by
    ext value
    simp
  rw [NoDuplicates,hset,Set.ncard_coe_finset,List.toFinset_card_of_nodup h]

/-- The invariants of the configuration follow from the inductive one. -/
theorem Inv.invariants (h : Inv capacity values t) : Invariants capacity values t := by
  have hunique := h.unique
  have htyped := h.typed
  rw [h.conservation] at htyped
  rw [h.conservation,List.nodup_append] at hunique
  exact
    { type_ok := ⟨fun value hmem => htyped value (List.mem_append_right _ hmem),h.typed,
        fun value hmem => htyped value (List.mem_append_left _ hmem)⟩
      bounded := h.bounded
      conservation := h.conservation
      unique_acceptance := noDuplicates_of_nodup h.unique
      unique_consumption := noDuplicates_of_nodup hunique.1 }

/-- Every action keeps the invariant. -/
theorem Inv.next (h : Inv capacity values t) {l : Action α} (hs : Next capacity values l t t') :
    Inv capacity values t' := by
  cases l with
  | push value =>
    obtain ⟨-,hroom,hvalue,hfresh,rfl⟩ := hs
    refine ⟨?_,?_,?_,?_⟩
    · intro other hmem
      rcases List.mem_append.mp hmem with hold | hnew
      · exact h.typed other hold
      · rw [List.mem_singleton.mp hnew]
        exact hvalue
    · show (t.queue++[value]).length ≤ capacity
      rw [List.length_append,List.length_singleton]
      exact hroom
    · show t.accepted++[value]=t.popped++(t.queue++[value])
      rw [h.conservation,List.append_assoc]
    · refine List.nodup_append.mpr ⟨h.unique,List.nodup_singleton _,?_⟩
      intro other hold last hnew he
      rw [List.mem_singleton] at hnew
      exact hfresh (hnew ▸ he ▸ hold)
  | pop =>
    obtain ⟨value,rest,hqueue,rfl⟩ := hs
    refine ⟨h.typed,?_,?_,h.unique⟩
    · have hle := h.bounded
      rw [hqueue,List.length_cons] at hle
      exact Nat.le_of_succ_le hle
    · show t.accepted=t.popped++[value]++rest
      rw [h.conservation,hqueue,List.append_assoc,List.singleton_append]
  | close =>
    obtain ⟨-,rfl⟩ := hs
    exact ⟨h.typed,h.bounded,h.conservation,h.unique⟩

/-- The invariants of the configuration hold along every behaviour, for all
capacities and all sets of values. -/
theorem blocking_behaviour_invariants (h : Behaviour init (Next capacity values) t) :
    Invariants capacity values t := by
  have hinit : Inv capacity values (init : State α) :=
    ⟨fun _ hmem => absurd hmem List.not_mem_nil,Nat.zero_le _,rfl,List.nodup_nil⟩
  have hinv := h.invariant hinit fun _ _ _ hi hs => hi.next hs
  exact hinv.invariants

/-- The invariants behind a push, the closure and a pop. -/
theorem blocking_behaviour_invariants_closed :
    ∃ t : State ℕ,t.popped=[7] ∧ t.closed=true ∧ Invariants 1 {7} t := by
  have hpush : Next 1 {7} (.push 7) init _ :=
    ⟨rfl,Nat.zero_lt_one,Set.mem_singleton 7,List.not_mem_nil,rfl⟩
  have hpushed := Behaviour.init.step hpush
  have hclosed := hpushed.step (l:=Action.close) ⟨rfl,rfl⟩
  have hpopped := hclosed.step (l:=Action.pop) ⟨7,[],rfl,rfl⟩
  exact ⟨_,rfl,rfl,blocking_behaviour_invariants hpopped⟩

end Specification

section Refinement

open BlockingModel BlockingConservation

/-- The refinement mapping. -/
def specState (s : BlockingModel.State τ α) : State α :=
  ⟨s.queue,accepted s.log,delivered s.log,s.closed⟩

/-- Action of the specification performed by a critical section, given the
flag in front of it. -/
def action (closed : Bool) (e : Event τ α) : Option (Action α) :=
  match acceptedItem e,deliveredItem e,e.op with
  | some item,_,_ => some (.push item)
  | none,some _,_ => some .pop
  | none,none,.close => if closed then none else some .close
  | none,none,_ => none

/-- The specification behind a critical section. -/
def behind (t : State α) (queue : List α) (closed : Bool) (e : Event τ α) : State α :=
  ⟨queue,t.accepted++(acceptedItem e).toList,t.popped++(deliveredItem e).toList,closed⟩

/-- A critical section that moves no item and keeps the flag. -/
theorem behind_of_none (t : State α) {e : Event τ α} (haccepted : acceptedItem e=none)
    (hdelivered : deliveredItem e=none) : behind t t.queue t.closed e=t := by
  rw [behind,haccepted,hdelivered,Option.toList_none,List.append_nil,List.append_nil]

/-- A critical section that removes an item. -/
theorem pop_of_does {t : State α} {item : α} {rest : List α} {e : Event τ α}
    (hqueue : t.queue=item::rest) (haccepted : acceptedItem e=none)
    (hdelivered : deliveredItem e=some item) : Pop t (behind t rest t.closed e) := by
  refine ⟨item,rest,hqueue,?_⟩
  rw [behind,haccepted,hdelivered,Option.toList_none,List.append_nil]
  rfl

/-- A critical section is one action of the specification, or none. -/
theorem action_of_does {q : Capacity} {values : Set α} {t : State α} {op : Op α} {answer : Answer α}
    {queue' : List α} {closed' : Bool} (hbounded : t.queue.length≤q.capacity)
    (hdoes : Does q t.queue t.closed op queue' closed' answer) (thread : τ)
    (hfresh : ∀ item,acceptedItem (⟨thread,op,answer⟩ : Event τ α)=some item →
      item ∈ values ∧ item ∉ t.accepted) :
    (action t.closed (⟨thread,op,answer⟩ : Event τ α)=none ∧
      behind t queue' closed' ⟨thread,op,answer⟩=t) ∨
    ∃ l,action t.closed (⟨thread,op,answer⟩ : Event τ α)=some l ∧
      Next q.capacity values l t (behind t queue' closed' ⟨thread,op,answer⟩) := by
  cases hdoes with
  | refused hop hclosed => rcases hop with rfl | rfl <;> exact .inl ⟨rfl,behind_of_none t rfl rfl⟩
  | full hopen hfull => exact .inl ⟨rfl,behind_of_none t rfl rfl⟩
  | @added _ item hop hopen hroom =>
    have hnew : acceptedItem (⟨thread,op,.pushed .success⟩ : Event τ α)=some item := by
      rcases hop with rfl | rfl <;> rfl
    obtain ⟨hvalue,hnot⟩ := hfresh item hnew
    refine .inr ⟨.push item,by simp only [action,hnew],hopen,by omega,hvalue,hnot,?_⟩
    rw [behind,hnew]
    simp only [deliveredItem,Option.toList_some,Option.toList_none,List.append_nil]
  | drained hclosed hempty =>
    have hsame := behind_of_none t (e:=(⟨thread,.pop,.popped none⟩ : Event τ α)) rfl rfl
    rw [hempty] at hsame
    exact .inl ⟨rfl,hsame⟩
  | popped hqueue => exact .inr ⟨.pop,rfl,pop_of_does hqueue rfl rfl⟩
  | missed hempty =>
    have hnone : deliveredItem
        (⟨thread,.tryPop,.tried (if t.closed then .closed else .empty) none⟩ : Event τ α)=none := by
      cases t.closed <;> rfl
    have hsame := behind_of_none t (by rfl) hnone
    rw [hempty] at hsame
    exact .inl ⟨by simp only [action,acceptedItem,hnone],hsame⟩
  | tried hqueue => exact .inr ⟨.pop,rfl,pop_of_does hqueue rfl rfl⟩
  | closes =>
    have hsame := behind_of_none t (e:=(⟨thread,.close,.closed⟩ : Event τ α)) rfl rfl
    cases hc : t.closed with
    | true =>
      rw [hc] at hsame
      exact .inl ⟨rfl,hsame⟩
    | false =>
      refine .inr ⟨.close,rfl,hc,?_⟩
      simp only [behind,acceptedItem,deliveredItem,Option.toList_none,List.append_nil]

variable [DecidableEq τ] [Fintype τ]

/-- Action of the specification performed by a scheduled step: the one of the
critical section it runs. -/
def label (q : Capacity) (s : BlockingModel.State τ α) (a : BlockingModel.Action τ α) :
    Option (Action α) :=
  (step q s a).bind fun s' => (s'.log[s.log.length]?).bind (action s.closed)

/-- No item is accepted twice, and all of them are values. -/
def Fresh (values : Set α) (s : BlockingModel.State τ α) : Prop :=
  (accepted s.log).Nodup ∧ ∀ item ∈ accepted s.log,item ∈ values

variable {q : Capacity} {values : Set α} {s s' : BlockingModel.State τ α}
  {a : BlockingModel.Action τ α}

/-- What is fresh later was fresh before. -/
theorem Fresh.earlier (hs : step q s a=some s') (h : Fresh values s') : Fresh values s := by
  rcases step_does hs with ⟨-,-,hlog⟩ | ⟨t,op,answer,-,hlog⟩
  · rw [Fresh,hlog] at h
    exact h
  · rw [Fresh,hlog,accepted_append] at h
    exact ⟨(List.nodup_append.mp h.1).1,fun item hmem => h.2 item (List.mem_append_left _ hmem)⟩

/-- Every step is simulated. -/
theorem step_simulated (hs : step q s a=some s') (hfresh : Fresh values s')
    (hinv : Inv q.capacity values (specState s)) :
    (label q s a=none ∧ specState s'=specState s) ∨
      ∃ l,label q s a=some l ∧ Next q.capacity values l (specState s) (specState s') := by
  rcases step_does hs with ⟨hqueue,hclosed,hlog⟩ | ⟨t,op,answer,hdoes,hlog⟩
  · refine .inl ⟨?_,by rw [specState,specState,hqueue,hclosed,hlog]⟩
    rw [label,hs,Option.bind_some,hlog,List.getElem?_eq_none (Nat.le_refl _),Option.bind_none]
  · have hlabel : label q s a=action s.closed ⟨t,op,answer⟩ := by
      rw [label,hs,Option.bind_some,hlog,List.getElem?_concat_length,Option.bind_some]
    have hnew : ∀ item,acceptedItem ⟨t,op,answer⟩=some item →
        item ∈ values ∧ item ∉ accepted s.log := by
      intro item hitem
      rw [Fresh,hlog,accepted_append,hitem] at hfresh
      have hlast : item ∈ accepted s.log++(some item).toList :=
        List.mem_append_right _ (List.mem_singleton.mpr rfl)
      refine ⟨hfresh.2 item hlast,?_⟩
      intro hold
      exact (List.nodup_append.mp hfresh.1).2.2 item hold item (List.mem_singleton.mpr rfl) rfl
    have hspec : specState s'=behind (specState s) s'.queue s'.closed ⟨t,op,answer⟩ := by
      rw [specState,hlog,accepted_append,delivered_append]
      rfl
    rw [hlabel,hspec]
    exact action_of_does hinv.bounded hdoes t hnew

/-- Every interleaving of any number of threads in which no item is accepted
twice is, through the mapping, a stuttering run of the specification with the
capacity of the queue. -/
theorem blocking_refines_specification (q : Capacity) {actions : List (BlockingModel.Action τ α)}
    {s : BlockingModel.State τ α} (h : Schedule (system q τ α) actions s) {values : Set α}
    (hfresh : Fresh values s) :
    Matched (system q τ α) (label q) init (Next q.capacity values)
      (fun s t => t=specState s) actions s (specState s) := by
  have hmatched : ∃ t,Matched (system q τ α) (label q) init (Next q.capacity values)
      (fun s t => t=specState s ∧ Inv q.capacity values t) actions s t := by
    refine h.matched_until (R:=fun s t => t=specState s ∧ Inv q.capacity values t)
      (P:=Fresh values) (fun s a s' hs hp => hp.earlier hs) ⟨rfl,?_⟩ ?_ hfresh
    · exact ⟨fun _ hmem => absurd hmem List.not_mem_nil,Nat.zero_le _,rfl,List.nodup_nil⟩
    · rintro s t a s' - hp ⟨rfl,hinv⟩ hs
      rcases step_simulated hs hp hinv with ⟨hl,he⟩ | ⟨l,hl,hn⟩
      · exact .inl ⟨hl,he.symm,hinv⟩
      · exact .inr ⟨l,specState s',hl,hn,rfl,hinv.next hn⟩
  obtain ⟨t,hm⟩ := hmatched
  obtain ⟨rfl,-⟩ := hm.related
  exact hm.mono fun _ _ hr => hr.1

/-- The refinement at a run in which a blocked push is refused by the
closure. -/
theorem blocking_refines_specification_closed :
    ∃ s : BlockingModel.State Bool ℕ,Schedule (system (.ofSucc _ 0) Bool ℕ) closedWhileBlocked s ∧
      Fresh {1} s ∧ delivered s.log=[1] ∧
      Matched (system (.ofSucc _ 0) Bool ℕ) (label (.ofSucc _ 0)) init (Next 1 {1})
        (fun s t => t=specState s) closedWhileBlocked s (specState s) := by
  have hlog : (closedWhileBlocked.foldlM (system (.ofSucc _ 0) Bool ℕ).step
      (system (.ofSucc _ 0) Bool ℕ).init).map (fun s => (accepted s.log,delivered s.log))=
      some ([1],[1]) := by decide +kernel
  obtain ⟨s,hrun,hshown⟩ := Option.map_eq_some_iff.mp hlog
  have hsch := schedule_of_foldlM hrun
  have haccepted : accepted s.log=[1] := congrArg Prod.fst hshown
  have hfresh : Fresh {1} s := by
    rw [Fresh,haccepted]
    exact ⟨List.nodup_singleton 1,fun item hmem => List.mem_singleton.mp hmem⟩
  exact ⟨s,hsch,hfresh,congrArg Prod.snd hshown,
    blocking_refines_specification (.ofSucc _ 0) hsch hfresh⟩

end Refinement

end Line64.BlockingTla
