import Mathlib.Data.Fintype.Basic
import Line64.SpscFifo
import Line64.Timeline

/-!
# What `empty` of the SPSC queue observes

`empty` compares two counters that it loads one after the other. A negative
answer, and every answer that loads the tail first, describes an instant of
the call. An affirmative answer that loads the head first may compare an old
head with a newer tail, and then the queue need not have been empty at all.
-/

namespace Line64.SpscObserver

open Function Result FixedMessageAccess Transition Timeline BoundedFifo SpscModel SpscFifo

variable {ι : Type} {N : ℕ}

/-- The observer is inside a call of `empty`. -/
def insideEmpty : Observer → Bool
  | .first .empty _ => true
  | .second .empty _ _ => true
  | _ => false

/-- The step stores the tail. -/
def storesTail (s : State ι N) : Action ι → Bool
  | .pop =>
    match s.consumer with
    | .running _ _ (.storeTail _ _) => true
    | _ => false
  | _ => false

/-- A store of the tail catches up with the head that a call of `empty` has
loaded only while this is still the head. -/
def CatchesUp (s : State ι N) (a : Action ι) : Prop :=
  storesTail s a=true → ∀ i,s.observer i=.second .empty true (s.tail+1) → s.head=s.tail+1

instance [Fintype ι] (s : State ι N) (a : Action ι) : Decidable (CatchesUp s a) :=
  inferInstanceAs (Decidable (_ → ∀ _,_ → _))

/-- What one step does to the counters. -/
inductive Counts (s s' : State ι N) : Action ι → Prop
  /-- Both stay. -/
  | same {a : Action ι} (hhead : s'.head=s.head) (htail : s'.tail=s.tail) : Counts s s' a
  /-- The producer stores the head. -/
  | head {a : Action ι} (hhead : s'.head=s.head+1) (htail : s'.tail=s.tail) : Counts s s' a
  /-- The consumer stores the tail, which is behind the head. -/
  | tail {original destination : List Byte} {tail : ℕ} {result : ReadResult}
      (hs : s.consumer=.running original destination (.storeTail tail result))
      (hbehind : s.tail < s.head) (hhead : s'.head=s.head) (htail : s'.tail=s.tail+1) :
      Counts s s' .pop

section Steps

variable {q : Ring} {s s' : State ι N} {f : Fifo} {a : Action ι}

/-- Counters after an access of the producer. -/
theorem counts_of_stepPush (h : Inv q s f) {payload : List Byte} {pc : PushPc}
    (hs : s.producer=.running payload pc) : Counts s (stepPush q s payload pc) .push := by
  cases pc with
  | loadTail head =>
    simp only [stepPush]
    split_ifs <;> exact .same rfl rfl
  | storeHead head result =>
    have hok := h.producer
    rw [hs] at hok
    obtain ⟨-,rfl,-⟩ := hok
    exact .head rfl rfl
  | _ => exact .same rfl rfl

/-- Counters after an access of the consumer. -/
theorem counts_of_stepPop (h : Inv q s f) {original destination : List Byte} {pc : PopPc}
    (hs : s.consumer=.running original destination pc) :
    Counts s (stepPop q s original destination pc) .pop := by
  cases pc with
  | loadTail => exact .same rfl rfl
  | loadHead tail =>
    simp only [stepPop]
    split_ifs <;> exact .same rfl rfl
  | copy tail pc =>
    simp only [stepPop]
    cases (copyStep (s.slots (tail%q.capacity)) destination pc).2 with
    | running pc' => exact .same rfl rfl
    | finished result =>
      simp only [afterCopy]
      split_ifs <;> exact .same rfl rfl
  | storeTail tail result =>
    have hok := h.consumer
    have hhead := h.head_eq
    rw [hs] at hok
    obtain ⟨rfl,payload,rest,hqueue,-⟩ := hok
    rw [hqueue,List.length_cons] at hhead
    exact .tail hs (by omega) rfl rfl

variable [DecidableEq ι]

/-- Counters after any step. -/
theorem counts_of_step (hr : Reachable (system q ι N) s) (hs : step q s a=some s') :
    Counts s s' a := by
  obtain ⟨f,hf⟩ := reachable_inv hr
  cases a with
  | callPush payload =>
    simp only [step] at hs
    split at hs <;> cases hs
    simp only [enterPush]
    split_ifs <;> exact .same rfl rfl
  | push =>
    simp only [step] at hs
    split at hs <;> cases hs
    rename_i payload pc hp
    exact counts_of_stepPush hf hp
  | callPop destination =>
    simp only [step] at hs
    split at hs <;> cases hs
    exact .same rfl rfl
  | pop =>
    simp only [step] at hs
    split at hs <;> cases hs
    rename_i original destination pc hc
    exact counts_of_stepPop hf hc
  | callObserver i question headFirst =>
    simp only [step] at hs
    split at hs <;> cases hs
    exact .same rfl rfl
  | observe i =>
    obtain ⟨next,-,rfl⟩ := Option.map_eq_some_iff.mp hs
    exact .same rfl rfl

/-- The tail never passes the head. -/
theorem tail_le_head (hr : Reachable (system q ι N) s) : s.tail ≤ s.head := by
  obtain ⟨f,hf⟩ := reachable_inv hr
  exact Nat.le.intro hf.head_eq.symm

/-- An observer is changed by its start and its own loads alone. -/
theorem step_observer_cases (hs : step q s a=some s') (i : ι) :
    s'.observer i=s.observer i ∨
      (∃ question headFirst,a=.callObserver i question headFirst ∧ s.observer i=.idle ∧
        s'.observer i=.first question headFirst) ∨
      (∃ question headFirst,s.observer i=.first question headFirst ∧ s'.head=s.head ∧
        s'.tail=s.tail ∧
        s'.observer i=.second question headFirst (if headFirst then s.head else s.tail)) ∨
      ∃ question headFirst loaded,s.observer i=.second question headFirst loaded ∧
        s'.observer i=.returned question
          (if headFirst then answer q loaded s.tail question else answer q s.head loaded question) := by
  cases a with
  | callPush payload =>
    simp only [step] at hs
    split at hs <;> cases hs
    simp only [enterPush]
    split_ifs <;> exact .inl rfl
  | push =>
    simp only [step] at hs
    split at hs <;> cases hs
    rename_i payload pc hp
    exact .inl (congrFun (stepPush_outcome payload pc).2.1 i)
  | callPop destination =>
    simp only [step] at hs
    split at hs <;> cases hs
    exact .inl rfl
  | pop =>
    simp only [step] at hs
    split at hs <;> cases hs
    rename_i original destination pc hc
    exact .inl (congrFun (stepPop_outcome original destination pc).2.1 i)
  | callObserver k question headFirst =>
    simp only [step] at hs
    split at hs <;> cases hs
    rename_i hk
    by_cases hne : i=k
    · subst hne
      exact .inr (.inl ⟨question,headFirst,rfl,hk,update_self ..⟩)
    · exact .inl (update_of_ne hne _ _)
  | observe k =>
    obtain ⟨next,hnext,rfl⟩ := Option.map_eq_some_iff.mp hs
    by_cases hne : i=k
    · subst hne
      cases ho : s.observer i with
      | first question headFirst =>
        rw [ho] at hnext
        cases hnext
        exact .inr (.inr (.inl ⟨question,headFirst,rfl,rfl,rfl,update_self ..⟩))
      | second question headFirst loaded =>
        rw [ho] at hnext
        cases hnext
        exact .inr (.inr (.inr ⟨question,headFirst,loaded,rfl,update_self ..⟩))
      | _ =>
        rw [ho] at hnext
        cases hnext
    · exact .inl (update_of_ne hne _ _)

end Steps

section Observations

variable [DecidableEq ι] {q : Ring} {actions : List (Action ι)} {i : ι}

/-- An observer that has loaded its first counter loaded it in the state in
which it entered this phase. -/
theorem loaded_at_entry {s s' : State ι N} {a : Action ι} (hs : step q s a=some s')
    {question : Question} {headFirst : Bool} {loaded : ℕ}
    (hout : s.observer i≠.second question headFirst loaded)
    (hin : s'.observer i=.second question headFirst loaded) :
    loaded=if headFirst then s'.head else s'.tail := by
  rcases step_observer_cases hs i with
    hsame | ⟨question,first,-,-,hnew⟩ | ⟨question,first,-,hhead,htail,hnew⟩ |
    ⟨question,first,value,-,hnew⟩
  · exact absurd (hsame.symm.trans hin) hout
  · rw [hnew] at hin
    cases hin
  · rw [hnew] at hin
    cases hin
    rw [hhead,htail]
  · rw [hnew] at hin
    cases hin

/-- While a call of `empty` is between its loads, the counters are still
equal to what it loaded or have differed. -/
theorem equal_or_differed (q : Ring) {headFirst : Bool} {loaded : ℕ}
    (hd : (run (system q ι N) actions).observer i=.second .empty headFirst loaded) :
    ((run (system q ι N) actions).head=loaded ∧ (run (system q ι N) actions).tail=loaded) ∨
    Sometime (system q ι N) (fun m => m.observer i=.second .empty headFirst loaded ∧ m.head≠m.tail)
      actions := by
  refine pending_or_seen (S:=system q ι N) (G:=fun _ _ => True)
    (fun s => s.observer i=.second .empty headFirst loaded)
    (fun s => s.head=loaded ∧ s.tail=loaded) (fun s => s.head≠s.tail) ?_ ?_ ?_
    (along_of_forall (fun _ _ => trivial) _) hd
  · exact fun hidle => Observer.noConfusion hidle
  · intro s a s' hr _ hs hout hin
    have hloaded := loaded_at_entry hs hout hin
    by_cases heq : s'.head=s'.tail
    · refine .inl ?_
      cases headFirst <;> simp only [Bool.false_eq_true,if_false,if_true] at hloaded <;> omega
    · exact .inr heq
  · rintro s a s' hr - hs - - ⟨hhead,htail⟩
    cases counts_of_step hr hs with
    | same hh ht => exact .inl ⟨hh.trans hhead,ht.trans htail⟩
    | head hh ht => exact .inr (by omega)
    | tail _ hbehind _ _ => omega

/-- A tail that was loaded first stays a lower bound of the tail. -/
theorem loaded_le_tail (q : Ring) {loaded : ℕ}
    (hd : (run (system q ι N) actions).observer i=.second .empty false loaded) :
    loaded ≤ (run (system q ι N) actions).tail := by
  have hcases := pending_or_seen (S:=system q ι N) (G:=fun _ _ => True)
    (fun s => s.observer i=.second .empty false loaded) (fun s => loaded ≤ s.tail)
    (fun _ => False) (fun hidle => Observer.noConfusion hidle) ?_ ?_
    (along_of_forall (fun _ _ => trivial) _) hd
  · rcases hcases with hle | ⟨_,_,_,hfalse⟩
    · exact hle
    · exact hfalse.elim
  · intro s a s' hr _ hs hout hin
    exact .inl (loaded_at_entry hs hout hin).le
  · intro s a s' hr _ hs _ _ hle
    cases counts_of_step hr hs with
    | same hh ht => exact .inl (by omega)
    | head hh ht => exact .inl (by omega)
    | tail _ _ hh ht => exact .inl (by omega)

/-- Where stores of the tail only catch up with a present head, a head that
was loaded first is still ahead of the tail, or the queue has been empty. -/
theorem ahead_or_empty (q : Ring) {loaded : ℕ} (halong : Along (system q ι N) CatchesUp actions)
    (hd : (run (system q ι N) actions).observer i=.second .empty true loaded) :
    (run (system q ι N) actions).tail<loaded ∨
    Sometime (system q ι N) (fun m => m.observer i=.second .empty true loaded ∧ m.head=m.tail)
      actions := by
  refine pending_or_seen (S:=system q ι N) (G:=CatchesUp)
    (fun s => s.observer i=.second .empty true loaded) (fun s => s.tail<loaded)
    (fun s => s.head=s.tail) ?_ ?_ ?_ halong hd
  · exact fun hidle => Observer.noConfusion hidle
  · intro s a s' hr _ hs hout hin
    have hloaded : loaded=s'.head := loaded_at_entry hs hout hin
    have hle := tail_le_head (hr.step hs)
    omega
  · intro s a s' hr hguard hs hbefore _ hlt
    cases counts_of_step hr hs with
    | same hh ht => exact .inl (by omega)
    | head hh ht => exact .inl (by omega)
    | tail hc _ hh ht =>
      by_cases hreached : s.tail+1=loaded
      · -- The store reaches the loaded head, which the guard keeps present.
        have hpresent := hguard (by rw [storesTail,hc]) i (by rw [hbefore,hreached])
        exact .inr (by omega)
      · exact .inl (by omega)

/-- An observer returns from its second load. -/
theorem second_of_returned (q : Ring) {question : Question} {verdict : Bool}
    (h : (run (system q ι N) actions).observer i=.returned question verdict) :
    ∃ earlier headFirst loaded,earlier <+: actions ∧
      (run (system q ι N) earlier).observer i=.second question headFirst loaded ∧
      verdict=(if headFirst then answer q loaded (run (system q ι N) earlier).tail question
        else answer q (run (system q ι N) earlier).head loaded question) := by
  obtain ⟨earlier,a,hpre,hbefore,hs,hafter⟩ :=
    exists_entry (S:=system q ι N) (P:=fun s => s.observer i=.returned question verdict)
      (fun hidle => Observer.noConfusion hidle) h
  refine ⟨earlier,?_⟩
  rcases step_observer_cases hs i with
    hsame | ⟨question,first,-,-,hnew⟩ | ⟨question,first,-,-,-,hnew⟩ |
    ⟨question,first,loaded,hold,hnew⟩
  · exact absurd (hsame.symm.trans hafter) hbefore
  · rw [hnew] at hafter
    cases hafter
  · rw [hnew] at hafter
    cases hafter
  · rw [hnew,Observer.returned.injEq] at hafter
    obtain ⟨rfl,hverdict⟩ := hafter
    exact ⟨first,loaded,(List.prefix_append earlier [a]).trans hpre,hold,hverdict.symm⟩

/-- A call between its loads is inside of `empty`. -/
theorem inside_of_second {o : Observer} {headFirst : Bool} {loaded : ℕ}
    (h : o=.second .empty headFirst loaded) : insideEmpty o=true := by
  rw [h]
  rfl

/-- A negative answer describes an instant of the call. -/
theorem differed_of_false (q : Ring)
    (h : (run (system q ι N) actions).observer i=.returned .empty false) :
    Sometime (system q ι N) (fun m => insideEmpty (m.observer i)=true ∧ m.head≠m.tail) actions := by
  obtain ⟨earlier,headFirst,loaded,hpre,hsecond,hverdict⟩ := second_of_returned q h
  rcases equal_or_differed q hsecond with ⟨hhead,htail⟩ | hdiffered
  · cases headFirst <;> simp [answer,hhead,htail] at hverdict
  · exact (hdiffered.extend hpre).mono fun m hm => ⟨inside_of_second hm.1,hm.2⟩

/-- An affirmative answer describes an instant of the call, where stores of
the tail only catch up with a present head. -/
theorem empty_of_true (q : Ring) (halong : Along (system q ι N) CatchesUp actions)
    (h : (run (system q ι N) actions).observer i=.returned .empty true) :
    Sometime (system q ι N) (fun m => insideEmpty (m.observer i)=true ∧ m.head=m.tail) actions := by
  obtain ⟨earlier,headFirst,loaded,hpre,hsecond,hverdict⟩ := second_of_returned q h
  refine Sometime.extend ?_ hpre
  cases headFirst with
  | false =>
    have hhead : (run (system q ι N) earlier).head=loaded := by
      simpa [answer] using hverdict.symm
    have htail := loaded_le_tail q hsecond
    have hle := tail_le_head (run_reachable (system q ι N) earlier)
    exact .now ⟨inside_of_second hsecond,by omega⟩
  | true =>
    have hbegin : Along (system q ι N) CatchesUp earlier :=
      fun first a hfirst => halong first a (hfirst.trans hpre)
    have htail : loaded=(run (system q ι N) earlier).tail := by
      simpa [answer] using hverdict.symm
    rcases ahead_or_empty q hbegin hsecond with hlt | hempty
    · omega
    · exact hempty.mono fun m hm => ⟨inside_of_second hm.1,hm.2⟩

/-- Where stores of the tail only catch up with a present head, `empty`
reports a state the queue was in during the call. -/
theorem empty_reports_an_instant (q : Ring) (actions : List (Action ι))
    (h : Along (system q ι N) CatchesUp actions) (i : ι) :
    ((run (system q ι N) actions).observer i=.returned .empty true →
      Sometime (system q ι N) (fun m => insideEmpty (m.observer i)=true ∧ m.head=m.tail) actions) ∧
    ((run (system q ι N) actions).observer i=.returned .empty false →
      Sometime (system q ι N) (fun m => insideEmpty (m.observer i)=true ∧ m.head≠m.tail) actions) :=
  ⟨empty_of_true q h,differed_of_false q⟩

end Observations

/-- A call of `empty` loads the head, the only message is popped and the call
loads the tail. -/
def drainedMeanwhile : List (Action Unit) :=
  .callPush [1]::List.replicate 7 .push++[.callObserver () .empty true,.observe (),.callPop [0]]++
  List.replicate 9 .pop++[.observe ()]

/-- The queue is empty when the tail is loaded. -/
theorem empty_reports_an_instant_drained :
    (run (system (.ofSucc _ 1) Unit 1) drainedMeanwhile).observer ()=.returned .empty true ∧
    Sometime (system (.ofSucc _ 1) Unit 1)
      (fun m => insideEmpty (m.observer ())=true ∧ m.head=m.tail) drainedMeanwhile := by
  have hreturned : (run (system (.ofSucc _ 1) Unit 1) drainedMeanwhile).observer ()=
      .returned .empty true := by decide +kernel
  exact ⟨hreturned,(empty_reports_an_instant (.ofSucc _ 1) drainedMeanwhile
    (along_of_allowed (by decide +kernel)) ()).1 hreturned⟩

/-- A call of `empty` loads the head, a second message is pushed before the
first one is popped, and the call loads the tail. -/
def refilledMeanwhile : List (Action Unit) :=
  .callPush [1]::List.replicate 7 .push++[.callObserver () .empty true,.observe (),.callPush [2]]++
  List.replicate 7 .push++.callPop [0]::List.replicate 9 .pop++[.observe ()]

/-- `empty` answers true although a message was queued at every instant of the
call. -/
theorem empty_reports_no_instant :
    (run (system (.ofSucc _ 1) Unit 1) refilledMeanwhile).observer ()=.returned .empty true ∧
    ¬Sometime (system (.ofSucc _ 1) Unit 1)
      (fun m => insideEmpty (m.observer ())=true ∧ m.head=m.tail) refilledMeanwhile := by
  have hnever : ∀ earlier ∈ refilledMeanwhile.inits,
      ¬(insideEmpty ((run (system (.ofSucc _ 1) Unit 1) earlier).observer ())=true ∧
        (run (system (.ofSucc _ 1) Unit 1) earlier).head=
          (run (system (.ofSucc _ 1) Unit 1) earlier).tail) := by decide +kernel
  refine ⟨by decide +kernel,?_⟩
  rintro ⟨earlier,hpre,hempty⟩
  exact hnever earlier ((List.mem_inits earlier refilledMeanwhile).mpr hpre) hempty

end Line64.SpscObserver
