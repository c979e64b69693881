import Line64.SpscObserver

/-!
# What `full` of the SPSC queue observes

`full` subtracts two counters that it loads one after the other. In the
written order of its operands the head is loaded first; it can only be
`capacity` ahead of a later tail if it was so when it was loaded, and a tail
that has passed it makes the difference wrap to a number no capacity has. In
the other order, which the language allows as well, an old tail may be
compared with a newer head.
-/

namespace Line64.SpscFull

open Function Result Transition Timeline SpscModel SpscFifo SpscObserver

variable {ι : Type} {N : ℕ}

/-- The observer is inside a call of `full`. -/
def insideFull : Observer → Bool
  | .first .full _ => true
  | .second .full _ _ => true
  | _ => false

/-- The step stores the head. -/
def storesHead (s : State ι N) : Action ι → Bool
  | .push =>
    match s.producer with
    | .running _ (.storeHead _ _) => true
    | _ => false
  | _ => false

/-- A store of the head gets `capacity` ahead of the tail that this call of
`full` has loaded only while it is still the tail. -/
def FillsUp (q : Ring) (i : ι) (s : State ι N) (a : Action ι) : Prop :=
  storesHead s a=true → ∀ loaded,s.observer i=.second .full false loaded →
    s.head+1=loaded+q.capacity → s.tail=loaded

section Differences

variable {q : Ring} {head tail : ℕ}

/-- A difference that does not wrap. -/
theorem subWord_of_le (h : tail≤head) : subWord head tail=head-tail := if_pos h

/-- A difference that wraps is larger than every capacity. -/
theorem subWord_ne_of_lt (hcapacity : q.capacity<2^63) (htail : tail<2^63) (h : head<tail) :
    subWord head tail≠q.capacity := by
  rw [subWord,if_neg (by omega)]
  omega

/-- A difference of `capacity` is one without a wrap. -/
theorem answer_full_iff (hcapacity : q.capacity<2^63) (htail : tail<2^63) :
    answer q head tail .full=true ↔ head=tail+q.capacity := by
  rw [answer,decide_eq_true_eq]
  rcases Nat.lt_or_ge head tail with hlt | hge
  · have hne := subWord_ne_of_lt hcapacity htail hlt
    exact ⟨fun heq => absurd heq hne,by omega⟩
  · rw [subWord_of_le hge]
    omega

end Differences

/-- The consumer leaves the head alone. -/
theorem stepPop_head {q : Ring} {s : State ι N} (original destination : List Byte) (pc : PopPc) :
    (stepPop q s original destination pc).head=s.head := by
  cases pc with
  | loadTail => rfl
  | loadHead tail =>
    simp only [stepPop]
    split_ifs <;> rfl
  | copy tail pc =>
    simp only [stepPop]
    cases (FixedMessageAccess.copyStep (s.slots (tail%q.capacity)) destination pc).2 with
    | running pc' => rfl
    | finished result =>
      simp only [afterCopy]
      split_ifs <;> rfl
  | storeTail tail result => rfl

section Observations

variable [DecidableEq ι] {q : Ring} {actions : List (Action ι)} {i : ι}

/-- The queue never holds more than `capacity` messages. -/
theorem head_le {s : State ι N} (hr : Reachable (system q ι N) s) : s.head ≤ s.tail+q.capacity := by
  obtain ⟨f,hf⟩ := reachable_inv hr
  have hhead := hf.head_eq
  have hbound := hf.bound
  omega

/-- Counters only grow along a run. -/
theorem head_mono {earlier : List (Action ι)} (hpre : earlier <+: actions) :
    (run (system q ι N) earlier).head ≤ (run (system q ι N) actions).head := by
  have hsince : Sometime (system q ι N) (fun s => Reachable (system q ι N) s ∧
      (run (system q ι N) earlier).head ≤ s.head) actions :=
    ⟨earlier,hpre,run_reachable _ earlier,le_rfl⟩
  refine (hsince.stable ?_).2
  rintro s a s' ⟨hr,hle⟩ hs
  refine ⟨hr.step hs,?_⟩
  cases counts_of_step hr hs with
  | same hh ht => omega
  | head hh ht => omega
  | tail _ _ hh ht => omega

/-- While a call of `full` is between its loads, the queue is still full and
the counters are those it loaded, or it has not been full. -/
theorem full_or_differed (q : Ring) {headFirst : Bool} {loaded : ℕ}
    (hd : (run (system q ι N) actions).observer i=.second .full headFirst loaded) :
    ((run (system q ι N) actions).head=(run (system q ι N) actions).tail+q.capacity ∧
      loaded=if headFirst then (run (system q ι N) actions).head
        else (run (system q ι N) actions).tail) ∨
    Sometime (system q ι N)
      (fun m => m.observer i=.second .full headFirst loaded ∧ m.head≠m.tail+q.capacity) actions := by
  refine pending_or_seen (S:=system q ι N) (G:=fun _ _ => True)
    (fun s => s.observer i=.second .full headFirst loaded)
    (fun s => s.head=s.tail+q.capacity ∧ loaded=if headFirst then s.head else s.tail)
    (fun s => s.head≠s.tail+q.capacity) ?_ ?_ ?_ (along_of_forall (fun _ _ => trivial) _) hd
  · exact fun hidle => Observer.noConfusion hidle
  · intro s a s' hr _ hs hout hin
    by_cases hfull : s'.head=s'.tail+q.capacity
    · exact .inl ⟨hfull,loaded_at_entry hs hout hin⟩
    · exact .inr hfull
  · rintro s a s' hr - hs - - ⟨hfull,hloaded⟩
    cases counts_of_step hr hs with
    | same hh ht =>
      rw [hh,ht]
      exact .inl ⟨hfull,hloaded⟩
    | head hh ht => exact .inr (by omega)
    | tail _ _ hh ht => exact .inr (by omega)

/-- A head that was loaded first is less than `capacity` ahead of the tail,
or the queue has been full. -/
theorem near_or_full (q : Ring) {loaded : ℕ}
    (hd : (run (system q ι N) actions).observer i=.second .full true loaded) :
    loaded < (run (system q ι N) actions).tail+q.capacity ∨
    Sometime (system q ι N)
      (fun m => m.observer i=.second .full true loaded ∧ m.head=m.tail+q.capacity) actions := by
  refine pending_or_seen (S:=system q ι N) (G:=fun _ _ => True)
    (fun s => s.observer i=.second .full true loaded) (fun s => loaded < s.tail+q.capacity)
    (fun s => s.head=s.tail+q.capacity) ?_ ?_ ?_ (along_of_forall (fun _ _ => trivial) _) hd
  · exact fun hidle => Observer.noConfusion hidle
  · intro s a s' hr _ hs hout hin
    have hloaded : loaded=s'.head := loaded_at_entry hs hout hin
    have hle := head_le (hr.step hs)
    omega
  · intro s a s' hr _ hs _ _ hlt
    cases counts_of_step hr hs with
    | same hh ht => exact .inl (by omega)
    | head hh ht => exact .inl (by omega)
    | tail _ _ hh ht => exact .inl (by omega)

/-- Only the producer moves the head, by its store. -/
theorem storesHead_of_moved {s s' : State ι N} {a : Action ι} (hs : step q s a=some s')
    (hmoved : s'.head≠s.head) : storesHead s a=true := by
  cases a with
  | push =>
    simp only [step] at hs
    split at hs <;> cases hs
    rename_i payload pc hp
    cases pc with
    | storeHead head result => rw [storesHead,hp]
    | loadTail head =>
      simp only [stepPush] at hmoved
      split_ifs at hmoved <;> exact absurd rfl hmoved
    | _ => exact absurd rfl hmoved
  | pop =>
    simp only [step] at hs
    split at hs <;> cases hs
    exact absurd (stepPop_head _ _ _) hmoved
  | callPush payload =>
    simp only [step] at hs
    split at hs <;> cases hs
    simp only [enterPush] at hmoved
    split_ifs at hmoved <;> exact absurd rfl hmoved
  | observe k =>
    obtain ⟨next,-,rfl⟩ := Option.map_eq_some_iff.mp hs
    exact absurd rfl hmoved
  | _ =>
    simp only [step] at hs
    split at hs <;> cases hs
    exact absurd rfl hmoved

/-- A call between its loads is inside of `full`. -/
theorem inside_of_second_full {o : Observer} {headFirst : Bool} {loaded : ℕ}
    (h : o=.second .full headFirst loaded) : insideFull o=true := by
  rw [h]
  rfl

/-- The order of the loads is the one of the call. -/
theorem called_of_second {question : Question} {headFirst : Bool} {loaded : ℕ}
    (h : (run (system q ι N) actions).observer i=.second question headFirst loaded) :
    .callObserver i question headFirst ∈ actions := by
  obtain ⟨middle,b,hmiddle,hbefore,hs,hafter⟩ :=
    exists_entry (S:=system q ι N) (P:=fun s => s.observer i=.second question headFirst loaded)
      (fun hidle => Observer.noConfusion hidle) h
  have hfirst : (run (system q ι N) middle).observer i=.first question headFirst := by
    rcases step_observer_cases hs i with
      hsame | ⟨asked,order,-,-,hnew⟩ | ⟨asked,order,hold,-,-,hnew⟩ | ⟨asked,order,value,-,hnew⟩
    · exact absurd (hsame.symm.trans hafter) hbefore
    · rw [hnew] at hafter
      cases hafter
    · rw [hnew] at hafter
      cases hafter
      exact hold
    · rw [hnew] at hafter
      cases hafter
  obtain ⟨start,a,hstart,hidle,hs',hcalled⟩ :=
    exists_entry (S:=system q ι N) (P:=fun s => s.observer i=.first question headFirst)
      (fun hidle => Observer.noConfusion hidle) hfirst
  have hmem : a ∈ actions :=
    (hstart.trans ((List.prefix_append middle [b]).trans hmiddle)).subset (by simp)
  rcases step_observer_cases hs' i with
    hsame | ⟨asked,order,hcall,-,hnew⟩ | ⟨asked,order,-,-,-,hnew⟩ | ⟨asked,order,value,-,hnew⟩
  · exact absurd (hsame.symm.trans hcalled) hidle
  · rw [hnew] at hcalled
    cases hcalled
    rwa [hcall] at hmem
  · rw [hnew] at hcalled
    cases hcalled
  · rw [hnew] at hcalled
    cases hcalled

/-- A negative answer describes an instant of the call, in either order of
its loads. -/
theorem differed_of_not_full (q : Ring) (hcapacity : q.capacity<2^63)
    (hcounters : (run (system q ι N) actions).head<2^63)
    (h : (run (system q ι N) actions).observer i=.returned .full false) :
    Sometime (system q ι N)
      (fun m => insideFull (m.observer i)=true ∧ m.head≠m.tail+q.capacity) actions := by
  obtain ⟨earlier,headFirst,loaded,hpre,hsecond,hverdict⟩ := second_of_returned q h
  have hhead := head_mono (q:=q) (N:=N) hpre
  have htail := tail_le_head (run_reachable (system q ι N) earlier)
  rcases full_or_differed q hsecond with ⟨hfull,hloaded⟩ | hdiffered
  · have hanswer := (answer_full_iff hcapacity (by omega)).mpr hfull
    cases headFirst <;> simp only [Bool.false_eq_true,if_false,if_true] at hloaded hverdict <;>
      rw [hloaded,hanswer] at hverdict <;> cases hverdict
  · exact (hdiffered.extend hpre).mono fun m hm => ⟨inside_of_second_full hm.1,hm.2⟩

/-- Where stores of the head only fill up to a present tail, the head is less
than `capacity` ahead of a tail that was loaded first, or the queue has been
full. -/
theorem room_or_full (q : Ring) {loaded : ℕ} (halong : Along (system q ι N) (FillsUp q i) actions)
    (hd : (run (system q ι N) actions).observer i=.second .full false loaded) :
    ((run (system q ι N) actions).head<loaded+q.capacity ∧
      loaded ≤ (run (system q ι N) actions).tail) ∨
    Sometime (system q ι N)
      (fun m => m.observer i=.second .full false loaded ∧ m.head=m.tail+q.capacity) actions := by
  refine pending_or_seen (S:=system q ι N) (G:=FillsUp q i)
    (fun s => s.observer i=.second .full false loaded)
    (fun s => s.head<loaded+q.capacity ∧ loaded ≤ s.tail)
    (fun s => s.head=s.tail+q.capacity) ?_ ?_ ?_ halong hd
  · exact fun hidle => Observer.noConfusion hidle
  · intro s a s' hr _ hs hout hin
    have hloaded : loaded=s'.tail := loaded_at_entry hs hout hin
    have hle := head_le (hr.step hs)
    omega
  · rintro s a s' hr hguard hs hbefore - ⟨hroom,hle⟩
    cases counts_of_step hr hs with
    | same hh ht => exact .inl (by omega)
    | head hh ht =>
      by_cases hfills : s.head+1=loaded+q.capacity
      · have hpresent := hguard (storesHead_of_moved hs (by omega)) loaded hbefore hfills
        exact .inr (by omega)
      · exact .inl (by omega)
    | tail _ _ hh ht => exact .inl (by omega)

/-- An affirmative answer describes an instant of the call, where stores of
the head only fill up to a present tail. -/
theorem full_of_true (q : Ring) (hcapacity : q.capacity<2^63)
    (hcounters : (run (system q ι N) actions).head<2^63)
    (halong : Along (system q ι N) (FillsUp q i) actions)
    (h : (run (system q ι N) actions).observer i=.returned .full true) :
    Sometime (system q ι N)
      (fun m => insideFull (m.observer i)=true ∧ m.head=m.tail+q.capacity) actions := by
  obtain ⟨earlier,headFirst,loaded,hpre,hsecond,hverdict⟩ := second_of_returned q h
  have hhead := head_mono (q:=q) (N:=N) hpre
  have htail := tail_le_head (run_reachable (system q ι N) earlier)
  refine Sometime.extend ?_ hpre
  cases headFirst with
  | false =>
    have hbegin : Along (system q ι N) (FillsUp q i) earlier :=
      fun first a hfirst => halong first a (hfirst.trans hpre)
    rcases room_or_full q hbegin hsecond with ⟨hroom,hle⟩ | hfull
    · have hdifference := (answer_full_iff hcapacity (by omega)).mp hverdict.symm
      omega
    · exact hfull.mono fun m hm => ⟨inside_of_second_full hm.1,hm.2⟩
  | true =>
    have hdifference := (answer_full_iff hcapacity (by omega)).mp hverdict.symm
    rcases near_or_full q hsecond with hnear | hfull
    · omega
    · exact hfull.mono fun m hm => ⟨inside_of_second_full hm.1,hm.2⟩

/-- A call that loads the head first needs nothing from the stores. -/
theorem fillsUp_of_headFirst (horder : .callObserver i .full false ∉ actions) :
    Along (system q ι N) (FillsUp q i) actions := by
  intro earlier a hpre _ loaded hsecond
  have hearlier : earlier <+: actions := (List.prefix_append earlier [a]).trans hpre
  exact absurd (hearlier.subset (called_of_second hsecond)) horder

/-- With its operands evaluated as they are written, `full` reports a state
the queue was in during the call; a tail that has overtaken the loaded head
never makes it answer true. -/
theorem full_reports_an_instant (q : Ring) (hcapacity : q.capacity<2^63)
    (actions : List (Action ι)) (hcounters : (run (system q ι N) actions).head<2^63) (i : ι)
    (horder : .callObserver i .full false ∉ actions) :
    ((run (system q ι N) actions).observer i=.returned .full true →
      Sometime (system q ι N)
        (fun m => insideFull (m.observer i)=true ∧ m.head=m.tail+q.capacity) actions) ∧
    ((run (system q ι N) actions).observer i=.returned .full false →
      Sometime (system q ι N)
        (fun m => insideFull (m.observer i)=true ∧ m.head≠m.tail+q.capacity) actions) ∧
    ∀ earlier loaded,earlier <+: actions →
      (run (system q ι N) earlier).observer i=.second .full true loaded →
      loaded<(run (system q ι N) earlier).tail →
      answer q loaded (run (system q ι N) earlier).tail .full=false := by
  refine ⟨full_of_true q hcapacity hcounters (fillsUp_of_headFirst horder),
    differed_of_not_full q hcapacity hcounters,?_⟩
  intro earlier loaded hpre _ hovertaken
  have hhead := head_mono (q:=q) (N:=N) hpre
  have htail := tail_le_head (run_reachable (system q ι N) earlier)
  exact decide_eq_false (subWord_ne_of_lt hcapacity (by omega) hovertaken)

end Observations

/-- Two messages are pushed, a call of `full` loads the head, one message is
popped and the call loads the tail. -/
def poppedMeanwhile : List (Action Unit) :=
  .callPush [1]::List.replicate 7 .push++.callPush [2]::List.replicate 7 .push++
  [.callObserver () .full true,.observe (),.callPop [0]]++List.replicate 9 .pop++[.observe ()]

/-- The same with a pop that has not yet stored the tail when it is loaded. -/
def poppingMeanwhile : List (Action Unit) :=
  .callPush [1]::List.replicate 7 .push++.callPush [2]::List.replicate 7 .push++
  [.callObserver () .full true,.observe (),.callPop [0],.pop,.pop,.pop,.observe ()]

/-- The first queue is no longer full when the tail is loaded, the second one
still is. -/
theorem full_reports_an_instant_popped :
    ((run (system (.ofSucc _ 1) Unit 1) poppedMeanwhile).observer ()=.returned .full false ∧
      Sometime (system (.ofSucc _ 1) Unit 1)
        (fun m => insideFull (m.observer ())=true ∧ m.head≠m.tail+2) poppedMeanwhile) ∧
    (run (system (.ofSucc _ 1) Unit 1) poppingMeanwhile).observer ()=.returned .full true ∧
      Sometime (system (.ofSucc _ 1) Unit 1)
        (fun m => insideFull (m.observer ())=true ∧ m.head=m.tail+2) poppingMeanwhile := by
  have hfalse : (run (system (.ofSucc _ 1) Unit 1) poppedMeanwhile).observer ()=
      .returned .full false := by decide +kernel
  have htrue : (run (system (.ofSucc _ 1) Unit 1) poppingMeanwhile).observer ()=
      .returned .full true := by decide +kernel
  have hpopped : (run (system (.ofSucc _ 1) Unit 1) poppedMeanwhile).head<2^63 := by decide +kernel
  have hpopping : (run (system (.ofSucc _ 1) Unit 1) poppingMeanwhile).head<2^63 := by
    decide +kernel
  exact ⟨⟨hfalse,(full_reports_an_instant (.ofSucc _ 1) (by decide) poppedMeanwhile hpopped ()
      (by simp [poppedMeanwhile])).2.1 hfalse⟩,
    htrue,(full_reports_an_instant (.ofSucc _ 1) (by decide) poppingMeanwhile hpopping ()
      (by simp [poppingMeanwhile])).1 htrue⟩

/-- One message is pushed, a call of `full` loads the tail first, the message
is popped, another one is pushed and the call loads the head. -/
def replacedMeanwhile : List (Action Unit) :=
  .callPush [1]::List.replicate 7 .push++[.callObserver () .full false,.observe (),.callPop [0]]++
  List.replicate 9 .pop++.callPush [2]::List.replicate 7 .push++[.observe ()]

-- Evaluated in the other order, `full` may answer true although the queue is
-- not full at any instant of the call.
example :
    (run (system (.ofSucc _ 1) Unit 1) replacedMeanwhile).observer ()=.returned .full true ∧
    ∀ earlier ∈ replacedMeanwhile.inits,
      ¬(insideFull ((run (system (.ofSucc _ 1) Unit 1) earlier).observer ())=true ∧
        (run (system (.ofSucc _ 1) Unit 1) earlier).head=
          (run (system (.ofSucc _ 1) Unit 1) earlier).tail+2) := by
  decide +kernel

end Line64.SpscFull
