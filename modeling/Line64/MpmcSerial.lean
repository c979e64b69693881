import Line64.BoundedFifo
import Line64.MpmcBoundary
import Line64.MpmcOrder
import Line64.SerialCalls

/-!
# The MPMC queue in sequential use

Calls that do not overlap see a queue in which no other call is inside a
message. A push then refuses exactly at `capacity` messages and a pop exactly
at none, so the queue is a bounded list whose pops always remove the front.
-/

namespace Line64.MpmcSerial

open Function Result FixedMessageAccess Transition BoundedFifo SerialCalls CallOrder MpmcModel
open MpmcRefinement MpmcDelivery MpmcClaimLoop MpmcBoundary MpmcOrder

variable {N : ℕ}

/-- Calls by number: each operation is one call of its kind, and every
compare-exchange may fail spuriously. -/
def service (q : Ring) (N : ℕ) : Service (State ℕ N) (Action ℕ) Call Answer where
  system := system id q ℕ N
  start
    | k,.push payload,a => a=.callPush k payload
    | k,.pop destination,a => a=.callPop k destination
    | k,.empty,a => a=.callEmpty k
  access
    | k,.push _,a => ∃ spurious,a=.push k spurious
    | k,.pop _,a => ∃ spurious,a=.pop k spurious
    | k,.empty,a => a=.empty k
  answer
    | s,k,.push _ =>
      match s.push k with
      | .returned _ _ result => some (.pushed result)
      | _ => none
    | s,k,.pop _ =>
      match s.pop k with
      | .returned _ destination _ result => some (.popped destination result)
      | _ => none
    | s,k,.empty =>
      match s.probe k with
      | .returned _ answer => some (.observed answer)
      | _ => none

/-- The list is published in the queue, and calls from `k` on have not
started. -/
structure Stored (q : Ring) (k : ℕ) (f : Fifo) (s : State ℕ N) : Prop where
  /-- The state is one of a run. -/
  reachable : Reachable (system id q ℕ N) s
  /-- Later calls have not started. -/
  fresh : ∀ i,k ≤ i → s.push i=.idle ∧ s.pop i=.idle ∧ s.probe i=.idle
  /-- Every message of the list is published. -/
  published : ∀ n payload,f.queue[n]?=some payload →
    ∃ i,(s.push i).Published payload (f.popped+n)

/-- The only push in progress and the counter it moves. -/
inductive Pushing (N capacity : ℕ) (f : Fifo) (payload : List Byte) (enqueuePos : ℕ) :
    PushCall → Prop
  /-- In front of its successful compare-exchange. -/
  | seeking {pc : PushPc} (hlength : payload.length≤N)
      (hposition : (PushCall.running payload pc).position=none)
      (henqueue : enqueuePos=f.popped+f.queue.length) :
      Pushing N capacity f payload enqueuePos (.running payload pc)
  /-- Behind it. -/
  | writing {pc : PushPc} (hlength : payload.length≤N)
      (hposition : (PushCall.running payload pc).position=some (f.popped+f.queue.length))
      (henqueue : enqueuePos=f.popped+f.queue.length+1) :
      Pushing N capacity f payload enqueuePos (.running payload pc)
  /-- Returned as the list refuses. -/
  | refused {result : WriteResult} (henqueue : enqueuePos=f.popped+f.queue.length)
      (hlist : f.push N capacity payload=(f,result)) :
      Pushing N capacity f payload enqueuePos (.returned payload none result)
  /-- Returned with the next position. -/
  | accepted {result : WriteResult} (hlength : payload.length≤N)
      (henqueue : enqueuePos=f.popped+f.queue.length+1) :
      Pushing N capacity f payload enqueuePos
        (.returned payload (some (f.popped+f.queue.length)) result)

/-- The only pop in progress and the counter it moves. -/
inductive Popping (f : Fifo) (original : List Byte) (dequeuePos : ℕ) : PopCall → Prop
  /-- In front of its successful compare-exchange. -/
  | seeking {destination : List Byte} {pc : PopPc}
      (hposition : (PopCall.running original destination pc).position=none)
      (hdequeue : dequeuePos=f.popped) :
      Popping f original dequeuePos (.running original destination pc)
  /-- Behind it. -/
  | reading {destination : List Byte} {pc : PopPc}
      (hposition : (PopCall.running original destination pc).position=some f.popped)
      (hdequeue : dequeuePos=f.popped+1) :
      Popping f original dequeuePos (.running original destination pc)
  /-- Returned from an empty list. -/
  | refused {destination : List Byte} {result : ReadResult} (hdequeue : dequeuePos=f.popped)
      (hempty : f.queue=[]) : Popping f original dequeuePos (.returned original destination none result)
  /-- Returned with the front. -/
  | released {destination : List Byte} {result : ReadResult} (hdequeue : dequeuePos=f.popped+1) :
      Popping f original dequeuePos (.returned original destination (some f.popped) result)

/-- The only `empty` in progress. -/
inductive Probing (f : Fifo) : EmptyCall → Prop
  | loadPosition : Probing f .loadPosition
  | loadSequence : Probing f (.loadSequence f.popped)
  | returned : Probing f (.returned f.popped f.queue.isEmpty)

/-- No call is in progress and the counters delimit the list. -/
structure Between (q : Ring) (k : ℕ) (f : Fifo) (s : State ℕ N) : Prop extends Stored q k f s where
  /-- No push is running. -/
  pushes : ∀ i,pushStage (s.push i)≠.running
  /-- No pop is running. -/
  pops : ∀ j,popStage (s.pop j)≠.running
  /-- The list starts at the dequeue counter. -/
  dequeue : s.dequeuePos=f.popped
  /-- It ends at the enqueue counter. -/
  enqueue : s.enqueuePos=f.popped+f.queue.length

/-- Push `k` is the only call in progress. -/
structure DuringPush (q : Ring) (k : ℕ) (payload : List Byte) (f : Fifo) (s : State ℕ N) : Prop
    extends Stored q (k+1) f s where
  /-- No other push is running. -/
  pushes : ∀ i,i≠k → pushStage (s.push i)≠.running
  /-- No pop is running. -/
  pops : ∀ j,popStage (s.pop j)≠.running
  /-- The list starts at the dequeue counter. -/
  dequeue : s.dequeuePos=f.popped
  /-- The call itself. -/
  own : Pushing N q.capacity f payload s.enqueuePos (s.push k)

/-- Pop `k` is the only call in progress. -/
structure DuringPop (q : Ring) (k : ℕ) (original : List Byte) (f : Fifo) (s : State ℕ N) : Prop
    extends Stored q (k+1) f s where
  /-- No push is running. -/
  pushes : ∀ i,pushStage (s.push i)≠.running
  /-- No other pop is running. -/
  pops : ∀ j,j≠k → popStage (s.pop j)≠.running
  /-- The list ends at the enqueue counter. -/
  enqueue : s.enqueuePos=f.popped+f.queue.length
  /-- The call itself. -/
  own : Popping f original s.dequeuePos (s.pop k)

/-- Call `k` of `empty` is the only call in progress. -/
structure DuringEmpty (q : Ring) (k : ℕ) (f : Fifo) (s : State ℕ N) : Prop
    extends Between q (k+1) f s where
  /-- The call itself. -/
  own : Probing f (s.probe k)

/-- The call of an operation is the only one in progress. -/
def During (q : Ring) (k : ℕ) : Call → Fifo → State ℕ N → Prop
  | .push payload,f,s => DuringPush q k payload f s
  | .pop destination,f,s => DuringPop q k destination f s
  | .empty,f,s => DuringEmpty q k f s

/-- A pop that is not running is not inside a message. -/
theorem pop_outside {call : PopCall} (h : popStage call≠.running) : ¬call.inPayload := by
  cases call with
  | running original destination pc => exact absurd rfl h
  | _ => exact id

/-- A push that is not running is not inside a message. -/
theorem push_outside {call : PushCall} (h : pushStage call≠.running) : ¬call.inPayload := by
  cases call with
  | running payload pc => exact absurd rfl h
  | _ => exact id

section Steps

variable {q : Ring} {k : ℕ} {f : Fifo} {s s' : State ℕ N} {a : Action ℕ}

/-- A step that starts no later call keeps the list stored. -/
theorem Stored.step (h : Stored q k f s) (hs : step id q s a=some s')
    (hpush : ∀ i payload,a=.callPush i payload → i<k) (hpop : ∀ i payload,a=.callPop i payload → i<k)
    (hprobe : ∀ i,a=.callEmpty i → i<k) : Stored q k f s' where
  reachable := h.reachable.step hs
  fresh := by
    intro i hi
    obtain ⟨hidle,hidle',hidle''⟩ := h.fresh i hi
    refine ⟨?_,?_,?_⟩
    · rcases step_push_cases hs i with hsame | ⟨payload,ha,-,-⟩ | ⟨payload,pc,spurious,-,hrun,-⟩
      · rw [hsame,hidle]
      · exact absurd (hpush i payload ha) (Nat.not_lt.mpr hi)
      · rw [hidle] at hrun
        cases hrun
    · rcases step_pop_cases hs i with
        hsame | ⟨payload,ha,-,-⟩ | ⟨original,destination,pc,spurious,-,hrun,-⟩
      · rw [hsame,hidle']
      · exact absurd (hpop i payload ha) (Nat.not_lt.mpr hi)
      · rw [hidle'] at hrun
        cases hrun
    · rcases step_probe_cases hs i with hsame | ⟨ha,-,-⟩ | ⟨hrun,-⟩ | ⟨p,hrun,-⟩
      · rw [hsame,hidle'']
      · exact absurd (hprobe i ha) (Nat.not_lt.mpr hi)
      · rw [hidle''] at hrun
        cases hrun
      · rw [hidle''] at hrun
        cases hrun
  published := by
    intro n payload hn
    obtain ⟨i,result,hi⟩ := h.published n payload hn
    refine ⟨i,result,?_⟩
    rw [push_frozen hs (by rw [hi]; rfl),hi]

/-- Fewer calls are left to be started. -/
theorem Stored.mono {k' : ℕ} (h : Stored q k f s) (hk : k≤k') : Stored q k' f s :=
  {h with fresh := fun i hi => h.fresh i (hk.trans hi)}

/-- One access of the only push. -/
theorem Pushing.step (hr : Reachable (system id q ℕ N) s) {payload payload' : List Byte}
    {pc : PushPc} (hi : s.push k=.running payload' pc) (hpops : ∀ j,popStage (s.pop j)≠.running)
    (hdequeue : s.dequeuePos=f.popped) (h : Pushing N q.capacity f payload s.enqueuePos (s.push k))
    (spurious : Bool) :
    Pushing N q.capacity f payload (stepPush id q s k payload' spurious pc).enqueuePos
      ((stepPush id q s k payload' spurious pc).push k) := by
  obtain ⟨t,ht⟩ := reachable_sim hr
  have hle := (loaded_of_reachable hr).push k
  rw [hi] at h hle
  cases h with
  | seeking hlength hposition henqueue =>
    cases pc with
    | loadPosition =>
      simp only [stepPush,State.setPush,update_self]
      exact .seeking hlength rfl henqueue
    | loadSequence p =>
      simp only [stepPush]
      split_ifs with heq hlt
      · simp only [State.setPush,update_self]
        exact .seeking hlength rfl henqueue
      · -- The report of a quiet queue counts exactly the messages of the list.
        have hfull := ((fullReport_of_behind ht hle hlt).waiting fun j => pop_outside (hpops j)).1
        have hcount : f.queue.length=q.capacity := by omega
        simp only [State.setPush,update_self]
        refine .refused henqueue ?_
        rw [Fifo.push,if_neg (Nat.not_lt.mpr hlength),if_pos hcount]
      · simp only [State.setPush,update_self]
        exact .seeking hlength rfl henqueue
    | compareExchange p =>
      simp only [stepPush]
      split_ifs with hcas
      · simp only [State.setPush,update_self,id]
        refine .writing hlength ?_ (by omega)
        rw [position_afterAssign,← henqueue,hcas.1]
      · simp only [State.setPush,update_self]
        exact .seeking hlength rfl henqueue
    | assign p pc => cases hposition
    | publish p result => cases hposition
  | writing hlength hposition henqueue =>
    cases pc with
    | assign p pc =>
      simp only [stepPush,State.setPush,update_self]
      refine .writing hlength ?_ henqueue
      rw [position_afterAssign]
      exact hposition
    | publish p result =>
      cases hposition
      simp only [stepPush,State.setPush,update_self]
      exact .accepted hlength henqueue
    | _ => cases hposition

/-- One access of the only pop. -/
theorem Popping.step (hr : Reachable (system id q ℕ N) s)
    {original original' destination : List Byte} {pc : PopPc}
    (hj : s.pop k=.running original' destination pc)
    (hpushes : ∀ i,pushStage (s.push i)≠.running)
    (henqueue : s.enqueuePos=f.popped+f.queue.length)
    (h : Popping f original s.dequeuePos (s.pop k)) (spurious : Bool) :
    Popping f original (stepPop id q s k original' destination spurious pc).dequeuePos
      ((stepPop id q s k original' destination spurious pc).pop k) := by
  obtain ⟨t,ht⟩ := reachable_sim hr
  have hle := (loaded_of_reachable hr).pop k
  rw [hj] at h hle
  cases h with
  | seeking hposition hdequeue =>
    cases pc with
    | loadPosition =>
      simp only [stepPop,State.setPop,update_self]
      exact .seeking rfl hdequeue
    | loadSequence p =>
      simp only [stepPop,id]
      split_ifs with heq hlt
      · simp only [State.setPop,update_self]
        exact .seeking rfl hdequeue
      · have hdrained := (emptyReport_of_behind ht hle hlt).drained fun i => push_outside (hpushes i)
        have hcount : f.queue.length=0 := by omega
        simp only [State.setPop,update_self]
        exact .refused hdequeue (List.length_eq_zero_iff.mp hcount)
      · simp only [State.setPop,update_self]
        exact .seeking rfl hdequeue
    | compareExchange p =>
      simp only [stepPop]
      split_ifs with hcas
      · simp only [State.setPop,update_self,id]
        refine .reading ?_ (by omega)
        rw [← hdequeue,hcas.1]
        rfl
      · simp only [State.setPop,update_self]
        exact .seeking rfl hdequeue
    | copy p pc => cases hposition
    | release p result => cases hposition
  | reading hposition hdequeue =>
    cases pc with
    | copy p pc =>
      simp only [stepPop,State.setPop,update_self]
      refine .reading ?_ hdequeue
      rw [position_afterCopy]
      exact hposition
    | release p result =>
      cases hposition
      simp only [stepPop,State.setPop,update_self]
      exact .released hdequeue
    | _ => cases hposition

end Steps

section Calls

variable {q : Ring} {k : ℕ} {f : Fifo} {s s' : State ℕ N} {a : Action ℕ}

/-- A push starts between calls. -/
theorem Between.start_push (h : Between q k f s) (payload : List Byte) :
    ∃ s',step id q s (.callPush k payload)=some s' ∧ DuringPush q k payload f s' := by
  have hidle := (h.fresh k le_rfl).1
  have hs : step id q s (.callPush k payload)=some (s.setPush k (enterPush N payload)) := by
    simp only [step,hidle]
  have hstored := (h.toStored.mono (Nat.le_succ k)).step hs
    (by rintro i _ ha; cases ha; exact Nat.lt_succ_self k) (by rintro i _ ha; cases ha)
    (by rintro i ha; cases ha)
  refine ⟨_,hs,hstored,?_,h.pops,h.dequeue,?_⟩
  · intro i hne
    simp only [State.setPush,update_of_ne hne]
    exact h.pushes i
  · simp only [State.setPush,update_self,enterPush]
    split_ifs with hlarge
    · exact .refused h.enqueue (by rw [Fifo.push,if_pos hlarge])
    · exact .seeking (Nat.not_lt.mp hlarge) rfl h.enqueue

/-- An access of the only push. -/
theorem DuringPush.access {payload : List Byte} (h : DuringPush q k payload f s) {spurious : Bool}
    (hs : step id q s (.push k spurious)=some s') : DuringPush q k payload f s' := by
  have hstored := h.toStored.step hs nofun nofun nofun
  simp only [step] at hs
  split at hs <;> cases hs
  rename_i payload' pc hi
  refine ⟨hstored,?_,?_,?_,h.own.step h.reachable hi h.pops h.dequeue spurious⟩
  · intro i hne
    rw [stepPush_push_of_ne hne]
    exact h.pushes i hne
  · rw [stepPush_pop]
    exact h.pops
  · rw [(stepPush_counters k payload' spurious pc).2.1]
    exact h.dequeue

/-- The only push answers like the list. -/
theorem DuringPush.answer {payload : List Byte} (h : DuringPush q k payload f s) {answer : Answer}
    (hanswer : (service q N).answer s k (.push payload)=some answer) :
    answer=.pushed (f.push N q.capacity payload).2 ∧
      Between q (k+1) (f.push N q.capacity payload).1 s := by
  obtain ⟨t,ht⟩ := reachable_sim h.reachable
  have hown := h.own
  simp only [service] at hanswer
  cases hi : s.push k with
  | idle =>
    rw [hi] at hown
    cases hown
  | running payload' pc =>
    rw [hi] at hanswer
    cases hanswer
  | returned payload' position result =>
    have hpushes : ∀ i,pushStage (s.push i)≠.running := by
      intro i
      by_cases hne : i=k
      · rw [hne,hi]
        exact nofun
      · exact h.pushes i hne
    rw [hi] at hanswer hown
    cases hanswer
    cases hown with
    | refused henqueue hlist =>
      rw [hlist]
      exact ⟨rfl,h.toStored,hpushes,h.pops,h.dequeue,henqueue⟩
    | accepted hlength henqueue =>
      have hbound := ht.inv.enqueue_le
      rw [ht.refines.enqueue,ht.refines.dequeue,henqueue,h.dequeue] at hbound
      rw [Fifo.push_of_room hlength (by omega),(push_result_of_sim ht hi).2 _ rfl]
      refine ⟨rfl,{h.toStored with published := ?_},hpushes,h.pops,h.dequeue,?_⟩
      · intro n other hn
        rw [List.getElem?_append] at hn
        split at hn
        · exact h.published n other hn
        · have hlast := (List.getElem?_eq_some_iff.mp hn).1
          rw [List.length_singleton] at hlast
          have hn' : n=f.queue.length := by omega
          subst hn'
          rw [Nat.sub_self] at hn
          cases hn
          exact ⟨k,result,hi⟩
      · rw [henqueue,List.length_append,List.length_singleton,Nat.add_assoc]

/-- A pop starts between calls. -/
theorem Between.start_pop (h : Between q k f s) (destination : List Byte) :
    ∃ s',step id q s (.callPop k destination)=some s' ∧ DuringPop q k destination f s' := by
  have hidle := (h.fresh k le_rfl).2.1
  have hs : step id q s (.callPop k destination)=
      some (s.setPop k (.running destination destination .loadPosition)) := by
    simp only [step,hidle]
  have hstored := (h.toStored.mono (Nat.le_succ k)).step hs (by rintro i _ ha; cases ha)
    (by rintro i _ ha; cases ha; exact Nat.lt_succ_self k) (by rintro i ha; cases ha)
  refine ⟨_,hs,hstored,h.pushes,?_,h.enqueue,?_⟩
  · intro j hne
    simp only [State.setPop,update_of_ne hne]
    exact h.pops j
  · simp only [State.setPop,update_self]
    exact .seeking rfl h.dequeue

/-- An access of the only pop. -/
theorem DuringPop.access {original : List Byte} (h : DuringPop q k original f s) {spurious : Bool}
    (hs : step id q s (.pop k spurious)=some s') : DuringPop q k original f s' := by
  have hstored := h.toStored.step hs nofun nofun nofun
  simp only [step] at hs
  split at hs <;> cases hs
  rename_i original' destination pc hj
  refine ⟨hstored,?_,?_,?_,h.own.step h.reachable hj h.pushes h.enqueue spurious⟩
  · rw [stepPop_push]
    exact h.pushes
  · intro j hne
    rw [stepPop_pop_of_ne hne]
    exact h.pops j hne
  · rw [(stepPop_counters k original' destination spurious pc).2.1]
    exact h.enqueue

/-- The front of the stored list is what the pop of its position delivers. -/
theorem Stored.front {t : MpmcTla.State ℕ} (h : Stored q k f s) (ht : Sim q s t)
    {payload other : List Byte} {rest : List (List Byte)} {i : ℕ} (hqueue : f.queue=payload::rest)
    (hpub : (s.push i).Published other f.popped) : other=payload := by
  obtain ⟨i',result,hi'⟩ := h.published 0 payload (by rw [hqueue]; rfl)
  obtain ⟨result',hi⟩ := hpub
  have hfirst : (s.push i).position=some f.popped := by rw [hi]; rfl
  have hfront : (s.push i').position=some f.popped := by rw [hi']; rfl
  rw [ht.push_unique hfirst hfront,hi'] at hi
  cases hi
  rfl

/-- The only pop answers like the list. -/
theorem DuringPop.answer {original : List Byte} (h : DuringPop q k original f s) {answer : Answer}
    (hanswer : (service q N).answer s k (.pop original)=some answer) :
    answer=.popped (f.pop false original).2.1 (f.pop false original).2.2 ∧
      Between q (k+1) (f.pop false original).1 s := by
  obtain ⟨t,ht⟩ := reachable_sim h.reachable
  have hown := h.own
  simp only [service] at hanswer
  cases hj : s.pop k with
  | idle =>
    rw [hj] at hown
    cases hown
  | running original' destination pc =>
    rw [hj] at hanswer
    cases hanswer
  | returned original' destination position result =>
    have hpops : ∀ j,popStage (s.pop j)≠.running := by
      intro j
      by_cases hne : j=k
      · rw [hne,hj]
        exact nofun
      · exact h.pops j hne
    rw [hj] at hanswer hown
    cases hanswer
    cases hown with
    | refused hdequeue hempty =>
      have hok := ht.pop_ok k
      rw [hj] at hok
      obtain ⟨rfl,rfl⟩ := hok
      rw [Fifo.pop,hempty]
      exact ⟨rfl,h.toStored,h.pushes,hpops,hdequeue,h.enqueue⟩
    | released hdequeue =>
      obtain ⟨i,other,hpub,hdelivery⟩ := pop_result_of_sim ht hj
      have hbound := ht.inv.dequeue_le
      rw [ht.refines.enqueue,ht.refines.dequeue,h.enqueue,hdequeue] at hbound
      cases hqueue : f.queue with
      | nil =>
        rw [hqueue,List.length_nil] at hbound
        omega
      | cons payload rest =>
        obtain rfl := h.toStored.front ht hqueue hpub
        have hlist : f.pop false original=
            (⟨f.popped+1,rest⟩,delivery other (f.popped+1) original) := by
          rw [Fifo.pop,hqueue]
          simp
        rw [hlist,← hdelivery]
        refine ⟨rfl,{h.toStored with published := ?_},h.pushes,hpops,hdequeue,?_⟩
        · intro n payload hn
          obtain ⟨i',hi'⟩ := h.published (n+1) payload (by rw [hqueue,List.getElem?_cons_succ]; exact hn)
          exact ⟨i',by rwa [Nat.add_assoc,Nat.add_comm 1 n]⟩
        · rw [h.enqueue,hqueue,List.length_cons,Nat.add_assoc,Nat.add_comm 1]

/-- `empty` starts between calls. -/
theorem Between.start_empty (h : Between q k f s) :
    ∃ s',step id q s (.callEmpty k)=some s' ∧ DuringEmpty q k f s' := by
  have hidle := (h.fresh k le_rfl).2.2
  have hs : step id q s (.callEmpty k)=some (s.setProbe k .loadPosition) := by
    simp only [step,hidle]
  have hstored := (h.toStored.mono (Nat.le_succ k)).step hs (by rintro i _ ha; cases ha)
    (by rintro i _ ha; cases ha) (by rintro i ha; cases ha; exact Nat.lt_succ_self k)
  refine ⟨_,hs,⟨hstored,h.pushes,h.pops,h.dequeue,h.enqueue⟩,?_⟩
  simp only [State.setProbe,update_self]
  exact .loadPosition

/-- The cell of the dequeue counter tells whether the list is empty. -/
theorem Between.sequence_iff (h : Between q k f s) :
    (s.cells (q.index f.popped)).sequence<f.popped+1 ↔ f.queue.isEmpty=true := by
  obtain ⟨t,ht⟩ := reachable_sim h.reachable
  have hdequeue := h.dequeue
  have henqueue := h.enqueue
  rw [List.isEmpty_iff]
  constructor
  · intro hlt
    have hdrained := (emptyReport_of_behind ht hdequeue.ge hlt).drained
      fun i => push_outside (h.pushes i)
    exact List.length_eq_zero_iff.mp (by omega)
  · intro hempty
    rw [hempty,List.length_nil] at henqueue
    have hbound := ht.inv.push_bound f.popped (by rw [ht.refines.enqueue]; omega)
    rw [ht.refines.sequence,← q.index_eq_mod] at hbound
    omega

/-- A load of the only `empty`. -/
theorem DuringEmpty.access (h : DuringEmpty q k f s) (hs : step id q s (.empty k)=some s') :
    DuringEmpty q k f s' := by
  have hstored := h.toStored.step hs nofun nofun nofun
  have hown := h.own
  simp only [step] at hs
  cases hp : s.probe k with
  | loadPosition =>
    simp only [hp,Option.some.injEq] at hs
    subst hs
    refine ⟨⟨hstored,h.pushes,h.pops,h.dequeue,h.enqueue⟩,?_⟩
    simp only [State.setProbe,update_self,h.dequeue]
    exact .loadSequence
  | loadSequence p =>
    simp only [hp,Option.some.injEq] at hs
    subst hs
    rw [hp] at hown
    cases hown
    refine ⟨⟨hstored,h.pushes,h.pops,h.dequeue,h.enqueue⟩,?_⟩
    have hanswer : decide ((s.cells (q.index f.popped)).sequence<f.popped+1)=f.queue.isEmpty := by
      rw [Bool.eq_iff_iff,decide_eq_true_eq]
      exact h.sequence_iff
    simp only [State.setProbe,update_self,id,hanswer]
    exact .returned
  | _ => simp only [hp,reduceCtorEq] at hs

/-- The only `empty` answers like the list. -/
theorem DuringEmpty.answer (h : DuringEmpty q k f s) {answer : Answer}
    (hanswer : (service q N).answer s k .empty=some answer) :
    answer=.observed f.queue.isEmpty ∧ Between q (k+1) f s := by
  have hown := h.own
  simp only [service] at hanswer
  cases hp : s.probe k with
  | returned p verdict =>
    rw [hp] at hanswer hown
    cases hanswer
    cases hown
    exact ⟨rfl,h.toBetween⟩
  | _ =>
    rw [hp] at hanswer
    cases hanswer

/-- A push in progress can be brought to its return. -/
theorem DuringPush.returns {payload : List Byte} (h : DuringPush q k payload f s) :
    ∃ n,((service q N).answer (runFrom (system id q ℕ N) s (List.replicate n (.push k false))) k
      (.push payload)).isSome=true := by
  have hfinish : LeadsTo (system id q ℕ N) (.push k false) (fun s => PushReturned (s.push k)) s := by
    cases hi : s.push k with
    | idle =>
      have hown := h.own
      rw [hi] at hown
      cases hown
    | running payload' pc => exact push_finishes h.reachable hi
    | returned payload' position result => exact .now ⟨payload',position,result,hi⟩
  obtain ⟨n,payload',position,result,hi⟩ := hfinish
  exact ⟨n,by simp only [service,hi,Option.isSome_some]⟩

/-- A pop in progress can be brought to its return. -/
theorem DuringPop.returns {original : List Byte} (h : DuringPop q k original f s) :
    ∃ n,((service q N).answer (runFrom (system id q ℕ N) s (List.replicate n (.pop k false))) k
      (.pop original)).isSome=true := by
  have hfinish : LeadsTo (system id q ℕ N) (.pop k false) (fun s => PopReturned (s.pop k)) s := by
    cases hj : s.pop k with
    | idle =>
      have hown := h.own
      rw [hj] at hown
      cases hown
    | running original' destination pc => exact pop_finishes h.reachable hj
    | returned original' destination position result =>
      exact .now ⟨original',destination,position,result,hj⟩
  obtain ⟨n,original',destination,position,result,hj⟩ := hfinish
  exact ⟨n,by simp only [service,hj,Option.isSome_some]⟩

/-- `empty` returns behind its second load. -/
theorem DuringEmpty.returns (h : DuringEmpty q k f s) :
    ∃ n,((service q N).answer (runFrom (system id q ℕ N) s (List.replicate n (.empty k))) k
      .empty).isSome=true := by
  have hsecond : ∀ {s : State ℕ N} {p : ℕ},s.probe k=.loadSequence p →
      LeadsTo (system id q ℕ N) (.empty k) (fun s => ∃ p answer,s.probe k=.returned p answer) s := by
    intro s p hp
    have hs : (system id q ℕ N).step s (.empty k)=
        some (s.setProbe k (.returned p (decide ((s.cells (q.index p)).sequence<p+1)))) := by
      simp only [system,step,hp,id]
    exact .next hs (.now ⟨p,_,update_self ..⟩)
  have hfinish : LeadsTo (system id q ℕ N) (.empty k)
      (fun s => ∃ p answer,s.probe k=.returned p answer) s := by
    cases hp : s.probe k with
    | idle =>
      have hown := h.own
      rw [hp] at hown
      cases hown
    | loadPosition =>
      have hs : (system id q ℕ N).step s (.empty k)=
          some (s.setProbe k (.loadSequence s.dequeuePos)) := by
        simp only [system,step,hp]
      exact .next hs (hsecond (update_self ..))
    | loadSequence p => exact hsecond hp
    | returned p verdict => exact .now ⟨p,verdict,hp⟩
  obtain ⟨n,p,verdict,hp⟩ := hfinish
  exact ⟨n,by simp only [service,hp,Option.isSome_some]⟩

end Calls

/-- In sequential use the queue answers like a list whose pops always remove
the front. -/
theorem implements (q : Ring) (N : ℕ) :
    Implements (service q N) (fifo N q.capacity false) (Between q) (During q) where
  init := ⟨⟨.init,fun _ _ => ⟨rfl,rfl,rfl⟩,nofun⟩,fun _ => nofun,fun _ => nofun,rfl,rfl⟩
  starts := by
    intro k call
    cases call <;> exact ⟨_,rfl⟩
  start := by
    intro k call f s a h ha
    cases call with
    | push payload =>
      cases ha
      exact h.start_push payload
    | pop destination =>
      cases ha
      exact h.start_pop destination
    | empty =>
      cases ha
      exact h.start_empty
  access := by
    intro k call f s a s' h ha hs
    cases call with
    | push payload =>
      obtain ⟨spurious,rfl⟩ := ha
      exact DuringPush.access h hs
    | pop destination =>
      obtain ⟨spurious,rfl⟩ := ha
      exact DuringPop.access h hs
    | empty =>
      cases ha
      exact DuringEmpty.access h hs
  answer := by
    intro k call f s answer h hanswer
    cases call with
    | push payload => exact DuringPush.answer h hanswer
    | pop destination => exact DuringPop.answer h hanswer
    | empty => exact DuringEmpty.answer h hanswer
  returns := by
    intro k call f s h
    cases call with
    | push payload =>
      obtain ⟨n,hn⟩ := DuringPush.returns h
      exact ⟨_,fun a ha => ⟨false,List.eq_of_mem_replicate ha⟩,hn⟩
    | pop destination =>
      obtain ⟨n,hn⟩ := DuringPop.returns h
      exact ⟨_,fun a ha => ⟨false,List.eq_of_mem_replicate ha⟩,hn⟩
    | empty =>
      obtain ⟨n,hn⟩ := DuringEmpty.returns h
      exact ⟨_,fun a ha => List.eq_of_mem_replicate ha,hn⟩

end Line64.MpmcSerial
