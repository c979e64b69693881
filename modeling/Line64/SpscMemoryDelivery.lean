import Line64.SpscFifo
import Line64.SpscMemoryModel

/-!
# The memory orders of the SPSC queue suffice

A thread may act on an outdated value of the other counter. The value is
still one that was stored, the counters only grow, and the release store that
carries it also carries every slot access in front of it. So a slot is only
accessed by a thread that knows all earlier accesses of the slot, and the
messages arrive in order and unchanged.
-/

namespace Line64.SpscMemoryDelivery

open Function Result FixedMessageAccess Transition BoundedFifo ReleaseAcquire MessageRaces
open SpscMemoryModel
open SpscModel (Ring Producer Consumer PushPc PopPc subWord afterAssign)
open SpscFifo (ProducerOk ConsumerOk SlotsHold)

variable {N : ℕ} {q : Ring}

/-- The producer is between a passed test for room and its store. -/
def Assigning : Producer → Prop
  | .running _ (.assign _ _) => True
  | .running _ (.storeHead _ _) => True
  | _ => False

/-- The consumer is between a passed test for a message and its store. -/
def Copying : Consumer → Prop
  | .running _ _ (.copy _ _) => True
  | .running _ _ (.storeTail _ _) => True
  | _ => False

/-- Stores, views and recorded accesses after `head` pushes and `tail` pops. -/
structure MemoryOk (q : Ring) (s : State N) (head tail : ℕ) : Prop where
  /-- Views point to stores. -/
  sane : Sane s.history s.views
  /-- The head belongs to the producer. -/
  head_owned : Owned s.history (s.views .producer) .head head
  /-- The tail belongs to the consumer. -/
  tail_owned : Owned s.history (s.views .consumer) .tail tail
  /-- Every tail the producer can read admits the pushes it has done. -/
  room : Readable s.history (s.views .producer) .tail fun value => head≤value+q.capacity
  /-- Every head the consumer can read admits the pops it has done. -/
  unread : Readable s.history (s.views .consumer) .head fun value => tail≤value
  /-- A head carries the accesses of the producer to the slots below it that
  cannot have been reused. -/
  written : ∀ ts m p,s.history .head ts=some m → p < m.value →
    min (head+1) (tail+q.capacity)≤p+q.capacity →
    SlotKnown s.footprints (p%q.capacity) .producer m.view
  /-- A tail carries the accesses of the consumer to the slots it leaves to
  the next lap. -/
  read : ∀ ts m p,s.history .tail ts=some m → min (tail+1) head≤p →
    p < m.value+q.capacity → SlotKnown s.footprints (p%q.capacity) .consumer m.view
  /-- A thread knows its own accesses. -/
  own : ∀ r index,SlotKnown s.footprints index r (s.views r).current

/-- What the producer knows about the slot it is writing. -/
structure Assigns (q : Ring) (s : State N) (head : ℕ) : Prop where
  /-- Every tail it can read leaves room. -/
  room : Readable s.history (s.views .producer) .tail fun value => head<value+q.capacity
  /-- The accesses of the consumer to the slot. -/
  known : SlotKnown s.footprints (head%q.capacity) .consumer (s.views .producer).current

/-- What the consumer knows about the slot it is reading. -/
structure Copies (q : Ring) (s : State N) (tail : ℕ) : Prop where
  /-- Every head it can read is behind the message. -/
  unread : Readable s.history (s.views .consumer) .head fun value => tail<value
  /-- The accesses of the producer to the slot. -/
  known : SlotKnown s.footprints (tail%q.capacity) .producer (s.views .consumer).current

/-- The inductive invariant: the list `f` holds the unread messages. -/
structure Inv (q : Ring) (s : State N) (f : Fifo) : Prop where
  /-- Pushes and pops that succeeded agree with the list. -/
  conserved : Conserves s.log f
  /-- There are at most `capacity` unread messages. -/
  bound : f.queue.length≤q.capacity
  /-- They are in their slots. -/
  slots : SlotsHold q s.slots f.popped f.queue
  /-- Local variables of the producer. -/
  producer : ProducerOk q s.slots (f.popped+f.queue.length) f.popped s.producer
  /-- Local variables of the consumer. -/
  consumer : ConsumerOk f.queue f.popped s.consumer
  /-- Stores, views and recorded accesses. -/
  memory : MemoryOk q s (f.popped+f.queue.length) f.popped
  /-- The slot of a working producer. -/
  assigns : Assigning s.producer → Assigns q s (f.popped+f.queue.length)
  /-- The slot of a working consumer. -/
  copies : Copying s.consumer → Copies q s f.popped

/-- The constructed queue is the empty list. -/
theorem inv_init (q : Ring) : Inv q (init N) ⟨0,[]⟩ where
  conserved := Explains.conserves (.nil : Explains N q.capacity true [] ⟨0,[]⟩)
  bound := Nat.zero_le _
  slots := nofun
  producer := trivial
  consumer := trivial
  memory :=
    { sane := Sane.initial _
      head_owned := Owned.initial Role _ _
      tail_owned := Owned.initial Role _ _
      room := fun _ _ _ _ => Nat.zero_le _
      unread := fun _ _ _ _ => Nat.zero_le _
      written := fun _ _ _ _ _ _ _ => ⟨Nat.zero_le _,Nat.zero_le _⟩
      read := fun _ _ _ _ _ _ _ => ⟨Nat.zero_le _,Nat.zero_le _⟩
      own := fun _ _ _ => ⟨Nat.zero_le _,Nat.zero_le _⟩ }
  assigns := False.elim
  copies := False.elim

section Memory

variable {s s' : State N} {head tail : ℕ}

/-- The views of the thread that changed them. -/
@[simp]
theorem setView_self (s : State N) (r : Role) (l : Local Role Counter) :
    (s.setView r l).views r=l := update_self _ _ _

/-- Other views grow if those of one thread do. -/
theorem views_le_update (views : Role → Local Role Counter) {r : Role} {l : Local Role Counter}
    (hle : (views r).current ≤ l.current) (u : Role) :
    (views u).current ≤ (update views r l u).current := by
  by_cases hu : u=r
  · subst hu
    rw [update_self]
    exact hle
  · rw [update_of_ne hu]

/-- A load only adds to the views. -/
theorem views_le_load {r : Role} {order : LoadOrder} {c : Counter} {ts value : ℕ}
    {l : Local Role Counter} (hl : load s.history (s.views r) order c ts=some (value,l))
    (u : Role) : (s.views u).current ≤ ((s.setView r l).views u).current := by
  obtain ⟨m,-,-,-,rfl⟩ := load_eq_some hl
  exact views_le_update s.views (le_observe order (s.views r) c ts m) u

/-- Loads keep the memory part. -/
theorem MemoryOk.load (h : MemoryOk q s head tail) {r : Role} {order : LoadOrder} {c : Counter}
    {ts value : ℕ} {l : Local Role Counter}
    (hl : load s.history (s.views r) order c ts=some (value,l)) :
    MemoryOk q (s.setView r l) head tail := by
  have hsane : Sane s.history (s.setView r l).views := h.sane.load hl
  have hle := views_le_load hl
  exact {h with
    sane := hsane
    head_owned := h.head_owned.view (hle _) (hsane.threads _).current
    tail_owned := h.tail_owned.view (hle _) (hsane.threads _).current
    room := h.room.mono (hle _)
    unread := h.unread.mono (hle _)
    own := fun u index => (h.own u index).mono (hle u) }

/-- Loads keep what the producer knows about its slot. -/
theorem Assigns.load (h : Assigns q s head) {r : Role} {order : LoadOrder} {c : Counter}
    {ts value : ℕ} {l : Local Role Counter}
    (hl : load s.history (s.views r) order c ts=some (value,l)) :
    Assigns q (s.setView r l) head :=
  ⟨h.room.mono (views_le_load hl _),h.known.mono (views_le_load hl _)⟩

/-- Loads keep what the consumer knows about its slot. -/
theorem Copies.load (h : Copies q s tail) {r : Role} {order : LoadOrder} {c : Counter}
    {ts value : ℕ} {l : Local Role Counter}
    (hl : load s.history (s.views r) order c ts=some (value,l)) :
    Copies q (s.setView r l) tail :=
  ⟨h.unread.mono (views_le_load hl _),h.known.mono (views_le_load hl _)⟩

/-- A copied message is behind the tail and in front of the head. -/
theorem Copies.lt (h : Copies q s tail) (hm : MemoryOk q s head tail) : tail<head := by
  obtain ⟨m,hseen⟩ := (hm.sane.threads .consumer).current .head
  exact (h.unread _ m (le_refl _) hseen).trans_le (hm.head_owned.value_le hseen)

/-- A slot access only adds to the views. -/
theorem views_le_touch (s : State N) (r : Role) (index : ℕ) (access : Field × Access) (u : Role) :
    (s.views u).current ≤ ((s.touch r index access).views u).current :=
  views_le_update s.views ((s.views r).le_tick r) u

/-- Slot accesses keep the stores. -/
theorem touch_sane (h : MemoryOk q s head tail) (r : Role) (index : ℕ) (access : Field × Access) :
    Sane s.history (s.touch r index access).views := by
  have hw := h.sane.threads r
  exact h.sane.setView ⟨hw.current.of_seen_eq rfl,hw.acquired,hw.released⟩

/-- Slot accesses keep what the threads know about their own accesses. -/
theorem touch_own (h : MemoryOk q s head tail) (r : Role) (index : ℕ) (access : Field × Access)
    (u : Role) (other : ℕ) : SlotKnown (s.touch r index access).footprints other u
      ((s.touch r index access).views u).current := by
  by_cases hu : u=r
  · subst hu
    simp only [State.touch,update_self]
    exact (h.own u other).record_self index access
  · simp only [State.touch,update_of_ne hu]
    exact (h.own u other).record_thread hu access _

/-- The producer accesses the slot behind the unread messages. -/
theorem MemoryOk.touch_producer (h : MemoryOk q s head tail) (hroom : head<tail+q.capacity)
    (access : Field × Access) :
    MemoryOk q (s.touch .producer (head%q.capacity) access) head tail := by
  have hle := views_le_touch s .producer (head%q.capacity) access
  have hsane := touch_sane h .producer (head%q.capacity) access
  refine {
    sane := hsane
    head_owned := h.head_owned.view (hle _) (hsane.threads _).current
    tail_owned := h.tail_owned.view (hle _) (hsane.threads _).current
    room := h.room.mono (hle _)
    unread := h.unread.mono (hle _)
    written := ?_
    read := fun ts m p hm hp hlt => (h.read ts m p hm hp hlt).record_thread (by decide) access _
    own := touch_own h .producer (head%q.capacity) access }
  intro ts m p hm hp hlap
  have hvalue := h.head_owned.value_le hm
  -- the written slots of this lap are those of other positions
  have hne : p%q.capacity≠head%q.capacity := by
    intro he
    have := RingIndex.eq_of_index_eq he (by omega) (by omega)
    omega
  exact (h.written ts m p hm hp hlap).record_slot hne access _ _

/-- The consumer accesses the slot of the oldest unread message. -/
theorem MemoryOk.touch_consumer (h : MemoryOk q s head tail) (hlt : tail<head)
    (access : Field × Access) :
    MemoryOk q (s.touch .consumer (tail%q.capacity) access) head tail := by
  have hle := views_le_touch s .consumer (tail%q.capacity) access
  have hsane := touch_sane h .consumer (tail%q.capacity) access
  refine {
    sane := hsane
    head_owned := h.head_owned.view (hle _) (hsane.threads _).current
    tail_owned := h.tail_owned.view (hle _) (hsane.threads _).current
    room := h.room.mono (hle _)
    unread := h.unread.mono (hle _)
    written := fun ts m p hm hp hlap =>
      (h.written ts m p hm hp hlap).record_thread (by decide) access _
    read := ?_
    own := touch_own h .consumer (tail%q.capacity) access }
  intro ts m p hm hp hnext
  have hvalue := h.tail_owned.value_le hm
  have hne : p%q.capacity≠tail%q.capacity := by
    intro he
    have := RingIndex.eq_of_index_eq he (by omega) (by omega)
    omega
  exact (h.read ts m p hm hp hnext).record_slot hne access _ _

/-- The slot of the producer is not the one the consumer copies. -/
theorem index_ne (hlt : tail<head) (hroom : head<tail+q.capacity) :
    tail%q.capacity≠head%q.capacity := by
  intro he
  have := RingIndex.eq_of_index_eq he (by omega) (by omega)
  omega

/-- The producer stores its counter. -/
theorem MemoryOk.storeHead (h : MemoryOk q s head tail) (hw : Assigns q s head)
    (hle : tail≤head) {ts : ℕ} {history : History Role Counter ℕ} {l : Local Role Counter}
    (hs : store s.history (s.views .producer) .release .head ts (head+1)=some (history,l)) :
    MemoryOk q (s.setMemory .producer history l) (head+1) tail := by
  have hgrow : (s.views .producer).current ≤ l.current := by
    obtain ⟨-,-,-,rfl⟩ := store_eq_some hs
    exact View.le_see _ _ _
  have hviews := views_le_update s.views hgrow
  have hsane := h.sane.store hs
  have howned := h.head_owned.store hs (Nat.le_succ head)
  obtain ⟨-,-,rfl,-⟩ := store_eq_some hs
  refine {
    sane := hsane
    head_owned := by simpa only [State.setMemory,update_self] using howned
    tail_owned := (h.tail_owned.view (hviews _) ?_).add_of_ne (by decide) ts _
    room := (hw.room.mono (hviews _)).add fun he => by cases he
    unread := (h.unread.mono (hviews _)).add fun _ => ?_
    written := ?_
    read := ?_
    own := fun r index => (h.own r index).mono (hviews r) }
  · exact (h.sane.threads .consumer).current
  · exact Nat.le_succ_of_le hle
  · intro ts' m p hm hp hlap
    rw [State.setMemory_history] at hm
    rcases History.add_eq_some hm with ⟨-,-,rfl⟩ | hold
    · exact (h.own .producer _).mono (View.le_see _ _ _)
    · exact h.written ts' m p hold hp (by omega)
  · intro ts' m p hm hp hnext
    rw [State.setMemory_history,History.add_of_ne _ _ _ (by decide : Counter.tail≠.head)] at hm
    exact h.read ts' m p hm (by omega) hnext

/-- The consumer stores its counter. -/
theorem MemoryOk.storeTail (h : MemoryOk q s head tail) (hc : Copies q s tail)
    (hle : head≤tail+q.capacity) {ts : ℕ} {history : History Role Counter ℕ}
    {l : Local Role Counter}
    (hs : store s.history (s.views .consumer) .release .tail ts (tail+1)=some (history,l)) :
    MemoryOk q (s.setMemory .consumer history l) head (tail+1) := by
  have hgrow : (s.views .consumer).current ≤ l.current := by
    obtain ⟨-,-,-,rfl⟩ := store_eq_some hs
    exact View.le_see _ _ _
  have hviews := views_le_update s.views hgrow
  have hsane := h.sane.store hs
  have howned := h.tail_owned.store hs (Nat.le_succ tail)
  obtain ⟨-,-,rfl,-⟩ := store_eq_some hs
  refine {
    sane := hsane
    head_owned := (h.head_owned.view (hviews _) ?_).add_of_ne (by decide) ts _
    tail_owned := by simpa only [State.setMemory,update_self] using howned
    room := (h.room.mono (hviews _)).add fun _ => ?_
    unread := (hc.unread.mono (hviews _)).add fun he => by cases he
    written := ?_
    read := ?_
    own := fun r index => (h.own r index).mono (hviews r) }
  · exact (h.sane.threads .producer).current
  · show head≤tail+1+q.capacity
    omega
  · intro ts' m p hm hp hlap
    rw [State.setMemory_history,History.add_of_ne _ _ _ (by decide : Counter.head≠.tail)] at hm
    exact h.written ts' m p hm hp (by omega)
  · intro ts' m p hm hp hnext
    rw [State.setMemory_history] at hm
    rcases History.add_eq_some hm with ⟨-,-,rfl⟩ | hold
    · exact (h.own .consumer _).mono (View.le_see _ _ _)
    · exact h.read ts' m p hold (by omega) hnext

end Memory

section Steps

variable {s s' : State N} {f : Fifo}

/-- The number of pushes that succeeded. -/
theorem Inv.popped_le (h : Inv q s f) : (popped s.log).length≤(pushed s.log).length := by
  have hcount := h.conserved.popped_eq
  have hle := h.conserved.popped_le
  omega

/-- A call of `try_push` keeps the invariant. -/
theorem Inv.enterPush (h : Inv q s f) (payload : List Byte) :
    Inv q (SpscMemoryModel.enterPush s payload) f := by
  unfold SpscMemoryModel.enterPush
  split
  · exact {h with
      conserved := h.conserved.unsuccessful rfl rfl
      producer := trivial
      memory := {h.memory with}
      assigns := False.elim
      copies := fun hc => {h.copies hc with} }
  · rename_i hfits
    exact {h with
      producer := Nat.not_lt.mp hfits
      memory := {h.memory with}
      assigns := False.elim
      copies := fun hc => {h.copies hc with} }

/-- The producer loads its own counter. -/
theorem Inv.loadHead (h : Inv q s f) {payload : List Byte} {ts value : ℕ}
    {l : Local Role Counter} (hs : s.producer=.running payload .loadHead)
    (hl : load s.history (s.views .producer) .relaxed .head ts=some (value,l)) :
    Inv q {s.setView .producer l with producer := .running payload (.loadTail value)} f := by
  have hok := h.producer
  rw [hs] at hok
  have hvalue := h.memory.head_owned.load_own hl
  exact {
    conserved := h.conserved
    bound := h.bound
    slots := h.slots
    producer := ⟨hok,hvalue⟩
    consumer := h.consumer
    memory := {h.memory.load hl with}
    assigns := False.elim
    copies := fun hc => {(h.copies hc).load hl with} }

/-- The test for room either reports a full queue or enters `assign`. The
loaded tail may be outdated, but it is not larger than the true one. -/
theorem Inv.loadTail (h : Inv q s f) {payload : List Byte} {head ts value : ℕ}
    {l : Local Role Counter} (hs : s.producer=.running payload (.loadTail head))
    (hl : load s.history (s.views .producer) .acquire .tail ts=some (value,l)) :
    Inv q (testRoom q (s.setView .producer l) payload head value) f := by
  have hok := h.producer
  rw [hs] at hok
  obtain ⟨hp,rfl⟩ := hok
  have hmemory := h.memory.load hl
  have hcopies := fun hc => (h.copies hc).load hl
  obtain ⟨m,hm,hts,rfl,rfl⟩ := load_eq_some hl
  have hle := h.memory.tail_owned.value_le hm
  have hroom := h.memory.room ts m hts hm
  unfold testRoom
  split
  · exact {
      conserved := h.conserved.unsuccessful rfl rfl
      bound := h.bound
      slots := h.slots
      producer := trivial
      consumer := h.consumer
      memory := {hmemory with}
      assigns := False.elim
      copies := fun hc => {hcopies hc with} }
  · rename_i hfull
    rw [subWord,if_pos (by omega)] at hfull
    have hlt : f.popped+f.queue.length < m.value+q.capacity := by
      have hroom' : f.popped+f.queue.length ≤ m.value+q.capacity := hroom
      omega
    have henter := assignEnter_progress (f.popped+f.queue.length+1)
      (s.slots ((f.popped+f.queue.length)%q.capacity)) hp
    have hassigns : Assigns q
        (s.setView .producer (observe .acquire (s.views .producer) .tail ts m))
        (f.popped+f.queue.length) := by
      refine ⟨?_,?_⟩
      · rw [setView_self]
        refine (h.memory.tail_owned.readable hm (observe_seen _ _ _ _ _)).weaken ?_
        intro value hvalue
        omega
      · rw [setView_self]
        exact (h.memory.read ts m _ hm (by omega) hlt).mono (view_le_observe _ _ _ _)
    rw [henter.1]
    exact {
      conserved := h.conserved
      bound := h.bound
      slots := h.slots
      producer := ⟨hp,rfl,by omega,henter.2⟩
      consumer := h.consumer
      memory := {hmemory with}
      assigns := fun _ => {hassigns with}
      copies := fun hc => {hcopies hc with} }

/-- An access of `assign` only touches the slot behind the unread ones. -/
theorem Inv.assign (h : Inv q s f) {payload : List Byte} {head ts : ℕ} {pc : AssignPc}
    (hs : s.producer=.running payload (.assign head pc))
    (hstep : SpscMemoryModel.stepPush q s payload ts (.assign head pc)=some s') :
    Inv q s' f := by
  have hok := h.producer
  have hworking : Assigning s.producer := by rw [hs]; trivial
  have hassigns := h.assigns hworking
  rw [hs] at hok
  obtain ⟨hp,rfl,hroom,hprog⟩ := hok
  cases hstep
  have hnext := assignStep_progress hp hprog
  have hproducer : ProducerOk q
      (update s.slots ((f.popped+f.queue.length)%q.capacity)
        (assignStep payload (f.popped+f.queue.length+1)
          (s.slots ((f.popped+f.queue.length)%q.capacity)) pc).1)
      (f.popped+f.queue.length) f.popped
      (.running payload (afterAssign (f.popped+f.queue.length)
        (assignStep payload (f.popped+f.queue.length+1)
          (s.slots ((f.popped+f.queue.length)%q.capacity)) pc).2)) := by
    cases pc with
    | loadSequence =>
      obtain ⟨hresult,hholds⟩ := hnext
      refine ⟨hp,rfl,hroom,hresult,?_⟩
      rw [update_self]
      exact hholds
    | _ =>
      refine ⟨hp,rfl,hroom,?_⟩
      rw [update_self]
      exact hnext
  have hle := views_le_touch s .producer ((f.popped+f.queue.length)%q.capacity) (assignAccess pc)
  exact {
    conserved := h.conserved
    bound := h.bound
    slots := h.slots.write rfl hroom _
    producer := hproducer
    consumer := h.consumer
    memory := {h.memory.touch_producer hroom (assignAccess pc) with}
    assigns := fun _ =>
      ⟨hassigns.room.mono (hle _),
        (hassigns.known.mono (hle _)).record_thread (by decide) (assignAccess pc) _⟩
    copies := fun hc =>
      ⟨(h.copies hc).unread.mono (hle _),
        ((h.copies hc).known.mono (hle _)).record_slot
          (index_ne ((h.copies hc).lt h.memory) hroom) (assignAccess pc) _ _⟩ }

/-- The store of the head completes a push of the list. -/
theorem Inv.storeHead (h : Inv q s f) {payload : List Byte} {head ts : ℕ} {result : WriteResult}
    {history : History Role Counter ℕ} {l : Local Role Counter}
    (hs : s.producer=.running payload (.storeHead head result))
    (hw : store s.history (s.views .producer) .release .head ts (head+1)=some (history,l)) :
    Inv q ((s.setMemory .producer history l).returnPush payload result)
      ⟨f.popped,f.queue++[payload]⟩ := by
  have hok := h.producer
  have hworking : Assigning s.producer := by rw [hs]; trivial
  have hassigns := h.assigns hworking
  rw [hs] at hok
  obtain ⟨hp,rfl,hroom,rfl,hholds⟩ := hok
  have hlength : (f.queue++[payload]).length=f.queue.length+1 := List.length_append
  have hmemory := h.memory.storeHead hassigns (Nat.le_add_right _ _) hw
  obtain ⟨-,-,rfl,-⟩ := store_eq_some hw
  refine {
    conserved := h.conserved.push payload
    bound := by simp only [hlength]; omega
    slots := h.slots.push rfl hholds
    producer := trivial
    consumer := h.consumer.append [payload]
    memory := ?_
    assigns := False.elim
    copies := ?_ }
  · rw [hlength]
    exact {hmemory with}
  · intro hc
    have hlt := (h.copies hc).lt h.memory
    exact ⟨((h.copies hc).unread.add fun _ => Nat.lt_succ_of_lt hlt),(h.copies hc).known⟩

/-- Every access of the producer keeps the invariant. -/
theorem Inv.stepPush (h : Inv q s f) {payload : List Byte} {ts : ℕ} {pc : PushPc}
    (hs : s.producer=.running payload pc)
    (hstep : SpscMemoryModel.stepPush q s payload ts pc=some s') : ∃ f',Inv q s' f' := by
  cases pc with
  | loadHead =>
    obtain ⟨⟨value,l⟩,hl,rfl⟩ := Option.map_eq_some_iff.mp hstep
    exact ⟨f,h.loadHead hs hl⟩
  | loadTail head =>
    obtain ⟨⟨value,l⟩,hl,rfl⟩ := Option.map_eq_some_iff.mp hstep
    exact ⟨f,h.loadTail hs hl⟩
  | assign head pc => exact ⟨f,h.assign hs hstep⟩
  | storeHead head result =>
    obtain ⟨⟨history,l⟩,hw,rfl⟩ := Option.map_eq_some_iff.mp hstep
    exact ⟨_,h.storeHead hs hw⟩

/-- The consumer loads its own counter. -/
theorem Inv.loadOwnTail (h : Inv q s f) {original destination : List Byte} {ts value : ℕ}
    {l : Local Role Counter} (hs : s.consumer=.running original destination .loadTail)
    (hl : load s.history (s.views .consumer) .relaxed .tail ts=some (value,l)) :
    Inv q {s.setView .consumer l with
      consumer := .running original destination (.loadHead value)} f := by
  have hok := h.consumer
  rw [hs] at hok
  have hvalue := h.memory.tail_owned.load_own hl
  exact {
    conserved := h.conserved
    bound := h.bound
    slots := h.slots
    producer := h.producer
    consumer := ⟨hok,hvalue⟩
    memory := {h.memory.load hl with}
    assigns := fun ha => {(h.assigns ha).load hl with}
    copies := False.elim }

/-- The test for a message either reports an empty queue or enters
`copy_to`. The loaded head may be outdated, but it is not smaller than the
tail and not larger than the true one. -/
theorem Inv.loadOtherHead (h : Inv q s f) {original destination : List Byte} {tail ts value : ℕ}
    {l : Local Role Counter} (hs : s.consumer=.running original destination (.loadHead tail))
    (hl : load s.history (s.views .consumer) .acquire .head ts=some (value,l)) :
    Inv q (testMessage (s.setView .consumer l) original destination tail value) f := by
  have hok := h.consumer
  rw [hs] at hok
  obtain ⟨rfl,rfl⟩ := hok
  have hmemory := h.memory.load hl
  have hassigns := fun ha => (h.assigns ha).load hl
  obtain ⟨m,hm,hts,rfl,rfl⟩ := load_eq_some hl
  have hle := h.memory.head_owned.value_le hm
  have hunread : f.popped ≤ m.value := h.memory.unread ts m hts hm
  unfold testMessage
  split
  · exact {
      conserved := h.conserved.unsuccessful rfl rfl
      bound := h.bound
      slots := h.slots
      producer := h.producer
      consumer := trivial
      memory := {hmemory with}
      assigns := fun ha => {hassigns ha with}
      copies := False.elim }
  · rename_i hsome
    have hlt : f.popped < m.value := by omega
    have hcopies : Copies q
        (s.setView .consumer (observe .acquire (s.views .consumer) .head ts m)) f.popped := by
      refine ⟨?_,?_⟩
      · rw [setView_self]
        refine (h.memory.head_owned.readable hm (observe_seen _ _ _ _ _)).weaken ?_
        intro value hvalue
        omega
      · rw [setView_self]
        exact (h.memory.written ts m _ hm hlt (by omega)).mono (view_le_observe _ _ _ _)
    obtain ⟨payload,rest,hqueue⟩ : ∃ payload rest,f.queue=payload::rest :=
      List.exists_cons_of_length_pos (by omega)
    exact {
      conserved := h.conserved
      bound := h.bound
      slots := h.slots
      producer := h.producer
      consumer := ⟨rfl,payload,rest,hqueue,rfl⟩
      memory := {hmemory with}
      assigns := fun ha => {hassigns ha with}
      copies := fun _ => {hcopies with} }

/-- The end of `copy_to`: a success goes on to the store of the tail, a
rejected message stays where it is. -/
theorem Inv.copied (h : Inv q s f) {original destination payload : List Byte}
    {rest : List (List Byte)} {result : ReadResult} (hqueue : f.queue=payload::rest)
    (hc : Copies q s f.popped)
    (hd : (destination,result)=delivery payload (f.popped+1) original) :
    Inv q (afterCopy s original destination f.popped (.finished result)) f := by
  by_cases hshort : original.length<payload.length
  · rw [delivery_of_rejects _ hshort,Prod.mk.injEq] at hd
    have hbad : ¬ok result.status=true := by rw [hd.2]; simp
    rw [afterCopy,if_neg hbad]
    have hpop : (Event.pop original destination result).successfulPop=none := by
      rw [Event.successfulPop,if_neg hbad]
    exact {h with
      conserved := h.conserved.unsuccessful rfl hpop
      consumer := trivial
      memory := {h.memory with}
      assigns := fun ha => {h.assigns ha with}
      copies := False.elim }
  · have hfits := Nat.not_lt.mp hshort
    have hdelivered := hd
    rw [delivery_of_fits _ hfits,Prod.mk.injEq] at hd
    have hgood : ok result.status=true := by rw [hd.2]; simp
    rw [afterCopy,if_pos hgood]
    exact {h with
      consumer := ⟨rfl,payload,rest,hqueue,hfits,hdelivered⟩
      memory := {h.memory with}
      assigns := fun ha => {h.assigns ha with}
      copies := fun _ => {hc with} }

/-- An access of `copy_to` reads the oldest unread message. -/
theorem Inv.copy (h : Inv q s f) {original destination : List Byte} {tail ts : ℕ} {pc : CopyPc}
    (hs : s.consumer=.running original destination (.copy tail pc))
    (hstep : SpscMemoryModel.stepPop q s original destination ts (.copy tail pc)=some s') :
    Inv q s' f := by
  have hok := h.consumer
  have hworking : Copying s.consumer := by rw [hs]; trivial
  have hcopies := h.copies hworking
  have hlt := hcopies.lt h.memory
  rw [hs] at hok
  obtain ⟨rfl,payload,rest,hqueue,hprog⟩ := hok
  have hslots := h.slots
  rw [hqueue] at hslots
  have hnext := copyStep_progress hslots.front hprog
  have hle := views_le_touch s .consumer (f.popped%q.capacity) (copyAccess pc)
  have hcopies' : Copies q (s.touch .consumer (f.popped%q.capacity) (copyAccess pc)) f.popped :=
    ⟨hcopies.unread.mono (hle _),
      (hcopies.known.mono (hle _)).record_thread (by decide) (copyAccess pc) _⟩
  have htouched : Inv q (s.touch .consumer (f.popped%q.capacity) (copyAccess pc)) f := by
    refine {h with
      memory := h.memory.touch_consumer hlt (copyAccess pc)
      assigns := ?_
      copies := fun _ => hcopies' }
    intro ha
    have hassigns := h.assigns ha
    obtain ⟨m,hseen⟩ := (h.memory.sane.threads .producer).current .tail
    have hroom := hassigns.room _ m (le_refl _) hseen
    have hvalue := h.memory.tail_owned.value_le hseen
    exact ⟨hassigns.room.mono (hle _),(hassigns.known.mono (hle _)).record_slot
      (index_ne hlt (by omega)).symm (copyAccess pc) _ _⟩
  cases hstep
  cases hresult : (copyStep (s.slots (f.popped%q.capacity)) destination pc).2 with
  | running pc' =>
    rw [hresult] at hnext
    exact {htouched with
      consumer := ⟨rfl,payload,rest,hqueue,hnext⟩
      memory := {htouched.memory with}
      assigns := fun ha => {htouched.assigns ha with}
      copies := fun _ => {hcopies' with} }
  | finished result =>
    rw [hresult] at hnext
    exact htouched.copied hqueue hcopies' hnext

/-- The store of the tail completes a pop of the list. -/
theorem Inv.storeTail (h : Inv q s f) {original destination : List Byte} {tail ts : ℕ}
    {result : ReadResult} {history : History Role Counter ℕ} {l : Local Role Counter}
    (hs : s.consumer=.running original destination (.storeTail tail result))
    (hw : store s.history (s.views .consumer) .release .tail ts (tail+1)=some (history,l)) :
    ∃ f',Inv q ((s.setMemory .consumer history l).returnPop original destination result) f' := by
  have hok := h.consumer
  have hworking : Copying s.consumer := by rw [hs]; trivial
  have hcopies := h.copies hworking
  rw [hs] at hok
  obtain ⟨rfl,payload,rest,hqueue,hfits,hd⟩ := hok
  rw [delivery_of_fits _ hfits] at hd
  cases hd
  have hbound := h.bound
  have hslots := h.slots
  have hmemory := h.memory.storeTail hcopies (Nat.add_le_add_left hbound _) hw
  rw [hqueue] at hslots
  rw [hqueue,List.length_cons] at hbound hmemory
  obtain ⟨-,-,rfl,-⟩ := store_eq_some hw
  refine ⟨⟨f.popped+1,rest⟩,{
    conserved := h.conserved.pop hqueue hfits
    bound := by simp only; omega
    slots := hslots.pop
    producer := ?_
    consumer := trivial
    memory := ?_
    assigns := ?_
    copies := False.elim }⟩
  · have hproducer := h.producer.tail_succ
    rw [hqueue,List.length_cons] at hproducer
    have he : f.popped+1+rest.length=f.popped+(rest.length+1) := by omega
    rw [he]
    exact hproducer
  · have he : f.popped+1+rest.length=f.popped+(rest.length+1) := by omega
    rw [he]
    exact {hmemory with}
  · intro ha
    have hassigns := h.assigns ha
    rw [hqueue,List.length_cons] at hassigns
    have he : f.popped+1+rest.length=f.popped+(rest.length+1) := by omega
    rw [he]
    exact ⟨hassigns.room.add fun _ => by show _<f.popped+1+q.capacity; omega,hassigns.known⟩

/-- Every access of the consumer keeps the invariant. -/
theorem Inv.stepPop (h : Inv q s f) {original destination : List Byte} {ts : ℕ} {pc : PopPc}
    (hs : s.consumer=.running original destination pc)
    (hstep : SpscMemoryModel.stepPop q s original destination ts pc=some s') :
    ∃ f',Inv q s' f' := by
  cases pc with
  | loadTail =>
    obtain ⟨⟨value,l⟩,hl,rfl⟩ := Option.map_eq_some_iff.mp hstep
    exact ⟨f,h.loadOwnTail hs hl⟩
  | loadHead tail =>
    obtain ⟨⟨value,l⟩,hl,rfl⟩ := Option.map_eq_some_iff.mp hstep
    exact ⟨f,h.loadOtherHead hs hl⟩
  | copy tail pc => exact ⟨f,h.copy hs hstep⟩
  | storeTail tail result =>
    obtain ⟨⟨history,l⟩,hw,rfl⟩ := Option.map_eq_some_iff.mp hstep
    exact h.storeTail hs hw

/-- Every scheduled step keeps the invariant. -/
theorem Inv.step (h : Inv q s f) {a : Action} (hs : SpscMemoryModel.step q s a=some s') :
    ∃ f',Inv q s' f' := by
  cases a with
  | callPush payload =>
    simp only [SpscMemoryModel.step] at hs
    split at hs <;> cases hs
    exact ⟨f,h.enterPush payload⟩
  | push ts =>
    simp only [SpscMemoryModel.step] at hs
    split at hs
    · rename_i payload pc hp
      exact h.stepPush hp hs
    · cases hs
  | callPop destination =>
    simp only [SpscMemoryModel.step] at hs
    split at hs <;> cases hs
    exact ⟨f,{h with
      consumer := rfl
      memory := {h.memory with}
      assigns := fun ha => {h.assigns ha with}
      copies := False.elim }⟩
  | pop ts =>
    simp only [SpscMemoryModel.step] at hs
    split at hs
    · rename_i original destination pc hc
      exact h.stepPop hc hs
    · cases hs

/-- The invariant holds in every reachable state. -/
theorem reachable_inv (h : Reachable (system q N) s) : ∃ f,Inv q s f := by
  refine Reachable.invariant (I:=fun s => ∃ f,Inv q s f) ⟨_,inv_init q⟩ ?_ h
  rintro s a s' - ⟨f,hf⟩ hs
  exact hf.step hs

/-- No next access races. -/
theorem Inv.race_free (h : Inv q s f) (r : Role) : ¬Racy q s r := by
  cases r with
  | producer =>
    unfold Racy
    simp only
    split
    · rename_i payload head pc hs
      have hok := h.producer
      have hassigns := h.assigns (by rw [hs]; trivial)
      rw [hs] at hok
      obtain ⟨-,rfl,-⟩ := hok
      refine SlotKnown.not_races ?_ (assignAccess pc)
      intro u
      cases u with
      | producer => exact h.memory.own .producer _
      | consumer => exact hassigns.known
    · exact id
  | consumer =>
    unfold Racy
    simp only
    split
    · rename_i original destination tail pc hs
      have hok := h.consumer
      have hcopies := h.copies (by rw [hs]; trivial)
      rw [hs] at hok
      obtain ⟨rfl,-⟩ := hok
      refine SlotKnown.not_races ?_ (copyAccess pc)
      intro u
      cases u with
      | producer => exact hcopies.known
      | consumer => exact h.memory.own .consumer _
    · exact id

end Steps

/-- The queue delivers on its memory orders, as a property of one state. -/
structure Delivers (q : Ring) (s : State N) : Prop where
  /-- The next plain access of either thread does not race. -/
  race_free : ∀ r,¬Racy q s r
  /-- The pushes that succeeded are numbered from one. -/
  push_sequence : ∀ (i : ℕ) (payload : List Byte) (result : WriteResult),
    (pushed s.log)[i]?=some (payload,result) → result=⟨.success,i+1⟩
  /-- The pops that succeeded deliver these pushes one by one. -/
  pop_delivery : ∀ (i : ℕ) (original destination : List Byte) (result : ReadResult),
    (popped s.log)[i]?=some (original,destination,result) →
    ∃ (payload : List Byte) (written : WriteResult),(pushed s.log)[i]?=some (payload,written) ∧
      payload.length≤original.length ∧ destination=payload++original.drop payload.length ∧
      result=⟨.success,payload.length,i+1⟩
  /-- The number of unread messages is between zero and the capacity. -/
  unread : (popped s.log).length≤(pushed s.log).length ∧
    (pushed s.log).length≤(popped s.log).length+q.capacity

/-- Under RC11, every interleaving and every choice of the stores that are
read, acquire loads and release stores of the two counters order all accesses
of a slot, and the messages are delivered in order and unchanged. -/
theorem memory_orders_suffice (q : Ring) {s : State N} (h : Reachable (system q N) s) :
    Delivers q s := by
  obtain ⟨f,hf⟩ := reachable_inv h
  have hlength := hf.conserved.length_eq
  have hcount := hf.conserved.popped_eq
  have hbound := hf.bound
  exact {
    race_free := hf.race_free
    push_sequence := hf.conserved.push_sequence
    pop_delivery := hf.conserved.pop_delivery
    unread := ⟨hf.popped_le,by omega⟩ }

/-- A push, a pop that still reads the initial head, a pop that reads the
stored one, and a push that reads the new tail. -/
def outdatedPop : List Action :=
  .callPush [1,2]::List.replicate 7 (.push 0)++[.push 1]++
  .callPop [0,0]::List.replicate 2 (.pop 0)++
  .callPop [0,0]::.pop 0::List.replicate 8 (.pop 1)++
  .callPush [3]::List.replicate 6 (.push 1)++[.push 2]

/-- Delivery at a run with an outdated load. -/
theorem memory_orders_suffice_outdated :
    (run (system (.ofSucc _ 0) 2) outdatedPop).log=
      [.push [1,2] ⟨.success,1⟩,.pop [0,0] [0,0] ⟨.empty,0,0⟩,
        .pop [0,0] [1,2] ⟨.success,2,1⟩,.push [3] ⟨.success,2⟩] ∧
    Delivers (.ofSucc _ 0) (run (system (.ofSucc _ 0) 2) outdatedPop) :=
  ⟨by decide +kernel,memory_orders_suffice _ (run_reachable _ _)⟩

section Interleavings

variable {ι : Type} [DecidableEq ι]

/-- A state of the interleaved queue, seen in the memory by its last stores. -/
structure Shows (s : SpscModel.State ι N) (t : State N) : Prop where
  /-- Contents of the slots. -/
  slots : t.slots=s.slots
  /-- The producer thread. -/
  producer : t.producer=s.producer
  /-- The consumer thread. -/
  consumer : t.consumer=s.consumer
  /-- Completed calls. -/
  log : t.log=s.log
  /-- The last stored head. -/
  head : ∃ ts m,Latest t.history .head ts m ∧ m.value=s.head
  /-- The last stored tail. -/
  tail : ∃ ts m,Latest t.history .tail ts m ∧ m.value=s.tail

variable {s s' : SpscModel.State ι N} {t : State N}

omit [DecidableEq ι] in
/-- The producer reads and writes at the last stores. -/
theorem Shows.stepPush (h : Shows s t) (hr : Sane t.history t.views) (payload : List Byte)
    (pc : PushPc) : ∃ ts t',SpscMemoryModel.stepPush q t payload ts pc=some t' ∧
      Shows (SpscModel.stepPush q s payload pc) t' := by
  obtain ⟨headTs,headMessage,hhead,hheadValue⟩ := h.head
  obtain ⟨tailTs,tailMessage,htail,htailValue⟩ := h.tail
  cases pc with
  | loadHead =>
    refine ⟨headTs,_,by rw [SpscMemoryModel.stepPush,hhead.loadable hr .producer .relaxed,
      Option.map_some],?_⟩
    exact {h with
      producer := by rw [hheadValue]; rfl
      head := ⟨_,_,hhead,hheadValue⟩
      tail := ⟨_,_,htail,htailValue⟩ }
  | loadTail head =>
    refine ⟨tailTs,_,by rw [SpscMemoryModel.stepPush,htail.loadable hr .producer .acquire,
      Option.map_some],?_⟩
    simp only [testRoom,SpscModel.stepPush,htailValue]
    split
    · exact {h with
        producer := rfl
        log := by simp only [State.returnPush,State.setView,SpscModel.State.returnPush,h.log]
        head := ⟨_,_,hhead,hheadValue⟩
        tail := ⟨_,_,htail,htailValue⟩ }
    · exact {h with
        producer := rfl
        head := ⟨_,_,hhead,hheadValue⟩
        tail := ⟨_,_,htail,htailValue⟩ }
  | assign head pc =>
    refine ⟨0,_,rfl,?_⟩
    exact {h with
      slots := by simp only [SpscModel.stepPush,h.slots]
      producer := by simp only [SpscModel.stepPush,h.slots]
      head := ⟨_,_,hhead,hheadValue⟩
      tail := ⟨_,_,htail,htailValue⟩ }
  | storeHead head result =>
    refine ⟨headTs+1,_,by rw [SpscMemoryModel.stepPush,hhead.storable hr .producer .release,
      Option.map_some],?_⟩
    exact {h with
      producer := rfl
      log := by simp only [State.returnPush,State.setMemory,SpscModel.stepPush,
        SpscModel.State.returnPush,h.log]
      head := ⟨_,_,hhead.add (Nat.lt_succ_self _) _,rfl⟩
      tail := ⟨_,_,htail.add_of_ne (by decide) _,htailValue⟩ }

omit [DecidableEq ι] in
/-- The consumer reads and writes at the last stores. -/
theorem Shows.stepPop (h : Shows s t) (hr : Sane t.history t.views)
    (original destination : List Byte) (pc : PopPc) :
    ∃ ts t',SpscMemoryModel.stepPop q t original destination ts pc=some t' ∧
      Shows (SpscModel.stepPop q s original destination pc) t' := by
  obtain ⟨headTs,headMessage,hhead,hheadValue⟩ := h.head
  obtain ⟨tailTs,tailMessage,htail,htailValue⟩ := h.tail
  cases pc with
  | loadTail =>
    refine ⟨tailTs,_,by rw [SpscMemoryModel.stepPop,htail.loadable hr .consumer .relaxed,
      Option.map_some],?_⟩
    exact {h with
      consumer := by rw [htailValue]; rfl
      head := ⟨_,_,hhead,hheadValue⟩
      tail := ⟨_,_,htail,htailValue⟩ }
  | loadHead tail =>
    refine ⟨headTs,_,by rw [SpscMemoryModel.stepPop,hhead.loadable hr .consumer .acquire,
      Option.map_some],?_⟩
    simp only [testMessage,SpscModel.stepPop,hheadValue]
    split
    · exact {h with
        consumer := rfl
        log := by simp only [State.returnPop,State.setView,SpscModel.State.returnPop,h.log]
        head := ⟨_,_,hhead,hheadValue⟩
        tail := ⟨_,_,htail,htailValue⟩ }
    · exact {h with
        consumer := rfl
        head := ⟨_,_,hhead,hheadValue⟩
        tail := ⟨_,_,htail,htailValue⟩ }
  | copy tail pc =>
    refine ⟨0,_,rfl,?_⟩
    simp only [SpscModel.stepPop,h.slots]
    cases (copyStep (s.slots (tail%q.capacity)) destination pc).2 with
    | running pc' =>
      exact {h with
        consumer := rfl
        head := ⟨_,_,hhead,hheadValue⟩
        tail := ⟨_,_,htail,htailValue⟩ }
    | finished result =>
      simp only [afterCopy,SpscModel.afterCopy]
      split
      · exact {h with
          consumer := rfl
          head := ⟨_,_,hhead,hheadValue⟩
          tail := ⟨_,_,htail,htailValue⟩ }
      · exact {h with
          consumer := rfl
          log := by simp only [State.returnPop,State.touch,SpscModel.State.returnPop,h.log]
          head := ⟨_,_,hhead,hheadValue⟩
          tail := ⟨_,_,htail,htailValue⟩ }
  | storeTail tail result =>
    refine ⟨tailTs+1,_,by rw [SpscMemoryModel.stepPop,htail.storable hr .consumer .release,
      Option.map_some],?_⟩
    exact {h with
      consumer := rfl
      log := by simp only [State.returnPop,State.setMemory,SpscModel.stepPop,
        SpscModel.State.returnPop,h.log]
      head := ⟨_,_,hhead.add_of_ne (by decide) _,hheadValue⟩
      tail := ⟨_,_,htail.add (Nat.lt_succ_self _) _,rfl⟩ }

/-- A step of the interleaved queue is at most one step on the memory. -/
theorem Shows.step (h : Shows s t) (hr : Reachable (system q N) t) {a : SpscModel.Action ι}
    (hs : SpscModel.step q s a=some s') : ∃ t',Reachable (system q N) t' ∧ Shows s' t' := by
  obtain ⟨f,hf⟩ := reachable_inv hr
  cases a with
  | callPush payload =>
    simp only [SpscModel.step] at hs
    split at hs <;> cases hs
    rename_i hp
    refine ⟨SpscMemoryModel.enterPush t payload,hr.step (a:=.callPush payload) ?_,?_⟩
    · simp only [system,SpscMemoryModel.step,h.producer,hp]
    · unfold SpscMemoryModel.enterPush SpscModel.enterPush
      split
      · exact {h with
          producer := rfl
          log := by simp only [State.returnPush,SpscModel.State.returnPush,h.log] }
      · exact {h with producer := rfl}
  | push =>
    simp only [SpscModel.step] at hs
    split at hs <;> cases hs
    rename_i payload pc hp
    obtain ⟨ts,t',ht,hshows⟩ := h.stepPush (q:=q) hf.memory.sane payload pc
    refine ⟨t',hr.step (a:=.push ts) ?_,hshows⟩
    simp only [system,SpscMemoryModel.step,h.producer,hp]
    exact ht
  | callPop destination =>
    simp only [SpscModel.step] at hs
    split at hs <;> cases hs
    rename_i hc
    refine ⟨{t with consumer := .running destination destination .loadTail},
      hr.step (a:=.callPop destination) ?_,{h with consumer := rfl}⟩
    simp only [system,SpscMemoryModel.step,h.consumer,hc]
  | pop =>
    simp only [SpscModel.step] at hs
    split at hs <;> cases hs
    rename_i original destination pc hc
    obtain ⟨ts,t',ht,hshows⟩ := h.stepPop (q:=q) hf.memory.sane original destination pc
    refine ⟨t',hr.step (a:=.pop ts) ?_,hshows⟩
    simp only [system,SpscMemoryModel.step,h.consumer,hc]
    exact ht
  | callObserver i question headFirst =>
    simp only [SpscModel.step] at hs
    split at hs <;> cases hs
    exact ⟨t,hr,{h with}⟩
  | observe i =>
    obtain ⟨next,-,rfl⟩ := Option.map_eq_some_iff.mp hs
    exact ⟨t,hr,{h with}⟩

/-- Every interleaving of the queue is a run on the memory in which all loads
return the last stores. -/
theorem interleavings_embed (h : Reachable (SpscModel.system q ι N) s) :
    ∃ t,Reachable (system q N) t ∧ Shows s t := by
  refine Reachable.invariant (I:=fun s => ∃ t,Reachable (system q N) t ∧ Shows s t) ?_ ?_ h
  · exact ⟨_,.init,rfl,rfl,rfl,rfl,⟨_,_,Latest.initial Role _ _,rfl⟩,
      ⟨_,_,Latest.initial Role _ _,rfl⟩⟩
  · rintro s a s' - ⟨t,hr,ht⟩ hs
    exact ht.step hr hs

end Interleavings

end Line64.SpscMemoryDelivery
