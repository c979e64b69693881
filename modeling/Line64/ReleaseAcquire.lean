import Mathlib.Order.Lattice
import Mathlib.Order.MinMax
import Mathlib.Logic.Function.Basic

/-!
# Atomic memory with release and acquire views

The stores to an atomic location carry timestamps, which are its modification
order. A load returns any store that is not older than what its thread has
seen of the location. A store carries a view, and a thread that acquires the
store takes the view over: it may no longer read behind it, and the plain
accesses recorded in it happen before everything the thread does next.

The memory model is RC11 without sequentially consistent accesses: relaxed,
acquire and release accesses, both fences, and the relaxed compare-exchange.
As RC11 demands, there is no load buffering: a load returns only stores that
were executed, so loads are not reordered behind later stores. No program is
mentioned here.
-/

namespace Line64.ReleaseAcquire

open Function

/-- What is known to happen before: stores by location and plain accesses by
thread. -/
@[ext]
structure View (τ α : Type) where
  /-- Timestamps below which a location may not be read any more. -/
  seen : α → ℕ
  /-- Plain accesses of every thread, counted in its program order. -/
  clock : τ → ℕ

variable {τ α β : Type}

instance : SemilatticeSup (View τ α) where
  le v w := v.seen≤w.seen ∧ v.clock≤w.clock
  le_refl v := ⟨le_refl _,le_refl _⟩
  le_trans v w x h k := ⟨h.1.trans k.1,h.2.trans k.2⟩
  le_antisymm v w h k := View.ext (le_antisymm h.1 k.1) (le_antisymm h.2 k.2)
  sup v w := ⟨v.seen ⊔ w.seen,v.clock ⊔ w.clock⟩
  le_sup_left v w := ⟨le_sup_left,le_sup_left⟩
  le_sup_right v w := ⟨le_sup_right,le_sup_right⟩
  sup_le v w x h k := ⟨sup_le h.1 k.1,sup_le h.2 k.2⟩

/-- Nothing but the initial stores is known. -/
def View.initial (τ α : Type) : View τ α := ⟨fun _ => 0,fun _ => 0⟩

/-- A larger view has seen more of every location. -/
theorem View.seen_le {v w : View τ α} (h : v≤w) (a : α) : v.seen a ≤ w.seen a := h.1 a

/-- A larger view knows more accesses of every thread. -/
theorem View.clock_le {v w : View τ α} (h : v≤w) (u : τ) : v.clock u ≤ w.clock u := h.2 u

/-- A store in the modification order of its location. -/
structure Message (τ α β : Type) where
  /-- The stored value. -/
  value : β
  /-- What a thread learns by acquiring the store. -/
  view : View τ α

/-- Stores by location and timestamp. -/
abbrev History (τ α β : Type) := α → ℕ → Option (Message τ α β)

/-- The initial stores, known to every thread. -/
def History.initial (τ : Type) (value : α → β) : History τ α β
  | a,0 => some ⟨value a,.initial τ α⟩
  | _,_+1 => none

/-- The views of one thread. -/
structure Local (τ α : Type) where
  /-- What happens before the next step of the thread. -/
  current : View τ α
  /-- What an acquire fence would add: views of stores read relaxed. -/
  acquired : View τ α
  /-- What was current at the last release fence. -/
  released : View τ α

/-- A thread that has done nothing. -/
def Local.initial (τ α : Type) : Local τ α := ⟨.initial τ α,.initial τ α,.initial τ α⟩

/-- Memory orders of a load. -/
inductive LoadOrder
  | relaxed
  | acquire
  deriving DecidableEq, Repr

/-- Memory orders of a store. -/
inductive StoreOrder
  | relaxed
  | release
  deriving DecidableEq, Repr

section Accesses

variable [DecidableEq α]

/-- One location is known up to a timestamp. -/
def View.see (v : View τ α) (a : α) (ts : ℕ) : View τ α :=
  {v with seen := update v.seen a (max (v.seen a) ts)}

/-- The views of a thread behind its load of a message. -/
def observe (order : LoadOrder) (l : Local τ α) (a : α) (ts : ℕ) (m : Message τ α β) :
    Local τ α :=
  match order with
  | .relaxed => {l with current := l.current.see a ts, acquired := l.acquired ⊔ m.view}
  | .acquire =>
    {l with current := l.current.see a ts ⊔ m.view, acquired := l.acquired ⊔ m.view}

/-- An atomic load of the message with the given timestamp. -/
def load (h : History τ α β) (l : Local τ α) (order : LoadOrder) (a : α) (ts : ℕ) :
    Option (β × Local τ α) :=
  if l.current.seen a ≤ ts then (h a ts).map fun m => (m.value,observe order l a ts m)
  else none

/-- The message of a store. -/
def stored (l : Local τ α) (order : StoreOrder) (a : α) (ts : ℕ) (value : β) : Message τ α β :=
  match order with
  | .relaxed => ⟨value,l.released.see a ts⟩
  | .release => ⟨value,l.current.see a ts⟩

/-- A message is added to a history. -/
def History.add (h : History τ α β) (a : α) (ts : ℕ) (m : Message τ α β) : History τ α β :=
  update h a (update (h a) ts (some m))

/-- An atomic store at a free timestamp behind everything the thread has
seen of the location. -/
def store (h : History τ α β) (l : Local τ α) (order : StoreOrder) (a : α) (ts : ℕ)
    (value : β) : Option (History τ α β × Local τ α) :=
  if l.current.seen a<ts ∧ (h a ts).isNone then
    some (h.add a ts (stored l order a ts value),{l with current := l.current.see a ts})
  else none

/-- What a compare-exchange reports. -/
inductive Exchange (β : Type)
  /-- The desired value was stored. -/
  | stored
  /-- Nothing was stored; the value that was found. -/
  | failed (found : β)
  deriving DecidableEq, Repr

/-- A weak compare-exchange, relaxed on success and on failure. A success
takes the timestamp directly behind the message it read and continues its
view. A failure is a load, also where it is spurious. -/
def compareExchange [DecidableEq β] (h : History τ α β) (l : Local τ α) (a : α) (ts : ℕ)
    (expected desired : β) (spurious : Bool) :
    Option (Exchange β × History τ α β × Local τ α) :=
  if l.current.seen a ≤ ts then
    (h a ts).bind fun m =>
      let behind := observe .relaxed l a ts m
      if m.value=expected ∧ spurious=false then
        if (h a (ts+1)).isNone then
          some (.stored,h.add a (ts+1) ⟨desired,m.view ⊔ l.released.see a (ts+1)⟩,
            {behind with current := behind.current.see a (ts+1)})
        else none
      else some (.failed m.value,h,behind)
  else none

/-- A release fence. -/
def Local.releaseFence (l : Local τ α) : Local τ α := {l with released := l.current}

/-- An acquire fence. -/
def Local.acquireFence (l : Local τ α) : Local τ α := {l with current := l.current ⊔ l.acquired}

/-- Timestamps behind a store or a load. -/
theorem View.see_seen (v : View τ α) (a : α) (ts : ℕ) :
    (v.see a ts).seen=update v.seen a (max (v.seen a) ts) := rfl

/-- Other locations are as before. -/
theorem View.see_of_ne (v : View τ α) {a b : α} (ts : ℕ) (h : b≠a) :
    (v.see a ts).seen b=v.seen b := by
  rw [View.see_seen,update_of_ne h]

/-- Knowing one more timestamp only adds. -/
theorem View.le_see (v : View τ α) (a : α) (ts : ℕ) : v ≤ v.see a ts := by
  refine ⟨?_,le_refl _⟩
  intro b
  by_cases hb : b=a
  · subst hb
    rw [View.see_seen,update_self]
    exact le_max_left _ _
  · rw [v.see_of_ne ts hb]

/-- The timestamp is known. -/
theorem View.see_self (v : View τ α) (a : α) (ts : ℕ) : ts ≤ (v.see a ts).seen a := by
  rw [View.see_seen,update_self]
  exact le_max_right _ _

/-- Behind the known ones, the timestamp is the largest known one. -/
theorem View.see_of_le {v : View τ α} {a : α} {ts : ℕ} (h : v.seen a ≤ ts) :
    (v.see a ts).seen a=ts := by
  rw [View.see_seen,update_self,max_eq_right h]

/-- A load only adds to the current view. -/
theorem le_observe (order : LoadOrder) (l : Local τ α) (a : α) (ts : ℕ) (m : Message τ α β) :
    l.current ≤ (observe order l a ts m).current := by
  cases order with
  | relaxed => exact l.current.le_see a ts
  | acquire => exact (l.current.le_see a ts).trans le_sup_left

/-- The timestamp of a loaded message is known. -/
theorem observe_seen (order : LoadOrder) (l : Local τ α) (a : α) (ts : ℕ) (m : Message τ α β) :
    ts ≤ (observe order l a ts m).current.seen a := by
  cases order with
  | relaxed => exact l.current.see_self a ts
  | acquire => exact (l.current.see_self a ts).trans (View.seen_le le_sup_left a)

/-- An acquired view is part of the current one. -/
theorem view_le_observe (l : Local τ α) (a : α) (ts : ℕ) (m : Message τ α β) :
    m.view ≤ (observe .acquire l a ts m).current := le_sup_right

/-- A load only adds to what an acquire fence would add. -/
theorem le_acquired (order : LoadOrder) (l : Local τ α) (a : α) (ts : ℕ) (m : Message τ α β) :
    l.acquired ≤ (observe order l a ts m).acquired := by
  cases order <;> exact le_sup_left

/-- An acquire fence behind the load adds the view of the message. -/
theorem view_le_acquired (order : LoadOrder) (l : Local τ α) (a : α) (ts : ℕ)
    (m : Message τ α β) : m.view ≤ (observe order l a ts m).acquired := by
  cases order <;> exact le_sup_right

/-- What a load returns. -/
theorem load_eq_some {h : History τ α β} {l l' : Local τ α} {order : LoadOrder} {a : α} {ts : ℕ}
    {value : β} (hl : load h l order a ts=some (value,l')) :
    ∃ m,h a ts=some m ∧ l.current.seen a ≤ ts ∧ value=m.value ∧ l'=observe order l a ts m := by
  unfold load at hl
  split at hl
  · rename_i hts
    obtain ⟨m,hm,he⟩ := Option.map_eq_some_iff.mp hl
    cases he
    exact ⟨m,hm,hts,rfl,rfl⟩
  · cases hl

/-- What a store does. -/
theorem store_eq_some {h h' : History τ α β} {l l' : Local τ α} {order : StoreOrder} {a : α}
    {ts : ℕ} {value : β} (hs : store h l order a ts value=some (h',l')) :
    l.current.seen a<ts ∧ h a ts=none ∧ h'=h.add a ts (stored l order a ts value) ∧
      l'={l with current := l.current.see a ts} := by
  unfold store at hs
  split at hs
  · rename_i hts
    cases hs
    exact ⟨hts.1,Option.isNone_iff_eq_none.mp hts.2,rfl,rfl⟩
  · cases hs

/-- What a compare-exchange does. -/
theorem compareExchange_eq_some [DecidableEq β] {h h' : History τ α β} {l l' : Local τ α} {a : α}
    {ts : ℕ} {expected desired : β} {spurious : Bool} {result : Exchange β}
    (hs : compareExchange h l a ts expected desired spurious=some (result,h',l')) :
    ∃ m,h a ts=some m ∧ l.current.seen a ≤ ts ∧
      ((m.value=expected ∧ spurious=false ∧ result=.stored ∧ h a (ts+1)=none ∧
          h'=h.add a (ts+1) ⟨desired,m.view ⊔ l.released.see a (ts+1)⟩ ∧
          l'={observe .relaxed l a ts m with
            current := (observe .relaxed l a ts m).current.see a (ts+1)}) ∨
        (¬(m.value=expected ∧ spurious=false) ∧ result=.failed m.value ∧ h'=h ∧
          l'=observe .relaxed l a ts m)) := by
  unfold compareExchange at hs
  split at hs
  · rename_i hts
    obtain ⟨m,hm,hs⟩ := Option.bind_eq_some_iff.mp hs
    refine ⟨m,hm,hts,?_⟩
    dsimp only at hs
    split at hs
    · rename_i hvalue
      split at hs
      · rename_i hfree
        cases hs
        exact .inl ⟨hvalue.1,hvalue.2,rfl,Option.isNone_iff_eq_none.mp hfree,rfl,rfl⟩
      · cases hs
    · rename_i hvalue
      cases hs
      exact .inr ⟨hvalue,rfl,rfl,rfl⟩
  · cases hs

/-- A failed compare-exchange stores nothing. -/
theorem compareExchange_failed [DecidableEq β] {h h' : History τ α β} {l l' : Local τ α} {a : α}
    {ts : ℕ} {expected desired found : β} {spurious : Bool}
    (hs : compareExchange h l a ts expected desired spurious=some (.failed found,h',l')) :
    h'=h ∧ l.current ≤ l'.current := by
  obtain ⟨m,-,-,⟨-,-,he,-⟩ | ⟨-,-,rfl,rfl⟩⟩ := compareExchange_eq_some hs
  · cases he
  · exact ⟨rfl,le_observe .relaxed l a ts m⟩

/-- A message that is read in an extended history. -/
theorem History.add_eq_some {h : History τ α β} {a b : α} {ts ts' : ℕ} {m m' : Message τ α β}
    (hm : h.add a ts m b ts'=some m') : (b=a ∧ ts'=ts ∧ m'=m) ∨ h b ts'=some m' := by
  by_cases hb : b=a
  · subst hb
    rw [History.add,update_self] at hm
    by_cases hts : ts'=ts
    · subst hts
      rw [update_self] at hm
      cases hm
      exact .inl ⟨rfl,rfl,rfl⟩
    · rw [update_of_ne hts] at hm
      exact .inr hm
  · rw [History.add,update_of_ne hb] at hm
    exact .inr hm

/-- The added message. -/
theorem History.add_self (h : History τ α β) (a : α) (ts : ℕ) (m : Message τ α β) :
    h.add a ts m a ts=some m := by
  rw [History.add,update_self,update_self]

/-- Other locations keep their messages. -/
theorem History.add_of_ne (h : History τ α β) {a b : α} (ts : ℕ) (m : Message τ α β)
    (hb : b≠a) : h.add a ts m b=h b := by
  rw [History.add,update_of_ne hb]

/-- Messages of other timestamps stay. -/
theorem History.add_of_some {h : History τ α β} {a b : α} {ts ts' : ℕ} {m m' : Message τ α β}
    (hfree : h a ts=none) (hm : h b ts'=some m') : h.add a ts m b ts'=some m' := by
  by_cases hb : b=a
  · subst hb
    have hts : ts'≠ts := by
      rintro rfl
      rw [hfree] at hm
      cases hm
    rw [History.add,update_self,update_of_ne hts]
    exact hm
  · rw [History.add_of_ne _ _ _ hb]
    exact hm

end Accesses

/-- The message is the last one in the modification order of its location. -/
structure Latest (h : History τ α β) (a : α) (ts : ℕ) (m : Message τ α β) : Prop where
  /-- The message. -/
  message : h a ts=some m
  /-- There is none behind it. -/
  last : ∀ ts' m',h a ts'=some m' → ts'≤ts

/-- The initial store is the last one. -/
theorem Latest.initial (τ : Type) (value : α → β) (a : α) :
    Latest (History.initial τ value) a 0 ⟨value a,.initial τ α⟩ where
  message := rfl
  last := by
    intro ts' m' hm
    cases ts' with
    | zero => exact le_refl 0
    | succ n => cases hm

/-- The timestamp behind the last message is free. -/
theorem Latest.free_behind {h : History τ α β} {a : α} {ts : ℕ} {m : Message τ α β}
    (hm : Latest h a ts m) : h a (ts+1)=none := by
  rw [Option.eq_none_iff_forall_ne_some]
  intro m' hm'
  have := hm.last _ _ hm'
  omega

section Latest

variable [DecidableEq α]

/-- A thread that has seen the last message of a location reads it. -/
theorem Latest.load {h : History τ α β} {a : α} {m : Message τ α β} {l l' : Local τ α}
    {order : LoadOrder} {ts : ℕ} {value : β} (hm : Latest h a (l.current.seen a) m)
    (hl : load h l order a ts=some (value,l')) : value=m.value ∧ l'=observe order l a ts m := by
  obtain ⟨m',hm',hts,rfl,rfl⟩ := load_eq_some hl
  have he : ts=l.current.seen a := le_antisymm (hm.last ts m' hm') hts
  rw [he,hm.message] at hm'
  cases hm'
  exact ⟨rfl,rfl⟩

/-- A store behind the last message becomes the last one. -/
theorem Latest.add {h : History τ α β} {a : α} {ts ts' : ℕ} {m : Message τ α β}
    (hm : Latest h a ts m) (hlt : ts<ts') (m' : Message τ α β) :
    Latest (h.add a ts' m') a ts' m' where
  message := h.add_self a ts' m'
  last := by
    intro ts'' m'' hm''
    rcases History.add_eq_some hm'' with ⟨-,rfl,-⟩ | hold
    · exact le_refl _
    · exact (hm.last ts'' m'' hold).trans hlt.le

/-- Stores to other locations do not matter. -/
theorem Latest.add_of_ne {h : History τ α β} {a b : α} {ts ts' : ℕ} {m : Message τ α β}
    (hm : Latest h b ts m) (hb : b≠a) (m' : Message τ α β) : Latest (h.add a ts' m') b ts m where
  message := by rw [h.add_of_ne ts' m' hb]; exact hm.message
  last := by rw [h.add_of_ne ts' m' hb]; exact hm.last

end Latest

/-- Everything a thread can still read at a location satisfies a predicate. -/
def Readable (h : History τ α β) (l : Local τ α) (a : α) (P : β → Prop) : Prop :=
  ∀ ts m,l.current.seen a ≤ ts → h a ts=some m → P m.value

/-- A thread that has seen more reads less. -/
theorem Readable.mono {h : History τ α β} {l l' : Local τ α} {a : α} {P : β → Prop}
    (hr : Readable h l a P) (hle : l.current ≤ l'.current) : Readable h l' a P := by
  intro ts m hts hm
  exact hr ts m ((View.seen_le hle a).trans hts) hm

/-- A weaker predicate. -/
theorem Readable.weaken {h : History τ α β} {l : Local τ α} {a : α} {P Q : β → Prop}
    (hr : Readable h l a P) (hw : ∀ value,P value → Q value) : Readable h l a Q := by
  intro ts m hts hm
  exact hw _ (hr ts m hts hm)

/-- A stored value has to satisfy the predicate as well. -/
theorem Readable.add [DecidableEq α] {h : History τ α β} {l : Local τ α} {a b : α} {ts : ℕ}
    {m : Message τ α β} {P : β → Prop} (hr : Readable h l b P) (hm : b=a → P m.value) :
    Readable (h.add a ts m) l b P := by
  intro ts' m' hts' hm'
  rcases History.add_eq_some hm' with ⟨hb,rfl,rfl⟩ | hold
  · exact hm hb
  · exact hr ts' m' hts' hold

/-- The timestamps of a view are those of messages. -/
def View.Within (h : History τ α β) (v : View τ α) : Prop := ∀ a,∃ m,h a (v.seen a)=some m

/-- The initial view points to the initial stores. -/
theorem View.within_initial (value : α → β) :
    (View.initial τ α).Within (History.initial τ value) := fun _ => ⟨_,rfl⟩

/-- No view is ahead of the last message. -/
theorem Latest.seen_le {h : History τ α β} {a : α} {ts : ℕ} {m : Message τ α β}
    (hm : Latest h a ts m) {v : View τ α} (hv : v.Within h) : v.seen a ≤ ts := by
  obtain ⟨m',hm'⟩ := hv a
  exact hm.last _ _ hm'

/-- Two views together. -/
theorem View.Within.sup {h : History τ α β} {v w : View τ α} (hv : v.Within h)
    (hw : w.Within h) : (v ⊔ w).Within h := by
  intro a
  have hmax : (v ⊔ w).seen a=max (v.seen a) (w.seen a) := rfl
  rw [hmax]
  rcases max_choice (v.seen a) (w.seen a) with he | he
  · rw [he]
    exact hv a
  · rw [he]
    exact hw a

/-- Only timestamps matter. -/
theorem View.Within.of_seen_eq {h : History τ α β} {v w : View τ α} (hv : v.Within h)
    (he : w.seen=v.seen) : w.Within h := by
  intro a
  rw [he]
  exact hv a

section Sane

variable [DecidableEq α]

/-- A message is seen. -/
theorem View.Within.see {h : History τ α β} {v : View τ α} {a : α} {ts : ℕ}
    {m : Message τ α β} (hv : v.Within h) (hm : h a ts=some m) : (v.see a ts).Within h := by
  intro b
  by_cases hb : b=a
  · subst hb
    rw [View.see_seen,update_self]
    rcases max_choice (v.seen b) ts with he | he
    · rw [he]
      exact hv b
    · rw [he]
      exact ⟨m,hm⟩
  · rw [v.see_of_ne ts hb]
    exact hv b

/-- Messages are only added. -/
theorem View.Within.add {h : History τ α β} {v : View τ α} {a : α} {ts : ℕ} (hv : v.Within h)
    (hfree : h a ts=none) (m : Message τ α β) : v.Within (h.add a ts m) := by
  intro b
  obtain ⟨m',hm'⟩ := hv b
  exact ⟨m',History.add_of_some hfree hm'⟩

/-- All views of a thread point to messages. -/
structure Local.Within (h : History τ α β) (l : Local τ α) : Prop where
  /-- The current view. -/
  current : l.current.Within h
  /-- The view of the next acquire fence. -/
  acquired : l.acquired.Within h
  /-- The view of the last release fence. -/
  released : l.released.Within h

/-- All views, of threads and of messages, point to messages. -/
structure Sane (h : History τ α β) (views : τ → Local τ α) : Prop where
  /-- Views of the threads. -/
  threads : ∀ t,(views t).Within h
  /-- Views of the messages. -/
  messages : ∀ a ts m,h a ts=some m → m.view.Within h

omit [DecidableEq α] in
/-- Nothing has been done. -/
theorem Sane.initial (value : α → β) :
    Sane (History.initial τ value) fun _ => Local.initial τ α where
  threads _ := ⟨View.within_initial value,View.within_initial value,View.within_initial value⟩
  messages := by
    intro a ts m hm
    cases ts with
    | zero =>
      cases hm
      exact View.within_initial value
    | succ n => cases hm

/-- The views behind a load point to messages. -/
theorem Local.Within.observe {h : History τ α β} {l : Local τ α} {a : α} {ts : ℕ}
    {m : Message τ α β} (hl : l.Within h) (hm : h a ts=some m) (hv : m.view.Within h)
    (order : LoadOrder) : (observe order l a ts m).Within h := by
  cases order with
  | relaxed => exact ⟨hl.current.see hm,hl.acquired.sup hv,hl.released⟩
  | acquire => exact ⟨(hl.current.see hm).sup hv,hl.acquired.sup hv,hl.released⟩

/-- Messages are only added. -/
theorem Local.Within.add {h : History τ α β} {l : Local τ α} {a : α} {ts : ℕ}
    (hl : l.Within h) (hfree : h a ts=none) (m : Message τ α β) : l.Within (h.add a ts m) :=
  ⟨hl.current.add hfree m,hl.acquired.add hfree m,hl.released.add hfree m⟩

omit [DecidableEq α] in
/-- The views behind a release fence. -/
theorem Local.Within.releaseFence {h : History τ α β} {l : Local τ α} (hl : l.Within h) :
    l.releaseFence.Within h := ⟨hl.current,hl.acquired,hl.current⟩

omit [DecidableEq α] in
/-- The views behind an acquire fence. -/
theorem Local.Within.acquireFence {h : History τ α β} {l : Local τ α} (hl : l.Within h) :
    l.acquireFence.Within h := ⟨hl.current.sup hl.acquired,hl.acquired,hl.released⟩

variable [DecidableEq τ]

omit [DecidableEq α] in
/-- One thread changes its views. -/
theorem Sane.setView {h : History τ α β} {views : τ → Local τ α} (hs : Sane h views) {t : τ}
    {l : Local τ α} (hl : l.Within h) : Sane h (update views t l) where
  threads := by
    intro u
    by_cases hu : u=t
    · subst hu
      rw [update_self]
      exact hl
    · rw [update_of_ne hu]
      exact hs.threads u
  messages := hs.messages

omit [DecidableEq τ] in
/-- A thread can load what it has seen. -/
theorem Local.Within.loadable {h : History τ α β} {l : Local τ α} (hl : l.Within h)
    (order : LoadOrder) (a : α) : ∃ loaded,ReleaseAcquire.load h l order a (l.current.seen a)=
      some loaded := by
  obtain ⟨m,hm⟩ := hl.current a
  exact ⟨_,by rw [ReleaseAcquire.load,if_pos (le_refl _),hm,Option.map_some]⟩

/-- A load keeps the memory sane. -/
theorem Sane.load {h : History τ α β} {views : τ → Local τ α} (hs : Sane h views) {t : τ}
    {order : LoadOrder} {a : α} {ts : ℕ} {value : β} {l : Local τ α}
    (hl : load h (views t) order a ts=some (value,l)) : Sane h (update views t l) := by
  obtain ⟨m,hm,-,-,rfl⟩ := load_eq_some hl
  exact hs.setView ((hs.threads t).observe hm (hs.messages a ts m hm) order)

omit [DecidableEq τ] in
/-- The last message can be loaded by every thread. -/
theorem Latest.loadable {h : History τ α β} {views : τ → Local τ α} {a : α} {ts : ℕ}
    {m : Message τ α β} (hm : Latest h a ts m) (hs : Sane h views) (t : τ) (order : LoadOrder) :
    ReleaseAcquire.load h (views t) order a ts=
      some (m.value,observe order (views t) a ts m) := by
  rw [ReleaseAcquire.load,if_pos (hm.seen_le (hs.threads t).current),hm.message,Option.map_some]

omit [DecidableEq τ] in
/-- Every thread can store directly behind the last message. -/
theorem Latest.storable {h : History τ α β} {views : τ → Local τ α} {a : α} {ts : ℕ}
    {m : Message τ α β} (hm : Latest h a ts m) (hs : Sane h views) (t : τ) (order : StoreOrder)
    (value : β) : store h (views t) order a (ts+1) value=
      some (h.add a (ts+1) (stored (views t) order a (ts+1) value),
        {views t with current := (views t).current.see a (ts+1)}) := by
  have hseen := hm.seen_le (hs.threads t).current
  rw [ReleaseAcquire.store,if_pos ⟨Nat.lt_succ_of_le hseen,by rw [hm.free_behind]; rfl⟩]

/-- An added message whose view points to messages keeps the memory sane. -/
theorem Sane.add {h : History τ α β} {views : τ → Local τ α} (hs : Sane h views) {t : τ}
    {a : α} {ts : ℕ} {m : Message τ α β} {l : Local τ α} (hfree : h a ts=none)
    (hm : m.view.Within (h.add a ts m)) (hl : l.Within (h.add a ts m)) :
    Sane (h.add a ts m) (update views t l) := by
  refine Sane.setView ⟨fun u => (hs.threads u).add hfree m,?_⟩ hl
  intro b ts' m' hm'
  rcases History.add_eq_some hm' with ⟨rfl,rfl,rfl⟩ | hold
  · exact hm
  · exact (hs.messages b ts' m' hold).add hfree m

/-- A store keeps the memory sane. -/
theorem Sane.store {h h' : History τ α β} {views : τ → Local τ α} (hs : Sane h views) {t : τ}
    {order : StoreOrder} {a : α} {ts : ℕ} {value : β} {l : Local τ α}
    (hw : store h (views t) order a ts value=some (h',l)) : Sane h' (update views t l) := by
  obtain ⟨-,hfree,rfl,rfl⟩ := store_eq_some hw
  have hold := (hs.threads t).add hfree (stored (views t) order a ts value)
  have hnew := h.add_self a ts (stored (views t) order a ts value)
  refine hs.add hfree ?_ ⟨hold.current.see hnew,hold.acquired,hold.released⟩
  cases order with
  | relaxed => exact hold.released.see hnew
  | release => exact hold.current.see hnew

/-- A compare-exchange keeps the memory sane. -/
theorem Sane.compareExchange [DecidableEq β] {h h' : History τ α β} {views : τ → Local τ α}
    (hs : Sane h views) {t : τ} {a : α} {ts : ℕ} {expected desired : β} {spurious : Bool}
    {result : Exchange β} {l : Local τ α}
    (hx : compareExchange h (views t) a ts expected desired spurious=some (result,h',l)) :
    Sane h' (update views t l) := by
  obtain ⟨m,hm,-,⟨-,-,-,hfree,rfl,rfl⟩ | ⟨-,-,rfl,rfl⟩⟩ := compareExchange_eq_some hx
  · have hview := (hs.messages a ts m hm).add hfree
      ⟨desired,m.view ⊔ (views t).released.see a (ts+1)⟩
    have hbehind := ((hs.threads t).observe hm (hs.messages a ts m hm) .relaxed).add hfree
      ⟨desired,m.view ⊔ (views t).released.see a (ts+1)⟩
    have hnew := h.add_self a (ts+1) ⟨desired,m.view ⊔ (views t).released.see a (ts+1)⟩
    exact hs.add hfree (hview.sup (hbehind.released.see hnew))
      ⟨hbehind.current.see hnew,hbehind.acquired,hbehind.released⟩
  · exact hs.setView ((hs.threads t).observe hm (hs.messages a ts m hm) .relaxed)

end Sane

/-- The thread has acquired a store of the value. -/
def Acquired (h : History τ α β) (l : Local τ α) (a : α) (value : β) : Prop :=
  ∃ ts m,h a ts=some m ∧ m.value=value ∧ ts ≤ l.current.seen a ∧ m.view ≤ l.current

/-- What was acquired stays acquired. -/
theorem Acquired.mono {h : History τ α β} {l l' : Local τ α} {a : α} {value : β}
    (ha : Acquired h l a value) (hle : l.current ≤ l'.current) : Acquired h l' a value := by
  obtain ⟨ts,m,hm,hvalue,hts,hview⟩ := ha
  exact ⟨ts,m,hm,hvalue,hts.trans (View.seen_le hle a),hview.trans hle⟩

/-- Messages are only added. -/
theorem Acquired.add [DecidableEq α] {h : History τ α β} {l : Local τ α} {a b : α} {value : β}
    {ts : ℕ} (ha : Acquired h l a value) (hfree : h b ts=none) (m : Message τ α β) :
    Acquired (h.add b ts m) l a value := by
  obtain ⟨ts',m',hm,hrest⟩ := ha
  exact ⟨ts',m',History.add_of_some hfree hm,hrest⟩

/-- An acquire load. -/
theorem acquired_of_load [DecidableEq α] {h : History τ α β} {l l' : Local τ α} {a : α} {ts : ℕ}
    {value : β} (hl : load h l .acquire a ts=some (value,l')) : Acquired h l' a value := by
  obtain ⟨m,hm,-,rfl,rfl⟩ := load_eq_some hl
  exact ⟨ts,m,hm,rfl,observe_seen .acquire l a ts m,view_le_observe l a ts m⟩

/-- A counter stored by one thread only: its stores ascend, and the views of
the thread include the last one. -/
structure Owned (h : History τ α ℕ) (l : Local τ α) (a : α) (n : ℕ) : Prop where
  /-- The last store. -/
  last : ∃ m,Latest h a (l.current.seen a) m ∧ m.value=n
  /-- The stores ascend. -/
  sorted : ∀ ts ts' m m',ts≤ts' → h a ts=some m → h a ts'=some m' → m.value ≤ m'.value

section Owned

variable {h : History τ α ℕ} {l : Local τ α} {a : α} {n : ℕ}

/-- The initial store. -/
theorem Owned.initial (τ : Type) (value : α → ℕ) (a : α) :
    Owned (History.initial τ value) (.initial τ α) a (value a) where
  last := ⟨_,Latest.initial τ value a,rfl⟩
  sorted := by
    intro ts ts' m m' _ hm hm'
    cases ts with
    | zero =>
      cases ts' with
      | zero =>
        cases hm
        cases hm'
        exact le_refl _
      | succ k => cases hm'
    | succ k => cases hm

/-- No stored value is larger than the last one. -/
theorem Owned.value_le (ho : Owned h l a n) {ts : ℕ} {m : Message τ α ℕ} (hm : h a ts=some m) :
    m.value≤n := by
  obtain ⟨last,hl,rfl⟩ := ho.last
  exact ho.sorted _ _ m last (hl.last ts m hm) hm hl.message

/-- The owner acquires more. -/
theorem Owned.view {l' : Local τ α} (ho : Owned h l a n) (hle : l.current ≤ l'.current)
    (hw : l'.current.Within h) : Owned h l' a n := by
  obtain ⟨m,hm,hn⟩ := ho.last
  have he : l'.current.seen a=l.current.seen a :=
    le_antisymm (hm.seen_le hw) (View.seen_le hle a)
  exact ⟨⟨m,by rw [he]; exact hm,hn⟩,ho.sorted⟩

/-- Whoever has read a value reads none below it any more. -/
theorem Owned.readable {l' : Local τ α} (ho : Owned h l a n) {ts : ℕ} {m : Message τ α ℕ}
    (hm : h a ts=some m) (hseen : ts ≤ l'.current.seen a) :
    Readable h l' a fun value => m.value≤value := by
  intro ts' m' hts' hm'
  exact ho.sorted ts ts' m m' (hseen.trans hts') hm hm'

variable [DecidableEq α]

/-- The owner loads the last value. -/
theorem Owned.load_own (ho : Owned h l a n) {order : LoadOrder} {ts value : ℕ} {l' : Local τ α}
    (hl : load h l order a ts=some (value,l')) : value=n := by
  obtain ⟨m,hm,hn⟩ := ho.last
  rw [(hm.load hl).1,hn]

/-- The owner stores a value that is not smaller. -/
theorem Owned.store (ho : Owned h l a n) {order : StoreOrder} {ts n' : ℕ}
    {h' : History τ α ℕ} {l' : Local τ α} (hs : store h l order a ts n'=some (h',l'))
    (hn : n≤n') : Owned h' l' a n' := by
  obtain ⟨hlt,hfree,rfl,rfl⟩ := store_eq_some hs
  obtain ⟨last,hl,hlast⟩ := ho.last
  have hvalue : (stored l order a ts n').value=n' := by cases order <;> rfl
  refine ⟨⟨stored l order a ts n',?_,hvalue⟩,?_⟩
  · rw [View.see_of_le hlt.le]
    exact hl.add hlt _
  · intro t t' m m' hle hm hm'
    rcases History.add_eq_some hm with ⟨-,rfl,rfl⟩ | hold
    · rcases History.add_eq_some hm' with ⟨-,-,rfl⟩ | hold'
      · exact le_refl _
      · have := hl.last _ _ hold'
        omega
    · rcases History.add_eq_some hm' with ⟨-,-,rfl⟩ | hold'
      · rw [hvalue]
        exact (ho.value_le hold).trans hn
      · exact ho.sorted t t' m m' hle hold hold'

/-- Stores to other locations do not matter. -/
theorem Owned.add_of_ne (ho : Owned h l a n) {b : α} (hb : a≠b) (ts : ℕ) (m : Message τ α ℕ) :
    Owned (h.add b ts m) l a n := by
  obtain ⟨last,hl,hn⟩ := ho.last
  refine ⟨⟨last,hl.add_of_ne hb m,hn⟩,?_⟩
  rw [h.add_of_ne ts m hb]
  exact ho.sorted

end Owned

/-- A counter that is only ever incremented: its values are its timestamps. -/
structure Counted (h : History τ α ℕ) (a : α) (n : ℕ) : Prop where
  /-- Every value up to the last one was stored at its own timestamp. -/
  value_eq : ∀ ts m,h a ts=some m → m.value=ts ∧ ts≤n
  /-- No value was skipped. -/
  reached : ∀ ts≤n,∃ m,h a ts=some m

/-- A counter that starts at zero. -/
theorem Counted.initial (τ : Type) (value : α → ℕ) {a : α} (ha : value a=0) :
    Counted (History.initial τ value) a 0 where
  value_eq := by
    intro ts m hm
    cases ts with
    | zero =>
      cases hm
      exact ⟨ha,le_refl _⟩
    | succ k => cases hm
  reached := by
    intro ts hts
    rw [Nat.le_zero.mp hts]
    exact ⟨_,rfl⟩

section Counted

variable {h : History τ α ℕ} {a : α} {n : ℕ}

/-- The last value. -/
theorem Counted.latest (hc : Counted h a n) : ∃ m,Latest h a n m ∧ m.value=n := by
  obtain ⟨m,hm⟩ := hc.reached n (le_refl n)
  exact ⟨m,⟨hm,fun ts m' hm' => (hc.value_eq ts m' hm').2⟩,(hc.value_eq n m hm).1⟩

/-- Only the last value has a free timestamp behind it. -/
theorem Counted.last_of_free (hc : Counted h a n) {ts : ℕ} {m : Message τ α ℕ}
    (hm : h a ts=some m) (hfree : h a (ts+1)=none) : ts=n := by
  have hle := (hc.value_eq ts m hm).2
  by_contra hne
  obtain ⟨m',hm'⟩ := hc.reached (ts+1) (by omega)
  rw [hfree] at hm'
  cases hm'

variable [DecidableEq α]

/-- The counter is incremented. -/
theorem Counted.add (hc : Counted h a n) (view : View τ α) :
    Counted (h.add a (n+1) ⟨n+1,view⟩) a (n+1) where
  value_eq := by
    intro ts m hm
    rcases History.add_eq_some hm with ⟨-,rfl,rfl⟩ | hold
    · exact ⟨rfl,le_refl _⟩
    · obtain ⟨hvalue,hle⟩ := hc.value_eq ts m hold
      exact ⟨hvalue,Nat.le_succ_of_le hle⟩
  reached := by
    intro ts hts
    obtain ⟨last,hl,-⟩ := hc.latest
    rcases Nat.le_succ_iff.mp hts with hle | rfl
    · obtain ⟨m,hm⟩ := hc.reached ts hle
      exact ⟨m,History.add_of_some hl.free_behind hm⟩
    · exact ⟨_,h.add_self a (n+1) _⟩

/-- Only the last value is exchanged. -/
theorem Counted.compareExchange (hc : Counted h a n) {l l' : Local τ α} {h' : History τ α ℕ}
    {ts expected : ℕ} {spurious : Bool}
    (hs : compareExchange h l a ts expected (expected+1) spurious=some (.stored,h',l')) :
    expected=n ∧ Counted h' a (n+1) ∧ l.current ≤ l'.current ∧
      ∃ m,h a (n+1)=none ∧ h'=h.add a (n+1) m := by
  obtain ⟨m,hm,-,⟨hvalue,-,-,hfree,rfl,rfl⟩ | ⟨-,he,-⟩⟩ := compareExchange_eq_some hs
  · have hts := hc.last_of_free hm hfree
    subst hts
    have he : expected=ts := by rw [← hvalue,(hc.value_eq ts m hm).1]
    subst he
    have hle := (le_observe .relaxed l a expected m).trans
      ((observe .relaxed l a expected m).current.le_see a (expected+1))
    exact ⟨rfl,hc.add _,hle,_,hfree,rfl⟩
  · cases he

/-- The last value can be exchanged by every thread, or found not to be the
expected one. -/
theorem Counted.exchangeable (hc : Counted h a n) {views : τ → Local τ α} (hs : Sane h views)
    (u : τ) (expected desired : ℕ) :
    ∃ done,ReleaseAcquire.compareExchange h (views u) a n expected desired false=some done := by
  obtain ⟨m,hl,-⟩ := hc.latest
  unfold ReleaseAcquire.compareExchange
  rw [if_pos (hl.seen_le (hs.threads u).current),hl.message,Option.bind_some]
  by_cases hv : m.value=expected
  · exact ⟨_,by rw [if_pos ⟨hv,rfl⟩,hl.free_behind,Option.isNone_none,if_pos rfl]⟩
  · exact ⟨_,by rw [if_neg fun h => hv h.1]⟩

/-- Stores to other locations do not matter. -/
theorem Counted.add_of_ne (hc : Counted h a n) {b : α} (hb : a≠b) (ts : ℕ)
    (m : Message τ α ℕ) : Counted (h.add b ts m) a n := by
  constructor
  · rw [h.add_of_ne ts m hb]
    exact hc.value_eq
  · rw [h.add_of_ne ts m hb]
    exact hc.reached

end Counted

/-- The accesses of a plain location: the clock of the last read and of the
last write of every thread. -/
structure Footprint (τ : Type) where
  /-- Clocks of the last reads. -/
  reads : τ → ℕ
  /-- Clocks of the last writes. -/
  writes : τ → ℕ

/-- A location nobody has accessed since its initialisation. -/
def Footprint.initial (τ : Type) : Footprint τ := ⟨fun _ => 0,fun _ => 0⟩

/-- The two kinds of plain access. -/
inductive Access
  | read
  | write
  deriving DecidableEq, Repr

/-- A plain access races with an earlier access of the location that does not
happen before it, if one of the two is a write. -/
def Races (v : View τ α) (f : Footprint τ) : Access → Prop
  | .read => ∃ u,v.clock u<f.writes u
  | .write => ∃ u,v.clock u<f.writes u ∨ v.clock u<f.reads u

/-- The accesses of one thread to a location are part of a view. -/
def Footprint.KnownOf (f : Footprint τ) (u : τ) (v : View τ α) : Prop :=
  f.reads u ≤ v.clock u ∧ f.writes u ≤ v.clock u

/-- What is known stays known. -/
theorem Footprint.KnownOf.mono {f : Footprint τ} {u : τ} {v w : View τ α} (h : f.KnownOf u v)
    (hle : v≤w) : f.KnownOf u w :=
  ⟨h.1.trans (View.clock_le hle u),h.2.trans (View.clock_le hle u)⟩

/-- Whoever knows all accesses of a location does not race. -/
theorem Footprint.not_races {f : Footprint τ} {v : View τ α} (h : ∀ u,f.KnownOf u v)
    (access : Access) : ¬Races v f access := by
  cases access with
  | read =>
    rintro ⟨u,hu⟩
    exact absurd hu (Nat.not_lt.mpr (h u).2)
  | write =>
    rintro ⟨u,hu | hu⟩
    · exact absurd hu (Nat.not_lt.mpr (h u).2)
    · exact absurd hu (Nat.not_lt.mpr (h u).1)

section Plain

variable [DecidableEq τ]

/-- The thread counts one more plain access. -/
def Local.tick (l : Local τ α) (t : τ) : Local τ α :=
  {l with current := {l.current with
    clock := update l.current.clock t (l.current.clock t+1)}}

/-- The access is recorded with a clock. -/
def Footprint.record (f : Footprint τ) (t : τ) (clock : ℕ) : Access → Footprint τ
  | .read => {f with reads := update f.reads t clock}
  | .write => {f with writes := update f.writes t clock}

/-- Counting only adds. -/
theorem Local.le_tick (l : Local τ α) (t : τ) : l.current ≤ (l.tick t).current := by
  refine ⟨le_refl _,?_⟩
  intro u
  by_cases hu : u=t
  · subst hu
    simp only [Local.tick,update_self]
    exact Nat.le_succ _
  · simp only [Local.tick,update_of_ne hu]
    exact le_refl _

/-- A thread knows its own accesses. -/
theorem Footprint.KnownOf.record_self {f : Footprint τ} {t : τ} {l : Local τ α}
    (h : f.KnownOf t l.current) (access : Access) :
    (f.record t ((l.tick t).current.clock t) access).KnownOf t (l.tick t).current := by
  have hold := h.mono (l.le_tick t)
  cases access with
  | read => exact ⟨by simp only [Footprint.record,update_self]; exact le_refl _,hold.2⟩
  | write => exact ⟨hold.1,by simp only [Footprint.record,update_self]; exact le_refl _⟩

/-- The accesses of the other threads are as before. -/
theorem Footprint.KnownOf.record_of_ne {f : Footprint τ} {t u : τ} {v : View τ α}
    (h : f.KnownOf u v) (hu : u≠t) (clock : ℕ) (access : Access) :
    (f.record t clock access).KnownOf u v := by
  cases access with
  | read => exact ⟨by simp only [Footprint.record,update_of_ne hu]; exact h.1,h.2⟩
  | write => exact ⟨h.1,by simp only [Footprint.record,update_of_ne hu]; exact h.2⟩

end Plain

end Line64.ReleaseAcquire
