import Mathlib.Data.Finset.Card
import Line64.ReleaseAcquire

/-!
# Counters changed by read-modify-write

An atomic counter that is only changed by read-modify-write operations takes
every value of a sequence, one timestamp after the other. Workers count in one
such counter and sign off in another one. Signing off releases what a worker
has done and continues the release of those who signed off before, so a thread
that acquires the last signature knows the final count. No program is
mentioned here.
-/

namespace Line64.AtomicCounters

open Function ReleaseAcquire

variable {τ α β : Type}

/-- Memory orders of a read-modify-write. -/
inductive UpdateOrder
  | relaxed
  | acqRel
  deriving DecidableEq, Repr

/-- The order in which the old value is loaded. -/
def UpdateOrder.loadOrder : UpdateOrder → LoadOrder
  | .relaxed => .relaxed
  | .acqRel => .acquire

section Update

variable [DecidableEq α]

/-- The views of a thread behind its read-modify-write. -/
def updated (l : Local τ α) (order : UpdateOrder) (a : α) (ts : ℕ) (m : Message τ α β) :
    Local τ α :=
  let behind := observe order.loadOrder l a ts m
  {behind with current := behind.current.see a (ts+1)}

/-- What the stored message adds to the view of the one that was read. -/
def carried (l : Local τ α) (order : UpdateOrder) (a : α) (ts : ℕ) (m : Message τ α β) :
    View τ α :=
  match order with
  | .relaxed => l.released.see a (ts+1)
  | .acqRel => (updated l order a ts m).current

/-- An atomic read-modify-write: the old value, and the memory behind it. The
new message takes the timestamp directly behind the one that was read. -/
def fetchUpdate (h : History τ α β) (l : Local τ α) (order : UpdateOrder) (a : α) (ts : ℕ)
    (f : β → β) : Option (β × History τ α β × Local τ α) :=
  if l.current.seen a ≤ ts then
    (h a ts).bind fun m =>
      if (h a (ts+1)).isNone then
        some (m.value,h.add a (ts+1) ⟨f m.value,m.view ⊔ carried l order a ts m⟩,
          updated l order a ts m)
      else none
  else none

variable {h h' : History τ α β} {l l' : Local τ α} {order : UpdateOrder} {a : α} {ts : ℕ}
  {f : β → β} {value : β}

/-- What a read-modify-write does. -/
theorem fetchUpdate_eq_some (hx : fetchUpdate h l order a ts f=some (value,h',l')) :
    ∃ m,h a ts=some m ∧ h a (ts+1)=none ∧ value=m.value ∧
      h'=h.add a (ts+1) ⟨f m.value,m.view ⊔ carried l order a ts m⟩ ∧
      l'=updated l order a ts m := by
  unfold fetchUpdate at hx
  split at hx
  · obtain ⟨m,hm,hx⟩ := Option.bind_eq_some_iff.mp hx
    split at hx
    · rename_i hfree
      cases hx
      exact ⟨m,hm,Option.isNone_iff_eq_none.mp hfree,rfl,rfl,rfl⟩
    · cases hx
  · cases hx

/-- A read-modify-write only adds to the views. -/
theorem le_updated (l : Local τ α) (order : UpdateOrder) (a : α) (ts : ℕ) (m : Message τ α β) :
    l.current ≤ (updated l order a ts m).current :=
  (le_observe order.loadOrder l a ts m).trans (View.le_see _ a (ts+1))

/-- A thread has seen its own read-modify-write. -/
theorem updated_seen (l : Local τ α) (order : UpdateOrder) (a : α) (ts : ℕ)
    (m : Message τ α β) : ts+1 ≤ (updated l order a ts m).current.seen a :=
  View.see_self _ a (ts+1)

variable [DecidableEq τ]

/-- A read-modify-write keeps the memory sane. -/
theorem sane_fetchUpdate {views : τ → Local τ α} (hs : Sane h views) {t : τ}
    (hx : fetchUpdate h (views t) order a ts f=some (value,h',l')) :
    Sane h' (update views t l') := by
  obtain ⟨m,hm,hfree,-,rfl,rfl⟩ := fetchUpdate_eq_some hx
  have hview := (hs.messages a ts m hm).add hfree ⟨f m.value,m.view ⊔ carried (views t) order a ts m⟩
  have hbehind := ((hs.threads t).observe hm (hs.messages a ts m hm) order.loadOrder).add hfree
    ⟨f m.value,m.view ⊔ carried (views t) order a ts m⟩
  have hnew := h.add_self a (ts+1) ⟨f m.value,m.view ⊔ carried (views t) order a ts m⟩
  have hlocal : (updated (views t) order a ts m).Within _ :=
    ⟨hbehind.current.see hnew,hbehind.acquired,hbehind.released⟩
  refine hs.add hfree (hview.sup ?_) hlocal
  cases order with
  | relaxed => exact hbehind.released.see hnew
  | acqRel => exact hlocal.current

end Update

/-- A location whose messages are the first values of a sequence. -/
structure Chained (h : History τ α β) (a : α) (value : ℕ → β) (n : ℕ) : Prop where
  /-- Every message has the value of its timestamp. -/
  value_eq : ∀ ts m,h a ts=some m → m.value=value ts ∧ ts≤n
  /-- No timestamp was skipped. -/
  reached : ∀ ts≤n,∃ m,h a ts=some m

section Chained

variable {h h' : History τ α β} {a : α} {value : ℕ → β} {n : ℕ}

/-- The initial message. -/
theorem Chained.initial (τ : Type) (initial : α → β) {a : α} {value : ℕ → β}
    (ha : initial a=value 0) : Chained (History.initial τ initial) a value 0 where
  value_eq := by
    intro ts m hm
    cases ts with
    | zero =>
      cases hm
      exact ⟨ha,le_refl _⟩
    | succ k => cases hm
  reached := by
    intro ts hts
    rw [Nat.le_zero.mp hts]
    exact ⟨_,rfl⟩

/-- The last message. -/
theorem Chained.latest (hc : Chained h a value n) : ∃ m,Latest h a n m ∧ m.value=value n := by
  obtain ⟨m,hm⟩ := hc.reached n (le_refl n)
  exact ⟨m,⟨hm,fun ts m' hm' => (hc.value_eq ts m' hm').2⟩,(hc.value_eq n m hm).1⟩

/-- Only the last message has a free timestamp behind it. -/
theorem Chained.last_of_free (hc : Chained h a value n) {ts : ℕ} {m : Message τ α β}
    (hm : h a ts=some m) (hfree : h a (ts+1)=none) : ts=n := by
  have hle := (hc.value_eq ts m hm).2
  by_contra hne
  obtain ⟨m',hm'⟩ := hc.reached (ts+1) (by omega)
  rw [hfree] at hm'
  cases hm'

variable [DecidableEq α]

/-- A load returns a value of the sequence. -/
theorem Chained.load (hc : Chained h a value n) {l l' : Local τ α} {order : LoadOrder} {ts : ℕ}
    {found : β} (hl : ReleaseAcquire.load h l order a ts=some (found,l')) :
    found=value ts ∧ ts≤n ∧ l.current.seen a ≤ ts := by
  obtain ⟨m,hm,hts,rfl,-⟩ := load_eq_some hl
  exact ⟨(hc.value_eq ts m hm).1,(hc.value_eq ts m hm).2,hts⟩

/-- The last value can be loaded by whoever is not ahead of it. -/
theorem Chained.loadable (hc : Chained h a value n) {l : Local τ α} (hseen : l.current.seen a ≤ n)
    (order : LoadOrder) : ∃ m : Message τ α β,ReleaseAcquire.load h l order a n=
      some (value n,observe order l a n m) := by
  obtain ⟨m,hlast,hvalue⟩ := hc.latest
  refine ⟨m,?_⟩
  rw [ReleaseAcquire.load,if_pos hseen,hlast.message,Option.map_some,hvalue]

/-- Stores to other locations do not matter. -/
theorem Chained.add_of_ne (hc : Chained h a value n) {b : α} (hb : a≠b) (ts : ℕ)
    (m : Message τ α β) : Chained (h.add b ts m) a value n := by
  constructor
  · rw [h.add_of_ne ts m hb]
    exact hc.value_eq
  · rw [h.add_of_ne ts m hb]
    exact hc.reached

/-- The next value of the sequence. -/
theorem Chained.add (hc : Chained h a value n) {m : Message τ α β} (hm : m.value=value (n+1)) :
    Chained (h.add a (n+1) m) a value (n+1) where
  value_eq := by
    intro ts m' hm'
    rcases History.add_eq_some hm' with ⟨-,rfl,rfl⟩ | hold
    · exact ⟨hm,le_refl _⟩
    · obtain ⟨hvalue,hle⟩ := hc.value_eq ts m' hold
      exact ⟨hvalue,Nat.le_succ_of_le hle⟩
  reached := by
    intro ts hts
    obtain ⟨last,hl,-⟩ := hc.latest
    rcases Nat.le_succ_iff.mp hts with hle | rfl
    · obtain ⟨m',hm'⟩ := hc.reached ts hle
      exact ⟨m',History.add_of_some hl.free_behind hm'⟩
    · exact ⟨_,h.add_self a (n+1) m⟩

/-- A read-modify-write reads the last value and stores the next one. -/
theorem Chained.fetchUpdate (hc : Chained h a value n) {l l' : Local τ α} {order : UpdateOrder}
    {ts : ℕ} {f : β → β} {found : β} (hf : f (value n)=value (n+1))
    (hx : AtomicCounters.fetchUpdate h l order a ts f=some (found,h',l')) :
    ts=n ∧ found=value n ∧ Chained h' a value (n+1) := by
  obtain ⟨m,hm,hfree,rfl,rfl,-⟩ := fetchUpdate_eq_some hx
  obtain rfl := hc.last_of_free hm hfree
  have hvalue := (hc.value_eq ts m hm).1
  exact ⟨rfl,hvalue,hc.add (by rw [← hf,hvalue])⟩

/-- A read-modify-write elsewhere does not matter. -/
theorem Chained.fetchUpdate_of_ne (hc : Chained h a value n) {l l' : Local τ α}
    {order : UpdateOrder} {b : α} {ts : ℕ} {f : β → β} {found : β} (hb : a≠b)
    (hx : AtomicCounters.fetchUpdate h l order b ts f=some (found,h',l')) :
    Chained h' a value n := by
  obtain ⟨m,-,-,-,rfl,-⟩ := fetchUpdate_eq_some hx
  exact hc.add_of_ne hb _ _

/-- Every thread can change the counter. -/
theorem Chained.updatable (hc : Chained h a value n) {views : τ → Local τ α} (hs : Sane h views)
    (t : τ) (order : UpdateOrder) (f : β → β) :
    ∃ done,AtomicCounters.fetchUpdate h (views t) order a n f=some done := by
  obtain ⟨m,hl,-⟩ := hc.latest
  unfold AtomicCounters.fetchUpdate
  rw [if_pos (hl.seen_le (hs.threads t).current),hl.message,Option.bind_some,hl.free_behind]
  exact ⟨_,rfl⟩

end Chained

/-- The views of a thread that has joined others. -/
def join (views : τ → Local τ α) (threads : List τ) : Local τ α :=
  {Local.initial τ α with
    current := threads.foldr (fun t v => (views t).current ⊔ v) (.initial τ α)}

/-- What a joined thread knew is known. -/
theorem le_join (views : τ → Local τ α) {threads : List τ} {t : τ} (ht : t ∈ threads) :
    (views t).current ≤ (join views threads).current := by
  unfold join
  induction threads with
  | nil => cases ht
  | cons u rest ih =>
    rcases List.mem_cons.mp ht with rfl | hrest
    · exact le_sup_left
    · exact (ih hrest).trans le_sup_right

/-- Joining threads adds nothing that none of them knew. -/
theorem join_seen_le {views : τ → Local τ α} {threads : List τ} {a : α} {ts : ℕ}
    (h : ∀ t ∈ threads,(views t).current.seen a ≤ ts) :
    (join views threads).current.seen a ≤ ts := by
  unfold join
  induction threads with
  | nil => exact Nat.zero_le ts
  | cons u rest ih =>
    exact max_le (h u List.mem_cons_self) (ih fun t ht => h t (List.mem_cons_of_mem u ht))

/-- Workers of whom `active` have not yet signed off have counted to `count`
at the location `counter`. The location `remaining` was `size` at first. -/
structure SignOff (h : History τ α ℕ) (views : τ → Local τ α) (counter remaining : α)
    (active : Finset τ) (size count : ℕ) : Prop where
  /-- The count. -/
  counted : Chained h counter id count
  /-- Those who signed off. -/
  signed : Chained h remaining (size-·) (size-active.card)
  /-- There are not more workers than there were. -/
  active_le : active.card ≤ size
  /-- The count is known to an active worker or released by the last
  signature. -/
  covered : count=0 ∨ (∃ t ∈ active,count ≤ (views t).current.seen counter) ∨
    ∃ m,h remaining (size-active.card)=some m ∧ count ≤ m.view.seen counter

section SignOff

variable [DecidableEq α] [DecidableEq τ] {h h' : History τ α ℕ} {views : τ → Local τ α}
  {counter remaining : α} {active : Finset τ} {size count ts found : ℕ} {t : τ} {l : Local τ α}

omit [DecidableEq α] in
/-- A thread sees more. -/
theorem seen_le_update (views : τ → Local τ α) {t : τ} {l : Local τ α}
    (hle : (views t).current ≤ l.current) (u : τ) (a : α) :
    (views u).current.seen a ≤ (update views t l u).current.seen a := by
  by_cases hu : u=t
  · subst hu
    rw [update_self]
    exact View.seen_le hle a
  · rw [update_of_ne hu]

omit [DecidableEq α] in
/-- A thread sees more. -/
theorem SignOff.observe (hw : SignOff h views counter remaining active size count)
    (hle : (views t).current ≤ l.current) :
    SignOff h (update views t l) counter remaining active size count where
  counted := hw.counted
  signed := hw.signed
  active_le := hw.active_le
  covered := by
    rcases hw.covered with hzero | ⟨u,hu,hseen⟩ | hlast
    · exact .inl hzero
    · exact .inr (.inl ⟨u,hu,hseen.trans (seen_le_update views hle u counter)⟩)
    · exact .inr (.inr hlast)

/-- Another counter is changed. -/
theorem SignOff.elsewhere (hw : SignOff h views counter remaining active size count)
    {order : UpdateOrder} {b : α} {f : ℕ → ℕ} (hc : counter≠b) (hr : remaining≠b)
    (hx : fetchUpdate h (views t) order b ts f=some (found,h',l)) :
    SignOff h' (update views t l) counter remaining active size count := by
  have hcounted := hw.counted.fetchUpdate_of_ne hc hx
  have hsigned := hw.signed.fetchUpdate_of_ne hr hx
  obtain ⟨m,-,-,-,rfl,rfl⟩ := fetchUpdate_eq_some hx
  have hseen := hw.observe (le_updated (views t) order b ts m)
  refine ⟨hcounted,hsigned,hw.active_le,?_⟩
  rw [h.add_of_ne _ _ hr]
  exact hseen.covered

/-- An active worker counts. -/
theorem SignOff.tally (hw : SignOff h views counter remaining active size count)
    (ht : t ∈ active) (hne : remaining≠counter)
    (hx : fetchUpdate h (views t) .relaxed counter ts (·+1)=some (found,h',l)) :
    SignOff h' (update views t l) counter remaining active size (count+1) := by
  have hsigned := hw.signed.fetchUpdate_of_ne hne hx
  obtain ⟨rfl,-,hcounted⟩ := hw.counted.fetchUpdate rfl hx
  refine ⟨hcounted,hsigned,hw.active_le,.inr (.inl ⟨t,ht,?_⟩)⟩
  obtain ⟨m,-,-,-,-,rfl⟩ := fetchUpdate_eq_some hx
  rw [update_self]
  exact updated_seen (views t) .relaxed counter ts m

/-- An active worker signs off. -/
theorem SignOff.leave (hw : SignOff h views counter remaining active size count)
    (ht : t ∈ active) (hne : counter≠remaining)
    (hx : fetchUpdate h (views t) .acqRel remaining ts (·-1)=some (found,h',l)) :
    SignOff h' (update views t l) counter remaining (active.erase t) size count := by
  have hcard := Finset.card_erase_of_mem ht
  have hpos : 0<active.card := Finset.card_pos.mpr ⟨t,ht⟩
  have hle := hw.active_le
  have hnext : size-(active.erase t).card=size-active.card+1 := by omega
  have hcounted := hw.counted.fetchUpdate_of_ne hne hx
  have hdown : size-(size-active.card)-1=size-(size-active.card+1) := by omega
  obtain ⟨rfl,-,hsigned⟩ := hw.signed.fetchUpdate hdown hx
  rw [← hnext] at hsigned
  refine ⟨hcounted,hsigned,by omega,?_⟩
  obtain ⟨m,hm,-,-,rfl,rfl⟩ := fetchUpdate_eq_some hx
  rw [hnext,h.add_self]
  rcases hw.covered with hzero | ⟨u,hu,hseen⟩ | ⟨m',hm',hseen⟩
  · exact .inl hzero
  · by_cases he : u=t
    · -- the worker releases what it knows
      subst he
      refine .inr (.inr ⟨_,rfl,hseen.trans (View.seen_le ?_ counter)⟩)
      exact (le_updated (views u) .acqRel remaining (size-active.card) m).trans le_sup_right
    · refine .inr (.inl ⟨u,Finset.mem_erase.mpr ⟨he,hu⟩,?_⟩)
      rw [update_of_ne he]
      exact hseen
  · -- earlier signatures are continued
    rw [hm] at hm'
    cases hm'
    exact .inr (.inr ⟨_,rfl,hseen.trans (View.seen_le le_sup_left counter)⟩)

omit [DecidableEq τ] in
/-- A thread that acquires the last signature knows the final count. -/
theorem SignOff.acquire (hw : SignOff h views counter remaining active size count)
    (hl : load h (views t) .acquire remaining ts=some (0,l)) :
    active=∅ ∧ count ≤ l.current.seen counter := by
  obtain ⟨hvalue,hts,-⟩ := hw.signed.load hl
  have hle := hw.active_le
  have hnone : active.card=0 := by omega
  have hlast : ts=size-active.card := by omega
  refine ⟨Finset.card_eq_zero.mp hnone,?_⟩
  obtain ⟨m,hm,-,-,rfl⟩ := load_eq_some hl
  rcases hw.covered with hzero | ⟨u,hu,-⟩ | ⟨m',hm',hseen⟩
  · omega
  · rw [Finset.card_eq_zero.mp hnone] at hu
    exact absurd hu (Finset.notMem_empty u)
  · rw [← hlast,hm] at hm'
    cases hm'
    exact hseen.trans (View.seen_le (view_le_observe (views t) remaining ts m) counter)

end SignOff

end Line64.AtomicCounters
