import Line64.ReleaseAcquire

/-!
# Memory with a single writer

All stores of a memory are made by one thread, so they have an order, and a
time is a number of stores. A view that contains the first stores cannot
read behind them: what its thread loads from a location is the content of
the location at some later time. If this is a store the view did not
contain, the message says how many of the first stores its own view
contains. No program is mentioned here.
-/

namespace Line64.SingleWriter

open Function ReleaseAcquire

variable {τ α β : Type}

/-- The stores in their order. -/
structure Record (α : Type) where
  /-- Number of stores. -/
  now : ℕ
  /-- Location of a store. -/
  place : ℕ → α
  /-- Timestamp of a store. -/
  stamp : ℕ → ℕ
  /-- Number of first stores that the view of its message contains. -/
  known : ℕ → ℕ

/-- A view contains the first `k` stores. -/
structure Knows (r : Record α) (v : View τ α) (k : ℕ) : Prop where
  /-- There are so many. -/
  le_now : k≤r.now
  /-- None of them is ahead of the view. -/
  seen : ∀ j<k,r.stamp j ≤ v.seen (r.place j)

/-- The history consists of the initial stores and the recorded ones, and
`memory` is the content of all locations at every time. -/
structure Logged (h : History τ α β) (memory : ℕ → α → β) (r : Record α) : Prop where
  /-- A store changes its location only. -/
  frame : ∀ k<r.now,∀ a,a≠r.place k → memory (k+1) a=memory k a
  /-- Every message is initial or recorded. -/
  message : ∀ a ts m,h a ts=some m → (ts=0 ∧ m.value=memory 0 a) ∨
    ∃ k<r.now,r.place k=a ∧ r.stamp k=ts ∧ m.value=memory (k+1) a ∧ Knows r m.view (r.known k)
  /-- Initial stores have the first timestamp. -/
  positive : ∀ k<r.now,0<r.stamp k
  /-- Later stores of a location have later timestamps. -/
  ascending : ∀ j k,j<k → k<r.now → r.place j=r.place k → r.stamp j<r.stamp k

/-- Nothing has been stored. -/
def Record.initial (a : α) : Record α := ⟨0,fun _ => a,fun _ => 0,fun _ => 0⟩

/-- The initial stores. -/
theorem Logged.initial (τ : Type) (a : α) (value : α → β) :
    Logged (History.initial τ value) (fun _ => value) (Record.initial a) where
  frame := fun _ hk => absurd hk (Nat.not_lt_zero _)
  message := by
    intro b ts m hm
    cases ts with
    | zero =>
      cases hm
      exact .inl ⟨rfl,rfl⟩
    | succ n => cases hm
  positive := fun _ hk => absurd hk (Nat.not_lt_zero _)
  ascending := fun _ _ _ hk => absurd hk (Nat.not_lt_zero _)

/-- Every view contains the first zero stores. -/
theorem Knows.zero (r : Record α) (v : View τ α) : Knows r v 0 :=
  ⟨Nat.zero_le _,fun _ hj => absurd hj (Nat.not_lt_zero _)⟩

/-- A larger view contains as much. -/
theorem Knows.mono {r : Record α} {v w : View τ α} {k : ℕ} (h : Knows r v k) (hle : v≤w) :
    Knows r w k :=
  ⟨h.le_now,fun j hj => (h.seen j hj).trans (View.seen_le hle _)⟩

section Reader

variable {h : History τ α β} {memory : ℕ → α → β} {r : Record α} {v : View τ α} {j k : ℕ} {a : α}

/-- A location without a store between two times keeps its content. -/
theorem Logged.memory_eq (hl : Logged h memory r) (hjk : j≤k) (hk : k≤r.now)
    (hnone : ∀ i,j ≤ i → i<k → r.place i≠a) : memory k a=memory j a := by
  induction k, hjk using Nat.le_induction with
  | base => rfl
  | succ k hjk ih =>
    have hold := ih (by omega) fun i hi hik => hnone i hi (by omega)
    rw [hl.frame k (by omega) a (hnone k hjk (by omega)).symm]
    exact hold

/-- What a view with the first `k` stores can still read: the content at time
`k`, or that of a later store. -/
theorem Logged.readable (hl : Logged h memory r) (hk : Knows r v k) {ts : ℕ}
    {m : Message τ α β} (hm : h a ts=some m) (hts : v.seen a ≤ ts) :
    m.value=memory k a ∨ ∃ j,k≤j ∧ j<r.now ∧ r.place j=a ∧ m.value=memory (j+1) a ∧
      Knows r m.view (r.known j) := by
  rcases hl.message a ts m hm with ⟨rfl,hvalue⟩ | ⟨j,hj,hplace,hstamp,hvalue,hview⟩
  · refine .inl (hvalue.trans (hl.memory_eq (Nat.zero_le k) hk.le_now ?_).symm)
    rintro i - hik rfl
    have hpos := hl.positive i (hik.trans_le hk.le_now)
    have hseen := hk.seen i hik
    omega
  · by_cases hjk : k≤j
    · exact .inr ⟨j,hjk,hj,hplace,hvalue,hview⟩
    · refine .inl (hvalue.trans (hl.memory_eq (by omega) hk.le_now ?_).symm)
      rintro i hji hik rfl
      have hlater := hl.ascending j i (by omega) (hik.trans_le hk.le_now) hplace
      have hseen := hk.seen i hik
      omega

variable [DecidableEq α]

/-- What a load returns, and what its thread has learned by a later store. -/
theorem Logged.load (hl : Logged h memory r) {l l' : Local τ α} (hk : Knows r l.current k)
    {order : LoadOrder} {ts : ℕ} {value : β} (hload : load h l order a ts=some (value,l')) :
    l.current ≤ l'.current ∧ l.acquired ≤ l'.acquired ∧
    (value=memory k a ∨ ∃ j,k≤j ∧ j<r.now ∧ r.place j=a ∧ value=memory (j+1) a ∧
      Knows r l'.acquired (r.known j) ∧ (order=.acquire → Knows r l'.current (r.known j))) := by
  obtain ⟨m,hm,hts,rfl,rfl⟩ := load_eq_some hload
  refine ⟨le_observe order l a ts m,le_acquired order l a ts m,?_⟩
  rcases hl.readable hk hm hts with hvalue | ⟨j,hkj,hj,hplace,hvalue,hview⟩
  · exact .inl hvalue
  · refine .inr ⟨j,hkj,hj,hplace,hvalue,hview.mono (view_le_acquired order l a ts m),?_⟩
    rintro rfl
    exact hview.mono (view_le_observe l a ts m)

/-- A thread that knows all stores loads the present content. -/
theorem Logged.load_now (hl : Logged h memory r) {l l' : Local τ α}
    (hk : Knows r l.current r.now) {order : LoadOrder} {ts : ℕ} {value : β}
    (hload : ReleaseAcquire.load h l order a ts=some (value,l')) : value=memory r.now a := by
  obtain ⟨-,-,hvalue | ⟨j,hkj,hj,-⟩⟩ := hl.load hk hload
  · exact hvalue
  · omega

end Reader

section Writer

/-- One more store. -/
def Record.add (r : Record α) (a : α) (ts known : ℕ) : Record α where
  now := r.now+1
  place := update r.place r.now a
  stamp := update r.stamp r.now ts
  known := update r.known r.now known

variable {r : Record α} {a : α} {ts known : ℕ}

/-- Earlier stores keep their location. -/
theorem Record.add_place {j : ℕ} (hj : j<r.now) : (r.add a ts known).place j=r.place j :=
  update_of_ne hj.ne _ _

/-- Earlier stores keep their timestamp. -/
theorem Record.add_stamp {j : ℕ} (hj : j<r.now) : (r.add a ts known).stamp j=r.stamp j :=
  update_of_ne hj.ne _ _

/-- Earlier stores make known what they did. -/
theorem Record.add_known {j : ℕ} (hj : j<r.now) : (r.add a ts known).known j=r.known j :=
  update_of_ne hj.ne _ _

/-- What a view contained before. -/
theorem Knows.add {v : View τ α} {k : ℕ} (h : Knows r v k) : Knows (r.add a ts known) v k where
  le_now := Nat.le_succ_of_le h.le_now
  seen := by
    intro j hj
    have hlt := hj.trans_le h.le_now
    rw [Record.add_place hlt,Record.add_stamp hlt]
    exact h.seen j hj

variable [DecidableEq α]

/-- The view behind the last store contains it. -/
theorem Knows.see {v : View τ α} (h : Knows r v r.now) :
    Knows (r.add a ts known) (v.see a ts) (r.now+1) where
  le_now := le_refl _
  seen := by
    intro j hj
    rcases Nat.lt_succ_iff_lt_or_eq.mp hj with hlt | rfl
    · exact (h.add.mono (v.le_see a ts)).seen j hlt
    · simp only [Record.add,update_self]
      exact v.see_self a ts

/-- How many stores a message makes known: a release store all, a relaxed one
those in front of the last release fence. -/
def knownBy (r : Record α) (fenced : ℕ) : StoreOrder → ℕ
  | .relaxed => fenced
  | .release => r.now+1

/-- The writer stores. -/
theorem Logged.store {h h' : History τ α β} {memory memory' : ℕ → α → β} {l l' : Local τ α}
    {order : StoreOrder} {value : β} {fenced : ℕ} (hl : Logged h memory r)
    (hk : Knows r l.current r.now) (hf : Knows r l.released fenced)
    (hs : store h l order a ts value=some (h',l')) (hold : ∀ k≤r.now,memory' k=memory k)
    (hnew : memory' (r.now+1)=update (memory r.now) a value) :
    Logged h' memory' (r.add a ts (knownBy r fenced order)) ∧
      Knows (r.add a ts (knownBy r fenced order)) l'.current (r.now+1) := by
  obtain ⟨hlt,hfree,rfl,rfl⟩ := store_eq_some hs
  have hvalue : memory' (r.now+1) a=value := by rw [hnew,update_self]
  refine ⟨⟨?_,?_,?_,?_⟩,hk.see⟩
  · intro k hk' b hb
    rcases Nat.lt_succ_iff_lt_or_eq.mp hk' with hlt' | rfl
    · rw [Record.add_place hlt'] at hb
      rw [hold _ (by omega),hold _ (by omega)]
      exact hl.frame k hlt' b hb
    · simp only [Record.add,update_self] at hb
      rw [hnew,hold _ (le_refl _),update_of_ne hb]
  · intro b ts' m hm
    rcases History.add_eq_some hm with ⟨rfl,rfl,rfl⟩ | hbefore
    · refine .inr ⟨r.now,Nat.lt_succ_self _,update_self _ _ _,update_self _ _ _,?_,?_⟩
      · rw [hvalue]
        cases order <;> rfl
      · simp only [Record.add,update_self]
        cases order with
        | relaxed => exact hf.add.mono (l.released.le_see b ts')
        | release => exact hk.see
    · rcases hl.message b ts' m hbefore with ⟨hts,hm'⟩ | ⟨k,hk',hplace,hstamp,hm',hview⟩
      · exact .inl ⟨hts,by rw [hold 0 (Nat.zero_le _)]; exact hm'⟩
      · refine .inr ⟨k,Nat.lt_succ_of_lt hk',?_,?_,?_,?_⟩
        · rw [Record.add_place hk',hplace]
        · rw [Record.add_stamp hk',hstamp]
        · rw [hold (k+1) hk']
          exact hm'
        · rw [Record.add_known hk']
          exact hview.add
  · intro k hk'
    rcases Nat.lt_succ_iff_lt_or_eq.mp hk' with hlt' | rfl
    · rw [Record.add_stamp hlt']
      exact hl.positive k hlt'
    · simp only [Record.add,update_self]
      omega
  · intro j k hjk hk' hplace
    rcases Nat.lt_succ_iff_lt_or_eq.mp hk' with hlt' | rfl
    · rw [Record.add_place hlt',Record.add_place (hjk.trans hlt')] at hplace
      rw [Record.add_stamp hlt',Record.add_stamp (hjk.trans hlt')]
      exact hl.ascending j k hjk hlt' hplace
    · rw [Record.add_place hjk] at hplace
      simp only [Record.add,update_self,update_of_ne hjk.ne] at hplace ⊢
      have hseen := hk.seen j hjk
      rw [hplace] at hseen
      omega

/-- The writer can store directly behind what it has seen. -/
theorem Logged.storable {h : History τ α β} {memory : ℕ → α → β} {l : Local τ α}
    (hl : Logged h memory r) (hk : Knows r l.current r.now) (order : StoreOrder) (a : α)
    (value : β) :
    ∃ written,ReleaseAcquire.store h l order a (l.current.seen a+1) value=some written := by
  have hfree : h a (l.current.seen a+1)=none := by
    rw [Option.eq_none_iff_forall_ne_some]
    intro m hm
    rcases hl.message a _ m hm with ⟨hts,-⟩ | ⟨k,hk',hplace,hstamp,-⟩
    · omega
    · have hseen := hk.seen k hk'
      rw [hplace] at hseen
      omega
  exact ⟨_,by rw [ReleaseAcquire.store,if_pos ⟨Nat.lt_succ_self _,by rw [hfree]; rfl⟩]⟩

end Writer

end Line64.SingleWriter
