import Mathlib.Data.Finset.Card
import Mathlib.Data.List.Pairwise
import Mathlib.Order.Interval.Finset.Nat
import Line64.BenchmarkResult

/-!
# Ranges of sequences and their union

A tracker keeps the sequences it has accepted as ranges, and
`count_unique_sequences` sorts the ranges of all trackers and sweeps over
them. The sweep computes on 64-bit words; its intermediate sums may wrap, its
result is the size of the union.
-/

namespace Line64.BenchmarkSequences

open Result BenchmarkResult

/-- Sum of two 64-bit words. -/
def addWord (a b : ℕ) : ℕ := (a+b)%2^64

/-- Difference of two 64-bit words. -/
def subWord (a b : ℕ) : ℕ := (a+2^64-b)%2^64

/-- Order in which `count_unique_sequences` sorts the ranges. -/
def rangeOrder (left right : SequenceRange) : Prop :=
  left.first<right.first ∨ left.first=right.first ∧ left.last≤right.last

instance : DecidableRel rangeOrder :=
  fun left right => inferInstanceAs (Decidable (left.first<right.first ∨ _))

instance : Std.Total rangeOrder :=
  ⟨fun left right => by unfold rangeOrder; omega⟩

instance : IsTrans SequenceRange rangeOrder :=
  ⟨fun left middle right => by unfold rangeOrder; omega⟩

/-- The loop of `count_unique_sequences` with its locals `current` and
`count`, and the sum it returns. -/
def sweep : SequenceRange → ℕ → List SequenceRange → ℕ
  | current,count,[] => addWord (subWord (addWord count current.last) current.first) 1
  | current,count,range::rest =>
    if current.last≠maxSequence ∧ addWord current.last 1<range.first then
      sweep range (addWord count (addWord (subWord current.last current.first) 1)) rest
    else if current.last<range.last then sweep ⟨current.first,range.last⟩ count rest
    else sweep current count rest

/-- The function `count_unique_sequences`. -/
def countUniqueSequences (trackers : List SequenceTracker) : ℕ :=
  match (trackers.flatMap SequenceTracker.ranges).insertionSort rangeOrder with
  | [] => 0
  | front::rest => sweep front 0 rest

/-- A tracker and the sequences it has accepted, after a list of calls. -/
def driven (calls : List UInt64) : SequenceTracker × List UInt64 :=
  calls.foldl (fun state sequence =>
    let recorded := state.1.record sequence.toNat
    (recorded.1,if recorded.2 then state.2++[sequence] else state.2)) (⟨[]⟩,[])

/-- The tracker after a list of calls of `record`. -/
def tracked (calls : List UInt64) : SequenceTracker := (driven calls).1

/-- The sequences for which `record` returned true, oldest first. -/
def acceptedOf (calls : List UInt64) : List UInt64 := (driven calls).2

/-- Sequences of a range. -/
def members (range : SequenceRange) : Finset ℕ := Finset.Icc range.first range.last

/-- Sequences of a list of ranges. -/
def covered (ranges : List SequenceRange) : Finset ℕ := ranges.foldr (fun range => (members range∪·)) ∅

/-- A range of 64-bit sequences. -/
structure Proper (range : SequenceRange) : Prop where
  /-- Zero is not a sequence. -/
  pos : 1≤range.first
  /-- The range is not empty. -/
  ordered : range.first≤range.last
  /-- Sequences have 64 bits. -/
  max : range.last ≤ maxSequence

section Sweep

/-- Sequences of a list of ranges, one by one. -/
theorem mem_covered {ranges : List SequenceRange} {x : ℕ} :
    x ∈ covered ranges ↔ ∃ range ∈ ranges,range.first≤x ∧ x≤range.last := by
  induction ranges with
  | nil => simp [covered]
  | cons range rest ih =>
    simp only [covered,List.foldr_cons,Finset.mem_union,members,Finset.mem_Icc,List.mem_cons,
      exists_eq_or_imp] at ih ⊢
    rw [← ih]

/-- One more range. -/
theorem covered_cons (range : SequenceRange) (rest : List SequenceRange) :
    covered (range::rest)=members range∪covered rest := rfl

/-- Proper ranges hold 64-bit sequences other than zero. -/
theorem covered_subset {ranges : List SequenceRange} (h : ∀ range ∈ ranges,Proper range) :
    covered ranges⊆Finset.Icc 1 maxSequence := by
  intro x hx
  obtain ⟨range,hrange,hfirst,hlast⟩ := mem_covered.mp hx
  have hproper := h range hrange
  exact Finset.mem_Icc.mpr ⟨hproper.pos.trans hfirst,hlast.trans hproper.max⟩

/-- Number of sequences of a range. -/
theorem card_members (range : SequenceRange) : (members range).card=range.last+1-range.first :=
  Nat.card_Icc ..

/-- A range in front of a gap shares no sequence with the ranges behind it. -/
theorem disjoint_of_gap {current : SequenceRange} {rest : List SequenceRange}
    (hgap : ∀ range ∈ rest,current.last<range.first) :
    Disjoint (members current) (covered rest) := by
  rw [Finset.disjoint_left]
  intro x hx hrest
  obtain ⟨range,hmem,hfirst,-⟩ := mem_covered.mp hrest
  have hlt := hgap range hmem
  have hle := (Finset.mem_Icc.mp hx).2
  omega

/-- A range that overlaps or touches the present one extends it. -/
theorem members_union_of_touch {current range : SequenceRange} (hfirst : current.first≤range.first)
    (htouch : range.first≤current.last+1) (hlonger : current.last<range.last) :
    members current∪members range=members ⟨current.first,range.last⟩ := by
  ext x
  simp only [members,Finset.mem_union,Finset.mem_Icc]
  omega

/-- A range inside the present one adds nothing. -/
theorem members_union_of_inside {current range : SequenceRange}
    (hfirst : current.first≤range.first) (hshorter : range.last≤current.last) :
    members current∪members range=members current := by
  ext x
  simp only [members,Finset.mem_union,Finset.mem_Icc]
  omega

/-- A range that starts like the present one takes the place of it and of the
next range. -/
theorem absorb {current range merged : SequenceRange} {rest : List SequenceRange}
    (hproper : ∀ next ∈ current::range::rest,Proper next)
    (hsorted : (current::range::rest).Pairwise fun left right => left.first≤right.first)
    (hmerged : Proper merged) (hfirst : merged.first=current.first) :
    (∀ next ∈ merged::rest,Proper next) ∧
      (merged::rest).Pairwise fun left right => left.first≤right.first := by
  rw [List.pairwise_cons] at hsorted
  refine ⟨?_,List.pairwise_cons.mpr ⟨?_,(List.pairwise_cons.mp hsorted.2).2⟩⟩
  · intro next hmem
    rcases List.mem_cons.mp hmem with rfl | hrest
    · exact hmerged
    · exact hproper next (List.mem_cons_of_mem _ (List.mem_cons_of_mem _ hrest))
  · intro next hrest
    rw [hfirst]
    exact hsorted.1 next (List.mem_cons_of_mem _ hrest)

/-- The sweep counts the sequences of the present range and of all ranges
behind it. -/
theorem sweep_eq_card {current : SequenceRange} {rest : List SequenceRange}
    (hproper : ∀ range ∈ current::rest,Proper range)
    (hsorted : (current::rest).Pairwise fun left right => left.first≤right.first) (count : ℕ) :
    sweep current count rest=(count+(covered (current::rest)).card)%2^64 := by
  induction rest generalizing current count with
  | nil =>
    obtain ⟨hpos,hordered,hmax⟩ := hproper current List.mem_cons_self
    have hcard : (covered [current]).card=current.last+1-current.first := by
      rw [covered_cons,covered,List.foldr_nil,Finset.union_empty,card_members]
    rw [sweep,hcard]
    unfold addWord subWord
    unfold maxSequence at hmax
    omega
  | cons range rest ih =>
    obtain ⟨hpos,hordered,hmax⟩ := hproper current List.mem_cons_self
    have hrange := hproper range (by simp)
    have hbehind : ∀ next ∈ range::rest,Proper next :=
      fun next hnext => hproper next (List.mem_cons_of_mem _ hnext)
    obtain ⟨hfirst,htail⟩ := List.pairwise_cons.mp hsorted
    have hnext := hfirst range List.mem_cons_self
    have hword : current.last≠maxSequence → addWord current.last 1=current.last+1 := by
      unfold addWord
      unfold maxSequence at hmax ⊢
      omega
    rw [sweep]
    split_ifs with hgap hlonger
    · -- Nothing behind the gap belongs to the present range.
      have hlast : current.last+1<range.first := by
        rw [← hword hgap.1]
        exact hgap.2
      have hdisjoint : Disjoint (members current) (covered (range::rest)) := by
        refine disjoint_of_gap ?_
        intro next hmem
        rcases List.mem_cons.mp hmem with rfl | hmem
        · omega
        · have hle := List.rel_of_pairwise_cons htail hmem
          omega
      rw [ih hbehind htail,covered_cons current,Finset.card_union_of_disjoint hdisjoint,
        card_members]
      unfold addWord subWord
      unfold maxSequence at hmax
      omega
    · have htouch : range.first≤current.last+1 := by
        by_cases hfull : current.last=maxSequence
        · have hle := hrange.max
          omega
        · have hnot := mt (And.intro hfull) hgap
          rw [hword hfull] at hnot
          omega
      have hmerged : Proper ⟨current.first,range.last⟩ :=
        ⟨hpos,hordered.trans (Nat.le_of_lt hlonger),hrange.max⟩
      obtain ⟨hproper',hsorted'⟩ := absorb hproper hsorted hmerged rfl
      rw [ih hproper' hsorted',covered_cons,covered_cons,covered_cons,← Finset.union_assoc,
        members_union_of_touch hnext htouch hlonger]
    · obtain ⟨hproper',hsorted'⟩ := absorb hproper hsorted ⟨hpos,hordered,hmax⟩ rfl
      rw [ih hproper' hsorted',covered_cons,covered_cons,covered_cons,← Finset.union_assoc,
        members_union_of_inside hnext (Nat.le_of_not_lt hlonger)]

end Sweep

/-- What a tracker knows of the sequences it has accepted. -/
structure Tracks (tracker : SequenceTracker) (accepted : List UInt64) : Prop where
  /-- The ranges are ordered, and neither overlap nor touch. -/
  separated : tracker.ranges.Pairwise fun left right => left.last+1<right.first
  /-- The ranges hold sequences. -/
  proper : ∀ range ∈ tracker.ranges,Proper range
  /-- They hold exactly the accepted sequences. -/
  covers : ∀ x,x ∈ covered tracker.ranges ↔ ∃ sequence ∈ accepted,sequence.toNat=x

section Tracker

variable {tracker : SequenceTracker} {accepted : List UInt64}

/-- Sequences have 64 bits. -/
theorem toNat_le_maxSequence (sequence : UInt64) : sequence.toNat ≤ maxSequence :=
  Nat.le_sub_one_of_lt sequence.toNat_lt

/-- The word zero is the number zero. -/
theorem toNat_eq_zero_iff (sequence : UInt64) : sequence.toNat=0 ↔ sequence=0 := by
  rw [← UInt64.toNat_inj]
  rfl

/-- The three effects of `record` on a 64-bit sequence. -/
theorem record_cases (tracker : SequenceTracker) {sequence : ℕ} (hmax : sequence ≤ maxSequence) :
    (tracker.record sequence=(tracker,false) ∧
      (sequence=0 ∨ ∃ front back,tracker.ranges=front++[back] ∧ sequence≤back.last)) ∨
    (tracker.record sequence=(⟨tracker.ranges++[⟨sequence,sequence⟩]⟩,true) ∧ 1 ≤ sequence ∧
      ∀ front back,tracker.ranges=front++[back] → back.last+1 < sequence) ∨
    ∃ front back,tracker.ranges=front++[back] ∧ sequence=back.last+1 ∧
      tracker.record sequence=(⟨front++[⟨back.first,sequence⟩]⟩,true) := by
  unfold SequenceTracker.record
  by_cases hzero : sequence=0
  · rw [if_pos hzero]
    exact .inl ⟨rfl,.inl hzero⟩
  · rw [if_neg hzero]
    rcases List.eq_nil_or_concat tracker.ranges with hnil | ⟨front,back,hback⟩
    · rw [hnil]
      refine .inr (.inl ⟨rfl,by omega,?_⟩)
      intro front back hsome
      exact absurd hsome (by simp)
    · rw [List.concat_eq_append] at hback
      have hlast : tracker.ranges.getLast?=some back := by rw [hback,List.getLast?_concat]
      have hfront : tracker.ranges.dropLast=front := by rw [hback,List.dropLast_concat]
      simp only [hlast,hfront]
      split_ifs with hgap hnext
      · refine .inr (.inl ⟨rfl,by omega,?_⟩)
        intro front' back' hsome
        have hsame : back'=back := by
          have hlast' : tracker.ranges.getLast?=some back' := by rw [hsome,List.getLast?_concat]
          exact Option.some.inj (hlast'.symm.trans hlast)
        rw [hsame]
        exact hgap.2
      · exact .inr (.inr ⟨front,back,hback,hnext.2,rfl⟩)
      · refine .inl ⟨rfl,.inr ⟨front,back,hback,?_⟩⟩
        by_contra hlater
        by_cases hfull : back.last=maxSequence
        · omega
        · have hgap' := mt (And.intro hfull) hgap
          have hnext' := mt (And.intro hfull) hnext
          omega

/-- No range reaches beyond the last one. -/
theorem Tracks.last_le_back (h : Tracks tracker accepted) {front : List SequenceRange}
    {back : SequenceRange} (hranges : tracker.ranges=front++[back]) :
    ∀ range ∈ tracker.ranges,range.last≤back.last := by
  intro range hrange
  have hordered := (h.proper back (by simp [hranges])).ordered
  have hseparated := h.separated
  rw [hranges,List.pairwise_append] at hseparated
  rw [hranges,List.mem_append,List.mem_singleton] at hrange
  rcases hrange with hfront | rfl
  · have hlt := hseparated.2.2 range hfront back List.mem_cons_self
    omega
  · exact le_rfl

/-- No accepted sequence is beyond the last range. -/
theorem Tracks.le_back (h : Tracks tracker accepted) {front : List SequenceRange}
    {back : SequenceRange} (hranges : tracker.ranges=front++[back]) :
    ∀ sequence ∈ accepted,sequence.toNat≤back.last := by
  intro sequence hmem
  obtain ⟨range,hrange,-,hle⟩ := mem_covered.mp ((h.covers sequence.toNat).mpr ⟨sequence,hmem,rfl⟩)
  exact hle.trans (h.last_le_back hranges range hrange)

/-- The end of the last range has been accepted. -/
theorem Tracks.back_accepted (h : Tracks tracker accepted) {front : List SequenceRange}
    {back : SequenceRange} (hranges : tracker.ranges=front++[back]) :
    ∃ sequence ∈ accepted,sequence.toNat=back.last := by
  have hmem : back ∈ tracker.ranges := by simp [hranges]
  exact (h.covers back.last).mp (mem_covered.mpr ⟨back,hmem,(h.proper back hmem).ordered,le_rfl⟩)

/-- The covered sequences with one more. -/
theorem Tracks.covers_append (h : Tracks tracker accepted) {ranges : List SequenceRange}
    {sequence : UInt64}
    (hranges : ∀ x,x ∈ covered ranges ↔ x ∈ covered tracker.ranges ∨ x=sequence.toNat) (x : ℕ) :
    x ∈ covered ranges ↔ ∃ other ∈ accepted++[sequence],other.toNat=x := by
  rw [hranges,h.covers]
  simp only [List.mem_append,List.mem_singleton,or_and_right,exists_or,exists_eq_left]
  rw [eq_comm (a:=x)]

/-- A sequence behind a gap starts a range. -/
theorem Tracks.push (h : Tracks tracker accepted) {sequence : UInt64} (hpos : 1 ≤ sequence.toNat)
    (hgap : ∀ front back,tracker.ranges=front++[back] → back.last+1<sequence.toNat) :
    Tracks ⟨tracker.ranges++[⟨sequence.toNat,sequence.toNat⟩]⟩ (accepted++[sequence]) := by
  have hmax := toNat_le_maxSequence sequence
  refine ⟨?_,?_,h.covers_append ?_⟩
  · refine List.pairwise_append.mpr ⟨h.separated,List.pairwise_singleton _ _,?_⟩
    intro range hrange next hnext
    rw [List.mem_singleton] at hnext
    rw [hnext]
    rcases List.eq_nil_or_concat tracker.ranges with hnil | ⟨front,back,hback⟩
    · rw [hnil] at hrange
      exact absurd hrange List.not_mem_nil
    · rw [List.concat_eq_append] at hback
      have hlt := hgap front back hback
      have hle := h.last_le_back hback range hrange
      dsimp only
      omega
  · intro range hrange
    rcases List.mem_append.mp hrange with hold | hnew
    · exact h.proper range hold
    · rw [List.mem_singleton] at hnew
      rw [hnew]
      exact ⟨hpos,le_rfl,hmax⟩
  · intro x
    simp only [mem_covered,List.mem_append,List.mem_singleton,or_and_right,exists_or,
      exists_eq_left]
    rw [Nat.le_antisymm_iff,and_comm (a:=x ≤ sequence.toNat)]

/-- The successor of the last sequence extends the last range. -/
theorem Tracks.extend (h : Tracks tracker accepted) {front : List SequenceRange}
    {back : SequenceRange} (hranges : tracker.ranges=front++[back]) {sequence : UInt64}
    (hnext : sequence.toNat=back.last+1) :
    Tracks ⟨front++[⟨back.first,sequence.toNat⟩]⟩ (accepted++[sequence]) := by
  have hmax := toNat_le_maxSequence sequence
  have hback := h.proper back (by simp [hranges])
  have hordered := hback.ordered
  have hseparated := h.separated
  rw [hranges,List.pairwise_append] at hseparated
  refine ⟨?_,?_,h.covers_append ?_⟩
  · refine List.pairwise_append.mpr ⟨hseparated.1,List.pairwise_singleton _ _,?_⟩
    intro range hrange next hmem
    rw [List.mem_singleton] at hmem
    rw [hmem]
    exact hseparated.2.2 range hrange back List.mem_cons_self
  · intro range hrange
    rcases List.mem_append.mp hrange with hold | hnew
    · exact h.proper range (by simp [hranges,hold])
    · rw [List.mem_singleton] at hnew
      rw [hnew]
      exact ⟨hback.pos,by dsimp only; omega,hmax⟩
  · intro x
    simp only [mem_covered,hranges,List.mem_append,List.mem_singleton,or_and_right,exists_or,
      exists_eq_left,or_assoc]
    refine or_congr_right ?_
    omega

/-- One call: what `record` answers and what it leaves. -/
theorem Tracks.record (h : Tracks tracker accepted) (sequence : UInt64) :
    ((tracker.record sequence.toNat).2=true ↔
      sequence≠0 ∧ ∀ earlier ∈ accepted,earlier<sequence) ∧
    ((tracker.record sequence.toNat).2=true ∨ (tracker.record sequence.toNat).1=tracker) ∧
    Tracks (tracker.record sequence.toNat).1
      (if (tracker.record sequence.toNat).2 then accepted++[sequence] else accepted) := by
  have hzero := toNat_eq_zero_iff sequence
  rcases record_cases tracker (toNat_le_maxSequence sequence) with
    ⟨hrecord,hwhy⟩ | ⟨hrecord,hpos,hgap⟩ | ⟨front,back,hranges,hnext,hrecord⟩
  · rw [hrecord]
    refine ⟨⟨nofun,?_⟩,.inr rfl,h⟩
    rintro ⟨hne,hall⟩
    rcases hwhy with hnull | ⟨front,back,hranges,hle⟩
    · exact absurd (hzero.mp hnull) hne
    · obtain ⟨last,hmem,hlast⟩ := h.back_accepted hranges
      have hlt := UInt64.lt_iff_toNat_lt.mp (hall last hmem)
      omega
  · rw [hrecord]
    refine ⟨⟨fun _ => ⟨by rw [ne_eq,← hzero]; omega,?_⟩,fun _ => rfl⟩,.inl rfl,h.push hpos hgap⟩
    intro earlier hmem
    rcases List.eq_nil_or_concat tracker.ranges with hnil | ⟨front,back,hback⟩
    · have hcovered := (h.covers earlier.toNat).mpr ⟨earlier,hmem,rfl⟩
      rw [hnil] at hcovered
      exact absurd hcovered (Finset.notMem_empty _)
    · rw [List.concat_eq_append] at hback
      have hle := h.le_back hback earlier hmem
      have hlt := hgap front back hback
      exact UInt64.lt_iff_toNat_lt.mpr (by omega)
  · rw [hrecord]
    refine ⟨⟨fun _ => ⟨by rw [ne_eq,← hzero]; omega,?_⟩,fun _ => rfl⟩,.inl rfl,
      h.extend hranges hnext⟩
    intro earlier hmem
    have hle := h.le_back hranges earlier hmem
    exact UInt64.lt_iff_toNat_lt.mpr (by omega)

/-- One more call. -/
theorem driven_append (calls : List UInt64) (sequence : UInt64) :
    tracked (calls++[sequence])=((tracked calls).record sequence.toNat).1 ∧
    acceptedOf (calls++[sequence])=
      if ((tracked calls).record sequence.toNat).2 then acceptedOf calls++[sequence]
      else acceptedOf calls := by
  refine ⟨?_,?_⟩
  · rw [tracked,driven,List.foldl_append]
    rfl
  · rw [acceptedOf,driven,List.foldl_append]
    rfl

/-- Every tracker knows what it has accepted. -/
theorem tracks (calls : List UInt64) : Tracks (tracked calls) (acceptedOf calls) := by
  induction calls using List.reverseRecOn with
  | nil => exact ⟨List.Pairwise.nil,nofun,fun x => by simp [tracked,acceptedOf,driven,covered]⟩
  | append_singleton rest sequence ih =>
    obtain ⟨htracked,haccepted⟩ := driven_append rest sequence
    rw [htracked,haccepted]
    exact (ih.record sequence).2.2

end Tracker

/-- All ranges of some trackers are proper. -/
theorem proper_flatMap (histories : List (List UInt64)) :
    ∀ range ∈ (histories.map tracked).flatMap SequenceTracker.ranges,Proper range := by
  intro range hrange
  obtain ⟨tracker,htracker,hmem⟩ := List.mem_flatMap.mp hrange
  obtain ⟨calls,-,rfl⟩ := List.mem_map.mp htracker
  exact (tracks calls).proper range hmem

/-- All ranges of some trackers hold the sequences that one of them has
accepted. -/
theorem covered_flatMap (histories : List (List UInt64)) :
    covered ((histories.map tracked).flatMap SequenceTracker.ranges)=
      (histories.flatMap acceptedOf).toFinset.image UInt64.toNat := by
  ext x
  simp only [mem_covered,List.mem_flatMap,List.mem_map,Finset.mem_image,List.mem_toFinset]
  constructor
  · rintro ⟨range,⟨-,⟨calls,hcalls,rfl⟩,hrange⟩,hbounds⟩
    obtain ⟨sequence,hmem,hx⟩ := ((tracks calls).covers x).mp (mem_covered.mpr ⟨range,hrange,hbounds⟩)
    exact ⟨sequence,⟨calls,hcalls,hmem⟩,hx⟩
  · rintro ⟨sequence,⟨calls,hcalls,hmem⟩,hx⟩
    obtain ⟨range,hrange,hbounds⟩ := mem_covered.mp (((tracks calls).covers x).mpr ⟨sequence,hmem,hx⟩)
    exact ⟨range,⟨_,⟨calls,hcalls,rfl⟩,hrange⟩,hbounds⟩

/-- The sweep over the sorted ranges of any list of ranges. -/
theorem sweep_sorted {ranges rest : List SequenceRange} {front : SequenceRange}
    (hproper : ∀ range ∈ ranges,Proper range)
    (hsorted : ranges.insertionSort rangeOrder=front::rest) :
    sweep front 0 rest=(covered ranges).card%2^64 := by
  have hperm : (front::rest).Perm ranges := hsorted ▸ List.perm_insertionSort rangeOrder ranges
  have hcovered : covered (front::rest)=covered ranges := by
    ext x
    simp only [mem_covered,hperm.mem_iff]
  have hordered : (front::rest).Pairwise rangeOrder :=
    hsorted ▸ List.pairwise_insertionSort rangeOrder ranges
  rw [sweep_eq_card (fun range hmem => hproper range (hperm.mem_iff.mp hmem))
    (hordered.imp fun horder => by rcases horder with hlt | ⟨heq,-⟩ <;> omega),hcovered,Nat.zero_add]

/-- Trackers accept exactly the increasing non-zero sequences and keep them
as separate ranges, and `count_unique_sequences` counts the sequences that at
least one of them has accepted. -/
theorem sequence_unions_exact :
    (∀ (calls : List UInt64) (sequence : UInt64),
      (((tracked calls).record sequence.toNat).2=true ↔
        sequence≠0 ∧ ∀ earlier ∈ acceptedOf calls,earlier<sequence) ∧
      (((tracked calls).record sequence.toNat).2=true ∨
        ((tracked calls).record sequence.toNat).1=tracked calls)) ∧
    (∀ calls : List UInt64,
      (tracked calls).ranges.Pairwise (fun left right => left.last+1<right.first) ∧
      (∀ range ∈ (tracked calls).ranges,range.first≤range.last) ∧
      ∀ x,(∃ range ∈ (tracked calls).ranges,range.first≤x ∧ x≤range.last) ↔
        ∃ sequence ∈ acceptedOf calls,sequence.toNat=x) ∧
    ∀ histories : List (List UInt64),
      countUniqueSequences (histories.map tracked)=
        (histories.flatMap acceptedOf).toFinset.card := by
  refine ⟨?_,?_,?_⟩
  · intro calls sequence
    obtain ⟨hanswer,hunchanged,-⟩ := (tracks calls).record sequence
    exact ⟨hanswer,hunchanged⟩
  · intro calls
    have h := tracks calls
    refine ⟨h.separated,fun range hrange => (h.proper range hrange).ordered,?_⟩
    intro x
    rw [← mem_covered]
    exact h.covers x
  · intro histories
    have hcard : (covered ((histories.map tracked).flatMap SequenceTracker.ranges)).card=
        (histories.flatMap acceptedOf).toFinset.card := by
      rw [covered_flatMap,Finset.card_image_of_injective _ (fun a b => UInt64.toNat_inj.mp)]
    have hfits : (covered ((histories.map tracked).flatMap SequenceTracker.ranges)).card<2^64 := by
      refine (Finset.card_le_card (covered_subset (proper_flatMap histories))).trans_lt ?_
      rw [Nat.card_Icc,maxSequence]
      decide
    unfold countUniqueSequences
    split
    · rename_i hnil
      have hempty : (histories.map tracked).flatMap SequenceTracker.ranges=[] := by
        rw [← List.length_eq_zero_iff,← List.length_insertionSort rangeOrder,hnil,List.length_nil]
      rw [← hcard,hempty]
      rfl
    · rename_i front rest hsorted
      rw [sweep_sorted (proper_flatMap histories) hsorted,Nat.mod_eq_of_lt hfits,hcard]

end Line64.BenchmarkSequences
