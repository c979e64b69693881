import Mathlib.Data.Nat.ModEq

/-!
# Positions that share a ring index

Positions of an unbounded counter are stored modulo a ring size. Two
positions with the same index are a whole number of laps apart, so within
one lap the index identifies the position.
-/

namespace Line64.RingIndex

variable {n a b : ℕ}

/-- A later position of the same index is at least one lap later. -/
theorem lap_le (h : a%n=b%n) (hlt : a<b) : a+n≤b := Nat.ModEq.add_le_of_lt h hlt

/-- Within one lap the index identifies the position. -/
theorem eq_of_index_eq (h : a%n=b%n) (hab : a<b+n) (hba : b<a+n) : a=b := by
  rcases Nat.lt_trichotomy a b with hlt | heq | hgt
  · have := lap_le h hlt
    omega
  · exact heq
  · have := lap_le h.symm hgt
    omega

/-- In a ring of at least two cells neighbouring positions never collide. -/
theorem ne_succ_of_index_eq (hn : 2≤n) (h : a%n=b%n) : a≠b+1 := by
  rintro rfl
  have := lap_le h.symm (Nat.lt_succ_self b)
  omega

/-- A whole lap keeps the index. -/
theorem index_sub_lap (h : n≤a) : (a-n)%n=a%n := (Nat.mod_eq_sub_mod h).symm

/-- Every position has a latest one of the same index below a later bound. -/
theorem exists_last_lap (hn : 0<n) (hab : a≤b) : ∃ c,a≤c ∧ c≤b ∧ b<c+n ∧ c%n=a%n := by
  have hlt := Nat.mod_lt (b-a) hn
  have hle := Nat.mod_le (b-a) n
  have hdiv := Nat.div_add_mod (b-a) n
  refine ⟨a+n*((b-a)/n),by omega,by omega,by omega,Nat.add_mul_mod_self_left a n _⟩

end Line64.RingIndex
