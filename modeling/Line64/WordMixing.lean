import Mathlib.Data.Nat.ModEq
import Mathlib.Data.Nat.Prime.Basic
import Mathlib.Logic.Function.Basic

/-!
# Invertible mixing of words

Rounds of shifts and multiplications scatter the bits of a word without losing
any of them. A shifted copy of a word does not hide it, and an odd factor is
invertible modulo a power of two. No program is mentioned here.
-/

namespace Line64.WordMixing

open Function

variable {w : ℕ}

/-- A word combined with its shifted copy. -/
def xorShift (shift : ℕ) (word : BitVec w) : BitVec w := word^^^(word>>>shift)

/-- Only zero is its own shifted copy. -/
theorem eq_zero_of_shifted {shift : ℕ} (hshift : 0 < shift) {word : BitVec w}
    (h : word=word>>>shift) : word=0#w := by
  have hdiv : word.toNat=word.toNat/2^shift := by
    rw [← Nat.shiftRight_eq_div_pow,← BitVec.toNat_ushiftRight,← h]
  have hzero : word.toNat=0 := by
    by_contra hne
    have hlt := Nat.div_lt_self (Nat.pos_of_ne_zero hne) (Nat.one_lt_two_pow hshift.ne')
    omega
  exact BitVec.eq_of_toNat_eq hzero

/-- A shifted copy does not hide the word. -/
theorem xorShift_injective {shift : ℕ} (hshift : 0 < shift) :
    Injective (xorShift shift : BitVec w → BitVec w) := by
  intro x y h
  have hdifference : x^^^y=(x^^^y)>>>shift := by
    calc
      x^^^y=(x^^^x>>>shift)^^^(x>>>shift^^^y) := by
        rw [BitVec.xor_assoc,← BitVec.xor_assoc (x>>>shift),BitVec.xor_self,BitVec.zero_xor]
      _=(y^^^y>>>shift)^^^(x>>>shift^^^y) := congrArg (·^^^(x>>>shift^^^y)) h
      _=(x^^^y)>>>shift := by
        rw [BitVec.ushiftRight_xor_distrib,BitVec.xor_comm (x>>>shift) y,← BitVec.xor_assoc,
          BitVec.xor_comm y,BitVec.xor_assoc (y>>>shift),BitVec.xor_self,BitVec.xor_zero,
          BitVec.xor_comm]
  exact BitVec.xor_eq_zero_iff.mp (eq_zero_of_shifted hshift hdifference)

/-- An odd factor does not hide the word. -/
theorem mul_odd_injective {factor : BitVec w} (hodd : factor.toNat%2=1) :
    Injective (·*factor) := by
  intro x y h
  have hcoprime : Nat.gcd (2^w) factor.toNat=1 :=
    Nat.Coprime.pow_left w ((Nat.coprime_two_left.mpr (Nat.odd_iff.mpr hodd)))
  have hmod : x.toNat*factor.toNat≡y.toNat*factor.toNat [MOD 2^w] := by
    have hproduct := congrArg BitVec.toNat h
    rwa [BitVec.toNat_mul,BitVec.toNat_mul] at hproduct
  have hword := Nat.ModEq.cancel_right_of_coprime hcoprime hmod
  exact BitVec.eq_of_toNat_eq (Nat.ModEq.eq_of_lt_of_lt hword x.isLt y.isLt)

/-- Two rounds of shift and multiplication, and a last shift. -/
def scramble (first second third : ℕ) (left right : BitVec w) (word : BitVec w) : BitVec w :=
  xorShift third (xorShift second (xorShift first word*left)*right)

/-- Scrambling does not hide the word. -/
theorem scramble_injective {first second third : ℕ} {left right : BitVec w} (hfirst : 0 < first)
    (hsecond : 0 < second) (hthird : 0 < third) (hleft : left.toNat%2=1)
    (hright : right.toNat%2=1) : Injective (scramble first second third left right) :=
  (xorShift_injective hthird).comp <| (mul_odd_injective hright).comp <|
    (xorShift_injective hsecond).comp <| (mul_odd_injective hleft).comp <|
      xorShift_injective hfirst

end Line64.WordMixing
