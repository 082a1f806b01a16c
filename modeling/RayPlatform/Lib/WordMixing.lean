import Mathlib.Data.BitVec
import Mathlib.RingTheory.Nilpotent.Basic

/-!
# Mixing the bits of a word

The steps of integer hash functions, on words of `w` bits. Each of them is injective:

* a word plus its shifts to the left is a multiple of the word by an odd constant, and odd
  constants are units modulo `2 ^ w` (`add_shiftLeft_injective` and its variants);
* a word xored with its shift to the right is read back from the top bit down
  (`xor_ushiftRight_injective`).
-/

namespace RayPlatform.Lib.WordMixing

open BitVec (twoPow)
open Function (Injective)

variable {w : Nat}

/-! ## Odd multiples -/

theorem twoPow_pow (n k : Nat) : twoPow w n ^ k = twoPow w (k * n) := by
  induction k with
  | zero => rw [pow_zero, Nat.zero_mul, BitVec.twoPow_zero]; rfl
  | succ k ih => rw [pow_succ, ih, BitVec.twoPow_mul_twoPow_eq, Nat.succ_mul]

theorem isNilpotent_twoPow {n : Nat} (hn : 0 < n) : IsNilpotent (twoPow w n) := by
  refine ⟨w, ?_⟩
  rw [twoPow_pow]
  apply BitVec.eq_of_toNat_eq
  exact BitVec.toNat_twoPow_of_le (Nat.le_mul_of_pos_right w hn)

theorem mul_injective {c : BitVec w} (hc : IsUnit c) : Injective fun x : BitVec w => x * c :=
  fun _ _ h => hc.mul_right_cancel h

theorem add_shiftLeft_injective {n : Nat} (hn : 0 < n) :
    Injective fun x : BitVec w => x + x <<< n := by
  have hunit : IsUnit (1 + twoPow w n) := (isNilpotent_twoPow hn).isUnit_one_add
  have heq : (fun x : BitVec w => x + x <<< n) = fun x => x * (1 + twoPow w n) := by
    funext x
    rw [BitVec.shiftLeft_eq_mul_twoPow, mul_add, mul_one]
  rw [heq]
  exact mul_injective hunit

theorem add_shiftLeft_add_shiftLeft_injective {m n : Nat} (hm : 0 < m) (hn : 0 < n) :
    Injective fun x : BitVec w => (x + x <<< m) + x <<< n := by
  have hnil : IsNilpotent (twoPow w m + twoPow w n) :=
    (Commute.all _ _).isNilpotent_add (isNilpotent_twoPow hm) (isNilpotent_twoPow hn)
  have heq : (fun x : BitVec w => (x + x <<< m) + x <<< n) =
      fun x => x * (1 + (twoPow w m + twoPow w n)) := by
    funext x
    rw [BitVec.shiftLeft_eq_mul_twoPow, BitVec.shiftLeft_eq_mul_twoPow, mul_add, mul_add, mul_one,
      add_assoc]
  rw [heq]
  exact mul_injective hnil.isUnit_one_add

/-- The complement is the opposite, less one. -/
theorem not_add_shiftLeft_injective {n : Nat} (hn : 0 < n) :
    Injective fun x : BitVec w => ~~~x + x <<< n := by
  have hunit : IsUnit (twoPow w n - 1) := (isNilpotent_twoPow hn).isUnit_sub_one
  have heq : (fun x : BitVec w => ~~~x + x <<< n) = fun x => x * (twoPow w n - 1) - 1 := by
    funext x
    rw [BitVec.not_eq_neg_add, BitVec.shiftLeft_eq_mul_twoPow]
    change -x - 1 + x * twoPow w n = _
    ring
  rw [heq]
  intro x y h
  exact mul_injective hunit (sub_left_injective h)

/-! ## Shifts to the right -/

/-- Bit `i` of the word comes from bit `i` of the result and a higher bit of the word. -/
theorem xor_ushiftRight_injective {n : Nat} (hn : 0 < n) :
    Injective fun x : BitVec w => x ^^^ x >>> n := by
  intro x y h
  have hbit : ∀ i, (x.getLsbD i ^^ x.getLsbD (n + i)) = (y.getLsbD i ^^ y.getLsbD (n + i)) := by
    intro i
    have hi := congrArg (fun z : BitVec w => z.getLsbD i) h
    simpa only [BitVec.getLsbD_xor, BitVec.getLsbD_ushiftRight] using hi
  have hhigh : ∀ k i, w ≤ i + k → x.getLsbD i = y.getLsbD i := by
    intro k
    induction k with
    | zero =>
        intro i hi
        rw [BitVec.getLsbD_of_ge x i hi, BitVec.getLsbD_of_ge y i hi]
    | succ k ih =>
        intro i hi
        have habove := hbit i
        rw [ih (n + i) (by omega)] at habove
        exact Bool.xor_left_inj.mp habove
  apply BitVec.eq_of_getLsbD_eq
  intro i _
  exact hhigh w i (Nat.le_add_left w i)

end RayPlatform.Lib.WordMixing
