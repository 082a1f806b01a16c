import RayPlatform.Lib.Loops
import RayPlatform.Routing.GraphImplementation

/-!
# PowerLoops

The loops with which the graphs look for a power in the number of ranks: when they end,
and which powers they compute on the way.

* `isAPowerOf_returns` — the divisions end unless the base is 0 or 1;
* `countDigits_returns` — the digits of a power are found;
* `countDigits_ends` — so are those of any number whose product with the base fits an
  `int`, and no power that is computed is larger (`fits_of_mem_countDigitsCalls`).
-/

namespace RayPlatform

open Lib

/-- A quotient is smaller, unless it is by 1. -/
theorem toNatClampNeg_div_lt {a b : Int32} (ha : 1 < a) (hzero : b ≠ 0) (hone : b ≠ 1) :
    (a / b).toNatClampNeg < a.toNatClampNeg := by
  have ha' : 1 < a.toInt := Int32.lt_iff_toInt_lt.mp ha
  have hmin : a ≠ Int32.minValue := by
    rintro rfl
    exact absurd ha (by decide)
  have hb : b.toInt ≠ 0 ∧ b.toInt ≠ 1 :=
    ⟨fun h => hzero (Int32.toInt_inj.mp h), fun h => hone (Int32.toInt_inj.mp h)⟩
  simp only [Int32.toNatClampNeg]
  rw [Int32.toInt_div_of_ne_left a b hmin]
  rcases lt_or_gt_of_ne hb.1 with hneg | hpos
  · -- the quotient by a negative number is not positive
    have hle : a.toInt.tdiv b.toInt ≤ 0 := Int.tdiv_nonpos_of_nonneg_of_nonpos (by omega) hneg.le
    omega
  · have hlt : a.toInt.tdiv b.toInt < a.toInt := by
      rw [Int.tdiv_eq_ediv_of_nonneg (by omega)]
      exact Int.ediv_lt_self_of_pos_of_ne_one (by omega) (by omega)
    have hnonneg : 0 ≤ a.toInt.tdiv b.toInt := Int.tdiv_nonneg (by omega) hpos.le
    omega

theorem ofNat_ne_zero_one {b : Nat} (hb : 2 ≤ b) (hb' : b < 2 ^ 31) :
    Int32.ofNat b ≠ 0 ∧ Int32.ofNat b ≠ 1 := by
  have hvalue := Int32.toInt_ofNat_of_lt hb'
  refine ⟨fun h => ?_, fun h => ?_⟩
  · rw [h] at hvalue
    have hzero : (0 : Int32).toInt = 0 := rfl
    omega
  · rw [h] at hvalue
    have hone : (1 : Int32).toInt = 1 := rfl
    omega

theorem isAPowerOf_returns {base : Int32} (hzero : base ≠ 0) (hone : base ≠ 1)
    (remaining : Int32) : ∃ power, Returns (fun fuel => isAPowerOf base fuel remaining) power := by
  induction hk : remaining.toNatClampNeg using Nat.strongRecOn generalizing remaining with
  | ind k ih =>
      by_cases hgt : remaining > 1
      · by_cases hmod : remaining % base = 0
        · have hlt := toNatClampNeg_div_lt hgt hzero hone
          obtain ⟨power, hpower⟩ := ih _ (hk ▸ hlt) (remaining / base) rfl
          refine ⟨power, .next (fun fuel => ?_) hpower⟩
          rw [isAPowerOf, if_pos hgt, if_neg hzero, if_neg (not_not.mpr hmod)]
        · refine ⟨false, .next (fun fuel => ?_) (.done false)⟩
          rw [isAPowerOf, if_pos hgt, if_neg hzero, if_pos hmod]
      · refine ⟨true, .next (fun fuel => ?_) (.done true)⟩
        rw [isAPowerOf, if_neg hgt]

/-- The divisions of a power do not leave a remainder. -/
theorem isAPowerOf_pow {b : Nat} (hb : 2 ≤ b) :
    ∀ fuel e, b ^ e < 2 ^ 31 →
      isAPowerOf (Int32.ofNat b) fuel (Int32.ofNat (b ^ e)) ≠ some false := by
  intro fuel
  induction fuel with
  | zero => exact fun e _ => Option.some_ne_none false |>.symm
  | succ fuel ih =>
      intro e hfits
      rw [isAPowerOf]
      split
      case isTrue hgt =>
        obtain ⟨e, rfl⟩ : ∃ less, e = less + 1 := by
          refine ⟨e - 1, (Nat.succ_pred_eq_of_pos (Nat.pos_of_ne_zero ?_)).symm⟩
          rintro rfl
          rw [Nat.pow_zero] at hgt
          exact Int32.lt_irrefl hgt
        have hle : b ≤ b ^ (e + 1) := Nat.le_self_pow (by omega) b
        have hsmaller : b ^ e < 2 ^ 31 :=
          lt_of_le_of_lt (Nat.pow_le_pow_right (by omega) (Nat.le_succ e)) hfits
        have hmod : Int32.ofNat (b ^ (e + 1)) % Int32.ofNat b = 0 := by
          rw [← Int32.ofNat_mod hfits (by omega), Nat.pow_succ, Nat.mul_mod_left]
          rfl
        have hdiv : Int32.ofNat (b ^ (e + 1)) / Int32.ofNat b = Int32.ofNat (b ^ e) := by
          rw [← Int32.ofNat_div hfits (by omega), Nat.pow_succ, Nat.mul_div_cancel _ (by omega)]
        rw [if_neg (ofNat_ne_zero_one hb (by omega)).1, if_neg (not_not.mpr hmod), hdiv]
        exact ih e hsmaller
      case isFalse => simp

/-- The digits of a power are found. -/
theorem countDigits_returns {b e : Nat} (hb : 2 ≤ b) (hpow : b ^ e < 2 ^ 31) :
    ∀ k digits, digits + k = e → Returns (fun fuel =>
      countDigits (Int32.ofNat (b ^ e)) (Int32.ofNat b) fuel digits) e := by
  intro k
  induction k with
  | zero =>
      rintro digits rfl
      refine .next (fun fuel => ?_) (.done digits)
      rw [countDigits, getPower_ofNat, Nat.add_zero, if_neg Int32.lt_irrefl]
  | succ k ih =>
      intro digits hdigits
      have hlt : b ^ digits < b ^ e := Nat.pow_lt_pow_right (by omega) (by omega)
      refine .next (fun fuel => ?_) (ih (digits + 1) (by omega))
      rw [countDigits, getPower_ofNat,
        if_pos ((Int32.ofNat_lt_iff_lt (by omega) hpow).mpr hlt)]

/-! ## The powers that are computed -/

/-- The calls `getPower(base,digits)` of the loop that counts the digits. -/
def countDigitsCalls (n base : Int32) : Nat → Nat → List (Int32 × Nat)
  | 0, _ => []
  | fuel + 1, digits =>
    (base, digits) ::
      if n > getPower base digits then countDigitsCalls n base fuel (digits + 1) else []

/-- No product of a call of `getPower` leaves the `int`s. -/
def FitsInt (call : Int32 × Nat) : Prop :=
  ∀ k ≤ call.2, -2 ^ 31 ≤ call.1.toInt ^ k ∧ call.1.toInt ^ k < 2 ^ 31

theorem fitsInt_ofNat {b e : Nat} (hb : 2 ≤ b) (hb' : b < 2 ^ 31) :
    FitsInt (Int32.ofNat b, e) ↔ b ^ e < 2 ^ 31 := by
  have hvalue : ∀ k, (Int32.ofNat b).toInt ^ k = ((b ^ k : Nat) : Int) := by
    intro k
    rw [Int32.toInt_ofNat_of_lt hb', Int.natCast_pow]
  constructor
  · intro h
    have hlast := (h e le_rfl).2
    rw [hvalue] at hlast
    exact_mod_cast hlast
  · intro h k hk
    have hle : b ^ k ≤ b ^ e := Nat.pow_le_pow_right (by omega) hk
    show _ ≤ (Int32.ofNat b).toInt ^ k ∧ (Int32.ofNat b).toInt ^ k < _
    rw [hvalue]
    omega

/-- The number of digits that is found is one of the calls. -/
theorem mem_countDigitsCalls {n base : Int32} {d : Nat} :
    ∀ fuel digits, countDigits n base fuel digits = some d →
      (base, d) ∈ countDigitsCalls n base fuel digits := by
  intro fuel
  induction fuel with
  | zero =>
      intro digits h
      simp [countDigits] at h
  | succ fuel ih =>
      intro digits h
      rw [countDigits] at h
      rw [countDigitsCalls]
      split at h
      case isTrue hgt =>
        rw [if_pos hgt]
        exact List.mem_cons_of_mem _ (ih _ h)
      case isFalse =>
        obtain rfl := Option.some.inj h
        exact List.mem_cons_self

section

variable {n b : Nat}

/-- A power below `n` is followed by one that fits. -/
theorem fits_of_mem_countDigitsCalls (hb : 2 ≤ b) (hb' : b < 2 ^ 31) (hn : n < 2 ^ 31)
    (hproduct : n * b < 2 ^ 31) :
    ∀ fuel digits, b ^ digits < 2 ^ 31 →
      ∀ call ∈ countDigitsCalls (Int32.ofNat n) (Int32.ofNat b) fuel digits, FitsInt call := by
  intro fuel
  induction fuel with
  | zero => exact fun digits _ call hcall => absurd hcall List.not_mem_nil
  | succ fuel ih =>
      intro digits hfits call hcall
      rw [countDigitsCalls] at hcall
      rcases List.mem_cons.mp hcall with rfl | hcall
      · exact (fitsInt_ofNat hb hb').mpr hfits
      · split at hcall
        case isTrue hgt =>
          rw [getPower_ofNat] at hgt
          have hlt : b ^ digits < n := (Int32.ofNat_lt_iff_lt (by omega) hn).mp hgt
          refine ih (digits + 1) ?_ call hcall
          rw [Nat.pow_succ]
          exact lt_of_lt_of_le (Nat.mul_lt_mul_of_pos_right hlt (by omega)) hproduct.le
        case isFalse => exact absurd hcall List.not_mem_nil

/-- The loop ends, by induction on how far the power is from `n`. -/
theorem countDigits_ends (hb : 2 ≤ b) (hn : n < 2 ^ 31) (hproduct : n * b < 2 ^ 31) :
    ∀ k digits, b ^ digits < 2 ^ 31 → n - b ^ digits ≤ k → ∃ d, Returns (fun fuel =>
      countDigits (Int32.ofNat n) (Int32.ofNat b) fuel digits) d := by
  intro k
  induction k with
  | zero =>
      intro digits hfits hk
      refine ⟨digits, .next (fun fuel => ?_) (.done digits)⟩
      have hle : ¬ b ^ digits < n := by omega
      rw [countDigits, getPower_ofNat, if_neg]
      exact mt (Int32.ofNat_lt_iff_lt (by omega) hn).mp hle
  | succ k ih =>
      intro digits hfits hk
      by_cases hlt : b ^ digits < n
      · have hpos : 0 < b ^ digits := Nat.pow_pos (by omega)
        have hgrows : b ^ digits * 2 ≤ b ^ (digits + 1) := Nat.mul_le_mul_left _ hb
        have hnext : b ^ (digits + 1) < 2 ^ 31 := by
          rw [Nat.pow_succ]
          exact lt_of_lt_of_le (Nat.mul_lt_mul_of_pos_right hlt (by omega)) hproduct.le
        obtain ⟨d, hd⟩ := ih (digits + 1) hnext (by omega)
        refine ⟨d, .next (fun fuel => ?_) hd⟩
        rw [countDigits, getPower_ofNat, if_pos]
        exact (Int32.ofNat_lt_iff_lt (by omega) hn).mpr hlt
      · refine ⟨digits, .next (fun fuel => ?_) (.done digits)⟩
        rw [countDigits, getPower_ofNat, if_neg]
        exact mt (Int32.ofNat_lt_iff_lt (by omega) hn).mp hlt

end

end RayPlatform
