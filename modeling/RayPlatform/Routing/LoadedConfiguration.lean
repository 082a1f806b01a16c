import RayPlatform.Routing.Polytope
import RayPlatform.Routing.PowerLoops
import RayPlatform.Routing.Torus

/-!
# LoadedConfiguration

The configuration of the polytope and of the torus, up to the call of `start` that
clears the table of the loads. Both search an alphabet size for the degree that the
user provides, check that the number of ranks is a power of it and count its digits.

* `Parameters` — what the accepted sizes and lengths have in common: there are at most
  47104 ranks, as the searches end for no more, and the words have at most 15 symbols;
* `loadsFit_iff` — the table of the loads has a cell for each position and symbol exactly
  if the length times the size is at most 256, which fails for words of two symbols only;
* `Polytope.loads_fit_iff`, `Torus.loads_fit_iff` — the numbers of ranks and degrees for
  which this happens.
-/

namespace RayPlatform

open Lib

/-- What `configureGraph` does with the result of its search: a base and a number of digits,
or nothing if the number of ranks is not accepted. -/
def chooseParameters (search : Option Int32) (fuel : Nat) (n : Int32) :
    Option (Option (Int32 × Nat)) := do
  let base ← search
  if ← isAPowerOf base fuel n then
    let digits ← countDigits n base fuel 1
    return some (base, digits)
  else return none

theorem chooseParameters_eq_some {search : Option Int32} {fuel d : Nat} {n base : Int32}
    (h : chooseParameters search fuel n = some (some (base, d))) :
    search = some base ∧ isAPowerOf base fuel n = some true ∧
      countDigits n base fuel 1 = some d := by
  obtain ⟨base', hbase, h⟩ := Option.bind_eq_some_iff.mp h
  obtain ⟨power, hpower, h⟩ := Option.bind_eq_some_iff.mp h
  cases power with
  | false => cases Option.some.inj h
  | true =>
      obtain ⟨digits, hdigits, h⟩ := Option.bind_eq_some_iff.mp h
      cases Option.some.inj (Option.some.inj h)
      exact ⟨hbase, hpower, hdigits⟩

/-- An alphabet size of which the number of ranks is the power that is counted, as far as `int`s
tell, and that has the degree of the user. -/
def Matches (degreeOf : Int32 → Nat → Int32) (fuel : Nat) (m_degree n : Int32) (a : Nat) :
    Prop :=
  ∃ digits, countDigits n (Int32.ofNat a) fuel 1 = some digits ∧
    n = getPower (Int32.ofNat a) digits ∧ degreeOf (Int32.ofNat a) digits = m_degree

/-! ## Accepted parameters -/

/-- The size and the length of the words of an accepted number of ranks. -/
structure Parameters (n : Int32) (b d : Nat) : Prop where
  two_le : 2 ≤ b
  proper : b = 2 ∨ b < n.toNatClampNeg
  power : PowerOf n b d
  few : n.toNatClampNeg ≤ 47104

namespace Parameters

variable {n : Int32} {b d : Nat}

/-- Words of one symbol are for two ranks at most. -/
theorem cases (h : Parameters n b d) :
    (b = 2 ∧ d = 1) ∨ (2 ≤ d ∧ n.toNatClampNeg = b ^ d) := by
  rcases Nat.lt_or_ge n.toNatClampNeg 2 with hlt | hge
  · have htwo := h.two_le
    have hproper := h.proper
    exact .inl ⟨by omega, h.power.single hlt⟩
  · have hfull := h.power.full hge
    rcases Nat.lt_or_ge d 2 with hone | htwo
    · have hd : d = 1 := by
        have := h.power.digits
        omega
      rw [hd, Nat.pow_one] at hfull
      have hproper := h.proper
      exact .inl ⟨by omega, hd⟩
    · exact .inr ⟨htwo, hfull⟩

theorem length_le (h : Parameters n b d) : d ≤ 15 := by
  rcases h.cases with ⟨-, hd⟩ | ⟨-, hpow⟩
  · omega
  · by_contra hlong
    have hbase : 2 ^ d ≤ b ^ d := Nat.pow_le_pow_left h.two_le d
    have hexp : 2 ^ 16 ≤ 2 ^ d := Nat.pow_le_pow_right (by omega) (by omega)
    have := h.few
    omega

/-- The table is too small for words of two symbols only. -/
theorem long_of_not_fits (h : Parameters n b d) (hlarge : 256 < d * b) :
    d = 2 ∧ 128 < b ∧ n.toNatClampNeg = b ^ 2 := by
  rcases h.cases with ⟨rfl, rfl⟩ | ⟨htwo, hpow⟩
  · omega
  · have hfew := h.few
    rw [hpow] at hfew
    have hlength := h.length_le
    rcases htwo.eq_or_lt with rfl | hmore
    · exact ⟨rfl, by omega, hpow⟩
    · exfalso
      -- a longer word needs a size whose power is beyond all accepted numbers
      have hroot : ∀ k, k ≤ b → k ^ d ≤ 47104 := fun k hk =>
        (Nat.pow_le_pow_left hk d).trans hfew
      interval_cases d
      · exact absurd (hroot 86 (by omega)) (by decide)
      · exact absurd (hroot 65 (by omega)) (by decide)
      · exact absurd (hroot 52 (by omega)) (by decide)
      · exact absurd (hroot 43 (by omega)) (by decide)
      · exact absurd (hroot 37 (by omega)) (by decide)
      · exact absurd (hroot 33 (by omega)) (by decide)
      · exact absurd (hroot 29 (by omega)) (by decide)
      · exact absurd (hroot 26 (by omega)) (by decide)
      · exact absurd (hroot 24 (by omega)) (by decide)
      · exact absurd (hroot 22 (by omega)) (by decide)
      · exact absurd (hroot 20 (by omega)) (by decide)
      · exact absurd (hroot 19 (by omega)) (by decide)
      · exact absurd (hroot 18 (by omega)) (by decide)

/-- The symbols fit a cell of a tuple. -/
theorem size_le (h : Parameters n b d) : b ≤ 217 := by
  rcases h.cases with ⟨rfl, -⟩ | ⟨htwo, hpow⟩
  · omega
  · by_contra hlarge
    have hbase : b ^ 2 ≤ b ^ d := Nat.pow_le_pow_right (by omega) htwo
    have hsquare : 218 ^ 2 ≤ b ^ 2 := Nat.pow_le_pow_left (by omega) 2
    have := h.few
    omega

end Parameters

/-! ## The table of the loads -/

/-- Each position and symbol has a cell of its own in the table. -/
structure LoadsFit (base : Int32) (digits : Nat) : Prop where
  inRange : ∀ position < digits, ∀ symbol < base.toNatClampNeg,
    loadCell base position (Int32.ofNat symbol) < 256
  distinct : ∀ position < digits, ∀ symbol < base.toNatClampNeg,
    ∀ position' < digits, ∀ symbol' < base.toNatClampNeg,
      loadCell base position (Int32.ofNat symbol) = loadCell base position' (Int32.ofNat symbol') →
        position = position' ∧ symbol = symbol'

theorem loadCell_ofNat {b p v : Nat} (hb : b < 2 ^ 31) (hv : v < b) :
    loadCell (Int32.ofNat b) p (Int32.ofNat v) = v + p * b := by
  rw [loadCell, Int32.toNatClampNeg_ofNat_of_lt hb, Int32.toNatClampNeg_ofNat_of_lt (by omega),
    Nat.add_comm]

theorem loadsFit_iff {b d : Nat} (hb : 0 < b) (hb' : b < 2 ^ 31) (hd : 0 < d) :
    LoadsFit (Int32.ofNat b) d ↔ d * b ≤ 256 := by
  constructor
  · intro h
    have hlast := h.inRange (d - 1) (by omega) (b - 1)
      (by rw [Int32.toNatClampNeg_ofNat_of_lt hb']; omega)
    rw [loadCell_ofNat hb' (by omega)] at hlast
    obtain ⟨less, rfl⟩ : ∃ less, d = less + 1 := ⟨d - 1, by omega⟩
    rw [Nat.add_sub_cancel] at hlast
    rw [Nat.succ_mul]
    omega
  · intro hfits
    constructor
    · intro p hp v hv
      rw [Int32.toNatClampNeg_ofNat_of_lt hb'] at hv
      exact loadCell_lt hp hv hfits
    · intro p _ v hv p' _ v' hv' hcell
      rw [Int32.toNatClampNeg_ofNat_of_lt hb'] at hv hv'
      rw [loadCell_ofNat hb' hv, loadCell_ofNat hb' hv'] at hcell
      -- symbol and position are the remainder and the quotient of the cell
      have hsymbol := congrArg (· % b) hcell
      have hposition := congrArg (· / b) hcell
      simp only [Nat.add_mul_mod_self_right, Nat.mod_eq_of_lt hv, Nat.mod_eq_of_lt hv'] at hsymbol
      simp only [Nat.add_mul_div_right _ _ hb, Nat.div_eq_of_lt hv, Nat.div_eq_of_lt hv',
        Nat.zero_add] at hposition
      exact ⟨hposition, hsymbol⟩

theorem Parameters.loadsFit_iff {n : Int32} {b d : Nat} (h : Parameters n b d) :
    LoadsFit (Int32.ofNat b) d ↔ ¬ (d = 2 ∧ 128 < b ∧ n.toNatClampNeg = b ^ 2) := by
  have htwo := h.two_le
  have hsmall := h.size_le
  rw [RayPlatform.loadsFit_iff (by omega) (by omega) h.power.digits]
  constructor
  · rintro hfits ⟨rfl, hb, -⟩
    omega
  · intro hnot
    by_contra hlarge
    exact hnot (h.long_of_not_fits (by omega))

/-! ## What the searches find -/

/-- Beyond 47104 the loop over the digits never ends for the size 47104. -/
theorem few_of_counted {fuel : Nat} {n : Int32} (h : countDigits n 47104 fuel 1 ≠ none) :
    n.toNatClampNeg ≤ 47104 := by
  by_contra hmany
  refine h (Polytope.countDigits_47104 ?_ fuel 0)
  rw [Int32.lt_iff_toInt_lt]
  rw [Int32.toNatClampNeg] at hmany
  have h47104 : (47104 : Int32).toInt = 47104 := rfl
  omega

/-- The sizes that are searched are below the number of ranks. -/
theorem toNatClampNeg_sub_one {n : Int32} (hn : 1 ≤ n) :
    (n - 1).toNatClampNeg = n.toNatClampNeg - 1 := by
  have hone : (1 : Int32).toInt = 1 := rfl
  have hge := Int32.le_iff_toInt_le.mp hn
  have hlt := Int32.toInt_lt n
  rw [Int32.toNatClampNeg, Int32.toNatClampNeg, Int32.toInt_sub, hone,
    Int.bmod_eq_of_le (by omega) (by omega)]
  omega

namespace Polytope

/-- each of the words has one edge for each other symbol -/
def degreeOf (size : Int32) (digits : Nat) : Int32 :=
  (size - 1) * Int32.ofNat digits

def chooseParameters (fuel : Nat) (m_degree n : Int32) : Option (Option (Int32 × Nat)) :=
  RayPlatform.chooseParameters (searchAlphabetSize fuel m_degree n (n - 1).toNatClampNeg 2) fuel n

/-- `configureGraph` chooses the parameters and then clears the loads. -/
theorem configureGraph_eq (fuel : Nat) (m_degree n : Int32) :
    configureGraph fuel m_degree n = (chooseParameters fuel m_degree n).bind fun parameters =>
      match parameters with
      | some (base, digits) => (startLoads base digits).map fun loads =>
          { m_loadValues := loads, m_alphabetSize := base, m_wordLength := digits, m_size := n }
      | none => some {
          m_loadValues := Vector.replicate 256 0
          m_alphabetSize := -1
          m_wordLength := 0
          m_size := 0 } := by
  unfold configureGraph chooseParameters RayPlatform.chooseParameters
  cases searchAlphabetSize fuel m_degree n (n - 1).toNatClampNeg 2 with
  | none => rfl
  | some base =>
      simp only [Option.bind_eq_bind, Option.bind_some]
      cases isAPowerOf base fuel n with
      | none => rfl
      | some power =>
          cases power with
          | false => rfl
          | true =>
              simp only [Option.bind_some, if_true]
              cases countDigits n base fuel 1 with
              | none => rfl
              | some digits => cases hloads : startLoads base digits <;> simp [hloads]

/-- The search ends with a match if there is one. -/
theorem searchAlphabetSize_cases {fuel : Nat} {m_degree n base' : Int32} :
    ∀ m base, searchAlphabetSize fuel m_degree n m base = some base' →
      (base' = base ∧ ∀ a, 2 ≤ a → a ≤ m → ¬ Matches degreeOf fuel m_degree n a) ∨
        ∃ a, 2 ≤ a ∧ a ≤ m ∧ base' = Int32.ofNat a ∧ Matches degreeOf fuel m_degree n a := by
  intro m
  induction m with
  | zero =>
      intro base h
      exact .inl ⟨(Option.some.inj h).symm, fun a h2 ha => by omega⟩
  | succ m ih =>
      intro base h
      rw [searchAlphabetSize] at h
      split at h
      case isTrue hlt => exact .inl ⟨(Option.some.inj h).symm, fun a h2 ha => by omega⟩
      case isFalse hge =>
        obtain ⟨digits, hcount, h⟩ := Option.bind_eq_some_iff.mp h
        rcases ih _ h with ⟨hbase, hnone⟩ | ⟨a, h2, ha, hbase, hmatch⟩
        · split at hbase
          case isTrue hsame =>
            exact .inr ⟨m + 1, by omega, le_rfl, hbase, digits, hcount, hsame.1, hsame.2⟩
          case isFalse hother =>
            refine .inl ⟨hbase, fun a h2 ha => ?_⟩
            rcases Nat.lt_or_ge m a with hlt | hle
            · obtain rfl : a = m + 1 := by omega
              rintro ⟨digits', hcount', hpow, hdegree⟩
              obtain rfl := Option.some.inj (hcount.symm.trans hcount')
              exact hother ⟨hpow, hdegree⟩
            · exact hnone a h2 hle
        · exact .inr ⟨a, h2, by omega, hbase, hmatch⟩

/-- What is accepted has parameters. -/
theorem parameters_of_chooseParameters {fuel d : Nat} {m_degree n base : Int32} (hn : 1 ≤ n)
    (h : chooseParameters fuel m_degree n = some (some (base, d))) :
    ∃ b, base = Int32.ofNat b ∧ Parameters n b d := by
  obtain ⟨hbase, hpower, hdigits⟩ := chooseParameters_eq_some h
  have hsub := toNatClampNeg_sub_one hn
  have hmax := Int32.toNatClampNeg_lt n
  obtain ⟨hcounts, hbase⟩ := searchAlphabetSize_spec _ _ hbase
  have hfew : n.toNatClampNeg ≤ 47104 := by
    by_contra hmany
    exact absurd (few_of_counted (hcounts 47104 (by omega) (by omega))) hmany
  rcases hbase with rfl | ⟨a, h2, ha, rfl⟩
  · exact ⟨2, rfl, le_rfl, .inl rfl,
      powerOf_of_isAPowerOf (b := 2) le_rfl (by decide) hpower hdigits, hfew⟩
  · exact ⟨a, rfl, h2, .inr (by omega),
      powerOf_of_isAPowerOf h2 (by omega) hpower hdigits, hfew⟩

end Polytope

namespace Torus

/-- for each dimension we can go left and right -/
def degreeOf (_size : Int32) (dimension : Nat) : Int32 :=
  2 * Int32.ofNat dimension

def chooseParameters (fuel : Nat) (m_degree vertices : Int32) :
    Option (Option (Int32 × Nat)) :=
  RayPlatform.chooseParameters (searchRadix fuel m_degree vertices (vertices - 1).toNatClampNeg)
    fuel vertices

/-- `configureGraph` chooses the parameters and then clears the loads. -/
theorem configureGraph_eq (fuel : Nat) (m_degree n : Int32) :
    configureGraph fuel m_degree n = (chooseParameters fuel m_degree n).bind fun parameters =>
      match parameters with
      | some (theRadix, dimension) => (startLoads theRadix dimension).map fun loads =>
          { m_loadValues := loads, m_radix := theRadix, m_dimension := dimension, m_size := n }
      | none => some {
          m_loadValues := Vector.replicate 256 0
          m_radix := -1
          m_dimension := 0
          m_size := 0 } := by
  unfold configureGraph chooseParameters RayPlatform.chooseParameters
  cases searchRadix fuel m_degree n (n - 1).toNatClampNeg with
  | none => rfl
  | some theRadix =>
      simp only [Option.bind_eq_bind, Option.bind_some]
      cases isAPowerOf theRadix fuel n with
      | none => rfl
      | some power =>
          cases power with
          | false => rfl
          | true =>
              simp only [Option.bind_some, if_true]
              cases countDigits n theRadix fuel 1 with
              | none => rfl
              | some dimension => cases hloads : startLoads theRadix dimension <;> simp [hloads]

/-- The first match of the search downwards is the greatest. The dimensions of the radices
down to it have all been counted. -/
theorem searchRadix_cases {fuel : Nat} {m_degree n theRadix : Int32} :
    ∀ m, searchRadix fuel m_degree n m = some theRadix →
      ∃ a, (∀ a', 2 ≤ a' → a < a' → a' ≤ m → countDigits n (Int32.ofNat a') fuel 1 ≠ none ∧
          ¬ Matches degreeOf fuel m_degree n a') ∧
        ((theRadix = 2 ∧ a < 2) ∨
          2 ≤ a ∧ a ≤ m ∧ theRadix = Int32.ofNat a ∧ Matches degreeOf fuel m_degree n a) := by
  intro m
  induction m with
  | zero =>
      intro h
      exact ⟨0, fun a' h2 _ ha' => by omega, .inl ⟨(Option.some.inj h).symm, by omega⟩⟩
  | succ m ih =>
      intro h
      rw [searchRadix] at h
      split at h
      case isTrue hlt =>
        exact ⟨0, fun a' h2 _ ha' => by omega, .inl ⟨(Option.some.inj h).symm, by omega⟩⟩
      case isFalse hge =>
        obtain ⟨dimension, hcount, h⟩ := Option.bind_eq_some_iff.mp h
        split at h
        case isTrue hsame =>
          exact ⟨m + 1, fun a' _ hlt hle => by omega, .inr ⟨by omega, le_rfl,
            (Option.some.inj h).symm, dimension, hcount, hsame.1, hsame.2⟩⟩
        case isFalse hother =>
          obtain ⟨a, habove, hcase⟩ := ih h
          refine ⟨a, fun a' h2 hlt hle => ?_, ?_⟩
          · rcases Nat.lt_or_ge m a' with hlast | hbelow
            · obtain rfl : a' = m + 1 := by omega
              refine ⟨by rw [hcount]; exact Option.some_ne_none _, ?_⟩
              rintro ⟨dimension', hcount', hpow, hdegree⟩
              obtain rfl := Option.some.inj (hcount.symm.trans hcount')
              exact hother ⟨hpow, hdegree⟩
            · exact habove a' h2 hlt hbelow
          · rcases hcase with hdefault | ⟨h2, hle, hrest⟩
            · exact .inl hdefault
            · exact .inr ⟨h2, by omega, hrest⟩

/-- What is accepted has parameters. -/
theorem parameters_of_chooseParameters {fuel d : Nat} {m_degree n theRadix : Int32}
    (hn : 1 ≤ n) (h : chooseParameters fuel m_degree n = some (some (theRadix, d))) :
    ∃ r, theRadix = Int32.ofNat r ∧ Parameters n r d := by
  obtain ⟨hradix, hpower, hdigits⟩ := chooseParameters_eq_some h
  have hsub := toNatClampNeg_sub_one hn
  have hmax := Int32.toNatClampNeg_lt n
  obtain ⟨a, habove, hcase⟩ := searchRadix_cases _ hradix
  -- below 47104 the search has counted the digits for 47104
  have hfew : a < 47104 → n.toNatClampNeg ≤ 47104 := by
    intro ha
    by_contra hmany
    exact absurd (few_of_counted (habove 47104 (by omega) ha (by omega)).1) hmany
  rcases hcase with ⟨rfl, ha⟩ | ⟨h2, ha, rfl, hmatch⟩
  · exact ⟨2, rfl, le_rfl, .inl rfl,
      powerOf_of_isAPowerOf (b := 2) le_rfl (by decide) hpower hdigits, hfew (by omega)⟩
  · have hpow := powerOf_of_isAPowerOf h2 (by omega) hpower hdigits
    refine ⟨a, rfl, h2, .inr (by omega), hpow, ?_⟩
    rcases Nat.lt_or_ge a 47104 with hlt | hge
    · exact hfew hlt
    · -- the square of a greater radix is no number of ranks
      exfalso
      have hfull := hpow.full (by omega)
      have hlong : 2 ≤ d := by
        by_contra hshort
        have hone : d = 1 := by
          have := hpow.digits
          omega
        rw [hone, Nat.pow_one] at hfull
        omega
      have hsquare : a ^ 2 ≤ a ^ d := Nat.pow_le_pow_right (by omega) hlong
      have hlarge : 47104 ^ 2 ≤ a ^ 2 := Nat.pow_le_pow_left hge 2
      omega

end Torus

/-! ## When the table is too small -/

/-- A longer word over a smaller alphabet has another degree. -/
theorem sq_lt_of_length {x w : Nat} (hx : 1 ≤ x) (hw : 3 ≤ w) :
    (2 + w * x) ^ 2 < 4 * (1 + x) ^ w := by
  induction w, hw using Nat.le_induction with
  | base =>
      have hcube : 1 ≤ x ^ 3 := Nat.one_le_pow _ _ hx
      nlinarith [hcube, sq_nonneg x]
  | succ w hw ih =>
      have hgrows : (2 + (w + 1) * x) ^ 2 ≤ (1 + x) * (2 + w * x) ^ 2 := by
        have hone : 1 ≤ w * x := Nat.mul_pos (by omega) hx
        nlinarith [Nat.mul_le_mul_left x hone, Nat.mul_le_mul_left (x * x) hone]
      calc (2 + (w + 1) * x) ^ 2 ≤ (1 + x) * (2 + w * x) ^ 2 := hgrows
        _ < (1 + x) * (4 * (1 + x) ^ w) := Nat.mul_lt_mul_of_pos_left ih (by omega)
        _ = 4 * (1 + x) ^ (w + 1) := by ring

/-- Where the digits are counted for the root of a square, there are two of them. -/
theorem countDigits_square {fuel : Nat} {n : Int32} {a : Nat} (ha : 2 ≤ a)
    (hn : n.toNatClampNeg = a ^ 2) (hcount : countDigits n (Int32.ofNat a) fuel 1 ≠ none) :
    countDigits n (Int32.ofNat a) fuel 1 = some 2 ∧ n = getPower (Int32.ofNat a) 2 := by
  have hmax := Int32.toNatClampNeg_lt n
  have hpos : 1 ≤ a ^ 2 := Nat.pow_pos (by omega)
  have hge : 0 ≤ n := by
    rw [Int32.le_iff_toInt_le]
    have hzero : (0 : Int32).toInt = 0 := rfl
    rw [Int32.toNatClampNeg] at hn
    omega
  have hvalue : n = Int32.ofNat (a ^ 2) := by
    rw [← hn, Int32.ofNat_toNatClampNeg n hge]
  obtain ⟨d, hd⟩ := Option.ne_none_iff_exists'.mp hcount
  rw [hvalue] at hd
  obtain rfl := countDigits_spec ha (by omega) fuel 1 d (by omega) hd
  exact ⟨hvalue ▸ hd, by rw [getPower_ofNat, hvalue]⟩

namespace Polytope

theorem degreeOf_ofNat {b d : Nat} (hb : 1 ≤ b) :
    degreeOf (Int32.ofNat b) d = Int32.ofNat ((b - 1) * d) := by
  rw [degreeOf, Int32.ofNat_mul, Int32.ofNat_sub b 1 hb]
  rfl

/-- The chosen size has the degree of the user, unless it is the default and none has. -/
theorem degree_of_chooseParameters {fuel b d : Nat} {m_degree n : Int32} (hb : b < 2 ^ 31)
    (hn : 1 ≤ n) (h : chooseParameters fuel m_degree n = some (some (Int32.ofNat b, d))) :
    m_degree = Int32.ofNat ((b - 1) * d) ∨
      (b = 2 ∧ ∀ a, 2 ≤ a → a < n.toNatClampNeg → ¬ Matches degreeOf fuel m_degree n a) := by
  obtain ⟨hbase, -, hdigits⟩ := chooseParameters_eq_some h
  have hmax := Int32.toNatClampNeg_lt n
  have hsub := toNatClampNeg_sub_one hn
  rcases searchAlphabetSize_cases _ _ hbase with ⟨heq, hnone⟩ | ⟨a, h2, ha, heq, hmatch⟩
  · have hvalue := congrArg Int32.toNatClampNeg heq
    rw [Int32.toNatClampNeg_ofNat_of_lt hb] at hvalue
    exact .inr ⟨hvalue, fun a h2 ha => hnone a h2 (by omega)⟩
  · have hvalue := congrArg Int32.toNatClampNeg heq
    rw [Int32.toNatClampNeg_ofNat_of_lt hb, Int32.toNatClampNeg_ofNat_of_lt (by omega)] at hvalue
    subst hvalue
    obtain ⟨digits, hcount, -, hdegree⟩ := hmatch
    obtain rfl := Option.some.inj (hcount.symm.trans hdigits)
    exact .inl (by rw [← hdegree, degreeOf_ofNat (by omega)])

/-- With two symbols a word, the sizes that the table cannot hold are the ones above 128. -/
theorem loads_fit_iff {fuel d : Nat} {m_degree n base : Int32} (hn : 1 ≤ n)
    (h : chooseParameters fuel m_degree n = some (some (base, d))) :
    LoadsFit base d ↔ ¬ ∃ a, 128 < a ∧ n.toNatClampNeg = a ^ 2 ∧
      m_degree = Int32.ofNat (2 * (a - 1)) := by
  obtain ⟨b, rfl, hparameters⟩ := parameters_of_chooseParameters hn h
  have hsmall := hparameters.size_le
  have htwo := hparameters.two_le
  have hfew := hparameters.few
  have hlength := hparameters.length_le
  rw [hparameters.loadsFit_iff, not_iff_not]
  constructor
  · rintro ⟨rfl, hb, hsquare⟩
    rcases degree_of_chooseParameters (by omega) hn h with hdegree | ⟨hdefault, -⟩
    · exact ⟨b, hb, hsquare, by rw [hdegree, Nat.mul_comm]⟩
    · omega
  · rintro ⟨a, ha, hsquare, hdegree⟩
    have ha' : a ≤ 217 := by
      by_contra hmore
      have : 218 ^ 2 ≤ a ^ 2 := Nat.pow_le_pow_left (by omega) 2
      omega
    -- the root of the number of ranks is one of the sizes that match
    have hroot : 128 * a ≤ a ^ 2 := by nlinarith
    have hmatch : Matches degreeOf fuel m_degree n a := by
      obtain ⟨hbase, -, -⟩ := chooseParameters_eq_some h
      have hsub := toNatClampNeg_sub_one hn
      have hcounts := (searchAlphabetSize_spec _ _ hbase).1 a (by omega) (by omega)
      obtain ⟨hcount, hpow⟩ := countDigits_square (by omega) hsquare hcounts
      exact ⟨2, hcount, hpow, by rw [degreeOf_ofNat (by omega), hdegree, Nat.mul_comm]⟩
    rcases hparameters.cases with ⟨rfl, rfl⟩ | ⟨hd, hpow⟩
    · -- two ranks are no such square
      have hfull := hparameters.power.le
      have : 129 ^ 2 ≤ a ^ 2 := Nat.pow_le_pow_left (by omega) 2
      omega
    · have hpowers : b ^ d = a ^ 2 := hpow.symm.trans hsquare
      have hequal : b = a := by
        by_contra hne
        have hbelow : b < a := by
          by_contra hge
          have hlt : a ^ 2 < b ^ 2 := Nat.pow_lt_pow_left (by omega) (by decide)
          have hle : b ^ 2 ≤ b ^ d := Nat.pow_le_pow_right (by omega) hd
          omega
        have hlong : 3 ≤ d := by
          by_contra hshort
          obtain rfl : d = 2 := by omega
          have hlt : b ^ 2 < a ^ 2 := Nat.pow_lt_pow_left hbelow (by decide)
          omega
        -- the chosen size has the same degree as the root
        have hsame : (b - 1) * d = 2 * (a - 1) := by
          rcases degree_of_chooseParameters (by omega) hn h with hown | ⟨-, hnone⟩
          · have hbound : (b - 1) * d ≤ 216 * 15 := Nat.mul_le_mul (by omega) hlength
            have hvalue := congrArg Int32.toNatClampNeg (hown.symm.trans hdegree)
            rwa [Int32.toNatClampNeg_ofNat_of_lt (by omega),
              Int32.toNatClampNeg_ofNat_of_lt (by omega)] at hvalue
          · exact absurd hmatch (hnone a (by omega) (by omega))
        have hlt := sq_lt_of_length (x := b - 1) (by omega) hlong
        rw [Nat.mul_comm d, hsame, show 1 + (b - 1) = b by omega,
          show 2 + 2 * (a - 1) = 2 * a by omega, hpowers] at hlt
        have : (2 * a) ^ 2 = 4 * a ^ 2 := by ring
        omega
      subst hequal
      have hd2 : d = 2 := Nat.pow_right_injective (by omega) hpowers
      exact ⟨hd2, ha, hsquare⟩

end Polytope

namespace Torus

/-- With two symbols a word, the radices that the table cannot hold are the ones above 128. -/
theorem loads_fit_iff {fuel d : Nat} {m_degree n theRadix : Int32} (hn : 1 ≤ n)
    (h : chooseParameters fuel m_degree n = some (some (theRadix, d))) :
    LoadsFit theRadix d ↔ ¬ ∃ r, 128 < r ∧ n.toNatClampNeg = r ^ 2 ∧ m_degree = 4 := by
  obtain ⟨b, rfl, hparameters⟩ := parameters_of_chooseParameters hn h
  have hsmall := hparameters.size_le
  have htwo := hparameters.two_le
  obtain ⟨hradix, -, hdigits⟩ := chooseParameters_eq_some h
  have hsub := toNatClampNeg_sub_one hn
  have hmax := Int32.toNatClampNeg_lt n
  obtain ⟨a, habove, hcase⟩ := searchRadix_cases _ hradix
  rw [hparameters.loadsFit_iff, not_iff_not]
  constructor
  · rintro ⟨rfl, hb, hsquare⟩
    rcases hcase with ⟨hdefault, -⟩ | ⟨h2, ha, hfound, digits, hcount, -, hdegree⟩
    · have hvalue := congrArg Int32.toNatClampNeg hdefault
      rw [Int32.toNatClampNeg_ofNat_of_lt (by omega),
        show (2 : Int32).toNatClampNeg = 2 from rfl] at hvalue
      omega
    · rw [← hfound] at hcount
      obtain rfl := Option.some.inj (hcount.symm.trans hdigits)
      exact ⟨b, hb, hsquare, hdegree.symm⟩
  · rintro ⟨r, hr, hsquare, rfl⟩
    have hroot : 128 * r ≤ r ^ 2 := by nlinarith
    -- the search has not passed the root of the number of ranks
    have hge : r ≤ a := by
      by_contra hlt
      obtain ⟨hcounted, hnot⟩ := habove r (by omega) (by omega) (by omega)
      obtain ⟨hcount, hpow⟩ := countDigits_square (by omega) hsquare hcounted
      exact hnot ⟨2, hcount, hpow, rfl⟩
    rcases hcase with ⟨-, hsmall⟩ | ⟨h2, ha, hfound, -⟩
    · omega
    · have hvalue := congrArg Int32.toNatClampNeg hfound
      rw [Int32.toNatClampNeg_ofNat_of_lt (by omega),
        Int32.toNatClampNeg_ofNat_of_lt (by omega)] at hvalue
      subst hvalue
      rcases hparameters.cases with ⟨rfl, -⟩ | ⟨hd, hpow⟩
      · omega
      · have hequal : b = r := by
          by_contra hne
          have hlt : r ^ 2 < b ^ 2 := Nat.pow_lt_pow_left (by omega) (by decide)
          have hle : b ^ 2 ≤ b ^ d := Nat.pow_le_pow_right (by omega) hd
          omega
        subst hequal
        have hd2 : d = 2 := Nat.pow_right_injective (by omega) (hpow.symm.trans hsquare)
        exact ⟨hd2, hr, hsquare⟩

end Torus

end RayPlatform
