import RayPlatform.Routing.GraphImplementationDeBruijn
import RayPlatform.Routing.PowerLoops

/-!
# DeBruijnConfiguration

When the loops of `configureGraph` of the de Bruijn graph end. The degree that the
user provides is the base of the first of them: a degree of 0 is divided by, and a
degree of 1 never makes the remaining number smaller.

* `isAPowerOf_zero`, `isAPowerOf_one` — these two never end; every other base ends the
  loop, negative ones too (`isAPowerOf_returns`);
* `configureGraph_returns` — then the configuration ends;
* `configures_iff` — and these are the only exceptions, unless there is one rank.
-/

namespace RayPlatform

open Lib

/-- A remainder by zero. -/
theorem isAPowerOf_zero {n : Int32} (hn : 1 < n) (fuel : Nat) : isAPowerOf 0 fuel n = none := by
  cases fuel with
  | zero => rfl
  | succ fuel => rw [isAPowerOf, if_pos hn, if_pos rfl]

/-- The loop divides by 1 for ever. -/
theorem isAPowerOf_one {n : Int32} (hn : 1 < n) (fuel : Nat) : isAPowerOf 1 fuel n = none := by
  induction fuel with
  | zero => rfl
  | succ fuel ih =>
      rw [isAPowerOf, if_pos hn, if_neg (by decide), if_neg (by simp), Int32.div_one, ih]

namespace GraphImplementationDeBruijn

theorem halveBase_returns {n : Int32} (hn : 0 < n) (maxBase : Int32) :
    ∃ m, Returns (fun fuel => halveBase n fuel maxBase) m := by
  induction hk : maxBase.toNatClampNeg using Nat.strongRecOn generalizing maxBase with
  | ind k ih =>
      by_cases hge : maxBase ≥ n
      · have hlt : (maxBase / 2).toNatClampNeg < maxBase.toNatClampNeg := by
          by_cases hone : 1 < maxBase
          · exact toNatClampNeg_div_lt hone (by decide) (by decide)
          · have hzero : (0 : Int32).toInt = 0 := rfl
            have hval : maxBase = 1 := by
              rw [Int32.lt_iff_toInt_lt] at hn hone
              rw [ge_iff_le, Int32.le_iff_toInt_le] at hge
              refine Int32.toInt_inj.mp ?_
              have : (1 : Int32).toInt = 1 := rfl
              omega
            rw [hval]
            decide
        obtain ⟨m, hm⟩ := ih _ (hk ▸ hlt) (maxBase / 2) rfl
        refine ⟨m, .next (fun fuel => ?_) hm⟩
        rw [halveBase, if_pos hge]
      · refine ⟨maxBase, .next (fun fuel => ?_) (.done maxBase)⟩
        rw [halveBase, if_neg hge]

theorem findBase_returns (n : Int32) (m : Nat) (hm : m < 2 ^ 31) :
    ∃ base, Returns (fun fuel => findBase fuel n m) base := by
  induction m with
  | zero => exact ⟨-1, .done (-1)⟩
  | succ i ih =>
      by_cases hi : i + 1 < 2
      · refine ⟨-1, Returns.congr (fun fuel => ?_) (.done (-1))⟩
        rw [findBase, if_pos hi]
      · have hbase := ofNat_ne_zero_one (b := i + 1) (by omega) hm
        have hround : ∀ fuel, findBase fuel n (i + 1) =
            (isAPowerOf (Int32.ofNat (i + 1)) fuel n).bind fun power =>
              if power then some (Int32.ofNat (i + 1)) else findBase fuel n i := by
          intro fuel
          rw [findBase, if_neg hi]
          rfl
        obtain ⟨power, hpower⟩ := isAPowerOf_returns hbase.1 hbase.2 n
        obtain ⟨base, hrest⟩ := ih (by omega)
        let rest : Bool → Nat → Option Int32 := fun power fuel =>
          if power then some (Int32.ofNat (i + 1)) else findBase fuel n i
        cases power with
        | true => exact ⟨_, Returns.congr hround (hpower.bind rest (.done _))⟩
        | false => exact ⟨base, Returns.congr hround (hpower.bind rest hrest)⟩

/-- The loops of `configureGraph`, one after the other. -/
theorem configureGraph_eq (fuel : Nat) (m_degree n : Int32) :
    configureGraph fuel m_degree n = (isAPowerOf m_degree fuel n).bind fun power =>
      (halveBase n fuel (if power then m_degree else 1024)).bind fun maxBase =>
        (findBase fuel n maxBase.toNatClampNeg).bind fun base =>
          if base = -1 then some { m_base := base, m_diameter := 0, m_size := 0 }
          else (countDigits n base fuel 1).bind fun digits =>
            some { m_base := base, m_diameter := digits, m_size := n } := by
  simp only [configureGraph, Option.bind_eq_bind, Option.pure_def]

/-- If the power of the degree ends, the rest does, for any positive number of ranks. -/
theorem configureGraph_returns {m_degree n : Int32} (hn : 0 < n) {power : Bool}
    (hpower : Returns (fun fuel => isAPowerOf m_degree fuel n) power) :
    ∃ c, Returns (fun fuel => configureGraph fuel m_degree n) c := by
  obtain ⟨m, hm⟩ := halveBase_returns hn (if power then m_degree else 1024)
  obtain ⟨base, hbase⟩ := findBase_returns n m.toNatClampNeg (Int32.toNatClampNeg_lt m)
  let count : Int32 → Nat → Option Configuration := fun base fuel =>
    if base = -1 then some { m_base := base, m_diameter := 0, m_size := 0 }
    else (countDigits n base fuel 1).bind fun digits =>
      some { m_base := base, m_diameter := digits, m_size := n }
  have hrest : ∀ c, Returns (count base) c →
      Returns (fun fuel => configureGraph fuel m_degree n) c := by
    intro c hc
    refine Returns.congr (fun fuel => configureGraph_eq fuel m_degree n) ?_
    exact hpower.bind (fun power fuel =>
      (halveBase n fuel (if power then m_degree else 1024)).bind fun maxBase =>
        (findBase fuel n maxBase.toNatClampNeg).bind fun base => count base fuel)
      (hm.bind (fun maxBase fuel => (findBase fuel n maxBase.toNatClampNeg).bind fun base =>
        count base fuel) (hbase.bind count hc))
  by_cases hnone : base = -1
  · exact ⟨_, hrest _ (Returns.congr (fun fuel => if_pos hnone) (.done _))⟩
  · obtain ⟨fuel, hfuel⟩ := hbase.exists_eq
    obtain ⟨b, htwo, hle, rfl, hb⟩ := findBase_spec hnone _ hfuel
    obtain ⟨fuel', hfuel'⟩ := hm.exists_eq
    have hlt := halveBase_lt _ _ _ hfuel'
    rw [Int32.lt_iff_toInt_lt] at hn hlt
    have hzero : (0 : Int32).toInt = 0 := rfl
    have hmax := Int32.toNatClampNeg_lt n
    simp only [Int32.toNatClampNeg] at hle hmax
    have hn' : n = Int32.ofNat n.toNatClampNeg := by
      rw [Int32.ofNat_toNatClampNeg n (Int32.le_iff_toInt_le.mpr (by omega))]
    rw [hn'] at hb
    obtain ⟨e, he⟩ := isAPowerOf_spec htwo (by omega) fuel n.toNatClampNeg
      (by simp only [Int32.toNatClampNeg]; omega) (Int32.toNatClampNeg_lt n) hb
    have hpos : e ≠ 0 := by
      rintro rfl
      rw [Nat.pow_zero] at he
      simp only [Int32.toNatClampNeg] at he
      omega
    have hdigits := countDigits_returns htwo (he ▸ Int32.toNatClampNeg_lt n) (e - 1) 1
      (by omega)
    rw [← he, ← hn'] at hdigits
    let found : Nat → Nat → Option Configuration := fun digits _ =>
      some { m_base := Int32.ofNat b, m_diameter := digits, m_size := n }
    exact ⟨_, hrest _ (Returns.congr (fun fuel => if_neg hnone) (hdigits.bind found (.done _)))⟩

/-- The configuration is total: both functions end, and an accepted number of ranks is the
power that was found. -/
def Configures (m_degree n : Int32) : Prop :=
  ∃ c, Returns (fun fuel => configureGraph fuel m_degree n) c ∧
    Returns (fun fuel => isValid fuel m_degree n) (c.m_base ≠ -1) ∧
    (c.m_base ≠ -1 → c.m_base.toNatClampNeg ^ c.m_diameter = n.toNatClampNeg)

theorem configures_of_returns {m_degree n : Int32} {c : Configuration}
    (h : Returns (fun fuel => configureGraph fuel m_degree n) c) : Configures m_degree n := by
  refine ⟨c, h, ?_, fun haccepted => ?_⟩
  · refine Returns.congr (fun fuel => ?_) (h.bind (fun c _ => some (decide (c.m_base ≠ -1)))
      (.done _))
    simp only [isValid, Option.bind_eq_bind, Option.pure_def]
  · obtain ⟨fuel, hfuel⟩ := h.exists_eq
    obtain ⟨b, d, ha⟩ := configureGraph_spec hfuel haccepted
    have hle : b ≤ b ^ d := Nat.le_self_pow (by have := ha.digits; omega) b
    have hfits := ha.fits
    rw [ha.size, ha.configured, Int32.toNatClampNeg_ofNat_of_lt hfits]
    show (Int32.ofNat b).toNatClampNeg ^ d = _
    rw [Int32.toNatClampNeg_ofNat_of_lt (by omega)]

/-- With two ranks or more the degrees 0 and 1 are the ones that do not configure. -/
theorem configures_iff {m_degree n : Int32} (hn : 1 ≤ n) :
    Configures m_degree n ↔ n = 1 ∨ (m_degree ≠ 0 ∧ m_degree ≠ 1) := by
  have hpos : 0 < n := Int32.lt_of_lt_of_le (by decide) hn
  constructor
  · rintro ⟨c, hc, -⟩
    by_contra hnot
    rw [not_or, not_and_or, not_not, not_not] at hnot
    obtain ⟨hne, hdegree⟩ := hnot
    have hgt : 1 < n := Int32.lt_of_le_of_ne hn (Ne.symm hne)
    have hnone : ∀ fuel, configureGraph fuel m_degree n = none := by
      intro fuel
      rw [configureGraph_eq]
      rcases hdegree with rfl | rfl
      · rw [isAPowerOf_zero hgt]
        rfl
      · rw [isAPowerOf_one hgt]
        rfl
    exact Returns.not_of_none hnone hc
  · intro hdegree
    have hpower : ∃ power, Returns (fun fuel => isAPowerOf m_degree fuel n) power := by
      rcases hdegree with rfl | ⟨hzero, hone⟩
      · refine ⟨true, .next (fun fuel => ?_) (.done true)⟩
        rw [isAPowerOf, if_neg (by decide)]
      · exact isAPowerOf_returns hzero hone n
    obtain ⟨power, hpower⟩ := hpower
    obtain ⟨c, hc⟩ := configureGraph_returns hpos hpower
    exact configures_of_returns hc

theorem configures_iff_four : Configures 2 4 :=
  (configures_iff (by decide)).mpr (.inr ⟨by decide, by decide⟩)

/-- A degree of 0 divides by zero, a degree of 1 loops. -/
theorem not_configures_four : ¬ Configures 0 4 ∧ ¬ Configures 1 4 := by
  refine ⟨?_, ?_⟩
  · rintro ⟨c, hc, -⟩
    refine Returns.not_of_none (fun fuel => ?_) hc
    rw [configureGraph_eq, isAPowerOf_zero (by decide)]
    rfl
  · rintro ⟨c, hc, -⟩
    refine Returns.not_of_none (fun fuel => ?_) hc
    rw [configureGraph_eq, isAPowerOf_one (by decide)]
    rfl

end GraphImplementationDeBruijn

end RayPlatform
