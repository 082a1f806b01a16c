import RayPlatform.Routing.LoadedConfiguration

/-!
# Exactness of the loaded configurations

Which numbers of ranks the searches of the polytope and of the torus handle without an error
in an `int`.

* `Exact` — the configuration ends, all powers that it computes are `int`s, and the power of
  what it chooses is the number of ranks;
* `Polytope.exact_iff`, `Torus.exact_iff` — this is so from 2 to 46341 ranks, and the searches
  multiply beyond the `int`s from there on;
* `Polytope.accepts_square`, `Torus.accepts_square` — squares of large numbers are accepted
  with words of two symbols, for which the table of the loads is too small.
-/

namespace RayPlatform

open Lib

/-! ## The powers that are computed -/

/-- The calls of `getPower` in a search downwards, which may stop at a size. -/
def searchCalls (stopsAt : Int32 → Nat → Bool) (fuel : Nat) (n : Int32) : Nat → List (Int32 × Nat)
  | 0 => []
  | a + 1 =>
    if a + 1 < 2 then []
    else
      let size := Int32.ofNat (a + 1)
      countDigitsCalls n size fuel 1 ++
        match countDigits n size fuel 1 with
        | none => []
        | some digits =>
          (size, digits) :: if stopsAt size digits then [] else searchCalls stopsAt fuel n a

/-- The calls of `getPower` after the search. -/
def choiceCalls (search : Option Int32) (fuel : Nat) (n : Int32) : List (Int32 × Nat) :=
  match search with
  | none => []
  | some base =>
    if isAPowerOf base fuel n = some true then countDigitsCalls n base fuel 1 else []

/-- A configuration that ends, computes all powers as `int`s, and is exact. -/
structure Exact (n : Int32) (choose : Nat → Option (Option (Int32 × Nat)))
    (calls : Nat → List (Int32 × Nat)) : Prop where
  ends : ∃ parameters, Returns choose parameters ∧ ∀ base digits,
    parameters = some (base, digits) → base.toNatClampNeg ^ digits = n.toNatClampNeg
  fits : ∀ fuel, ∀ call ∈ calls fuel, FitsInt call

namespace Polytope

/-- All calls of `getPower` in `configureGraph`. -/
def powerCalls (m_degree n : Int32) (fuel : Nat) : List (Int32 × Nat) :=
  searchCalls (fun _ _ => false) fuel n (n - 1).toNatClampNeg ++
    choiceCalls (searchAlphabetSize fuel m_degree n (n - 1).toNatClampNeg 2) fuel n

end Polytope

namespace Torus

/-- All calls of `getPower` in `configureGraph`. -/
def powerCalls (m_degree n : Int32) (fuel : Nat) : List (Int32 × Nat) :=
  searchCalls (fun radix dimension => n = getPower radix dimension ∧
      2 * Int32.ofNat dimension = m_degree) fuel n (n - 1).toNatClampNeg ++
    choiceCalls (searchRadix fuel m_degree n (n - 1).toNatClampNeg) fuel n

end Torus

section

variable {N : Nat} {stopsAt : Int32 → Nat → Bool}

/-- The first power that is computed for the greatest size is beyond the `int`s. -/
theorem not_fits_searchCalls (stopsAt : Int32 → Nat → Bool) {n : Int32}
    (hn : 46341 < n.toNatClampNeg) :
    ∃ call ∈ searchCalls stopsAt 2 n (n.toNatClampNeg - 1), ¬ FitsInt call := by
  have hmax := Int32.toNatClampNeg_lt n
  obtain ⟨a, ha⟩ : ∃ a, n.toNatClampNeg = a + 2 := ⟨n.toNatClampNeg - 2, by omega⟩
  have hvalue : n = Int32.ofNat (a + 2) := by
    rw [← ha, Int32.ofNat_toNatClampNeg]
    rw [Int32.le_iff_toInt_le]
    have hzero : (0 : Int32).toInt = 0 := rfl
    rw [Int32.toNatClampNeg] at ha
    omega
  refine ⟨(Int32.ofNat (a + 1), 2), ?_, ?_⟩
  · rw [ha, show a + 2 - 1 = a + 1 from rfl, searchCalls, if_neg (by omega)]
    refine List.mem_append_left _ ?_
    have hlt : n > getPower (Int32.ofNat (a + 1)) 1 := by
      rw [getPower_ofNat, Nat.pow_one, hvalue]
      exact (Int32.ofNat_lt_iff_lt (by omega) (by omega)).mpr (by omega)
    rw [countDigitsCalls, if_pos hlt, countDigitsCalls]
    simp
  · rw [fitsInt_ofNat (by omega) (by omega)]
    have hsquare : 46341 ^ 2 ≤ (a + 1) ^ 2 := Nat.pow_le_pow_left (by omega) 2
    omega

/-- Up to 46341 ranks all calls of the search fit. -/
theorem fits_searchCalls (hN : N ≤ 46341) (fuel m : Nat) (hm : m < N) :
    ∀ call ∈ searchCalls stopsAt fuel (Int32.ofNat N) m, FitsInt call := by
  induction m with
  | zero => exact fun call hcall => absurd hcall List.not_mem_nil
  | succ a ih =>
      intro call hcall
      rw [searchCalls] at hcall
      split at hcall
      case isTrue => exact absurd hcall List.not_mem_nil
      case isFalse htwo =>
        have hproduct : N * (a + 1) < 2 ^ 31 :=
          lt_of_le_of_lt (Nat.mul_le_mul hN (show a + 1 ≤ 46340 by omega)) (by decide)
        have hcount := fits_of_mem_countDigitsCalls (n := N) (b := a + 1) (by omega) (by omega)
          (by omega) hproduct fuel 1 (by rw [Nat.pow_one]; omega)
        rcases List.mem_append.mp hcall with hcall | hcall
        · exact hcount call hcall
        · cases hdigits : countDigits (Int32.ofNat N) (Int32.ofNat (a + 1)) fuel 1 with
          | none =>
              simp only [hdigits] at hcall
              exact absurd hcall List.not_mem_nil
          | some digits =>
              simp only [hdigits] at hcall
              rcases List.mem_cons.mp hcall with rfl | hcall
              · exact hcount _ (mem_countDigitsCalls fuel 1 hdigits)
              · split at hcall
                · exact absurd hcall List.not_mem_nil
                · exact ih (by omega) call hcall

theorem mul_lt_of_below (hN : N ≤ 46341) {b : Nat} (hb : b ≤ 46340) : N * b < 2 ^ 31 :=
  lt_of_le_of_lt (Nat.mul_le_mul hN hb) (by decide)

/-- The calls after the search fit as well. -/
theorem fits_choiceCalls (htwo : 2 ≤ N) (hN : N ≤ 46341) {b : Nat}
    (hb : b = 2 ∨ (2 ≤ b ∧ b < N)) (fuel : Nat) :
    ∀ call ∈ choiceCalls (some (Int32.ofNat b)) fuel (Int32.ofNat N), FitsInt call := by
  intro call hcall
  unfold choiceCalls at hcall
  simp only at hcall
  split at hcall
  · exact fits_of_mem_countDigitsCalls (by omega) (by omega) (by omega)
      (mul_lt_of_below hN (by omega)) fuel 1 (by rw [Nat.pow_one]; omega) call hcall
  · exact absurd hcall List.not_mem_nil

/-- The choice ends with an exact power. -/
theorem choice_ends {search : Nat → Option Int32} {b : Nat} (htwo : 2 ≤ N) (hN : N ≤ 46341)
    (hb : b = 2 ∨ (2 ≤ b ∧ b < N)) (hsearch : Returns search (Int32.ofNat b)) :
    ∃ parameters,
      Returns (fun fuel => chooseParameters (search fuel) fuel (Int32.ofNat N)) parameters ∧
        ∀ base digits, parameters = some (base, digits) → base.toNatClampNeg ^ digits = N := by
  have hbase := ofNat_ne_zero_one (b := b) (by omega) (by omega)
  obtain ⟨power, hpower⟩ := isAPowerOf_returns hbase.1 hbase.2 (Int32.ofNat N)
  obtain ⟨d, hd⟩ := countDigits_ends (n := N) (b := b) (by omega) (by omega)
    (mul_lt_of_below hN (by omega)) N 1 (by rw [Nat.pow_one]; omega) (by omega)
  let count : Int32 → Bool → Nat → Option (Option (Int32 × Nat)) := fun base power fuel =>
    if power then (countDigits (Int32.ofNat N) base fuel 1).bind fun digits =>
      some (some (base, digits))
    else some none
  have hcount : ∃ parameters, Returns (count (Int32.ofNat b) power) parameters := by
    cases power with
    | false => exact ⟨none, .done none⟩
    | true => exact ⟨_, hd.bind (fun digits _ => some (some (Int32.ofNat b, digits))) (.done _)⟩
  obtain ⟨parameters, hparameters⟩ := hcount
  have hchoose : Returns (fun fuel => chooseParameters (search fuel) fuel (Int32.ofNat N))
      parameters :=
    hsearch.bind (fun base fuel => (isAPowerOf base fuel (Int32.ofNat N)).bind fun power =>
      count base power fuel) (hpower.bind (count (Int32.ofNat b)) hparameters)
  refine ⟨parameters, hchoose, ?_⟩
  rintro base digits rfl
  obtain ⟨fuel, hfuel, hfound⟩ := hchoose.exists_both hsearch
  obtain ⟨hbase, hisPower, hdigits⟩ := chooseParameters_eq_some hfuel
  obtain rfl := Option.some.inj (hfound.symm.trans hbase)
  have hpow := powerOf_of_isAPowerOf (by omega) (by omega) hisPower hdigits
  have hfull := hpow.full
  rw [Int32.toNatClampNeg_ofNat_of_lt (by omega)] at hfull ⊢
  exact (hfull htwo).symm
/-- The loop over the digits ends for each size that is searched. -/
theorem countDigits_below (hN : N ≤ 46341) {a : Nat} (htwo : 2 ≤ a) (ha : a < N) :
    ∃ d, Returns (fun fuel => countDigits (Int32.ofNat N) (Int32.ofNat a) fuel 1) d :=
  countDigits_ends htwo (by omega) (mul_lt_of_below hN (by omega)) N 1
    (by rw [Nat.pow_one]; omega) (by omega)

/-- One rank is accepted as one symbol out of two. -/
theorem choose_one {search : Nat → Option Int32} (hsearch : ∀ fuel, search fuel = some 2) :
    Returns (fun fuel => chooseParameters (search fuel) fuel 1) (some (2, 1)) := by
  have hround : ∀ fuel, chooseParameters (search (fuel + 1)) (fuel + 1) 1 = some (some (2, 1)) := by
    intro fuel
    rw [hsearch]
    rfl
  exact .next hround (.done _)

end

/-- With one rank the configuration is not exact, with more than 46341 it overflows. -/
theorem bounds_of_exact {n : Int32} (hn : 1 ≤ n) {search : Nat → Option Int32}
    {stopsAt : Int32 → Nat → Bool} (hone : n = 1 → ∀ fuel, search fuel = some 2)
    (h : Exact n (fun fuel => chooseParameters (search fuel) fuel n) fun fuel =>
      searchCalls stopsAt fuel n (n - 1).toNatClampNeg ++ choiceCalls (search fuel) fuel n) :
    2 ≤ n ∧ n ≤ 46341 := by
  have hge := Int32.le_iff_toInt_le.mp hn
  have hvalues : (1 : Int32).toInt = 1 ∧ (2 : Int32).toInt = 2 ∧ (46341 : Int32).toInt = 46341 :=
    ⟨rfl, rfl, rfl⟩
  constructor
  · by_contra hlt
    rw [Int32.le_iff_toInt_le] at hlt
    have heq : n = 1 := Int32.toInt_inj.mp (by omega)
    subst heq
    obtain ⟨parameters, hparameters, hexact⟩ := h.ends
    obtain rfl := hparameters.unique (choose_one (hone rfl))
    exact absurd (hexact 2 1 rfl) (by decide)
  · by_contra hlt
    rw [Int32.le_iff_toInt_le] at hlt
    obtain ⟨call, hcall, hnot⟩ := not_fits_searchCalls stopsAt (n := n)
      (by rw [Int32.toNatClampNeg]; omega)
    rw [← toNatClampNeg_sub_one hn] at hcall
    exact hnot (h.fits 2 call (List.mem_append_left _ hcall))

/-- A number between the bounds, as a natural number. -/
theorem exists_ofNat {n : Int32} (htwo : 2 ≤ n) (hle : n ≤ 46341) :
    ∃ N, n = Int32.ofNat N ∧ 2 ≤ N ∧ N ≤ 46341 ∧ (n - 1).toNatClampNeg = N - 1 := by
  have hvalues : (0 : Int32).toInt = 0 ∧ (1 : Int32).toInt = 1 ∧ (2 : Int32).toInt = 2 ∧
    (46341 : Int32).toInt = 46341 := ⟨rfl, rfl, rfl, rfl⟩
  rw [Int32.le_iff_toInt_le] at htwo hle
  have hpos : 0 ≤ n := Int32.le_iff_toInt_le.mpr (by omega)
  refine ⟨n.toNatClampNeg, (Int32.ofNat_toNatClampNeg n hpos).symm, ?_, ?_,
    toNatClampNeg_sub_one (Int32.le_iff_toInt_le.mpr (by omega))⟩
  · rw [Int32.toNatClampNeg]
    omega
  · rw [Int32.toNatClampNeg]
    omega

/-- Between the bounds a search that ends below the number of ranks makes an exact choice. -/
theorem exact_of_bounds {N : Nat} (htwo : 2 ≤ N) (hN : N ≤ 46341) {search : Nat → Option Int32}
    {stopsAt : Int32 → Nat → Bool} (hreturns : ∃ base, Returns search base)
    (hshape : ∀ fuel base, search fuel = some base →
      ∃ b, base = Int32.ofNat b ∧ (b = 2 ∨ (2 ≤ b ∧ b < N))) :
    Exact (Int32.ofNat N) (fun fuel => chooseParameters (search fuel) fuel (Int32.ofNat N))
      fun fuel => searchCalls stopsAt fuel (Int32.ofNat N) (N - 1) ++
        choiceCalls (search fuel) fuel (Int32.ofNat N) := by
  refine ⟨?_, fun fuel call hcall => ?_⟩
  · obtain ⟨base, hbase⟩ := hreturns
    obtain ⟨fuel, hfuel⟩ := hbase.exists_eq
    obtain ⟨b, rfl, hb⟩ := hshape fuel base hfuel
    rw [Int32.toNatClampNeg_ofNat_of_lt (by omega)]
    exact choice_ends htwo hN hb hbase
  · rcases List.mem_append.mp hcall with hcall | hcall
    · exact fits_searchCalls hN fuel (N - 1) (by omega) call hcall
    · cases hsearch : search fuel with
      | none =>
          rw [hsearch] at hcall
          exact absurd hcall List.not_mem_nil
      | some base =>
          rw [hsearch] at hcall
          obtain ⟨b, rfl, hb⟩ := hshape fuel base hsearch
          exact fits_choiceCalls htwo hN hb fuel call hcall

namespace Polytope

theorem searchAlphabetSize_returns {N : Nat} (hN : N ≤ 46341) (m_degree : Int32) (m : Nat)
    (hm : m < N) : ∀ base, ∃ base', Returns (fun fuel =>
      searchAlphabetSize fuel m_degree (Int32.ofNat N) m base) base' := by
  induction m with
  | zero => exact fun base => ⟨base, .done base⟩
  | succ a ih =>
      intro base
      by_cases htwo : a + 1 < 2
      · refine ⟨base, Returns.congr (fun fuel => ?_) (.done base)⟩
        rw [searchAlphabetSize, if_pos htwo]
      · obtain ⟨d, hd⟩ := countDigits_below hN (a := a + 1) (by omega) hm
        let size := Int32.ofNat (a + 1)
        let kept : Nat → Int32 := fun digits =>
          if Int32.ofNat N = getPower size digits ∧ (size - 1) * Int32.ofNat digits = m_degree then
            size
          else base
        obtain ⟨base', hrest⟩ := ih (by omega) (kept d)
        refine ⟨base', Returns.congr (fun fuel => ?_) (hd.bind (fun digits fuel =>
          searchAlphabetSize fuel m_degree (Int32.ofNat N) a (kept digits)) hrest)⟩
        rw [searchAlphabetSize, if_neg htwo]
        rfl

/-- The configuration of the polytope is exact for 2 up to 46341 ranks. -/
theorem exact_iff {m_degree n : Int32} (hn : 1 ≤ n) :
    Exact n (fun fuel => chooseParameters fuel m_degree n) (powerCalls m_degree n) ↔
      2 ≤ n ∧ n ≤ 46341 := by
  constructor
  · refine bounds_of_exact hn ?_
    rintro rfl fuel
    rfl
  · rintro ⟨htwo, hle⟩
    obtain ⟨N, rfl, htwo, hN, hsub⟩ := exists_ofNat htwo hle
    unfold chooseParameters powerCalls
    rw [hsub]
    refine exact_of_bounds htwo hN (searchAlphabetSize_returns hN m_degree (N - 1) (by omega) 2)
      fun fuel base' h => ?_
    rcases (searchAlphabetSize_spec _ _ h).2 with rfl | ⟨a, h2, ha, rfl⟩
    · exact ⟨2, rfl, .inl rfl⟩
    · exact ⟨a, rfl, .inr ⟨h2, by omega⟩⟩

end Polytope

namespace Torus

theorem searchRadix_returns {N : Nat} (hN : N ≤ 46341) (m_degree : Int32) (m : Nat)
    (hm : m < N) : ∃ theRadix, Returns (fun fuel =>
      searchRadix fuel m_degree (Int32.ofNat N) m) theRadix := by
  induction m with
  | zero => exact ⟨2, .done 2⟩
  | succ a ih =>
      by_cases htwo : a + 1 < 2
      · refine ⟨2, Returns.congr (fun fuel => ?_) (.done 2)⟩
        rw [searchRadix, if_pos htwo]
      · obtain ⟨d, hd⟩ := countDigits_below hN (a := a + 1) (by omega) hm
        let size := Int32.ofNat (a + 1)
        let rest : Nat → Nat → Option Int32 := fun dimension fuel =>
          if Int32.ofNat N = getPower size dimension ∧ 2 * Int32.ofNat dimension = m_degree then
            some size
          else searchRadix fuel m_degree (Int32.ofNat N) a
        have hround : ∀ fuel, searchRadix fuel m_degree (Int32.ofNat N) (a + 1) =
            (countDigits (Int32.ofNat N) size fuel 1).bind
              fun dimension => rest dimension fuel := by
          intro fuel
          rw [searchRadix, if_neg htwo]
          rfl
        obtain ⟨theRadix, hrest⟩ := ih (by omega)
        by_cases hmatch : Int32.ofNat N = getPower size d ∧ 2 * Int32.ofNat d = m_degree
        · refine ⟨size, Returns.congr hround (hd.bind rest ?_)⟩
          exact Returns.congr (fun fuel => if_pos hmatch) (.done size)
        · refine ⟨theRadix, Returns.congr hround (hd.bind rest ?_)⟩
          exact Returns.congr (fun fuel => if_neg hmatch) hrest

/-- The configuration of the torus is exact for 2 up to 46341 ranks. -/
theorem exact_iff {m_degree n : Int32} (hn : 1 ≤ n) :
    Exact n (fun fuel => chooseParameters fuel m_degree n) (powerCalls m_degree n) ↔
      2 ≤ n ∧ n ≤ 46341 := by
  constructor
  · refine bounds_of_exact hn ?_
    rintro rfl fuel
    rfl
  · rintro ⟨htwo, hle⟩
    obtain ⟨N, rfl, htwo, hN, hsub⟩ := exists_ofNat htwo hle
    unfold chooseParameters powerCalls
    rw [hsub]
    refine exact_of_bounds htwo hN (searchRadix_returns hN m_degree (N - 1) (by omega))
      fun fuel theRadix h => ?_
    rcases searchRadix_spec _ h with rfl | ⟨a, h2, ha, rfl⟩
    · exact ⟨2, rfl, .inl rfl⟩
    · exact ⟨a, rfl, .inr ⟨h2, by omega⟩⟩

end Torus

/-- Both configurations are exact for 2 up to 46341 ranks, whatever the degree is, and for no
other numbers. -/
theorem configurations_exact_iff {m_degree n : Int32} (hn : 1 ≤ n) :
    (Exact n (fun fuel => Polytope.chooseParameters fuel m_degree n)
        (Polytope.powerCalls m_degree n) ↔ 2 ≤ n ∧ n ≤ 46341) ∧
      (Exact n (fun fuel => Torus.chooseParameters fuel m_degree n)
        (Torus.powerCalls m_degree n) ↔ 2 ≤ n ∧ n ≤ 46341) :=
  ⟨Polytope.exact_iff hn, Torus.exact_iff hn⟩

theorem configurations_exact_iff_hypercube :
    Exact 1024 (fun fuel => Polytope.chooseParameters fuel 10 1024) (Polytope.powerCalls 10 1024) ∧
      Exact 1024 (fun fuel => Torus.chooseParameters fuel 20 1024) (Torus.powerCalls 20 1024) :=
  ⟨(configurations_exact_iff (by decide)).1.mpr ⟨by decide, by decide⟩,
    (configurations_exact_iff (by decide)).2.mpr ⟨by decide, by decide⟩⟩

/-- The search for the hypercube of 65536 ranks overflows from its first size on, and does not
end. -/
theorem configurations_not_exact :
    (∀ fuel, Polytope.chooseParameters fuel 16 65536 = none) ∧
      ¬ Exact 65536 (fun fuel => Polytope.chooseParameters fuel 16 65536)
        (Polytope.powerCalls 16 65536) ∧
      ¬ Exact 65536 (fun fuel => Torus.chooseParameters fuel 32 65536)
        (Torus.powerCalls 32 65536) := by
  refine ⟨fun fuel => ?_, fun h => ?_, fun h => ?_⟩
  · rw [Polytope.chooseParameters]
    cases hsearch :
        Polytope.searchAlphabetSize fuel 16 65536 (65536 - 1 : Int32).toNatClampNeg 2 with
    | none => rfl
    | some base =>
        have hcounted := (Polytope.searchAlphabetSize_spec _ _ hsearch).1 47104 (by decide)
          (by decide)
        exact absurd (few_of_counted hcounted) (by decide)
  · exact absurd ((Polytope.exact_iff (by decide)).mp h).2 (by decide)
  · exact absurd ((Torus.exact_iff (by decide)).mp h).2 (by decide)

/-! ## Squares of large numbers -/

/-- The tables of both graphs are large enough for what is accepted, but for squares of
numbers above 128 at the degree of these words of two symbols. -/
theorem loadTables_fit_iff {fuel d : Nat} {m_degree n base : Int32} (hn : 1 ≤ n) :
    (Polytope.chooseParameters fuel m_degree n = some (some (base, d)) →
      (LoadsFit base d ↔ ¬ ∃ a, 128 < a ∧ n.toNatClampNeg = a ^ 2 ∧
        m_degree = Int32.ofNat (2 * (a - 1)))) ∧
    (Torus.chooseParameters fuel m_degree n = some (some (base, d)) →
      (LoadsFit base d ↔ ¬ ∃ a, 128 < a ∧ n.toNatClampNeg = a ^ 2 ∧ m_degree = 4)) :=
  ⟨Polytope.loads_fit_iff hn, Torus.loads_fit_iff hn⟩

theorem loadTables_fit_iff_four : LoadsFit 2 2 := by
  refine ((@loadTables_fit_iff 32 2 2 4 2 (by decide)).1 (by decide)).mpr ?_
  rintro ⟨a, ha, hsquare, -⟩
  have hfour : (4 : Int32).toNatClampNeg = 4 := by decide
  rw [hfour] at hsquare
  nlinarith

/-- A size that matches is accepted, as its powers fit. -/
theorem accepted_of_matches {degreeOf : Int32 → Nat → Int32} {fuel a N : Nat} {m_degree : Int32}
    (hN : N ≤ 46341) (h2 : 2 ≤ a) (ha : a < N)
    (h : Matches degreeOf fuel m_degree (Int32.ofNat N) a) :
    chooseParameters (some (Int32.ofNat a)) fuel (Int32.ofNat N) ≠ some none := by
  obtain ⟨digits, hcount, hpow, -⟩ := h
  have hfits := fits_of_mem_countDigitsCalls (n := N) (b := a) h2 (by omega) (by omega)
    (mul_lt_of_below hN (by omega)) fuel 1 (by rw [Nat.pow_one]; omega) _
    (mem_countDigitsCalls fuel 1 hcount)
  rw [fitsInt_ofNat h2 (by omega)] at hfits
  rw [getPower_ofNat] at hpow
  intro hrefused
  obtain ⟨power, hpower, hrefused⟩ := Option.bind_eq_some_iff.mp hrefused
  cases power with
  | false => exact isAPowerOf_pow h2 fuel digits hfits (hpow ▸ hpower)
  | true =>
      obtain ⟨digits', -, hrefused⟩ := Option.bind_eq_some_iff.mp hrefused
      cases Option.some.inj hrefused

section

variable {r N : Nat}

/-- A choice that ends and is not refused is accepted. -/
theorem exists_accepted {choose : Nat → Option (Option (Int32 × Nat))} {n : Int32}
    {calls : Nat → List (Int32 × Nat)} (hexact : Exact n choose calls)
    (hnot : ∀ fuel, choose fuel ≠ some none) :
    ∃ fuel base d, choose fuel = some (some (base, d)) := by
  obtain ⟨parameters, hparameters, -⟩ := hexact.ends
  obtain ⟨fuel, hfuel⟩ := hparameters.exists_eq
  cases parameters with
  | none => exact absurd hfuel (hnot fuel)
  | some parameters => exact ⟨fuel, parameters.1, parameters.2, hfuel⟩

theorem ofNat_bounds (htwo : 2 ≤ N) (hle : N ≤ 46341) :
    (2 ≤ Int32.ofNat N ∧ Int32.ofNat N ≤ 46341) ∧ 1 ≤ Int32.ofNat N ∧
      (Int32.ofNat N).toNatClampNeg = N ∧ (Int32.ofNat N - 1).toNatClampNeg = N - 1 := by
  have hbounds : 2 ≤ Int32.ofNat N ∧ Int32.ofNat N ≤ 46341 :=
    ⟨(Int32.ofNat_le_iff_le (a := 2) (by omega) (by omega)).mpr htwo,
      (Int32.ofNat_le_iff_le (b := 46341) (by omega) (by omega)).mpr hle⟩
  have hone : 1 ≤ Int32.ofNat N := Int32.le_trans (by decide) hbounds.1
  have hvalue := Int32.toNatClampNeg_ofNat_of_lt (n := N) (by omega)
  have hsub := toNatClampNeg_sub_one hone
  rw [hvalue] at hsub
  exact ⟨hbounds, hone, hvalue, hsub⟩

theorem Polytope.accepts_square (hr : 128 < r) (hN : N = r ^ 2) (hle : N ≤ 46341) :
    ∃ fuel base d, chooseParameters fuel (Int32.ofNat (2 * (r - 1))) (Int32.ofNat N) =
      some (some (base, d)) := by
  have hroot : 128 * r ≤ r ^ 2 := by nlinarith
  obtain ⟨hbounds, hone, hvalue, hsub⟩ := ofNat_bounds (by omega : 2 ≤ N) hle
  refine exists_accepted (exact_iff hone |>.mpr hbounds) fun fuel hrefused => ?_
  cases hsearch : searchAlphabetSize fuel (Int32.ofNat (2 * (r - 1))) (Int32.ofNat N)
      (Int32.ofNat N - 1).toNatClampNeg 2 with
  | none =>
      rw [chooseParameters, hsearch] at hrefused
      cases hrefused
  | some base =>
      rw [chooseParameters, hsearch] at hrefused
      rcases searchAlphabetSize_cases _ _ hsearch with ⟨-, hnone⟩ | ⟨a, h2, ha, rfl, hmatch⟩
      · have hcounted := (searchAlphabetSize_spec _ _ hsearch).1 r (by omega) (by omega)
        obtain ⟨hcount, hpow⟩ := countDigits_square (by omega) (hvalue.trans hN) hcounted
        refine hnone r (by omega) (by omega) ⟨2, hcount, hpow, ?_⟩
        rw [degreeOf_ofNat (by omega), Nat.mul_comm]
      · exact accepted_of_matches hle h2 (by omega) hmatch hrefused

theorem Torus.accepts_square (hr : 128 < r) (hN : N = r ^ 2) (hle : N ≤ 46341) :
    ∃ fuel theRadix d, chooseParameters fuel 4 (Int32.ofNat N) = some (some (theRadix, d)) := by
  have hroot : 128 * r ≤ r ^ 2 := by nlinarith
  obtain ⟨hbounds, hone, hvalue, hsub⟩ := ofNat_bounds (by omega : 2 ≤ N) hle
  refine exists_accepted (exact_iff hone |>.mpr hbounds) fun fuel hrefused => ?_
  cases hsearch : searchRadix fuel 4 (Int32.ofNat N) (Int32.ofNat N - 1).toNatClampNeg with
  | none =>
      rw [chooseParameters, hsearch] at hrefused
      cases hrefused
  | some theRadix =>
      rw [chooseParameters, hsearch] at hrefused
      obtain ⟨a, habove, ⟨-, hdefault⟩ | ⟨h2, ha, rfl, hmatch⟩⟩ := searchRadix_cases _ hsearch
      · obtain ⟨hcounted, hnot⟩ := habove r (by omega) (by omega) (by omega)
        obtain ⟨hcount, hpow⟩ := countDigits_square (by omega) (hvalue.trans hN) hcounted
        exact hnot ⟨2, hcount, hpow, rfl⟩
      · exact accepted_of_matches hle h2 (by omega) hmatch hrefused

end

/-- 16641 ranks are the words of two symbols out of 129, whose last cell is number 257. -/
theorem loadTables_too_small :
    (∃ fuel base d, Polytope.chooseParameters fuel 256 16641 = some (some (base, d)) ∧
        ¬ LoadsFit base d) ∧
      ∃ fuel theRadix d, Torus.chooseParameters fuel 4 16641 = some (some (theRadix, d)) ∧
        ¬ LoadsFit theRadix d := by
  have hsquare : (16641 : Int32).toNatClampNeg = 129 ^ 2 := by decide
  constructor
  · obtain ⟨fuel, base, d, h⟩ :=
      Polytope.accepts_square (r := 129) (N := 16641) (by decide) (by decide) (by decide)
    refine ⟨fuel, base, d, h, fun hfit => ?_⟩
    exact (Polytope.loads_fit_iff (by decide) h).mp hfit ⟨129, by decide, hsquare, rfl⟩
  · obtain ⟨fuel, theRadix, d, h⟩ :=
      Torus.accepts_square (r := 129) (N := 16641) (by decide) (by decide) (by decide)
    refine ⟨fuel, theRadix, d, h, fun hfit => ?_⟩
    exact (Torus.loads_fit_iff (by decide) h).mp hfit ⟨129, by decide, hsquare, rfl⟩

end RayPlatform
