import Mathlib.Data.Nat.Prime.Basic
import RayPlatform.Routing.DeBruijnConfiguration
import RayPlatform.Routing.LoadedConfiguration
import RayPlatform.Routing.ProductSearches

/-!
# RankNumbering

The tuple that a graph stores for a rank leads back to the number that it was built from,
and no two ranks have the same tuple, if the symbols fit the 8 bits of a digit and the
words the 16 digits of a `Tuple`. Nothing in the code checks either of them.

Up to 1000000 ranks:

* the de Bruijn graph has symbols that are too large for the squares of numbers above 256,
  and words that are too long for some powers of 2 (`Overflows`);
* the Kautz graph has symbols that are too large for the products `k * (k + 1)` from
  `k = 256` on;
* the Experimental graph has too large symbols for four numbers, all of which are accepted
  because a product wraps;
* the Polytope and the Torus accept no such numbers.
-/

namespace RayPlatform

open Lib
open MessageRouter (IsRank)

/-- The tuples that are stored for `n` ranks, each of them built from a number. -/
structure RoundTrips (n base : Int32) (diameter : Nat) (builtFrom : Rank → Int32 → Prop)
    (table : List Tuple) : Prop where
  cells : diameter ≤ 16
  symbols : base ≤ 256
  length : table.length = n.toNatClampNeg
  back : ∀ r, IsRank n r → ∃ t index, entry table r = some t ∧ builtFrom r index ∧
    (convertToBase base diameter index).map (Tuple.word diameter) = some (t.word diameter) ∧
    convertToBase10 base diameter t = index
  distinct : (table.map (Tuple.word diameter)).Nodup

theorem RoundTrips.base_le {n : Int32} {b d : Nat} {builtFrom : Rank → Int32 → Prop}
    {table : List Tuple} (h : RoundTrips n (Int32.ofNat b) d builtFrom table) (hb : b < 2 ^ 31) :
    b ≤ 256 :=
  (Int32.ofNat_le_iff_le (b := 256) hb (by decide)).mp h.symbols

/-- The de Bruijn graph, the Polytope and the Torus build the tuple of a rank from the rank. -/
def NumbersRanks (n base : Int32) (diameter : Nat) : Prop :=
  ∃ table, (ranks n).mapM (convertToBase base diameter) = some table ∧
    RoundTrips n base diameter (fun r index => index = r) table

theorem toNatClampNeg_range {n : Int32} (hn : 1 ≤ n ∧ n ≤ 1000000) :
    1 ≤ n.toNatClampNeg ∧ n.toNatClampNeg ≤ 1000000 := by
  have hlow := Int32.le_iff_toInt_le.mp hn.1
  have hhigh := Int32.le_iff_toInt_le.mp hn.2
  have hone : (1 : Int32).toInt = 1 := rfl
  have hlast : (1000000 : Int32).toInt = 1000000 := rfl
  rw [Int32.toNatClampNeg]
  omega

/-- A number below the number of words comes back. -/
theorem convertToBase10_of_word {b d k : Nat} {t : Tuple} (hk : k < b ^ d)
    (hword : t.word d = digitWord b d k) :
    convertToBase10 (Int32.ofNat b) d t = Int32.ofNat k := by
  rw [convertToBase10_eq, hword, ofDigits_digitWord, Nat.mod_eq_of_lt hk]

theorem convertToBase_word {b d k : Nat} (hb : 0 < b) (hb' : b ≤ 256) (hd : d ≤ 16)
    (hpow : b ^ d < 2 ^ 31) (hk : k < b ^ d) :
    (convertToBase (Int32.ofNat b) d (Int32.ofNat k)).map (Tuple.word d) =
      some (digitWord b d k) := by
  obtain ⟨t, ht, hword⟩ := convertToBase_spec hb hb' hd hpow (hk.trans hpow)
  rw [ht, Option.map_some, hword]

/-- The words of all the numbers below `n`. -/
theorem numbersRanks_of_le {n : Int32} {b d : Nat} (htwo : 2 ≤ b) (hb : b ≤ 256) (hd : d ≤ 16)
    (hfits : b ^ d < 2 ^ 31) (hle : n.toNatClampNeg ≤ b ^ d)
    (hfull : 2 ≤ n.toNatClampNeg → n.toNatClampNeg = b ^ d) :
    NumbersRanks n (Int32.ofNat b) d := by
  obtain ⟨table, htable, hwords⟩ := wordTable_of_convertToBase htwo hb hd hfits hle hfull
  have hlength : table.length = n.toNatClampNeg := by
    rw [length_of_mapM htable, ranks, List.length_map, List.length_range]
  refine ⟨table, htable, hd, ?_, hlength, fun r hr => ?_, hwords.tells.nodup hlength⟩
  · exact (Int32.ofNat_le_iff_le (b := 256) (by omega) (by omega)).mpr hb
  · obtain ⟨k, hk, rfl⟩ := isRank_iff.mp hr
    obtain ⟨t, ht, hword⟩ := hwords.word k hk
    refine ⟨t, _, ht, rfl, ?_, convertToBase10_of_word (by omega) hword⟩
    rw [convertToBase_word (by omega) hb hd hfits (by omega), hword]

/-- The words of the vertices, under the ranks that the map gives them. -/
theorem roundTrips_of_complete {z b d : Nat} {n : Int32} {s : VertexTable} (hb : b ≤ 256)
    (h : VertexTable.Complete z b d n s) :
    RoundTrips n (Int32.ofNat b) d (fun r index => s.numbers.lookup index = some r) s.vertices := by
  have htwo := h.two_le
  have hspace := h.space
  refine ⟨h.cells, ?_, h.length, fun r hr => ?_, h.nodup⟩
  · exact (Int32.ofNat_le_iff_le (b := 256) (by omega) (by omega)).mpr hb
  · obtain ⟨k, hk, hadmits, rfl⟩ := h.exists_vertex hr
    obtain ⟨t, ht, hword⟩ := h.entry_ofNat hk hadmits
    refine ⟨t, _, ht, h.enumerated.found k hk hadmits, ?_, convertToBase10_of_word hk hword⟩
    rw [convertToBase_word (by omega) hb h.cells hspace hk, hword]

theorem NumbersRanks.of_parameters {n : Int32} {b d : Nat} (h : Parameters n b d) :
    NumbersRanks n (Int32.ofNat b) d := by
  have hsmall := h.size_le
  have hlength := h.length_le
  exact numbersRanks_of_le h.two_le (by omega) (by omega) h.power.fits h.power.le h.power.full

/-! ## The de Bruijn graph -/

namespace GraphImplementationDeBruijn

/-- The base that is found is the largest one. -/
theorem findBase_largest {fuel : Nat} {n base : Int32} (hbase : base ≠ -1) :
    ∀ m, m < 2 ^ 31 → findBase fuel n m = some base → base.toNatClampNeg ≤ m ∧
      ∀ i, base.toNatClampNeg < i → i ≤ m → isAPowerOf (Int32.ofNat i) fuel n = some false := by
  intro m
  induction m with
  | zero =>
      intro _ h
      exact absurd (Option.some.inj h).symm hbase
  | succ m ih =>
      intro hm h
      rw [findBase] at h
      split at h
      case isTrue => exact absurd (Option.some.inj h).symm hbase
      case isFalse hge =>
        obtain ⟨power, hpower, h⟩ := Option.bind_eq_some_iff.mp h
        cases power with
        | true =>
            rw [← Option.some.inj h, Int32.toNatClampNeg_ofNat_of_lt hm]
            exact ⟨le_rfl, fun i hlt hle => by omega⟩
        | false =>
            obtain ⟨hle, hrest⟩ := ih (by omega) h
            refine ⟨by omega, fun i hlt hi => ?_⟩
            rcases Nat.lt_or_ge m i with hlast | hbefore
            · obtain rfl : i = m + 1 := by omega
              exact hpower
            · exact hrest i hlt hbefore

theorem halveBase_le {n : Int32} (hn : 1 < n) : ∀ fuel maxBase m,
    halveBase n fuel maxBase = some m → m.toNatClampNeg ≤ maxBase.toNatClampNeg := by
  intro fuel
  induction fuel with
  | zero => exact fun maxBase m h => by cases h
  | succ fuel ih =>
      intro maxBase m h
      rw [halveBase] at h
      split at h
      case isTrue hge =>
        have hone : 1 < maxBase := Int32.lt_of_lt_of_le hn hge
        exact (ih _ _ h).trans
          (toNatClampNeg_div_lt hone (by decide) (by decide)).le
      case isFalse => rw [← Option.some.inj h]

/-- A start at most `n` is halved once if it is `n`. -/
theorem halveBase_of_le {n : Int32} (hn : 1 < n) {fuel : Nat} {maxBase m : Int32}
    (hle : maxBase ≤ n) (h : halveBase n fuel maxBase = some m) :
    (maxBase < n ∧ m = maxBase) ∨ (maxBase = n ∧ m = n / 2) := by
  cases fuel with
  | zero => cases h
  | succ fuel =>
      rw [halveBase] at h
      split at h
      case isTrue hge =>
        obtain rfl := Int32.le_antisymm hle hge
        have hhalf : ¬ maxBase / 2 ≥ maxBase := by
          intro hnot
          have hlt := toNatClampNeg_div_lt hn (b := 2) (by decide) (by decide)
          have hnot := Int32.le_iff_toInt_le.mp hnot
          rw [Int32.toNatClampNeg, Int32.toNatClampNeg] at hlt
          omega
        cases fuel with
        | zero => cases h
        | succ fuel =>
            rw [halveBase, if_neg hhalf] at h
            exact .inr ⟨rfl, (Option.some.inj h).symm⟩
      case isFalse hlt => exact .inl ⟨Int32.not_le.mp hlt, (Option.some.inj h).symm⟩

/-- Where the search for the base of `N` starts. -/
def StartsAt (m_degree : Int32) (N m : Nat) : Prop :=
  (∃ a e, 2 ≤ e ∧ m_degree = Int32.ofNat a ∧ N = a ^ e ∧ m = a) ∨
    (m_degree = Int32.ofNat N ∧ m = N / 2) ∨
    (m = 1024 ∧ ∀ a e, 2 ≤ a → m_degree = Int32.ofNat a → N ≠ a ^ e)

/-- A power of the base that is asked for is never denied. -/
theorem isAPowerOf_ne_false {n : Int32} (hn : 0 ≤ n) {a e : Nat} (ha : 2 ≤ a)
    (heq : n.toNatClampNeg = a ^ e) (fuel : Nat) :
    isAPowerOf (Int32.ofNat a) fuel n ≠ some false := by
  have hpow := isAPowerOf_pow ha fuel e (heq ▸ Int32.toNatClampNeg_lt n)
  rwa [← heq, Int32.ofNat_toNatClampNeg n hn] at hpow

theorem startsAt_of_halveBase {fuel : Nat} {m_degree n maxBase : Int32} {power : Bool}
    (hn : 1024 < n) (hpower : isAPowerOf m_degree fuel n = some power)
    (hmax : halveBase n fuel (if power then m_degree else 1024) = some maxBase)
    (htwo : 2 ≤ maxBase.toNatClampNeg) :
    StartsAt m_degree n.toNatClampNeg maxBase.toNatClampNeg := by
  have hone : 1 < n := Int32.lt_trans (by decide) hn
  have hpos : 0 ≤ n := Int32.le_of_lt (Int32.lt_trans (by decide) hn)
  have hN := Int32.ofNat_toNatClampNeg n hpos
  have hn31 := Int32.toNatClampNeg_lt n
  cases power with
  | false =>
      rw [if_neg (by decide)] at hmax
      rcases halveBase_of_le hone (Int32.le_of_lt hn) hmax with ⟨-, rfl⟩ | ⟨heq, -⟩
      · refine .inr (.inr ⟨rfl, fun a e ha hdegree heq => ?_⟩)
        exact isAPowerOf_ne_false hpos ha heq fuel (hdegree ▸ hpower)
      · exact absurd (heq ▸ hn) Int32.lt_irrefl
  | true =>
      rw [if_pos rfl] at hmax
      -- the start is only halved, so that the degree is a base itself
      have hstart := halveBase_le hone _ _ _ hmax
      have hd31 := Int32.toNatClampNeg_lt m_degree
      obtain ⟨a, ha, ha31, rfl⟩ : ∃ a, 2 ≤ a ∧ a < 2 ^ 31 ∧ m_degree = Int32.ofNat a := by
        refine ⟨m_degree.toNatClampNeg, by omega, hd31, ?_⟩
        refine (Int32.ofNat_toNatClampNeg m_degree (Int32.le_iff_toInt_le.mpr ?_)).symm
        have hzero : (0 : Int32).toInt = 0 := rfl
        rw [Int32.toNatClampNeg, Int32.toNatClampNeg] at hstart
        rw [Int32.toNatClampNeg] at htwo
        omega
      rw [← hN] at hpower
      have hmany : 1 < n.toNatClampNeg := by
        have hlt := Int32.lt_iff_toInt_lt.mp hone
        have hval : (1 : Int32).toInt = 1 := rfl
        rw [Int32.toNatClampNeg]
        omega
      obtain ⟨e, he⟩ := isAPowerOf_spec ha ha31 fuel _ (by omega) hn31 hpower
      rcases Nat.lt_or_ge e 2 with hsmall | htwice
      · have hself : n.toNatClampNeg = a := by
          interval_cases e
          · rw [Nat.pow_zero] at he
            omega
          · rwa [Nat.pow_one] at he
        rw [← hself, hN] at hmax
        rcases halveBase_of_le hone (Int32.le_refl _) hmax with ⟨hlt, -⟩ | ⟨-, rfl⟩
        · exact absurd hlt Int32.lt_irrefl
        · have hhalf : n / 2 = Int32.ofNat (n.toNatClampNeg / 2) := by
            rw [Int32.ofNat_div hn31 (by decide), hN]
            rfl
          refine .inr (.inl ⟨by rw [hself], ?_⟩)
          rw [hhalf, Int32.toNatClampNeg_ofNat_of_lt (by omega)]
      · have hbelow : a < n.toNatClampNeg :=
          calc a = a ^ 1 := (Nat.pow_one a).symm
            _ < a ^ e := Nat.pow_lt_pow_right (by omega) htwice
            _ = n.toNatClampNeg := he.symm
        have hlt : Int32.ofNat a < n := by
          rw [← hN]
          exact (Int32.ofNat_lt_iff_lt (by omega) (by omega)).mpr hbelow
        rcases halveBase_of_le hone (Int32.le_of_lt hlt) hmax with ⟨-, rfl⟩ | ⟨heq, -⟩
        · exact .inl ⟨a, e, htwice, rfl, he, Int32.toNatClampNeg_ofNat_of_lt ha31⟩
        · exact absurd (heq ▸ hlt) Int32.lt_irrefl

/-- The loops that lead to an accepted base. -/
theorem search_of_configureGraph {fuel : Nat} {m_degree n : Int32} {c : Configuration}
    (hc : configureGraph fuel m_degree n = some c) (haccepted : c.m_base ≠ -1) :
    ∃ power maxBase, isAPowerOf m_degree fuel n = some power ∧
      halveBase n fuel (if power then m_degree else 1024) = some maxBase ∧
      findBase fuel n maxBase.toNatClampNeg = some c.m_base := by
  rw [configureGraph_eq] at hc
  obtain ⟨power, hpower, hc⟩ := Option.bind_eq_some_iff.mp hc
  obtain ⟨maxBase, hmax, hc⟩ := Option.bind_eq_some_iff.mp hc
  obtain ⟨base, hbase, hc⟩ := Option.bind_eq_some_iff.mp hc
  refine ⟨power, maxBase, hpower, hmax, ?_⟩
  split at hc
  case isTrue heq =>
    obtain rfl := Option.some.inj hc
    exact absurd heq haccepted
  case isFalse =>
    obtain ⟨digits, -, hc⟩ := Option.bind_eq_some_iff.mp hc
    obtain rfl := Option.some.inj hc
    exact hbase

/-- An accepted base is the largest one that the search meets. -/
theorem configureGraph_largest {fuel : Nat} {m_degree n : Int32} {c : Configuration}
    (hn : 1024 < n) (hc : configureGraph fuel m_degree n = some c) (haccepted : c.m_base ≠ -1) :
    ∃ m, StartsAt m_degree n.toNatClampNeg m ∧ c.m_base.toNatClampNeg ≤ m ∧
      ∀ i, c.m_base.toNatClampNeg < i → i ≤ m → ∀ e, n.toNatClampNeg ≠ i ^ e := by
  obtain ⟨power, maxBase, hpower, hmax, hbase⟩ := search_of_configureGraph hc haccepted
  obtain ⟨hle, hlargest⟩ := findBase_largest haccepted _ (Int32.toNatClampNeg_lt maxBase) hbase
  obtain ⟨b, htwo, hb, heq, -⟩ := findBase_spec haccepted _ hbase
  have hb31 := Int32.toNatClampNeg_lt maxBase
  have hvalue : c.m_base.toNatClampNeg = b := by
    rw [heq, Int32.toNatClampNeg_ofNat_of_lt (by omega)]
  refine ⟨maxBase.toNatClampNeg, startsAt_of_halveBase hn hpower hmax (by omega), hle,
    fun i hlt hi e hpow => ?_⟩
  exact isAPowerOf_ne_false (Int32.le_of_lt (Int32.lt_trans (by decide) hn)) (by omega) hpow fuel
    (hlargest i hlt hi)

/-- The base is below the number of ranks. -/
theorem base_lt {fuel : Nat} {m_degree n : Int32} {c : Configuration} (hn : 1 ≤ n)
    (hc : configureGraph fuel m_degree n = some c) (haccepted : c.m_base ≠ -1) :
    c.m_base.toNatClampNeg < n.toNatClampNeg := by
  obtain ⟨power, maxBase, -, hmax, hbase⟩ := search_of_configureGraph hc haccepted
  have hle := (findBase_largest haccepted _ (Int32.toNatClampNeg_lt maxBase) hbase).1
  have hlt := Int32.lt_iff_toInt_lt.mp (halveBase_lt _ _ _ hmax)
  have hge := Int32.le_iff_toInt_le.mp hn
  have hone : (1 : Int32).toInt = 1 := rfl
  simp only [Int32.toNatClampNeg] at hle ⊢
  omega

/-- The numbers of ranks up to 1000000 whose words are too long for a tuple, or whose symbols
are too large for a digit. -/
def Overflows (m_degree n : Int32) : Prop :=
  n.toNatClampNeg = 2 ^ 17 ∨ n.toNatClampNeg = 2 ^ 19 ∨
    (n.toNatClampNeg = 2 ^ 18 ∧ m_degree = 2) ∨
    ∃ b, 256 < b ∧ n.toNatClampNeg = b ^ 2 ∧
      ¬ ∃ a e, 3 ≤ e ∧ m_degree = Int32.ofNat a ∧ n.toNatClampNeg = a ^ e

/-- A power whose exponent is a prime is a power of nothing else. -/
theorem length_of_prime {b d p : Nat} (hp : p.Prime) (hd : 2 ≤ d) (h : b ^ d = 2 ^ p) : d = p := by
  obtain ⟨j, -, rfl⟩ := (Nat.dvd_prime_pow Nat.prime_two).mp
    (h ▸ dvd_pow_self b (by omega : d ≠ 0))
  rw [← Nat.pow_mul] at h
  have hmul := Nat.pow_right_injective le_rfl h
  rcases (Nat.dvd_prime hp).mp (Dvd.intro_left j hmul) with hone | hself
  · omega
  · exact hself

theorem root_lt {N a e : Nat} (hfew : N ≤ 1000000) (he : 1 ≤ e) (h : N = a ^ e) : a < 2 ^ 31 := by
  have := Nat.le_self_pow (n := e) (by omega) a
  omega

/-- The degree is one root of the number of ranks only. -/
theorem root_unique {m_degree : Int32} {N a a' e : Nat} (hfew : N ≤ 1000000) (he : 1 ≤ e)
    (h : N = a ^ e) (ha' : a' < 2 ^ 31) (hdegree : m_degree = Int32.ofNat a)
    (hdegree' : m_degree = Int32.ofNat a') : a = a' := by
  have hvalue := congrArg Int32.toNatClampNeg (hdegree.symm.trans hdegree')
  rwa [Int32.toNatClampNeg_ofNat_of_lt (root_lt hfew he h), Int32.toNatClampNeg_ofNat_of_lt ha']
    at hvalue

namespace StartsAt

variable {m_degree : Int32} {N m : Nat}

theorem eq_two (h : StartsAt m_degree N m) (hN : N = 2 ^ 18) (hdegree : m_degree = 2) : m = 2 := by
  have hfew : N ≤ 1000000 := by omega
  rcases h with ⟨a, e, he, heq, hroots, hma⟩ | ⟨heq, -⟩ | ⟨-, hnone⟩
  · exact hma.trans (root_unique hfew (by omega) hroots (by decide) heq hdegree)
  · have hself : N = 2 := root_unique hfew le_rfl (Nat.pow_one N).symm (by decide) heq hdegree
    omega
  · exact absurd hN (hnone 2 18 le_rfl hdegree)

/-- For a degree other than 2 the search meets a base above 2. -/
theorem meets (h : StartsAt m_degree N m) (hN : N = 2 ^ 18) (hdegree : m_degree ≠ 2)
    (htwo : 2 ≤ m) : ∃ i e, 2 < i ∧ i ≤ m ∧ N = i ^ e := by
  rcases h with ⟨a, e, he, heq, hroots, rfl⟩ | ⟨-, rfl⟩ | ⟨rfl, -⟩
  · have ha : m ≠ 2 := fun h => hdegree (heq.trans (by rw [h]; rfl))
    exact ⟨m, e, by omega, le_rfl, hroots⟩
  · exact ⟨512, 2, by decide, by omega, hN.trans (by decide)⟩
  · exact ⟨512, 2, by decide, by decide, hN.trans (by decide)⟩

/-- A square root is met, unless the search starts at a root that is smaller. -/
theorem root_le (h : StartsAt m_degree N m) (hfew : N ≤ 1000000) {r : Nat} (hr : 256 < r)
    (hsquare : N = r ^ 2) (hnot : ¬ ∃ a e, 3 ≤ e ∧ m_degree = Int32.ofNat a ∧ N = a ^ e) :
    r ≤ m := by
  rcases h with ⟨a, e, he, heq, hroots, hma⟩ | ⟨-, rfl⟩ | ⟨rfl, -⟩
  · rcases Nat.lt_or_ge e 3 with hsmall | hlong
    · obtain rfl : e = 2 := by omega
      have hequal : r = a := Nat.pow_left_injective (by decide) (hsquare.symm.trans hroots)
      omega
    · exact absurd ⟨a, e, hlong, heq, hroots⟩ hnot
  · rw [hsquare, Nat.le_div_iff_mul_le (by decide)]
    nlinarith
  · by_contra hmore
    have : 1024 ^ 2 ≤ r ^ 2 := Nat.pow_le_pow_left (by omega) 2
    omega

/-- The search starts at the degree, at the third root or below. -/
theorem lt_root (h : StartsAt m_degree N m) (hfew : N ≤ 1000000) {b a e : Nat} (hb : 256 < b)
    (hsquare : N = b ^ 2) (he : 3 ≤ e) (hdegree : m_degree = Int32.ofNat a) (hroots : N = a ^ e) :
    m < b := by
  have hmany : 257 ^ 2 ≤ b ^ 2 := Nat.pow_le_pow_left (by omega) 2
  have ha : 2 ≤ a := by
    by_contra hsmall
    have : a ^ e ≤ 1 ^ e := Nat.pow_le_pow_left (by omega) e
    rw [Nat.one_pow] at this
    omega
  have hless : ∀ {k : Nat}, k < e → a ^ k < N := fun hk =>
    hroots ▸ Nat.pow_lt_pow_right (by omega) hk
  rcases h with ⟨a', e', he', hdegree', hroots', rfl⟩ | ⟨hdegree', -⟩ | ⟨-, hnone⟩
  · obtain rfl : m = a :=
      root_unique hfew (by omega) hroots' (root_lt hfew (by omega) hroots) hdegree' hdegree
    by_contra hge
    have hsquares : b ^ 2 ≤ m ^ 2 := Nat.pow_le_pow_left (by omega) 2
    have hcubes : m ^ 2 < N := hless (by omega)
    omega
  · obtain rfl : N = a := root_unique hfew le_rfl (Nat.pow_one N).symm
      (root_lt hfew (by omega) hroots) hdegree' hdegree
    have hmore : N ^ 1 < N := hless (by omega)
    rw [Nat.pow_one] at hmore
    exact absurd hmore (Nat.lt_irrefl N)
  · exact absurd hroots (hnone a e ha hdegree)

end StartsAt

/-- Symbols that are too large leave room for words of two of them. -/
theorem two_of_wide {b d : Nat} (hd : 2 ≤ d) (hfew : b ^ d ≤ 1000000) (hb : 256 < b) : d = 2 := by
  by_contra hne
  have h3 : b ^ 3 ≤ b ^ d := Nat.pow_le_pow_right (by omega) (by omega)
  have h257 : 257 ^ 3 ≤ b ^ 3 := Nat.pow_le_pow_left (by omega) 3
  omega

/-- Words that are too long have binary symbols. -/
theorem binary_of_long {b d : Nat} (htwo : 2 ≤ b) (hfew : b ^ d ≤ 1000000) (hd : 16 < d) :
    b = 2 ∧ (d = 17 ∨ d = 18 ∨ d = 19) := by
  obtain rfl : b = 2 := by
    by_contra hne
    have h3 : 3 ^ d ≤ b ^ d := Nat.pow_le_pow_left (by omega) d
    have h17 : 3 ^ 17 ≤ 3 ^ d := Nat.pow_le_pow_right (by omega) (by omega)
    omega
  have hd20 : d < 20 := by
    by_contra hmore
    have h20 : 2 ^ 20 ≤ 2 ^ d := Nat.pow_le_pow_right (by omega) (by omega)
    omega
  omega

/-- What the largest base that the search meets says about the words. -/
theorem fits_iff {m_degree n : Int32} {b d m : Nat} (htwo : 2 ≤ b) (hd : 2 ≤ d)
    (hpow : n.toNatClampNeg = b ^ d) (hfew : n.toNatClampNeg ≤ 1000000)
    (hstart : StartsAt m_degree n.toNatClampNeg m) (hle : b ≤ m)
    (hlargest : ∀ i, b < i → i ≤ m → ∀ e, n.toNatClampNeg ≠ i ^ e) :
    (b ≤ 256 ∧ d ≤ 16) ↔ ¬ Overflows m_degree n := by
  rw [Overflows]
  generalize n.toNatClampNeg = N at *
  constructor
  · rintro ⟨hb, hcells⟩ (h17 | h19 | ⟨h18, hdegree⟩ | ⟨r, hr, hsquare, hnot⟩)
    · have := length_of_prime (by decide) hd (hpow.symm.trans h17)
      omega
    · have := length_of_prime (by decide) hd (hpow.symm.trans h19)
      omega
    · -- the search starts at 2
      have hm := hstart.eq_two h18 hdegree
      obtain rfl : b = 2 := by omega
      have := Nat.pow_right_injective le_rfl (hpow.symm.trans h18)
      omega
    · exact hlargest r (by omega) (hstart.root_le hfew hr hsquare hnot) 2 hsquare
  · intro hno
    constructor
    · by_contra hwide
      obtain rfl := two_of_wide hd (hpow ▸ hfew) (by omega)
      refine hno (.inr (.inr (.inr ⟨b, by omega, hpow, ?_⟩)))
      rintro ⟨a, e, he, hdegree, hroots⟩
      have := hstart.lt_root hfew (by omega) hpow he hdegree hroots
      omega
    · by_contra hlong
      obtain ⟨rfl, rfl | rfl | rfl⟩ := binary_of_long htwo (hpow ▸ hfew) (by omega)
      · exact hno (.inl hpow)
      · have hdegree : m_degree ≠ 2 := fun h => hno (.inr (.inr (.inl ⟨hpow, h⟩)))
        obtain ⟨i, e, hi, him, hroots⟩ := hstart.meets hpow hdegree hle
        exact hlargest i hi him e hroots
      · exact hno (.inr (.inl hpow))

/-- The tuples lead back to the ranks but where symbols or words are too large. -/
theorem numbersRanks_iff {fuel : Nat} {m_degree n : Int32} {c : Configuration}
    (hn : 1 ≤ n ∧ n ≤ 1000000) (hc : configureGraph fuel m_degree n = some c)
    (haccepted : c.m_base ≠ -1) :
    NumbersRanks n c.m_base c.m_diameter ↔ ¬ Overflows m_degree n := by
  obtain ⟨hpos, hmany⟩ := toNatClampNeg_range hn
  obtain ⟨b, d, h⟩ := configureGraph_spec hc haccepted
  have htwo := h.two_le
  have hdigits := h.digits
  have hpow : n.toNatClampNeg = b ^ d := by
    rw [h.size, Int32.toNatClampNeg_ofNat_of_lt h.fits]
  have hself : b ≤ b ^ d := Nat.le_self_pow (by omega) b
  have hbase : c.m_base = Int32.ofNat b := by rw [h.configured]
  have hdiameter : c.m_diameter = d := by rw [h.configured]
  have hvalue : c.m_base.toNatClampNeg = b := by
    rw [hbase, Int32.toNatClampNeg_ofNat_of_lt (by omega)]
  have hlt := base_lt hn.1 hc haccepted
  have hd : 2 ≤ d := by
    by_contra hone
    obtain rfl : d = 1 := by omega
    rw [Nat.pow_one] at hpow
    omega
  have hfit : NumbersRanks n c.m_base c.m_diameter ↔ b ≤ 256 ∧ d ≤ 16 := by
    rw [hbase, hdiameter]
    constructor
    · rintro ⟨table, -, htrips⟩
      exact ⟨htrips.base_le (by omega), htrips.cells⟩
    · rintro ⟨hb, hcells⟩
      exact numbersRanks_of_le htwo hb hcells h.fits hpow.le fun _ => hpow
  rw [hfit]
  by_cases hlarge : 1024 < n
  · obtain ⟨m, hstart, hle, hlargest⟩ := configureGraph_largest hlarge hc haccepted
    rw [hvalue] at hle hlargest
    exact fits_iff htwo hd hpow hmany hstart hle hlargest
  · have hsmall : n.toNatClampNeg ≤ 1024 := by
      have hle := Int32.le_iff_toInt_le.mp (Int32.not_lt.mp hlarge)
      have h1024 : (1024 : Int32).toInt = 1024 := rfl
      rw [Int32.toNatClampNeg]
      omega
    refine iff_of_true ⟨?_, ?_⟩ ?_
    · by_contra hmore
      have hsquare : 257 ^ 2 ≤ b ^ 2 := Nat.pow_le_pow_left (by omega) 2
      have hlong : b ^ 2 ≤ b ^ d := Nat.pow_le_pow_right (by omega) hd
      omega
    · by_contra hmore
      have hbase : 2 ^ d ≤ b ^ d := Nat.pow_le_pow_left htwo d
      have hlong : 2 ^ 17 ≤ 2 ^ d := Nat.pow_le_pow_right (by omega) (by omega)
      omega
    · rintro (h17 | h19 | ⟨h18, -⟩ | ⟨r, hr, hsquare, -⟩)
      · omega
      · omega
      · omega
      · have hmore : 257 ^ 2 ≤ r ^ 2 := Nat.pow_le_pow_left (by omega) 2
        omega

end GraphImplementationDeBruijn

/-! ## The Kautz graph -/

namespace GraphImplementationKautz

/-- The Kautz graph builds the tuple of a rank from the number that the map leads from. -/
def NumbersRanks (n : Int32) : Prop :=
  ∃ fuel g, makeConnections fuel n = some g ∧
    RoundTrips n g.m_base g.m_diameter (fun r index => g.m_kautzToGraph.lookup index = some r)
      g.m_graphToKautz

/-- Up to 1000000 vertices no product that wraps matches, and above degree 255 only words of
two symbols are short enough. -/
theorem Matches.small {n : Int32} {k d : Nat} (h : Matches n k d)
    (hn : 1 ≤ n ∧ n ≤ 1000000) :
    n.toNatClampNeg = (k + 1) * k ^ (d - 1) ∧ (k + 1) ^ d < 2 ^ 31 ∧ (256 ≤ k → d = 2) := by
  have hall : ∀ k ∈ List.range' 2 1023, ∀ d ∈ List.range' 2 8,
      (k + 1) * k ^ (d - 1) % 2 ^ 32 ≤ 1000000 → (k + 1) * k ^ (d - 1) % 2 ^ 32 = 0 ∨
        ((k + 1) * k ^ (d - 1) < 2 ^ 31 ∧ (k + 1) ^ d < 2 ^ 31 ∧ (256 ≤ k → d = 2)) := by
    decide +kernel
  have hdegree := h.degree
  have hdiameter := h.diameter
  have hmod := mod_of_ofNat_eq hn.1 h.product
  obtain ⟨hpos, hmany⟩ := toNatClampNeg_range hn
  rcases hall k (List.mem_range'_1.mpr (by omega)) d (List.mem_range'_1.mpr (by omega))
    (by omega) with hzero | ⟨hfits, hspace, hlong⟩
  · omega
  · exact ⟨h.exact_of_lt hfits, hspace, hlong⟩

/-- The symbols are too large for a digit in the graphs of words of two symbols out of more
than 256. -/
theorem numbersRanks_iff {n : Int32} (hn : 1 ≤ n ∧ n ≤ 1000000)
    (haccepted : isValid n = true) :
    NumbersRanks n ↔ ¬ ∃ k, 256 ≤ k ∧ n.toNatClampNeg = (k + 1) * k := by
  rcases configureGraph_cases n with ⟨hrefused, -⟩ | ⟨-, k, d, hmatch, hlargest, hconfigured⟩
  · rw [haccepted] at hrefused
    cases hrefused
  have hdegree := hmatch.degree
  obtain ⟨-, hmany⟩ := toNatClampNeg_range hn
  obtain ⟨hvertices, hspace, hlong⟩ := hmatch.small hn
  constructor
  · rintro ⟨fuel, g, hg, htrips⟩ ⟨j, hj, hproduct⟩
    have hbase : g.m_base = Int32.ofNat (k + 1) := by
      obtain ⟨tables, -, hg⟩ := Option.bind_eq_some_iff.mp hg
      rw [← Option.some.inj hg, hconfigured]
      rfl
    rw [hbase] at htrips
    have hle := htrips.base_le (by omega)
    have hsmall : j ≤ 999 := by
      by_contra hmore
      have : 1001 * 1000 ≤ (j + 1) * j := Nat.mul_le_mul (by omega) (by omega)
      omega
    have := hlargest j 2 ⟨by omega, by omega, ?_⟩
    · omega
    · rw [show 2 - 1 = 1 from rfl, Nat.pow_one, ← hproduct]
      exact Int32.ofNat_toNatClampNeg n (Int32.le_trans (by decide) hn.1)
  · intro hnot
    have hk : k ≤ 255 := by
      by_contra hlarge
      have hd := hlong (by omega)
      rw [hd, show 2 - 1 = 1 from rfl, Nat.pow_one] at hvertices
      exact hnot ⟨k, by omega, hvertices⟩
    obtain ⟨g, hg, hbuilt⟩ := makeConnections_spec (by omega) hmatch.diameter hspace
      hmatch.product.symm (by rw [hconfigured]; rfl) (by rw [hconfigured]; rfl)
    refine ⟨_, g, hg _ le_rfl, ?_⟩
    rw [hbuilt.m_base, hbuilt.m_diameter]
    exact roundTrips_of_complete (by omega) hbuilt.tables

end GraphImplementationKautz

/-! ## The Experimental graph -/

namespace GraphImplementationExperimental

/-- The Experimental graph builds the tuple of a rank from the number that the map leads from. -/
def NumbersRanks (n : Int32) : Prop :=
  ∃ fuel g, makeConnections fuel n = some g ∧
    RoundTrips n g.m_base g.m_diameter (fun r index => g.m_kautzToGraph.lookup index = some r)
      g.m_graphToExperimental

/-- The numbers up to 1000000 that a product matches because it wraps. -/
def wrapped : List Nat := [130816, 206208, 523776, 608960]

theorem Matches.small {n : Int32} {k z d : Nat} (h : Matches n k z d)
    (hn : 1 ≤ n ∧ n ≤ 1000000) :
    (n.toNatClampNeg ∈ wrapped ∧ 256 < k + z - 1) ∨
      (n.toNatClampNeg ∉ wrapped ∧ k + z - 1 ≤ 256 ∧ (k + z - 1) ^ d < 2 ^ 31) := by
  have hall : ∀ k ∈ List.range' 2 1023, ∀ z ∈ [3, 4], ∀ d ∈ List.range' z (10 - z),
      vertices k z d % 2 ^ 32 ≤ 1000000 → vertices k z d % 2 ^ 32 = 0 ∨
        (vertices k z d % 2 ^ 32 ∈ wrapped ∧ 256 < k + z - 1) ∨
        (vertices k z d % 2 ^ 32 ∉ wrapped ∧ k + z - 1 ≤ 256 ∧ (k + z - 1) ^ d < 2 ^ 31) := by
    decide +kernel
  have hdegree := h.degree
  have hzone := h.zone
  have hdiameter := h.diameter
  have hmod := mod_of_ofNat_eq hn.1 h.product
  obtain ⟨hpos, hmany⟩ := toNatClampNeg_range hn
  rw [← hmod] at hpos hmany ⊢
  rcases hall k (List.mem_range'_1.mpr (by omega)) z (by simpa using hzone) d
    (List.mem_range'_1.mpr (by omega)) hmany with hzero | hcases
  · omega
  · exact hcases

/-- The symbols are too large for a digit in the graphs that are configured by mistake. -/
theorem numbersRanks_iff {n : Int32} (hn : 1 ≤ n ∧ n ≤ 1000000) (haccepted : isValid n = true) :
    NumbersRanks n ↔ n.toNatClampNeg ∉ wrapped := by
  rcases configureGraph_cases n with ⟨hrefused, -⟩ | ⟨-, k, z, d, hmatch, hconfigured⟩
  · rw [haccepted] at hrefused
    cases hrefused
  have hdegree := hmatch.degree
  have hzone := hmatch.zone
  rcases hmatch.small hn with ⟨hmem, hlarge⟩ | ⟨hnot, hsmall, hspace⟩
  · refine iff_of_false ?_ (not_not.mpr hmem)
    rintro ⟨fuel, g, hg, htrips⟩
    have hbase : g.m_base = Int32.ofNat (k + z - 1) := by
      obtain ⟨tables, -, hg⟩ := Option.bind_eq_some_iff.mp hg
      rw [← Option.some.inj hg, hconfigured]
      rfl
    rw [hbase] at htrips
    have hle := htrips.base_le (by omega)
    omega
  · refine iff_of_true ?_ hnot
    have hbase : (configureGraph n).m_base = Int32.ofNat (k + z - 1) := by rw [hconfigured]; rfl
    have hdiameter : (configureGraph n).m_diameter = d := by rw [hconfigured]; rfl
    obtain ⟨z', b, d', haccepts⟩ := configureGraph_spec rfl
      (by rw [hbase]; exact ofNat_ne_neg_one (by omega))
      ⟨by rw [hbase]; exact (Int32.ofNat_le_iff_le (b := 256) (by omega) (by omega)).mpr hsmall,
        by rw [hbase, hdiameter, Int32.toNatClampNeg_ofNat_of_lt (by omega)]; exact hspace⟩
    obtain ⟨g, hg, hbuilt⟩ := makeConnections_spec rfl haccepts
    refine ⟨_, g, hg _ le_rfl, ?_⟩
    rw [hbuilt.m_base, hbuilt.m_diameter]
    exact roundTrips_of_complete haccepts.symbols hbuilt.tables

end GraphImplementationExperimental

/-! ## All the graphs -/

/-- For any number of ranks up to 1000000 and any degree that is accepted, the tuples lead back
to what they were built from, but for symbols and words that are too large for a tuple. -/
theorem rankNumbering_iff {n : Int32} (hn : 1 ≤ n) (hmany : n ≤ 1000000) :
    (∀ fuel m_degree c, GraphImplementationDeBruijn.configureGraph fuel m_degree n = some c →
      c.m_base ≠ -1 → (NumbersRanks n c.m_base c.m_diameter ↔
        ¬ GraphImplementationDeBruijn.Overflows m_degree n)) ∧
    (GraphImplementationKautz.isValid n = true →
      (GraphImplementationKautz.NumbersRanks n ↔
        ¬ ∃ k, 256 ≤ k ∧ n.toNatClampNeg = (k + 1) * k)) ∧
    (GraphImplementationExperimental.isValid n = true →
      (GraphImplementationExperimental.NumbersRanks n ↔
        n.toNatClampNeg ∉ [130816, 206208, 523776, 608960])) ∧
    (∀ fuel m_degree base d, Polytope.chooseParameters fuel m_degree n = some (some (base, d)) →
      NumbersRanks n base d) ∧
    ∀ fuel m_degree base d, Torus.chooseParameters fuel m_degree n = some (some (base, d)) →
      NumbersRanks n base d := by
  refine ⟨fun fuel m_degree c => GraphImplementationDeBruijn.numbersRanks_iff ⟨hn, hmany⟩,
    GraphImplementationKautz.numbersRanks_iff ⟨hn, hmany⟩,
    GraphImplementationExperimental.numbersRanks_iff ⟨hn, hmany⟩, ?_, ?_⟩
  · intro fuel m_degree base d h
    obtain ⟨b, rfl, hparameters⟩ := Polytope.parameters_of_chooseParameters hn h
    exact .of_parameters hparameters
  · intro fuel m_degree base d h
    obtain ⟨b, rfl, hparameters⟩ := Torus.parameters_of_chooseParameters hn h
    exact .of_parameters hparameters

theorem rankNumbering_iff_small :
    NumbersRanks 4 2 2 ∧ GraphImplementationKautz.NumbersRanks 6 ∧
      GraphImplementationExperimental.NumbersRanks 24 ∧ NumbersRanks 8 2 3 ∧ NumbersRanks 9 3 2 := by
  have hfour := rankNumbering_iff (n := 4) (by decide) (by decide)
  have hsix := rankNumbering_iff (n := 6) (by decide) (by decide)
  have htwentyFour := rankNumbering_iff (n := 24) (by decide) (by decide)
  have height := rankNumbering_iff (n := 8) (by decide) (by decide)
  have hnine := rankNumbering_iff (n := 9) (by decide) (by decide)
  refine ⟨?_, ?_, ?_, height.2.2.2.1 32 3 2 3 (by decide), hnine.2.2.2.2 32 4 3 2 (by decide)⟩
  · refine (hfour.1 32 2 { m_base := 2, m_diameter := 2, m_size := 4 } (by decide)
      (by decide)).mpr ?_
    have hvalue : (4 : Int32).toNatClampNeg = 4 := by decide
    rw [GraphImplementationDeBruijn.Overflows, hvalue]
    rintro (h17 | h19 | ⟨h18, -⟩ | ⟨b, hb, hsquare, -⟩)
    · exact absurd h17 (by decide)
    · exact absurd h19 (by decide)
    · exact absurd h18 (by decide)
    · nlinarith
  · refine (hsix.2.1 ?_).mpr ?_
    · rw [GraphImplementationKautz.isValid, GraphImplementationKautz.configureGraph_six]
      decide
    · rintro ⟨k, hk, hproduct⟩
      have hvalue : (6 : Int32).toNatClampNeg = 6 := by decide
      rw [hvalue] at hproduct
      nlinarith
  · refine (htwentyFour.2.2.1 ?_).mpr (by decide)
    rw [GraphImplementationExperimental.isValid,
      GraphImplementationExperimental.configureGraph_twentyFour]
    decide

/-- 131072 ranks of degree 2 have words of 17 symbols, 65792 ranks are words of two symbols out
of 257, and 206208 ranks are accepted with 534 symbols. -/
theorem rankNumbering_fails :
    (GraphImplementationDeBruijn.configureGraph 32 2 131072 =
        some { m_base := 2, m_diameter := 17, m_size := 131072 } ∧ ¬ NumbersRanks 131072 2 17) ∧
      (GraphImplementationKautz.isValid 65792 = true ∧
        ¬ GraphImplementationKautz.NumbersRanks 65792) ∧
      GraphImplementationExperimental.isValid 206208 = true ∧
        ¬ GraphImplementationExperimental.NumbersRanks 206208 := by
  refine ⟨⟨by decide +kernel, ?_⟩, ?_, ?_⟩
  · rintro ⟨table, -, htrips⟩
    exact absurd htrips.cells (by decide)
  · have hvalid : GraphImplementationKautz.isValid 65792 = true := by
      rcases GraphImplementationKautz.configureGraph_cases 65792 with ⟨-, hnone⟩ | ⟨hvalid, -⟩
      · exact absurd ⟨by decide, by decide, by decide⟩ (hnone 256 2)
      · exact hvalid
    refine ⟨hvalid, fun h => ?_⟩
    exact (GraphImplementationKautz.numbersRanks_iff ⟨by decide, by decide⟩ hvalid).mp h
      ⟨256, by decide, by decide⟩
  · have hvalid : GraphImplementationExperimental.isValid 206208 = true := by
      rcases GraphImplementationExperimental.configureGraph_cases 206208 with
        ⟨-, hnone⟩ | ⟨hvalid, -⟩
      · exact absurd ⟨by decide, by decide, by decide, by decide⟩ (hnone 532 3 5)
      · exact hvalid
    refine ⟨hvalid, fun h => ?_⟩
    exact (GraphImplementationExperimental.numbersRanks_iff ⟨by decide, by decide⟩ hvalid).mp h
      (by decide)

end RayPlatform
