import RayPlatform.Communication.MessageRouter
import RayPlatform.Lib.Traversal
import RayPlatform.Lib.Words

/-!
# GraphImplementation

What the graphs of the router share: vertices are tuples of symbols, numbers are
converted to tuples and back, the connections are computed once for all pairs of
ranks, and `getRoute` asks for one hop after the other.

* `word d t` are the symbols of a tuple. `convertToBase_spec` and `convertToBase10_eq`
  say that the conversions are `digitWord` and `ofDigits` as long as the powers fit
  an `int`; the sixteen cells of a tuple are never written outside.
* `getRoute_isRoute` is the rule for routes: where each hop is an edge and comes one
  step closer, `getRoute` returns a route of exactly as many hops as the distance.
-/

namespace RayPlatform

open Lib
open MessageRouter (IsRank)
open Nat (ofDigits)

/-! ## Tuples -/

/-- The cells that nothing has written yet hold zero here. -/
structure Tuple where
  m_digits : Vector UInt8 16

namespace Tuple

def blank : Tuple := ⟨Vector.replicate 16 0⟩

/-- The content of a cell. The graphs read cells that `write` has reached before. -/
def digit (t : Tuple) (i : Nat) : UInt8 :=
  t.m_digits[i]?.getD 0

/-- `m_digits[i]=value`, which fails outside the cells. -/
def write (t : Tuple) (i : Nat) (value : UInt8) : Option Tuple :=
  if h : i < 16 then some ⟨t.m_digits.set i value⟩ else none

/-- `for(i=0;i<count;i++) m_digits[i]=f(i)` -/
def fill (t : Tuple) (f : Nat → UInt8) : Nat → Option Tuple
  | 0 => some t
  | count + 1 => do
      let filled ← t.fill f count
      filled.write count (f count)

/-- The first `d` symbols. -/
def word (d : Nat) (t : Tuple) : List Nat :=
  (List.range d).map fun i => (t.digit i).toNat

theorem write_spec (t : Tuple) {i : Nat} (hi : i < 16) (value : UInt8) :
    ∃ t', t.write i value = some t' ∧ t'.digit i = value ∧ ∀ j ≠ i, t'.digit j = t.digit j := by
  refine ⟨_, dif_pos hi, ?_, fun j hj => ?_⟩
  · simp [digit, hi]
  · simp [digit, Vector.getElem?_set_ne hi (Ne.symm hj)]

theorem fill_spec (t : Tuple) (f : Nat → UInt8) {count : Nat} (h : count ≤ 16) :
    ∃ t', t.fill f count = some t' ∧
      (∀ i < count, t'.digit i = f i) ∧ ∀ i ≥ count, t'.digit i = t.digit i := by
  induction count with
  | zero => exact ⟨t, rfl, by simp, by simp⟩
  | succ count ih =>
      obtain ⟨filled, hfilled, hf, hrest⟩ := ih (by omega)
      obtain ⟨t', ht', hnew, hold⟩ := filled.write_spec (show count < 16 by omega) (f count)
      refine ⟨t', by rw [fill, hfilled]; exact ht', fun i hi => ?_, fun i hi => ?_⟩
      · rcases Nat.lt_succ_iff_lt_or_eq.mp hi with hi | rfl
        · rw [hold i (by omega), hf i hi]
        · exact hnew
      · rw [hold i (by omega), hrest i (by omega)]

@[simp] theorem length_word (d : Nat) (t : Tuple) : (t.word d).length = d := by
  simp [word]

@[simp] theorem getElem_word (d : Nat) (t : Tuple) {i : Nat} (h : i < (t.word d).length) :
    (t.word d)[i] = (t.digit i).toNat := by
  simp [word]

end Tuple

/-! ## Numbers and tuples -/

def getPower (base : Int32) : Nat → Int32
  | 0 => 1
  | exponent + 1 => getPower base exponent * base

/-- `convertToDeBruijn`, `convertToBase` and `convertToVertex`: a number as a tuple. -/
def convertToBase (base : Int32) (diameter : Nat) (i : Int32) : Option Tuple :=
  Tuple.blank.fill
    (fun power => ((i % getPower base (power + 1)) / getPower base power).toUInt32.toUInt8) diameter

/-- base `base` to base 10 -/
def convertToBase10 (base : Int32) (diameter : Nat) (vertex : Tuple) : Int32 :=
  (List.range diameter).foldl
    (fun a i => a + Int32.ofNat (vertex.digit i).toNat * getPower base i) 0

theorem getPower_ofNat (b e : Nat) : getPower (Int32.ofNat b) e = Int32.ofNat (b ^ e) := by
  induction e with
  | zero => rfl
  | succ e ih => rw [getPower, ih, Nat.pow_succ, Int32.ofNat_mul]

theorem convertToBase_spec {b d k : Nat} (hb : 0 < b) (hb' : b ≤ 256) (hd : d ≤ 16)
    (hpow : b ^ d < 2 ^ 31) (hk : k < 2 ^ 31) :
    ∃ t, convertToBase (Int32.ofNat b) d (Int32.ofNat k) = some t ∧ t.word d = digitWord b d k := by
  obtain ⟨t, ht, hdigits, -⟩ := Tuple.blank.fill_spec (fun power =>
    ((Int32.ofNat k % getPower (Int32.ofNat b) (power + 1)) /
      getPower (Int32.ofNat b) power).toUInt32.toUInt8) hd
  refine ⟨t, ht, List.map_congr_left fun p hp => ?_⟩
  have hp := List.mem_range.mp hp
  have hsucc : b ^ (p + 1) < 2 ^ 31 :=
    lt_of_le_of_lt (Nat.pow_le_pow_right hb (by omega)) hpow
  have hp31 : b ^ p < 2 ^ 31 := lt_of_le_of_lt (Nat.pow_le_pow_right hb (by omega)) hpow
  have hvalue : k % b ^ (p + 1) / b ^ p = k / b ^ p % b := by
    rw [Nat.pow_succ, Nat.mod_mul_right_div_self]
  have hlt := Nat.mod_lt (k / b ^ p) hb
  rw [hdigits p hp, getPower_ofNat, getPower_ofNat, ← Int32.ofNat_mod hk hsucc,
    ← Int32.ofNat_div (lt_of_le_of_lt (Nat.mod_le ..) hk) hp31, hvalue, Int32.toUInt32_ofNat',
    UInt32.toUInt8_ofNat', UInt8.toNat_ofNat_of_lt' (lt_of_lt_of_le hlt hb')]

theorem convertToBase10_eq (b d : Nat) (t : Tuple) :
    convertToBase10 (Int32.ofNat b) d t = Int32.ofNat (ofDigits b (t.word d)) := by
  induction d with
  | zero => rfl
  | succ d ih =>
      have hword : t.word (d + 1) = t.word d ++ [(t.digit d).toNat] := by
        simp [Tuple.word, List.range_succ]
      rw [convertToBase10, List.range_succ, List.foldl_append, ← convertToBase10, ih, hword,
        Nat.ofDigits_append, Nat.ofDigits_singleton, Tuple.length_word, Int32.ofNat_add,
        Int32.ofNat_mul]
      show _ + _ * getPower _ d = _
      rw [getPower_ofNat, Int32.mul_comm]

theorem ofDigits_word_lt {b d : Nat} {t : Tuple} (hb : 1 < b) (ht : ∀ x ∈ t.word d, x < b) :
    ofDigits b (t.word d) < b ^ d := by
  have := Nat.ofDigits_lt_base_pow_length hb ht
  rwa [Tuple.length_word] at this

/-! ## Ranks -/

/-- `for(Rank i=0;i<size;i++)` -/
def ranks (size : Int32) : List Rank :=
  (List.range size.toNatClampNeg).map Int32.ofNat

theorem isRank_iff {size : Int32} {r : Rank} :
    IsRank size r ↔ ∃ k < size.toNatClampNeg, r = Int32.ofNat k := by
  constructor
  · rintro ⟨hge, hlt⟩
    refine ⟨r.toNatClampNeg, ?_, (Int32.ofNat_toNatClampNeg r hge).symm⟩
    have hge' := Int32.le_iff_toInt_le.mp hge
    have hlt' := Int32.lt_iff_toInt_lt.mp hlt
    have hzero : (0 : Int32).toInt = 0 := rfl
    simp only [Int32.toNatClampNeg]
    omega
  · rintro ⟨k, hk, rfl⟩
    have hsize := Int32.toNatClampNeg_lt size
    have hk' := Int32.toInt_ofNat_of_lt (n := k) (by omega)
    have hzero : (0 : Int32).toInt = 0 := rfl
    simp only [Int32.toNatClampNeg] at hk
    exact ⟨Int32.le_iff_toInt_le.mpr (by omega), Int32.lt_iff_toInt_lt.mpr (by omega)⟩

theorem isRank_ofNat {size : Int32} {k : Nat} (h : k < size.toNatClampNeg) :
    IsRank size (Int32.ofNat k) :=
  isRank_iff.mpr ⟨k, h, rfl⟩

theorem mem_ranks {size : Int32} {r : Rank} : r ∈ ranks size ↔ IsRank size r := by
  rw [isRank_iff, ranks, List.mem_map]
  simp only [List.mem_range, eq_comm]

/-- An access to a table with one entry for each rank. -/
def entry {α : Type*} (table : List α) (r : Rank) : Option α :=
  if 0 ≤ r then table[r.toNatClampNeg]? else none

theorem entry_ofNat {α : Type*} (table : List α) {k : Nat} (hk : k < 2 ^ 31) :
    entry table (Int32.ofNat k) = table[k]? := by
  have hge : (0 : Int32) ≤ Int32.ofNat k := by
    rw [Int32.le_iff_toInt_le, Int32.toInt_ofNat_of_lt hk]
    exact Int.natCast_nonneg k
  rw [entry, if_pos hge, Int32.toNatClampNeg_ofNat_of_lt hk]

/-- A table with one entry computed for each rank. -/
theorem mapM_ranks {α : Type*} {size : Int32} {f : Rank → Option α} {P : Nat → α → Prop}
    (h : ∀ k < size.toNatClampNeg, ∃ t, f (Int32.ofNat k) = some t ∧ P k t) :
    ∃ table, (ranks size).mapM f = some table ∧
      ∀ k < size.toNatClampNeg, ∃ t, entry table (Int32.ofNat k) = some t ∧ P k t := by
  have hsize := Int32.toNatClampNeg_lt size
  obtain ⟨table, htable, hentry⟩ := mapM_isSome (f := f) (l := ranks size) fun r hr => by
    obtain ⟨k, hk, rfl⟩ := isRank_iff.mp (mem_ranks.mp hr)
    obtain ⟨t, ht, -⟩ := h k hk
    exact ⟨t, ht⟩
  refine ⟨table, htable, fun k hk => ?_⟩
  obtain ⟨t, ht, hp⟩ := h k hk
  refine ⟨t, ?_, hp⟩
  rw [entry_ofNat _ (by omega), hentry k (by simpa [ranks] using hk)]
  simpa [ranks] using ht

/-! ## Tables of tuples -/

/-- The word of a rank in a table of tuples. -/
def rankWord (d : Nat) (table : List Tuple) (r : Rank) : List Nat :=
  ((entry table r).map (Tuple.word d)).getD []

theorem rankWord_eq {d : Nat} {table : List Tuple} {r : Rank} {t : Tuple}
    (h : entry table r = some t) : rankWord d table r = t.word d := by
  rw [rankWord, h]
  rfl

/-- A table whose ranks all have different words. -/
structure Tells (size : Int32) (d : Nat) (table : List Tuple) : Prop where
  entry : ∀ r, IsRank size r → ∃ t, entry table r = some t
  injective : ∀ r r', IsRank size r → IsRank size r' →
    rankWord d table r = rankWord d table r' → r = r'

theorem Tells.length {size : Int32} {d : Nat} {table : List Tuple} (h : Tells size d table)
    {r : Rank} (hr : IsRank size r) : (rankWord d table r).length = d := by
  obtain ⟨t, ht⟩ := h.entry r hr
  rw [rankWord_eq ht, Tuple.length_word]

/-- No two ranks have the same symbols. -/
theorem Tells.nodup {size : Int32} {d : Nat} {table : List Tuple} (h : Tells size d table)
    (hlength : table.length = size.toNatClampNeg) : (table.map (Tuple.word d)).Nodup := by
  have hsize := Int32.toNatClampNeg_lt size
  rw [List.Nodup, List.pairwise_iff_getElem]
  intro i j hi hj hij heq
  rw [List.length_map] at hi hj
  have hword : ∀ i (hi : i < table.length),
      rankWord d table (Int32.ofNat i) = table[i].word d := by
    intro i hi
    apply rankWord_eq
    rw [entry_ofNat _ (by omega), List.getElem?_eq_getElem hi]
  rw [List.getElem_map, List.getElem_map, ← hword i hi, ← hword j hj] at heq
  have := h.injective _ _ (isRank_ofNat (by omega)) (isRank_ofNat (by omega)) heq
  have := congrArg Int32.toNatClampNeg this
  rw [Int32.toNatClampNeg_ofNat_of_lt (by omega),
    Int32.toNatClampNeg_ofNat_of_lt (by omega)] at this
  omega

/-- The table of the words of the numbers below `size`. Two ranks or more are all the words. -/
structure WordTable (size : Int32) (b d : Nat) (table : List Tuple) : Prop where
  two_le : 2 ≤ b
  cells : d ≤ 16
  fits : b ^ d < 2 ^ 31
  le : size.toNatClampNeg ≤ b ^ d
  full : 2 ≤ size.toNatClampNeg → size.toNatClampNeg = b ^ d
  word : ∀ k < size.toNatClampNeg, ∃ t, RayPlatform.entry table (Int32.ofNat k) = some t ∧
    t.word d = digitWord b d k

theorem wordTable_of_convertToBase {size : Int32} {b d : Nat} (htwo : 2 ≤ b) (hb : b ≤ 256)
    (hcells : d ≤ 16) (hfits : b ^ d < 2 ^ 31) (hle : size.toNatClampNeg ≤ b ^ d)
    (hfull : 2 ≤ size.toNatClampNeg → size.toNatClampNeg = b ^ d) :
    ∃ table, (ranks size).mapM (convertToBase (Int32.ofNat b) d) = some table ∧
      WordTable size b d table := by
  obtain ⟨table, htable, hword⟩ := mapM_ranks
    (f := convertToBase (Int32.ofNat b) d) (P := fun k t => t.word d = digitWord b d k)
    fun k (hk : k < size.toNatClampNeg) =>
      convertToBase_spec (by omega) hb hcells hfits (by omega)
  exact ⟨table, htable, htwo, hcells, hfits, hle, hfull, hword⟩

namespace WordTable

variable {size : Int32} {b d : Nat} {table : List Tuple}

theorem rankWord_ofNat (h : WordTable size b d table) {k : Nat} (hk : k < size.toNatClampNeg) :
    rankWord d table (Int32.ofNat k) = digitWord b d k := by
  obtain ⟨t, ht, hword⟩ := h.word k hk
  rw [rankWord_eq ht, hword]

theorem tells (h : WordTable size b d table) : Tells size d table := by
  have hle := h.le
  constructor
  · intro r hr
    obtain ⟨k, hk, rfl⟩ := isRank_iff.mp hr
    obtain ⟨t, ht, -⟩ := h.word k hk
    exact ⟨t, ht⟩
  · intro r r' hr hr' hword
    obtain ⟨k, hk, rfl⟩ := isRank_iff.mp hr
    obtain ⟨k', hk', rfl⟩ := isRank_iff.mp hr'
    rw [h.rankWord_ofNat hk, h.rankWord_ofNat hk'] at hword
    rw [digitWord_injOn (by omega) (by omega) hword]

theorem symbol_lt (h : WordTable size b d table) {r : Rank} (hr : IsRank size r) :
    ∀ x ∈ rankWord d table r, x < b := by
  have htwo := h.two_le
  obtain ⟨k, hk, rfl⟩ := isRank_iff.mp hr
  rw [h.rankWord_ofNat hk]
  exact digitWord_lt (by omega)

theorem digit_lt (h : WordTable size b d table) {r : Rank} (hr : IsRank size r) {t : Tuple}
    (ht : RayPlatform.entry table r = some t) {p : Nat} (hp : p < d) : (t.digit p).toNat < b := by
  apply h.symbol_lt hr
  rw [rankWord_eq ht]
  exact List.mem_map.mpr ⟨p, List.mem_range.mpr hp, rfl⟩

/-- There are two ranks, so that all words are ranks. -/
theorem toNat (h : WordTable size b d table) {r r' : Rank} (hr : IsRank size r)
    (hr' : IsRank size r') (hne : r ≠ r') : size.toNatClampNeg = b ^ d := by
  apply h.full
  obtain ⟨k, hk, rfl⟩ := isRank_iff.mp hr
  obtain ⟨k', hk', rfl⟩ := isRank_iff.mp hr'
  have : k ≠ k' := fun heq => hne (congrArg _ heq)
  omega

/-- The number of a tuple is the rank with its word. -/
theorem number (h : WordTable size b d table) (hfull : size.toNatClampNeg = b ^ d) {t : Tuple}
    (ht : ∀ x ∈ t.word d, x < b) :
    IsRank size (Int32.ofNat (ofDigits b (t.word d))) ∧
      rankWord d table (Int32.ofNat (ofDigits b (t.word d))) = t.word d := by
  have htwo := h.two_le
  have hlt := ofDigits_word_lt (by omega) ht
  rw [← hfull] at hlt
  refine ⟨isRank_ofNat hlt, ?_⟩
  rw [h.rankWord_ofNat hlt]
  have := digitWord_ofDigits (by omega) ht
  rwa [Tuple.length_word] at this

end WordTable

/-! ## Connections -/

/-- `m_outcomingConnections`, which `makeConnections` fills for all pairs of ranks. -/
def outcomingConnections (size : Int32) (computeConnection : Rank → Rank → Option Bool) :
    List (List Rank) :=
  (ranks size).map fun i => (ranks size).filter fun j => computeConnection i j == some true

def isConnected (m_outcomingConnections : List (List Rank)) (source destination : Rank) : Bool :=
  if source = destination then true
  else ((entry m_outcomingConnections source).getD []).contains destination

theorem isConnected_of_computeConnection {size : Int32} {connection : Rank → Rank → Option Bool}
    {i j : Rank} (hi : IsRank size i) (hj : IsRank size j) (h : connection i j = some true) :
    isConnected (outcomingConnections size connection) i j = true := by
  obtain ⟨k, hk, rfl⟩ := isRank_iff.mp hi
  have hsize := Int32.toNatClampNeg_lt size
  rw [isConnected]
  split
  · rfl
  · rw [entry_ofNat _ (by omega), outcomingConnections, List.getElem?_map, ranks,
      List.getElem?_map, List.getElem?_range hk]
    simp only [Option.map_some, Option.getD_some, List.contains_iff_mem, List.mem_filter]
    exact ⟨mem_ranks.mpr hj, by simp [h]⟩

/-! ## Routes -/

section Routes

variable {Graph : Type*} (getNextRankInRoute : Graph → Rank → Rank → Rank → Option (Rank × Graph))

/-- The loop of `getRoute`, at `currentVertex`. -/
def routeFrom (source destination : Rank) : Nat → Graph → Rank → Option (List Rank × Graph)
  | fuel, g, currentVertex =>
    if currentVertex = destination then some ([currentVertex], g)
    else
      match fuel with
      | 0 => none
      | fuel + 1 => do
          let (nextVertex, g) ← getNextRankInRoute g source destination currentVertex
          let (route, g) ← routeFrom source destination fuel g nextVertex
          return (currentVertex :: route, g)

/-- The loop runs at most `fuel` times. -/
def getRoute (fuel : Nat) (g : Graph) (source destination : Rank) : Option (List Rank × Graph) :=
  routeFrom getNextRankInRoute source destination fuel g source

/-- A route along edges, which reaches the destination with its last hop. -/
structure IsRoute (connected : Rank → Rank → Bool) (source destination : Rank) (hops : Nat)
    (route : List Rank) : Prop where
  head : route.head? = some source
  last : route.getLast? = some destination
  edges : route.IsChain fun a b => connected a b = true
  length : route.length = hops + 1

variable {getNextRankInRoute} {source destination : Rank} {connected : Rank → Rank → Bool}

/-- Hops that each come one step closer make a route as long as the distance. -/
theorem routeFrom_isRoute (Valid : Graph → Prop) (vertex : Rank → Prop) (distance : Rank → Nat)
    (harrived : ∀ r, vertex r → (distance r = 0 ↔ r = destination))
    (hstep : ∀ g r, Valid g → vertex r → r ≠ destination → ∃ next g',
      getNextRankInRoute g source destination r = some (next, g') ∧ Valid g' ∧ vertex next ∧
        connected r next = true ∧ distance r = distance next + 1) :
    ∀ fuel g r, Valid g → vertex r → distance r ≤ fuel → ∃ route g',
      routeFrom getNextRankInRoute source destination fuel g r = some (route, g') ∧ Valid g' ∧
        IsRoute connected r destination (distance r) route := by
  intro fuel
  induction fuel with
  | zero =>
      intro g r hg hr hle
      have hthere := (harrived r hr).mp (by omega)
      have hzero := (harrived r hr).mpr hthere
      rw [routeFrom, if_pos hthere]
      exact ⟨_, g, rfl, hg, by simp, by simp [hthere], by simp, by simp [hzero]⟩
  | succ fuel ih =>
      intro g r hg hr hle
      by_cases hthere : r = destination
      · have hzero := (harrived r hr).mpr hthere
        rw [routeFrom, if_pos hthere]
        exact ⟨_, g, rfl, hg, by simp, by simp [hthere], by simp, by simp [hzero]⟩
      · obtain ⟨next, g₁, hnext, hg₁, hvertex, hedge, hcloser⟩ := hstep g r hg hr hthere
        obtain ⟨route, g₂, hroute, hg₂, hrest⟩ := ih g₁ next hg₁ hvertex (by omega)
        obtain ⟨tail, rfl⟩ : ∃ tail, route = next :: tail := by
          have := hrest.head
          cases route with
          | nil => simp at this
          | cons a tail => exact ⟨tail, by simpa using this⟩
        rw [routeFrom, if_neg hthere, hnext]
        simp only [Option.bind_eq_bind, Option.bind_some, hroute]
        refine ⟨_, g₂, rfl, hg₂, rfl, ?_, ?_, ?_⟩
        · rw [List.getLast?_cons_cons]
          exact hrest.last
        · exact List.isChain_cons_cons.mpr ⟨hedge, hrest.edges⟩
        · rw [List.length_cons, hrest.length, hcloser]

end Routes

/-! ## Powers -/

/-- The loop of `isAPowerOf`. -/
def isAPowerOf (base : Int32) : Nat → Int32 → Option Bool
  | 0, _ => none
  | fuel + 1, remaining =>
    if remaining > 1 then
      -- a division by zero fails
      if base = 0 then none
      else if remaining % base ≠ 0 then some false
      else isAPowerOf base fuel (remaining / base)
    else some true

/-- `while(n > getPower(base,digits)) digits++` -/
def countDigits (n base : Int32) : Nat → Nat → Option Nat
  | 0, _ => none
  | fuel + 1, digits =>
    if n > getPower base digits then countDigits n base fuel (digits + 1) else some digits

theorem isAPowerOf_spec {b : Nat} (hb : 2 ≤ b) (hb' : b < 2 ^ 31) :
    ∀ fuel n, 0 < n → n < 2 ^ 31 → isAPowerOf (Int32.ofNat b) fuel (Int32.ofNat n) = some true →
      ∃ e, n = b ^ e := by
  intro fuel
  induction fuel with
  | zero =>
      intro n _ _ h
      simp [isAPowerOf] at h
  | succ fuel ih =>
      intro n hpos hn h
      have hone : Int32.ofNat n > 1 ↔ 1 < n := Int32.ofNat_lt_iff_lt (a := 1) (by omega) hn
      rw [isAPowerOf] at h
      split at h
      case isTrue hgt =>
        have hgt := hone.mp hgt
        split at h
        · simp at h
        · split at h
          · simp at h
          · rename_i hmod
            rw [← Int32.ofNat_mod hn hb', not_not] at hmod
            have hdvd : n % b = 0 := by
              have hlt := Nat.mod_lt n (by omega : b > 0)
              have := congrArg Int32.toNatClampNeg hmod
              rwa [Int32.toNatClampNeg_ofNat_of_lt (by omega)] at this
            have hdvd := Nat.dvd_of_mod_eq_zero hdvd
            rw [← Int32.ofNat_div hn hb'] at h
            have hle := Nat.div_le_self n b
            obtain ⟨e, he⟩ := ih (n / b) (Nat.div_pos (Nat.le_of_dvd hpos hdvd) (by omega))
              (by omega) h
            exact ⟨e + 1, by rw [Nat.pow_succ, ← he, Nat.div_mul_cancel hdvd]⟩
      case isFalse hle =>
        have hle : ¬ 1 < n := fun h => hle (hone.mpr h)
        exact ⟨0, by rw [Nat.pow_zero]; omega⟩

/-- The number of digits of a power is its exponent, at least the first one that is tried. -/
theorem countDigits_spec {b e : Nat} (hb : 2 ≤ b) (hpow : b ^ e < 2 ^ 31) :
    ∀ fuel digits d, digits ≤ e →
      countDigits (Int32.ofNat (b ^ e)) (Int32.ofNat b) fuel digits = some d → d = e := by
  intro fuel
  induction fuel with
  | zero =>
      intro digits d _ h
      simp [countDigits] at h
  | succ fuel ih =>
      intro digits d hle h
      have hdigits : b ^ digits ≤ b ^ e := Nat.pow_le_pow_right (by omega) hle
      have hmore : Int32.ofNat (b ^ e) > getPower (Int32.ofNat b) digits ↔ digits < e := by
        rw [getPower_ofNat]
        exact (Int32.ofNat_lt_iff_lt (by omega) hpow).trans (Nat.pow_lt_pow_iff_right (by omega))
      rw [countDigits] at h
      split at h
      case isTrue hgt => exact ih (digits + 1) d (hmore.mp hgt) h
      case isFalse hle' =>
        have := mt hmore.mpr hle'
        simp only [Option.some.injEq] at h
        omega

/-- What the check and the count of the digits say about a number of ranks. One rank, which
is the power of nothing else, has one digit. -/
structure PowerOf (n : Int32) (b d : Nat) : Prop where
  digits : 1 ≤ d
  fits : b ^ d < 2 ^ 31
  le : n.toNatClampNeg ≤ b ^ d
  full : 2 ≤ n.toNatClampNeg → n.toNatClampNeg = b ^ d
  single : n.toNatClampNeg < 2 → d = 1

theorem powerOf_of_isAPowerOf {fuel : Nat} {n : Int32} {b d : Nat} (hb : 2 ≤ b) (hb' : b < 2 ^ 31)
    (hpower : isAPowerOf (Int32.ofNat b) fuel n = some true)
    (hdigits : countDigits n (Int32.ofNat b) fuel 1 = some d) : PowerOf n b d := by
  rcases Nat.lt_or_ge n.toNatClampNeg 2 with hlt | hge
  · have hle : ¬ n > getPower (Int32.ofNat b) 1 := by
      rw [getPower_ofNat, Nat.pow_one, gt_iff_lt, Int32.lt_iff_toInt_lt,
        Int32.toInt_ofNat_of_lt hb']
      rw [Int32.toNatClampNeg] at hlt
      omega
    cases fuel with
    | zero => simp [countDigits] at hdigits
    | succ fuel =>
        rw [countDigits, if_neg hle] at hdigits
        obtain rfl := Option.some.inj hdigits
        exact ⟨le_rfl, by rwa [Nat.pow_one], by rw [Nat.pow_one]; omega, by omega, fun _ => rfl⟩
  · have hn := Int32.toNatClampNeg_lt n
    have hpos : 0 ≤ n := by
      rw [Int32.le_iff_toInt_le]
      have hzero : (0 : Int32).toInt = 0 := rfl
      rw [Int32.toNatClampNeg] at hge
      omega
    rw [← Int32.ofNat_toNatClampNeg n hpos] at hpower hdigits
    obtain ⟨e, he⟩ := isAPowerOf_spec hb hb' fuel _ (by omega) hn hpower
    have hone : 1 ≤ e := by
      rcases Nat.eq_zero_or_pos e with rfl | hone
      · rw [Nat.pow_zero] at he
        omega
      · exact hone
    rw [he] at hdigits hn
    obtain rfl := countDigits_spec hb hn fuel 1 d hone hdigits
    exact ⟨hone, hn, he.le, fun _ => he, by omega⟩

end RayPlatform
