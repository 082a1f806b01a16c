import RayPlatform.Routing.LoadedGraph

/-!
# Torus

The vertices are all the words of `m_dimension` symbols. Each dimension is a ring of
`m_radix` symbols, and an edge joins words of which one has one symbol moved by one on its
ring. A hop moves one symbol along the shorter way to the symbol of the destination, or
along either way where they are as long, where the load is the lowest.

* `configureGraph_spec`: an accepted number of ranks above one is a power of the radix.
* `torus_routing`: whatever the loads are, each hop is an edge and comes exactly one closer
  to the destination, so that a route takes the sum of the shorter ways over the dimensions.
-/

namespace RayPlatform

open Lib
open MessageRouter (IsRank)

structure Torus where
  m_loadValues : LoadTable
  m_radix : Int32
  m_dimension : Nat
  m_size : Int32
  m_graphToVertex : List Tuple
  m_outcomingConnections : List (List Rank)

namespace Torus

/-- What `configureGraph` sets. -/
structure Configuration where
  m_loadValues : LoadTable
  m_radix : Int32
  m_dimension : Nat
  m_size : Int32

/-- The loop over the radices, downwards, up to the first match with the degree. -/
def searchRadix (fuel : Nat) (m_degree vertices : Int32) : Nat → Option Int32
  | 0 => some 2
  | radix + 1 =>
    if radix + 1 < 2 then some 2
    else do
      let size := Int32.ofNat (radix + 1)
      let dimension ← countDigits vertices size fuel 1
      -- for each dimension we can go left and right
      if vertices = getPower size dimension ∧ 2 * Int32.ofNat dimension = m_degree then
        return size
      else
        searchRadix fuel m_degree vertices radix

/-- `m_degree` is the degree that the user provides. Each loop runs at most `fuel` times. -/
def configureGraph (fuel : Nat) (m_degree vertices : Int32) : Option Configuration := do
  let theRadix ← searchRadix fuel m_degree vertices (vertices - 1).toNatClampNeg
  if ← isAPowerOf theRadix fuel vertices then
    let dimension ← countDigits vertices theRadix fuel 1
    let loads ← startLoads theRadix dimension
    return {
      m_loadValues := loads
      m_radix := theRadix
      m_dimension := dimension
      m_size := vertices }
  else
    -- `__INVALID_ALPHABET_SIZE`: nothing else is set
    return {
      m_loadValues := Vector.replicate 256 0
      m_radix := -1
      m_dimension := 0
      m_size := 0 }

def isValid (fuel : Nat) (m_degree vertices : Int32) : Option Bool := do
  let configuration ← configureGraph fuel m_degree vertices
  return configuration.m_radix ≠ -1

def getDistance (m_radix ending start : Int32) : Int32 :=
  (ending - start + m_radix) % m_radix

/-- The lesser of the distances to the left and to the right. -/
def getMinimumDistance (m_radix a b : Int32) : Int32 :=
  let left := getDistance m_radix a b
  let right := getDistance m_radix b a
  if left < right then left else right

def incrementSymbol (m_radix symbol : Int32) : Int32 :=
  (symbol + 1) % m_radix

def decrementSymbol (m_radix symbol : Int32) : Int32 :=
  (symbol - 1 + m_radix) % m_radix

/-- An edge moves one symbol by one: the other ones are the same. -/
def computeConnection (m_radix : Int32) (m_dimension : Nat) (m_graphToVertex : List Tuple)
    (source destination : Rank) : Option Bool := do
  if source = destination then return false
  let sourceVertex ← entry m_graphToVertex source
  let destinationVertex ← entry m_graphToVertex destination
  let same := (List.range m_dimension).countP fun i =>
    sourceVertex.digit i == destinationVertex.digit i
  let differencesOf1 := (List.range m_dimension).countP fun i =>
    let sourceSymbol := Int32.ofNat (sourceVertex.digit i).toNat
    let destinationSymbol := Int32.ofNat (destinationVertex.digit i).toNat
    sourceVertex.digit i != destinationVertex.digit i &&
      (incrementSymbol m_radix sourceSymbol == destinationSymbol ||
        decrementSymbol m_radix sourceSymbol == destinationSymbol)
  return differencesOf1 + same = m_dimension ∧ differencesOf1 = 1

def makeConnections (fuel : Nat) (m_degree vertices : Int32) : Option Torus := do
  let configuration ← configureGraph fuel m_degree vertices
  let table ← (ranks configuration.m_size).mapM
    (convertToBase configuration.m_radix configuration.m_dimension)
  return {
    m_loadValues := configuration.m_loadValues
    m_radix := configuration.m_radix
    m_dimension := configuration.m_dimension
    m_size := configuration.m_size
    m_graphToVertex := table
    m_outcomingConnections := outcomingConnections configuration.m_size
      (computeConnection configuration.m_radix configuration.m_dimension table) }

/-- Select the edge to a next symbol if it has a lower load, or if it is the first one. -/
def considerSymbol (g : Torus) (position : Nat) (best : Option Choice) (nextSymbol : Int32) :
    Option Choice :=
  select best
    { position := position
      symbol := nextSymbol
      load := getLoad g.m_radix g.m_loadValues position nextSymbol }

/-- One position of the loop of `getNextRankInRoute`. -/
def considerPosition (g : Torus) (currentVertex destinationVertex : Tuple)
    (best : Option Choice) (position : Nat) : Option Choice :=
  let currentSymbol := Int32.ofNat (currentVertex.digit position).toNat
  let destinationSymbol := Int32.ofNat (destinationVertex.digit position).toNat
  -- nothing to test where the symbol is already correct
  if currentSymbol = destinationSymbol then best
  else
    let leftDistance := getDistance g.m_radix currentSymbol destinationSymbol
    let rightDistance := getDistance g.m_radix destinationSymbol currentSymbol
    let best :=
      if leftDistance ≤ rightDistance then
        g.considerSymbol position best (decrementSymbol g.m_radix currentSymbol)
      else best
    if rightDistance ≤ leftDistance then
      g.considerSymbol position best (incrementSymbol g.m_radix currentSymbol)
    else best

/-- Select the next rank that has the lowest load. -/
def getNextRankInRoute (g : Torus) (_source destination current : Rank) :
    Option (Rank × Torus) := do
  let destinationVertex ← entry g.m_graphToVertex destination
  let currentVertex ← entry g.m_graphToVertex current
  -- without a choice, the write at position -1 fails
  let choice ← (List.range g.m_dimension).foldl
    (g.considerPosition currentVertex destinationVertex) none
  let (nextRank, loads) ←
    changeSymbol g.m_radix g.m_dimension g.m_loadValues currentVertex choice
  return (nextRank, { g with m_loadValues := loads })

def isConnected (g : Torus) (source destination : Rank) : Bool :=
  RayPlatform.isConnected g.m_outcomingConnections source destination

/-- The sum of the shorter ways over the dimensions. -/
def torusDistance (g : Torus) (r r' : Rank) : Nat :=
  distance (cyclic g.m_radix.toNatClampNeg) (rankWord g.m_dimension g.m_graphToVertex r)
    (rankWord g.m_dimension g.m_graphToVertex r')

def withLoads (g : Torus) (loads : LoadTable) : Torus :=
  { g with m_loadValues := loads }

/-! ## The rings -/

theorem ofNat_sub_add (x : Nat) {y r : Nat} (h : y ≤ r) :
    Int32.ofNat x - Int32.ofNat y + Int32.ofNat r = Int32.ofNat (x + r - y) := by
  obtain ⟨k, rfl⟩ := Nat.exists_eq_add_of_le h
  rw [show x + (y + k) - y = x + k by omega, Int32.ofNat_add, Int32.ofNat_add, ← Int32.add_assoc,
    Int32.sub_add_cancel]

theorem getDistance_ofNat {r x y : Nat} (hr : r ≤ 256) (hx : x < r) (hy : y < r) :
    getDistance (Int32.ofNat r) (Int32.ofNat x) (Int32.ofNat y) =
      Int32.ofNat (stepsDown r x y) := by
  rw [getDistance, ofNat_sub_add x hy.le, ← Int32.ofNat_mod (by omega) (by omega), stepsDown]

theorem incrementSymbol_ofNat {r x : Nat} (hr : r ≤ 256) (hx : x < r) :
    incrementSymbol (Int32.ofNat r) (Int32.ofNat x) = Int32.ofNat ((x + 1) % r) := by
  rw [incrementSymbol, Int32.ofNat_mod (by omega) (by omega), Int32.ofNat_add]
  rfl

theorem decrementSymbol_ofNat {r x : Nat} (hr : r ≤ 256) (hx : x < r) :
    decrementSymbol (Int32.ofNat r) (Int32.ofNat x) = Int32.ofNat ((x + r - 1) % r) := by
  rw [Int32.ofNat_mod (by omega) (by omega), ← ofNat_sub_add x (by omega)]
  rfl

/-- The lesser distance is the shorter way of the ring. -/
theorem getMinimumDistance_ofNat {r x y : Nat} (hr : r ≤ 256) (hx : x < r) (hy : y < r) :
    getMinimumDistance (Int32.ofNat r) (Int32.ofNat x) (Int32.ofNat y) =
      Int32.ofNat (cyclic r x y) := by
  have hleft : stepsDown r x y < r := Nat.mod_lt _ (by omega)
  have hright : stepsDown r y x < r := Nat.mod_lt _ (by omega)
  have hcompare := Int32.ofNat_lt_iff_lt (a := stepsDown r x y) (b := stepsDown r y x)
    (by omega) (by omega)
  rw [getMinimumDistance, getDistance_ofNat hr hx hy, getDistance_ofNat hr hy hx, cyclic]
  split
  case isTrue hlt => rw [min_eq_left (hcompare.mp hlt).le]
  case isFalse hge => rw [min_eq_right (not_lt.mp (mt hcompare.mpr hge))]

/-- The symbol `v` is next to `x`, one closer to `y`. -/
structure Towards (r x y v : Nat) : Prop where
  lt : v < r
  next : v = (x + r - 1) % r ∨ v = (x + 1) % r
  closer : cyclic r x y = cyclic r v y + 1

theorem Towards.ne {r x y v : Nat} (h : Towards r x y v) : v ≠ x := by
  rintro rfl
  have := h.closer
  omega

/-! ## The configuration -/

/-- The search ends with one of the radices or with 2. -/
theorem searchRadix_spec {fuel : Nat} {m_degree n theRadix : Int32} :
    ∀ m, searchRadix fuel m_degree n m = some theRadix →
      theRadix = 2 ∨ ∃ a, 2 ≤ a ∧ a ≤ m ∧ theRadix = Int32.ofNat a := by
  intro m
  induction m with
  | zero => exact fun h => .inl (Option.some.inj h).symm
  | succ m ih =>
      intro h
      rw [searchRadix] at h
      split at h
      case isTrue => exact .inl (Option.some.inj h).symm
      case isFalse hge =>
        obtain ⟨dimension, -, h⟩ := Option.bind_eq_some_iff.mp h
        split at h
        case isTrue => exact .inr ⟨m + 1, by omega, le_rfl, (Option.some.inj h).symm⟩
        case isFalse =>
          rcases ih h with heq | ⟨a, htwo, ha, heq⟩
          · exact .inl heq
          · exact .inr ⟨a, htwo, by omega, heq⟩

/-- An accepted number of ranks above one is the number of words. -/
structure Accepts (n : Int32) (c : Configuration) (r d : Nat) : Prop where
  two_le : 2 ≤ r
  lt : r < 2 ^ 31
  power : PowerOf n r d
  m_radix : c.m_radix = Int32.ofNat r
  m_dimension : c.m_dimension = d
  m_size : c.m_size = n

theorem configureGraph_spec {fuel : Nat} {m_degree n : Int32} {c : Configuration}
    (h : configureGraph fuel m_degree n = some c) (haccepted : c.m_radix ≠ -1) :
    ∃ r d, Accepts n c r d := by
  obtain ⟨theRadix, hradix, h⟩ := Option.bind_eq_some_iff.mp h
  obtain ⟨power, hpower, h⟩ := Option.bind_eq_some_iff.mp h
  have hn := Int32.toNatClampNeg_lt (n - 1)
  obtain ⟨r, htwo, hr, rfl⟩ : ∃ r, 2 ≤ r ∧ r < 2 ^ 31 ∧ theRadix = Int32.ofNat r := by
    rcases searchRadix_spec _ hradix with rfl | ⟨a, htwo, ha, rfl⟩
    · exact ⟨2, le_rfl, by omega, rfl⟩
    · exact ⟨a, htwo, by omega, rfl⟩
  cases power with
  | false =>
      obtain rfl := Option.some.inj h
      exact absurd rfl haccepted
  | true =>
      obtain ⟨d, hdigits, h⟩ := Option.bind_eq_some_iff.mp h
      obtain ⟨loads, -, h⟩ := Option.bind_eq_some_iff.mp h
      obtain rfl := Option.some.inj h
      exact ⟨r, d, htwo, hr, powerOf_of_isAPowerOf htwo hr hpower hdigits, rfl, rfl, rfl⟩

/-! ## The graph -/

/-- A graph with its tables, of which only the loads change. -/
structure Built (n : Int32) (r d : Nat) (g : Torus) : Prop where
  m_radix : g.m_radix = Int32.ofNat r
  m_dimension : g.m_dimension = d
  table : WordTable n r d g.m_graphToVertex
  small : r ≤ 256
  fits : d * r ≤ 256
  connections : g.m_outcomingConnections =
    outcomingConnections n (computeConnection (Int32.ofNat r) d g.m_graphToVertex)

theorem makeConnections_spec {fuel : Nat} {m_degree n : Int32} {c : Configuration} {r d : Nat}
    (hc : configureGraph fuel m_degree n = some c) (h : Accepts n c r d) (hcells : d ≤ 16)
    (hfits : d * r ≤ 256) : ∃ g, makeConnections fuel m_degree n = some g ∧ Built n r d g := by
  obtain ⟨htwo, -, hpower, hcr, hcd, hcn⟩ := h
  have hr : r ≤ 256 := (Nat.le_mul_of_pos_left r hpower.digits).trans hfits
  obtain ⟨table, htable, hwords⟩ :=
    wordTable_of_convertToBase htwo hr hcells hpower.fits hpower.le hpower.full
  rw [makeConnections, hc]
  simp only [Option.bind_eq_bind, Option.bind_some, hcr, hcd, hcn, htable]
  exact ⟨_, rfl, rfl, rfl, hwords, hr, hfits, rfl⟩

/-- A choice that moves a symbol towards the one of the destination. -/
structure Approaches (r d : Nat) (currentVertex destinationVertex : Tuple) (c : Choice) :
    Prop where
  position : c.position < d
  symbol : ∃ v, c.symbol = Int32.ofNat v ∧ Towards r (currentVertex.digit c.position).toNat
    (destinationVertex.digit c.position).toNat v

/-- Where the symbols differ, a position has one candidate, or two of them if the two ways
are as long. -/
theorem considerPosition_differs {g : Torus} {r p : Nat} {currentVertex destinationVertex : Tuple}
    (hradix : g.m_radix = Int32.ofNat r) (hr : r ≤ 256) (hx : (currentVertex.digit p).toNat < r)
    (hy : (destinationVertex.digit p).toNat < r)
    (hne : currentVertex.digit p ≠ destinationVertex.digit p) (best : Option Choice) :
    ∃ v, Towards r (currentVertex.digit p).toNat (destinationVertex.digit p).toNat v ∧
      (g.considerPosition currentVertex destinationVertex best p =
          g.considerSymbol p best (Int32.ofNat v) ∨
        ∃ v', Towards r (currentVertex.digit p).toNat (destinationVertex.digit p).toNat v' ∧
          g.considerPosition currentVertex destinationVertex best p =
            g.considerSymbol p (g.considerSymbol p best (Int32.ofNat v)) (Int32.ofNat v')) := by
  rw [considerPosition, if_neg (mt (ofNat_digit_eq_iff _ _).mp hne), hradix]
  rw [← UInt8.toNat_inj.ne] at hne
  generalize (currentVertex.digit p).toNat = x at *
  generalize (destinationVertex.digit p).toNat = y at *
  have hleft : stepsDown r x y < r := Nat.mod_lt _ (by omega)
  have hright : stepsDown r y x < r := Nat.mod_lt _ (by omega)
  have hcompare := Int32.ofNat_le_iff_le (a := stepsDown r x y) (b := stepsDown r y x)
    (by omega) (by omega)
  have hcompare' := Int32.ofNat_le_iff_le (a := stepsDown r y x) (b := stepsDown r x y)
    (by omega) (by omega)
  have hdown (hle : stepsDown r x y ≤ stepsDown r y x) : Towards r x y ((x + r - 1) % r) :=
    ⟨Nat.mod_lt _ (by omega), .inl rfl, cyclic_down hx hy hne hle⟩
  have hup (hle : stepsDown r y x ≤ stepsDown r x y) : Towards r x y ((x + 1) % r) :=
    ⟨Nat.mod_lt _ (by omega), .inr rfl, cyclic_up hx hy hne hle⟩
  simp only [getDistance_ofNat hr hx hy, getDistance_ofNat hr hy hx, decrementSymbol_ofNat hr hx,
    incrementSymbol_ofNat hr hx]
  rcases Nat.lt_trichotomy (stepsDown r x y) (stepsDown r y x) with hlt | heq | hgt
  · rw [if_pos (hcompare.mpr hlt.le), if_neg (mt hcompare'.mp hlt.not_ge)]
    exact ⟨_, hdown hlt.le, .inl rfl⟩
  · rw [if_pos (hcompare.mpr heq.le), if_pos (hcompare'.mpr heq.ge)]
    exact ⟨_, hdown heq.le, .inr ⟨_, hup heq.ge, rfl⟩⟩
  · rw [if_neg (mt hcompare.mp hgt.not_ge), if_pos (hcompare'.mpr hgt.le)]
    exact ⟨_, hup hgt.le, .inl rfl⟩

theorem exists_approach {g : Torus} {r d p : Nat} {currentVertex destinationVertex : Tuple}
    (hradix : g.m_radix = Int32.ofNat r) (hr : r ≤ 256)
    (hx : ∀ q < d, (currentVertex.digit q).toNat < r)
    (hy : ∀ q < d, (destinationVertex.digit q).toNat < r) (hp : p < d)
    (hdiffers : currentVertex.digit p ≠ destinationVertex.digit p) :
    ∃ c, (List.range d).foldl (g.considerPosition currentVertex destinationVertex) none = some c ∧
      Approaches r d currentVertex destinationVertex c := by
  have hsame {best q} (heq : currentVertex.digit q = destinationVertex.digit q) :
      g.considerPosition currentVertex destinationVertex best q = best := by
    rw [considerPosition, if_pos ((ofNat_digit_eq_iff _ _).mpr heq)]
  have hsome {best q} (hq : q < d) (hne : currentVertex.digit q ≠ destinationVertex.digit q) :
      g.considerPosition currentVertex destinationVertex best q ≠ none := by
    obtain ⟨v, -, hone | ⟨v', -, htwo⟩⟩ :=
      considerPosition_differs hradix hr (hx q hq) (hy q hq) hne best
    · rw [hone]
      exact select_ne_none _ _
    · rw [htwo]
      exact select_ne_none _ _
  apply exists_choice hp
  · intro best q hq hbest
    by_cases heq : currentVertex.digit q = destinationVertex.digit q
    · rwa [hsame heq]
    · obtain ⟨v, hv, hone | ⟨v', hv', htwo⟩⟩ :=
        considerPosition_differs hradix hr (hx q hq) (hy q hq) heq best
      · rw [hone]
        exact select_good hbest ⟨hq, v, rfl, hv⟩
      · rw [htwo]
        exact select_good (select_good hbest ⟨hq, v, rfl, hv⟩) ⟨hq, v', rfl, hv'⟩
  · intro best q hq hbest
    by_cases heq : currentVertex.digit q = destinationVertex.digit q
    · rwa [hsame heq]
    · exact hsome hq heq
  · exact fun best => hsome hp hdiffers

namespace Built

variable {n : Int32} {r d : Nat} {g : Torus}

/-- Ranks whose words differ in one symbol, by one step, are joined. -/
theorem edge (h : Built n r d g) {current next : Rank} (hcurrent : IsRank n current)
    (hnext : IsRank n next) {currentVertex : Tuple}
    (hcurrentVertex : entry g.m_graphToVertex current = some currentVertex) {p v y : Nat}
    (hp : p < d) (hv : Towards r (currentVertex.digit p).toNat y v)
    (hword : rankWord d g.m_graphToVertex next =
      (rankWord d g.m_graphToVertex current).set p v) :
    g.isConnected current next = true := by
  obtain ⟨nextVertex, hnextVertex⟩ := h.table.tells.entry next hnext
  have hx := h.table.digit_lt hcurrent hcurrentVertex hp
  have hne := hv.ne
  rw [rankWord_eq hcurrentVertex, rankWord_eq hnextVertex] at hword
  have hdiffers {i} (hi : i < d) : currentVertex.digit i ≠ nextVertex.digit i ↔ i = p := by
    rw [Ne, ← UInt8.toNat_inj, digit_of_word_set hword hi]
    split
    case isTrue heq => simp [heq, hne.symm]
    case isFalse hrest => simp [hrest]
  have hmoved : incrementSymbol (Int32.ofNat r) (Int32.ofNat (currentVertex.digit p).toNat) =
        Int32.ofNat (nextVertex.digit p).toNat ∨
      decrementSymbol (Int32.ofNat r) (Int32.ofNat (currentVertex.digit p).toNat) =
        Int32.ofNat (nextVertex.digit p).toNat := by
    rw [digit_of_word_set hword hp, if_pos rfl, incrementSymbol_ofNat h.small hx,
      decrementSymbol_ofNat h.small hx]
    rcases hv.next with heq | heq
    · exact .inr (congrArg _ heq.symm)
    · exact .inl (congrArg _ heq.symm)
  have hone : (List.range d).countP (fun i =>
      currentVertex.digit i != nextVertex.digit i &&
        (incrementSymbol (Int32.ofNat r) (Int32.ofNat (currentVertex.digit i).toNat) ==
            Int32.ofNat (nextVertex.digit i).toNat ||
          decrementSymbol (Int32.ofNat r) (Int32.ofNat (currentVertex.digit i).toNat) ==
            Int32.ofNat (nextVertex.digit i).toNat)) = 1 := by
    apply countP_single hp
    intro i hi
    simp only [Bool.and_eq_true, Bool.or_eq_true, bne_iff_ne, beq_iff_eq, hdiffers hi]
    constructor
    · exact And.left
    · rintro rfl
      exact ⟨rfl, hmoved⟩
  have hrest : (List.range d).countP
      (fun i => currentVertex.digit i != nextVertex.digit i) = 1 := by
    apply countP_single hp
    intro i hi
    rw [bne_iff_ne, hdiffers hi]
  have hsame : (List.range d).countP
      (fun i => currentVertex.digit i == nextVertex.digit i) + 1 = d := by
    have hsplit := List.length_eq_countP_add_countP
      (fun i => currentVertex.digit i == nextVertex.digit i) (l := List.range d)
    rw [List.length_range] at hsplit
    rw [← hrest]
    refine Eq.trans ?_ hsplit.symm
    congr 2
    funext i
    by_cases heq : currentVertex.digit i = nextVertex.digit i <;> simp [heq]
  have hconnection : computeConnection (Int32.ofNat r) d g.m_graphToVertex current next =
      some true := by
    have hne : current ≠ next := by
      rintro rfl
      rw [hnextVertex, Option.some.injEq] at hcurrentVertex
      exact (hdiffers hp).mpr rfl (by rw [hcurrentVertex])
    rw [computeConnection, if_neg hne, hcurrentVertex, hnextVertex]
    simp only [Option.bind_eq_bind, Option.bind_some, hone]
    rw [Nat.add_comm, hsame]
    simp
  rw [isConnected, h.connections]
  exact isConnected_of_computeConnection hcurrent hnext hconnection

theorem withLoads (h : Built n r d g) (loads : LoadTable) : Built n r d (g.withLoads loads) :=
  { h with }

/-- One hop: whatever the loads are, some symbol moves towards the one of the destination. -/
theorem hop (h : Built n r d g) (source : Rank) {destination current : Rank}
    (hdestination : IsRank n destination) (hcurrent : IsRank n current)
    (hne : current ≠ destination) :
    ∃ next loads', g.getNextRankInRoute source destination current =
        some (next, g.withLoads loads') ∧
      IsRank n next ∧ g.isConnected current next = true ∧
      g.torusDistance current destination = g.torusDistance next destination + 1 := by
  obtain ⟨currentVertex, destinationVertex, q, hcurrentVertex, hdestinationVertex, hq, hdiffers⟩ :=
    h.table.exists_differing hcurrent hdestination hne
  obtain ⟨⟨p, symbol, load⟩, hchoice, hp, v, hsymbol, hv⟩ := exists_approach h.m_radix h.small
    (fun q hq => h.table.digit_lt hcurrent hcurrentVertex hq)
    (fun q hq => h.table.digit_lt hdestination hdestinationVertex hq) hq hdiffers
  simp only at hp hsymbol hv
  subst hsymbol
  obtain ⟨next, loads', hchange, hrank, hword⟩ := changeSymbol_spec h.table
    (h.table.toNat hcurrent hdestination hne) h.fits hcurrent hcurrentVertex hp hv.lt
    g.m_loadValues load
  refine ⟨next, loads', ?_, hrank, h.edge hcurrent hrank hcurrentVertex hp hv hword, ?_⟩
  · rw [← h.m_radix, ← h.m_dimension] at hchange
    rw [← h.m_dimension] at hchoice
    rw [getNextRankInRoute, hcurrentVertex, hdestinationVertex]
    simp only [Option.bind_eq_bind, Option.bind_some, hchoice, hchange]
    rfl
  · have hsmall := h.small
    rw [torusDistance, torusDistance, h.m_radix, h.m_dimension,
      Int32.toNatClampNeg_ofNat_of_lt (by omega)]
    exact WordTable.distance_changed hcurrentVertex hdestinationVertex hp hword hv.closer

theorem torusDistance_eq_zero_iff (h : Built n r d g) {rank destination : Rank}
    (hrank : IsRank n rank) (hdestination : IsRank n destination) :
    g.torusDistance rank destination = 0 ↔ rank = destination := by
  have hsmall := h.small
  rw [torusDistance, h.m_radix, h.m_dimension, Int32.toNatClampNeg_ofNat_of_lt (by omega)]
  exact h.table.distance_eq_zero_iff (fun x hx y hy => cyclic_eq_zero_iff hx hy) hrank hdestination

end Built

/-! ## Routing -/

/-- Torus routing is minimal under any load: a hop leads over an edge and comes exactly one
closer, so that `getRoute` takes exactly the distance on the torus, from any load table and
also if each hop finds another table. -/
theorem torus_routing {fuel : Nat} {m_degree n : Int32} {c : Configuration}
    (hc : configureGraph fuel m_degree n = some c) (haccepted : c.m_radix ≠ -1)
    (hcells : c.m_dimension ≤ 16) (hfits : c.m_dimension * c.m_radix.toNatClampNeg ≤ 256) :
    ∃ g, makeConnections fuel m_degree n = some g ∧
      (∀ loads source destination current, IsRank n source → IsRank n destination →
        IsRank n current → current ≠ destination → ∃ next loads',
          (g.withLoads loads).getNextRankInRoute source destination current =
            some (next, g.withLoads loads') ∧ IsRank n next ∧
          g.isConnected current next = true ∧
          g.torusDistance current destination = g.torusDistance next destination + 1) ∧
      ∀ source destination, IsRank n source → IsRank n destination →
        ∀ steps ≥ g.torusDistance source destination,
          (∀ loads, ∃ route loads', getRoute getNextRankInRoute steps (g.withLoads loads)
              source destination = some (route, g.withLoads loads') ∧
            IsRoute g.isConnected source destination
              (g.torusDistance source destination) route) ∧
          ∀ loads, ∃ route loads', getRoute (getNextRankUnder g.withLoads getNextRankInRoute)
              steps loads source destination = some (route, loads') ∧
            IsRoute g.isConnected source destination
              (g.torusDistance source destination) route := by
  obtain ⟨r, d, h⟩ := configureGraph_spec hc haccepted
  rw [h.m_dimension] at hcells
  rw [h.m_dimension, h.m_radix, Int32.toNatClampNeg_ofNat_of_lt h.lt] at hfits
  obtain ⟨g, hg, hbuilt⟩ := makeConnections_spec hc h hcells hfits
  refine ⟨g, hg, ?_, ?_⟩
  · intro loads source destination current _ hdestination hcurrent hne
    exact (hbuilt.withLoads loads).hop source hdestination hcurrent hne
  · intro source destination hsource hdestination steps hsteps
    have harrived := fun rank (hrank : IsRank n rank) =>
      hbuilt.torusDistance_eq_zero_iff hrank hdestination
    have hhop := fun loads rank (hrank : IsRank n rank) hne =>
      (hbuilt.withLoads loads).hop source hdestination hrank hne
    exact ⟨getRoute_of_hops harrived hhop hsource hsteps,
      getRoute_under_of_hops harrived hhop hsource hsteps⟩

theorem configureGraph_nine : configureGraph 32 4 9 = some {
    m_loadValues := Vector.replicate 256 0
    m_radix := 3
    m_dimension := 2
    m_size := 9 } := rfl

theorem torus_routing_nine :
    ∃ g, makeConnections 32 4 9 = some g ∧
      (∀ loads, ∃ next loads', (g.withLoads loads).getNextRankInRoute 0 8 0 =
          some (next, g.withLoads loads') ∧ IsRank 9 next ∧ g.isConnected 0 next = true ∧
        g.torusDistance 0 8 = g.torusDistance next 8 + 1) ∧
      ∀ loads, ∃ route loads', getRoute (getNextRankUnder g.withLoads getNextRankInRoute)
          (g.torusDistance 0 8) loads 0 8 = some (route, loads') ∧
        IsRoute g.isConnected 0 8 (g.torusDistance 0 8) route := by
  obtain ⟨g, hg, hhop, hroutes⟩ :=
    torus_routing configureGraph_nine (by decide) (by decide) (by decide)
  have hzero : IsRank 9 0 := ⟨by decide, by decide⟩
  have height : IsRank 9 8 := ⟨by decide, by decide⟩
  exact ⟨g, hg, fun loads => hhop loads 0 8 0 hzero height hzero (by decide),
    (hroutes 0 8 hzero height _ le_rfl).2⟩

end Torus

end RayPlatform
