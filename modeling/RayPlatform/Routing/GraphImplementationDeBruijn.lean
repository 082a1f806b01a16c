import RayPlatform.Routing.TupleOverlap

/-!
# GraphImplementationDeBruijn

The vertices are all the words of `m_diameter` symbols out of `m_base`, and a rank is
the number of its word. A hop shifts the current word by one symbol and appends the
symbol of the destination that follows the longest overlap of the two words.

* `configureGraph_spec`: a number of ranks that is accepted is a power of the base;
* `makeConnections_spec`: the table then holds all the words;
* `deBruijn_routing`: each hop is an edge and makes the overlap longer, so that a
  route takes exactly as many hops as symbols are missing from the overlap.
-/

namespace RayPlatform

open Lib
open MessageRouter (IsRank)
open Nat (ofDigits)

structure GraphImplementationDeBruijn where
  m_base : Int32
  m_diameter : Nat
  m_size : Int32
  m_graphToDeBruijn : List Tuple
  m_outcomingConnections : List (List Rank)

namespace GraphImplementationDeBruijn

/-- What `configureGraph` sets. -/
structure Configuration where
  m_base : Int32
  m_diameter : Nat
  m_size : Int32
  deriving DecidableEq, Repr

/-- `while(maxBase>=n) maxBase/=2` -/
def halveBase (n : Int32) : Nat → Int32 → Option Int32
  | 0, _ => none
  | fuel + 1, maxBase => if maxBase ≥ n then halveBase n fuel (maxBase / 2) else some maxBase

/-- The largest base from `maxBase` down to 2 of which `n` is a power, or -1. -/
def findBase (fuel : Nat) (n : Int32) : Nat → Option Int32
  | 0 => some (-1)
  | i + 1 =>
    if i + 1 < 2 then some (-1)
    else do
      if ← isAPowerOf (Int32.ofNat (i + 1)) fuel n then some (Int32.ofNat (i + 1))
      else findBase fuel n i

/-- `m_degree` is the degree that the user provides. Each loop runs at most `fuel` times. -/
def configureGraph (fuel : Nat) (m_degree n : Int32) : Option Configuration := do
  let maxBase := if ← isAPowerOf m_degree fuel n then m_degree else 1024
  let maxBase ← halveBase n fuel maxBase
  let base ← findBase fuel n maxBase.toNatClampNeg
  if base = -1 then
    -- not a power of anything: only the base is set
    return { m_base := base, m_diameter := 0, m_size := 0 }
  else
    let digits ← countDigits n base fuel 1
    return { m_base := base, m_diameter := digits, m_size := n }

def isValid (fuel : Nat) (m_degree n : Int32) : Option Bool := do
  let configuration ← configureGraph fuel m_degree n
  return configuration.m_base ≠ -1

/-- The de Bruijn property. -/
def computeConnection (m_diameter : Nat) (m_graphToDeBruijn : List Tuple)
    (source destination : Rank) : Option Bool :=
  overlapConnection m_diameter m_graphToDeBruijn source destination

def makeConnections (fuel : Nat) (m_degree n : Int32) : Option GraphImplementationDeBruijn := do
  let configuration ← configureGraph fuel m_degree n
  let table ← (ranks configuration.m_size).mapM
    (convertToBase configuration.m_base configuration.m_diameter)
  return {
    m_base := configuration.m_base
    m_diameter := configuration.m_diameter
    m_size := configuration.m_size
    m_graphToDeBruijn := table
    m_outcomingConnections := outcomingConnections configuration.m_size
      (computeConnection configuration.m_diameter table) }

def computeNextRankInRoute (g : GraphImplementationDeBruijn) (_source destination current : Rank) :
    Option Rank := do
  let next ← nextTuple g.m_diameter g.m_graphToDeBruijn destination current
  return convertToBase10 g.m_base g.m_diameter next % g.m_size

/-- The graph is not changed. -/
def getNextRankInRoute (g : GraphImplementationDeBruijn) (source destination rank : Rank) :
    Option (Rank × GraphImplementationDeBruijn) := do
  let next ← g.computeNextRankInRoute source destination rank
  return (next, g)

def isConnected (g : GraphImplementationDeBruijn) (source destination : Rank) : Bool :=
  RayPlatform.isConnected g.m_outcomingConnections source destination

/-- The symbols at the end of the current vertex that begin the destination. -/
def overlap (g : GraphImplementationDeBruijn) (current destination : Rank) : Nat :=
  rankOverlap g.m_diameter g.m_graphToDeBruijn current destination

/-! ## The configuration -/

theorem halveBase_lt {n : Int32} :
    ∀ fuel maxBase m, halveBase n fuel maxBase = some m → m < n := by
  intro fuel
  induction fuel with
  | zero =>
      intro maxBase m h
      simp [halveBase] at h
  | succ fuel ih =>
      intro maxBase m h
      rw [halveBase] at h
      split at h
      case isTrue => exact ih _ _ h
      case isFalse hlt =>
        simp only [Option.some.injEq] at h
        subst h
        exact Int32.not_le.mp hlt

theorem findBase_spec {fuel : Nat} {n base : Int32} (hbase : base ≠ -1) :
    ∀ m, findBase fuel n m = some base →
      ∃ b, 2 ≤ b ∧ b ≤ m ∧ base = Int32.ofNat b ∧ isAPowerOf (Int32.ofNat b) fuel n = some true := by
  intro m
  induction m with
  | zero =>
      intro h
      simp only [findBase, Option.some.injEq] at h
      exact absurd h.symm hbase
  | succ i ih =>
      intro h
      rw [findBase] at h
      split at h
      case isTrue =>
        simp only [Option.some.injEq] at h
        exact absurd h.symm hbase
      case isFalse hi =>
        simp only [Option.bind_eq_bind, Option.bind_eq_some_iff] at h
        obtain ⟨power, hpower, h⟩ := h
        cases power with
        | true =>
            simp only [if_true, Option.some.injEq] at h
            exact ⟨i + 1, by omega, le_rfl, h.symm, hpower⟩
        | false =>
            obtain ⟨b, h2, hle, hb⟩ := ih (by simpa using h)
            exact ⟨b, h2, by omega, hb⟩

/-- An accepted number of ranks is the number of words. -/
structure Accepts (n : Int32) (c : Configuration) (b d : Nat) : Prop where
  two_le : 2 ≤ b
  digits : 1 ≤ d
  size : n = Int32.ofNat (b ^ d)
  fits : b ^ d < 2 ^ 31
  configured : c = { m_base := Int32.ofNat b, m_diameter := d, m_size := n }

theorem configureGraph_spec {fuel : Nat} {m_degree n : Int32} {c : Configuration}
    (h : configureGraph fuel m_degree n = some c) (haccepted : c.m_base ≠ -1) :
    ∃ b d, Accepts n c b d := by
  simp only [configureGraph, Option.bind_eq_bind, Option.bind_eq_some_iff] at h
  obtain ⟨power, -, maxBase, hmax, base, hbase, h⟩ := h
  split at h
  case isTrue heq =>
    obtain rfl := Option.some.inj h
    exact absurd heq haccepted
  case isFalse hne =>
    obtain ⟨digits, hdigits, h⟩ := Option.bind_eq_some_iff.mp h
    obtain rfl := Option.some.inj h
    obtain ⟨b, htwo, hle, rfl, hpower⟩ := findBase_spec hne _ hbase
    have hlt := halveBase_lt _ _ _ hmax
    -- the number of ranks is greater than the base
    have hmax31 := Int32.toNatClampNeg_lt maxBase
    rw [Int32.lt_iff_toInt_lt] at hlt
    simp only [Int32.toNatClampNeg] at hle hmax31
    have hzero : (0 : Int32).toInt = 0 := rfl
    have hpower := powerOf_of_isAPowerOf htwo (by omega) hpower hdigits
    have hn := hpower.full (by simp only [Int32.toNatClampNeg]; omega)
    have hpos : 0 ≤ n := by
      rw [Int32.le_iff_toInt_le]
      omega
    refine ⟨b, digits, htwo, hpower.digits, ?_, hpower.fits, rfl⟩
    rw [← hn, Int32.ofNat_toNatClampNeg n hpos]

/-! ## The graph -/

/-- The word of each rank is its number. -/
structure Built (n : Int32) (b d : Nat) (g : GraphImplementationDeBruijn) : Prop where
  size : n = Int32.ofNat (b ^ d)
  m_base : g.m_base = Int32.ofNat b
  m_diameter : g.m_diameter = d
  m_size : g.m_size = n
  table : WordTable n b d g.m_graphToDeBruijn
  connections : g.m_outcomingConnections =
    outcomingConnections n (overlapConnection d g.m_graphToDeBruijn)

theorem makeConnections_spec {fuel : Nat} {m_degree n : Int32} {c : Configuration} {b d : Nat}
    (hc : configureGraph fuel m_degree n = some c) (h : Accepts n c b d) (hb : b ≤ 256)
    (hd : d ≤ 16) : ∃ g, makeConnections fuel m_degree n = some g ∧ Built n b d g := by
  obtain rfl := h.configured
  have hn : n.toNatClampNeg = b ^ d := by
    rw [h.size, Int32.toNatClampNeg_ofNat_of_lt h.fits]
  obtain ⟨table, htable, hwords⟩ :=
    wordTable_of_convertToBase h.two_le hb hd h.fits hn.le fun _ => hn
  rw [makeConnections, hc]
  simp only [Option.bind_eq_bind, Option.bind_some, htable]
  exact ⟨_, rfl, h.size, rfl, rfl, rfl, hwords, rfl⟩

section Hops

variable {n : Int32} {b d : Nat} {g : GraphImplementationDeBruijn} {destination current : Rank}

/-- The next rank has the word of the next tuple, also at the destination. -/
theorem Built.next (h : Built n b d g) (hpos : 0 < d) (source : Rank)
    (hdestination : IsRank n destination) (hcurrent : IsRank n current) :
    ∃ t next, nextTuple d g.m_graphToDeBruijn destination current = some t ∧
      g.getNextRankInRoute source destination current = some (next, g) ∧ IsRank n next ∧
      rankWord d g.m_graphToDeBruijn next = t.word d := by
  have htwo := h.table.two_le
  have hfits := h.table.fits
  obtain ⟨destinationVertex, hd⟩ := h.table.tells.entry destination hdestination
  obtain ⟨currentVertex, hc⟩ := h.table.tells.entry current hcurrent
  obtain ⟨t, ht, -⟩ := shiftTowards_word (a := currentVertex) (b := destinationVertex) hpos
    h.table.cells
  have hsymbols : ∀ x ∈ t.word d, x < b := by
    intro x hx
    rcases shiftTowards_mem hpos ht h.table.cells x hx with hx | hx
    · exact h.table.symbol_lt hcurrent x (by rwa [rankWord_eq hc])
    · exact h.table.symbol_lt hdestination x (by rwa [rankWord_eq hd])
  have hnext : nextTuple d g.m_graphToDeBruijn destination current = some t := by
    rw [nextTuple, hd, hc]
    exact ht
  have hlt := ofDigits_word_lt (by omega) hsymbols
  have hnumber : convertToBase10 g.m_base d t % g.m_size = Int32.ofNat (ofDigits b (t.word d)) := by
    rw [h.m_base, h.m_size, h.size, convertToBase10_eq, ← Int32.ofNat_mod (by omega) hfits,
      Nat.mod_eq_of_lt hlt]
  have hfull : n.toNatClampNeg = b ^ d := by
    rw [h.size, Int32.toNatClampNeg_ofNat_of_lt hfits]
  obtain ⟨hrank, hword⟩ := h.table.number hfull hsymbols
  refine ⟨t, _, hnext, ?_, hrank, hword⟩
  rw [getNextRankInRoute, computeNextRankInRoute, h.m_diameter, hnext]
  show some (convertToBase10 g.m_base d t % g.m_size, g) = _
  rw [hnumber]

/-- One hop: the number of the shifted tuple is a rank, joined to the current one. -/
theorem Built.hop (h : Built n b d g) (source : Rank) (hdestination : IsRank n destination)
    (hcurrent : IsRank n current) (hne : current ≠ destination) :
    ∃ next, g.getNextRankInRoute source destination current = some (next, g) ∧ IsRank n next ∧
      g.isConnected current next = true ∧
      rankWord d g.m_graphToDeBruijn next =
        slide (rankWord d g.m_graphToDeBruijn current)
          (rankWord d g.m_graphToDeBruijn destination) := by
  have htells := h.table.tells
  have hpos : 0 < d := by
    -- a graph without symbols has one rank
    rcases Nat.eq_zero_or_pos d with rfl | hpos
    · exact absurd (htells.injective current destination hcurrent hdestination
        (by rw [List.eq_nil_of_length_eq_zero (htells.length hcurrent),
          List.eq_nil_of_length_eq_zero (htells.length hdestination)])) hne
    · exact hpos
  obtain ⟨t, ht, hslide⟩ := htells.nextTuple h.table.cells hcurrent hdestination hne
  obtain ⟨t', next, ht', hnext, hrank, hword⟩ := h.next hpos source hdestination hcurrent
  obtain rfl := Option.some.inj (ht.symm.trans ht')
  rw [hslide] at hword
  refine ⟨next, hnext, hrank, ?_, hword⟩
  rw [isConnected, h.connections]
  exact htells.edge hcurrent hrank hdestination hne hword

end Hops

/-! ## Routing -/

/-- De Bruijn routing is correct and short: a hop leads over an edge to a rank whose overlap
with the destination is longer, and a route has exactly as many hops as the overlap of its
ends lacks symbols. -/
theorem deBruijn_routing {fuel : Nat} {m_degree n : Int32} {c : Configuration}
    (hc : configureGraph fuel m_degree n = some c) (haccepted : c.m_base ≠ -1)
    (halphabet : c.m_base ≤ 256) (hdiameter : c.m_diameter ≤ 16) :
    ∃ g, makeConnections fuel m_degree n = some g ∧ g.m_diameter = c.m_diameter ∧
      (∀ source destination current, IsRank n source → IsRank n destination → IsRank n current →
        current ≠ destination → ∃ next,
          g.getNextRankInRoute source destination current = some (next, g) ∧ IsRank n next ∧
          g.isConnected current next = true ∧
          g.overlap current destination < g.overlap next destination) ∧
      ∀ source destination, IsRank n source → IsRank n destination → ∀ steps ≥ g.m_diameter,
        ∃ route, getRoute getNextRankInRoute steps g source destination = some (route, g) ∧
          IsRoute g.isConnected source destination
            (g.m_diameter - g.overlap source destination) route := by
  obtain ⟨b, d, h⟩ := configureGraph_spec hc haccepted
  obtain rfl := h.configured
  have hfits := h.fits
  have hb : b ≤ 256 := by
    have hle := Nat.le_self_pow (by have := h.digits; omega : d ≠ 0) b
    exact (Int32.ofNat_le_iff_le (b := 256) (by omega) (by omega)).mp halphabet
  obtain ⟨g, hg, hbuilt⟩ := makeConnections_spec hc h hb hdiameter
  refine ⟨g, hg, hbuilt.m_diameter, ?_, ?_⟩
  · intro source destination current _ hdestination hcurrent hne
    obtain ⟨next, hnext, hrank, hedge, hslide⟩ :=
      hbuilt.hop source hdestination hcurrent hne
    refine ⟨next, hnext, hrank, hedge, ?_⟩
    rw [overlap, overlap, hbuilt.m_diameter,
      hbuilt.table.tells.rankOverlap_slide hcurrent hdestination hne hslide]
    omega
  · intro source destination hsource hdestination steps hsteps
    rw [hbuilt.m_diameter] at hsteps
    have hhop : ∀ g' r, g' = g → IsRank n r → r ≠ destination → ∃ next g'',
        getNextRankInRoute g' source destination r = some (next, g'') ∧ g'' = g ∧
          IsRank n next ∧ g.isConnected r next = true ∧
          rankWord d g.m_graphToDeBruijn next = slide (rankWord d g.m_graphToDeBruijn r)
            (rankWord d g.m_graphToDeBruijn destination) := by
      rintro _ r rfl hr hne
      obtain ⟨next, hnext, hrest⟩ := hbuilt.hop source hdestination hr hne
      exact ⟨next, _, hnext, rfl, hrest⟩
    obtain ⟨route, g', hroute, rfl, hisRoute⟩ :=
      hbuilt.table.tells.getRoute (· = g) hhop rfl hsource hdestination hsteps
    rw [overlap, hbuilt.m_diameter]
    exact ⟨route, hroute, hisRoute⟩

theorem deBruijn_routing_four :
    ∃ g, makeConnections 32 2 4 = some g ∧ g.m_diameter = 2 ∧
      (∀ source destination current, IsRank 4 source → IsRank 4 destination → IsRank 4 current →
        current ≠ destination → ∃ next,
          g.getNextRankInRoute source destination current = some (next, g) ∧ IsRank 4 next ∧
          g.isConnected current next = true ∧
          g.overlap current destination < g.overlap next destination) ∧
      ∀ source destination, IsRank 4 source → IsRank 4 destination → ∀ steps ≥ g.m_diameter,
        ∃ route, getRoute getNextRankInRoute steps g source destination = some (route, g) ∧
          IsRoute g.isConnected source destination
            (g.m_diameter - g.overlap source destination) route :=
  deBruijn_routing (c := { m_base := 2, m_diameter := 2, m_size := 4 }) (by decide) (by decide)
    (by decide) (by decide)

/-! ## The network -/

/-- The graph as the router sees it. -/
def toConnectionGraph (g : GraphImplementationDeBruijn) : ConnectionGraph :=
  { isConnected := g.isConnected
    getNextRankInRoute := fun source destination rank =>
      ((g.getNextRankInRoute source destination rank).map Prod.fst).getD rank }

/-- The graph meets what the router relies on. -/
theorem Built.leadsAlongEdges {n : Int32} {b d : Nat} {g : GraphImplementationDeBruijn}
    (h : Built n b d g) (hpos : 0 < d) :
    MessageRouter.LeadsAlongEdges n { enabled := true, graph := g.toConnectionGraph }
      fun destination rank => d - g.overlap rank destination := by
  refine ⟨?_, ?_, ?_⟩
  · intro source destination rank _ hdestination hrank
    obtain ⟨t, next, -, hnext, hnextRank, -⟩ := h.next hpos source hdestination hrank
    simpa [toConnectionGraph, hnext] using hnextRank
  · intro source destination rank _ hdestination hrank hreaches hor
    have hne : rank ≠ destination := by
      rcases hor with rfl | hne
      · rintro rfl
        simp [MessageRouter.reaches, toConnectionGraph, isConnected, RayPlatform.isConnected]
          at hreaches
      · exact hne
    obtain ⟨next, hnext, -, hedge, -⟩ := h.hop source hdestination hrank hne
    simpa [toConnectionGraph, hnext] using hedge
  · intro source destination rank _ hdestination hrank _ hne
    obtain ⟨next, hnext, hnextRank, -, hslide⟩ := h.hop source hdestination hrank hne
    have hgrown := h.table.tells.rankOverlap_slide hrank hdestination hne hslide
    have hle := h.table.tells.rankOverlap_le (r := next) hdestination
    simp only [toConnectionGraph, hnext, Option.map_some, Option.getD_some, overlap, h.m_diameter]
    omega

end GraphImplementationDeBruijn

end RayPlatform
