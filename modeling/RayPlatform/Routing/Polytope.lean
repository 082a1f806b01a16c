import RayPlatform.Routing.LoadedGraph

/-!
# Polytope

The vertices are all the words of `m_wordLength` symbols, with an edge between words that
differ in one symbol. A hop puts one symbol of the destination in the current word, where
the load is the lowest.

* `configureGraph_spec`: an accepted number of ranks above one is a power of the alphabet
  size. The search meets the alphabet size 47104, of which no power above the first is
  positive as an `int`, so that it does not end for more ranks than that: the words are
  shorter than the cells of a tuple.
* `polytope_routing`: whatever the loads are, each hop is an edge and makes one symbol
  right, so that a route has as many hops as its ends have different symbols.
-/

namespace RayPlatform

open Lib
open MessageRouter (IsRank)
open Nat (ofDigits)

structure Polytope where
  m_loadValues : LoadTable
  m_alphabetSize : Int32
  m_wordLength : Nat
  m_size : Int32
  m_graphToVertex : List Tuple
  m_outcomingConnections : List (List Rank)

namespace Polytope

/-- What `configureGraph` sets. -/
structure Configuration where
  m_loadValues : LoadTable
  m_alphabetSize : Int32
  m_wordLength : Nat
  m_size : Int32

/-- The loop over the alphabet sizes, downwards. The last match with the degree counts. -/
def searchAlphabetSize (fuel : Nat) (m_degree n : Int32) : Nat → Int32 → Option Int32
  | 0, base => some base
  | alphabetSize + 1, base =>
    if alphabetSize + 1 < 2 then some base
    else do
      let size := Int32.ofNat (alphabetSize + 1)
      let wordLength ← countDigits n size fuel 1
      let degree := (size - 1) * Int32.ofNat wordLength
      let base := if n = getPower size wordLength ∧ degree = m_degree then size else base
      searchAlphabetSize fuel m_degree n alphabetSize base

/-- `m_degree` is the degree that the user provides. Each loop runs at most `fuel` times. -/
def configureGraph (fuel : Nat) (m_degree n : Int32) : Option Configuration := do
  let base ← searchAlphabetSize fuel m_degree n (n - 1).toNatClampNeg 2
  if ← isAPowerOf base fuel n then
    let digits ← countDigits n base fuel 1
    let loads ← startLoads base digits
    return { m_loadValues := loads, m_alphabetSize := base, m_wordLength := digits, m_size := n }
  else
    -- `__INVALID_ALPHABET_SIZE`: nothing else is set
    return {
      m_loadValues := Vector.replicate 256 0
      m_alphabetSize := -1
      m_wordLength := 0
      m_size := 0 }

def isValid (fuel : Nat) (m_degree n : Int32) : Option Bool := do
  let configuration ← configureGraph fuel m_degree n
  return configuration.m_alphabetSize ≠ -1

/-- An edge joins different words with exactly one difference. -/
def computeConnection (m_wordLength : Nat) (m_graphToVertex : List Tuple)
    (source destination : Rank) : Option Bool := do
  if source = destination then return false
  let sourceVertex ← entry m_graphToVertex source
  let destinationVertex ← entry m_graphToVertex destination
  let differences := (List.range m_wordLength).countP fun i =>
    sourceVertex.digit i != destinationVertex.digit i
  return differences == 1

def makeConnections (fuel : Nat) (m_degree n : Int32) : Option Polytope := do
  let configuration ← configureGraph fuel m_degree n
  let table ← (ranks configuration.m_size).mapM
    (convertToBase configuration.m_alphabetSize configuration.m_wordLength)
  return {
    m_loadValues := configuration.m_loadValues
    m_alphabetSize := configuration.m_alphabetSize
    m_wordLength := configuration.m_wordLength
    m_size := configuration.m_size
    m_graphToVertex := table
    m_outcomingConnections := outcomingConnections configuration.m_size
      (computeConnection configuration.m_wordLength table) }

/-- One position of the loop of `computeNextRankInRoute`. -/
def considerPosition (g : Polytope) (currentVertex destinationVertex : Tuple)
    (best : Option Choice) (position : Nat) : Option Choice :=
  let currentSymbol := Int32.ofNat (currentVertex.digit position).toNat
  let destinationSymbol := Int32.ofNat (destinationVertex.digit position).toNat
  -- nothing to test where the symbol is already correct
  if currentSymbol = destinationSymbol then best
  else
    select best
      { position := position
        symbol := destinationSymbol
        load := getLoad g.m_alphabetSize g.m_loadValues position destinationSymbol }

/-- Select the next rank that has the lowest load. -/
def computeNextRankInRoute (g : Polytope) (_source destination current : Rank) :
    Option (Rank × Polytope) := do
  let destinationVertex ← entry g.m_graphToVertex destination
  let currentVertex ← entry g.m_graphToVertex current
  -- without a choice, the write at position -1 fails
  let choice ← (List.range g.m_wordLength).foldl
    (g.considerPosition currentVertex destinationVertex) none
  let (nextRank, loads) ←
    changeSymbol g.m_alphabetSize g.m_wordLength g.m_loadValues currentVertex choice
  return (nextRank, { g with m_loadValues := loads })

/-- The round-robin variant is not compiled. -/
def getNextRankInRoute (g : Polytope) (source destination rank : Rank) :
    Option (Rank × Polytope) :=
  g.computeNextRankInRoute source destination rank

def isConnected (g : Polytope) (source destination : Rank) : Bool :=
  RayPlatform.isConnected g.m_outcomingConnections source destination

/-- The number of symbols in which two ranks differ. -/
def hammingDistance (g : Polytope) (r r' : Rank) : Nat :=
  distance mismatch (rankWord g.m_wordLength g.m_graphToVertex r)
    (rankWord g.m_wordLength g.m_graphToVertex r')

def withLoads (g : Polytope) (loads : LoadTable) : Polytope :=
  { g with m_loadValues := loads }

/-! ## The configuration -/

/-- No power of 47104 above the first is positive as an `int`. -/
theorem getPower_47104 (e : Nat) : getPower 47104 (e + 1) ≤ 47104 := by
  obtain _ | _ | e := e
  · decide
  · decide
  · have hzero : getPower 47104 (e + 3) = 0 := by
      induction e with
      | zero => decide
      | succ e ih =>
          rw [show e + 1 + 3 = e + 3 + 1 from rfl, getPower, ih]
          decide
    rw [hzero]
    decide

theorem countDigits_47104 {n : Int32} (hn : 47104 < n) :
    ∀ fuel digits, countDigits n 47104 fuel (digits + 1) = none := by
  intro fuel
  induction fuel with
  | zero => exact fun _ => rfl
  | succ fuel ih =>
      intro digits
      rw [countDigits, if_pos (Int32.lt_of_le_of_lt (getPower_47104 digits) hn)]
      exact ih (digits + 1)

/-- The search counts the digits for all alphabet sizes, and ends with one of them or 2. -/
theorem searchAlphabetSize_spec {fuel : Nat} {m_degree n base' : Int32} :
    ∀ m base, searchAlphabetSize fuel m_degree n m base = some base' →
      (∀ a, 2 ≤ a → a ≤ m → countDigits n (Int32.ofNat a) fuel 1 ≠ none) ∧
        (base' = base ∨ ∃ a, 2 ≤ a ∧ a ≤ m ∧ base' = Int32.ofNat a) := by
  intro m
  induction m with
  | zero =>
      intro base h
      exact ⟨fun a h2 ha => by omega, .inl (Option.some.inj h).symm⟩
  | succ m ih =>
      intro base h
      rw [searchAlphabetSize] at h
      split at h
      case isTrue hlt =>
        exact ⟨fun a h2 ha => by omega, .inl (Option.some.inj h).symm⟩
      case isFalse hge =>
        obtain ⟨wordLength, hcount, h⟩ := Option.bind_eq_some_iff.mp h
        obtain ⟨hcounts, hbase⟩ := ih _ h
        refine ⟨fun a h2 ha => ?_, ?_⟩
        · rcases Nat.lt_or_ge m a with hlt | hle
          · obtain rfl : a = m + 1 := by omega
            rw [hcount]
            exact Option.some_ne_none _
          · exact hcounts a h2 hle
        · rcases hbase with heq | ⟨a, h2, ha, heq⟩
          · split at heq
            · exact .inr ⟨m + 1, by omega, le_rfl, heq⟩
            · exact .inl heq
          · exact .inr ⟨a, h2, by omega, heq⟩

/-- An accepted number of ranks above one is the number of words. -/
structure Accepts (n : Int32) (c : Configuration) (b d : Nat) : Prop where
  two_le : 2 ≤ b
  power : PowerOf n b d
  few : n.toNatClampNeg ≤ 47104
  m_alphabetSize : c.m_alphabetSize = Int32.ofNat b
  m_wordLength : c.m_wordLength = d
  m_size : c.m_size = n

theorem configureGraph_spec {fuel : Nat} {m_degree n : Int32} {c : Configuration}
    (h : configureGraph fuel m_degree n = some c) (haccepted : c.m_alphabetSize ≠ -1) :
    ∃ b d, Accepts n c b d := by
  obtain ⟨base, hbase, h⟩ := Option.bind_eq_some_iff.mp h
  obtain ⟨power, hpower, h⟩ := Option.bind_eq_some_iff.mp h
  obtain ⟨hcounts, hbase⟩ := searchAlphabetSize_spec _ _ hbase
  have hn := Int32.toNatClampNeg_lt (n - 1)
  obtain ⟨b, htwo, hb, rfl⟩ : ∃ b, 2 ≤ b ∧ b < 2 ^ 31 ∧ base = Int32.ofNat b := by
    rcases hbase with rfl | ⟨a, h2, ha, rfl⟩
    · exact ⟨2, le_rfl, by omega, rfl⟩
    · exact ⟨a, h2, by omega, rfl⟩
  have hfew : n.toNatClampNeg ≤ 47104 := by
    by_contra hmany
    have hlt : 47104 < n := by
      rw [Int32.lt_iff_toInt_lt]
      rw [Int32.toNatClampNeg] at hmany
      have h47104 : (47104 : Int32).toInt = 47104 := rfl
      omega
    have hsub : 47104 ≤ (n - 1).toNatClampNeg := by
      have hone : (1 : Int32).toInt = 1 := rfl
      have hbound := Int32.toInt_lt n
      rw [Int32.toNatClampNeg] at hmany ⊢
      rw [Int32.toInt_sub, hone, Int.bmod_eq_of_le (by omega) (by omega)]
      omega
    exact hcounts 47104 (by omega) hsub (countDigits_47104 hlt fuel 0)
  cases power with
  | false =>
      obtain rfl := Option.some.inj h
      exact absurd rfl haccepted
  | true =>
      obtain ⟨d, hdigits, h⟩ := Option.bind_eq_some_iff.mp h
      obtain ⟨loads, hloads, h⟩ := Option.bind_eq_some_iff.mp h
      obtain rfl := Option.some.inj h
      exact ⟨b, d, htwo, powerOf_of_isAPowerOf htwo hb hpower hdigits, hfew, rfl, rfl, rfl⟩

/-! ## The graph -/

/-- A graph with its tables, of which only the loads change. -/
structure Built (n : Int32) (b d : Nat) (g : Polytope) : Prop where
  m_alphabetSize : g.m_alphabetSize = Int32.ofNat b
  m_wordLength : g.m_wordLength = d
  table : WordTable n b d g.m_graphToVertex
  fits : d * b ≤ 256
  connections : g.m_outcomingConnections =
    outcomingConnections n (computeConnection d g.m_graphToVertex)

theorem makeConnections_spec {fuel : Nat} {m_degree n : Int32} {c : Configuration} {b d : Nat}
    (hc : configureGraph fuel m_degree n = some c) (h : Accepts n c b d) (hfits : d * b ≤ 256) :
    ∃ g, makeConnections fuel m_degree n = some g ∧ Built n b d g := by
  obtain ⟨htwo, hpower, hfew, hcb, hcd, hcn⟩ := h
  have hb : b ≤ 256 := (Nat.le_mul_of_pos_left b hpower.digits).trans hfits
  have hcells : d ≤ 16 := by
    rcases Nat.lt_or_ge n.toNatClampNeg 2 with hlt | hge
    · have := hpower.single hlt
      omega
    · by_contra hlong
      have hpow : 2 ^ 16 ≤ 2 ^ d := Nat.pow_le_pow_right (by omega) (by omega)
      have hbase : 2 ^ d ≤ b ^ d := Nat.pow_le_pow_left htwo d
      have := hpower.full hge
      omega
  obtain ⟨table, htable, hwords⟩ :=
    wordTable_of_convertToBase htwo hb hcells hpower.fits hpower.le hpower.full
  rw [makeConnections, hc]
  simp only [Option.bind_eq_bind, Option.bind_some, hcb, hcd, hcn, htable]
  exact ⟨_, rfl, rfl, rfl, hwords, hfits, rfl⟩

/-- A choice that puts a symbol of the destination where there is another one. -/
structure Corrects (d : Nat) (currentVertex destinationVertex : Tuple) (c : Choice) : Prop where
  position : c.position < d
  differs : currentVertex.digit c.position ≠ destinationVertex.digit c.position
  symbol : c.symbol = Int32.ofNat (destinationVertex.digit c.position).toNat

theorem exists_correction (g : Polytope) {d p : Nat} {currentVertex destinationVertex : Tuple}
    (hp : p < d) (hdiffers : currentVertex.digit p ≠ destinationVertex.digit p) :
    ∃ c, (List.range d).foldl (g.considerPosition currentVertex destinationVertex) none = some c ∧
      Corrects d currentVertex destinationVertex c := by
  apply exists_choice hp
  · intro best q hq hbest c hc
    rw [considerPosition] at hc
    split at hc
    case isTrue => exact hbest c hc
    case isFalse hne =>
      rw [ofNat_digit_eq_iff] at hne
      exact select_good hbest ⟨hq, hne, rfl⟩ c hc
  · intro best q _ hbest
    rw [considerPosition]
    split
    · exact hbest
    · exact select_ne_none _ _
  · intro best
    rw [considerPosition, if_neg (mt (ofNat_digit_eq_iff _ _).mp hdiffers)]
    exact select_ne_none _ _

namespace Built

variable {n : Int32} {b d : Nat} {g : Polytope}

/-- Ranks whose words differ in one symbol are joined. -/
theorem edge (h : Built n b d g) {current next : Rank} (hcurrent : IsRank n current)
    (hnext : IsRank n next) {p v : Nat} (hp : p < d)
    (hword : rankWord d g.m_graphToVertex next = (rankWord d g.m_graphToVertex current).set p v)
    (hv : (rankWord d g.m_graphToVertex current)[p]? ≠ some v) :
    g.isConnected current next = true := by
  obtain ⟨currentVertex, hcurrentVertex⟩ := h.table.tells.entry current hcurrent
  obtain ⟨nextVertex, hnextVertex⟩ := h.table.tells.entry next hnext
  rw [rankWord_eq hcurrentVertex, List.getElem?_eq_getElem (by simpa using hp),
    Tuple.getElem_word, Ne, Option.some.injEq] at hv
  rw [rankWord_eq hcurrentVertex, rankWord_eq hnextVertex] at hword
  have hone : (List.range d).countP
      (fun i => currentVertex.digit i != nextVertex.digit i) = 1 := by
    apply countP_single hp
    intro i hi
    have hdigit := digit_of_word_set hword hi
    rw [bne_iff_ne, Ne, ← UInt8.toNat_inj, hdigit]
    split
    case isTrue heq => simp [heq, hv]
    case isFalse hne => simp [hne]
  rw [isConnected, h.connections]
  by_cases heq : current = next
  · simp [RayPlatform.isConnected, heq]
  · apply isConnected_of_computeConnection hcurrent hnext
    rw [computeConnection, if_neg heq, hcurrentVertex, hnextVertex]
    simp [hone]

theorem withLoads (h : Built n b d g) (loads : LoadTable) : Built n b d (g.withLoads loads) :=
  { h with }

/-- One hop: whatever the loads are, some symbol of the destination is put in the current word. -/
theorem hop (h : Built n b d g) (source : Rank) {destination current : Rank}
    (hdestination : IsRank n destination) (hcurrent : IsRank n current)
    (hne : current ≠ destination) :
    ∃ next loads', g.getNextRankInRoute source destination current =
        some (next, g.withLoads loads') ∧
      IsRank n next ∧ g.isConnected current next = true ∧
      g.hammingDistance current destination = g.hammingDistance next destination + 1 := by
  obtain ⟨currentVertex, destinationVertex, q, hcurrentVertex, hdestinationVertex, hq, hdiffers⟩ :=
    h.table.exists_differing hcurrent hdestination hne
  obtain ⟨⟨p, symbol, load⟩, hchoice, hp, hpne, hsymbol⟩ :=
    exists_correction g hq hdiffers
  simp only at hp hpne hsymbol
  subst hsymbol
  have hv := h.table.digit_lt hdestination hdestinationVertex hp
  obtain ⟨next, loads', hchange, hrank, hword⟩ := changeSymbol_spec h.table
    (h.table.toNat hcurrent hdestination hne) h.fits hcurrent hcurrentVertex hp hv
    g.m_loadValues load
  refine ⟨next, loads', ?_, hrank, h.edge hcurrent hrank hp hword ?_, ?_⟩
  · rw [← h.m_alphabetSize, ← h.m_wordLength] at hchange
    rw [← h.m_wordLength] at hchoice
    rw [getNextRankInRoute, computeNextRankInRoute, hcurrentVertex, hdestinationVertex]
    simp only [Option.bind_eq_bind, Option.bind_some, hchoice, hchange]
    rfl
  · rw [rankWord_eq hcurrentVertex, List.getElem?_eq_getElem (by simpa using hp),
      Tuple.getElem_word, Ne, Option.some.injEq, UInt8.toNat_inj]
    exact hpne
  · rw [hammingDistance, hammingDistance, h.m_wordLength]
    exact WordTable.distance_changed hcurrentVertex hdestinationVertex hp hword
      (mismatch_of_ne fun heq => hpne (UInt8.toNat_inj.mp heq))

theorem hammingDistance_eq_zero_iff (h : Built n b d g) {r destination : Rank}
    (hr : IsRank n r) (hdestination : IsRank n destination) :
    g.hammingDistance r destination = 0 ↔ r = destination := by
  rw [hammingDistance, h.m_wordLength]
  exact h.table.distance_eq_zero_iff (fun x _ y _ => mismatch_eq_zero_iff x y) hr hdestination

end Built

/-! ## Routing -/

/-- Polytope routing is minimal under any load: a hop leads over an edge and makes exactly
one symbol right, so that `getRoute` takes exactly the Hamming distance, from any load table
and also if each hop finds another table. -/
theorem polytope_routing {fuel : Nat} {m_degree n : Int32} {c : Configuration}
    (hc : configureGraph fuel m_degree n = some c) (haccepted : c.m_alphabetSize ≠ -1)
    (hfits : c.m_wordLength * c.m_alphabetSize.toNatClampNeg ≤ 256) :
    ∃ g, makeConnections fuel m_degree n = some g ∧
      (∀ loads source destination current, IsRank n source → IsRank n destination →
        IsRank n current → current ≠ destination → ∃ next loads',
          (g.withLoads loads).getNextRankInRoute source destination current =
            some (next, g.withLoads loads') ∧ IsRank n next ∧
          g.isConnected current next = true ∧
          g.hammingDistance current destination = g.hammingDistance next destination + 1) ∧
      ∀ source destination, IsRank n source → IsRank n destination →
        ∀ steps ≥ g.hammingDistance source destination,
          (∀ loads, ∃ route loads', getRoute getNextRankInRoute steps (g.withLoads loads)
              source destination = some (route, g.withLoads loads') ∧
            IsRoute g.isConnected source destination
              (g.hammingDistance source destination) route) ∧
          ∀ loads, ∃ route loads', getRoute (getNextRankUnder g.withLoads getNextRankInRoute)
              steps loads source destination = some (route, loads') ∧
            IsRoute g.isConnected source destination
              (g.hammingDistance source destination) route := by
  obtain ⟨b, d, h⟩ := configureGraph_spec hc haccepted
  have hpos := h.power.digits
  have hb := (Nat.le_self_pow (by omega) b).trans_lt h.power.fits
  rw [h.m_wordLength, h.m_alphabetSize, Int32.toNatClampNeg_ofNat_of_lt hb] at hfits
  obtain ⟨g, hg, hbuilt⟩ := makeConnections_spec hc h hfits
  refine ⟨g, hg, ?_, ?_⟩
  · intro loads source destination current _ hdestination hcurrent hne
    exact (hbuilt.withLoads loads).hop source hdestination hcurrent hne
  · intro source destination hsource hdestination steps hsteps
    have harrived := fun r hr => hbuilt.hammingDistance_eq_zero_iff (r := r) hr hdestination
    have hhop := fun loads r (hr : IsRank n r) hne =>
      (hbuilt.withLoads loads).hop source hdestination hr hne
    exact ⟨getRoute_of_hops harrived hhop hsource hsteps,
      getRoute_under_of_hops harrived hhop hsource hsteps⟩

theorem configureGraph_four : configureGraph 32 2 4 = some {
    m_loadValues := Vector.replicate 256 0
    m_alphabetSize := 2
    m_wordLength := 2
    m_size := 4 } := rfl

theorem polytope_routing_four :
    ∃ g, makeConnections 32 2 4 = some g ∧
      (∀ loads, ∃ next loads', (g.withLoads loads).getNextRankInRoute 0 3 0 =
          some (next, g.withLoads loads') ∧ IsRank 4 next ∧ g.isConnected 0 next = true ∧
        g.hammingDistance 0 3 = g.hammingDistance next 3 + 1) ∧
      ∀ loads, ∃ route loads', getRoute (getNextRankUnder g.withLoads getNextRankInRoute)
          (g.hammingDistance 0 3) loads 0 3 = some (route, loads') ∧
        IsRoute g.isConnected 0 3 (g.hammingDistance 0 3) route := by
  obtain ⟨g, hg, hhop, hroutes⟩ := polytope_routing configureGraph_four (by decide) (by decide)
  have hzero : IsRank 4 0 := ⟨by decide, by decide⟩
  have hthree : IsRank 4 3 := ⟨by decide, by decide⟩
  exact ⟨g, hg, fun loads => hhop loads 0 3 0 hzero hthree hzero (by decide),
    (hroutes 0 3 hzero hthree _ le_rfl).2⟩

end Polytope

end RayPlatform
