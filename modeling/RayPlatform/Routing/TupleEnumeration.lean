import Mathlib.Data.Nat.Count
import RayPlatform.Routing.TupleOverlap

/-!
# Enumerations of tuples

The Kautz and the experimental graph keep only the tuples that pass a test. The loop of
`makeConnections` tries the numbers from zero on: the table lists the tuples that pass,
and a map leads from their numbers to their ranks. A lookup that misses inserts rank 0.

The test of both graphs is that any `z` consecutive symbols are pairwise distinct.
`Enumerated z b d i` says what the tables hold after `i` numbers; `enumerate_spec` says
that the loop stops with all the vertices, since their number is the one it waits for.
`Enumerated.shift` is the hop of both graphs, and says when its lookup misses.
-/

namespace RayPlatform

open Lib
open MessageRouter (IsRank)
open Nat (ofDigits)

/-- The direct and the reverse mapping. -/
structure VertexTable where
  vertices : List Tuple
  numbers : List (Int32 × Int32)

namespace VertexTable

def empty : VertexTable := { vertices := [], numbers := [] }

/-- The first loop of `makeConnections`, at `iterator`. It tries at most `fuel` numbers. -/
def enumerate (isAVertex : Tuple → Bool) (m_base : Int32) (m_diameter : Nat) (n : Int32) :
    Nat → Int32 → VertexTable → Option VertexTable
  | fuel, iterator, s =>
    if Int32.ofNat s.vertices.length < n then
      match fuel with
      | 0 => none
      | fuel + 1 => do
          let vertex ← convertToBase m_base m_diameter iterator
          let s :=
            if isAVertex vertex then
              { vertices := s.vertices ++ [vertex]
                numbers := (iterator, Int32.ofNat s.vertices.length) :: s.numbers }
            else s
          enumerate isAVertex m_base m_diameter n fuel (iterator + 1) s
    else some s

end VertexTable

/-- A loop that goes on after a match, so that the last match counts. -/
def lastMatch {α β : Type*} (f : α → Option β) (l : List α) : Option β :=
  l.foldl (fun found x => (f x).or found) none

theorem exists_of_lastMatch {α β : Type*} {f : α → Option β} {l : List α} {c : β}
    (h : lastMatch f l = some c) : ∃ x ∈ l, f x = some c := by
  have hrun : ∀ found, l.foldl (fun found x => (f x).or found) found = some c →
      found = some c ∨ ∃ x ∈ l, f x = some c := by
    clear h
    induction l with
    | nil => exact fun found hfound => .inl hfound
    | cons x l ih =>
        intro found hfound
        rcases ih _ hfound with hor | ⟨y, hy, hmatch⟩
        · rcases Option.or_eq_some_iff.mp hor with hmatch | ⟨-, hfound⟩
          · exact .inr ⟨x, List.mem_cons_self, hmatch⟩
          · exact .inl hfound
        · exact .inr ⟨y, List.mem_cons_of_mem _ hy, hmatch⟩
  rcases hrun none h with hnone | hmatch
  · simp at hnone
  · exact hmatch

/-- No match at all, or one such that the other matches stand before it in the list. -/
theorem lastMatch_cases {α β : Type*} {R : α → α → Prop} (f : α → Option β) {l : List α}
    (hl : l.Pairwise R) :
    (lastMatch f l = none ∧ ∀ x ∈ l, f x = none) ∨
      ∃ x ∈ l, ∃ c, f x = some c ∧ lastMatch f l = some c ∧ ∀ y ∈ l, f y ≠ none → y = x ∨ R y x := by
  induction l using List.reverseRecOn with
  | nil => exact .inl ⟨rfl, fun x hx => absurd hx List.not_mem_nil⟩
  | append_singleton l last ih =>
      rw [List.pairwise_append] at hl
      obtain ⟨hl, -, hlast⟩ := hl
      have hor : lastMatch f (l ++ [last]) = (f last).or (lastMatch f l) := by
        simp [lastMatch, List.foldl_append]
      rw [hor]
      cases hf : f last with
      | some c =>
          refine .inr ⟨last, by simp, c, hf, rfl, fun y hy _ => ?_⟩
          rcases List.mem_append.mp hy with hy | hy
          · exact .inr (hlast y hy last (List.mem_singleton_self _))
          · exact .inl (List.mem_singleton.mp hy)
      | none =>
          have hback : ∀ y ∈ l ++ [last], f y ≠ none → y ∈ l := by
            intro y hy hmatch
            rcases List.mem_append.mp hy with hy | hy
            · exact hy
            · rw [List.mem_singleton.mp hy] at hmatch
              exact absurd hf hmatch
          rcases ih hl with ⟨hnone, hall⟩ | ⟨x, hx, c, hc, hfound, hbefore⟩
          · refine .inl ⟨hnone, fun x hx => ?_⟩
            by_contra hmatch
            exact hmatch (hall x (hback x hx hmatch))
          · exact .inr ⟨x, List.mem_append_left _ hx, c, hc, hfound,
              fun y hy hmatch => hbefore y (hback y hy hmatch) hmatch⟩

/-- `operator[]` of the map, which inserts 0 for a key that is not there. -/
def subscript (numbers : List (Int32 × Int32)) (key : Int32) : Int32 × List (Int32 × Int32) :=
  match numbers.lookup key with
  | some value => (value, numbers)
  | none => (0, (key, 0) :: numbers)

/-! ## The vertices -/

/-- The numbers of the vertices. -/
abbrev Admits (z b d k : Nat) : Prop :=
  Spread z (digitWord b d k)

/-- The number of vertices below `i`, which is the rank of `i` if it is a vertex itself. -/
abbrev rankOf (z b d i : Nat) : Nat :=
  Nat.count (Admits z b d) i

theorem rankOf_succ (z b d i : Nat) :
    rankOf z b d (i + 1) = rankOf z b d i + if Admits z b d i then 1 else 0 :=
  Nat.count_succ _ _

theorem rankOf_mono (z b d : Nat) {i j : Nat} (h : i ≤ j) : rankOf z b d i ≤ rankOf z b d j :=
  Nat.count_monotone _ h

theorem rankOf_lt {z b d k i : Nat} (hk : Admits z b d k) (hlt : k < i) :
    rankOf z b d k < rankOf z b d i :=
  Nat.count_strict_mono hk hlt

theorem rankOf_le (z b d i : Nat) : rankOf z b d i ≤ i :=
  Nat.count_le _

/-- Every rank is the rank of a vertex. -/
theorem exists_rankOf {z b d i r : Nat} (h : r < rankOf z b d i) :
    ∃ k < i, Admits z b d k ∧ rankOf z b d k = r := by
  induction i with
  | zero => simp at h
  | succ i ih =>
      rw [rankOf_succ] at h
      by_cases hlt : r < rankOf z b d i
      · obtain ⟨k, hk, hrank⟩ := ih hlt
        exact ⟨k, by omega, hrank⟩
      · split at h
        case isTrue hi => exact ⟨i, by omega, hi, by omega⟩
        case isFalse => exact absurd h (by omega)

theorem rankOf_pow (z b d : Nat) :
    rankOf z b d (b ^ d) = ∏ i ∈ Finset.range d, (b - min i (z - 1)) := by
  rw [← countP_spread, rankOf]
  generalize b ^ d = m
  induction m with
  | zero => rfl
  | succ m ih =>
      rw [Nat.count_succ, List.range_succ, List.countP_append, ih]
      simp [List.countP_singleton]

/-- What the tables hold when the numbers below `i` have been tried. -/
structure Enumerated (z b d i : Nat) (s : VertexTable) : Prop where
  length : s.vertices.length = rankOf z b d i
  vertex : ∀ k < i, Admits z b d k → ∃ t,
    s.vertices[rankOf z b d k]? = some t ∧ t.word d = digitWord b d k
  found : ∀ k < i, Admits z b d k →
    s.numbers.lookup (Int32.ofNat k) = some (Int32.ofNat (rankOf z b d k))
  missing : ∀ x, (∀ k < i, Admits z b d k → x ≠ Int32.ofNat k) → s.numbers.lookup x = none

namespace Enumerated

variable {z b d i : Nat} {s : VertexTable}

theorem empty : Enumerated z b d 0 .empty :=
  ⟨rfl, by simp, by simp, fun _ _ => rfl⟩

/-- A number that is not a vertex is skipped. -/
theorem skip (h : Enumerated z b d i s) (hi : ¬ Admits z b d i) : Enumerated z b d (i + 1) s := by
  have hlt : ∀ k < i + 1, Admits z b d k → k < i := by
    intro k hk hadmits
    rcases Nat.lt_succ_iff_lt_or_eq.mp hk with hk | rfl
    · exact hk
    · exact absurd hadmits hi
  refine ⟨?_, fun k hk hadmits => h.vertex k (hlt k hk hadmits) hadmits,
    fun k hk hadmits => h.found k (hlt k hk hadmits) hadmits, fun x hx => ?_⟩
  · rw [h.length, rankOf_succ, if_neg hi, Nat.add_zero]
  · exact h.missing x fun k hk => hx k (by omega)

/-- A number that is a vertex gets the next rank. -/
theorem push (h : Enumerated z b d i s) (hi : Admits z b d i) (hlt : i < 2 ^ 31) {t : Tuple}
    (ht : t.word d = digitWord b d i) :
    Enumerated z b d (i + 1)
      { vertices := s.vertices ++ [t]
        numbers := (Int32.ofNat i, Int32.ofNat s.vertices.length) :: s.numbers } := by
  constructor
  · rw [List.length_append, h.length, List.length_singleton, rankOf_succ, if_pos hi]
  · intro k hk hadmits
    rcases Nat.lt_succ_iff_lt_or_eq.mp hk with hk | rfl
    · obtain ⟨t', ht', hword⟩ := h.vertex k hk hadmits
      refine ⟨t', ?_, hword⟩
      have hrank : rankOf z b d k < s.vertices.length := by
        rw [h.length]
        exact rankOf_lt hadmits hk
      rw [List.getElem?_append_left hrank, ht']
    · exact ⟨t, by rw [← h.length, List.getElem?_concat_length], ht⟩
  · intro k hk hadmits
    rcases Nat.lt_succ_iff_lt_or_eq.mp hk with hk | rfl
    · have hne : Int32.ofNat k ≠ Int32.ofNat i := by
        intro heq
        have := congrArg Int32.toNatClampNeg heq
        rw [Int32.toNatClampNeg_ofNat_of_lt (by omega),
          Int32.toNatClampNeg_ofNat_of_lt hlt] at this
        omega
      rw [List.lookup_cons, beq_eq_false_iff_ne.mpr hne]
      exact h.found k hk hadmits
    · rw [List.lookup_cons_self, h.length]
  · intro x hx
    have hne := hx i (by omega) hi
    rw [List.lookup_cons, beq_eq_false_iff_ne.mpr hne]
    exact h.missing x fun k hk => hx k (by omega)

/-- Once as many vertices are there as there are in all, the other numbers are none. -/
theorem complete (h : Enumerated z b d i s) (hi : i ≤ b ^ d)
    (hall : s.vertices.length = rankOf z b d (b ^ d)) : Enumerated z b d (b ^ d) s := by
  have hlt : ∀ k < b ^ d, Admits z b d k → k < i := by
    intro k hk hadmits
    by_contra hge
    have := rankOf_lt hadmits hk
    have hmono := rankOf_mono z b d (Nat.le_of_not_lt hge)
    rw [h.length] at hall
    omega
  exact ⟨hall, fun k hk hadmits => h.vertex k (hlt k hk hadmits) hadmits,
    fun k hk hadmits => h.found k (hlt k hk hadmits) hadmits,
    fun x hx => h.missing x fun k hk => hx k (by omega)⟩

end Enumerated

/-- The loop tries all the numbers it needs, and finds all the vertices. -/
theorem enumerate_spec {z b d : Nat} {isAVertex : Tuple → Bool} (hb : 0 < b) (hb' : b ≤ 256)
    (hd : d ≤ 16) (hspace : b ^ d < 2 ^ 31)
    (htest : ∀ t : Tuple, isAVertex t = true ↔ Spread z (t.word d)) :
    ∀ fuel i s, i ≤ b ^ d → b ^ d - i ≤ fuel → Enumerated z b d i s → ∃ s',
      VertexTable.enumerate isAVertex (Int32.ofNat b) d (Int32.ofNat (rankOf z b d (b ^ d))) fuel
        (Int32.ofNat i) s = some s' ∧ Enumerated z b d (b ^ d) s' := by
  intro fuel
  have hcount := rankOf_le z b d (b ^ d)
  induction fuel with
  | zero =>
      intro i s hi hfuel h
      obtain rfl : i = b ^ d := by omega
      rw [VertexTable.enumerate, if_neg]
      · exact ⟨s, rfl, h⟩
      · rw [h.length, Int32.ofNat_lt_iff_lt (by omega) (by omega)]
        exact Nat.lt_irrefl _
  | succ fuel ih =>
      intro i s hi hfuel h
      have hmono := rankOf_mono z b d hi
      have hlength := h.length
      have hmore : Int32.ofNat s.vertices.length < Int32.ofNat (rankOf z b d (b ^ d)) ↔
          s.vertices.length < rankOf z b d (b ^ d) :=
        Int32.ofNat_lt_iff_lt (by omega) (by omega)
      rw [VertexTable.enumerate]
      split
      case isFalse hdone =>
        rw [hmore] at hdone
        exact ⟨s, rfl, h.complete hi (by omega)⟩
      case isTrue hgo =>
        rw [hmore] at hgo
        have hlt : i < b ^ d := by
          rcases Nat.lt_or_ge i (b ^ d) with hlt | hge
          · exact hlt
          · obtain rfl : i = b ^ d := by omega
            omega
        obtain ⟨t, ht, hword⟩ := convertToBase_spec hb hb' hd hspace (show i < 2 ^ 31 by omega)
        have hsucc : Int32.ofNat i + 1 = Int32.ofNat (i + 1) := (Int32.ofNat_add i 1).symm
        simp only [Option.bind_eq_bind, ht, Option.bind_some, hsucc]
        have hadmits : isAVertex t = true ↔ Admits z b d i := by rw [htest, hword]
        split
        case isTrue hvertex =>
          exact ih (i + 1) _ hlt (by omega) (h.push (hadmits.mp hvertex) (by omega) hword)
        case isFalse hvertex =>
          exact ih (i + 1) _ hlt (by omega) (h.skip (mt hadmits.mpr hvertex))

/-- More fuel changes nothing. -/
theorem enumerate_mono {isAVertex : Tuple → Bool} {m_base n : Int32} {m_diameter : Nat} :
    ∀ fuel fuel' iterator s s', fuel ≤ fuel' →
      VertexTable.enumerate isAVertex m_base m_diameter n fuel iterator s = some s' →
      VertexTable.enumerate isAVertex m_base m_diameter n fuel' iterator s = some s' := by
  intro fuel
  induction fuel with
  | zero =>
      intro fuel' iterator s s' _ h
      rw [VertexTable.enumerate] at h
      split at h
      case isTrue => simp at h
      case isFalse hdone =>
        cases fuel' <;> rw [VertexTable.enumerate, if_neg hdone, h]
  | succ fuel ih =>
      intro fuel' iterator s s' hle h
      obtain ⟨fuel', rfl⟩ := Nat.exists_eq_add_one.mpr (by omega : 0 < fuel')
      rw [VertexTable.enumerate] at h ⊢
      split at h
      case isTrue hgo =>
        rw [if_pos hgo]
        obtain ⟨vertex, hvertex, h⟩ := Option.bind_eq_some_iff.mp h
        simp only [Option.bind_eq_bind, hvertex, Option.bind_some]
        exact ih fuel' _ _ s' (by omega) h
      case isFalse hdone => rw [if_neg hdone, h]

/-! ## Hops -/

/-- The map after some lookups that missed. -/
def Missed (numbers numbers' : List (Int32 × Int32)) : Prop :=
  ∀ key, numbers'.lookup key = numbers.lookup key ∨
    (numbers.lookup key = none ∧ numbers'.lookup key = some 0)

theorem Missed.refl (numbers : List (Int32 × Int32)) : Missed numbers numbers :=
  fun _ => .inl rfl

theorem Missed.found {numbers numbers' : List (Int32 × Int32)} {key value : Int32}
    (h : Missed numbers numbers') (hkey : numbers.lookup key = some value) :
    numbers'.lookup key = some value := by
  rcases h key with h | ⟨h, -⟩
  · rw [h, hkey]
  · rw [hkey] at h
    simp at h

/-- A miss gives rank 0, also the second time. -/
theorem Missed.subscript_zero {numbers numbers' : List (Int32 × Int32)} {key : Int32}
    (h : Missed numbers numbers') (hkey : numbers.lookup key = none) :
    (subscript numbers' key).1 = 0 := by
  rw [RayPlatform.subscript]
  rcases h key with h | ⟨-, h⟩
  · rw [h, hkey]
  · rw [h]

theorem subscript_found {numbers : List (Int32 × Int32)} {key value : Int32}
    (h : numbers.lookup key = some value) : subscript numbers key = (value, numbers) := by
  rw [subscript, h]

theorem Missed.subscript {numbers numbers' : List (Int32 × Int32)} (h : Missed numbers numbers')
    (key : Int32) : Missed numbers (subscript numbers' key).2 := by
  rw [RayPlatform.subscript]
  cases hkey : numbers'.lookup key with
  | some value => exact h
  | none =>
      intro other
      rw [List.lookup_cons]
      by_cases heq : other = key
      · subst heq
        rw [beq_self_eq_true]
        rcases h other with h | ⟨-, h⟩
        · exact .inr ⟨by rw [← h, hkey], rfl⟩
        · rw [hkey] at h
          simp at h
      · rw [beq_eq_false_iff_ne.mpr heq]
        exact h other

/-- The tables of a graph of `n` ranks. -/
structure VertexTable.Complete (z b d : Nat) (n : Int32) (s : VertexTable) : Prop where
  two_le : 2 ≤ b
  cells : d ≤ 16
  space : b ^ d < 2 ^ 31
  size : n = Int32.ofNat (rankOf z b d (b ^ d))
  enumerated : Enumerated z b d (b ^ d) s

/-- The first loop of `makeConnections` builds complete tables, with any fuel that lets it try
the whole space of words. -/
theorem VertexTable.enumerate_complete {z b d : Nat} {n : Int32} {isAVertex : Tuple → Bool}
    (hb : 2 ≤ b) (hb' : b ≤ 256) (hd : d ≤ 16) (hspace : b ^ d < 2 ^ 31)
    (hn : n = Int32.ofNat (rankOf z b d (b ^ d)))
    (htest : ∀ t : Tuple, isAVertex t = true ↔ Spread z (t.word d)) :
    ∃ s, (∀ fuel ≥ b ^ d,
        enumerate isAVertex (Int32.ofNat b) d n fuel 0 .empty = some s) ∧ Complete z b d n s := by
  obtain ⟨s, hs, h⟩ := enumerate_spec (by omega) hb' hd hspace htest (b ^ d) 0 .empty
    (Nat.zero_le _) (by omega) .empty
  rw [← hn] at hs
  exact ⟨s, fun fuel hfuel => enumerate_mono _ fuel _ _ _ hfuel hs, hb, hd, hspace, hn, h⟩

namespace VertexTable.Complete

variable {z b d : Nat} {n : Int32} {s : VertexTable}

theorem toNat (h : Complete z b d n s) : n.toNatClampNeg = rankOf z b d (b ^ d) := by
  have hle := rankOf_le z b d (b ^ d)
  have hspace := h.space
  rw [h.size, Int32.toNatClampNeg_ofNat_of_lt (by omega)]

theorem length (h : Complete z b d n s) : s.vertices.length = n.toNatClampNeg := by
  rw [h.toNat, h.enumerated.length]

/-- The ranks are those of the vertices. -/
theorem exists_vertex (h : Complete z b d n s) {r : Rank} (hr : IsRank n r) :
    ∃ k < b ^ d, Admits z b d k ∧ r = Int32.ofNat (rankOf z b d k) := by
  obtain ⟨i, hi, rfl⟩ := isRank_iff.mp hr
  rw [h.toNat] at hi
  obtain ⟨k, hk, hadmits, rfl⟩ := exists_rankOf hi
  exact ⟨k, hk, hadmits, rfl⟩

theorem isRank (h : Complete z b d n s) {k : Nat} (hk : k < b ^ d) (hadmits : Admits z b d k) :
    IsRank n (Int32.ofNat (rankOf z b d k)) :=
  isRank_ofNat (by rw [h.toNat]; exact rankOf_lt hadmits hk)

theorem entry_ofNat (h : Complete z b d n s) {k : Nat} (hk : k < b ^ d)
    (hadmits : Admits z b d k) : ∃ t,
      entry s.vertices (Int32.ofNat (rankOf z b d k)) = some t ∧ t.word d = digitWord b d k := by
  have hle := rankOf_le z b d k
  have hspace := h.space
  rw [RayPlatform.entry_ofNat _ (by omega)]
  exact h.enumerated.vertex k hk hadmits

theorem rankWord_ofNat (h : Complete z b d n s) {k : Nat} (hk : k < b ^ d)
    (hadmits : Admits z b d k) :
    rankWord d s.vertices (Int32.ofNat (rankOf z b d k)) = digitWord b d k := by
  obtain ⟨t, ht, hword⟩ := h.entry_ofNat hk hadmits
  rw [rankWord_eq ht, hword]

theorem tells (h : Complete z b d n s) : Tells n d s.vertices := by
  constructor
  · intro r hr
    obtain ⟨k, hk, hadmits, rfl⟩ := h.exists_vertex hr
    obtain ⟨t, ht, -⟩ := h.entry_ofNat hk hadmits
    exact ⟨t, ht⟩
  · intro r r' hr hr' hword
    obtain ⟨k, hk, hadmits, rfl⟩ := h.exists_vertex hr
    obtain ⟨k', hk', hadmits', rfl⟩ := h.exists_vertex hr'
    rw [h.rankWord_ofNat hk hadmits, h.rankWord_ofNat hk' hadmits'] at hword
    rw [digitWord_injOn hk hk' hword]

theorem spread (h : Complete z b d n s) {r : Rank} (hr : IsRank n r) :
    Spread z (rankWord d s.vertices r) := by
  obtain ⟨k, hk, hadmits, rfl⟩ := h.exists_vertex hr
  rw [h.rankWord_ofNat hk hadmits]
  exact hadmits

theorem symbol_lt (h : Complete z b d n s) {r : Rank} (hr : IsRank n r) :
    ∀ x ∈ rankWord d s.vertices r, x < b := by
  have htwo := h.two_le
  obtain ⟨k, hk, hadmits, rfl⟩ := h.exists_vertex hr
  rw [h.rankWord_ofNat hk hadmits]
  exact digitWord_lt (by omega)

theorem slide_lt (h : Complete z b d n s) {r destination : Rank} (hr : IsRank n r)
    (hdestination : IsRank n destination) :
    ∀ x ∈ slide (rankWord d s.vertices r) (rankWord d s.vertices destination), x < b := by
  intro x hx
  rcases mem_slide hx with hx | hx
  · exact h.symbol_lt hr x hx
  · exact h.symbol_lt hdestination x hx

/-- The lookup of a tuple that passes the test finds its rank. -/
theorem lookup_vertex (h : Complete z b d n s) {t : Tuple} (ht : ∀ x ∈ t.word d, x < b)
    (hspread : Spread z (t.word d)) : ∃ r, IsRank n r ∧
      s.numbers.lookup (convertToBase10 (Int32.ofNat b) d t) = some r ∧
      rankWord d s.vertices r = t.word d := by
  have htwo := h.two_le
  have hword : digitWord b d (ofDigits b (t.word d)) = t.word d := by
    have := digitWord_ofDigits (by omega) ht
    rwa [Tuple.length_word] at this
  have hlt := ofDigits_word_lt (by omega) ht
  have hadmits : Admits z b d (ofDigits b (t.word d)) := by
    rw [Admits, hword]
    exact hspread
  refine ⟨_, h.isRank hlt hadmits, ?_, ?_⟩
  · rw [convertToBase10_eq]
    exact h.enumerated.found _ hlt hadmits
  · rw [h.rankWord_ofNat hlt hadmits, hword]

/-- The lookup of any other tuple misses. -/
theorem lookup_missing (h : Complete z b d n s) {t : Tuple} (ht : ∀ x ∈ t.word d, x < b)
    (hspread : ¬ Spread z (t.word d)) :
    s.numbers.lookup (convertToBase10 (Int32.ofNat b) d t) = none := by
  have htwo := h.two_le
  have hspace := h.space
  have hlt := ofDigits_word_lt (by omega) ht
  rw [convertToBase10_eq]
  apply h.enumerated.missing
  intro k hk hadmits heq
  have := congrArg Int32.toNatClampNeg heq
  rw [Int32.toNatClampNeg_ofNat_of_lt (by omega),
    Int32.toNatClampNeg_ofNat_of_lt (by omega)] at this
  have hword := digitWord_ofDigits (by omega) ht
  rw [Tuple.length_word, this] at hword
  rw [Admits, hword] at hadmits
  exact hspread hadmits

/-- No two ranks have the same symbols. -/
theorem nodup (h : Complete z b d n s) : (s.vertices.map (Tuple.word d)).Nodup :=
  h.tells.nodup h.length

end VertexTable.Complete

end RayPlatform
