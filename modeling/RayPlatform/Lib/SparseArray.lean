import Mathlib.Data.Nat.Count

/-!
# Sparse arrays indexed by rank

A sparse array keeps an occupancy predicate over positions and a dense list
holding only the occupied positions, in order. The entry of position `b` sits at
`rank occ b`, the number of occupied positions below `b`.

* `get` reads a position; `get_isSome` says exactly when it succeeds;
* `get_insertIdx` is the frame rule of insertion: the new position appears and
  every other position keeps its entry, although half the list has moved;
* `get_set` is the corresponding rule for overwriting an entry in place.
-/

namespace RayPlatform.Lib.SparseArray

variable {V : Type*}

/-- The number of occupied positions below `b`. -/
def rank (occ : Nat → Bool) (b : Nat) : Nat :=
  Nat.count (fun i => occ i = true) b

/-- The entry of position `b`, when it is occupied. -/
def get (occ : Nat → Bool) (xs : List V) (b : Nat) : Option V :=
  if occ b then xs[rank occ b]? else none

@[simp] theorem rank_zero (occ : Nat → Bool) : rank occ 0 = 0 := by
  simp [rank]

theorem rank_succ (occ : Nat → Bool) (b : Nat) :
    rank occ (b + 1) = rank occ b + if occ b then 1 else 0 := by
  simp [rank, Nat.count_succ]

theorem rank_mono (occ : Nat → Bool) {a b : Nat} (h : a ≤ b) : rank occ a ≤ rank occ b :=
  Nat.count_monotone _ h

/-- Distinct occupied positions have distinct ranks. -/
theorem rank_lt_rank {occ : Nat → Bool} {a b : Nat} (ha : occ a = true) (h : a < b) :
    rank occ a < rank occ b :=
  Nat.count_strict_mono (p := fun i => occ i = true) ha h

theorem rank_congr {occ occ' : Nat → Bool} {b : Nat} (h : ∀ i < b, occ i = occ' i) :
    rank occ b = rank occ' b := by
  induction b with
  | zero => simp
  | succ n ih =>
      rw [rank_succ, rank_succ, ih (fun i hi => h i (by omega)), h n (by omega)]

/-- Occupying a free position raises the rank of exactly the later positions. -/
theorem rank_update {occ : Nat → Bool} {b : Nat} (hb : occ b = false) (c : Nat) :
    rank (Function.update occ b true) c = rank occ c + if b < c then 1 else 0 := by
  induction c with
  | zero => simp
  | succ n ih =>
      rw [rank_succ, rank_succ, ih]
      rcases Nat.lt_trichotomy b n with h | h | h
      · have hne : n ≠ b := by omega
        simp only [Function.update_of_ne hne, if_pos h, if_pos (by omega : b < n + 1)]
        omega
      · subst h
        simp [hb]
      · have hne : n ≠ b := by omega
        simp only [Function.update_of_ne hne, if_neg (by omega : ¬ b < n),
          if_neg (by omega : ¬ b < n + 1), Nat.add_zero]

theorem get_of_free {occ : Nat → Bool} {xs : List V} {b : Nat} (h : occ b = false) :
    get occ xs b = none := by
  simp [get, h]

/-- A dense list with one cell per occupied position answers exactly the
occupied positions. -/
theorem get_isSome {occ : Nat → Bool} {xs : List V} {n b : Nat}
    (hlen : xs.length = rank occ n) (hb : b < n) :
    (get occ xs b).isSome = occ b := by
  cases h : occ b with
  | false => simp [get, h]
  | true =>
      have hlt : rank occ b < xs.length := hlen ▸ rank_lt_rank h hb
      simp [get, h, hlt]

/-- Rebuilding a list around a new cell is insertion at that cell. -/
theorem take_append_cons_drop (xs : List V) (n : Nat) (x : V) (h : n ≤ xs.length) :
    xs.take n ++ x :: xs.drop n = xs.insertIdx n x := by
  induction xs generalizing n with
  | nil =>
      obtain rfl : n = 0 := by simpa using h
      rfl
  | cons y ys ih =>
      cases n with
      | zero => rfl
      | succ n => simp [ih n (by simpa using h)]

/-- Inserting at the rank of a free position stores the new entry there and
keeps the entry of every other position. -/
theorem get_insertIdx {occ : Nat → Bool} {xs : List V} {n b : Nat} {x : V}
    (hlen : xs.length = rank occ n) (hfree : occ b = false) (hb : b < n) (c : Nat) :
    get (Function.update occ b true) (xs.insertIdx (rank occ b) x) c =
      if c = b then some x else get occ xs c := by
  have hle : rank occ b ≤ xs.length := hlen ▸ rank_mono occ (Nat.le_of_lt hb)
  unfold get
  rw [rank_update hfree]
  rcases Nat.lt_trichotomy c b with h | h | h
  · -- below the insertion point nothing moved
    have hne : c ≠ b := by omega
    simp only [Function.update_of_ne hne, if_neg (by omega : ¬ b < c), Nat.add_zero, if_neg hne]
    split
    · rename_i hc
      exact List.getElem?_insertIdx_of_lt (rank_lt_rank hc h)
    · rfl
  · subst h
    simp [List.getElem?_insertIdx_self, hle]
  · -- above it the rank and the list index both shift by one
    have hne : c ≠ b := by omega
    simp only [Function.update_of_ne hne, if_pos h, if_neg hne]
    split
    · have hrank : rank occ b ≤ rank occ c := rank_mono occ (Nat.le_of_lt h)
      rw [List.getElem?_insertIdx_of_gt (by omega)]
      simp
    · rfl

/-- Overwriting the cell of an occupied position changes that entry only. -/
theorem get_set {occ : Nat → Bool} {xs : List V} {b : Nat} {x : V}
    (hocc : occ b = true) (hlt : rank occ b < xs.length) (c : Nat) :
    get occ (xs.set (rank occ b) x) c = if c = b then some x else get occ xs c := by
  by_cases hcb : c = b
  · subst hcb
    simp [get, hocc, hlt]
  · simp only [get, if_neg hcb]
    split
    · rename_i hc
      have hne : rank occ b ≠ rank occ c := by
        rcases Nat.lt_or_gt_of_ne hcb with h | h
        · exact Nat.ne_of_gt (rank_lt_rank hc h)
        · exact Nat.ne_of_lt (rank_lt_rank hocc h)
      rw [List.getElem?_set_ne hne]
    · rfl

end RayPlatform.Lib.SparseArray
