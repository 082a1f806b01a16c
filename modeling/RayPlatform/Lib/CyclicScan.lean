import Mathlib.Data.List.Range
import Mathlib.Data.List.Rotate
import RayPlatform.Lib.SparseArray

/-!
# Scanning a ring

Slots `0 .. n-1` on a ring with a cursor. `selected p n cursor` lists the slots
with property `p` in the order a scan from the cursor meets them. A scan that
takes the first selected slot and leaves the cursor just after it rotates the
list by one (`IsNext.rotate`): as many consecutive scans as there are selected
slots return each of them once (`Scans.slot_ne`).
-/

namespace RayPlatform.Lib.CyclicScan

open SparseArray (rank rank_zero rank_succ)

/-- The slots of the ring, from the cursor on. -/
def slots (n cursor : Nat) : List Nat :=
  List.range' cursor (n - cursor) ++ List.range' 0 cursor

/-- The selected slots, from the cursor on. -/
def selected (p : Nat → Bool) (n cursor : Nat) : List Nat :=
  (slots n cursor).filter p

/-- The cursor after slot `i`. -/
def next (n i : Nat) : Nat :=
  if i + 1 = n then 0 else i + 1

variable {p : Nat → Bool} {n cursor : Nat}

theorem mem_slots (h : cursor ≤ n) (i : Nat) : i ∈ slots n cursor ↔ i < n := by
  simp only [slots, List.mem_append, List.mem_range'_1]
  omega

theorem mem_selected (h : cursor ≤ n) (i : Nat) :
    i ∈ selected p n cursor ↔ i < n ∧ p i = true := by
  rw [selected, List.mem_filter, mem_slots h]

theorem slots_nodup : (slots n cursor).Nodup := by
  rw [slots, List.nodup_append]
  refine ⟨List.nodup_range', List.nodup_range', ?_⟩
  intro i hi j hj hij
  rw [List.mem_range'_1] at hi hj
  omega

theorem selected_nodup : (selected p n cursor).Nodup :=
  slots_nodup.filter p

theorem next_lt (h : cursor < n) : next n cursor < n := by
  unfold next
  split <;> omega

/-- The number of selected slots does not depend on the cursor. -/
theorem length_selected (h : cursor ≤ n) : (selected p n cursor).length = rank p n := by
  have hrange : ∀ m, ((List.range' 0 m).filter p).length = rank p m := by
    intro m
    induction m with
    | zero => simp
    | succ m ih =>
        rw [List.range'_concat, List.filter_append, List.length_append, ih, rank_succ]
        simp only [Nat.one_mul, Nat.zero_add, List.filter_singleton]
        cases p m <;> rfl
  have hsplit : List.range' 0 n = List.range' 0 cursor ++ List.range' cursor (n - cursor) := by
    have happend := List.range'_append_1 (s := 0) (m := cursor) (n := n - cursor)
    rw [Nat.zero_add, Nat.add_sub_cancel' h] at happend
    exact happend.symm
  rw [← hrange n, hsplit, selected, slots, List.filter_append, List.filter_append,
    List.length_append, List.length_append, Nat.add_comm]

/-- `c` is the first selected slot from the cursor on. -/
structure IsNext (p : Nat → Bool) (n cursor c : Nat) : Prop where
  lt : c < n
  hit : p c = true
  before : (cursor ≤ c ∧ ∀ i, cursor ≤ i → i < c → p i = false) ∨
    (c < cursor ∧ (∀ i, cursor ≤ i → i < n → p i = false) ∧ ∀ i, i < c → p i = false)

theorem filter_range'_eq_nil {s m : Nat} (h : ∀ i, s ≤ i → i < s + m → p i = false) :
    (List.range' s m).filter p = [] := by
  rw [List.filter_eq_nil_iff]
  intro i hi
  rw [List.mem_range'_1] at hi
  rw [h i hi.1 hi.2]
  decide

theorem range'_split {s m c : Nat} (hs : s ≤ c) (hc : c < s + m) :
    List.range' s m = List.range' s (c - s) ++ c :: List.range' (c + 1) (s + m - (c + 1)) := by
  have hfirst := List.range'_append_1 (s := s) (m := c - s) (n := s + m - c)
  rw [(by omega : s + (c - s) = c), (by omega : c - s + (s + m - c) = m),
    (by omega : s + m - c = s + m - (c + 1) + 1), List.range'_succ] at hfirst
  exact hfirst.symm

/-- Taking the next selected slot rotates the list of selected slots. -/
theorem IsNext.rotate {c : Nat} (h : IsNext p n cursor c) (hcursor : cursor ≤ n) :
    ∃ rest, selected p n cursor = c :: rest ∧ selected p n (next n c) = rest ++ [c] := by
  have hlt := h.lt
  -- after the scan, the list starts just after `c` and ends with it
  have hafter : selected p n (next n c) =
      (List.range' (c + 1) (n - (c + 1))).filter p ++ ((List.range' 0 c).filter p ++ [c]) := by
    have hlast : (List.range' 0 (c + 1)).filter p = (List.range' 0 c).filter p ++ [c] := by
      rw [List.range'_concat, List.filter_append]
      simp [h.hit]
    unfold next
    split
    · rename_i hend
      have hnone : n - (c + 1) = 0 := by omega
      rw [← hlast, hnone, hend, selected, slots]
      simp
    · rw [selected, slots, List.filter_append, hlast]
  have hself : [c].filter p = [c] := by simp [h.hit]
  rcases h.before with ⟨hle, hskip⟩ | ⟨hlow, hhigh, hskip⟩
  · have hfirst : (List.range' cursor (c - cursor)).filter p = [] :=
      filter_range'_eq_nil fun i hi hic => hskip i hi (by omega)
    have hprefix : (List.range' 0 c).filter p = (List.range' 0 cursor).filter p := by
      have happend := List.range'_append_1 (s := 0) (m := cursor) (n := c - cursor)
      rw [Nat.zero_add, Nat.add_sub_cancel' hle] at happend
      rw [← happend, List.filter_append, hfirst, List.append_nil]
    refine ⟨(List.range' (c + 1) (n - (c + 1))).filter p ++ (List.range' 0 cursor).filter p, ?_, ?_⟩
    · rw [selected, slots, range'_split hle (by omega : c < cursor + (n - cursor)),
        (by omega : cursor + (n - cursor) = n), List.filter_append, List.filter_append, hfirst,
        List.filter_cons_of_pos h.hit]
      rfl
    · rw [hafter, hprefix, List.append_assoc]
  · have hfirst : (List.range' cursor (n - cursor)).filter p = [] :=
      filter_range'_eq_nil fun i hi hic => hhigh i hi (by omega)
    have hlowskip : (List.range' 0 c).filter p = [] :=
      filter_range'_eq_nil fun i _ hic => hskip i (by omega)
    have hmiddle : (List.range' (c + 1) (n - (c + 1))).filter p =
        (List.range' (c + 1) (cursor - (c + 1))).filter p := by
      have happend := List.range'_append_1 (s := c + 1) (m := cursor - (c + 1)) (n := n - cursor)
      rw [(by omega : c + 1 + (cursor - (c + 1)) = cursor),
        (by omega : cursor - (c + 1) + (n - cursor) = n - (c + 1))] at happend
      rw [← happend, List.filter_append, hfirst, List.append_nil]
    refine ⟨(List.range' (c + 1) (cursor - (c + 1))).filter p, ?_, ?_⟩
    · rw [selected, slots, List.filter_append, hfirst, List.nil_append,
        range'_split (Nat.zero_le c) (by omega : c < 0 + cursor), Nat.sub_zero, Nat.zero_add,
        List.filter_append, hlowskip, List.filter_cons_of_pos h.hit]
      rfl
    · rw [hafter, hmiddle, hlowskip, List.nil_append]

/-! ## Scan after scan -/

/-- Consecutive scans: number `k` starts at `cursor k` and takes `slot k`. -/
structure Scans (p : Nat → Bool) (n : Nat) (cursor slot : Nat → Nat) : Prop where
  start : cursor 0 ≤ n
  takes : ∀ k, IsNext p n (cursor k) (slot k)
  advances : ∀ k, cursor (k + 1) = next n (slot k)

namespace Scans

variable {cursor slot : Nat → Nat}

theorem cursor_le (h : Scans p n cursor slot) (k : Nat) : cursor k ≤ n := by
  cases k with
  | zero => exact h.start
  | succ k =>
      rw [h.advances k]
      exact Nat.le_of_lt (next_lt (h.takes k).lt)

theorem selected_eq (h : Scans p n cursor slot) (k : Nat) :
    selected p n (cursor k) = (selected p n (cursor 0)).rotate k := by
  induction k with
  | zero => rw [List.rotate_zero]
  | succ k ih =>
      obtain ⟨rest, hbefore, hafter⟩ := (h.takes k).rotate (h.cursor_le k)
      rw [h.advances k, hafter, ← List.rotate_rotate, ← ih, hbefore, List.rotate_cons_succ,
        List.rotate_zero]

/-- The scans go round the list of selected slots. -/
theorem slot_eq (h : Scans p n cursor slot) (k : Nat) :
    (selected p n (cursor 0))[k % rank p n]? = some (slot k) := by
  obtain ⟨rest, hbefore, -⟩ := (h.takes k).rotate (h.cursor_le k)
  have hlength := length_selected (p := p) h.start
  have hpos : 0 < (selected p n (cursor 0)).length := by
    rw [hlength, ← length_selected (h.cursor_le k), hbefore]
    exact Nat.succ_pos _
  rw [h.selected_eq k] at hbefore
  rw [← hlength, ← List.head?_rotate (Nat.mod_lt k hpos), List.rotate_mod, hbefore,
    List.head?_cons]

/-- As many consecutive scans as there are selected slots take distinct ones. -/
theorem slot_ne (h : Scans p n cursor slot) {i j : Nat} (hij : i < j) (hj : j < i + rank p n) :
    slot i ≠ slot j := by
  intro heq
  have hpos : 0 < rank p n := by omega
  have hlength := length_selected (p := p) h.start
  have hsame : (selected p n (cursor 0))[i % rank p n]? =
      (selected p n (cursor 0))[j % rank p n]? := by
    rw [h.slot_eq i, h.slot_eq j, heq]
  have hlt : i % rank p n < (selected p n (cursor 0)).length := by
    rw [hlength]
    exact Nat.mod_lt i hpos
  have hmod : i % rank p n = j % rank p n := (List.getElem?_inj hlt selected_nodup).mp hsame
  have hdvd : rank p n ∣ j - i := Nat.dvd_of_mod_eq_zero (Nat.sub_mod_eq_zero_of_mod_eq hmod.symm)
  have hle := Nat.le_of_dvd (by omega) hdvd
  omega

end Scans

end RayPlatform.Lib.CyclicScan
