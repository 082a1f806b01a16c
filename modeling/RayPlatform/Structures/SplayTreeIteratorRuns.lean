import RayPlatform.Structures.SplayTreeIterator

/-!
# Iterations in runs of the SplayTree

Operations can make a tree for which the stack of the iterator is too small: keys that are
inserted in decreasing order make a path of right links, and a search for the last key turns
the path into a comb, in which every node of a path of right links has a left child.

* `rightPath_run` — the insertions, `comb_run` — the search;
* `splayTreeIterator_enumerates_iff` — the trees that an iteration enumerates, in any run;
* `splayTreeIterator_overflows` — 2051 keys are too many.
-/

namespace RayPlatform

open Lib (LinkedTree plug Frame)

namespace SplayTree

/-- The keys from `a` on, each below the one before. -/
def rightPath : Nat → Nat → LinkedTree Nat (Nat × Nat)
  | _, 0 => .nil
  | a, n + 1 => .node a (a, 0) .nil (rightPath (a + 1) n)

/-- A path of `n` nodes with a left child each. -/
def comb : Nat → Nat → LinkedTree Nat (Nat × Nat)
  | _, 0 => .nil
  | a, n + 1 => .node (a + 1) (a + 1, 0) (.node a (a, 0) .nil .nil) (comb (a + 2) n)

/-- The left spine that is a comb. -/
def combFrames : Nat → Nat → List (Frame Nat (Nat × Nat))
  | _, 0 => []
  | a, n + 1 => combFrames (a + 2) n ++ [⟨a + 1, (a + 1, 0), .node a (a, 0) .nil .nil⟩]

theorem plug_combFrames (n : Nat) : ∀ (a : Nat) (ls : List (Frame Nat (Nat × Nat))),
    plug .left (combFrames a n ++ ls) .nil = plug .left ls (comb a n) := by
  induction n with
  | zero =>
      intro a ls
      rfl
  | succ n ih =>
      intro a ls
      rw [combFrames, List.append_assoc, ih]
      rfl

theorem peak_comb (n : Nat) : ∀ a, peak (comb a n) = n := by
  induction n with
  | zero =>
      intro a
      rfl
  | succ n ih =>
      intro a
      rw [comb, peak, ih]
      simp [LinkedTree.pointer, peak]
      omega

theorem mem_rightPath {n : Nat} : ∀ {a : Nat} {e : Entry Nat Nat Nat},
    e ∈ (rightPath a n).toList → a ≤ e.1 ∧ Entry.key e = e.1 := by
  induction n with
  | zero =>
      intro a e he
      cases he
  | succ n ih =>
      intro a e he
      rw [rightPath, LinkedTree.toList, LinkedTree.toList, List.nil_append] at he
      rcases List.mem_cons.mp he with rfl | he
      · exact ⟨Nat.le_refl _, rfl⟩
      · obtain ⟨hle, hkey⟩ := ih he
        exact ⟨by omega, hkey⟩

theorem length_rightPath (n : Nat) : ∀ a, (rightPath a n).toList.length = n := by
  induction n with
  | zero =>
      intro a
      rfl
  | succ n ih =>
      intro a
      rw [rightPath, LinkedTree.toList, LinkedTree.toList, List.nil_append, List.length_cons, ih]

variable {tree : SplayTree Nat Nat Nat} {m : NodeMap Nat Nat Nat} {a n : Nat}

/-- A smaller key goes above the path. -/
theorem Represents.insert_rightPath (h : tree.Represents m (rightPath (a + 1) n)) :
    ∃ tree', tree.insert n a a 0 = some (tree', a, true) ∧ m a = none ∧
      tree'.Represents (Function.update m a (some (a, 0))) (rightPath a (n + 1)) := by
  have habsent : m a = none := h.entries.eq_none fun e he => by
    obtain ⟨hle, hkey⟩ := mem_rightPath he
    rw [hkey]
    omega
  have hfree : a ∉ (rightPath (a + 1) n).addresses := by
    intro hmem
    obtain ⟨e, he, heq⟩ := List.mem_map.mp hmem
    have hle := (mem_rightPath he).1
    omega
  cases n with
  | zero =>
      have hroot : tree.root = none := h.root.symm
      obtain ⟨tree', hinsert, hrep⟩ := h.insertFirst hroot 0 a a 0
      exact ⟨tree', hinsert, habsent, hrep⟩
  | succ n =>
      have hroot : tree.root = some (a + 1) := h.root.symm
      have htorn := h.toHolds.torn hroot a
      obtain ⟨-, hkey, hleft, -⟩ := htorn.read
      have hkey' : ((tree.start (a + 1)).memory (tree.start (a + 1)).t).key = a + 1 := hkey
      have hleft' : ((tree.start (a + 1)).memory (tree.start (a + 1)).t).left = none := hleft
      have hloop : (tree.start (a + 1)).loop a (n + 1) = some (tree.start (a + 1)) := by
        unfold Splaying.loop
        rw [hkey', if_pos (Nat.lt_succ_self a), hleft']
      have hafter : ∀ e ∈ (rightPath (a + 1 + 1) n).toList, a < Entry.key e := by
        intro e he
        obtain ⟨hle, hkey⟩ := mem_rightPath he
        rw [hkey]
        omega
      obtain ⟨tree', hsplay, hholds, -, hsize, -⟩ := h.toHolds.splay_of_loop hroot hloop htorn
      have hrep : tree'.Represents m (rightPath (a + 1) (n + 1)) :=
        ⟨hholds, hsize.trans h.size, h.entries⟩
      obtain ⟨tree'', hinsert, hrep'⟩ := hrep.insertBefore hroot hsplay habsent hfree
        (Nat.lt_succ_self a) (fun e he => absurd he List.not_mem_nil) hafter 0
      exact ⟨tree'', hinsert, habsent, hrep'⟩

/-- Two nodes of the path at a time become a node with a left child. -/
theorem Torn.loop_rightPath {memory : Nat → SplayNode Nat Nat Nat} {list : List (Entry Nat Nat Nat)}
    (horder : Ordered list) : ∀ (n a : Nat) (s : Splaying Nat Nat Nat)
      (ls rs : List (Frame Nat (Nat × Nat))) (fuel : Nat),
    Torn (a + 2 * n) memory list s (rightPath a (2 * n + 1)) ls rs → n < fuel →
    ∃ s', s.loop (a + 2 * n) fuel = some s' ∧
      Torn (a + 2 * n) memory list s' (.node (a + 2 * n) (a + 2 * n, 0) .nil .nil)
        (combFrames a n ++ ls) rs := by
  intro n
  induction n with
  | zero =>
      intro a s ls rs fuel h hfuel
      obtain ⟨fuel, rfl⟩ : ∃ f, fuel = f + 1 := ⟨fuel - 1, by omega⟩
      obtain ⟨ht, hkey, -, -⟩ := h.read
      have hkey' : (s.memory a).key = a := hkey
      refine ⟨s, ?_, h⟩
      rw [Nat.mul_zero, Nat.add_zero, Splaying.loop, ht, hkey', if_neg (Nat.lt_irrefl _),
        if_neg (Nat.lt_irrefl _)]
  | succ n ih =>
      intro a s ls rs fuel h hfuel
      obtain ⟨fuel, rfl⟩ : ∃ f, fuel = f + 1 := ⟨fuel - 1, by omega⟩
      have htarget : a + 2 * (n + 1) = a + 2 + 2 * n := by omega
      rw [htarget] at h ⊢
      obtain ⟨s', hstep, htorn⟩ := Torn.loop_right_right (c := a + 2) h horder
        (show a < a + 2 + 2 * n by omega) (show a + 1 < a + 2 + 2 * n by omega) rfl fuel
      obtain ⟨s'', hloop, hdone⟩ := ih (a + 2) s' _ rs fuel htorn (by omega)
      refine ⟨s'', hstep.trans hloop, ?_⟩
      rw [combFrames, List.append_assoc]
      exact hdone

/-- The search for the last key turns the path into a comb. -/
theorem Represents.find_rightPath (h : tree.Represents m (rightPath 0 (2 * n + 1))) :
    ∃ tree', (tree.find (2 * n + 1) (2 * n) false).map Prod.fst = some tree' ∧
      tree'.Represents m (.node (2 * n) (2 * n, 0) (comb 0 n) .nil) := by
  have hroot : tree.root = some 0 := h.root.symm
  have htorn := h.toHolds.torn hroot (0 + 2 * n)
  obtain ⟨s, hloop, hdone⟩ := Torn.loop_rightPath h.ordered n 0 _ [] [] (2 * n + 1) htorn (by omega)
  rw [Nat.zero_add] at hloop hdone
  obtain ⟨tree', hsplay, hholds, hlist, hsize, -⟩ := h.toHolds.splay_of_loop hroot hloop hdone
  rw [plug_combFrames] at hholds hlist
  have hrep : tree'.Represents m (.node (2 * n) (2 * n, 0) (comb 0 n) .nil) := by
    refine ⟨hholds, hsize.trans (h.size.trans (congrArg List.length hlist.symm)), ?_⟩
    have hentries := h.entries
    rw [← hlist] at hentries
    exact hentries
  refine ⟨tree', ?_, hrep⟩
  obtain ⟨hroot', -⟩ := hrep.read
  unfold SplayTree.find
  simp only [Bool.false_eq_true, if_false, hroot, hsplay, hroot', Option.bind_eq_bind,
    Option.bind_some]
  split
  · rfl
  · rfl

/-! ## Runs -/

/-- Keys are inserted in decreasing order, each at its own address. -/
theorem rightPath_run (memory : Nat → SplayNode Nat Nat Nat) (total : Nat) : ∀ n ≤ total,
    ∃ s, (splaySystem memory).Reachable s ∧ s.tree.Represents s.map (rightPath (total - n) n) := by
  intro n
  induction n with
  | zero =>
      intro _
      refine ⟨_, .init rfl, ⟨⟨trivial, rfl, ⟨.nil, .nil⟩⟩, rfl, fun k a v => ?_⟩⟩
      exact iff_of_false (fun h => nomatch h) (fun h => nomatch h)
  | succ n ih =>
      intro hle
      obtain ⟨s, hs, hrep⟩ := ih (by omega)
      rw [show total - n = total - (n + 1) + 1 by omega] at hrep
      obtain ⟨tree', hinsert, habsent, hrep'⟩ := hrep.insert_rightPath
      have hsize : s.tree.size ≤ n := by rw [hrep.size, length_rightPath]
      have hfree : ∀ k v, s.map k ≠ some (total - (n + 1), v) := by
        intro k v hk
        have hle := (mem_rightPath ((hrep.entries k _ v).mp hk)).1
        omega
      have hafter : s.map.after (.insert (total - (n + 1)) (total - (n + 1)) 0) =
          Function.update s.map (total - (n + 1)) (some (total - (n + 1), 0)) := by
        rw [NodeMap.after, habsent]
      rw [← hafter] at hrep'
      refine ⟨⟨tree', _⟩, hs.step (l := (n, .insert (total - (n + 1)) (total - (n + 1)) 0))
        ⟨fun _ => hfree, hsize, ?_, rfl⟩, hrep'⟩
      rw [exec, hinsert]
      rfl

/-- Then the last key is searched for. -/
theorem comb_run (memory : Nat → SplayNode Nat Nat Nat) (n : Nat) :
    ∃ s, (splaySystem memory).Reachable s ∧
      s.tree.Represents s.map (.node (2 * n) (2 * n, 0) (comb 0 n) .nil) := by
  obtain ⟨s, hs, hrep⟩ := rightPath_run memory (2 * n + 1) (2 * n + 1) (Nat.le_refl _)
  rw [Nat.sub_self] at hrep
  obtain ⟨tree', hfind, hrep'⟩ := hrep.find_rightPath
  have hsize : s.tree.size ≤ 2 * n + 1 := by rw [hrep.size, length_rightPath]
  refine ⟨⟨tree', s.map⟩, hs.step (l := (2 * n + 1, .find (2 * n) false))
    ⟨trivial, hsize, ?_, rfl⟩, hrep'⟩
  rw [exec, Option.map_map]
  exact hfind

theorem length_comb (n : Nat) : ∀ a, (comb a n).toList.length = 2 * n := by
  induction n with
  | zero =>
      intro a
      rfl
  | succ n ih =>
      intro a
      rw [comb, LinkedTree.toList, List.length_append, List.length_cons, ih]
      simp only [LinkedTree.toList, List.nil_append, List.length_cons, List.length_nil]
      omega

end SplayTree

open SplayTree

/-- In every run, an iteration over the tree enumerates it exactly when fewer than
`MAX_STACK_SIZE` left children wait on each path. -/
theorem splayTreeIterator_enumerates_iff {ι κ ν : Type} [DecidableEq ι] [LinearOrder κ]
    {memory : ι → SplayNode ι κ ν} {s : SplayRun ι κ ν} (hs : (splaySystem memory).Reachable s) :
    s.tree.Enumerates ↔
      ∀ a waiting, PathTo s.tree.memory s.tree.root a waiting → waiting < MAX_STACK_SIZE := by
  obtain ⟨t, hrep⟩ := (splaySystem_inductive memory).holds hs
  exact hrep.enumerates_iff_peak.trans hrep.bounded_iff.symm

/-- A comb of three nodes. -/
theorem splayTreeIterator_enumerates_three :
    ∃ s : SplayRun Nat Nat Nat, s.tree.size = 3 ∧ s.tree.Enumerates := by
  obtain ⟨s, hs, hrep⟩ := comb_run (fun _ => ⟨0, 0, none, none⟩) 1
  exact ⟨s, hrep.size, (splayTreeIterator_enumerates_iff hs).mpr
    (hrep.bounded_iff.mpr (by decide))⟩

/-- The keys from 2050 to 0 are inserted, and 2050 is searched for. -/
theorem splayTreeIterator_overflows :
    ∃ s : SplayRun Nat Nat Nat, (splaySystem fun _ => ⟨0, 0, none, none⟩).Reachable s ∧
      s.tree.size = 2051 ∧ ¬ s.tree.Enumerates := by
  obtain ⟨s, hs, hrep⟩ := comb_run (fun _ => ⟨0, 0, none, none⟩) 1025
  refine ⟨s, hs, ?_, ?_⟩
  · rw [hrep.size, LinkedTree.toList, List.length_append, length_comb]
    rfl
  · rw [hrep.enumerates_iff_peak, peak, peak_comb]
    decide

end RayPlatform
