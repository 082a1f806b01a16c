import Mathlib.Data.Finset.Card
import Mathlib.Tactic.TypeStar

/-!
# Shortest paths by settling one vertex after the other

Dijkstra's algorithm on a graph whose edges all have length one, as far as it is
the same for every data structure that holds the labels.

* `Walk edge source n v` — a walk of `n` hops;
* `Relaxes` — what relaxing the edges of one vertex may do to the labels. Which of
  several predecessors at the same distance is kept is left open;
* `Labels.Sound` — the invariant of the search. `Sound.settle` keeps it when the
  edges of a closest vertex are relaxed and the vertex is settled;
* `Sound.walk` and `Sound.le_of_walk` — when all vertices are settled, a label below
  infinity is the number of hops of a shortest walk.
-/

namespace RayPlatform.Lib

variable {V : Type*}

/-- The walks from a vertex, with their number of hops. -/
inductive Walk (edge : V → V → Prop) (source : V) : Nat → V → Prop
  | start : Walk edge source 0 source
  | hop {n : Nat} {u v : V} : Walk edge source n u → edge u v → Walk edge source (n + 1) v

namespace Walk

variable {edge : V → V → Prop} {source u v : V} {n : Nat}

theorem eq_of_zero (h : Walk edge source 0 v) : v = source := by
  cases h with
  | start => rfl

theorem cons (he : edge u v) {w : V} (h : Walk edge v n w) : Walk edge u (n + 1) w := by
  induction h with
  | start => exact .hop .start he
  | hop _ hlast ih => exact .hop ih hlast

theorem mono {edge' : V → V → Prop} (hsub : ∀ a b, edge a b → edge' a b)
    (h : Walk edge source n v) : Walk edge' source n v := by
  induction h with
  | start => exact .start
  | hop _ hlast ih => exact .hop ih (hsub _ _ hlast)

end Walk

/-- The labels of the vertices during a search. -/
structure Labels (V : Type*) where
  distance : V → Nat
  previous : V → Option V
  unvisited : Finset V

/-- The edges from `current` to some vertices `N` have been relaxed: an unvisited one of
them may have got `current` as its predecessor, if this makes it closer or if it had
another predecessor at the same distance. -/
structure Relaxes (current : V) (N : V → Prop) (s s' : Labels V) : Prop where
  unvisited : s'.unvisited = s.unvisited
  reached : ∀ v, N v → v ∈ s.unvisited → s'.distance v ≤ s.distance current + 1
  change : ∀ v, (s'.distance v = s.distance v ∧ s'.previous v = s.previous v) ∨
    (N v ∧ v ∈ s.unvisited ∧ s'.previous v = some current ∧
      s'.distance v = s.distance current + 1 ∧
      (s.distance current + 1 < s.distance v ∨
        s.distance current + 1 = s.distance v ∧ s.previous v ≠ none))

namespace Relaxes

variable {current v : V} {N M : V → Prop} {s s' s'' : Labels V}

theorem nothing : Relaxes current (fun _ => False) s s :=
  ⟨rfl, fun _ h => h.elim, fun _ => .inl ⟨rfl, rfl⟩⟩

theorem le (h : Relaxes current N s s') (v : V) : s'.distance v ≤ s.distance v := by
  obtain ⟨hsame, -⟩ | ⟨-, -, -, hnew, hbetter⟩ := h.change v
  · omega
  · omega

/-- The label of `current` itself stays. -/
theorem self (h : Relaxes current N s s') :
    s'.distance current = s.distance current ∧ s'.previous current = s.previous current := by
  obtain hsame | ⟨-, -, -, -, hbetter⟩ := h.change current
  · exact hsame
  · omega

theorem visited (h : Relaxes current N s s') (hv : v ∉ s.unvisited) :
    s'.distance v = s.distance v ∧ s'.previous v = s.previous v := by
  obtain hsame | ⟨-, hopen, -⟩ := h.change v
  · exact hsame
  · exact absurd hopen hv

theorem trans (h : Relaxes current N s s') (h' : Relaxes current M s' s'') :
    Relaxes current (fun v => N v ∨ M v) s s'' := by
  have hself := h.self.1
  refine ⟨h'.unvisited.trans h.unvisited, ?_, fun v => ?_⟩
  · rintro v (hN | hM) hv
    · exact (h'.le v).trans (h.reached v hN hv)
    · rw [← hself]
      exact h'.reached v hM (by rwa [h.unvisited])
  · obtain hsame' | ⟨hM, hopen, hprev, hdist, hbetter⟩ := h'.change v
    · rw [hsame'.1, hsame'.2]
      obtain hsame | ⟨hN, hrest⟩ := h.change v
      · exact .inl hsame
      · exact .inr ⟨.inl hN, hrest⟩
    · rw [h.unvisited] at hopen
      rw [hself] at hdist hbetter
      obtain ⟨hd, hp⟩ | ⟨-, -, -, -, hfirst⟩ := h.change v
      · rw [hd, hp] at hbetter
        exact .inr ⟨.inr hM, hopen, hprev, hdist, hbetter⟩
      · exact .inr ⟨.inr hM, hopen, hprev, hdist, hfirst⟩

end Relaxes

namespace Labels

variable {edge : V → V → Prop} {vertices : Finset V} {source u v : V} {infinity n : Nat}
  {s s' : Labels V}

/-- The invariant of the search from `source`. -/
structure Sound (edge : V → V → Prop) (vertices : Finset V) (source : V) (infinity : Nat)
    (s : Labels V) : Prop where
  unvisited : s.unvisited ⊆ vertices
  start : s.distance source = 0 ∧ s.previous source = none
  bounded : ∀ v ∈ vertices, s.distance v ≤ infinity
  reached : ∀ u v, s.previous v = some u → edge u v ∧ u ∈ vertices ∧ u ∉ s.unvisited ∧
    s.distance v = s.distance u + 1 ∧ s.distance v < infinity
  unreached : ∀ v ∈ vertices, v ≠ source → s.previous v = none → s.distance v = infinity
  frontier : ∀ u ∈ vertices, u ∉ s.unvisited → ∀ v ∈ s.unvisited, s.distance u ≤ s.distance v
  relaxed : ∀ u ∈ vertices, u ∉ s.unvisited → ∀ v ∈ vertices, edge u v →
    s.distance v ≤ s.distance u + 1

/-- A vertex is settled. -/
def settle [DecidableEq V] (s : Labels V) (current : V) : Labels V :=
  { s with unvisited := s.unvisited.erase current }

/-- Settling a closest vertex, after its edges have been relaxed, keeps the invariant. -/
theorem Sound.settle [DecidableEq V] {current : V} (h : Sound edge vertices source infinity s)
    (hcurrent : current ∈ s.unvisited)
    (hclosest : ∀ v ∈ s.unvisited, s.distance current ≤ s.distance v)
    (hrelax : Relaxes current (edge current) s s') :
    Sound edge vertices source infinity (s'.settle current) := by
  have hvertex := h.unvisited hcurrent
  have hself := hrelax.self
  have hopen : (s'.settle current).unvisited = s.unvisited.erase current := by
    rw [Labels.settle, hrelax.unvisited]
  -- what is not open any more was settled before or is the vertex itself
  have hsettled : ∀ u, u ∉ s.unvisited.erase current → u = current ∨ u ∉ s.unvisited := by
    intro u hu
    rw [Finset.mem_erase, not_and] at hu
    exact or_iff_not_imp_left.mpr hu
  constructor
  · rw [hopen]
    exact (Finset.erase_subset _ _).trans h.unvisited
  · obtain ⟨hd, hp⟩ | ⟨-, -, -, -, hbetter⟩ := hrelax.change source
    · exact ⟨hd.trans h.start.1, hp.trans h.start.2⟩
    · obtain ⟨hzero, hnone⟩ := h.start
      rcases hbetter with hlt | ⟨-, hsome⟩
      · omega
      · exact absurd hnone hsome
  · exact fun v hv => (hrelax.le v).trans (h.bounded v hv)
  · intro u v hprev
    rw [hopen]
    change s'.previous v = some u at hprev
    show _ ∧ _ ∧ _ ∧ s'.distance v = s'.distance u + 1 ∧ s'.distance v < infinity
    obtain ⟨hd, hp⟩ | ⟨hedge, hv, hnew, hdist, hbetter⟩ := hrelax.change v
    · obtain ⟨hedge, hu, hvisited, hstep, hlt⟩ := h.reached u v (hp ▸ hprev)
      refine ⟨hedge, hu, fun hmem => hvisited (Finset.mem_of_mem_erase hmem), ?_, by omega⟩
      rw [hd, (hrelax.visited hvisited).1]
      exact hstep
    · obtain rfl : current = u := Option.some.inj (hnew.symm.trans hprev)
      refine ⟨hedge, hvertex, Finset.notMem_erase _ _, by omega, ?_⟩
      have hle := h.bounded v (h.unvisited hv)
      rcases hbetter with hlt | ⟨heq, hsome⟩
      · omega
      · obtain ⟨w, hw⟩ := Option.ne_none_iff_exists'.mp hsome
        have := (h.reached w v hw).2.2.2.2
        omega
  · intro v hv hne hnone
    change s'.previous v = none at hnone
    obtain ⟨hd, hp⟩ | ⟨-, -, hnew, -⟩ := hrelax.change v
    · exact hd.trans (h.unreached v hv hne (hp ▸ hnone))
    · rw [hnew] at hnone
      cases hnone
  · intro u hu hvisited v hv
    rw [hopen] at hvisited hv
    have hv := Finset.mem_of_mem_erase hv
    have hmin := hclosest v hv
    show s'.distance u ≤ s'.distance v
    have hle : s'.distance u ≤ s.distance current := by
      rcases hsettled u hvisited with rfl | hold
      · exact hself.1.le
      · exact (hrelax.le u).trans (h.frontier u hu hold current hcurrent)
    have hge : s.distance current ≤ s'.distance v := by
      obtain ⟨hd, -⟩ | ⟨-, -, -, hdist, -⟩ := hrelax.change v
      · omega
      · omega
    exact hle.trans hge
  · intro u hu hvisited v hv hedge
    rw [hopen] at hvisited
    show s'.distance v ≤ s'.distance u + 1
    rcases hsettled u hvisited with rfl | hold
    · rw [hself.1]
      by_cases hopen : v ∈ s.unvisited
      · exact hrelax.reached v hedge hopen
      · exact (hrelax.le v).trans
          ((h.frontier v hv hopen u hcurrent).trans (Nat.le_succ _))
    · rw [(hrelax.visited hold).1]
      exact (hrelax.le v).trans (h.relaxed u hu hold v hv hedge)

/-- The predecessors lead back to the source, in as many hops as the label says. -/
theorem Sound.walk (h : Sound edge vertices source infinity s) (hv : v ∈ vertices)
    (hlt : s.distance v < infinity) : Walk edge source (s.distance v) v := by
  generalize hn : s.distance v = n at hlt
  induction n generalizing v with
  | zero =>
      by_cases hsource : v = source
      · exact hsource ▸ .start
      · cases hprev : s.previous v with
        | none =>
            have := h.unreached v hv hsource hprev
            omega
        | some u =>
            have := (h.reached u v hprev).2.2.2.1
            omega
  | succ n ih =>
      cases hprev : s.previous v with
      | none =>
          by_cases hsource : v = source
          · have := h.start.1
            rw [hsource] at hn
            omega
          · have := h.unreached v hv hsource hprev
            omega
      | some u =>
          obtain ⟨hedge, hu, -, hstep, -⟩ := h.reached u v hprev
          exact .hop (ih hu (by omega) (by omega)) hedge

/-- Once all vertices are settled no walk is shorter than the label. -/
theorem Sound.le_of_walk (h : Sound edge vertices source infinity s) (hdone : s.unvisited = ∅)
    (hfrom : ∀ u v, edge u v → u ∈ vertices) (hwalk : Walk edge source n v)
    (hv : v ∈ vertices) : s.distance v ≤ n := by
  induction hwalk with
  | start => exact h.start.1.le
  | @hop n u v _ hedge ih =>
      have hu := hfrom u v hedge
      have hstep := h.relaxed u hu (by simp [hdone]) v hv hedge
      exact hstep.trans (Nat.succ_le_succ (ih hu))

end Labels

end RayPlatform.Lib
