/-
# Rooted forests

A forest on the vertices of a graph is given by the parent and the depth of every vertex: a root
is its own parent, any other vertex is adjacent to its parent, which is one level higher.  Where
the chains of two vertices first meet, the way up from the one and down to the other is a path
of the graph.  The least weight on that path is the least value of the two chains.
-/
import Mathlib.Combinatorics.SimpleGraph.Acyclic
import Mathlib.Order.Bounds.Basic
import EideticEngine.BinaryLifting

namespace RootedForest

open BinaryLifting

variable {V β : Type*} {G : SimpleGraph V} {up : V → V} {depth : V → ℕ}

/-- Parents and depths of a forest in a graph. -/
structure Rooted (G : SimpleGraph V) (up : V → V) (depth : V → ℕ) : Prop where
  root : ∀ v, depth v = 0 → up v = v
  adj : ∀ v, depth v ≠ 0 → G.Adj v (up v)
  depth_up : ∀ v, depth v ≠ 0 → depth (up v) + 1 = depth v

namespace Rooted

variable (h : Rooted G up depth)

include h

/-- Going up lowers the depth. -/
theorem depth_iterate (k : ℕ) (v : V) : depth (up^[k] v) = depth v - k := by
  induction k generalizing v with
  | zero => rfl
  | succ k ih =>
    rw [Function.iterate_succ_apply, ih]
    by_cases hv : depth v = 0
    · rw [h.root v hv, hv, Nat.zero_sub, Nat.zero_sub]
    · have hup := h.depth_up v hv
      omega

/-- A chain stays at its root. -/
theorem iterate_of_depth_le {k : ℕ} {v : V} (hk : depth v ≤ k) : up^[k] v = up^[depth v] v := by
  have hr : up (up^[depth v] v) = up^[depth v] v := h.root _ (by rw [h.depth_iterate, Nat.sub_self])
  have hs := Function.iterate_fixed hr (k - depth v)
  rwa [← Function.iterate_add_apply, Nat.sub_add_cancel hk] at hs

/-- Up to the root the elements of a chain differ. -/
theorem iterate_inj {v : V} {s t : ℕ} (hs : s ≤ depth v) (ht : t ≤ depth v)
    (heq : up^[s] v = up^[t] v) : s = t := by
  have hd := congrArg depth heq
  rw [h.depth_iterate, h.depth_iterate] at hd
  omega

theorem depth_lt_card [Fintype V] (v : V) : depth v < Fintype.card V := by
  have hi : Function.Injective fun t : Fin (depth v + 1) => up^[t.1] v := by
    intro s t heq
    exact Fin.ext (h.iterate_inj (Nat.lt_succ_iff.mp s.2) (Nat.lt_succ_iff.mp t.2) heq)
  have hc := Fintype.card_le_of_injective _ hi
  rwa [Fintype.card_fin] at hc

/-- The way up from a vertex. -/
theorem exists_chain (k : ℕ) (v : V) (hk : k ≤ depth v) :
    ∃ p : G.Walk v (up^[k] v), p.support = (List.range (k + 1)).map (fun t => up^[t] v) ∧
      p.edges = (List.range k).map fun t => s(up^[t] v, up^[t + 1] v) := by
  induction k generalizing v with
  | zero => exact ⟨.nil, rfl, rfl⟩
  | succ k ih =>
    have hv : depth v ≠ 0 := by omega
    have hup := h.depth_up v hv
    obtain ⟨p, hs, he⟩ := ih (up v) (by omega)
    change ∃ p : G.Walk v (up^[k] (up v)), p.support = _ ∧ p.edges = _
    refine ⟨.cons (h.adj v hv) p, ?_, ?_⟩
    · rw [SimpleGraph.Walk.support_cons, hs, List.range_succ_eq_map (n := k + 1),
        List.map_cons, List.map_map]
      rfl
    · rw [SimpleGraph.Walk.edges_cons, he, List.range_succ_eq_map (n := k), List.map_cons,
        List.map_map]
      rfl

/-- Chains that meet did not meet before the places just below. -/
theorem chains_disjoint {x y : V} {a b : ℕ} (ha : a ≤ depth x) (hb : b ≤ depth y)
    (hm : up^[a] x = up^[b] y) (hap : a ≠ 0 → b ≠ 0 → up^[a - 1] x ≠ up^[b - 1] y)
    {s t : ℕ} (hs : s ≤ a) (ht : t < b) : up^[s] x ≠ up^[t] y := by
  intro heq
  have hd := congrArg depth heq
  have hto := congrArg depth hm
  rw [h.depth_iterate, h.depth_iterate] at hd hto
  refine hap (by omega) (by omega) ?_
  -- what is equal stays equal further up
  have hl := congrArg (up^[a - 1 - s]) heq
  rw [← Function.iterate_add_apply, ← Function.iterate_add_apply] at hl
  rwa [show a - 1 - s + s = a - 1 by omega, show a - 1 - s + t = b - 1 by omega] at hl

/-- **The way up to where two chains meet and down again is a path.** -/
theorem exists_path {x y : V} {a b : ℕ} (ha : a ≤ depth x) (hb : b ≤ depth y)
    (hm : up^[a] x = up^[b] y) (hap : a ≠ 0 → b ≠ 0 → up^[a - 1] x ≠ up^[b - 1] y) :
    ∃ p : G.Walk x y, p.IsPath ∧ ∀ e, e ∈ p.edges ↔
      (∃ t < a, e = s(up^[t] x, up^[t + 1] x)) ∨ ∃ t < b, e = s(up^[t] y, up^[t + 1] y) := by
  obtain ⟨p, hsu, he⟩ := h.exists_chain a x ha
  obtain ⟨q, hs', he'⟩ := h.exists_chain b y hb
  have hd : ∃ q' : G.Walk y (up^[a] x), q'.support = (List.range (b + 1)).map (fun t => up^[t] y) ∧
        q'.edges = (List.range b).map fun t => s(up^[t] y, up^[t + 1] y) := by
    rw [hm]
    exact ⟨q, hs', he'⟩
  obtain ⟨q', hs', he'⟩ := hd
  refine ⟨p.append q'.reverse, ?_, ?_⟩
  · rw [SimpleGraph.Walk.isPath_def, SimpleGraph.Walk.support_append,
      SimpleGraph.Walk.support_reverse, hsu, hs', List.range_succ (n := b),
      List.map_append, List.reverse_append]
    show (_ ++ ((List.range b).map fun t => up^[t] y).reverse).Nodup
    refine List.nodup_append.mpr ⟨?_, ?_, ?_⟩
    · refine List.Nodup.map_on ?_ List.nodup_range
      intro s hs t ht heq
      rw [List.mem_range] at hs ht
      exact h.iterate_inj (by omega) (by omega) heq
    · rw [List.nodup_reverse]
      refine List.Nodup.map_on ?_ List.nodup_range
      intro s hs t ht heq
      rw [List.mem_range] at hs ht
      exact h.iterate_inj (by omega) (by omega) heq
    · intro u hu v hv
      rw [List.mem_reverse] at hv
      obtain ⟨s, hs, rfl⟩ := List.mem_map.mp hu
      obtain ⟨t, ht, rfl⟩ := List.mem_map.mp hv
      rw [List.mem_range] at hs ht
      exact h.chains_disjoint ha hb hm hap (by omega) ht
  · intro e
    rw [SimpleGraph.Walk.edges_append, SimpleGraph.Walk.edges_reverse, List.mem_append,
      List.mem_reverse, he, he']
    simp only [List.mem_map, List.mem_range, eq_comm]

/-- **The least weight on that path is the least value of the two chains.** -/
theorem exists_path_isLeast [LinearOrder β] [OrderTop β] {weight : Sym2 V → β} {value : V → β}
    (hv : ∀ v, depth v ≠ 0 → value v = weight s(v, up v)) {x y : V} {a b : ℕ}
    (ha : a ≤ depth x) (hb : b ≤ depth y) (hme : up^[a] x = up^[b] y)
    (hap : a ≠ 0 → b ≠ 0 → up^[a - 1] x ≠ up^[b - 1] y) (hne : x ≠ y) :
    ∃ p : G.Walk x y, p.IsPath ∧ IsLeast {w | ∃ e ∈ p.edges, weight e = w}
        (min (chainMin up value a x) (chainMin up value b y)) := by
  obtain ⟨p, hp, hed⟩ := h.exists_path ha hb hme hap
  have hs : ∀ {v : V} {k n : ℕ}, k < n → n ≤ depth v →
      weight s(up^[k] v, up^[k + 1] v) = value (up^[k] v) := by
    intro v k n hk hn
    have hd : depth (up^[k] v) ≠ 0 := by
      rw [h.depth_iterate]
      omega
    rw [hv _ hd, Function.iterate_succ_apply']
  refine ⟨p, hp, ?_, ?_⟩
  · rcases Nat.eq_zero_or_pos a with rfl | hapo
    · rcases Nat.eq_zero_or_pos b with rfl | hbp
      · exact absurd hme hne
      · obtain ⟨k, hk, hm⟩ := exists_chainMin_eq up value hbp y
        rw [chainMin, min_top_left, hm]
        exact ⟨_, (hed _).mpr (Or.inr ⟨k, hk, rfl⟩), hs hk hb⟩
    · obtain ⟨k, hk, hm⟩ := exists_chainMin_eq up value hapo x
      rcases Nat.eq_zero_or_pos b with rfl | hbp
      · rw [chainMin, min_top_right, hm]
        exact ⟨_, (hed _).mpr (Or.inl ⟨k, hk, rfl⟩), hs hk ha⟩
      · obtain ⟨k', hk', hm'⟩ := exists_chainMin_eq up value hbp y
        rcases min_choice (chainMin up value a x) (chainMin up value b y) with hc | hc
        · rw [hc, hm]
          exact ⟨_, (hed _).mpr (Or.inl ⟨k, hk, rfl⟩), hs hk ha⟩
        · rw [hc, hm']
          exact ⟨_, (hed _).mpr (Or.inr ⟨k', hk', rfl⟩), hs hk' hb⟩
  · rintro w ⟨e, he, rfl⟩
    rcases (hed e).mp he with ⟨t, ht, rfl⟩ | ⟨t, ht, rfl⟩
    · rw [hs ht ha]
      exact (min_le_left _ _).trans (chainMin_le up value ht x)
    · rw [hs ht hb]
      exact (min_le_right _ _).trans (chainMin_le up value ht y)

end Rooted

end RootedForest
