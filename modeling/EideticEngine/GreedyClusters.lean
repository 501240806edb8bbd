/-
# Greedy clusters

The elements of a list are visited in order; one that no earlier cluster took opens a cluster
and takes those of the rest that join it.  A loop that only remembers which elements are
assigned, and that finds the joining ones in any way and in any order, forms the same clusters.
-/
import Mathlib

namespace GreedyClusters

variable {α β : Type*}

/-! ## The clusters of a list -/

/-- The elements that do not join a seed. -/
def remaining (joins : α → α → Bool) (seed : α) (rest : List α) : List α :=
  rest.filter fun x => !joins seed x

/-- Each cluster: the element that opened it and those that joined. -/
def clusters (joins : α → α → Bool) : List α → List (α × List α)
  | [] => []
  | seed :: rest => (seed, rest.filter (joins seed)) :: clusters joins (remaining joins seed rest)
termination_by l => l.length
decreasing_by
  exact Nat.lt_succ_of_le (List.length_filter_le _ _)

/-- The elements of a cluster. -/
def members (c : α × List α) : List α := c.1 :: c.2

/-- **Every element is in one cluster.** -/
theorem perm_clusters (joins : α → α → Bool) (l : List α) :
    ((clusters joins l).flatMap members).Perm l := by
  fun_induction clusters joins l with
  | case1 => exact List.Perm.refl _
  | case2 s r ih =>
    rw [List.flatMap_cons]
    refine List.Perm.trans (List.Perm.append_left _ ih) ?_
    exact List.Perm.cons s (List.filter_append_perm (joins s) r)

/-- Clusters of images are the images of clusters. -/
theorem clusters_map (joins : β → β → Bool) (f : α → β) (l : List α) : clusters joins (l.map f)
      = (clusters (fun a b => joins (f a) (f b)) l).map (Prod.map f (List.map f)) := by
  fun_induction clusters (fun a b => joins (f a) (f b)) l with
  | case1 =>
    rw [List.map_nil, clusters]
    rfl
  | case2 s r ih =>
    have hr : remaining joins (f s) (r.map f)
        = (remaining (fun a b => joins (f a) (f b)) s r).map f := List.filter_map
    rw [List.map_cons, clusters, hr, ih, List.filter_map]
    rfl

/-! ## The loop over assigned elements -/

/-- Two clusters with the same seed and, in any order, the same elements. -/
def Same (c d : α × List α) : Prop := c.1 = d.1 ∧ c.2.Perm d.2

section Loop

variable [DecidableEq α] {take : List α → α → List α} {joins : α → α → Bool} {order : List α}

/-- Visit an element: unless it is assigned, it opens a cluster with what is taken for it. -/
def visit (take : List α → α → List α) (state : List α × List (α × List α)) (seed : α) :
    List α × List (α × List α) :=
  if seed ∈ state.1 then state
  else
    let taken := take (seed :: state.1) seed
    (taken ++ seed :: state.1, state.2 ++ [(seed, taken)])

/-- What a seed takes must be the unassigned elements that join it. -/
def TakesJoining (take : List α → α → List α) (joins : α → α → Bool) (order : List α) : Prop :=
  ∀ assigned seed,
    (take assigned seed).Perm (order.filter fun x => x ∉ assigned ∧ joins seed x = true)

/-- The rest of a run forms the clusters of what is still unassigned. -/
theorem foldl_visit_suffix (hta : TakesJoining take joins order) {v r : List α}
    (ho : order = v ++ r) (hno : r.Nodup) (a : List α)
    (out : List (α × List α)) (hv : ∀ x ∈ v, x ∈ a) :
    ∃ f, (r.foldl (visit take) (a, out)).2 = out ++ f
      ∧ List.Forall₂ Same f (clusters joins (r.filter fun x => x ∉ a)) := by
  induction r generalizing v a out with
  | nil => exact ⟨[], by simp, by simp [clusters]⟩
  | cons s r ih =>
    obtain ⟨hs, hr⟩ := List.nodup_cons.mp hno
    have ho' : order = (v ++ [s]) ++ r := by rw [ho]; simp
    rw [List.foldl_cons]
    by_cases hm : s ∈ a
    · have hvi : visit take (a, out) s = (a, out) := if_pos hm
      rw [hvi, List.filter_cons_of_neg (by simpa using hm)]
      refine ih ho' hr a out ?_
      intro x hx
      rcases List.mem_append.mp hx with h | hn
      · exact hv x h
      · exact List.mem_singleton.mp hn ▸ hm
    · have ht := hta (s :: a) s
      set t := take (s :: a) s with htaken_def
      have hvi : visit take (a, out) s = (t ++ s :: a, out ++ [(s, t)]) := if_neg hm
      obtain ⟨f, hru, hf⟩ := ih ho' hr (t ++ s :: a) (out ++ [(s, t)]) (by
          intro x hx
          rcases List.mem_append.mp hx with h | hn
          · exact List.mem_append_right _ (List.mem_cons_of_mem _ (hv x h))
          · rw [List.mem_singleton.mp hn]
            exact List.mem_append_right _ List.mem_cons_self)
      refine ⟨(s, t) :: f, by rw [hvi, hru]; simp, ?_⟩
      rw [List.filter_cons_of_pos (by simpa using hm), clusters]
      refine List.Forall₂.cons ⟨rfl, ?_⟩ ?_
      · -- what was visited before is assigned, so that only the rest is left to take
        have hnon : v.filter (fun x => x ∉ s :: a ∧ joins s x = true) = [] :=
          List.filter_eq_nil_iff.mpr fun x hx => by
            simpa using fun _ hou => absurd (hv x hx) hou
        rw [ho, List.filter_append, hnon, List.nil_append, List.filter_cons_of_neg (by simp)] at ht
        refine ht.trans (List.Perm.of_eq ?_)
        rw [List.filter_filter]
        refine List.filter_congr fun x hx => ?_
        have hne : x ≠ s := fun heq => hs (heq ▸ hx)
        simp [hne, and_comm]
      · have hl : r.filter (fun x => x ∉ t ++ s :: a)
            = remaining joins s (r.filter fun x => x ∉ a) := by
          rw [remaining, List.filter_filter]
          refine List.filter_congr fun x hx => ?_
          have hne : x ≠ s := fun heq => hs (heq ▸ hx)
          have hin : x ∈ order := ho' ▸ List.mem_append_right _ hx
          have hx' : x ∈ t ↔ x ∉ a ∧ joins s x = true := by
            rw [ht.mem_iff, List.mem_filter]
            simp [hin, hne]
          by_cases hou : x ∈ a <;> cases hj : joins s x <;> simp_all
        rwa [hl] at hf

/-- **The loop forms the clusters of its order.** -/
theorem foldl_visit (ht : TakesJoining take joins order) (hn : order.Nodup) :
    List.Forall₂ Same (order.foldl (visit take) ([], [])).2 (clusters joins order) := by
  obtain ⟨f, hr, hf⟩ := foldl_visit_suffix ht (List.nil_append order).symm hn [] [] (by simp)
  rw [hr, List.nil_append]
  simpa using hf

end Loop

end GreedyClusters
