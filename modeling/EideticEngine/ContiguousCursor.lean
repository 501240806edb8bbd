/-
# Contiguous cursors

A cursor over numbered slots moves on while the next slot is filled and stops at a
cap.  `advanceTo` is that loop and `IsFrontier` says where it stops.  The stopping
point is unique, so moving on in several stages while slots are being filled ends
where one move over the final slots would end (`advanceTo_advanceTo`).
-/
import Mathlib.Tactic

/-- Move on while the next slot is filled, by at most the room that is left. -/
def advance (filled : ℕ → Bool) : ℕ → ℕ → ℕ
  | 0, cursor => cursor
  | room + 1, cursor =>
    if filled (cursor + 1) then advance filled room (cursor + 1) else cursor

/-- Move on while the next slot is filled, up to the cap. -/
def advanceTo (cap : ℕ) (filled : ℕ → Bool) (cursor : ℕ) : ℕ :=
  advance filled (cap - cursor) cursor

/-- Where a cursor comes to a stop. -/
structure IsFrontier (cap : ℕ) (filled : ℕ → Bool) (start stop : ℕ) : Prop where
  start_le : start ≤ stop
  le_cap : stop ≤ max start cap
  filled_of : ∀ k, start < k → k ≤ stop → filled k = true
  stopped : stop < cap → filled (stop + 1) = false

theorem advance_isFrontier (filled : ℕ → Bool) (r c : ℕ) :
    IsFrontier (c + r) filled c (advance filled r c) := by
  induction r generalizing c with
  | zero =>
    rw [advance]
    exact ⟨le_rfl, le_max_left _ _, fun k hlt hle => absurd hlt (by omega), by omega⟩
  | succ r ih =>
    rw [advance]
    split
    · rename_i hf
      have h := ih (c + 1)
      rw [Nat.add_right_comm] at h
      refine ⟨by have := h.start_le; omega, by have := h.le_cap; omega, ?_, h.stopped⟩
      intro k hlt hle
      rcases Nat.lt_or_ge (c + 1) k with hk | hk
      · exact h.filled_of k hk hle
      · have hk' : k = c + 1 := by omega
        rw [hk']
        exact hf
    · rename_i he
      refine ⟨le_rfl, le_max_left _ _, fun k hlt hle => absurd hlt (by omega), ?_⟩
      intro _
      exact Bool.eq_false_iff.mpr he

theorem advanceTo_isFrontier (cap : ℕ) (filled : ℕ → Bool) (c : ℕ) :
    IsFrontier cap filled c (advanceTo cap filled c) := by
  have h := advance_isFrontier filled (cap - c) c
  refine ⟨h.start_le, ?_, h.filled_of, ?_⟩
  · have := h.le_cap
    unfold advanceTo
    omega
  · intro hlt
    exact h.stopped (by unfold advanceTo at hlt; omega)

namespace IsFrontier

variable {cap start stop stop' : ℕ} {filled filled' : ℕ → Bool}

private theorem le_of (h : IsFrontier cap filled start stop)
    (h' : IsFrontier cap filled start stop') : stop' ≤ stop := by
  by_contra hlt
  have hle := h'.le_cap
  have hge := h.start_le
  have hf := h'.filled_of (stop + 1) (by omega) (by omega)
  rw [h.stopped (by omega)] at hf
  cases hf

/-- The stopping point is unique. -/
theorem unique (h : IsFrontier cap filled start stop) (h' : IsFrontier cap filled start stop') :
    stop = stop' :=
  le_antisymm (h'.le_of h) (h.le_of h')

/-- Moving on from a stopping point after more slots were filled. -/
theorem trans (h : IsFrontier cap filled start stop) (hm : ∀ k, filled k = true → filled' k = true)
    (h' : IsFrontier cap filled' stop stop') : IsFrontier cap filled' start stop' := by
  have hle := h.start_le
  have hc := h.le_cap
  refine ⟨le_trans hle h'.start_le, by have := h'.le_cap; omega, ?_, h'.stopped⟩
  intro k hlt hk
  rcases Nat.lt_or_ge stop k with hgt | hge
  · exact h'.filled_of k hgt hk
  · exact hm k (h.filled_of k hlt hge)

end IsFrontier

/-- **Moving on in two stages is moving on once.** -/
theorem advanceTo_advanceTo {cap c : ℕ} {filled filled' : ℕ → Bool}
    (hm : ∀ k, filled k = true → filled' k = true) :
    advanceTo cap filled' (advanceTo cap filled c) = advanceTo cap filled' c :=
  ((advanceTo_isFrontier cap filled c).trans hm
    (advanceTo_isFrontier cap filled' _)).unique (advanceTo_isFrontier cap filled' c)

theorem le_advanceTo (cap : ℕ) (filled : ℕ → Bool) (c : ℕ) : c ≤ advanceTo cap filled c :=
  (advanceTo_isFrontier cap filled c).start_le

/-- A cursor passes every run of filled slots that starts right after it. -/
theorem le_advanceTo_of_filled {cap c n : ℕ} {filled : ℕ → Bool} (hc : n ≤ cap)
    (h : ∀ k, c < k → k ≤ n → filled k = true) : n ≤ advanceTo cap filled c := by
  have hf := advanceTo_isFrontier cap filled c
  by_contra hlt
  have hle := hf.start_le
  have hs := h (advanceTo cap filled c + 1) (by omega) (by omega)
  rw [hf.stopped (by omega)] at hs
  cases hs
