/-
# Ranks through the pipeline (`src/core/context.rs`, `src/pack/mod.rs`)

Assembly numbers its memories `1, …, n`.  The guard takes memories out and leaves
gaps; the native append then numbers from the count, which may run into a rank
above a gap.  A displacement compacts the complete order, after which every rank is
at most the count and no later number collides.

`nativeAppends` follows the admission decisions, which read no rank, up to the first
displacement; the ranks of the final draft are distinct exactly when there was one
or the numbers given to natives avoid the ranks that the guard kept.
-/
import EideticEngine.PackNative

namespace Pack

open StableSort (sortBy_perm)

variable {F : Type}

/-! ## Ranks and counts of a draft -/

/-- The ranks of the native items. -/
def PackDraft.nativeRanks (draft : PackDraft F) : List ℕ :=
  draft.ruleItems.map (·.rank) ++ draft.evidenceItems.map (·.rank)

/-- The ranks over memory, rule and evidence items. -/
def PackDraft.allRanks (draft : PackDraft F) : List ℕ :=
  draft.items.map (·.rank) ++ draft.nativeRanks

/-- The number of selected items. -/
def PackDraft.itemCount (draft : PackDraft F) : ℕ :=
  draft.items.length + draft.ruleItems.length + draft.evidenceItems.length

/-- The same memory at another rank. -/
def PackDraftItem.withRank (item : PackDraftItem F) (rank : ℕ) : PackDraftItem F :=
  { item with rank := rank }

/-- The places of a draft's items. -/
def PackDraft.slots (draft : PackDraft F) : List RankSlot :=
  (List.range draft.items.length).map .memory ++ (List.range draft.ruleItems.length).map .rule
    ++ (List.range draft.evidenceItems.length).map .evidence

/-- A projection of `mapIdx` that only sees the index. -/
theorem map_mapIdx_index {α β γ : Type} (l : List α) {g : ℕ → α → β} {f : β → γ} {h : ℕ → γ}
    (hfg : ∀ i a, f (g i a) = h i) : (l.mapIdx g).map f = (List.range l.length).map h := by
  apply List.ext_getElem
  · simp
  · intro i h₁ h₂
    simp [hfg]

/-- A projection of `mapIdx` that only sees the element. -/
theorem map_mapIdx_value {α β γ : Type} (l : List α) {g : ℕ → α → β} {f : β → γ} {h : α → γ}
    (hfg : ∀ i a, f (g i a) = h a) : (l.mapIdx g).map f = l.map h := by
  apply List.ext_getElem
  · simp
  · intro i h₁ h₂
    simp [hfg]

theorem PackDraft.map_snd_rankSlots (draft : PackDraft F) :
    draft.rankSlots.map Prod.snd = draft.slots := by
  simp only [rankSlots, slots, List.map_append]
  congr 1
  · congr 1
    · exact map_mapIdx_index _ fun _ _ => rfl
    · exact map_mapIdx_index _ fun _ _ => rfl
  · exact map_mapIdx_index _ fun _ _ => rfl

theorem PackDraft.nodup_slots (draft : PackDraft F) : draft.slots.Nodup := by
  have hm : ∀ n, ((List.range n).map RankSlot.memory).Nodup := fun n =>
    List.nodup_range.map fun _ _ h => RankSlot.memory.inj h
  have hr : ∀ n, ((List.range n).map RankSlot.rule).Nodup := fun n =>
    List.nodup_range.map fun _ _ h => RankSlot.rule.inj h
  have he : ∀ n, ((List.range n).map RankSlot.evidence).Nodup := fun n =>
    List.nodup_range.map fun _ _ h => RankSlot.evidence.inj h
  unfold slots
  refine List.Nodup.append (List.Nodup.append (hm _) (hr _) ?_) (he _) ?_
  · intro slot h₁ h₂
    simp only [List.mem_map] at h₁ h₂
    obtain ⟨_, _, rfl⟩ := h₁
    obtain ⟨_, _, h⟩ := h₂
    cases h
  · intro slot h₁ h₂
    simp only [List.mem_append, List.mem_map] at h₁ h₂
    obtain ⟨_, _, rfl⟩ := h₂
    rcases h₁ with ⟨_, _, h⟩ | ⟨_, _, h⟩ <;> cases h

@[simp] theorem PackDraft.length_slots (draft : PackDraft F) :
    draft.slots.length = draft.itemCount := by
  simp [slots, itemCount, Nat.add_assoc]

/-- The slot order is an order of the slots. -/
theorem PackDraft.slotOrder_perm (draft : PackDraft F) : draft.slotOrder.Perm draft.slots := by
  rw [← draft.map_snd_rankSlots]
  exact (sortBy_perm _ _).map _

/-- The ranks of a compacted draft, place by place. -/
theorem PackDraft.allRanks_compactRanks (draft : PackDraft F) :
    draft.compactRanks.allRanks = draft.slots.map draft.compactRank := by
  simp only [allRanks, nativeRanks, compactRanks, slots, List.map_append, List.map_map,
    List.append_assoc]
  congr 1
  · exact map_mapIdx_index _ fun _ _ => rfl
  · congr 1
    · exact map_mapIdx_index _ fun _ _ => rfl
    · exact map_mapIdx_index _ fun _ _ => rfl

/-- Below the largest `u32`, the compacted rank of a place is its position. -/
theorem PackDraft.compactRank_eq {draft : PackDraft F} (hc : draft.itemCount ≤ u32Max)
    {slot : RankSlot} (hs : slot ∈ draft.slots) :
    draft.compactRank slot = draft.slotOrder.idxOf slot + 1 ∧
      draft.slotOrder.idxOf slot < draft.itemCount := by
  have hm := draft.slotOrder_perm.symm.subset hs
  have hlt := List.idxOf_lt_length_of_mem hm
  rw [draft.slotOrder_perm.length_eq, length_slots] at hlt
  refine ⟨?_, hlt⟩
  unfold compactRank
  omega

/-- **Compaction separates all ranks**, and keeps them at most the count. -/
theorem PackDraft.compactRanks_spec {draft : PackDraft F} (hc : draft.itemCount ≤ u32Max) :
    draft.compactRanks.allRanks.Nodup ∧
      ∀ r ∈ draft.compactRanks.allRanks, 0 < r ∧ r ≤ draft.itemCount := by
  rw [allRanks_compactRanks]
  constructor
  · refine List.Nodup.map_on ?_ draft.nodup_slots
    intro a ha b hb heq
    rw [(compactRank_eq hc ha).1, (compactRank_eq hc hb).1] at heq
    have hm := draft.slotOrder_perm.symm.subset ha
    exact (List.idxOf_inj hm).mp (Nat.succ.inj heq)
  · intro r hr
    obtain ⟨slot, hs, rfl⟩ := List.mem_map.mp hr
    obtain ⟨heq, hlt⟩ := compactRank_eq hc hs
    omega

@[simp] theorem PackDraft.itemTokens_compactRanks (draft : PackDraft F) :
    draft.compactRanks.itemTokens = draft.itemTokens := by
  simp only [itemTokens, compactRanks]
  congr 1
  · congr 1
    · exact map_mapIdx_value _ fun _ _ => rfl
    · exact map_mapIdx_value _ fun _ _ => rfl
  · exact map_mapIdx_value _ fun _ _ => rfl

/-! ## Token books with native items -/

/-- The token books of a draft: the count of tokens is the sum over all selected
items, within the budget, and every item has tokens. -/
structure PackDraft.NativeBooks (draft : PackDraft F) : Prop where
  used_eq : draft.usedTokens = draft.itemTokens.sum
  used_le : draft.usedTokens ≤ draft.budget.maxTokens
  tokens_pos : ∀ t ∈ draft.itemTokens, 0 < t

theorem PackDraft.length_itemTokens (draft : PackDraft F) :
    draft.itemTokens.length = draft.itemCount := by
  simp [itemTokens, itemCount, Nat.add_assoc]

/-- With a token each, there are no more items than tokens. -/
theorem PackDraft.NativeBooks.itemCount_le {draft : PackDraft F} (h : draft.NativeBooks) :
    draft.itemCount ≤ draft.usedTokens := by
  rw [h.used_eq, ← draft.length_itemTokens]
  exact List.length_le_sum_of_one_le _ h.tokens_pos

theorem PackDraft.NativeBooks.itemCount_le_u32Max {draft : PackDraft F} (h : draft.NativeBooks) :
    draft.itemCount ≤ u32Max :=
  le_trans h.itemCount_le (le_trans h.used_le draft.budget.le_u32Max)

/-- The count that the program computes does not saturate below the largest `u32`. -/
theorem PackDraft.selectedItemCount_of_le {draft : PackDraft F} (hle : draft.itemCount ≤ u32Max) :
    draft.selectedItemCount = draft.itemCount := by
  unfold itemCount at hle
  unfold selectedItemCount itemCount satAdd64 u64Max
  unfold u32Max at hle
  omega

theorem PackDraft.NativeBooks.selectedItemCount_eq {draft : PackDraft F} (h : draft.NativeBooks) :
    draft.selectedItemCount = draft.itemCount :=
  selectedItemCount_of_le h.itemCount_le_u32Max

/-- A saturating sum below the largest `u32` is the sum. -/
theorem foldl_satAdd32 (l : List ℕ) (acc : ℕ) (h : acc + l.sum ≤ u32Max) :
    l.foldl satAdd32 acc = acc + l.sum := by
  induction l generalizing acc with
  | nil => rfl
  | cons t l ih =>
    rw [List.sum_cons, ← Nat.add_assoc] at h
    rw [List.foldl_cons, satAdd32_of_le (by omega), ih _ h, List.sum_cons, Nat.add_assoc]

/-- The weight of the memories of some identifiers, summed up per identifier. -/
theorem sum_per_memory (weight : PackDraftItem F → ℕ) (items : List (PackDraftItem F))
    {ids : List MemoryId} (hi : ids.Nodup) :
    (ids.map fun id => ((items.filter fun it => it.memoryId = id).map weight).sum).sum
      = ((items.filter fun it => it.memoryId ∈ ids).map weight).sum := by
  have ho : ∀ (it : PackDraftItem F) (l : List MemoryId), l.Nodup →
      (l.map fun id => if it.memoryId = id then weight it else 0).sum
        = if it.memoryId ∈ l then weight it else 0 := by
    intro it l hl
    induction l with
    | nil => simp
    | cons id l ih =>
      obtain ⟨hn, hl⟩ := List.nodup_cons.mp hl
      rw [List.map_cons, List.sum_cons, ih hl]
      by_cases hid : it.memoryId = id
      · subst hid
        simp [hn]
      · simp [hid]
  induction items with
  | nil => simp
  | cons it items ih =>
    have hc : ∀ id, (((it :: items).filter fun it => it.memoryId = id).map weight).sum
        = (if it.memoryId = id then weight it else 0)
          + ((items.filter fun it => it.memoryId = id).map weight).sum := by
      intro id
      by_cases hid : it.memoryId = id <;> simp [hid]
    rw [funext hc, List.sum_map_add, ho it ids hi, ih]
    by_cases hm : it.memoryId ∈ ids <;> simp [hm]

/-- Taking the memories of some identifiers out takes their tokens out. -/
theorem PackDraft.sum_itemTokens_withoutMemories (draft : PackDraft F) {ids : List MemoryId}
    (hi : ids.Nodup) :
    (draft.withoutMemories ids).itemTokens.sum + (ids.map (memoryTokens draft.items)).sum
      = draft.itemTokens.sum := by
  have hs : ∀ items : List (PackDraftItem F),
      ((items.filter fun it => it.memoryId ∉ ids).map (·.estimatedTokens)).sum
        + ((items.filter fun it => it.memoryId ∈ ids).map (·.estimatedTokens)).sum
        = (items.map (·.estimatedTokens)).sum := by
    intro items
    induction items with
    | nil => rfl
    | cons it items ih =>
      by_cases hm : it.memoryId ∈ ids
      · simp only [List.filter_cons, hm, not_true, decide_true, decide_false, List.map_cons,
          List.sum_cons, if_true, Bool.false_eq_true, if_false]
        omega
      · simp only [List.filter_cons, hm, not_false_eq_true, decide_true, decide_false,
          List.map_cons, List.sum_cons, if_true, Bool.false_eq_true, if_false]
        omega
  have hp : (ids.map (memoryTokens draft.items)).sum
      = ((draft.items.filter fun it => it.memoryId ∈ ids).map (·.estimatedTokens)).sum :=
    sum_per_memory _ draft.items hi
  rw [hp]
  simp only [withoutMemories, itemTokens, List.sum_append]
  have h := hs draft.items
  omega

/-- The tokens that stay are among the tokens that were there. -/
theorem PackDraft.itemTokens_withoutMemories_subset (draft : PackDraft F) (ids : List MemoryId) :
    (draft.withoutMemories ids).itemTokens ⊆ draft.itemTokens := by
  intro t ht
  simp only [withoutMemories, itemTokens, List.mem_append, List.mem_map, List.mem_filter] at ht ⊢
  rcases ht with (⟨it, ⟨hi, -⟩, rfl⟩ | hr) | he
  · exact Or.inl (Or.inl ⟨it, hi, rfl⟩)
  · exact Or.inl (Or.inr hr)
  · exact Or.inr he

/-! ## Compact ranks -/

/-- Ranks that a displacement left behind: distinct, positive and at most the count. -/
structure PackDraft.Compact (draft : PackDraft F) : Prop where
  nodup : draft.allRanks.Nodup
  pos : ∀ r ∈ draft.allRanks, 0 < r
  le_count : ∀ r ∈ draft.allRanks, r ≤ draft.itemCount

/-! ## Pushing and shifting -/

/-- What pushing a native candidate does to the selection. -/
theorem PackDraft.pushNative_spec (draft : PackDraft F) (candidate : NativePackCandidate F)
    (rank : ℕ) (reserve : Bool) (n : String) :
    (draft.pushNative candidate rank reserve n).items = draft.items ∧
      (draft.pushNative candidate rank reserve n).budget = draft.budget ∧
      (draft.pushNative candidate rank reserve n).usedTokens
        = draft.usedTokens + candidate.estimatedTokens ∧
      (draft.pushNative candidate rank reserve n).itemTokens.Perm
        (candidate.estimatedTokens :: draft.itemTokens) ∧
      (draft.pushNative candidate rank reserve n).nativeRanks.Perm (rank :: draft.nativeRanks) := by
  cases candidate with
  | rule it =>
    refine ⟨rfl, rfl, rfl, ?_, ?_⟩
    · simp only [pushNative, itemTokens, List.map_append, List.map_cons, List.map_nil,
        NativePackCandidate.estimatedTokens, List.append_assoc]
      rw [← List.append_assoc, List.singleton_append, ← List.append_assoc (draft.items.map _)]
      exact List.perm_middle
    · simp only [pushNative, nativeRanks, List.map_append, List.map_cons, List.map_nil,
        List.append_assoc, List.singleton_append]
      exact List.perm_middle
  | evidence candidate =>
    refine ⟨rfl, rfl, rfl, ?_, ?_⟩
    · simp only [pushNative, itemTokens, List.map_append, List.map_cons, List.map_nil,
        NativePackCandidate.estimatedTokens]
      rw [← List.append_assoc]
      exact List.perm_append_singleton _ _
    · simp only [pushNative, nativeRanks, List.map_append, List.map_cons, List.map_nil]
      rw [← List.append_assoc]
      exact List.perm_append_singleton _ _

/-- A pushed candidate adds one item and its rank. -/
theorem PackDraft.pushNative_ranks (draft : PackDraft F) (candidate : NativePackCandidate F)
    (rank : ℕ) (reserve : Bool) (n : String) :
    (draft.pushNative candidate rank reserve n).itemCount = draft.itemCount + 1 ∧
      (draft.pushNative candidate rank reserve n).allRanks.Perm (rank :: draft.allRanks) := by
  obtain ⟨hi, -, -, ht, hr⟩ := draft.pushNative_spec candidate rank reserve n
  constructor
  · rw [← length_itemTokens, ht.length_eq, List.length_cons, length_itemTokens]
  · unfold allRanks
    rw [hi]
    exact (hr.append_left _).trans List.perm_middle

/-- A candidate with tokens that fits keeps the books in order. -/
theorem PackDraft.NativeBooks.pushNative {draft : PackDraft F} (h : draft.NativeBooks)
    {candidate : NativePackCandidate F} (hp : 0 < candidate.estimatedTokens)
    (hf : draft.usedTokens + candidate.estimatedTokens ≤ draft.budget.maxTokens)
    (rank : ℕ) (reserve : Bool) (n : String) :
    (draft.pushNative candidate rank reserve n).NativeBooks := by
  obtain ⟨-, hb, hu, hto, -⟩ := draft.pushNative_spec candidate rank reserve n
  refine ⟨?_, ?_, ?_⟩
  · rw [hu, hto.sum_eq, List.sum_cons, h.used_eq, Nat.add_comm]
  · rw [hu, hb]
    exact hf
  · intro t ht
    rcases List.mem_cons.mp (hto.subset ht) with rfl | ht
    · exact hp
    · exact h.tokens_pos t ht

/-- Shifting the ranks keeps the tokens. -/
theorem PackDraft.itemTokens_shiftRanks (draft : PackDraft F) :
    draft.shiftRanks.itemTokens = draft.itemTokens := by
  simp only [shiftRanks, itemTokens, List.map_map]
  rfl

/-- Shifting the ranks keeps the books. -/
theorem PackDraft.NativeBooks.shiftRanks {draft : PackDraft F} (h : draft.NativeBooks) :
    draft.shiftRanks.NativeBooks := by
  refine ⟨?_, h.used_le, ?_⟩
  · rw [itemTokens_shiftRanks]
    exact h.used_eq
  · rw [itemTokens_shiftRanks]
    exact h.tokens_pos

theorem PackDraft.itemCount_shiftRanks (draft : PackDraft F) :
    draft.shiftRanks.itemCount = draft.itemCount := by
  rw [← length_itemTokens, itemTokens_shiftRanks, length_itemTokens]

theorem PackDraft.allRanks_shiftRanks (draft : PackDraft F) :
    draft.shiftRanks.allRanks = draft.allRanks.map (satAdd32 · 1) := by
  simp only [shiftRanks, allRanks, nativeRanks, List.map_map, List.map_append]
  rfl

/-- The number after the last keeps a compact selection compact. -/
theorem PackDraft.Compact.pushNative {draft : PackDraft F} (h : draft.Compact)
    (candidate : NativePackCandidate F) (reserve : Bool) (n : String) :
    (draft.pushNative candidate (draft.itemCount + 1) reserve n).Compact := by
  obtain ⟨hc, hra⟩ := draft.pushNative_ranks candidate (draft.itemCount + 1) reserve n
  refine ⟨?_, ?_, ?_⟩
  · rw [hra.nodup_iff, List.nodup_cons]
    refine ⟨fun hm => ?_, h.nodup⟩
    have hle := h.le_count _ hm
    omega
  · intro r hr
    rcases List.mem_cons.mp (hra.subset hr) with rfl | hr
    · omega
    · exact h.pos r hr
  · intro r hr
    rw [hc]
    rcases List.mem_cons.mp (hra.subset hr) with rfl | hr
    · exact le_refl _
    · exact Nat.le_succ_of_le (h.le_count r hr)

/-- So does moving all ranks down and taking rank 1. -/
theorem PackDraft.Compact.shiftPush {draft : PackDraft F} (h : draft.Compact)
    (hc : draft.itemCount + 1 ≤ u32Max) (candidate : NativePackCandidate F)
    (reserve : Bool) (n : String) :
    (draft.shiftRanks.pushNative candidate 1 reserve n).Compact := by
  have hs : draft.shiftRanks.allRanks = draft.allRanks.map (· + 1) := by
    rw [allRanks_shiftRanks]
    apply List.map_congr_left
    intro r hr
    have hle := h.le_count r hr
    exact satAdd32_of_le (by omega)
  obtain ⟨hp, hra⟩ := draft.shiftRanks.pushNative_ranks candidate 1 reserve n
  rw [itemCount_shiftRanks] at hp
  rw [hs] at hra
  have hm : ∀ r ∈ (draft.shiftRanks.pushNative candidate 1 reserve n).allRanks,
      r = 1 ∨ ∃ q ∈ draft.allRanks, r = q + 1 := by
    intro r hr
    rcases List.mem_cons.mp (hra.subset hr) with rfl | hr
    · exact Or.inl rfl
    · obtain ⟨q, hq, rfl⟩ := List.mem_map.mp hr
      exact Or.inr ⟨q, hq, rfl⟩
  refine ⟨?_, ?_, ?_⟩
  · rw [hra.nodup_iff, List.nodup_cons]
    refine ⟨?_, h.nodup.map (fun a b hab => Nat.succ.inj hab)⟩
    intro ho
    obtain ⟨q, hq, hq1⟩ := List.mem_map.mp ho
    have hpo := h.pos q hq
    omega
  · intro r hr
    rcases hm r hr with rfl | ⟨q, -, rfl⟩ <;> omega
  · intro r hr
    rw [hp]
    rcases hm r hr with rfl | ⟨q, hq, rfl⟩
    · omega
    · have hle := h.le_count q hq
      omega

/-! ## The selection before any displacement -/

/-- The selection before any displacement: the kept memories `shift` places down, the
natives numbered from their count, and the reserved warnings in front. -/
structure Spread (kept : List (PackDraftItem F)) (shift appended : ℕ) (draft : PackDraft F) :
    Prop where
  items_eq : draft.items = kept.map fun item => item.withRank (item.rank + shift)
  native_perm : draft.nativeRanks.Perm
    ((List.range' (kept.length + 1) appended).map (· + shift) ++ List.range' 1 shift)

namespace Spread

variable {kept : List (PackDraftItem F)} {shift appended : ℕ} {draft : PackDraft F}

theorem itemCount_eq (h : Spread kept shift appended draft) :
    draft.itemCount = kept.length + appended + shift := by
  have hn := h.native_perm.length_eq
  simp only [PackDraft.nativeRanks, List.length_append, List.length_map, List.length_range'] at hn
  have hi := congrArg List.length h.items_eq
  rw [List.length_map] at hi
  unfold PackDraft.itemCount
  omega

/-- An ordinary native item takes the number after the count. -/
theorem pushNative (h : Spread kept shift appended draft) (candidate : NativePackCandidate F)
    (reserve : Bool) (n : String) :
    Spread kept shift (appended + 1) (draft.pushNative candidate
      (draft.itemCount + 1) reserve n) := by
  obtain ⟨hi, -, -, -, hr⟩ := draft.pushNative_spec candidate (draft.itemCount + 1) reserve n
  refine ⟨by rw [hi]; exact h.items_eq, hr.trans ?_⟩
  have hn : kept.length + 1 + appended + shift = draft.itemCount + 1 := by
    rw [h.itemCount_eq]
    omega
  rw [List.range'_concat, List.map_append, List.map_cons, List.map_nil, Nat.one_mul, hn,
    List.append_assoc, List.singleton_append]
  exact ((h.native_perm).cons _).trans List.perm_middle.symm

/-- A reserved warning takes rank 1 and moves everything else down. -/
theorem shiftPush (h : Spread kept shift appended draft)
    (hk : ∀ it ∈ kept, it.rank + shift + 1 ≤ u32Max)
    (hco : draft.itemCount + 1 ≤ u32Max) (candidate : NativePackCandidate F)
    (reserve : Bool) (n : String) :
    Spread kept (shift + 1) appended (draft.shiftRanks.pushNative candidate 1 reserve n) := by
  obtain ⟨hi, -, -, -, hra⟩ := draft.shiftRanks.pushNative_spec candidate 1 reserve n
  refine ⟨?_, hra.trans ?_⟩
  · rw [hi]
    simp only [PackDraft.shiftRanks, h.items_eq, List.map_map]
    apply List.map_congr_left
    intro it hite
    simp only [Function.comp_apply, PackDraftItem.withRank]
    rw [satAdd32_of_le (hk it hite), Nat.add_assoc]
  · have hn : draft.shiftRanks.nativeRanks = draft.nativeRanks.map (satAdd32 · 1) := by
      simp only [PackDraft.shiftRanks, PackDraft.nativeRanks, List.map_map, List.map_append]
      rfl
    have hs : ∀ r ∈ draft.nativeRanks, satAdd32 r 1 = r + 1 := by
      intro r hr
      apply satAdd32_of_le
      have hr' := h.native_perm.subset hr
      have hc := h.itemCount_eq
      simp only [List.mem_append, List.mem_map, List.mem_range'_1] at hr'
      rcases hr' with ⟨q, hq, rfl⟩ | hr' <;> omega
    rw [hn, List.map_congr_left hs]
    refine ((h.native_perm.map (· + 1)).cons 1).trans ?_
    have hb : ((List.range' (kept.length + 1) appended).map (· + shift)).map (· + 1)
        = (List.range' (kept.length + 1) appended).map (· + (shift + 1)) := by
      rw [List.map_map]
      rfl
    have hf : (List.range' 1 shift).map (· + 1) = List.range' 2 shift := by
      simp only [Nat.add_comm _ 1]
      exact List.map_add_range' 1 shift 1
    rw [List.map_append, hb, hf, List.range'_succ]
    exact List.perm_middle.symm

/-- A spread selection has distinct ranks exactly when no kept rank lies among the
numbers of the natives. -/
theorem nodup_iff (h : Spread kept shift appended draft)
    (hno : (kept.map (·.rank)).Nodup) (hp : ∀ it ∈ kept, 0 < it.rank) :
    draft.allRanks.Nodup ↔
      ∀ it ∈ kept, it.rank ≤ kept.length ∨ kept.length + appended < it.rank := by
  have hite : draft.items.map (·.rank) = (kept.map (·.rank)).map (· + shift) := by
    rw [h.items_eq, List.map_map, List.map_map]
    rfl
  have hn : ((List.range' (kept.length + 1) appended).map (· + shift)
      ++ List.range' 1 shift).Nodup := by
    refine List.Nodup.append
      (List.Nodup.map (fun a b hab => Nat.add_right_cancel hab) (List.nodup_range' 1))
      (List.nodup_range' 1) ?_
    intro r hr hr'
    obtain ⟨q, hq, rfl⟩ := List.mem_map.mp hr
    rw [List.mem_range'_1] at hq hr'
    omega
  unfold PackDraft.allRanks
  rw [hite, (h.native_perm.append_left _).nodup_iff, List.nodup_append']
  constructor
  · rintro ⟨-, -, hd⟩ it hi
    by_contra hin
    have hm : it.rank + shift ∈ (kept.map (·.rank)).map (· + shift) :=
      List.mem_map_of_mem (List.mem_map_of_mem hi)
    refine hd hm (List.mem_append_left _ (List.mem_map_of_mem ?_))
    rw [List.mem_range'_1]
    omega
  · intro hc
    refine ⟨hno.map fun a b hab => Nat.add_right_cancel hab, hn, ?_⟩
    intro r hr hr'
    obtain ⟨q, hq, rfl⟩ := List.mem_map.mp hr
    obtain ⟨it, hi, rfl⟩ := List.mem_map.mp hq
    have hitemPos := hp it hi
    have hitemClear := hc it hi
    rcases List.mem_append.mp hr' with hr' | hr'
    · obtain ⟨q, hq', hqr⟩ := List.mem_map.mp hr'
      rw [List.mem_range'_1] at hq'
      omega
    · rw [List.mem_range'_1] at hr'
      omega

end Spread

theorem linkedMemory_withRank (items : List (PackDraftItem F)) (rank : PackDraftItem F → ℕ)
    (candidate : NativePackCandidate F) :
    linkedMemory (items.map fun it => it.withRank (rank it)) candidate
      = linkedMemory items candidate := by
  unfold linkedMemory
  simp only [List.any_map]
  rfl

section Native

variable [F32 F]

/-- Nothing is displaced when nothing is named. -/
theorem PackDraft.makeRoom_nil (draft : PackDraft F) (estimatedTokens : ℕ) :
    draft.makeRoom estimatedTokens [] = (draft, 0) := by
  have ho : draft.omitMemoriesForNativeBudget [] = (draft, 0) := by
    simp [omitMemoriesForNativeBudget, displaceable]
  have hr : draft.relabelDisplaced [] = draft := by
    simp [relabelDisplaced]
  unfold makeRoom
  rw [ho]
  simp [hr]

/-- No memory that a feasible displacement names is protected. -/
theorem NativeDemand.Feasible.displaceable_eq {d : NativeDemand F} {b used : ℕ}
    {draft : PackDraft F} {ids : List MemoryId}
    (h : d.Feasible b used draft.items ids) : draft.displaceable ids = ids := by
  unfold PackDraft.displaceable
  rw [List.filter_eq_self]
  intro id hid
  simp only [Bool.not_eq_true', List.any_eq_false, decide_eq_true_eq, not_and]
  intro it hi hp heq
  have hm := h.mayDisplace id hid it hi heq
  simp [NativeDemand.mayDisplace, hp] at hm

/-- **Making room by displacement**: the candidate fits afterwards, the books stay in
order, and the ranks are compact. -/
theorem PackDraft.makeRoom_displaced {draft : PackDraft F} (h : draft.NativeBooks)
    {d : NativeDemand F} {ids : List MemoryId} (hne : ids ≠ [])
    (hf : d.Feasible draft.budget.maxTokens draft.usedTokens draft.items ids) :
    (draft.makeRoom d.estimatedTokens ids).1.NativeBooks ∧
      (draft.makeRoom d.estimatedTokens ids).1.budget = draft.budget ∧
      (draft.makeRoom d.estimatedTokens ids).1.usedTokens + d.estimatedTokens
        ≤ draft.budget.maxTokens ∧
      (draft.makeRoom d.estimatedTokens ids).1.Compact := by
  -- relabelling omissions touches no selected item
  suffices hro : (draft.omitMemoriesForNativeBudget ids).1.NativeBooks ∧
      (draft.omitMemoriesForNativeBudget ids).1.budget = draft.budget ∧
      (draft.omitMemoriesForNativeBudget ids).1.usedTokens + d.estimatedTokens
        ≤ draft.budget.maxTokens ∧
      (draft.omitMemoriesForNativeBudget ids).1.Compact by
    obtain ⟨hb, hbu, hfi, hc⟩ := hro
    unfold makeRoom
    simp only
    split
    · exact ⟨hb, hbu, hfi, hc⟩
    · exact ⟨⟨hb.used_eq, hb.used_le, hb.tokens_pos⟩, hbu, hfi, ⟨hc.nodup, hc.pos, hc.le_count⟩⟩
  obtain ⟨id, hid⟩ := List.exists_mem_of_ne_nil ids hne
  obtain ⟨it, hite, hi⟩ := hf.present id hid
  have ha : (draft.items.any fun it => it.memoryId ∈ ids) = true :=
    List.any_eq_true.mpr ⟨it, hite, by simp [hi, hid]⟩
  have hs := draft.sum_itemTokens_withoutMemories hf.nodup
  have hu := h.used_eq
  have hle := h.used_le
  have hfi := hf.fits
  have hm := draft.budget.le_u32Max
  have hco : (draft.withoutMemories ids).itemCount ≤ u32Max := by
    rw [← length_itemTokens]
    refine le_trans (List.length_le_sum_of_one_le _ fun t ht => ?_) (by omega)
    exact h.tokens_pos t (draft.itemTokens_withoutMemories_subset ids ht)
  obtain ⟨hn, hra⟩ := compactRanks_spec hco
  have hcou : (draft.withoutMemories ids).compactRanks.itemCount
      = (draft.withoutMemories ids).itemCount := by
    simp [itemCount, compactRanks]
  have hto : (draft.withoutMemories ids).compactRanks.itemTokens.foldl satAdd32 0
      = (draft.withoutMemories ids).itemTokens.sum := by
    rw [itemTokens_compactRanks, foldl_satAdd32 _ _ (by omega), Nat.zero_add]
  unfold omitMemoriesForNativeBudget
  simp only [hf.displaceable_eq, ha, Bool.not_true, Bool.false_eq_true, if_false]
  refine ⟨⟨?_, ?_, ?_⟩, rfl, ?_, ⟨hn, fun r hr => (hra r hr).1, ?_⟩⟩
  · exact hto.trans (congrArg List.sum (itemTokens_compactRanks _)).symm
  · exact le_of_eq_of_le hto (by change _ ≤ draft.budget.maxTokens; omega)
  · intro t ht
    have ht' : t ∈ (draft.withoutMemories ids).compactRanks.itemTokens := ht
    rw [itemTokens_compactRanks] at ht'
    exact h.tokens_pos t (draft.itemTokens_withoutMemories_subset ids ht')
  · rw [hto]
    omega
  · intro r hr
    have hr' := (hra r hr).2
    rw [← hcou] at hr'
    exact hr'

/-! ## Admission does not read ranks -/

theorem NativeDemand.evictionOrder_withRank (d : NativeDemand F)
    (items : List (PackDraftItem F)) (rank : PackDraftItem F → ℕ) :
    d.evictionOrder (items.map fun it => it.withRank (rank it)) = d.evictionOrder items := by
  have hg : ∀ l : List (PackDraftItem F), d.evictionGroup (l.map fun it => it.withRank (rank it))
        = d.evictionGroup l := by
    intro l
    cases l with
    | nil => rfl
    | cons first r =>
      simp only [NativeDemand.evictionGroup, List.map_cons, List.foldl_cons, List.foldl_map]
      rfl
  unfold NativeDemand.evictionOrder
  simp only [List.map_map, List.filter_map, hg]
  rfl

/-- The displacements do not depend on the ranks of the memories. -/
theorem NativeDemand.displacements_withRank (d : NativeDemand F) (r : ContextRequest)
    (b used count : ℕ) (items : List (PackDraftItem F)) (rank : PackDraftItem F → ℕ) :
    d.displacements r b used count (items.map fun it => it.withRank (rank it))
      = d.displacements r b used count items := by
  unfold NativeDemand.displacements
  rw [d.evictionOrder_withRank]

/-- The admission decisions up to the first displacement, over memories that are not
displaced: the number of natives numbered from the count (a reserved warning is not
numbered), or `none` when a native displaces a memory. -/
def nativeAppends (request : ContextRequest) (reservedEntity : Option ContextPackEntityKey)
    (budget : ℕ) (items : List (PackDraftItem F)) :
    ℕ → ℕ → List MemoryId → List (RankedNative F) → Option ℕ
  | _, _, _, [] => some 0
  | usedTokens, count, represented, candidate :: candidates =>
    match linkedMemory items candidate.2 with
    | some memoryId =>
      nativeAppends request reservedEntity budget items usedTokens count
        (insert memoryId represented) candidates
    | none =>
      let demand := nativeDemand reservedEntity represented candidate
      match demand.displacements request budget usedTokens count items with
      | none =>
        nativeAppends request reservedEntity budget items usedTokens count represented candidates
      | some [] =>
        (nativeAppends request reservedEntity budget items (usedTokens + demand.estimatedTokens)
          (count + 1) represented candidates).map
          fun appended => if demand.reserveWarning then appended else appended + 1
      | some (_ :: _) => none


/-! ## The run of the append loop -/

/-- An admission in a compact selection, or one that displaces, ends compact. -/
theorem PackDraft.admitNative_compact {draft : PackDraft F} (h : draft.NativeBooks)
    {d : NativeDemand F} {candidate : NativePackCandidate F}
    (ht : d.estimatedTokens = candidate.estimatedTokens)
    (hp : 0 < candidate.estimatedTokens) {ids : List MemoryId}
    (hfe : d.Feasible draft.budget.maxTokens draft.usedTokens draft.items ids)
    (hc : draft.Compact ∨ ids ≠ []) (reserve : Bool) :
    (draft.admitNative candidate reserve ids).NativeBooks ∧
      (draft.admitNative candidate reserve ids).Compact := by
  -- after making room the candidate fits and the ranks are compact
  have hro : (draft.makeRoom d.estimatedTokens ids).1.NativeBooks ∧
      (draft.makeRoom d.estimatedTokens ids).1.budget = draft.budget ∧
      (draft.makeRoom d.estimatedTokens ids).1.usedTokens + d.estimatedTokens
        ≤ draft.budget.maxTokens ∧
      (draft.makeRoom d.estimatedTokens ids).1.Compact := by
    by_cases hne : ids = []
    · subst hne
      rw [makeRoom_nil]
      have hf := hfe.fits
      simp only [List.map_nil, List.sum_nil, Nat.add_zero] at hf
      exact ⟨h, rfl, hf, hc.resolve_right (not_not_intro rfl)⟩
    · exact makeRoom_displaced h hne hfe
  obtain ⟨hb, hbu, hf, hr⟩ := hro
  rw [ht] at hb hbu hf hr
  have hco := hb.itemCount_le
  have hle : (draft.makeRoom candidate.estimatedTokens ids).1.itemCount + 1 ≤ u32Max := by
    have hm := draft.budget.le_u32Max
    omega
  unfold admitNative
  simp only
  split
  · refine ⟨hb.shiftRanks.pushNative hp ?_ _ _ _, hr.shiftPush hle _ _ _⟩
    exact le_of_le_of_eq hf (congrArg TokenBudget.maxTokens hbu.symm)
  · have hn : min (satAdd64 (draft.makeRoom candidate.estimatedTokens ids).1.selectedItemCount 1)
        u32Max = (draft.makeRoom candidate.estimatedTokens ids).1.itemCount + 1 := by
      rw [hb.selectedItemCount_eq]
      unfold satAdd64 u64Max
      unfold u32Max at hle ⊢
      omega
    rw [hn]
    refine ⟨hb.pushNative hp ?_ _ _ _, hr.pushNative _ _ _⟩
    exact le_of_le_of_eq hf (congrArg TokenBudget.maxTokens hbu.symm)

/-- **The outcomes of a round**: a represented source is skipped, a candidate without
room is rejected, or the candidate is admitted. -/
theorem appendNativeStep_cases (r : ContextRequest)
    (re : Option ContextPackEntityKey) (st : NativeState F)
    (candidate : RankedNative F) {st' : NativeState F}
    (h' : appendNativeStep r re st candidate = st') :
    (∃ memoryId, linkedMemory st.draft.items candidate.2 = some memoryId ∧ st'.draft = st.draft ∧
        st'.representedMemoryIds = insert memoryId st.representedMemoryIds) ∨
      (linkedMemory st.draft.items candidate.2 = none ∧ nativePackMemoryDisplacements
          (nativeDemand re st.representedMemoryIds candidate) r st.draft = none ∧
        st'.draft = st.draft ∧ st'.representedMemoryIds = st.representedMemoryIds) ∨
      ∃ ids, linkedMemory st.draft.items candidate.2 = none ∧ nativePackMemoryDisplacements
          (nativeDemand re st.representedMemoryIds candidate) r st.draft = some ids ∧
        st'.draft = st.draft.admitNative candidate.2
          (nativeDemand re st.representedMemoryIds candidate).reserveWarning ids ∧
        st'.representedMemoryIds = st.representedMemoryIds := by
  unfold appendNativeStep at h'
  split at h'
  · rename_i memoryId hl
    subst h'
    exact Or.inl ⟨memoryId, hl, rfl, rfl⟩
  · rename_i hl
    simp only at h'
    split at h'
    · rename_i hi
      subst h'
      exact Or.inr (Or.inl ⟨hl, hi, rfl, rfl⟩)
    · rename_i ids hi
      subst h'
      exact Or.inr (Or.inr ⟨ids, hl, hi, rfl, rfl⟩)

/-- The candidates left do not disturb a compact selection. -/
theorem foldl_appendNativeStep_compact (r : ContextRequest) (re : Option ContextPackEntityKey) :
    ∀ (cs : List (RankedNative F)) (st : NativeState F),
      (∀ c ∈ cs, 0 < c.2.estimatedTokens) → st.draft.NativeBooks → st.draft.Compact →
      (cs.foldl (appendNativeStep r re) st).draft.Compact := by
  intro cs
  induction cs with
  | nil => intro st _ _ h; exact h
  | cons candidate cs ih =>
    intro st hp hb hco
    have hp' := fun c hc => hp c (List.mem_cons_of_mem _ hc)
    rw [List.foldl_cons]
    generalize hs : appendNativeStep r re st candidate = st'
    rcases appendNativeStep_cases r re st candidate hs with
      ⟨_, -, hd, -⟩ | ⟨-, -, hd, -⟩ | ⟨ids, -, hi, hd, -⟩
    · exact ih st' hp' (by rwa [hd]) (by rwa [hd])
    · exact ih st' hp' (by rwa [hd]) (by rwa [hd])
    · obtain ⟨hb', hc'⟩ := PackDraft.admitNative_compact hb rfl
        (hp candidate List.mem_cons_self) (NativeDemand.feasible_of_displacements hi)
        (Or.inl hco) (nativeDemand re st.representedMemoryIds candidate).reserveWarning
      exact ih st' hp' (by rwa [hd]) (by rwa [hd])

/-- An admission that displaces nothing keeps the selection spread. -/
theorem Spread.admitNative {kept : List (PackDraftItem F)} {shift appended : ℕ}
    {draft : PackDraft F} (h : Spread kept shift appended draft) (hb : draft.NativeBooks)
    {candidate : NativePackCandidate F} (hpo : 0 < candidate.estimatedTokens)
    (hf : draft.usedTokens + candidate.estimatedTokens ≤ draft.budget.maxTokens)
    {reserve : Bool}
    (hk : reserve = true → ∀ it ∈ kept, it.rank + shift + 1 ≤ u32Max) :
    (draft.admitNative candidate reserve []).NativeBooks ∧
      (draft.admitNative candidate reserve []).budget = draft.budget ∧
      (draft.admitNative candidate reserve []).usedTokens
        = draft.usedTokens + candidate.estimatedTokens ∧
      (draft.admitNative candidate reserve []).itemCount = draft.itemCount + 1 ∧
      Spread kept (if reserve then shift + 1 else shift)
        (if reserve then appended else appended + 1)
        (draft.admitNative candidate reserve []) := by
  have hc := hb.itemCount_le
  have hle : draft.itemCount + 1 ≤ u32Max := by
    have hm := draft.budget.le_u32Max
    omega
  unfold PackDraft.admitNative
  rw [PackDraft.makeRoom_nil]
  cases reserve with
  | true =>
    simp only [if_true]
    obtain ⟨-, hbu, hu, -, -⟩ := draft.shiftRanks.pushNative_spec candidate 1 true
      (selectionNote true 0)
    obtain ⟨hp, -⟩ := draft.shiftRanks.pushNative_ranks candidate 1 true (selectionNote true 0)
    rw [PackDraft.itemCount_shiftRanks] at hp
    exact ⟨hb.shiftRanks.pushNative hpo hf _ _ _, hbu, hu, hp, h.shiftPush (hk rfl) hle _ _ _⟩
  | false =>
    have hn : min (satAdd64 draft.selectedItemCount 1) u32Max = draft.itemCount + 1 := by
      rw [hb.selectedItemCount_eq]
      unfold satAdd64 u64Max
      unfold u32Max at hle ⊢
      omega
    simp only [Bool.false_eq_true, if_false, hn]
    obtain ⟨-, hbu, hu, -, -⟩ := draft.pushNative_spec candidate (draft.itemCount + 1) false
      (selectionNote false 0)
    obtain ⟨hp, -⟩ := draft.pushNative_ranks candidate (draft.itemCount + 1) false
      (selectionNote false 0)
    exact ⟨hb.pushNative hpo hf _ _ _, hbu, hu, hp, h.pushNative _ _ _⟩

/-- **The run of the append loop.**  Either a native displaced a memory and the ranks
are compact, or the kept memories and the natives are spread as the admission
decisions say. -/
theorem foldl_appendNativeStep_spread (r : ContextRequest)
    (re : Option ContextPackEntityKey) {kept : List (PackDraftItem F)}
    (hk : ∀ it ∈ kept, it.rank < u32Max) :
    ∀ (cs : List (RankedNative F)) (st : NativeState F) (shift appended : ℕ),
      (∀ c ∈ cs, 0 < c.2.estimatedTokens) → st.draft.NativeBooks →
      Spread kept shift appended st.draft →
      shift + cs.countP (fun c => re = some c.1.entity) ≤ 1 →
      match nativeAppends r re st.draft.budget.maxTokens kept
          st.draft.usedTokens st.draft.itemCount st.representedMemoryIds cs with
      | none => (cs.foldl (appendNativeStep r re) st).draft.Compact
      | some n => ∃ s', Spread kept s' (appended + n)
          (cs.foldl (appendNativeStep r re) st).draft := by
  intro cs
  induction cs with
  | nil => intro st shift appended _ _ h _; exact ⟨shift, h⟩
  | cons candidate cs ih =>
    intro st shift appended hp hb hs hsh
    have hp' := fun c hc => hp c (List.mem_cons_of_mem _ hc)
    have hp₁ := hp candidate List.mem_cons_self
    rw [List.countP_cons] at hsh
    -- the decisions read the same data in the state as in the kept memories
    have hli : linkedMemory st.draft.items candidate.2 = linkedMemory kept candidate.2 := by
      rw [hs.items_eq]
      exact linkedMemory_withRank kept _ candidate.2
    have hdi : ∀ d : NativeDemand F, nativePackMemoryDisplacements d r st.draft
          = d.displacements r st.draft.budget.maxTokens st.draft.usedTokens
              st.draft.itemCount kept := by
      intro d
      unfold nativePackMemoryDisplacements
      rw [hb.selectedItemCount_eq, hs.items_eq]
      exact d.displacements_withRank r _ _ _ kept _
    rw [List.foldl_cons]
    generalize hst : appendNativeStep r re st candidate = st'
    rcases appendNativeStep_cases r re st candidate hst with
      ⟨memoryId, hl, hd, hre⟩ | ⟨hl, hi, hd, hre⟩ | ⟨ids, hl, hi, hd, hre⟩
    · have hr := ih st' shift appended hp' (by rwa [hd]) (by rwa [hd]) (by omega)
      rw [hd, hre] at hr
      rw [hli] at hl
      rw [nativeAppends, hl]
      exact hr
    · have hr := ih st' shift appended hp' (by rwa [hd]) (by rwa [hd]) (by omega)
      rw [hd, hre] at hr
      rw [hli] at hl
      rw [hdi] at hi
      rw [nativeAppends, hl]
      simp only [hi]
      exact hr
    · have hf := NativeDemand.feasible_of_displacements hi
      rw [hli] at hl
      rw [hdi] at hi
      rw [nativeAppends, hl]
      cases ids with
      | cons id ids =>
        simp only [hi]
        obtain ⟨hb', hc'⟩ := PackDraft.admitNative_compact hb rfl hp₁ hf
          (Or.inr (by simp)) (nativeDemand re st.representedMemoryIds candidate).reserveWarning
        exact foldl_appendNativeStep_compact r re cs st' hp' (by rwa [hd]) (by rwa [hd])
      | nil =>
        simp only [hi]
        have hfi := hf.fits
        simp only [List.map_nil, List.sum_nil, Nat.add_zero] at hfi
        have hwa : (nativeDemand re st.representedMemoryIds
            candidate).reserveWarning = decide (re = some candidate.1.entity) := rfl
        rw [hwa] at hd ⊢
        -- only one candidate is the reserved one, so nothing was shifted before it
        have hfir : decide (re = some candidate.1.entity) = true →
            ∀ it ∈ kept, it.rank + shift + 1 ≤ u32Max := by
          intro hw it hite
          rw [if_pos hw] at hsh
          have hra := hk it hite
          omega
        obtain ⟨hb', hbu, hu, hco, hs'⟩ := hs.admitNative hb hp₁ hfi hfir
        rw [← hd] at hb' hbu hu hco hs'
        have hsh' : (if decide (re = some candidate.1.entity) = true
            then shift + 1 else shift) + cs.countP (fun c => re = some c.1.entity) ≤ 1 := by
          split at hsh
          · rename_i hw
            rw [if_pos hw]
            omega
          · rename_i hw
            rw [if_neg hw]
            omega
        have hr := ih st' _ _ hp' hb' hs' hsh'
        rw [hbu, hu, hco, hre] at hr
        have ht : (nativeDemand re st.representedMemoryIds
          candidate).estimatedTokens = candidate.2.estimatedTokens := rfl
        rw [ht]
        cases ha : nativeAppends r re st.draft.budget.maxTokens kept
            (st.draft.usedTokens + candidate.2.estimatedTokens) (st.draft.itemCount + 1)
            st.representedMemoryIds cs with
        | none =>
          rw [ha] at hr
          exact hr
        | some n =>
          rw [ha] at hr
          obtain ⟨s', hr⟩ := hr
          refine ⟨s', ?_⟩
          split at hr
          · rename_i hw
            simpa [hw] using hr
          · rename_i hw
            simpa [hw, Nat.add_assoc, Nat.add_comm 1 n] using hr

/-! ## The pipeline -/

/-- The native candidates of a request, as their loaders produce them: every rule once
(`direct_rule_pack_candidates` skips a repeated rule), every candidate with at least
one token. -/
structure NativeCandidates (F : Type) where
  rules : List (PackRuleItem F)
  evidence : List (DirectEvidencePackCandidate F)
  ruleIds_nodup : (rules.map (·.ruleId)).Nodup
  rules_pos : ∀ item ∈ rules, 0 < item.estimatedTokens
  evidence_pos : ∀ candidate ∈ evidence, 0 < candidate.item.estimatedTokens

/-- The guard and then the native append, in the order of the context pipeline. -/
def guardThenAppend (unresolvedPairs : List (String × String)) (natives : NativeCandidates F)
    (request : ContextRequest) (relevanceFloor : Option F) (draft : PackDraft F) : PackDraft F :=
  (appendRankedNativePackItems natives.rules natives.evidence request relevanceFloor
    (draft.applyContradictionGuard unresolvedPairs false)).1

/-- The number of natives that are numbered from the count of a draft, by the
admission decisions; `none` when one of them displaces a memory. -/
def numberedNatives (guarded : PackDraft F) (natives : NativeCandidates F)
    (request : ContextRequest) (relevanceFloor : Option F) : Option ℕ :=
  let (reservedEntity, candidates) := nativeOrder request relevanceFloor guarded
    (rankedNatives natives.rules natives.evidence)
  nativeAppends request reservedEntity guarded.budget.maxTokens guarded.items guarded.usedTokens
    guarded.itemCount [] candidates

/-- No kept memory has a rank in the interval that the natives are numbered from, or a
displacement renumbers everything. -/
def NumbersAvoidKeptRanks (guarded : PackDraft F) (natives : NativeCandidates F)
    (request : ContextRequest) (relevanceFloor : Option F) : Prop :=
  ∀ n, numberedNatives guarded natives request relevanceFloor = some n →
    ∀ item ∈ guarded.items, item.rank ≤ guarded.items.length ∨ guarded.items.length + n < item.rank

/-- The loop order is a rearrangement of the ranked candidates. -/
theorem nativeOrder_perm (r : ContextRequest) (floor : Option F)
    (draft : PackDraft F) (cs : List (RankedNative F)) :
    (nativeOrder r floor draft cs).2.Perm cs := by
  unfold nativeOrder
  simp only
  split
  · exact List.Perm.refl _
  · rename_i i reserved hr
    obtain ⟨j, -, hj⟩ := Option.bind_eq_some_iff.mp hr
    obtain ⟨c, hg, heq⟩ := Option.map_eq_some_iff.mp hj
    cases heq
    obtain ⟨hlt, rfl⟩ := List.getElem?_eq_some_iff.mp hg
    exact List.getElem_cons_eraseIdx_perm hlt

/-- A reserved entity is a rule. -/
theorem nativeOrder_reserved {request : ContextRequest} {relevanceFloor : Option F}
    {draft : PackDraft F} {rules : List (PackRuleItem F)}
    {evidence : List (DirectEvidencePackCandidate F)} {entity : ContextPackEntityKey}
    (h : (nativeOrder request relevanceFloor draft (rankedNatives rules evidence)).1
      = some entity) : ∃ id, entity = .rule id := by
  unfold nativeOrder at h
  simp only at h
  split at h
  · cases h
  · rename_i i reserved hreserved
    cases h
    obtain ⟨j, hindex, hj⟩ := Option.bind_eq_some_iff.mp hreserved
    obtain ⟨c, hget, heq⟩ := Option.map_eq_some_iff.mp hj
    cases heq
    split at hindex
    · cases hindex
    · obtain ⟨hlt, hwarning, -⟩ := List.findIdx?_eq_some_iff_getElem.mp hindex
      obtain ⟨-, rfl⟩ := List.getElem?_eq_some_iff.mp hget
      -- a candidate is listed with its own priority, and only rules can be reserved
      have hmem := (sortBy_perm _ _).subset (List.getElem_mem hlt)
      obtain ⟨native, -, hnative⟩ := List.mem_map.mp hmem
      rw [← hnative] at hwarning ⊢
      cases native with
      | rule item => exact ⟨item.ruleId, rfl⟩
      | evidence candidate => cases hwarning

/-- At most one candidate is the reserved one. -/
theorem countP_reserved_le_one (ns : NativeCandidates F) (r : ContextRequest)
    (floor : Option F) (draft : PackDraft F) :
    (nativeOrder r floor draft (rankedNatives ns.rules ns.evidence)).2.countP
      (fun c => (nativeOrder r floor draft
        (rankedNatives ns.rules ns.evidence)).1 = some c.1.entity) ≤ 1 := by
  cases hr : (nativeOrder r floor draft (rankedNatives ns.rules ns.evidence)).1 with
  | none => simp
  | some en =>
    obtain ⟨id, rfl⟩ := nativeOrder_reserved hr
    rw [(nativeOrder_perm r floor draft _).countP_eq, rankedNatives,
      (sortBy_perm _ _).countP_eq, List.countP_map, List.countP_append, List.countP_map,
      List.countP_map]
    have he : ns.evidence.countP (((fun c : RankedNative F =>
        decide (some (ContextPackEntityKey.rule id) = some c.1.entity)) ∘ fun candidate =>
          (candidate.priority, candidate)) ∘ NativePackCandidate.evidence) = 0 := by
      rw [List.countP_eq_zero]
      intro candidate _
      simp [NativePackCandidate.priority]
    have hru : ns.rules.countP (((fun c : RankedNative F =>
        decide (some (ContextPackEntityKey.rule id) = some c.1.entity)) ∘ fun candidate =>
          (candidate.priority, candidate)) ∘ NativePackCandidate.rule)
        = (ns.rules.map (·.ruleId)).count id := by
      rw [List.count, List.countP_map]
      apply List.countP_congr
      intro it _
      simp only [NativePackCandidate.priority, Function.comp_apply, Option.some.injEq,
        ContextPackEntityKey.rule.injEq, decide_eq_true_eq, beq_iff_eq]
      exact eq_comm
    rw [he, hru, Nat.add_zero]
    exact List.nodup_iff_count_le_one.mp ns.ruleIds_nodup id

/-- Every candidate of the loop has tokens. -/
theorem nativeOrder_tokens_pos (ns : NativeCandidates F) (r : ContextRequest)
    (floor : Option F) (draft : PackDraft F) :
    ∀ c ∈ (nativeOrder r floor draft
      (rankedNatives ns.rules ns.evidence)).2, 0 < c.2.estimatedTokens := by
  intro c hc
  have hm := (sortBy_perm _ _).subset ((nativeOrder_perm r floor draft _).subset hc)
  obtain ⟨n, hn, rfl⟩ := List.mem_map.mp hm
  rcases List.mem_append.mp hn with hn | hn
  · obtain ⟨it, hi, rfl⟩ := List.mem_map.mp hn
    exact ns.rules_pos it hi
  · obtain ⟨candidate, hca, rfl⟩ := List.mem_map.mp hn
    exact ns.evidence_pos candidate hca

/-- What the guard hands on to the append when the draft comes from assembly. -/
structure Guarded (guarded : PackDraft F) : Prop where
  books : guarded.NativeBooks
  native_nil : guarded.nativeRanks = []
  rank_nodup : (guarded.items.map (·.rank)).Nodup
  rank_pos : ∀ item ∈ guarded.items, 0 < item.rank
  rank_lt : ∀ item ∈ guarded.items, item.rank < u32Max

/-- The guard on an assembled draft. -/
theorem Settled.guarded {ctx : AssemblyContext F} {is : List (PackCandidate F)}
    {ids : Multiset MemoryId} {draft : PackDraft F} (h : Settled ctx is ids draft)
    (pairs : List (String × String)) (forced : Bool) :
    Guarded (draft.applyContradictionGuard pairs forced) := by
  obtain ⟨hru, he, hb'⟩ := draft.applyContradictionGuard_native pairs forced
  have hite := draft.applyContradictionGuard_items pairs forced
  have hs : (draft.keptItems pairs forced).Sublist draft.items := List.filter_sublist
  have hn : draft.itemTokens = draft.items.map (·.estimatedTokens) := by
    simp [PackDraft.itemTokens, h.native_nil.1, h.native_nil.2]
  have hsum : draft.usedTokens = draft.itemTokens.sum := by
    rw [hn]
    exact h.used_eq
  have hle : draft.itemTokens.sum ≤ u32Max := by
    rw [← hsum]
    exact le_trans h.used_le ctx.budget.le_u32Max
  have hu := PackDraft.applyContradictionGuard_usedTokens hsum hle pairs forced
  have hto : (draft.applyContradictionGuard pairs forced).itemTokens
      = (draft.keptItems pairs forced).map (·.estimatedTokens) := by
    simp [PackDraft.itemTokens, hite, hru, he, h.native_nil.1, h.native_nil.2]
  have hr : ∀ it ∈ draft.items, 0 < it.rank ∧ it.rank < u32Max := by
    intro it hi
    have hm := List.mem_map_of_mem (f := (·.rank)) hi
    rw [h.rank_eq, List.mem_range'_1] at hm
    have hlt := h.length_lt
    omega
  refine ⟨⟨hu, ?_, ?_⟩, ?_, ?_, ?_, ?_⟩
  · rw [hu, hto, hb', h.budget_eq]
    have hle := (hs.map (·.estimatedTokens)).sum_le_sum (by simp)
    have hb := h.used_le
    have hsu := h.used_eq
    omega
  · intro t ht
    rw [hto] at ht
    obtain ⟨it, hi, rfl⟩ := List.mem_map.mp ht
    exact h.tokens_pos it (hs.subset hi)
  · simp [PackDraft.nativeRanks, hru, he, h.native_nil.1, h.native_nil.2]
  · rw [hite]
    refine (hs.map (·.rank)).nodup ?_
    rw [h.rank_eq]
    exact List.nodup_range' 1
  · intro it hi
    rw [hite] at hi
    exact (hr it (hs.subset hi)).1
  · intro it hi
    rw [hite] at hi
    exact (hr it (hs.subset hi)).2

/-- The append on a guarded draft: distinct ranks, exactly when the numbers of the
natives avoid the kept ranks. -/
theorem Guarded.append_nodup_iff {guarded : PackDraft F} (h : Guarded guarded)
    (ns : NativeCandidates F) (r : ContextRequest) (floor : Option F) :
    (appendRankedNativePackItems ns.rules ns.evidence r floor guarded).1.allRanks.Nodup
      ↔ NumbersAvoidKeptRanks guarded ns r floor := by
  have hst : Spread guarded.items 0 0 guarded := by
    refine ⟨?_, ?_⟩
    · exact (List.map_id guarded.items).symm
    · rw [h.native_nil]
      exact List.Perm.refl _
  have hr := foldl_appendNativeStep_spread r
    (nativeOrder r floor guarded (rankedNatives ns.rules ns.evidence)).1
    h.rank_lt
    (nativeOrder r floor guarded (rankedNatives ns.rules ns.evidence)).2
    { draft := guarded } 0 0 (nativeOrder_tokens_pos ns r floor guarded)
    h.books hst
    (by rw [Nat.zero_add]; exact countP_reserved_le_one ns r floor guarded)
  -- without candidates the draft stays as it is, which is what the empty run gives too
  have hd : (appendRankedNativePackItems ns.rules ns.evidence r floor guarded).1.allRanks
        = ((nativeOrder r floor guarded (rankedNatives ns.rules ns.evidence)).2.foldl
          (appendNativeStep r (nativeOrder r floor guarded
            (rankedNatives ns.rules ns.evidence)).1) { draft := guarded }).draft.allRanks := by
    unfold appendRankedNativePackItems
    simp only
    split
    · rename_i hni
      have ho := nativeOrder_perm r floor guarded (rankedNatives ns.rules ns.evidence)
      rw [List.isEmpty_iff.mp hni] at ho ⊢
      rw [ho.eq_nil]
      rfl
    · rfl
  rw [hd]
  unfold NumbersAvoidKeptRanks numberedNatives
  simp only
  split at hr
  · rename_i hno
    rw [hno]
    exact ⟨fun _ n hn => (by cases hn), fun _ => hr.nodup⟩
  · rename_i n hso
    obtain ⟨shift, hs⟩ := hr
    rw [Nat.zero_add] at hs
    rw [hs.nodup_iff h.rank_nodup h.rank_pos, hso]
    constructor
    · intro hc n' hn'
      cases hn'
      exact hc
    · intro hc
      exact hc n rfl

/-- **When ranks stay unique.**  For every assembled draft, every list of unresolved
pairs and all native candidates: after the guard and the append the ranks over
memory, rule and evidence items are pairwise distinct if and only if a native
displaces a memory or no memory that the guard kept has a rank among the numbers
that the natives get. -/
theorem pipeline_ranks_nodup_iff {ctx : AssemblyContext F} {reserved : Bool} {query : String}
    {candidates : List (PackCandidate F)} {draft : PackDraft F}
    (h : assembleDraftWithProfileAndOptionsSeeded ctx reserved query candidates = .ok draft)
    (unresolvedPairs : List (String × String)) (natives : NativeCandidates F)
    (request : ContextRequest) (relevanceFloor : Option F) :
    (guardThenAppend unresolvedPairs natives request relevanceFloor draft).allRanks.Nodup
      ↔ NumbersAvoidKeptRanks (draft.applyContradictionGuard unresolvedPairs false) natives request
          relevanceFloor :=
  ((settled_of_assemble h).guarded unresolvedPairs false).append_nodup_iff natives request
    relevanceFloor

end Native

/-! ## A gap that the numbering runs into -/

/-- Three memories that all fit. -/
def rankSampleCandidates : List (PackCandidate ℚ) :=
  [sampleCandidate 1 .proceduralRules "run the tests" 10 (9 / 10),
    sampleCandidate 2 .decisions "use the nightly toolchain" 12 (8 / 10),
    sampleCandidate 3 .evidence "release notes" 9 (7 / 10)]

/-- The first two contradict each other. -/
def rankSamplePairs : List (String × String) :=
  [((⟨1⟩ : MemoryId).toText, (⟨2⟩ : MemoryId).toText)]

/-- One small native rule. -/
def rankSampleNatives : NativeCandidates ℚ where
  rules :=
    [{ rank := 0
       ruleId := "rule_1"
       entityRevision := "blake3:00"
       packSection := .proceduralRules
       content := "format before commit"
       estimatedTokens := 4
       relevance := 1 / 2
       utility := 1 / 2
       provenance := []
       why := "matches the query"
       trust := ⟨.agentAssertion, some "procedural_rule"⟩ }]
  evidence := []
  ruleIds_nodup := by simp
  rules_pos := by simp
  evidence_pos := by simp

/-- The ranks of the pipeline on the three memories. -/
def rankSampleRanks (unresolvedPairs : List (String × String)) (draft : PackDraft ℚ) : List ℕ :=
  (guardThenAppend unresolvedPairs rankSampleNatives ⟨.balanced, none⟩ none draft).allRanks

/-- The guard drops the memory at rank 2; the native rule is then numbered 3, which the
third memory still has. -/
theorem pipeline_ranks_collide :
    ∃ draft, assembleDraftWithProfileAndOptionsSeeded sampleContext true "tests"
        rankSampleCandidates = .ok draft ∧
      (guardThenAppend rankSamplePairs rankSampleNatives ⟨.balanced, none⟩ none draft).allRanks
        = [1, 3, 3] ∧
      ¬ (guardThenAppend rankSamplePairs rankSampleNatives ⟨.balanced, none⟩ none
        draft).allRanks.Nodup := by
  have hr : (assembleDraftWithProfileAndOptionsSeeded sampleContext true "tests"
      rankSampleCandidates).toOption.map (rankSampleRanks rankSamplePairs) = some [1, 3, 3] := by
    decide +kernel
  cases hru : assembleDraftWithProfileAndOptionsSeeded sampleContext true "tests"
      rankSampleCandidates with
  | error e =>
    rw [hru] at hr
    cases hr
  | ok draft =>
    rw [hru] at hr
    have ha : rankSampleRanks rankSamplePairs draft = [1, 3, 3] := Option.some.inj hr
    refine ⟨draft, rfl, ha, ?_⟩
    change ¬ (rankSampleRanks rankSamplePairs draft).Nodup
    rw [ha]
    decide

/-- When the guard drops the last memory instead, the numbers avoid the kept ranks. -/
theorem pipeline_ranks_nodup_tail :
    ∃ draft, assembleDraftWithProfileAndOptionsSeeded sampleContext true "tests"
        rankSampleCandidates = .ok draft ∧
      (guardThenAppend [((⟨1⟩ : MemoryId).toText, (⟨3⟩ : MemoryId).toText)] rankSampleNatives
        ⟨.balanced, none⟩ none draft).allRanks = [1, 2, 3] ∧
      NumbersAvoidKeptRanks (draft.applyContradictionGuard
        [((⟨1⟩ : MemoryId).toText, (⟨3⟩ : MemoryId).toText)] false) rankSampleNatives
          ⟨.balanced, none⟩ none := by
  have hr : (assembleDraftWithProfileAndOptionsSeeded sampleContext true "tests"
      rankSampleCandidates).toOption.map
        (rankSampleRanks [((⟨1⟩ : MemoryId).toText, (⟨3⟩ : MemoryId).toText)])
        = some [1, 2, 3] := by
    decide +kernel
  cases hru : assembleDraftWithProfileAndOptionsSeeded sampleContext true "tests"
      rankSampleCandidates with
  | error e =>
    rw [hru] at hr
    cases hr
  | ok draft =>
    rw [hru] at hr
    have ha : rankSampleRanks [((⟨1⟩ : MemoryId).toText, (⟨3⟩ : MemoryId).toText)] draft
        = [1, 2, 3] := Option.some.inj hr
    have hn : (rankSampleRanks [((⟨1⟩ : MemoryId).toText, (⟨3⟩ : MemoryId).toText)]
        draft).Nodup := by
      rw [ha]
      decide
    exact ⟨draft, rfl, ha, (pipeline_ranks_nodup_iff hru _ _ _ _).mp hn⟩

end Pack
