/-
# Displacing memories keeps the books (`src/pack/mod.rs`)

`omit_memories_for_native_budget` takes memories out of a draft and renumbers what is left:
memories, rules and evidence share one line of ranks and are compacted together.  The new rank
of an item is the number of ranks that are left up to its old one, so one increasing
renumbering serves all three kinds and the audit steps.
-/
import EideticEngine.ComparisonSort
import EideticEngine.PackRanks

namespace Pack

open StableSort (sortBy sortBy_perm)

variable {F : Type}

/-! ## The renumbering -/

/-- In a list in strictly increasing order of keys, the place of a value is the number of keys
up to its own. -/
theorem idxOf_map_snd_of_increasing {α : Type} [DecidableEq α] {l : List (ℕ × α)}
    (hs : l.Pairwise fun a b => a.1 < b.1) (hn : (l.map Prod.snd).Nodup) {r : ℕ} {x : α}
    (hm : (r, x) ∈ l) :
    (l.map Prod.snd).idxOf x + 1 = (l.map Prod.fst).countP (fun k => k ≤ r) := by
  induction l with
  | nil => cases hm
  | cons a l ih =>
    obtain ⟨hh, ht⟩ := List.pairwise_cons.mp hs
    rw [List.map_cons, List.nodup_cons] at hn
    rw [List.map_cons, List.map_cons, List.countP_cons]
    rcases List.mem_cons.mp hm with rfl | hin
    · have hz : (l.map Prod.fst).countP (fun k => k ≤ r) = 0 := by
        rw [List.countP_eq_zero]
        intro k hk
        obtain ⟨b, hb, rfl⟩ := List.mem_map.mp hk
        simpa using hh b hb
      rw [hz]
      simp
    · have hne : a.2 ≠ x := by
        rintro rfl
        exact hn.1 (List.mem_map.mpr ⟨_, hin, rfl⟩)
      have hlt : a.1 < r := hh (r, x) hin
      rw [List.idxOf_cons_ne _ hne, Nat.succ_eq_add_one, ih ht hn.2 hin]
      simp [hlt.le]

/-- The rank after a compaction: the number of ranks up to the old one. -/
def PackDraft.newRank (draft : PackDraft F) (r : ℕ) : ℕ :=
  draft.allRanks.countP fun k => k ≤ r

theorem PackDraft.map_fst_rankSlots (draft : PackDraft F) :
    draft.rankSlots.map Prod.fst = draft.allRanks := by
  simp only [rankSlots, allRanks, nativeRanks, List.map_append, List.append_assoc]
  congr 1
  · exact map_mapIdx_value _ fun _ _ => rfl
  · congr 1
    · exact map_mapIdx_value _ fun _ _ => rfl
    · exact map_mapIdx_value _ fun _ _ => rfl

/-- The renumbering is increasing on the ranks in use. -/
theorem PackDraft.newRank_lt_newRank (draft : PackDraft F) {r r' : ℕ} (hlt : r < r')
    (hm : r' ∈ draft.allRanks) : draft.newRank r < draft.newRank r' := by
  unfold newRank
  generalize draft.allRanks = rs at hm
  induction rs with
  | nil => cases hm
  | cons k l ih =>
    have hmo : l.countP (fun k => decide (k ≤ r)) ≤ l.countP (fun k => decide (k ≤ r')) :=
      List.countP_mono_left fun k _ hk => by
        rw [decide_eq_true_eq] at hk ⊢
        omega
    rw [List.countP_cons, List.countP_cons]
    rcases List.mem_cons.mp hm with rfl | hin
    · rw [if_neg (by simpa using hlt), if_pos (by simp)]
      omega
    · have hr := ih hin
      by_cases hk : k ≤ r
      · rw [if_pos (by simpa using hk), if_pos (by simpa using hk.trans hlt.le)]
        omega
      · rw [if_neg (by simpa using hk)]
        split <;> omega

/-- The slots in rank order, with their ranks. -/
theorem PackDraft.sorted_rankSlots {draft : PackDraft F} (hn : draft.allRanks.Nodup) :
    (sortBy (fun a b => compare a.1 b.1) draft.rankSlots).Pairwise fun a b => a.1 < b.1 := by
  have hc : Std.TransCmp fun a b : ℕ × RankSlot => compare a.1 b.1 :=
    @ComparisonSort.transCmp_on _ _ compare _ Prod.fst
  have hs := List.pairwise_insertionSort
    (fun a b : ℕ × RankSlot => compare a.1 b.1 ≠ .gt) draft.rankSlots
  have hd : (sortBy (fun a b => compare a.1 b.1) draft.rankSlots).Pairwise
      fun a b => a.1 ≠ b.1 := by
    rw [← List.pairwise_map (f := Prod.fst) (R := (· ≠ ·))]
    have hp := (sortBy_perm (fun a b => compare a.1 b.1) draft.rankSlots).map Prod.fst
    rw [map_fst_rankSlots] at hp
    exact hp.nodup_iff.mpr hn
  refine List.Pairwise.imp₂ ?_ hs hd
  intro a b hle hne
  have h' : a.1 ≤ b.1 := by
    rw [← Nat.isLE_compare]
    exact Ordering.isLE_iff_ne_gt.mpr hle
  omega

/-- The compacted rank of a place is the new rank of what stands there. -/
theorem PackDraft.compactRank_eq_newRank {draft : PackDraft F} (hc : draft.itemCount ≤ u32Max)
    (hn : draft.allRanks.Nodup) {r : ℕ} {slot : RankSlot} (hm : (r, slot) ∈ draft.rankSlots) :
    draft.compactRank slot = draft.newRank r := by
  have hs : slot ∈ draft.slots := by
    rw [← map_snd_rankSlots]
    exact List.mem_map_of_mem (f := Prod.snd) hm
  have hp := sortBy_perm (fun a b => compare a.1 b.1) draft.rankSlots
  have hsn : ((sortBy (fun a b => compare a.1 b.1) draft.rankSlots).map Prod.snd).Nodup :=
    draft.slotOrder_perm.nodup_iff.mpr draft.nodup_slots
  rw [(compactRank_eq hc hs).1]
  unfold slotOrder
  rw [idxOf_map_snd_of_increasing (sorted_rankSlots hn) hsn (hp.symm.subset hm)]
  unfold newRank
  rw [(hp.map Prod.fst).countP_eq, map_fst_rankSlots]

/-- **Compaction is one renumbering of all kinds.** -/
theorem PackDraft.compactRanks_eq {draft : PackDraft F} (hc : draft.itemCount ≤ u32Max)
    (hn : draft.allRanks.Nodup) :
    draft.compactRanks = { draft with
        items := draft.items.map fun it => it.withRank (draft.newRank it.rank)
        ruleItems := draft.ruleItems.map fun it => { it with rank := draft.newRank it.rank }
        evidenceItems := draft.evidenceItems.map fun it =>
          { it with rank := draft.newRank it.rank } } := by
  unfold compactRanks
  congr 1
  · apply List.ext_getElem
    · simp
    · intro i h₁ h₂
      have hi : i < draft.items.length := by simpa using h₂
      have hm : (draft.items[i].rank, RankSlot.memory i) ∈ draft.rankSlots := by
        simp only [rankSlots, List.mem_append, List.mem_mapIdx]
        exact Or.inl (Or.inl ⟨i, hi, rfl⟩)
      simp [compactRank_eq_newRank hc hn hm, PackDraftItem.withRank]
  · apply List.ext_getElem
    · simp
    · intro i h₁ h₂
      have hi : i < draft.evidenceItems.length := by simpa using h₂
      have hm : (draft.evidenceItems[i].rank, RankSlot.evidence i) ∈ draft.rankSlots := by
        simp only [rankSlots, List.mem_append, List.mem_mapIdx]
        exact Or.inr ⟨i, hi, rfl⟩
      simp [compactRank_eq_newRank hc hn hm]
  · apply List.ext_getElem
    · simp
    · intro i h₁ h₂
      have hi : i < draft.ruleItems.length := by simpa using h₂
      have hm : (draft.ruleItems[i].rank, RankSlot.rule i) ∈ draft.rankSlots := by
        simp only [rankSlots, List.mem_append, List.mem_mapIdx]
        exact Or.inl (Or.inr ⟨i, hi, rfl⟩)
      simp [compactRank_eq_newRank hc hn hm]

/-- Compacted ranks count the items. -/
theorem PackDraft.allRanks_compactRanks_perm {draft : PackDraft F} (hc : draft.itemCount ≤ u32Max) :
    draft.compactRanks.allRanks.Perm (List.range' 1 draft.itemCount) := by
  obtain ⟨hn, hb⟩ := compactRanks_spec hc
  have hs : draft.compactRanks.allRanks ⊆ List.range' 1 draft.itemCount := by
    intro r hr
    have hr' := hb r hr
    rw [List.mem_range'_1]
    omega
  refine (List.subperm_of_subset hn hs).perm_of_length_le ?_
  rw [allRanks_compactRanks, List.length_map, length_slots, List.length_range']

/-! ## Who is displaced -/

/-- A memory is displaced when it is named, selected, and no anti-pattern reservation protects
one of its items. -/
def PackDraft.Displaced (draft : PackDraft F) (ids : List MemoryId) (id : MemoryId) : Prop :=
  id ∈ ids ∧ (∃ item ∈ draft.items, item.memoryId = id) ∧
    ∀ item ∈ draft.items, item.memoryId = id → item.selectedIn ≠ .antiPatternFirst

instance (draft : PackDraft F) (ids : List MemoryId) (id : MemoryId) :
    Decidable (draft.Displaced ids id) :=
  inferInstanceAs (Decidable (_ ∧ _ ∧ _))

/-- The items of a draft that a displacement leaves, at their old ranks. -/
def PackDraft.survivors (draft : PackDraft F) (ids : List MemoryId) : PackDraft F :=
  { draft with items := draft.items.filter fun item => ¬ draft.Displaced ids item.memoryId }

/-- What is displaced of the memories of the draft. -/
theorem PackDraft.displaced_iff {draft : PackDraft F} {ids : List MemoryId} {id : MemoryId}
    (hid : ∃ it ∈ draft.items, it.memoryId = id) :
    draft.Displaced ids id ↔ id ∈ draft.displaceable ids := by
  unfold Displaced displaceable
  simp only [List.mem_filter, Bool.not_eq_true', List.any_eq_false, decide_eq_true_eq, not_and]
  constructor
  · rintro ⟨hm, -, hf⟩
    exact ⟨hm, fun it hite hp hi => hf it hite hi hp⟩
  · rintro ⟨hm, hf⟩
    exact ⟨hm, hid, fun it hite hi hp => hf it hite hp hi⟩

theorem PackDraft.items_withoutMemories (draft : PackDraft F) (ids : List MemoryId) :
    (draft.withoutMemories (draft.displaceable ids)).items = (draft.survivors ids).items := by
  unfold withoutMemories survivors
  refine List.filter_congr fun it hi => ?_
  simp only [displaced_iff ⟨it, hi, rfl⟩]

/-- A protected item survives. -/
theorem PackDraft.mem_survivors_of_antiPatternFirst {draft : PackDraft F} {it : PackDraftItem F}
    (hi : it ∈ draft.items) (hp : it.selectedIn = .antiPatternFirst)
    (ids : List MemoryId) : it ∈ (draft.survivors ids).items := by
  unfold survivors
  rw [List.mem_filter, decide_eq_true_eq]
  refine ⟨hi, ?_⟩
  rintro ⟨-, -, hf⟩
  exact hf it hi rfl hp

theorem PackDraft.allRanks_survivors_sublist (draft : PackDraft F) (ids : List MemoryId) :
    (draft.survivors ids).allRanks.Sublist draft.allRanks :=
  (List.filter_sublist.map _).append (List.Sublist.refl _)

theorem PackDraft.itemTokens_survivors_sublist (draft : PackDraft F) (ids : List MemoryId) :
    (draft.survivors ids).itemTokens.Sublist draft.itemTokens :=
  ((List.filter_sublist.map _).append (List.Sublist.refl _)).append (List.Sublist.refl _)

theorem PackDraft.length_allRanks (draft : PackDraft F) :
    draft.allRanks.length = draft.itemCount := by
  simp [allRanks, nativeRanks, itemCount, Nat.add_assoc]

/-! ## The audit of a draft -/

/-- The ranks over all kinds count the items. -/
structure PackDraft.Ranked (draft : PackDraft F) : Prop where
  ranks : draft.allRanks.Perm (List.range' 1 draft.itemCount)
  count_le : draft.itemCount ≤ u32Max

/-- The audit names the selected memories at their ranks, with one step each. -/
structure PackDraft.Audited (draft : PackDraft F) : Prop where
  selected_eq : draft.selectionAudit.selectedItems = selectedItemsFromDraftItems draft.items
  steps : (draft.selectionAudit.steps.map (·.selectedItem)).Perm
    (selectedItemsFromDraftItems draft.items)

/-- **A numbered draft**: the ranks count the items, the tokens used are the tokens of the
items, and the audit agrees with the selection.  Ranks and token counts are `u32` values. -/
structure PackDraft.Numbered (draft : PackDraft F) : Prop extends draft.Ranked, draft.Audited where
  used_eq : draft.usedTokens = draft.itemTokens.sum
  used_le : draft.usedTokens ≤ u32Max

theorem PackDraft.Ranked.nodup {draft : PackDraft F} (h : draft.Ranked) : draft.allRanks.Nodup :=
  h.ranks.nodup_iff.mpr (List.nodup_range' 1)

/-- A fold that adds the steps at the end of what it has. -/
theorem map_foldl_snd {α β γ : Type} {f : α × List β → β → α × List β} {l : List β}
    {acc : α × List β}
    (_ : acc.2 = []) (sel : β → γ)
    (h : ∀ acc, ∀ b ∈ l, (f acc b).2.map sel = acc.2.map sel ++ [sel b]) :
    (l.foldl f acc).2.map sel = l.map sel := by
  induction l using List.reverseRecOn with
  | nil => simp [*]
  | append_singleton l b ih =>
    rw [List.foldl_append, List.foldl_cons, List.foldl_nil, h _ b (by simp), List.map_append]
    rw [ih fun acc b hb => h acc b (List.mem_append_left _ hb)]
    rfl

/-- When every step names a selected item, the refresh keeps all of them. -/
theorem refresh_selectedItems [F32 F] (a : PackSelectionAudit F) {items : List (PackDraftItem F)}
    (h : ∀ step ∈ a.steps, step.selectedItem ∈ selectedItemsFromDraftItems items) :
    (refreshSelectionAuditObjectiveAfterGuard a items).steps.map (·.selectedItem)
      = a.steps.map (·.selectedItem) := by
  unfold refreshSelectionAuditObjectiveAfterGuard
  refine map_foldl_snd rfl PackSelectionStep.selectedItem ?_
  intro acc step hst
  obtain ⟨it, hi, heq⟩ := List.mem_map.mp (h step hst)
  have hr : it.rank = step.rank := congrArg PackSelectedItem.rank heq
  have hid : it.memoryId = step.memoryId := congrArg PackSelectedItem.memoryId heq
  have hf : (items.reverse.find? fun it =>
      it.memoryId = step.memoryId ∧ it.rank = step.rank).isSome := by
    rw [List.find?_isSome]
    exact ⟨it, List.mem_reverse.mpr hi, by simp [hid, hr]⟩
  obtain ⟨f, hf⟩ := Option.isSome_iff_exists.mp hf
  simp only [hf, Option.map_some]
  simp [PackSelectionStep.selectedItem]

/-! ## Steps follow their items -/

/-- The rank that a step is moved to is the new rank of its old one. -/
theorem PackDraft.compactMemoryRank_eq {draft : PackDraft F} (hc : draft.itemCount ≤ u32Max)
    (hno : draft.allRanks.Nodup) (memoryId : MemoryId) (ora : ℕ) :
    draft.compactMemoryRank memoryId ora
      = if ∃ it ∈ draft.items, it.memoryId = memoryId ∧ it.rank = ora
        then some (draft.newRank ora) else none := by
  unfold compactMemoryRank
  split
  · rename_i hite
    obtain ⟨it, hite, hid, hr⟩ := hite
    obtain ⟨i, hi, rfl⟩ := List.getElem_of_mem hite
    -- some slot answers, and whichever does gives the new rank of `oldRank`
    have hm : (draft.items[i].rank, RankSlot.memory i) ∈ draft.rankSlots := by
      simp only [rankSlots, List.mem_append, List.mem_mapIdx]
      exact Or.inl (Or.inl ⟨i, hi, rfl⟩)
    have hs : RankSlot.memory i ∈ draft.slotOrder := by
      refine draft.slotOrder_perm.symm.subset ?_
      rw [← map_snd_rankSlots]
      exact List.mem_map_of_mem (f := Prod.snd) hm
    cases hf : draft.slotOrder.reverse.findSome? _ with
    | none =>
      have hn := List.findSome?_eq_none_iff.mp hf _ (List.mem_reverse.mpr hs)
      simp [List.getElem?_eq_getElem hi, hid, hr] at hn
    | some rank =>
      obtain ⟨slot, hs, hr⟩ := List.exists_of_findSome?_eq_some hf
      cases slot with
      | rule j => cases hr
      | evidence j => cases hr
      | memory j =>
        obtain ⟨other, ho, hr⟩ := Option.bind_eq_some_iff.mp hr
        obtain ⟨hj, rfl⟩ := List.getElem?_eq_some_iff.mp ho
        have hm : (draft.items[j].rank, RankSlot.memory j) ∈ draft.rankSlots := by
          simp only [rankSlots, List.mem_append, List.mem_mapIdx]
          exact Or.inl (Or.inl ⟨j, hj, rfl⟩)
        split at hr
        · rename_i hsa
          rw [compactRank_eq_newRank hc hno hm, hsa.2] at hr
          exact hr.symm
        · cases hr
  · rename_i hn
    rw [List.findSome?_eq_none_iff]
    intro slot _
    cases slot with
    | rule j => rfl
    | evidence j => rfl
    | memory j =>
      rw [Option.bind_eq_none_iff]
      intro it hite
      rw [if_neg]
      rintro ⟨hid, hr⟩
      exact hn ⟨it, List.mem_of_getElem? hite, hid, hr⟩

/-- A step as it is moved with its item, or dropped without one. -/
def PackDraft.movedStep (draft : PackDraft F) (step : PackSelectionStep F) :
    Option (PackSelectionStep F) :=
  (draft.compactMemoryRank step.memoryId step.rank).map fun rank => { step with rank := rank }

/-- A selected item as it is moved to its new rank, or dropped. -/
def PackDraft.movedItem (draft : PackDraft F) (item : PackSelectedItem) :
    Option PackSelectedItem :=
  (draft.compactMemoryRank item.memoryId item.rank).map fun rank => { item with rank := rank }

theorem PackDraft.map_filterMap_movedStep (draft : PackDraft F)
    (steps : List (PackSelectionStep F)) :
    (steps.filterMap draft.movedStep).map (·.selectedItem)
      = (steps.map (·.selectedItem)).filterMap draft.movedItem := by
  rw [List.map_filterMap, List.filterMap_map]
  congr 1
  funext step
  simp only [movedStep, movedItem, Function.comp_apply, Option.map_map]
  rfl

/-- Over all items that were selected, exactly the survivors are moved. -/
theorem PackDraft.filterMap_movedItem {draft : PackDraft F} (hc : draft.itemCount ≤ u32Max)
    (hn : draft.allRanks.Nodup) {items : List (PackDraftItem F)}
    {p : PackDraftItem F → Bool} (hk : draft.items = items.filter p)
    (hp : ∀ it ∈ items, ∀ other ∈ items, it.memoryId = other.memoryId → p it = p other) :
    (selectedItemsFromDraftItems items).filterMap draft.movedItem = selectedItemsFromDraftItems
          (draft.items.map fun it => it.withRank (draft.newRank it.rank)) := by
  have hm : ∀ it ∈ items, draft.movedItem ⟨it.rank, it.memoryId, it.estimatedTokens, true⟩
        = if p it then
            some ⟨draft.newRank it.rank, it.memoryId, it.estimatedTokens, true⟩
          else none := by
    intro it hite
    unfold movedItem
    rw [compactMemoryRank_eq hc hn]
    by_cases hpi : p it = true
    · have hme : it ∈ draft.items := by
        rw [hk]
        exact List.mem_filter.mpr ⟨hite, hpi⟩
      rw [if_pos ⟨it, hme, rfl, rfl⟩, if_pos hpi]
      rfl
    · rw [if_neg, if_neg hpi]
      · rfl
      · rintro ⟨other, ho, hid, -⟩
        rw [hk, List.mem_filter] at ho
        exact hpi ((hp other ho.1 it hite hid).symm.trans ho.2)
  rw [hk]
  unfold selectedItemsFromDraftItems
  clear hk hp
  induction items with
  | nil => rfl
  | cons it items ih =>
    have hr := ih fun i hi => hm i (List.mem_cons_of_mem _ hi)
    have hh := hm it List.mem_cons_self
    rw [List.filter_cons, List.map_cons]
    by_cases hpi : p it = true
    · rw [if_pos hpi] at hh
      rw [if_pos hpi, List.filterMap_cons_some hh, hr]
      rfl
    · rw [if_neg hpi] at hh
      rw [if_neg hpi, List.filterMap_cons_none hh, hr]

/-! ## Omissions of displaced memories -/

/-- The omission of the removed items of a memory, with all their tokens. -/
theorem displacedOmission_eq_some {items : List (PackDraftItem F)} {id : MemoryId}
    (hne : items ≠ []) (hid : ∀ it ∈ items, it.memoryId = id)
    (hle : (items.map (·.estimatedTokens)).sum ≤ u32Max) :
    ∃ o, displacedOmission items = some o ∧ o.memoryId = id ∧
      o.estimatedTokens = (items.map (·.estimatedTokens)).sum ∧
      o.reason = .tokenBudgetExceeded := by
  cases items with
  | nil => exact absurd rfl hne
  | cons first r =>
    refine ⟨_, rfl, hid first List.mem_cons_self, ?_, rfl⟩
    rw [List.map_cons, List.sum_cons] at hle
    have hf := foldl_satAdd32 (r.map (·.estimatedTokens)) first.estimatedTokens hle
    rw [List.foldl_map] at hf
    simpa using hf

theorem mem_distinctMemoryIds {ids : List MemoryId} {id : MemoryId} :
    id ∈ distinctMemoryIds ids ↔ id ∈ ids := by
  unfold distinctMemoryIds
  rw [List.mem_dedup]
  exact (sortBy_perm _ _).mem_iff

/-- Of a list without repetition, mapped one to one, one element comes from each key. -/
theorem filter_filterMap_eq_singleton {α β : Type} [DecidableEq α] {keys : List α}
    {f : α → Option β} {key : β → α} (hke : ∀ a ∈ keys, ∀ b ∈ f a, key b = a)
    (hn : keys.Nodup) {a : α} {b : β} (hm : a ∈ keys) (hb : f a = some b) :
    (keys.filterMap f).filter (fun b => key b = a) = [b] := by
  induction keys with
  | nil => cases hm
  | cons k keys ih =>
    obtain ⟨hno, hn⟩ := List.nodup_cons.mp hn
    have hr : ∀ a ∈ keys, ∀ b ∈ f a, key b = a := fun a ha => hke a (List.mem_cons_of_mem _ ha)
    rcases List.mem_cons.mp hm with rfl | hin
    · rw [List.filterMap_cons_some hb, List.filter_cons_of_pos
        (by simpa using hke a List.mem_cons_self b hb), List.cons.injEq]
      refine ⟨rfl, ?_⟩
      rw [List.filter_eq_nil_iff]
      intro c hc heq
      obtain ⟨k, hk, hck⟩ := List.mem_filterMap.mp hc
      rw [decide_eq_true_eq, hr k hk c hck] at heq
      exact hno (heq ▸ hk)
    · have hne : k ≠ a := fun heq => hno (heq ▸ hin)
      cases hk : f k with
      | none => rw [List.filterMap_cons_none hk, ih hr hn hin]
      | some c =>
        rw [List.filterMap_cons_some hk, List.filter_cons_of_neg, ih hr hn hin]
        rw [decide_eq_true_eq, hke k List.mem_cons_self c hk]
        exact hne

/-- **One omission for each displaced memory**, with the tokens of all its items; the omissions
of other memories stay. -/
structure PackDraft.OmitsDisplaced (draft after : PackDraft F) (ids : List MemoryId) : Prop where
  displaced : ∀ id, draft.Displaced ids id →
    ∃ omission, after.omitted.filter (fun o => o.memoryId = id) = [omission] ∧
      omission.estimatedTokens = memoryTokens draft.items id ∧
      omission.reason = .tokenBudgetExceeded
  others : ∀ id, ¬ draft.Displaced ids id →
    after.omitted.filter (fun o => o.memoryId = id)
      = draft.omitted.filter (fun o => o.memoryId = id)

theorem PackDraft.withoutMemories_omitsDisplaced {draft : PackDraft F}
    (hle : draft.itemTokens.sum ≤ u32Max) (ids : List MemoryId) :
    draft.OmitsDisplaced (draft.withoutMemories (draft.displaceable ids)) ids := by
  -- the identifiers of the removed items are the displaced ones
  have hr : ∀ id, id ∈ distinctMemoryIds ((draft.items.filter fun it =>
      it.memoryId ∈ draft.displaceable ids).map (·.memoryId)) ↔ draft.Displaced ids id := by
    intro id
    rw [mem_distinctMemoryIds, List.mem_map]
    constructor
    · rintro ⟨it, hi, rfl⟩
      rw [List.mem_filter, decide_eq_true_eq] at hi
      exact (displaced_iff ⟨it, hi.1, rfl⟩).mpr hi.2
    · intro hid
      obtain ⟨it, hi, rfl⟩ := hid.2.1
      have hm := (displaced_iff ⟨it, hi, rfl⟩).mp hid
      exact ⟨it, List.mem_filter.mpr ⟨hi, by simpa using hm⟩, rfl⟩
  -- the removed items of a displaced memory are all its items
  have hitems : ∀ id, draft.Displaced ids id →
      (draft.items.filter fun it => it.memoryId ∈ draft.displaceable ids).filter
        (fun it => it.memoryId = id) = draft.items.filter fun it => it.memoryId = id := by
    intro id hid
    rw [List.filter_filter]
    refine List.filter_congr fun it hi => ?_
    by_cases heq : it.memoryId = id
    · have hm := (displaced_iff ⟨it, hi, heq⟩).mp hid
      simp [heq, hm]
    · simp [heq]
  have hsum : ∀ id, memoryTokens draft.items id ≤ u32Max := by
    intro id
    have hsu : ((draft.items.filter fun it => it.memoryId = id).map
        (·.estimatedTokens)).sum ≤ (draft.items.map (·.estimatedTokens)).sum :=
      (List.filter_sublist.map _).sum_le_sum (by simp)
    have hto : (draft.items.map (·.estimatedTokens)).sum ≤ draft.itemTokens.sum := by
      simp only [itemTokens, List.sum_append]
      omega
    exact hsu.trans (hto.trans hle)
  have hom : ∀ id, draft.Displaced ids id → ∃ om, displacedOmission ((draft.items.filter fun it =>
        it.memoryId ∈ draft.displaceable ids).filter fun it => it.memoryId = id)
          = some om ∧ om.memoryId = id ∧
        om.estimatedTokens = memoryTokens draft.items id ∧
        om.reason = .tokenBudgetExceeded := by
    intro id hid
    rw [hitems id hid]
    obtain ⟨it, hi, hite⟩ := hid.2.1
    refine displacedOmission_eq_some ?_ ?_ (hsum id)
    · exact List.ne_nil_of_mem (List.mem_filter.mpr ⟨hi, by simpa using hite⟩)
    · intro other hot
      simpa using (List.mem_filter.mp hot).2
  constructor
  · intro id hid
    obtain ⟨om, hs, -, ht, hre⟩ := hom id hid
    refine ⟨om, ?_, ht, hre⟩
    unfold withoutMemories
    rw [List.filter_append]
    have h : ((draft.omitted.filter fun om => om.memoryId ∉ distinctMemoryIds
        ((draft.items.filter fun it => it.memoryId ∈ draft.displaceable ids).map
          (·.memoryId))).filter fun o => o.memoryId = id) = [] := by
      rw [List.filter_eq_nil_iff]
      intro o ho heq
      rw [List.mem_filter, decide_eq_true_eq] at ho
      rw [decide_eq_true_eq] at heq
      exact ho.2 (heq ▸ (hr id).mpr hid)
    rw [h, List.nil_append]
    refine @filter_filterMap_eq_singleton _ _ _ _ _ (fun o : PackOmission F => o.memoryId) ?_
      (List.nodup_dedup _) _ _ ((hr id).mpr hid) hs
    intro other hot o ho
    obtain ⟨o', ho', h', -⟩ := hom other ((hr other).mp hot)
    rw [Option.mem_def, ho', Option.some.injEq] at ho
    rw [← ho, h']
  · intro id hid
    unfold withoutMemories
    rw [List.filter_append]
    have hn : ((distinctMemoryIds ((draft.items.filter fun it =>
        it.memoryId ∈ draft.displaceable ids).map (·.memoryId))).filterMap fun id =>
          displacedOmission ((draft.items.filter fun it =>
            it.memoryId ∈ draft.displaceable ids).filter fun it => it.memoryId = id)).filter
              (fun o => o.memoryId = id) = [] := by
      rw [List.filter_eq_nil_iff]
      intro o ho heq
      obtain ⟨other, hot, hs⟩ := List.mem_filterMap.mp ho
      obtain ⟨o', ho', h', -⟩ := hom other ((hr other).mp hot)
      rw [ho', Option.some.injEq] at hs
      rw [decide_eq_true_eq, ← hs, h'] at heq
      exact hid (heq ▸ (hr other).mp hot)
    rw [hn, List.append_nil, List.filter_filter]
    refine List.filter_congr fun o _ => ?_
    by_cases heq : o.memoryId = id
    · have hno : id ∉ distinctMemoryIds ((draft.items.filter fun it =>
          it.memoryId ∈ draft.displaceable ids).map (·.memoryId)) :=
        fun hm => hid ((hr id).mp hm)
      simp [heq, hno]
    · simp [heq]

/-! ## The displacement -/

/-- **Survivors keep their order across kinds**: one renumbering, increasing on the ranks of
all surviving items, takes each of them to its new rank and changes nothing else; the items of
an anti-pattern reservation are among them. -/
def PackDraft.Renumbers (draft after : PackDraft F) (ids : List MemoryId) : Prop :=
  ∃ newRank : ℕ → ℕ,
    (∀ r ∈ (draft.survivors ids).allRanks, ∀ r' ∈ (draft.survivors ids).allRanks,
      r < r' → newRank r < newRank r') ∧
    after.items = (draft.survivors ids).items.map (fun item =>
      item.withRank (newRank item.rank)) ∧
    after.ruleItems = draft.ruleItems.map (fun item => { item with rank := newRank item.rank }) ∧
    after.evidenceItems = draft.evidenceItems.map (fun item =>
      { item with rank := newRank item.rank }) ∧
    ∀ item ∈ draft.items, item.selectedIn = .antiPatternFirst →
      item.withRank (newRank item.rank) ∈ after.items

/-- When nothing is displaced, everybody survives. -/
theorem PackDraft.survivors_eq_self {draft : PackDraft F} {ids : List MemoryId}
    (h : ∀ id, ¬ draft.Displaced ids id) : draft.survivors ids = draft := by
  unfold survivors
  rw [List.filter_eq_self.mpr fun it _ => by simpa using h it.memoryId]

/-- What the trimmed draft has of the survivors. -/
theorem PackDraft.withoutMemories_eq_survivors (draft : PackDraft F) (ids : List MemoryId) :
    (draft.withoutMemories (draft.displaceable ids)).allRanks = (draft.survivors ids).allRanks ∧
      (draft.withoutMemories (draft.displaceable ids)).itemTokens
        = (draft.survivors ids).itemTokens ∧
      (draft.withoutMemories (draft.displaceable ids)).itemCount
        = (draft.survivors ids).itemCount := by
  have hi := draft.items_withoutMemories ids
  refine ⟨?_, ?_, ?_⟩
  · unfold allRanks
    rw [hi]
    rfl
  · unfold itemTokens
    rw [hi]
    rfl
  · unfold itemCount
    rw [hi]
    rfl

section

variable [F32 F]

/-- A displacement that finds nothing to displace changes nothing. -/
theorem PackDraft.omitMemories_eq_self {draft : PackDraft F} {ids : List MemoryId}
    (h : ∀ id, ¬ draft.Displaced ids id) : draft.omitMemoriesForNativeBudget ids = (draft, 0) := by
  unfold omitMemoriesForNativeBudget
  simp only
  rw [if_pos]
  rw [Bool.not_eq_true', List.any_eq_false]
  intro it hi hm
  rw [decide_eq_true_eq] at hm
  exact h _ ((displaced_iff ⟨it, hi, rfl⟩).mpr hm)

/-- The draft after a displacement that takes something out, field by field. -/
theorem PackDraft.omitMemories_of_displaced {draft : PackDraft F} {ids : List MemoryId}
    {id : MemoryId} (hid : draft.Displaced ids id) :
    (draft.omitMemoriesForNativeBudget ids).2
        = draft.items.length - (draft.survivors ids).items.length ∧
      ∃ au : PackSelectionAudit F, au.selectedItems = selectedItemsFromDraftItems
          (draft.withoutMemories (draft.displaceable ids)).compactRanks.items ∧
        au.steps = sortBy (fun a b => compare a.rank b.rank) (draft.selectionAudit.steps.filterMap
            (draft.withoutMemories (draft.displaceable ids)).movedStep) ∧
        (draft.omitMemoriesForNativeBudget ids).1 =
          { (draft.withoutMemories (draft.displaceable ids)).compactRanks with
            usedTokens := ((draft.withoutMemories
              (draft.displaceable ids)).compactRanks.itemTokens.foldl satAdd32 0)
            selectionAudit := refreshSelectionAuditObjectiveAfterGuard au
              (draft.withoutMemories (draft.displaceable ids)).compactRanks.items
            hash := none } := by
  obtain ⟨it, hite, hi⟩ := hid.2.1
  have ha : (draft.items.any fun it => it.memoryId ∈ draft.displaceable ids) = true := by
    rw [List.any_eq_true]
    refine ⟨it, hite, ?_⟩
    rw [decide_eq_true_eq, hi]
    exact (displaced_iff ⟨it, hite, hi⟩).mp hid
  unfold omitMemoriesForNativeBudget
  simp only [ha, Bool.not_true, Bool.false_eq_true, if_false]
  refine ⟨?_, _, rfl, rfl, rfl⟩
  rw [← items_withoutMemories]
  simp [compactRanks]

omit [F32 F] in
/-- The trimmed draft of a ranked one has distinct ranks and fits the counter. -/
theorem PackDraft.Ranked.withoutMemories {draft : PackDraft F} (h : draft.Ranked)
    (ids : List MemoryId) :
    (draft.withoutMemories (draft.displaceable ids)).allRanks.Nodup ∧
      (draft.withoutMemories (draft.displaceable ids)).itemCount ≤ u32Max := by
  have hs := draft.allRanks_survivors_sublist ids
  rw [← (draft.withoutMemories_eq_survivors ids).1] at hs
  refine ⟨hs.nodup h.nodup, ?_⟩
  rw [← length_allRanks]
  exact (hs.length_le.trans_eq draft.length_allRanks).trans h.count_le

/-- **Ranks and order** of a displacement, whatever the token count and the audit say. -/
theorem PackDraft.omitMemories_renumbers {draft : PackDraft F} (h : draft.Ranked)
    (ids : List MemoryId) :
    (draft.omitMemoriesForNativeBudget ids).1.Ranked ∧
      (draft.omitMemoriesForNativeBudget ids).1.itemCount = (draft.survivors ids).itemCount ∧
      draft.Renumbers (draft.omitMemoriesForNativeBudget ids).1 ids := by
  by_cases hn : ∀ id, ¬ draft.Displaced ids id
  · rw [omitMemories_eq_self hn, survivors_eq_self hn]
    refine ⟨h, rfl, id, ?_, ?_, ?_, ?_, ?_⟩
    · exact fun _ _ _ _ hlt => hlt
    · rw [survivors_eq_self hn]
      exact (List.map_id _).symm
    · exact (List.map_id _).symm
    · exact (List.map_id _).symm
    · exact fun it hite _ => hite
  · obtain ⟨id, hid⟩ := not_forall_not.mp hn
    obtain ⟨-, a, -, -, ha⟩ := omitMemories_of_displaced hid
    obtain ⟨hr, -, hitemCount⟩ := draft.withoutMemories_eq_survivors ids
    have hi := draft.items_withoutMemories ids
    obtain ⟨hno, hcou⟩ := h.withoutMemories ids
    rw [ha]
    generalize ht : draft.withoutMemories (draft.displaceable ids) = t at *
    have hru : t.ruleItems = draft.ruleItems := by rw [← ht]; rfl
    have he : t.evidenceItems = draft.evidenceItems := by rw [← ht]; rfl
    have hc : t.compactRanks.itemCount = t.itemCount := by
      simp [itemCount, compactRanks]
    have hcom := compactRanks_eq hcou hno
    have hco : t.compactRanks.items = t.items.map fun it => it.withRank (t.newRank it.rank) := by
      rw [hcom]
    refine ⟨⟨?_, ?_⟩, ?_, t.newRank, ?_, ?_, ?_, ?_, ?_⟩
    · change t.compactRanks.allRanks.Perm (List.range' 1 t.compactRanks.itemCount)
      rw [hc]
      exact allRanks_compactRanks_perm hcou
    · exact hc.trans_le hcou
    · exact hc.trans hitemCount
    · intro r _ r' hr' hlt
      exact t.newRank_lt_newRank hlt (hr ▸ hr')
    · rw [← hi]
      exact hco
    · rw [← hru, hcom]
    · rw [← he, hcom]
    · intro it hite hp
      have hme := mem_survivors_of_antiPatternFirst hite hp ids
      rw [← hi] at hme
      refine (congrArg (_ ∈ ·) hco).mpr ?_
      exact List.mem_map_of_mem hme

/-- The audit agrees with the selection after a displacement as well. -/
theorem PackDraft.Ranked.audited_omitMemories {draft : PackDraft F} (h : draft.Ranked)
    (hau : draft.Audited) (ids : List MemoryId) :
    (draft.omitMemoriesForNativeBudget ids).1.Audited := by
  by_cases hn : ∀ id, ¬ draft.Displaced ids id
  · rw [omitMemories_eq_self hn]
    exact hau
  · obtain ⟨id, hid⟩ := not_forall_not.mp hn
    obtain ⟨-, a, hse, hst, ha⟩ := omitMemories_of_displaced hid
    have hi := draft.items_withoutMemories ids
    obtain ⟨hno, hcou⟩ := h.withoutMemories ids
    rw [ha]
    generalize draft.withoutMemories (draft.displaceable ids) = t at *
    have hco : t.compactRanks.items = t.items.map fun it => it.withRank (t.newRank it.rank) := by
      rw [compactRanks_eq hcou hno]
    -- the steps of all items, moved, are the steps of the survivors
    have hm : (a.steps.map (·.selectedItem)).Perm
        (selectedItemsFromDraftItems t.compactRanks.items) := by
      rw [hst, hco, ← filterMap_movedItem hcou hno hi]
      · refine ((sortBy_perm _ _).map _).trans ?_
        rw [map_filterMap_movedStep]
        exact hau.steps.filterMap _
      · intro it _ other _ heq
        rw [heq]
    have hre := refresh_selectedItems a fun step hste =>
      hm.subset (List.mem_map_of_mem (f := PackSelectionStep.selectedItem) hste)
    refine ⟨hse, ?_⟩
    rw [hre]
    exact hm

/-- **Tokens and omissions** of a displacement: the count is the survivors' tokens, every
displaced memory has one omission, and the number of displaced items is returned. -/
theorem PackDraft.omitMemories_books {draft : PackDraft F}
    (hue : draft.usedTokens = draft.itemTokens.sum) (hle : draft.usedTokens ≤ u32Max)
    (ids : List MemoryId) :
    (draft.omitMemoriesForNativeBudget ids).1.itemTokens = (draft.survivors ids).itemTokens ∧
      (draft.omitMemoriesForNativeBudget ids).1.usedTokens = (draft.survivors ids).itemTokens.sum ∧
      draft.OmitsDisplaced (draft.omitMemoriesForNativeBudget ids).1 ids ∧
      (draft.omitMemoriesForNativeBudget ids).2
        = draft.items.length - (draft.survivors ids).items.length := by
  by_cases hn : ∀ id, ¬ draft.Displaced ids id
  · rw [omitMemories_eq_self hn, survivors_eq_self hn]
    exact ⟨rfl, hue, ⟨fun id hid => absurd hid (hn id), fun _ _ => rfl⟩, by simp⟩
  · obtain ⟨id, hid⟩ := not_forall_not.mp hn
    obtain ⟨hcount, a, -, -, ha⟩ := omitMemories_of_displaced hid
    obtain ⟨-, hto, -⟩ := draft.withoutMemories_eq_survivors ids
    have ho := withoutMemories_omitsDisplaced (hue ▸ hle) ids
    rw [ha]
    generalize draft.withoutMemories (draft.displaceable ids) = t at *
    have hsu : t.itemTokens.sum ≤ u32Max := by
      rw [hto]
      have hs := (draft.itemTokens_survivors_sublist ids).sum_le_sum (by simp)
      rw [← hue] at hs
      exact hs.trans hle
    have hu : t.compactRanks.itemTokens.foldl satAdd32 0 = t.itemTokens.sum := by
      rw [itemTokens_compactRanks, foldl_satAdd32 _ _ (by omega), Nat.zero_add]
    exact ⟨(itemTokens_compactRanks t).trans hto, hu.trans (congrArg List.sum hto),
      ⟨ho.displaced, ho.others⟩, hcount⟩

/-- A numbered draft stays numbered. -/
theorem PackDraft.Numbered.omitMemories {draft : PackDraft F} (h : draft.Numbered)
    (ids : List MemoryId) : (draft.omitMemoriesForNativeBudget ids).1.Numbered := by
  obtain ⟨hto, hu, -, -⟩ := omitMemories_books h.used_eq h.used_le ids
  obtain ⟨hranked, -, -⟩ := omitMemories_renumbers h.toRanked ids
  refine ⟨hranked, h.toRanked.audited_omitMemories h.toAudited ids, ?_, ?_⟩
  · rw [hu, hto]
  · have hs := (draft.itemTokens_survivors_sublist ids).sum_le_sum (by simp)
    rw [hu]
    exact hs.trans (h.used_eq ▸ h.used_le)

/-- **Displacement renumbers consistently.**  For every numbered draft and all identifiers: the
draft stays numbered (its ranks are `1, …, m` over all kinds, and the audit steps name the
surviving memories at their new ranks), the survivors keep their order across kinds, the tokens
used are the survivors' tokens, and every displaced memory has exactly one omission. -/
theorem PackDraft.displacement_renumbers {draft : PackDraft F} (h : draft.Numbered)
    (ids : List MemoryId) :
    (draft.omitMemoriesForNativeBudget ids).1.Numbered ∧
      (draft.omitMemoriesForNativeBudget ids).1.itemCount = (draft.survivors ids).itemCount ∧
      (draft.omitMemoriesForNativeBudget ids).1.usedTokens = (draft.survivors ids).itemTokens.sum ∧
      draft.Renumbers (draft.omitMemoriesForNativeBudget ids).1 ids ∧
      draft.OmitsDisplaced (draft.omitMemoriesForNativeBudget ids).1 ids ∧
      (draft.omitMemoriesForNativeBudget ids).2
        = draft.items.length - (draft.survivors ids).items.length := by
  obtain ⟨-, hcount, hrenumbers⟩ := omitMemories_renumbers h.toRanked ids
  obtain ⟨-, hused, homits, hremoved⟩ := omitMemories_books h.used_eq h.used_le ids
  exact ⟨h.omitMemories ids, hcount, hused, hrenumbers, homits, hremoved⟩

end

/-! ## A displacement between a rule and a reservation -/

/-- A memory of the sample at a rank. -/
def displacementItem (rank : ℕ) (id : Fin (2 ^ 128)) (phase : PackSelectionPhase) :
    PackDraftItem ℚ :=
  .fromSelectedCandidate rank
    (sampleCandidate id .decisions "use the nightly toolchain" 12 (8 / 10))
    [] phase

/-- The audit step of a sample memory. -/
def displacementStep (rank : ℕ) (id : Fin (2 ^ 128)) : PackSelectionStep ℚ where
  rank := rank
  memoryId := ⟨id⟩
  marginalGain := 1 / 2
  objectiveValue := 1 / 2
  tokenCost := 12
  feasible := true
  coveredFeatures := []

/-- Three memories and a rule: the memory at rank 3 is reserved, the rule stands at rank 2, and
memory 3 has an omission from an earlier variant. -/
def displacementDraft : PackDraft ℚ where
  query := "tests"
  budget := ⟨100, hundred_pos, hundred_le⟩
  usedTokens := 40
  items := [displacementItem 1 3 .strictMmr, displacementItem 3 5 .antiPatternFirst,
    displacementItem 4 7 .coverageFill]
  evidenceItems := []
  ruleItems := rankSampleNatives.rules.map fun item => { item with rank := 2 }
  omitted := [.fromCandidate (sampleCandidate 3 .decisions "use the nightly toolchain" 12 (8 / 10))
    .redundantCandidate none]
  selectionAudit :=
    { profile := .balanced
      objective := .mmrRedundancy
      algorithmId := "mmr_with_coverage_fill_v1"
      algorithmDescription := ""
      candidateCount := 3
      selectedCount := 4
      omittedCount := 1
      budgetLimit := 100
      budgetUsed := 40
      totalObjectiveValue := 1
      monotone := false
      submodular := false
      selectedItems := [⟨1, ⟨3⟩, 12, true⟩, ⟨3, ⟨5⟩, 12, true⟩, ⟨4, ⟨7⟩, 12, true⟩]
      steps := [displacementStep 1 3, displacementStep 3 5, displacementStep 4 7] }
  hash := none

theorem displacementDraft_numbered : displacementDraft.Numbered where
  ranks := by decide
  count_le := by decide
  used_eq := rfl
  used_le := by decide
  selected_eq := rfl
  steps := by decide

/-- Memories 3 and 5 are named; only the unprotected one goes, and the rule, the reservation and
the last memory move up together. -/
theorem displacement_renumbers_reserved : displacementDraft.Numbered ∧
      (displacementDraft.omitMemoriesForNativeBudget [⟨3⟩, ⟨5⟩]).1.allRanks = [2, 3, 1] ∧
      (displacementDraft.omitMemoriesForNativeBudget [⟨3⟩, ⟨5⟩]).1.Numbered ∧
      (displacementDraft.omitMemoriesForNativeBudget [⟨3⟩, ⟨5⟩]).1.usedTokens = 28 ∧
      displacementDraft.OmitsDisplaced
        (displacementDraft.omitMemoriesForNativeBudget [⟨3⟩, ⟨5⟩]).1 [⟨3⟩, ⟨5⟩] := by
  obtain ⟨hn, -, hu, -, ho, -⟩ :=
    PackDraft.displacement_renumbers displacementDraft_numbered [⟨3⟩, ⟨5⟩]
  refine ⟨displacementDraft_numbered, by decide +kernel, hn, ?_, ho⟩
  rw [hu]
  decide +kernel

/-! ## The drafts of the pipeline -/

/-- **A settled draft is numbered**: this is what both selectors assemble. -/
theorem Settled.numbered {ctx : AssemblyContext F} {inputs : List (PackCandidate F)}
    {ids : Multiset MemoryId} {draft : PackDraft F} (h : Settled ctx inputs ids draft) :
    draft.Numbered := by
  obtain ⟨hrules, hevidence⟩ := h.native_nil
  have hcount : draft.itemCount = draft.items.length := by
    simp [PackDraft.itemCount, hrules, hevidence]
  refine ⟨⟨?_, hcount.trans_le h.length_lt.le⟩, ⟨h.selected_eq, .of_eq h.steps_eq⟩, ?_, ?_⟩
  · rw [hcount, ← h.rank_eq]
    simp [PackDraft.allRanks, PackDraft.nativeRanks, hrules, hevidence]
  · rw [h.used_eq]
    simp [PackDraft.itemTokens, hrules, hevidence]
  · exact h.used_le.trans ctx.budget.le_u32Max

/-- Ranks that count the items are compact. -/
theorem PackDraft.Ranked.compact {draft : PackDraft F} (h : draft.Ranked) : draft.Compact := by
  have hmem : ∀ r ∈ draft.allRanks, 1 ≤ r ∧ r < 1 + draft.itemCount := fun r hr =>
    List.mem_range'_1.mp (h.ranks.subset hr)
  exact ⟨h.nodup, fun r hr => (hmem r hr).1, fun r hr => by have := hmem r hr; omega⟩

/-- Distinct ranks up to the count are all the ranks there are. -/
theorem PackDraft.Compact.perm {draft : PackDraft F} (h : draft.Compact) :
    draft.allRanks.Perm (List.range' 1 draft.itemCount) := by
  have hsub : draft.allRanks ⊆ List.range' 1 draft.itemCount := fun r hr => by
    have hpos := h.pos r hr
    have hle := h.le_count r hr
    exact List.mem_range'_1.mpr (by omega)
  refine (List.subperm_of_subset h.nodup hsub).perm_of_length_le ?_
  rw [List.length_range', length_allRanks]

/-- A native item is in no audit step. -/
theorem PackDraft.Audited.pushNative {draft : PackDraft F} (h : draft.Audited)
    (candidate : NativePackCandidate F) (rank : ℕ) (reserveWarning : Bool) (note : String) :
    (draft.pushNative candidate rank reserveWarning note).Audited := by
  cases candidate <;> exact ⟨h.selected_eq, h.steps⟩

/-- The audit moves down with the selection. -/
theorem PackDraft.Audited.shiftRanks {draft : PackDraft F} (h : draft.Audited) :
    draft.shiftRanks.Audited := by
  let shift (item : PackSelectedItem) : PackSelectedItem :=
    { item with rank := satAdd32 item.rank 1 }
  have hitems : selectedItemsFromDraftItems draft.shiftRanks.items
      = (selectedItemsFromDraftItems draft.items).map shift := by
    simp only [selectedItemsFromDraftItems, PackDraft.shiftRanks, List.map_map]
    rfl
  constructor
  · rw [hitems, ← h.selected_eq]
    rfl
  · rw [hitems]
    refine .trans (.of_eq ?_) (h.steps.map shift)
    simp only [PackDraft.shiftRanks, List.map_map]
    rfl

section

variable [F32 F]

/-- **A numbered draft stays numbered when a native candidate is admitted.** -/
theorem PackDraft.Numbered.admitNative {draft : PackDraft F} (h : draft.Numbered)
    (hb : draft.NativeBooks) {demand : NativeDemand F} {candidate : NativePackCandidate F}
    (htokens : demand.estimatedTokens = candidate.estimatedTokens)
    (hpos : 0 < candidate.estimatedTokens) {ids : List MemoryId}
    (hfeasible : demand.Feasible draft.budget.maxTokens draft.usedTokens draft.items ids)
    (reserveWarning : Bool) :
    (draft.admitNative candidate reserveWarning ids).NativeBooks ∧
      (draft.admitNative candidate reserveWarning ids).Numbered := by
  obtain ⟨hbooks, hcompact⟩ := admitNative_compact hb htokens hpos hfeasible
    (.inl h.toRanked.compact) reserveWarning
  refine ⟨hbooks, ⟨hcompact.perm, hbooks.itemCount_le_u32Max⟩, ?_, hbooks.used_eq,
    hbooks.used_le.trans (TokenBudget.le_u32Max _)⟩
  have hroom : (draft.makeRoom candidate.estimatedTokens ids).1.Audited := by
    have homit := (h.omitMemories ids).toAudited
    unfold makeRoom
    dsimp only
    split
    · exact homit
    · exact ⟨homit.selected_eq, homit.steps⟩
  unfold PackDraft.admitNative
  dsimp only
  split
  · exact hroom.shiftRanks.pushNative _ _ _ _
  · exact hroom.pushNative _ _ _ _

/-- **The append keeps a draft numbered**, whatever it admits and displaces. -/
theorem PackDraft.Numbered.append {draft : PackDraft F} (h : draft.Numbered)
    (hb : draft.NativeBooks) (natives : NativeCandidates F) (request : ContextRequest)
    (relevanceFloor : Option F) :
    (appendRankedNativePackItems natives.rules natives.evidence request relevanceFloor
      draft).1.Numbered := by
  have hpos := nativeOrder_tokens_pos natives request relevanceFloor draft
  unfold appendRankedNativePackItems
  dsimp only
  split
  · exact h
  generalize nativeOrder request relevanceFloor draft (rankedNatives natives.rules
    natives.evidence) = order at *
  have hrun : ∀ (candidates : List (RankedNative F)) (st : NativeState F),
      (∀ candidate ∈ candidates, 0 < candidate.2.estimatedTokens) → st.draft.NativeBooks →
      st.draft.Numbered →
      (candidates.foldl (appendNativeStep request order.1) st).draft.Numbered := by
    intro candidates
    induction candidates with
    | nil => exact fun st _ _ hst => hst
    | cons candidate rest ih =>
      intro st hpos hbooks hst
      have hrest := fun c hc => hpos c (List.mem_cons_of_mem _ hc)
      rw [List.foldl_cons]
      rcases appendNativeStep_cases request order.1 st candidate rfl with
        ⟨_, -, hd, -⟩ | ⟨-, -, hd, -⟩ | ⟨ids, -, hroom, hd, -⟩
      · exact ih _ hrest (by rwa [hd]) (by rwa [hd])
      · exact ih _ hrest (by rwa [hd]) (by rwa [hd])
      · obtain ⟨hbooks', hst'⟩ := hst.admitNative hbooks rfl (hpos candidate List.mem_cons_self)
          (NativeDemand.feasible_of_displacements hroom)
          (nativeDemand order.1 st.representedMemoryIds candidate).reserveWarning
        exact ih _ hrest (by rwa [hd]) (by rwa [hd])
  have hfinal := hrun order.2 { draft := draft } hpos hb h
  exact ⟨⟨hfinal.ranks, hfinal.count_le⟩, ⟨hfinal.selected_eq, hfinal.steps⟩, hfinal.used_eq,
    hfinal.used_le⟩

end

end Pack
