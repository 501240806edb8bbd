/-
# Native admission keeps the limits (`src/core/context.rs`, `src/pack/mod.rs`)

A round of the append loop skips its candidate, rejects it, or displaces memories and pushes it.
Here the tokens, the number of items and the memories are followed through a round, and then
through the whole loop, whatever the candidates are.
-/
import EideticEngine.PackRanks

namespace Pack

variable {F : Type}

/-! ## Books and memories of a draft -/

/-- The count of tokens is the sum over the selected items, within the budget. -/
structure PackDraft.TokensKept (draft : PackDraft F) : Prop where
  used_eq : draft.usedTokens = draft.itemTokens.sum
  used_le : draft.usedTokens ≤ draft.budget.maxTokens

/-- A selected memory without its rank. -/
def PackDraftItem.unranked (item : PackDraftItem F) : PackDraftItem F := item.withRank 0

/-- The selected memories without their ranks. -/
def PackDraft.memories (draft : PackDraft F) : List (PackDraftItem F) :=
  draft.items.map PackDraftItem.unranked

/-- The number of native items. -/
def PackDraft.nativeCount (draft : PackDraft F) : ℕ :=
  draft.ruleItems.length + draft.evidenceItems.length

theorem PackDraft.itemCount_eq (draft : PackDraft F) :
    draft.itemCount = draft.memories.length + draft.nativeCount := by
  simp [itemCount, memories, nativeCount, Nat.add_assoc]

theorem PackDraft.memories_filter (draft : PackDraft F) (p : MemoryId → Bool) :
    (draft.items.filter fun it => p it.memoryId).map PackDraftItem.unranked
      = draft.memories.filter fun it => p it.memoryId := by
  rw [memories, List.filter_map]
  rfl

theorem PackDraft.memories_shiftRanks (draft : PackDraft F) :
    draft.shiftRanks.memories = draft.memories := by
  simp only [memories, shiftRanks, List.map_map]
  rfl

theorem PackDraft.nativeCount_shiftRanks (draft : PackDraft F) :
    draft.shiftRanks.nativeCount = draft.nativeCount := by
  simp [nativeCount, shiftRanks]

/-! ## A round -/

/-- What making room for a candidate leaves: the named memories are gone, and nothing else. -/
structure RoomMade (draft room : PackDraft F) (ids : List MemoryId) : Prop where
  kept : room.TokensKept
  budget : room.budget = draft.budget
  memories : room.memories = draft.memories.filter fun item => item.memoryId ∉ ids
  natives : room.nativeCount = draft.nativeCount
  tokens : room.itemTokens.sum + (ids.map (memoryTokens draft.items)).sum = draft.itemTokens.sum

theorem roomMade_nil {draft : PackDraft F} (h : draft.TokensKept) : RoomMade draft draft [] where
  kept := h
  budget := rfl
  memories := by simp
  natives := rfl
  tokens := by simp

/-- What an admission does. -/
structure Admitted (draft draft' : PackDraft F) (ids : List MemoryId) : Prop where
  kept : draft'.TokensKept
  budget : draft'.budget = draft.budget
  memories : draft'.memories = draft.memories.filter fun item => item.memoryId ∉ ids
  natives : draft'.nativeCount = draft.nativeCount + 1

/-- Pushing a candidate that fits. -/
theorem RoomMade.pushNative {draft r : PackDraft F} {ids : List MemoryId}
    (h : RoomMade draft r ids) {candidate : NativePackCandidate F}
    (hf : r.usedTokens + candidate.estimatedTokens ≤ draft.budget.maxTokens)
    (rank : ℕ) (reserve : Bool) (n : String) :
    Admitted draft (r.pushNative candidate rank reserve n) ids := by
  obtain ⟨hi, hb, hu, ht, -⟩ := r.pushNative_spec candidate rank reserve n
  refine ⟨⟨?_, ?_⟩, hb.trans h.budget, ?_, ?_⟩
  · rw [hu, ht.sum_eq, List.sum_cons, h.kept.used_eq, Nat.add_comm]
  · rw [hu, hb, h.budget]
    exact hf
  · rw [← h.memories]
    exact congrArg (List.map PackDraftItem.unranked) hi
  · rw [← h.natives]
    cases candidate <;> simp [PackDraft.pushNative, PackDraft.nativeCount] <;> omega

theorem RoomMade.shiftRanks {draft r : PackDraft F} {ids : List MemoryId}
    (h : RoomMade draft r ids) : RoomMade draft r.shiftRanks ids where
  kept := ⟨h.kept.used_eq.trans (congrArg List.sum r.itemTokens_shiftRanks).symm, h.kept.used_le⟩
  budget := h.budget
  memories := r.memories_shiftRanks.trans h.memories
  natives := r.nativeCount_shiftRanks.trans h.natives
  tokens := by
    rw [r.itemTokens_shiftRanks]
    exact h.tokens

section

variable [F32 F]

theorem PackDraft.omitMemories_roomMade {draft : PackDraft F} (h : draft.TokensKept)
    {d : NativeDemand F} {ids : List MemoryId} (hne : ids ≠ [])
    (hf : d.Feasible draft.budget.maxTokens draft.usedTokens draft.items ids) :
    RoomMade draft (draft.omitMemoriesForNativeBudget ids).1 ids := by
  obtain ⟨id, hid⟩ := List.exists_mem_of_ne_nil ids hne
  obtain ⟨it, hitem, hi⟩ := hf.present id hid
  have ha : (draft.items.any fun it => it.memoryId ∈ ids) = true :=
    List.any_eq_true.mpr ⟨it, hitem, by simp [hi, hid]⟩
  have hs := draft.sum_itemTokens_withoutMemories hf.nodup
  have hu := h.used_eq
  have hle := h.used_le
  have hm := draft.budget.le_u32Max
  have ht : (draft.withoutMemories ids).compactRanks.itemTokens.foldl satAdd32 0
      = (draft.withoutMemories ids).compactRanks.itemTokens.sum := by
    rw [itemTokens_compactRanks, foldl_satAdd32 _ _ (by omega), Nat.zero_add]
  unfold omitMemoriesForNativeBudget
  simp only [hf.displaceable_eq, ha, Bool.not_true, Bool.false_eq_true, if_false]
  refine ⟨⟨ht, ?_⟩, rfl, ?_, ?_, ?_⟩
  · refine le_of_eq_of_le ht ?_
    rw [itemTokens_compactRanks]
    change _ ≤ draft.budget.maxTokens
    omega
  · have hite : (draft.withoutMemories ids).compactRanks.items.map PackDraftItem.unranked
        = (draft.withoutMemories ids).items.map PackDraftItem.unranked :=
      map_mapIdx_value _ fun _ _ => rfl
    exact hite.trans (draft.memories_filter fun id => id ∉ ids)
  · simp [nativeCount, compactRanks, withoutMemories]
  · change (draft.withoutMemories ids).compactRanks.itemTokens.sum + _ = _
    rw [itemTokens_compactRanks, hs]

/-- **Making room** for a candidate that a way was found for. -/
theorem PackDraft.makeRoom_roomMade {draft : PackDraft F} (h : draft.TokensKept)
    {d : NativeDemand F} {ids : List MemoryId} (estimatedTokens : ℕ)
    (hf : d.Feasible draft.budget.maxTokens draft.usedTokens draft.items ids) :
    RoomMade draft (draft.makeRoom estimatedTokens ids).1 ids := by
  by_cases hne : ids = []
  · subst hne
    rw [makeRoom_nil]
    exact roomMade_nil h
  · have hr := omitMemories_roomMade h hne hf
    unfold makeRoom
    simp only
    split
    · exact hr
    · -- relabelling omissions touches no selected item
      exact ⟨⟨hr.kept.used_eq, hr.kept.used_le⟩, hr.budget, hr.memories, hr.natives, hr.tokens⟩

/-- **An admission** takes the named memories out, and nothing else, and keeps to the budget. -/
theorem PackDraft.admitNative_admitted {draft : PackDraft F} (h : draft.TokensKept)
    {d : NativeDemand F} {candidate : NativePackCandidate F}
    (ht : d.estimatedTokens = candidate.estimatedTokens) {ids : List MemoryId}
    (hf : d.Feasible draft.budget.maxTokens draft.usedTokens draft.items ids)
    (reserve : Bool) :
    Admitted draft (draft.admitNative candidate reserve ids) ids := by
  have hr := makeRoom_roomMade h candidate.estimatedTokens hf
  have hfi : (draft.makeRoom candidate.estimatedTokens ids).1.usedTokens
      + candidate.estimatedTokens ≤ draft.budget.maxTokens := by
    have hn := hf.fits
    rw [ht, h.used_eq, ← hr.tokens] at hn
    rw [hr.kept.used_eq]
    omega
  unfold admitNative
  simp only
  split
  · exact hr.shiftRanks.pushNative hfi _ _ _
  · exact hr.pushNative hfi _ _ _

/-- **The result limit**: a displacement frees a place for the candidate. -/
theorem Admitted.itemCount_le {draft d' : PackDraft F} {ids : List MemoryId}
    (h : Admitted draft d' ids) {d : NativeDemand F} {r : ContextRequest}
    (hi : nativePackMemoryDisplacements d r draft = some ids) {li : ℕ}
    (hl : r.maxResults = some li) (hl32 : li ≤ u32Max)
    (hle : draft.itemCount ≤ li) : d'.itemCount ≤ li := by
  obtain ⟨t, hpr, rfl, -, hc⟩ := NativeDemand.displacements_taken hi
  have hn : (t.map Prod.fst).Nodup :=
    (hpr.sublist.map Prod.fst).nodup (d.nodup_evictionOrder draft.items)
  -- the groups hold no more items than the displaced memories have
  have hh : (t.map fun g => g.2.itemCount).sum
      ≤ (draft.items.filter fun it => it.memoryId ∈ t.map Prod.fst).length := by
    have hp := sum_per_memory (fun _ => 1) draft.items hn
    simp only [List.map_const', List.sum_replicate, smul_eq_mul, mul_one] at hp
    rw [← hp, List.map_map]
    exact List.sum_le_sum fun g hg => NativeDemand.itemCount_le_of_mem (hpr.subset hg)
  have hsp := List.length_eq_length_filter_add (l := draft.items)
    (fun it => decide (it.memoryId ∈ t.map Prod.fst))
  have hr : d'.memories.length
      = (draft.items.filter fun it => !decide (it.memoryId ∈ t.map Prod.fst)).length := by
    rw [h.memories, ← draft.memories_filter fun id => id ∉ t.map Prod.fst, List.length_map]
    simp only [decide_not]
  have hb := draft.itemCount_eq
  have hlen : draft.memories.length = draft.items.length := List.length_map ..
  have hs : draft.itemCount ≤ u32Max := hle.trans hl32
  have hsa : satAdd64 draft.selectedItemCount 1 = draft.itemCount + 1 := by
    rw [PackDraft.selectedItemCount_of_le hs]
    exact Nat.min_eq_left (Nat.succ_le_of_lt (lt_of_le_of_lt hs (by decide)))
  rw [hsa, hl, Option.getD_some] at hc
  rw [d'.itemCount_eq, h.natives, hr]
  omega

/-! ## The loop -/

/-- A candidate makes a memory give way in its round: room is found by displacing it, and the
candidate outranks it or is the reserved warning. -/
structure Displaces (request : ContextRequest) (reservedEntity : Option ContextPackEntityKey)
    (st : NativeState F) (candidate : RankedNative F) (item : PackDraftItem F) : Prop where
  named : ∃ ids, nativePackMemoryDisplacements
      (nativeDemand reservedEntity st.representedMemoryIds candidate) request st.draft = some ids ∧
    item.memoryId ∈ ids
  stronger : reservedEntity = some candidate.1.entity ∨
    compareContextPackPriority candidate.1 item.priority = .lt

/-- **A round** leaves the draft alone or admits its candidate. -/
theorem appendNativeStep_round (r : ContextRequest)
    (re : Option ContextPackEntityKey) {st : NativeState F} (h : st.draft.TokensKept)
    (candidate : RankedNative F) :
    (appendNativeStep r re st candidate).draft = st.draft ∨ ∃ ids, nativePackMemoryDisplacements
          (nativeDemand re st.representedMemoryIds candidate) r st.draft = some ids ∧
        Admitted st.draft (appendNativeStep r re st candidate).draft ids := by
  rcases appendNativeStep_cases r re st candidate rfl with
    ⟨-, -, hs, -⟩ | ⟨-, -, hs, -⟩ | ⟨ids, -, hi, ha, -⟩
  · exact .inl hs
  · exact .inl hs
  · refine .inr ⟨ids, hi, ?_⟩
    rw [ha]
    exact PackDraft.admitNative_admitted h rfl (NativeDemand.feasible_of_displacements hi) _

/-- Whatever a round displaces was free to go. -/
theorem displaces_of_named {r : ContextRequest}
    {re : Option ContextPackEntityKey} {st : NativeState F}
    {candidate : RankedNative F} {ids : List MemoryId}
    (hi : nativePackMemoryDisplacements
      (nativeDemand re st.representedMemoryIds candidate) r st.draft = some ids)
    {it : PackDraftItem F} (hite : it ∈ st.draft.memories) (hid : it.memoryId ∈ ids) :
    it.selectedIn ≠ .antiPatternFirst ∧ Displaces r re st candidate it := by
  obtain ⟨ra, hr, rfl⟩ := List.mem_map.mp hite
  have hm := (NativeDemand.feasible_of_displacements hi).mayDisplace _ hid ra hr rfl
  simp only [NativeDemand.mayDisplace, nativeDemand, Bool.and_eq_true, decide_eq_true_eq,
    Bool.or_eq_true, beq_iff_eq] at hm
  obtain ⟨⟨-, hp⟩, hs⟩ := hm
  exact ⟨hp, ⟨ids, hi, hid⟩, hs⟩

/-- What the loop over some candidates keeps. -/
structure LoopKept (request : ContextRequest) (reservedEntity : Option ContextPackEntityKey)
    (candidates : List (RankedNative F)) (st st' : NativeState F) : Prop where
  kept : st'.draft.TokensKept
  budget : st'.draft.budget = st.draft.budget
  count : ∀ limit, request.maxResults = some limit → limit ≤ u32Max →
    st.draft.itemCount ≤ limit → st'.draft.itemCount ≤ limit
  memories : ∃ displaced : List MemoryId,
    st'.draft.memories = (st.draft.memories.filter fun item => item.memoryId ∉ displaced) ∧
    ∀ item ∈ st.draft.memories, item.memoryId ∈ displaced →
      item.selectedIn ≠ .antiPatternFirst ∧
      ∃ before : List (RankedNative F), ∃ candidate after,
        candidates = before ++ candidate :: after ∧
        Displaces request reservedEntity
          (before.foldl (appendNativeStep request reservedEntity) st) candidate item

/-- **The loop keeps the limits**, by induction over the candidates. -/
theorem foldl_appendNativeStep_kept (r : ContextRequest) (re : Option ContextPackEntityKey) :
    ∀ (cs : List (RankedNative F)) {st : NativeState F}, st.draft.TokensKept → LoopKept r re cs st
        (cs.foldl (appendNativeStep r re) st) := by
  intro cs
  induction cs with
  | nil =>
    intro st h
    exact ⟨h, rfl, fun _ _ _ hle => hle, [], by simp, by simp⟩
  | cons candidate cs ih =>
    intro st h
    rw [List.foldl_cons]
    generalize h' : appendNativeStep r re st candidate = st'
    -- a memory that goes later is displaced in a later round
    have hl : ∀ {it : PackDraftItem F}, (∃ b : List (RankedNative F), ∃ l after,
          cs = b ++ l :: after ∧ Displaces r re (b.foldl (appendNativeStep r re) st') l it) →
        ∃ b : List (RankedNative F), ∃ l after,
          candidate :: cs = b ++ l :: after ∧ Displaces r re
            (b.foldl (appendNativeStep r re) st) l it := by
      rintro it ⟨b, l, after, rfl, hd⟩
      refine ⟨candidate :: b, l, after, rfl, ?_⟩
      rw [List.foldl_cons, h']
      exact hd
    rcases appendNativeStep_round r re h candidate with
      hs | ⟨ids, hids, ha⟩
    · rw [h'] at hs
      obtain ⟨hk, hb, hc, displaced, hm, hw⟩ := ih (hs ▸ h)
      rw [hs] at hb hc hm hw
      refine ⟨hk, hb, hc, displaced, hm, ?_⟩
      intro it hi hid
      obtain ⟨hp, hr⟩ := hw it hi hid
      exact ⟨hp, hl hr⟩
    · rw [h'] at ha
      obtain ⟨hk, hb, hc, displaced, hm, hw⟩ := ih ha.kept
      refine ⟨hk, hb.trans ha.budget, ?_, ids ++ displaced, ?_, ?_⟩
      · intro li hli hl32 hle
        exact hc li hli hl32 (ha.itemCount_le hids hli hl32 hle)
      · rw [hm, ha.memories, List.filter_filter]
        apply List.filter_congr
        intro it _
        by_cases h₁ : it.memoryId ∈ ids <;> by_cases h₂ : it.memoryId ∈ displaced <;>
          simp [h₁, h₂]
      · intro it hi hid
        by_cases hn : it.memoryId ∈ ids
        · obtain ⟨hp, hd⟩ := displaces_of_named hids hi hn
          exact ⟨hp, [], candidate, cs, rfl, hd⟩
        · have hst : it ∈ st'.draft.memories := by
            rw [ha.memories]
            exact List.mem_filter.mpr ⟨hi, decide_eq_true hn⟩
          obtain ⟨hp, hr⟩ := hw it hst ((List.mem_append.mp hid).resolve_left hn)
          exact ⟨hp, hl hr⟩

/-! ## The whole append -/

/-- The state of the loop after some of the candidates. -/
def nativeRun (request : ContextRequest) (reservedEntity : Option ContextPackEntityKey)
    (draft : PackDraft F) (candidates : List (RankedNative F)) : NativeState F :=
  candidates.foldl (appendNativeStep request reservedEntity) { draft := draft }

/-- What native admission promises about a draft. -/
structure NativeLimitsKept (rules : List (PackRuleItem F))
    (evidence : List (DirectEvidencePackCandidate F)) (request : ContextRequest)
    (relevanceFloor : Option F) (draft final : PackDraft F) : Prop where
  /-- The tokens used are the sum over memory, rule and evidence items. -/
  used_eq : final.usedTokens = final.itemTokens.sum
  /-- They are within the budget, which stays what it was. -/
  used_le : final.usedTokens ≤ final.budget.maxTokens
  budget : final.budget = draft.budget
  /-- The result limit is not exceeded if it was not before. -/
  count_le : ∀ limit, request.maxResults = some limit → draft.itemCount ≤ limit →
    final.itemCount ≤ limit
  /-- The memories left are those of the draft, but for the displaced ones. -/
  memories : final.memories.Sublist draft.memories
  /-- An anti-pattern-first memory stays. -/
  antiPattern : ∀ item ∈ draft.memories, item.selectedIn = .antiPatternFirst →
    item ∈ final.memories
  /-- A memory goes only in the round of a candidate that outranks it or is the reserved
  warning. -/
  displaced : ∀ item ∈ draft.memories, item ∉ final.memories →
    ∃ before candidate after,
      (nativeOrder request relevanceFloor draft (rankedNatives rules evidence)).2
        = before ++ candidate :: after ∧
      Displaces request
        (nativeOrder request relevanceFloor draft (rankedNatives rules evidence)).1
        (nativeRun request
          (nativeOrder request relevanceFloor draft (rankedNatives rules evidence)).1 draft before)
        candidate item
  /-- A round that adds no native item leaves the draft as it was. -/
  unadmitted : ∀ before candidate after,
    (nativeOrder request relevanceFloor draft (rankedNatives rules evidence)).2
      = before ++ candidate :: after →
    let reserved := (nativeOrder request relevanceFloor draft (rankedNatives rules evidence)).1
    (nativeRun request reserved draft (before ++ [candidate])).draft.nativeCount
      = (nativeRun request reserved draft before).draft.nativeCount →
    (nativeRun request reserved draft (before ++ [candidate])).draft
      = (nativeRun request reserved draft before).draft

/-- The append returns the selection of its loop. -/
theorem appendRankedNativePackItems_selection (rs : List (PackRuleItem F))
    (ev : List (DirectEvidencePackCandidate F)) (r : ContextRequest)
    (floor : Option F) (draft : PackDraft F) :
    let o := nativeOrder r floor draft (rankedNatives rs ev)
    let f := (appendRankedNativePackItems rs ev r floor draft).1
    let l := (nativeRun r o.1 draft o.2).draft
    f.items = l.items ∧ f.ruleItems = l.ruleItems ∧
      f.evidenceItems = l.evidenceItems ∧ f.usedTokens = l.usedTokens ∧
      f.budget = l.budget := by
  intro o f l
  by_cases he : (rankedNatives rs ev).isEmpty = true
  · have hf : f = draft := by
      show (appendRankedNativePackItems rs ev r floor draft).1 = draft
      unfold appendRankedNativePackItems
      rw [if_pos he]
    have ho : o.2 = [] := by
      have hp := nativeOrder_perm r floor draft (rankedNatives rs ev)
      rw [List.isEmpty_iff.mp he] at hp
      show (nativeOrder r floor draft (rankedNatives rs ev)).2 = []
      rw [List.isEmpty_iff.mp he]
      exact hp.eq_nil
    have hl : l = draft := by
      show (nativeRun r o.1 draft o.2).draft = draft
      rw [ho]
      rfl
    rw [hf, hl]
    exact ⟨rfl, rfl, rfl, rfl, rfl⟩
  · have hf : f.items = l.items ∧ f.ruleItems = l.ruleItems ∧
        f.evidenceItems = l.evidenceItems ∧ f.usedTokens = l.usedTokens ∧
        f.budget = l.budget := by
      simp only [f, appendRankedNativePackItems]
      rw [if_neg he]
      exact ⟨rfl, rfl, rfl, rfl, rfl⟩
    exact hf

/-- **Native admission never breaks the limits of a pack**, for any draft with its tokens in
order, any native candidates and any result limit. -/
theorem append_native_keeps_limits (rules : List (PackRuleItem F))
    (evidence : List (DirectEvidencePackCandidate F)) (request : ContextRequest)
    (relevanceFloor : Option F) (draft : PackDraft F)
    (hlimit : ∀ limit ∈ request.maxResults, limit ≤ u32Max)
    (hused : draft.usedTokens = draft.itemTokens.sum)
    (hle : draft.usedTokens ≤ draft.budget.maxTokens) :
    NativeLimitsKept rules evidence request relevanceFloor draft
      (appendRankedNativePackItems rules evidence request relevanceFloor draft).1 := by
  obtain ⟨hite, hr, he, hfin, hfi⟩ :=
    appendRankedNativePackItems_selection rules evidence request relevanceFloor draft
  generalize (appendRankedNativePackItems rules evidence request relevanceFloor draft).1 = f at *
  generalize ho : nativeOrder request relevanceFloor draft (rankedNatives rules evidence)
    = order at *
  have hs : ({ draft := draft } : NativeState F).draft.TokensKept := ⟨hused, hle⟩
  obtain ⟨hk, hbu, hc, displaced, hm, hw⟩ := foldl_appendNativeStep_kept request order.1 order.2 hs
  have hf : f.memories = draft.memories.filter fun it => it.memoryId ∉ displaced := by
    rw [← hm]
    exact congrArg (List.map PackDraftItem.unranked) hite
  have hfinalTokens : f.itemTokens
      = (nativeRun request order.1 draft order.2).draft.itemTokens := by
    unfold PackDraft.itemTokens
    rw [hite, hr, he]
  have hg : ∀ it ∈ draft.memories, it ∉ f.memories → it.memoryId ∈ displaced := by
    intro it hi hn
    by_contra hstays
    rw [hf] at hn
    exact hn (List.mem_filter.mpr ⟨hi, decide_eq_true hstays⟩)
  refine ⟨?_, ?_, hfi.trans hbu, ?_, ?_, ?_, ?_, ?_⟩
  · rw [hfin, hfinalTokens]
    exact hk.used_eq
  · rw [hfin, hfi]
    exact hk.used_le
  · intro limit hma hb
    have hfinalCount : f.itemCount = (nativeRun request order.1 draft order.2).draft.itemCount := by
      unfold PackDraft.itemCount
      rw [hite, hr, he]
    rw [hfinalCount]
    exact hc limit hma (hlimit limit hma) hb
  · rw [hf]
    exact List.filter_sublist
  · intro it hi hp
    by_contra hn
    exact (hw it hi (hg it hi hn)).1 hp
  · intro it hi hn
    rw [ho]
    exact (hw it hi (hg it hi hn)).2
  · intro b candidate after hsp
    rw [ho]
    intro reserved hno
    have hro := appendNativeStep_round request reserved
      (foldl_appendNativeStep_kept request reserved b hs).kept candidate
    simp only [nativeRun, List.foldl_append, List.foldl_cons, List.foldl_nil] at hno ⊢
    rcases hro with hsa | ⟨ids, -, ha⟩
    · exact hsa
    · have hgr := ha.natives
      omega

end

/-- A rule that outranks every memory. -/
def admissionSampleRule : PackRuleItem ℚ where
  rank := 0
  ruleId := "rule_1"
  entityRevision := "blake3:00"
  packSection := .proceduralRules
  content := "format before commit"
  estimatedTokens := 4
  relevance := 1
  utility := 1 / 2
  provenance := []
  why := "matches the query"
  trust := ⟨.agentAssertion, some "procedural_rule"⟩

/-- The three memories fill the result limit; the rule takes the place of the weakest. -/
theorem append_native_keeps_limits_full :
    ∃ draft, assembleDraftWithProfileAndOptionsSeeded sampleContext true "tests"
        rankSampleCandidates = .ok draft ∧
      (appendRankedNativePackItems [admissionSampleRule] [] ⟨.balanced, some 3⟩ none
        draft).1.memories.length = 2 ∧
      NativeLimitsKept [admissionSampleRule] [] ⟨.balanced, some 3⟩ none draft
        (appendRankedNativePackItems [admissionSampleRule] [] ⟨.balanced, some 3⟩ none
          draft).1 := by
  have hf : (assembleDraftWithProfileAndOptionsSeeded sampleContext true "tests"
      rankSampleCandidates).toOption.map (fun draft =>
        (decide (draft.usedTokens = draft.itemTokens.sum),
          decide (draft.usedTokens ≤ draft.budget.maxTokens),
          (appendRankedNativePackItems [admissionSampleRule] [] ⟨.balanced, some 3⟩ none
            draft).1.memories.length)) = some (true, true, 2) := by
    decide +kernel
  cases hr : assembleDraftWithProfileAndOptionsSeeded sampleContext true "tests"
      rankSampleCandidates with
  | error e =>
    rw [hr] at hf
    cases hf
  | ok draft =>
    rw [hr] at hf
    simp only [Except.toOption, Option.map_some, Option.some.injEq, Prod.mk.injEq,
      decide_eq_true_eq] at hf
    obtain ⟨hu, hle, hl⟩ := hf
    refine ⟨draft, rfl, hl, append_native_keeps_limits _ _ _ _ _ ?_ hu hle⟩
    rintro l ⟨⟩
    decide

end Pack
