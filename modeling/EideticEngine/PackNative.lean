/-
# Native rule and evidence items (`src/core/context.rs`, `src/pack/mod.rs`)

After the guard, procedural rules and imported evidence join the pack under their
own identities.  A native candidate that does not fit may displace weaker memories;
a displacement renumbers the whole selection.  One native warning may be reserved:
it takes rank 1 and moves everything else down.  Any other native item is numbered
from the current count.
-/
import EideticEngine.PackAssembly
import EideticEngine.PackGuard

namespace Pack

open StableSort (sortBy sortBy_perm)

variable {F : Type}

/-! ## Displacing memories -/

/-- The keys of a `BTreeMap<MemoryId, _>` that was filled from a list. -/
def distinctMemoryIds (ids : List MemoryId) : List MemoryId :=
  (sortBy TypedId.cmp ids).dedup

/-- The omission of a displaced memory, with the tokens of all its items. -/
def displacedOmission (items : List (PackDraftItem F)) : Option (PackOmission F) :=
  match items with
  | [] => none
  | first :: rest =>
    some
      { memoryId := first.memoryId
        estimatedTokens :=
          rest.foldl (fun tokens item => satAdd32 tokens item.estimatedTokens) first.estimatedTokens
        relevance := first.relevance
        utility := first.utility
        reason := .tokenBudgetExceeded
        rejectedAt := .selection
        feasible := false
        couldFitWithBudget := none }

/-- The place of a selected item in the draft. -/
inductive RankSlot where
  | memory (i : ℕ)
  | rule (i : ℕ)
  | evidence (i : ℕ)
  deriving DecidableEq, Repr

/-- Every selected item with its rank: memories, then rules, then evidence. -/
def PackDraft.rankSlots (draft : PackDraft F) : List (ℕ × RankSlot) :=
  draft.items.mapIdx (fun i item => (item.rank, RankSlot.memory i))
    ++ draft.ruleItems.mapIdx (fun i item => (item.rank, RankSlot.rule i))
    ++ draft.evidenceItems.mapIdx (fun i item => (item.rank, RankSlot.evidence i))

/-- The places in rank order; equal ranks keep the order of `rankSlots`. -/
def PackDraft.slotOrder (draft : PackDraft F) : List RankSlot :=
  (sortBy (fun a b => compare a.1 b.1) draft.rankSlots).map Prod.snd

/-- The rank of a place in the compacted order. -/
def PackDraft.compactRank (draft : PackDraft F) (slot : RankSlot) : ℕ :=
  min (draft.slotOrder.idxOf slot + 1) u32Max

/-- The draft with the complete order compacted. -/
def PackDraft.compactRanks (draft : PackDraft F) : PackDraft F :=
  { draft with
    items := draft.items.mapIdx fun i item =>
      { item with rank := draft.compactRank (.memory i) }
    ruleItems := draft.ruleItems.mapIdx fun i item =>
      { item with rank := draft.compactRank (.rule i) }
    evidenceItems := draft.evidenceItems.mapIdx fun i item =>
      { item with rank := draft.compactRank (.evidence i) } }

/-- `memory_ranks.get(&(memory_id, old_rank))`: of several memories under one key the
last in rank order counts. -/
def PackDraft.compactMemoryRank (draft : PackDraft F) (memoryId : MemoryId) (oldRank : ℕ) :
    Option ℕ :=
  draft.slotOrder.reverse.findSome? fun slot =>
    match slot with
    | .memory i =>
      (draft.items[i]?).bind fun item =>
        if item.memoryId = memoryId ∧ item.rank = oldRank then some (draft.compactRank slot)
        else none
    | .rule _ | .evidence _ => none

/-- The identifiers that may really be displaced: an anti-pattern reservation
protects its memory. -/
def PackDraft.displaceable (draft : PackDraft F) (memoryIds : List MemoryId) : List MemoryId :=
  memoryIds.filter fun id =>
    !draft.items.any fun item => item.selectedIn = .antiPatternFirst ∧ item.memoryId = id

/-- The draft without the displaced memories, before the ranks are compacted. -/
def PackDraft.withoutMemories (draft : PackDraft F) (omittedIds : List MemoryId) : PackDraft F :=
  let removed := draft.items.filter fun item => item.memoryId ∈ omittedIds
  let removedIds := distinctMemoryIds (removed.map (·.memoryId))
  { draft with
    items := draft.items.filter fun item => item.memoryId ∉ omittedIds
    omitted := (draft.omitted.filter fun omission => omission.memoryId ∉ removedIds)
      ++ removedIds.filterMap fun id =>
        displacedOmission (removed.filter fun item => item.memoryId = id) }

/-- `PackDraft::omit_memories_for_native_budget`, with the count it returns. -/
def PackDraft.omitMemoriesForNativeBudget [F32 F] (draft : PackDraft F)
    (memoryIds : List MemoryId) : PackDraft F × ℕ :=
  let omittedIds := draft.displaceable memoryIds
  if !draft.items.any fun item => item.memoryId ∈ omittedIds then (draft, 0)
  else
    let trimmed := draft.withoutMemories omittedIds
    let ranked := trimmed.compactRanks
    let usedTokens := ranked.itemTokens.foldl satAdd32 0
    let steps := trimmed.selectionAudit.steps.filterMap fun step =>
      (trimmed.compactMemoryRank step.memoryId step.rank).map fun rank => { step with rank := rank }
    ({ ranked with
      usedTokens := usedTokens
      selectionAudit := refreshSelectionAuditObjectiveAfterGuard
        { trimmed.selectionAudit with
          selectedCount := ranked.selectedItemCount
          omittedCount := ranked.omitted.length
          budgetUsed := usedTokens
          selectedItems := selectedItemsFromDraftItems ranked.items
          steps := sortBy (fun a b => compare a.rank b.rank) steps } ranked.items
      hash := none },
    draft.items.length - ranked.items.length)

/-! ## Priorities -/

/-- `ContextPackEntityKey`. -/
inductive ContextPackEntityKey where
  | memory (id : MemoryId)
  | rule (id : String)
  | evidence (id : String)
  deriving DecidableEq

/-- The derived `Ord`: by kind, then by identifier. -/
def ContextPackEntityKey.cmp : ContextPackEntityKey → ContextPackEntityKey → Ordering
  | .memory a, .memory b => a.cmp b
  | .memory _, _ => .lt
  | .rule _, .memory _ => .gt
  | .rule a, .rule b => compare a b
  | .rule _, .evidence _ => .lt
  | .evidence a, .evidence b => compare a b
  | .evidence _, _ => .gt

/-- `ContextPackPriority`. -/
structure ContextPackPriority (F : Type) where
  relevance : F
  utility : F
  entity : ContextPackEntityKey

/-- `DirectEvidencePackCandidate`, as far as admission reads it. -/
structure DirectEvidencePackCandidate (F : Type) where
  item : PackEvidenceItem F
  linkedMemoryId : Option String

/-- `NativePackCandidate`. -/
inductive NativePackCandidate (F : Type) where
  | rule (item : PackRuleItem F)
  | evidence (candidate : DirectEvidencePackCandidate F)

namespace NativePackCandidate

/-- `NativePackCandidate::priority`. -/
def priority : NativePackCandidate F → ContextPackPriority F
  | rule item => ⟨item.relevance, item.utility, .rule item.ruleId⟩
  | evidence candidate =>
    ⟨candidate.item.relevance, candidate.item.utility, .evidence candidate.item.evidenceId⟩

/-- `NativePackCandidate::estimated_tokens`. -/
def estimatedTokens : NativePackCandidate F → ℕ
  | rule item => item.estimatedTokens
  | evidence candidate => candidate.item.estimatedTokens

end NativePackCandidate

/-- `ContextRequest`, as far as admission reads it. -/
structure ContextRequest where
  profile : ContextPackProfile
  maxResults : Option ℕ

/-- `NativePackEvictionGroup`. -/
structure NativePackEvictionGroup (F : Type) where
  priority : ContextPackPriority F
  estimatedTokens : ℕ
  itemCount : ℕ
  eligible : Bool

/-- The priority of a selected memory. -/
def PackDraftItem.priority (item : PackDraftItem F) : ContextPackPriority F :=
  ⟨item.relevance, item.utility, .memory item.memoryId⟩

/-- The tokens of all items of a memory. -/
def memoryTokens (items : List (PackDraftItem F)) (id : MemoryId) : ℕ :=
  ((items.filter fun item => item.memoryId = id).map (·.estimatedTokens)).sum

/-- Displace groups in order until both limits hold. -/
def displaceUntilFits (budget resultLimit : ℕ) :
    ℕ → ℕ → List MemoryId → List (MemoryId × NativePackEvictionGroup F) → Option (List MemoryId)
  | _, _, _, [] => none
  | nextTokens, nextCount, displaced, (memoryId, group) :: groups =>
    let nextTokens := nextTokens - group.estimatedTokens
    let nextCount := nextCount - group.itemCount
    let displaced := displaced ++ [memoryId]
    if nextTokens ≤ budget ∧ nextCount ≤ resultLimit then some displaced
    else displaceUntilFits budget resultLimit nextTokens nextCount displaced groups

/-- A displacement takes a first part of the groups, and with them at least what is missing. -/
theorem displaceUntilFits_taken {b rl : ℕ} :
    ∀ {gs : List (MemoryId × NativePackEvictionGroup F)} {nts nc : ℕ} {displaced r : List MemoryId},
      displaceUntilFits b rl nts nc displaced gs = some r →
      ∃ t, t <+: gs ∧ t ≠ [] ∧ r = displaced ++ t.map Prod.fst ∧
        nts ≤ b + (t.map fun g => g.2.estimatedTokens).sum ∧
        nc ≤ rl + (t.map fun g => g.2.itemCount).sum := by
  intro gs
  induction gs with
  | nil => intro _ _ _ _ h; cases h
  | cons g gs ih =>
    obtain ⟨id, gr⟩ := g
    intro nts nc displaced r h
    simp only [displaceUntilFits] at h
    split at h
    · rename_i hf
      cases h
      refine ⟨[(id, gr)], by simp, by simp, rfl, ?_, ?_⟩
      · simp only [List.map_cons, List.map_nil, List.sum_cons, List.sum_nil]
        omega
      · simp only [List.map_cons, List.map_nil, List.sum_cons, List.sum_nil]
        omega
    · obtain ⟨t, hp, -, rfl, ht, hc⟩ := ih h
      refine ⟨(id, gr) :: t, by simpa using hp, by simp, by simp, ?_, ?_⟩
      · simp only [List.map_cons, List.sum_cons]
        omega
      · simp only [List.map_cons, List.sum_cons]
        omega

section Native

variable [F32 F]

/-- `compare_context_pack_priority`. -/
def compareContextPackPriority (left right : ContextPackPriority F) : Ordering :=
  (F32.totalCmp right.relevance left.relevance).then
    ((F32.totalCmp right.utility left.utility).then (left.entity.cmp right.entity))

/-! ## Who would have to give way -/

/-- The candidate that asks for room, and what it may take it from. -/
structure NativeDemand (F : Type) where
  priority : ContextPackPriority F
  estimatedTokens : ℕ
  representedMemoryIds : List MemoryId
  reserveWarning : Bool

/-- Whether one item of a memory lets the memory be displaced. -/
def NativeDemand.mayDisplace (demand : NativeDemand F) (item : PackDraftItem F) : Bool :=
  decide (item.memoryId ∉ demand.representedMemoryIds)
    && decide (item.selectedIn ≠ .antiPatternFirst)
    && (demand.reserveWarning || compareContextPackPriority demand.priority item.priority == .lt)

/-- One more item of a memory joins its group. -/
def NativeDemand.joinGroup (demand : NativeDemand F) (group : NativePackEvictionGroup F)
    (item : PackDraftItem F) : NativePackEvictionGroup F where
  priority :=
    if compareContextPackPriority item.priority group.priority = .lt then item.priority
    else group.priority
  estimatedTokens := satAdd64 group.estimatedTokens item.estimatedTokens
  itemCount := satAdd64 group.itemCount 1
  eligible := group.eligible && demand.mayDisplace item

/-- The eviction group of a memory that has items. -/
def NativeDemand.evictionGroup (demand : NativeDemand F) (items : List (PackDraftItem F)) :
    Option (NativePackEvictionGroup F) :=
  match items with
  | [] => none
  | first :: _ => some (items.foldl demand.joinGroup ⟨first.priority, 0, 0, true⟩)

/-- The eligible groups, weakest first. -/
def NativeDemand.evictionOrder (demand : NativeDemand F) (items : List (PackDraftItem F)) :
    List (MemoryId × NativePackEvictionGroup F) :=
  let groups := (distinctMemoryIds (items.map (·.memoryId))).filterMap fun id =>
    (demand.evictionGroup (items.filter fun item => item.memoryId = id)).map fun group =>
      (id, group)
  sortBy (fun left right => compareContextPackPriority right.2.priority left.2.priority)
    (groups.filter fun group => group.2.eligible)

/-- `native_pack_memory_displacements`, on what it reads of the draft: the budget,
the tokens used, the number of selected items and the memories. -/
def NativeDemand.displacements (demand : NativeDemand F) (request : ContextRequest)
    (budget usedTokens selectedItemCount : ℕ) (items : List (PackDraftItem F)) :
    Option (List MemoryId) :=
  let nextTokens := usedTokens + demand.estimatedTokens
  let nextCount := satAdd64 selectedItemCount 1
  let resultLimit := request.maxResults.getD u64Max
  if nextTokens ≤ budget ∧ nextCount ≤ resultLimit then some []
  else if demand.estimatedTokens > budget ∨ resultLimit = 0 then none
  else displaceUntilFits budget resultLimit nextTokens nextCount [] (demand.evictionOrder items)

/-- `native_pack_memory_displacements`. -/
def nativePackMemoryDisplacements (demand : NativeDemand F) (request : ContextRequest)
    (draft : PackDraft F) : Option (List MemoryId) :=
  demand.displacements request draft.budget.maxTokens draft.usedTokens draft.selectedItemCount
    draft.items

/-- A group never claims more tokens than the items it was built from have, nor more items, and
it is eligible only when all of them may go. -/
theorem NativeDemand.foldl_joinGroup (d : NativeDemand F) (items : List (PackDraftItem F))
    (gr : NativePackEvictionGroup F) :
    (items.foldl d.joinGroup gr).estimatedTokens
        ≤ gr.estimatedTokens + (items.map (·.estimatedTokens)).sum ∧
      (items.foldl d.joinGroup gr).itemCount ≤ gr.itemCount + items.length ∧
      ((items.foldl d.joinGroup gr).eligible = true → ∀ it ∈ items, d.mayDisplace it = true) := by
  induction items generalizing gr with
  | nil => simp
  | cons it items ih =>
    obtain ⟨ht, hc, he⟩ := ih (d.joinGroup gr it)
    have hjo : (d.joinGroup gr it).estimatedTokens
        ≤ gr.estimatedTokens + it.estimatedTokens := Nat.min_le_left _ _
    have hj : (d.joinGroup gr it).itemCount ≤ gr.itemCount + 1 := Nat.min_le_left _ _
    have hk : ∀ (r : List (PackDraftItem F)) (g : NativePackEvictionGroup F),
        (r.foldl d.joinGroup g).eligible = true → g.eligible = true := by
      intro r
      induction r with
      | nil => intro g h; exact h
      | cons next r ihr =>
        intro g h
        have hg := ihr _ h
        simp only [NativeDemand.joinGroup, Bool.and_eq_true] at hg
        exact hg.1
    refine ⟨?_, ?_, ?_⟩
    · simp only [List.foldl_cons, List.map_cons, List.sum_cons]
      omega
    · simp only [List.foldl_cons, List.length_cons]
      omega
    · intro h next hn
      rcases List.mem_cons.mp hn with rfl | hn
      · have hg := hk items _ h
        simp only [NativeDemand.joinGroup, Bool.and_eq_true] at hg
        exact hg.2
      · exact he h next hn

/-- What an entry of the eviction order says about its memory. -/
structure NativeDemand.Evictable (demand : NativeDemand F) (items : List (PackDraftItem F))
    (id : MemoryId) (group : NativePackEvictionGroup F) : Prop where
  present : ∃ item ∈ items, item.memoryId = id
  mayDisplace : ∀ item ∈ items, item.memoryId = id → demand.mayDisplace item = true
  tokens_le : group.estimatedTokens ≤ memoryTokens items id

/-- An entry of the eviction order is the eligible group of the items of its memory. -/
theorem NativeDemand.group_of_mem {d : NativeDemand F} {items : List (PackDraftItem F)}
    {id : MemoryId} {g : NativePackEvictionGroup F}
    (h : (id, g) ∈ d.evictionOrder items) :
    g.eligible = true ∧ ∃ first r, (items.filter fun it => it.memoryId = id) = first :: r ∧
      g = (items.filter fun it => it.memoryId = id).foldl d.joinGroup
        ⟨first.priority, 0, 0, true⟩ := by
  have hm := (sortBy_perm _ _).subset h
  obtain ⟨hg, he⟩ := List.mem_filter.mp hm
  obtain ⟨id', -, hgr⟩ := List.mem_filterMap.mp hg
  obtain ⟨g', hg', heq⟩ := Option.map_eq_some_iff.mp hgr
  cases heq
  unfold NativeDemand.evictionGroup at hg'
  split at hg'
  · cases hg'
  · rename_i first r hi
    cases hg'
    exact ⟨he, first, r, hi, rfl⟩

theorem NativeDemand.evictable_of_mem {d : NativeDemand F} {items : List (PackDraftItem F)}
    {id : MemoryId} {g : NativePackEvictionGroup F}
    (h : (id, g) ∈ d.evictionOrder items) : d.Evictable items id g := by
  obtain ⟨he, first, r, hi, rfl⟩ := NativeDemand.group_of_mem h
  obtain ⟨ht, -, ha⟩ := d.foldl_joinGroup
    (items.filter fun it => it.memoryId = id) ⟨first.priority, 0, 0, true⟩
  have hfir : first ∈ items.filter fun it => it.memoryId = id := by
    rw [hi]
    exact List.mem_cons_self
  obtain ⟨hf, hfi⟩ := List.mem_filter.mp hfir
  refine ⟨⟨first, hf, of_decide_eq_true hfi⟩, ?_, by simpa [memoryTokens] using ht⟩
  intro it hite hid
  exact ha he it (List.mem_filter.mpr ⟨hite, decide_eq_true hid⟩)

/-- A group counts no item twice. -/
theorem NativeDemand.itemCount_le_of_mem {d : NativeDemand F}
    {items : List (PackDraftItem F)} {id : MemoryId} {g : NativePackEvictionGroup F}
    (h : (id, g) ∈ d.evictionOrder items) :
    g.itemCount ≤ (items.filter fun it => it.memoryId = id).length := by
  obtain ⟨-, first, r, -, rfl⟩ := NativeDemand.group_of_mem h
  obtain ⟨-, hc, -⟩ := d.foldl_joinGroup
    (items.filter fun it => it.memoryId = id) ⟨first.priority, 0, 0, true⟩
  simpa using hc

/-- No memory is listed twice. -/
theorem NativeDemand.nodup_evictionOrder (d : NativeDemand F)
    (items : List (PackDraftItem F)) : ((d.evictionOrder items).map Prod.fst).Nodup := by
  have hi : ∀ ids : List MemoryId, ((ids.filterMap fun id => (d.evictionGroup
          (items.filter fun it => it.memoryId = id)).map fun g => (id, g)).map
        Prod.fst).Sublist ids := by
    intro ids
    induction ids with
    | nil => exact List.Sublist.refl _
    | cons id ids ih =>
      cases hg : d.evictionGroup (items.filter fun it => it.memoryId = id) with
      | none => simpa [hg] using ih.cons id
      | some g => simpa [hg] using ih.cons_cons id
  have hs := (List.filter_sublist (p := fun g : MemoryId × NativePackEvictionGroup F =>
    g.2.eligible) (l := _)).map Prod.fst |>.trans (hi (distinctMemoryIds (items.map (·.memoryId))))
  have hn := hs.nodup (List.nodup_dedup _)
  exact ((sortBy_perm _ _).map Prod.fst).nodup_iff.mpr hn

/-- What `native_pack_memory_displacements` promises when it finds a way: the
candidate fits once the memories named are gone; every one of them is in the draft,
none is named twice, and none is protected. -/
structure NativeDemand.Feasible (demand : NativeDemand F) (budget usedTokens : ℕ)
    (items : List (PackDraftItem F)) (displacements : List MemoryId) : Prop where
  fits : usedTokens + demand.estimatedTokens
    ≤ budget + (displacements.map (memoryTokens items)).sum
  nodup : displacements.Nodup
  present : ∀ id ∈ displacements, ∃ item ∈ items, item.memoryId = id
  mayDisplace : ∀ id ∈ displacements, ∀ item ∈ items, item.memoryId = id →
    demand.mayDisplace item = true

/-- How room was found: nothing was missing, or a first part of the eviction order holds what
was. -/
theorem NativeDemand.displacements_taken {d : NativeDemand F} {r : ContextRequest}
    {b used count : ℕ} {items : List (PackDraftItem F)} {displacements : List MemoryId}
    (h : d.displacements r b used count items = some displacements) :
    ∃ t, t <+: d.evictionOrder items ∧ displacements = t.map Prod.fst ∧ used + d.estimatedTokens
        ≤ b + (t.map fun g => g.2.estimatedTokens).sum ∧
      satAdd64 count 1 ≤ r.maxResults.getD u64Max + (t.map fun g => g.2.itemCount).sum := by
  unfold NativeDemand.displacements at h
  simp only at h
  split at h
  · rename_i hf
    cases h
    exact ⟨[], List.nil_prefix, rfl, by simpa using hf.1, by simpa using hf.2⟩
  · split at h
    · cases h
    · obtain ⟨t, hp, -, rfl, ht, hc⟩ := displaceUntilFits_taken h
      exact ⟨t, hp, rfl, ht, hc⟩

theorem NativeDemand.feasible_of_displacements {d : NativeDemand F} {r : ContextRequest}
    {b used count : ℕ} {items : List (PackDraftItem F)} {displacements : List MemoryId}
    (h : d.displacements r b used count items = some displacements) :
    d.Feasible b used items displacements := by
  obtain ⟨t, hp, rfl, ht, -⟩ := NativeDemand.displacements_taken h
  have he : ∀ g ∈ t, d.Evictable items g.1 g.2 :=
    fun g hg => NativeDemand.evictable_of_mem (hp.subset hg)
  have hh : (t.map fun g => g.2.estimatedTokens).sum
      ≤ ((t.map Prod.fst).map (memoryTokens items)).sum := by
    rw [List.map_map]
    exact List.sum_le_sum fun g hg => (he g hg).tokens_le
  refine ⟨by omega, ?_, ?_, ?_⟩
  · exact (hp.sublist.map Prod.fst).nodup (d.nodup_evictionOrder items)
  · intro id hid
    obtain ⟨g, hg, rfl⟩ := List.mem_map.mp hid
    exact (he g hg).present
  · intro id hid
    obtain ⟨g, hg, rfl⟩ := List.mem_map.mp hid
    exact (he g hg).mayDisplace

/-! ## Admitting one native candidate -/

/-- Move every rank down by one, in the selection and in its audit. -/
def PackDraft.shiftRanks (draft : PackDraft F) : PackDraft F :=
  { draft with
    items := draft.items.map fun item => { item with rank := satAdd32 item.rank 1 }
    ruleItems := draft.ruleItems.map fun item => { item with rank := satAdd32 item.rank 1 }
    evidenceItems := draft.evidenceItems.map fun item =>
      { item with rank := satAdd32 item.rank 1 }
    selectionAudit :=
      { draft.selectionAudit with
        selectedItems := draft.selectionAudit.selectedItems.map fun item =>
          { item with rank := satAdd32 item.rank 1 }
        steps := draft.selectionAudit.steps.map fun step =>
          { step with rank := satAdd32 step.rank 1 } } }

/-- The omissions of a displacement that only the result limit asked for. -/
def PackDraft.relabelDisplaced (draft : PackDraft F) (displacements : List MemoryId) :
    PackDraft F :=
  { draft with
    omitted := draft.omitted.map fun omission =>
      if omission.memoryId ∈ displacements then { omission with reason := .excludedByFilter }
      else omission }

/-- `selection_note`. -/
def selectionNote (reserveWarning : Bool) (displacedCount : ℕ) : String :=
  if reserveWarning && displacedCount > 0 then
    "; anti-pattern reservation displaced " ++ toString displacedCount
      ++ " non-reserved memory items"
  else if displacedCount > 0 then
    "; shared budget ranking displaced " ++ toString displacedCount
      ++ " lower-ranked memory items"
  else "; selected within the shared native-source budget"

/-- Push a native candidate at a rank, with its note and its tokens. -/
def PackDraft.pushNative (draft : PackDraft F) (candidate : NativePackCandidate F) (rank : ℕ)
    (reserveWarning : Bool) (note : String) : PackDraft F :=
  match candidate with
  | .rule item =>
    let why :=
      if reserveWarning then
        "What NOT to do: selected from the reserved anti-pattern/failure/risk slice before action. "
          ++ item.why
      else item.why
    { draft with
      ruleItems := draft.ruleItems ++ [{ item with rank := rank, why := why ++ note }]
      usedTokens := draft.usedTokens + item.estimatedTokens }
  | .evidence candidate =>
    { draft with
      evidenceItems := draft.evidenceItems
        ++ [{ candidate.item with rank := rank, why := candidate.item.why ++ note }]
      usedTokens := draft.usedTokens + candidate.item.estimatedTokens }

/-- The draft after the displacements, before the candidate is numbered. -/
def PackDraft.makeRoom (draft : PackDraft F) (estimatedTokens : ℕ)
    (displacements : List MemoryId) : PackDraft F × ℕ :=
  let tokenLimited := draft.usedTokens + estimatedTokens > draft.budget.maxTokens
  let (draft, displacedCount) := draft.omitMemoriesForNativeBudget displacements
  (if tokenLimited then draft else draft.relabelDisplaced displacements, displacedCount)

/-- Admit a candidate for which the displacements make room. -/
def PackDraft.admitNative (draft : PackDraft F) (candidate : NativePackCandidate F)
    (reserveWarning : Bool) (displacements : List MemoryId) : PackDraft F :=
  let (draft, displacedCount) := draft.makeRoom candidate.estimatedTokens displacements
  let note := selectionNote reserveWarning displacedCount
  if reserveWarning then draft.shiftRanks.pushNative candidate 1 reserveWarning note
  else
    draft.pushNative candidate (min (satAdd64 draft.selectedItemCount 1) u32Max) reserveWarning note

/-! ## The append loop -/

/-- The counters of the loop. -/
structure NativeTotals where
  ruleResultLimit : ℕ := 0
  evidenceResultLimit : ℕ := 0
  ruleTokenLimit : ℕ := 0
  evidenceTokenLimit : ℕ := 0
  linkedDuplicates : ℕ := 0
  deriving DecidableEq, Repr

/-- Count a candidate that no room was found for. -/
def NativeTotals.reject (totals : NativeTotals) (resultLimited : Bool) :
    NativePackCandidate F → NativeTotals
  | .rule _ =>
    if resultLimited then { totals with ruleResultLimit := totals.ruleResultLimit + 1 }
    else { totals with ruleTokenLimit := totals.ruleTokenLimit + 1 }
  | .evidence _ =>
    if resultLimited then { totals with evidenceResultLimit := totals.evidenceResultLimit + 1 }
    else { totals with evidenceTokenLimit := totals.evidenceTokenLimit + 1 }

/-- The locals of the loop. -/
structure NativeState (F : Type) where
  draft : PackDraft F
  representedMemoryIds : List MemoryId := []
  totals : NativeTotals := {}

/-- The selected memory that already represents an evidence candidate. -/
def linkedMemory (items : List (PackDraftItem F)) : NativePackCandidate F → Option MemoryId
  | .rule _ => none
  | .evidence candidate =>
    match candidate.linkedMemoryId with
    | none => none
    | some text =>
      match TypedId.fromStr "mem" text with
      | .error _ => none
      | .ok memoryId =>
        if items.any fun item => item.memoryId = memoryId then some memoryId else none

/-- A candidate with its priority. -/
abbrev RankedNative (F : Type) := ContextPackPriority F × NativePackCandidate F

/-- What a candidate of the loop asks for. -/
def nativeDemand (reservedEntity : Option ContextPackEntityKey)
    (representedMemoryIds : List MemoryId) (candidate : RankedNative F) : NativeDemand F where
  priority := candidate.1
  estimatedTokens := candidate.2.estimatedTokens
  representedMemoryIds := representedMemoryIds
  reserveWarning := reservedEntity = some candidate.1.entity

/-- One round of the loop over the ranked candidates. -/
def appendNativeStep (request : ContextRequest) (reservedEntity : Option ContextPackEntityKey)
    (st : NativeState F) (candidate : RankedNative F) : NativeState F :=
  match linkedMemory st.draft.items candidate.2 with
  | some memoryId =>
    { st with
      representedMemoryIds := insert memoryId st.representedMemoryIds
      totals :=
        { st.totals with linkedDuplicates := satAdd64 st.totals.linkedDuplicates 1 } }
  | none =>
    let demand := nativeDemand reservedEntity st.representedMemoryIds candidate
    match nativePackMemoryDisplacements demand request st.draft with
    | none =>
      let resultLimited := request.maxResults.any fun limit => st.draft.selectedItemCount ≥ limit
      { st with totals := st.totals.reject resultLimited candidate.2 }
    | some displacements =>
      { st with draft := st.draft.admitNative candidate.2 demand.reserveWarning displacements }

/-- The candidates in their shared ranking order. -/
def rankedNatives (rules : List (PackRuleItem F))
    (evidence : List (DirectEvidencePackCandidate F)) :
    List (RankedNative F) :=
  sortBy (fun left right => compareContextPackPriority left.1 right.1)
    ((rules.map NativePackCandidate.rule ++ evidence.map NativePackCandidate.evidence).map
      fun candidate => (candidate.priority, candidate))

/-- `warning_reserved`. -/
def PackDraft.warningReserved (draft : PackDraft F) : Bool :=
  (draft.items.any fun item => item.selectedIn = .antiPatternFirst)
    || draft.ruleItems.any fun item => item.packSection = .failures

/-- Whether a candidate can take the reserved warning slice. -/
def isReservableWarning (request : ContextRequest) (relevanceFloor : Option F)
    (draft : PackDraft F) (candidate : RankedNative F) : Bool :=
  let floor := PackAssemblyOptions.effectiveRelevanceFloor { relevanceFloor := relevanceFloor }
  let quotas := SectionQuotas.forProfile request.profile draft.budget.maxTokens
  let failureTokens := ((draft.items.filter fun item => item.packSection = .failures).map
    (·.estimatedTokens)).foldl satAdd32 0
  match candidate.2 with
  | .evidence _ => false
  | .rule item =>
    decide (item.packSection = .failures)
      && F32.le floor item.relevance
      && quotas.hasRoom .failures failureTokens item.estimatedTokens
      && (nativePackMemoryDisplacements ⟨candidate.1, item.estimatedTokens, [], true⟩ request
        draft).isSome

/-- The order of the loop: the reserved warning, when there is one, goes first. -/
def nativeOrder (request : ContextRequest) (relevanceFloor : Option F) (draft : PackDraft F)
    (candidates : List (RankedNative F)) :
    Option ContextPackEntityKey × List (RankedNative F) :=
  let reservedIndex :=
    if draft.warningReserved then none
    else candidates.findIdx? (isReservableWarning request relevanceFloor draft)
  match reservedIndex.bind fun i => candidates[i]?.map fun reserved => (i, reserved) with
  | none => (none, candidates)
  | some (i, reserved) => (some reserved.1.entity, reserved :: candidates.eraseIdx i)

/-! ## The whole append -/

/-- `ContextResponseSeverity::Low` entries of `ContextResponseDegradation`. -/
structure ContextResponseDegradation where
  code : String
  message : String
  repair : Option String
  deriving DecidableEq, Repr

/-- The shared body of `push_direct_rule_result_limit_degradation` and
`push_direct_evidence_result_limit_degradation`. -/
def resultLimitDegradation (count : ℕ) (kind : String) : List ContextResponseDegradation :=
  if count > 0 then
    [{ code := "context_query_max_results_applied"
       message := toString count ++ kind ++ " candidates excluded by query-file budget.maxResults."
       repair := some "Increase budget.maxResults in the query file." }]
  else []

/-- `push_direct_rule_result_limit_degradation`. -/
def directRuleResultLimitDegradation (count : ℕ) : List ContextResponseDegradation :=
  resultLimitDegradation count " procedural rule"

/-- `push_direct_evidence_result_limit_degradation`. -/
def directEvidenceResultLimitDegradation (count : ℕ) : List ContextResponseDegradation :=
  resultLimitDegradation count " imported evidence"

/-- The degradations that the append reports. -/
def NativeTotals.degradations (totals : NativeTotals) : List ContextResponseDegradation :=
  directRuleResultLimitDegradation totals.ruleResultLimit
    ++ directEvidenceResultLimitDegradation totals.evidenceResultLimit
    ++ if totals.ruleTokenLimit > 0 ∨ totals.evidenceTokenLimit > 0 then
      [{ code := "context_filtered_results"
         message := toString totals.ruleTokenLimit ++ " procedural rule and "
           ++ toString totals.evidenceTokenLimit
           ++ " imported evidence candidates omitted by the shared token budget "
           ++ "(token_budget_exceeded); stronger evidence, its selected representatives and the "
           ++ "anti-pattern reservation were retained."
         repair := some "Increase budget.maxTokens in the query file or narrow the query." }]
    else []

/-- `append_ranked_native_pack_items_with_probe`, without the probe: the draft and the
degradations it pushes. -/
def appendRankedNativePackItems (rules : List (PackRuleItem F))
    (evidence : List (DirectEvidencePackCandidate F)) (request : ContextRequest)
    (relevanceFloor : Option F) (draft : PackDraft F) :
    PackDraft F × List ContextResponseDegradation :=
  let candidates := rankedNatives rules evidence
  if candidates.isEmpty then (draft, [])
  else
    let (reservedEntity, candidates) := nativeOrder request relevanceFloor draft candidates
    let st := candidates.foldl (appendNativeStep request reservedEntity) { draft := draft }
    let omittedNativeCount :=
      satAdd64 (satAdd64 (satAdd64 (satAdd64 st.totals.ruleResultLimit
        st.totals.evidenceResultLimit) st.totals.ruleTokenLimit) st.totals.evidenceTokenLimit)
        st.totals.linkedDuplicates
    ({ st.draft with
      selectionAudit :=
        { st.draft.selectionAudit with
          candidateCount := satAdd64 st.draft.selectionAudit.candidateCount candidates.length
          selectedCount := st.draft.selectedItemCount
          omittedCount := satAdd64 st.draft.omitted.length omittedNativeCount
          budgetUsed := st.draft.usedTokens }
      hash := none },
    st.totals.degradations)

end Native

end Pack
