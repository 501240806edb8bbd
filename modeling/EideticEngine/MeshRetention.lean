/-
# The retention plan meets every quota

The rounds of the plan remove the least covered entries in the sense of `LeastRemoval`: the indexes
that remain stand for a multiset of entries, usage is a function of that multiset, and an entry is
to blame when a quota that covers it is exceeded.

* `retentionRound_ne_gaveUp` : an exceeded quota always covers an entry that remains;
* `afterExpiry_removes`, `retentionLoop_removes` : both phases refine `Removes`;
* `mesh_cache_retention_meets_quotas` : what follows for the plan.
-/
import EideticEngine.LeastRemoval
import EideticEngine.ListRules
import EideticEngine.MeshCache

namespace MeshCache

open Std (ExtTreeMap)
open RustText (strCmp)
open LeastRemoval

/-! ## Usage -/

theorem satAdd64_right_comm (n a b : ℕ) :
    satAdd64 (satAdd64 n a) b = satAdd64 (satAdd64 n b) a := by
  unfold satAdd64
  omega

namespace MeshCacheUsage

theorem ext_lanes {u v : MeshCacheUsage} (ht : u.totalBytes = v.totalBytes)
    (hl : ∀ l, u.bytesForLane l = v.bytesForLane l)
    (hp : ∀ peer : String, u.byPeerBytes[peer]? = v.byPeerBytes[peer]?)
    (hc : u.entryCount = v.entryCount) : u = v := by
  obtain ⟨total, m, b, em, ps, count⟩ := u
  obtain ⟨t', m', b', e', ps', c'⟩ := v
  obtain rfl : ps = ps' := ExtTreeMap.ext_getElem? hp
  have hm : m = m' := hl .metadata
  have hb : b = b' := hl .body
  have he : em = e' := hl .embedding
  simp only at ht hc
  rw [ht, hm, hb, he, hc]

theorem add_of_not_billable {entry : MeshCacheEntry} (h : entry.isBillableCache = false)
    (u : MeshCacheUsage) : u.add entry = u := by
  rw [add, h]
  rfl

section

variable {entry : MeshCacheEntry} (h : entry.isBillableCache = true) (u : MeshCacheUsage)

include h

theorem add_totalBytes : (u.add entry).totalBytes = satAdd64 u.totalBytes entry.bytes := by
  rw [add, h]
  cases hl : entry.lane <;> rfl

theorem add_entryCount : (u.add entry).entryCount = satAdd64 u.entryCount 1 := by
  rw [add, h]
  cases hl : entry.lane <;> rfl

theorem add_bytesForLane (l : MeshCacheLane) : (u.add entry).bytesForLane l
    = if entry.lane = l then satAdd64 (u.bytesForLane l) entry.bytes
      else u.bytesForLane l := by
  rw [add, h]
  cases hl : entry.lane <;> cases l <;> rfl

theorem add_byPeerBytes : (u.add entry).byPeerBytes = u.byPeerBytes.insert entry.peerId
    (satAdd64 (u.byPeerBytes.getD entry.peerId 0) entry.bytes) := by
  rw [add, h]
  cases hl : entry.lane <;> rfl

theorem add_peer (peer : String) : (u.add entry).byPeerBytes.getD peer 0
    = if entry.peerId = peer then satAdd64 (u.byPeerBytes.getD peer 0) entry.bytes
      else u.byPeerBytes.getD peer 0 := by
  rw [add_byPeerBytes h, ExtTreeMap.getD_insert]
  simp only [Std.LawfulEqCmp.compare_eq_iff_eq]
  split
  · rename_i heq
    rw [heq]
  · rfl

end

/-- Entries can be counted in any order. -/
instance : RightCommutative add where
  right_comm u a b := by
    cases ha : a.isBillableCache with
    | false => rw [add_of_not_billable ha, add_of_not_billable ha]
    | true =>
      cases hb : b.isBillableCache with
      | false => rw [add_of_not_billable hb, add_of_not_billable hb]
      | true =>
        refine ext_lanes ?_ ?_ ?_ ?_
        · simp only [add_totalBytes ha, add_totalBytes hb]
          exact satAdd64_right_comm _ _ _
        · intro lane
          simp only [add_bytesForLane ha, add_bytesForLane hb]
          split <;> split <;> first | rfl | exact satAdd64_right_comm _ _ _
        · intro peer
          simp only [add_byPeerBytes ha, add_byPeerBytes hb, ExtTreeMap.getElem?_insert,
            ExtTreeMap.getD_insert, Std.LawfulEqCmp.compare_eq_iff_eq]
          by_cases hap : a.peerId = peer
          · by_cases hbp : b.peerId = peer
            · simp only [hap, hbp, if_true]
              rw [satAdd64_right_comm]
            · simp only [hap, hbp, if_true, if_false]
          · by_cases hbp : b.peerId = peer
            · simp only [hap, hbp, if_true, if_false]
            · simp only [hap, hbp, if_false]
        · simp only [add_entryCount ha, add_entryCount hb]

end MeshCacheUsage

/-- The usage of the entries that remain. -/
def usageOf (left : Multiset MeshCacheEntry) : MeshCacheUsage :=
  left.foldl MeshCacheUsage.add .empty

theorem usageFor_eq (entries : List MeshCacheEntry) (remaining : List (Fin entries.length)) :
    usageFor entries remaining = usageOf ↑(remaining.map entries.get) := by
  rw [usageOf, Multiset.coe_foldl, List.foldl_map]
  rfl

/-- A number of the usage that grows by a weight of each entry is the sum of the weights, up to
the largest value. -/
theorem usageOf_measure (f : MeshCacheUsage → ℕ) (weight : MeshCacheEntry → ℕ) (he : f .empty = 0)
    (ha : ∀ u entry, f u ≤ u64Max → f (u.add entry) = min (f u + weight entry) u64Max)
    (left : Multiset MeshCacheEntry) : f (usageOf left) = min (left.map weight).sum u64Max := by
  induction left using Quotient.inductionOn with | _ l
  have hf : ∀ (l : List MeshCacheEntry) (u : MeshCacheUsage), f u ≤ u64Max →
      f (l.foldl MeshCacheUsage.add u) = min (f u + (l.map weight).sum) u64Max := by
    intro l
    induction l with
    | nil =>
      intro u hu
      exact (min_eq_left hu).symm
    | cons entry l ih =>
      intro u hu
      have hs := ha u entry hu
      rw [List.foldl_cons, ih _ (by omega), hs, List.map_cons, List.sum_cons]
      omega
  have ht := hf l .empty (by rw [he]; exact Nat.zero_le _)
  rw [he, Nat.zero_add] at ht
  exact ht

/-- The bytes that an entry counts for where it is covered. -/
def weightOf (covered : MeshCacheEntry → Bool) (entry : MeshCacheEntry) : ℕ :=
  if entry.isBillableCache && covered entry then entry.bytes else 0

theorem usageOf_totalBytes (left : Multiset MeshCacheEntry) :
    (usageOf left).totalBytes = min (left.map (weightOf fun _ => true)).sum u64Max := by
  refine usageOf_measure MeshCacheUsage.totalBytes _ rfl ?_ left
  intro u entry hu
  unfold weightOf
  cases h : entry.isBillableCache with
  | false =>
    rw [MeshCacheUsage.add_of_not_billable h]
    exact (min_eq_left hu).symm
  | true => exact MeshCacheUsage.add_totalBytes h u

theorem usageOf_bytesForLane (left : Multiset MeshCacheEntry) (l : MeshCacheLane) :
    (usageOf left).bytesForLane l
      = min (left.map (weightOf fun entry => entry.lane = l)).sum u64Max := by
  refine usageOf_measure (fun u => u.bytesForLane l) _ (by cases l <;> rfl) ?_ left
  intro u entry hu
  unfold weightOf
  cases h : entry.isBillableCache with
  | false =>
    rw [MeshCacheUsage.add_of_not_billable h]
    exact (min_eq_left hu).symm
  | true =>
    rw [MeshCacheUsage.add_bytesForLane h]
    by_cases hl : entry.lane = l
    · simp only [hl, if_true, decide_true, Bool.and_true]
      rfl
    · simp only [hl, if_false, decide_false, Bool.and_false, Bool.false_eq_true]
      exact (min_eq_left hu).symm

theorem usageOf_peer (left : Multiset MeshCacheEntry) (peer : String) :
    (usageOf left).byPeerBytes.getD peer 0
      = min (left.map (weightOf fun entry => entry.peerId = peer)).sum u64Max := by
  refine usageOf_measure (fun u => u.byPeerBytes.getD peer 0) _ rfl ?_ left
  intro u entry hu
  unfold weightOf
  cases h : entry.isBillableCache with
  | false =>
    rw [MeshCacheUsage.add_of_not_billable h]
    exact (min_eq_left hu).symm
  | true =>
    simp only [MeshCacheUsage.add_peer h]
    by_cases hp : entry.peerId = peer
    · simp only [hp, if_true, decide_true, Bool.and_true]
      rfl
    · simp only [hp, if_false, decide_false, Bool.and_false, Bool.false_eq_true]
      exact (min_eq_left hu).symm

/-- What counts has an entry that is counted. -/
theorem exists_covered {c : MeshCacheEntry → Bool} {left : Multiset MeshCacheEntry}
    {l : ℕ} (h : l < min (left.map (weightOf c)).sum u64Max) :
    ∃ entry ∈ left, c entry = true := by
  by_contra hnone
  push Not at hnone
  have hp : (left.map (weightOf c)).sum ≠ 0 := by omega
  refine hp (Multiset.sum_eq_zero fun n hn => ?_)
  obtain ⟨entry, he, rfl⟩ := Multiset.mem_map.mp hn
  rw [weightOf, if_neg]
  rw [Bool.and_eq_true]
  exact fun hb => hnone entry he hb.2

/-! ## Exceeded quotas -/

/-- A quota that covers the entry is exceeded. -/
def Covered (quotas : MeshCacheQuotas) (usage : MeshCacheUsage) (entry : MeshCacheEntry) : Prop :=
  (∃ limit, quotas.globalBytes = some limit ∧ limit < usage.totalBytes)
    ∨ (∃ limit, quotas.perPeerBytes = some limit
      ∧ limit < usage.byPeerBytes.getD entry.peerId 0)
    ∨ ∃ limit, quotas.laneLimit entry.lane = some limit ∧ limit < usage.bytesForLane entry.lane

/-- No quota is exceeded. -/
structure WithinQuotas (quotas : MeshCacheQuotas) (usage : MeshCacheUsage) : Prop where
  global : ∀ limit, quotas.globalBytes = some limit → usage.totalBytes ≤ limit
  peer : ∀ limit, quotas.perPeerBytes = some limit →
    ∀ peer, usage.byPeerBytes.getD peer 0 ≤ limit
  lane : ∀ lane limit, quotas.laneLimit lane = some limit → usage.bytesForLane lane ≤ limit

theorem mem_quotaWarning_none {kind : MeshCacheQuotaKind} {peerId : Option String}
    {la : Option MeshCacheLane} {ba : ℕ} {lbs : Option ℕ}
    {w : MeshCacheQuotaWarning} :
    w ∈ quotaWarning kind peerId la ba lbs none ↔ ∃ l, lbs = some l ∧ l < ba
        ∧ w = ⟨kind, peerId, la, ba, l, .wouldExceed⟩ := by
  unfold quotaWarning
  cases lbs with
  | none => simp
  | some l =>
    by_cases hlt : l < ba
    · simp [hlt]
    · simp [hlt]

theorem getD_of_lt {ps : ExtTreeMap String ℕ strCmp} {peer : String} {l bytes : ℕ} :
    ps[peer]? = some bytes ∧ l < bytes ↔ ps.getD peer 0 = bytes ∧ l < bytes := by
  rw [ExtTreeMap.getD_eq_getD_getElem?]
  cases ps[peer]? with
  | none =>
    constructor
    · rintro ⟨hn, -⟩
      cases hn
    · rintro ⟨rfl, hlt⟩
      exact absurd hlt (Nat.not_lt_zero l)
  | some f => simp

/-- **The violations are the quotas that are exceeded.** -/
theorem mem_quotaViolations {us : MeshCacheUsage} {quotas : MeshCacheQuotas}
    {v : MeshCacheQuotaWarning} :
    v ∈ quotaViolations us quotas ↔ (∃ l, quotas.globalBytes = some l ∧ l < us.totalBytes
        ∧ v = ⟨.global, none, none, us.totalBytes, l, .wouldExceed⟩)
      ∨ (∃ l peer, quotas.perPeerBytes = some l ∧ l < us.byPeerBytes.getD peer 0
        ∧ v = ⟨.peer, some peer, none, us.byPeerBytes.getD peer 0, l, .wouldExceed⟩)
      ∨ ∃ l la, quotas.laneLimit la = some l ∧ l < us.bytesForLane la
        ∧ v = ⟨.lane, none, some la, us.bytesForLane la, l, .wouldExceed⟩ := by
  unfold quotaViolations quotaWarningsForUsage
  rw [ListRules.mem_destutter_ne, StableSort.sortBy, List.mem_insertionSort, pushedWarnings,
    List.mem_append, List.mem_append, mem_quotaWarning_none, or_assoc]
  refine or_congr Iff.rfl (or_congr ?_ ?_)
  · cases hl : quotas.perPeerBytes with
    | none => simp
    | some l =>
      simp only [List.mem_flatMap, mem_quotaWarning_none, Option.some.injEq]
      constructor
      · rintro ⟨⟨peer, bytes⟩, hm, f, rfl, hlt, rfl⟩
        obtain ⟨rfl, hlt⟩ := getD_of_lt.mp ⟨ExtTreeMap.mem_toList_iff_getElem?_eq_some.mp hm, hlt⟩
        exact ⟨_, peer, rfl, hlt, rfl⟩
      · rintro ⟨f, peer, rfl, hlt, rfl⟩
        obtain ⟨hm, -⟩ := getD_of_lt.mpr ⟨rfl, hlt⟩
        exact ⟨(peer, _), ExtTreeMap.mem_toList_iff_getElem?_eq_some.mpr hm, _, rfl, hlt, rfl⟩
  · simp only [List.mem_flatMap, mem_quotaWarning_none]
    constructor
    · rintro ⟨la, -, l, hl, hlt, rfl⟩
      exact ⟨l, la, hl, hlt, rfl⟩
    · rintro ⟨l, la, hl, hlt, rfl⟩
      exact ⟨la, by cases la <;> decide, l, hl, hlt, rfl⟩

theorem intersectsQuotaViolation_iff {us : MeshCacheUsage} {quotas : MeshCacheQuotas}
    {entry : MeshCacheEntry} :
    intersectsQuotaViolation entry (quotaViolations us quotas) = true
      ↔ Covered quotas us entry := by
  unfold intersectsQuotaViolation Covered
  rw [List.any_eq_true]
  constructor
  · rintro ⟨v, hm, hc⟩
    rcases mem_quotaViolations.mp hm with ⟨l, hl, hlt, rfl⟩ | ⟨l, peer, hl, hlt, rfl⟩
      | ⟨l, la, hl, hlt, rfl⟩
    · exact .inl ⟨l, hl, hlt⟩
    · obtain rfl := Option.some.inj (of_decide_eq_true hc)
      exact .inr (.inl ⟨l, hl, hlt⟩)
    · obtain rfl := Option.some.inj (of_decide_eq_true hc)
      exact .inr (.inr ⟨l, hl, hlt⟩)
  · rintro (⟨l, hl, hlt⟩ | ⟨l, hl, hlt⟩ | ⟨l, hl, hlt⟩)
    · exact ⟨_, mem_quotaViolations.mpr (.inl ⟨l, hl, hlt, rfl⟩), rfl⟩
    · exact ⟨_, mem_quotaViolations.mpr (.inr (.inl ⟨l, _, hl, hlt, rfl⟩)), decide_eq_true rfl⟩
    · exact ⟨_, mem_quotaViolations.mpr (.inr (.inr ⟨l, _, hl, hlt, rfl⟩)), decide_eq_true rfl⟩

theorem quotaViolations_eq_nil_iff {us : MeshCacheUsage} {quotas : MeshCacheQuotas} :
    quotaViolations us quotas = [] ↔ WithinQuotas quotas us := by
  rw [List.eq_nil_iff_forall_not_mem]
  constructor
  · intro hn
    refine ⟨fun l hl => ?_, fun l hl peer => ?_, fun la l hl => ?_⟩
    · exact Nat.not_lt.mp fun hlt => hn _ (mem_quotaViolations.mpr (.inl ⟨l, hl, hlt, rfl⟩))
    · exact Nat.not_lt.mp fun hlt =>
        hn _ (mem_quotaViolations.mpr (.inr (.inl ⟨l, peer, hl, hlt, rfl⟩)))
    · exact Nat.not_lt.mp fun hlt =>
        hn _ (mem_quotaViolations.mpr (.inr (.inr ⟨l, la, hl, hlt, rfl⟩)))
  · intro hw v hm
    rcases mem_quotaViolations.mp hm with ⟨l, hl, hlt, -⟩ | ⟨l, peer, hl, hlt, -⟩
      | ⟨l, la, hl, hlt, -⟩
    · exact absurd hlt (Nat.not_lt.mpr (hw.global l hl))
    · exact absurd hlt (Nat.not_lt.mpr (hw.peer l hl peer))
    · exact absurd hlt (Nat.not_lt.mpr (hw.lane la l hl))

/-- **An exceeded quota covers one of the entries that are counted.** -/
theorem exists_mem_covered {quotas : MeshCacheQuotas} {left : Multiset MeshCacheEntry}
    (h : ¬ WithinQuotas quotas (usageOf left)) :
    ∃ entry ∈ left, Covered quotas (usageOf left) entry := by
  rw [← quotaViolations_eq_nil_iff] at h
  obtain ⟨v, hm⟩ := List.exists_mem_of_ne_nil _ h
  rcases mem_quotaViolations.mp hm with ⟨l, hl, hlt, -⟩ | ⟨l, peer, hl, hlt, -⟩
    | ⟨l, la, hl, hlt, -⟩
  · have hp := hlt
    rw [usageOf_totalBytes] at hp
    obtain ⟨entry, he, -⟩ := exists_covered hp
    exact ⟨entry, he, .inl ⟨l, hl, hlt⟩⟩
  · have hp := hlt
    rw [usageOf_peer] at hp
    obtain ⟨entry, he, hpe⟩ := exists_covered hp
    obtain rfl := of_decide_eq_true hpe
    exact ⟨entry, he, .inr (.inl ⟨l, hl, hlt⟩)⟩
  · have hp := hlt
    rw [usageOf_bytesForLane] at hp
    obtain ⟨entry, he, hla⟩ := exists_covered hp
    obtain rfl := of_decide_eq_true hla
    exact ⟨entry, he, .inr (.inr ⟨l, hl, hlt⟩)⟩

/-! ## The order of eviction -/

instance : Std.TransCmp compareEvictionCandidate :=
  have : Std.TransCmp fun l r : MeshCacheEntry => compare l.retentionScore r.retentionScore :=
    ComparisonSort.transCmp_on MeshCacheEntry.retentionScore
  have : Std.TransCmp fun l r : MeshCacheEntry => compare l.lastAccessSeq r.lastAccessSeq :=
    ComparisonSort.transCmp_on MeshCacheEntry.lastAccessSeq
  have : Std.TransCmp fun l r : MeshCacheEntry =>
      compare l.lane.evictionRank r.lane.evictionRank :=
    ComparisonSort.transCmp_on fun entry : MeshCacheEntry => entry.lane.evictionRank
  have : Std.TransCmp fun l r : MeshCacheEntry => compare r.bytes l.bytes :=
    @ComparisonSort.transCmp_on _ _ (fun a b : ℕ => compare b a) _ MeshCacheEntry.bytes
  have : Std.TransCmp fun l r : MeshCacheEntry => strCmp l.peerId r.peerId :=
    ComparisonSort.transCmp_on MeshCacheEntry.peerId
  have : Std.TransCmp fun l r : MeshCacheEntry => strCmp l.cacheKey r.cacheKey :=
    ComparisonSort.transCmp_on MeshCacheEntry.cacheKey
  inferInstanceAs (Std.TransCmp
    (compareLex (fun l r : MeshCacheEntry => compare l.retentionScore r.retentionScore)
      (compareLex (fun l r => compare l.lastAccessSeq r.lastAccessSeq)
        (compareLex (fun l r => compare l.lane.evictionRank r.lane.evictionRank)
          (compareLex (fun l r => compare r.bytes l.bytes)
            (compareLex (fun l r => strCmp l.peerId r.peerId)
              fun l r => strCmp l.cacheKey r.cacheKey))))))

theorem evictionRank_injective : Function.Injective MeshCacheLane.evictionRank := by
  intro l l' h
  cases l <;> cases l' <;> first | rfl | cases h

/-- Only entries with one identity compare equal. -/
theorem identity_eq_of_compare {left right : MeshCacheEntry}
    (h : compareEvictionCandidate left right = .eq) : left.identity = right.identity := by
  unfold compareEvictionCandidate at h
  simp only [Ordering.then_eq_eq, Std.LawfulEqCmp.compare_eq_iff_eq] at h
  obtain ⟨-, -, hr, -, hp, hk⟩ := h
  unfold MeshCacheEntry.identity
  rw [evictionRank_injective hr, hp, hk]

/-- Entries with different identities are strictly ordered. -/
theorem eq_of_compare {entries : List MeshCacheEntry}
    (hd : entries.Pairwise fun a b => a.identity ≠ b.identity) {a b : MeshCacheEntry}
    (ha : a ∈ entries) (hb : b ∈ entries) (h : compareEvictionCandidate a b = .eq) : a = b := by
  by_contra hne
  have hs : Std.Symm fun a b : MeshCacheEntry => a.identity ≠ b.identity :=
    ⟨fun _ _ hxy heq => hxy heq.symm⟩
  exact hd.forall ha hb hne (identity_eq_of_compare h)

/-! ## Evictions -/

/-- The record of an eviction from these entries. -/
def evictionOf (present : Multiset MeshCacheEntry) (entry : MeshCacheEntry)
    (reason : MeshCacheEvictionReason) : MeshCacheEviction where
  cacheKey := entry.cacheKey
  peerId := entry.peerId
  lane := entry.lane
  bytes := entry.bytes
  statusBefore := entry.status
  statusAfter := .evicted
  reason := reason
  auditAction := "mesh.cache.evict"
  cacheBytesBefore := (usageOf present).totalBytes
  cacheBytesAfter := (usageOf (present.erase entry)).totalBytes
  evictedCount := 1

/-- The records of evictions one after the other. -/
def recordsOf (reason : Multiset MeshCacheEntry → MeshCacheEntry → MeshCacheEvictionReason) :
    Multiset MeshCacheEntry → List MeshCacheEntry → List MeshCacheEviction
  | _, [] => []
  | present, entry :: rest =>
    evictionOf present entry (reason present entry) :: recordsOf reason (present.erase entry) rest

theorem recordsOf_identity
    (reason : Multiset MeshCacheEntry → MeshCacheEntry → MeshCacheEvictionReason)
    (present : Multiset MeshCacheEntry) (g : List MeshCacheEntry) :
    (recordsOf reason present g).map (fun record => (record.peerId, record.lane,
      record.cacheKey)) = g.map MeshCacheEntry.identity := by
  induction g generalizing present with
  | nil => rfl
  | cons entry g ih => rw [recordsOf, List.map_cons, List.map_cons, ih]; rfl

/-- The entries that remain. -/
def RetentionState.present {entries : List MeshCacheEntry}
    (state : RetentionState entries.length) : Multiset MeshCacheEntry :=
  ↑(state.remaining.map entries.get)

section

variable {entries : List MeshCacheEntry} {state : RetentionState entries.length}

theorem get_mem_present {index : Fin entries.length} (h : index ∈ state.remaining) :
    entries.get index ∈ state.present := List.mem_map_of_mem h

theorem evictIndex_spec {index : Fin entries.length} (h : index ∈ state.remaining)
    (reason : MeshCacheEvictionReason) :
    (evictIndex entries index state reason).remaining = state.remaining.erase index
      ∧ (evictIndex entries index state reason).present = state.present.erase (entries.get index)
      ∧ (evictIndex entries index state reason).evictions
        = state.evictions ++ [evictionOf state.present (entries.get index) reason] := by
  have hp : (↑((state.remaining.erase index).map entries.get) : Multiset MeshCacheEntry)
      = state.present.erase (entries.get index) := by
    unfold RetentionState.present
    rw [← Multiset.map_coe, ← Multiset.map_coe, ← Multiset.coe_erase,
      Multiset.map_erase_of_mem _ _ (Multiset.mem_coe.mpr h)]
  unfold evictIndex
  rw [if_neg (not_not.mpr h)]
  refine ⟨rfl, hp, ?_⟩
  simp only [usageFor_eq, hp]
  rfl

/-! ## Expired entries -/

/-- **Evicting the expired entries in their order** removes the least one each time. -/
theorem foldl_evict_removes {now : ℕ} (expired : List (Fin entries.length))
    (hn : state.remaining.Nodup) (hexpired : expired.Nodup)
    (hs : expired.Pairwise fun i j =>
      compareEvictionCandidate (entries.get i) (entries.get j) ≠ .gt)
    (hm : ∀ i, i ∈ expired ↔ i ∈ state.remaining ∧ (entries.get i).isExpiredAt now = true) :
    Removes compareEvictionCandidate (fun _ entry => entry.isExpiredAt now = true) state.present
        (expired.map entries.get)
        (expired.foldl (fun state i => evictIndex entries i state .expired) state).present
      ∧ (expired.foldl (fun state i => evictIndex entries i state .expired) state).evictions
        = state.evictions ++ recordsOf (fun _ _ => .expired) state.present (expired.map entries.get)
      ∧ (expired.foldl (fun state i => evictIndex entries i state .expired) state).remaining.length
        ≤ state.remaining.length := by
  induction expired generalizing state with
  | nil =>
    refine ⟨.stop fun entry he hex => ?_, (List.append_nil _).symm, le_rfl⟩
    obtain ⟨i, hi, rfl⟩ := List.mem_map.mp he
    exact absurd ((hm i).mpr ⟨hi, hex⟩) List.not_mem_nil
  | cons i expired ih =>
    obtain ⟨hi, hex⟩ := (hm i).mp List.mem_cons_self
    obtain ⟨hr, hp, hev⟩ := evictIndex_spec hi .expired
    obtain ⟨hno, he'⟩ := List.nodup_cons.mp hexpired
    obtain ⟨hf, hs'⟩ := List.pairwise_cons.mp hs
    have hle : IsLeast compareEvictionCandidate (fun _ entry => entry.isExpiredAt now = true)
        state.present (entries.get i) := by
      refine ⟨get_mem_present hi, hex, fun entry he hen => ?_⟩
      obtain ⟨j, hj, rfl⟩ := List.mem_map.mp he
      rcases List.mem_cons.mp ((hm j).mpr ⟨hj, hen⟩) with rfl | hla
      · have hse : compareEvictionCandidate (entries.get j) (entries.get j) = .eq :=
          Std.ReflCmp.compare_self
        rw [hse]
        decide
      · exact hf j hla
    have hm' : ∀ j, j ∈ expired ↔ j ∈ (evictIndex entries i state .expired).remaining
        ∧ (entries.get j).isExpiredAt now = true := by
      intro j
      rw [hr, hn.mem_erase_iff]
      constructor
      · intro hj
        obtain ⟨hin, hje⟩ := (hm j).mp (List.mem_cons_of_mem i hj)
        exact ⟨⟨fun heq => hno (heq ▸ hj), hin⟩, hje⟩
      · rintro ⟨⟨hne, hin⟩, hje⟩
        exact ((List.mem_cons.mp ((hm j).mpr ⟨hin, hje⟩)).resolve_left hne)
    obtain ⟨hrem, hre, hl⟩ := ih (by rw [hr]; exact hn.erase i) he' hs' hm'
    rw [hp] at hrem hre
    rw [hr] at hl
    refine ⟨.remove hle hrem, ?_, hl.trans (List.length_erase_le)⟩
    rw [List.foldl_cons, hre, hev, List.append_assoc]
    rfl

end

/-! ## Rounds -/

section

variable (input : MeshCacheRetentionInput)

/-- An entry is to blame when a quota that covers it is exceeded. -/
def overQuota (present : Multiset MeshCacheEntry) (entry : MeshCacheEntry) : Prop :=
  Covered input.quotas (usageOf present) entry

/-- The reason for evicting an entry from these ones. -/
def quotaReason (present : Multiset MeshCacheEntry) (entry : MeshCacheEntry) :
    MeshCacheEvictionReason :=
  reasonForQuotaEviction entry (quotaViolations (usageOf present) input.quotas)

/-- The plan that keeps these entries. -/
def planFor (left : Multiset MeshCacheEntry) (evictions : List MeshCacheEviction) :
    MeshCacheRetentionPlan :=
  planWith input (usageOf left) evictions (quotaNearLimitWarnings (usageOf left) input.quotas 90)

/-- **One round** finds all quotas met or evicts the least covered entry. -/
theorem retentionRound_cases (state : RetentionState input.entries.length) :
    (WithinQuotas input.quotas (usageOf state.present)
      ∧ retentionRound input state = .finished (planFor input state.present state.evictions))
    ∨ ∃ index ∈ state.remaining,
      IsLeast compareEvictionCandidate (overQuota input) state.present (input.entries.get index)
      ∧ retentionRound input state = .evicted (evictIndex input.entries index state
        (quotaReason input state.present (input.entries.get index))) := by
  have hu := usageFor_eq input.entries state.remaining
  change _ = usageOf state.present at hu
  unfold retentionRound
  simp only [hu]
  by_cases hn : quotaViolations (usageOf state.present) input.quotas = []
  · rw [if_pos hn]
    exact .inl ⟨quotaViolations_eq_nil_iff.mp hn, rfl⟩
  rw [if_neg hn]
  set cs := state.remaining.filter fun index => intersectsQuotaViolation (input.entries.get index)
      (quotaViolations (usageOf state.present) input.quotas) with hcandidates
  have hm : ∀ i, i ∈ cs ↔ i ∈ state.remaining
      ∧ overQuota input state.present (input.entries.get i) := by
    intro i
    rw [hcandidates, List.mem_filter, intersectsQuotaViolation_iff]
    rfl
  have hcm : Std.TransCmp fun i j : Fin input.entries.length =>
      compareEvictionCandidate (input.entries.get i) (input.entries.get j) :=
    ComparisonSort.transCmp_on input.entries.get
  have hst := @StableSort.isStableSort_sortBy _ (fun i j : Fin input.entries.length =>
      compareEvictionCandidate (input.entries.get i) (input.entries.get j)) hcm cs
  have hs : ∀ i, i ∈ sortEvictionCandidates input.entries cs ↔ i ∈ cs := fun i => hst.mem_iff
  cases hso : sortEvictionCandidates input.entries cs with
  | nil =>
    -- an exceeded quota covers an entry, which is a candidate
    obtain ⟨entry, he, hc⟩ := exists_mem_covered fun hw => hn (quotaViolations_eq_nil_iff.mpr hw)
    obtain ⟨i, hi, rfl⟩ := List.mem_map.mp he
    have hin := (hs i).mpr ((hm i).mpr ⟨hi, hc⟩)
    rw [hso] at hin
    exact absurd hin List.not_mem_nil
  | cons index r =>
    obtain ⟨hind, hb⟩ := (hm index).mp ((hs index).mp (by rw [hso]; exact List.mem_cons_self))
    have hp := hst.sorted
    change (sortEvictionCandidates input.entries cs).Pairwise _ at hp
    rw [hso] at hp
    refine .inr ⟨index, hind, ⟨get_mem_present hind, hb, ?_⟩, rfl⟩
    intro entry he hen
    obtain ⟨j, hj, rfl⟩ := List.mem_map.mp he
    have hin := (hs j).mpr ((hm j).mpr ⟨hj, hen⟩)
    rw [hso] at hin
    rcases List.mem_cons.mp hin with rfl | hl
    · have hse : compareEvictionCandidate (input.entries.get j) (input.entries.get j) = .eq :=
        Std.ReflCmp.compare_self
      rw [hse]
      decide
    · exact List.rel_of_pairwise_cons hp hl

/-- **The loop never gives up.** -/
theorem retentionRound_ne_gaveUp (state : RetentionState input.entries.length)
    (plan : MeshCacheRetentionPlan) : retentionRound input state ≠ .gaveUp plan := by
  rcases retentionRound_cases input state with ⟨-, hr⟩ | ⟨index, -, -, hr⟩
  · rw [hr]
    exact fun heq => by cases heq
  · rw [hr]
    exact fun heq => by cases heq

/-- **The loop ends**, and removes the least covered entries. -/
theorem retentionLoop_removes (rs : ℕ) (state : RetentionState input.entries.length)
    (hrou : state.remaining.length < rs) :
    ∃ g left, Removes compareEvictionCandidate (overQuota input) state.present g left
      ∧ WithinQuotas input.quotas (usageOf left)
      ∧ retentionLoop input rs state = some (planFor input left
        (state.evictions ++ recordsOf (quotaReason input) state.present g)) := by
  induction rs generalizing state with
  | zero => exact absurd hrou (Nat.not_lt_zero _)
  | succ rs ih =>
    rw [retentionLoop]
    rcases retentionRound_cases input state with ⟨hw, hro⟩ | ⟨index, hi, hle, hro⟩
    · refine ⟨[], state.present, .stop fun entry _ hc => ?_, hw, ?_⟩
      · rcases hc with ⟨l, hl, hlt⟩ | ⟨l, hl, hlt⟩ | ⟨l, hl, hlt⟩
        · exact absurd hlt (Nat.not_lt.mpr (hw.global l hl))
        · exact absurd hlt (Nat.not_lt.mpr (hw.peer l hl _))
        · exact absurd hlt (Nat.not_lt.mpr (hw.lane _ l hl))
      · rw [hro, recordsOf, List.append_nil]
    · obtain ⟨hre, hp, he⟩ := evictIndex_spec hi
        (quotaReason input state.present (input.entries.get index))
      obtain ⟨g, left, hr, hw, hlo⟩ := ih _ (by
        rw [hre, List.length_erase_of_mem hi]
        have hpo := List.length_pos_of_mem hi
        omega)
      rw [hp] at hr hlo
      refine ⟨input.entries.get index :: g, left, .remove hle hr, hw, ?_⟩
      rw [hro]
      simp only [hlo, he, List.append_assoc]
      rfl

/-! ## The plan -/

theorem map_get_billableIndexes : (billableIndexes input).map input.entries.get
    = input.entries.filter MeshCacheEntry.isBillableCache := by
  have ha := List.map_get_finRange input.entries
  calc (billableIndexes input).map input.entries.get
      = ((List.finRange input.entries.length).map input.entries.get).filter
          MeshCacheEntry.isBillableCache := by
        rw [List.filter_map]
        rfl
    _ = input.entries.filter MeshCacheEntry.isBillableCache := by rw [ha]

/-- The billable entries. -/
def billable : Multiset MeshCacheEntry :=
  ↑(input.entries.filter MeshCacheEntry.isBillableCache)

/-- **The first phase removes the expired entries.** -/
theorem afterExpiry_removes : ∃ expired, Removes compareEvictionCandidate
        (fun _ entry => entry.isExpiredAt input.nowEpochMs = true) (billable input) expired
        (afterExpiry input).present
      ∧ (afterExpiry input).evictions = recordsOf (fun _ _ => .expired) (billable input) expired
      ∧ (afterExpiry input).remaining.length ≤ input.entries.length := by
  have hc : Std.TransCmp fun i j : Fin input.entries.length =>
      compareEvictionCandidate (input.entries.get i) (input.entries.get j) :=
    ComparisonSort.transCmp_on input.entries.get
  have hn : (billableIndexes input).Nodup := (List.nodup_finRange _).filter _
  have hs := @StableSort.isStableSort_sortBy _ (fun i j : Fin input.entries.length =>
      compareEvictionCandidate (input.entries.get i) (input.entries.get j)) hc
    ((billableIndexes input).filter fun index =>
      (input.entries.get index).isExpiredAt input.nowEpochMs)
  have he : (sortEvictionCandidates input.entries ((billableIndexes input).filter fun index =>
      (input.entries.get index).isExpiredAt input.nowEpochMs)).Nodup :=
    (List.perm_insertionSort _ _).nodup_iff.mpr (hn.filter _)
  obtain ⟨hre, hr, hl⟩ := @foldl_evict_removes input.entries
    ⟨billableIndexes input, []⟩ input.nowEpochMs _ hn he hs.sorted fun i => by
      rw [sortEvictionCandidates, hs.mem_iff, List.mem_filter]
  have hp : RetentionState.present ⟨billableIndexes input, []⟩ = billable input :=
    congrArg _ (map_get_billableIndexes input)
  rw [hp] at hre hr
  refine ⟨_, hre, hr, hl.trans ?_⟩
  have hle := List.length_filter_le (fun index => (input.entries.get index).isBillableCache)
    (List.finRange input.entries.length)
  rwa [List.length_finRange] at hle

/-- **What the plan evicts and keeps.** -/
theorem planMeshCacheRetention_removes : ∃ expired ev m left, Removes compareEvictionCandidate
        (fun _ entry => entry.isExpiredAt input.nowEpochMs = true) (billable input) expired m
      ∧ Removes compareEvictionCandidate (overQuota input) m ev left
      ∧ WithinQuotas input.quotas (usageOf left)
      ∧ planMeshCacheRetention input = some (planFor input left
        (recordsOf (fun _ _ => .expired) (billable input) expired
          ++ recordsOf (quotaReason input) m ev)) := by
  obtain ⟨expired, hex, hr, hle⟩ := afterExpiry_removes input
  obtain ⟨ev, left, he, hw, hl⟩ := retentionLoop_removes input
    (input.entries.length + 1) (afterExpiry input) (Nat.lt_succ_of_le hle)
  rw [hr] at hl
  exact ⟨expired, ev, _, left, hex, he, hw, hl⟩

/-- Billable entries that compare equal are equal. -/
theorem eq_of_compare_billable (hd : input.entries.Pairwise fun a b => a.identity ≠ b.identity) :
    ∀ a ∈ billable input, ∀ b ∈ billable input, compareEvictionCandidate a b = .eq → a = b :=
  fun _ ha _ hb h => eq_of_compare hd (List.mem_of_mem_filter ha) (List.mem_of_mem_filter hb) h

/-- **The order of the entries does not matter.** -/
theorem planMeshCacheRetention_perm (hd : input.entries.Pairwise fun a b => a.identity ≠ b.identity)
    {entries : List MeshCacheEntry} (hp : entries.Perm input.entries) :
    planMeshCacheRetention { input with entries := entries } = planMeshCacheRetention input := by
  obtain ⟨expired, ev, m, left, he, hev, -, hpl⟩ := planMeshCacheRetention_removes input
  obtain ⟨ex', e', m', l', he', hev', -, hp'⟩ :=
    planMeshCacheRetention_removes { input with entries := entries }
  have hbi : billable { input with entries := entries } = billable input :=
    Multiset.coe_eq_coe.mpr (hp.filter _)
  have hin := eq_of_compare_billable input hd
  rw [hbi] at he' hp'
  obtain ⟨rfl, rfl⟩ := he'.unique hin he
  have hs : ∀ entry ∈ m', entry ∈ billable input := by
    intro entry hen
    rw [← he.add_eq]
    exact Multiset.mem_add.mpr (.inr hen)
  obtain ⟨rfl, rfl⟩ := hev'.unique (fun a ha b hb => hin a (hs a ha) b (hs b hb)) hev
  have hbe : usageFor entries (billableIndexes { input with entries := entries })
      = usageFor input.entries (billableIndexes input) := by
    have hi := map_get_billableIndexes { input with entries := entries }
    rw [usageFor_eq, usageFor_eq, map_get_billableIndexes input]
    exact (congrArg (fun l : List MeshCacheEntry => usageOf ↑l) hi).trans (congrArg usageOf hbi)
  have hc : protectedLocalSourceTruthCount { input with entries := entries }
      = protectedLocalSourceTruthCount input := (hp.filter _).length_eq
  rw [hp', hpl]
  unfold planFor planWith
  simp only [hbe, hc]
  rfl

end

/-- **Retention meets every quota and only evicts with cause.**  The plan is found, without giving
up; the billable entries are those that are evicted and those that are left; all that are
expired go and no local source of truth does; every quota is met in the end; what goes for a quota
is at that moment the least retained entry that an exceeded quota covers; and the order of the
entries does not matter. -/
theorem mesh_cache_retention_meets_quotas (input : MeshCacheRetentionInput)
    (hdistinct : input.entries.Pairwise fun a b => a.identity ≠ b.identity) :
    (∀ state plan, retentionRound input state ≠ .gaveUp plan)
    ∧ (∃ (plan : MeshCacheRetentionPlan) (expired evicted : List MeshCacheEntry)
        (left : Multiset MeshCacheEntry),
      planMeshCacheRetention input = some plan
      ∧ (↑(expired ++ evicted) : Multiset MeshCacheEntry) + left
        = ↑(input.entries.filter MeshCacheEntry.isBillableCache)
      ∧ plan.evictions.map (fun record => (record.peerId, record.lane, record.cacheKey))
        = (expired ++ evicted).map MeshCacheEntry.identity
      ∧ plan.usageAfter = usageOf left
      ∧ (∀ entry ∈ expired ++ evicted, entry.boundary ≠ .localSourceTruth)
      ∧ (∀ entry ∈ expired, entry.isExpiredAt input.nowEpochMs = true)
      ∧ (∀ entry ∈ input.entries, entry.isBillableCache = true →
        entry.isExpiredAt input.nowEpochMs = true → entry ∈ expired)
      ∧ WithinQuotas input.quotas plan.usageAfter
      ∧ ∀ before entry after, evicted = before ++ entry :: after →
        Covered input.quotas (usageOf (entry ::ₘ (↑after + left))) entry
        ∧ ∀ other ∈ ↑after + left,
          Covered input.quotas (usageOf (entry ::ₘ (↑after + left))) other →
            compareEvictionCandidate entry other = .lt)
    ∧ ∀ entries, entries.Perm input.entries →
      planMeshCacheRetention { input with entries := entries } = planMeshCacheRetention input := by
  refine ⟨retentionRound_ne_gaveUp input, ?_,
    fun entries hp => planMeshCacheRetention_perm input hdistinct hp⟩
  obtain ⟨expired, evicted, m, left, hex, hev, hw, hpl⟩ := planMeshCacheRetention_removes input
  have hs : ↑(expired ++ evicted) + left = billable input := by
    rw [← Multiset.coe_add, add_assoc, hev.add_eq, hex.add_eq]
  have hm : ∀ entry ∈ expired ++ evicted, entry ∈ billable input := by
    intro entry he
    rw [← hs]
    exact Multiset.mem_add.mpr (.inl he)
  refine ⟨_, expired, evicted, left, hpl, hs, ?_, rfl, ?_, hex.blamed_of_mem, ?_, hw, ?_⟩
  · change (recordsOf _ _ expired ++ recordsOf _ _ evicted).map _ = _
    rw [List.map_append, recordsOf_identity, recordsOf_identity, List.map_append]
  · intro entry he hlo
    have hb := (List.mem_filter.mp (hm entry he)).2
    rw [MeshCacheEntry.isBillableCache, MeshCacheEntry.isDerivedCache, hlo] at hb
    cases hb
  · intro entry he hb hexp
    exact hex.mem_of_blamed (List.mem_filter.mpr ⟨he, hb⟩) hexp
  · intro before entry after hg
    obtain ⟨-, hc, hl⟩ := hev.at_moment hg
    refine ⟨hc, fun other hot ho => ?_⟩
    -- an entry that compares equal would be the same entry, which is there only once
    have hn : (entry ::ₘ (↑after + left)).Nodup := by
      have ha : (billable input).Nodup := by
        have hent : input.entries.Nodup :=
          hdistinct.imp fun hne heq => hne (congrArg MeshCacheEntry.identity heq)
        exact Multiset.coe_nodup.mpr (hent.filter _)
      refine Multiset.nodup_of_le ?_ ha
      rw [← hs, hg, ← Multiset.cons_add, Multiset.cons_coe]
      refine add_le_add_left ?_ left
      rw [← List.append_assoc]
      exact Multiset.coe_le.mpr (List.sublist_append_right _ _).subperm
    have hen : entry ∈ billable input := hm entry (by rw [hg]; simp)
    have hoth : other ∈ billable input := by
      rw [← hs, hg]
      simp only [Multiset.mem_add, Multiset.mem_coe, List.mem_append, List.mem_cons] at hot ⊢
      tauto
    cases hcm : compareEvictionCandidate entry other with
    | lt => rfl
    | eq =>
      obtain rfl := eq_of_compare_billable input hdistinct entry hen other hoth hcm
      exact absurd hot (Multiset.nodup_cons.mp hn).1
    | gt =>
      exact absurd hcm (hl other (Multiset.mem_cons_of_mem hot) ho)

/-- Two entries of one peer, one of them expired, against a quota of no bytes for bodies. -/
def crowdedCache : MeshCacheRetentionInput where
  entries :=
    [⟨"k1", "p", "wsp_p", "mem_k1", .body, .available, .derivedPeerCache, 10, 0, 500, none, none⟩,
      ⟨"k2", "p", "wsp_p", "mem_k2", .body, .expired, .derivedPeerCache, 20, 1, 500, none, none⟩]
  quotas := ⟨none, some 15, none, some 0, none⟩
  nowEpochMs := 7

theorem mesh_cache_retention_meets_quotas_crowded :
    crowdedCache.entries.Pairwise (fun a b => a.identity ≠ b.identity)
    ∧ ∃ plan, planMeshCacheRetention crowdedCache = some plan
      ∧ WithinQuotas crowdedCache.quotas plan.usageAfter := by
  have hd : crowdedCache.entries.Pairwise fun a b => a.identity ≠ b.identity := by decide
  obtain ⟨-, ⟨plan, _, _, _, hp, -, -, -, -, -, -, hw, -⟩, -⟩ :=
    mesh_cache_retention_meets_quotas crowdedCache hd
  exact ⟨hd, plan, hp, hw⟩

end MeshCache
