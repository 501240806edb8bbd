/-
# Retention of the mesh cache (`src/mesh/cache.rs`)

Derived peer material is billed against a global quota, a quota for each peer and one for each
lane.  `plan_mesh_cache_retention` first evicts what has expired and then, while a quota is
exceeded, the least retained entry that an exceeded quota covers.

The set of indexes that remain is an ascending list here, and the map of the bytes for each peer
an `ExtTreeMap`, which iterates in the order of its keys.
-/
import EideticEngine.MachineInt
import EideticEngine.StableSort
import EideticEngine.TextOrder

namespace MeshCache

open Std (ExtTreeMap)
open RustText (strCmp)

/-! ## Entries -/

inductive MeshCacheLane where
  | metadata
  | body
  | embedding
  deriving DecidableEq

namespace MeshCacheLane

def asStr : MeshCacheLane → String
  | metadata => "metadata"
  | body => "body"
  | embedding => "embedding"

def evictionRank : MeshCacheLane → ℕ
  | body => 0
  | embedding => 1
  | metadata => 2

end MeshCacheLane

inductive MeshCacheStatus where
  | metadataOnly
  | staging
  | available
  | quarantined
  | invalidatedPendingPurge
  | evicted
  | expired
  | purged
  deriving DecidableEq

def MeshCacheStatus.hasCacheBytes : MeshCacheStatus → Bool
  | evicted | purged => false
  | _ => true

inductive MeshCacheBoundary where
  | derivedPeerCache
  | localSourceTruth
  deriving DecidableEq

structure MeshCacheEntry where
  cacheKey : String
  peerId : String
  originWorkspaceId : String
  logicalMemoryId : String
  lane : MeshCacheLane
  status : MeshCacheStatus
  boundary : MeshCacheBoundary
  bytes : ℕ
  lastAccessSeq : ℕ
  retentionScore : ℕ
  contentHash : Option String
  expiresAtEpochMs : Option ℕ
  deriving DecidableEq

namespace MeshCacheEntry

def isDerivedCache (entry : MeshCacheEntry) : Bool := entry.boundary = .derivedPeerCache

def isBillableCache (entry : MeshCacheEntry) : Bool :=
  entry.isDerivedCache && entry.status.hasCacheBytes

def isExpiredAt (entry : MeshCacheEntry) (nowEpochMs : ℕ) : Bool :=
  entry.status = .expired || entry.expiresAtEpochMs.any (· ≤ nowEpochMs)

/-- The peer, the lane and the key of an entry. -/
def identity (entry : MeshCacheEntry) : String × MeshCacheLane × String :=
  (entry.peerId, entry.lane, entry.cacheKey)

end MeshCacheEntry

/-! ## Quotas and usage -/

structure MeshCacheQuotas where
  globalBytes : Option ℕ
  perPeerBytes : Option ℕ
  metadataBytes : Option ℕ
  bodyBytes : Option ℕ
  embeddingBytes : Option ℕ

def MeshCacheQuotas.laneLimit (quotas : MeshCacheQuotas) : MeshCacheLane → Option ℕ
  | .metadata => quotas.metadataBytes
  | .body => quotas.bodyBytes
  | .embedding => quotas.embeddingBytes

structure MeshCacheRetentionInput where
  entries : List MeshCacheEntry
  quotas : MeshCacheQuotas
  nowEpochMs : ℕ

structure MeshCacheUsage where
  totalBytes : ℕ
  metadataBytes : ℕ
  bodyBytes : ℕ
  embeddingBytes : ℕ
  byPeerBytes : ExtTreeMap String ℕ strCmp
  entryCount : ℕ

namespace MeshCacheUsage

def empty : MeshCacheUsage := ⟨0, 0, 0, 0, ∅, 0⟩

/-- Add to the bytes of a lane. -/
def addLane (usage : MeshCacheUsage) (lane : MeshCacheLane) (bytes : ℕ) : MeshCacheUsage :=
  match lane with
  | .metadata => { usage with metadataBytes := satAdd64 usage.metadataBytes bytes }
  | .body => { usage with bodyBytes := satAdd64 usage.bodyBytes bytes }
  | .embedding => { usage with embeddingBytes := satAdd64 usage.embeddingBytes bytes }

def add (usage : MeshCacheUsage) (entry : MeshCacheEntry) : MeshCacheUsage :=
  if !entry.isBillableCache then usage
  else
    let usage := { usage with
      entryCount := satAdd64 usage.entryCount 1
      totalBytes := satAdd64 usage.totalBytes entry.bytes }
    let usage := usage.addLane entry.lane entry.bytes
    { usage with
      byPeerBytes := usage.byPeerBytes.insert entry.peerId
        (satAdd64 (usage.byPeerBytes.getD entry.peerId 0) entry.bytes) }

def bytesForLane (usage : MeshCacheUsage) : MeshCacheLane → ℕ
  | .metadata => usage.metadataBytes
  | .body => usage.bodyBytes
  | .embedding => usage.embeddingBytes

end MeshCacheUsage

def usageFor (entries : List MeshCacheEntry) (remaining : List (Fin entries.length)) :
    MeshCacheUsage :=
  remaining.foldl (fun usage index => usage.add (entries.get index)) .empty

/-! ## Warnings -/

inductive MeshCacheQuotaKind where
  | global
  | peer
  | lane
  deriving DecidableEq

def MeshCacheQuotaKind.asStr : MeshCacheQuotaKind → String
  | global => "global"
  | peer => "peer"
  | lane => "lane"

inductive MeshCacheQuotaWarningSeverity where
  | nearLimit
  | wouldExceed
  deriving DecidableEq

structure MeshCacheQuotaWarning where
  kind : MeshCacheQuotaKind
  peerId : Option String
  lane : Option MeshCacheLane
  bytesAfter : ℕ
  limitBytes : ℕ
  severity : MeshCacheQuotaWarningSeverity
  deriving DecidableEq

/-- The order of `Option`: nothing comes first. -/
def optionCmp {α : Type*} (cmp : α → α → Ordering) : Option α → Option α → Ordering
  | none, none => .eq
  | none, some _ => .lt
  | some _, none => .gt
  | some a, some b => cmp a b

def compareQuotaWarning (left right : MeshCacheQuotaWarning) : Ordering :=
  (strCmp left.kind.asStr right.kind.asStr).then
    ((optionCmp strCmp left.peerId right.peerId).then
      ((optionCmp strCmp (left.lane.map MeshCacheLane.asStr)
          (right.lane.map MeshCacheLane.asStr)).then
        ((compare left.bytesAfter right.bytesAfter).then
          (compare left.limitBytes right.limitBytes))))

def crossesThreshold (bytesAfter limitBytes thresholdPercent : ℕ) : Bool :=
  if limitBytes = 0 then bytesAfter = 0
  else limitBytes * thresholdPercent ≤ bytesAfter * 100

/-- The warning of `push_quota_warning`, if there is one to push. -/
def quotaWarning (kind : MeshCacheQuotaKind) (peerId : Option String)
    (lane : Option MeshCacheLane) (bytesAfter : ℕ) (limitBytes : Option ℕ)
    (thresholdPercent : Option ℕ) : List MeshCacheQuotaWarning :=
  match limitBytes with
  | none => []
  | some limitBytes =>
    if limitBytes < bytesAfter then
      [⟨kind, peerId, lane, bytesAfter, limitBytes, .wouldExceed⟩]
    else if thresholdPercent.any (crossesThreshold bytesAfter limitBytes) then
      [⟨kind, peerId, lane, bytesAfter, limitBytes, .nearLimit⟩]
    else []

/-- The warnings before they are sorted. -/
def pushedWarnings (usage : MeshCacheUsage) (quotas : MeshCacheQuotas)
    (thresholdPercent : Option ℕ) : List MeshCacheQuotaWarning :=
  quotaWarning .global none none usage.totalBytes quotas.globalBytes thresholdPercent
    ++ (match quotas.perPeerBytes with
      | none => []
      | some limit => usage.byPeerBytes.toList.flatMap fun (peerId, bytesAfter) =>
          quotaWarning .peer (some peerId) none bytesAfter (some limit) thresholdPercent)
    ++ [MeshCacheLane.metadata, .body, .embedding].flatMap fun lane =>
      quotaWarning .lane none (some lane) (usage.bytesForLane lane) (quotas.laneLimit lane)
        thresholdPercent

def quotaWarningsForUsage (usage : MeshCacheUsage) (quotas : MeshCacheQuotas)
    (thresholdPercent : Option ℕ) : List MeshCacheQuotaWarning :=
  (StableSort.sortBy compareQuotaWarning (pushedWarnings usage quotas thresholdPercent)).destutter
    (· ≠ ·)

def quotaViolations (usage : MeshCacheUsage) (quotas : MeshCacheQuotas) :
    List MeshCacheQuotaWarning := quotaWarningsForUsage usage quotas none

def quotaNearLimitWarnings (usage : MeshCacheUsage) (quotas : MeshCacheQuotas)
    (warningThresholdPercent : ℕ) : List MeshCacheQuotaWarning :=
  if warningThresholdPercent = 0 then []
  else quotaWarningsForUsage usage quotas (some (min warningThresholdPercent 100))

/-! ## Evictions -/

inductive MeshCacheEvictionReason where
  | expired
  | peerQuotaExceeded
  | laneQuotaExceeded
  | globalQuotaExceeded
  | manualPurge
  deriving DecidableEq

structure MeshCacheEviction where
  cacheKey : String
  peerId : String
  lane : MeshCacheLane
  bytes : ℕ
  statusBefore : MeshCacheStatus
  statusAfter : MeshCacheStatus
  reason : MeshCacheEvictionReason
  auditAction : String
  cacheBytesBefore : ℕ
  cacheBytesAfter : ℕ
  evictedCount : ℕ
  deriving DecidableEq

def intersectsQuotaViolation (entry : MeshCacheEntry) (violations : List MeshCacheQuotaWarning) :
    Bool :=
  violations.any fun violation =>
    match violation.kind with
    | .global => true
    | .peer => violation.peerId = some entry.peerId
    | .lane => violation.lane = some entry.lane

def reasonForQuotaEviction (entry : MeshCacheEntry) (violations : List MeshCacheQuotaWarning) :
    MeshCacheEvictionReason :=
  if violations.any fun violation =>
      violation.kind = .peer && violation.peerId = some entry.peerId then .peerQuotaExceeded
  else if violations.any fun violation =>
      violation.kind = .lane && violation.lane = some entry.lane then .laneQuotaExceeded
  else .globalQuotaExceeded

def compareEvictionCandidate (left right : MeshCacheEntry) : Ordering :=
  (compare left.retentionScore right.retentionScore).then
    ((compare left.lastAccessSeq right.lastAccessSeq).then
      ((compare left.lane.evictionRank right.lane.evictionRank).then
        ((compare right.bytes left.bytes).then
          ((strCmp left.peerId right.peerId).then (strCmp left.cacheKey right.cacheKey)))))

def sortEvictionCandidates (entries : List MeshCacheEntry)
    (candidates : List (Fin entries.length)) : List (Fin entries.length) :=
  StableSort.sortBy
    (fun left right => compareEvictionCandidate (entries.get left) (entries.get right)) candidates

/-- What remains and what was evicted. -/
structure RetentionState (n : ℕ) where
  remaining : List (Fin n)
  evictions : List MeshCacheEviction

def evictIndex (entries : List MeshCacheEntry) (index : Fin entries.length)
    (state : RetentionState entries.length) (reason : MeshCacheEvictionReason) :
    RetentionState entries.length :=
  if index ∉ state.remaining then state
  else
    let before := usageFor entries state.remaining
    let remaining := state.remaining.erase index
    let after := usageFor entries remaining
    let entry := entries.get index
    ⟨remaining, state.evictions ++
      [{ cacheKey := entry.cacheKey
         peerId := entry.peerId
         lane := entry.lane
         bytes := entry.bytes
         statusBefore := entry.status
         statusAfter := .evicted
         reason := reason
         auditAction := "mesh.cache.evict"
         cacheBytesBefore := before.totalBytes
         cacheBytesAfter := after.totalBytes
         evictedCount := 1 }]⟩

/-! ## The plan -/

structure MeshCacheRetentionPlan where
  schema : String
  usageBefore : MeshCacheUsage
  usageAfter : MeshCacheUsage
  evictions : List MeshCacheEviction
  warnings : List MeshCacheQuotaWarning
  protectedLocalSourceTruthCount : ℕ

/-- One round of the loop: the plan is done, no candidate is left to evict, or one was evicted. -/
inductive RetentionRound (n : ℕ) where
  | finished (plan : MeshCacheRetentionPlan)
  | gaveUp (plan : MeshCacheRetentionPlan)
  | evicted (state : RetentionState n)

section

variable (input : MeshCacheRetentionInput)

def billableIndexes : List (Fin input.entries.length) :=
  (List.finRange input.entries.length).filter fun index =>
    (input.entries.get index).isBillableCache

def protectedLocalSourceTruthCount : ℕ :=
  (input.entries.filter fun entry => entry.boundary = .localSourceTruth).length

/-- The plan with these final values. -/
def planWith (usage : MeshCacheUsage) (evictions : List MeshCacheEviction)
    (warnings : List MeshCacheQuotaWarning) : MeshCacheRetentionPlan where
  schema := "ee.mesh.cache_retention.v1"
  usageBefore := usageFor input.entries (billableIndexes input)
  usageAfter := usage
  evictions := evictions
  warnings := warnings
  protectedLocalSourceTruthCount := protectedLocalSourceTruthCount input

/-- The state when all expired entries are evicted. -/
def afterExpiry : RetentionState input.entries.length :=
  let expired := (billableIndexes input).filter fun index =>
    (input.entries.get index).isExpiredAt input.nowEpochMs
  (sortEvictionCandidates input.entries expired).foldl
    (fun state index => evictIndex input.entries index state .expired) ⟨billableIndexes input, []⟩

def retentionRound (state : RetentionState input.entries.length) :
    RetentionRound input.entries.length :=
  let usage := usageFor input.entries state.remaining
  let violations := quotaViolations usage input.quotas
  if violations = [] then
    .finished (planWith input usage state.evictions (quotaNearLimitWarnings usage input.quotas 90))
  else
    let candidates := state.remaining.filter fun index =>
      intersectsQuotaViolation (input.entries.get index) violations
    match sortEvictionCandidates input.entries candidates with
    | [] => .gaveUp (planWith input usage state.evictions violations)
    | index :: _ =>
      .evicted (evictIndex input.entries index state
        (reasonForQuotaEviction (input.entries.get index) violations))

/-- The loop; there is no plan if it does not end in so many rounds. -/
def retentionLoop : ℕ → RetentionState input.entries.length → Option MeshCacheRetentionPlan
  | 0, _ => none
  | rounds + 1, state =>
    match retentionRound input state with
    | .finished plan => some plan
    | .gaveUp plan => some plan
    | .evicted state => retentionLoop rounds state

/-- No run has more rounds than there are entries, and one to find that all quotas hold. -/
def planMeshCacheRetention : Option MeshCacheRetentionPlan :=
  retentionLoop input (input.entries.length + 1) (afterExpiry input)

end

end MeshCache
