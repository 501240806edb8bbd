/-
# Admission of a mesh peer

`decide_admission` allows, rejects or throttles one authenticated request of a peer from the
limits and the counters kept for that peer; `record_authenticated_admission` folds the
decision back into the counters.  Two counters only ever grow: the payload rejections and
the budget rejections.  Past its limit either of them gives a backoff deadline, and the
deadline is computed again from the time of every decision.
-/
import Mathlib
import EideticEngine.MachineInt

namespace MeshAdmission

/-! ## Requests, limits and counters -/

/-- `MESH_ADMISSION_SCHEMA_V1`. -/
def meshAdmissionSchemaV1 : String := "ee.mesh.admission.v1"

/-- `MeshAdmissionRequestKind`. -/
inductive MeshAdmissionRequestKind where
  | hello
  | tipAdvertise
  | rangeRequest
  | eventBatch
  | bodyFetch
  | indexJobs
  deriving DecidableEq

/-- `MeshAdmissionAction`. -/
inductive MeshAdmissionAction where
  | allow
  | reject
  | throttle
  deriving DecidableEq

/-- `MeshAdmissionReason`. -/
inductive MeshAdmissionReason where
  | withinBudget
  | peerThrottled
  | payloadRejected
  | budgetExhausted
  | backoffActive
  deriving DecidableEq

/-- `MeshAdmissionReason::code`. -/
def MeshAdmissionReason.code : MeshAdmissionReason → String
  | .withinBudget => "mesh_admission_allowed"
  | .peerThrottled => "mesh_peer_throttled"
  | .payloadRejected => "mesh_payload_rejected"
  | .budgetExhausted => "mesh_peer_budget_exhausted"
  | .backoffActive => "mesh_peer_backoff_active"

/-- `MeshAdmissionLimits`. -/
structure MeshAdmissionLimits where
  maxConcurrentRequestsPerPeer : ℕ
  maxEventBatchCount : ℕ
  maxEventBatchBytes : ℕ
  maxBodyFetchBytes : ℕ
  maxIndexJobsPerRound : ℕ
  maxMalformedFramesBeforeBackoff : ℕ
  maxPolicyDenialsBeforeBackoff : ℕ
  initialBackoffMs : ℕ
  maxBackoffMs : ℕ

/-- `MeshAdmissionLimits::conservative_default`. -/
def MeshAdmissionLimits.conservativeDefault : MeshAdmissionLimits where
  maxConcurrentRequestsPerPeer := 4
  maxEventBatchCount := 512
  maxEventBatchBytes := 4 * 1024 * 1024
  maxBodyFetchBytes := 512 * 1024
  maxIndexJobsPerRound := 16
  maxMalformedFramesBeforeBackoff := 3
  maxPolicyDenialsBeforeBackoff := 5
  initialBackoffMs := 1000
  maxBackoffMs := 60000

/-- `MeshPeerAdmissionState`. -/
structure MeshPeerAdmissionState where
  peerId : String
  inFlightRequests : ℕ
  queuedIndexJobs : ℕ
  malformedFrameCount : ℕ
  policyDenialCount : ℕ
  backoffUntilEpochMs : Option ℕ
  localTier1Reserved : Bool
  deriving DecidableEq

/-- `MeshPeerAdmissionState::new`. -/
def MeshPeerAdmissionState.new (peerId : String) : MeshPeerAdmissionState :=
  ⟨peerId, 0, 0, 0, 0, none, true⟩

/-- `MeshAdmissionRequest`. -/
structure MeshAdmissionRequest where
  peerId : String
  kind : MeshAdmissionRequestKind
  payloadBytes : ℕ
  eventCount : ℕ
  bodyFetchBytes : ℕ
  requestedIndexJobs : ℕ
  nowEpochMs : ℕ

/-- `MeshAdmissionDecision`. -/
structure MeshAdmissionDecision where
  schema : String
  peerId : String
  requestKind : MeshAdmissionRequestKind
  action : MeshAdmissionAction
  reason : MeshAdmissionReason
  code : String
  payloadBytes : ℕ
  eventCount : ℕ
  bodyFetchBytes : ℕ
  requestedIndexJobs : ℕ
  inFlightRequests : ℕ
  queuedIndexJobs : ℕ
  backoffUntilEpochMs : Option ℕ
  localTier1Unaffected : Bool

/-- `MeshAdmissionDecision::allowed`. -/
def MeshAdmissionDecision.allowed (decision : MeshAdmissionDecision) : Bool :=
  decision.action = .allow

/-! ## Deciding and recording -/

/-- `decision`. -/
def decision (state : MeshPeerAdmissionState) (request : MeshAdmissionRequest)
    (action : MeshAdmissionAction) (reason : MeshAdmissionReason)
    (backoffUntilEpochMs : Option ℕ) : MeshAdmissionDecision where
  schema := meshAdmissionSchemaV1
  peerId := request.peerId
  requestKind := request.kind
  action
  reason
  code := reason.code
  payloadBytes := request.payloadBytes
  eventCount := request.eventCount
  bodyFetchBytes := request.bodyFetchBytes
  requestedIndexJobs := request.requestedIndexJobs
  inFlightRequests := state.inFlightRequests
  queuedIndexJobs := state.queuedIndexJobs
  backoffUntilEpochMs
  localTier1Unaffected := state.localTier1Reserved

/-- `computed_backoff_until_epoch_ms`. -/
def computedBackoffUntilEpochMs (limits : MeshAdmissionLimits) (state : MeshPeerAdmissionState)
    (nowEpochMs : ℕ) : Option ℕ :=
  let malformedExcess := state.malformedFrameCount - limits.maxMalformedFramesBeforeBackoff
  let policyExcess := state.policyDenialCount - limits.maxPolicyDenialsBeforeBackoff
  let excess := max malformedExcess policyExcess
  if excess = 0 then none
  else
    -- the shift is below the width, so that `checked_shl` is the power of two
    let shift := min (excess - 1) 31
    let multiplier := 2 ^ shift
    let delay := min (min (limits.initialBackoffMs * multiplier) u64Max) limits.maxBackoffMs
    some (satAdd64 nowEpochMs delay)

/-- `decide_admission`. -/
def decideAdmission (limits : MeshAdmissionLimits) (state : MeshPeerAdmissionState)
    (request : MeshAdmissionRequest) : MeshAdmissionDecision :=
  match state.backoffUntilEpochMs.filter fun backoffUntil => request.nowEpochMs < backoffUntil with
  | some backoffUntil => decision state request .throttle .backoffActive (some backoffUntil)
  | none =>
    match computedBackoffUntilEpochMs limits state request.nowEpochMs with
    | some computedBackoff =>
      decision state request .throttle .peerThrottled (some computedBackoff)
    | none =>
      if limits.maxConcurrentRequestsPerPeer ≤ state.inFlightRequests then
        decision state request .throttle .peerThrottled none
      else if request.kind = .eventBatch ∧ (limits.maxEventBatchCount < request.eventCount ∨
          limits.maxEventBatchBytes < request.payloadBytes) then
        decision state request .reject .payloadRejected none
      else if request.kind = .bodyFetch ∧ limits.maxBodyFetchBytes < request.bodyFetchBytes then
        decision state request .reject .payloadRejected none
      else if request.kind = .indexJobs ∧ limits.maxIndexJobsPerRound
          < satAdd32 state.queuedIndexJobs request.requestedIndexJobs then
        decision state request .reject .budgetExhausted none
      else decision state request .allow .withinBudget none

/-- `admit_authenticated_mesh_capability_with_state`. -/
def admitAuthenticatedMeshCapabilityWithState (state : MeshPeerAdmissionState)
    (kind : MeshAdmissionRequestKind) (payloadBytes eventCount bodyFetchBytes nowEpochMs : ℕ) :
    MeshAdmissionDecision :=
  decideAdmission .conservativeDefault state
    ⟨state.peerId, kind, payloadBytes, eventCount, bodyFetchBytes, 0, nowEpochMs⟩

/-- The counter that a refusal raises. -/
def countRefusal (state : MeshPeerAdmissionState) : MeshAdmissionReason → MeshPeerAdmissionState
  | .payloadRejected =>
    { state with malformedFrameCount := satAdd32 state.malformedFrameCount 1 }
  | .budgetExhausted => { state with policyDenialCount := satAdd32 state.policyDenialCount 1 }
  | .peerThrottled | .backoffActive | .withinBudget => state

/-- `record_authenticated_admission`. -/
def recordAuthenticatedAdmission (state : MeshPeerAdmissionState)
    (decision : MeshAdmissionDecision) (nowEpochMs : ℕ) : MeshPeerAdmissionState :=
  if decision.allowed then
    { state with inFlightRequests := satAdd32 state.inFlightRequests 1 }
  else
    let state := countRefusal state decision.reason
    { state with
      backoffUntilEpochMs := computedBackoffUntilEpochMs .conservativeDefault state nowEpochMs }

/-- `release_authenticated_admission`. -/
def releaseAuthenticatedAdmission (state : MeshPeerAdmissionState) : MeshPeerAdmissionState :=
  { state with inFlightRequests := state.inFlightRequests - 1 }

/-! ## Histories -/

/-- What is recorded for a peer: a decision and its time, or a release. -/
inductive Recorded where
  | admission (decision : MeshAdmissionDecision) (nowEpochMs : ℕ)
  | release

/-- One record. -/
def Recorded.apply (state : MeshPeerAdmissionState) : Recorded → MeshPeerAdmissionState
  | .admission decision nowEpochMs => recordAuthenticatedAdmission state decision nowEpochMs
  | .release => releaseAuthenticatedAdmission state

/-- The counters of a peer after its history. -/
def afterHistory (peerId : String) (history : List Recorded) : MeshPeerAdmissionState :=
  history.foldl Recorded.apply (.new peerId)

/-- A record of a decision that was not allowed, for the given reason. -/
def Recorded.fails (reason : MeshAdmissionReason) : Recorded → Bool
  | .admission decision _ => !decision.allowed && decision.reason = reason
  | .release => false

/-- The counter of so many failures, which stops at `u32::MAX`. -/
def counted (reason : MeshAdmissionReason) (history : List Recorded) : ℕ :=
  min (history.countP (Recorded.fails reason)) u32Max

/-- A request within the size and rate limits. -/
structure WithinLimits (limits : MeshAdmissionLimits) (state : MeshPeerAdmissionState)
    (request : MeshAdmissionRequest) : Prop where
  eventBatch : request.kind = .eventBatch → request.eventCount ≤ limits.maxEventBatchCount ∧
    request.payloadBytes ≤ limits.maxEventBatchBytes
  bodyFetch : request.kind = .bodyFetch → request.bodyFetchBytes ≤ limits.maxBodyFetchBytes
  indexJobs : request.kind = .indexJobs →
    satAdd32 state.queuedIndexJobs request.requestedIndexJobs ≤ limits.maxIndexJobsPerRound

/-- The failures of a peer are within what the limits tolerate. -/
def Tolerated (limits : MeshAdmissionLimits) (history : List Recorded) : Prop :=
  counted .payloadRejected history ≤ limits.maxMalformedFramesBeforeBackoff ∧
    counted .budgetExhausted history ≤ limits.maxPolicyDenialsBeforeBackoff

/-! ## What a history leaves behind -/

theorem satAdd32_counted (n : ℕ) : satAdd32 (min n u32Max) 1 = min (n + 1) u32Max := by
  unfold satAdd32
  omega

theorem countRefusal_malformedFrameCount (s : MeshPeerAdmissionState)
    (reason : MeshAdmissionReason) :
    (countRefusal s reason).malformedFrameCount
      = if reason = .payloadRejected then satAdd32 s.malformedFrameCount 1
        else s.malformedFrameCount := by
  cases reason <;> rfl

theorem countRefusal_policyDenialCount (s : MeshPeerAdmissionState) (reason : MeshAdmissionReason) :
    (countRefusal s reason).policyDenialCount
      = if reason = .budgetExhausted then satAdd32 s.policyDenialCount 1
        else s.policyDenialCount := by
  cases reason <;> rfl

/-- One record counts a failure of its own reason. -/
theorem apply_counts (s : MeshPeerAdmissionState) (r : Recorded) : (r.apply s).malformedFrameCount
        = (if r.fails .payloadRejected then satAdd32 s.malformedFrameCount 1
          else s.malformedFrameCount) ∧
      (r.apply s).policyDenialCount
        = (if r.fails .budgetExhausted then satAdd32 s.policyDenialCount 1
          else s.policyDenialCount) := by
  cases r with
  | release => exact ⟨rfl, rfl⟩
  | admission decision nems =>
    simp only [Recorded.apply, recordAuthenticatedAdmission, Recorded.fails]
    by_cases ha : decision.allowed = true
    · simp [ha]
    · simp [ha, countRefusal_malformedFrameCount, countRefusal_policyDenialCount]

/-- The counters of a peer count the failures of its history. -/
theorem afterHistory_counts (peerId : String) (h : List Recorded) :
    (afterHistory peerId h).malformedFrameCount = counted .payloadRejected h ∧
      (afterHistory peerId h).policyDenialCount = counted .budgetExhausted h := by
  induction h using List.reverseRecOn with
  | nil => exact ⟨rfl, rfl⟩
  | append_singleton h r ih =>
    have hs := apply_counts (afterHistory peerId h) r
    rw [ih.1, ih.2] at hs
    have ha : afterHistory peerId (h ++ [r]) = r.apply (afterHistory peerId h) :=
      List.foldl_concat ..
    rw [ha, hs.1, hs.2]
    unfold counted
    rw [List.countP_append, List.countP_append, List.countP_singleton, List.countP_singleton]
    constructor
    · split
      · exact satAdd32_counted _
      · rw [Nat.add_zero]
    · split
      · exact satAdd32_counted _
      · rw [Nat.add_zero]

/-! ## Backoff -/

/-- A deadline is computed exactly when a counter is past its limit, at whatever time. -/
theorem computedBackoff_eq_none_iff {limits : MeshAdmissionLimits}
    {s : MeshPeerAdmissionState} {nowMs : ℕ} :
    computedBackoffUntilEpochMs limits s nowMs = none ↔
      s.malformedFrameCount ≤ limits.maxMalformedFramesBeforeBackoff ∧
        s.policyDenialCount ≤ limits.maxPolicyDenialsBeforeBackoff := by
  simp only [computedBackoffUntilEpochMs]
  split
  · simp only [true_iff]
    omega
  · simp only [reduceCtorEq, false_iff]
    omega

/-- Past the stored deadline, within the limits and below the cap, the computed deadline
decides. -/
theorem decideAdmission_allowed_iff {limits : MeshAdmissionLimits}
    {s : MeshPeerAdmissionState} {r : MeshAdmissionRequest}
    (hp : ∀ d, s.backoffUntilEpochMs = some d → d ≤ r.nowEpochMs)
    (hl : WithinLimits limits s r)
    (hf : s.inFlightRequests < limits.maxConcurrentRequestsPerPeer) :
    (decideAdmission limits s r).allowed = true ↔
      computedBackoffUntilEpochMs limits s r.nowEpochMs = none := by
  have hs : (s.backoffUntilEpochMs.filter fun bu => r.nowEpochMs < bu) = none := by
    rw [Option.filter_eq_none_iff]
    intro d hd
    simpa using hp d hd
  have hb : ¬ (r.kind = .eventBatch ∧ (limits.maxEventBatchCount < r.eventCount ∨
      limits.maxEventBatchBytes < r.payloadBytes)) := by
    rintro ⟨hk, ho⟩
    have := hl.eventBatch hk
    omega
  have hbo : ¬ (r.kind = .bodyFetch ∧ limits.maxBodyFetchBytes < r.bodyFetchBytes) := by
    rintro ⟨hk, ho⟩
    have := hl.bodyFetch hk
    omega
  have hj : ¬ (r.kind = .indexJobs ∧ limits.maxIndexJobsPerRound
      < satAdd32 s.queuedIndexJobs r.requestedIndexJobs) := by
    rintro ⟨hk, ho⟩
    have := hl.indexJobs hk
    omega
  simp only [decideAdmission, hs]
  cases computedBackoffUntilEpochMs limits s r.nowEpochMs with
  | some d => simp [MeshAdmissionDecision.allowed, decision]
  | none =>
    simp only [if_neg (not_le.mpr hf), if_neg hb, if_neg hbo, if_neg hj]
    simp [MeshAdmissionDecision.allowed, decision]

/-- **When backoff is temporary.**  After any history, once the stored deadline has passed, a
request within the limits and below the cap is allowed exactly when the failures of the whole
history are tolerated; otherwise no later request is. -/
theorem allowed_after_backoff_iff (limits : MeshAdmissionLimits) (peerId : String)
    (history : List Recorded) (request : MeshAdmissionRequest)
    (hpassed : ∀ deadline, (afterHistory peerId history).backoffUntilEpochMs = some deadline →
      deadline ≤ request.nowEpochMs)
    (hlimits : WithinLimits limits (afterHistory peerId history) request)
    (hflight : (afterHistory peerId history).inFlightRequests
      < limits.maxConcurrentRequestsPerPeer) :
    (decideAdmission limits (afterHistory peerId history) request).allowed = true ↔
      Tolerated limits history := by
  obtain ⟨hm, hd⟩ := afterHistory_counts peerId history
  rw [decideAdmission_allowed_iff hpassed hlimits hflight, computedBackoff_eq_none_iff, hm, hd]
  rfl

/-- A peer that asks for a body over the limit so many times in the same millisecond, as the
responder decides and records it. -/
def noisyHistory (nowEpochMs : ℕ) : ℕ → List Recorded
  | 0 => []
  | n + 1 =>
    let history := noisyHistory nowEpochMs n
    history ++ [.admission (admitAuthenticatedMeshCapabilityWithState
      (afterHistory "peer-noisy" history) .bodyFetch 524289 0 524289 nowEpochMs) nowEpochMs]

/-- Three such requests are tolerated: a greeting is allowed afterwards. -/
theorem allowed_after_backoff_three :
    (decideAdmission .conservativeDefault (afterHistory "peer-noisy" (noisyHistory 1000000 3))
      ⟨"peer-noisy", .hello, 0, 0, 0, 0, 1000000⟩).allowed = true :=
  (allowed_after_backoff_iff .conservativeDefault "peer-noisy" (noisyHistory 1000000 3)
    ⟨"peer-noisy", .hello, 0, 0, 0, 0, 1000000⟩
    (by
      have hn : (afterHistory "peer-noisy" (noisyHistory 1000000 3)).backoffUntilEpochMs
          = none := by decide +kernel
      simp [hn])
    ⟨by simp, by simp, by simp⟩ (by decide +kernel)).mpr
    ⟨by decide +kernel, by decide +kernel⟩

/-- After the fourth a deadline of one second is stored; hours behind it, with nothing in
flight and nothing further recorded, a greeting is still throttled. -/
theorem four_rejections_outlast_backoff :
    (afterHistory "peer-noisy" (noisyHistory 1000000 4)).backoffUntilEpochMs = some 1001000 ∧
      (afterHistory "peer-noisy" (noisyHistory 1000000 4)).inFlightRequests = 0 ∧
      (decideAdmission .conservativeDefault (afterHistory "peer-noisy" (noisyHistory 1000000 4))
        ⟨"peer-noisy", .hello, 0, 0, 0, 0, 10000000⟩).allowed = false := by
  decide +kernel

end MeshAdmission
