/-
# Approval tokens

An approval token is a bearer text that the store issues for a preview and takes back when
the preview is applied.  Its envelope holds a nonce, the issue and expiry times, a tag of
the preview under the nonce, and a tag of all of this together with the purpose, the
workspace and the command surface, which are not written into it.  Both tags are under
subkeys of the store's current key, one for each use.

What is assumed of the keyed hash is scoped to what is compared: a tag that a presented text
carries for its own fields was computed by an issue, and the tags of the previews of issued
tokens do not collide with that of the current preview.
-/
import EideticEngine.Base64
import EideticEngine.MachineInt
import EideticEngine.TransportSession

namespace LaneGrant

open RustText Hex LengthPrefixed
open TransportSession (Blake3)

/-! ## Keys and domains -/

/-- `MacDomain`. -/
inductive MacDomain where
  | nativeImportRecordsRoot
  | playbookImportRecordsRoot
  | workspaceRebindPlan
  | cassSourceCommitment
  | laneApprovalSnapshotTag
  | laneApprovalEnvelopeMac
  | laneApprovalAuditId
  | bodyApprovalSnapshotTag
  | bodyApprovalEnvelopeMac
  | bodyApprovalAuditId
  deriving DecidableEq

/-- `MacDomain::context`. -/
def MacDomain.context : MacDomain → String
  | .nativeImportRecordsRoot => "ee.store_auth.native_import.records_root.v1"
  | .playbookImportRecordsRoot => "ee.store_auth.playbook_import.records_root.v1"
  | .workspaceRebindPlan => "ee.store_auth.workspace_rebind.plan.v1"
  | .cassSourceCommitment => "ee.store_auth.cass_source.commitment.v2"
  | .laneApprovalSnapshotTag => "ee.store_auth.lane_approval.snapshot_tag.v1"
  | .laneApprovalEnvelopeMac => "ee.store_auth.lane_approval.envelope_mac.v1"
  | .laneApprovalAuditId => "ee.store_auth.lane_approval.audit_id.v1"
  | .bodyApprovalSnapshotTag => "ee.store_auth.body_approval.snapshot_tag.v1"
  | .bodyApprovalEnvelopeMac => "ee.store_auth.body_approval.envelope_mac.v1"
  | .bodyApprovalAuditId => "ee.store_auth.body_approval.audit_id.v1"

/-- The current key of `StoreAuthRoot`. -/
structure StoreAuthRoot where
  keyId : List UInt8
  root : Bytes32
  deriving DecidableEq

/-- `StoreAuthRoot::mac`. -/
def StoreAuthRoot.mac (blake3 : Blake3) (root : StoreAuthRoot) (domain : MacDomain)
    (message : List UInt8) : Bytes32 :=
  blake3.keyedHash (blake3.deriveKey domain.context root.root.1) message

/-- `StoreAuthRoot::verify`. -/
def StoreAuthRoot.verify (blake3 : Blake3) (root : StoreAuthRoot) (domain : MacDomain)
    (message : List UInt8) (candidate : Bytes32) : Bool :=
  root.mac blake3 domain message = candidate

/-- `ApprovalPurpose`. -/
inductive ApprovalPurpose where
  | lane
  | body
  deriving DecidableEq

namespace ApprovalPurpose

def envelopeMacDomain : ApprovalPurpose → MacDomain
  | lane => .laneApprovalEnvelopeMac
  | body => .bodyApprovalEnvelopeMac

def snapshotTagDomain : ApprovalPurpose → MacDomain
  | lane => .laneApprovalSnapshotTag
  | body => .bodyApprovalSnapshotTag

def auditIdDomain : ApprovalPurpose → MacDomain
  | lane => .laneApprovalAuditId
  | body => .bodyApprovalAuditId

def envelopeMessageDomain : ApprovalPurpose → List UInt8
  | lane => asBytes "ee.mesh.lane_approval.envelope.v1"
  | body => asBytes "ee.mesh.body_approval.envelope.v1"

def snapshotMessageDomain : ApprovalPurpose → List UInt8
  | lane => asBytes "ee.mesh.lane_approval.snapshot.v1"
  | body => asBytes "ee.mesh.body_approval.snapshot.v1"

def auditMessageDomain : ApprovalPurpose → List UInt8
  | lane => asBytes "ee.mesh.lane_approval.audit_id.v1"
  | body => asBytes "ee.mesh.body_approval.audit_id.v1"

end ApprovalPurpose

/-! ## Envelopes -/

/-- `ApprovalTokenError`; the key in memory always answers, so that `StoreAuth` does not
arise. -/
inductive ApprovalTokenError where
  | invalid
  | stale
  deriving DecidableEq

/-- `APPROVAL_TOKEN_PREFIX`. -/
def tokenLabel : String := "eeap1_"

/-- `APPROVAL_TOKEN_TTL_SECONDS`. -/
def ttlSeconds : ℤ := 900

/-- `MAX_CANONICAL_APPROVAL_SNAPSHOT_BYTES`. -/
def maxSnapshotBytes : ℕ := 16 * 1024 * 1024

/-- `MAX_APPROVAL_TOKEN_INPUT_BYTES`. -/
def maxInputBytes : ℕ := 512

/-- `TOKEN_VERSION`. -/
def tokenVersion : UInt8 := 1

/-- `ApprovalToken`: an envelope of `ENVELOPE_LEN` bytes. -/
structure ApprovalToken where
  envelope : List UInt8
  length_envelope : envelope.length = 113

/-- `i64::to_be_bytes` of a number that is not negative. -/
def i64Bytes (n : ℤ) : List UInt8 := (leBytes 8 n.toNat).reverse

/-- `i64::from_be_bytes`. -/
def i64OfBytes (bytes : List UInt8) : ℤ :=
  let value := leValue bytes.reverse
  if value < 2 ^ 63 then value else value - 2 ^ 64

namespace ApprovalToken

/-- The fields that the envelope tag covers, `envelope[..ENVELOPE_MAC_OFFSET]`. -/
def fields (token : ApprovalToken) : List UInt8 := token.envelope.take 81

def nonce (token : ApprovalToken) : Bytes32 :=
  ⟨token.envelope.slice 1 32, List.length_slice (by rw [token.length_envelope]; decide)⟩

def issuedAt (token : ApprovalToken) : ℤ := i64OfBytes (token.envelope.slice 33 8)

def expiresAt (token : ApprovalToken) : ℤ := i64OfBytes (token.envelope.slice 41 8)

def snapshotTag (token : ApprovalToken) : Bytes32 :=
  ⟨token.envelope.slice 49 32, List.length_slice (by rw [token.length_envelope]; decide)⟩

def mac (token : ApprovalToken) : Bytes32 :=
  ⟨token.envelope.slice 81 32, List.length_slice (by rw [token.length_envelope])⟩

/-- `expose_bearer`. -/
def exposeBearer (base64 : Base64.Engine) (token : ApprovalToken) : String :=
  tokenLabel ++ String.ofList (base64.encode token.envelope)

/-- `ApprovalToken::parse`. -/
def parse (base64 : Base64.Engine) (input : String) : Except ApprovalTokenError ApprovalToken :=
  if maxInputBytes < input.utf8ByteSize then .error .invalid
  else
    let trimmed := trim input
    if trimmed.utf8ByteSize ≠ 157 then .error .invalid
    else
      match trimmed.toList.dropPrefix? tokenLabel.toList with
      | none => .error .invalid
      | some encoded =>
        if (String.ofList encoded).utf8ByteSize ≠ 151 then .error .invalid
        else
          match base64.decode encoded with
          | none => .error .invalid
          | some decoded =>
            if h : decoded.length = 113 ∧ decoded.head? = some tokenVersion then
              .ok ⟨decoded, h.1⟩
            else .error .invalid

end ApprovalToken

/-! ## Messages under the keyed hash -/

/-- `snapshot_tag`'s message. -/
def snapshotMessage (purpose : ApprovalPurpose) (nonce : Bytes32)
    (canonicalSnapshot : List UInt8) : List UInt8 :=
  purpose.snapshotMessageDomain ++ (nonce.1 ++ LengthCode.be64.field canonicalSnapshot)

/-- `envelope_mac_message`. -/
def envelopeMacMessage (purpose : ApprovalPurpose) (workspaceId surface : String)
    (authenticatedEnvelopeFields : List UInt8) : List UInt8 :=
  purpose.envelopeMessageDomain ++ (LengthCode.be64.field (asBytes workspaceId)
    ++ (LengthCode.be64.field (asBytes surface) ++ authenticatedEnvelopeFields))

/-- `audit_id_message`. -/
def auditIdMessage (purpose : ApprovalPurpose) (nonce : Bytes32) : List UInt8 :=
  purpose.auditMessageDomain ++ tokenVersion :: nonce.1

/-- A context that is accepted. -/
def ValidContext (workspaceId surface : String) : Prop :=
  ¬ (workspaceId.utf8ByteSize = 0 ∨ 4 * 1024 < workspaceId.utf8ByteSize ∨
    surface.utf8ByteSize = 0 ∨ 256 < surface.utf8ByteSize)

instance (workspaceId surface : String) : Decidable (ValidContext workspaceId surface) :=
  inferInstanceAs (Decidable (¬ _))

/-- `validate_context`. -/
def validateContext (workspaceId surface : String) : Except ApprovalTokenError Unit :=
  .check (ValidContext workspaceId surface) .invalid

/-- `snapshot_tag`. -/
def snapshotTag (blake3 : Blake3) (root : StoreAuthRoot) (purpose : ApprovalPurpose)
    (nonce : Bytes32) (canonicalSnapshot : List UInt8) : Except ApprovalTokenError Bytes32 := do
  .check (canonicalSnapshot.length ≤ maxSnapshotBytes) .stale
  .ok (root.mac blake3 purpose.snapshotTagDomain
    (snapshotMessage purpose nonce canonicalSnapshot))

/-! ## Issuing -/

/-- `IssuedApprovalToken`. -/
structure IssuedApprovalToken where
  token : ApprovalToken
  issuedAtUnixSeconds : ℤ
  expiresAtUnixSeconds : ℤ

/-- The covered fields of a new envelope. -/
def envelopeFields (nonce : Bytes32) (issuedAt expiresAt : ℤ) (tag : Bytes32) : List UInt8 :=
  tokenVersion :: (nonce.1 ++ (i64Bytes issuedAt ++ (i64Bytes expiresAt ++ tag.1)))

theorem length_i64Bytes (n : ℤ) : (i64Bytes n).length = 8 := by
  rw [i64Bytes, List.length_reverse, length_leBytes]

theorem length_envelopeFields (nonce : Bytes32) (issuedAt expiresAt : ℤ) (tag : Bytes32) :
    (envelopeFields nonce issuedAt expiresAt tag).length = 81 := by
  simp only [envelopeFields, List.length_cons, List.length_append, nonce.2, tag.2,
    length_i64Bytes]

/-- `issue_with_nonce`. -/
def issueWithNonce (blake3 : Blake3) (root : StoreAuthRoot) (purpose : ApprovalPurpose)
    (workspaceId surface : String) (canonicalSnapshot : List UInt8) (nowUnixSeconds : ℤ)
    (nonce : Bytes32) : Except ApprovalTokenError IssuedApprovalToken := do
  validateContext workspaceId surface
  .check (¬ (nowUnixSeconds < 0 ∨ maxSnapshotBytes < canonicalSnapshot.length)) .invalid
  .check (nowUnixSeconds + ttlSeconds ≤ i64Max) .invalid
  let expiresAt := nowUnixSeconds + ttlSeconds
  let tag ← snapshotTag blake3 root purpose nonce canonicalSnapshot
  let fields := envelopeFields nonce nowUnixSeconds expiresAt tag
  let mac := root.mac blake3 purpose.envelopeMacDomain
    (envelopeMacMessage purpose workspaceId surface fields)
  .ok ⟨⟨fields ++ mac.1, by
    rw [List.length_append, length_envelopeFields, mac.2]⟩, nowUnixSeconds, expiresAt⟩

/-! ## Verifying -/

/-- `AuthenticatedApprovalToken`. -/
structure AuthenticatedApprovalToken where
  purpose : ApprovalPurpose
  nonce : Bytes32
  issuedAtUnixSeconds : ℤ
  expiresAtUnixSeconds : ℤ
  snapshotTag : Bytes32
  authenticatedKeyId : List UInt8

/-- `VerifiedApproval`. -/
structure VerifiedApproval where
  auditId : Bytes32
  issuedAtUnixSeconds : ℤ
  expiresAtUnixSeconds : ℤ
  deriving DecidableEq

/-- `verify_authentic_token`. -/
def verifyAuthenticToken (blake3 : Blake3) (root : StoreAuthRoot) (purpose : ApprovalPurpose)
    (workspaceId surface : String) (token : ApprovalToken) (nowUnixSeconds : ℤ) :
    Except ApprovalTokenError AuthenticatedApprovalToken := do
  validateContext workspaceId surface
  .check (¬ nowUnixSeconds < 0) .invalid
  .check (root.verify blake3 purpose.envelopeMacDomain
    (envelopeMacMessage purpose workspaceId surface token.fields) token.mac) .invalid
  -- the sum past the largest number is no expiry at all
  .check (¬ (token.issuedAt < 0 ∨ nowUnixSeconds < token.issuedAt ∨
    i64Max < token.issuedAt + ttlSeconds ∨
    token.issuedAt + ttlSeconds ≠ token.expiresAt)) .invalid
  .ok ⟨purpose, token.nonce, token.issuedAt, token.expiresAt, token.snapshotTag, root.keyId⟩

/-- `compare_snapshot`. -/
def compareSnapshot (blake3 : Blake3) (root : StoreAuthRoot)
    (authenticated : AuthenticatedApprovalToken) (canonicalSnapshot : List UInt8)
    (nowUnixSeconds : ℤ) : Except ApprovalTokenError VerifiedApproval := do
  .check (¬ (root.keyId ≠ authenticated.authenticatedKeyId ∨
    nowUnixSeconds < authenticated.issuedAtUnixSeconds)) .invalid
  .check (¬ (authenticated.expiresAtUnixSeconds ≤ nowUnixSeconds ∨
    maxSnapshotBytes < canonicalSnapshot.length)) .stale
  let currentTag ← snapshotTag blake3 root authenticated.purpose authenticated.nonce
    canonicalSnapshot
  .check (currentTag = authenticated.snapshotTag) .stale
  .ok ⟨root.mac blake3 authenticated.purpose.auditIdDomain
    (auditIdMessage authenticated.purpose authenticated.nonce),
    authenticated.issuedAtUnixSeconds, authenticated.expiresAtUnixSeconds⟩

/-- Parsing and verifying a bearer, `verify_authentic`, and comparing the snapshot. -/
def approve (base64 : Base64.Engine) (blake3 : Blake3) (root : StoreAuthRoot)
    (purpose : ApprovalPurpose) (workspaceId surface text : String)
    (canonicalSnapshot : List UInt8) (nowUnixSeconds : ℤ) :
    Except ApprovalTokenError VerifiedApproval := do
  let token ← ApprovalToken.parse base64 text
  let authenticated ← verifyAuthenticToken blake3 root purpose workspaceId surface token
    nowUnixSeconds
  compareSnapshot blake3 root authenticated canonicalSnapshot nowUnixSeconds

/-! ## Issues -/

/-- The arguments of an issue. -/
structure Issue where
  root : StoreAuthRoot
  purpose : ApprovalPurpose
  workspaceId : String
  surface : String
  canonicalSnapshot : List UInt8
  nowUnixSeconds : ℤ
  nonce : Bytes32

section

variable (base64 : Base64.Engine) (blake3 : Blake3)

/-- The issue succeeds with this token. -/
def Issue.Issues (i : Issue) (issued : IssuedApprovalToken) : Prop :=
  issueWithNonce blake3 i.root i.purpose i.workspaceId i.surface i.canonicalSnapshot
    i.nowUnixSeconds i.nonce = .ok issued

/-- The store computed a tag of this message in this domain for one of the issues. -/
def Produced (issues : List Issue) (root : StoreAuthRoot) (domain : MacDomain)
    (message : List UInt8) : Prop :=
  ∃ i ∈ issues, ∃ issued, i.Issues blake3 issued ∧ i.root = root ∧
    ((domain = i.purpose.snapshotTagDomain ∧
        message = snapshotMessage i.purpose i.nonce i.canonicalSnapshot) ∨
      (domain = i.purpose.envelopeMacDomain ∧
        message = envelopeMacMessage i.purpose i.workspaceId i.surface issued.token.fields))

/-- A tag that the presented text carries for its own fields was computed by the store. -/
def Unforged (issues : List Issue) (root : StoreAuthRoot) (purpose : ApprovalPurpose)
    (workspaceId surface text : String) : Prop :=
  ∀ token, ApprovalToken.parse base64 text = .ok token →
    root.mac blake3 purpose.envelopeMacDomain
        (envelopeMacMessage purpose workspaceId surface token.fields) = token.mac →
      Produced blake3 issues root purpose.envelopeMacDomain
        (envelopeMacMessage purpose workspaceId surface token.fields)

/-- The snapshot messages of issued tokens, with their own snapshot and with the current
one. -/
def snapshotMessages (issues : List Issue) (purpose : ApprovalPurpose)
    (canonicalSnapshot : List UInt8) : Set (List UInt8) :=
  {message | ∃ i ∈ issues, i.purpose = purpose ∧
    (message = snapshotMessage purpose i.nonce i.canonicalSnapshot ∨
      message = snapshotMessage purpose i.nonce canonicalSnapshot)}

/-- The text is the printed form of the token, up to white space around it and within the
input limit. -/
def Prints (text : String) (issued : IssuedApprovalToken) : Prop :=
  text.utf8ByteSize ≤ maxInputBytes ∧ trim text = issued.token.exposeBearer base64

/-- The text is a token that was issued under this key for this purpose, workspace and
surface. -/
def IsIssuedFor (root : StoreAuthRoot) (purpose : ApprovalPurpose) (workspaceId surface : String)
    (text : String) (i : Issue) : Prop :=
  i.root = root ∧ i.purpose = purpose ∧ i.workspaceId = workspaceId ∧ i.surface = surface ∧
    ∃ issued, i.Issues blake3 issued ∧ Prints base64 text issued

end

/-! ## Printed forms -/

theorem utf8ByteSize_ofList (l : List Char) :
    (String.ofList l).utf8ByteSize = (l.map Char.utf8Size).sum := by
  have hb : (asBytes (String.ofList l)).length = (String.ofList l).utf8ByteSize := rfl
  rw [← hb, asBytes_ofList, List.length_flatMap]
  simp only [String.length_utf8EncodeChar]

section

variable {base64 : Base64.Engine}

/-- The text of a byte string has as many bytes as digits. -/
theorem utf8ByteSize_encode (bytes : List UInt8) :
    (String.ofList (base64.encode bytes)).utf8ByteSize = (base64.encode bytes).length := by
  have hdigit : ∀ i : Fin Base64.alphabet.length, Base64.alphabet[i].utf8Size = 1 := by
    decide +kernel
  have ha : ∀ c ∈ Base64.alphabet, c.utf8Size = 1 :=
    List.forall_mem_iff_getElem.mpr fun i hi => hdigit ⟨i, hi⟩
  have hsi : (base64.encode bytes).map Char.utf8Size
      = List.replicate (base64.encode bytes).length 1 := by
    rw [List.eq_replicate_iff]
    refine ⟨List.length_map _, ?_⟩
    intro size hs
    obtain ⟨c, hc, rfl⟩ := List.mem_map.mp hs
    exact ha c (base64.mem_alphabet bytes c hc)
  rw [utf8ByteSize_ofList, hsi, List.sum_replicate, smul_eq_mul, mul_one]

theorem utf8ByteSize_encode_envelope (token : ApprovalToken) :
    (String.ofList (base64.encode token.envelope)).utf8ByteSize = 151 := by
  rw [utf8ByteSize_encode, base64.length_encode, token.length_envelope]

theorem utf8ByteSize_exposeBearer (token : ApprovalToken) :
    (token.exposeBearer base64).utf8ByteSize = 157 := by
  rw [ApprovalToken.exposeBearer, String.utf8ByteSize_append, utf8ByteSize_encode_envelope]
  rfl

theorem exposeBearer_toList (token : ApprovalToken) :
    (token.exposeBearer base64).toList = tokenLabel.toList ++ base64.encode token.envelope := by
  rw [ApprovalToken.exposeBearer, String.toList_append, String.toList_ofList]

/-- A text parses exactly to the token whose printed form it is. -/
theorem parse_eq_ok_iff {text : String} {token : ApprovalToken} :
    ApprovalToken.parse base64 text = .ok token ↔
      text.utf8ByteSize ≤ maxInputBytes ∧ trim text = token.exposeBearer base64 ∧
        token.envelope.head? = some tokenVersion := by
  constructor
  · intro h
    unfold ApprovalToken.parse at h
    split at h
    · cases h
    rename_i hs
    simp only at h
    split at h
    · cases h
    split at h
    · cases h
    rename_i en he
    split at h
    · cases h
    split at h
    · cases h
    rename_i d hd
    split at h
    · rename_i hde
      cases h
      obtain ⟨l, ht, hl⟩ := List.dropPrefix?_eq_some_iff.mp he
      refine ⟨not_lt.mp hs, ?_, hde.2⟩
      apply String.toList_injective
      rw [exposeBearer_toList, ht, eq_of_beq hl, (base64.decode_eq_some_iff _ _).mp hd]
    · cases h
  · rintro ⟨hs, ht, hv⟩
    have hdr : (trim text).toList.dropPrefix? tokenLabel.toList
        = some (base64.encode token.envelope) := by
      rw [List.dropPrefix?_eq_some_iff]
      exact ⟨tokenLabel.toList, by rw [ht, exposeBearer_toList], beq_self_eq_true _⟩
    have hdec := base64.decode_encode token.envelope
    unfold ApprovalToken.parse
    rw [if_neg (not_lt.mpr hs)]
    simp only
    rw [if_neg (by rw [ht, utf8ByteSize_exposeBearer]; exact not_not.mpr rfl)]
    simp only [hdr]
    rw [if_neg (by rw [utf8ByteSize_encode_envelope]; exact not_not.mpr rfl)]
    simp only [hdec]
    rw [dif_pos ⟨token.length_envelope, hv⟩]

/-- Parsing reports every failure as invalid. -/
theorem parse_eq_error {text : String} {e : ApprovalTokenError}
    (h : ApprovalToken.parse base64 text = .error e) : e = .invalid := by
  unfold ApprovalToken.parse at h
  split at h
  · cases h
    rfl
  simp only at h
  split at h
  · cases h
    rfl
  split at h
  · cases h
    rfl
  split at h
  · cases h
    rfl
  split at h
  · cases h
    rfl
  split at h
  · cases h
  · cases h
    rfl

end

/-! ## Issued tokens -/

theorem i64OfBytes_i64Bytes {n : ℤ} (h0 : 0 ≤ n) (hm : n ≤ i64Max) :
    i64OfBytes (i64Bytes n) = n := by
  have hv : leValue (i64Bytes n).reverse = n.toNat := by
    rw [i64Bytes, List.reverse_reverse]
    refine leValue_leBytes_of_lt ?_
    unfold i64Max at hm
    omega
  unfold i64OfBytes
  simp only [hv]
  unfold i64Max at hm
  split <;> omega

section

variable {blake3 : Blake3}

/-- What is known of an issue that succeeds. -/
structure Issue.Spec (blake3 : Blake3) (i : Issue) (issued : IssuedApprovalToken) : Prop where
  context : ValidContext i.workspaceId i.surface
  time : 0 ≤ i.nowUnixSeconds
  expiry : i.nowUnixSeconds + ttlSeconds ≤ i64Max
  size : i.canonicalSnapshot.length ≤ maxSnapshotBytes
  envelope : issued.token.envelope
    = envelopeFields i.nonce i.nowUnixSeconds (i.nowUnixSeconds + ttlSeconds)
        (i.root.mac blake3 i.purpose.snapshotTagDomain
          (snapshotMessage i.purpose i.nonce i.canonicalSnapshot))
      ++ issued.token.mac.1
  mac : i.root.mac blake3 i.purpose.envelopeMacDomain
    (envelopeMacMessage i.purpose i.workspaceId i.surface issued.token.fields) = issued.token.mac

theorem fields_of_envelope {token : ApprovalToken} {fields : List UInt8} {mac : Bytes32}
    (hl : fields.length = 81) (h : token.envelope = fields ++ mac.1) :
    token.fields = fields ∧ token.mac = mac := by
  constructor
  · rw [ApprovalToken.fields, h, List.take_append_of_le_length (by omega), ← hl, List.take_length]
  · apply Subtype.ext
    refine List.slice_of_eq (a := fields) (c := []) ?_ hl.symm mac.2.symm
    rw [List.append_nil, h]

/-- What an issue returns. -/
theorem Issue.Issues.spec {i : Issue} {issued : IssuedApprovalToken}
    (h : i.Issues blake3 issued) : i.Spec blake3 issued := by
  unfold Issue.Issues issueWithNonce snapshotTag validateContext at h
  simp only [Except.bind_eq_ok_iff, Except.check_eq_ok_iff, Except.ok.injEq] at h
  obtain ⟨-, hc, -, hb, -, hex, tag, ⟨-, hs, rfl⟩, hi⟩ := h
  have he := congrArg (fun issued => issued.token.envelope) hi.symm
  obtain ⟨hf, hm⟩ := fields_of_envelope (length_envelopeFields _ _ _ _) he
  refine ⟨hc, ?_, hex, hs, ?_, ?_⟩
  · omega
  · rw [hm]
    exact he
  · rw [hf, hm]

/-- The fields of an issued token are the arguments of its issue. -/
theorem Issue.Spec.token_fields {i : Issue} {issued : IssuedApprovalToken}
    (h : i.Spec blake3 issued) :
    issued.token.nonce = i.nonce ∧ issued.token.issuedAt = i.nowUnixSeconds ∧
      issued.token.expiresAt = i.nowUnixSeconds + ttlSeconds ∧
      issued.token.snapshotTag = i.root.mac blake3 i.purpose.snapshotTagDomain
        (snapshotMessage i.purpose i.nonce i.canonicalSnapshot) ∧
      issued.token.envelope.head? = some tokenVersion := by
  obtain ⟨-, ht, hex, -, he, -⟩ := h
  generalize i.root.mac blake3 i.purpose.snapshotTagDomain
    (snapshotMessage i.purpose i.nonce i.canonicalSnapshot) = tag at he ⊢
  have hp : issued.token.envelope = [[tokenVersion], i.nonce.1, i64Bytes i.nowUnixSeconds,
          i64Bytes (i.nowUnixSeconds + ttlSeconds), tag.1, issued.token.mac.1].flatten := by
    rw [he]
    simp [envelopeFields]
  have hs : ∀ {k start n : ℕ} {b : List UInt8},
      [[tokenVersion], i.nonce.1, i64Bytes i.nowUnixSeconds,
        i64Bytes (i.nowUnixSeconds + ttlSeconds), tag.1, issued.token.mac.1][k]? = some b →
      start = (([[tokenVersion], i.nonce.1, i64Bytes i.nowUnixSeconds,
        i64Bytes (i.nowUnixSeconds + ttlSeconds), tag.1, issued.token.mac.1].take k).map
          List.length).sum → n = b.length → issued.token.envelope.slice start n = b := by
    intro k start n b hk hst hn
    rw [hp]
    exact List.slice_flatten hk hst hn
  have hno : i64OfBytes (i64Bytes i.nowUnixSeconds) = i.nowUnixSeconds :=
    i64OfBytes_i64Bytes ht (by unfold ttlSeconds at hex; omega)
  have hen : i64OfBytes (i64Bytes (i.nowUnixSeconds + ttlSeconds))
      = i.nowUnixSeconds + ttlSeconds :=
    i64OfBytes_i64Bytes (by unfold ttlSeconds; omega) hex
  refine ⟨Subtype.ext ?_, ?_, ?_, Subtype.ext ?_, ?_⟩
  · exact hs (k := 1) rfl rfl i.nonce.2.symm
  · rw [ApprovalToken.issuedAt, hs (k := 2) rfl (by simp [i.nonce.2]) (length_i64Bytes _).symm]
    exact hno
  · rw [ApprovalToken.expiresAt,
      hs (k := 3) rfl (by simp [i.nonce.2, length_i64Bytes]) (length_i64Bytes _).symm]
    exact hen
  · exact hs (k := 4) rfl (by simp [i.nonce.2, length_i64Bytes]) tag.2.symm
  · rw [he]
    rfl

/-! ## What the tags bind -/

/-- An envelope is its covered fields and its tag. -/
theorem fields_append_mac (token : ApprovalToken) :
    token.fields ++ token.mac.1 = token.envelope := by
  have hm : token.mac.1 = token.envelope.drop 81 := by
    show (token.envelope.drop 81).take 32 = _
    refine List.take_of_length_le ?_
    rw [List.length_drop, token.length_envelope]
  rw [ApprovalToken.fields, hm, List.take_append_drop]

/-- Within the limits on the context, the envelope message determines all it covers. -/
theorem envelopeMacMessage_inj {purpose : ApprovalPurpose} {workspaceId wi' surface
    s' : String} {fields fs' : List UInt8} (h : ValidContext workspaceId surface)
    (h' : ValidContext wi' s')
    (heq : envelopeMacMessage purpose workspaceId surface fields
      = envelopeMacMessage purpose wi' s' fs') :
    workspaceId = wi' ∧ surface = s' ∧ fields = fs' := by
  have hs : ∀ s : String, (asBytes s).length = s.utf8ByteSize := fun s => rfl
  have hb : LengthCode.be64.bound = 2 ^ 64 := rfl
  unfold ValidContext at h h'
  have hr := List.append_cancel_left heq
  obtain ⟨hw, hr⟩ := LengthCode.be64.field_append_inj
    (by rw [hs, hb]; omega) (by rw [hs, hb]; omega) hr
  obtain ⟨hsu, hf⟩ := LengthCode.be64.field_append_inj
    (by rw [hs, hb]; omega) (by rw [hs, hb]; omega) hr
  exact ⟨asBytes_injective hw, asBytes_injective hsu, hf⟩

/-- Under one nonce the snapshot message determines the snapshot. -/
theorem snapshotMessage_inj {purpose : ApprovalPurpose} {nonce : Bytes32}
    {s s' : List UInt8} (h : s.length ≤ maxSnapshotBytes)
    (h' : s'.length ≤ maxSnapshotBytes)
    (heq : snapshotMessage purpose nonce s = snapshotMessage purpose nonce s') :
    s = s' := by
  have hb : LengthCode.be64.bound = 2 ^ 64 := rfl
  unfold maxSnapshotBytes at h h'
  have hr := List.append_cancel_left (List.append_cancel_left heq)
  have he : LengthCode.be64.field s ++ [] = LengthCode.be64.field s' ++ [] := by
    rw [hr]
  exact (LengthCode.be64.field_append_inj (by rw [hb]; omega) (by rw [hb]; omega) he).1

theorem ApprovalPurpose.envelopeMacDomain_injective :
    Function.Injective ApprovalPurpose.envelopeMacDomain := by
  intro a b h
  cases a <;> cases b <;> first | rfl | cases h

theorem ApprovalPurpose.envelopeMacDomain_ne (a b : ApprovalPurpose) :
    a.envelopeMacDomain ≠ b.snapshotTagDomain := by
  cases a <;> cases b <;> decide

variable {base64 : Base64.Engine} {issues : List Issue} {root : StoreAuthRoot}
  {purpose : ApprovalPurpose} {workspaceId surface text : String}

/-- A text whose envelope tag verifies is an issued token. -/
theorem issued_of_mac (hfo : Unforged base64 blake3 issues root purpose workspaceId surface text)
    (hc : ValidContext workspaceId surface) {token : ApprovalToken}
    (hp : ApprovalToken.parse base64 text = .ok token)
    (hma : root.mac blake3 purpose.envelopeMacDomain
      (envelopeMacMessage purpose workspaceId surface token.fields) = token.mac) :
    ∃ i ∈ issues, IsIssuedFor base64 blake3 root purpose workspaceId surface text i := by
  obtain ⟨i, hi, issued, his, rfl, hpr⟩ := hfo token hp hma
  rcases hpr with ⟨hd, -⟩ | ⟨hd, hm⟩
  · exact absurd hd (ApprovalPurpose.envelopeMacDomain_ne _ _)
  · obtain rfl := ApprovalPurpose.envelopeMacDomain_injective hd
    have hs := his.spec
    obtain ⟨rfl, rfl, hf⟩ := envelopeMacMessage_inj hc hs.context hm
    have ht : token.mac = issued.token.mac := by
      rw [← hma, ← hs.mac, hf]
    have he : token.envelope = issued.token.envelope := by
      rw [← fields_append_mac, ← fields_append_mac issued.token, hf, ht]
    obtain ⟨hsi, htr, -⟩ := parse_eq_ok_iff.mp hp
    refine ⟨i, hi, rfl, rfl, rfl, rfl, issued, his, hsi, ?_⟩
    rw [htr, ApprovalToken.exposeBearer, ApprovalToken.exposeBearer, he]

/-- A text that is no issued token is rejected as invalid. -/
theorem approve_of_not_issued
    (hf : Unforged base64 blake3 issues root purpose workspaceId surface text)
    (hn : ¬ ∃ i ∈ issues, IsIssuedFor base64 blake3 root purpose workspaceId surface text i)
    (cs : List UInt8) (now : ℤ) :
    approve base64 blake3 root purpose workspaceId surface text cs now = .error .invalid := by
  unfold approve
  cases hp : ApprovalToken.parse base64 text with
  | error e =>
    rw [parse_eq_error hp]
    rfl
  | ok token =>
    have hv : verifyAuthenticToken blake3 root purpose workspaceId surface token
        now = .error .invalid := by
      refine Except.check_then_error fun hc => Except.check_then_error fun _ =>
        Except.check_then_error fun hm => ?_
      exact absurd (issued_of_mac hf hc hp (of_decide_eq_true hm)) hn
    rw [Except.ok_then, hv]
    rfl

/-- What becomes of an issued token: too early it is invalid, too late or with another
snapshot tag it is stale, and otherwise it is approved. -/
theorem approve_of_issued {i : Issue}
    (hi : IsIssuedFor base64 blake3 root purpose workspaceId surface text i)
    (cs : List UInt8) (now : ℤ) :
    i.canonicalSnapshot.length ≤ maxSnapshotBytes ∧
      approve base64 blake3 root purpose workspaceId surface text cs now
        = if now < i.nowUnixSeconds then .error .invalid
          else if i.nowUnixSeconds + ttlSeconds ≤ now ∨ maxSnapshotBytes < cs.length ∨
              root.mac blake3 purpose.snapshotTagDomain (snapshotMessage purpose i.nonce cs)
                ≠ root.mac blake3 purpose.snapshotTagDomain
                  (snapshotMessage purpose i.nonce i.canonicalSnapshot) then .error .stale
          else .ok ⟨root.mac blake3 purpose.auditIdDomain (auditIdMessage purpose i.nonce),
            i.nowUnixSeconds, i.nowUnixSeconds + ttlSeconds⟩ := by
  obtain ⟨rfl, rfl, rfl, rfl, issued, hiss, hsi, ht⟩ := hi
  have hs := hiss.spec
  obtain ⟨hn, his, he, hta, hve⟩ := hs.token_fields
  refine ⟨hs.size, ?_⟩
  have hp : ApprovalToken.parse base64 text = .ok issued.token :=
    parse_eq_ok_iff.mpr ⟨hsi, ht, hve⟩
  have hti := hs.time
  have hex := hs.expiry
  have hm : i.root.verify blake3 i.purpose.envelopeMacDomain
      (envelopeMacMessage i.purpose i.workspaceId i.surface issued.token.fields)
      issued.token.mac = true := decide_eq_true hs.mac
  unfold approve
  rw [hp, Except.ok_then]
  split
  · rename_i hea
    have hv : verifyAuthenticToken blake3 i.root i.purpose i.workspaceId i.surface
        issued.token now = .error .invalid := by
      refine Except.check_then_error fun _ => Except.check_then_error fun _ =>
        Except.check_then_error fun _ => Except.check_then_error fun hsh => ?_
      rw [his] at hsh
      omega
    rw [hv]
    rfl
  · rename_i hl
    have hv : verifyAuthenticToken blake3 i.root i.purpose i.workspaceId i.surface issued.token now
          = .ok ⟨i.purpose, i.nonce, i.nowUnixSeconds, i.nowUnixSeconds + ttlSeconds,
            issued.token.snapshotTag, i.root.keyId⟩ := by
      unfold verifyAuthenticToken
      rw [his, he, hn]
      refine Except.check_then hs.context (Except.check_then (by omega)
        (Except.check_then hm (Except.check_then ?_ rfl)))
      omega
    rw [hv, Except.ok_then]
    unfold compareSnapshot snapshotTag
    rw [hta]
    refine Except.check_then (by simpa using hl) ?_
    by_cases hst : i.nowUnixSeconds + ttlSeconds ≤ now ∨ maxSnapshotBytes < cs.length
    · rw [if_pos (by tauto)]
      exact Except.check_then_error fun h => absurd hst h
    · refine Except.check_then hst ?_
      rw [Except.check_then (by omega) rfl, Except.ok_then]
      by_cases hsa : i.root.mac blake3 i.purpose.snapshotTagDomain
          (snapshotMessage i.purpose i.nonce cs) = i.root.mac blake3 i.purpose.snapshotTagDomain
              (snapshotMessage i.purpose i.nonce i.canonicalSnapshot)
      · rw [if_neg (by tauto)]
        exact Except.check_then hsa rfl
      · rw [if_pos (by tauto)]
        exact Except.check_then_error fun h => absurd h hsa

/-- The current snapshot has the tag of an issued one exactly when it is the same. -/
theorem snapshot_tag_eq_iff {cs : List UInt8}
    (hin : Set.InjOn (root.mac blake3 purpose.snapshotTagDomain)
      (snapshotMessages issues purpose cs)) {i : Issue} (hme : i ∈ issues)
    (hp : i.purpose = purpose) (hi : i.canonicalSnapshot.length ≤ maxSnapshotBytes)
    (hsi : cs.length ≤ maxSnapshotBytes) :
    root.mac blake3 purpose.snapshotTagDomain (snapshotMessage purpose i.nonce cs)
      = root.mac blake3 purpose.snapshotTagDomain
        (snapshotMessage purpose i.nonce i.canonicalSnapshot) ↔
      i.canonicalSnapshot = cs := by
  constructor
  · intro ht
    have hm := hin ⟨i, hme, hp, Or.inr rfl⟩ ⟨i, hme, hp, Or.inl rfl⟩ ht
    exact (snapshotMessage_inj hsi hi hm).symm
  · intro hs
    rw [hs]

/-- **An approval binds what was approved.**  A text is approved exactly when, with the white
space around it removed, it is the printed form of a token that was issued under the current
key for the same purpose, workspace, surface and snapshot, from the time of issue until
the lifetime is over.  A text that is no token of this key, purpose, workspace and surface
is invalid, and one that differs in the snapshot only is stale. -/
theorem approve_iff_issued
    (hforge : Unforged base64 blake3 issues root purpose workspaceId surface text)
    {canonicalSnapshot : List UInt8}
    (hinj : Set.InjOn (root.mac blake3 purpose.snapshotTagDomain)
      (snapshotMessages issues purpose canonicalSnapshot)) (nowUnixSeconds : ℤ) :
    ((∃ approval, approve base64 blake3 root purpose workspaceId surface text canonicalSnapshot
        nowUnixSeconds = .ok approval) ↔
      ∃ i ∈ issues, IsIssuedFor base64 blake3 root purpose workspaceId surface text i ∧
        i.canonicalSnapshot = canonicalSnapshot ∧ i.nowUnixSeconds ≤ nowUnixSeconds ∧
        nowUnixSeconds < i.nowUnixSeconds + ttlSeconds) ∧
    ((¬ ∃ i ∈ issues, IsIssuedFor base64 blake3 root purpose workspaceId surface text i) →
      approve base64 blake3 root purpose workspaceId surface text canonicalSnapshot nowUnixSeconds
        = .error .invalid) ∧
    ∀ i ∈ issues, IsIssuedFor base64 blake3 root purpose workspaceId surface text i →
      i.canonicalSnapshot ≠ canonicalSnapshot → i.nowUnixSeconds ≤ nowUnixSeconds →
      nowUnixSeconds < i.nowUnixSeconds + ttlSeconds →
      approve base64 blake3 root purpose workspaceId surface text canonicalSnapshot nowUnixSeconds
        = .error .stale := by
  refine ⟨⟨?_, ?_⟩, ?_, ?_⟩
  · rintro ⟨approval, ha⟩
    by_cases hso : ∃ i ∈ issues, IsIssuedFor base64 blake3 root purpose workspaceId surface text i
    · obtain ⟨i, hm, hi⟩ := hso
      obtain ⟨his, hr⟩ := approve_of_issued hi canonicalSnapshot nowUnixSeconds
      rw [hr] at ha
      split at ha
      · cases ha
      rename_i he
      split at ha
      · cases ha
      rename_i hf
      push Not at hf
      obtain ⟨hl, hs, ht⟩ := hf
      exact ⟨i, hm, hi, (snapshot_tag_eq_iff hinj hm hi.2.1 his hs).mp ht, not_lt.mp he, hl⟩
    · rw [approve_of_not_issued hforge hso] at ha
      cases ha
  · rintro ⟨i, hm, hi, rfl, he, hl⟩
    obtain ⟨his, hr⟩ := approve_of_issued hi i.canonicalSnapshot nowUnixSeconds
    rw [if_neg (not_lt.mpr he), if_neg] at hr
    · exact ⟨_, hr⟩
    · rintro (h | h | h)
      · omega
      · omega
      · exact h rfl
  · intro hn
    exact approve_of_not_issued hforge hn _ _
  · intro i hm hi hd he hl
    obtain ⟨his, hr⟩ := approve_of_issued hi canonicalSnapshot nowUnixSeconds
    rw [hr, if_neg (not_lt.mpr he), if_pos]
    by_cases hs : canonicalSnapshot.length ≤ maxSnapshotBytes
    · refine Or.inr (Or.inr ?_)
      intro ht
      exact hd ((snapshot_tag_eq_iff hinj hm hi.2.1 his hs).mp ht)
    · exact Or.inr (Or.inl (not_le.mp hs))

end

/-! ## A known answer -/

open Base64 (urlSafeNoPad)
open TransportSession (digest)

def katRoot : StoreAuthRoot :=
  ⟨asBytes "eeak1",
    digest "000102030405060708090a0b0c0d0e0f101112131415161718191a1b1c1d1e1f"⟩

def katIssue : Issue :=
  { root := katRoot
    purpose := .lane
    workspaceId := "ws_approval_tests"
    surface := "ee.mesh.grant.v1"
    canonicalSnapshot := asBytes "\x7b\"generation\":7\x7d"
    nowUnixSeconds := 1800000000
    nonce := digest "1111111111111111111111111111111111111111111111111111111111111111" }

/-- The keys that `blake3` derives from `katRoot` for lane approvals. -/
def katSubkey (context : String) : Bytes32 :=
  if context = "ee.store_auth.lane_approval.snapshot_tag.v1" then
    digest "42e95c455de2d2b5a69c032a62c9d282cbfbbb9a41c180ea4a479b2d38f1db48"
  else if context = "ee.store_auth.lane_approval.envelope_mac.v1" then
    digest "d96b04a4c0b3e321e08353fec4ce06bd3da673f959b793871345e9357834d1ba"
  else if context = "ee.store_auth.lane_approval.audit_id.v1" then
    digest "326a241242375f7572a68d97cfee8c60441fd36ac79b1794f9025c593cdd6926"
  else digest ""

/-- The tag of the snapshot of the issue. -/
def katTag : Bytes32 :=
  digest "6823ee574631a7c8eb6c17943d4882aeef743983f2b5b61f7fcc5f66f5a3180e"

/-- `blake3` on the messages of the issue. -/
def katBlake3 : Blake3 where
  hash _ := digest ""
  keyedHash key bytes :=
    if key = katSubkey "ee.store_auth.lane_approval.snapshot_tag.v1" ∧
        bytes = snapshotMessage .lane katIssue.nonce katIssue.canonicalSnapshot then katTag
    else if key = katSubkey "ee.store_auth.lane_approval.envelope_mac.v1" ∧
        bytes = envelopeMacMessage .lane katIssue.workspaceId katIssue.surface
          (envelopeFields katIssue.nonce 1800000000 1800000900 katTag) then
      digest "6ae08f7dca0ccb22fbf474484eaf146ba35a9291391c6583af1285cebc6b7a26"
    else if key = katSubkey "ee.store_auth.lane_approval.audit_id.v1" ∧
        bytes = auditIdMessage .lane katIssue.nonce then
      digest "9179567cca681c9c37ecf593a968b358fe894b033575fbcebe92708a0b56b661"
    else digest ""
  deriveKey context _ := katSubkey context

def katBearer : String :=
  "eeap1_ARERERERERERERERERERERERERERERERERERERERERERAAAAAGtJ0gAAAAAAa0nVhGgj7ldGMafI62wXlD1I"
    ++ "gq7vdDmD8rW2H3_MX2b1oxgOauCPfcoMyyL79HRITq8Ua6NakpE5HGWDrxKFzrxreiY"

/-- The issue prints the known bearer. -/
theorem katIssue_issues :
    ∃ issued, katIssue.Issues katBlake3 issued
      ∧ issued.token.exposeBearer urlSafeNoPad = katBearer := by
  have hp : (issueWithNonce katBlake3 katIssue.root katIssue.purpose katIssue.workspaceId
      katIssue.surface katIssue.canonicalSnapshot katIssue.nowUnixSeconds
      katIssue.nonce).toOption.map (fun issued => issued.token.exposeBearer urlSafeNoPad)
        = some katBearer := by
    decide +kernel
  obtain ⟨issued, hi, hb⟩ := Option.map_eq_some_iff.mp hp
  refine ⟨issued, ?_, hb⟩
  unfold Issue.Issues
  revert hi
  cases issueWithNonce katBlake3 katIssue.root katIssue.purpose katIssue.workspaceId
      katIssue.surface katIssue.canonicalSnapshot katIssue.nowUnixSeconds katIssue.nonce with
  | error e =>
    intro h
    cases h
  | ok value =>
    intro h
    cases h
    rfl

/-- A text around the known bearer is the token of the issue. -/
theorem katIssue_isIssuedFor {text : String} (hs : text.utf8ByteSize ≤ maxInputBytes)
    (ht : trim text = katBearer) :
    IsIssuedFor urlSafeNoPad katBlake3 katRoot .lane katIssue.workspaceId katIssue.surface text
      katIssue := by
  obtain ⟨issued, hi, hb⟩ := katIssue_issues
  exact ⟨rfl, rfl, rfl, rfl, issued, hi, hs, ht.trans hb.symm⟩

/-- Its tag is the one the issue computed. -/
theorem katIssue_unforged {text : String} (hsi : text.utf8ByteSize ≤ maxInputBytes)
    (ht : trim text = katBearer) :
    Unforged urlSafeNoPad katBlake3 [katIssue] katRoot .lane katIssue.workspaceId
      katIssue.surface text := by
  intro token hp _
  obtain ⟨issued, hi, hb⟩ := katIssue_issues
  have hs : ApprovalToken.parse urlSafeNoPad text = .ok issued.token :=
    parse_eq_ok_iff.mpr ⟨hsi, ht.trans hb.symm, hi.spec.token_fields.2.2.2.2⟩
  obtain rfl : issued.token = token := by
    rw [hs] at hp
    exact Except.ok.inj hp
  exact ⟨katIssue, List.mem_singleton_self _, issued, hi, rfl, Or.inr ⟨rfl, rfl⟩⟩

/-- There is only one snapshot message. -/
theorem katIssue_injOn : Set.InjOn (katRoot.mac katBlake3 .laneApprovalSnapshotTag)
    (snapshotMessages [katIssue] .lane katIssue.canonicalSnapshot) := by
  rintro message ⟨i, hi, -, hm⟩ m' ⟨i', hi', -, hm'⟩ -
  obtain rfl := List.mem_singleton.mp hi
  obtain rfl := List.mem_singleton.mp hi'
  rw [or_self] at hm hm'
  rw [hm, hm']

theorem approve_iff_issued_lane :
    ∃ approval, approve urlSafeNoPad katBlake3 katRoot .lane "ws_approval_tests"
      "ee.mesh.grant.v1" katBearer (asBytes "\x7b\"generation\":7\x7d") 1800000899
        = .ok approval := by
  have hs : katBearer.utf8ByteSize ≤ maxInputBytes := by decide +kernel
  have ht : trim katBearer = katBearer := by decide +kernel
  refine (approve_iff_issued (katIssue_unforged hs ht) katIssue_injOn _).1.mpr ?_
  refine ⟨katIssue, List.mem_singleton_self _, katIssue_isIssuedFor hs ht, rfl, ?_, ?_⟩
  · decide
  · decide

/-- White space around a token is removed before it is parsed: a text that is no printed form
of an issued token is approved. -/
theorem padded_token_is_approved :
    Unforged urlSafeNoPad katBlake3 [katIssue] katRoot .lane katIssue.workspaceId katIssue.surface
        (katBearer ++ "\n") ∧
      Set.InjOn (katRoot.mac katBlake3 .laneApprovalSnapshotTag)
        (snapshotMessages [katIssue] .lane katIssue.canonicalSnapshot) ∧
      (∃ approval, approve urlSafeNoPad katBlake3 katRoot .lane katIssue.workspaceId
        katIssue.surface (katBearer ++ "\n") katIssue.canonicalSnapshot 1800000000
          = .ok approval) ∧
      ¬ ∃ i ∈ [katIssue], ∃ issued, i.Issues katBlake3 issued ∧
        katBearer ++ "\n" = issued.token.exposeBearer urlSafeNoPad := by
  have hs : (katBearer ++ "\n").utf8ByteSize ≤ maxInputBytes := by decide +kernel
  have ht : trim (katBearer ++ "\n") = katBearer := by decide +kernel
  refine ⟨katIssue_unforged hs ht, katIssue_injOn, ?_, ?_⟩
  · have hr := (approve_of_issued (katIssue_isIssuedFor hs ht)
      katIssue.canonicalSnapshot 1800000000).2
    rw [if_neg (by decide), if_neg (by decide +kernel)] at hr
    exact ⟨_, hr⟩
  · rintro ⟨i, hi, issued, his, hp⟩
    obtain rfl := List.mem_singleton.mp hi
    have hl := congrArg String.utf8ByteSize hp
    rw [utf8ByteSize_exposeBearer] at hl
    exact absurd hl (by decide +kernel)

end LaneGrant
