/-
# Preflight bypass tokens (`src/core/preflight_token.rs`, `src/db/mod.rs`)

A token lets a halted command through a few times and for a short while.  It is a row of
`preflight_bypass_tokens` under the hash of the raw token.  Many calls issue, verify and revoke
tokens at once; each call is a sequence of database statements, and between any two of them other
calls run theirs.  A verification checks the row that it read first and spends a use with a
conditional update later.
-/
import EideticEngine.ComparisonSort
import EideticEngine.MachineInt
import EideticEngine.TextOrder

namespace BypassTokens

open RustText (asBytes strCmp trim)

/-! ## Surroundings -/

/-- What the code uses of other libraries: the hash, the time library and the JSON of a list of
texts.  A time is a number of nanoseconds. -/
structure Env where
  blake3Hex : List UInt8 → String
  toRfc3339 : ℤ → String
  parseFromRfc3339 : String → Option ℤ
  rfc3339Error : String → String
  toJson : List String → String
  fromJson : String → Option (List String)
  jsonError : String → String

def nanosPerMinute : ℤ := 60000000000

/-! ## Scopes -/

def tokenHash (env : Env) (rawToken : String) : String :=
  "blake3:" ++ env.blake3Hex (asBytes rawToken)

def tokenHashPrefix (hash : String) : String := String.ofList (hash.toList.take 20)

def normalizeBypassCommandScope (command : String) : String := trim command

def canonicalBypassRuleIds (ruleIds : List String) : List String :=
  (((ruleIds.map trim).filter (· ≠ "")).insertionSort fun a b => strCmp a b ≠ .gt).destutter
    (· ≠ ·)

def bypassCommandScopeHash (env : Env) (command : String) (ruleIds : List String) : String :=
  let command := normalizeBypassCommandScope command
  let ruleIds := canonicalBypassRuleIds ruleIds
  "blake3:" ++ env.blake3Hex (asBytes (command ++ "\x00"
    ++ String.join (ruleIds.map fun ruleId => ruleId ++ "\x00")))

/-! ## Calls -/

structure IssueBypassTokenOptions where
  workspaceId : String
  issuerWorkspace : String
  command : String
  ruleIds : List String
  reason : String
  ttlMinutes : Option ℤ
  maxUses : Option ℕ
  now : ℤ

structure VerifyBypassTokenOptions where
  workspaceId : String
  token : String
  command : String
  ruleIds : List String
  now : ℤ

structure RevokeBypassTokenOptions where
  workspaceId : String
  token : String
  now : ℤ

/-- A call; an issued token is drawn at random. -/
inductive Call where
  | issue (options : IssueBypassTokenOptions) (token : String)
  | verify (options : VerifyBypassTokenOptions)
  | revoke (options : RevokeBypassTokenOptions)

/-- The raw token of a call. -/
def Call.token : Call → String
  | issue _ token => token
  | verify options => options.token
  | revoke options => options.token

structure StoredPreflightBypassToken where
  tokenHash : String
  tokenHashPrefix : String
  workspaceId : String
  issuedAt : String
  expiresAt : String
  maxUses : ℕ
  usedCount : ℕ
  issuerWorkspace : String
  reason : String
  command : String
  commandHash : String
  ruleIdsJson : String
  revokedAt : Option String
  lastUsedAt : Option String

/-- When a token expires. -/
def IssueBypassTokenOptions.expiresAt (options : IssueBypassTokenOptions) : ℤ :=
  options.now + options.ttlMinutes.getD 10 * nanosPerMinute

/-- The row of a new token. -/
def issuedRow (env : Env) (options : IssueBypassTokenOptions) (token : String) :
    StoredPreflightBypassToken :=
  let command := normalizeBypassCommandScope options.command
  let ruleIds := canonicalBypassRuleIds options.ruleIds
  let hash := tokenHash env token
  { tokenHash := hash
    tokenHashPrefix := tokenHashPrefix hash
    workspaceId := options.workspaceId
    issuedAt := env.toRfc3339 options.now
    expiresAt := env.toRfc3339 options.expiresAt
    maxUses := options.maxUses.getD 1
    usedCount := 0
    issuerWorkspace := options.issuerWorkspace
    reason := options.reason
    command := command
    commandHash := bypassCommandScopeHash env command ruleIds
    ruleIdsJson := env.toJson ruleIds
    revokedAt := none
    lastUsedAt := none }

/-! ## Errors and reports -/

structure PreflightBypassTokenError where
  code : String
  severity : String
  message : String
  repair : String
  tokenHashPrefix : Option String

def storageError (error : String) : PreflightBypassTokenError :=
  ⟨"bypass_token_storage_error", "critical",
    "preflight bypass token storage operation failed: " ++ error,
    "Run `ee doctor --json` and retry after storage is healthy.", none⟩

def timestampError (error : String) : PreflightBypassTokenError :=
  ⟨"bypass_token_storage_error", "critical",
    "stored preflight bypass token timestamp is invalid: " ++ error,
    "Run `ee doctor --json` and inspect preflight_bypass_tokens rows.", none⟩

def ruleScopeError (error hashPrefix : String) : PreflightBypassTokenError :=
  ⟨"bypass_token_storage_error", "critical",
    "stored preflight bypass token rule scope is invalid: " ++ error,
    "Run `ee doctor --json` and inspect preflight_bypass_tokens rows.", some hashPrefix⟩

def invalidTokenError (hashPrefix : String) : PreflightBypassTokenError :=
  ⟨"bypass_token_invalid", "high", "preflight bypass token is invalid for this workspace",
    "Issue a fresh bypass token after human confirmation.", some hashPrefix⟩

def scopeMismatchError (hashPrefix : String) : PreflightBypassTokenError :=
  ⟨"bypass_token_invalid", "high",
    "preflight bypass token is not valid for this command and rule set",
    "Issue a fresh bypass token for this exact command after human confirmation.",
    some hashPrefix⟩

def revokedTokenError (hashPrefix : String) : PreflightBypassTokenError :=
  ⟨"bypass_token_revoked", "high", "preflight bypass token has been revoked",
    "Issue a fresh bypass token after renewed human confirmation.", some hashPrefix⟩

def expiredTokenError (hashPrefix : String) : PreflightBypassTokenError :=
  ⟨"bypass_token_expired", "medium", "preflight bypass token has expired",
    "Issue a fresh bypass token with an explicit reason.", some hashPrefix⟩

def exhaustedTokenError (hashPrefix : String) : PreflightBypassTokenError :=
  ⟨"bypass_token_exhausted", "high", "preflight bypass token has no remaining uses",
    "Issue a fresh one-shot bypass token if the command is still approved.", some hashPrefix⟩

def rateLimitError (hashPrefix : String) : PreflightBypassTokenError :=
  ⟨"bypass_rate_limit_exceeded", "high",
    "workspace exceeded the preflight bypass token rate limit",
    "Wait for the hourly window to clear or inspect recent bypass audit rows.", some hashPrefix⟩

def failedConsumeStorageError (hashPrefix : String) : PreflightBypassTokenError :=
  ⟨"bypass_token_storage_error", "critical",
    "preflight bypass token use update affected no rows while the token still appeared usable",
    "Run `ee doctor --json` and inspect preflight_bypass_tokens rows for inconsistent state.",
    some hashPrefix⟩

/-- The fields that do not pass and why, in the order of the names. -/
def issueOptionErrors (options : IssueBypassTokenOptions) : List (String × String) :=
  (if normalizeBypassCommandScope options.command = "" then [("command", "must not be empty")]
    else [])
  ++ (if trim options.issuerWorkspace = "" then [("issuer_workspace", "must not be empty")] else [])
  ++ (if options.maxUses.getD 1 = 0 then [("max_uses", "must be at least 1")] else [])
  ++ (if trim options.reason = "" then [("reason", "must not be empty")] else [])
  ++ (if canonicalBypassRuleIds options.ruleIds = [] then
      [("rule_ids", "must include at least one matching rule id")] else [])
  ++ (if ¬ (1 ≤ options.ttlMinutes.getD 10 ∧ options.ttlMinutes.getD 10 ≤ 60) then
      [("ttl_minutes", "must be between 1 and 60")] else [])
  ++ (if trim options.workspaceId = "" then [("workspace_id", "must not be empty")] else [])

def invalidOptionsError (errors : List (String × String)) : PreflightBypassTokenError :=
  ⟨"bypass_token_invalid", "medium",
    "invalid preflight bypass token options: \x7b"
      ++ String.intercalate ", " (errors.map fun (field, text) =>
        "\"" ++ field ++ "\": \"" ++ text ++ "\"") ++ "\x7d",
    "Provide workspace_id, issuer_workspace, command, rule_ids, reason, ttl 1..60, and "
      ++ "max_uses >= 1.",
    none⟩

/-- What a call returns when it succeeds. -/
inductive Report where
  | issued (hashPrefix command commandHash : String) (ruleIds : List String) (expiresAt : String)
      (maxUses : ℕ) (auditId : String)
  | used (hashPrefix : String) (usedCount remainingUses : ℕ) (auditId : String)
  | revoked (hashPrefix revokedAt auditId : String)

/-! ## Checks -/

/-- What comes of looking at a row: it passes, it is rejected with an audit row, or it cannot be
read. -/
inductive Verdict where
  | pass
  | reject (code reason : String) (error : PreflightBypassTokenError)
  | fail (error : PreflightBypassTokenError)

def storedTokenRuleIds (env : Env) (token : StoredPreflightBypassToken) :
    Except PreflightBypassTokenError (List String) :=
  match env.fromJson token.ruleIdsJson with
  | some ruleIds => .ok (canonicalBypassRuleIds ruleIds)
  | none => .error (ruleScopeError (env.jsonError token.ruleIdsJson) token.tokenHashPrefix)

/-- Whether a token is revoked, expired or exhausted; the reasons end in this text. -/
def checkUsable (env : Env) (token : StoredPreflightBypassToken) (now : ℤ)
    (hashPrefix suffix : String) : Verdict :=
  if token.revokedAt.isSome then
    .reject "bypass_token_revoked" ("token revoked" ++ suffix) (revokedTokenError hashPrefix)
  else
    match env.parseFromRfc3339 token.expiresAt with
    | none => .fail (timestampError (env.rfc3339Error token.expiresAt))
    | some expiresAt =>
      if expiresAt ≤ now then
        .reject "bypass_token_expired" ("token expired" ++ suffix) (expiredTokenError hashPrefix)
      else if token.maxUses ≤ token.usedCount then
        .reject "bypass_token_exhausted" ("token exhausted" ++ suffix)
          (exhaustedTokenError hashPrefix)
      else .pass

/-- The checks of `verify_bypass_token` on the row that it read. -/
def checkToken (env : Env) (options : VerifyBypassTokenOptions)
    (token : StoredPreflightBypassToken) (hashPrefix : String) : Verdict :=
  if token.workspaceId ≠ options.workspaceId then
    .reject "bypass_token_invalid" "workspace mismatch" (invalidTokenError hashPrefix)
  else
    let command := normalizeBypassCommandScope options.command
    let ruleIds := canonicalBypassRuleIds options.ruleIds
    match storedTokenRuleIds env token with
    | .error error => .fail error
    | .ok storedRuleIds =>
      if token.command ≠ command ∨ token.commandHash ≠ bypassCommandScopeHash env command ruleIds
          ∨ storedRuleIds ≠ ruleIds then
        .reject "bypass_token_invalid" "command scope mismatch" (scopeMismatchError hashPrefix)
      else checkUsable env token options.now hashPrefix ""

/-- Why the update of a token that passed the checks had no effect. -/
def classifyFailedTokenConsume (env : Env) (options : VerifyBypassTokenOptions)
    (token : Option StoredPreflightBypassToken) (hashPrefix : String) : Verdict :=
  match token with
  | none =>
    .reject "bypass_token_invalid" "token disappeared before use update"
      (invalidTokenError hashPrefix)
  | some token =>
    if token.workspaceId ≠ options.workspaceId then
      .reject "bypass_token_invalid" "workspace mismatch before use update"
        (invalidTokenError hashPrefix)
    else
      match checkUsable env token options.now hashPrefix " before use update" with
      | .pass => .fail (failedConsumeStorageError hashPrefix)
      | verdict => verdict

/-! ## The database -/

/-- An audit row, with the code and the reason of a rejection. -/
structure AuditRow where
  workspaceId : String
  action : String
  targetId : String
  timestamp : String
  rejection : Option (String × String)

/-- Where a call is. -/
inductive Phase where
  | start
  /-- The row passed the checks. -/
  | counting (token : StoredPreflightBypassToken)
  /-- The workspace is within its rate. -/
  | consuming (token : StoredPreflightBypassToken)
  /-- The update had no effect. -/
  | classifying
  /-- A use was spent. -/
  | recordingUse (token : StoredPreflightBypassToken)
  | rejecting (code reason : String) (error : PreflightBypassTokenError)
  /-- The row is of the workspace. -/
  | revoking
  | recordingRevoke
  | recordingIssue
  | done (result : Except PreflightBypassTokenError Report)

structure State (n : ℕ) where
  rows : String → Option StoredPreflightBypassToken
  audit : List AuditRow
  phase : Fin n → Phase

/-- What a statement did to a token, or that a verification succeeded. -/
inductive Event (n : ℕ) where
  | issued (call : Fin n)
  | consumed (call : Fin n)
  | revoked (call : Fin n)
  | succeeded (call : Fin n)
  deriving DecidableEq

/-- The next statement of a call; it may fail, and an audit row gets an id and a time. -/
structure Action (n : ℕ) where
  call : Fin n
  failure : Option String
  auditId : String
  timestamp : String

/-- The update of `increment_preflight_bypass_token_use`, if it affects a row. -/
def incrementPreflightBypassTokenUse (token : StoredPreflightBypassToken) (usedAt : String) :
    Option StoredPreflightBypassToken :=
  if token.usedCount < token.maxUses ∧ token.revokedAt = none
      ∧ strCmp usedAt token.expiresAt = .lt then
    some { token with usedCount := token.usedCount + 1, lastUsedAt := some usedAt }
  else none

/-- The update of `revoke_preflight_bypass_token`, if it affects a row. -/
def revokePreflightBypassToken (token : StoredPreflightBypassToken) (revokedAt : String) :
    Option StoredPreflightBypassToken :=
  if token.revokedAt = none then some { token with revokedAt := some revokedAt } else none

/-- The rows of uses since a time. -/
def countUsesSince (audit : List AuditRow) (workspaceId since : String) : ℕ :=
  (audit.filter fun row => row.workspaceId = workspaceId
    ∧ row.action = "preflight.bypass_token.use" ∧ strCmp since row.timestamp ≠ .gt).length

section

variable {n : ℕ} (env : Env) (s : State n)

def State.goto (call : Fin n) (phase : Phase) : State n :=
  { s with phase := Function.update s.phase call phase }

def State.setRow (hash : String) (token : StoredPreflightBypassToken) : State n :=
  { s with rows := Function.update s.rows hash (some token) }

/-- Insert an audit row, unless this fails. -/
def State.insertAudit (action : Action n) (workspaceId kind targetId : String)
    (rejection : Option (String × String)) : State n :=
  match action.failure with
  | some _ => s
  | none =>
    { s with audit := s.audit ++ [⟨workspaceId, kind, targetId, action.timestamp, rejection⟩] }

/-- Where a verification goes after a verdict. -/
def Verdict.next : Verdict → Phase → Phase
  | pass, phase => phase
  | reject code reason error, _ => .rejecting code reason error
  | fail error, _ => .done (.error error)

def issueStep (options : IssueBypassTokenOptions) (token : String) (action : Action n) :
    Option (State n × List (Event n)) :=
  let call := action.call
  let row := issuedRow env options token
  match s.phase call with
  | .start =>
    if issueOptionErrors options ≠ [] then
      some (s.goto call (.done (.error (invalidOptionsError (issueOptionErrors options)))), [])
    else
      match action.failure, s.rows row.tokenHash with
      | some error, _ => some (s.goto call (.done (.error (storageError error))), [])
      | none, some _ =>
        some (s.goto call (.done (.error (storageError "UNIQUE constraint failed"))), [])
      | none, none => some ((s.setRow row.tokenHash row).goto call .recordingIssue, [.issued call])
  | .recordingIssue =>
    let result : Except PreflightBypassTokenError Report :=
      match action.failure with
      | some error => .error (storageError error)
      | none => .ok (.issued row.tokenHashPrefix row.command row.commandHash
          (canonicalBypassRuleIds options.ruleIds) row.expiresAt row.maxUses action.auditId)
    some ((s.insertAudit action options.workspaceId "preflight.bypass_token.issue"
      row.tokenHashPrefix none).goto call (.done result), [])
  | _ => none

def verifyStep (options : VerifyBypassTokenOptions) (action : Action n) :
    Option (State n × List (Event n)) :=
  let call := action.call
  let hash := tokenHash env options.token
  let hashPrefix := tokenHashPrefix hash
  match s.phase call with
  | .start =>
    match action.failure, s.rows hash with
    | some error, _ => some (s.goto call (.done (.error (storageError error))), [])
    | none, none =>
      some (s.goto call (.rejecting "bypass_token_invalid" "token not found"
        (invalidTokenError hashPrefix)), [])
    | none, some token =>
      some (s.goto call ((checkToken env options token hashPrefix).next (.counting token)), [])
  | .counting token =>
    match action.failure with
    | some error => some (s.goto call (.done (.error (storageError error))), [])
    | none =>
      let since := env.toRfc3339 (options.now - 60 * nanosPerMinute)
      if 5 ≤ countUsesSince s.audit options.workspaceId since then
        some (s.goto call (.rejecting "bypass_rate_limit_exceeded"
          "workspace bypass rate limit exceeded" (rateLimitError hashPrefix)), [])
      else some (s.goto call (.consuming token), [])
  | .consuming token =>
    match action.failure with
    | some error => some (s.goto call (.done (.error (storageError error))), [])
    | none =>
      match (s.rows hash).bind fun row =>
          incrementPreflightBypassTokenUse row (env.toRfc3339 options.now) with
      | some row => some ((s.setRow hash row).goto call (.recordingUse token), [.consumed call])
      | none => some (s.goto call .classifying, [])
  | .classifying =>
    match action.failure with
    | some error => some (s.goto call (.done (.error (storageError error))), [])
    | none =>
      let verdict := classifyFailedTokenConsume env options (s.rows hash) hashPrefix
      some (s.goto call (verdict.next .classifying), [])
  | .recordingUse token =>
    let usedCount := satAdd32 token.usedCount 1
    let s' := s.insertAudit action options.workspaceId "preflight.bypass_token.use" hashPrefix none
    match action.failure with
    | some error => some (s'.goto call (.done (.error (storageError error))), [])
    | none =>
      some (s'.goto call (.done (.ok (.used hashPrefix usedCount (token.maxUses - usedCount)
        action.auditId))), [.succeeded call])
  | .rejecting code reason error =>
    some ((s.insertAudit action options.workspaceId "preflight.bypass_token.reject" hashPrefix
      (some (code, reason))).goto call (.done (.error error)), [])
  | _ => none

def revokeStep (options : RevokeBypassTokenOptions) (action : Action n) :
    Option (State n × List (Event n)) :=
  let call := action.call
  let hash := tokenHash env options.token
  let hashPrefix := tokenHashPrefix hash
  let revokedAt := env.toRfc3339 options.now
  match s.phase call with
  | .start =>
    match action.failure, s.rows hash with
    | some error, _ => some (s.goto call (.done (.error (storageError error))), [])
    | none, none => some (s.goto call (.done (.error (invalidTokenError hashPrefix))), [])
    | none, some token =>
      if token.workspaceId ≠ options.workspaceId then
        some (s.goto call (.done (.error (invalidTokenError hashPrefix))), [])
      else some (s.goto call .revoking, [])
  | .revoking =>
    match action.failure with
    | some error => some (s.goto call (.done (.error (storageError error))), [])
    | none =>
      match (s.rows hash).bind fun row => revokePreflightBypassToken row revokedAt with
      | some row => some ((s.setRow hash row).goto call .recordingRevoke, [.revoked call])
      | none =>
        let error := storageError "preflight bypass token revoke affected no rows"
        some (s.goto call (.done (.error error)), [])
  | .recordingRevoke =>
    let result : Except PreflightBypassTokenError Report :=
      match action.failure with
      | some error => .error (storageError error)
      | none => .ok (.revoked hashPrefix revokedAt action.auditId)
    some ((s.insertAudit action options.workspaceId "preflight.bypass_token.revoke" hashPrefix
      none).goto call (.done result), [])
  | _ => none

variable (calls : Fin n → Call)

/-- The next statement of a call and what it did. -/
def step (action : Action n) : Option (State n × List (Event n)) :=
  match calls action.call with
  | .issue options token => issueStep env s options token action
  | .verify options => verifyStep env s options action
  | .revoke options => revokeStep env s options action

def initial : State n := ⟨fun _ => none, [], fun _ => .start⟩

/-- The runs from an empty table, with all that was done in them. -/
inductive Run : List (Event n) → State n → Prop
  | start : Run [] initial
  | step {events events' : List (Event n)} {s s' : State n} {action : Action n} : Run events s →
      step env s calls action = some (s', events') → Run (events ++ events') s'

end

end BypassTokens
