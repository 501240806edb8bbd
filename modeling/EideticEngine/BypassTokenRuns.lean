/-
# A bypass token is spent at most so many times

Over every interleaving of the statements of any calls: the used count of a row is the number of
updates that spent a use, and no verification succeeds without one of its own; the scope of a row
never changes, so that what was checked on the row that was read holds of the row that is
updated; and the condition of the update is evaluated on the row as it is then.
-/
import EideticEngine.BypassTokens

namespace BypassTokens

open RustText (strCmp trim)

/-! ## Rule sets -/

/-- Rule sets are canonical once and for all. -/
theorem canonicalBypassRuleIds_idem (ris : List String) :
    canonicalBypassRuleIds (canonicalBypassRuleIds ris) = canonicalBypassRuleIds ris := by
  have hm : ∀ id ∈ canonicalBypassRuleIds ris, trim id = id ∧ id ≠ "" := by
    intro id hid
    obtain ⟨hin, hne⟩ := List.mem_filter.mp (ComparisonSort.mem_destutter_insertionSort.mp hid)
    obtain ⟨raw, -, rfl⟩ := List.mem_map.mp hin
    exact ⟨RustText.trim_trim raw, of_decide_eq_true hne⟩
  have hc : ((canonicalBypassRuleIds ris).map trim).filter (· ≠ "")
      = canonicalBypassRuleIds ris := by
    have hma : (canonicalBypassRuleIds ris).map trim = canonicalBypassRuleIds ris :=
      (List.map_congr_left fun id hid => (hm id hid).1).trans (List.map_id _)
    rw [hma, List.filter_eq_self]
    exact fun id hid => decide_eq_true (hm id hid).2
  rw [canonicalBypassRuleIds, hc]
  exact ComparisonSort.destutter_insertionSort_eq_iff.mpr fun id =>
    ComparisonSort.mem_destutter_insertionSort

/-! ## Scopes of rows -/

/-- What never changes of a row. -/
structure SameScope (row row' : StoredPreflightBypassToken) : Prop where
  workspaceId : row.workspaceId = row'.workspaceId
  command : row.command = row'.command
  ruleIdsJson : row.ruleIdsJson = row'.ruleIdsJson
  expiresAt : row.expiresAt = row'.expiresAt
  maxUses : row.maxUses = row'.maxUses

theorem SameScope.refl (row : StoredPreflightBypassToken) : SameScope row row :=
  ⟨rfl, rfl, rfl, rfl, rfl⟩

theorem SameScope.trans {row r' r'' : StoredPreflightBypassToken} (h : SameScope row r')
    (h' : SameScope r' r'') : SameScope row r'' :=
  ⟨h.workspaceId.trans h'.workspaceId, h.command.trans h'.command,
    h.ruleIdsJson.trans h'.ruleIdsJson, h.expiresAt.trans h'.expiresAt,
    h.maxUses.trans h'.maxUses⟩

/-- The row is for the workspace, the command and the rules of a verification. -/
structure InScope (env : Env) (options : VerifyBypassTokenOptions)
    (row : StoredPreflightBypassToken) : Prop where
  workspaceId : row.workspaceId = options.workspaceId
  command : row.command = normalizeBypassCommandScope options.command
  ruleIds : (env.fromJson row.ruleIdsJson).map canonicalBypassRuleIds
    = some (canonicalBypassRuleIds options.ruleIds)

theorem InScope.of_sameScope {env : Env} {os : VerifyBypassTokenOptions}
    {row r' : StoredPreflightBypassToken} (h : InScope env os row)
    (hs : SameScope r' row) : InScope env os r' :=
  ⟨hs.workspaceId.trans h.workspaceId, hs.command.trans h.command, by
    rw [hs.ruleIdsJson]
    exact h.ruleIds⟩

/-- A row that passes the checks is in scope. -/
theorem inScope_of_checkToken {env : Env} {os : VerifyBypassTokenOptions}
    {token : StoredPreflightBypassToken} {ha : String}
    (h : checkToken env os token ha = .pass) : InScope env os token := by
  unfold checkToken at h
  split at h
  · cases h
  rename_i hw
  simp only at h
  split at h
  · cases h
  rename_i stored hs
  split at h
  · cases h
  rename_i hsc
  rw [not_or, not_or, not_not, not_not, not_not] at hsc
  refine ⟨not_not.mp hw, hsc.1, ?_⟩
  unfold storedTokenRuleIds at hs
  split at hs
  · rename_i ris hj
    rw [hj, Option.map_some, Except.ok.inj hs, hsc.2.2]
  · cases hs

/-! ## What a statement does -/

section

variable {n : ℕ} {env : Env} {calls : Fin n → Call} {s s' : State n} {call : Fin n}
  {events events' : List (Event n)}

variable (env calls) in
/-- The hash of the token of a call. -/
def hashOf (call : Fin n) : String := tokenHash env (calls call).token

variable (env calls) in
/-- What a call knows in its new phase, if the statement changed no row. -/
def Knows (s : State n) (call : Fin n) : Phase → Prop
  | .counting token => ∃ options, calls call = .verify options
      ∧ s.rows (hashOf env calls call) = some token ∧ InScope env options token
  | .consuming token => s.phase call = .counting token
  | .recordingUse _ => False
  | _ => True

variable (env calls) in
/-- The effect of a statement of a call. -/
inductive Effect (s : State n) (call : Fin n) : State n → List (Event n) → Prop
  | quiet {s' : State n} {phase : Phase} : s'.rows = s.rows →
      s'.phase = Function.update s.phase call phase → Knows env calls s call phase →
      Effect s call s' []
  | issued {s' : State n} {options : IssueBypassTokenOptions} {token : String} :
      calls call = .issue options token → s.rows (hashOf env calls call) = none →
      s'.rows = Function.update s.rows (hashOf env calls call)
        (some (issuedRow env options token)) →
      s'.phase = Function.update s.phase call .recordingIssue → Effect s call s' [Event.issued call]
  | consumed {s' : State n} {options : VerifyBypassTokenOptions}
      {token row row' : StoredPreflightBypassToken} : calls call = .verify options →
      s.phase call = .consuming token → s.rows (hashOf env calls call) = some row →
      incrementPreflightBypassTokenUse row (env.toRfc3339 options.now) = some row' →
      s'.rows = Function.update s.rows (hashOf env calls call) (some row') →
      s'.phase = Function.update s.phase call (.recordingUse token) →
      Effect s call s' [.consumed call]
  | revoked {s' : State n} {row row' : StoredPreflightBypassToken} {revokedAt : String} :
      s.rows (hashOf env calls call) = some row →
      revokePreflightBypassToken row revokedAt = some row' →
      s'.rows = Function.update s.rows (hashOf env calls call) (some row') →
      s'.phase = Function.update s.phase call .recordingRevoke → Effect s call s' [.revoked call]
  | succeeded {s' : State n} {options : VerifyBypassTokenOptions}
      {token : StoredPreflightBypassToken} {report : Report} : calls call = .verify options →
      s.phase call = .recordingUse token → s'.rows = s.rows →
      s'.phase = Function.update s.phase call (.done (.ok report)) →
      Effect s call s' [.succeeded call]

theorem rows_insertAudit (a : Action n) (workspaceId kind targetId : String)
    (r : Option (String × String)) :
    (s.insertAudit a workspaceId kind targetId r).rows = s.rows
      ∧ (s.insertAudit a workspaceId kind targetId r).phase = s.phase := by
  unfold State.insertAudit
  split
  · exact ⟨rfl, rfl⟩
  · exact ⟨rfl, rfl⟩

theorem phase_goto {phase : Phase} (h : s'.phase = s.phase) :
    (s'.goto call phase).phase = Function.update s.phase call phase :=
  congrArg (fun ps : Fin n → Phase => Function.update ps call phase) h

/-- A statement that only moves the call. -/
theorem Effect.of_goto {phase : Phase} (h : some (s.goto call phase, []) = some (s', events'))
    (hk : Knows env calls s call phase) : Effect env calls s call s' events' := by
  obtain ⟨rfl, rfl⟩ := Prod.mk.inj (Option.some.inj h)
  exact .quiet rfl rfl hk

/-- An audit row and a move of the call. -/
theorem Effect.of_audit {phase : Phase} {a : Action n}
    {workspaceId kind targetId : String} {r : Option (String × String)}
    (h : some ((s.insertAudit a workspaceId kind targetId r).goto call phase, [])
      = some (s', events'))
    (hk : Knows env calls s call phase) : Effect env calls s call s' events' := by
  obtain ⟨rfl, rfl⟩ := Prod.mk.inj (Option.some.inj h)
  obtain ⟨hr, hp⟩ := rows_insertAudit (s := s) a workspaceId kind targetId r
  exact .quiet hr (phase_goto hp) hk

/-- After a verdict a call goes on, rejects or is done. -/
theorem Knows.next {v : Verdict} {phase : Phase} (h : v = .pass → Knows env calls s call phase) :
    Knows env calls s call (v.next phase) := by
  cases v with
  | pass => exact h rfl
  | reject _ _ _ => trivial
  | fail _ => trivial

theorem issueStep_effect {os : IssueBypassTokenOptions} {token : String} {a : Action n}
    (hc : calls a.call = .issue os token)
    (h : issueStep env s os token a = some (s', events')) :
    Effect env calls s a.call s' events' := by
  have hh : hashOf env calls a.call = (issuedRow env os token).tokenHash := by
    rw [hashOf, hc]
    rfl
  unfold issueStep at h
  simp only at h
  split at h
  · split at h
    · exact .of_goto h trivial
    · split at h
      · exact .of_goto h trivial
      · exact .of_goto h trivial
      · rename_i hn
        obtain ⟨rfl, rfl⟩ := Prod.mk.inj (Option.some.inj h)
        refine .issued hc ?_ ?_ rfl
        · rw [hh]
          exact hn
        · rw [hh]
          rfl
  · exact .of_audit h trivial
  · cases h

theorem verifyStep_effect {os : VerifyBypassTokenOptions} {a : Action n}
    (hc : calls a.call = .verify os)
    (h : verifyStep env s os a = some (s', events')) :
    Effect env calls s a.call s' events' := by
  have hh : hashOf env calls a.call = tokenHash env os.token := by
    rw [hashOf, hc]
    rfl
  unfold verifyStep at h
  simp only at h
  split at h
  · split at h
    · exact .of_goto h trivial
    · exact .of_goto h trivial
    · rename_i token hr
      refine .of_goto h (Knows.next fun hpa => ?_)
      exact ⟨os, hc, by rw [hh]; exact hr, inScope_of_checkToken hpa⟩
  · rename_i token hp
    split at h
    · exact .of_goto h trivial
    · split at h
      · exact .of_goto h trivial
      · exact .of_goto h hp
  · rename_i token hp
    split at h
    · exact .of_goto h trivial
    · split at h
      · rename_i r' hu
        obtain ⟨row, hr, hi⟩ := Option.bind_eq_some_iff.mp hu
        obtain ⟨rfl, rfl⟩ := Prod.mk.inj (Option.some.inj h)
        refine .consumed hc hp ?_ hi ?_ rfl
        · rw [hh]
          exact hr
        · rw [hh]
          rfl
      · exact .of_goto h trivial
  · split at h
    · exact .of_goto h trivial
    · exact .of_goto h (Knows.next fun _ => trivial)
  · rename_i token hp
    split at h
    · exact .of_audit h trivial
    · obtain ⟨rfl, rfl⟩ := Prod.mk.inj (Option.some.inj h)
      obtain ⟨hro, hph⟩ := rows_insertAudit (s := s) a os.workspaceId
        "preflight.bypass_token.use" (tokenHashPrefix (tokenHash env os.token)) none
      exact .succeeded hc hp hro (phase_goto hph)
  · exact .of_audit h trivial
  · cases h

theorem revokeStep_effect {os : RevokeBypassTokenOptions} {a : Action n}
    (hc : calls a.call = .revoke os)
    (h : revokeStep env s os a = some (s', events')) :
    Effect env calls s a.call s' events' := by
  have hh : hashOf env calls a.call = tokenHash env os.token := by
    rw [hashOf, hc]
    rfl
  unfold revokeStep at h
  simp only at h
  split at h
  · split at h
    · exact .of_goto h trivial
    · exact .of_goto h trivial
    · split at h
      · exact .of_goto h trivial
      · exact .of_goto h trivial
  · split at h
    · exact .of_goto h trivial
    · split at h
      · rename_i r' hu
        obtain ⟨row, hro, hr⟩ := Option.bind_eq_some_iff.mp hu
        obtain ⟨rfl, rfl⟩ := Prod.mk.inj (Option.some.inj h)
        refine .revoked ?_ hr ?_ rfl
        · rw [hh]
          exact hro
        · rw [hh]
          rfl
      · exact .of_goto h trivial
  · exact .of_audit h trivial
  · cases h

/-- **Every statement of every call**, by its effect. -/
theorem step_effect {a : Action n} (h : step env s calls a = some (s', events')) :
    Effect env calls s a.call s' events' := by
  unfold step at h
  split at h
  · rename_i os token hc
    exact issueStep_effect hc h
  · rename_i os hc
    exact verifyStep_effect hc h
  · rename_i os hc
    exact revokeStep_effect hc h

/-! ## Counting -/

variable (env calls) in
/-- How often a use of a token was spent. -/
def consumes (events : List (Event n)) (hash : String) : ℕ :=
  events.countP fun
    | .consumed call => hashOf env calls call = hash
    | _ => false

variable (env calls) in
/-- How many verifications of a token succeeded. -/
def successes (events : List (Event n)) (hash : String) : ℕ :=
  events.countP fun
    | .succeeded call => hashOf env calls call = hash
    | _ => false

theorem consumes_append (hash : String) : consumes env calls (events ++ events') hash
    = consumes env calls events hash + consumes env calls events' hash :=
  List.countP_append

theorem successes_append (hash : String) : successes env calls (events ++ events') hash
    = successes env calls events hash + successes env calls events' hash :=
  List.countP_append

/-- A use was spent and this is not yet on record. -/
def Phase.isRecordingUse : Phase → Bool
  | recordingUse _ => true
  | _ => false

variable (env calls) in
/-- The calls that have spent a use of a token and are still to succeed. -/
def pending (s : State n) (hash : String) : Finset (Fin n) :=
  Finset.univ.filter fun call => hashOf env calls call = hash ∧ (s.phase call).isRecordingUse

theorem mem_pending {hash : String} : call ∈ pending env calls s hash
    ↔ hashOf env calls call = hash ∧ (s.phase call).isRecordingUse := by
  rw [pending, Finset.mem_filter]
  exact and_iff_right (Finset.mem_univ call)

section

variable {phase : Phase} {hash : String}

/-- Only the call that moves can become pending. -/
theorem pending_subset (h : s'.phase = Function.update s.phase call phase) :
    pending env calls s' hash ⊆ insert call (pending env calls s hash) := by
  intro other ho
  rw [mem_pending, h] at ho
  rw [Finset.mem_insert, mem_pending]
  by_cases heq : other = call
  · exact .inl heq
  · rw [Function.update_of_ne heq] at ho
    exact .inr ho

/-- A call that moves elsewhere is not pending. -/
theorem not_mem_pending (h : s'.phase = Function.update s.phase call phase)
    (hp : phase.isRecordingUse = false) : call ∉ pending env calls s' hash := by
  intro hm
  rw [mem_pending, h, Function.update_self, hp] at hm
  exact Bool.false_ne_true hm.2

theorem pending_subset_erase (h : s'.phase = Function.update s.phase call phase)
    (hp : phase.isRecordingUse = false) :
    pending env calls s' hash ⊆ (pending env calls s hash).erase call := by
  rw [Finset.subset_erase]
  refine ⟨fun other ho => ?_, not_mem_pending h hp⟩
  refine (Finset.mem_insert.mp (pending_subset h ho)).resolve_left ?_
  rintro rfl
  exact not_mem_pending h hp ho

end

/-- A statement keeps the balance of a token: what is pending or succeeded was spent. -/
theorem Effect.balance {hash : String} (h : Effect env calls s call s' events') :
    successes env calls events' hash + (pending env calls s' hash).card
      ≤ consumes env calls events' hash + (pending env calls s hash).card := by
  -- Every move but the one of a spent use leaves no more calls pending.
  have hle : ∀ phase : Phase, s'.phase = Function.update s.phase call phase →
      phase.isRecordingUse = false →
      (pending env calls s' hash).card ≤ (pending env calls s hash).card :=
    fun phase hm hp => Finset.card_le_card
      ((pending_subset_erase hm hp).trans (Finset.erase_subset _ _))
  cases h with
  | @quiet phase _ hm hk =>
    rw [show successes env calls ([] : List (Event n)) hash = 0 from rfl,
      show consumes env calls ([] : List (Event n)) hash = 0 from rfl, Nat.zero_add, Nat.zero_add]
    refine hle phase hm ?_
    cases phase with
    | recordingUse _ => exact hk.elim
    | _ => rfl
  | issued _ _ _ hm => simpa [successes, consumes] using hle _ hm rfl
  | revoked _ _ _ hm => simpa [successes, consumes] using hle _ hm rfl
  | consumed _ _ _ _ _ hm =>
    by_cases hh : hashOf env calls call = hash
    · have hc := (Finset.card_le_card (@pending_subset n env calls _ _ _ _ hash hm)).trans
        (Finset.card_insert_le _ _)
      simpa [successes, consumes, hh, Nat.add_comm] using hc
    · have hc : (pending env calls s' hash).card ≤ (pending env calls s hash).card := by
        refine Finset.card_le_card fun other ho => ?_
        refine (Finset.mem_insert.mp (pending_subset hm ho)).resolve_left ?_
        rintro rfl
        exact hh (mem_pending.mp ho).1
      simpa [successes, consumes, hh] using hc
  | succeeded _ hp _ hm =>
    by_cases hh : hashOf env calls call = hash
    · have hme : call ∈ pending env calls s hash := by
        rw [mem_pending, hp]
        exact ⟨hh, rfl⟩
      have hc := Finset.card_le_card (@pending_subset_erase n env calls _ _ _ _ hash hm rfl)
      rw [Finset.card_erase_of_mem hme] at hc
      have hpo := Finset.card_pos.mpr ⟨call, hme⟩
      simp only [successes, consumes, List.countP_singleton, hh, decide_true, if_true,
        Bool.false_eq_true, if_false]
      omega
    · simpa [successes, consumes, hh] using hle _ hm rfl

/-! ## Rows -/

/-- A use is spent only of a row that is not exhausted, revoked or expired. -/
theorem of_increment {row r' : StoredPreflightBypassToken} {ua : String}
    (h : incrementPreflightBypassTokenUse row ua = some r') :
    (row.usedCount < row.maxUses ∧ row.revokedAt = none ∧ strCmp ua row.expiresAt = .lt)
      ∧ SameScope r' row ∧ r'.usedCount = row.usedCount + 1
      ∧ r'.revokedAt = row.revokedAt := by
  unfold incrementPreflightBypassTokenUse at h
  split at h
  · rename_i hu
    cases h
    exact ⟨hu, ⟨rfl, rfl, rfl, rfl, rfl⟩, rfl, rfl⟩
  · cases h

theorem of_revoke {row r' : StoredPreflightBypassToken} {ra : String}
    (h : revokePreflightBypassToken row ra = some r') :
    SameScope r' row ∧ r'.usedCount = row.usedCount ∧ r'.revokedAt ≠ none := by
  unfold revokePreflightBypassToken at h
  split at h
  · cases h
    exact ⟨⟨rfl, rfl, rfl, rfl, rfl⟩, rfl, Option.some_ne_none _⟩
  · cases h

/-- Every row stays, with its scope, and a revoked one stays revoked. -/
def Persist (s s' : State n) : Prop :=
  ∀ hash row, s.rows hash = some row → ∃ row', s'.rows hash = some row' ∧ SameScope row' row
    ∧ (row.revokedAt ≠ none → row'.revokedAt ≠ none)

theorem Persist.of_rows (h : s'.rows = s.rows) : Persist s s' := by
  intro hash row hr
  exact ⟨row, h ▸ hr, .refl row, id⟩

theorem Persist.of_update {hash : String} {r' : StoredPreflightBypassToken}
    (h : s'.rows = Function.update s.rows hash (some r'))
    (hr' : ∀ row, s.rows hash = some row →
      SameScope r' row ∧ (row.revokedAt ≠ none → r'.revokedAt ≠ none)) : Persist s s' := by
  intro other row hr
  rw [h]
  by_cases heq : other = hash
  · subst heq
    exact ⟨r', Function.update_self .., hr' row hr⟩
  · rw [Function.update_of_ne heq]
    exact ⟨row, hr, .refl row, id⟩

/-- No statement widens the scope of a row. -/
theorem Effect.persist (h : Effect env calls s call s' events') : Persist s s' := by
  cases h with
  | quiet hr _ _ => exact .of_rows hr
  | issued _ hn hr _ =>
    refine .of_update hr fun row hro => ?_
    rw [hn] at hro
    cases hro
  | consumed _ _ hro hi hr _ =>
    obtain ⟨-, hs, -, hre⟩ := of_increment hi
    refine .of_update hr fun row hr' => ?_
    cases Option.some.inj (hro.symm.trans hr')
    exact ⟨hs, fun hne => hre.trans_ne hne⟩
  | revoked hro hrev hr _ =>
    obtain ⟨hs, -, hre⟩ := of_revoke hrev
    refine .of_update hr fun row hr' => ?_
    cases Option.some.inj (hro.symm.trans hr')
    exact ⟨hs, fun _ => hre⟩
  | succeeded _ _ hr _ => exact .of_rows hr

theorem Effect.phase_of_ne (h : Effect env calls s call s' events') {other : Fin n}
    (hne : other ≠ call) : s'.phase other = s.phase other := by
  cases h with
  | quiet _ hm _ => rw [hm, Function.update_of_ne hne]
  | issued _ _ _ hm => rw [hm, Function.update_of_ne hne]
  | consumed _ _ _ _ _ hm => rw [hm, Function.update_of_ne hne]
  | revoked _ _ _ hm => rw [hm, Function.update_of_ne hne]
  | succeeded _ _ _ hm => rw [hm, Function.update_of_ne hne]

variable (env calls) in
/-- The token of a call is for its workspace, its command and its rules. -/
def Scoped (s : State n) (call : Fin n) : Prop :=
  ∃ options row, calls call = .verify options ∧ s.rows (hashOf env calls call) = some row
    ∧ InScope env options row

theorem Scoped.persist (h : Scoped env calls s call) (hp : Persist s s') :
    Scoped env calls s' call := by
  obtain ⟨os, row, hc, hr, hs⟩ := h
  obtain ⟨r', hr', hsa, -⟩ := hp _ _ hr
  exact ⟨os, r', hc, hr', hs.of_sameScope hsa⟩

/-- The call has read a row that passed the checks, and it is not over. -/
def Phase.Passed : Phase → Prop
  | counting _ | consuming _ | recordingUse _ => True
  | _ => False

/-- A call whose row has passed the checks is in the scope of its token. -/
theorem Effect.scoped (h : Effect env calls s call s' events')
    (hr : ∀ call, (s.phase call).Passed → Scoped env calls s call) {other : Fin n}
    (hp : (s'.phase other).Passed) : Scoped env calls s' other := by
  refine Scoped.persist ?_ h.persist
  by_cases heq : other = call
  · subst heq
    have hn : ∀ phase, s'.phase = Function.update s.phase other phase → phase.Passed := by
      intro phase hm
      rw [hm, Function.update_self] at hp
      exact hp
    cases h with
    | @quiet phase _ hm hk =>
      have hph := hn phase hm
      cases phase with
      | counting token =>
        obtain ⟨os, hc, hro, hs⟩ := hk
        exact ⟨os, token, hc, hro, hs⟩
      | consuming token =>
        refine hr other ?_
        rw [show s.phase other = .counting token from hk]
        trivial
      | recordingUse token => exact hk.elim
      | _ => exact hph.elim
    | issued _ _ _ hm => exact (hn _ hm).elim
    | consumed _ hph _ _ _ _ =>
      refine hr other ?_
      rw [hph]
      trivial
    | revoked _ _ _ hm => exact (hn _ hm).elim
    | succeeded _ _ _ hm => exact (hn _ hm).elim
  · rw [h.phase_of_ne heq] at hp
    exact hr other hp

/-! ## Histories -/

variable (env calls) in
/-- The used count of a row is the number of uses that were spent, within the bound. -/
structure Counted (events : List (Event n)) (s : State n) : Prop where
  row : ∀ hash row, s.rows hash = some row →
    row.usedCount = consumes env calls events hash ∧ row.usedCount ≤ row.maxUses
  absent : ∀ hash, s.rows hash = none → consumes env calls events hash = 0

/-- Nothing is spent by a statement that only replaces a row by one of the same count. -/
theorem Counted.of_update {hash : String} {r' : StoredPreflightBypassToken}
    (h : Counted env calls events s) (hs : ∀ hash, consumes env calls events' hash = 0)
    (hro : s'.rows = Function.update s.rows hash (some r'))
    (hr' : r'.usedCount = consumes env calls events hash ∧ r'.usedCount ≤ r'.maxUses) :
    Counted env calls (events ++ events') s' := by
  constructor
  · intro other row hr
    rw [consumes_append, hs, Nat.add_zero]
    rw [hro] at hr
    by_cases heq : other = hash
    · subst heq
      rw [Function.update_self] at hr
      cases hr
      exact hr'
    · rw [Function.update_of_ne heq] at hr
      exact h.row other row hr
  · intro other hn
    rw [consumes_append, hs, Nat.add_zero]
    rw [hro] at hn
    by_cases heq : other = hash
    · rw [heq, Function.update_self] at hn
      cases hn
    · rw [Function.update_of_ne heq] at hn
      exact h.absent other hn

theorem Counted.of_rows (h : Counted env calls events s)
    (hs : ∀ hash, consumes env calls events' hash = 0) (hr : s'.rows = s.rows) :
    Counted env calls (events ++ events') s' := by
  constructor
  · intro hash row hro
    rw [consumes_append, hs, Nat.add_zero]
    exact h.row hash row (hr ▸ hro)
  · intro hash hn
    rw [consumes_append, hs, Nat.add_zero]
    exact h.absent hash (hr ▸ hn)

theorem consumes_self : consumes env calls [.consumed call] (hashOf env calls call) = 1 := by
  simp [consumes]

theorem consumes_of_ne {hash : String} (h : hash ≠ hashOf env calls call) :
    consumes env calls [.consumed call] hash = 0 := by
  simp [consumes, Ne.symm h]

/-- A statement keeps the use counts right. -/
theorem Counted.step (h : Counted env calls events s) (he : Effect env calls s call s' events') :
    Counted env calls (events ++ events') s' := by
  cases he with
  | quiet hr _ _ => exact h.of_rows (fun _ => rfl) hr
  | issued _ hn hr _ =>
    exact h.of_update (fun _ => rfl) hr ⟨(h.absent _ hn).symm, Nat.zero_le (Option.getD _ 1)⟩
  | revoked hro hre hr _ =>
    obtain ⟨hs, hc, -⟩ := of_revoke hre
    refine h.of_update (fun _ => rfl) hr ?_
    rw [hc, hs.maxUses]
    exact h.row _ _ hro
  | succeeded _ _ hr _ => exact h.of_rows (fun _ => rfl) hr
  | consumed _ _ hro hi hr _ =>
    -- The only count that changes is that of the row, by one, and there was room for it.
    obtain ⟨⟨hroo, -, -⟩, hs, hc, -⟩ := of_increment hi
    constructor
    · intro hash row hne
      rw [hr] at hne
      rw [consumes_append]
      by_cases heq : hash = hashOf env calls call
      · subst heq
        rw [Function.update_self] at hne
        cases hne
        rw [consumes_self, hc, hs.maxUses, (h.row _ _ hro).1]
        exact ⟨rfl, (h.row _ _ hro).1 ▸ hroo⟩
      · rw [Function.update_of_ne heq] at hne
        rw [consumes_of_ne heq]
        exact h.row hash row hne
    · intro hash hn
      rw [hr] at hn
      rw [consumes_append]
      by_cases heq : hash = hashOf env calls call
      · rw [heq, Function.update_self] at hn
        cases hn
      · rw [Function.update_of_ne heq] at hn
        rw [consumes_of_ne heq]
        exact h.absent hash hn

variable (env calls) in
/-- What the history says of the rows, and the rows of the history. -/
structure Recorded (events : List (Event n)) (s : State n) : Prop where
  issued : ∀ call, Event.issued call ∈ events → ∃ options token row,
    calls call = .issue options token ∧ s.rows (hashOf env calls call) = some row
      ∧ SameScope row (issuedRow env options token)
  row : ∀ hash row, s.rows hash = some row →
    ∃ call, Event.issued call ∈ events ∧ hashOf env calls call = hash
  unique : ∀ call call', Event.issued call ∈ events → .issued call' ∈ events →
    hashOf env calls call = hashOf env calls call' → call = call'
  revoked : ∀ call, Event.revoked call ∈ events →
    ∃ row, s.rows (hashOf env calls call) = some row ∧ row.revokedAt ≠ none
  succeeded : ∀ call, Event.succeeded call ∈ events → Scoped env calls s call

/-- A row that is not new was issued before. -/
theorem Recorded.row_of_update {hash : String} {row r' : StoredPreflightBypassToken}
    (h : Recorded env calls events s) (hro : s.rows hash = some row)
    (hr : s'.rows = Function.update s.rows hash (some r')) (other : String)
    (oro : StoredPreflightBypassToken) (ho : s'.rows other = some oro) :
    ∃ call, Event.issued call ∈ events ∧ hashOf env calls call = other := by
  by_cases heq : other = hash
  · exact heq ▸ h.row hash row hro
  · rw [hr, Function.update_of_ne heq] at ho
    exact h.row other oro ho

/-- What an issued token says of its row is kept. -/
theorem Recorded.issued_persist (h : Recorded env calls events s) (hp : Persist s s')
    (hm : Event.issued call ∈ events) : ∃ os token row, calls call = .issue os token
      ∧ s'.rows (hashOf env calls call) = some row
      ∧ SameScope row (issuedRow env os token) := by
  obtain ⟨os, token, row, hc, hr, hs⟩ := h.issued call hm
  obtain ⟨r', hr', hs', -⟩ := hp _ _ hr
  exact ⟨os, token, r', hc, hr', hs'.trans hs⟩

theorem Recorded.revoked_persist (h : Recorded env calls events s) (hp : Persist s s')
    (hm : Event.revoked call ∈ events) :
    ∃ row, s'.rows (hashOf env calls call) = some row ∧ row.revokedAt ≠ none := by
  obtain ⟨row, hro, hr⟩ := h.revoked call hm
  obtain ⟨r', hr', -, hk⟩ := hp _ _ hro
  exact ⟨r', hr', hk hr⟩

/-- A statement that issues nothing, by what it revokes and what succeeds. -/
theorem Recorded.extend (h : Recorded env calls events s) (hp : Persist s s')
    (hro : ∀ hash row, s'.rows hash = some row →
      ∃ call, Event.issued call ∈ events ∧ hashOf env calls call = hash)
    (hi : ∀ call, .issued call ∉ events')
    (hr : ∀ call, Event.revoked call ∈ events' →
      ∃ row, s'.rows (hashOf env calls call) = some row ∧ row.revokedAt ≠ none)
    (hs : ∀ call, Event.succeeded call ∈ events' → Scoped env calls s' call) :
    Recorded env calls (events ++ events') s' := by
  have ho : ∀ call, Event.issued call ∈ events ++ events' → Event.issued call ∈ events :=
    fun call hm => (List.mem_append.mp hm).resolve_right (hi call)
  constructor
  · exact fun other hm => h.issued_persist hp (ho other hm)
  · intro hash row hr'
    obtain ⟨other, hm, hot⟩ := hro hash row hr'
    exact ⟨other, List.mem_append_left _ hm, hot⟩
  · exact fun other o' hm hm' => h.unique other o' (ho other hm) (ho o' hm')
  · intro other hm
    rcases List.mem_append.mp hm with hb | hn
    · exact h.revoked_persist hp hb
    · exact hr other hn
  · intro other hm
    rcases List.mem_append.mp hm with hb | hn
    · exact (h.succeeded other hb).persist hp
    · exact hs other hn

/-- A new token has no row and was not issued before. -/
theorem Recorded.issue {os : IssueBypassTokenOptions} {token : String}
    (h : Recorded env calls events s) (hc : calls call = .issue os token)
    (hno : s.rows (hashOf env calls call) = none)
    (hro : s'.rows = Function.update s.rows (hashOf env calls call) (some (issuedRow env os token)))
    (hp : Persist s s') : Recorded env calls (events ++ [Event.issued call]) s' := by
  have hf : ∀ other, Event.issued other ∈ events →
      hashOf env calls other ≠ hashOf env calls call := by
    intro other hm heq
    obtain ⟨_, _, row, -, hr, -⟩ := h.issued other hm
    rw [heq, hno] at hr
    cases hr
  have hme : ∀ other, Event.issued other ∈ events ++ [Event.issued call] →
      Event.issued other ∈ events ∨ other = call := by
    intro other hm
    rcases List.mem_append.mp hm with ho | hn
    · exact .inl ho
    · cases List.mem_singleton.mp hn
      exact .inr rfl
  constructor
  · intro other hm
    rcases hme other hm with ho | rfl
    · exact h.issued_persist hp ho
    · exact ⟨os, token, _, hc, by rw [hro, Function.update_self], .refl _⟩
  · intro hash row hr
    by_cases heq : hash = hashOf env calls call
    · exact ⟨call, List.mem_append_right _ (List.mem_singleton_self _), heq.symm⟩
    · rw [hro, Function.update_of_ne heq] at hr
      obtain ⟨other, hm, hot⟩ := h.row hash row hr
      exact ⟨other, List.mem_append_left _ hm, hot⟩
  · intro other o' hm hm' heq
    rcases hme other hm with ho | rfl <;>
      rcases hme o' hm' with h' | rfl
    · exact h.unique other o' ho h' heq
    · exact absurd heq (hf other ho)
    · exact absurd heq.symm (hf o' h')
    · rfl
  · intro other hm
    rcases List.mem_append.mp hm with ho | hn
    · exact h.revoked_persist hp ho
    · cases List.mem_singleton.mp hn
  · intro other hm
    rcases List.mem_append.mp hm with ho | hn
    · exact (h.succeeded other ho).persist hp
    · cases List.mem_singleton.mp hn

/-- A statement keeps the history of uses right. -/
theorem Recorded.step (h : Recorded env calls events s)
    (hrea : ∀ call, (s.phase call).Passed → Scoped env calls s call)
    (he : Effect env calls s call s' events') :
    Recorded env calls (events ++ events') s' := by
  have hp := he.persist
  cases he with
  | quiet hr _ _ =>
    exact h.extend hp (fun hash row hro => h.row hash row (hr ▸ hro)) (by simp) (by simp) (by simp)
  | issued hc hn hr _ => exact h.issue hc hn hr hp
  | consumed _ _ hro _ hr _ =>
    exact h.extend hp (h.row_of_update hro hr) (by simp) (by simp) (by simp)
  | revoked hro hre hr _ =>
    refine h.extend hp (h.row_of_update hro hr) (by simp) ?_ (by simp)
    intro other hm
    cases List.mem_singleton.mp hm
    exact ⟨_, by rw [hr, Function.update_self], (of_revoke hre).2.2⟩
  | succeeded _ hph hr _ =>
    refine h.extend hp (fun hash row hro => h.row hash row (hr ▸ hro)) (by simp) (by simp) ?_
    intro other hm
    cases List.mem_singleton.mp hm
    refine (hrea call ?_).persist hp
    rw [hph]
    trivial

/-! ## Every interleaving -/

/-- The time of a call that is compared with others: for a new token, its expiry. -/
def Call.time : Call → ℤ
  | issue options _ => options.expiresAt
  | verify options => options.now
  | revoke options => options.now

variable (env calls) in
/-- What is asked of the libraries: rules are read as they were written, and times sort as texts. -/
structure Respects : Prop where
  json : ∀ call options token, calls call = .issue options token →
    env.fromJson (env.toJson (canonicalBypassRuleIds options.ruleIds))
      = some (canonicalBypassRuleIds options.ruleIds)
  times : ∀ call call', strCmp (env.toRfc3339 (calls call).time)
    (env.toRfc3339 (calls call').time) = .lt ↔ (calls call).time < (calls call').time

variable (env calls) in
/-- A use was spent before the expiry of the token, and no revocation came before. -/
def SpentInTime (before : List (Event n)) (call : Fin n) : Prop :=
  (∃ options source issue token, calls call = .verify options ∧ Event.issued source ∈ before
      ∧ calls source = .issue issue token ∧ hashOf env calls source = hashOf env calls call
      ∧ options.now < issue.expiresAt)
    ∧ ∀ other, Event.revoked other ∈ before → hashOf env calls other ≠ hashOf env calls call

variable (env calls) in
/-- What holds after every run. -/
structure Inv (events : List (Event n)) (s : State n) : Prop where
  counted : Counted env calls events s
  recorded : Recorded env calls events s
  read : ∀ call, (s.phase call).Passed → Scoped env calls s call
  balance : ∀ hash, successes env calls events hash + (pending env calls s hash).card
    ≤ consumes env calls events hash
  spent : ∀ before call after, events = before ++ Event.consumed call :: after →
    SpentInTime env calls before call

/-- A use is spent now, of a row that is neither revoked nor expired. -/
theorem Inv.spentInTime {os : VerifyBypassTokenOptions}
    {row r' : StoredPreflightBypassToken} (hen : Respects env calls)
    (h : Inv env calls events s) (hc : calls call = .verify os)
    (hro : s.rows (hashOf env calls call) = some row)
    (hi : incrementPreflightBypassTokenUse row (env.toRfc3339 os.now) = some r') :
    SpentInTime env calls events call := by
  obtain ⟨⟨-, hr, he⟩, -⟩ := of_increment hi
  refine ⟨?_, ?_⟩
  · obtain ⟨so, hm, hh⟩ := h.recorded.row _ _ hro
    obtain ⟨issue, token, r₀, hs, hr₀, hsa⟩ := h.recorded.issued so hm
    rw [hh] at hr₀
    cases Option.some.inj (hro.symm.trans hr₀)
    rw [hsa.expiresAt] at he
    have hlt := hen.times call so
    rw [hc, hs] at hlt
    exact ⟨os, so, issue, token, hc, hm, hs, hh, hlt.mp he⟩
  · intro other hm heq
    obtain ⟨r₀, hr₀, hne⟩ := h.recorded.revoked other hm
    rw [heq] at hr₀
    cases Option.some.inj (hro.symm.trans hr₀)
    exact hne hr

/-- A statement is at most one event. -/
theorem Effect.length_le (h : Effect env calls s call s' events') : events'.length ≤ 1 := by
  cases h with
  | quiet _ _ _ => exact Nat.zero_le 1
  | issued _ _ _ _ => exact le_rfl
  | consumed _ _ _ _ _ _ => exact le_rfl
  | revoked _ _ _ _ => exact le_rfl
  | succeeded _ _ _ _ => exact le_rfl

/-- Every use in a history is spent in time, also the one of the last statement. -/
theorem Inv.spent_step (hen : Respects env calls) (h : Inv env calls events s)
    (he : Effect env calls s call s' events') {b after : List (Event n)}
    {other : Fin n} (hs : events ++ events' = b ++ .consumed other :: after) :
    SpentInTime env calls b other := by
  have hl := he.length_le
  have hn : ∀ after, events' = .consumed other :: after → SpentInTime env calls events other := by
    intro after heq
    cases he with
    | consumed hc _ hro hi _ _ =>
      cases heq
      exact h.spentInTime hen hc hro hi
    | _ => cases heq
  rcases List.append_eq_append_iff.mp hs with ⟨m, hb, hm⟩ | ⟨r, ho, hr⟩
  · cases m with
    | nil =>
      rw [hb, List.append_nil]
      exact hn after hm
    | cons e m =>
      rw [hm, List.length_append, List.length_cons, List.length_cons] at hl
      omega
  · cases r with
    | nil =>
      rw [List.append_nil] at ho
      exact ho ▸ hn after hr.symm
    | cons e r =>
      cases hr
      exact h.spent b other r ho

/-- One statement keeps all of it. -/
theorem Inv.step (hen : Respects env calls) (h : Inv env calls events s)
    (he : Effect env calls s call s' events') : Inv env calls (events ++ events') s' where
  counted := h.counted.step he
  recorded := h.recorded.step h.read he
  read := fun _ hp => he.scoped h.read hp
  balance := by
    intro hash
    have ho := h.balance hash
    have hn := @Effect.balance n env calls s s' call events' hash he
    rw [successes_append, consumes_append]
    omega
  spent := fun _ _ _ hs => h.spent_step hen he hs

/-- The invariant holds at the start. -/
theorem Inv.initial : Inv env calls ([] : List (Event n)) initial where
  counted := ⟨fun _ _ hr => (nomatch hr), fun _ _ => rfl⟩
  recorded := ⟨by simp, fun _ _ hr => (nomatch hr), by simp, by simp, by simp⟩
  read := fun _ hpa => hpa.elim
  balance := by
    intro hash
    have he : pending env calls BypassTokens.initial hash = ∅ :=
      Finset.filter_eq_empty_iff.mpr fun _ _ hp => Bool.false_ne_true hp.2
    rw [he]
    exact le_rfl
  spent := fun b _ _ hs => by simp at hs

/-- **Every interleaving keeps the invariant.** -/
theorem Run.inv (he : Respects env calls) (h : Run env calls events s) :
    Inv env calls events s := by
  induction h with
  | start => exact Inv.initial
  | step _ hs ih => exact ih.step he (step_effect hs)

/-- What a verification in scope says of the token that was issued. -/
theorem InScope.issue {os : VerifyBypassTokenOptions} {issue : IssueBypassTokenOptions}
    {token : String} {row : StoredPreflightBypassToken} (he : Respects env calls)
    (hc : calls call = .issue issue token) (h : InScope env os row)
    (hs : SameScope row (issuedRow env issue token)) :
    os.workspaceId = issue.workspaceId
      ∧ normalizeBypassCommandScope os.command = normalizeBypassCommandScope issue.command
      ∧ canonicalBypassRuleIds os.ruleIds = canonicalBypassRuleIds issue.ruleIds := by
  refine ⟨h.workspaceId.symm.trans hs.workspaceId, h.command.symm.trans hs.command, ?_⟩
  have hr := h.ruleIds
  rw [hs.ruleIdsJson, show (issuedRow env issue token).ruleIdsJson
      = env.toJson (canonicalBypassRuleIds issue.ruleIds) from rfl, he.json call issue token hc,
    Option.map_some, canonicalBypassRuleIds_idem] at hr
  exact (Option.some.inj hr).symm

/-- **A bypass token is spent at most so many times.**  In every interleaving of the statements of
any calls, the successful verifications of a token are at most its used count, which is the number
of updates that spent a use and is within the bound it was issued with; every success is for the
workspace, the command and the rules that the token was issued for; and no use is spent after the
token was revoked or when it had expired. -/
theorem bypass_tokens_are_spent_in_bounds (henv : Respects env calls)
    (hrun : Run env calls events s) :
    (∀ hash row, s.rows hash = some row → successes env calls events hash ≤ row.usedCount
        ∧ row.usedCount = consumes env calls events hash ∧ row.usedCount ≤ row.maxUses
        ∧ ∃ source issue token, Event.issued source ∈ events ∧ calls source = .issue issue token
          ∧ hashOf env calls source = hash ∧ row.maxUses = issue.maxUses.getD 1)
    ∧ (∀ hash, s.rows hash = none → successes env calls events hash = 0)
    ∧ (∀ call, Event.succeeded call ∈ events → ∃ options source issue token,
        calls call = .verify options ∧ Event.issued source ∈ events
          ∧ calls source = .issue issue token
          ∧ hashOf env calls source = hashOf env calls call
          ∧ (∀ other, Event.issued other ∈ events →
            hashOf env calls other = hashOf env calls call → other = source)
          ∧ options.workspaceId = issue.workspaceId
          ∧ normalizeBypassCommandScope options.command = normalizeBypassCommandScope issue.command
          ∧ canonicalBypassRuleIds options.ruleIds = canonicalBypassRuleIds issue.ruleIds)
    ∧ ∀ before call after, events = before ++ Event.consumed call :: after →
        (∀ other, Event.revoked other ∈ before → hashOf env calls other ≠ hashOf env calls call)
        ∧ ∃ options source issue token, calls call = .verify options ∧ Event.issued source ∈ before
          ∧ calls source = .issue issue token
          ∧ hashOf env calls source = hashOf env calls call
          ∧ options.now < issue.expiresAt := by
  have hi := hrun.inv henv
  refine ⟨?_, ?_, ?_, ?_⟩
  · intro hash row hr
    obtain ⟨hc, hbo⟩ := hi.counted.row hash row hr
    have hb := hi.balance hash
    obtain ⟨source, hm, hh⟩ := hi.recorded.row hash row hr
    obtain ⟨issue, token, r₀, hs, hr₀, hsa⟩ := hi.recorded.issued source hm
    rw [hh] at hr₀
    cases Option.some.inj (hr.symm.trans hr₀)
    exact ⟨by omega, hc, hbo, source, issue, token, hm, hs, hh, hsa.maxUses⟩
  · intro hash hn
    have hb := hi.balance hash
    have hc := hi.counted.absent hash hn
    omega
  · intro call hm
    obtain ⟨options, row, hca, hr, hsc⟩ := hi.recorded.succeeded call hm
    obtain ⟨source, his, hh⟩ := hi.recorded.row _ _ hr
    obtain ⟨issue, token, r₀, hs, hr₀, hsa⟩ := hi.recorded.issued source his
    rw [hh] at hr₀
    cases Option.some.inj (hr.symm.trans hr₀)
    refine ⟨options, source, issue, token, hca, his, hs, hh, ?_, hsc.issue henv hs hsa⟩
    exact fun other ho heq => hi.recorded.unique other source ho his (heq.trans hh.symm)
  · intro before call after hsp
    exact (hi.spent before call after hsp).symm

variable (env calls) in
/-- Some statements, one after another. -/
def stepAll : State n → List (Action n) → Option (State n × List (Event n))
  | s, [] => some (s, [])
  | s, action :: actions => do
    let (s', events) ← BypassTokens.step env s calls action
    let (s'', events') ← stepAll s' actions
    some (s'', events ++ events')

/-- A list of statements extends a run. -/
theorem Run.stepAll {as : List (Action n)} (hr : Run env calls events s)
    (h : stepAll env calls s as = some (s', events')) :
    Run env calls (events ++ events') s' := by
  induction as generalizing events events' s with
  | nil =>
    cases h
    rw [List.append_nil]
    exact hr
  | cons a as ih =>
    obtain ⟨⟨s₁, es₁⟩, hs, h⟩ := Option.bind_eq_some_iff.mp h
    obtain ⟨⟨s₂, es₂⟩, hre, h⟩ := Option.bind_eq_some_iff.mp h
    cases h
    rw [← List.append_assoc]
    exact ih (hr.step hs) hre

end

/-- The hash of one token and one scope, three times of a day and one list of rules. -/
def sampleEnv : Env where
  blake3Hex := fun bytes =>
    if bytes.length = 3 then
      "14b8dd0aebfc923d0261a7cdf8d5d23a38c15cab095de5eded8cc9fbf6731257"
    else "ec1c08de65ec0195db0f8b401e0560316476feee3965924015a7a50d325574fc"
  toRfc3339 := fun time =>
    if time < 0 then "1969-12-31T23:00:00+00:00"
    else if time = 0 then "1970-01-01T00:00:00+00:00"
    else "1970-01-01T00:10:00+00:00"
  parseFromRfc3339 := fun text =>
    if text = "1970-01-01T00:10:00+00:00" then some (10 * nanosPerMinute) else some 0
  rfc3339Error := id
  toJson := fun _ => "[\"rule-1\"]"
  fromJson := fun _ => some ["rule-1"]
  jsonError := id

/-- One token, two verifications and a revocation of it. -/
def sampleCalls : Fin 4 → Call
  | 0 => .issue ⟨"ws", "/ws", " rm -rf build", ["rule-1"], "cleanup", none, none, 0⟩ "tok"
  | 1 => .verify ⟨"ws", "tok", "rm -rf build ", ["rule-1", " rule-1"], 0⟩
  | 2 => .verify ⟨"ws", "tok", "rm -rf build", ["rule-1"], 0⟩
  | 3 => .revoke ⟨"ws", "tok", 0⟩

/-- Both verifications read the row before one spends the use; the revocation comes between the
two updates. -/
def sampleActions : List (Action 4) :=
  [0, 0, 1, 2, 3, 1, 2, 1, 3, 2, 1, 2, 2].map fun call => ⟨call, none, "audit", ""⟩

theorem sampleRun : ∃ s, Run sampleEnv sampleCalls
    [.issued 0, .consumed 1, .revoked 3, .succeeded 1] s := by
  have hr : (stepAll sampleEnv sampleCalls initial sampleActions).map Prod.snd
      = some [.issued 0, .consumed 1, .revoked 3, .succeeded 1] := by decide +kernel
  obtain ⟨⟨s, events⟩, hs, he⟩ := Option.map_eq_some_iff.mp hr
  cases he
  exact ⟨s, Run.start.stepAll hs⟩

theorem sampleRespects : Respects sampleEnv sampleCalls where
  json := by
    intro call os token hc
    fin_cases call
    · cases hc
      decide +kernel
    all_goals cases hc
  times := by decide +kernel

theorem bypass_tokens_are_spent_in_bounds_sample : Respects sampleEnv sampleCalls ∧ ∃ s,
      Run sampleEnv sampleCalls [.issued 0, .consumed 1, .revoked 3, .succeeded 1] s
      ∧ ∀ row, s.rows (hashOf sampleEnv sampleCalls 1) = some row →
        successes sampleEnv sampleCalls [.issued 0, .consumed 1, .revoked 3, .succeeded 1]
          (hashOf sampleEnv sampleCalls 1) ≤ row.usedCount := by
  obtain ⟨s, hr⟩ := sampleRun
  refine ⟨sampleRespects, s, hr, fun row hro => ?_⟩
  exact ((bypass_tokens_are_spent_in_bounds sampleRespects hr).1 _ row hro).1

end BypassTokens
