/-
# The hourly limit of a workspace (`src/core/preflight_token.rs`)

A verification counts the uses that its workspace has on record since an hour ago, and goes on if
they are fewer than the limit.  Its own use comes on record later, in a statement of its own.  Two
verifications that count before either is on record do not see each other, so the limit holds in
the runs in which those that are on their way are counted too.
-/
import EideticEngine.BypassTokenRuns

namespace BypassTokens

open RustText (strCmp)

/-! ## Runs on a clock -/

def bypassRateLimitPerHour : ℕ := 5

def nanosPerHour : ℤ := 60 * nanosPerMinute

def Call.workspaceId : Call → String
  | issue options _ => options.workspaceId
  | verify options => options.workspaceId
  | revoke options => options.workspaceId

/-- The time that a call reads when it begins. -/
def Call.now : Call → ℤ
  | issue options _ => options.now
  | verify options => options.now
  | revoke options => options.now

/-- The options of a verification. -/
def Call.verifyOptions : Call → Option VerifyBypassTokenOptions
  | verify options => some options
  | _ => none

section

variable {n : ℕ}

/-- What a statement at a time does with the clock: a call has read it by its first statement, an
audit row gets its text, and the times that are compared are among those that can be written. -/
structure OnClock (env : Env) (calls : Fin n → Call) (times : List ℤ) (action : Action n)
    (time : ℤ) : Prop where
  timestamp : action.timestamp = env.toRfc3339 time
  now : (calls action.call).now ≤ time
  written : time ∈ times
  since : (calls action.call).now - nanosPerHour ∈ times

/-- The runs with the time of each event, on one clock that does not go back; the statements are
of a kind. -/
inductive ClockedRun (env : Env) (calls : Fin n → Call) (times : List ℤ)
    (ok : State n → Action n → Prop) : List (ℤ × Event n) → ℤ → State n → Prop
  | start {clock : ℤ} : ClockedRun env calls times ok [] clock initial
  | step {history : List (ℤ × Event n)} {events : List (Event n)} {clock time : ℤ}
      {s s' : State n} {action : Action n} : ClockedRun env calls times ok history clock s →
      clock ≤ time → OnClock env calls times action time → ok s action →
      step env s calls action = some (s', events) →
      ClockedRun env calls times ok (history ++ events.map (time, ·)) time s'

/-- Every statement. -/
def anyStatement (_ : State n) (_ : Action n) : Prop := True

instance (s : State n) (action : Action n) : Decidable (anyStatement s action) :=
  inferInstanceAs (Decidable True)

variable (calls : Fin n → Call)

/-- The verifications that succeeded, by workspace and time. -/
def uses (history : List (ℤ × Event n)) : List (String × ℤ) :=
  history.filterMap fun
    | (time, .succeeded call) => some ((calls call).workspaceId, time)
    | _ => none

/-- How many verifications of a workspace succeeded within an hour from a time. -/
def successesWithinHour (history : List (ℤ × Event n)) (workspaceId : String) (start : ℤ) : ℕ :=
  (uses calls history).countP fun use =>
    use.1 = workspaceId ∧ start ≤ use.2 ∧ use.2 < start + nanosPerHour

/-- No hour has more successful verifications of a workspace than the limit. -/
def RateLimited (env : Env) (times : List ℤ) (ok : State n → Action n → Prop) : Prop :=
  ∀ history clock s, ClockedRun env calls times ok history clock s →
    ∀ workspaceId start,
      successesWithinHour calls history workspaceId start ≤ bypassRateLimitPerHour

/-- The times sort as their texts. -/
def SortsAsText (env : Env) (times : List ℤ) : Prop :=
  ∀ time ∈ times, ∀ time' ∈ times,
    strCmp (env.toRfc3339 time) (env.toRfc3339 time') ≠ .gt ↔ time ≤ time'

instance (env : Env) (times : List ℤ) : Decidable (SortsAsText env times) :=
  inferInstanceAs (Decidable (∀ time ∈ times, ∀ time' ∈ times, _))

/-! ## Verifications on their way -/

/-- The call is to count the recent uses. -/
def Phase.isCounting : Phase → Bool
  | counting _ => true
  | _ => false

/-- The call has passed the count and is not over. -/
def Phase.hasCounted : Phase → Bool
  | consuming _ | recordingUse _ => true
  | _ => false

/-- The calls of a workspace that have passed the count and are not over. -/
def inFlight (s : State n) (workspaceId : String) : Finset (Fin n) :=
  Finset.univ.filter fun call =>
    (calls call).workspaceId = workspaceId ∧ (s.phase call).hasCounted

/-- Uses on record since an hour before a call. -/
def recentUses (env : Env) (s : State n) (options : VerifyBypassTokenOptions) : ℕ :=
  countUsesSince s.audit options.workspaceId (env.toRfc3339 (options.now - nanosPerHour))

/-- A verification passes the count only if there is room for it beside those that are on their
way. -/
def LeavesRoom (env : Env) (s : State n) (action : Action n) : Prop :=
  ∀ options ∈ (calls action.call).verifyOptions, (s.phase action.call).isCounting = true →
    recentUses env s options < bypassRateLimitPerHour →
    recentUses env s options + (inFlight calls s options.workspaceId).card < bypassRateLimitPerHour

instance (env : Env) (s : State n) (action : Action n) :
    Decidable (LeavesRoom calls env s action) :=
  inferInstanceAs (Decidable (∀ options ∈ (calls action.call).verifyOptions, _ → _ → _))

/-! ## What a statement does to the record -/

/-- The rows of uses. -/
def useRows (audit : List AuditRow) : List AuditRow :=
  audit.filter fun row => row.action = "preflight.bypass_token.use"

theorem useRows_append (a a' : List AuditRow) : useRows (a ++ a') = useRows a ++ useRows a' :=
  List.filter_append ..

variable {calls} {env : Env} {s s' : State n} {events events' : List (Event n)} {action : Action n}

variable (calls env) in
/-- A statement passes the count, puts a use on record, or does neither. -/
inductive RateEffect (s : State n) (action : Action n) : State n → List (Event n) → Prop
  | passed {s' : State n} {options : VerifyBypassTokenOptions}
      {token : StoredPreflightBypassToken} : calls action.call = .verify options →
      s.phase action.call = .counting token → recentUses env s options < bypassRateLimitPerHour →
      s'.audit = s.audit → s'.phase = Function.update s.phase action.call (.consuming token) →
      RateEffect s action s' []
  | succeeded {s' : State n} {options : VerifyBypassTokenOptions}
      {token : StoredPreflightBypassToken} {phase : Phase} {hashPrefix : String} :
      calls action.call = .verify options → s.phase action.call = .recordingUse token →
      s'.audit = s.audit ++ [⟨options.workspaceId, "preflight.bypass_token.use", hashPrefix,
        action.timestamp, none⟩] →
      s'.phase = Function.update s.phase action.call phase → phase.hasCounted = false →
      RateEffect s action s' [Event.succeeded action.call]
  | other {s' : State n} {events : List (Event n)} {phase : Phase} :
      useRows s'.audit = useRows s.audit →
      s'.phase = Function.update s.phase action.call phase →
      (phase.hasCounted = true → (s.phase action.call).hasCounted = true) →
      (∀ call, .succeeded call ∉ events) → RateEffect s action s' events

theorem useRows_insertAudit {workspaceId kind targetId : String}
    {r : Option (String × String)} (h : kind ≠ "preflight.bypass_token.use") :
    useRows (s.insertAudit action workspaceId kind targetId r).audit = useRows s.audit := by
  unfold State.insertAudit
  split
  · rfl
  · rw [useRows_append, useRows, useRows, List.filter_singleton, decide_eq_false h]
    exact List.append_nil _

/-- A statement that only moves the call. -/
theorem RateEffect.of_goto {phase : Phase}
    (h : some (s.goto action.call phase, []) = some (s', events))
    (hp : phase.hasCounted = true → (s.phase action.call).hasCounted = true) :
    RateEffect calls env s action s' events := by
  obtain ⟨rfl, rfl⟩ := Prod.mk.inj (Option.some.inj h)
  exact .other rfl rfl hp (fun _ => List.not_mem_nil)

/-- An audit row of another kind and a move of the call. -/
theorem RateEffect.of_audit {phase : Phase} {workspaceId kind targetId : String}
    {r : Option (String × String)}
    (h : some ((s.insertAudit action workspaceId kind targetId r).goto action.call phase, [])
      = some (s', events))
    (hk : kind ≠ "preflight.bypass_token.use") (hph : phase.hasCounted = false) :
    RateEffect calls env s action s' events := by
  obtain ⟨rfl, rfl⟩ := Prod.mk.inj (Option.some.inj h)
  obtain ⟨-, hp⟩ := rows_insertAudit (s := s) action workspaceId kind targetId r
  refine .other (useRows_insertAudit hk) (phase_goto hp) ?_ (fun _ => List.not_mem_nil)
  intro hc
  exact absurd hc (by rw [hph]; exact Bool.false_ne_true)

/-- A statement that changes a row and moves the call. -/
theorem RateEffect.of_setRow {ha : String} {row : StoredPreflightBypassToken} {phase : Phase}
    (h : some ((s.setRow ha row).goto action.call phase, events') = some (s', events))
    (hp : phase.hasCounted = true → (s.phase action.call).hasCounted = true)
    (he : ∀ call, .succeeded call ∉ events') : RateEffect calls env s action s' events := by
  obtain ⟨rfl, rfl⟩ := Prod.mk.inj (Option.some.inj h)
  exact .other rfl rfl hp he

/-- No verdict but a pass takes a call past the count. -/
theorem hasCounted_next {v : Verdict} {phase : Phase} (h : phase.hasCounted = false) :
    (v.next phase).hasCounted = false := by
  cases v with
  | pass => exact h
  | reject _ _ _ => rfl
  | fail _ => rfl

theorem issueStep_rateEffect {os : IssueBypassTokenOptions} {token : String}
    (h : issueStep env s os token action = some (s', events)) :
    RateEffect calls env s action s' events := by
  unfold issueStep at h
  simp only at h
  split at h
  · split at h
    · exact .of_goto h nofun
    · split at h
      · exact .of_goto h nofun
      · exact .of_goto h nofun
      · exact .of_setRow h nofun (by simp)
  · exact .of_audit h (by decide) rfl
  · cases h

theorem revokeStep_rateEffect {os : RevokeBypassTokenOptions}
    (h : revokeStep env s os action = some (s', events)) :
    RateEffect calls env s action s' events := by
  unfold revokeStep at h
  simp only at h
  split at h
  · split at h
    · exact .of_goto h nofun
    · exact .of_goto h nofun
    · split at h
      · exact .of_goto h nofun
      · exact .of_goto h nofun
  · split at h
    · exact .of_goto h nofun
    · split at h
      · exact .of_setRow h nofun (by simp)
      · exact .of_goto h nofun
  · exact .of_audit h (by decide) rfl
  · cases h

theorem verifyStep_rateEffect {os : VerifyBypassTokenOptions} (hca : calls action.call = .verify os)
    (h : verifyStep env s os action = some (s', events)) :
    RateEffect calls env s action s' events := by
  unfold verifyStep at h
  simp only at h
  split at h
  · split at h
    · exact .of_goto h nofun
    · exact .of_goto h nofun
    · refine .of_goto h fun hc => ?_
      rw [hasCounted_next rfl] at hc
      cases hc
  · rename_i token hp
    split at h
    · exact .of_goto h nofun
    · split at h
      · exact .of_goto h nofun
      · rename_i hr
        obtain ⟨rfl, rfl⟩ := Prod.mk.inj (Option.some.inj h)
        exact .passed hca hp (Nat.lt_of_not_le hr) rfl rfl
  · rename_i token hp
    have hc : (s.phase action.call).hasCounted = true := by
      rw [hp]
      rfl
    split at h
    · exact .of_goto h nofun
    · split at h
      · exact .of_setRow h (fun _ => hc) (by simp)
      · exact .of_goto h nofun
  · split at h
    · exact .of_goto h nofun
    · refine .of_goto h fun hc => ?_
      rw [hasCounted_next rfl] at hc
      cases hc
  · rename_i token hp
    split at h
    · rename_i error he
      obtain ⟨rfl, rfl⟩ := Prod.mk.inj (Option.some.inj h)
      -- The insertion failed, and nothing came on record.
      simp only [State.insertAudit, he]
      exact .of_goto rfl nofun
    · rename_i hok
      obtain ⟨rfl, rfl⟩ := Prod.mk.inj (Option.some.inj h)
      simp only [State.insertAudit, hok]
      exact .succeeded hca hp rfl rfl rfl
  · exact .of_audit h (by decide) rfl
  · cases h

/-- **Every statement of every call**, by what it does to the record of uses. -/
theorem step_rateEffect (h : step env s calls action = some (s', events)) :
    RateEffect calls env s action s' events := by
  unfold step at h
  split at h
  · exact issueStep_rateEffect h
  · rename_i os hc
    exact verifyStep_rateEffect hc h
  · exact revokeStep_rateEffect h

/-! ## The record and the history -/

/-- The uses since a time, from the rows of uses alone. -/
theorem countUsesSince_eq (a : List AuditRow) (workspaceId si : String) :
    countUsesSince a workspaceId si
      = ((useRows a).map fun row => (row.workspaceId, row.timestamp)).countP
          fun use => use.1 = workspaceId ∧ strCmp si use.2 ≠ .gt := by
  rw [countUsesSince, List.countP_map, List.countP_eq_length_filter, useRows, List.filter_filter]
  congr 2
  funext row
  simp only [Function.comp_apply, Bool.decide_and]
  cases decide (row.workspaceId = workspaceId) <;>
    cases decide (row.action = "preflight.bypass_token.use") <;> simp

variable (calls env) in
/-- The rows of uses are the successful verifications, with the texts of their times. -/
def OnRecord (history : List (ℤ × Event n)) (s : State n) : Prop :=
  (useRows s.audit).map (fun row => (row.workspaceId, row.timestamp))
    = (uses calls history).map fun use => (use.1, env.toRfc3339 use.2)

variable {history : List (ℤ × Event n)} {times : List ℤ} {clock time : ℤ}

/-- A verification sees every success of its workspace that is within an hour of it. -/
theorem successesWithinHour_le_recentUses {os : VerifyBypassTokenOptions} {start : ℤ}
    (hso : SortsAsText env times) (hr : OnRecord calls env history s)
    (hwr : ∀ use ∈ uses calls history, use.2 ∈ times)
    (hsi : os.now - nanosPerHour ∈ times) (hst : os.now < start + nanosPerHour) :
    successesWithinHour calls history os.workspaceId start ≤ recentUses env s os := by
  rw [recentUses, countUsesSince_eq, hr, List.countP_map, successesWithinHour]
  refine List.countP_mono_left fun use hm hwi => ?_
  obtain ⟨hw, hle, -⟩ := of_decide_eq_true hwi
  have hs := (hso _ hsi use.2 (hwr use hm)).mpr (by omega)
  exact decide_eq_true ⟨hw, hs⟩

theorem uses_append (history h' : List (ℤ × Event n)) :
    uses calls (history ++ h') = uses calls history ++ uses calls h' :=
  List.filterMap_append ..

/-- Statements in which no verification succeeds add no uses. -/
theorem uses_map_of_not_mem (h : ∀ call, .succeeded call ∉ events) :
    uses calls (events.map (time, ·)) = [] := by
  rw [uses, List.filterMap_eq_nil_iff]
  intro en he
  obtain ⟨event, hev, rfl⟩ := List.mem_map.mp he
  cases event with
  | succeeded call => exact absurd hev (h call)
  | _ => rfl

theorem uses_succeeded (call : Fin n) :
    uses calls ([.succeeded call].map (time, ·)) = [((calls call).workspaceId, time)] :=
  rfl

/-! ## Room for those on their way -/

variable (calls) in
/-- Those on their way that may still succeed within an hour from a time. -/
def onTime (s : State n) (workspaceId : String) (start : ℤ) : Finset (Fin n) :=
  (inFlight calls s workspaceId).filter fun call => (calls call).now < start + nanosPerHour

section

variable {workspaceId : String} {start : ℤ} {call : Fin n} {phase : Phase}

theorem mem_onTime : call ∈ onTime calls s workspaceId start
    ↔ ((calls call).workspaceId = workspaceId ∧ (s.phase call).hasCounted = true)
      ∧ (calls call).now < start + nanosPerHour := by
  rw [onTime, Finset.mem_filter, inFlight, Finset.mem_filter]
  simp only [Finset.mem_univ, true_and]

/-- Only the call that moves can come to be on its way. -/
theorem mem_onTime_of_ne (hm : s'.phase = Function.update s.phase call phase)
    {other : Fin n} (hne : other ≠ call) :
    other ∈ onTime calls s' workspaceId start ↔ other ∈ onTime calls s workspaceId start := by
  rw [mem_onTime, mem_onTime, hm, Function.update_of_ne hne]

theorem onTime_subset_insert (hm : s'.phase = Function.update s.phase call phase) :
    onTime calls s' workspaceId start ⊆ insert call (onTime calls s workspaceId start) := by
  intro other ho
  by_cases heq : other = call
  · exact heq ▸ Finset.mem_insert_self _ _
  · exact Finset.mem_insert_of_mem ((mem_onTime_of_ne hm heq).mp ho)

/-- A call that was not on its way or is late adds none. -/
theorem onTime_subset (hm : s'.phase = Function.update s.phase call phase)
    (h : call ∈ onTime calls s' workspaceId start → call ∈ onTime calls s workspaceId start) :
    onTime calls s' workspaceId start ⊆ onTime calls s workspaceId start := by
  intro other ho
  by_cases heq : other = call
  · subst heq
    exact h ho
  · exact (mem_onTime_of_ne hm heq).mp ho

/-- A call that is over leaves room. -/
theorem onTime_card_succ_le (hm : s'.phase = Function.update s.phase call phase)
    (hp : phase.hasCounted = false) (hme : call ∈ onTime calls s workspaceId start) :
    (onTime calls s' workspaceId start).card + 1 ≤ (onTime calls s workspaceId start).card := by
  have hn : call ∉ onTime calls s' workspaceId start := by
    intro hc
    rw [mem_onTime, hm, Function.update_self, hp] at hc
    exact Bool.false_ne_true hc.1.2
  have hs : onTime calls s' workspaceId start ⊆ (onTime calls s workspaceId start).erase call := by
    rw [Finset.subset_erase]
    exact ⟨onTime_subset hm fun hc => absurd hc hn, hn⟩
  have hca := Finset.card_le_card hs
  rw [Finset.card_erase_of_mem hme] at hca
  have hpo := Finset.card_pos.mpr ⟨call, hme⟩
  omega

end

variable (calls env times) in
/-- What holds after every run in which there is room. -/
structure RateInv (history : List (ℤ × Event n)) (s : State n) : Prop where
  record : OnRecord calls env history s
  written : ∀ use ∈ uses calls history, use.2 ∈ times
  room : ∀ workspaceId start, successesWithinHour calls history workspaceId start
    + (onTime calls s workspaceId start).card ≤ bypassRateLimitPerHour

/-- A statement that puts nothing on record. -/
theorem RateInv.quiet (h : RateInv calls env times history s)
    (hu : uses calls (events.map (time, ·)) = []) (hro : useRows s'.audit = useRows s.audit)
    (hr : ∀ workspaceId start, successesWithinHour calls history workspaceId start
      + (onTime calls s' workspaceId start).card ≤ bypassRateLimitPerHour) :
    RateInv calls env times (history ++ events.map (time, ·)) s' := by
  have hs : uses calls (history ++ events.map (time, ·)) = uses calls history := by
    rw [uses_append, hu, List.append_nil]
  refine ⟨?_, ?_, ?_⟩
  · rw [OnRecord, hs, hro]
    exact h.record
  · rw [hs]
    exact h.written
  · intro workspaceId start
    rw [successesWithinHour, hs]
    exact hr workspaceId start

/-- A verification that passes the count finds room within every hour in which it may succeed. -/
theorem RateInv.passed {os : VerifyBypassTokenOptions} {token : StoredPreflightBypassToken}
    (hso : SortsAsText env times) (h : RateInv calls env times history s)
    (hcl : OnClock env calls times action time) (hok : LeavesRoom calls env s action)
    (hc : calls action.call = .verify os)
    (hp : s.phase action.call = .counting token)
    (hco : recentUses env s os < bypassRateLimitPerHour)
    (hm : s'.phase = Function.update s.phase action.call (.consuming token))
    (workspaceId : String) (start : ℤ) :
    successesWithinHour calls history workspaceId start
      + (onTime calls s' workspaceId start).card ≤ bypassRateLimitPerHour := by
  by_cases hme : action.call ∈ onTime calls s' workspaceId start
  · obtain ⟨⟨hw, -⟩, hn⟩ := mem_onTime.mp hme
    rw [hc] at hw hn
    obtain rfl : os.workspaceId = workspaceId := hw
    have hs := hcl.since
    rw [hc] at hs
    have hse := successesWithinHour_le_recentUses hso h.record h.written hs hn
    have hr := hok os (by rw [hc]; rfl) (by rw [hp]; rfl) hco
    have hca := (Finset.card_le_card (onTime_subset_insert hm)).trans
      (Finset.card_insert_le action.call (onTime calls s os.workspaceId start))
    have hf : (onTime calls s os.workspaceId start).card ≤ (inFlight calls s os.workspaceId).card :=
      Finset.card_filter_le _ _
    omega
  · have hca := Finset.card_le_card (onTime_subset hm fun hne => absurd hne hme)
    have hr := h.room workspaceId start
    omega

/-- A success takes the room of its call. -/
theorem RateInv.succeeded {os : VerifyBypassTokenOptions}
    {token : StoredPreflightBypassToken} {phase : Phase} {ha : String}
    (h : RateInv calls env times history s) (hc : OnClock env calls times action time)
    (hca : calls action.call = .verify os)
    (hp : s.phase action.call = .recordingUse token)
    (hau : s'.audit = s.audit ++ [⟨os.workspaceId, "preflight.bypass_token.use",
      ha, action.timestamp, none⟩])
    (hmo : s'.phase = Function.update s.phase action.call phase)
    (ho : phase.hasCounted = false) :
    RateInv calls env times (history ++ [Event.succeeded action.call].map (time, ·)) s' := by
  have hu : uses calls (history ++ [Event.succeeded action.call].map (time, ·))
      = uses calls history ++ [(os.workspaceId, time)] := by
    rw [uses_append, uses_succeeded, hca]
    rfl
  refine ⟨?_, ?_, ?_⟩
  · rw [OnRecord, hu, hau, useRows_append, List.map_append, List.map_append, h.record, hc.timestamp]
    rfl
  · intro use hm
    rw [hu, List.mem_append, List.mem_singleton] at hm
    rcases hm with hol | rfl
    · exact h.written use hol
    · exact hc.written
  · intro workspaceId start
    have hr := h.room workspaceId start
    have hno : action.call ∉ onTime calls s' workspaceId start := by
      intro hn
      rw [mem_onTime, hmo, Function.update_self, ho] at hn
      exact Bool.false_ne_true hn.1.2
    rw [successesWithinHour] at hr ⊢
    rw [hu, List.countP_append, List.countP_singleton]
    split
    · rename_i hwi
      obtain ⟨hw, -, hlt⟩ := of_decide_eq_true hwi
      have hm : action.call ∈ onTime calls s workspaceId start := by
        have hnow := hc.now
        rw [mem_onTime, hca, hp]
        rw [hca] at hnow
        exact ⟨⟨hw, rfl⟩, lt_of_le_of_lt hnow hlt⟩
      have hcar := onTime_card_succ_le hmo ho hm
      omega
    · have hcar := Finset.card_le_card (onTime_subset hmo fun hn => absurd hn hno)
      omega

/-- One statement keeps the room. -/
theorem RateInv.step (hso : SortsAsText env times) (h : RateInv calls env times history s)
    (hcl : OnClock env calls times action time) (hok : LeavesRoom calls env s action)
    (he : RateEffect calls env s action s' events) :
    RateInv calls env times (history ++ events.map (time, ·)) s' := by
  cases he with
  | passed hc hp hco ha hm =>
    exact h.quiet rfl (by rw [ha]) (h.passed hso hcl hok hc hp hco hm)
  | succeeded hc hp ha hm ho =>
    exact h.succeeded hcl hc hp ha hm ho
  | other hr hm hp hno =>
    refine h.quiet (uses_map_of_not_mem hno) hr fun workspaceId start => ?_
    have hs : onTime calls s' workspaceId start ⊆ onTime calls s workspaceId start := by
      refine onTime_subset hm fun hn => ?_
      rw [mem_onTime, hm, Function.update_self] at hn
      exact mem_onTime.mpr ⟨⟨hn.1.1, hp hn.1.2⟩, hn.2⟩
    have hca := Finset.card_le_card hs
    have hro := h.room workspaceId start
    omega

/-- The record is right at the start. -/
theorem RateInv.initial : RateInv calls env times [] (BypassTokens.initial : State n) := by
  refine ⟨rfl, by simp [uses], fun workspaceId start => ?_⟩
  have he : onTime calls (BypassTokens.initial : State n) workspaceId start = ∅ := by
    refine Finset.eq_empty_of_forall_notMem fun call hc => ?_
    exact Bool.false_ne_true (mem_onTime.mp hc).1.2
  rw [he]
  exact Nat.zero_le _

/-- **Every run within the condition keeps the record**. -/
theorem ClockedRun.inv (hs : SortsAsText env times)
    (h : ClockedRun env calls times (LeavesRoom calls env) history clock s) :
    RateInv calls env times history s := by
  induction h with
  | start => exact RateInv.initial
  | step _ _ hc hok hst ih => exact ih.step hs hc hok (step_rateEffect hst)

/-- **The bypass rate limit**, in every run in which a verification passes the count only if there
is room for it beside those that are on their way. -/
theorem bypass_rate_limit_with_room (calls : Fin n → Call) (env : Env) (times : List ℤ)
    (hsorts : SortsAsText env times) : RateLimited calls env times (LeavesRoom calls env) := by
  intro history clock s hr workspaceId start
  have hro := (hr.inv hsorts).room workspaceId start
  omega

/-! ## Two runs of one token -/

variable (calls env) in
/-- Some statements at one time, as long as each is of the kind. -/
def clockedAll (ok : State n → Action n → Prop) [∀ s action, Decidable (ok s action)] (time : ℤ) :
    State n → List (Fin n) → Option (State n × List (Event n))
  | s, [] => some (s, [])
  | s, call :: rest =>
    let action : Action n := ⟨call, none, "audit", env.toRfc3339 time⟩
    if (calls call).now ≤ time ∧ ok s action then do
      let (s', events) ← BypassTokens.step env s calls action
      let (s'', events') ← clockedAll ok time s' rest
      some (s'', events ++ events')
    else none

theorem ClockedRun.clockedAll {ok : State n → Action n → Prop} [∀ s action, Decidable (ok s action)]
    {r : List (Fin n)} (hr : ClockedRun env calls times ok history time s)
    (ht : time ∈ times) (hs : ∀ call, (calls call).now - nanosPerHour ∈ times)
    (h : clockedAll calls env ok time s r = some (s', events)) :
    ClockedRun env calls times ok (history ++ events.map (time, ·)) time s' := by
  induction r generalizing history events s with
  | nil =>
    cases h
    rw [List.map_nil, List.append_nil]
    exact hr
  | cons call r ih =>
    rw [BypassTokens.clockedAll] at h
    split at h
    · rename_i hok
      obtain ⟨⟨s₁, es₁⟩, hst, h⟩ := Option.bind_eq_some_iff.mp h
      obtain ⟨⟨s₂, es₂⟩, hre, h⟩ := Option.bind_eq_some_iff.mp h
      cases h
      rw [List.map_append, ← List.append_assoc]
      exact ih (hr.step le_rfl ⟨rfl, hok.1, ht, hs call⟩ hok.2 hst) hre
    · cases h

end

/-- A token for six uses and six verifications of it. -/
def rateCalls : Fin 7 → Call
  | 0 => .issue ⟨"ws", "/ws", "rm -rf build", ["rule-1"], "cleanup", none, some 6, 0⟩ "tok"
  | _ => .verify ⟨"ws", "tok", "rm -rf build", ["rule-1"], 0⟩

def rateTimes : List ℤ := [0, -nanosPerHour]

/-- All six verifications count the uses before any of them is on record. -/
theorem six_verifications_pass_at_once : SortsAsText sampleEnv rateTimes
    ∧ ¬ RateLimited rateCalls sampleEnv rateTimes anyStatement := by
  refine ⟨by decide +kernel, fun hl => ?_⟩
  have he : ((clockedAll rateCalls sampleEnv anyStatement 0 initial
      ([0, 0] ++ [1, 2, 3, 4, 5, 6] ++ [1, 2, 3, 4, 5, 6] ++ [1, 2, 3, 4, 5, 6]
        ++ [1, 2, 3, 4, 5, 6])).map fun run => successesWithinHour rateCalls
          (run.2.map (0, ·)) "ws" 0) = some 6 := by decide +kernel
  obtain ⟨⟨s, events⟩, hr, hco⟩ := Option.map_eq_some_iff.mp he
  have hc : ClockedRun sampleEnv rateCalls rateTimes anyStatement _ 0 s :=
    ClockedRun.clockedAll .start (by decide) (by decide) hr
  have hle := hl _ _ s hc "ws" 0
  rw [List.nil_append, hco] at hle
  exact absurd hle (by decide)

/-- One after another, five of the six verifications succeed. -/
theorem bypass_rate_limit_with_room_sample : SortsAsText sampleEnv rateTimes
    ∧ ∃ (events : List (Event 7)) (s : State 7), ClockedRun sampleEnv rateCalls rateTimes
        (LeavesRoom rateCalls sampleEnv)
        (events.map (0, ·)) 0 s
      ∧ successesWithinHour rateCalls (events.map (0, ·)) "ws" 0 = 5
      ∧ successesWithinHour rateCalls (events.map (0, ·)) "ws" 0 ≤ bypassRateLimitPerHour := by
  have hs : SortsAsText sampleEnv rateTimes := by decide +kernel
  have he : ((clockedAll rateCalls sampleEnv (LeavesRoom rateCalls sampleEnv) 0 initial
      ([0, 0] ++ [1, 1, 1, 1] ++ [2, 2, 2, 2] ++ [3, 3, 3, 3] ++ [4, 4, 4, 4] ++ [5, 5, 5, 5]
        ++ [6, 6, 6])).map fun run => successesWithinHour rateCalls
          (run.2.map (0, ·)) "ws" 0) = some 5 := by decide +kernel
  obtain ⟨⟨s, events⟩, hr, hco⟩ := Option.map_eq_some_iff.mp he
  have hc : ClockedRun sampleEnv rateCalls rateTimes (LeavesRoom rateCalls sampleEnv)
      (events.map (0, ·)) 0 s :=
    ClockedRun.clockedAll .start (by decide) (by decide) hr
  exact ⟨hs, events, s, hc, hco,
    bypass_rate_limit_with_room rateCalls sampleEnv rateTimes hs _ _ s hc "ws" 0⟩

end BypassTokens
