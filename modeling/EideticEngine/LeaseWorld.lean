/-
# Leases of many processes (`src/db/mod.rs`, `src/core/index.rs`)

Any number of processes take, lose, release and use the leases of one database.  A step of the
world is one reading of the clock, one transaction, the start or the end of a fenced section,
the death of a process or the passing of time, so that every interleaving is a list of actions.
-/
import EideticEngine.AdvisoryLock
import Mathlib

namespace AdvisoryLocks

variable {T : Type}

/-! ## The world -/

/-- One database with its processes, which are named by their holder identifiers. -/
structure World (T : Type) where
  now : T
  db : LockDb
  /-- The holders whose process has died. -/
  dead : List String
  /-- The attempts whose transaction has not started. -/
  pending : List Attempt
  /-- The fenced sections in progress: a workspace and its publisher. -/
  publishing : List (String × String)

/-- No locks. -/
def World.init (now : T) : World T := ⟨now, ⟨.empty, []⟩, [], [], []⟩

/-- What can happen next. -/
inductive Action (T : Type) where
  | tick (now : T)
  | die (holderId : String)
  | beginAcquire (lockId : AdvisoryLockId) (holderId : String) (ttlSecs : Option ℕ)
      (reason : Option String)
  | commitAcquire (attempt : Attempt) (testKill : TestKill)
  /-- The database fails an attempt before its commit. -/
  | abandonAcquire (attempt : Attempt)
  | release (lockId : AdvisoryLockId) (holderId : String)
  | releaseWithPolicy (lockId : AdvisoryLockId) (expectedHolder : Option String)
      (actor reason : String) (force : Bool) (testKill : TestKill)
  | beginPublish (workspaceId holderId : String)
  | endPublish (workspaceId holderId : String)

/-- What an observer sees of a step. -/
inductive Outcome (T : Type) where
  | quiet
  | died (holderId : String)
  | failed (error : DbError)
  /-- A transaction of an attempt, at the time it runs. -/
  | acquire (attempt : Attempt) (result : AcquireLockResult) (now : T)
  | release (lockId : AdvisoryLockId) (holderId : String) (released : Bool)
  | releaseWithPolicy (force : Bool) (outcome : AdvisoryLockReleaseOutcome)
  | publish (workspaceId holderId : String) (checked : Except String Unit)

/-- The probe says dead of dead processes only. -/
def ProbeSound (testKill : TestKill) (w : World T) : Prop :=
  ∀ row ∈ w.db.table.rows,
    (advisoryLockHolderLiveness testKill row.holderId).isDead = true → row.holderId ∈ w.dead

instance (testKill : TestKill) (w : World T) : Decidable (ProbeSound testKill w) :=
  inferInstanceAs (Decidable (∀ _ ∈ _, _ → _))

section

variable [LinearOrder T]

/-- A step of the world; `none` when it is not enabled.  The clock does not go back, dead
processes take no step, and nothing writes a lease while a fenced section is in progress. -/
def step (env : Env T) (w : World T) : Action T → Option (World T × Outcome T)
  | .tick now => if w.now ≤ now then some ({ w with now }, .quiet) else none
  | .die holderId =>
    some ({ w with
      dead := holderId :: w.dead
      pending := w.pending.filter fun attempt => attempt.holderId ≠ holderId
      publishing := w.publishing.filter fun entry => entry.2 ≠ holderId }, .died holderId)
  | .beginAcquire lockId holderId ttlSecs reason =>
    if holderId ∈ w.dead then none
    else
      match tryAcquireAdvisoryLock env w.now lockId holderId ttlSecs reason with
      | .error error => some (w, .failed error)
      | .ok attempt => some ({ w with pending := attempt :: w.pending }, .quiet)
  | .commitAcquire attempt testKill =>
    if attempt ∈ w.pending ∧ attempt.holderId ∉ w.dead ∧ w.publishing = [] ∧
        ProbeSound testKill w then
      match acquireAdvisoryLockInTransaction env testKill attempt w.db with
      | .error error => some ({ w with pending := w.pending.erase attempt }, .failed error)
      | .ok (result, db) =>
        some ({ w with db, pending := w.pending.erase attempt }, .acquire attempt result w.now)
    else none
  | .abandonAcquire attempt => some ({ w with pending := w.pending.erase attempt }, .quiet)
  | .release lockId holderId =>
    if holderId ∉ w.dead ∧ w.publishing = [] then
      let (released, db) := releaseAdvisoryLock lockId holderId w.db
      some ({ w with db }, .release lockId holderId released)
    else none
  | .releaseWithPolicy lockId expectedHolder actor reason force testKill =>
    if w.publishing = [] ∧ ProbeSound testKill w then
      let (outcome, db) := releaseAdvisoryLockWithPolicy env testKill w.now lockId
        expectedHolder actor reason force w.db
      some ({ w with db }, .releaseWithPolicy force outcome)
    else none
  | .beginPublish workspaceId holderId =>
    -- a process is in one fenced section at a time
    if holderId ∉ w.dead ∧ holderId ∉ w.publishing.map Prod.snd then
      match checkPublicationLease env w.now workspaceId holderId w.db with
      | .error error => some (w, .publish workspaceId holderId (.error error))
      | .ok () =>
        some ({ w with publishing := (workspaceId, holderId) :: w.publishing },
          .publish workspaceId holderId (.ok ()))
    else none
  | .endPublish workspaceId holderId =>
    if (workspaceId, holderId) ∈ w.publishing then
      some ({ w with publishing := w.publishing.erase (workspaceId, holderId) }, .quiet)
    else none

/-- A run of the world, with what is seen of it. -/
def run (env : Env T) (w : World T) : List (Action T) → Option (World T × List (Outcome T))
  | [] => some (w, [])
  | action :: actions => do
    let (w, outcome) ← step env w action
    let (w, outcomes) ← run env w actions
    return (w, outcome :: outcomes)

end

section

variable [LinearOrder T] {env : Env T}

/-! ## What a step does -/

/-- The transactions that write leases. -/
inductive LockWrite (env : Env T) (w : World T) : LockDb → Outcome T → Prop where
  | acquire {attempt : Attempt} {testKill : TestKill} {result : AcquireLockResult} {db : LockDb}
      (hpending : attempt ∈ w.pending) (hprobe : ProbeSound testKill w)
      (hok : acquireAdvisoryLockInTransaction env testKill attempt w.db = .ok (result, db)) :
      LockWrite env w db (.acquire attempt result w.now)
  | release (lockId : AdvisoryLockId) (holderId : String) :
      LockWrite env w (releaseAdvisoryLock lockId holderId w.db).2
        (.release lockId holderId (releaseAdvisoryLock lockId holderId w.db).1)
  | policy {testKill : TestKill} {lockId : AdvisoryLockId} {expectedHolder : Option String}
      {actor reason : String} {force : Bool} {outcome : AdvisoryLockReleaseOutcome} {db : LockDb}
      (hprobe : ProbeSound testKill w)
      (hok : releaseAdvisoryLockWithPolicy env testKill w.now lockId expectedHolder actor reason
        force w.db = (outcome, db)) :
      LockWrite env w db (.releaseWithPolicy force outcome)

/-- Everything that a step can change. -/
structure StepSpec (env : Env T) (w w' : World T) (outcome : Outcome T) : Prop where
  clock : w.now ≤ w'.now
  dead : ∀ holderId ∈ w'.dead, holderId ∈ w.dead ∨ outcome = .died holderId
  pending : ∀ attempt ∈ w'.pending, attempt ∈ w.pending ∨
    ∃ lockId holderId ttlSecs reason,
      tryAcquireAdvisoryLock env w.now lockId holderId ttlSecs reason = .ok attempt
  publishing : w'.publishing.Sublist w.publishing ∨
    ∃ workspaceId holderId, w'.publishing = (workspaceId, holderId) :: w.publishing ∧
      holderId ∉ w.publishing.map Prod.snd ∧ w'.db = w.db ∧
      checkPublicationLease env w.now workspaceId holderId w.db = .ok ()
  db : w'.db = w.db ∨ w'.publishing = [] ∧ LockWrite env w w'.db outcome

/-- A step that changes neither the clock, the dead, the fences nor the table. -/
theorem StepSpec.of_pending {w : World T} {pending : List Attempt} {outcome : Outcome T}
    (h : ∀ attempt ∈ pending, attempt ∈ w.pending ∨ ∃ lockId ho tss reason,
        tryAcquireAdvisoryLock env w.now lockId ho tss reason = .ok attempt) :
    StepSpec env w { w with pending } outcome where
  clock := le_rfl
  dead := fun _ => .inl
  pending := h
  publishing := .inl (List.Sublist.refl _)
  db := .inl rfl

/-- **Every step is as specified.** -/
theorem step_spec {w w' : World T} {a : Action T} {outcome : Outcome T}
    (h : step env w a = some (w', outcome)) : StepSpec env w w' outcome := by
  have hk : ∀ attempt ∈ w.pending, attempt ∈ w.pending ∨ ∃ lockId ho tss reason,
        tryAcquireAdvisoryLock env w.now lockId ho tss reason = .ok attempt :=
    fun _ => .inl
  cases a with
  | tick now =>
    simp only [step, Option.ite_none_right_eq_some, Option.some.injEq, Prod.mk.injEq] at h
    obtain ⟨hle, rfl, rfl⟩ := h
    exact ⟨hle, fun _ => .inl, hk, .inl (List.Sublist.refl _), .inl rfl⟩
  | die ho =>
    simp only [step, Option.some.injEq, Prod.mk.injEq] at h
    obtain ⟨rfl, rfl⟩ := h
    refine ⟨le_rfl, ?_, ?_, .inl List.filter_sublist, .inl rfl⟩
    · intro other hot
      rcases List.mem_cons.mp hot with rfl | hot
      · exact .inr rfl
      · exact .inl hot
    · intro attempt ha
      exact .inl (List.mem_of_mem_filter ha)
  | beginAcquire lockId ho tss reason =>
    simp only [step, Option.ite_none_left_eq_some] at h
    obtain ⟨-, h⟩ := h
    split at h
    · cases h
      exact StepSpec.of_pending hk
    · rename_i attempt ha
      cases h
      apply StepSpec.of_pending
      intro other hot
      rcases List.mem_cons.mp hot with rfl | hot
      · exact .inr ⟨lockId, ho, tss, reason, ha⟩
      · exact .inl hot
  | commitAcquire attempt tk =>
    simp only [step, Option.ite_none_right_eq_some] at h
    obtain ⟨⟨hpe, -, hf, hp⟩, h⟩ := h
    have he : ∀ other ∈ w.pending.erase attempt, other ∈ w.pending ∨ ∃ lockId ho tss reason,
          tryAcquireAdvisoryLock env w.now lockId ho tss reason = .ok other :=
      fun _ hot => .inl (List.mem_of_mem_erase hot)
    split at h
    · cases h
      exact StepSpec.of_pending he
    · rename_i r db hok
      cases h
      exact ⟨le_rfl, fun _ => .inl, he, .inl (List.Sublist.refl _), .inr ⟨hf, .acquire hpe hp hok⟩⟩
  | abandonAcquire attempt =>
    cases h
    exact StepSpec.of_pending fun _ hot => .inl (List.mem_of_mem_erase hot)
  | release lockId ho =>
    simp only [step, Option.ite_none_right_eq_some, Option.some.injEq, Prod.mk.injEq] at h
    obtain ⟨⟨-, hf⟩, rfl, rfl⟩ := h
    exact ⟨le_rfl, fun _ => .inl, hk, .inl (List.Sublist.refl _), .inr ⟨hf, .release lockId ho⟩⟩
  | releaseWithPolicy lockId eh ac reason f tk =>
    simp only [step, Option.ite_none_right_eq_some, Option.some.injEq, Prod.mk.injEq] at h
    obtain ⟨⟨hf, hp⟩, rfl, rfl⟩ := h
    exact ⟨le_rfl, fun _ => .inl, hk, .inl (List.Sublist.refl _), .inr ⟨hf, .policy hp rfl⟩⟩
  | beginPublish workspaceId ho =>
    simp only [step, Option.ite_none_right_eq_some] at h
    obtain ⟨⟨-, hfr⟩, h⟩ := h
    split at h
    · cases h
      exact StepSpec.of_pending hk
    · rename_i hok
      cases h
      exact ⟨le_rfl, fun _ => .inl, hk, .inr ⟨workspaceId, ho, rfl, hfr, rfl, hok⟩, .inl rfl⟩
  | endPublish workspaceId ho =>
    simp only [step, Option.ite_none_right_eq_some, Option.some.injEq, Prod.mk.injEq] at h
    obtain ⟨-, rfl, rfl⟩ := h
    exact ⟨le_rfl, fun _ => .inl, hk, .inl List.erase_sublist, .inl rfl⟩

/-! ## The invariant -/

/-- The time library reads what it has printed, if it reads it at all. -/
def ReadsBack (env : Env T) : Prop :=
  ∀ time time', env.parseFromRfc3339 (env.timestamp time) = some time' → time' = time

/-- The expiry has passed. -/
def Passed (env : Env T) (expiresAt : Option String) (now : T) : Prop :=
  ∃ expiry, expiresAt = some (env.timestamp expiry) ∧ expiry < now

/-- What holds of every world that is reached. -/
structure Inv (env : Env T) (w : World T) : Prop where
  keyed : w.db.table.Keyed
  printed : ∀ row ∈ w.db.table.rows, Printed env row.expiresAt
  clocks : ∀ attempt ∈ w.pending, (∃ time ≤ w.now, attempt.now = env.timestamp time) ∧
    Printed env attempt.expiresAt
  owned : ∀ entry ∈ w.publishing, ∃ row,
    w.db.table.rowsOf (.index entry.1) = [row] ∧ row.holderId = entry.2
  single : (w.publishing.map Prod.snd).Nodup

theorem inv_init (env : Env T) (start : T) : Inv env (World.init start) :=
  ⟨nofun, nofun, nofun, nofun, List.nodup_nil⟩

/-- A row that a reader with an old clock finds expired is expired. -/
theorem passed_of_isExpired (hr : ReadsBack env) {row : LockRow} {time now : T}
    (hp : Printed env row.expiresAt) (hle : time ≤ now)
    (h : row.isExpired env (env.timestamp time) = true) : Passed env row.expiresAt now := by
  unfold LockRow.isExpired at h
  split at h
  · rename_i text ht
    obtain ⟨ex, rfl⟩ := hp text (Option.mem_def.mpr ht)
    unfold advisoryLockIsExpired at h
    split at h
    · cases h
    · rename_i e' he
      split at h
      · cases h
      · rename_i t' hti
        rw [hr _ _ he, hr _ _ hti, decide_eq_true_eq] at h
        exact ⟨ex, ht, lt_of_lt_of_le h hle⟩
  · cases h

/-- Writes keep the table in order. -/
theorem LockWrite.inv {w : World T} {db : LockDb} {outcome : Outcome T}
    (hw : LockWrite env w db outcome) (hi : Inv env w) :
    db.table.Keyed ∧ ∀ row ∈ db.table.rows, Printed env row.expiresAt := by
  -- a write only removes rows, or it adds the row of an attempt
  have hs : ∀ db' : LockDb, (∀ row ∈ db'.table.rows, row ∈ w.db.table.rows) →
      db'.table.Keyed ∧ ∀ row ∈ db'.table.rows, Printed env row.expiresAt :=
    fun db' h => ⟨fun row hr => hi.keyed row (h row hr), fun row hr => hi.printed row (h row hr)⟩
  cases hw with
  | @acquire attempt tk r _ hp hpr hok =>
    rcases acquire_cases hi.keyed hok with ⟨-, rfl⟩ | ⟨-, -, hro⟩
    · exact hs _ fun _ => id
    · have ho : ∀ row ∈ db.table.rows, row ∈ w.db.table.rows ∨ row = attempt.row := by
        intro row hr
        rw [hro, List.mem_append, List.mem_singleton] at hr
        exact hr.imp (fun hm => (LockTable.mem_delete.mp hm).1) id
      constructor
      · intro row hr
        rcases ho row hr with hm | rfl
        · exact hi.keyed row hm
        · rfl
      · intro row hr
        rcases ho row hr with hm | rfl
        · exact hi.printed row hm
        · exact (hi.clocks attempt hp).2
  | release lockId hol => exact hs _ fun row hr => (mem_release.mp hr).1
  | policy hpr hok =>
    apply hs
    intro row hr
    rcases releaseWithPolicy_cases hok with rfl | ⟨lock, -, -, -, -, -, ht⟩
    · exact hr
    · rw [ht] at hr
      exact (mem_release.mp hr).1

/-- **The invariant is kept by every step.** -/
theorem step_inv {w w' : World T} {a : Action T} {outcome : Outcome T}
    (h : step env w a = some (w', outcome)) (hi : Inv env w) : Inv env w' := by
  have hs := step_spec h
  have ht : w'.db.table.Keyed ∧ ∀ row ∈ w'.db.table.rows, Printed env row.expiresAt := by
    rcases hs.db with hsa | ⟨-, hw⟩
    · rw [hsa]
      exact ⟨hi.keyed, hi.printed⟩
    · exact hw.inv hi
  refine ⟨ht.1, ht.2, ?_, ?_, ?_⟩
  · intro attempt ha
    rcases hs.pending attempt ha with hol | ⟨lockId, ho, tss, reason, hne⟩
    · obtain ⟨⟨time, hle, hn⟩, hp⟩ := hi.clocks attempt hol
      exact ⟨⟨time, hle.trans hs.clock, hn⟩, hp⟩
    · obtain ⟨hn, hp⟩ := tryAcquire_ok hne
      exact ⟨⟨w.now, hs.clock, hn⟩, hp⟩
  · intro en he
    rcases hs.db with hsa | ⟨hno, -⟩
    · rw [hsa]
      rcases hs.publishing with hsu | ⟨workspaceId, ho, hc, -, -, hch⟩
      · exact hi.owned en (hsu.subset he)
      · rw [hc, List.mem_cons] at he
        rcases he with rfl | hol
        · obtain ⟨row, -, hr, hh, -⟩ := checkPublicationLease_ok hch
          exact ⟨row, hr, hh⟩
        · exact hi.owned en hol
    · rw [hno] at he
      cases he
  · rcases hs.publishing with hsu | ⟨workspaceId, ho, hc, hf, -⟩
    · exact hi.single.sublist (hsu.map _)
    · rw [hc, List.map_cons, List.nodup_cons]
      exact ⟨hf, hi.single⟩

/-! ## How a lease ends -/

/-- The holder gives its lease up, is released by force or dies. -/
def Outcome.Ends (lockId : AdvisoryLockId) (holderId : String) : Outcome T → Prop
  | .died dead => dead = holderId
  | .release lockId' holderId' released => lockId' = lockId ∧ holderId' = holderId ∧ released = true
  | .releaseWithPolicy force (.released lock _) =>
    force = true ∧ lock.id = lockId ∧ lock.holderId = holderId
  | _ => False

/-- **A write takes a row away from a living holder only** when that holder releases it, when it
is released by force or when its expiry has passed. -/
theorem LockWrite.row_cases (hre : ReadsBack env) {w : World T} {db : LockDb}
    {outcome : Outcome T} (hw : LockWrite env w db outcome) (hi : Inv env w) {row : LockRow}
    (hr : row ∈ w.db.table.rows) (ha : row.holderId ∉ w.dead) :
    row ∈ db.table.rows ∨ outcome.Ends row.lockId row.holderId ∨
      Passed env row.expiresAt w.now := by
  cases hw with
  | @acquire attempt tk r _ hpe hp hok =>
    rcases acquire_cases hi.keyed hok with ⟨-, rfl⟩ | ⟨-, hfr, hro⟩
    · exact .inl hr
    · by_cases hid : row.lockId = attempt.lockId
      · rcases hfr row (LockTable.mem_rowsOf.mpr ⟨hr, hid⟩) with he | hd
        · obtain ⟨⟨time, hle, hn⟩, -⟩ := hi.clocks attempt hpe
          rw [hn] at he
          exact .inr (.inr (passed_of_isExpired hre (hi.printed row hr) hle he))
        · exact absurd (hp row hr hd) ha
      · left
        rw [hro, List.mem_append, LockTable.mem_delete]
        exact .inl ⟨hr, decide_eq_false hid⟩
  | release lockId hol =>
    by_cases ho : row.lockId = lockId ∧ row.holderId = hol
    · exact .inr (.inl ⟨ho.1.symm, ho.2.symm, release_fst hr ho.1 ho.2⟩)
    · exact .inl (mem_release.mpr ⟨hr, ho⟩)
  | @policy tk lockId _ _ _ f _ _ hp hok =>
    rcases releaseWithPolicy_cases hok with rfl | ⟨lock, ai, hid, rfl, hal, -, ht⟩
    · exact .inl hr
    · by_cases ho : row.lockId = lockId ∧ row.holderId = lock.holderId
      · rcases hal with hf | hd
        · exact .inr (.inl ⟨hf, hid.trans ho.1.symm, ho.2.symm⟩)
        · rw [← ho.2] at hd
          exact absurd (hp row hr hd) ha
      · rw [ht]
        exact .inl (mem_release.mpr ⟨hr, ho⟩)

/-- A step keeps the row of a living holder, or it ends the lease, or the expiry has passed. -/
theorem step_row (hr : ReadsBack env) {w w' : World T} {a : Action T}
    {outcome : Outcome T} (h : step env w a = some (w', outcome)) (hi : Inv env w)
    {row : LockRow} (hro : row ∈ w.db.table.rows) (ha : row.holderId ∉ w.dead) :
    (row ∈ w'.db.table.rows ∧ row.holderId ∉ w'.dead) ∨
      outcome.Ends row.lockId row.holderId ∨ Passed env row.expiresAt w'.now := by
  have hs := step_spec h
  by_cases hd : row.holderId ∈ w'.dead
  · rcases hs.dead _ hd with ho | rfl
    · exact absurd ho ha
    · exact .inr (.inl rfl)
  rcases hs.db with hsa | ⟨-, hw⟩
  · rw [hsa]
    exact .inl ⟨hro, hd⟩
  · rcases hw.row_cases hr hi hro ha with hk | he | ⟨ex, ht, hlt⟩
    · exact .inl ⟨hk, hd⟩
    · exact .inr (.inl he)
    · exact .inr (.inr ⟨ex, ht, lt_of_lt_of_le hlt hs.clock⟩)

/-! ## Runs -/

theorem run_cons {w w' : World T} {a : Action T} {as : List (Action T)} {os : List (Outcome T)}
    (h : run env w (a :: as) = some (w', os)) :
    ∃ w₁ outcome r, step env w a = some (w₁, outcome) ∧
      run env w₁ as = some (w', r) ∧ os = outcome :: r := by
  simp only [run, Option.bind_eq_bind, Option.bind_eq_some_iff, Option.pure_def,
    Option.some.injEq, Prod.mk.injEq, Prod.exists] at h
  obtain ⟨w₁, outcome, hs, w₂, r, hr, rfl, rfl⟩ := h
  exact ⟨w₁, outcome, r, hs, hr, rfl⟩

/-- **A run keeps the invariant**, and time does not go back. -/
theorem run_inv {as : List (Action T)} : ∀ {w w' : World T} {os : List (Outcome T)},
    run env w as = some (w', os) → Inv env w → Inv env w' ∧ w.now ≤ w'.now := by
  induction as with
  | nil =>
    intro w w' os h hi
    cases h
    exact ⟨hi, le_rfl⟩
  | cons a as ih =>
    intro w w' os h hi
    obtain ⟨w₁, outcome, r, hs, hr, rfl⟩ := run_cons h
    obtain ⟨hi', hle⟩ := ih hr (step_inv hs hi)
    exact ⟨hi', (step_spec hs).clock.trans hle⟩

/-- What is seen at one place of a run is seen in one step of it. -/
theorem run_split {b : List (Outcome T)} : ∀ {as : List (Action T)} {w w' : World T}
    {outcome : Outcome T} {after : List (Outcome T)},
    run env w as = some (w', b ++ outcome :: after) →
    ∃ w₁ w₂ a first r, run env w first = some (w₁, b) ∧
      step env w₁ a = some (w₂, outcome) ∧ run env w₂ r = some (w', after) := by
  induction b with
  | nil =>
    intro as w w' outcome after h
    cases as with
    | nil => cases h
    | cons a as =>
      obtain ⟨w₁, o', r, hs, hr, heq⟩ := run_cons h
      cases heq
      exact ⟨w, w₁, a, [], as, rfl, hs, hr⟩
  | cons s b ih =>
    intro as w w' outcome after h
    cases as with
    | nil => cases h
    | cons a as =>
      obtain ⟨w₁, o', r, hs, hr, heq⟩ := run_cons h
      cases heq
      obtain ⟨w₂, w₃, a', first, r, hf, hs', hre⟩ := ih hr
      refine ⟨w₂, w₃, a', a :: first, r, ?_, hs', hre⟩
      simp [run, hs, hf]

/-- **A lease lasts over a run** until it ends or its expiry passes. -/
theorem run_row (hre : ReadsBack env) {row : LockRow} {as : List (Action T)} :
    ∀ {w w' : World T} {os : List (Outcome T)},
    run env w as = some (w', os) → Inv env w → row ∈ w.db.table.rows →
    row.holderId ∉ w.dead →
    (row ∈ w'.db.table.rows ∧ row.holderId ∉ w'.dead) ∨
      (∃ outcome ∈ os, outcome.Ends row.lockId row.holderId) ∨
      Passed env row.expiresAt w'.now := by
  induction as with
  | nil =>
    intro w w' os h hi hr ha
    cases h
    exact .inl ⟨hr, ha⟩
  | cons a as ih =>
    intro w w' os h hi hr ha
    obtain ⟨w₁, outcome, r, hs, hru, rfl⟩ := run_cons h
    have hi₁ := step_inv hs hi
    rcases step_row hre hs hi hr ha with
      ⟨hk, hl⟩ | he | ⟨ex, ht, hlt⟩
    · rcases ih hru hi₁ hk hl with hd | ⟨en, hm, he⟩ | hp
      · exact .inl hd
      · exact .inr (.inl ⟨en, List.mem_cons_of_mem _ hm, he⟩)
      · exact .inr (.inr hp)
    · exact .inr (.inl ⟨outcome, List.mem_cons_self, he⟩)
    · exact .inr (.inr ⟨ex, ht, lt_of_lt_of_le hlt (run_inv hru hi₁).2⟩)

/-! ## Exclusion -/

/-- A step that is seen as a transaction of an attempt is one. -/
theorem step_acquire {w w' : World T} {a : Action T} {attempt : Attempt}
    {r : AcquireLockResult} {now : T}
    (h : step env w a = some (w', .acquire attempt r now)) :
    now = w.now ∧ w'.dead = w.dead ∧ attempt ∈ w.pending ∧ attempt.holderId ∉ w.dead ∧
      ∃ tk, ProbeSound tk w ∧
        acquireAdvisoryLockInTransaction env tk attempt w.db = .ok (r, w'.db) := by
  cases a with
  | commitAcquire a' tk =>
    simp only [step, Option.ite_none_right_eq_some] at h
    obtain ⟨⟨hp, ha, -, hpr⟩, h⟩ := h
    split at h
    · cases h
    · rename_i r' db hok
      cases h
      exact ⟨rfl, rfl, hp, ha, tk, hpr, hok⟩
  | beginAcquire lockId ho tss reason =>
    simp only [step, Option.ite_none_left_eq_some] at h
    split at h <;> simp at h
  | beginPublish workspaceId ho =>
    simp only [step, Option.ite_none_right_eq_some] at h
    split at h <;> simp at h
  | _ => simp [step] at h

/-- After a step in which an attempt takes the lease its row is there. -/
theorem step_takes {w w' : World T} {a : Action T} {attempt : Attempt}
    {r : AcquireLockResult} {now : T}
    (h : step env w a = some (w', .acquire attempt r now)) (hi : Inv env w)
    (ht : r.takes = true) :
    attempt.row ∈ w'.db.table.rows ∧ attempt.holderId ∉ w'.dead := by
  obtain ⟨-, hd, -, ha, tk, -, hok⟩ := step_acquire h
  rw [hd]
  refine ⟨?_, ha⟩
  rcases acquire_cases hi.keyed hok with ⟨hn, -⟩ | ⟨-, -, hr⟩
  · rw [ht] at hn
    cases hn
  · rw [hr]
    simp

/-- **An attempt does not take a lease from a living holder before its expiry.** -/
theorem step_takes_passed (hre : ReadsBack env) {w w' : World T} {a : Action T}
    {attempt : Attempt} {r : AcquireLockResult} {now : T}
    (h : step env w a = some (w', .acquire attempt r now)) (hi : Inv env w)
    (ht : r.takes = true) {row : LockRow} (hr : row ∈ w.db.table.rows)
    (ha : row.holderId ∉ w.dead) (hid : row.lockId = attempt.lockId) :
    Passed env row.expiresAt now := by
  obtain ⟨rfl, -, hp, -, tk, hpr, hok⟩ := step_acquire h
  rcases acquire_cases hi.keyed hok with ⟨hn, -⟩ | ⟨-, hf, -⟩
  · rw [ht] at hn
    cases hn
  · rcases hf row (LockTable.mem_rowsOf.mpr ⟨hr, hid⟩) with he | hd
    · obtain ⟨⟨time, hle, hno⟩, -⟩ := hi.clocks attempt hp
      rw [hno] at he
      exact passed_of_isExpired hre (hi.printed row hr) hle he
    · exact absurd (hpr row hr hd) ha

/-- Leases are exclusive and only their holder publishes. -/
structure LeasesExclusive (env : Env T) (w : World T) (outcomes : List (Outcome T)) : Prop where
  /-- A resource has at most one row. -/
  oneRow : ∀ lockId, (w.db.table.rowsOf lockId).length ≤ 1
  /-- Between two takings of a lease the first holder released it, died, was released by force,
  or its expiry has passed at the second taking. -/
  exclusive : ∀ (before between after : List (Outcome T)) (attempt attempt' : Attempt)
      (result result' : AcquireLockResult) (now now' : T),
    outcomes = before ++ Outcome.acquire attempt result now ::
      (between ++ Outcome.acquire attempt' result' now' :: after) →
    result.takes = true → result'.takes = true → attempt'.lockId = attempt.lockId →
    attempt'.holderId ≠ attempt.holderId →
    (∃ outcome ∈ between, outcome.Ends attempt.lockId attempt.holderId) ∨
      Passed env attempt.expiresAt now'
  /-- A release, however late, leaves the rows of other holders. -/
  lateRelease : ∀ lockId holderId w' outcome,
    step env w (.release lockId holderId) = some (w', outcome) →
    ∀ row ∈ w.db.table.rows, row.holderId ≠ holderId → row ∈ w'.db.table.rows
  /-- So does a release under a policy, forced or not, that names the former holder. -/
  latePolicyRelease : ∀ lockId holderId actor reason force testKill w' outcome,
    step env w (.releaseWithPolicy lockId (some holderId) actor reason force testKill)
      = some (w', outcome) →
    ∀ row ∈ w.db.table.rows, row.holderId ≠ holderId → row ∈ w'.db.table.rows
  /-- A publication starts only for the holder of the single, unexpired row. -/
  publishOwned : ∀ action w' outcome entry, step env w action = some (w', outcome) →
    entry ∈ w'.publishing → entry ∉ w.publishing →
    ∃ row expiry, w.db.table.rowsOf (.index entry.1) = [row] ∧ row.holderId = entry.2 ∧
      row.expiresAt = some (env.timestamp expiry) ∧ w.now < expiry
  /-- While a publication runs the row is its own. -/
  publishingOwned : ∀ entry ∈ w.publishing, ∃ row,
    w.db.table.rowsOf (.index entry.1) = [row] ∧ row.holderId = entry.2
  /-- Publications of one workspace do not overlap. -/
  publishAlone : ∀ workspaceId,
    (w.publishing.filter fun entry => entry.1 = workspaceId).length ≤ 1

/-- The publications of a workspace in progress are by the one holder of its row. -/
theorem Inv.publishAlone {w : World T} (hi : Inv env w) (workspaceId : String) :
    (w.publishing.filter fun en => en.1 = workspaceId).length ≤ 1 := by
  have hn : ((w.publishing.filter fun en => en.1 = workspaceId).map Prod.snd).Nodup :=
    hi.single.sublist (List.filter_sublist.map _)
  match hlist : w.publishing.filter fun en => en.1 = workspaceId with
  | [] => simp [hlist]
  | [en] => simp [hlist]
  | first :: s :: r =>
    exfalso
    have ho : ∀ en ∈ w.publishing.filter fun en => en.1 = workspaceId, ∃ row,
        w.db.table.rowsOf (.index workspaceId) = [row] ∧ row.holderId = en.2 := by
      intro en he
      obtain ⟨hm, hw⟩ := List.mem_filter.mp he
      rw [← of_decide_eq_true hw]
      exact hi.owned en hm
    rw [hlist] at hn ho
    obtain ⟨row, hr, hf⟩ := ho first (by simp)
    obtain ⟨r', hr', hs⟩ := ho s (by simp)
    rw [hr] at hr'
    cases hr'
    simp [← hf, ← hs] at hn

/-- A fenced section starts behind the check of the lease. -/
theorem step_publishOwned (hre : ReadsBack env) {w w' : World T} {a : Action T}
    {outcome : Outcome T} {en : String × String} (hi : Inv env w)
    (h : step env w a = some (w', outcome)) (hn : en ∈ w'.publishing)
    (ho : en ∉ w.publishing) :
    ∃ row ex, w.db.table.rowsOf (.index en.1) = [row] ∧ row.holderId = en.2 ∧
      row.expiresAt = some (env.timestamp ex) ∧ w.now < ex := by
  rcases (step_spec h).publishing with hs | ⟨workspaceId, hol, hco, -, -, hc⟩
  · exact absurd (hs.subset hn) ho
  · rw [hco, List.mem_cons] at hn
    obtain rfl := hn.resolve_right ho
    obtain ⟨row, ex, hr, hh, he, ha⟩ := checkPublicationLease_ok hc
    obtain ⟨text, ht, hp⟩ := Option.bind_eq_some_iff.mp he
    have hm : row ∈ w.db.table.rows := (LockTable.mem_rowsOf.mp (by rw [hr]; simp)).1
    obtain ⟨e', rfl⟩ := hi.printed row hm text (Option.mem_def.mpr ht)
    rw [hre _ _ hp] at ha
    exact ⟨row, e', hr, hh, ht, ha⟩

/-- **Leases are exclusive, and only their holder publishes**: for any number of processes, after
any interleaving of their steps from a database without locks. -/
theorem leases_exclusive (hreads : ReadsBack env) {start : T} {actions : List (Action T)}
    {w : World T} {outcomes : List (Outcome T)}
    (h : run env (World.init start) actions = some (w, outcomes)) :
    LeasesExclusive env w outcomes := by
  have hi : Inv env w := (run_inv h (inv_init env start)).1
  refine ⟨?_, ?_, ?_, ?_, ?_, hi.owned, hi.publishAlone⟩
  · intro lockId
    rcases hi.keyed.rowsOf_cases lockId with hro | ⟨row, hro⟩ <;> simp [hro]
  · intro b between after attempt a' r r' now n' hou ht ht' hid _
    rw [hou] at h
    obtain ⟨w₁, w₂, a, first, re, hf, hs, hre⟩ := run_split h
    obtain ⟨w₃, w₄, ac', s, re', hse, hs', -⟩ := run_split hre
    have hi₁ := (run_inv hf (inv_init env start)).1
    have hi₂ := step_inv hs hi₁
    obtain ⟨hr, ha⟩ := step_takes hs hi₁ ht
    have hi₃ := (run_inv hse hi₂).1
    obtain ⟨rfl, -⟩ := step_acquire hs'
    rcases run_row hreads hse hi₂ hr ha with ⟨hk, hl⟩ | he | hp
    · exact .inr (step_takes_passed hreads hs' hi₃ ht' hk hl hid.symm)
    · exact .inl he
    · exact .inr hp
  · intro lockId ho w' outcome hs row hr hot
    simp only [step, Option.ite_none_right_eq_some, Option.some.injEq, Prod.mk.injEq] at hs
    obtain ⟨-, rfl, -⟩ := hs
    exact mem_release.mpr ⟨hr, fun how => hot how.2⟩
  · intro lockId ho ac reason f tk w' outcome hs row hr hot
    simp only [step, Option.ite_none_right_eq_some, Option.some.injEq, Prod.mk.injEq] at hs
    obtain ⟨-, rfl, -⟩ := hs
    rcases releaseWithPolicy_cases (Prod.mk.eta (p := releaseAdvisoryLockWithPolicy env tk
        w.now lockId (some ho) ac reason f w.db)).symm with
      hsame | ⟨lock, -, -, -, -, hexpected, htable⟩
    · rwa [hsame]
    · rw [htable, mem_release]
      exact ⟨hr, fun how => hot (how.2.trans (hexpected ho rfl))⟩
  · intro a w' outcome en hs hn hol
    exact step_publishOwned hreads hi hs hn hol

end

/-- The times of the run below, in nanoseconds, and how they are printed. -/
def sampleTimes : List (ℤ × String) :=
  [(1767225600000000000, "2026-01-01T00:00:00.000000000Z"),
    (1767226200000000000, "2026-01-01T00:10:00.000000000Z"),
    (1767226201000000000, "2026-01-01T00:10:01.000000000Z"),
    (1767226801000000000, "2026-01-01T00:20:01.000000000Z")]

/-- An environment with these times. -/
def sampleEnv : Env ℤ where
  timestamp time := ((sampleTimes.find? fun entry => entry.1 = time).map Prod.snd).getD ""
  parseFromRfc3339 text := (sampleTimes.find? fun entry => entry.2 = text).map Prod.fst
  checkedAddSigned time secs := some (time + secs * 1000000000)
  generateAuditId n := toString n
  jsonToString := @Serde.Json.display Serde.serdeStrings
  hasWorkspace _ := false

theorem sampleEnv_readsBack : ReadsBack sampleEnv := by
  intro time t' h
  simp only [sampleEnv, Option.map_eq_some_iff] at h
  obtain ⟨en, he, rfl⟩ := h
  cases hf : sampleTimes.find? fun en => en.1 = time with
  | none =>
    have hem : sampleTimes.find? (fun en => en.2 = "") = none := by decide
    rw [hf, Option.map_none, Option.getD_none, hem] at he
    cases he
  | some p =>
    rw [hf] at he
    have hm := List.mem_of_find?_eq_some hf
    have ht : p.1 = time := by simpa using List.find?_some hf
    have hr : ∀ p ∈ sampleTimes, sampleTimes.find? (fun en => en.2 = p.2) = some p := by decide
    rw [Option.map_some, Option.getD_some, hr p hm] at he
    cases he
    exact ht

/-- An attempt to publish the index of `ws`. -/
def sampleAttempt (holderId now expiresAt : String) : Attempt :=
  ⟨.index "ws", holderId, some "index publish", now, some expiresAt⟩

/-- The first holder oversleeps its lease; the second takes it over and publishes, and a late
release by the first does not hurt it. -/
def sampleActions : List (Action ℤ) :=
  [.beginAcquire (.index "ws") "index:41:1" (some 600) (some "index publish"),
    .commitAcquire (sampleAttempt "index:41:1" "2026-01-01T00:00:00.000000000Z"
      "2026-01-01T00:10:00.000000000Z") fun _ => .ok (),
    .tick 1767226201000000000,
    .beginAcquire (.index "ws") "index:42:2" (some 600) (some "index publish"),
    .commitAcquire (sampleAttempt "index:42:2" "2026-01-01T00:10:01.000000000Z"
      "2026-01-01T00:20:01.000000000Z") fun _ => .ok (),
    .release (.index "ws") "index:41:1",
    .beginPublish "ws" "index:42:2"]

theorem sample_leases_exclusive : ∃ w outcomes,
    run sampleEnv (World.init 1767225600000000000) sampleActions = some (w, outcomes) ∧
      w.publishing = [("ws", "index:42:2")] ∧ LeasesExclusive sampleEnv w outcomes := by
  have h : (run sampleEnv (World.init 1767225600000000000) sampleActions).map
      (fun s => s.1.publishing) = some [("ws", "index:42:2")] := by decide +kernel
  obtain ⟨⟨w, outcomes⟩, hr, hp⟩ := Option.map_eq_some_iff.mp h
  exact ⟨w, outcomes, hr, hp, leases_exclusive sampleEnv_readsBack hr⟩

end AdvisoryLocks
