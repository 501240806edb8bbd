/-
# Cached graph results (`src/graph/algorithms.rs`)

Many threads run graph algorithms through one cache: results are looked up in memory and in the
database, and computed under a lock for their key where they are found in neither.  Each thread
is one cached run; between any two of its steps other threads run, time passes, other processes
write rows and unreferenced locks are cleaned up.

* `Inv` : the invariant over all runs, an instance of `KeyedLocks.Sound`;
* `waiter_returns_stored` : what a waiting thread returns.
-/
import EideticEngine.KeyedLocks
import EideticEngine.MachineInt

namespace GraphResultCache

open KeyedLocks (Table Sound Owns OnlyChanges)

/-! ## Results -/

/-- A row of the database: when it was computed, if that can be parsed, for how long it is good and
its result, if that can be deserialized. -/
structure Row (R : Type*) where
  computedAt : Option ℤ
  ttlSeconds : ℕ
  result : Option R
  deriving DecidableEq

structure InMemoryAlgorithmResult (R : Type*) where
  result : R
  expiresAt : Option ℕ

/-- What a run returns. -/
inductive Outcome (R : Type*) where
  | hit (result : R)
  | computed (result : R)
  | failed
  deriving DecidableEq

/-- The keys and lifetimes of the runs, and the last points in time of the clocks. -/
structure Runs (n : ℕ) (K : Type*) where
  key : Fin n → K
  ttlSeconds : Fin n → ℕ
  lastInstant : ℕ
  lastDate : ℤ

def nanosPerSecond : ℕ := 1000000000

/-- `Instant::checked_add`. -/
def expiryAfter (lastInstant instant ttlSeconds : ℕ) : Option ℕ :=
  if instant + ttlSeconds * nanosPerSecond ≤ lastInstant then
    some (instant + ttlSeconds * nanosPerSecond)
  else none

def expired (expiresAt : Option ℕ) (instant : ℕ) : Bool := expiresAt.any (· ≤ instant)

/-- A duration has at most `i64::MAX` milliseconds. -/
def cachedAlgorithmResultIsFresh {R : Type*} (lastDate : ℤ) (row : Row R) (utc : ℤ) : Bool :=
  match row.computedAt with
  | none => false
  | some computedAt =>
    if i64Max < row.ttlSeconds then true
    else if i64Max / 1000 < row.ttlSeconds then false
    else
      let expiresAt := computedAt + row.ttlSeconds * nanosPerSecond
      expiresAt ≤ lastDate && utc < expiresAt

/-! ## States -/

/-- Where a run is; the steps of a load are those of the first one or, under the lock, those of the
second. -/
inductive Phase (R : Type*) where
  /-- Before the look in memory. -/
  | lookup (locked : Bool)
  /-- Before the read of the row. -/
  | fetch (locked : Bool)
  /-- Before the read of the row under the hash of earlier versions. -/
  | fetchLegacy (locked : Bool)
  /-- A row was read. -/
  | checkFresh (locked : Bool) (row : Row R)
  /-- A result was loaded and goes to memory. -/
  | warm (locked : Bool) (result : R)
  /-- The expiry of the loaded result is noted. -/
  | warmInsert (locked : Bool) (result : R) (expiresAt : Option ℕ)
  /-- Before the call of `algorithm_cache_lock` is counted. -/
  | countCall
  /-- Before the look in the table of locks. -/
  | findLock (counterTick : ℕ)
  /-- The table had no lock. -/
  | makeLock (counterTick : ℕ)
  /-- Waiting for the lock. -/
  | waiting
  | computing
  /-- A result was computed. -/
  | persist (result : R)
  /-- The result is in the database and goes to memory. -/
  | keep (result : R)
  /-- The expiry of the computed result is noted. -/
  | keepInsert (result : R) (expiresAt : Option ℕ)
  /-- The guard is dropped next. -/
  | unlocking (outcome : Outcome R)
  /-- The reference to the lock is dropped next. -/
  | dropping (outcome : Outcome R)
  | done (outcome : Outcome R)
  deriving DecidableEq

namespace Phase

variable {R : Type*}

def afterHit (locked : Bool) (result : R) : Phase R :=
  if locked then unlocking (.hit result) else done (.hit result)

def afterMiss (locked : Bool) : Phase R := if locked then computing else countCall

def afterFailure (locked : Bool) : Phase R := if locked then unlocking .failed else done .failed

/-- The run holds the guard of its lock. -/
def hasGuard : Phase R → Bool
  | lookup locked | fetch locked | fetchLegacy locked | checkFresh locked _ | warm locked _
  | warmInsert locked _ _ => locked
  | countCall | findLock _ | makeLock _ | waiting => false
  | computing | persist _ | keep _ | keepInsert _ _ | unlocking _ => true
  | dropping _ | done _ => false

/-- The run has a reference to its lock. -/
def hasReference : Phase R → Bool
  | waiting | dropping _ => true
  | phase => phase.hasGuard

end Phase

structure State (n : ℕ) (K R : Type*) where
  instant : ℕ
  utc : ℤ
  locks : Table (Fin n) K
  lockCalls : ℕ
  memory : K → Option (InMemoryAlgorithmResult R)
  memoryStores : ℕ
  rows : K → Option (Row R)
  legacyRows : K → Option (Row R)
  phase : Fin n → Phase R

/-! ## Steps -/

/-- What the database or the algorithm answers. -/
inductive Choice (R : Type*) where
  | ok
  | fail
  | result (result : R)

def Choice.isFail {R : Type*} : Choice R → Bool
  | fail => true
  | _ => false

/-- A step of a run, or of the world around. -/
inductive Action (n : ℕ) (K R : Type*) where
  | advance (thread : Fin n) (choice : Choice R)
  | clock (instant : ℕ) (utc : ℤ)
  | writeRow (key : K) (row : Option (Row R))
  | writeLegacyRow (key : K) (row : Option (Row R))
  | cleanUpLocks

section

variable {n : ℕ} {K R : Type*} [DecidableEq K]

namespace State

variable (s : State n K R)

def goto (thread : Fin n) (phase : Phase R) : State n K R :=
  { s with phase := Function.update s.phase thread phase }

def loadInMemoryAlgorithmResult (key : K) : Option R :=
  match s.memory key with
  | none => none
  | some entry => if expired entry.expiresAt s.instant then none else some entry.result

def evictExpiredInMemoryAlgorithmResults : K → Option (InMemoryAlgorithmResult R) :=
  fun key => (s.memory key).filter fun entry => !expired entry.expiresAt s.instant

def storeInMemoryAlgorithmResult (key : K) (result : R) (expiresAt : Option ℕ) : State n K R :=
  let memory :=
    if s.memoryStores % 64 = 0 then s.evictExpiredInMemoryAlgorithmResults else s.memory
  { s with
    memory := Function.update memory key (some ⟨result, expiresAt⟩)
    memoryStores := s.memoryStores + 1 }

end State

variable (runs : Runs n K)

/-- The next step of a run; there is none where it waits or has returned. -/
def advance (thread : Fin n) (choice : Choice R) (s : State n K R) : Option (State n K R) :=
  let key := runs.key thread
  let expiry := expiryAfter runs.lastInstant s.instant (runs.ttlSeconds thread)
  match s.phase thread with
  | .lookup locked =>
    match s.loadInMemoryAlgorithmResult key with
    | some result => some (s.goto thread (.afterHit locked result))
    | none => some (s.goto thread (.fetch locked))
  | .fetch locked =>
    if choice.isFail then some (s.goto thread (.afterFailure locked))
    else
      match s.rows key with
      | some row => some (s.goto thread (.checkFresh locked row))
      | none => some (s.goto thread (.fetchLegacy locked))
  | .fetchLegacy locked =>
    if choice.isFail then some (s.goto thread (.afterFailure locked))
    else
      match s.legacyRows key with
      | some row => some (s.goto thread (.checkFresh locked row))
      | none => some (s.goto thread (.afterMiss locked))
  | .checkFresh locked row =>
    if cachedAlgorithmResultIsFresh runs.lastDate row s.utc then
      match row.result with
      | some result => some (s.goto thread (.warm locked result))
      | none => some (s.goto thread (.afterMiss locked))
    else if choice.isFail then some (s.goto thread (.afterFailure locked))
    else some (s.goto thread (.afterMiss locked))
  | .warm locked result => some (s.goto thread (.warmInsert locked result expiry))
  | .warmInsert locked result expiresAt =>
    some ((s.storeInMemoryAlgorithmResult key result expiresAt).goto thread
      (.afterHit locked result))
  | .countCall =>
    some ({ s with lockCalls := s.lockCalls + 1 }.goto thread (.findLock s.lockCalls))
  | .findLock counterTick =>
    match s.locks.find thread key with
    | some locks => some ({ s with locks := locks }.goto thread .waiting)
    | none => some (s.goto thread (.makeLock counterTick))
  | .makeLock counterTick =>
    let locks := if counterTick % 64 = 0 then s.locks.cleanUp else s.locks
    some ({ s with locks := locks.findOrMake thread key }.goto thread .waiting)
  | .waiting =>
    (s.locks.acquire thread).map fun locks => { s with locks := locks }.goto thread (.lookup true)
  | .computing =>
    match choice with
    | .ok => none
    | .fail => some (s.goto thread (.unlocking .failed))
    | .result result => some (s.goto thread (.persist result))
  | .persist result =>
    if choice.isFail then some (s.goto thread (.unlocking .failed))
    else
      let row : Row R := ⟨some s.utc, runs.ttlSeconds thread, some result⟩
      some ({ s with rows := Function.update s.rows key (some row) }.goto thread (.keep result))
  | .keep result => some (s.goto thread (.keepInsert result expiry))
  | .keepInsert result expiresAt =>
    some ((s.storeInMemoryAlgorithmResult key result expiresAt).goto thread
      (.unlocking (.computed result)))
  | .unlocking outcome =>
    some ({ s with locks := s.locks.release thread }.goto thread (.dropping outcome))
  | .dropping outcome =>
    some ({ s with locks := s.locks.drop thread }.goto thread (.done outcome))
  | .done _ => none

def step (s : State n K R) : Action n K R → Option (State n K R)
  | .advance thread choice => advance runs thread choice s
  | .clock instant utc =>
    if s.instant ≤ instant then some { s with instant := instant, utc := utc } else none
  | .writeRow key row => some { s with rows := Function.update s.rows key row }
  | .writeLegacyRow key row => some { s with legacyRows := Function.update s.legacyRows key row }
  | .cleanUpLocks => some { s with locks := s.locks.cleanUp }

/-- All runs are about to start, nothing is in memory and there are no locks. -/
structure Initial (s : State n K R) : Prop where
  locks : s.locks = Table.empty
  memory : ∀ key, s.memory key = none
  phase : ∀ thread, s.phase thread = .lookup false

/-- Steps one after the other, each of a kind. -/
inductive Steps (ok : State n K R → Action n K R → Prop) : State n K R → State n K R → Prop
  | refl {s : State n K R} : Steps ok s s
  | tail {s s' s'' : State n K R} {action : Action n K R} : Steps ok s s' → ok s' action →
      step runs s' action = some s'' → Steps ok s s''

def anyStep (_ : State n K R) (_ : Action n K R) : Prop := True

/-! ## What a step changes -/

/-- The change of the locks by a run that goes from one phase to another. -/
inductive LockMove (key : K) (thread : Fin n) (locks : Table (Fin n) K) :
    Phase R → Phase R → Table (Fin n) K → Prop
  | stay {before after : Phase R} : after.hasReference = before.hasReference →
      after.hasGuard = before.hasGuard → LockMove key thread locks before after locks
  | find {counterTick : ℕ} {locks' : Table (Fin n) K} : locks.find thread key = some locks' →
      LockMove key thread locks (.findLock counterTick) .waiting locks'
  | make {counterTick : ℕ} (clean : Bool) :
      LockMove key thread locks (.makeLock counterTick) .waiting
        ((if clean then locks.cleanUp else locks).findOrMake thread key)
  | acquire {locks' : Table (Fin n) K} : locks.acquire thread = some locks' →
      LockMove key thread locks .waiting (.lookup true) locks'
  | release {outcome : Outcome R} :
      LockMove key thread locks (.unlocking outcome) (.dropping outcome) (locks.release thread)
  | drop {outcome : Outcome R} :
      LockMove key thread locks (.dropping outcome) (.done outcome) (locks.drop thread)

/-- The change of the memory by a run in a phase. -/
inductive MemoryMove (key : K) (s : State n K R) :
    Phase R → (K → Option (InMemoryAlgorithmResult R)) → Prop
  | stay {before : Phase R} : MemoryMove key s before s.memory
  | warm {locked : Bool} {result : R} {expiresAt : Option ℕ} :
      MemoryMove key s (.warmInsert locked result expiresAt)
        (s.storeInMemoryAlgorithmResult key result expiresAt).memory
  | keep {result : R} {expiresAt : Option ℕ} :
      MemoryMove key s (.keepInsert result expiresAt)
        (s.storeInMemoryAlgorithmResult key result expiresAt).memory

theorem Phase.afterHit_locks (l : Bool) (r : R) : (afterHit l r).hasReference = l
      ∧ (afterHit l r).hasGuard = l := by
  cases l <;> exact ⟨rfl, rfl⟩

theorem Phase.afterMiss_locks (l : Bool) : (afterMiss l : Phase R).hasReference = l
      ∧ (afterMiss l : Phase R).hasGuard = l := by
  cases l <;> exact ⟨rfl, rfl⟩

theorem Phase.afterFailure_locks (l : Bool) : (afterFailure l : Phase R).hasReference = l
      ∧ (afterFailure l : Phase R).hasGuard = l := by
  cases l <;> exact ⟨rfl, rfl⟩

/-- The phase changes, the clock does not, and the locks and the memory change as the phase says. -/
structure Advances (thread : Fin n) (s s' : State n K R) (after : Phase R) : Prop where
  phase : s'.phase = Function.update s.phase thread after
  instant : s'.instant = s.instant
  locks : LockMove (runs.key thread) thread s.locks (s.phase thread) after s'.locks
  memory : MemoryMove (runs.key thread) s (s.phase thread) s'.memory

variable {runs} {thread : Fin n} {choice : Choice R} {s s' : State n K R}

/-- **Every step of a run**, in one case analysis. -/
theorem exists_advances (h : advance runs thread choice s = some s') :
    ∃ after, Advances runs thread s s' after := by
  -- a step that only moves to another phase
  have hg : ∀ after : Phase R, s.goto thread after = s' →
      after.hasReference = (s.phase thread).hasReference →
      after.hasGuard = (s.phase thread).hasGuard →
      ∃ after, Advances runs thread s s' after := by
    rintro after rfl hr hgu
    exact ⟨after, rfl, rfl, .stay hr hgu, .stay⟩
  unfold advance at h
  simp only at h
  cases hp : s.phase thread with
  | lookup l =>
    rw [hp] at h hg
    simp only at h
    split at h
    · obtain ⟨hr, hgu⟩ := Phase.afterHit_locks l _
      exact hg _ (Option.some.inj h) hr hgu
    · exact hg _ (Option.some.inj h) rfl rfl
  | fetch l =>
    rw [hp] at h hg
    simp only at h
    split at h
    · obtain ⟨hr, hgu⟩ := Phase.afterFailure_locks l
      exact hg _ (Option.some.inj h) hr hgu
    · split at h
      · exact hg _ (Option.some.inj h) rfl rfl
      · exact hg _ (Option.some.inj h) rfl rfl
  | fetchLegacy l =>
    rw [hp] at h hg
    simp only at h
    split at h
    · obtain ⟨hr, hgu⟩ := Phase.afterFailure_locks l
      exact hg _ (Option.some.inj h) hr hgu
    · split at h
      · exact hg _ (Option.some.inj h) rfl rfl
      · obtain ⟨hr, hgu⟩ := Phase.afterMiss_locks l
        exact hg _ (Option.some.inj h) hr hgu
  | checkFresh l row =>
    rw [hp] at h hg
    simp only at h
    split at h
    · split at h
      · exact hg _ (Option.some.inj h) rfl rfl
      · obtain ⟨hr, hgu⟩ := Phase.afterMiss_locks l
        exact hg _ (Option.some.inj h) hr hgu
    · split at h
      · obtain ⟨hr, hgu⟩ := Phase.afterFailure_locks l
        exact hg _ (Option.some.inj h) hr hgu
      · obtain ⟨hr, hgu⟩ := Phase.afterMiss_locks l
        exact hg _ (Option.some.inj h) hr hgu
  | warm l r =>
    rw [hp] at h hg
    exact hg _ (Option.some.inj h) rfl rfl
  | warmInsert l r expiresAt =>
    rw [hp] at h
    obtain ⟨hr, hgu⟩ := Phase.afterHit_locks l r
    obtain rfl := Option.some.inj h
    refine ⟨_, rfl, rfl, ?_, ?_⟩
    · rw [hp]
      exact .stay hr hgu
    · rw [hp]
      exact .warm
  | countCall =>
    rw [hp] at h
    obtain rfl := Option.some.inj h
    refine ⟨_, rfl, rfl, ?_, .stay⟩
    rw [hp]
    exact .stay rfl rfl
  | findLock ct =>
    rw [hp] at h hg
    simp only at h
    split at h
    · rename_i ls hf
      obtain rfl := Option.some.inj h
      refine ⟨_, rfl, rfl, ?_, .stay⟩
      rw [hp]
      exact .find hf
    · exact hg _ (Option.some.inj h) rfl rfl
  | makeLock ct =>
    rw [hp] at h
    obtain rfl := Option.some.inj h
    refine ⟨_, rfl, rfl, ?_, .stay⟩
    have hm : LockMove (runs.key thread) thread s.locks (.makeLock ct : Phase R)
        .waiting _ := .make (decide (ct % 64 = 0))
    simp only [decide_eq_true_eq] at hm
    rw [hp]
    exact hm
  | waiting =>
    rw [hp] at h
    obtain ⟨ls, ha, rfl⟩ := Option.map_eq_some_iff.mp h
    refine ⟨_, rfl, rfl, ?_, .stay⟩
    rw [hp]
    exact .acquire ha
  | computing =>
    rw [hp] at h hg
    simp only at h
    split at h
    · cases h
    · exact hg _ (Option.some.inj h) rfl rfl
    · exact hg _ (Option.some.inj h) rfl rfl
  | persist r =>
    rw [hp] at h hg
    simp only at h
    split at h
    · exact hg _ (Option.some.inj h) rfl rfl
    · obtain rfl := Option.some.inj h
      refine ⟨_, rfl, rfl, ?_, .stay⟩
      rw [hp]
      exact .stay rfl rfl
  | keep r =>
    rw [hp] at h hg
    exact hg _ (Option.some.inj h) rfl rfl
  | keepInsert r expiresAt =>
    rw [hp] at h
    obtain rfl := Option.some.inj h
    refine ⟨_, rfl, rfl, ?_, ?_⟩
    · rw [hp]
      exact .stay rfl rfl
    · rw [hp]
      exact .keep
  | unlocking outcome =>
    rw [hp] at h
    obtain rfl := Option.some.inj h
    refine ⟨_, rfl, rfl, ?_, .stay⟩
    rw [hp]
    exact .release
  | dropping outcome =>
    rw [hp] at h
    obtain rfl := Option.some.inj h
    refine ⟨_, rfl, rfl, ?_, .stay⟩
    rw [hp]
    exact .drop
  | done outcome =>
    rw [hp] at h
    cases h

/-- What the world around changes. -/
structure WorldMoves (s s' : State n K R) : Prop where
  phase : s'.phase = s.phase
  memory : s'.memory = s.memory
  instant : s.instant ≤ s'.instant
  locks : s'.locks = s.locks ∨ s'.locks = s.locks.cleanUp

/-- A step is one of a thread or one of the world. -/
theorem step_cases {a : Action n K R} (h : step runs s a = some s') :
    (∃ thread choice after, a = .advance thread choice ∧ Advances runs thread s s' after)
      ∨ WorldMoves s s' := by
  cases a with
  | advance thread choice =>
    obtain ⟨after, ha⟩ := exists_advances h
    exact .inl ⟨thread, choice, after, rfl, ha⟩
  | clock ins utc =>
    simp only [step] at h
    split at h
    · rename_i hle
      obtain rfl := Option.some.inj h
      exact .inr ⟨rfl, rfl, hle, .inl rfl⟩
    · cases h
  | writeRow key row =>
    obtain rfl := Option.some.inj h
    exact .inr ⟨rfl, rfl, le_rfl, .inl rfl⟩
  | writeLegacyRow key row =>
    obtain rfl := Option.some.inj h
    exact .inr ⟨rfl, rfl, le_rfl, .inl rfl⟩
  | cleanUpLocks =>
    obtain rfl := Option.some.inj h
    exact .inr ⟨rfl, rfl, le_rfl, .inr rfl⟩

/-! ## One thread at a time -/

variable (runs) in
/-- The locks are sound, and the phase of a run says what it has of its lock. -/
structure Inv (s : State n K R) : Prop where
  sound : Sound runs.key s.locks
  reference : ∀ thread, (s.locks.held thread).isSome = (s.phase thread).hasReference
  guard : ∀ thread, Owns s.locks thread ↔ (s.phase thread).hasGuard = true

omit [DecidableEq K] in
/-- The invariant holds at the start. -/
theorem Initial.inv (h : Initial s) : Inv runs s := by
  refine ⟨?_, fun thread => ?_, fun thread => ?_⟩
  · rw [h.locks]
    exact KeyedLocks.sound_empty
  · rw [h.locks, h.phase]
    rfl
  · rw [h.locks, h.phase]
    exact iff_of_false (KeyedLocks.not_owns_of_held rfl) Bool.false_ne_true

omit [DecidableEq K] in
/-- A run changes what it has of its lock as its phase says. -/
theorem Inv.of_change (h : Inv runs s) {after : Phase R}
    (hp : s'.phase = Function.update s.phase thread after)
    (hs : Sound runs.key s'.locks) (hf : OnlyChanges thread s.locks s'.locks)
    (hr : (s'.locks.held thread).isSome = after.hasReference)
    (hg : Owns s'.locks thread ↔ after.hasGuard = true) : Inv runs s' := by
  refine ⟨hs, fun other => ?_, fun other => ?_⟩
  · by_cases ho : other = thread
    · rw [ho, hp, Function.update_self]
      exact hr
    · rw [hp, Function.update_of_ne ho, (hf other ho).1]
      exact h.reference other
  · by_cases ho : other = thread
    · rw [ho, hp, Function.update_self]
      exact hg
    · rw [hp, Function.update_of_ne ho, (hf other ho).2]
      exact h.guard other

/-- **A step of a run keeps the invariant.** -/
theorem Inv.advances {after : Phase R} (h : Inv runs s)
    (hadvances : Advances runs thread s s' after) : Inv runs s' := by
  obtain ⟨hphase, -, hlocks, -⟩ := hadvances
  have hreference := h.reference thread
  have hguard := h.guard thread
  have hheld : (s.phase thread).hasReference = false → s.locks.held thread = none := by
    intro hnone
    rw [hnone] at hreference
    exact Option.isNone_iff_eq_none.mp (by simpa using hreference)
  have hclean : ∀ clean : Bool, Sound runs.key (if clean then s.locks.cleanUp else s.locks) := by
    intro clean
    cases clean with
    | false => exact h.sound
    | true => exact h.sound.cleanUp
  refine h.of_change hphase ?_ ?_ ?_ ?_
  all_goals
    generalize hbefore : s.phase thread = before at hlocks hreference hguard hheld
    generalize s'.locks = locks' at hlocks
  · cases hlocks with
    | stay _ _ => exact h.sound
    | find hfind => exact (h.sound.find (hheld rfl) hfind).1
    | make clean =>
      refine ((hclean clean).findOrMake ?_).1
      cases clean <;> exact hheld rfl
    | acquire hacquire => exact (h.sound.acquire hacquire).1
    | release => exact (h.sound.release (hguard.mpr rfl)).1
    | drop => exact (h.sound.drop fun howns => Bool.false_ne_true (hguard.mp howns)).1
  · cases hlocks with
    | stay _ _ => exact fun other _ => ⟨rfl, Iff.rfl⟩
    | find hfind => exact (h.sound.find (hheld rfl) hfind).2.2.2
    | make clean =>
      cases clean with
      | false => exact ((hclean false).findOrMake (hheld rfl)).2.2.2
      | true => exact ((hclean true).findOrMake (hheld rfl)).2.2.2
    | acquire hacquire => exact (h.sound.acquire hacquire).2.2.2
    | release => exact (h.sound.release (hguard.mpr rfl)).2.2.2
    | drop => exact (h.sound.drop fun howns => Bool.false_ne_true (hguard.mp howns)).2.2
  · cases hlocks with
    | stay href _ => rw [href, hreference]
    | find hfind => exact (h.sound.find (hheld rfl) hfind).2.1
    | make clean =>
      refine ((hclean clean).findOrMake ?_).2.1
      cases clean <;> exact hheld rfl
    | acquire hacquire => rw [(h.sound.acquire hacquire).2.1, hreference]; rfl
    | release => rw [(h.sound.release (hguard.mpr rfl)).2.1, hreference]; rfl
    | drop =>
      rw [(h.sound.drop fun howns => Bool.false_ne_true (hguard.mp howns)).2.1]
      rfl
  · cases hlocks with
    | stay _ hsame => rw [hsame, hguard]
    | find hfind => exact iff_of_false (h.sound.find (hheld rfl) hfind).2.2.1 Bool.false_ne_true
    | make clean =>
      refine iff_of_false ((hclean clean).findOrMake ?_).2.2.1 Bool.false_ne_true
      cases clean <;> exact hheld rfl
    | acquire hacquire => exact iff_of_true (h.sound.acquire hacquire).2.2.1 rfl
    | release =>
      exact iff_of_false (h.sound.release (hguard.mpr rfl)).2.2.1 Bool.false_ne_true
    | drop =>
      refine iff_of_false (KeyedLocks.not_owns_of_held ?_) Bool.false_ne_true
      exact (h.sound.drop fun howns => Bool.false_ne_true (hguard.mp howns)).2.1

/-- A step keeps the invariant. -/
theorem Inv.step {a : Action n K R} (h : Inv runs s) (hs : step runs s a = some s') :
    Inv runs s' := by
  rcases step_cases hs with ⟨thread, choice, after, rfl, ha⟩ | hw
  · exact h.advances ha
  · obtain ⟨hp, -, -, hl⟩ := hw
    rcases hl with hl | hl
    · refine ⟨?_, ?_, ?_⟩
      · rw [hl]
        exact h.sound
      · rw [hl, hp]
        exact h.reference
      · rw [hl, hp]
        exact h.guard
    · refine ⟨?_, ?_, ?_⟩
      · rw [hl]
        exact h.sound.cleanUp
      · rw [hl, hp]
        exact h.reference
      · rw [hl, hp]
        exact h.guard

/-- **The invariant holds in every state reached.** -/
theorem Inv.steps {ok : State n K R → Action n K R → Prop} (h : Inv runs s)
    (hs : Steps runs ok s s') : Inv runs s' := by
  induction hs with
  | refl => exact h
  | tail _ _ hst ih => exact ih.step hst

omit [DecidableEq K] in
/-- **At most one run holds the guard of a key.** -/
theorem Inv.eq_of_guard (h : Inv runs s) {other : Fin n} (hk : runs.key thread = runs.key other)
    (hg : (s.phase thread).hasGuard = true) (hg' : (s.phase other).hasGuard = true) :
    thread = other :=
  h.sound.eq_of_owns hk ((h.guard thread).mpr hg) ((h.guard other).mpr hg')

/-! ## What a waiting thread returns -/

/-- An entry with the second expiry lives at least as long as one with the first. -/
def Outlives (expiresAt later : Option ℕ) : Prop :=
  ∀ instant, expired later instant = true → expired expiresAt instant = true

variable (runs) in
/-- A result of a key that was loaded from the database does not replace another one that has
not expired in memory, nor shorten its life. -/
def KeepsUnexpired (key : K) (s : State n K R) : Action n K R → Prop
  | .advance thread _ =>
    runs.key thread = key →
    ∀ locked result expiresAt entry, s.phase thread = .warmInsert locked result expiresAt →
      s.memory key = some entry → expired entry.expiresAt s.instant = false →
        entry.result = result ∧ Outlives entry.expiresAt expiresAt
  | _ => True

variable (runs) in
/-- As long as it has not expired, the stored result stays in memory, and the runs that hold the
guard of its key are about to find it or about to give the guard back. -/
def Kept (key : K) (result : R) (expiresAt : Option ℕ) (s : State n K R) : Prop :=
  expired expiresAt s.instant = false →
    (∃ later, s.memory key = some ⟨result, later⟩ ∧ Outlives expiresAt later)
    ∧ ∀ thread, runs.key thread = key → (s.phase thread).hasGuard = true →
      s.phase thread = .lookup true ∨ ∃ outcome, s.phase thread = .unlocking outcome

theorem expired_mono {expiresAt : Option ℕ} {ins i' : ℕ} (hle : ins ≤ i')
    (h : expired expiresAt i' = false) : expired expiresAt ins = false := by
  cases expiresAt with
  | none => rfl
  | some e =>
    unfold expired at h ⊢
    simp only [Option.any_some, decide_eq_false_iff_not] at h ⊢
    omega

theorem Outlives.not_expired {expiresAt l : Option ℕ} {ins : ℕ}
    (h : Outlives expiresAt l) (hl : expired expiresAt ins = false) :
    expired l ins = false := by
  by_contra hexpired
  rw [Bool.not_eq_false] at hexpired
  rw [h ins hexpired] at hl
  cases hl

omit [DecidableEq K] in
theorem loadInMemory_of_memory {key : K} {en : InMemoryAlgorithmResult R}
    (h : s.memory key = some en) (hl : expired en.expiresAt s.instant = false) :
    s.loadInMemoryAlgorithmResult key = some en.result := by
  unfold State.loadInMemoryAlgorithmResult
  rw [h]
  simp only
  rw [hl]
  rfl

/-- Storing under another key keeps an entry that has not expired. -/
theorem memory_store_of_ne {key k' : K} {en : InMemoryAlgorithmResult R} (r : R)
    (expiresAt : Option ℕ) (hne : key ≠ k') (h : s.memory key = some en)
    (hl : expired en.expiresAt s.instant = false) :
    (s.storeInMemoryAlgorithmResult k' r expiresAt).memory key = some en := by
  unfold State.storeInMemoryAlgorithmResult
  simp only
  rw [Function.update_of_ne hne]
  split
  · unfold State.evictExpiredInMemoryAlgorithmResults
    rw [h, Option.filter_some, hl]
    rfl
  · exact h

theorem memory_store_self (key : K) (r : R) (expiresAt : Option ℕ) :
    (s.storeInMemoryAlgorithmResult key r expiresAt).memory key = some ⟨r, expiresAt⟩ :=
  Function.update_self ..

/-- Under the lock, a run that finds a result returns it. -/
theorem advance_lookup {r : R} (hp : s.phase thread = .lookup true)
    (hl : s.loadInMemoryAlgorithmResult (runs.key thread) = some r) :
    advance runs thread choice s = some (s.goto thread (.unlocking (.hit r))) := by
  unfold advance
  rw [hp]
  simp only
  rw [hl]
  rfl

/-- A run gets the guard only by way of the lock. -/
theorem LockMove.guard {key : K} {ls ls' : Table (Fin n) K} {b after : Phase R}
    (h : LockMove key thread ls b after ls') (hg : after.hasGuard = true) :
    b.hasGuard = true ∨ after = .lookup true := by
  cases h with
  | stay _ hs => exact .inl (hs ▸ hg)
  | find _ => cases hg
  | make _ => cases hg
  | acquire _ => exact .inr rfl
  | release => cases hg
  | drop => cases hg

theorem advance_unlocking {outcome : Outcome R} (hp : s.phase thread = .unlocking outcome) :
    advance runs thread choice s
      = some ({ s with locks := s.locks.release thread }.goto thread (.dropping outcome)) := by
  unfold advance
  rw [hp]

theorem advance_dropping {outcome : Outcome R} (hp : s.phase thread = .dropping outcome) :
    advance runs thread choice s
      = some ({ s with locks := s.locks.drop thread }.goto thread (.done outcome)) := by
  unfold advance
  rw [hp]

theorem advance_done {outcome : Outcome R} (hp : s.phase thread = .done outcome) :
    advance runs thread choice s = none := by
  unfold advance
  rw [hp]

omit [DecidableEq K] in
theorem phase_goto (s : State n K R) (thread : Fin n) (p : Phase R) :
    (s.goto thread p).phase thread = p := Function.update_self ..

/-- **The stored result stays** through a step that does not replace it. -/
theorem Kept.advance {key : K} {r : R} {expiresAt : Option ℕ} (hke : Kept runs key r expiresAt s)
    (hok : KeepsUnexpired runs key s (.advance thread choice))
    (ha : advance runs thread choice s = some s') : Kept runs key r expiresAt s' := by
  obtain ⟨after, hp, hi, hloc, hm⟩ := exists_advances ha
  intro hli
  rw [hi] at hli
  obtain ⟨⟨l, hme, ho⟩, hgu⟩ := hke hli
  have hl := ho.not_expired hli
  have haf : s'.phase thread = after := by rw [hp, Function.update_self]
  constructor
  · by_cases hk : key = runs.key thread
    · generalize hb : s.phase thread = b at hm
      generalize hm' : s'.memory = m' at hm
      cases hm with
      | stay => exact ⟨l, hme, ho⟩
      | @warm loc lo lex =>
        obtain ⟨hs, hlo⟩ := hok hk.symm loc lo lex _ hb hme hl
        refine ⟨lex, ?_, fun ins he => ho ins (hlo ins he)⟩
        simp only at hs
        rw [hk, memory_store_self, hs]
      | @keep c ce =>
        -- the run would hold the guard of the key in a phase in which no run does
        rcases hgu thread hk.symm (by rw [hb]; rfl) with hp' | ⟨outcome, hp'⟩
        · rw [hb] at hp'
          cases hp'
        · rw [hb] at hp'
          cases hp'
    · generalize s.phase thread = b at hm
      generalize s'.memory = m' at hm ⊢
      cases hm with
      | stay => exact ⟨l, hme, ho⟩
      | warm => exact ⟨l, memory_store_of_ne _ _ hk hme hl, ho⟩
      | keep => exact ⟨l, memory_store_of_ne _ _ hk hme hl, ho⟩
  · intro other hot hg
    by_cases ht : other = thread
    · subst ht
      rw [haf] at hg ⊢
      rcases hloc.guard hg with hb | hb
      · rcases hgu other hot hb with hloo | ⟨outcome, hu⟩
        · have hloa := loadInMemory_of_memory (hot ▸ hme) hl
          rw [advance_lookup hloo hloa] at ha
          obtain rfl := Option.some.inj ha
          rw [phase_goto] at haf
          exact .inr ⟨_, haf.symm⟩
        · rw [advance_unlocking hu] at ha
          obtain rfl := Option.some.inj ha
          rw [phase_goto] at haf
          rw [← haf] at hg
          cases hg
      · exact .inl hb
    · rw [hp, Function.update_of_ne ht] at hg ⊢
      exact hgu other hot hg

/-- An unexpired result stays through a step. -/
theorem Kept.step {key : K} {r : R} {expiresAt : Option ℕ} {a : Action n K R}
    (hk : Kept runs key r expiresAt s) (hok : KeepsUnexpired runs key s a)
    (hs : step runs s a = some s') : Kept runs key r expiresAt s' := by
  rcases step_cases hs with ⟨thread, choice, after, rfl, -⟩ | hw
  · exact hk.advance hok hs
  · obtain ⟨hp, hm, hi, -⟩ := hw
    intro hl
    obtain ⟨hme, hg⟩ := hk (expired_mono hi hl)
    rw [hm, hp]
    exact ⟨hme, hg⟩

/-- An unexpired result stays through a run. -/
theorem Kept.steps {key : K} {r : R} {expiresAt : Option ℕ} (hk : Kept runs key r expiresAt s)
    (hs : Steps runs (KeepsUnexpired runs key) s s') : Kept runs key r expiresAt s' := by
  induction hs with
  | refl => exact hk
  | tail _ hok hst ih => exact ih.step hok hst

/-- Storing a computed result under the lock puts it in memory, where it is the only one. -/
theorem kept_of_keepInsert {r : R} {expiresAt : Option ℕ} (hi : Inv runs s)
    (hp : s.phase thread = .keepInsert r expiresAt)
    (ha : advance runs thread choice s = some s') :
    Kept runs (runs.key thread) r expiresAt s' := by
  unfold GraphResultCache.advance at ha
  rw [hp] at ha
  obtain rfl := Option.some.inj ha
  refine fun _ => ⟨⟨expiresAt, memory_store_self _ _ _, fun _ h => h⟩, fun other hk hg => ?_⟩
  by_cases ho : other = thread
  · rw [ho, phase_goto]
    exact .inr ⟨_, rfl⟩
  · change (Function.update s.phase thread _ other).hasGuard = true at hg
    rw [Function.update_of_ne ho] at hg
    exact absurd (hi.eq_of_guard hk hg (by rw [hp]; rfl)) ho

/-- The run has found the result or has returned it. -/
def Returns (result : R) (phase : Phase R) : Prop :=
  phase = .unlocking (.hit result) ∨ phase = .dropping (.hit result) ∨ phase = .done (.hit result)

/-- What a thread is about to return stays. -/
theorem Returns.step {r : R} {a : Action n K R} (h : Returns r (s.phase thread))
    (hs : step runs s a = some s') : Returns r (s'.phase thread) := by
  rcases step_cases hs with ⟨other, choice, after, rfl, ha⟩ | hw
  · by_cases ho : thread = other
    · subst ho
      change GraphResultCache.advance runs thread choice s = some s' at hs
      rcases h with hp | hp | hp
      · rw [advance_unlocking hp] at hs
        obtain rfl := Option.some.inj hs
        exact .inr (.inl (phase_goto _ _ _))
      · rw [advance_dropping hp] at hs
        obtain rfl := Option.some.inj hs
        exact .inr (.inr (phase_goto _ _ _))
      · rw [advance_done hp] at hs
        cases hs
    · rw [ha.phase, Function.update_of_ne ho]
      exact h
  · rw [hw.phase]
    exact h

theorem Returns.steps {ok : State n K R → Action n K R → Prop} {r : R}
    (h : Returns r (s.phase thread)) (hs : Steps runs ok s s') :
    Returns r (s'.phase thread) := by
  induction hs with
  | refl => exact h
  | tail _ _ hst ih => exact ih.step hst

variable (runs R) in
/-- No two threads compute one key at the same time. -/
def ComputedByOne : Prop :=
  ∀ start s : State n K R, Initial start → Steps runs anyStep start s →
    ∀ thread other, runs.key thread = runs.key other → s.phase thread = .computing →
      s.phase other = .computing → thread = other

variable (runs) in
/-- A run that waits while another one stores the result that it computed, and then gets the lock
before that result has expired, returns the result as a hit; the steps in between are of a
kind, which may depend on the key. -/
def WaiterReturns (ok : K → State n K R → Action n K R → Prop) : Prop :=
  ∀ start s s₁ s₂ s₃ s₄ : State n K R, Initial start → Steps runs anyStep start s →
    ∀ winner waiter choice choice' result expiresAt,
      s.phase winner = .keepInsert result expiresAt → s.phase waiter = .waiting →
      runs.key winner = runs.key waiter → step runs s (.advance winner choice) = some s₁ →
      Steps runs (ok (runs.key winner)) s₁ s₂ → s₂.phase waiter = .lookup true →
      expired expiresAt s₂.instant = false → step runs s₂ (.advance waiter choice') = some s₃ →
      Steps runs anyStep s₃ s₄ → Returns result (s₄.phase waiter)

/-- **Graph results are computed by one thread at a time per key**, in every run; and a thread that
waited returns the result that was stored, in every run in which no result from the database
replaces another one of its key in memory that has not expired. -/
theorem graph_results_one_thread_per_key (runs : Runs n K) (R : Type*) :
    ComputedByOne R runs ∧ WaiterReturns runs (KeepsUnexpired (R := R) runs) := by
  constructor
  · intro start s hi hs thread other hk ht hot
    have hin : Inv runs s := Inv.steps hi.inv hs
    refine hin.eq_of_guard hk ?_ ?_
    · rw [ht]
      rfl
    · rw [hot]
      rfl
  · intro start s s₁ s₂ s₃ s₄ hi hs winner w choice c' r expiresAt
      hwinner _ hk hstore hbetween hwaiter hlive hlookup hafter
    have hin : Inv runs s := Inv.steps hi.inv hs
    have hke := (kept_of_keepInsert hin hwinner hstore).steps hbetween
    obtain ⟨⟨l, hm, ho⟩, -⟩ := hke hlive
    have hl := loadInMemory_of_memory (hk ▸ hm) (ho.not_expired hlive)
    change advance runs w c' s₂ = some s₃ at hlookup
    rw [advance_lookup hwaiter hl] at hlookup
    obtain rfl := Option.some.inj hlookup
    exact Returns.steps (.inl (phase_goto _ _ _)) hafter

/-! ## A result from the database that comes late -/

variable (runs) in
/-- Several steps, one after the other. -/
def runActions (s : State n K R) (actions : List (Action n K R)) : Option (State n K R) :=
  actions.foldlM (step runs) s

theorem steps_runActions {as : List (Action n K R)} (h : runActions runs s as = some s') :
    Steps runs anyStep s s' := by
  unfold runActions at h
  induction as using List.reverseRecOn generalizing s' with
  | nil =>
    obtain rfl := Option.some.inj h
    exact .refl
  | append_singleton as a ih =>
    rw [List.foldlM_append] at h
    obtain ⟨m, hm, hl⟩ := Option.bind_eq_some_iff.mp h
    rw [List.foldlM_cons] at hl
    obtain ⟨f, hf, hp⟩ := Option.bind_eq_some_iff.mp hl
    obtain rfl := Option.some.inj hp
    exact .tail (ih hm) trivial hf

end

/-- Three runs with one key whose results are good for ten seconds. -/
def threeRuns : Runs 3 Unit := ⟨fun _ => (), fun _ => 10, 10 ^ 18, 10 ^ 18⟩

/-- The database has a row that is good for five more seconds. -/
def agingRow : State 3 Unit ℕ where
  instant := 0
  utc := 5000000000
  locks := .empty
  lockCalls := 0
  memory := fun _ => none
  memoryStores := 0
  rows := fun _ => some ⟨some 0, 10, some 1⟩
  legacyRows := fun _ => none
  phase := fun _ => .lookup false

def steps (thread : Fin 3) (count : ℕ) : List (Action 3 Unit ℕ) :=
  List.replicate count (.advance thread .ok)

/-- The first run reads the row while it is fresh.  When it is not any more, the second run takes
the lock and computes, and the third one waits. -/
def untilStored : List (Action 3 Unit ℕ) :=
  steps 0 3 ++ [Action.clock 6000000000 11000000000] ++ steps 1 10 ++ steps 2 5
    ++ [Action.advance 1 (.result 2)] ++ steps 1 2

/-- The second run stores its result; then the first one puts the old one in its place. -/
def untilLocked : List (Action 3 Unit ℕ) := steps 0 2 ++ steps 1 1 ++ steps 2 1

def storedState : State 3 Unit ℕ := ((runActions threeRuns agingRow untilStored).getD agingRow)

def keptState : State 3 Unit ℕ := (step threeRuns storedState (.advance 1 .ok)).getD agingRow

def lockedState : State 3 Unit ℕ := (runActions threeRuns keptState untilLocked).getD agingRow

def foundState : State 3 Unit ℕ := (step threeRuns lockedState (.advance 2 .ok)).getD agingRow

theorem eq_some_getD {α : Type*} {o : Option α} {d : α} (h : o.isSome = true) :
    o = some (o.getD d) := by
  cases o with
  | none => cases h
  | some a => rfl

/-- **A waiting thread may return another result than the one that was stored**: one that was read
from the database earlier and that had expired there when the other was computed. -/
theorem waiter_returns_late_row : ¬ WaiterReturns threeRuns (R := ℕ) fun _ => anyStep := by
  intro h
  have hs : runActions threeRuns agingRow untilStored = some storedState :=
    eq_some_getD (by decide +kernel)
  have hk : step threeRuns storedState (.advance 1 .ok) = some keptState :=
    eq_some_getD (by decide +kernel)
  have hl : runActions threeRuns keptState untilLocked = some lockedState :=
    eq_some_getD (by decide +kernel)
  have hf : step threeRuns lockedState (.advance 2 .ok) = some foundState :=
    eq_some_getD (by decide +kernel)
  have hr := h agingRow storedState keptState lockedState foundState foundState
    ⟨rfl, fun _ => rfl, fun _ => rfl⟩ (steps_runActions hs) 1 2 .ok .ok 2 (some 16000000000)
    (by decide +kernel) (by decide +kernel) rfl hk (steps_runActions hl)
    (by decide +kernel) (by decide +kernel) hf .refl
  have hp : foundState.phase 2 = .unlocking (.hit 1) := by decide +kernel
  rw [hp] at hr
  rcases hr with heq | heq | heq
  · cases heq
  · cases heq
  · cases heq

end GraphResultCache
