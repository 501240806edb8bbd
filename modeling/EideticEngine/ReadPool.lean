/-
# The read connection pool

A pool hands out read connections under a lock: an idle one, a new one while there is room,
or, after the acquire timeout, one outside the pool.  A slot is reserved before its
connection is opened and handed back on several ways out.  A snapshot pin holds a connection
with an open read transaction and is registered while it does.

Readers interleave at the critical sections of the pool.  Which idle connections and pins are
too old, whether a wait has timed out and how each database call ends is up to the run.
-/
import Mathlib
import EideticEngine.MachineInt

namespace ReadPool

/-! ## The state under the lock -/

/-- The requested size of `PoolConfig`. -/
structure PoolConfig where
  requestedMaxSize : ℕ

/-- `PoolConfig::max_size`. -/
def PoolConfig.maxSize (config : PoolConfig) : ℕ :=
  if config.requestedMaxSize = 0 then 1 else config.requestedMaxSize

/-- `IdleConnection`, with whether its connection has a snapshot transaction open. -/
structure IdleConnection where
  slotId : ℕ
  openTransaction : Bool
  deriving DecidableEq

/-- `ActivePinRecord`. -/
structure ActivePinRecord where
  slotId : Option ℕ
  poisoned : Bool
  deriving DecidableEq

/-- `PoolState`. -/
structure PoolState where
  active : ℕ
  idle : List IdleConnection
  nextSlotId : ℕ
  nextPinId : ℕ
  activePins : List (ℕ × ActivePinRecord)
  maxSeen : ℕ
  drops : ℕ
  releaseFailures : ℕ
  adHocBypassCount : ℕ
  deriving DecidableEq

/-- The state of a new pool. -/
def PoolState.new : PoolState := ⟨0, [], 1, 1, [], 0, 0, 0, 0⟩

/-- `allocate_next_read_pool_id`: the id and the next one; `none` is its panic. -/
def allocateNextReadPoolId (nextId : ℕ) : Option (ℕ × ℕ) :=
  if nextId + 1 ≤ u64Max then some (nextId, nextId + 1) else none

/-- `checked_increment_pool_counter`; `none` is its panic. -/
def checkedIncrementPoolCounter (count : ℕ) : Option ℕ :=
  if count + 1 ≤ u64Max then some (count + 1) else none

/-- `checked_pool_count_add`. -/
def checkedPoolCountAdd (left right : ℕ) (label : String) : Except String ℕ :=
  if left + right ≤ u64Max then .ok (left + right)
  else .error ("read-pool " ++ label ++ " count overflow")

/-- `pool_occupancy`. -/
def poolOccupancy (state : PoolState) : Except String ℕ :=
  checkedPoolCountAdd state.active state.idle.length "occupancy"

/-- `increment_pool_active`. -/
def incrementPoolActive (state : PoolState) : Except String PoolState :=
  (checkedPoolCountAdd state.active 1 "active").map fun active => { state with active }

/-- `decrement_pool_active`; `none` is the underflow panic. -/
def decrementPoolActive (state : PoolState) : Option PoolState :=
  if state.active = 0 then none else some { state with active := state.active - 1 }

/-- The loop of `evict_expired_idle`: what is retained and the counter of drops; `none` is
the panic of the counter. -/
def evictExpiredIdle (old : IdleConnection → Bool) :
    List IdleConnection → ℕ → Option (List IdleConnection × ℕ)
  | [], drops => some ([], drops)
  | idle :: rest, drops =>
    if old idle then
      match checkedIncrementPoolCounter drops with
      | none => none
      | some drops => evictExpiredIdle old rest drops
    else (evictExpiredIdle old rest drops).map fun result => (idle :: result.1, result.2)

/-- How one round of the loop of `acquire` ends. -/
inductive Attempt where
  | reused (idle : IdleConnection)
  | reserved (slotId : ℕ)
  | bypass
  | retry
  | failed

/-- One round of the loop of `acquire`, under the lock. -/
def attempt (config : PoolConfig) (old : IdleConnection → Bool) (timedOut : Bool)
    (state : PoolState) : Attempt × PoolState :=
  match evictExpiredIdle old state.idle state.drops with
  -- the panic inside the drain leaves no idle connection behind
  | none => (.failed, { state with idle := [], drops := u64Max })
  | some (retained, drops) =>
    let state := { state with idle := retained, drops }
    match poolOccupancy state with
    | .error _ => (.failed, state)
    | .ok occupancy =>
      match state.idle.getLast? with
      | some idle =>
        let state := { state with idle := state.idle.dropLast }
        match incrementPoolActive state with
        | .error _ => (.failed, state)
        | .ok state => (.reused idle, { state with maxSeen := max state.maxSeen occupancy })
      | none =>
        if occupancy < config.maxSize then
          match allocateNextReadPoolId state.nextSlotId with
          | none => (.failed, state)
          | some (slotId, nextSlotId) =>
            let state := { state with nextSlotId }
            match incrementPoolActive state with
            | .error _ => (.failed, state)
            | .ok state =>
              (.reserved slotId, { state with maxSeen := max state.maxSeen (occupancy + 1) })
        else if timedOut then
          match checkedIncrementPoolCounter state.adHocBypassCount with
          | none => (.failed, state)
          | some adHocBypassCount => (.bypass, { state with adHocBypassCount })
        else (.retry, state)

/-- How a section that lowers the active count ends: by the underflow panic, by the panic of
an exhausted counter behind it, or normally. -/
inductive Section where
  | underflow
  | exhausted (state : PoolState)
  | done (state : PoolState)

/-- The counter of drops goes up. -/
def countDrop (state : PoolState) : Section :=
  match checkedIncrementPoolCounter state.drops with
  | none => .exhausted state
  | some drops => .done { state with drops }

/-- `release` under the lock. -/
def release (config : PoolConfig) (slotId : ℕ) (openTransaction : Bool) (state : PoolState) :
    Section :=
  match decrementPoolActive state with
  | none => .underflow
  | some state =>
    if state.idle.length < config.maxSize then
      .done { state with idle := state.idle ++ [⟨slotId, openTransaction⟩] }
    else countDrop state

/-- `abandon` under the lock. -/
def abandon (state : PoolState) : Section :=
  match decrementPoolActive state with
  | none => .underflow
  | some state => countDrop state

/-- `note_release_failure`. -/
def noteReleaseFailure (state : PoolState) : PoolState :=
  match checkedIncrementPoolCounter state.releaseFailures with
  | none => state
  | some releaseFailures => { state with releaseFailures }

/-- `register_pin`: the id of the pin; `none` is the panic of its allocation. -/
def registerPin (slotId : Option ℕ) (state : PoolState) : Option (ℕ × PoolState) :=
  (allocateNextReadPoolId state.nextPinId).map fun ids =>
    (ids.1, { state with
      nextPinId := ids.2
      activePins := state.activePins.filter (fun pin => pin.1 ≠ ids.1)
        ++ [(ids.1, ⟨slotId, false⟩)] })

/-- `unregister_pin` of the pool. -/
def unregisterPin (pinId : ℕ) (state : PoolState) : PoolState :=
  { state with activePins := state.activePins.filter fun pin => pin.1 ≠ pinId }

/-- The flag of the chosen pins is set: `expire_stale_pins`, `force_poison_active_pins`, and
a pin that finds itself expired. -/
def poisonPins (old : ℕ → Bool) (state : PoolState) : PoolState :=
  { state with
    activePins := state.activePins.map fun pin =>
      (pin.1, { pin.2 with poisoned := pin.2.poisoned || old pin.1 }) }

/-! ## Readers -/

/-- `PooledReadConnection` while it has its connection; without a slot it is outside the
pool. -/
structure PooledReadConnection where
  slotId : Option ℕ
  openTransaction : Bool
  deriving DecidableEq

/-- `SnapshotPin`; `pooled` is whether it knows the pool. -/
structure SnapshotPin where
  pooled : Bool
  connection : PooledReadConnection
  snapshotActive : Bool
  pinId : Option ℕ
  deriving DecidableEq

/-- What a reader asked for: `acquire`, or `acquire_snapshot` with its argument. -/
inductive Purpose where
  | plain
  | snapshot (pinSnapshot : Bool)
  deriving DecidableEq

/-- Where a reader stands. -/
inductive Reader where
  | acquiring (purpose : Purpose)
  | opening (purpose : Purpose) (slotId : ℕ)
  | openingAdHoc (purpose : Purpose)
  | holding (connection : PooledReadConnection)
  | beginning (pin : SnapshotPin)
  | reading (pin : SnapshotPin)
  | registering (pin : SnapshotPin)
  | pinning (pin : SnapshotPin)
  | committed (pin : SnapshotPin)
  | rollingBack (pin : SnapshotPin)
  | abandoning (pin : SnapshotPin)
  | noting (pooled : Bool)
  | releasing (connection : PooledReadConnection)
  | gone
  deriving DecidableEq

/-- How a statement on the connection ends: an error may leave a transaction open. -/
inductive SqlOutcome where
  | done
  | failed (openAfter : Bool)
  deriving DecidableEq

/-- The next move of a reader. -/
inductive Move where
  | attempt (old : IdleConnection → Bool) (timedOut : Bool)
  | opened (success : Bool)
  | begun (outcome : SqlOutcome)
  | firstRead (success : Bool)
  | register
  | commit (expired : Bool) (outcome : SqlOutcome)
  | rollback
  | unregister
  | rolledBack (outcome : SqlOutcome)
  | abandon
  | noteFailure
  | drop

/-- The connection after a statement. -/
def PooledReadConnection.after (connection : PooledReadConnection) (openAfter : Bool) :
    PooledReadConnection :=
  { connection with openTransaction := openAfter }

/-- A connection was acquired: `acquire_snapshot` puts it under a pin before the first
statement. -/
def acquired (connection : PooledReadConnection) : Purpose → Reader
  | .plain => .holding connection
  | .snapshot pinSnapshot =>
    let pin : SnapshotPin := ⟨pinSnapshot, connection, pinSnapshot, none⟩
    if pinSnapshot then .beginning pin else .pinning pin

/-- `SnapshotPin::unregister_pin`. -/
def SnapshotPin.unregister (pin : SnapshotPin) (state : PoolState) : SnapshotPin × PoolState :=
  match pin.pinId with
  | some pinId =>
    ({ pin with pinId := none }, if pin.pooled then unregisterPin pinId state else state)
  | none => (pin, state)

/-- The beginning of `rollback` and `rollback_on_drop`, up to the statement. -/
def SnapshotPin.endSnapshot (pin : SnapshotPin) (state : PoolState) : Reader × PoolState :=
  if pin.snapshotActive then
    let result := { pin with snapshotActive := false }.unregister state
    (.rollingBack result.1, result.2)
  else (.releasing pin.connection, state)

/-- `is_poisoned` of a registered pin. -/
def SnapshotPin.isPoisoned (pin : SnapshotPin) (state : PoolState) : Bool :=
  state.activePins.any fun entry => some entry.1 = pin.pinId ∧ entry.2.poisoned

/-- `commit` up to the end of its statement. -/
def SnapshotPin.commit (pin : SnapshotPin) (expired : Bool) (outcome : SqlOutcome)
    (state : PoolState) : Reader × PoolState :=
  if pin.snapshotActive then
    let state :=
      if expired then poisonPins (fun pinId => some pinId = pin.pinId) state else state
    if pin.isPoisoned state then pin.endSnapshot state
    else
      match outcome with
      | .done =>
        (.committed { pin with
          connection := pin.connection.after false
          snapshotActive := false }, state)
      | .failed openAfter =>
        { pin with connection := pin.connection.after openAfter }.endSnapshot state
  else (.releasing pin.connection, state)

/-- The reader, the state and the underflow flag after a section; a panic ends the reader. -/
def afterSection (state : PoolState) (next : Reader) : Section → Reader × PoolState × Bool
  | .underflow => (.gone, state, true)
  | .exhausted state => (.gone, state, false)
  | .done state => (next, state, false)

/-- A reader makes a move: local work and at most one critical section.  The last component
says that the active count underflowed. -/
def Reader.advance (config : PoolConfig) (state : PoolState) :
    Reader → Move → Reader × PoolState × Bool
  | .acquiring purpose, .attempt old timedOut =>
    match ReadPool.attempt config old timedOut state with
    | (.reused idle, state) =>
      (acquired ⟨some idle.slotId, idle.openTransaction⟩ purpose, state, false)
    | (.reserved slotId, state) => (.opening purpose slotId, state, false)
    | (.bypass, state) => (.openingAdHoc purpose, state, false)
    | (.retry, state) => (.acquiring purpose, state, false)
    | (.failed, state) => (.gone, state, false)
  | .opening purpose slotId, .opened success =>
    if success then (acquired ⟨some slotId, false⟩ purpose, state, false)
    else
      match decrementPoolActive state with
      | none => (.gone, state, true)
      | some state => (.gone, state, false)
  | .openingAdHoc purpose, .opened success =>
    if success then (acquired ⟨none, false⟩ purpose, state, false) else (.gone, state, false)
  | .beginning pin, .begun .done =>
    (.reading { pin with connection := pin.connection.after true }, state, false)
  | .beginning pin, .begun (.failed openAfter) =>
    let result := { pin with connection := pin.connection.after openAfter }.endSnapshot state
    (result.1, result.2, false)
  | .reading pin, .firstRead success =>
    if success then (.registering pin, state, false)
    else
      let result := pin.endSnapshot state
      (result.1, result.2, false)
  | .registering pin, .register =>
    match registerPin pin.connection.slotId state with
    | some (pinId, state) => (.pinning { pin with pinId := some pinId }, state, false)
    | none =>
      let result := pin.endSnapshot state
      (result.1, result.2, false)
  | .pinning pin, .commit expired outcome =>
    let result := pin.commit expired outcome state
    (result.1, result.2, false)
  | .pinning pin, .rollback | .pinning pin, .drop =>
    let result := pin.endSnapshot state
    (result.1, result.2, false)
  | .committed pin, .unregister =>
    let result := pin.unregister state
    (.releasing result.1.connection, result.2, false)
  | .rollingBack pin, .rolledBack .done =>
    (.releasing (pin.connection.after false), state, false)
  | .rollingBack pin, .rolledBack (.failed openAfter) =>
    (.abandoning { pin with connection := pin.connection.after openAfter }, state, false)
  | .abandoning pin, .abandon =>
    match pin.connection.slotId with
    | some _ => afterSection state (.noting pin.pooled) (ReadPool.abandon state)
    | none => (.noting pin.pooled, state, false)
  | .noting pooled, .noteFailure =>
    (.gone, if pooled then noteReleaseFailure state else state, false)
  | .holding connection, .drop => (.releasing connection, state, false)
  | .releasing connection, .drop =>
    match connection.slotId with
    | some slotId =>
      afterSection state .gone (release config slotId connection.openTransaction state)
    | none => (.gone, state, false)
  | reader, _ => (reader, state, false)

/-- The pool and its readers, and whether the active count has ever underflowed. -/
structure World where
  state : PoolState
  readers : List Reader
  underflow : Bool

/-- A new pool. -/
def World.start : World := ⟨.new, [], false⟩

/-- What can happen next: a new reader, a move of a reader, or an expiry of pins. -/
inductive Event where
  | arrive (purpose : Purpose)
  | move (i : ℕ) (m : Move)
  | expire (old : ℕ → Bool)

/-- One event. -/
def World.step (config : PoolConfig) (w : World) : Event → World
  | .arrive purpose => { w with readers := w.readers ++ [.acquiring purpose] }
  | .move i m =>
    match w.readers[i]? with
    | none => w
    | some reader =>
      let result := reader.advance config w.state m
      ⟨result.2.1, w.readers.set i result.1, w.underflow || result.2.2⟩
  | .expire old => { w with state := poisonPins old w.state }

/-- The pool after some events. -/
def World.run (config : PoolConfig) (events : List Event) : World :=
  events.foldl (World.step config) .start

/-- The slot that a reader holds or has reserved. -/
def Reader.slot : Reader → Option ℕ
  | .opening _ slotId => some slotId
  | .holding connection | .releasing connection => connection.slotId
  | .beginning pin | .reading pin | .registering pin | .pinning pin | .committed pin
  | .rollingBack pin | .abandoning pin => pin.connection.slotId
  | .acquiring _ | .openingAdHoc _ | .noting _ | .gone => none

/-- The id under which the pin of a reader is registered. -/
def Reader.pin : Reader → Option ℕ
  | .beginning pin | .reading pin | .registering pin | .pinning pin | .committed pin
  | .rollingBack pin | .abandoning pin => pin.pinId
  | _ => none

/-- The slots of the live pooled handles. -/
def World.liveSlots (w : World) : List ℕ := w.readers.filterMap Reader.slot

/-- The ids of the live registered pins. -/
def World.livePins (w : World) : List ℕ := w.readers.filterMap Reader.pin

/-- The pool counts its connections exactly. -/
structure World.Exact (config : PoolConfig) (w : World) : Prop where
  active : w.state.active = w.liveSlots.length
  bounded : w.state.active + w.state.idle.length ≤ config.maxSize
  distinct : (w.state.idle.map IdleConnection.slotId ++ w.liveSlots).Nodup
  clean : ∀ idle ∈ w.state.idle, idle.openTransaction = false
  pins : w.state.activePins.length = w.livePins.length
  noUnderflow : w.underflow = false

/-! ## Replacing one entry of a list -/

/-- An optional entry as a multiset. -/
def one {α : Type*} (o : Option α) : Multiset α := ↑o.toList

@[simp] theorem one_none {α : Type*} : one (none : Option α) = 0 := rfl

@[simp] theorem one_some {α : Type*} (a : α) : one (some a) = {a} := rfl

/-- Replacing an entry exchanges what it contributes to a collection. -/
theorem coe_filterMap_set {α β : Type*} (f : α → Option β) (b : α) :
    ∀ {l : List α} {i : ℕ} {a : α}, l[i]? = some a →
      (((l.set i b).filterMap f : List β) : Multiset β) + one (f a)
        = ((l.filterMap f : List β) : Multiset β) + one (f b)
  | [], i, a, h => by simp at h
  | x :: l, 0, a, h => by
    obtain rfl : x = a := by simpa using h
    rw [List.set_cons_zero, List.filterMap_cons, List.filterMap_cons]
    cases f b <;> cases f x <;> simp [one, ← Multiset.cons_coe, ← Multiset.singleton_add] <;> abel
  | x :: l, i + 1, a, h => by
    have ih := coe_filterMap_set f b (l := l) (i := i) (a := a) (by simpa using h)
    rw [List.set_cons_succ, List.filterMap_cons, List.filterMap_cons]
    cases f x with
    | none => exact ih
    | some y =>
      simp only [← Multiset.cons_coe, Multiset.cons_add]
      rw [ih]

/-! ## What a move does -/

/-- A pin that may be ended: it is active and knows the pool, or it has nothing to end. -/
def SnapshotPin.Endable (pin : SnapshotPin) : Prop :=
  (pin.snapshotActive = true ∧ pin.pooled = true) ∨
    (pin.snapshotActive = false ∧ pin.connection.openTransaction = false ∧ pin.pinId = none)

/-- A reader is where its pin and its transaction allow it to be. -/
def Reader.Sane : Reader → Prop
  | .holding connection | .releasing connection => connection.openTransaction = false
  | .beginning pin | .reading pin | .registering pin =>
    pin.snapshotActive = true ∧ pin.pooled = true ∧ pin.pinId = none
  | .pinning pin => pin.Endable
  | .committed pin => pin.pooled = true ∧ pin.connection.openTransaction = false
  | .rollingBack pin | .abandoning pin => pin.pinId = none
  | _ => True

/-- The slots of the idle connections. -/
def PoolState.idleSlots (state : PoolState) : Multiset ℕ :=
  ↑(state.idle.map IdleConnection.slotId)

/-- The ids of the registered pins. -/
def PoolState.pinIds (state : PoolState) : List ℕ := state.activePins.map Prod.fst

/-- What a move of a reader does to the slots: they are kept or given up, or a new one is
reserved. -/
def SlotsMove (s : PoolState) (r : Reader) (s' : PoolState) (r' : Reader) : Prop :=
  (s'.idleSlots + one r'.slot ≤ s.idleSlots + one r.slot ∧ s.nextSlotId ≤ s'.nextSlotId) ∨
    (s'.idleSlots ≤ s.idleSlots ∧ r.slot = none ∧ r'.slot = some s.nextSlotId ∧
      s'.nextSlotId = s.nextSlotId + 1)

/-- What a move of a reader does to the pins: nothing, a registration under a new id, or the
end of its own. -/
def PinsMove (s : PoolState) (r : Reader) (s' : PoolState) (r' : Reader) : Prop :=
  (s'.pinIds = s.pinIds ∧ s'.nextPinId = s.nextPinId ∧ r'.pin = r.pin) ∨
    (s'.pinIds = s.pinIds.filter (· ≠ s.nextPinId) ++ [s.nextPinId] ∧
      s'.nextPinId = s.nextPinId + 1 ∧ r.pin = none ∧ r'.pin = some s.nextPinId) ∨
    ∃ pinId, s'.pinIds = s.pinIds.filter (· ≠ pinId) ∧ s'.nextPinId = s.nextPinId ∧
      r.pin = some pinId ∧ r'.pin = none

/-- The effect of a move on the pool and on its reader. -/
structure Effect (config : PoolConfig) (s : PoolState) (r : Reader)
    (result : Reader × PoolState × Bool) : Prop where
  slots : SlotsMove s r result.2.1 result.1
  active : result.2.1.active + (one r.slot).card = s.active + (one result.1.slot).card
  bounded : result.2.1.active + result.2.1.idle.length ≤ config.maxSize
  clean : ∀ idle ∈ result.2.1.idle, idle.openTransaction = false
  sane : result.1.Sane
  pins : PinsMove s r result.2.1 result.1
  noUnderflow : result.2.2 = false

/-- What is known of the pool before a move. -/
structure Ready (config : PoolConfig) (s : PoolState) (r : Reader) : Prop where
  bounded : s.active + s.idle.length ≤ config.maxSize
  clean : ∀ idle ∈ s.idle, idle.openTransaction = false
  sane : r.Sane
  counted : r.slot.isSome → 0 < s.active

section

variable {config : PoolConfig} {s : PoolState} {r : Reader}

/-- A move that leaves the pool alone. -/
theorem Effect.stay (h : Ready config s r) {r' : Reader} (hs : r'.slot = r.slot)
    (hp : r'.pin = r.pin) (hsa : r'.Sane) : Effect config s r (r', s, false) where
  slots := .inl ⟨by rw [hs], le_rfl⟩
  active := by rw [hs]
  bounded := h.bounded
  clean := h.clean
  sane := hsa
  pins := .inl ⟨rfl, rfl, hp⟩
  noUnderflow := rfl

/-- A move that changes nothing of the pool but the registration of the reader's pin. -/
theorem Effect.pinsOnly (h : Ready config s r) {s' : PoolState} {r' : Reader}
    (hs : r'.slot = r.slot) (ha : s'.active = s.active) (hi : s'.idle = s.idle)
    (hn : s'.nextSlotId = s.nextSlotId) (hsa : r'.Sane) (hp : PinsMove s r s' r') :
    Effect config s r (r', s', false) where
  slots := .inl ⟨by rw [PoolState.idleSlots, PoolState.idleSlots, hs, hi], hn.ge⟩
  active := by
    show s'.active + _ = _
    rw [ha, hs]
  bounded := by
    show s'.active + s'.idle.length ≤ _
    rw [ha, hi]
    exact h.bounded
  clean := by
    show ∀ idle ∈ s'.idle, _
    rw [hi]
    exact h.clean
  sane := hsa
  pins := hp
  noUnderflow := rfl

/-- What `evict_expired_idle` retains. -/
theorem evictExpiredIdle_sublist (old : IdleConnection → Bool) :
    ∀ (idle : List IdleConnection) (ds : ℕ) (re : List IdleConnection × ℕ),
      evictExpiredIdle old idle ds = some re → re.1.Sublist idle
  | [], ds, re, h => by
    cases h
    exact List.Sublist.refl _
  | c :: res, ds, re, h => by
    unfold evictExpiredIdle at h
    split at h
    · split at h
      · cases h
      · exact (evictExpiredIdle_sublist old res _ re h).cons c
    · obtain ⟨inn, hi, rfl⟩ := Option.map_eq_some_iff.mp h
      exact (evictExpiredIdle_sublist old res ds inn hi).cons_cons c

theorem checkedPoolCountAdd_eq_ok {left right n : ℕ} {l : String}
    (h : checkedPoolCountAdd left right l = .ok n) : n = left + right := by
  unfold checkedPoolCountAdd at h
  split at h
  · cases h
    rfl
  · cases h

theorem incrementPoolActive_eq_ok {s s' : PoolState} (h : incrementPoolActive s = .ok s') :
    s' = { s with active := s.active + 1 } := by
  unfold incrementPoolActive at h
  cases ha : checkedPoolCountAdd s.active 1 "active" with
  | error e =>
    rw [ha] at h
    cases h
  | ok n =>
    rw [ha] at h
    cases h
    rw [checkedPoolCountAdd_eq_ok ha]

/-- What a round of `acquire` can do. -/
inductive Attempts (config : PoolConfig) (s : PoolState) : Attempt → PoolState → Prop
  | reused {s' : PoolState} {c : IdleConnection} : (s'.idle ++ [c]).Sublist s.idle →
      s'.active = s.active + 1 → s'.nextSlotId = s.nextSlotId →
      s'.activePins = s.activePins → s'.nextPinId = s.nextPinId →
      Attempts config s (.reused c) s'
  | reserved {s' : PoolState} : s'.idle.Sublist s.idle → s'.active = s.active + 1 →
      s.active + s'.idle.length < config.maxSize → s'.nextSlotId = s.nextSlotId + 1 →
      s'.activePins = s.activePins → s'.nextPinId = s.nextPinId →
      Attempts config s (.reserved s.nextSlotId) s'
  | nothing {s' : PoolState} {result : Attempt} : s'.idle.Sublist s.idle →
      s'.active = s.active → s.nextSlotId ≤ s'.nextSlotId →
      s'.activePins = s.activePins → s'.nextPinId = s.nextPinId →
      (∀ c, result ≠ .reused c) → (∀ slotId, result ≠ .reserved slotId) →
      Attempts config s result s'

theorem attempt_attempts (config : PoolConfig) (old : IdleConnection → Bool) (timedOut : Bool)
    (s : PoolState) :
    Attempts config s (attempt config old timedOut s).1 (attempt config old timedOut s).2 := by
  unfold attempt
  cases hevict : evictExpiredIdle old s.idle s.drops with
  | none => exact .nothing (List.nil_sublist _) rfl le_rfl rfl rfl nofun nofun
  | some result =>
    obtain ⟨retained, drops⟩ := result
    have hsub : retained.Sublist s.idle := evictExpiredIdle_sublist old _ _ _ hevict
    simp only
    cases hoccupancy : poolOccupancy { s with idle := retained, drops } with
    | error e => exact .nothing hsub rfl le_rfl rfl rfl nofun nofun
    | ok occupancy =>
      have hcount : occupancy = s.active + retained.length := checkedPoolCountAdd_eq_ok hoccupancy
      simp only
      cases hlast : retained.getLast? with
      | some c =>
        have hpop : retained.dropLast ++ [c] = retained :=
          List.dropLast_append_getLast? c hlast
        have hless : retained.dropLast.Sublist s.idle :=
          (List.dropLast_sublist retained).trans hsub
        simp only
        cases hinc : incrementPoolActive { s with idle := retained.dropLast, drops } with
        | error e => exact .nothing hless rfl le_rfl rfl rfl nofun nofun
        | ok s' =>
          rw [incrementPoolActive_eq_ok hinc]
          refine .reused ?_ rfl rfl rfl rfl
          rw [← hpop] at hsub
          exact hsub
      | none =>
        simp only
        split
        · rename_i hroom
          cases hid : allocateNextReadPoolId s.nextSlotId with
          | none => exact .nothing hsub rfl le_rfl rfl rfl nofun nofun
          | some ids =>
            have hids : ids = (s.nextSlotId, s.nextSlotId + 1) := by
              unfold allocateNextReadPoolId at hid
              split at hid
              · exact (Option.some.inj hid).symm
              · cases hid
            subst hids
            simp only
            cases hinc : incrementPoolActive
                { s with idle := retained, drops, nextSlotId := s.nextSlotId + 1 } with
            | error e => exact .nothing hsub rfl (Nat.le_succ _) rfl rfl nofun nofun
            | ok s' =>
              rw [incrementPoolActive_eq_ok hinc]
              refine .reserved hsub rfl ?_ rfl rfl rfl
              show s.active + retained.length < _
              rw [← hcount]
              exact hroom
        · split
          · cases checkedIncrementPoolCounter s.adHocBypassCount with
            | none => exact .nothing hsub rfl le_rfl rfl rfl nofun nofun
            | some n => exact .nothing hsub rfl le_rfl rfl rfl nofun nofun
          · exact .nothing hsub rfl le_rfl rfl rfl nofun nofun

@[simp] theorem acquiring_slot (p : Purpose) : (Reader.acquiring p).slot = none := rfl

@[simp] theorem acquiring_pin (p : Purpose) : (Reader.acquiring p).pin = none := rfl

@[simp] theorem gone_slot : Reader.gone.slot = none := rfl

@[simp] theorem acquired_slot (c : PooledReadConnection) (p : Purpose) :
    (acquired c p).slot = c.slotId := by
  rcases p with _ | _ | _ <;> rfl

@[simp] theorem acquired_pin (c : PooledReadConnection) (p : Purpose) :
    (acquired c p).pin = none := by
  rcases p with _ | _ | _ <;> rfl

theorem acquired_sane {c : PooledReadConnection} (h : c.openTransaction = false)
    (p : Purpose) : (acquired c p).Sane := by
  rcases p with _ | _ | _
  · exact h
  · exact .inr ⟨rfl, h, rfl⟩
  · exact ⟨rfl, rfl, rfl⟩

theorem idleSlots_le {s s' : PoolState} (h : s'.idle.Sublist s.idle) :
    s'.idleSlots ≤ s.idleSlots :=
  (h.map IdleConnection.slotId).subperm

/-- A round of `acquire` takes an idle slot, reserves a new one, or takes nothing. -/
theorem Effect.attempt {purpose : Purpose} (h : Ready config s (.acquiring purpose))
    (old : IdleConnection → Bool) (timedOut : Bool) :
    Effect config s (.acquiring purpose)
      ((Reader.acquiring purpose).advance config s (.attempt old timedOut)) := by
  have hround := attempt_attempts config old timedOut s
  simp only [Reader.advance]
  generalize ReadPool.attempt config old timedOut s = round at hround
  obtain ⟨result, s'⟩ := round
  dsimp only at hround
  have hbound := h.bounded
  cases hround with
  | @reused _ c hidle hactive hnext hpins hnextPin =>
    have hlen := hidle.length_le
    rw [List.length_append, List.length_singleton] at hlen
    have hmem : c ∈ s.idle := hidle.subset (by simp)
    refine ⟨.inl ⟨?_, hnext.ge⟩, ?_, ?_, ?_, ?_, .inl ⟨?_, hnextPin, ?_⟩, rfl⟩
    · have hle : (((s'.idle ++ [c]).map IdleConnection.slotId : List ℕ) : Multiset ℕ)
          ≤ s.idleSlots := (hidle.map IdleConnection.slotId).subperm
      rw [List.map_append, ← Multiset.coe_add] at hle
      rw [acquired_slot, acquiring_slot, one_none, add_zero]
      exact hle
    · simp [hactive]
    · show s'.active + s'.idle.length ≤ _
      omega
    · intro idle hin
      exact h.clean idle (hidle.subset (List.mem_append_left _ hin))
    · exact acquired_sane (h.clean c hmem) purpose
    · simp only [PoolState.pinIds, hpins]
    · simp
  | @reserved _ hidle hactive hroom hnext hpins hnextPin =>
    refine ⟨.inr ⟨idleSlots_le hidle, rfl, rfl, hnext⟩, ?_, ?_, ?_, trivial,
      .inl ⟨?_, hnextPin, rfl⟩, rfl⟩
    · simp [Reader.slot, hactive]
    · show s'.active + s'.idle.length ≤ _
      omega
    · intro idle hin
      exact h.clean idle (hidle.subset hin)
    · simp only [PoolState.pinIds, hpins]
  | @nothing _ result hidle hactive hnext hpins hnextPin hreused hreserved =>
    have hlen := hidle.length_le
    -- the reader waits on, opens a connection outside the pool, or gives up: no slot
    have hkeep : ∀ r' : Reader, r'.slot = none → r'.pin = none → r'.Sane →
        Effect config s (.acquiring purpose) (r', s', false) := by
      intro r' hslot hpin hsane
      refine ⟨.inl ⟨?_, hnext⟩, ?_, ?_, ?_, hsane, .inl ⟨?_, hnextPin, hpin⟩, rfl⟩
      · rw [hslot]
        exact add_le_add (idleSlots_le hidle) le_rfl
      · rw [hslot]
        simp [hactive]
      · show s'.active + s'.idle.length ≤ _
        omega
      · intro idle hin
        exact h.clean idle (hidle.subset hin)
      · simp only [PoolState.pinIds, hpins]
    cases result with
    | reused c => exact absurd rfl (hreused c)
    | reserved slotId => exact absurd rfl (hreserved slotId)
    | bypass => exact hkeep _ rfl rfl trivial
    | retry => exact hkeep _ rfl rfl trivial
    | failed => exact hkeep _ rfl rfl trivial

theorem decrementPoolActive_of_pos (h : 0 < s.active) :
    decrementPoolActive s = some { s with active := s.active - 1 } :=
  if_neg (by omega)

/-- A move that gives a slot up. -/
theorem Effect.giveUp {si : ℕ} {s' : PoolState} {r' : Reader} (h : Ready config s r)
    (hs : r.slot = some si) (hpi : r.pin = none) (hs' : r'.slot = none)
    (hp' : r'.pin = none) (hsa : r'.Sane) (ha : s'.active = s.active - 1)
    (hi : s'.idle = s.idle) (hne : s'.nextSlotId = s.nextSlotId)
    (hp : s'.activePins = s.activePins) (hn : s'.nextPinId = s.nextPinId) :
    Effect config s r (r', s', false) := by
  have hpo := h.counted (by simp [hs])
  have hb := h.bounded
  refine ⟨.inl ⟨?_, hne.ge⟩, ?_, ?_, ?_, hsa, .inl ⟨?_, hn, ?_⟩, rfl⟩
  · rw [hs', hs, PoolState.idleSlots, PoolState.idleSlots, hi]
    exact add_le_add le_rfl (Multiset.zero_le _)
  · rw [hs', hs]
    simp only [one_some, one_none, Multiset.card_singleton, Multiset.card_zero, ha]
    omega
  · show s'.active + s'.idle.length ≤ _
    rw [ha, hi]
    omega
  · show ∀ idle ∈ s'.idle, _
    rw [hi]
    exact h.clean
  · simp only [PoolState.pinIds, hp]
  · rw [hp', hpi]

/-- A section that lowers the count and counts a drop gives the slot up. -/
theorem Effect.countDrop {si : ℕ} {r' : Reader} (h : Ready config s r)
    (hs : r.slot = some si) (hp : r.pin = none) (hs' : r'.slot = none)
    (hp' : r'.pin = none) (hsa : r'.Sane) :
    Effect config s r (afterSection s r' (countDrop { s with active := s.active - 1 })) := by
  unfold ReadPool.countDrop
  cases checkedIncrementPoolCounter s.drops with
  | none => exact .giveUp h hs hp rfl rfl trivial rfl rfl rfl rfl rfl
  | some ds => exact .giveUp h hs hp hs' hp' hsa rfl rfl rfl rfl rfl

/-- `release` turns a slot of a reader into an idle one. -/
theorem Effect.release {si : ℕ} {ot : Bool} (h : Ready config s r)
    (hs : r.slot = some si) (hp : r.pin = none) (hc : ot = false) :
    Effect config s r (afterSection s .gone (release config si ot s)) := by
  have hpo := h.counted (by simp [hs])
  have hb := h.bounded
  unfold ReadPool.release
  rw [decrementPoolActive_of_pos hpo]
  simp only
  split
  · refine ⟨.inl ⟨?_, le_rfl⟩, ?_, ?_, ?_, trivial, .inl ⟨rfl, rfl, hp.symm⟩, rfl⟩
    · simp [afterSection, PoolState.idleSlots, hs, ← Multiset.coe_add]
    · rw [hs]
      simp only [afterSection, gone_slot, one_some, one_none, Multiset.card_singleton,
        Multiset.card_zero]
      omega
    · simp only [afterSection, List.length_append, List.length_singleton]
      omega
    · intro idle hin
      rcases List.mem_append.mp hin with ho | hn
      · exact h.clean idle ho
      · rw [List.mem_singleton] at hn
        rw [hn]
        exact hc
  · exact .countDrop h hs hp rfl rfl trivial

/-- `abandon` gives a slot up. -/
theorem Effect.abandon {si : ℕ} {r' : Reader} (h : Ready config s r)
    (hs : r.slot = some si) (hp : r.pin = none) (hs' : r'.slot = none)
    (hp' : r'.pin = none) (hsa : r'.Sane) :
    Effect config s r (afterSection s r' (abandon s)) := by
  unfold ReadPool.abandon
  rw [decrementPoolActive_of_pos (h.counted (by simp [hs]))]
  exact .countDrop h hs hp hs' hp' hsa

/-- Two states that differ in the flags of the pins and in statistics only. -/
structure SameCounts (s s' : PoolState) : Prop where
  active : s'.active = s.active
  idle : s'.idle = s.idle
  nextSlotId : s'.nextSlotId = s.nextSlotId
  pinIds : s'.pinIds = s.pinIds
  nextPinId : s'.nextPinId = s.nextPinId

theorem SameCounts.refl (s : PoolState) : SameCounts s s := ⟨rfl, rfl, rfl, rfl, rfl⟩

theorem sameCounts_poisonPins (old : ℕ → Bool) (s : PoolState) :
    SameCounts s (poisonPins old s) where
  active := rfl
  idle := rfl
  nextSlotId := rfl
  pinIds := by
    simp only [PoolState.pinIds, poisonPins, List.map_map]
    rfl
  nextPinId := rfl

/-- Unregistering takes the id of a pin out of the pool and leaves the rest. -/
theorem unregister_spec {s' : PoolState} (pin : SnapshotPin) (r' : Reader)
    (hp : pin.pooled = true) (hs : SameCounts s s') (hpin : r.pin = pin.pinId)
    (hp' : r'.pin = none) :
    PinsMove s r (pin.unregister s').2 r' ∧ (pin.unregister s').1 = { pin with pinId := none } ∧
      (pin.unregister s').2.active = s.active ∧ (pin.unregister s').2.idle = s.idle ∧
      (pin.unregister s').2.nextSlotId = s.nextSlotId := by
  obtain ⟨p, c, sa, pii⟩ := pin
  obtain ⟨ha, hi, hne, hpi, hn⟩ := hs
  cases pii with
  | none =>
    exact ⟨.inl ⟨hpi, hn, hp'.trans hpin.symm⟩, rfl, ha, hi, hne⟩
  | some pii =>
    simp only at hp
    subst hp
    refine ⟨.inr (.inr ⟨pii, ?_, hn, hpin, hp'⟩), rfl, ha, hi, hne⟩
    rw [← hpi]
    simp only [SnapshotPin.unregister, unregisterPin, PoolState.pinIds, if_true]
    rw [List.filter_map]
    rfl

/-- Ending a pin unregisters it and goes on to the statement, or straight to the drop of its
connection. -/
theorem Effect.endSnapshot (h : Ready config s r) {pin : SnapshotPin} {s' : PoolState}
    (hs : SameCounts s s') (hsl : r.slot = pin.connection.slotId)
    (hpi : r.pin = pin.pinId) (hen : pin.Endable) :
    Effect config s r ((pin.endSnapshot s').1, (pin.endSnapshot s').2, false) := by
  rcases hen with ⟨ha, hp⟩ | ⟨hi, hc, hno⟩
  · obtain ⟨hpins, hr, hco, hid, hn⟩ := unregister_spec { pin with snapshotActive := false }
        (.rollingBack { pin with snapshotActive := false, pinId := none }) hp hs hpi rfl
    simp only [SnapshotPin.endSnapshot, ha, if_true, hr]
    exact .pinsOnly h hsl.symm hco hid hn rfl hpins
  · have he : pin.endSnapshot s' = (.releasing pin.connection, s') := by
      simp [SnapshotPin.endSnapshot, hi]
    rw [he]
    refine .pinsOnly h hsl.symm hs.active hs.idle hs.nextSlotId hc ?_
    exact .inl ⟨hs.pinIds, hs.nextPinId, by rw [hpi, hno]; rfl⟩

/-- A commit ends in `committed` or as a rollback does. -/
theorem Effect.commit {pin : SnapshotPin} (h : Ready config s (.pinning pin)) (expired : Bool)
    (outcome : SqlOutcome) :
    Effect config s (.pinning pin)
      ((pin.commit expired outcome s).1, (pin.commit expired outcome s).2, false) := by
  have he : pin.Endable := h.sane
  by_cases ha : pin.snapshotActive = true
  · have hp : pin.pooled = true := by
      rcases he with ⟨-, hp⟩ | ⟨hi, -⟩
      · exact hp
      · rw [ha] at hi
        cases hi
    simp only [SnapshotPin.commit, ha, if_true]
    generalize hst : (if expired = true then
      poisonPins (fun pii => decide (some pii = pin.pinId)) s else s) = s'
    have hs : SameCounts s s' := by
      rw [← hst]
      split
      · exact sameCounts_poisonPins _ s
      · exact .refl s
    split
    · exact .endSnapshot h hs rfl rfl he
    · cases outcome with
      | done =>
        refine .pinsOnly h rfl hs.active hs.idle hs.nextSlotId ⟨hp, rfl⟩ ?_
        exact .inl ⟨hs.pinIds, hs.nextPinId, rfl⟩
      | failed oa => exact .endSnapshot h hs rfl rfl (.inl ⟨rfl, hp⟩)
  · simp only [SnapshotPin.commit, ha]
    have hc : pin.connection.openTransaction = false ∧ pin.pinId = none := by
      rcases he with ⟨ht, -⟩ | ⟨-, hc, hn⟩
      · exact absurd ht ha
      · exact ⟨hc, hn⟩
    exact .stay h rfl hc.2.symm hc.1

/-- A registration puts the pin under a new id. -/
theorem Effect.register {pin : SnapshotPin} (h : Ready config s (.registering pin)) :
    Effect config s (.registering pin) ((Reader.registering pin).advance config s .register) := by
  obtain ⟨ha, hp, hn⟩ := h.sane
  simp only [Reader.advance]
  cases hr : registerPin pin.connection.slotId s with
  | none => exact .endSnapshot h (.refl s) rfl rfl (.inl ⟨ha, hp⟩)
  | some re =>
    obtain ⟨ids, hi, rfl⟩ := Option.map_eq_some_iff.mp hr
    have hi : ids = (s.nextPinId, s.nextPinId + 1) := by
      unfold allocateNextReadPoolId at hi
      split at hi
      · exact (Option.some.inj hi).symm
      · cases hi
    subst hi
    refine .pinsOnly h rfl rfl rfl rfl (.inl ⟨ha, hp⟩) ?_
    refine .inr (.inl ⟨?_, rfl, hn, rfl⟩)
    simp only [PoolState.pinIds, List.map_append, List.filter_map]
    rfl

/-- The effect of every move. -/
theorem advance_effect (h : Ready config s r) (m : Move) :
    Effect config s r (r.advance config s m) := by
  have hsame : Effect config s r (r, s, false) := .stay h rfl rfl h.sane
  cases r with
  | acquiring purpose =>
    cases m with
    | attempt old timedOut => exact .attempt h old timedOut
    | _ => exact hsame
  | opening purpose slotId =>
    cases m with
    | opened success =>
      simp only [Reader.advance]
      split
      · exact .stay h (acquired_slot _ _) (acquired_pin _ _) (acquired_sane rfl _)
      · rw [decrementPoolActive_of_pos (h.counted rfl)]
        exact .giveUp h rfl rfl rfl rfl trivial rfl rfl rfl rfl rfl
    | _ => exact hsame
  | openingAdHoc purpose =>
    cases m with
    | opened success =>
      simp only [Reader.advance]
      split
      · exact .stay h (acquired_slot _ _) (acquired_pin _ _) (acquired_sane rfl _)
      · exact .stay h rfl rfl trivial
    | _ => exact hsame
  | holding connection =>
    cases m with
    | drop => exact .stay h rfl rfl h.sane
    | _ => exact hsame
  | beginning pin =>
    obtain ⟨hactive, hpooled, hnone⟩ := h.sane
    cases m with
    | begun outcome =>
      cases outcome with
      | done => exact .stay h rfl rfl ⟨hactive, hpooled, hnone⟩
      | failed openAfter => exact .endSnapshot h (.refl s) rfl rfl (.inl ⟨hactive, hpooled⟩)
    | _ => exact hsame
  | reading pin =>
    obtain ⟨hactive, hpooled, hnone⟩ := h.sane
    cases m with
    | firstRead success =>
      simp only [Reader.advance]
      split
      · exact .stay h rfl rfl ⟨hactive, hpooled, hnone⟩
      · exact .endSnapshot h (.refl s) rfl rfl (.inl ⟨hactive, hpooled⟩)
    | _ => exact hsame
  | registering pin =>
    cases m with
    | register => exact .register h
    | _ => exact hsame
  | pinning pin =>
    cases m with
    | commit expired outcome => exact .commit h expired outcome
    | rollback => exact .endSnapshot h (.refl s) rfl rfl h.sane
    | drop => exact .endSnapshot h (.refl s) rfl rfl h.sane
    | _ => exact hsame
  | committed pin =>
    obtain ⟨hpooled, hclosed⟩ := h.sane
    cases m with
    | unregister =>
      obtain ⟨hpins, hresult, hcount, hidle, hnext⟩ :=
        unregister_spec (r := .committed pin) pin (.releasing pin.connection) hpooled (.refl s)
          rfl rfl
      simp only [Reader.advance, hresult]
      exact .pinsOnly h rfl hcount hidle hnext hclosed hpins
    | _ => exact hsame
  | rollingBack pin =>
    have hnone : pin.pinId = none := h.sane
    cases m with
    | rolledBack outcome =>
      cases outcome with
      | done => exact .stay h rfl hnone.symm rfl
      | failed openAfter => exact .stay h rfl rfl hnone
    | _ => exact hsame
  | abandoning pin =>
    have hnone : pin.pinId = none := h.sane
    cases m with
    | abandon =>
      simp only [Reader.advance]
      cases hslot : pin.connection.slotId with
      | some slotId => exact .abandon h hslot hnone rfl rfl trivial
      | none => exact .stay h hslot.symm hnone.symm trivial
    | _ => exact hsame
  | noting pooled =>
    cases m with
    | noteFailure =>
      simp only [Reader.advance, noteReleaseFailure]
      split
      · cases checkedIncrementPoolCounter s.releaseFailures with
        | none => exact .stay h rfl rfl trivial
        | some n => exact .pinsOnly h rfl rfl rfl rfl trivial (.inl ⟨rfl, rfl, rfl⟩)
      · exact .stay h rfl rfl trivial
    | _ => exact hsame
  | releasing connection =>
    cases m with
    | drop =>
      simp only [Reader.advance]
      cases hslot : connection.slotId with
      | some slotId => exact .release h hslot rfl h.sane
      | none => exact .stay h hslot.symm rfl trivial
    | _ => exact hsame
  | gone => exact hsame

end

/-! ## Runs -/

namespace World

/-- The invariant of the pool and its readers. -/
structure Inv (config : PoolConfig) (w : World) : Prop where
  active : w.state.active = w.liveSlots.length
  bounded : w.state.active + w.state.idle.length ≤ config.maxSize
  distinct : (w.state.idleSlots + ↑w.liveSlots).Nodup
  fresh : ∀ slotId ∈ w.state.idleSlots + ↑w.liveSlots, slotId < w.state.nextSlotId
  clean : ∀ idle ∈ w.state.idle, idle.openTransaction = false
  sane : ∀ reader ∈ w.readers, reader.Sane
  pins : (w.state.pinIds : Multiset ℕ) = ↑w.livePins
  pinsDistinct : w.state.pinIds.Nodup
  pinsFresh : ∀ pinId ∈ w.state.pinIds, pinId < w.state.nextPinId
  noUnderflow : w.underflow = false

/-- The invariant holds of the empty pool. -/
theorem inv_start (config : PoolConfig) : Inv config start where
  active := rfl
  bounded := Nat.zero_le _
  distinct := Multiset.nodup_zero
  fresh slotId h := absurd h (Multiset.notMem_zero slotId)
  clean _ h := absurd h List.not_mem_nil
  sane _ h := absurd h List.not_mem_nil
  pins := rfl
  pinsDistinct := List.nodup_nil
  pinsFresh _ h := absurd h List.not_mem_nil
  noUnderflow := rfl

/-- A reader of the pool may make a move. -/
theorem Inv.ready {config : PoolConfig} {w : World} (hw : Inv config w) {i : ℕ} {r : Reader}
    (hr : w.readers[i]? = some r) : Ready config w.state r where
  bounded := hw.bounded
  clean := hw.clean
  sane := hw.sane r (List.mem_of_getElem? hr)
  counted hslot := by
    obtain ⟨si, hs⟩ := Option.isSome_iff_exists.mp hslot
    have hm : si ∈ w.liveSlots := List.mem_filterMap.mpr ⟨r, List.mem_of_getElem? hr, hs⟩
    rw [hw.active]
    exact List.length_pos_of_mem hm

/-- The slots that are idle or live after a move: some of those before, or one new one. -/
theorem slots_after_move {s s' : PoolState} {r r' : Reader} {live l' : Multiset ℕ}
    (hm : SlotsMove s r s' r') (hl : l' + one r.slot = live + one r'.slot) :
    (s'.idleSlots + l' ≤ s.idleSlots + live ∧ s.nextSlotId ≤ s'.nextSlotId) ∨
      (s'.idleSlots + l' ≤ s.nextSlotId ::ₘ (s.idleSlots + live) ∧
        s'.nextSlotId = s.nextSlotId + 1) := by
  rcases hm with ⟨hle, hn⟩ | ⟨hle, hno, hne, hn⟩
  · refine .inl ⟨?_, hn⟩
    apply le_of_add_le_add_right (a := one r.slot)
    calc s'.idleSlots + l' + one r.slot
        = s'.idleSlots + one r'.slot + live := by rw [add_assoc, hl]; abel
      _ ≤ s.idleSlots + one r.slot + live := add_le_add hle le_rfl
      _ = s.idleSlots + live + one r.slot := by abel
  · refine .inr ⟨?_, hn⟩
    rw [hno, hne, one_none, one_some, add_zero] at hl
    rw [hl, ← Multiset.singleton_add]
    calc s'.idleSlots + (live + {s.nextSlotId})
        ≤ s.idleSlots + (live + {s.nextSlotId}) := add_le_add hle le_rfl
      _ = {s.nextSlotId} + (s.idleSlots + live) := by abel

/-- The registered ids after a move are again those of the live pins. -/
theorem pins_after_move {s s' : PoolState} {r r' : Reader} {live l' : Multiset ℕ}
    (hmo : PinsMove s r s' r') (hl : l' + one r.pin = live + one r'.pin)
    (hpins : (s.pinIds : Multiset ℕ) = live) (hno : s.pinIds.Nodup)
    (hf : ∀ pii ∈ s.pinIds, pii < s.nextPinId) :
    (s'.pinIds : Multiset ℕ) = l' ∧ s'.pinIds.Nodup ∧ ∀ pii ∈ s'.pinIds, pii < s'.nextPinId := by
  rcases hmo with ⟨hs, hn, hpi⟩ | ⟨hne, hn, hnon, hpi⟩ | ⟨pii, hle, hn, ho, hpi⟩
  · rw [hpi] at hl
    rw [hs, hn, add_right_cancel hl]
    exact ⟨hpins, hno, hf⟩
  · have hk : s.pinIds.filter (· ≠ s.nextPinId) = s.pinIds := by
      rw [List.filter_eq_self]
      intro pii hm
      have := hf pii hm
      simp only [ne_eq, decide_eq_true_eq]
      omega
    rw [hk] at hne
    rw [hnon, hpi, one_none, one_some, add_zero] at hl
    rw [hne, hn, hl, ← hpins]
    refine ⟨(Multiset.coe_add _ _).symm, ?_, ?_⟩
    · rw [List.nodup_append]
      refine ⟨hno, List.nodup_singleton _, ?_⟩
      intro a ha b hb hab
      have := hf a ha
      rw [List.mem_singleton] at hb
      omega
    · intro pii hm
      rcases List.mem_append.mp hm with ho | hla
      · exact Nat.lt_succ_of_lt (hf pii ho)
      · rw [List.mem_singleton] at hla
        omega
  · rw [ho, hpi, one_none, one_some, add_zero] at hl
    rw [hle, hn]
    refine ⟨?_, hno.filter _, fun p hp => hf p (List.mem_of_mem_filter hp)⟩
    have he : s.pinIds.filter (· ≠ pii) = s.pinIds.erase pii := by
      rw [hno.erase_eq_filter]
      refine List.filter_congr fun x _ => ?_
      by_cases h : x = pii <;> simp [h]
    rw [he, ← Multiset.coe_erase, hpins, ← hl, add_comm, Multiset.singleton_add,
      Multiset.erase_cons_head]

/-- Every event keeps the invariant. -/
theorem Inv.step {config : PoolConfig} {w : World} (hw : Inv config w) (e : Event) :
    Inv config (w.step config e) := by
  cases e with
  | arrive p =>
    have hs : World.liveSlots { w with readers := w.readers ++ [.acquiring p] } = w.liveSlots := by
      simp [World.liveSlots]
    have hp : World.livePins { w with readers := w.readers ++ [.acquiring p] } = w.livePins := by
      simp [World.livePins]
    refine ⟨?_, hw.bounded, ?_, ?_, hw.clean, ?_, ?_, hw.pinsDistinct, hw.pinsFresh, hw.noUnderflow⟩
    · rw [World.step, hs]
      exact hw.active
    · rw [World.step, hs]
      exact hw.distinct
    · rw [World.step, hs]
      exact hw.fresh
    · intro re hre
      rcases List.mem_append.mp hre with h | hne
      · exact hw.sane re h
      · rw [List.mem_singleton] at hne
        rw [hne]
        trivial
    · rw [World.step, hp]
      exact hw.pins
  | expire old =>
    obtain ⟨ha, hi, hnex, hp, hnextPin⟩ := sameCounts_poisonPins old w.state
    refine ⟨hw.active, hw.bounded, hw.distinct, hw.fresh, hw.clean, hw.sane, ?_, ?_, ?_,
      hw.noUnderflow⟩
    · show ((poisonPins old w.state).pinIds : Multiset ℕ) = _
      rw [hp]
      exact hw.pins
    · show (poisonPins old w.state).pinIds.Nodup
      rw [hp]
      exact hw.pinsDistinct
    · show ∀ pinId ∈ (poisonPins old w.state).pinIds, _
      rw [hp]
      exact hw.pinsFresh
  | move i m =>
    simp only [World.step]
    cases hr : w.readers[i]? with
    | none => exact hw
    | some r =>
      have he := advance_effect (hw.ready hr) m
      simp only
      generalize r.advance config w.state m = res at he
      obtain ⟨r', s', u⟩ := res
      obtain ⟨hmo, ha, hb, hc, hsa, hpi, hn⟩ := he
      dsimp only at hmo ha hb hc hsa hpi hn
      have hli := coe_filterMap_set Reader.slot r' hr
      have hl := coe_filterMap_set Reader.pin r' hr
      obtain ⟨hp, hpin, hpinsFresh⟩ := pins_after_move hpi hl hw.pins hw.pinsDistinct hw.pinsFresh
      have hs : (s'.idleSlots + ↑((w.readers.set i r').filterMap Reader.slot)).Nodup ∧
          ∀ si ∈ s'.idleSlots + ↑((w.readers.set i r').filterMap Reader.slot),
            si < s'.nextSlotId := by
        rcases slots_after_move hmo hli with ⟨hle, hnex⟩ | ⟨hle, hnex⟩
        · refine ⟨Multiset.nodup_of_le hle hw.distinct, fun si hm => ?_⟩
          exact lt_of_lt_of_le (hw.fresh si (Multiset.mem_of_le hle hm)) hnex
        · have hne : w.state.nextSlotId ∉ w.state.idleSlots + ↑w.liveSlots :=
            fun hm => absurd (hw.fresh _ hm) (lt_irrefl _)
          refine ⟨Multiset.nodup_of_le hle (Multiset.nodup_cons.mpr ⟨hne, hw.distinct⟩), ?_⟩
          intro si hm
          rcases Multiset.mem_cons.mp (Multiset.mem_of_le hle hm) with rfl | h
          · omega
          · have := hw.fresh si h
            omega
      refine ⟨?_, hb, hs.1, hs.2, hc, ?_, hp, hpin, hpinsFresh, ?_⟩
      · have hca := congrArg Multiset.card hli
        rw [Multiset.card_add, Multiset.card_add, Multiset.coe_card, Multiset.coe_card] at hca
        have hbe := hw.active
        simp only [World.liveSlots] at hbe ⊢
        omega
      · intro re hre
        rcases List.mem_or_eq_of_mem_set hre with h | rfl
        · exact hw.sane re h
        · exact hsa
      · rw [hw.noUnderflow, hn]
        rfl

/-- **Every run keeps the invariant of the pool**. -/
theorem inv_run (config : PoolConfig) (es : List Event) : Inv config (run config es) := by
  induction es using List.reverseRecOn with
  | nil => exact inv_start config
  | append_singleton es e ih =>
    rw [run, List.foldl_concat]
    exact ih.step e

/-- **The pool counts its connections exactly**, after every interleaving of its readers. -/
theorem counts_exactly (config : PoolConfig) (events : List Event) :
    Exact config (run config events) := by
  have hi := inv_run config events
  refine ⟨hi.active, hi.bounded, ?_, hi.clean, ?_, hi.noUnderflow⟩
  · have hd := hi.distinct
    rw [PoolState.idleSlots, Multiset.coe_add, Multiset.coe_nodup] at hd
    exact hd
  · have hc := congrArg Multiset.card hi.pins
    rw [Multiset.coe_card, Multiset.coe_card, PoolState.pinIds, List.length_map] at hc
    exact hc

/-- A pin is taken beside an open that fails; the pin's rollback fails and its connection is
abandoned. -/
example :
    let w := run ⟨2⟩
      [.arrive (.snapshot true), .arrive .plain, .move 0 (.attempt (fun _ => false) false),
        .move 1 (.attempt (fun _ => false) false), .move 0 (.opened true), .move 1 (.opened false),
        .move 0 (.begun .done), .move 0 (.firstRead true), .move 0 .register, .move 0 .rollback,
        .move 0 (.rolledBack (.failed true)), .move 0 .abandon]
    w.state = ⟨0, [], 3, 2, [], 2, 1, 0, 0⟩ ∧ w.readers = [.noting true, .gone] := by
  decide +kernel

end World

end ReadPool
