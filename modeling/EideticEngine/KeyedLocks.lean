/-
# Locks made on demand

A table holds one lock for each key that is in use.  A thread that wants the lock of its key gets a
reference to the one in the table, which is made where there is none; it then locks it, unlocks
it and drops the reference.  From time to time a clean-up removes the locks to which no thread has
a reference.

Whatever the threads do and whenever the clean-up runs, all threads with a reference for one key
refer to one lock, so that at most one of them has locked it.
-/
import Mathlib

namespace KeyedLocks

variable {T K : Type*}

/-- The table with the references and the owners of its locks. -/
structure Table (T K : Type*) where
  /-- The lock of a key. -/
  entry : K → Option ℕ
  /-- The number of locks made so far. -/
  next : ℕ
  /-- The lock to which a thread has a reference. -/
  held : T → Option ℕ
  /-- The thread that has locked a lock. -/
  owner : ℕ → Option T

namespace Table

def empty : Table T K := ⟨fun _ => none, 0, fun _ => none, fun _ => none⟩

variable (table : Table T K)

/-- The references to a lock in the table: that of the table and those of the threads. -/
def strongCount [Fintype T] (lock : ℕ) : ℕ :=
  1 + (Finset.univ.filter fun thread => table.held thread = some lock).card

/-- Remove the locks to which only the table refers. -/
def cleanUp [Fintype T] : Table T K :=
  { table with entry := fun key => (table.entry key).filter fun lock => 1 < table.strongCount lock }

def refer [DecidableEq T] (thread : T) (lock : ℕ) : Table T K :=
  { table with held := Function.update table.held thread (some lock) }

/-- A reference to the lock of the key, if there is one. -/
def find [DecidableEq T] (thread : T) (key : K) : Option (Table T K) :=
  (table.entry key).map (table.refer thread)

/-- A reference to the lock of the key, which is made if there is none. -/
def findOrMake [DecidableEq T] [DecidableEq K] (thread : T) (key : K) : Table T K :=
  match table.entry key with
  | some lock => table.refer thread lock
  | none =>
    { table.refer thread table.next with
      entry := Function.update table.entry key (some table.next)
      next := table.next + 1 }

/-- Lock the lock to which the thread refers; this waits while it is locked. -/
def acquire (thread : T) : Option (Table T K) :=
  match table.held thread with
  | none => none
  | some lock =>
    if (table.owner lock).isNone then
      some { table with owner := Function.update table.owner lock (some thread) }
    else none

def release (thread : T) : Table T K :=
  match table.held thread with
  | none => table
  | some lock => { table with owner := Function.update table.owner lock none }

def drop [DecidableEq T] (thread : T) : Table T K :=
  { table with held := Function.update table.held thread none }

end Table

/-! ## Invariant -/

/-- References are to the lock of the key, and only a thread with a reference to it has locked a
lock. -/
structure Sound (key : T → K) (table : Table T K) : Prop where
  held_entry : ∀ thread lock, table.held thread = some lock → table.entry (key thread) = some lock
  owner_held : ∀ thread lock, table.owner lock = some thread → table.held thread = some lock

/-- The thread has locked the lock to which it refers. -/
def Owns (table : Table T K) (thread : T) : Prop :=
  ∃ lock, table.held thread = some lock ∧ table.owner lock = some thread

/-- Only the references and locks of one thread change. -/
def OnlyChanges (thread : T) (table table' : Table T K) : Prop :=
  ∀ other ≠ thread, table'.held other = table.held other
    ∧ (Owns table' other ↔ Owns table other)

variable {key : T → K} {table table' : Table T K} {thread thread' : T}

/-- **At most one thread has locked the lock of a key.** -/
theorem Sound.eq_of_owns (h : Sound key table) (hk : key thread = key thread')
    (how : Owns table thread) (how' : Owns table thread') : thread = thread' := by
  obtain ⟨lock, hh, ho⟩ := how
  obtain ⟨l', hh', ho'⟩ := how'
  have he := h.held_entry thread lock hh
  rw [hk, h.held_entry thread' l' hh'] at he
  obtain rfl := Option.some.inj he
  exact Option.some.inj (ho.symm.trans ho')

theorem sound_empty : Sound key (Table.empty : Table T K) where
  held_entry _ _ h := absurd h (Option.some_ne_none _).symm
  owner_held _ _ h := absurd h (Option.some_ne_none _).symm

theorem not_owns_of_held (h : table.held thread = none) : ¬ Owns table thread := by
  rintro ⟨lock, hh, -⟩
  rw [h] at hh
  cases hh

/-! ## The clean-up -/

/-- **The clean-up keeps every lock that is in use.** -/
theorem Sound.cleanUp [Fintype T] (h : Sound key table) : Sound key table.cleanUp where
  held_entry thread lock hheld := by
    have hc : 1 < table.strongCount lock := by
      have hm : thread ∈ Finset.univ.filter fun t => table.held t = some lock :=
        Finset.mem_filter.mpr ⟨Finset.mem_univ _, hheld⟩
      have hp := Finset.card_pos.mpr ⟨thread, hm⟩
      unfold Table.strongCount
      omega
    change (table.entry (key thread)).filter _ = some lock
    rw [h.held_entry thread lock hheld, Option.filter_some, if_pos (decide_eq_true hc)]
  owner_held := h.owner_held

/-! ## References -/

section

variable [DecidableEq T]

theorem held_refer (lock : ℕ) : (table.refer thread lock).held thread = some lock :=
  Function.update_self ..

theorem held_refer_of_ne {other : T} (hne : other ≠ thread) (lock : ℕ) :
    (table.refer thread lock).held other = table.held other := Function.update_of_ne hne ..

/-- A thread without a reference has locked nothing, and its new reference changes nothing for
others. -/
theorem Sound.refer_frame (h : Sound key table) (hn : table.held thread = none) (lock : ℕ) :
    ¬ Owns (table.refer thread lock) thread
      ∧ OnlyChanges thread table (table.refer thread lock) := by
  constructor
  · rintro ⟨l, -, ho⟩
    have hh := h.owner_held thread l ho
    rw [hn] at hh
    cases hh
  · intro other hne
    refine ⟨held_refer_of_ne hne lock, ?_⟩
    unfold Owns
    rw [held_refer_of_ne hne]
    rfl

/-- Waiting for the lock of a key keeps the table sound. -/
theorem Sound.refer (h : Sound key table) (hn : table.held thread = none) {lock : ℕ}
    (he : table.entry (key thread) = some lock) : Sound key (table.refer thread lock) where
  held_entry t l hh := by
    by_cases ht : t = thread
    · rw [ht, held_refer] at hh
      obtain rfl := Option.some.inj hh
      rw [ht]
      exact he
    · rw [held_refer_of_ne ht] at hh
      exact h.held_entry t l hh
  owner_held t l howner := by
    have hh := h.owner_held t l howner
    have ht : t ≠ thread := by
      rintro rfl
      rw [hn] at hh
      cases hh
    rw [held_refer_of_ne ht]
    exact hh

/-- What a thread without a reference has once it found a lock. -/
theorem Sound.find (h : Sound key table) (hn : table.held thread = none)
    (hf : table.find thread (key thread) = some table') :
    Sound key table' ∧ (table'.held thread).isSome ∧ ¬ Owns table' thread
      ∧ OnlyChanges thread table table' := by
  obtain ⟨lock, he, rfl⟩ := Option.map_eq_some_iff.mp hf
  refine ⟨h.refer hn he, ?_, h.refer_frame hn lock⟩
  rw [held_refer]
  rfl

/-- What a thread without a reference has once it found or made a lock. -/
theorem Sound.findOrMake [DecidableEq K] (h : Sound key table) (hn : table.held thread = none) :
    Sound key (table.findOrMake thread (key thread))
      ∧ ((table.findOrMake thread (key thread)).held thread).isSome
      ∧ ¬ Owns (table.findOrMake thread (key thread)) thread
      ∧ OnlyChanges thread table (table.findOrMake thread (key thread)) := by
  unfold Table.findOrMake
  cases he : table.entry (key thread) with
  | some lock =>
    refine ⟨h.refer hn he, ?_, h.refer_frame hn lock⟩
    rw [held_refer]
    rfl
  | none =>
    have hf := h.refer_frame hn table.next
    refine ⟨⟨fun t l hh => ?_, fun t l how => ?_⟩, ?_, hf⟩
    · change (table.refer thread table.next).held t = some l at hh
      change Function.update table.entry (key thread) (some table.next) (key t) = some l
      by_cases ht : t = thread
      · rw [ht, held_refer] at hh
        rw [ht, Function.update_self]
        exact hh
      · rw [held_refer_of_ne ht] at hh
        have ho := h.held_entry t l hh
        -- no thread refers to a lock of a key without an entry
        have hk : key t ≠ key thread := by
          intro heq
          rw [heq, he] at ho
          cases ho
        rw [Function.update_of_ne hk]
        exact ho
    · have hh := h.owner_held t l how
      have ht : t ≠ thread := by
        rintro rfl
        rw [hn] at hh
        cases hh
      change (table.refer thread table.next).held t = some l
      rw [held_refer_of_ne ht]
      exact hh
    · change ((table.refer thread table.next).held thread).isSome
      rw [held_refer]
      rfl

/-- A thread that has locked nothing may drop its reference. -/
theorem Sound.drop (h : Sound key table) (hn : ¬ Owns table thread) :
    Sound key (table.drop thread) ∧ (table.drop thread).held thread = none
      ∧ OnlyChanges thread table (table.drop thread) := by
  have hs : (table.drop thread).held thread = none := Function.update_self ..
  have ho : ∀ t ≠ thread, (table.drop thread).held t = table.held t := fun t ht =>
    Function.update_of_ne ht ..
  refine ⟨⟨fun t l hh => ?_, fun t l how => ?_⟩, hs, fun t ht => ⟨ho t ht, ?_⟩⟩
  · by_cases ht : t = thread
    · rw [ht, hs] at hh
      cases hh
    · rw [ho t ht] at hh
      exact h.held_entry t l hh
  · have hh := h.owner_held t l how
    have ht : t ≠ thread := by
      rintro rfl
      exact hn ⟨l, hh, how⟩
    rw [ho t ht]
    exact hh
  · unfold Owns
    rw [ho t ht]
    rfl

end

/-! ## Locking -/

theorem acquire_eq_some (h : table.acquire thread = some table') :
    ∃ lock, table.held thread = some lock ∧ table.owner lock = none
      ∧ table' = { table with owner := Function.update table.owner lock (some thread) } := by
  unfold Table.acquire at h
  split at h
  · cases h
  · rename_i lock hh
    split at h
    · rename_i hf
      exact ⟨lock, hh, Option.isNone_iff_eq_none.mp hf, (Option.some.inj h).symm⟩
    · cases h

/-- Taking the lock keeps the table sound. -/
theorem Sound.acquire (h : Sound key table) (ha : table.acquire thread = some table') :
    Sound key table' ∧ table'.held thread = table.held thread ∧ Owns table' thread
      ∧ OnlyChanges thread table table' := by
  obtain ⟨lock, hh, hf, rfl⟩ := acquire_eq_some ha
  refine ⟨⟨h.held_entry, fun t l ho => ?_⟩, rfl, ⟨lock, hh, Function.update_self ..⟩,
    fun t ht => ⟨rfl, exists_congr fun l => and_congr_right fun _ => ?_⟩⟩
  · change Function.update table.owner lock (some thread) l = some t at ho
    by_cases hl : l = lock
    · rw [hl, Function.update_self] at ho
      rw [← Option.some.inj ho, hl]
      exact hh
    · rw [Function.update_of_ne hl] at ho
      exact h.owner_held t l ho
  · change Function.update table.owner lock (some thread) l = some t ↔ _
    by_cases hl : l = lock
    · rw [hl, Function.update_self, hf, Option.some.injEq]
      exact iff_of_false ht.symm (Option.some_ne_none t).symm
    · rw [Function.update_of_ne hl]

/-- Giving the lock back keeps the table sound. -/
theorem Sound.release (h : Sound key table) (howns : Owns table thread) :
    Sound key (table.release thread) ∧ (table.release thread).held thread = table.held thread
      ∧ ¬ Owns (table.release thread) thread
      ∧ OnlyChanges thread table (table.release thread) := by
  obtain ⟨lock, hh, how⟩ := howns
  unfold Table.release
  rw [hh]
  refine ⟨⟨h.held_entry, fun t l hl => ?_⟩, hh, ?_,
    fun t ht => ⟨rfl, exists_congr fun l => and_congr_right fun _ => ?_⟩⟩
  · change Function.update table.owner lock none l = some t at hl
    by_cases heq : l = lock
    · rw [heq, Function.update_self] at hl
      cases hl
    · rw [Function.update_of_ne heq] at hl
      exact h.owner_held t l hl
  · rintro ⟨l, hl, ho⟩
    change table.held thread = some l at hl
    rw [hh] at hl
    obtain rfl := Option.some.inj hl
    change Function.update table.owner lock none lock = some thread at ho
    rw [Function.update_self] at ho
    cases ho
  · change Function.update table.owner lock none l = some t ↔ _
    by_cases hl : l = lock
    · rw [hl, Function.update_self, how, Option.some.injEq]
      exact iff_of_false (Option.some_ne_none t).symm ht.symm
    · rw [Function.update_of_ne hl]

end KeyedLocks
