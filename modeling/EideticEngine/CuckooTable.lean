/-
# Cuckoo tables

Each key has two buckets, and a bucket holds at most one entry.  A new key goes to its first
bucket; the key that it displaces goes to its other bucket, and so on, until a bucket is empty or
the number of displacements is used up.  Then the key that is carried is given back.

Whatever the two hash functions are, an operation moves entries and loses none: what the table
holds and what it gives back are what it held and what it was given.
-/
import Mathlib

namespace CuckooTable

variable {K V : Type*} [DecidableEq K]

/-- Two hash functions. -/
structure Hashing (K : Type*) where
  first : K → ℕ
  second : K → ℕ

section

variable (hashing : Hashing K) (bucketCount : ℕ)

def indexOne (key : K) : ℕ := hashing.first key % bucketCount

def indexTwo (key : K) : ℕ :=
  let first := indexOne hashing bucketCount key
  let second := hashing.second key % bucketCount
  if 1 < bucketCount ∧ second = first then (second + 1) % bucketCount else second

def alternateIndex (key : K) (currentIndex : ℕ) : ℕ :=
  if currentIndex = indexOne hashing bucketCount key then indexTwo hashing bucketCount key
  else indexOne hashing bucketCount key

def maxDisplacements : ℕ := 16 + Nat.log2 bucketCount * 2

end

structure Table (K V : Type*) where
  buckets : List (Option (K × V))
  len : ℕ

/-- A table of empty buckets. -/
def Table.new (bucketCount : ℕ) : Table K V := ⟨List.replicate bucketCount none, 0⟩

/-- What a bucket holds. -/
def slot (buckets : List (Option (K × V))) (index : ℕ) : Option (K × V) := buckets.getD index none

/-- What the buckets hold, in their order. -/
def stored (buckets : List (Option (K × V))) : List (K × V) := buckets.filterMap id

def Table.iter (table : Table K V) : List (K × V) := stored table.buckets

def Table.keys (table : Table K V) : List K := table.iter.map Prod.fst

def Table.clear (table : Table K V) : Table K V :=
  ⟨table.buckets.map fun _ => none, 0⟩

def keyMatchesBucket (buckets : List (Option (K × V))) (key : K) (index : ℕ) : Bool :=
  (slot buckets index).any (·.1 = key)

section

variable (hashing : Hashing K)

def Table.slotIndex (table : Table K V) (key : K) : Option ℕ :=
  if table.buckets = [] then none
  else
    let first := indexOne hashing table.buckets.length key
    if keyMatchesBucket table.buckets key first then some first
    else
      let second := indexTwo hashing table.buckets.length key
      if first ≠ second ∧ keyMatchesBucket table.buckets key second then some second else none

def Table.containsKey (table : Table K V) (key : K) : Bool := (table.slotIndex hashing key).isSome

def Table.get (table : Table K V) (key : K) : Option V :=
  (table.slotIndex hashing key).bind fun index => (slot table.buckets index).map Prod.snd

/-- Change the value of a key that is there. -/
def Table.update (table : Table K V) (key : K) (f : V → V) : Table K V :=
  match table.slotIndex hashing key with
  | none => table
  | some index =>
    { table with
      buckets := table.buckets.set index ((slot table.buckets index).map fun s => (s.1, f s.2)) }

def Table.remove (table : Table K V) (key : K) : Table K V :=
  match table.slotIndex hashing key with
  | none => table
  | some index => ⟨table.buckets.set index none, table.len - 1⟩

/-- Put what is carried into a bucket, and carry on with what was there. -/
def kick (bucketCount : ℕ) : ℕ → ℕ → K × V → List (Option (K × V)) →
    Option (K × V) × List (Option (K × V))
  | 0, _, carried, buckets => (some carried, buckets)
  | displacements + 1, index, carried, buckets =>
    match slot buckets index with
    | none => (none, buckets.set index (some carried))
    | some displaced =>
      kick bucketCount displacements (alternateIndex hashing bucketCount displaced.1 index)
        displaced (buckets.set index (some carried))

def Table.insertNew (table : Table K V) (key : K) (value : V) : Option (K × V) × Table K V :=
  let (carried, buckets) := kick hashing table.buckets.length
    (maxDisplacements table.buckets.length) (indexOne hashing table.buckets.length key) (key, value)
    table.buckets
  (carried, ⟨buckets, if carried.isSome then table.len else table.len + 1⟩)

/-- Replace the value of a key that is there, and put a new key into the table. -/
def Table.insert (table : Table K V) (key : K) (value : V) : Option (K × V) × Table K V :=
  if table.buckets = [] then (some (key, value), table)
  else if table.containsKey hashing key then (none, table.update hashing key fun _ => value)
  else table.insertNew hashing key value

end

/-! ## Buckets -/

section

variable {buckets : List (Option (K × V))} {index : ℕ} {s : K × V}

omit [DecidableEq K] in
theorem lt_of_slot (h : slot buckets index = some s) : index < buckets.length := by
  by_contra hle
  rw [slot, List.getD_eq_default _ _ (not_lt.mp hle)] at h
  cases h

omit [DecidableEq K] in
theorem mem_stored : s ∈ stored buckets ↔ ∃ index, slot buckets index = some s := by
  rw [stored, List.mem_filterMap]
  constructor
  · rintro ⟨b, hm, rfl⟩
    obtain ⟨index, hi⟩ := List.mem_iff_getElem?.mp hm
    refine ⟨index, ?_⟩
    rw [slot, List.getD_eq_getElem?_getD, hi]
    rfl
  · rintro ⟨index, h⟩
    have hlt := lt_of_slot h
    rw [slot, List.getD_eq_getElem _ _ hlt] at h
    exact ⟨_, List.getElem_mem hlt, h⟩

omit [DecidableEq K] in
theorem slot_set (buckets : List (Option (K × V))) (index other : ℕ) (value : Option (K × V)) :
    slot (buckets.set index value) other
      = if other = index ∧ index < buckets.length then value else slot buckets other := by
  rw [slot, slot, List.getD_eq_getElem?_getD, List.getD_eq_getElem?_getD, List.getElem?_set]
  by_cases heq : index = other
  · subst heq
    by_cases hlt : index < buckets.length
    · simp [hlt]
    · simp [hlt]
  · rw [if_neg heq, if_neg fun h => heq h.1.symm]

omit [DecidableEq K] in
/-- **Setting a bucket exchanges what it held.** -/
theorem stored_set (hlt : index < buckets.length) (value : Option (K × V)) :
    ((slot buckets index).toList ++ stored (buckets.set index value)).Perm
      (value.toList ++ stored buckets) := by
  induction buckets generalizing index with
  | nil => cases hlt
  | cons b buckets ih =>
    have hc : ∀ (b : Option (K × V)) (r : List (Option (K × V))),
        stored (b :: r) = b.toList ++ stored r := by
      intro b r
      cases b with
      | none => rfl
      | some s => rfl
    cases index with
    | zero =>
      rw [List.set_cons_zero, hc, hc]
      exact List.perm_append_comm_assoc _ _ _
    | succ index =>
      rw [List.set_cons_succ, hc, hc]
      have hr := ih (Nat.lt_of_succ_lt_succ hlt)
      have hf := List.perm_append_comm_assoc (slot buckets index).toList b.toList
        (stored (buckets.set index value))
      exact (hf.trans (hr.append_left _)).trans (List.perm_append_comm_assoc _ _ _)

end

/-! ## Places -/

section

variable (hashing : Hashing K)

/-- The index is one of the two of the key. -/
def IsHome (bucketCount index : ℕ) (key : K) : Prop :=
  index = indexOne hashing bucketCount key ∨ index = indexTwo hashing bucketCount key

/-- Every entry is in one of the two buckets of its key. -/
def Placed (buckets : List (Option (K × V))) : Prop :=
  ∀ index s, slot buckets index = some s → IsHome hashing buckets.length index s.1

/-- Every entry is in its place, keys are distinct, and the length is the number of entries. -/
structure Table.Valid (table : Table K V) : Prop where
  placed : Placed hashing table.buckets
  nodup : table.keys.Nodup
  len : table.len = table.iter.length

end

section

variable {hashing : Hashing K} {buckets : List (Option (K × V))} {table : Table K V} {key : K}
  {value : V} {index : ℕ}

omit [DecidableEq K] in
theorem isHome_alternate (bucketCount index : ℕ) (key : K) :
    IsHome hashing bucketCount (alternateIndex hashing bucketCount key index) key := by
  rw [alternateIndex]
  split
  · exact .inr rfl
  · exact .inl rfl

omit [DecidableEq K] in
theorem IsHome.lt {bucketCount : ℕ} (h : IsHome hashing bucketCount index key)
    (hp : 0 < bucketCount) : index < bucketCount := by
  rcases h with rfl | rfl
  · exact Nat.mod_lt _ hp
  · rw [indexTwo]
    split
    · exact Nat.mod_lt _ hp
    · exact Nat.mod_lt _ hp

omit [DecidableEq K] in
/-- Filling a home of the key keeps every entry at a home. -/
theorem Placed.set (h : Placed hashing buckets) {c : Option (K × V)}
    (hh : ∀ s, c = some s → IsHome hashing buckets.length index s.1) :
    Placed hashing (buckets.set index c) := by
  intro other s hs
  rw [slot_set] at hs
  rw [List.length_set]
  split at hs
  · rename_i heq
    rw [heq.1]
    exact hh s hs
  · exact h other s hs

omit [DecidableEq K] in
/-- **No displacement loses an entry**, and every entry stays in its place. -/
theorem kick_spec (displacements : ℕ) {c : K × V} (h : Placed hashing buckets)
    (hpo : 0 < buckets.length) (hh : IsHome hashing buckets.length index c.1) :
    (kick hashing buckets.length displacements index c buckets).2.length = buckets.length
      ∧ Placed hashing (kick hashing buckets.length displacements index c buckets).2
      ∧ ((kick hashing buckets.length displacements index c buckets).1.toList
          ++ stored (kick hashing buckets.length displacements index c buckets).2).Perm
        (c :: stored buckets) := by
  induction displacements generalizing index c buckets with
  | zero => exact ⟨rfl, h, .refl _⟩
  | succ displacements ih =>
    have hse : Placed hashing (buckets.set index (some c)) := by
      refine h.set fun s hs => ?_
      cases hs
      exact hh
    have hp := stored_set (hh.lt hpo) (some c)
    rw [kick]
    split
    · rename_i he
      rw [he] at hp
      exact ⟨List.length_set, hse, hp⟩
    · rename_i displaced hsl
      rw [hsl] at hp
      have hl : (buckets.set index (some c)).length = buckets.length := List.length_set
      have hn := @ih (buckets.set index (some c))
        (alternateIndex hashing buckets.length displaced.1 index) displaced hse
        (by rw [hl]; exact hpo)
        (by rw [hl]; exact isHome_alternate _ _ _)
      rw [hl] at hn
      exact ⟨hn.1, hn.2.1, hn.2.2.trans hp⟩

theorem keyMatchesBucket_iff : keyMatchesBucket buckets key index = true
      ↔ ∃ value, slot buckets index = some (key, value) := by
  rw [keyMatchesBucket]
  constructor
  · intro h
    cases hs : slot buckets index with
    | none =>
      rw [hs] at h
      cases h
    | some s =>
      rw [hs] at h
      have hk : s.1 = key := of_decide_eq_true h
      exact ⟨s.2, by rw [← hk]⟩
  · rintro ⟨value, hs⟩
    rw [hs]
    exact decide_eq_true rfl

/-- A key that is found is in the bucket where it is found. -/
theorem slot_of_slotIndex (h : table.slotIndex hashing key = some index) :
    ∃ value, slot table.buckets index = some (key, value) := by
  rw [Table.slotIndex] at h
  split at h
  · cases h
  · dsimp only at h
    split at h
    · rename_i hf
      cases h
      exact keyMatchesBucket_iff.mp hf
    · split at h
      · rename_i hs
        cases h
        exact keyMatchesBucket_iff.mp hs.2
      · cases h

/-- A key that is there is found. -/
theorem slotIndex_isSome (h : Placed hashing table.buckets) (hme : (key, value) ∈ table.iter) :
    (table.slotIndex hashing key).isSome := by
  obtain ⟨index, hs⟩ := mem_stored.mp hme
  have hne : table.buckets ≠ [] := List.ne_nil_of_length_pos (Nat.zero_lt_of_lt (lt_of_slot hs))
  have hm : keyMatchesBucket table.buckets key index = true := keyMatchesBucket_iff.mpr ⟨value, hs⟩
  rw [Table.slotIndex, if_neg hne]
  dsimp only
  split
  · rfl
  · rename_i hf
    rcases h index _ hs with ho | ht
    · rw [ho] at hm
      exact absurd hm hf
    · rw [if_pos]
      · rfl
      · rw [ht] at hm
        refine ⟨fun heq => ?_, hm⟩
        rw [← heq] at hm
        exact hf hm

/-- Where a key is, when it is there. -/
theorem Table.Valid.slotIndex_cases (h : table.Valid hashing) (key : K) :
    (table.slotIndex hashing key = none ∧ key ∉ table.keys)
      ∨ ∃ index value, table.slotIndex hashing key = some index
        ∧ slot table.buckets index = some (key, value) ∧ (key, value) ∈ table.iter := by
  cases hi : table.slotIndex hashing key with
  | none =>
    refine .inl ⟨rfl, fun hm => ?_⟩
    obtain ⟨s, hs, rfl⟩ := List.mem_map.mp hm
    have hso := slotIndex_isSome h.placed (show (s.1, s.2) ∈ table.iter from hs)
    rw [hi] at hso
    cases hso
  | some index =>
    obtain ⟨value, hsl⟩ := slot_of_slotIndex hi
    exact .inr ⟨index, value, rfl, hsl, mem_stored.mpr ⟨index, hsl⟩⟩

theorem Table.Valid.containsKey_iff (h : table.Valid hashing) :
    table.containsKey hashing key = true ↔ key ∈ table.keys := by
  rw [Table.containsKey]
  rcases h.slotIndex_cases key with ⟨hn, ho⟩ | ⟨index, value, hs, -, hm⟩
  · rw [hn]
    exact ⟨nofun, fun hin => absurd hin ho⟩
  · rw [hs]
    exact ⟨fun _ => List.mem_map_of_mem hm, fun _ => rfl⟩

/-- **A table finds what it holds.** -/
theorem Table.Valid.get_iff (h : table.Valid hashing) :
    table.get hashing key = some value ↔ (key, value) ∈ table.iter := by
  rw [Table.get]
  rcases h.slotIndex_cases key with ⟨hn, ho⟩ | ⟨index, other, hso, hs, hm⟩
  · rw [hn]
    exact ⟨nofun, fun hin => absurd (List.mem_map_of_mem hin) ho⟩
  · rw [hso, Option.bind_some, hs]
    constructor
    · intro heq
      cases heq
      exact hm
    · intro hin
      have heq := List.inj_on_of_nodup_map h.nodup hin hm rfl
      cases heq
      rfl

/-! ## Operations -/

omit [DecidableEq K] in
theorem iter_new (bucketCount : ℕ) : (Table.new bucketCount : Table K V).iter = [] := by
  rw [Table.iter, stored, List.filterMap_eq_nil_iff]
  exact fun b hb => (List.mem_replicate.mp hb).2

omit [DecidableEq K] in
theorem iter_clear (table : Table K V) : table.clear.iter = [] := by
  rw [Table.iter, stored, List.filterMap_eq_nil_iff]
  intro b hb
  obtain ⟨_, -, rfl⟩ := List.mem_map.mp hb
  rfl

omit [DecidableEq K] in
/-- An empty table is valid. -/
theorem valid_of_iter_eq_nil (h : table.iter = []) (hl : table.len = 0) : table.Valid hashing where
  placed := by
    intro index s hs
    have hm : s ∈ table.iter := mem_stored.mpr ⟨index, hs⟩
    rw [h] at hm
    cases hm
  nodup := by
    rw [Table.keys, h]
    exact .nil
  len := by
    rw [h]
    exact hl

omit [DecidableEq K] in
/-- The entries without one of them. -/
theorem exists_rest (hn : table.keys.Nodup) (hm : (key, value) ∈ table.iter) :
    ∃ r, table.iter.Perm ((key, value) :: r) ∧ key ∉ r.map Prod.fst := by
  classical
  refine ⟨table.iter.erase (key, value), List.perm_cons_erase hm, ?_⟩
  have hp := (List.perm_cons_erase hm).map Prod.fst
  exact (List.nodup_cons.mp (hp.nodup_iff.mp hn)).1

/-- Entries of other keys pass a filter. -/
theorem filter_ne_of_not_mem {r : List (K × V)} (h : key ∉ r.map Prod.fst) :
    r.filter (fun s => s.1 ≠ key) = r := by
  rw [List.filter_eq_self]
  intro s hs
  exact decide_eq_true fun heq => h (heq ▸ List.mem_map_of_mem hs)

theorem map_ite_of_not_mem {r : List (K × V)} (f : V → V) (h : key ∉ r.map Prod.fst) :
    r.map (fun s => if s.1 = key then (s.1, f s.2) else s) = r := by
  refine (List.map_congr_left fun s hs => ?_).trans (List.map_id r)
  have hne : s.1 ≠ key := fun heq => h (heq ▸ List.mem_map_of_mem hs)
  exact if_neg hne

/-- **Updating changes the value of the key and nothing else.** -/
theorem Table.Valid.update (h : table.Valid hashing) (key : K) (f : V → V) :
    (table.update hashing key f).Valid hashing ∧ (table.update hashing key f).iter.Perm
        (table.iter.map fun s => if s.1 = key then (s.1, f s.2) else s)
      ∧ (table.update hashing key f).keys.Perm table.keys
      ∧ (table.update hashing key f).buckets.length = table.buckets.length := by
  rw [Table.update]
  rcases h.slotIndex_cases key with ⟨hn, ho⟩ | ⟨index, value, hso, hsl, hme⟩
  · rw [hn]
    dsimp only
    rw [map_ite_of_not_mem f ho]
    exact ⟨h, .refl _, .refl _, rfl⟩
  · rw [hso]
    dsimp only
    rw [hsl]
    obtain ⟨r, hr, hf⟩ := exists_rest h.nodup hme
    have hse := stored_set (lt_of_slot hsl) (some (key, f value))
    rw [hsl] at hse
    -- The bucket gives the old value back and takes the new one.
    have ha : (stored (table.buckets.set index (some (key, f value)))).Perm
        ((key, f value) :: r) := by
      have hsw := (hse.trans (hr.cons (key, f value))).trans (.swap _ _ _)
      exact hsw.cons_inv
    have hm : (table.iter.map fun s => if s.1 = key then (s.1, f s.2) else s).Perm
        ((key, f value) :: r) := by
      have hb := hr.map fun s => if s.1 = key then (s.1, f s.2) else s
      rw [List.map_cons, if_pos rfl, map_ite_of_not_mem f hf] at hb
      exact hb
    have hk : ((stored (table.buckets.set index (some (key, f value)))).map Prod.fst).Perm
        table.keys := (ha.map Prod.fst).trans (hr.map Prod.fst).symm
    refine ⟨⟨h.placed.set ?_, hk.nodup_iff.mpr h.nodup, ?_⟩, ha.trans hm.symm, hk, List.length_set⟩
    · intro s hs
      obtain rfl : (key, f value) = s := Option.some.inj hs
      exact h.placed index (key, value) hsl
    · exact h.len.trans (hr.length_eq.trans ha.length_eq.symm)

/-- **Removing a key removes its entry and nothing else.** -/
theorem Table.Valid.remove (h : table.Valid hashing) (key : K) :
    (table.remove hashing key).Valid hashing
      ∧ (table.remove hashing key).iter.Perm (table.iter.filter fun s => s.1 ≠ key)
      ∧ (table.remove hashing key).buckets.length = table.buckets.length := by
  rw [Table.remove]
  rcases h.slotIndex_cases key with ⟨hno, ho⟩ | ⟨index, value, hso, hs, hm⟩
  · rw [hno]
    dsimp only
    rw [filter_ne_of_not_mem ho]
    exact ⟨h, .refl _, rfl⟩
  · rw [hso]
    dsimp only
    obtain ⟨r, hr, hfr⟩ := exists_rest h.nodup hm
    have hse := stored_set (lt_of_slot hs) none
    rw [hs] at hse
    have ha : (stored (table.buckets.set index none)).Perm r := (hse.trans hr).cons_inv
    have hf : (table.iter.filter fun s => s.1 ≠ key).Perm r := by
      have hb := hr.filter fun s => s.1 ≠ key
      rw [List.filter_cons_of_neg (by simp), filter_ne_of_not_mem hfr] at hb
      exact hb
    have hn : (r.map Prod.fst).Nodup :=
      (List.nodup_cons.mp ((hr.map Prod.fst).nodup_iff.mp h.nodup)).2
    refine ⟨⟨h.placed.set nofun, (ha.map Prod.fst).nodup_iff.mpr hn, ?_⟩,
      ha.trans hf.symm, List.length_set⟩
    show table.len - 1 = (stored (table.buckets.set index none)).length
    rw [ha.length_eq, h.len, hr.length_eq, List.length_cons, Nat.add_sub_cancel]

omit [DecidableEq K] in
/-- **A new key is put into the table and at most one entry comes out.** -/
theorem Table.Valid.insertNew (h : table.Valid hashing) (hne : table.buckets ≠ [])
    (hn : key ∉ table.keys) (value : V) :
    (table.insertNew hashing key value).2.Valid hashing
      ∧ ((table.insertNew hashing key value).1.toList
          ++ (table.insertNew hashing key value).2.iter).Perm ((key, value) :: table.iter)
      ∧ (table.insertNew hashing key value).2.buckets.length = table.buckets.length := by
  obtain ⟨hl, hpl, hp⟩ := kick_spec (maxDisplacements table.buckets.length) h.placed
    (List.length_pos_of_ne_nil hne) (show IsHome hashing table.buckets.length _ (key, value).1
      from .inl rfl)
  rw [Table.insertNew]
  generalize kick hashing table.buckets.length (maxDisplacements table.buckets.length)
    (indexOne hashing table.buckets.length key) (key, value) table.buckets = result
    at hl hpl hp ⊢
  obtain ⟨c, buckets⟩ := result
  dsimp only at hl hpl hp ⊢
  have hk := (hp.map Prod.fst).nodup_iff.mpr (List.nodup_cons.mpr ⟨hn, h.nodup⟩)
  rw [List.map_append] at hk
  refine ⟨⟨hpl, (List.nodup_append.mp hk).2.1, ?_⟩, hp, hl⟩
  have hc := hp.length_eq
  rw [List.length_append, List.length_cons] at hc
  have hle := h.len
  cases c with
  | none =>
    show table.len + 1 = (stored buckets).length
    rw [Option.toList_none, List.length_nil] at hc
    rw [hle, Table.iter]
    omega
  | some s =>
    show table.len = (stored buckets).length
    rw [Option.toList_some, List.length_singleton] at hc
    rw [hle, Table.iter]
    omega

/-- **An insertion**: what the table holds and what comes out are the new entry and the old ones of
other keys. -/
theorem Table.Valid.insert (h : table.Valid hashing) (key : K) (value : V) :
    (table.insert hashing key value).2.Valid hashing ∧ ((table.insert hashing key value).1.toList
          ++ (table.insert hashing key value).2.iter).Perm
        ((key, value) :: table.iter.filter fun s => s.1 ≠ key)
      ∧ (table.insert hashing key value).2.buckets.length = table.buckets.length := by
  rw [Table.insert]
  split
  · rename_i he
    have hni : table.iter = [] := by
      rw [Table.iter, he]
      rfl
    refine ⟨h, ?_, rfl⟩
    rw [hni]
    exact .refl _
  · rename_i hne
    split
    · rename_i hc
      obtain ⟨hv, hp, -, hl⟩ := h.update key fun _ => value
      refine ⟨hv, hp.trans ?_, hl⟩
      obtain ⟨s, hs, hk⟩ := List.mem_map.mp (h.containsKey_iff.mp hc)
      obtain ⟨r, hr, hfr⟩ := exists_rest h.nodup (show (key, s.2) ∈ table.iter by
        rw [← hk]
        exact hs)
      have hm := hr.map fun s => if s.1 = key then (s.1, value) else s
      have hf := hr.filter fun s => s.1 ≠ key
      rw [List.map_cons, if_pos rfl, map_ite_of_not_mem (fun _ => value) hfr] at hm
      rw [List.filter_cons_of_neg (by simp), filter_ne_of_not_mem hfr] at hf
      exact hm.trans (hf.symm.cons _)
    · rename_i hno
      have hn : key ∉ table.keys := fun hme => hno (h.containsKey_iff.mpr hme)
      have hsp := h.insertNew hne hn value
      rw [filter_ne_of_not_mem hn]
      exact hsp

end

end CuckooTable
