/-
# Writers of the audit log (`src/db/mod.rs`)

A single insert reads the tip of the chain and the clock inside one transaction; a batch reads
the tip once, links its own rows and moves a clock reading that is not later than the one
before it to one nanosecond after it.  Calls are serialised and a call that fails changes
nothing.

The tip is the row with the largest timestamp and identifier, while the verifier goes by
timestamp, workspace and identifier, and nothing moves the first reading of a call past the
rows that are there.  The log verifies as long as both orders agree on the last row and every
call starts after it.
-/
import EideticEngine.AuditLog
import EideticEngine.ComparisonSort

namespace Audit

open Serde RustText HashChain

variable {T : Type}

section

variable [JsonStrings]

/-! ## Building rows -/

/-- `audit_surface_from_action`. -/
def auditSurfaceFromAction (action : String) : String :=
  let surface :=
    if '.' ∈ action.toList then
      trim (String.ofList (action.toList.takeWhile fun c => c ≠ '.'))
    else "global"
  if surface = "" then "global" else surface

/-- `audit_detail_hash`. -/
def auditDetailHash (lib : Library T) (details : Option String) (keys : List String) :
    Option String := do
  let parsed ← lib.parseJson (← details)
  keys.findSome? fun key =>
    (((parsed.get key).bind Json.asStr).map trim).filter fun value => value ≠ ""

/-- `build_audit_entry`. -/
def buildAuditEntry (lib : Library T) (id : String) (input : CreateAuditInput)
    (timestamp : String) (prevRowHash mutationKindOverride : Option String) :
    StoredAuditEntry where
  id := id
  workspaceId := input.workspaceId
  timestamp := timestamp
  actor := input.actor
  action := input.action
  targetType := input.targetType
  targetId := input.targetId
  details := input.details
  surface := input.targetType.getD (auditSurfaceFromAction input.action)
  mutationKind := mutationKindOverride.getD input.action
  beforeHash := auditDetailHash lib input.details
    ["before_hash", "beforeHash", "before_state_hash", "beforeStateHash"]
  afterHash := auditDetailHash lib input.details
    ["after_hash", "afterHash", "after_state_hash", "afterStateHash"]
  prevRowHash := prevRowHash
  thisRowHash := none

/-- The row with its own hash, as it is stored. -/
def sealRow (lib : Library T) (entry : StoredAuditEntry) : StoredAuditEntry :=
  { entry with thisRowHash := some (computeAuditRowHash lib entry) }

/-- `next_audit_batch_timestamp`: the instant of the next row of a batch. -/
def nextAuditBatchTimestamp [LE T] [DecidableLE T] (lib : Library T) (lastTimestamp : Option T)
    (now : T) : T :=
  match lastTimestamp with
  | none => now
  | some previous => if now ≤ previous then (lib.checkedAddNanosecond previous).getD now else now

/-- The rows that `insert_audit_batch` prepares, each entry with its clock reading. -/
def prepareBatch [LE T] [DecidableLE T] (lib : Library T) (prevRowHash : Option String)
    (lastTimestamp : Option T) : List (String × CreateAuditInput × T) → List StoredAuditEntry
  | [] => []
  | (id, input, now) :: entries =>
    let timestamp := nextAuditBatchTimestamp lib lastTimestamp now
    let entry := sealRow lib
      (buildAuditEntry lib id input (lib.toRfc3339Nanos timestamp) prevRowHash none)
    entry :: prepareBatch lib entry.thisRowHash (some timestamp) entries

/-! ## The table -/

/-- The order in which a writer looks for the tip. -/
def compareTip (left right : StoredAuditEntry) : Ordering :=
  (compare right.timestamp left.timestamp).then (compare right.id left.id)

/-- The row that `latest_audit_row_hash` finds. -/
def latestAuditRow (rows : List StoredAuditEntry) : Option StoredAuditEntry :=
  ((rows.filter fun row => row.thisRowHash.isSome).insertionSort
    fun left right => compareTip left right ≠ .gt).head?

/-- `latest_audit_row_hash`. -/
def latestAuditRowHash (rows : List StoredAuditEntry) : Option String :=
  (latestAuditRow rows).bind (·.thisRowHash)

/-- Why the table refuses a row. -/
inductive InsertError where
  | duplicateId (id : String)
  | constraint (id : String)
  deriving DecidableEq, Repr

/-- One row of an `INSERT`. -/
def insertRow (lib : Library T) (rows : List StoredAuditEntry) (row : StoredAuditEntry) :
    Except InsertError (List StoredAuditEntry) :=
  if row.id ∈ rows.map (·.id) then .error (.duplicateId row.id)
  else if !lib.admits row then .error (.constraint row.id)
  else .ok (rows ++ [row])

/-- A call of a writer, with the clock readings it makes. -/
inductive Call (T : Type) where
  /-- `insert_audit`, and `insert_audit_with_mutation_kind` when a kind is given. -/
  | single (id : String) (input : CreateAuditInput) (mutationKind : Option String) (now : T)
  /-- `insert_audit_batch`. -/
  | batch (entries : List (String × CreateAuditInput × T))

/-- The rows that a call inserts. -/
def Call.newRows [LE T] [DecidableLE T] (lib : Library T) (rows : List StoredAuditEntry) :
    Call T → List StoredAuditEntry
  | .single id input mutationKind now =>
    [sealRow lib (buildAuditEntry lib id input (lib.toRfc3339 now) (latestAuditRowHash rows)
      mutationKind)]
  | .batch entries => prepareBatch lib (latestAuditRowHash rows) none entries

/-- `insert_audit` and `insert_audit_batch`: all rows of the call or none. -/
def Call.perform [LE T] [DecidableLE T] (lib : Library T) (rows : List StoredAuditEntry)
    (call : Call T) : Except InsertError (List StoredAuditEntry) :=
  (call.newRows lib rows).foldlM (insertRow lib) rows

/-- The log after a call: a transaction that fails is rolled back. -/
def afterCall [LE T] [DecidableLE T] (lib : Library T) (rows : List StoredAuditEntry)
    (call : Call T) : List StoredAuditEntry :=
  (call.perform lib rows).toOption.getD rows

/-- The log after serialised calls on an empty table. -/
def logAfter [LE T] [DecidableLE T] (lib : Library T) (calls : List (Call T)) :
    List StoredAuditEntry :=
  calls.foldl (afterCall lib) []

/-- `list_audit_entries(None, None)`. -/
def listAuditEntries (rows : List StoredAuditEntry) : List StoredAuditEntry :=
  rows.insertionSort fun left right => compare right.timestamp left.timestamp ≠ .gt

/-- `verify_audit` with parsed bounds. -/
def verifyAudit [LT T] [DecidableLT T] (lib : Library T) (rows : List StoredAuditEntry)
    (since until' : Option T) : Except UsageError AuditVerifyReport :=
  verifyEntries lib (listAuditEntries rows) since until'

/-! ## The chain of the log -/

/-- The log is linear and `verify_audit` without a window reports that it is intact. -/
def Intact [LT T] [DecidableLT T] (lib : Library T) (rows : List StoredAuditEntry) : Prop :=
  (rows.map (·.prevRowHash)).Nodup ∧
    ∃ report, verifyAudit lib rows none none = .ok report ∧ report.integrityOk = true

/-- What the log relies on from the clock library, for the instants that RFC 3339 can write:
both printed forms are read back, the texts with nanoseconds sort in time order, and adding a
nanosecond gives a later instant where it gives one. -/
structure Library.ClockLaws [LinearOrder T] (lib : Library T) : Prop where
  parse_plain : ∀ t, lib.parseRfc3339 (lib.toRfc3339 t) = .ok t
  parse_nanos : ∀ t, lib.parseRfc3339 (lib.toRfc3339Nanos t) = .ok t
  nanos_lt : ∀ {t t'}, t < t' → lib.toRfc3339Nanos t < lib.toRfc3339Nanos t'
  add_lt : ∀ {t t'}, lib.checkedAddNanosecond t = some t' → t < t'

/-- The instants that a batch takes, one for each entry. -/
def batchInstants [LE T] [DecidableLE T] (lib : Library T) (lastTimestamp : Option T) :
    List (String × CreateAuditInput × T) → List T
  | [] => []
  | (_, _, now) :: entries =>
    let timestamp := nextAuditBatchTimestamp lib lastTimestamp now
    timestamp :: batchInstants lib (some timestamp) entries

/-- No batch takes the last instant that there is. -/
def Call.InRange [LE T] [DecidableLE T] (lib : Library T) : Call T → Prop
  | .single .. => True
  | .batch entries => ∀ t ∈ batchInstants lib none entries, (lib.checkedAddNanosecond t).isSome

end

/-! ## The two orders -/

instance : Std.TransCmp compareChronological :=
  inferInstanceAs (Std.TransCmp (compareLex (compareOn StoredAuditEntry.timestamp)
    (compareLex (compareOn StoredAuditEntry.workspaceId) (compareOn StoredAuditEntry.id))))

theorem id_eq_of_compareChronological {a b : StoredAuditEntry}
    (h : compareChronological a b = .eq) : a.id = b.id := by
  unfold compareChronological at h
  rw [Ordering.then_eq_eq, Ordering.then_eq_eq, compare_eq_iff_eq (a := a.id)] at h
  exact h.2.2

/-- The chronological order of the rows. -/
theorem pairwise_sortEntriesChronological (r : List StoredAuditEntry) :
    (sortEntriesChronological r).Pairwise fun a b => compareChronological a b ≠ .gt :=
  List.pairwise_insertionSort _ r

theorem sortEntriesChronological_perm (r : List StoredAuditEntry) :
    (sortEntriesChronological r).Perm r :=
  List.perm_insertionSort _ r

theorem eq_of_compareChronological {r : List StoredAuditEntry} (hi : (r.map (·.id)).Nodup) :
    ∀ a ∈ r, ∀ b ∈ r, compareChronological a b = .eq → a = b := by
  intro a ha b hb h
  exact List.inj_on_of_nodup_map hi ha hb (id_eq_of_compareChronological h)

/-- Rows with identifiers of their own have one chronological order. -/
theorem eq_sortEntriesChronological {r sorted : List StoredAuditEntry}
    (hi : (r.map (·.id)).Nodup) (hp : sorted.Perm r)
    (hs : sorted.Pairwise fun a b => compareChronological a b ≠ .gt) :
    sortEntriesChronological r = sorted :=
  ComparisonSort.insertionSort_eq (eq_of_compareChronological hi) hp hs

theorem sortEntriesChronological_congr {r r' : List StoredAuditEntry}
    (hi : (r.map (·.id)).Nodup) (hp : r'.Perm r) :
    sortEntriesChronological r' = sortEntriesChronological r :=
  ComparisonSort.insertionSort_congr (eq_of_compareChronological hi) hp

/-- Rows that come after all others, in their own order, are sorted to the end. -/
theorem sort_append_iff {r xs : List StoredAuditEntry} {x : StoredAuditEntry}
    (hi : ((r ++ x :: xs).map (·.id)).Nodup)
    (hxs : (x :: xs).Pairwise fun a b => a.timestamp < b.timestamp) :
    sortEntriesChronological (r ++ x :: xs) = sortEntriesChronological r ++ x :: xs ↔
      ∀ row ∈ r, compareChronological row x = .lt := by
  have hp := sortEntriesChronological_perm r
  constructor
  · intro heq row hr
    have hs := pairwise_sortEntriesChronological (r ++ x :: xs)
    rw [heq, List.pairwise_append] at hs
    have hle := hs.2.2 row (hp.mem_iff.mpr hr) x List.mem_cons_self
    cases hc : compareChronological row x with
    | lt => rfl
    | eq =>
      rw [List.map_append, List.nodup_append] at hi
      exact absurd (id_eq_of_compareChronological hc)
        (hi.2.2 _ (List.mem_map_of_mem hr) _ (List.mem_map_of_mem List.mem_cons_self))
    | gt => exact absurd hc hle
  · intro ha
    have hl : (x :: xs).Pairwise fun a b => compareChronological a b = .lt := by
      refine hxs.imp fun hlt => ?_
      unfold compareChronological
      rw [compare_lt_iff_lt.mpr hlt]
      rfl
    refine eq_sortEntriesChronological hi (hp.append_right _)
      (List.pairwise_append.mpr ⟨pairwise_sortEntriesChronological r, ?_, ?_⟩)
    · exact hl.imp fun h => by rw [h]; decide
    · intro row hr y hy
      have hf := ha row (hp.subset hr)
      rcases List.mem_cons.mp hy with rfl | hy
      · rw [hf]
        decide
      · have hlt := Std.TransCmp.lt_trans hf ((List.pairwise_cons.mp hl).1 y hy)
        rw [hlt]
        decide

/-- Rows that the table takes are appended, and their identifiers are new. -/
theorem foldlM_insertRow {lib : Library T} (xs : List StoredAuditEntry) :
    ∀ {r r' : List StoredAuditEntry}, xs.foldlM (insertRow lib) r = .ok r' → (r.map (·.id)).Nodup →
      r' = r ++ xs ∧ (r'.map (·.id)).Nodup := by
  induction xs with
  | nil =>
    intro r r' h hi
    cases h
    exact ⟨(List.append_nil r).symm, hi⟩
  | cons x xs ih =>
    intro r r' h hi
    rw [List.foldlM_cons] at h
    obtain ⟨r₁, hf, hr⟩ := Except.bind_eq_ok_iff.mp h
    unfold insertRow at hf
    split at hf
    · cases hf
    rename_i hn
    split at hf
    · cases hf
    cases hf
    obtain ⟨rfl, hi'⟩ := ih hr (by
      rw [List.map_append, List.map_cons, List.map_nil, ← List.concat_eq_append]
      exact hi.concat hn)
    exact ⟨by rw [List.append_assoc, List.singleton_append], hi'⟩

theorem latestAuditRow_mem {r : List StoredAuditEntry} {row : StoredAuditEntry}
    (h : latestAuditRow r = some row) : row ∈ r := by
  have hm := List.mem_of_head? h
  rw [List.mem_insertionSort] at hm
  exact (List.mem_filter.mp hm).1

/-! ## What a call inserts -/

section

variable [JsonStrings]

/-- Every row holds its own hash and a timestamp that can be read, and has an identifier of
its own. -/
structure Honest (lib : Library T) (rows : List StoredAuditEntry) : Prop where
  ids : (rows.map (·.id)).Nodup
  sealed' : ∀ row ∈ rows, Sealed lib row
  readable : ∀ row ∈ rows, ∃ t, lib.parseRfc3339 row.timestamp = .ok t

theorem sealed_sealRow (lib : Library T) (en : StoredAuditEntry) :
    Sealed lib (sealRow lib en) := rfl

/-- The tip of an honest log is a row with its own hash. -/
theorem Honest.latestAuditRowHash_eq {lib : Library T} {r : List StoredAuditEntry}
    (hh : Honest lib r) :
    latestAuditRowHash r = (latestAuditRow r).map (computeAuditRowHash lib) := by
  unfold latestAuditRowHash
  cases ht : latestAuditRow r with
  | none => rfl
  | some tip => exact hh.sealed' tip (latestAuditRow_mem ht)

/-- Only an empty log has no tip. -/
theorem Honest.eq_nil_of_latestAuditRow {lib : Library T} {r : List StoredAuditEntry}
    (hh : Honest lib r) (h : latestAuditRow r = none) : r = [] := by
  unfold latestAuditRow at h
  rw [List.head?_eq_none_iff, ← List.length_eq_zero_iff, List.length_insertionSort,
    List.length_eq_zero_iff, List.filter_eq_nil_iff] at h
  rw [List.eq_nil_iff_forall_not_mem]
  intro row hr
  refine h row hr ?_
  rw [hh.sealed' row hr]
  rfl

/-- If the rows still form a chain after a call, the call continued it from its last row: a row
that already follows the tip would name the same hash as the first new one. -/
theorem Honest.tip_eq_last {lib : Library T} {r xs : List StoredAuditEntry}
    {x : StoredAuditEntry} (hh : Honest lib r)
    (hl : Linked (·.prevRowHash) (computeAuditRowHash lib) none (sortEntriesChronological r))
    (hx : x.prevRowHash = latestAuditRowHash r) (hi : ((r ++ x :: xs).map (·.id)).Nodup)
    (hn : ((r ++ x :: xs).map (·.prevRowHash)).Nodup) :
    latestAuditRow r = (sortEntriesChronological r).getLast? := by
  have hp := sortEntriesChronological_perm r
  cases ht : latestAuditRow r with
  | none =>
    rw [hh.eq_nil_of_latestAuditRow ht]
    rfl
  | some tip =>
    have hm := hp.mem_iff.mpr (latestAuditRow_mem ht)
    obtain ⟨b, after, hs⟩ := List.append_of_mem hm
    rw [hs] at hl ⊢
    cases after with
    | nil => rw [List.getLast?_concat]
    | cons next after =>
      exfalso
      have hne : next.prevRowHash = some (computeAuditRowHash lib tip) :=
        ((linked_append _ _ _).mp hl).2.2.1
      rw [hh.latestAuditRowHash_eq, ht, Option.map_some, ← hne] at hx
      have hm' : next ∈ r := hp.subset (by rw [hs]; simp)
      obtain rfl : x = next := List.inj_on_of_nodup_map hn (by simp) (by simp [hm']) hx
      rw [List.map_append, List.nodup_append] at hi
      exact hi.2.2 _ (List.mem_map_of_mem hm') _ (List.mem_map_of_mem List.mem_cons_self) rfl

/-- **What one call needs.**  New rows keep the chain exactly when they continue it from its
last row and come after all rows that are there. -/
theorem Honest.linked_append_iff {lib : Library T} (hd : Function.Injective lib.digest)
    {r xs : List StoredAuditEntry} {x : StoredAuditEntry} (hh : Honest lib r)
    (hl : Linked (·.prevRowHash) (computeAuditRowHash lib) none (sortEntriesChronological r))
    (hh' : Honest lib (r ++ x :: xs))
    (hne : Linked (·.prevRowHash) (computeAuditRowHash lib) (latestAuditRowHash r) (x :: xs))
    (hxs : (x :: xs).Pairwise fun a b => a.timestamp < b.timestamp) :
    Linked (·.prevRowHash) (computeAuditRowHash lib) none
        (sortEntriesChronological (r ++ x :: xs)) ↔
      latestAuditRow r = (sortEntriesChronological r).getLast? ∧
        ∀ row ∈ r, compareChronological row x = .lt := by
  have hp := sortEntriesChronological_perm r
  have hp' := sortEntriesChronological_perm (r ++ x :: xs)
  -- from the last row on the new rows continue the chain
  have hc : latestAuditRow r = (sortEntriesChronological r).getLast? →
      Linked (·.prevRowHash) (computeAuditRowHash lib) none
        (sortEntriesChronological r ++ x :: xs) := by
    intro ht
    rw [linked_append, endOf_none, ← ht, ← hh.latestAuditRowHash_eq]
    exact ⟨hl, hne⟩
  constructor
  · intro hch
    have hn := (hp'.map _).nodup_iff.mp (hch.nodup_prev
      (List.Nodup.of_map _ ((hp'.map _).nodup_iff.mpr hh'.ids))
      ((injOn_computeAuditRowHash hd).mono fun row hr => hh'.sealed' row (hp'.subset hr)))
    have ht := hh.tip_eq_last hl hne.1 hh'.ids hn
    refine ⟨ht, (sort_append_iff hh'.ids hxs).mp ?_⟩
    exact hch.eq_of_perm (hc ht) (hp'.trans (hp.append_right _).symm) ((hp'.map _).nodup_iff.mpr hn)
  · rintro ⟨ht, ha⟩
    rw [(sort_append_iff hh'.ids hxs).mpr ha]
    exact hc ht

/-! ## Calls -/

section Calls

variable [LinearOrder T] {lib : Library T}

/-- The rows of a batch form a chain of sealed rows. -/
theorem linked_prepareBatch (entries : List (String × CreateAuditInput × T)) :
    ∀ (prevHash : Option String) (lti : Option T), Linked (·.prevRowHash)
      (computeAuditRowHash lib) prevHash
        (prepareBatch lib prevHash lti entries) ∧
      ∀ row ∈ prepareBatch lib prevHash lti entries, Sealed lib row := by
  induction entries with
  | nil =>
    intro prevHash lti
    exact ⟨trivial, by simp [prepareBatch]⟩
  | cons en entries ih =>
    obtain ⟨id, inp, now⟩ := en
    intro prevHash lti
    obtain ⟨hl, hs⟩ := ih _ (some (nextAuditBatchTimestamp lib lti now))
    refine ⟨⟨rfl, hl⟩, ?_⟩
    rw [prepareBatch, List.forall_mem_cons]
    exact ⟨sealed_sealRow lib _, hs⟩

omit [JsonStrings] in
/-- The next instant of a batch is later than the last one. -/
theorem lt_nextAuditBatchTimestamp (hc : lib.ClockLaws) {previous : T}
    (hp : (lib.checkedAddNanosecond previous).isSome) (now : T) :
    previous < nextAuditBatchTimestamp lib (some previous) now := by
  unfold nextAuditBatchTimestamp
  simp only
  split
  · obtain ⟨next, ha⟩ := Option.isSome_iff_exists.mp hp
    rw [ha]
    exact hc.add_lt ha
  · rename_i hl
    exact not_le.mp hl

/-- The rows of a batch carry printed instants. -/
theorem printed_prepareBatch (entries : List (String × CreateAuditInput × T)) :
    ∀ (prevRowHash : Option String) (last : Option T),
      ∀ row ∈ prepareBatch lib prevRowHash last entries,
        ∃ t, row.timestamp = lib.toRfc3339Nanos t := by
  induction entries with
  | nil =>
    intro prevRowHash last row hr
    cases hr
  | cons entry entries ih =>
    intro prevRowHash last
    rw [prepareBatch, List.forall_mem_cons]
    exact ⟨⟨_, rfl⟩, ih _ _⟩

/-- The rows of a batch carry printed instants that increase. -/
theorem timestamps_prepareBatch (hc : lib.ClockLaws)
    (entries : List (String × CreateAuditInput × T)) :
    ∀ (prevRowHash : Option String) (last : Option T),
      (∀ previous ∈ last, (lib.checkedAddNanosecond previous).isSome) →
      (∀ t ∈ batchInstants lib last entries, (lib.checkedAddNanosecond t).isSome) →
      (∀ row ∈ prepareBatch lib prevRowHash last entries,
        ∃ t, row.timestamp = lib.toRfc3339Nanos t ∧ ∀ previous ∈ last, previous < t) ∧
      (prepareBatch lib prevRowHash last entries).Pairwise
        fun a b => a.timestamp < b.timestamp := by
  induction entries with
  | nil =>
    intro prevRowHash last _ _
    exact ⟨by simp [prepareBatch], List.Pairwise.nil⟩
  | cons entry entries ih =>
    obtain ⟨id, input, now⟩ := entry
    intro prevRowHash last hl hr
    rw [batchInstants, List.forall_mem_cons] at hr
    rw [prepareBatch]
    obtain ⟨hta, hpa⟩ := ih (sealRow lib (buildAuditEntry lib id input
        (lib.toRfc3339Nanos (nextAuditBatchTimestamp lib last now)) prevRowHash
        none)).thisRowHash
      (some (nextAuditBatchTimestamp lib last now))
      (fun previous hp => Option.some.inj hp ▸ hr.1) hr.2
    have hf : ∀ previous ∈ last, previous < nextAuditBatchTimestamp lib last now := by
      intro previous hp
      rw [Option.mem_def.mp hp]
      exact lt_nextAuditBatchTimestamp hc (hl previous hp) now
    refine ⟨List.forall_mem_cons.mpr ⟨⟨_, rfl, hf⟩, ?_⟩, List.pairwise_cons.mpr ⟨?_, hpa⟩⟩
    · intro row hr
      obtain ⟨t, ht, hlt⟩ := hta row hr
      exact ⟨t, ht, fun ps hp => (hf ps hp).trans (hlt _ rfl)⟩
    · intro row hr
      obtain ⟨t, ht, hlt⟩ := hta row hr
      rw [ht]
      exact hc.nanos_lt (hlt _ rfl)

/-- The rows of a call continue the chain from the tip, sealed. -/
theorem Call.linked_newRows (r : List StoredAuditEntry) (c : Call T) :
    Linked (·.prevRowHash) (computeAuditRowHash lib) (latestAuditRowHash r) (c.newRows lib r) ∧
      ∀ row ∈ c.newRows lib r, Sealed lib row := by
  cases c with
  | single id inp mki now =>
    refine ⟨⟨rfl, trivial⟩, ?_⟩
    intro row hr
    rw [List.mem_singleton.mp hr]
    exact sealed_sealRow lib _
  | batch entries => exact linked_prepareBatch entries _ none

/-- The timestamps of a call can be read. -/
theorem Call.readable_newRows (hc : lib.ClockLaws) (rows : List StoredAuditEntry)
    (call : Call T) :
    ∀ row ∈ call.newRows lib rows, ∃ t, lib.parseRfc3339 row.timestamp = .ok t := by
  intro row hr
  cases call with
  | single id input mutationKind now =>
    rw [List.mem_singleton.mp hr]
    exact ⟨now, hc.parse_plain now⟩
  | batch entries =>
    obtain ⟨t, ht⟩ := printed_prepareBatch entries _ none row hr
    exact ⟨t, by rw [ht]; exact hc.parse_nanos t⟩

/-- The timestamps of a call increase. -/
theorem Call.increasing_newRows (hc : lib.ClockLaws) (rows : List StoredAuditEntry)
    {call : Call T} (hr : call.InRange lib) :
    (call.newRows lib rows).Pairwise fun a b => a.timestamp < b.timestamp := by
  cases call with
  | single id input mutationKind now => exact List.pairwise_singleton _ _
  | batch entries => exact (timestamps_prepareBatch hc entries _ none (by simp) hr).2

theorem Call.perform_spec {r r' : List StoredAuditEntry} {c : Call T}
    (h : c.perform lib r = .ok r') (hi : (r.map (·.id)).Nodup) :
    r' = r ++ c.newRows lib r ∧ (r'.map (·.id)).Nodup :=
  foldlM_insertRow _ h hi

/-- A call adds only rows with their own hashes. -/
theorem Honest.perform (hc : lib.ClockLaws) {r r' : List StoredAuditEntry}
    {c : Call T} (hh : Honest lib r) (h : c.perform lib r = .ok r') :
    Honest lib r' := by
  obtain ⟨rfl, hi⟩ := Call.perform_spec h hh.ids
  refine ⟨hi, ?_, ?_⟩
  · intro row hr
    rcases List.mem_append.mp hr with hr | hr
    · exact hh.sealed' row hr
    · exact (c.linked_newRows r).2 row hr
  · intro row hr
    rcases List.mem_append.mp hr with hr | hr
    · exact hh.readable row hr
    · exact c.readable_newRows hc r row hr

omit [JsonStrings] in
/-- Readable timestamps pass the filter without bounds. -/
theorem filterEntries_readable {entries : List StoredAuditEntry}
    (hr : ∀ row ∈ entries, ∃ t, lib.parseRfc3339 row.timestamp = .ok t) :
    filterEntries lib none none none none none entries = .ok entries := by
  induction entries with
  | nil => rfl
  | cons en entries ih =>
    rw [List.forall_mem_cons] at hr
    obtain ⟨⟨t, ht⟩, hre⟩ := hr
    rw [filterEntries, parseRequiredInstant, ht, ih hre]
    rfl

/-- The report on an honest log says whether its rows, in chronological order, form a chain. -/
theorem intact_iff_linked (hd : Function.Injective lib.digest)
    {r : List StoredAuditEntry} (hh : Honest lib r) :
    Intact lib r ↔ Linked (·.prevRowHash) (computeAuditRowHash lib) none
      (sortEntriesChronological r) := by
  have hp := sortEntriesChronological_perm r
  have hs : ∀ row ∈ sortEntriesChronological r, Sealed lib row :=
    fun row hro => hh.sealed' row (hp.subset hro)
  have hl : sortEntriesChronological (listAuditEntries r) = sortEntriesChronological r :=
    sortEntriesChronological_congr hh.ids (List.perm_insertionSort _ r)
  have hf := filterEntries_readable fun row hro => hh.readable row (hp.subset hro)
  constructor
  · rintro ⟨-, report, hr, hok⟩
    obtain ⟨c, hc, ha, -⟩ := verifyEntries_spec hr
    rw [hl, hf] at hc
    cases hc
    exact (ha.mp hok).1
  · intro hli
    refine ⟨?_, ?_⟩
    · have hn := hli.nodup_prev (List.Nodup.of_map _ (hp.map _ |>.nodup_iff.mpr
        hh.ids)) ((injOn_computeAuditRowHash hd).mono hs)
      exact (hp.map _).nodup_iff.mp hn
    · rw [← hl] at hf
      obtain ⟨report, hr, hok, -⟩ := verifyEntries_of_filter hf
      rw [hl] at hok
      exact ⟨report, hr, hok.mpr ⟨hli, hs⟩⟩

/-- Where the first row of a call belongs: the text of the clock reading, the workspace and the
identifier. -/
def Call.firstKey (lib : Library T) : Call T → Option (String × Option String × String)
  | .single id input _ now => some (lib.toRfc3339 now, input.workspaceId, id)
  | .batch [] => none
  | .batch ((id, input, now) :: _) => some (lib.toRfc3339Nanos now, input.workspaceId, id)

/-- The row comes before such a place. -/
def StoredAuditEntry.Before (row : StoredAuditEntry) (key : String × Option String × String) :
    Prop :=
  (compare row.timestamp key.1).then
    ((compare row.workspaceId key.2.1).then (compare row.id key.2.2)) = .lt

/-- A call starts after the log: the row that the writer takes as the tip is the last one of
the verifier's order, and all rows come before the first row of the call. -/
def Call.StartsAfter (lib : Library T) (rows : List StoredAuditEntry) (call : Call T) : Prop :=
  ∀ key ∈ call.firstKey lib,
    latestAuditRow rows = (sortEntriesChronological rows).getLast? ∧ ∀ row ∈ rows, row.Before key

theorem Call.newRows_of_firstKey (lib : Library T) (r : List StoredAuditEntry) (c : Call T) :
    (c.firstKey lib = none ∧ c.newRows lib r = []) ∨ ∃ x xs, c.newRows lib r = x :: xs ∧
        c.firstKey lib = some (x.timestamp, x.workspaceId, x.id) := by
  cases c with
  | single id inp mki now => exact Or.inr ⟨_, _, rfl, rfl⟩
  | batch entries =>
    cases entries with
    | nil => exact Or.inl ⟨rfl, rfl⟩
    | cons en entries => exact Or.inr ⟨_, _, rfl, rfl⟩

/-- A call that the table takes keeps an intact log intact exactly when it starts after it. -/
theorem Honest.intact_perform_iff (hd : Function.Injective lib.digest)
    (hc : lib.ClockLaws) {r r' : List StoredAuditEntry} {c : Call T}
    (hh : Honest lib r) (hi : Intact lib r) (hr : c.InRange lib)
    (h : c.perform lib r = .ok r') :
    Intact lib r' ↔ c.StartsAfter lib r := by
  have hh' := hh.perform hc h
  obtain ⟨rfl, -⟩ := Call.perform_spec h hh.ids
  have hl := (intact_iff_linked hd hh).mp hi
  rcases c.newRows_of_firstKey lib r with ⟨hk, hni⟩ | ⟨x, xs, hn, hk⟩
  · rw [hni, List.append_nil]
    refine iff_of_true hi ?_
    intro key hm
    rw [hk] at hm
    cases hm
  · rw [intact_iff_linked hd hh']
    rw [hn] at hh' ⊢
    rw [hh.linked_append_iff hd hl hh'
      (hn ▸ (c.linked_newRows r).1) (hn ▸ Call.increasing_newRows hc r hr)]
    unfold Call.StartsAfter
    rw [hk]
    constructor
    · rintro ha key ⟨⟩
      exact ha
    · intro ha
      have hfirst := ha _ rfl
      exact hfirst

/-! ## Whole runs -/

theorem logAfter_concat (p : List (Call T)) (c : Call T) :
    logAfter lib (p ++ [c]) = afterCall lib (logAfter lib p) c := by
  unfold logAfter
  rw [List.foldl_append, List.foldl_cons, List.foldl_nil]

/-- A call either fails and changes nothing or is performed. -/
theorem afterCall_cases (lib : Library T) (r : List StoredAuditEntry) (c : Call T) :
    (afterCall lib r c = r ∧ ∀ r', c.perform lib r ≠ .ok r') ∨
      ∃ r', c.perform lib r = .ok r' ∧ afterCall lib r c = r' := by
  unfold afterCall
  cases h : c.perform lib r with
  | error e => exact Or.inl ⟨rfl, fun r' h' => by cases h'⟩
  | ok r' => exact Or.inr ⟨r', rfl, rfl⟩

theorem honest_logAfter (hc : lib.ClockLaws) (cs : List (Call T)) :
    Honest lib (logAfter lib cs) := by
  induction cs using List.reverseRecOn with
  | nil => exact ⟨List.nodup_nil, by simp [logAfter], by simp [logAfter]⟩
  | append_singleton p c ih =>
    rw [logAfter_concat]
    rcases afterCall_cases lib (logAfter lib p) c with ⟨heq, -⟩ | ⟨r', h, heq⟩
    · rw [heq]
      exact ih
    · rw [heq]
      exact ih.perform hc h

theorem intact_nil (hd : Function.Injective lib.digest) : Intact lib [] := by
  have hh : Honest lib [] := ⟨List.nodup_nil, by simp, by simp⟩
  rw [intact_iff_linked hd hh]
  trivial

/-- Every call that the table takes starts after the log it finds. -/
def AllStartAfter (lib : Library T) (calls : List (Call T)) : Prop :=
  ∀ past (call : Call T) later, calls = past ++ call :: later →
    (∃ rows', call.perform lib (logAfter lib past) = .ok rows') →
      call.StartsAfter lib (logAfter lib past)

/-- **When the log of honest writers verifies.**  For every sequence of serialised calls and all
clock readings, as long as no batch takes the last instant that there is: the log is linear and
verifies after each of them if and only if every call that the table takes starts after the
log it finds. -/
theorem log_intact_iff (hdigest : Function.Injective lib.digest) (hclock : lib.ClockLaws)
    (calls : List (Call T)) (hrange : ∀ call ∈ calls, call.InRange lib) :
    (∀ past later, calls = past ++ later → Intact lib (logAfter lib past)) ↔
      AllStartAfter lib calls := by
  constructor
  · rintro hi past c later rfl ⟨r', h⟩
    have hn := hi (past ++ [c]) later (by simp)
    rw [logAfter_concat, afterCall, h] at hn
    exact ((honest_logAfter hclock past).intact_perform_iff hdigest hclock (hi past _ rfl)
      (hrange c (by simp)) h).mp hn
  · intro hs past
    induction past using List.reverseRecOn with
    | nil =>
      intro later _
      exact intact_nil hdigest
    | append_singleton past c ih =>
      intro later hc
      rw [List.append_assoc, List.singleton_append] at hc
      have hi := ih _ hc
      rw [logAfter_concat]
      rcases afterCall_cases lib (logAfter lib past) c with
        ⟨heq, -⟩ | ⟨r', h, heq⟩
      · rw [heq]
        exact hi
      · rw [heq]
        exact ((honest_logAfter hclock past).intact_perform_iff hdigest hclock hi
          (hrange c (by simp [hc])) h).mpr (hs past c later hc ⟨r', h⟩)

end Calls

end

/-! ## Two runs -/

attribute [local instance] serdeStrings

theorem sampleNanos_head {n : ℕ} (hn : 10 ≤ n) :
    (sampleNanos n).toList = '3' :: List.replicate n '9' := by
  unfold sampleNanos
  rw [if_neg (by omega), String.toList_append, String.toList_ofList, String.toList_ofList]
  exact List.singleton_append

theorem replicate_lt (c : Char) (n : ℕ) : ∀ {n' : ℕ}, n < n' →
    List.replicate n c < List.replicate n' c := by
  induction n with
  | zero =>
    intro n' h
    obtain ⟨k, rfl⟩ := Nat.exists_eq_succ_of_ne_zero h.ne'
    exact List.nil_lt_cons _ _
  | succ n ih =>
    intro n' h
    obtain ⟨k, rfl⟩ := Nat.exists_eq_succ_of_ne_zero (by omega : n' ≠ 0)
    rw [List.replicate_succ, List.replicate_succ, List.cons_lt_cons_iff]
    exact Or.inr ⟨rfl, ih (by omega)⟩

theorem sampleNanos_lt {n n' : ℕ} (h : n < n') : sampleNanos n < sampleNanos n' := by
  have hs : ∀ a < 10, (sampleNanos a).toList.head? = some '2' ∧
      ∀ b < 10, a < b → sampleNanos a < sampleNanos b := by
    decide +kernel
  by_cases hn' : n' < 10
  · exact (hs n (by omega)).2 n' hn' h
  have hh' := sampleNanos_head (not_lt.mp hn')
  rw [String.lt_iff_toList_lt, hh']
  by_cases hn : n < 10
  · cases hl : (sampleNanos n).toList with
    | nil => exact List.nil_lt_cons _ _
    | cons c r =>
      have hh := (hs n hn).1
      rw [hl] at hh
      cases hh
      exact List.cons_lt_cons_iff.mpr (Or.inl (by decide))
  · rw [sampleNanos_head (not_lt.mp hn), List.cons_lt_cons_iff]
    exact Or.inr ⟨rfl, replicate_lt '9' n h⟩

theorem sampleParse_sampleNanos (n : ℕ) : sampleParse (sampleNanos n) = .ok n := by
  have hs : ∀ a < 10, (samplePlain 0).toList.head? = some '2' ∧
      (sampleNanos a).toList.head? = some '2' ∧
      (sampleParse (sampleNanos a)).toOption = some a := by
    decide +kernel
  by_cases hn : n < 10
  · have h := (hs n hn).2.2
    cases hp : sampleParse (sampleNanos n) with
    | error e => rw [hp] at h; cases h
    | ok m =>
      rw [hp] at h
      rw [Option.some.inj h]
  · have hh := sampleNanos_head (not_lt.mp hn)
    have ho : ∀ text : String, text.toList.head? = some '2' → text ≠ sampleNanos n := by
      rintro text ht rfl
      rw [hh] at ht
      cases ht
    have hl : (sampleNanos n).length - 1 = n := by
      rw [← String.length_toList, hh]
      simp
    unfold sampleParse
    rw [if_neg (ho _ (hs 0 (by omega)).1).symm]
    have hno : (List.range 10).find? (fun a => sampleNanos a = sampleNanos n) = none := by
      rw [List.find?_eq_none]
      intro a ha
      simpa using ho _ (hs a (List.mem_range.mp ha)).2.1
    rw [hno]
    simp only
    rw [hl, if_pos rfl]

theorem sampleParse_samplePlain (n : ℕ) : sampleParse (samplePlain n) = .ok n := by
  by_cases hn : n = 0
  · subst hn
    exact if_pos rfl
  · rw [samplePlain, if_neg hn]
    exact sampleParse_sampleNanos n

theorem sampleLibrary_clockLaws : sampleLibrary.ClockLaws where
  parse_plain := sampleParse_samplePlain
  parse_nanos := sampleParse_sampleNanos
  nanos_lt := sampleNanos_lt
  add_lt {n n'} h := by
    cases h
    exact Nat.lt_succ_self n

theorem sampleLibrary_inRange (call : Call ℕ) : call.InRange sampleLibrary := by
  cases call with
  | single id input mutationKind now => trivial
  | batch entries => exact fun _ _ => rfl

/-- The input of every sample call. -/
def sampleInput : CreateAuditInput := ⟨none, none, "memory.create", none, none, none⟩

/-- One insert and a batch of two at one clock reading. -/
def sampleCalls : List (Call ℕ) :=
  [.single "audit_00000000000000000000000001" sampleInput none 0,
    .batch [("audit_00000000000000000000000002", sampleInput, 0),
      ("audit_00000000000000000000000003", sampleInput, 0)]]

/-- A row is what its columns are sealed to. -/
theorem sealRow_eq {lib : Library T} {row en : StoredAuditEntry} (hs : Sealed lib row)
    (he : { row with thisRowHash := none } = en) : sealRow lib en = row := by
  subst he
  unfold sealRow
  have hh : computeAuditRowHash lib { row with thisRowHash := none }
      = computeAuditRowHash lib row := rfl
  rw [hh, ← hs]

/-- A single insert of the sample library, row by row. -/
theorem afterCall_sampleSingle {r : List StoredAuditEntry} {row : StoredAuditEntry} {id : String}
    (hs : Sealed sampleLibrary row)
    (hr : { row with thisRowHash := none }
      = buildAuditEntry sampleLibrary id sampleInput (samplePlain 0) (latestAuditRowHash r) none)
    (hn : row.id ∉ r.map (·.id)) :
    afterCall sampleLibrary r (.single id sampleInput none 0) = r ++ [row] := by
  have hp : (Call.single id sampleInput none 0).perform sampleLibrary r = .ok (r ++ [row]) := by
    show [sealRow sampleLibrary (buildAuditEntry sampleLibrary id sampleInput (samplePlain 0)
      (latestAuditRowHash r) none)].foldlM (insertRow sampleLibrary) r = _
    rw [sealRow_eq hs hr, List.foldlM_cons, insertRow, if_neg hn]
    rfl
  rw [afterCall, hp]
  rfl

theorem logAfter_sampleCall :
    logAfter sampleLibrary [.single "audit_00000000000000000000000001" sampleInput none 0]
      = [sampleFirst] := by
  have hf : afterCall sampleLibrary []
      (.single "audit_00000000000000000000000001" sampleInput none 0) = [sampleFirst] :=
    afterCall_sampleSingle sealed_sampleFirst (by decide +kernel) (by simp)
  unfold logAfter
  rw [List.foldl_cons, hf, List.foldl_nil]

/-- The batch starts after the row of the insert, and moves its second reading. -/
theorem sample_calls_intact : AllStartAfter sampleLibrary sampleCalls ∧
      ∀ past later, sampleCalls = past ++ later →
        Intact sampleLibrary (logAfter sampleLibrary past) := by
  have hs : AllStartAfter sampleLibrary sampleCalls := by
    intro past c later hsp _ key hk
    rcases past with _ | ⟨first, _ | ⟨s, past⟩⟩
    · exact ⟨rfl, by simp [logAfter]⟩
    · obtain ⟨rfl, hr⟩ := List.cons.inj hsp
      obtain ⟨rfl, -⟩ := List.cons.inj hr
      cases hk
      rw [logAfter_sampleCall]
      refine ⟨rfl, ?_⟩
      intro row hro
      rw [List.mem_singleton.mp hro]
      unfold StoredAuditEntry.Before
      decide +kernel
    · simp [sampleCalls] at hsp
  exact ⟨hs, (log_intact_iff sampleLibrary_injective sampleLibrary_clockLaws _
    fun call _ => sampleLibrary_inRange call).mpr hs⟩

/-- Three inserts at one clock reading, the second under a smaller identifier. -/
def forkingCalls : List (Call ℕ) :=
  [.single "audit_00000000000000000000000002" sampleInput none 0,
    .single "audit_00000000000000000000000001" sampleInput none 0,
    .single "audit_00000000000000000000000003" sampleInput none 0]

theorem sealed_sampleForkRoot : Sealed sampleLibrary sampleForkRoot :=
  sealed_of_mem_sampleRows (by simp [sampleRows] : (sampleForkRoot, forkRootDigest) ∈ sampleRows)

theorem sealed_sampleForkLeft : Sealed sampleLibrary sampleForkLeft :=
  sealed_of_mem_sampleRows (by simp [sampleRows] : (sampleForkLeft, forkLeftDigest) ∈ sampleRows)

theorem sealed_sampleForkRight : Sealed sampleLibrary sampleForkRight :=
  sealed_of_mem_sampleRows (by simp [sampleRows] : (sampleForkRight, forkRightDigest) ∈ sampleRows)

theorem logAfter_forkingCalls : logAfter sampleLibrary forkingCalls
    = [sampleForkRoot, sampleForkLeft, sampleForkRight] := by
  have hro : afterCall sampleLibrary []
      (.single "audit_00000000000000000000000002" sampleInput none 0) = [sampleForkRoot] :=
    afterCall_sampleSingle sealed_sampleForkRoot (by decide +kernel) (by simp)
  have hl : afterCall sampleLibrary [sampleForkRoot]
      (.single "audit_00000000000000000000000001" sampleInput none 0)
        = [sampleForkRoot, sampleForkLeft] :=
    afterCall_sampleSingle sealed_sampleForkLeft (by decide +kernel) (by decide +kernel)
  have hr : afterCall sampleLibrary [sampleForkRoot, sampleForkLeft]
      (.single "audit_00000000000000000000000003" sampleInput none 0)
        = [sampleForkRoot, sampleForkLeft, sampleForkRight] :=
    afterCall_sampleSingle sealed_sampleForkRight (by decide +kernel) (by decide +kernel)
  unfold logAfter forkingCalls
  rw [List.foldl_cons, hro, List.foldl_cons, hl, List.foldl_cons, hr, List.foldl_nil]

/-- The second row sorts before the first, which stays the tip: two rows name the same hash and
the log does not verify. -/
theorem equal_readings_fork :
    logAfter sampleLibrary forkingCalls = [sampleForkRoot, sampleForkLeft, sampleForkRight] ∧
      sampleForkLeft.prevRowHash = sampleForkRight.prevRowHash ∧
      (∀ report, verifyAudit sampleLibrary (logAfter sampleLibrary forkingCalls) none none
        = .ok report → report.integrityOk = false) ∧
      ¬ Intact sampleLibrary (logAfter sampleLibrary forkingCalls) := by
  have hf : ¬ ([sampleForkRoot, sampleForkLeft, sampleForkRight].map (·.prevRowHash)).Nodup := by
    simp [sampleForkLeft, sampleForkRight, sampleRow]
  refine ⟨logAfter_forkingCalls, rfl, ?_, ?_⟩
  · intro report hr
    rw [logAfter_forkingCalls] at hr
    obtain ⟨r, hro, ha, -⟩ := verifyEntries_spec hr
    have hs : filterEntries sampleLibrary none none none none none
        (sortEntriesChronological (listAuditEntries
          [sampleForkRoot, sampleForkLeft, sampleForkRight]))
          = .ok [sampleForkLeft, sampleForkRoot, sampleForkRight] := by
      rfl
    obtain rfl : r = [sampleForkLeft, sampleForkRoot, sampleForkRight] :=
      Except.ok.inj (hro.symm.trans hs)
    by_contra hok
    have hl := (ha.mp (by simpa using hok)).1.1
    cases hl
  · rw [logAfter_forkingCalls]
    exact fun hi => hf hi.1

end Audit
