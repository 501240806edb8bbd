/-
# The recent rows of the daemon journal

`RecentRows` retains the newest job rows of a scan, at most a number of rows and at most a number
of bytes.  The rows come in any order.  A row that is left out is a barrier: no row behind it is
retained afterwards, even if it is small enough.

What a row weighs is the memory it holds: the record itself and the capacity of its strings, which
is at least the length of their text but not a function of it.
-/
import EideticEngine.JobJournal
import EideticEngine.MachineInt
import EideticEngine.PrefixBudget
import EideticEngine.TextOrder

namespace DetailBudget

open JobJournal (DaemonJobRow)
open PrefixBudget (Fits IsLongestFit Window)
open RustText (strCmp)
open StableSort (sortBy)

/-! ## What a row weighs -/

/-- `MAX_DETAIL_BYTES`. -/
def maxDetailBytes : ℕ := 4 * 1024 * 1024

/-- The required texts of a row, in the order of `retained_bytes`. -/
def requiredTexts (row : DaemonJobRow) : List String :=
  [row.schema, row.rowId, row.runId, row.daemonJobKey, row.runnerJobId, row.jobType, row.status,
    row.workspace, row.writeOwnerId, row.reason, row.recordedAt]

/-- The optional texts of a row, in the order of `retained_bytes`. -/
def optionalTexts (row : DaemonJobRow) : List (Option String) :=
  [row.outcome, row.startedAt, row.completedAt, row.error, row.recoveryReason]

/-- A row in memory: the capacities of its strings, the required ones and then those of the
optional ones that are there. -/
structure HeldRow where
  row : DaemonJobRow
  capacities : List ℕ
  holds : List.Forall₂ (fun text capacity => text.utf8ByteSize ≤ capacity)
    (requiredTexts row ++ (optionalTexts row).filterMap id) capacities

/-- `retained_bytes`, where the record itself takes `sizeOfRow` bytes. -/
def retainedBytes (sizeOfRow : ℕ) (held : HeldRow) : ℕ :=
  held.capacities.foldl satAdd64 sizeOfRow

/-- The place of a row: when it was recorded, and its key. -/
def sortKey (held : HeldRow) : String × String :=
  (held.row.recordedAt, held.row.daemonJobKey)

/-- `compare`: newest first, then by key. -/
def compareKeys (left right : String × String) : Ordering :=
  (strCmp right.1 left.1).then (strCmp left.2 right.2)

/-- `compare` of two rows. -/
def compareRows (left right : HeldRow) : Ordering :=
  compareKeys (sortKey left) (sortKey right)

/-! ## The buffer -/

/-- `RecentRows`. -/
structure RecentRows where
  rows : List HeldRow
  cutoff : Option (String × String)
  rowLimit : ℕ
  byteLimit : ℕ

/-- `RecentRows::new`. -/
def RecentRows.new (rowLimit byteLimit : ℕ) : RecentRows := ⟨[], none, rowLimit, byteLimit⟩

variable (sizeOfRow : ℕ)

/-- The loop of `push` that counts the rows to keep. -/
def keepLoop (byteLimit : ℕ) : List HeldRow → ℕ → ℕ → ℕ
  | [], _, keep => keep
  | held :: rows, used, keep =>
    if byteLimit - used < retainedBytes sizeOfRow held then keep
    else keepLoop byteLimit rows (used + retainedBytes sizeOfRow held) (keep + 1)

/-- The row is at or behind the cutoff. -/
def behindCutoff (cutoff : Option (String × String)) (held : HeldRow) : Bool :=
  match cutoff with
  | none => false
  | some (recordedAt, key) =>
    (strCmp recordedAt held.row.recordedAt).then (strCmp held.row.daemonJobKey key) ≠ .lt

/-- `RecentRows::push`. -/
def RecentRows.push (recent : RecentRows) (held : HeldRow) : RecentRows :=
  if recent.rowLimit = 0 then recent
  else if behindCutoff recent.cutoff held then recent
  else
    let rows := sortBy compareRows (recent.rows ++ [held])
    let keep := keepLoop sizeOfRow recent.byteLimit (rows.take recent.rowLimit) 0 0
    match rows[keep]? with
    | some excluded =>
      { recent with rows := rows.take keep, cutoff := some (sortKey excluded) }
    | none => { recent with rows := rows }

/-- The rows pushed one by one into a new buffer. -/
def pushAll (rowLimit byteLimit : ℕ) (rows : List HeldRow) : RecentRows :=
  rows.foldl (RecentRows.push sizeOfRow) (RecentRows.new rowLimit byteLimit)

/-! ## The order of the rows -/

instance : Std.TransCmp compareKeys :=
  have : Std.TransCmp fun l r : String × String => strCmp l.1 r.1 :=
    ComparisonSort.transCmp_on Prod.fst
  have : Std.TransCmp fun l r : String × String => strCmp r.1 l.1 := Std.TransCmp.opposite
  have : Std.TransCmp fun l r : String × String => strCmp l.2 r.2 :=
    ComparisonSort.transCmp_on Prod.snd
  inferInstanceAs (Std.TransCmp
    (compareLex (fun l r : String × String => strCmp r.1 l.1) fun l r => strCmp l.2 r.2))

instance : Std.LawfulEqCmp compareKeys where
  compare_self := Std.ReflCmp.compare_self
  eq_of_compare h := by
    obtain ⟨hfirst, hsecond⟩ := Ordering.then_eq_eq.mp h
    exact Prod.ext (Std.LawfulEqCmp.eq_of_compare hfirst).symm
      (Std.LawfulEqCmp.eq_of_compare hsecond)

instance : Std.TransCmp compareRows :=
  ComparisonSort.transCmp_on sortKey

/-- Rows with distinct places compare equal only if they are equal. -/
theorem eq_of_compareRows {r : List HeldRow} (hd : (r.map sortKey).Nodup) :
    ∀ a ∈ r, ∀ b ∈ r, compareRows a b = .eq → a = b := by
  intro a ha b hb heq
  exact List.inj_on_of_nodup_map hd ha hb (Std.LawfulEqCmp.eq_of_compare heq)

theorem behindCutoff_some (b held : HeldRow) :
    behindCutoff (some (sortKey b)) held = true ↔ compareRows held b ≠ .lt :=
  decide_eq_true_iff

/-! ## The loop that counts -/

/-- The loop counts the longest beginning whose bytes stay within the limit. -/
theorem keepLoop_spec {byteLimit : ℕ} (r : List HeldRow) (used keep : ℕ) (hu : used ≤ byteLimit) :
    ∃ n ≤ r.length, keepLoop sizeOfRow byteLimit r used keep = keep + n
      ∧ used + ((r.take n).map (retainedBytes sizeOfRow)).sum ≤ byteLimit
      ∧ (n < r.length →
        byteLimit < used + ((r.take (n + 1)).map (retainedBytes sizeOfRow)).sum) := by
  induction r generalizing used keep with
  | nil => exact ⟨0, le_rfl, rfl, by simpa using hu, fun h => absurd h (Nat.lt_irrefl 0)⟩
  | cons held r ih =>
    rw [keepLoop]
    split
    · rename_i ho
      refine ⟨0, Nat.zero_le _, rfl, by simpa using hu, fun _ => ?_⟩
      simp only [Nat.zero_add, List.take_succ_cons, List.take_zero, List.map_cons, List.map_nil,
        List.sum_cons, List.sum_nil]
      omega
    · rename_i hw
      obtain ⟨n, hn, heq, hb, hne⟩ := ih (used + retainedBytes sizeOfRow held) (keep + 1) (by omega)
      refine ⟨n + 1, Nat.succ_le_succ hn, by rw [heq]; omega, ?_, ?_⟩
      · rw [List.take_succ_cons, List.map_cons, List.sum_cons, ← Nat.add_assoc]
        exact hb
      · intro hlt
        rw [List.take_succ_cons, List.map_cons, List.sum_cons, ← Nat.add_assoc]
        exact hne (Nat.lt_of_succ_lt_succ hlt)

/-- What the loop keeps of the first rows is within both limits, and one more row is not. -/
theorem keepLoop_fits (r : List HeldRow) (rowLimit byteLimit : ℕ) :
    ∃ n, keepLoop sizeOfRow byteLimit (r.take rowLimit) 0 0 = n ∧ n ≤ r.length
      ∧ Fits (retainedBytes sizeOfRow) rowLimit byteLimit (r.take n)
      ∧ ∀ e ∈ (r.drop n).head?,
        ¬ Fits (retainedBytes sizeOfRow) rowLimit byteLimit (r.take n ++ [e]) := by
  obtain ⟨n, hn, heq, hb, hne⟩ :=
    keepLoop_spec sizeOfRow (r.take rowLimit) 0 0 (Nat.zero_le byteLimit)
  rw [List.length_take] at hn hne
  rw [List.take_take, Nat.zero_add, Nat.min_eq_left (by omega)] at hb
  refine ⟨n, by rw [heq, Nat.zero_add], by omega, ⟨?_, hb⟩, ?_⟩
  · rw [List.length_take]
    omega
  · intro e he hf
    rw [List.head?_drop, Option.mem_def] at he
    have hlt : n < r.length := (List.getElem?_eq_some_iff.mp he).1
    have ht : r.take n ++ [e] = r.take (n + 1) := by
      rw [List.take_add_one, he, Option.toList_some]
    rw [ht] at hf
    have hr := hf.rows
    rw [List.length_take] at hr
    have ho := hne (by omega)
    rw [List.take_take, Nat.zero_add, Nat.min_eq_left (by omega)] at ho
    exact absurd hf.bytes (by omega)

/-! ## Pushing -/

section

variable {sizeOfRow}

/-- The buffer is a window over the rows that were pushed, and the cutoff is the place of its
barrier. -/
structure Holds (sizeOfRow rowLimit byteLimit : ℕ) (seen : List HeldRow) (recent : RecentRows) :
    Prop where
  rowLimit_eq : recent.rowLimit = rowLimit
  byteLimit_eq : recent.byteLimit = byteLimit
  window : ∃ rest, Window compareRows (retainedBytes sizeOfRow) rowLimit byteLimit seen recent.rows
    rest ∧ recent.cutoff = rest.head?.map sortKey

variable {rowLimit byteLimit : ℕ} {seen : List HeldRow} {recent : RecentRows} {held : HeldRow}

/-- **A push keeps the window.** -/
theorem Holds.push (h : Holds sizeOfRow rowLimit byteLimit seen recent) (hli : rowLimit ≠ 0)
    (hi : ∀ a ∈ seen ++ [held], ∀ b ∈ seen ++ [held], compareRows a b = .eq → a = b) :
    Holds sizeOfRow rowLimit byteLimit (seen ++ [held]) (recent.push sizeOfRow held) := by
  obtain ⟨hr, hby, r, hw, hc⟩ := h
  unfold RecentRows.push
  rw [if_neg (by rw [hr]; exact hli)]
  split
  · -- the row is at or behind the cutoff, so there is a barrier
    rename_i hb
    cases r with
    | nil =>
      rw [hc] at hb
      cases hb
    | cons ba r =>
      rw [hc, List.head?_cons, Option.map_some, behindCutoff_some] at hb
      have hgt : compareRows ba held ≠ .gt := by
        rw [ne_eq, Std.OrientedCmp.gt_iff_lt]
        exact hb
      obtain ⟨r', hs⟩ := hw.skip hi hgt
      exact ⟨hr, hby, ba :: r', hs, hc⟩
  · rename_i hf
    have hbe : ∀ ba ∈ r.head?, compareRows held ba ≠ .gt := by
      intro ba hba
      rw [hc, hba, Option.map_some, behindCutoff_some, not_not] at hf
      rw [hf]
      decide
    simp only [hr, hby]
    set ro := sortBy compareRows (recent.rows ++ [held]) with hrows
    obtain ⟨n, hk, hn, hfi, hfu⟩ := keepLoop_fits sizeOfRow ro rowLimit byteLimit
    have hp := hw.place hi hbe (List.take_append_drop n ro).symm hfi hfu
    rw [hk]
    cases hg : ro[n]? with
    | some ex =>
      refine ⟨rfl, rfl, _, hp, ?_⟩
      rw [List.head?_append, List.head?_drop, hg]
      rfl
    | none =>
      -- everything is kept, and the barrier stays where it was
      have hl : ro.length ≤ n := List.getElem?_eq_none_iff.mp hg
      rw [List.take_of_length_le hl, List.drop_eq_nil_of_le hl, List.nil_append] at hp
      exact ⟨rfl, rfl, r, hp, hc⟩

theorem holds_new : Holds sizeOfRow rowLimit byteLimit [] (RecentRows.new rowLimit byteLimit) :=
  ⟨rfl, rfl, [], PrefixBudget.window_nil, rfl⟩

/-- **Every run of pushes keeps the window.** -/
theorem holds_pushAll (sizeOfRow byteLimit : ℕ) (hl : rowLimit ≠ 0) (r : List HeldRow)
    (hd : (r.map sortKey).Nodup) :
    Holds sizeOfRow rowLimit byteLimit r (pushAll sizeOfRow rowLimit byteLimit r) := by
  induction r using List.reverseRecOn with
  | nil => exact holds_new
  | append_singleton r held ih =>
    have hf : (r.map sortKey).Nodup := by
      rw [List.map_append] at hd
      exact hd.of_append_left
    unfold pushAll at ih ⊢
    rw [List.foldl_append, List.foldl_cons, List.foldl_nil]
    exact (ih hf).push hl (eq_of_compareRows hd)

/-- Without room for a row nothing is pushed. -/
theorem pushAll_zero (byteLimit : ℕ) (r : List HeldRow) :
    pushAll sizeOfRow 0 byteLimit r = RecentRows.new 0 byteLimit := by
  unfold pushAll
  refine List.foldlRecOn (motive := fun recent => recent = RecentRows.new 0 byteLimit) r _ rfl ?_
  rintro recent rfl held _
  rfl

end

/-- **The buffer is the newest-first prefix**: after any pushes of rows with distinct places it
holds the longest beginning of the sorted rows within both limits. -/
theorem pushAll_isLongestFit (rowLimit byteLimit : ℕ) {r : List HeldRow}
    (hd : (r.map sortKey).Nodup) :
    IsLongestFit (retainedBytes sizeOfRow) rowLimit byteLimit (sortBy compareRows r)
      (pushAll sizeOfRow rowLimit byteLimit r).rows := by
  rcases Nat.eq_zero_or_pos rowLimit with rfl | hp
  · rw [pushAll_zero]
    refine ⟨List.nil_prefix, ⟨le_rfl, Nat.zero_le _⟩, ?_⟩
    intro f _ hf
    exact hf.rows
  · obtain ⟨-, -, re, hw, -⟩ := holds_pushAll sizeOfRow byteLimit hp.ne' r hd
    exact hw.isLongestFit

/-- **The newest-first prefix, whatever the order of the pushes.** -/
theorem recentRows_newest_prefix (rowLimit byteLimit : ℕ) (rows : List HeldRow)
    (hdistinct : (rows.map sortKey).Nodup) :
    IsLongestFit (retainedBytes sizeOfRow) rowLimit byteLimit (sortBy compareRows rows)
        (pushAll sizeOfRow rowLimit byteLimit rows).rows
      ∧ ∀ rows' : List HeldRow, rows'.Perm rows → (pushAll sizeOfRow rowLimit byteLimit rows').rows
          = (pushAll sizeOfRow rowLimit byteLimit rows).rows := by
  refine ⟨pushAll_isLongestFit sizeOfRow rowLimit byteLimit hdistinct, ?_⟩
  intro rows' hp
  have hd' : (rows'.map sortKey).Nodup := (hp.map sortKey).nodup_iff.mpr hdistinct
  have hs : sortBy compareRows rows' = sortBy compareRows rows :=
    ComparisonSort.insertionSort_congr (eq_of_compareRows hdistinct) hp
  have hf' := pushAll_isLongestFit sizeOfRow rowLimit byteLimit hd'
  rw [hs] at hf'
  exact hf'.unique (pushAll_isLongestFit sizeOfRow rowLimit byteLimit hdistinct)

/-- A row whose strings have no spare room. -/
def tightRow (row : DaemonJobRow) : HeldRow where
  row := row
  capacities := (requiredTexts row ++ (optionalTexts row).filterMap id).map String.utf8ByteSize
  holds := by
    rw [List.forall₂_map_right_iff, List.forall₂_same]
    intro text _
    exact le_rfl

/-- Three rows, pushed with the newest last. -/
def threeRows : List HeldRow :=
  ["2026-01-02T00:00:00Z", "2026-01-01T00:00:00Z", "2026-01-03T00:00:00Z"].map fun recordedAt =>
    tightRow { JobJournal.sampleRow with recordedAt }

/-- A limit of two rows and 4 MiB over three rows. -/
theorem recentRows_newest_prefix_three :
    IsLongestFit (retainedBytes 440) 2 4194304 (sortBy compareRows threeRows)
        (pushAll 440 2 4194304 threeRows).rows
      ∧ ∀ rows' : List HeldRow, rows'.Perm threeRows →
        (pushAll 440 2 4194304 rows').rows = (pushAll 440 2 4194304 threeRows).rows :=
  recentRows_newest_prefix 440 2 4194304 threeRows (by decide)

end DetailBudget
