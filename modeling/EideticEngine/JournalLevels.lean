/-
# The levels of the index

The runs of the index lie in levels, and what the levels and the chunk in memory hold is related to
everything that was inserted: a spill, a cascade of merges and the rounds of `finish` all keep the
latest entries.  So the index is exact for every sequence of inserts and every choice of the spill
boundaries.
-/
import EideticEngine.JournalIndex

namespace JournalIndex

open LatestEntries RustText

/-! ## Levels of runs -/

theorem stored_nil : Stored [] [] := ⟨[], rfl, List.forall_mem_nil _, SameLatest.refl _⟩

theorem Stored.of_same {r : List (List UInt8)} {l l' : List Entry} (h : Stored r l)
    (hs : SameLatest l l') : Stored r l' := by
  obtain ⟨qs, hr, hg, hl⟩ := h
  exact ⟨qs, hr, hg, hl.trans hs⟩

theorem Stored.append {r r' : List (List UInt8)} {l l' : List Entry} (h : Stored r l)
    (h' : Stored r' l') : Stored (r ++ r') (l ++ l') := by
  obtain ⟨qs, rfl, hg, hs⟩ := h
  obtain ⟨qs', rfl, hg', hs'⟩ := h'
  refine ⟨qs ++ qs', List.map_append.symm, ?_, ?_⟩
  · intro qu hq
    exact (List.mem_append.mp hq).elim (hg qu) (hg' qu)
  · rw [List.flatten_append]
    exact hs.append hs'

/-- Runs that are stored in two parts. -/
theorem Stored.split {r r' : List (List UInt8)} {l : List Entry} (h : Stored (r ++ r') l) :
    ∃ f b, Stored r f ∧ Stored r' b ∧ SameLatest (f ++ b) l := by
  obtain ⟨qs, hr, hg, hs⟩ := h
  obtain ⟨f, b, rfl, hf, hb⟩ := List.map_eq_append_iff.mp hr.symm
  refine ⟨f.flatten, b.flatten, ?_, ?_, ?_⟩
  · exact ⟨f, hf.symm, fun qu hq => hg qu (List.mem_append_left _ hq), SameLatest.refl _⟩
  · exact ⟨b, hb.symm, fun qu hq => hg qu (List.mem_append_right _ hq), SameLatest.refl _⟩
  · rwa [← List.flatten_append]

/-- **A run finds its place**: the levels stay below the fan-in and hold what they held with
the run. -/
theorem placeRun_spec (ls : List (List (List UInt8))) (run : List UInt8) (l l' : List Entry)
    (h : Stored ls.flatten l) (hr : Stored [run] l')
    (hl : ∀ level ∈ ls, level.length < fanIn) :
    ∃ ls', placeRun ls run = .ok ls' ∧ Stored ls'.flatten (l ++ l')
      ∧ (∀ level ∈ ls', level.length < fanIn) ∧ ls'.flatten ≠ [] := by
  induction ls generalizing run l l' with
  | nil =>
    refine ⟨[[run]], rfl, h.append hr, ?_, List.cons_ne_nil _ _⟩
    intro level hle
    rw [List.mem_singleton] at hle
    rw [hle, List.length_singleton]
    decide
  | cons level ls ih =>
    rw [List.flatten_cons] at h
    obtain ⟨f, b, hf, hb, hsa⟩ := h.split
    have hs : SameLatest (b ++ (f ++ l')) (l ++ l') := by
      refine SameLatest.trans ?_ (hsa.append (SameLatest.refl l'))
      rw [← List.append_assoc]
      exact (SameLatest.of_perm List.perm_append_comm).append (SameLatest.refl l')
    rw [placeRun]
    split
    · rename_i hlt
      refine ⟨_, rfl, ?_, ?_, ?_⟩
      · rw [List.flatten_cons]
        refine ((hf.append hr).append hb).of_same (SameLatest.trans ?_ hs)
        exact SameLatest.of_perm List.perm_append_comm
      · intro other ho
        rcases List.mem_cons.mp ho with rfl | ho
        · exact hlt
        · exact hl other (List.mem_cons_of_mem _ ho)
      · rw [List.flatten_cons, List.append_assoc]
        exact List.append_ne_nil_of_right_ne_nil _ (List.cons_ne_nil _ _)
    · -- the level is full: its merge goes to the next level
      obtain ⟨r', hm, hr'⟩ := (hf.append hr).merge
      obtain ⟨ls', hp, hst, hl', hne⟩ := ih r' b (f ++ l') hb hr'
        fun other ho => hl other (List.mem_cons_of_mem _ ho)
      refine ⟨[] :: ls', ?_, ?_, ?_, ?_⟩
      · rw [hm, Except.ok_then, hp, Except.ok_then]
      · rw [List.flatten_cons, List.nil_append]
        exact hst.of_same hs
      · intro other ho
        rcases List.mem_cons.mp ho with rfl | ho
        · decide
        · exact hl' other ho
      · rwa [List.flatten_cons, List.nil_append]

/-- **A round of `finish`** leaves the latest entries in fewer runs. -/
theorem mergeBatches_spec (r : List (List UInt8)) (l : List Entry) (h : Stored r l) :
    ∃ next, mergeBatches r = .ok next ∧ Stored next l ∧ (r ≠ [] → next ≠ [])
      ∧ next.length * fanIn < r.length + fanIn := by
  induction hle : r.length using Nat.strong_induction_on generalizing r l with
  | _ n ih =>
    subst hle
    rw [mergeBatches]
    split
    · rename_i hni
      subst hni
      exact ⟨[], rfl, h, fun hne => absurd rfl hne, by decide⟩
    · rename_i hne
      have hp := List.length_pos_iff.mpr hne
      rw [← List.take_append_drop fanIn r] at h
      obtain ⟨f, b, hf, hb, hsa⟩ := h.split
      obtain ⟨run, hm, hr⟩ := hf.merge
      obtain ⟨next, hn, hs, -, hl⟩ := ih (r.drop fanIn).length
        (by rw [List.length_drop, fanIn]; omega) (r.drop fanIn) b hb rfl
      refine ⟨run :: next, ?_, ?_, fun _ => List.cons_ne_nil _ _, ?_⟩
      · rw [hm, Except.ok_then, hn, Except.ok_then]
      · exact (hr.append hs).of_same hsa
      · rw [List.length_drop, fanIn] at hl
        rw [List.length_cons, fanIn]
        by_cases hlo : 16 ≤ r.length
        · omega
        · have hz : r.length - 16 = 0 := by omega
          rw [hz] at hl
          omega

/-- **The rounds of `finish`** leave one run. -/
theorem mergeRounds_spec (f : ℕ) (r : List (List UInt8)) (l : List Entry)
    (h : Stored r l) (hne : r ≠ []) (hf : r.length ≤ f + 1) :
    ∃ run, mergeRounds f r = .ok [run] ∧ Stored [run] l := by
  have ho : ∀ r : List (List UInt8), r ≠ [] → r.length ≤ 1 → ∃ run, r = [run] := by
    intro r hne hle
    have hp := List.length_pos_iff.mpr hne
    exact List.length_eq_one_iff.mp (by omega)
  induction f generalizing r with
  | zero =>
    obtain ⟨run, rfl⟩ := ho r hne hf
    exact ⟨run, rfl, h⟩
  | succ f ih =>
    rw [mergeRounds]
    split
    · obtain ⟨next, hnex, hs, hn, hl⟩ := mergeBatches_spec r l h
      rw [fanIn] at hl
      rw [hnex, Except.ok_then]
      exact ih next hs (hn hne) (by omega)
    · obtain ⟨run, rfl⟩ := ho r hne (by omega)
      exact ⟨run, rfl, h⟩

/-! ## The index over a whole run -/

/-- The index holds the latest entries of what was inserted, in its levels and in its chunk. -/
structure Holds (index : LatestIndex) (inserted : List Entry) : Prop where
  short : ∀ e ∈ index.entries, Short e
  stored : ∃ l, Stored index.levels.flatten l ∧ SameLatest (l ++ index.entries) inserted
  below : ∀ level ∈ index.levels, level.length < fanIn
  occupied : index.levels ≠ [] → index.levels.flatten ≠ []

theorem holds_default : Holds LatestIndex.default [] :=
  ⟨List.forall_mem_nil _, ⟨[], stored_nil, SameLatest.refl _⟩, List.forall_mem_nil _,
    fun h => absurd rfl h⟩

/-- **A spill** moves the chunk into the levels. -/
theorem Holds.spill {index : LatestIndex} {inserted : List Entry} (h : Holds index inserted) :
    ∃ i', index.spill = .ok i' ∧ Holds i' inserted ∧ i'.entries = []
      ∧ (index.levels ≠ [] → i'.levels ≠ []) := by
  obtain ⟨l, hst, hsa⟩ := h.stored
  unfold LatestIndex.spill
  split
  · rename_i hn
    exact ⟨index, rfl, h, hn, id⟩
  · have hl := collapse_isLatest index.entries
    have hs := short_of_isLatest hl h.short
    have hr : Stored [encodeRun (collapse index.entries)] index.entries := by
      refine ⟨[collapse index.entries], rfl, ?_, ?_⟩
      · intro qu hq
        rw [List.mem_singleton] at hq
        subst hq
        exact ⟨hl.ascending, hs⟩
      · rw [List.flatten_cons, List.flatten_nil, List.append_nil]
        exact hl.same
    obtain ⟨ls, hp, hle, hb, hne⟩ := placeRun_spec index.levels _ l index.entries hst hr h.below
    refine ⟨⟨[], 0, ls⟩, ?_, ⟨List.forall_mem_nil _, ⟨_, hle, ?_⟩, hb, fun _ => hne⟩, rfl, ?_⟩
    · rw [foldlM_writeEntry hs, Except.ok_then, List.nil_append, hp, Except.ok_then]
    · rw [List.append_nil]
      exact hsa
    · rintro - rfl
      exact hne rfl

/-- **An insert** within the key limit succeeds and adds its entry. -/
theorem Holds.insert {index : LatestIndex} {inserted : List Entry} (h : Holds index inserted)
    (soe : ℕ) {key : String} (c : ℕ) (o : Offset)
    (hk : key.utf8ByteSize ≤ maxKeyBytes) :
    ∃ i', index.insert soe key c o = .ok i' ∧ Holds i' (inserted ++ [(key, o)]) := by
  obtain ⟨l, hs, hsa⟩ := h.stored
  have ha : Holds { index with
        bytes := index.bytes + (c + soe)
        entries := index.entries ++ [(key, o)] } (inserted ++ [(key, o)]) := by
    refine ⟨?_, ⟨l, hs, ?_⟩, h.below, h.occupied⟩
    · intro e he
      rcases List.mem_append.mp he with he | he
      · exact h.short e he
      · rw [List.mem_singleton] at he
        subst he
        exact hk
    · rw [← List.append_assoc]
      exact hsa.append (SameLatest.refl _)
  unfold LatestIndex.insert
  rw [if_neg (by omega)]
  dsimp only
  split
  · obtain ⟨i', hsp, hh, -, -⟩ := ha.spill
    exact ⟨i', hsp, hh⟩
  · exact ⟨_, rfl, ha⟩

/-- The entries of a chunk in memory come one by one. -/
theorem collect_memory (entries : List Entry) :
    (LatestKeys.memory entries).collect = .ok entries := by
  have ha : ∀ entries : List Entry,
      (LatestKeys.memory entries).collectUpTo (entries.length + 1) = .ok entries := by
    intro entries
    induction entries with
    | nil => rfl
    | cons e entries ih =>
      rw [List.length_cons, LatestKeys.collectUpTo]
      simp only [LatestKeys.next, ih, Except.ok_then]
  exact ha entries

/-- The entries of a run come one by one. -/
theorem collectUpTo_disk (f : ℕ) (run : List Entry) (h : ∀ e ∈ run, Short e) (hf : run.length < f) :
    (LatestKeys.disk (encodeRun run)).collectUpTo f = .ok run := by
  induction run generalizing f with
  | nil =>
    cases f with
    | zero => omega
    | succ f => rfl
  | cons e run ih =>
    cases f with
    | zero => omega
    | succ f =>
      rw [LatestKeys.collectUpTo]
      simp only [LatestKeys.next, readEntry_encodeRun h, List.head?_cons, Option.map_some,
        List.tail_cons]
      rw [ih f (fun e he => h e (List.mem_cons_of_mem _ he))
        (by rw [List.length_cons] at hf; omega)]
      rfl

/-- **Finishing gives the latest entries.** -/
theorem Holds.finish {index : LatestIndex} {inserted : List Entry} (h : Holds index inserted) :
    ∃ keys entries, index.finish = .ok keys ∧ keys.collect = .ok entries
      ∧ IsLatest strCmp entries inserted := by
  obtain ⟨l, hs, hsa⟩ := h.stored
  unfold LatestIndex.finish
  split
  · rename_i hn
    refine ⟨_, _, rfl, collect_memory _, (collapse_isLatest index.entries).of_same ?_⟩
    rw [hn] at hs
    obtain ⟨qs, hq, -, hl⟩ := hs
    rw [List.map_eq_nil_iff.mp hq.symm] at hl
    exact ((hl.append (SameLatest.refl _)).trans hsa)
  · rename_i hne
    obtain ⟨i', hsp, hh, he, hlev⟩ := h.spill
    obtain ⟨l', hst', hs'⟩ := hh.stored
    rw [he, List.append_nil] at hs'
    obtain ⟨run, hr, qs, hq, hgo, hla⟩ := mergeRounds_spec
      i'.levels.flatten.length i'.levels.flatten l' hst'
      (hh.occupied (hlev hne)) (by omega)
    obtain ⟨qu, rfl, hqu⟩ := List.map_eq_singleton_iff.mp hq.symm
    have hg := hgo qu List.mem_cons_self
    subst hqu
    refine ⟨.disk (encodeRun qu), qu, ?_, ?_, hg.ascending, ?_⟩
    · rw [hsp, Except.ok_then, hr, Except.ok_then]
      rfl
    · have hle := length_le_encodeRun qu
      exact collectUpTo_disk _ qu hg.short (Nat.lt_succ_of_le hle)
    · rw [List.flatten_cons, List.flatten_nil, List.append_nil] at hla
      exact hla.trans hs'

/-- A use of the index: an insert, with the capacity of the key's string, or a spill. -/
inductive IndexOp where
  | insert (key : String) (capacity : ℕ) (offset : Offset)
  | spill

/-- An operation on the index. -/
def IndexOp.run (sizeOfEntry : ℕ) (index : LatestIndex) : IndexOp → Except String LatestIndex
  | .insert key capacity offset => index.insert sizeOfEntry key capacity offset
  | .spill => index.spill

/-- The entry that an operation adds.  A key beyond the limit is refused. -/
def IndexOp.entry? : IndexOp → Option Entry
  | .insert key _ offset => if key.utf8ByteSize ≤ maxKeyBytes then some (key, offset) else none
  | .spill => none

/-- The operation is refused. -/
def IndexOp.Refused : IndexOp → Prop
  | .insert key _ _ => maxKeyBytes < key.utf8ByteSize
  | .spill => False

/-- The index after an operation; a refused insert returns before it changes anything. -/
def stepOp (sizeOfEntry : ℕ) (index : LatestIndex) (op : IndexOp) : LatestIndex :=
  match op.run sizeOfEntry index with
  | .ok index => index
  | .error _ => index

/-- The index after some operations. -/
def runOps (sizeOfEntry : ℕ) (ops : List IndexOp) : LatestIndex :=
  ops.foldl (stepOp sizeOfEntry) LatestIndex.default

/-- What was inserted. -/
def inserted (ops : List IndexOp) : List Entry := ops.filterMap IndexOp.entry?

/-- **An operation** is refused for its key or succeeds, and the index holds what was inserted. -/
theorem Holds.stepOp {index : LatestIndex} {l : List Entry} (h : Holds index l) (soe : ℕ)
    (op : IndexOp) :
    Holds (JournalIndex.stepOp soe index op) (l ++ op.entry?.toList)
      ∧ ((∃ e, op.run soe index = .error e) ↔ op.Refused) := by
  have hok : ∀ i', op.run soe index = .ok i' → ¬ op.Refused →
      ((∃ e, op.run soe index = .error e) ↔ op.Refused) := by
    intro i' hru hn
    rw [hru]
    constructor
    · rintro ⟨e, ⟨⟩⟩
    · intro hr
      exact absurd hr hn
  unfold JournalIndex.stepOp
  cases op with
  | insert key c o =>
    by_cases hk : key.utf8ByteSize ≤ maxKeyBytes
    · obtain ⟨i', hi, hh⟩ := h.insert soe c o hk
      refine ⟨?_, hok i' hi (Nat.not_lt.mpr hk)⟩
      rw [IndexOp.run, hi, IndexOp.entry?, if_pos hk]
      exact hh
    · have he : index.insert soe key c o
          = .error "daemon job key exceeds the record limit" := by
        unfold LatestIndex.insert
        rw [if_pos (Nat.lt_of_not_le hk)]
      rw [IndexOp.run, he, IndexOp.entry?, if_neg hk, Option.toList_none, List.append_nil]
      exact ⟨h, fun _ => Nat.lt_of_not_le hk, fun _ => ⟨_, rfl⟩⟩
  | spill =>
    obtain ⟨i', hs, hh, -, -⟩ := h.spill
    refine ⟨?_, hok i' hs id⟩
    rw [IndexOp.run, hs, IndexOp.entry?, Option.toList_none, List.append_nil]
    exact hh

/-- **Every run of operations** keeps the index. -/
theorem holds_runOps (soe : ℕ) (ops : List IndexOp) : Holds (runOps soe ops) (inserted ops) := by
  induction ops using List.reverseRecOn with
  | nil => exact holds_default
  | append_singleton ops op ih =>
    have hs := (ih.stepOp soe op).1
    unfold runOps at hs ⊢
    rw [List.foldl_append, List.foldl_cons, List.foldl_nil]
    unfold inserted at hs ⊢
    rw [List.filterMap_append]
    cases he : op.entry? with
    | none =>
      rw [he] at hs
      rw [List.filterMap_cons_none he, List.filterMap_nil]
      exact hs
    | some e =>
      rw [he] at hs
      rw [List.filterMap_cons_some he, List.filterMap_nil]
      exact hs

/-- **The index is exact**, for every sequence of inserts and spills: only a key beyond the limit
is refused, no level reaches the fan-in, and at the end every key comes once, in ascending order,
with its greatest offset. -/
theorem latestIndex_exact (sizeOfEntry : ℕ) (ops : List IndexOp) : (∀ done, done <+: ops →
        ∀ level ∈ (runOps sizeOfEntry done).levels, level.length < fanIn)
      ∧ (∀ done (op : IndexOp), done ++ [op] <+: ops →
        ((∃ e, op.run sizeOfEntry (runOps sizeOfEntry done) = .error e) ↔ op.Refused))
      ∧ ∃ keys entries, (runOps sizeOfEntry ops).finish = .ok keys ∧ keys.collect = .ok entries
        ∧ (entries.Pairwise fun a b => strCmp a.1 b.1 = .lt)
        ∧ (∀ key, key ∈ entries.map Prod.fst ↔ key ∈ (inserted ops).map Prod.fst)
        ∧ ∀ key offset, (key, offset) ∈ entries ↔ (key, offset) ∈ inserted ops
            ∧ ∀ offset', (key, offset') ∈ inserted ops → offset' ≤ offset := by
  refine ⟨fun done _ => (holds_runOps sizeOfEntry done).below,
    fun done op _ => ((holds_runOps sizeOfEntry done).stepOp sizeOfEntry op).2, ?_⟩
  obtain ⟨keys, entries, hf, hc, hl⟩ := (holds_runOps sizeOfEntry ops).finish
  exact ⟨keys, entries, hf, hc, hl.ascending, fun key => hl.mem_keys_iff,
    fun key offset => hl.mem_iff⟩

end JournalIndex
