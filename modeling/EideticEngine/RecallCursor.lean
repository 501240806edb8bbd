/-
# The binding of recall cursors (`src/core/recall.rs`, `src/output/governor.rs`)

A continuation cursor carries a hash of the query it was issued for, and a page is continued only
for a query of the same hash.  What is hashed is written without lengths: a zero byte and a label
open each list of selectors, a zero byte opens each value, and the values are sorted.

The bytes of a query are its tokens between zero bytes.  `QueryBound` says when they determine the
query, up to the order of its lists; a cursor is bound to its query exactly then.
-/
import EideticEngine.Base64
import EideticEngine.ComparisonSort
import EideticEngine.Hex
import EideticEngine.LabelledSections
import EideticEngine.StableSort
import EideticEngine.TextOrder
import EideticEngine.TextScan

namespace RecallCursor

open RustText LabelledSections StableSort

/-! ## The hash of a query -/

/-- `RecallQuery`, as far as it is hashed. -/
structure RecallQuery where
  paths : List String := []
  symbols : List String := []
  diffPaths : List String := []
  kinds : List String := []
  levels : List String := []
  staleOnly : Bool := false

/-- `RECALL_CURSOR_SCHEMA_V1`. -/
def recallCursorSchemaV1 : String := "ee.recall.cursor.v1"

/-- `feed`: what the hasher is given for one list. -/
def feed (label : String) (values : List String) : List UInt8 :=
  (0 :: asBytes label) ++ (sortBy strCmp values).flatMap fun value => 0 :: asBytes value

/-- What `recall_query_hash` hashes. -/
def recallQueryBytes (query : RecallQuery) : List UInt8 :=
  asBytes recallCursorSchemaV1 ++ feed "paths" query.paths ++ feed "symbols" query.symbols
    ++ feed "diff_paths" query.diffPaths ++ feed "kinds" query.kinds ++ feed "levels" query.levels
    ++ asBytes (if query.staleOnly then "\x00stale:1" else "\x00stale:0")

/-- The queries agree up to the order of their lists. -/
structure Agree (q q' : RecallQuery) : Prop where
  paths : q.paths.Perm q'.paths
  symbols : q.symbols.Perm q'.symbols
  diffPaths : q.diffPaths.Perm q'.diffPaths
  kinds : q.kinds.Perm q'.kinds
  levels : q.levels.Perm q'.levels
  staleOnly : q.staleOnly = q'.staleOnly

/-! ## Tokens between zero bytes -/

/-- The parts of a value between its zero bytes. -/
def pieces (value : String) : List (List Char) := value.toList.splitOn '\x00'

/-- The tokens of a list of values. -/
def tokens (values : List String) : List (List Char) := (sortBy strCmp values).flatMap pieces

/-- Every chunk behind a zero byte. -/
def marked (chunks : List (List Char)) : List Char := chunks.flatMap ('\x00' :: ·)

theorem marked_append (a b : List (List Char)) : marked (a ++ b) = marked a ++ marked b :=
  List.flatMap_append

theorem marked_eq_intercalate {cs : List (List Char)} (h : cs ≠ []) :
    marked cs = '\x00' :: ['\x00'].intercalate cs := by
  induction cs with
  | nil => exact absurd rfl h
  | cons c cs ih =>
    cases cs with
    | nil => simp [marked]
    | cons d cs =>
      rw [show marked (c :: d :: cs) = '\x00' :: (c ++ marked (d :: cs)) from rfl,
        ih (List.cons_ne_nil _ _), List.intercalate_cons_cons]
      simp

/-- The pieces of a value, each behind a zero byte. -/
theorem marked_pieces (value : String) : marked (pieces value) = '\x00' :: value.toList := by
  rw [pieces, marked_eq_intercalate (List.splitOn_ne_nil _ _), List.intercalate_splitOn]

/-- No token holds a zero byte. -/
theorem nul_notMem_of_mem_pieces {value : String} {token : List Char} (h : token ∈ pieces value) :
    '\x00' ∉ token := by
  intro hn
  rw [pieces, List.splitOn_eq_splitOnP] at h
  have := eq_false_of_mem_splitOnP _ h _ hn
  exact absurd this (by decide)

theorem nul_notMem_of_mem_tokens {vs : List String} {token : List Char}
    (h : token ∈ tokens vs) : '\x00' ∉ token := by
  obtain ⟨value, -, hm⟩ := List.mem_flatMap.mp h
  exact nul_notMem_of_mem_pieces hm

/-- Tokens without zero bytes are read back. -/
theorem splitOn_marked {cs : List (List Char)} (hne : cs ≠ [])
    (h : ∀ c ∈ cs, '\x00' ∉ c) : (marked cs).tail.splitOn '\x00' = cs := by
  rw [marked_eq_intercalate hne]
  exact List.splitOn_intercalate _ h hne

theorem marked_inj {cs cs' : List (List Char)} (h : ∀ c ∈ cs, '\x00' ∉ c)
    (h' : ∀ c ∈ cs', '\x00' ∉ c) (heq : marked cs = marked cs') :
    cs = cs' := by
  cases cs with
  | nil =>
    cases cs' with
    | nil => rfl
    | cons c cs' => cases heq
  | cons c cs =>
    cases cs' with
    | nil => cases heq
    | cons d cs' =>
      rw [← splitOn_marked (List.cons_ne_nil c cs) h, heq,
        splitOn_marked (List.cons_ne_nil d cs') h']

/-! ## Values of given tokens -/

/-- The values that a list of tokens is read from, with one value for all of them. -/
def joined (chunks : List (List Char)) : List String :=
  if chunks = [] then [] else [String.ofList (marked chunks).tail]

theorem sortBy_singleton (value : String) : sortBy strCmp [value] = [value] := rfl

theorem tokens_singleton (value : String) : tokens [value] = pieces value := by
  rw [tokens, sortBy_singleton]
  exact List.append_nil _

theorem tokens_joined {cs : List (List Char)} (h : ∀ c ∈ cs, '\x00' ∉ c) :
    tokens (joined cs) = cs := by
  by_cases hne : cs = []
  · subst hne
    rfl
  · rw [joined, if_neg hne, tokens_singleton, pieces, String.toList_ofList, splitOn_marked hne h]

/-- The values behind zero bytes are their tokens behind zero bytes. -/
theorem marked_tokens (vs : List String) :
    marked (tokens vs) = marked ((sortBy strCmp vs).map String.toList) := by
  rw [tokens]
  induction sortBy strCmp vs with
  | nil => rfl
  | cons value vs ih =>
    rw [List.flatMap_cons, marked_append, marked_pieces, ih]
    rfl

/-- Lists with the same values have the same tokens. -/
theorem tokens_perm {vs vs' : List String} (h : vs'.Perm vs) : tokens vs' = tokens vs := by
  have hs : sortBy strCmp vs' = sortBy strCmp vs :=
    ComparisonSort.insertionSort_congr (fun _ _ _ _ => Std.LawfulEqCmp.eq_of_compare) h
  rw [tokens, tokens, hs]

/-! ## Lists that are determined by their tokens -/

/-- At most one value, which is not a smaller text, a zero byte and a text that is not smaller. -/
structure ListBound (values : List String) : Prop where
  single : values.length ≤ 1
  unsplit : ∀ value ∈ values, ∀ a b : String, value = a ++ "\x00" ++ b → strCmp a b = .gt

theorem strCmp_append_ne_gt (a b : String) : strCmp a (a ++ b) ≠ .gt := by
  unfold strCmp
  rw [asBytes_append]
  nth_rewrite 1 [← List.append_nil (asBytes a)]
  rw [compare_append_left]
  cases asBytes b <;> nofun

theorem ListBound.perm_of_tokens_eq {vs vs' : List String} (h : ListBound vs)
    (ht : tokens vs' = tokens vs) : vs'.Perm vs := by
  have hp : (sortBy strCmp vs').Perm vs' := List.perm_insertionSort _ _
  have hs : (sortBy strCmp vs').Pairwise fun a b => strCmp a b ≠ .gt :=
    List.pairwise_insertionSort _ _
  refine hp.symm.trans ?_
  have hm : marked ((sortBy strCmp vs').map String.toList)
      = marked ((sortBy strCmp vs).map String.toList) := by
    rw [← marked_tokens, ← marked_tokens, ht]
  generalize sortBy strCmp vs' = sorted at hs hm ⊢
  match vs, h with
  | [], _ =>
    cases sorted with
    | nil => exact List.Perm.nil
    | cons w sorted => cases hm
  | [value], h =>
    match sorted with
    | [] => cases hm
    | [w] =>
      have hw : w.toList ++ [] = value.toList ++ [] := (List.cons.inj hm).2
      rw [List.append_nil, List.append_nil] at hw
      rw [String.toList_injective hw]
    | w :: w₂ :: sorted =>
      -- the value would be split at the first zero byte of the sorted values
      have hv : value
          = w ++ "\x00" ++ (w₂ ++ String.ofList (marked (sorted.map String.toList))) := by
        apply String.toList_injective
        have hw := (List.cons.inj hm).2
        simp only [String.toList_append, String.toList_ofList, List.append_assoc]
        exact (hw.trans (List.append_nil _)).symm
      have hgt := h.unsplit value List.mem_cons_self _ _ hv
      have hle : strCmp w w₂ ≠ .gt := List.rel_of_pairwise_cons hs List.mem_cons_self
      have h' := strCmp_append_ne_gt w₂ (String.ofList (marked (sorted.map String.toList)))
      exact absurd hgt (IsTrans.trans (r := fun a b => strCmp a b ≠ .gt) _ _ _ hle h')
  | a :: b :: re, h => exact absurd h.single (by simp)

theorem exists_tokens_eq_of_not_listBound {vs : List String} (h : ¬ ListBound vs) :
    ∃ vs', tokens vs' = tokens vs ∧ ¬ vs'.Perm vs := by
  by_cases hl : vs.length ≤ 1
  · -- a value that is split comes from two
    have hs : ∃ value ∈ vs, ∃ a b : String, value = a ++ "\x00" ++ b ∧
        strCmp a b ≠ .gt := by
      by_contra hnone
      push Not at hnone
      exact h ⟨hl, hnone⟩
    obtain ⟨value, hm, a, b, hv, hle⟩ := hs
    obtain rfl : vs = [value] := by
      match vs, hl, hm with
      | [v], _, hm => rw [List.mem_singleton.mp hm]
    refine ⟨[a, b], ?_, fun hp => ?_⟩
    · have hso : sortBy strCmp [a, b] = [a, b] :=
        ComparisonSort.insertionSort_eq (fun _ _ _ _ => Std.LawfulEqCmp.eq_of_compare)
          (List.Perm.refl _) (List.pairwise_pair.mpr hle)
      rw [tokens, hso, tokens_singleton, hv, pieces, String.toList_append,
        String.toList_append, List.append_assoc]
      show pieces a ++ (pieces b ++ []) = _
      rw [List.append_nil]
      exact (List.splitOn_append_cons_self _ _).symm
    · exact absurd (Nat.succ.inj hp.length_eq) Nat.one_ne_zero
  · refine ⟨joined (tokens vs), tokens_joined fun _ => nul_notMem_of_mem_tokens, fun hp => ?_⟩
    have hle : (joined (tokens vs)).length ≤ 1 := by
      unfold joined
      split
      · exact Nat.zero_le _
      · exact Nat.le_refl _
    exact hl (hp.length_eq ▸ hle)

/-! ## The tokens of a query -/

/-- The lists of a query behind the first one, with their labels. -/
def sections (query : RecallQuery) : List (List Char × List (List Char)) :=
  [("symbols".toList, tokens query.symbols), ("diff_paths".toList, tokens query.diffPaths),
    ("kinds".toList, tokens query.kinds), ("levels".toList, tokens query.levels)]

def staleToken (staleOnly : Bool) : List Char :=
  if staleOnly then "stale:1".toList else "stale:0".toList

/-- The tokens of a query. -/
def queryTokens (query : RecallQuery) : List (List Char) :=
  "paths".toList :: (layout (tokens query.paths) (sections query) ++ [staleToken query.staleOnly])

/-- **When a query is bound.**  Its lists are determined by their tokens, and no token of a list is
the label of this list or of the next one. -/
structure QueryBound (query : RecallQuery) : Prop where
  paths : ListBound query.paths
  symbols : ListBound query.symbols
  diffPaths : ListBound query.diffPaths
  kinds : ListBound query.kinds
  levels : ListBound query.levels
  clear : Clear (tokens query.paths) (sections query)

theorem asBytes_eq (text : String) : asBytes text = text.toList.flatMap String.utf8EncodeChar := by
  rw [← asBytes_ofList, String.ofList_toList]

theorem feed_eq (la : String) (vs : List String) : feed la vs
      = (marked (la.toList :: tokens vs)).flatMap String.utf8EncodeChar := by
  have hz : String.utf8EncodeChar '\x00' = [0] := by decide
  have hv : ∀ l : List String, (l.flatMap fun value => 0 :: asBytes value)
      = (marked (l.map String.toList)).flatMap String.utf8EncodeChar := by
    intro l
    induction l with
    | nil => rfl
    | cons value l ih =>
      rw [List.flatMap_cons, ih, List.map_cons, asBytes_eq,
        show marked (value.toList :: l.map String.toList)
          = ('\x00' :: value.toList) ++ marked (l.map String.toList) from rfl,
        List.flatMap_append, List.flatMap_cons, hz]
      rfl
  rw [feed, hv, ← marked_tokens, asBytes_eq, show marked (la.toList :: tokens vs)
      = ('\x00' :: la.toList) ++ marked (tokens vs) from rfl,
    List.flatMap_append, List.flatMap_cons, hz]
  rfl

/-- What is hashed are the tokens behind zero bytes. -/
theorem recallQueryBytes_eq (qu : RecallQuery) : recallQueryBytes qu = asBytes (String.ofList
      (recallCursorSchemaV1.toList ++ marked (queryTokens qu))) := by
  have hs : asBytes (if qu.staleOnly then "\x00stale:1" else "\x00stale:0")
      = (marked [staleToken qu.staleOnly]).flatMap String.utf8EncodeChar := by
    rw [asBytes_eq, staleToken]
    cases qu.staleOnly <;> rfl
  rw [recallQueryBytes, hs, asBytes_ofList, List.flatMap_append, asBytes_eq]
  simp only [feed_eq, queryTokens, sections, layout, ← List.flatMap_append, ← marked_append,
    List.append_assoc, List.cons_append]

theorem nul_notMem_of_mem_queryTokens {qu : RecallQuery} {token : List Char}
    (h : token ∈ queryTokens qu) : '\x00' ∉ token := by
  have ha : ∀ token ∈ queryTokens qu, '\x00' ∉ token := by
    have hl : ∀ vs : List String, ∀ token ∈ tokens vs, '\x00' ∉ token :=
      fun _ _ => nul_notMem_of_mem_tokens
    simp only [queryTokens, List.forall_mem_cons, List.forall_mem_append, forall_mem_layout,
      sections]
    refine ⟨by decide, ⟨hl _, ⟨by decide, hl _⟩, ⟨by decide, hl _⟩, ⟨by decide, hl _⟩,
      ⟨by decide, hl _⟩, nofun⟩, ?_, nofun⟩
    rw [staleToken]
    cases qu.staleOnly <;> decide
  exact ha token h

/-- The bytes of a query are its tokens. -/
theorem recallQueryBytes_eq_iff {q q' : RecallQuery} : recallQueryBytes q = recallQueryBytes q' ↔
      layout (tokens q.paths) (sections q) = layout (tokens q'.paths) (sections q')
        ∧ q.staleOnly = q'.staleOnly := by
  have hs : Function.Injective staleToken := by decide
  rw [recallQueryBytes_eq, recallQueryBytes_eq]
  constructor
  · intro h
    have hm := List.append_cancel_left (String.ofList_injective (asBytes_injective h))
    have ht := marked_inj (fun _ => nul_notMem_of_mem_queryTokens)
      (fun _ => nul_notMem_of_mem_queryTokens) hm
    obtain ⟨hl, hla⟩ := List.append_inj' (List.cons.inj ht).2 rfl
    exact ⟨hl, hs (List.cons.inj hla).1⟩
  · rintro ⟨hl, hla⟩
    rw [queryTokens, queryTokens, hl, hla]

/-! ## Bound queries -/

theorem QueryBound.agree {q q' : RecallQuery} (h : QueryBound q)
    (hb : recallQueryBytes q' = recallQueryBytes q) : Agree q' q := by
  obtain ⟨hla, hst⟩ := recallQueryBytes_eq_iff.mp hb
  have hc : ((sections q).map Prod.fst).IsChain (· ≠ ·) := by
    show ["symbols".toList, "diff_paths".toList, "kinds".toList, "levels".toList].IsChain (· ≠ ·)
    decide
  have hl : (sections q').map Prod.fst = (sections q).map Prod.fst := rfl
  obtain ⟨hp, hs⟩ := layout_inj h.clear hc hl hla.symm
  simp only [sections, List.cons.injEq, Prod.mk.injEq, true_and, and_true] at hs
  obtain ⟨hsy, hd, hk, hle⟩ := hs
  exact ⟨h.paths.perm_of_tokens_eq hp.symm, h.symbols.perm_of_tokens_eq hsy.symm,
    h.diffPaths.perm_of_tokens_eq hd.symm, h.kinds.perm_of_tokens_eq hk.symm,
    h.levels.perm_of_tokens_eq hle.symm, hst⟩

/-- Queries of the same tokens, list by list. -/
theorem bytes_eq_of_tokens_eq {q q' : RecallQuery} (hp : tokens q'.paths = tokens q.paths)
    (hs : sections q' = sections q) (hst : q'.staleOnly = q.staleOnly) :
    recallQueryBytes q' = recallQueryBytes q :=
  recallQueryBytes_eq_iff.mpr ⟨by rw [hp, hs], hst⟩

/-- Sections of the labels of a query. -/
theorem exists_of_labels {q : RecallQuery} {r : List (List Char × List (List Char))}
    (h : r.map Prod.fst = (sections q).map Prod.fst) : ∃ ss dps ks ls,
      r = [("symbols".toList, ss), ("diff_paths".toList, dps),
        ("kinds".toList, ks), ("levels".toList, ls)] := by
  obtain ⟨⟨a, ss⟩, r₁, rfl, ha, h₁⟩ := List.map_eq_cons_iff.mp h
  obtain ⟨⟨b, dps⟩, r₂, rfl, hb, h₂⟩ := List.map_eq_cons_iff.mp h₁
  obtain ⟨⟨c, ks⟩, r₃, rfl, hc, h₃⟩ := List.map_eq_cons_iff.mp h₂
  obtain ⟨⟨d, ls⟩, r₄, rfl, hd, h₄⟩ := List.map_eq_cons_iff.mp h₃
  obtain rfl := List.map_eq_nil_iff.mp h₄
  obtain rfl : a = "symbols".toList := ha
  obtain rfl : b = "diff_paths".toList := hb
  obtain rfl : c = "kinds".toList := hc
  obtain rfl : d = "levels".toList := hd
  exact ⟨ss, dps, ks, ls, rfl⟩

/-- A query that is not clear is read in two ways. -/
theorem exists_bytes_eq_of_not_clear {q : RecallQuery} (h : ¬ Clear (tokens q.paths) (sections q)) :
    ∃ q', recallQueryBytes q' = recallQueryBytes q ∧ ¬ Agree q' q := by
  obtain ⟨ps, r, hla, hl, hne⟩ := exists_layout_eq_of_not_clear h
  obtain ⟨ss, dps, ks, ls, rfl⟩ := exists_of_labels hla
  have hn : ∀ token ∈ layout (tokens q.paths) (sections q), '\x00' ∉ token := fun token hm =>
    nul_notMem_of_mem_queryTokens (List.mem_cons_of_mem _ (List.mem_append_left _ hm))
  rw [← hl, forall_mem_layout] at hn
  simp only [List.forall_mem_cons] at hn
  obtain ⟨hp, ⟨-, hs⟩, ⟨-, hd⟩, ⟨-, hk⟩, ⟨-, hle⟩, -⟩ := hn
  let q' : RecallQuery := ⟨joined ps, joined ss, joined dps, joined ks, joined ls, q.staleOnly⟩
  have hh : tokens q'.paths = ps := tokens_joined hp
  have hr : sections q' = [("symbols".toList, ss), ("diff_paths".toList, dps),
      ("kinds".toList, ks), ("levels".toList, ls)] := by
    simp only [sections, q', tokens_joined hs, tokens_joined hd,
      tokens_joined hk, tokens_joined hle]
  refine ⟨q', recallQueryBytes_eq_iff.mpr ⟨?_, rfl⟩, fun ha => hne ⟨?_, ?_⟩⟩
  · rw [hh, hr, hl]
  · rw [← hh, tokens_perm ha.paths]
  · rw [← hr, sections, sections, tokens_perm ha.symbols, tokens_perm ha.diffPaths,
      tokens_perm ha.kinds, tokens_perm ha.levels]

/-- A query that is not bound has the bytes of another one. -/
theorem exists_bytes_eq_of_not_bound {q : RecallQuery} (h : ¬ QueryBound q) :
    ∃ q', recallQueryBytes q' = recallQueryBytes q ∧ ¬ Agree q' q := by
  by_cases hp : ListBound q.paths
  swap
  · obtain ⟨vs, ht, hne⟩ := exists_tokens_eq_of_not_listBound hp
    exact ⟨{ q with paths := vs }, bytes_eq_of_tokens_eq ht rfl rfl, fun ha => hne ha.paths⟩
  by_cases hs : ListBound q.symbols
  swap
  · obtain ⟨vs, ht, hne⟩ := exists_tokens_eq_of_not_listBound hs
    exact ⟨{ q with symbols := vs }, bytes_eq_of_tokens_eq rfl (by simp only [sections, ht])
      rfl, fun ha => hne ha.symbols⟩
  by_cases hd : ListBound q.diffPaths
  swap
  · obtain ⟨vs, ht, hne⟩ := exists_tokens_eq_of_not_listBound hd
    exact ⟨{ q with diffPaths := vs }, bytes_eq_of_tokens_eq rfl
      (by simp only [sections, ht]) rfl, fun ha => hne ha.diffPaths⟩
  by_cases hk : ListBound q.kinds
  swap
  · obtain ⟨vs, ht, hne⟩ := exists_tokens_eq_of_not_listBound hk
    exact ⟨{ q with kinds := vs }, bytes_eq_of_tokens_eq rfl (by simp only [sections, ht])
      rfl, fun ha => hne ha.kinds⟩
  by_cases hl : ListBound q.levels
  swap
  · obtain ⟨vs, ht, hne⟩ := exists_tokens_eq_of_not_listBound hl
    exact ⟨{ q with levels := vs }, bytes_eq_of_tokens_eq rfl (by simp only [sections, ht])
      rfl, fun ha => hne ha.levels⟩
  exact exists_bytes_eq_of_not_clear fun hc => h ⟨hp, hs, hd, hk, hl, hc⟩

/-- The same bytes are hashed for queries that agree only, when the query is bound and only then. -/
theorem agree_of_bytes_iff (q : RecallQuery) :
    (∀ q', recallQueryBytes q' = recallQueryBytes q → Agree q' q) ↔ QueryBound q := by
  refine ⟨fun h => ?_, fun h q' => h.agree⟩
  by_contra hbound
  obtain ⟨q', hb, hne⟩ := exists_bytes_eq_of_not_bound hbound
  exact hne (h q' hb)

/-! ## Cursors -/

/-- `CURSOR_SCHEMA_V1`. -/
def cursorSchemaV1 : String := "ee.cursor.v1"

/-- `RECALL_SCHEMA_V1`. -/
def recallSchemaV1 : String := "ee.recall.v1"

/-- `CursorPayload`. -/
structure CursorPayload where
  schema : String
  targetSchema : String
  dbGeneration : UInt64
  positionKey : String
  droppedCount : UInt64
  paramsHash : String
  deriving DecidableEq

/-- `CursorRejection`. -/
inductive CursorRejection where
  | invalid
  | stale (cursorGeneration currentGeneration : UInt64)

/-- `RecallCursorResolution`. -/
inductive RecallCursorResolution where
  | fresh
  | resume (offset : ℕ) (droppedCount : UInt64)
  | rejectedInvalid
  | rejectedStale (cursorGeneration currentGeneration : Int64)

/-- `blake3` in hexadecimal and under the key of recall cursors, `serde_json` on payloads, and
the engine of `base64`. -/
structure Library where
  hashHex : List UInt8 → String
  keyedHash : List UInt8 → Hex.Bytes32
  toVec : CursorPayload → Option (List UInt8)
  fromSlice : List UInt8 → Option CursorPayload
  base64 : Base64.Engine

section

variable (lib : Library)

/-- `recall_query_hash`. -/
def recallQueryHash (query : RecallQuery) : String :=
  String.ofList ((lib.hashHex (recallQueryBytes query)).toList.take 12)

/-- `encode_cursor`. -/
def encodeCursor (payload : CursorPayload) : Option String :=
  (lib.toVec payload).map fun bytes =>
    String.ofList (lib.base64.encode bytes) ++ String.ofList ['.']
      ++ String.ofList (lib.base64.encode (lib.keyedHash bytes).1)

/-- The payload of a token whose MAC is right. -/
def openCursor (token : String) : Option CursorPayload :=
  (splitOnceChar '.' token).bind fun parts =>
    (lib.base64.decode parts.1.toList).bind fun payloadBytes =>
      (lib.base64.decode parts.2.toList).bind fun macBytes =>
        if (lib.keyedHash payloadBytes).1 = macBytes then lib.fromSlice payloadBytes else none

/-- `decode_cursor`. -/
def decodeCursor (token expectedParamsHash : String) (currentGeneration : UInt64) :
    Except CursorRejection CursorPayload :=
  match openCursor lib token with
  | none => .error .invalid
  | some payload =>
    if payload.schema ≠ cursorSchemaV1 then .error .invalid
    else if payload.paramsHash ≠ expectedParamsHash then .error .invalid
    else if currentGeneration < payload.dbGeneration then .error .invalid
    else if payload.dbGeneration < currentGeneration then
      .error (.stale payload.dbGeneration currentGeneration)
    else .ok payload

/-- `u64::try_from` of a generation, with 0 for what does not fit. -/
def unsignedGeneration (generation : Int64) : UInt64 :=
  if generation < 0 then 0 else generation.toUInt64

/-- `i64::try_from` of a generation, with the maximum for what does not fit. -/
def signedGeneration (generation : UInt64) : Int64 :=
  if generation.toNat < 2 ^ 63 then generation.toInt64 else Int64.maxValue

/-- The payload of a recall cursor. -/
def recallPayload (query : RecallQuery) (nextOffset droppedCount : UInt64) (dbGeneration : Int64) :
    CursorPayload where
  schema := cursorSchemaV1
  targetSchema := recallSchemaV1
  dbGeneration := unsignedGeneration dbGeneration
  positionKey := toString nextOffset.toNat
  droppedCount := droppedCount
  paramsHash := recallQueryHash lib query

/-- `encode_recall_cursor`. -/
def encodeRecallCursor (query : RecallQuery) (nextOffset droppedCount : UInt64)
    (dbGeneration : Int64) : Option String :=
  encodeCursor lib (recallPayload lib query nextOffset droppedCount dbGeneration)

/-- `resolve_recall_cursor`. -/
def resolveRecallCursor (encoded : Option String) (query : RecallQuery)
    (currentDbGeneration : Int64) : RecallCursorResolution :=
  match encoded with
  | none => .fresh
  | some encoded =>
    match decodeCursor lib encoded (recallQueryHash lib query)
        (unsignedGeneration currentDbGeneration) with
    | .ok payload =>
      if payload.targetSchema ≠ recallSchemaV1 then .rejectedInvalid
      else
        match parseU64 payload.positionKey with
        | none => .rejectedInvalid
        | some offset => .resume offset payload.droppedCount
    | .error .invalid => .rejectedInvalid
    | .error (.stale cursorGeneration currentGeneration) =>
      .rejectedStale (signedGeneration cursorGeneration) (signedGeneration currentGeneration)

end

variable {lib : Library}

theorem full_stop_notMem_encode (lib : Library) (bytes : List UInt8) :
    '.' ∉ lib.base64.encode bytes := by
  intro hm
  have ha : '.' ∉ Base64.alphabet := by decide +kernel
  exact ha (lib.base64.mem_alphabet bytes _ hm)

/-- An issued cursor is opened to its payload, when the payload can be read. -/
theorem openCursor_issued {p : CursorPayload} {c : String} (hi : encodeCursor lib p = some c)
    (hr : ∀ bytes, lib.toVec p = some bytes → lib.fromSlice bytes = some p) :
    openCursor lib c = some p := by
  have hd := lib.base64.decode_encode
  obtain ⟨bytes, hb, rfl⟩ := Option.map_eq_some_iff.mp hi
  have hs := splitOnceChar_eq_some_iff (s := '.') (r := String.ofList
    (lib.base64.encode (lib.keyedHash bytes).1)).mpr ⟨rfl, by
      rw [String.toList_ofList]
      exact full_stop_notMem_encode lib bytes⟩
  simp only [openCursor, hs, Option.bind_some, String.toList_ofList, hd, if_true, hr bytes hb]

/-- What a page of another query makes of an issued cursor. -/
theorem resolveRecallCursor_issued {q q' : RecallQuery} {no dc : UInt64}
    {dg c : Int64} {cu : String} {o : ℕ} {dropped : UInt64}
    (hi : encodeRecallCursor lib q no dc dg = some cu)
    (hr : ∀ bytes, lib.toVec (recallPayload lib q no dc dg) = some bytes → lib.fromSlice bytes
        = some (recallPayload lib q no dc dg)) :
    resolveRecallCursor lib (some cu) q' c = .resume o dropped ↔
      recallQueryHash lib q' = recallQueryHash lib q ∧ unsignedGeneration c = unsignedGeneration dg
        ∧ o = no.toNat ∧ dropped = dc := by
  have ho := openCursor_issued hi hr
  have hp := parseU64_toString no.toNat_lt
  simp only [resolveRecallCursor, decodeCursor, ho, recallPayload, ne_eq, not_true_eq_false,
    if_false]
  by_cases hh : recallQueryHash lib q' = recallQueryHash lib q
  · rw [if_neg (not_not.mpr hh.symm)]
    by_cases hlt : unsignedGeneration c < unsignedGeneration dg
    · rw [if_pos hlt]
      exact iff_of_false nofun fun h => UInt64.ne_of_lt hlt h.2.1
    by_cases hgt : unsignedGeneration dg < unsignedGeneration c
    · rw [if_neg hlt, if_pos hgt]
      exact iff_of_false nofun fun h => UInt64.ne_of_lt hgt h.2.1.symm
    have heq : unsignedGeneration c = unsignedGeneration dg :=
      UInt64.le_antisymm (UInt64.not_lt.mp hgt) (UInt64.not_lt.mp hlt)
    rw [if_neg hlt, if_neg hgt]
    simp only [not_true_eq_false, if_false, hp, RecallCursorResolution.resume.injEq, hh,
      heq, true_and]
    exact and_congr eq_comm eq_comm
  · rw [if_pos fun h => hh (Eq.symm h)]
    exact iff_of_false nofun fun h => hh h.1

/-- **When a cursor is bound to its query.**  Equal bytes are hashed for agreeing queries only, and
the cursor is continued for agreeing queries only (but for hash collisions), exactly when every
list has at most one value, which is not a text, a zero byte and a text that is not smaller, and
no token between zero bytes is the label of its list or of the next one. -/
theorem recall_cursor_bound_iff {q : RecallQuery} {nextOffset droppedCount : UInt64}
    {dbGeneration : Int64} {cursor : String}
    (hissued : encodeRecallCursor lib q nextOffset droppedCount dbGeneration = some cursor)
    (hread : ∀ bytes, lib.toVec (recallPayload lib q nextOffset droppedCount dbGeneration)
      = some bytes → lib.fromSlice bytes
        = some (recallPayload lib q nextOffset droppedCount dbGeneration)) :
    ((∀ q', recallQueryBytes q' = recallQueryBytes q → Agree q' q) ↔ QueryBound q)
      ∧ ((∀ q' current offset dropped, (recallQueryHash lib q' = recallQueryHash lib q →
            recallQueryBytes q' = recallQueryBytes q) →
          resolveRecallCursor lib (some cursor) q' current = .resume offset dropped → Agree q' q)
        ↔ QueryBound q) := by
  refine ⟨agree_of_bytes_iff q, fun h => (agree_of_bytes_iff q).mp fun q' hb => ?_,
    fun h q' current offset dropped hc hr => ?_⟩
  · have hh : recallQueryHash lib q' = recallQueryHash lib q := by
      rw [recallQueryHash, hb, recallQueryHash]
    exact h q' dbGeneration _ _ (fun _ => hb)
      ((resolveRecallCursor_issued hissued hread).mpr ⟨hh, rfl, rfl, rfl⟩)
  · exact h.agree (hc ((resolveRecallCursor_issued hissued hread).mp hr).1)

/-- The path and the symbol of the same name. -/
theorem path_and_symbol_share_bytes : ¬ ∀ q q' : RecallQuery,
    recallQueryBytes q' = recallQueryBytes q → Agree q' q := by
  intro h
  have hb : recallQueryBytes { symbols := ["symbols"] }
      = recallQueryBytes { paths := ["symbols"] } := by
    rw [recallQueryBytes_eq_iff]
    decide
  exact absurd (h _ _ hb).paths.length_eq (by decide)

/-! ## A query that is bound -/

def mainPayload : CursorPayload where
  schema := "ee.cursor.v1"
  targetSchema := "ee.recall.v1"
  dbGeneration := 7
  positionKey := "5"
  droppedCount := 3
  paramsHash := "1bcc1a3d5c4e"

/-- `blake3` and `serde_json` on the one query and its payload. -/
def mainLibrary : Library where
  hashHex _ := "1bcc1a3d5c4e513268cbf8096672615f6b04951de478eefba51ef1dcaecdad5f"
  keyedHash _ := (Hex.decodeHex32
    "4621e826c04b3d98ac0d321565dc7a0a579c3c38f55d50c1f096b0d26d303962").getD
      ⟨List.replicate 32 0, Hex.length_zeros⟩
  toVec payload := if payload = mainPayload then some mainBytes else none
  fromSlice bytes := if bytes = mainBytes then some mainPayload else none
  base64 := Base64.urlSafeNoPad
where
  /-- The payload as a text. -/
  mainBytes : List UInt8 := asBytes
    ("\x7b\"schema\":\"ee.cursor.v1\",\"targetSchema\":\"ee.recall.v1\",\"dbGeneration\":7,"
      ++ "\"positionKey\":\"5\",\"droppedCount\":3,\"paramsHash\":\"1bcc1a3d5c4e\"\x7d")

theorem queryBound_main : QueryBound { paths := ["src/main.rs"] } := by
  have hn : ListBound [] := ⟨Nat.zero_le 1, nofun⟩
  refine ⟨⟨Nat.le_refl 1, ?_⟩, hn, hn, hn, hn, ?_⟩
  · intro value hv a b hs
    obtain rfl := List.mem_singleton.mp hv
    have hm : '\x00' ∈ "src/main.rs".toList := by
      rw [hs, String.toList_append, String.toList_append]
      exact List.mem_append_left _ (List.mem_append_right _ List.mem_cons_self)
    exact absurd hm (by decide)
  · exact ⟨by decide, by decide, by decide, by decide, by decide, by decide, by decide, by decide,
      trivial⟩

/-- A cursor for one path is not continued for another query. -/
theorem recall_cursor_bound_main : ∃ cursor,
    encodeRecallCursor mainLibrary { paths := ["src/main.rs"] } 5 3 7 = some cursor
      ∧ ∀ q' current offset dropped,
        (recallQueryHash mainLibrary q' = "1bcc1a3d5c4e" →
          recallQueryBytes q' = recallQueryBytes { paths := ["src/main.rs"] }) →
        resolveRecallCursor mainLibrary (some cursor) q' current = .resume offset dropped →
          Agree q' { paths := ["src/main.rs"] } := by
  have hp : recallPayload mainLibrary { paths := ["src/main.rs"] } 5 3 7 = mainPayload := by
    decide +kernel
  have hr : ∀ bytes, mainLibrary.toVec (recallPayload mainLibrary { paths := ["src/main.rs"] }
      5 3 7) = some bytes → mainLibrary.fromSlice bytes
        = some (recallPayload mainLibrary { paths := ["src/main.rs"] } 5 3 7) := by
    intro bytes hb
    rw [hp] at hb ⊢
    simp only [mainLibrary, if_true, Option.some.injEq] at hb ⊢
    rw [if_pos hb.symm]
  refine ⟨_, rfl, ?_⟩
  exact (recall_cursor_bound_iff rfl hr).2.mpr queryBound_main

end RecallCursor
