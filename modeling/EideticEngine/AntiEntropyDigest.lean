/-
# Range digests (`src/mesh/anti_entropy_protocol.rs`)

A delivered batch of events is sorted, checked to be one origin and one gapless span of
sequence numbers, and hashed behind labels and lengths.  The result does not depend on
the order of delivery, in the errors neither, and the hashed text determines the batch.
-/
import EideticEngine.AntiEntropyPlanner
import EideticEngine.ComparisonSort
import EideticEngine.TextFields

namespace AntiEntropyProtocol

open Std (TransCmp LawfulEqCmp)

/-! ## The hashed text -/

/-- `push_hash_field`. -/
def pushHashField (input label value : String) : String :=
  input ++ label ++ "#" ++ toString value.utf8ByteSize ++ ":" ++ value ++ ";"

/-- `push_hash_marker`. -/
def pushHashMarker (input label : String) : String := input ++ label ++ "#0:;"

/-- `origin_identity_hash_input`. -/
def originIdentityHashInput (origin : MeshOriginKey) : String :=
  let input := pushHashField "" "origin_node" origin.originNodeId
  match origin.originWorkspaceId with
  | some workspaceId => pushHashField input "origin_workspace" workspaceId
  | none => pushHashMarker input "origin_workspace_none"

/-- `stable_hash_hex`: the first digits of a 64-bit FNV hash. -/
def stableHashHex (value : String) (width : ℕ) : String :=
  let hash : UInt64 := (RustText.asBytes value).foldl
    (fun hash byte => (hash ^^^ byte.toUInt64) * 0x100000001b3) 0xcbf29ce484222325
  let digits := Nat.toDigits 16 hash.toNat
  let hex := List.replicate (16 - digits.length) '0' ++ digits
  String.ofList (hex.take (min width hex.length))

/-! ## Batches -/

/-- `MeshReplayEvent`. -/
structure MeshReplayEvent where
  origin : MeshOriginKey
  seq : ℕ
  eventHash : String
  auditHash : Option String
  seq_le : seq ≤ u64Max
  deriving DecidableEq

/-- `MeshRangeDigest`. -/
structure MeshRangeDigest where
  origin : MeshOriginKey
  startSeq : ℕ
  endSeq : ℕ
  eventCount : ℕ
  firstEventHash : String
  lastEventHash : String
  rangeDigest : String
  deriving DecidableEq, Repr

/-- `MeshProtocolError`. -/
inductive MeshProtocolError where
  | emptyRange
  | mixedOrigins (expectedOrigin actualOrigin : MeshOriginKey)
  | duplicateSeq (origin : MeshOriginKey) (seq : ℕ)
  | nonContiguousRange (origin : MeshOriginKey) (expectedSeq actualSeq : ℕ)
  deriving DecidableEq, Repr

/-- The comparison that `summarize_event_range` sorts by. -/
def eventCmp : MeshReplayEvent → MeshReplayEvent → Ordering :=
  compareLex (compareOn MeshReplayEvent.origin)
    (compareLex (compareOn MeshReplayEvent.seq) (compareOn MeshReplayEvent.eventHash))

/-- The sorted batch. -/
def sortedEvents (events : List MeshReplayEvent) : List MeshReplayEvent :=
  events.insertionSort fun left right => eventCmp left right ≠ .gt

/-- The first loop of `summarize_event_range`, with the sequence numbers seen. -/
def checkOriginAndSeqs (origin : MeshOriginKey) :
    List ℕ → List MeshReplayEvent → Except MeshProtocolError Unit
  | _, [] => .ok ()
  | seen, event :: events =>
    if event.origin ≠ origin then .error (.mixedOrigins origin event.origin)
    else if event.seq ∈ seen then .error (.duplicateSeq event.origin event.seq)
    else checkOriginAndSeqs origin (event.seq :: seen) events

/-- The second loop of `summarize_event_range`, from an offset on. -/
def checkContiguous (origin : MeshOriginKey) (startSeq : ℕ) :
    ℕ → List MeshReplayEvent → Except MeshProtocolError Unit
  | _, [] => .ok ()
  | offset, event :: events =>
    let expectedSeq := satAdd64 startSeq offset
    if event.seq ≠ expectedSeq then .error (.nonContiguousRange origin expectedSeq event.seq)
    else checkContiguous origin startSeq (offset + 1) events

/-- What one event adds to the digest input. -/
def pushEvent (input : String) (event : MeshReplayEvent) : String :=
  let input := pushHashField input "seq" (toString event.seq)
  let input := pushHashField input "event" event.eventHash
  match event.auditHash with
  | some auditHash => pushHashField input "audit" auditHash
  | none => pushHashMarker input "audit_none"

/-- The digest input of a sorted batch. -/
def digestInput (origin : MeshOriginKey) (events : List MeshReplayEvent) : String :=
  events.foldl pushEvent (originIdentityHashInput origin)

/-- `summarize_event_range`. -/
def summarizeEventRange (events : List MeshReplayEvent) :
    Except MeshProtocolError MeshRangeDigest :=
  match sortedEvents events with
  | [] => .error .emptyRange
  | first :: rest => do
    let origin := first.origin
    let startSeq := first.seq
    checkOriginAndSeqs origin [] (first :: rest)
    checkContiguous origin startSeq 0 (first :: rest)
    let last := (first :: rest).getLast (List.cons_ne_nil first rest)
    .ok
      { origin := origin
        startSeq := startSeq
        endSeq := last.seq
        eventCount := (first :: rest).length
        firstEventHash := first.eventHash
        lastEventHash := last.eventHash
        rangeDigest := stableHashHex (digestInput origin (first :: rest)) 16 }

/-- The text that the digest of an accepted batch is taken of. -/
def rangeDigestPreimage (events : List MeshReplayEvent) : Option String :=
  (sortedEvents events).head?.map fun first => digestInput first.origin (sortedEvents events)

/-! ## Order of delivery -/

/-- What the sort looks at. -/
def eventKey (event : MeshReplayEvent) : MeshOriginKey × ℕ × String :=
  (event.origin, event.seq, event.eventHash)

/-- The comparison of what the sort looks at. -/
def keyCmp : MeshOriginKey × ℕ × String → MeshOriginKey × ℕ × String → Ordering :=
  compareLex (compareOn Prod.fst)
    (compareLex (compareOn fun key => key.2.1) (compareOn fun key => key.2.2))

instance : TransCmp keyCmp := by
  unfold keyCmp
  infer_instance

instance : LawfulEqCmp keyCmp where
  eq_of_compare {a b} h := by
    have hthen : (compare a.1 b.1).then ((compare a.2.1 b.2.1).then (compare a.2.2 b.2.2))
      = .eq := h
    rw [Ordering.then_eq_eq, Ordering.then_eq_eq] at hthen
    exact Prod.ext (LawfulEqCmp.eq_of_compare hthen.1)
      (Prod.ext (LawfulEqCmp.eq_of_compare hthen.2.1) (LawfulEqCmp.eq_of_compare hthen.2.2))

instance : TransCmp eventCmp :=
  (ComparisonSort.transCmp_on eventKey :
    TransCmp fun left right => keyCmp (eventKey left) (eventKey right))

variable {events events' : List MeshReplayEvent}

theorem perm_sortedEvents (events : List MeshReplayEvent) : (sortedEvents events).Perm events :=
  List.perm_insertionSort _ _

/-- The sorted keys depend on the batch only. -/
theorem map_eventKey_sortedEvents (h : events'.Perm events) :
    (sortedEvents events').map eventKey = (sortedEvents events).map eventKey :=
  ComparisonSort.map_insertionSort_congr keyCmp eventKey h

/-- Where sequence numbers are distinct the sorted batch depends on the batch only. -/
theorem sortedEvents_congr (hn : (events.map MeshReplayEvent.seq).Nodup)
    (h : events'.Perm events) : sortedEvents events' = sortedEvents events := by
  unfold sortedEvents
  refine ComparisonSort.insertionSort_congr ?_ h
  intro a ha b hb hc
  change keyCmp (eventKey a) (eventKey b) = .eq at hc
  have hk : eventKey a = eventKey b := LawfulEqCmp.eq_of_compare hc
  exact List.inj_on_of_nodup_map hn ha hb (congrArg (fun key => key.2.1) hk)

theorem checkOriginAndSeqs_congr (o : MeshOriginKey) :
    ∀ (s : List ℕ) {left right : List MeshReplayEvent}, left.map eventKey = right.map eventKey →
      checkOriginAndSeqs o s left = checkOriginAndSeqs o s right
  | _, [], [], _ => rfl
  | _, [], _ :: _, h => by simp at h
  | _, _ :: _, [], h => by simp at h
  | s, a :: left, b :: right, h => by
    obtain ⟨hk, hr⟩ := List.cons.inj h
    have ho : a.origin = b.origin := congrArg Prod.fst hk
    have hs : a.seq = b.seq := congrArg (fun key => key.2.1) hk
    rw [checkOriginAndSeqs, checkOriginAndSeqs, ho, hs, checkOriginAndSeqs_congr o (b.seq :: s) hr]

theorem checkContiguous_congr (ori : MeshOriginKey) (ss : ℕ) :
    ∀ (o : ℕ) {left right : List MeshReplayEvent}, left.map eventKey = right.map eventKey →
      checkContiguous ori ss o left = checkContiguous ori ss o right
  | _, [], [], _ => rfl
  | _, [], _ :: _, h => by simp at h
  | _, _ :: _, [], h => by simp at h
  | o, a :: left, b :: right, h => by
    obtain ⟨hk, hr⟩ := List.cons.inj h
    have hs : a.seq = b.seq := congrArg (fun key => key.2.1) hk
    rw [checkContiguous, checkContiguous, hs, checkContiguous_congr ori ss (o + 1) hr]

/-! ## What is accepted -/

/-- The first loop passes when every event is of the origin and no number comes twice. -/
theorem checkOriginAndSeqs_eq_ok_iff (o : MeshOriginKey) (s : List ℕ)
    (events : List MeshReplayEvent) :
    checkOriginAndSeqs o s events = .ok () ↔ (∀ event ∈ events, event.origin = o) ∧
        (events.map MeshReplayEvent.seq).Nodup ∧ ∀ event ∈ events, event.seq ∉ s := by
  induction events generalizing s with
  | nil => simp [checkOriginAndSeqs]
  | cons event events ih =>
    rw [checkOriginAndSeqs, List.forall_mem_cons, List.forall_mem_cons]
    by_cases hori : event.origin = o
    · by_cases hs : event.seq ∈ s
      · simp [hori, hs]
      · simp only [hori, hs, ne_eq, not_true_eq_false, if_false, ih, List.map_cons,
          List.nodup_cons, List.mem_cons, not_or, true_and, not_false_eq_true, List.mem_map,
          not_exists, not_and]
        constructor
        · rintro ⟨hor, hn, hf⟩
          exact ⟨hor, ⟨fun other ho => (hf other ho).1, hn⟩, fun other ho => (hf other ho).2⟩
        · rintro ⟨hor, ⟨hfi, hn⟩, hf⟩
          exact ⟨hor, hn, fun other ho => ⟨hfi other ho, hf other ho⟩⟩
    · simp [hori]

/-- The second loop passes when the numbers go up one by one. -/
theorem checkContiguous_eq_ok_iff (ori : MeshOriginKey) (ss o : ℕ) (events : List MeshReplayEvent) :
    checkContiguous ori ss o events = .ok () ↔
      ∀ i (h : i < events.length), (events.get ⟨i, h⟩).seq = satAdd64 ss (o + i) := by
  induction events generalizing o with
  | nil => simp [checkContiguous]
  | cons event events ih =>
    rw [checkContiguous]
    by_cases hs : event.seq = satAdd64 ss o
    · simp only [hs, ne_eq, not_true_eq_false, if_false, ih]
      constructor
      · intro h i hi
        cases i with
        | zero => exact hs
        | succ i =>
          have := h i (by simpa using hi)
          rw [Nat.add_assoc, Nat.add_comm 1 i] at this
          exact this
      · intro h i hi
        have := h (i + 1) (by simpa using hi)
        rw [Nat.add_assoc, Nat.add_comm 1 i]
        exact this
    · simp only [hs, ne_eq, not_false_eq_true, if_true, reduceCtorEq, false_iff, not_forall]
      exact ⟨0, by simp, fun h => hs h⟩

/-- Numbers without a gap: what lies between two of them is one of them. -/
def Contiguous (seqs : List ℕ) : Prop :=
  ∀ a ∈ seqs, ∀ b ∈ seqs, ∀ k, a ≤ k → k ≤ b → k ∈ seqs

/-- There is one origin, and every event is of it; an empty batch has none. -/
def OneOrigin (events : List MeshReplayEvent) : Prop :=
  ∃ origin, ∀ other, other ∈ events.map MeshReplayEvent.origin ↔ other = origin

/-- Contiguity does not depend on the order. -/
theorem Contiguous.perm {s s' : List ℕ} (h : Contiguous s) (hp : s'.Perm s) :
    Contiguous s' := by
  intro a ha b hb k hak hkb
  rw [hp.mem_iff] at ha hb ⊢
  exact h a ha b hb k hak hkb

/-- Ascending numbers without a gap go up one by one. -/
theorem Contiguous.getElem_eq {start : ℕ} {s : List ℕ}
    (hs : (start :: s).Pairwise (· < ·)) (h : Contiguous (start :: s)) :
    ∀ i (hi : i < (start :: s).length), (start :: s)[i] = start + i := by
  induction s generalizing start with
  | nil =>
    intro i hi
    have hz : i = 0 := by simpa using hi
    subst hz
    rfl
  | cons next s ih =>
    rw [List.pairwise_cons] at hs
    obtain ⟨hst, ht⟩ := hs
    have hl : ∀ k ∈ next :: s, next ≤ k := by
      intro k hk
      rcases List.mem_cons.mp hk with rfl | hk
      · exact le_rfl
      · exact le_of_lt (List.rel_of_pairwise_cons ht hk)
    -- nothing lies between the first two
    have hn : next = start + 1 := by
      have hlt := hst next List.mem_cons_self
      have hm := h start (by simp) next (by simp) (start + 1) (by omega) (by omega)
      rcases List.mem_cons.mp hm with heq | hm
      · omega
      · have := hl _ hm
        omega
    have hc : Contiguous (next :: s) := by
      intro a ha b hb k hak hkb
      have hk := h a (List.mem_cons_of_mem _ ha) b (List.mem_cons_of_mem _ hb) k hak hkb
      have hgt := hst a ha
      exact (List.mem_cons.mp hk).resolve_left (by omega)
    intro i hi
    cases i with
    | zero => rfl
    | succ i =>
      rw [List.getElem_cons_succ, ih ht hc i (by simpa using hi)]
      omega

/-- Numbers that go up one by one have no gap. -/
theorem contiguous_of_getElem {ss : ℕ}
    (h : ∀ i (hi : i < events.length), (events.get ⟨i, hi⟩).seq = satAdd64 ss i) :
    Contiguous (events.map MeshReplayEvent.seq) := by
  intro a ha b hb k hak hkb
  obtain ⟨left, hl, rfl⟩ := List.mem_map.mp ha
  obtain ⟨right, hr, rfl⟩ := List.mem_map.mp hb
  obtain ⟨⟨i, hi⟩, rfl⟩ := List.mem_iff_get.mp hl
  obtain ⟨⟨j, hj⟩, rfl⟩ := List.mem_iff_get.mp hr
  have hc := (events.get ⟨j, hj⟩).seq_le
  rw [h i hi] at hak
  rw [h j hj] at hkb hc
  unfold satAdd64 at hak hkb hc
  -- the number stands where its distance from the start says
  have hm : k - ss < events.length := by omega
  refine List.mem_map.mpr ⟨events.get ⟨k - ss, hm⟩, List.get_mem _ _, ?_⟩
  rw [h _ hm]
  unfold satAdd64
  omega

/-- In a sorted batch of one origin and distinct numbers the numbers go up. -/
theorem pairwise_seq_sortedEvents {o : MeshOriginKey} (ho : ∀ event ∈ events, event.origin = o)
    (hn : (events.map MeshReplayEvent.seq).Nodup) :
    ((sortedEvents events).map MeshReplayEvent.seq).Pairwise (· < ·) := by
  have hs : (sortedEvents events).Pairwise fun left right => eventCmp left right ≠ .gt :=
    List.pairwise_insertionSort (fun left right => eventCmp left right ≠ .gt) events
  have hd : ((sortedEvents events).map MeshReplayEvent.seq).Nodup :=
    ((perm_sortedEvents events).map _).nodup_iff.mpr hn
  rw [List.pairwise_map]
  refine (hs.and (List.pairwise_map.mp hd)).imp_of_mem ?_
  rintro left right hl hr ⟨hle, hne⟩
  have hsa : compare left.origin right.origin = .eq := by
    rw [ho left ((perm_sortedEvents events).subset hl),
      ho right ((perm_sortedEvents events).subset hr)]
    exact Std.ReflCmp.compare_self
  change (compare left.origin right.origin).then ((compare left.seq right.seq).then
    (compare left.eventHash right.eventHash)) ≠ .gt at hle
  rw [hsa] at hle
  rcases Nat.lt_trichotomy left.seq right.seq with hlt | heq | hgt
  · exact hlt
  · exact absurd heq hne
  · rw [Nat.compare_eq_gt.mpr hgt] at hle
    exact absurd rfl hle

/-- The two loops decide whether a batch is accepted. -/
theorem summarizeEventRange_eq_ok_iff {first : MeshReplayEvent} {r : List MeshReplayEvent}
    (hs : sortedEvents events = first :: r) :
    (∃ digest, summarizeEventRange events = .ok digest) ↔
      checkOriginAndSeqs first.origin [] (first :: r) = .ok () ∧
        checkContiguous first.origin first.seq 0 (first :: r) = .ok () := by
  unfold summarizeEventRange
  rw [hs]
  simp only
  cases checkOriginAndSeqs first.origin [] (first :: r) with
  | error error => simp [bind, Except.bind]
  | ok =>
    cases checkContiguous first.origin first.seq 0 (first :: r) with
    | error error => simp [bind, Except.bind]
    | ok => simp [bind, Except.bind]

theorem sortedEvents_eq_nil_iff : sortedEvents events = [] ↔ events = [] := by
  constructor
  · intro h
    have hp := perm_sortedEvents events
    rw [h] at hp
    exact hp.nil_eq.symm
  · rintro rfl
    rfl

/-- **Which batches are accepted**: those of one origin whose numbers are distinct and
without a gap. -/
theorem exists_summarizeEventRange_eq_ok_iff (events : List MeshReplayEvent) :
    (∃ digest, summarizeEventRange events = .ok digest) ↔
      OneOrigin events ∧ (events.map MeshReplayEvent.seq).Nodup ∧
        Contiguous (events.map MeshReplayEvent.seq) := by
  have hp := perm_sortedEvents events
  cases hs : sortedEvents events with
  | nil =>
    rw [sortedEvents_eq_nil_iff] at hs
    subst hs
    constructor
    · rintro ⟨digest, hd⟩
      cases hd
    · rintro ⟨⟨o, ho⟩, -⟩
      exact absurd ((ho o).mpr rfl) (by simp)
  | cons first r =>
    rw [hs] at hp
    have hse := hp.map MeshReplayEvent.seq
    rw [summarizeEventRange_eq_ok_iff hs, checkOriginAndSeqs_eq_ok_iff, checkContiguous_eq_ok_iff]
    simp only [List.not_mem_nil, not_false_eq_true, implies_true, and_true, Nat.zero_add]
    constructor
    · rintro ⟨⟨ho, hn⟩, hc⟩
      refine ⟨⟨first.origin, fun other => ?_⟩, hse.nodup_iff.mp hn,
        (contiguous_of_getElem hc).perm hse.symm⟩
      rw [← (hp.map MeshReplayEvent.origin).mem_iff]
      constructor
      · intro hot
        obtain ⟨event, he, rfl⟩ := List.mem_map.mp hot
        exact ho event he
      · rintro rfl
        exact List.mem_map.mpr ⟨first, List.mem_cons_self, rfl⟩
    · rintro ⟨⟨o, ho⟩, hn, hc⟩
      have hal : ∀ event ∈ events, event.origin = o := fun event he =>
        (ho event.origin).mp (List.mem_map.mpr ⟨event, he, rfl⟩)
      have hf := hal first (hp.subset List.mem_cons_self)
      refine ⟨⟨fun event he => (hal event (hp.subset he)).trans hf.symm, hse.nodup_iff.mpr hn⟩, ?_⟩
      have ha := pairwise_seq_sortedEvents hal hn
      rw [hs, List.map_cons] at ha
      have hg : Contiguous (first.seq :: r.map MeshReplayEvent.seq) := hc.perm hse
      intro i hi
      have hge := hg.getElem_eq ha i (by simpa using hi)
      have hseq : ((first :: r).get ⟨i, hi⟩).seq = first.seq + i := by
        rw [← hge]
        simp only [List.get_eq_getElem, ← List.map_cons, List.getElem_map]
      have hca := ((first :: r).get ⟨i, hi⟩).seq_le
      rw [hseq] at hca ⊢
      unfold satAdd64
      omega

/-- **The order of delivery does not matter**, in the errors neither. -/
theorem summarizeEventRange_perm (h : events'.Perm events) :
    summarizeEventRange events' = summarizeEventRange events := by
  by_cases hok : ∃ digest, summarizeEventRange events = .ok digest
  · have hn := ((exists_summarizeEventRange_eq_ok_iff events).mp hok).2.1
    unfold summarizeEventRange
    rw [sortedEvents_congr hn h]
  -- a refused batch: the loops see the same keys
  have hk := map_eventKey_sortedEvents h
  cases hs : sortedEvents events with
  | nil =>
    rw [hs, List.map_nil, List.map_eq_nil_iff] at hk
    unfold summarizeEventRange
    rw [hs, hk]
  | cons first r =>
    cases hs' : sortedEvents events' with
    | nil =>
      rw [hs, hs'] at hk
      cases hk
    | cons f' r' =>
      rw [hs, hs'] at hk
      have hf := (List.cons.inj hk).1
      have hor : f'.origin = first.origin := congrArg Prod.fst hf
      have hse : f'.seq = first.seq := congrArg (fun key => key.2.1) hf
      rw [summarizeEventRange_eq_ok_iff hs] at hok
      unfold summarizeEventRange
      rw [hs, hs']
      simp only [hor, hse, checkOriginAndSeqs_congr first.origin [] hk,
        checkContiguous_congr first.origin first.seq 0 hk]
      cases ho : checkOriginAndSeqs first.origin [] (first :: r) with
      | error error => rfl
      | ok =>
        cases hc : checkContiguous first.origin first.seq 0 (first :: r) with
        | error error => rfl
        | ok => exact absurd ⟨ho, hc⟩ hok

/-! ## The hashed text determines the batch -/

theorem pushHashField_eq (inp l value : String) :
    pushHashField inp l value = inp ++ TextFields.field l value := by
  unfold pushHashField TextFields.field
  simp only [String.append_assoc]

/-- A marker is an empty field. -/
theorem pushHashMarker_eq (inp l : String) :
    pushHashMarker inp l = inp ++ TextFields.field l "" := by
  unfold pushHashMarker TextFields.field
  simp only [String.append_assoc]
  rfl

/-- The fields of an origin. -/
def originFields (origin : MeshOriginKey) : List (String × String) :=
  [("origin_node", origin.originNodeId),
    match origin.originWorkspaceId with
    | some workspaceId => ("origin_workspace", workspaceId)
    | none => ("origin_workspace_none", "")]

/-- The fields of an event. -/
def eventFields (event : MeshReplayEvent) : List (String × String) :=
  [("seq", toString event.seq), ("event", event.eventHash),
    match event.auditHash with
    | some auditHash => ("audit", auditHash)
    | none => ("audit_none", "")]

theorem originIdentityHashInput_eq (o : MeshOriginKey) :
    originIdentityHashInput o = TextFields.concat (originFields o) := by
  unfold originIdentityHashInput originFields
  cases o.originWorkspaceId <;>
    simp [TextFields.concat_cons, pushHashField_eq, pushHashMarker_eq]

theorem pushEvent_eq (inp : String) (event : MeshReplayEvent) :
    pushEvent inp event = inp ++ TextFields.concat (eventFields event) := by
  unfold pushEvent eventFields
  cases event.auditHash <;>
    simp [TextFields.concat_cons, pushHashField_eq, pushHashMarker_eq, String.append_assoc]

theorem digestInput_eq (o : MeshOriginKey) (events : List MeshReplayEvent) : digestInput o events
      = TextFields.concat (originFields o ++ events.flatMap eventFields) := by
  have hf : ∀ (events : List MeshReplayEvent) (inp : String), events.foldl pushEvent inp
        = inp ++ TextFields.concat (events.flatMap eventFields) := by
    intro events
    induction events with
    | nil =>
      intro inp
      simp
    | cons event events ih =>
      intro inp
      rw [List.foldl_cons, ih, pushEvent_eq, List.flatMap_cons, TextFields.concat_append,
        String.append_assoc]
  unfold digestInput
  rw [hf, originIdentityHashInput_eq, TextFields.concat_append]

/-- No label has the character that ends a label. -/
theorem labels_fit (o : MeshOriginKey) (events : List MeshReplayEvent) :
    ∀ en ∈ originFields o ++ events.flatMap eventFields, '#' ∉ en.1.toList := by
  have hk : ∀ l ∈ ["origin_node", "origin_workspace", "origin_workspace_none", "seq",
      "event", "audit", "audit_none"], '#' ∉ l.toList := by decide +kernel
  intro en he
  refine hk en.1 ?_
  rcases List.mem_append.mp he with hin | hin
  · unfold originFields at hin
    cases ho : o.originWorkspaceId <;> rw [ho] at hin <;>
      rcases List.mem_pair.mp hin with rfl | rfl <;> simp
  · obtain ⟨event, -, hin⟩ := List.mem_flatMap.mp hin
    unfold eventFields at hin
    cases ha : event.auditHash <;> rw [ha] at hin <;>
      simp only [List.mem_cons, List.not_mem_nil, or_false] at hin <;>
      rcases hin with rfl | rfl | rfl <;> simp

theorem eventFields_inj {left right : MeshReplayEvent} (ho : left.origin = right.origin)
    (h : eventFields left = eventFields right) : left = right := by
  obtain ⟨o, seq, eh, ah, hle⟩ := left
  obtain ⟨o', s', eh', ah', h'⟩ := right
  unfold eventFields at h
  obtain ⟨hse, hr⟩ := List.cons.inj h
  obtain ⟨hev, hr⟩ := List.cons.inj hr
  have hau := (List.cons.inj hr).1
  have hs : seq = s' := Nat.repr_injective (congrArg Prod.snd hse)
  have he : eh = eh' := congrArg Prod.snd hev
  have ha : ah = ah' := by
    cases ah <;> cases ah' <;> simp_all
  simp only at ho
  subst ho hs he ha
  rfl

theorem originFields_inj {left right : MeshOriginKey}
    (h : originFields left = originFields right) : left = right := by
  obtain ⟨node, w⟩ := left
  obtain ⟨n', w'⟩ := right
  unfold originFields at h
  obtain ⟨hno, hr⟩ := List.cons.inj h
  have hwo := (List.cons.inj hr).1
  have hn : node = n' := congrArg Prod.snd hno
  have hw : w = w' := by
    cases w <;> cases w' <;> simp_all
  rw [hn, hw]

/-- The fields of events of one origin determine the events. -/
theorem flatMap_eventFields_inj {o : MeshOriginKey} {left : List MeshReplayEvent} :
    ∀ {right : List MeshReplayEvent}, (∀ event ∈ left, event.origin = o) →
      (∀ event ∈ right, event.origin = o) →
      left.flatMap eventFields = right.flatMap eventFields → left = right := by
  induction left with
  | nil =>
    intro right _ _ h
    cases right with
    | nil => rfl
    | cons event right => simp [eventFields] at h
  | cons event left ih =>
    intro right hl hr h
    cases right with
    | nil => simp [eventFields] at h
    | cons e' right =>
      rw [List.flatMap_cons, List.flatMap_cons] at h
      obtain ⟨hf, hre⟩ := List.append_inj h rfl
      have ho := (hl event List.mem_cons_self).trans (hr e' List.mem_cons_self).symm
      rw [eventFields_inj ho hf, ih (fun e he => hl e (List.mem_cons_of_mem _ he))
        (fun e he => hr e (List.mem_cons_of_mem _ he)) hre]

/-- The digest input of sorted batches of one origin each. -/
theorem digestInput_inj {o o' : MeshOriginKey} {left right : List MeshReplayEvent}
    (hl : ∀ event ∈ left, event.origin = o)
    (hr : ∀ event ∈ right, event.origin = o')
    (h : digestInput o left = digestInput o' right) : left = right := by
  rw [digestInput_eq, digestInput_eq] at h
  have hf := TextFields.concat_inj (labels_fit o left) (labels_fit o' right) h
  obtain ⟨ho, he⟩ := List.append_inj hf rfl
  have hor := originFields_inj ho
  subst hor
  exact flatMap_eventFields_inj hl hr he

/-- An accepted batch has a preimage, and it is what its digest is a hash of. -/
theorem rangeDigest_eq_hash {digest : MeshRangeDigest}
    (h : summarizeEventRange events = .ok digest) :
    ∃ p, rangeDigestPreimage events = some p ∧ digest.rangeDigest = stableHashHex p 16 := by
  unfold rangeDigestPreimage
  unfold summarizeEventRange at h
  cases hs : sortedEvents events with
  | nil =>
    rw [hs] at h
    cases h
  | cons first r =>
    rw [hs] at h
    simp only at h
    refine ⟨_, rfl, ?_⟩
    cases ho : checkOriginAndSeqs first.origin [] (first :: r) with
    | error error =>
      rw [ho] at h
      cases h
    | ok =>
      rw [ho] at h
      cases hc : checkContiguous first.origin first.seq 0 (first :: r) with
      | error error =>
        rw [hc] at h
        cases h
      | ok =>
        rw [hc] at h
        cases h
        rfl

/-- Accepted batches with the same preimage have the same events. -/
theorem perm_of_preimage_eq {digest d' : MeshRangeDigest}
    (hok : summarizeEventRange events = .ok digest)
    (h' : summarizeEventRange events' = .ok d')
    (h : rangeDigestPreimage events = rangeDigestPreimage events') : events.Perm events' := by
  obtain ⟨⟨o, ho⟩, -⟩ := (exists_summarizeEventRange_eq_ok_iff events).mp ⟨_, hok⟩
  obtain ⟨⟨o', ho'⟩, -⟩ := (exists_summarizeEventRange_eq_ok_iff events').mp ⟨_, h'⟩
  have ha : ∀ event ∈ sortedEvents events, event.origin = o := fun event he =>
    (ho _).mp (List.mem_map.mpr ⟨event, (perm_sortedEvents events).subset he, rfl⟩)
  have ha' : ∀ event ∈ sortedEvents events', event.origin = o' := fun event he =>
    (ho' _).mp (List.mem_map.mpr ⟨event, (perm_sortedEvents events').subset he, rfl⟩)
  obtain ⟨p, hp, -⟩ := rangeDigest_eq_hash hok
  obtain ⟨p', hp', -⟩ := rangeDigest_eq_hash h'
  unfold rangeDigestPreimage at hp hp' h
  have hs : sortedEvents events = sortedEvents events' := by
    cases hf : (sortedEvents events).head? with
    | none =>
      rw [hf] at hp
      cases hp
    | some first =>
      cases hf' : (sortedEvents events').head? with
      | none =>
        rw [hf'] at hp'
        cases hp'
      | some f' =>
        rw [hf, hf', Option.map_some, Option.map_some, Option.some_inj,
          ha first (List.mem_of_head? hf),
          ha' f' (List.mem_of_head? hf')] at h
        exact digestInput_inj ha ha' h
  exact (perm_sortedEvents events).symm.trans (hs ▸ perm_sortedEvents events')

/-- **Range summaries are canonical and binding.**  The result for a batch, error or
digest, is the same for every order of delivery; a batch is accepted exactly when its
events are of one origin and their numbers are distinct and without a gap; the digest is
a hash of the preimage, and accepted batches with the same preimage hold the same events:
the same origin, sequence numbers, event hashes and audit hashes. -/
theorem range_summary_canonical_and_binding (events : List MeshReplayEvent) :
    (∀ shuffled : List MeshReplayEvent, shuffled.Perm events →
      summarizeEventRange shuffled = summarizeEventRange events) ∧
    ((∃ digest, summarizeEventRange events = .ok digest) ↔
      OneOrigin events ∧ (events.map MeshReplayEvent.seq).Nodup ∧
        Contiguous (events.map MeshReplayEvent.seq)) ∧
    (∀ digest, summarizeEventRange events = .ok digest →
      ∃ preimage, rangeDigestPreimage events = some preimage ∧
        digest.rangeDigest = stableHashHex preimage 16) ∧
    ∀ (events' : List MeshReplayEvent) (digest digest' : MeshRangeDigest),
      summarizeEventRange events = .ok digest → summarizeEventRange events' = .ok digest' →
      rangeDigestPreimage events = rangeDigestPreimage events' → events.Perm events' :=
  ⟨fun _ h => summarizeEventRange_perm h, exists_summarizeEventRange_eq_ok_iff events,
    fun _ h => rangeDigest_eq_hash h, fun _ _ _ hok h' h => perm_of_preimage_eq hok h' h⟩

/-- Two events that are delivered in the wrong order. -/
example : (summarizeEventRange
    [⟨⟨"n", none⟩, 2, "h2", none, by decide⟩, ⟨⟨"n", none⟩, 1, "h1", some "a1", by decide⟩]).map
      (fun digest => (digest.startSeq, digest.endSeq, digest.firstEventHash))
    = .ok (1, 2, "h1") := by decide +kernel

end AntiEntropyProtocol
