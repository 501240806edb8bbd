/-
# Racing writers of origin streams

Any number of writers append to the same tables.  An append is two steps, the tip read
and the write transaction, and steps of different writers may come in any order.  The
streams stay linear (`Linear`) because the transaction compares both the number and the
previous hash with the tip it finds.
-/
import EideticEngine.ExceptRules
import EideticEngine.OriginStream

namespace OriginStream

/-! ## Linear streams -/

/-- Numbered from zero without gap, the first without a previous hash, every other with
the hash of the row before it. -/
structure Linear (rows : List StoredMeshOriginEvent) : Prop where
  seqs : rows.map StoredMeshOriginEvent.seq = List.range rows.length
  first : ∀ row ∈ rows.head?, row.prevEventHash = none
  linked : ∀ k (row next : StoredMeshOriginEvent), rows[k]? = some row → rows[k + 1]? = some next →
    next.prevEventHash = some row.eventHash

/-- An empty stream is linear. -/
theorem Linear.nil : Linear [] := ⟨rfl, by simp, by simp⟩

/-- The row at a position has that number. -/
theorem Linear.seq_eq {r : List StoredMeshOriginEvent} (h : Linear r) {k : ℕ}
    {row : StoredMeshOriginEvent} (hr : r[k]? = some row) : row.seq = k := by
  have hlt : k < r.length := (List.getElem?_eq_some_iff.mp hr).1
  have hs : (r.map StoredMeshOriginEvent.seq)[k]? = some row.seq := by
    rw [List.getElem?_map, hr]
    rfl
  rw [h.seqs, List.getElem?_range hlt] at hs
  exact (Option.some.inj hs).symm

/-- The tip of a linear stream is its last row. -/
theorem Linear.argmax_seq {r : List StoredMeshOriginEvent} (h : Linear r) :
    r.argmax StoredMeshOriginEvent.seq = r.getLast? := by
  cases hl : r.getLast? with
  | none =>
    rw [List.getLast?_eq_none_iff] at hl
    rw [hl]
    rfl
  | some l =>
    have hp : 0 < r.length := List.length_pos_of_mem (List.mem_of_getLast? hl)
    have hla : l.seq = r.length - 1 := by
      rw [List.getLast?_eq_getElem?] at hl
      exact h.seq_eq hl
    cases hm : r.argmax StoredMeshOriginEvent.seq with
    | none =>
      rw [List.argmax_eq_none] at hm
      rw [hm] at hp
      simp at hp
    | some row =>
      obtain ⟨k, hk⟩ := List.mem_iff_getElem?.mp (List.argmax_mem hm)
      have hkl : k < r.length := (List.getElem?_eq_some_iff.mp hk).1
      have hle := List.le_of_mem_argmax (List.mem_of_getLast? hl) hm
      rw [h.seq_eq hk, hla] at hle
      have hke : k = r.length - 1 := by omega
      rw [List.getLast?_eq_getElem?, ← hke, hk] at hl
      exact hl

/-- A row with the next number and the last hash continues a linear stream. -/
theorem Linear.concat {r : List StoredMeshOriginEvent} (h : Linear r)
    {row : StoredMeshOriginEvent} (hs : row.seq = r.length)
    (hp : row.prevEventHash = r.getLast?.map StoredMeshOriginEvent.eventHash) :
    Linear (r ++ [row]) := by
  refine ⟨?_, ?_, ?_⟩
  · rw [List.map_append, h.seqs, List.length_append, List.length_singleton, List.range_succ,
      List.map_singleton, hs]
  · cases r with
    | nil =>
      intro first hf
      cases hf
      exact hp
    | cons first r =>
      intro r' hr'
      exact h.first r' hr'
  · intro k b next hb hn
    rcases Nat.lt_or_ge (k + 1) r.length with hlt | hge
    · rw [List.getElem?_append_left (by omega)] at hb
      rw [List.getElem?_append_left hlt] at hn
      exact h.linked k b next hb hn
    · have hl : k + 1 = r.length := by
        have hbo := (List.getElem?_eq_some_iff.mp hn).1
        rw [List.length_append, List.length_singleton] at hbo
        omega
      rw [hl, List.getElem?_concat_length] at hn
      rw [List.getElem?_append_left (by omega)] at hb
      cases hn
      rw [hp, List.getLast?_eq_getElem?, ← hl, Nat.add_sub_cancel, hb]
      rfl

/-! ## The write transaction -/

/-- An event row is added at a free number of its stream only. -/
theorem insertEvent_ok {ts ts' : OriginTables} {inp : CreateMeshOriginEventInput}
    (h : insertEvent ts inp = .ok ts') :
    ts'.events = ts.events ++ [inp.row] ∧ ∀ row ∈ ts.events, row.teamId = inp.teamId →
        row.originNodeId = inp.originNodeId → row.seq ≠ clampI64 inp.seq := by
  unfold insertEvent at h
  split at h
  · cases h
  split at h
  · cases h
  rename_i hs
  cases h
  refine ⟨rfl, ?_⟩
  intro row hr ht ho heq
  apply hs
  rw [List.any_eq_true]
  exact ⟨row, hr, decide_eq_true ⟨ht, ho, heq⟩⟩

theorem insertNonce_ok {ts ts' : OriginTables} {eventId nh : String}
    (h : insertNonce ts eventId nh = .ok ts') : ts'.events = ts.events := by
  unfold insertNonce at h
  split at h
  · cases h
  · cases h
    rfl

/-- A transaction that succeeds passed the re-check and added its row. -/
theorem appendMeshOriginEventInCurrentTransaction_ok {faults : EngineFaults}
    {ts ts' : OriginTables} {inp : CreateMeshOriginEventInput}
    (h : appendMeshOriginEventInCurrentTransaction faults ts inp = .ok ts') :
    chainOk (ts.meshOriginTip inp.teamId inp.originNodeId) inp = true ∧
      ts'.events = ts.events ++ [inp.row] ∧
      ∀ row ∈ ts.events, row.teamId = inp.teamId →
        row.originNodeId = inp.originNodeId → row.seq ≠ clampI64 inp.seq := by
  unfold appendMeshOriginEventInCurrentTransaction at h
  simp only at h
  split at h
  case isFalse => cases h
  case isTrue hchain =>
    refine ⟨hchain, ?_⟩
    split at h
    case isTrue => cases h
    case isFalse =>
      cases hi : insertEvent ts inp with
      | error e =>
        rw [hi] at h
        cases h
      | ok inserted =>
        rw [hi] at h
        obtain ⟨he, hf⟩ := insertEvent_ok hi
        refine ⟨?_, hf⟩
        cases hn : inp.bodyNonceHex with
        | none =>
          rw [hn] at h
          cases h
          exact he
        | some nh =>
          rw [hn] at h
          simp only at h
          split at h
          · cases h
          cases hs : insertNonce inserted inp.eventId nh with
          | error e =>
            rw [hs] at h
            cases h
          | ok w =>
            rw [hs] at h
            cases h
            rw [insertNonce_ok hs, he]

/-- What a transaction does: it fails and changes nothing, or the re-check passed and
it adds the row, at a free number, and perhaps a nonce. -/
theorem appendMeshOriginEvent_cases (faults : EngineFaults) (ts : OriginTables)
    (inp : CreateMeshOriginEventInput) :
    (∃ e, appendMeshOriginEvent faults ts inp = (ts, .error e)) ∨
      (chainOk (ts.meshOriginTip inp.teamId inp.originNodeId) inp = true ∧
        (∀ row ∈ ts.events, row.teamId = inp.teamId →
          row.originNodeId = inp.originNodeId → row.seq ≠ clampI64 inp.seq) ∧
        ∃ ns, appendMeshOriginEvent faults ts inp = (⟨ts.events ++ [inp.row], ns⟩, .ok ())) := by
  unfold appendMeshOriginEvent
  cases hi : appendMeshOriginEventInCurrentTransaction faults ts inp with
  | error e => exact Or.inl ⟨e, rfl⟩
  | ok ts' =>
    obtain ⟨hc, he, hf⟩ := appendMeshOriginEventInCurrentTransaction_ok hi
    simp only
    split
    · exact Or.inl ⟨_, rfl⟩
    · refine Or.inr ⟨hc, hf, ts'.nonces, ?_⟩
      rw [← he]

/-- A transaction whose re-check fails reports what it expected and changes nothing. -/
theorem appendMeshOriginEvent_mismatch (faults : EngineFaults) {ts : OriginTables}
    {inp : CreateMeshOriginEventInput}
    (h : chainOk (ts.meshOriginTip inp.teamId inp.originNodeId) inp = false) :
    appendMeshOriginEvent faults ts inp = (ts, .error (.chainMismatch
      (nextAfter (ts.meshOriginTip inp.teamId inp.originNodeId)).1
      (nextAfter (ts.meshOriginTip inp.teamId inp.originNodeId)).2
      inp.seq inp.prevEventHash)) := by
  unfold appendMeshOriginEvent appendMeshOriginEventInCurrentTransaction
  simp only [h, Bool.false_eq_true, if_false]

/-- `append_origin_event` has the tables of its transaction. -/
theorem writeBuilt_tables (faults : EngineFaults) (ts : OriginTables)
    (inp : CreateMeshOriginEventInput) :
    (writeBuilt faults ts inp).1 = (appendMeshOriginEvent faults ts inp).1 := by
  unfold writeBuilt
  rcases appendMeshOriginEvent_cases faults ts inp with ⟨e, he⟩ | ⟨-, -, ns, hok⟩
  · rw [he]
    cases e <;> rfl
  · rw [hok]

/-! ## One write keeps the streams -/

/-- The tables hold linear streams, with numbers that fit their column. -/
structure LinearTables (tables : OriginTables) : Prop where
  linear : ∀ teamId originNodeId, Linear (tables.stream teamId originNodeId)
  seq_le : ∀ row ∈ tables.events, row.seq ≤ i64Max

theorem linearTables_empty : LinearTables .empty :=
  ⟨fun _ _ => Linear.nil, by simp [OriginTables.empty]⟩

theorem stream_append_same {ts : OriginTables} {row : StoredMeshOriginEvent}
    {ns : List (String × String)} :
    (OriginTables.mk (ts.events ++ [row]) ns).stream row.teamId row.originNodeId
      = ts.stream row.teamId row.originNodeId ++ [row] := by
  simp [OriginTables.stream, List.filter_append]

theorem stream_append_other {ts : OriginTables} {row : StoredMeshOriginEvent}
    {ns : List (String × String)} {teamId nodeId : String}
    (h : (teamId, nodeId) ≠ (row.teamId, row.originNodeId)) :
    (OriginTables.mk (ts.events ++ [row]) ns).stream teamId nodeId = ts.stream teamId nodeId := by
  have hr : ¬ (row.teamId = teamId ∧ row.originNodeId = nodeId) := by
    rintro ⟨rfl, rfl⟩
    exact h rfl
  simp only [OriginTables.stream, List.filter_append, List.filter_singleton, hr,
    decide_false, Bool.cond_false, List.append_nil]

/-- In linear tables the tip is the last row. -/
theorem LinearTables.tip_eq {ts : OriginTables} (h : LinearTables ts) (teamId nodeId : String) :
    ts.meshOriginTip teamId nodeId
      = (ts.stream teamId nodeId).getLast?.map fun row => (row.seq, row.eventHash) := by
  unfold OriginTables.meshOriginTip
  rw [(h.linear teamId nodeId).argmax_seq]

/-- A row that passed the re-check at a free number continues its stream. -/
theorem LinearTables.concat {ts : OriginTables} (h : LinearTables ts)
    {inp : CreateMeshOriginEventInput} {ns : List (String × String)}
    (hc : chainOk (ts.meshOriginTip inp.teamId inp.originNodeId) inp = true)
    (hf : ∀ row ∈ ts.events, row.teamId = inp.teamId →
      row.originNodeId = inp.originNodeId → row.seq ≠ clampI64 inp.seq) :
    LinearTables ⟨ts.events ++ [inp.row], ns⟩ := by
  have hli := h.linear inp.teamId inp.originNodeId
  set r := ts.stream inp.teamId inp.originNodeId with hrows
  -- the number that the re-check asks for, before it is clamped to its column
  have hn : inp.seq = min r.length u64Max ∧
      inp.prevEventHash = r.getLast?.map StoredMeshOriginEvent.eventHash := by
    rw [h.tip_eq, ← hrows] at hc
    cases hl : r.getLast? with
    | none =>
      rw [hl] at hc
      obtain ⟨hs, hp⟩ := of_decide_eq_true hc
      rw [List.getLast?_eq_none_iff] at hl
      rw [hs, hp, hl]
      exact ⟨rfl, rfl⟩
    | some l =>
      rw [hl] at hc
      obtain ⟨hs, hp⟩ := of_decide_eq_true hc
      have hpo := List.length_pos_of_mem (List.mem_of_getLast? hl)
      have hla : l.seq = r.length - 1 := by
        rw [List.getLast?_eq_getElem?] at hl
        exact hli.seq_eq hl
      refine ⟨?_, hp⟩
      rw [hs, hla]
      unfold satAdd64
      rw [Nat.sub_add_cancel hpo]
  -- a clamped number would be one that is taken
  have hs : inp.row.seq = r.length := by
    have hro : inp.row.seq = clampI64 inp.seq := rfl
    rw [hro]
    by_contra hne
    have hlt : clampI64 inp.seq < r.length := by
      unfold clampI64 at hne ⊢
      omega
    obtain ⟨row, hr⟩ : ∃ row, r[clampI64 inp.seq]? = some row := ⟨_, List.getElem?_eq_getElem hlt⟩
    have hm := List.mem_filter.mp (List.mem_of_getElem? hr)
    have hco := of_decide_eq_true hm.2
    exact hf row hm.1 hco.1 hco.2 (hli.seq_eq hr)
  refine ⟨?_, ?_⟩
  · intro teamId nodeId
    by_cases hst : (teamId, nodeId) = (inp.row.teamId, inp.row.originNodeId)
    · cases hst
      rw [stream_append_same]
      exact hli.concat hs hn.2
    · rw [stream_append_other hst]
      exact h.linear teamId nodeId
  · intro row hr
    rcases List.mem_append.mp hr with ho | hnew
    · exact h.seq_le row ho
    · rw [List.mem_singleton.mp hnew]
      exact Nat.min_le_right _ _

/-- **A write transaction keeps the streams linear.** -/
theorem LinearTables.write {ts : OriginTables} (h : LinearTables ts)
    (faults : EngineFaults) (inp : CreateMeshOriginEventInput) :
    LinearTables (writeBuilt faults ts inp).1 := by
  rw [writeBuilt_tables]
  rcases appendMeshOriginEvent_cases faults ts inp with ⟨e, he⟩ | ⟨hc, hf, ns, hok⟩
  · rw [he]
    exact h
  · rw [hok]
    exact h.concat hc hf

/-- A write transaction leaves the other streams alone. -/
theorem stream_writeBuilt_other (faults : EngineFaults) (ts : OriginTables)
    (inp : CreateMeshOriginEventInput) {teamId nodeId : String}
    (h : (teamId, nodeId) ≠ (inp.teamId, inp.originNodeId)) :
    (writeBuilt faults ts inp).1.stream teamId nodeId = ts.stream teamId nodeId := by
  rw [writeBuilt_tables]
  rcases appendMeshOriginEvent_cases faults ts inp with ⟨e, he⟩ | ⟨-, -, ns, hok⟩
  · rw [he]
  · rw [hok]
    exact stream_append_other h

/-! ## Interleaved writers -/

/-- An append between its tip read and its write. -/
structure PendingAppend (codec : Codec) where
  signer : OriginSigner
  request : OriginAppendRequest
  tip : Option (ℕ × String)
  input : CreateMeshOriginEventInput
  built : buildInput codec signer request tip = .ok input

/-- The tables and what every writer has under way. -/
structure Writers (codec : Codec) (W : Type) where
  tables : OriginTables
  pending : W → Option (PendingAppend codec)

/-- A step of one writer. -/
inductive WriterStep (W : Type) where
  /-- Start an append: read the tip, build and sign the event. -/
  | read (writer : W) (signer : OriginSigner) (request : OriginAppendRequest)
  /-- Finish it: the write transaction. -/
  | write (writer : W) (faults : EngineFaults)

/-- What `append_origin_event` returned, when the step ends a call. -/
abbrev AppendResult := Option (Except OriginStreamError AppendedOriginEvent)

namespace Writers

variable {codec : Codec} {W : Type} [DecidableEq W]

/-- No rows and nothing under way. -/
def start : Writers codec W := ⟨.empty, fun _ => none⟩

/-- The state after a step, and the result of the call that it ends. -/
def step (writers : Writers codec W) : WriterStep W → Writers codec W × AppendResult
  | .read writer signer request =>
    let tip := writers.tables.meshOriginTip request.teamId request.originNodeId
    match h : buildInput codec signer request tip with
    | .error e => (⟨writers.tables, Function.update writers.pending writer none⟩, some (.error e))
    | .ok input =>
      (⟨writers.tables, Function.update writers.pending writer
        (some ⟨signer, request, tip, input, h⟩)⟩, none)
  | .write writer faults =>
    match writers.pending writer with
    | none => (writers, none)
    | some pending =>
      let (tables, result) := writeBuilt faults writers.tables pending.input
      (⟨tables, Function.update writers.pending writer none⟩, some result)

/-- The state after a run. -/
def run (writers : Writers codec W) (steps : List (WriterStep W)) : Writers codec W :=
  steps.foldl (fun writers s => (writers.step s).1) writers

/-- What holds at every moment of a run. -/
structure Inv (writers : Writers codec W) : Prop where
  tables : LinearTables writers.tables
  tip_le : ∀ writer pending, writers.pending writer = some pending →
    ∀ tip ∈ pending.tip, tip.1 ≤ i64Max

theorem step_read_tables (ws : Writers codec W) (w : W) (s : OriginSigner)
    (r : OriginAppendRequest) :
    (ws.step (.read w s r)).1.tables = ws.tables := by
  unfold step
  simp only
  split <;> rfl

theorem step_write_eq {ws : Writers codec W} {w : W} {pending : PendingAppend codec}
    (h : ws.pending w = some pending) (faults : EngineFaults) :
    ws.step (.write w faults) = (⟨(writeBuilt faults ws.tables pending.input).1,
        Function.update ws.pending w none⟩,
        some (writeBuilt faults ws.tables pending.input).2) := by
  unfold step
  simp only [h]

/-- Numbers in a tip come from the column. -/
theorem tip_le_of_linearTables {ts : OriginTables} (h : LinearTables ts) {teamId nodeId : String} :
    ∀ tip ∈ ts.meshOriginTip teamId nodeId, tip.1 ≤ i64Max := by
  intro tip ht
  rw [h.tip_eq, Option.mem_def, Option.map_eq_some_iff] at ht
  obtain ⟨row, hr, rfl⟩ := ht
  exact h.seq_le row (List.mem_filter.mp (List.mem_of_getLast? hr)).1

/-- Every step keeps the invariant. -/
theorem Inv.step {writers : Writers codec W} (h : writers.Inv) (s : WriterStep W) :
    (writers.step s).1.Inv := by
  cases s with
  | read writer signer request =>
    refine ⟨by rw [step_read_tables]; exact h.tables, ?_⟩
    intro other pending hpending
    unfold Writers.step at hpending
    simp only at hpending
    split at hpending
    all_goals
      simp only at hpending
      by_cases hsame : other = writer
      · subst hsame
        rw [Function.update_self] at hpending
        cases hpending
        try exact tip_le_of_linearTables h.tables
      · rw [Function.update_of_ne hsame] at hpending
        exact h.tip_le other pending hpending
  | write writer faults =>
    cases hpending : writers.pending writer with
    | none =>
      have hsame : writers.step (.write writer faults) = (writers, none) := by
        unfold Writers.step
        simp only [hpending]
      rw [hsame]
      exact h
    | some pending =>
      rw [step_write_eq hpending]
      refine ⟨h.tables.write faults pending.input, ?_⟩
      intro other pending' hother
      simp only at hother
      by_cases hsame : other = writer
      · subst hsame
        rw [Function.update_self] at hother
        cases hother
      · rw [Function.update_of_ne hsame] at hother
        exact h.tip_le other pending' hother

/-- **A run keeps the invariant of the writers**. -/
theorem Inv.run {ws : Writers codec W} (h : ws.Inv) (steps : List (WriterStep W)) :
    (ws.run steps).Inv := by
  induction steps generalizing ws with
  | nil => exact h
  | cons s steps ih => exact ih (h.step s)

omit [DecidableEq W] in
/-- The invariant holds before the first step. -/
theorem inv_start : (start : Writers codec W).Inv :=
  ⟨linearTables_empty, by simp [start]⟩

end Writers

/-! ## Stale tips -/

/-- A built event has the number and hash that its tip asks for, in its own stream. -/
theorem buildInput_ok {codec : Codec} {s : OriginSigner} {r : OriginAppendRequest}
    {tip : Option (ℕ × String)} {inp : CreateMeshOriginEventInput}
    (h : buildInput codec s r tip = .ok inp) :
    inp.teamId = r.teamId ∧ inp.originNodeId = r.originNodeId ∧
      (inp.seq, inp.prevEventHash) = nextAfter tip := by
  unfold buildInput at h
  simp only at h
  obtain ⟨_, -, h⟩ := Except.bind_eq_ok_iff.mp h
  obtain ⟨_, -, h⟩ := Except.bind_eq_ok_iff.mp h
  obtain ⟨_, -, h⟩ := Except.bind_eq_ok_iff.mp h
  obtain ⟨_, -, h⟩ := Except.bind_eq_ok_iff.mp h
  cases h
  exact ⟨rfl, rfl, rfl⟩

/-- The re-check fails whenever the tip is not the one the event was built on. -/
theorem chainOk_eq_false {tip t' : Option (ℕ × String)} {inp : CreateMeshOriginEventInput}
    (hi : (inp.seq, inp.prevEventHash) = nextAfter tip) (ht : ∀ t ∈ tip, t.1 ≤ i64Max)
    (ht' : ∀ t ∈ t', t.1 ≤ i64Max) (hst : t' ≠ tip) : chainOk t' inp = false := by
  obtain ⟨hse, hp⟩ := Prod.mk.inj hi
  unfold i64Max at ht ht'
  cases t' with
  | none =>
    cases tip with
    | none => exact absurd rfl hst
    | some tip => simp [chainOk, hp]
  | some t' =>
    cases tip with
    | none => simp [chainOk, hp]
    | some tip =>
      have hle := ht tip rfl
      have h' := ht' t' rfl
      by_contra hok
      rw [Bool.not_eq_false] at hok
      obtain ⟨hs, hpr⟩ := of_decide_eq_true hok
      simp only at hse hp
      have hn : t'.1 = tip.1 := by
        rw [hse] at hs
        unfold satAdd64 u64Max at hs
        omega
      have hh : t'.2 = tip.2 := by
        rw [hp] at hpr
        exact (Option.some.inj hpr).symm
      exact hst (congrArg some (Prod.ext hn hh))

namespace Writers

variable {codec : Codec} {W : Type} [DecidableEq W]

/-- **Origin streams stay linear under racing writers.** -/
theorem racing_writers_linear (codec : Codec) (W : Type) [DecidableEq W]
    (steps : List (WriterStep W)) :
    let writers := (start : Writers codec W).run steps
    (∀ teamId originNodeId, Linear (writers.tables.stream teamId originNodeId)) ∧
      (∀ writer pending faults, writers.pending writer = some pending →
        writers.tables.meshOriginTip pending.request.teamId pending.request.originNodeId
          ≠ pending.tip →
        (∃ e, (writers.step (.write writer faults)).2 = some (.error (.chainMismatch e))) ∧
          (writers.step (.write writer faults)).1.tables = writers.tables) ∧
      (∀ writer pending faults teamId originNodeId, writers.pending writer = some pending →
        (teamId, originNodeId) ≠ (pending.request.teamId, pending.request.originNodeId) →
        (writers.step (.write writer faults)).1.tables.stream teamId originNodeId
          = writers.tables.stream teamId originNodeId) ∧
      (∀ writer signer request,
        (writers.step (.read writer signer request)).1.tables = writers.tables) := by
  have hi : ((start : Writers codec W).run steps).Inv := inv_start.run steps
  refine ⟨hi.tables.linear, ?_, ?_, fun _ _ _ => step_read_tables _ _ _ _⟩
  · intro writer pending faults hp hs
    obtain ⟨ht, ho, hn⟩ := buildInput_ok pending.built
    rw [← ht, ← ho] at hs
    have hc := chainOk_eq_false hn (hi.tip_le writer pending hp)
      (tip_le_of_linearTables hi.tables) hs
    have hw := appendMeshOriginEvent_mismatch faults hc
    rw [step_write_eq hp]
    simp only [writeBuilt_tables]
    unfold writeBuilt
    rw [hw]
    exact ⟨⟨_, rfl⟩, rfl⟩
  · intro writer pending faults teamId originNodeId hp hot
    obtain ⟨ht, ho, -⟩ := buildInput_ok pending.built
    rw [step_write_eq hp]
    exact stream_writeBuilt_other _ _ _ (by rw [ht, ho]; exact hot)

/-- A request to append a manifest event. -/
def sampleRequest : OriginAppendRequest where
  teamId := "team_a1"
  originNodeId := "node_a1"
  payload := .manifest ⟨"create", "doc", none, .null⟩
  requiredFeatures := []
  producedAt := "2026-01-01T00:00:00Z"
  bodyNonce := none

/-- The hash of the event that the sample request appends to an empty stream. -/
def sampleEventHash : String :=
  "blake3:6fd4d4e3b3ac946ceffcbdc6ae8ac55b15b7a782932991e1a6b21beefe52cefe"

/-- Printing, parsing and hashing as far as two sample requests need them. -/
def sampleCodec : Codec where
  json :=
    { print := fun value => .ok value.compact
      parse := fun _ => .ok sampleRequest.payload.toValue.sorted }
  blake3Hex bytes :=
    if bytes.length = 340 then "6fd4d4e3b3ac946ceffcbdc6ae8ac55b15b7a782932991e1a6b21beefe52cefe"
    else if bytes.length = 409 then
      "d0227a899dacea48b1082a001207cba0c5ba1f122c8037899b803e2ef24d5a0e"
    else if bytes = RustText.asBytes sampleEventHash then
      "fa571a02f7e9cb579647ad191843b3cf645f0381b47c2ec2722136f00856f771"
    else "cd04370e996c7403119ef7498d7687b25d6f99087d8deca86e0f6df5a555d089"

/-- A signer of the first generation. -/
def sampleSigner : OriginSigner := ⟨1, fun domain _ => "ed25519:" ++ domain⟩

/-- Two writers read the same tip, and the first of them has written. -/
def sampleRace : List (WriterStep Bool) :=
  [.read true sampleSigner sampleRequest, .read false sampleSigner sampleRequest,
    .write true .none]

/-- The second of two racing writers is refused. -/
theorem racing_writers_linear_two :
    ∃ e, (((start : Writers sampleCodec Bool).run sampleRace).step (.write false .none)).2
      = some (.error (.chainMismatch e)) := by
  obtain ⟨-, hst, -⟩ := racing_writers_linear sampleCodec Bool sampleRace
  have hp : (((start : Writers sampleCodec Bool).run sampleRace).pending false).map
      PendingAppend.tip = some none := by decide +kernel
  obtain ⟨pending, hs, hti⟩ := Option.map_eq_some_iff.mp hp
  have ht : (((start : Writers sampleCodec Bool).run sampleRace).pending false).map
      (fun pending => (pending.request.teamId, pending.request.originNodeId))
      = some ("team_a1", "node_a1") := by decide +kernel
  rw [hs] at ht
  obtain ⟨hte, ho⟩ := Prod.mk.inj (Option.some.inj ht)
  refine (hst false pending .none hs ?_).1
  rw [hti, hte, ho]
  decide +kernel

end Writers

end OriginStream
