/-
# Daemon frames

A frame is a big-endian length of four bytes and a JSON body.  The reader collects both from a
transport that may deliver any number of bytes at a time and may interrupt its calls; the writer
encodes a response into a bounded buffer, which goes on counting after it has stopped storing, and
sends the length and the body piece by piece.

The checkpoint of a frame (its deadline and the caller's cancellation) is a function of how often
it was asked.  `serde_json` and the allocator are parameters.
-/
import EideticEngine.LittleEndian
import EideticEngine.MachineInt
import EideticEngine.ShortIo

namespace FrameIo

open ShortIo

/-! ## Errors -/

/-- `io::ErrorKind`, as far as frames use it. -/
inductive ErrorKind where
  | interrupted
  | timedOut
  | invalidData
  | writeZero
  | other
  deriving DecidableEq

/-- `io::Error`. -/
structure IoError where
  kind : ErrorKind
  message : String
  deriving DecidableEq

/-- `FrameReadError`, for a decoding error of the given type. -/
inductive FrameReadError (δ : Type) where
  | eof
  | tooLarge (announced max : ℕ)
  | truncated (expected got : ℕ)
  | io (error : IoError)
  | decode (error : δ)

/-- `FrameWriteError`, for an encoding error of the given type. -/
inductive FrameWriteError (δ : Type) where
  | tooLarge (actual max : ℕ)
  | io (error : IoError)
  | encode (error : δ)

/-- The error of an interrupted call. -/
def interruption : IoError := ⟨.interrupted, "operation interrupted"⟩

/-- `invalid_read_count`. -/
def invalidReadCount : IoError := ⟨.invalidData, "invalid daemon frame read count"⟩

/-- `DAEMON_REQUEST_MAX_BYTES`. -/
def daemonRequestMaxBytes : ℕ := 4 * 1024 * 1024

/-- `DAEMON_RESPONSE_MAX_BYTES`. -/
def daemonResponseMaxBytes : ℕ := 4 * 1024 * 1024

/-- `REQUEST_BODY_PREALLOC_CAP`. -/
def requestBodyPreallocCap : ℕ := 8 * 1024

/-- `REQUEST_BODY_READ_CHUNK`. -/
def requestBodyReadChunk : ℕ := 8 * 1024

/-! ## Retrying -/

/-- A transfer: how often the checkpoint was asked, and the transport. -/
structure Transfer where
  checks : ℕ
  transport : Transport

variable (checkpoint : ℕ → Option IoError)

/-- A call of the checkpoint. -/
def Transfer.check (w : Transfer) : Except IoError Unit × Transfer :=
  (match checkpoint w.checks with
    | some e => .error e
    | none => .ok (), { w with checks := w.checks + 1 })

/-- `retry_io`, with at most so many attempts. -/
def retryIo {α : Type} (operation : Transport → Except IoError α × Transport) :
    ℕ → Transfer → Option (Except IoError α × Transfer)
  | 0, _ => none
  | fuel + 1, w =>
    match w.check checkpoint with
    | (.error e, w) => some (.error e, w)
    | (.ok (), w) =>
      let (result, transport) := operation w.transport
      match Transfer.check checkpoint { w with transport } with
      | (.error e, w) => some (.error e, w)
      | (.ok (), w) =>
        match result with
        | .error e =>
          if e.kind = .interrupted then retryIo operation fuel w else some (.error e, w)
        | .ok a => some (.ok a, w)

/-! ## The reader -/

/-- The bytes that a read into a buffer of the given length takes from the stream. -/
def takeBytes (want atMost : ℕ) (stream : List UInt8) : List UInt8 × List UInt8 :=
  (stream.take (min want atMost), stream.drop (min want atMost))

/-- `Read::read` into a buffer of the given length. -/
def read (want : ℕ) : Transport → Except IoError (List UInt8) × Transport :=
  Transport.attempt interruption (takeBytes want)

/-- The two loops of `read_with_checkpoint`: read until the buffer has its length, at most a chunk
at a time. -/
def readFull {δ : Type} (length chunk : ℕ) (atEnd : ℕ → FrameReadError δ) :
    ℕ → List UInt8 → Transfer → Option (Except (FrameReadError δ) (List UInt8) × Transfer)
  | 0, _, _ => none
  | fuel + 1, buffer, w =>
    if buffer.length < length then
      let want := min (length - buffer.length) chunk
      match retryIo checkpoint (read want) (fuel + 1) w with
      | none => none
      | some (.error e, w) => some (.error (.io e), w)
      | some (.ok got, w) =>
        if got.length = 0 then some (.error (atEnd buffer.length), w)
        else if want < got.length then some (.error (.io invalidReadCount), w)
        else readFull length chunk atEnd fuel (buffer ++ got) w
    else some (.ok buffer, w)

/-- The error at the end of the stream inside the prefix. -/
def prefixEnd {δ : Type} (filled : ℕ) : FrameReadError δ :=
  if filled = 0 then .eof else .truncated 4 filled

/-- `u32::from_be_bytes`. -/
def fromBeBytes (bytes : List UInt8) : ℕ := leValue bytes.reverse

/-- `read_with_checkpoint`. -/
def readWithCheckpoint {ρ δ : Type} (decode : List UInt8 → Except δ ρ) (fuel : ℕ) (w : Transfer) :
    Option (Except (FrameReadError δ) ρ × Transfer) :=
  match readFull checkpoint 4 4 prefixEnd fuel [] w with
  | none => none
  | some (.error e, w) => some (.error e, w)
  | some (.ok bytes, w) =>
    let announced := fromBeBytes bytes
    if daemonRequestMaxBytes < announced then
      some (.error (.tooLarge announced daemonRequestMaxBytes), w)
    else
      match w.check checkpoint with
      | (.error e, w) => some (.error (.io e), w)
      | (.ok (), w) =>
        match readFull checkpoint announced requestBodyReadChunk (.truncated announced) fuel []
            w with
        | none => none
        | some (.error e, w) => some (.error e, w)
        | some (.ok buffer, w) =>
          match w.check checkpoint with
          | (.error e, w) => some (.error (.io e), w)
          | (.ok (), w) =>
            let request := decode buffer
            match w.check checkpoint with
            | (.error e, w) => some (.error (.io e), w)
            | (.ok (), w) =>
              match request with
              | .error e => some (.error (.decode e), w)
              | .ok request => some (.ok request, w)

/-! ## The writer -/

/-- `serde_json::to_writer`: the pieces that a value is written in and the error that may end it. -/
structure Serializer (ρ δ : Type) where
  pieces : ρ → List (List UInt8)
  failure : ρ → Option δ
  ofIo : IoError → δ

/-- `ResponseBuffer`, with the capacity of its vector and the calls of the checkpoint. -/
structure ResponseBuffer where
  bytes : List UInt8
  capacity : ℕ
  actual : ℕ
  limit : ℕ
  checks : ℕ
  failure : Option IoError

/-- `ResponseBuffer::new`. -/
def ResponseBuffer.new (limit checks : ℕ) : ResponseBuffer := ⟨[], 0, 0, limit, checks, none⟩

/-- The end of a write that was counted. -/
def ResponseBuffer.counted (chunk : List UInt8) (b : ResponseBuffer) :
    Except IoError ℕ × ResponseBuffer :=
  (match checkpoint b.checks with
    | some e => .error e
    | none => .ok chunk.length, { b with checks := b.checks + 1 })

/-- `try_reserve_exact` for a vector of the given length: the new capacity, if there is memory. -/
abbrev Reserve := ℕ → ℕ → Option ℕ

/-- The capacity for so many bytes: grown geometrically, up to the limit. -/
def ResponseBuffer.grow (reserve : Reserve) (b : ResponseBuffer) (next : ℕ) : Option ℕ :=
  if b.capacity < next then
    let capacity := min (max (max next (min (b.capacity * 2) u64Max))
      (min requestBodyPreallocCap b.limit)) b.limit
    reserve b.bytes.length (capacity - b.bytes.length)
  else some b.capacity

/-- The closure of `ResponseBuffer::write`. -/
def ResponseBuffer.store (reserve : Reserve) (chunk : List UInt8) (b : ResponseBuffer) :
    Except IoError ℕ × ResponseBuffer :=
  match checkpoint b.checks with
  | some e => (.error e, { b with checks := b.checks + 1 })
  | none =>
    let b := { b with checks := b.checks + 1 }
    let next := b.actual + chunk.length
    if u64Max < next then (.error ⟨.invalidData, "daemon response byte count overflow"⟩, b)
    else if next ≤ b.limit then
      match b.grow reserve next with
      | none => (.error ⟨.other, "unable to allocate bounded daemon response buffer"⟩, b)
      | some capacity =>
        ResponseBuffer.counted checkpoint chunk
          { b with bytes := b.bytes ++ chunk, capacity, actual := next }
    else
      -- the rejected beginning is dropped and the rest is only counted
      ResponseBuffer.counted checkpoint chunk { b with bytes := [], actual := next }

/-- `ResponseBuffer::write`. -/
def ResponseBuffer.write (reserve : Reserve) (chunk : List UInt8) (b : ResponseBuffer) :
    Except IoError ℕ × ResponseBuffer :=
  if b.failure.isSome then
    (.error ⟨.other, "daemon response encoding already failed"⟩, b)
  else
    match b.store checkpoint reserve chunk with
    | (.ok count, b) => (.ok count, b)
    | (.error e, b) =>
      (.error ⟨.other, "daemon response encoding interrupted"⟩, { b with failure := some e })

/-- The pieces written one by one with `write_all`, which makes no call for an empty piece; a write
takes its whole piece. -/
def writePieces (reserve : Reserve) :
    List (List UInt8) → ResponseBuffer → Except IoError Unit × ResponseBuffer
  | [], b => (.ok (), b)
  | piece :: pieces, b =>
    if piece = [] then writePieces reserve pieces b
    else
      match b.write checkpoint reserve piece with
      | (.error e, b) => (.error e, b)
      | (.ok _, b) => writePieces reserve pieces b

/-- `serde_json::to_writer`. -/
def toWriter {ρ δ : Type} (serializer : Serializer ρ δ) (reserve : Reserve) (response : ρ)
    (b : ResponseBuffer) : Except δ Unit × ResponseBuffer :=
  match writePieces checkpoint reserve (serializer.pieces response) b with
  | (.error e, b) => (.error (serializer.ofIo e), b)
  | (.ok (), b) =>
    match serializer.failure response with
    | some e => (.error e, b)
    | none => (.ok (), b)

/-- `encode_response`. -/
def encodeResponse {ρ δ : Type} (serializer : Serializer ρ δ) (reserve : Reserve) (response : ρ)
    (limit : ℕ) (w : Transfer) : Except (FrameWriteError δ) (List UInt8) × Transfer :=
  match w.check checkpoint with
  | (.error e, w) => (.error (.io e), w)
  | (.ok (), w) =>
    let (encoded, b) := toWriter checkpoint serializer reserve response
      (ResponseBuffer.new limit w.checks)
    match Transfer.check checkpoint { w with checks := b.checks } with
    | (.error e, w) => (.error (.io e), w)
    | (.ok (), w) =>
      match b.failure with
      | some e => (.error (.io e), w)
      | none =>
        match encoded with
        | .error e => (.error (.encode e), w)
        | .ok () =>
          if limit < b.actual then (.error (.tooLarge b.actual limit), w) else (.ok b.bytes, w)

/-- The bytes that a write of a piece adds, and their number. -/
def putBytes (chunk : List UInt8) (atMost : ℕ) (written : List UInt8) : ℕ × List UInt8 :=
  (min chunk.length atMost, written ++ chunk.take (min chunk.length atMost))

/-- `Write::write`. -/
def write (chunk : List UInt8) : Transport → Except IoError ℕ × Transport :=
  Transport.attempt interruption (putBytes chunk)

/-- `Write::flush`. -/
def flush : Transport → Except IoError Unit × Transport :=
  Transport.attempt interruption fun _ written => ((), written)

/-- `write_all_checked`. -/
def writeAllChecked : ℕ → List UInt8 → Transfer → Option (Except IoError Unit × Transfer)
  | 0, _, _ => none
  | fuel + 1, bytes, w =>
    if bytes = [] then some (.ok (), w)
    else
      let want := min bytes.length requestBodyReadChunk
      match retryIo checkpoint (write (bytes.take want)) (fuel + 1) w with
      | none => none
      | some (.error e, w) => some (.error e, w)
      | some (.ok count, w) =>
        if count = 0 then some (.error ⟨.writeZero, "failed to write whole buffer"⟩, w)
        else if want < count then
          some (.error ⟨.invalidData, "invalid daemon frame write count"⟩, w)
        else writeAllChecked fuel (bytes.drop count) w

/-- `u32::to_be_bytes`. -/
def toBeBytes (n : ℕ) : List UInt8 := (leBytes 4 n).reverse

/-- `write_with_checkpoint`. -/
def writeWithCheckpoint {ρ δ : Type} (serializer : Serializer ρ δ) (reserve : Reserve)
    (response : ρ) (fuel : ℕ) (w : Transfer) :
    Option (Except (FrameWriteError δ) Unit × Transfer) :=
  match encodeResponse checkpoint serializer reserve response daemonResponseMaxBytes w with
  | (.error e, w) => some (.error e, w)
  | (.ok body, w) =>
    if 2 ^ 32 ≤ body.length then
      some (.error (.tooLarge body.length daemonResponseMaxBytes), w)
    else
      match writeAllChecked checkpoint fuel (toBeBytes body.length) w with
      | none => none
      | some (.error e, w) => some (.error (.io e), w)
      | some (.ok (), w) =>
        match writeAllChecked checkpoint fuel body w with
        | none => none
        | some (.error e, w) => some (.error (.io e), w)
        | some (.ok (), w) =>
          match retryIo checkpoint flush fuel w with
          | none => none
          | some (.error e, w) => some (.error (.io e), w)
          | some (.ok (), w) => some (.ok (), w)

/-! ## Retries end with the operation carried out -/

section

variable {checkpoint : ℕ → Option IoError}

theorem Transfer.check_ok (hc : ∀ n, checkpoint n = none) (w : Transfer) :
    w.check checkpoint = (.ok (), { w with checks := w.checks + 1 }) := by
  unfold Transfer.check
  rw [hc]

variable {α : Type} {perform : ℕ → List UInt8 → α × List UInt8}

theorem interruption_kind : interruption.kind = .interrupted := rfl

/-- One attempt of `retry_io` at a transport. -/
theorem retryIo_succ (hc : ∀ n, checkpoint n = none) (f : ℕ) (w : Transfer) :
    retryIo checkpoint (Transport.attempt interruption perform) (f + 1) w
      = match w.transport.attempt interruption perform with
        | (.error e, t) =>
          if e.kind = .interrupted then
            retryIo checkpoint (Transport.attempt interruption perform) f ⟨w.checks + 2, t⟩
          else some (.error e, ⟨w.checks + 2, t⟩)
        | (.ok a, t) => some (.ok a, ⟨w.checks + 2, t⟩) := by
  rw [retryIo, Transfer.check_ok hc]
  dsimp only
  rcases w.transport.attempt interruption perform with ⟨e | a, t⟩
  · dsimp only
    rw [Transfer.check_ok hc]
  · dsimp only
    rw [Transfer.check_ok hc]

/-- **Whatever was interrupted before, the operation is carried out once**, for at least one
byte. -/
theorem retryIo_some (hc : ∀ n, checkpoint n = none) (f : ℕ) (w w' : Transfer)
    {r : Except IoError α}
    (h : retryIo checkpoint (Transport.attempt interruption perform) f w = some (r, w')) :
    ∃ n, 0 < n ∧ r = .ok (perform n w.transport.bytes).1
      ∧ w'.transport.bytes = (perform n w.transport.bytes).2
      ∧ w'.transport.schedule = w.transport.schedule := by
  induction f generalizing w with
  | zero => cases h
  | succ f ih =>
    rw [retryIo_succ hc] at h
    rcases w.transport.attempt_cases interruption perform with ⟨-, ha⟩ | ⟨n, hn, ha⟩
    · rw [ha] at h
      dsimp only at h
      rw [if_pos interruption_kind] at h
      have hr := ih _ h
      exact hr
    · rw [ha] at h
      cases h
      exact ⟨n, hn, rfl, rfl, rfl⟩

/-- On a fair schedule every operation is carried out after finitely many attempts. -/
theorem retryIo_ends (hc : ∀ n, checkpoint n = none) {w : Transfer}
    (hf : Fair w.transport.schedule) :
    ∃ bound outcome, ∀ f, bound ≤ f →
      retryIo checkpoint (Transport.attempt interruption perform) f w = some outcome := by
  obtain ⟨m, hm, mo, hr⟩ := hf w.transport.calls
  -- induction on the calls before the one that is carried out
  induction hd : m - w.transport.calls generalizing w with
  | zero =>
    have hca : w.transport.schedule w.transport.calls = .ready mo := by
      rw [← hr]
      congr 1
      omega
    refine ⟨1, (.ok (perform (mo + 1) w.transport.bytes).1, ⟨w.checks + 2, { w.transport with
      calls := w.transport.calls + 1, bytes := (perform (mo + 1) w.transport.bytes).2 }⟩), ?_⟩
    intro f hfu
    obtain ⟨f, rfl⟩ : ∃ k, f = k + 1 := ⟨f - 1, by omega⟩
    rw [retryIo_succ hc, Transport.attempt, hca]
  | succ d ih =>
    rcases w.transport.attempt_cases interruption perform with ⟨-, ha⟩ | ⟨n, -, ha⟩
    · obtain ⟨bound, outcome, he⟩ :=
        ih (w := ⟨w.checks + 2, { w.transport with calls := w.transport.calls + 1 }⟩) hf
          (show w.transport.calls + 1 ≤ m by omega) hr
          (show m - (w.transport.calls + 1) = d by omega)
      refine ⟨bound + 1, outcome, ?_⟩
      intro f hfu
      obtain ⟨f, rfl⟩ : ∃ k, f = k + 1 := ⟨f - 1, by omega⟩
      rw [retryIo_succ hc, ha]
      dsimp only
      rw [if_pos interruption_kind]
      exact he f (by omega)
    · refine ⟨1, (.ok (perform n w.transport.bytes).1, ⟨w.checks + 2, { w.transport with
        calls := w.transport.calls + 1, bytes := (perform n w.transport.bytes).2 }⟩), ?_⟩
      intro f hfu
      obtain ⟨f, rfl⟩ : ∃ k, f = k + 1 := ⟨f - 1, by omega⟩
      rw [retryIo_succ hc, ha]

/-- A read takes a beginning of the stream. -/
theorem retryRead_some (hc : ∀ n, checkpoint n = none) {wa f : ℕ} {w w' : Transfer}
    {r : Except IoError (List UInt8)} (h : retryIo checkpoint (read wa) f w = some (r, w')) :
    ∃ n, 0 < n ∧ r = .ok (w.transport.bytes.take (min wa n))
      ∧ w'.transport.bytes = w.transport.bytes.drop (min wa n)
      ∧ w'.transport.schedule = w.transport.schedule :=
  retryIo_some hc f w w' h

/-- A write adds a beginning of the piece. -/
theorem retryWrite_some (hc : ∀ n, checkpoint n = none) {chunk : List UInt8} {f : ℕ}
    {w w' : Transfer} {r : Except IoError ℕ}
    (h : retryIo checkpoint (write chunk) f w = some (r, w')) :
    ∃ n, 0 < n ∧ r = .ok (min chunk.length n)
      ∧ w'.transport.bytes = w.transport.bytes ++ chunk.take (min chunk.length n)
      ∧ w'.transport.schedule = w.transport.schedule :=
  retryIo_some hc f w w' h

/-! ## The reader -/

/-- What reading so many bytes gives: the bytes, or the number of those that were there. -/
def takeFull (length : ℕ) (buffer stream : List UInt8) : Except ℕ (List UInt8) × List UInt8 :=
  if length - buffer.length ≤ stream.length then
    (.ok (buffer ++ stream.take (length - buffer.length)), stream.drop (length - buffer.length))
  else (.error (buffer.length + stream.length), [])

theorem takeFull_step {length n : ℕ} {bu stream : List UInt8}
    (hn : n ≤ length - bu.length) (hs : n ≤ stream.length) :
    takeFull length (bu ++ stream.take n) (stream.drop n) = takeFull length bu stream := by
  have hl : (bu ++ stream.take n).length = bu.length + n := by
    rw [List.length_append, List.length_take, Nat.min_eq_left hs]
  unfold takeFull
  rw [hl, List.length_drop]
  by_cases he : length - bu.length ≤ stream.length
  · have hsu : length - bu.length = n + (length - (bu.length + n)) := by omega
    rw [if_pos he, if_pos (by omega), List.append_assoc, List.drop_drop]
    conv_rhs => rw [hsu, List.take_add]
  · rw [if_neg he, if_neg (by omega)]
    congr 2
    omega

section

variable {δ : Type} {length chunk : ℕ} {atEnd : ℕ → FrameReadError δ}

/-- **The loop reads what the stream has**, however it comes. -/
theorem readFull_some (hc : ∀ n, checkpoint n = none) (hch : 0 < chunk) (f : ℕ)
    (bu : List UInt8) (w : Transfer) {w' : Transfer}
    {r : Except (FrameReadError δ) (List UInt8)}
    (h : readFull checkpoint length chunk atEnd f bu w = some (r, w')) :
    r = (takeFull length bu w.transport.bytes).1.mapError atEnd
      ∧ w'.transport.bytes = (takeFull length bu w.transport.bytes).2
      ∧ w'.transport.schedule = w.transport.schedule := by
  induction f generalizing bu w with
  | zero => cases h
  | succ f ih =>
    rw [readFull] at h
    by_cases hm : bu.length < length
    · rw [if_pos hm] at h
      dsimp only at h
      set wa := min (length - bu.length) chunk with hwant
      cases hre : retryIo checkpoint (read wa) (f + 1) w with
      | none =>
        rw [hre] at h
        cases h
      | some outcome =>
        obtain ⟨re, w₁⟩ := outcome
        obtain ⟨n, hn, hresult, hb, hs⟩ := retryRead_some hc hre
        rw [hre, hresult] at h
        dsimp only at h
        have hg : (w.transport.bytes.take (min wa n)).length
            = min (min wa n) w.transport.bytes.length := List.length_take
        by_cases he : (w.transport.bytes.take (min wa n)).length = 0
        · -- the end of the stream
          have hni : w.transport.bytes = [] := List.length_eq_zero_iff.mp (by omega)
          rw [if_pos he] at h
          cases h
          rw [takeFull, hni, if_neg (by rw [List.length_nil]; omega)]
          rw [hni, List.drop_nil] at hb
          exact ⟨rfl, hb, hs⟩
        · rw [if_neg he, if_neg (by omega)] at h
          obtain ⟨hr, hres, hs'⟩ := ih _ _ h
          rw [hb] at hr hres
          -- what a call delivers is a beginning of the stream
          have hsp : takeFull length (bu ++ w.transport.bytes.take (min wa n))
              (w.transport.bytes.drop (min wa n)) = takeFull length bu w.transport.bytes := by
            by_cases hle : min wa n ≤ w.transport.bytes.length
            · exact takeFull_step (by omega) hle
            · rw [List.take_of_length_le (by omega), List.drop_eq_nil_of_le (by omega)]
              have hst : takeFull length (bu ++ w.transport.bytes.take w.transport.bytes.length)
                  (w.transport.bytes.drop w.transport.bytes.length)
                    = takeFull length bu w.transport.bytes := takeFull_step (by omega) le_rfl
              rwa [List.take_length, List.drop_length] at hst
          rw [hsp] at hr hres
          exact ⟨hr, hres, hs'.trans hs⟩
    · rw [if_neg hm] at h
      cases h
      have hz : length - bu.length = 0 := by omega
      rw [takeFull, hz, if_pos (Nat.zero_le _), List.take_zero, List.append_nil, List.drop_zero]
      exact ⟨rfl, rfl, rfl⟩

/-- On a fair schedule the loop ends. -/
theorem readFull_ends (length : ℕ) {chunk : ℕ} (atEnd : ℕ → FrameReadError δ)
    (hc : ∀ n, checkpoint n = none) (hch : 0 < chunk) (bu : List UInt8) (w : Transfer)
    (hf : Fair w.transport.schedule) :
    ∃ bound outcome, ∀ f, bound ≤ f →
      readFull checkpoint length chunk atEnd f bu w = some outcome := by
  induction hne : length - bu.length using Nat.strong_induction_on generalizing bu w with
  | _ ne ih =>
    by_cases hm : bu.length < length
    · set wa := min (length - bu.length) chunk with hwant
      obtain ⟨bound, ⟨r, w₁⟩, hr⟩ : ∃ bound outcome, ∀ f, bound ≤ f →
          retryIo checkpoint (read wa) f w = some outcome := retryIo_ends hc hf
      obtain ⟨n, hn, hre, hb, hs⟩ := retryRead_some hc (hr bound le_rfl)
      set got := w.transport.bytes.take (min wa n) with hgot
      by_cases he : got.length = 0
      · refine ⟨bound + 1, (.error (atEnd bu.length), w₁), ?_⟩
        intro f hfu
        obtain ⟨f, rfl⟩ : ∃ k, f = k + 1 := ⟨f - 1, by omega⟩
        rw [readFull, if_pos hm]
        dsimp only
        rw [← hwant, hr _ (by omega), hre]
        dsimp only
        rw [if_pos he]
      · have hl : got.length ≤ wa := by
          rw [hgot, List.length_take]
          omega
        obtain ⟨b', outcome, hen⟩ := ih (length - (bu ++ got).length)
          (by rw [List.length_append]; omega) (bu ++ got) w₁ (by rw [hs]; exact hf) rfl
        refine ⟨max bound b' + 1, outcome, ?_⟩
        intro f hfu
        obtain ⟨f, rfl⟩ : ∃ k, f = k + 1 := ⟨f - 1, by omega⟩
        rw [readFull, if_pos hm]
        dsimp only
        rw [← hwant, hr _ (by omega), hre]
        dsimp only
        rw [if_neg he, if_neg (by omega)]
        exact hen f (by omega)
    · refine ⟨1, (.ok bu, w), ?_⟩
      intro f hfu
      obtain ⟨f, rfl⟩ : ∃ k, f = k + 1 := ⟨f - 1, by omega⟩
      rw [readFull, if_neg hm]

end

/-- What the stream alone says about the frame at its beginning, and what is left behind it. -/
def frameAt {ρ δ : Type} (decode : List UInt8 → Except δ ρ) (stream : List UInt8) :
    Except (FrameReadError δ) ρ × List UInt8 :=
  if stream.length < 4 then (.error (prefixEnd stream.length), [])
  else
    let announced := fromBeBytes (stream.take 4)
    let body := stream.drop 4
    if daemonRequestMaxBytes < announced then
      (.error (.tooLarge announced daemonRequestMaxBytes), body)
    else if body.length < announced then (.error (.truncated announced body.length), [])
    else ((decode (body.take announced)).mapError .decode, body.drop announced)

/-- Reading from an empty buffer. -/
theorem takeFull_nil (length : ℕ) (stream : List UInt8) :
    takeFull length [] stream
      = if stream.length < length then (.error stream.length, [])
        else (.ok (stream.take length), stream.drop length) := by
  unfold takeFull
  rw [List.length_nil, Nat.sub_zero, List.nil_append, Nat.zero_add]
  by_cases hlt : stream.length < length
  · rw [if_pos hlt, if_neg (by omega)]
  · rw [if_neg hlt, if_pos (by omega)]

variable {ρ δ : Type} {decode : List UInt8 → Except δ ρ}

/-- **The reader returns what the stream says**, for every schedule on which it returns. -/
theorem readWithCheckpoint_some (hc : ∀ n, checkpoint n = none) {f : ℕ} {w w' : Transfer}
    {r : Except (FrameReadError δ) ρ}
    (h : readWithCheckpoint checkpoint decode f w = some (r, w')) :
    (r, w'.transport.bytes) = frameAt decode w.transport.bytes := by
  unfold readWithCheckpoint at h
  unfold frameAt
  rcases hh : readFull checkpoint 4 4 (prefixEnd (δ := δ)) f [] w with _ | ⟨re, w₁⟩
  · rw [hh] at h
    cases h
  · obtain ⟨hr, hb, -⟩ := readFull_some hc (by decide) _ _ _ hh
    rw [hh] at h
    rw [takeFull_nil] at hr hb
    by_cases hs : w.transport.bytes.length < 4
    · rw [if_pos hs] at hr hb
      subst hr
      cases h
      rw [if_pos hs, hb]
    · rw [if_neg hs] at hr hb
      subst hr
      rw [if_neg hs]
      simp only [Except.mapError, Transfer.check_ok hc] at h
      dsimp only at hb ⊢
      by_cases hl : daemonRequestMaxBytes < fromBeBytes (w.transport.bytes.take 4)
      · rw [if_pos hl] at h ⊢
        cases h
        rw [hb]
      · rw [if_neg hl] at h ⊢
        rcases hbo : readFull checkpoint (fromBeBytes (w.transport.bytes.take 4))
          requestBodyReadChunk (FrameReadError.truncated (δ := δ)
            (fromBeBytes (w.transport.bytes.take 4))) f [] { w₁ with checks := w₁.checks + 1 }
          with _ | ⟨re, w₂⟩
        · rw [hbo] at h
          cases h
        · obtain ⟨hr, hre, -⟩ := readFull_some hc (by decide) _ _ _ hbo
          rw [hbo] at h
          dsimp only at hr hre
          rw [hb, takeFull_nil] at hr hre
          by_cases ht : (w.transport.bytes.drop 4).length < fromBeBytes (w.transport.bytes.take 4)
          · rw [if_pos ht] at hr hre ⊢
            subst hr
            cases h
            rw [hre]
          · rw [if_neg ht] at hr hre ⊢
            subst hr
            dsimp only at h
            cases hd : decode ((w.transport.bytes.drop 4).take
              (fromBeBytes (w.transport.bytes.take 4))) with
            | error e =>
              simp only [Except.mapError, hd] at h ⊢
              cases h
              rw [hre]
            | ok req =>
              simp only [Except.mapError, hd] at h ⊢
              cases h
              rw [hre]

/-- On a fair schedule the reader returns. -/
theorem readWithCheckpoint_isSome (hc : ∀ n, checkpoint n = none) {w : Transfer}
    (hfa : Fair w.transport.schedule) :
    ∃ bound, ∀ f, bound ≤ f → (readWithCheckpoint checkpoint decode f w).isSome = true := by
  obtain ⟨bound, ⟨r, w₁⟩, hh⟩ := readFull_ends 4 (prefixEnd (δ := δ)) hc
    (show 0 < 4 by decide) [] w hfa
  obtain ⟨-, -, hs⟩ := readFull_some hc (by decide) _ _ _ (hh bound le_rfl)
  cases r with
  | error e =>
    refine ⟨bound, ?_⟩
    intro f hf
    unfold readWithCheckpoint
    rw [hh f hf]
    rfl
  | ok bytes =>
    by_cases hl : daemonRequestMaxBytes < fromBeBytes bytes
    · refine ⟨bound, ?_⟩
      intro f hf
      unfold readWithCheckpoint
      rw [hh f hf]
      dsimp only
      rw [if_pos hl]
      rfl
    · obtain ⟨b', ⟨r, w₂⟩, hb⟩ := readFull_ends (fromBeBytes bytes)
        (FrameReadError.truncated (δ := δ) (fromBeBytes bytes)) hc
        (show 0 < requestBodyReadChunk by decide) [] { w₁ with checks := w₁.checks + 1 }
        (by rw [hs]; exact hfa)
      refine ⟨max bound b', ?_⟩
      intro f hf
      unfold readWithCheckpoint
      rw [hh f (by omega)]
      dsimp only
      rw [if_neg hl, Transfer.check_ok hc]
      dsimp only
      rw [hb f (by omega)]
      cases r with
      | error e => rfl
      | ok bu =>
        simp only [Transfer.check_ok hc]
        cases decode bu with
        | error e => rfl
        | ok re => rfl

/-! ## The buffer of a response -/

/-- The allocator grants what is asked for. -/
def Grants (reserve : Reserve) : Prop :=
  ∀ length additional, ∃ capacity, reserve length additional = some capacity

/-- The buffer after so much was written: everything up to the limit, and nothing beyond it. -/
structure Buffered (limit : ℕ) (written : List UInt8) (b : ResponseBuffer) : Prop where
  limit_eq : b.limit = limit
  actual : b.actual = written.length
  bytes : b.bytes = if written.length ≤ limit then written else []
  failure : b.failure = none

variable {reserve : Reserve} {limit : ℕ} {written : List UInt8} {b : ResponseBuffer}

/-- **A write goes on counting** when it has stopped storing. -/
theorem Buffered.write (h : Buffered limit written b) (hch : ∀ n, checkpoint n = none)
    (hr : Grants reserve) {p : List UInt8}
    (hs : (written ++ p).length ≤ u64Max) :
    ∃ b', b.write checkpoint reserve p = (.ok p.length, b') ∧ Buffered limit (written ++ p) b' := by
  obtain ⟨bytes, c, a, l', cs, f⟩ := b
  obtain ⟨hli, ha, hb, hfa⟩ := h
  dsimp only at hli ha hb hfa
  subst hli ha hfa
  have hl : (written ++ p).length = written.length + p.length := List.length_append
  rw [hl] at hs
  unfold ResponseBuffer.write ResponseBuffer.store ResponseBuffer.counted
  simp only [hch]
  rw [if_neg (by decide), if_neg (Nat.not_lt.mpr hs)]
  by_cases hf : written.length + p.length ≤ l'
  · have hg : ∃ c', ResponseBuffer.grow reserve ⟨bytes, c, written.length, l', cs + 1, none⟩
          (written.length + p.length) = some c' := by
      unfold ResponseBuffer.grow
      split
      · exact hr _ _
      · exact ⟨_, rfl⟩
    obtain ⟨c', hc⟩ := hg
    rw [if_pos hf, hc]
    refine ⟨_, rfl, rfl, hl.symm, ?_, rfl⟩
    rw [hl, if_pos hf, hb, if_pos (by omega)]
  · rw [if_neg hf]
    refine ⟨_, rfl, rfl, hl.symm, ?_, rfl⟩
    rw [hl, if_neg hf]

/-- The pieces are written one after another. -/
theorem Buffered.writePieces (hc : ∀ n, checkpoint n = none) (hr : Grants reserve)
    (ps : List (List UInt8)) (h : Buffered limit written b)
    (hs : (written ++ ps.flatten).length ≤ u64Max) :
    ∃ b', FrameIo.writePieces checkpoint reserve ps b = (.ok (), b')
      ∧ Buffered limit (written ++ ps.flatten) b' := by
  induction ps generalizing written b with
  | nil =>
    refine ⟨b, rfl, ?_⟩
    rw [List.flatten_nil, List.append_nil]
    exact h
  | cons p ps ih =>
    rw [List.flatten_cons, ← List.append_assoc] at hs ⊢
    rw [FrameIo.writePieces]
    by_cases hn : p = []
    · subst hn
      rw [List.append_nil] at hs ⊢
      rw [if_pos rfl]
      exact ih h hs
    · have hp : (written ++ p).length ≤ u64Max :=
        (List.sublist_append_left _ ps.flatten).length_le.trans hs
      obtain ⟨b', hw, hb⟩ := h.write hc hr hp
      rw [if_neg hn, hw]
      exact ih hb hs

/-- What the value alone says about its frame. -/
def encodedBody {ρ δ : Type} (serializer : Serializer ρ δ) (limit : ℕ) (response : ρ) :
    Except (FrameWriteError δ) (List UInt8) :=
  match serializer.failure response with
  | some e => .error (.encode e)
  | none =>
    let body := (serializer.pieces response).flatten
    if limit < body.length then .error (.tooLarge body.length limit) else .ok body

/-- **Encoding gives the whole body or the exact size of what is too large.** -/
theorem encodeResponse_eq (hcheck : ∀ n, checkpoint n = none) (hreserve : Grants reserve)
    (serializer : Serializer ρ δ) (response : ρ)
    (hsize : (serializer.pieces response).flatten.length ≤ u64Max) (limit : ℕ) (w : Transfer) :
    ∃ checks, encodeResponse checkpoint serializer reserve response limit w
      = (encodedBody serializer limit response, { w with checks }) := by
  have hnew : Buffered limit [] (ResponseBuffer.new limit (w.checks + 1)) := by
    refine ⟨rfl, rfl, ?_, rfl⟩
    rw [List.length_nil, if_pos (Nat.zero_le _)]
    rfl
  obtain ⟨b, hpieces, hbuffered⟩ :=
    hnew.writePieces hcheck hreserve (serializer.pieces response) hsize
  rw [List.nil_append] at hbuffered
  refine ⟨b.checks + 1, ?_⟩
  unfold encodeResponse encodedBody toWriter
  simp only [Transfer.check_ok hcheck, hpieces]
  cases hfailure : serializer.failure response with
  | some e =>
    dsimp only
    rw [hbuffered.failure]
  | none =>
    dsimp only
    rw [hbuffered.failure, hbuffered.actual]
    dsimp only
    by_cases hlarge : limit < (serializer.pieces response).flatten.length
    · rw [if_pos hlarge, if_pos hlarge]
    · rw [if_neg hlarge, if_neg hlarge, hbuffered.bytes, if_pos (Nat.le_of_not_lt hlarge)]

/-- Encoding does not touch the transport. -/
theorem encodeResponse_transport (checkpoint : ℕ → Option IoError) (s : Serializer ρ δ)
    (reserve : Reserve) (r : ρ) (limit : ℕ) (w : Transfer) :
    (encodeResponse checkpoint s reserve r limit w).2.transport = w.transport := by
  unfold encodeResponse Transfer.check
  dsimp only
  cases checkpoint w.checks with
  | some e => rfl
  | none =>
    dsimp only
    cases checkpoint (toWriter checkpoint s reserve r
      (ResponseBuffer.new limit (w.checks + 1))).2.checks with
    | some e => rfl
    | none =>
      dsimp only
      split
      · rfl
      · split
        · rfl
        · split
          · rfl
          · rfl

/-! ## The writer -/

/-- **The loop writes all bytes**, however they are split. -/
theorem writeAllChecked_some (hc : ∀ n, checkpoint n = none) (f : ℕ) (bytes : List UInt8)
    (w : Transfer) {w' : Transfer} {r : Except IoError Unit}
    (h : writeAllChecked checkpoint f bytes w = some (r, w')) :
    r = .ok () ∧ w'.transport.bytes = w.transport.bytes ++ bytes
      ∧ w'.transport.schedule = w.transport.schedule := by
  induction f generalizing bytes w with
  | zero => cases h
  | succ f ih =>
    rw [writeAllChecked] at h
    by_cases hni : bytes = []
    · subst hni
      rw [if_pos rfl] at h
      cases h
      rw [List.append_nil]
      exact ⟨rfl, rfl, rfl⟩
    · have hp := List.length_pos_iff.mpr hni
      rw [if_neg hni] at h
      dsimp only at h
      have hch : 0 < requestBodyReadChunk := by decide
      set wa := min bytes.length requestBodyReadChunk with hwant
      cases hre : retryIo checkpoint (write (bytes.take wa)) (f + 1) w with
      | none =>
        rw [hre] at h
        cases h
      | some outcome =>
        obtain ⟨re, w₁⟩ := outcome
        obtain ⟨n, hn, hres, hb, hs⟩ := retryWrite_some hc hre
        rw [List.length_take, Nat.min_eq_left (by omega : wa ≤ bytes.length)] at hres hb
        rw [hre, hres] at h
        dsimp only at h
        rw [if_neg (by omega), if_neg (by omega)] at h
        obtain ⟨hr, hrest, hs'⟩ := ih _ _ h
        refine ⟨hr, ?_, hs'.trans hs⟩
        rw [hrest, hb, List.take_take, Nat.min_eq_left (by omega : min wa n ≤ wa),
          List.append_assoc, List.take_append_drop]

/-- On a fair schedule the loop ends. -/
theorem writeAllChecked_ends (hc : ∀ n, checkpoint n = none) (bytes : List UInt8)
    (w : Transfer) (hf : Fair w.transport.schedule) :
    ∃ bound outcome, ∀ f, bound ≤ f → writeAllChecked checkpoint f bytes w = some outcome := by
  induction hl : bytes.length using Nat.strong_induction_on generalizing bytes w with
  | _ len ih =>
    by_cases hni : bytes = []
    · refine ⟨1, (.ok (), w), ?_⟩
      intro f hfu
      obtain ⟨f, rfl⟩ : ∃ k, f = k + 1 := ⟨f - 1, by omega⟩
      rw [writeAllChecked, if_pos hni]
    · have hp := List.length_pos_iff.mpr hni
      have hch : 0 < requestBodyReadChunk := by decide
      set wa := min bytes.length requestBodyReadChunk with hwant
      obtain ⟨bound, ⟨r, w₁⟩, hre⟩ : ∃ bound outcome, ∀ f, bound ≤ f →
          retryIo checkpoint (write (bytes.take wa)) f w = some outcome :=
        retryIo_ends hc hf
      obtain ⟨n, hn, hr, -, hs⟩ := retryWrite_some hc (hre bound le_rfl)
      rw [List.length_take, Nat.min_eq_left (by omega : wa ≤ bytes.length)] at hr
      obtain ⟨b', outcome, he⟩ := ih (bytes.drop (min wa n)).length
        (by rw [List.length_drop]; omega) (bytes.drop (min wa n)) w₁
        (by rw [hs]; exact hf) rfl
      refine ⟨max bound b' + 1, outcome, ?_⟩
      intro f hfu
      obtain ⟨f, rfl⟩ : ∃ k, f = k + 1 := ⟨f - 1, by omega⟩
      rw [writeAllChecked, if_neg hni]
      dsimp only
      rw [← hwant, hre _ (by omega), hr]
      dsimp only
      rw [if_neg (by omega), if_neg (by omega)]
      exact he f (by omega)

/-- A body that was encoded is sent behind its length. -/
theorem writeWithCheckpoint_some (hc : ∀ n, checkpoint n = none) {s : Serializer ρ δ}
    {re : ρ} {f : ℕ} {w w₁ w' : Transfer} {r : Except (FrameWriteError δ) Unit}
    {en : Except (FrameWriteError δ) (List UInt8)}
    (he : encodeResponse checkpoint s reserve re daemonResponseMaxBytes w
      = (en, w₁)) (hs : ∀ bo, en = .ok bo → bo.length < 2 ^ 32)
    (h : writeWithCheckpoint checkpoint s reserve re f w = some (r, w')) :
    r = en.map (fun _ => ()) ∧ w'.transport.bytes = w.transport.bytes
        ++ (en.toOption.map fun bo => toBeBytes bo.length ++ bo).getD [] := by
  have ht := encodeResponse_transport checkpoint s reserve re daemonResponseMaxBytes w
  unfold writeWithCheckpoint at h
  rw [he] at h ht
  dsimp only at ht
  cases en with
  | error e =>
    cases h
    refine ⟨rfl, ?_⟩
    rw [ht]
    exact (List.append_nil _).symm
  | ok bo =>
    dsimp only at h
    rw [if_neg (Nat.not_le.mpr (hs bo rfl))] at h
    rcases hl : writeAllChecked checkpoint f (toBeBytes bo.length) w₁ with _ | ⟨r₂, w₂⟩
    · rw [hl] at h
      cases h
    · obtain ⟨rfl, hb₂, -⟩ := writeAllChecked_some hc _ _ _ hl
      rw [hl] at h
      dsimp only at h
      rcases hb : writeAllChecked checkpoint f bo w₂ with _ | ⟨r₃, w₃⟩
      · rw [hb] at h
        cases h
      · obtain ⟨rfl, hb₃, -⟩ := writeAllChecked_some hc _ _ _ hb
        rw [hb] at h
        dsimp only at h
        rcases hf : retryIo checkpoint flush f w₃ with _ | ⟨r₄, w₄⟩
        · rw [hf] at h
          cases h
        · obtain ⟨n, -, hr, hb₄, -⟩ := retryIo_some hc _ _ _ hf
          rw [hf, hr] at h
          cases h
          refine ⟨rfl, ?_⟩
          dsimp only at hb₄
          rw [hb₄, hb₃, hb₂, ht, List.append_assoc]
          rfl

/-- On a fair schedule the writer returns. -/
theorem writeWithCheckpoint_isSome (hc : ∀ n, checkpoint n = none)
    (s : Serializer ρ δ) (reserve : Reserve) (r : ρ) {w : Transfer}
    (hf : Fair w.transport.schedule) :
    ∃ bound, ∀ f, bound ≤ f → (writeWithCheckpoint checkpoint s reserve r f w).isSome = true := by
  have ht := encodeResponse_transport checkpoint s reserve r daemonResponseMaxBytes w
  rcases he : encodeResponse checkpoint s reserve r daemonResponseMaxBytes w
    with ⟨e | body, w₁⟩
  · refine ⟨0, ?_⟩
    intro f _
    unfold writeWithCheckpoint
    rw [he]
    rfl
  · rw [he] at ht
    dsimp only at ht
    by_cases hla : 2 ^ 32 ≤ body.length
    · refine ⟨0, ?_⟩
      intro f _
      unfold writeWithCheckpoint
      rw [he]
      dsimp only
      rw [if_pos hla]
      rfl
    · obtain ⟨b₁, ⟨r₂, w₂⟩, hl⟩ := writeAllChecked_ends hc (toBeBytes body.length) w₁
        (by rw [ht]; exact hf)
      obtain ⟨rfl, -, hs₂⟩ := writeAllChecked_some hc _ _ _ (hl b₁ le_rfl)
      obtain ⟨b₂, ⟨r₃, w₃⟩, hb⟩ := writeAllChecked_ends hc body w₂ (by rw [hs₂, ht]; exact hf)
      obtain ⟨rfl, -, hs₃⟩ := writeAllChecked_some hc _ _ _ (hb b₂ le_rfl)
      obtain ⟨b₃, ⟨r₄, w₄⟩, hfl⟩ : ∃ bound outcome, ∀ f, bound ≤ f →
          retryIo checkpoint flush f w₃ = some outcome :=
        retryIo_ends hc (by rw [hs₃, hs₂, ht]; exact hf)
      refine ⟨max b₁ (max b₂ b₃), ?_⟩
      intro f hfu
      unfold writeWithCheckpoint
      rw [he]
      dsimp only
      rw [if_neg hla, hl f (by omega)]
      dsimp only
      rw [hb f (by omega)]
      dsimp only
      rw [hfl f (by omega)]
      cases r₄ with
      | error e => rfl
      | ok u => rfl

end

/-- A body that is not too large has a length of four bytes. -/
theorem length_of_encodedBody {ρ δ : Type} {s : Serializer ρ δ} {r : ρ}
    {bo : List UInt8} (h : encodedBody s daemonResponseMaxBytes r = .ok bo) :
    bo.length < 2 ^ 32 := by
  unfold encodedBody at h
  split at h
  · cases h
  · dsimp only at h
    split at h
    · cases h
    · rename_i hl
      cases h
      have hm : daemonResponseMaxBytes < 2 ^ 32 := by decide
      omega

/-- **Frames do not depend on chunking.**  While the checkpoint succeeds, on every schedule of
short and interrupted calls the reader returns what the stream alone says, and leaves what lies
behind the frame; the writer sends the length and the body of the response, nothing if encoding
fails, and nothing but the exact size in its error if the body is too large.  On a fair schedule
both return. -/
theorem frames_independent_of_chunking {ρ δ : Type} (hcheck : ∀ n, checkpoint n = none)
    (schedule : ℕ → Step) (calls checks : ℕ) :
    (∀ (decode : List UInt8 → Except δ ρ) (stream : List UInt8),
      (∀ fuel r w', readWithCheckpoint checkpoint decode fuel ⟨checks, ⟨schedule, calls, stream⟩⟩
          = some (r, w') → (r, w'.transport.bytes) = frameAt decode stream)
      ∧ (Fair schedule → ∃ bound, ∀ fuel, bound ≤ fuel → (readWithCheckpoint checkpoint decode fuel
          ⟨checks, ⟨schedule, calls, stream⟩⟩).isSome = true))
    ∧ ∀ (serializer : Serializer ρ δ) (reserve : Reserve) (response : ρ) (written : List UInt8),
      (∀ fuel r w', writeWithCheckpoint checkpoint serializer reserve response fuel
          ⟨checks, ⟨schedule, calls, written⟩⟩ = some (r, w') →
        (∀ e, (encodeResponse checkpoint serializer reserve response daemonResponseMaxBytes
            ⟨checks, ⟨schedule, calls, written⟩⟩).1 = .error e →
          r = .error e ∧ w'.transport.bytes = written)
        ∧ (Grants reserve → (serializer.pieces response).flatten.length ≤ u64Max →
          r = (encodedBody serializer daemonResponseMaxBytes response).map (fun _ => ())
          ∧ w'.transport.bytes = written
            ++ ((encodedBody serializer daemonResponseMaxBytes response).toOption.map
              fun body => toBeBytes body.length ++ body).getD []))
      ∧ (Fair schedule → ∃ bound, ∀ fuel, bound ≤ fuel → (writeWithCheckpoint checkpoint serializer
          reserve response fuel ⟨checks, ⟨schedule, calls, written⟩⟩).isSome = true) := by
  refine ⟨?_, ?_⟩
  · intro decode stream
    refine ⟨?_, fun hf => readWithCheckpoint_isSome hcheck hf⟩
    intro fuel r w' h
    exact readWithCheckpoint_some hcheck h
  · intro serializer reserve response written
    refine ⟨?_, fun hf => writeWithCheckpoint_isSome hcheck serializer reserve response hf⟩
    intro fuel r w' h
    refine ⟨?_, ?_⟩
    · intro e he
      rcases hen : encodeResponse checkpoint serializer reserve response
        daemonResponseMaxBytes ⟨checks, ⟨schedule, calls, written⟩⟩ with ⟨encoded, w₁⟩
      rw [hen] at he
      dsimp only at he
      subst he
      obtain ⟨hr, hby⟩ := writeWithCheckpoint_some hcheck hen (fun body hb => by cases hb) h
      refine ⟨hr, hby.trans ?_⟩
      exact List.append_nil _
    · intro hre hs
      obtain ⟨cs', hen⟩ := encodeResponse_eq hcheck hre serializer response hs
        daemonResponseMaxBytes ⟨checks, ⟨schedule, calls, written⟩⟩
      exact writeWithCheckpoint_some hcheck hen (fun body hb => length_of_encodedBody hb) h

/-- Every other call is interrupted, and the others move at most two bytes. -/
def alternating (n : ℕ) : Step := if n % 2 = 0 then .interrupted else .ready 1

/-- A frame of two bytes with the beginning of another one behind it. -/
theorem frames_independent_of_chunking_alternating :
    (∀ fuel r w', readWithCheckpoint (fun _ => none) (Except.ok (ε := Unit)) fuel
        ⟨0, ⟨alternating, 0, [0, 0, 0, 2, 123, 125, 0]⟩⟩ = some (r, w') →
      (r, w'.transport.bytes) = (.ok [123, 125], [0]))
    ∧ (readWithCheckpoint (fun _ => none) (Except.ok (ε := Unit)) 8
        ⟨0, ⟨alternating, 0, [0, 0, 0, 2, 123, 125, 0]⟩⟩).isSome = true := by
  have hr := (frames_independent_of_chunking (fun _ => none) (δ := Unit) (fun _ => rfl)
    alternating 0 0).1 Except.ok [0, 0, 0, 2, 123, 125, 0]
  exact ⟨hr.1, by decide +kernel⟩

end FrameIo
