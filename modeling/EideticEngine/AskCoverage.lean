/-
# Segmentation loses nothing

What the ranges of `segment_spans` in `src/core/ask.rs` are: in order, without blanks at their
ends, and together every character that is not a blank.  A fenced block is one range, and no
range starts or ends inside an inline code span of its paragraph.

The blocks, paragraphs and code spans of a text are defined by its lines and its runs of
backticks, apart from the scanners that find them.
-/
import EideticEngine.AskSegments
import EideticEngine.ListRules
import EideticEngine.Utf8Blanks

namespace Ask

open RustText (asBytes isWhitespace trim)
open Utf8Slice
open Std (ExtTreeMap)

/-! ## Segments of a part of a text -/

/-- The ranges segment the part of a text between two boundaries: they are trimmed slices in
order that hold every character but blanks.  Each block of `fences` is one of them, up to blanks
at its ends, and none of them starts or ends inside a code span of `code`. -/
structure Segments (content : String) (start stop : ℕ) (fences code spans : List ByteRange) :
    Prop where
  le : start ≤ stop
  slices : ∀ range ∈ spans, ∃ t, slice content range.1 range.2 = some t ∧ t ≠ "" ∧ trim t = t
  within : ∀ range ∈ spans, start ≤ range.1 ∧ range.2 ≤ stop
  ordered : spans.Pairwise fun range later => range.2 ≤ later.1
  covered : ∀ k c, CharAt content k c → isWhitespace c = false → start ≤ k →
    k + c.utf8Size ≤ stop → ∃ range ∈ spans, range.1 ≤ k ∧ k + c.utf8Size ≤ range.2
  fenced : ∀ block ∈ fences, ∃ range ∈ spans,
    Blank content block.1 range.1 ∧ Blank content range.2 block.2
  code_within : ∀ span ∈ code, start ≤ span.1 ∧ span.2 ≤ stop
  uncut : ∀ span ∈ code, ∀ range ∈ spans,
    (range.1 ≤ span.1 ∨ span.2 ≤ range.1) ∧ (range.2 ≤ span.1 ∨ span.2 ≤ range.2)

variable {content : String} {spans : List ByteRange} {start stop : ℕ}

theorem Segments.fst_le_snd {fs code : List ByteRange}
    (h : Segments content start stop fs code spans) {range : ByteRange}
    (hr : range ∈ spans) : range.1 ≤ range.2 := by
  obtain ⟨t, ht, -⟩ := h.slices range hr
  have := (boundaries_of_slice ht).2.2
  omega

/-- Segments of two parts side by side. -/
theorem Segments.append {m : ℕ} {fs code spans fs' c' ss' : List ByteRange}
    (hm : isCharBoundary content m = true)
    (h : Segments content start m fs code spans)
    (h' : Segments content m stop fs' c' ss') :
    Segments content start stop (fs ++ fs') (code ++ c') (spans ++ ss') where
  le := h.le.trans h'.le
  slices := by
    intro range hr
    rcases List.mem_append.mp hr with ho | hn
    · exact h.slices range ho
    · exact h'.slices range hn
  within := by
    intro range hr
    rcases List.mem_append.mp hr with ho | hn
    · obtain ⟨hf, hl⟩ := h.within range ho
      exact ⟨hf, hl.trans h'.le⟩
    · obtain ⟨hf, hl⟩ := h'.within range hn
      exact ⟨h.le.trans hf, hl⟩
  ordered := by
    rw [List.pairwise_append]
    refine ⟨h.ordered, h'.ordered, ?_⟩
    intro range hr l hla
    exact (h.within range hr).2.trans (h'.within l hla).1
  covered := by
    intro k c hc hb hk he
    -- the boundary between the parts does not cut the character
    rcases Nat.lt_or_ge k m with hlt | hge
    · obtain ⟨range, hr, hin⟩ := h.covered k c hc hb hk (hc.le_boundary hm hlt)
      exact ⟨range, List.mem_append_left _ hr, hin⟩
    · obtain ⟨range, hr, hin⟩ := h'.covered k c hc hb hge he
      exact ⟨range, List.mem_append_right _ hr, hin⟩
  fenced := by
    intro b hbl
    rcases List.mem_append.mp hbl with ho | hn
    · obtain ⟨range, hr, hb⟩ := h.fenced b ho
      exact ⟨range, List.mem_append_left _ hr, hb⟩
    · obtain ⟨range, hr, hb⟩ := h'.fenced b hn
      exact ⟨range, List.mem_append_right _ hr, hb⟩
  code_within := by
    intro s hs
    rcases List.mem_append.mp hs with ho | hn
    · obtain ⟨hf, hl⟩ := h.code_within s ho
      exact ⟨hf, hl.trans h'.le⟩
    · obtain ⟨hf, hl⟩ := h'.code_within s hn
      exact ⟨h.le.trans hf, hl⟩
  uncut := by
    intro s hs range hr
    rcases List.mem_append.mp hs with hs | hs
    · rcases List.mem_append.mp hr with hr | hr
      · exact h.uncut s hs range hr
      · have hl := (h.code_within s hs).2
        have hf := (h'.within range hr).1
        have hle := h'.fst_le_snd hr
        exact ⟨Or.inr (by omega), Or.inr (by omega)⟩
    · rcases List.mem_append.mp hr with hr | hr
      · have hf := (h'.code_within s hs).1
        have hl := (h.within range hr).2
        have hle := h.fst_le_snd hr
        exact ⟨Or.inl (by omega), Or.inl (by omega)⟩
      · exact h'.uncut s hs range hr

/-- Blanks need no range. -/
theorem segments_blank (h : Blank content start stop) : Segments content start stop [] [] [] where
  le := h.le
  slices := by simp
  within := by simp
  ordered := List.Pairwise.nil
  covered := by
    intro k c hc hb hk he
    rw [h.charAt hc hk he] at hb
    cases hb
  fenced := by simp
  code_within := by simp
  uncut := by simp

/-! ## One range -/

/-- `push_span` takes the blanks off and keeps what is left. -/
theorem pushSpan_cases (spans : List ByteRange) (hle : start ≤ stop)
    (hs : isCharBoundary content start = true) (hst : isCharBoundary content stop = true) :
    (pushSpan spans content start stop = some spans ∧ Blank content start stop) ∨
      ∃ range t, pushSpan spans content start stop = some (spans ++ [range]) ∧
        Blank content start range.1 ∧ Blank content range.2 stop ∧
        slice content range.1 range.2 = some t ∧ t ≠ "" ∧ trim t = t := by
  obtain ⟨p, hp⟩ := exists_slice hle hs hst
  obtain ⟨first, l, hf, hl, hbe, ht, ha⟩ := trim_slice hp
  unfold pushSpan
  rw [hp, Option.bind_eq_bind, Option.bind_some]
  simp only
  by_cases hb : trim p = ""
  · rw [if_pos hb]
    exact Or.inl ⟨rfl, p, hp, blanks_of_trim_eq_empty hb⟩
  · rw [if_neg hb]
    have hpo : 0 < (trim p).utf8ByteSize := by
      rw [Nat.pos_iff_ne_zero]
      intro hz
      exact hb (String.utf8ByteSize_eq_zero_iff.mp hz)
    have he := isCharBoundary_le (boundaries_of_slice ht).2.1
    rw [RustText.length_asBytes] at he
    rw [← hf, ← hl, if_pos ⟨by omega, he⟩]
    exact Or.inr ⟨(first, l), trim p, rfl, hbe, ha, ht, hb, RustText.trim_trim p⟩

/-- Spans of a part of a text that start and end with a backtick. -/
def CodeIn (content : String) (start stop : ℕ) (code : List ByteRange) : Prop :=
  ∀ span ∈ code, start ≤ span.1 ∧ span.1 < span.2 ∧ span.2 ≤ stop ∧
    (asBytes content)[span.1]? = some backtick ∧ (asBytes content)[span.2 - 1]? = some backtick

theorem codeIn_nil (content : String) (start stop : ℕ) : CodeIn content start stop [] :=
  fun _ h => absurd h List.not_mem_nil

theorem CodeIn.mono {s' : ℕ} {code : List ByteRange} (h : CodeIn content start stop code)
    (hle : stop ≤ s') : CodeIn content start s' code := by
  intro s hs
  obtain ⟨hf, hlt, hl, hb⟩ := h s hs
  exact ⟨hf, hlt, hl.trans hle, hb⟩

/-- There is no backtick among blanks. -/
theorem not_backtick_of_blank {k : ℕ} (h : Blank content start stop) (hs : start ≤ k)
    (hst : k < stop) : (asBytes content)[k]? ≠ some backtick := by
  intro hb
  obtain ⟨c, hbl, hc⟩ := h.ascii hb (by decide) hs hst
  have hv : c.toNat = 0x60 := hc
  simp [isWhitespace, hv] at hbl

/-- **One range segments the part it was trimmed from.** -/
theorem pushSpan_segments (spans : List ByteRange) {code : List ByteRange} (hle : start ≤ stop)
    (hst : isCharBoundary content start = true) (hsto : isCharBoundary content stop = true)
    (hco : CodeIn content start stop code) :
    ∃ p, pushSpan spans content start stop = some (spans ++ p) ∧
      Segments content start stop [] code p := by
  rcases pushSpan_cases spans hle hst hsto with
    ⟨hp, hb⟩ | ⟨range, t, hp, hbe, ha, hsl, hne, ht⟩
  · refine ⟨[], by simpa using hp, { segments_blank hb with
      code_within := ?_
      uncut := by simp }⟩
    intro s hs
    obtain ⟨hf, -, hl, -⟩ := hco s hs
    exact ⟨hf, hl⟩
  · obtain ⟨hr, hra, -⟩ := boundaries_of_slice hsl
    refine ⟨[range], hp, ?_⟩
    constructor
    · exact hle
    · simpa using ⟨t, hsl, hne, ht⟩
    · simpa using ⟨hbe.le, ha.le⟩
    · exact List.pairwise_singleton _ _
    · intro k c hc hb hk he
      refine ⟨range, by simp, ?_, ?_⟩
      · by_contra hlt
        have hin := hc.le_boundary hr (by omega)
        rw [hbe.charAt hc hk hin] at hb
        cases hb
      · by_contra hgt
        have hou : range.2 ≤ k := by
          by_contra hlt
          exact hgt (hc.le_boundary hra (by omega))
        rw [ha.charAt hc hou he] at hb
        cases hb
    · simp
    · intro s hs
      obtain ⟨hf, -, hl, -⟩ := hco s hs
      exact ⟨hf, hl⟩
    · intro s hs r' hr'
      obtain rfl := List.mem_singleton.mp hr'
      obtain ⟨hf, hlt, hl, ho, hcl⟩ := hco s hs
      -- the backticks at the ends of the span are not trimmed away
      refine ⟨Or.inl ?_, Or.inr ?_⟩
      · by_contra hgt
        exact not_backtick_of_blank hbe hf (by omega) ho
      · by_contra hgt
        exact not_backtick_of_blank ha (by omega : r'.2 ≤ s.2 - 1) (by omega) hcl

/-! ## Inline code -/

/-- The runs of backticks from a position on. -/
def runsFrom (bytes : List UInt8) (stop i : ℕ) : List ByteRange :=
  backtickRuns bytes stop (stop - i) i

/-- More rounds find the same runs. -/
theorem backtickRuns_eq {bytes : List UInt8} (n : ℕ) :
    ∀ i, stop - i ≤ n → backtickRuns bytes stop n i = runsFrom bytes stop i := by
  have hs : ∀ m i, backtickRuns bytes stop (m + 1) i = if i < stop then
        if bytes[i]? = some backtick then
          (i, scanWhile (· = backtick) bytes stop i) ::
            backtickRuns bytes stop m (scanWhile (· = backtick) bytes stop i)
        else backtickRuns bytes stop m (i + 1)
      else [] := fun _ _ => rfl
  have hm : ∀ m i, stop - i ≤ m →
      backtickRuns bytes stop (m + 1) i = backtickRuns bytes stop m i := by
    intro m
    induction m with
    | zero =>
      intro i hi
      rw [hs, if_neg (by omega)]
      rfl
    | succ m ih =>
      intro i hi
      rw [hs (m + 1) i, hs m i]
      split
      · rename_i hlt
        split
        · rename_i hb
          have hr := (scanWhile_backtick hlt hb).1
          rw [ih _ (by omega)]
        · exact ih _ (by omega)
      · rfl
  intro i hi
  induction n with
  | zero =>
    obtain h0 : stop - i = 0 := by omega
    rw [runsFrom, h0]
  | succ n ih =>
    rcases Nat.lt_or_ge n (stop - i) with hlt | hge
    · obtain heq : stop - i = n + 1 := by omega
      rw [runsFrom, heq]
    · rw [hm n i hge, ih hge]

theorem runsFrom_backtick {bytes : List UInt8} {i : ℕ} (hi : i < stop)
    (hb : bytes[i]? = some backtick) :
    runsFrom bytes stop i = (i, scanWhile (· = backtick) bytes stop i) ::
      runsFrom bytes stop (scanWhile (· = backtick) bytes stop i) := by
  have hr := (scanWhile_backtick hi hb).1
  obtain ⟨n, hn⟩ : ∃ n, stop - i = n + 1 := ⟨stop - i - 1, by omega⟩
  rw [runsFrom, hn, backtickRuns, if_pos hi, if_pos hb]
  simp only
  rw [backtickRuns_eq n _ (by omega)]

theorem runsFrom_other {bytes : List UInt8} {i : ℕ} (hb : bytes[i]? ≠ some backtick) :
    runsFrom bytes stop i = runsFrom bytes stop (i + 1) := by
  rcases Nat.lt_or_ge i stop with hi | hge
  · obtain ⟨n, hn⟩ : ∃ n, stop - i = n + 1 := ⟨stop - i - 1, by omega⟩
    rw [runsFrom, hn, backtickRuns, if_pos hi, if_neg hb, backtickRuns_eq n _ (by omega)]
  · have h0 : stop - i = 0 := by omega
    have h1 : stop - (i + 1) = 0 := by omega
    rw [runsFrom, runsFrom, h0, h1, backtickRuns, backtickRuns]

theorem runsFrom_end {bytes : List UInt8} {i : ℕ} (hi : stop ≤ i) : runsFrom bytes stop i = [] := by
  have h0 : stop - i = 0 := by omega
  rw [runsFrom, h0, backtickRuns]

/-- Where a run stands, and that the scan goes on behind it. -/
theorem runsFrom_split {bytes : List UInt8} {run : ByteRange} {i : ℕ}
    (h : run ∈ runsFrom bytes stop i) :
    i ≤ run.1 ∧ run.1 < run.2 ∧ IsCodeEnd bytes stop run.2 ∧ bytes[run.1]? = some backtick ∧
      ∃ b, runsFrom bytes stop i = b ++ run :: runsFrom bytes stop run.2 ∧
        ∀ other ∈ b, other.1 < run.1 := by
  induction hn : stop - i using Nat.strong_induction_on generalizing i with
  | _ n ih =>
    rcases Nat.lt_or_ge i stop with hi | hge
    · by_cases hb : bytes[i]? = some backtick
      · obtain ⟨hlt, he⟩ := scanWhile_backtick hi hb
        rw [runsFrom_backtick hi hb] at h ⊢
        rcases List.mem_cons.mp h with rfl | hl
        · exact ⟨Nat.le_refl _, hlt, he, hb, [], rfl, by simp⟩
        · obtain ⟨hle, hru, hc, hop, b, hs, hbe⟩ := ih _ (by omega) hl rfl
          refine ⟨by omega, hru, hc, hop, _ :: b, by rw [hs]; rfl, ?_⟩
          intro other ho
          rcases List.mem_cons.mp ho with rfl | ho
          · exact lt_of_lt_of_le hlt hle
          · exact hbe other ho
      · rw [runsFrom_other hb] at h ⊢
        obtain ⟨hle, hr⟩ := ih _ (by omega) h rfl
        exact ⟨by omega, hr⟩
    · rw [runsFrom_end hge] at h
      cases h

/-- The end of the next run of a width. -/
def closerEnd (bytes : List UInt8) (stop width i : ℕ) : Option ℕ :=
  ((runsFrom bytes stop i).find? fun run => run.2 - run.1 = width).map (·.2)

theorem closerEnd_spec {bytes : List UInt8} {w i ce : ℕ} (h : closerEnd bytes stop w i = some ce) :
    ∃ run ∈ runsFrom bytes stop i, run.2 = ce := by
  obtain ⟨run, hf, rfl⟩ := Option.map_eq_some_iff.mp h
  exact ⟨run, List.mem_of_find?_eq_some hf, rfl⟩

theorem lt_of_closerEnd {bytes : List UInt8} {w i ce : ℕ}
    (h : closerEnd bytes stop w i = some ce) : i < ce := by
  obtain ⟨run, hr, rfl⟩ := closerEnd_spec h
  obtain ⟨hle, hlt, -⟩ := runsFrom_split hr
  omega

/-- The inline code spans of a paragraph from a position on.  A run of backticks opens a span
when it is not escaped and a later run of the paragraph has the same width; the next such run
closes it. -/
def inlineCodeFrom (bytes : List UInt8) (start stop i : ℕ) : List ByteRange :=
  if hi : i < stop then
    if hb : bytes[i]? = some backtick then
      let runEnd := scanWhile (· = backtick) bytes stop i
      match _hclose : if askByteIsEscaped bytes start i then none
        else closerEnd bytes stop (runEnd - i) runEnd with
      | some codeEnd => (i, codeEnd) :: inlineCodeFrom bytes start stop codeEnd
      | none => inlineCodeFrom bytes start stop runEnd
    else inlineCodeFrom bytes start stop (i + 1)
  else []
termination_by stop - i
decreasing_by
  · have hrun := (scanWhile_backtick hi hb).1
    split at _hclose
    · cases _hclose
    · have hlt := lt_of_closerEnd _hclose
      omega
  · have hrun := (scanWhile_backtick hi hb).1
    omega
  · omega

/-- The inline code spans of a paragraph. -/
def inlineCode (bytes : List UInt8) (start stop : ℕ) : List ByteRange :=
  inlineCodeFrom bytes start stop start

variable {bytes : List UInt8} {i : ℕ}

theorem inlineCodeFrom_end (hi : stop ≤ i) : inlineCodeFrom bytes start stop i = [] := by
  rw [inlineCodeFrom, dif_neg (by omega)]

theorem inlineCodeFrom_other (hb : bytes[i]? ≠ some backtick) :
    inlineCodeFrom bytes start stop i = inlineCodeFrom bytes start stop (i + 1) := by
  rcases Nat.lt_or_ge i stop with hi | hge
  · rw [inlineCodeFrom, dif_pos hi, dif_neg hb]
  · rw [inlineCodeFrom_end hge, inlineCodeFrom_end (by omega)]

theorem inlineCodeFrom_code {ce : ℕ} (hi : i < stop) (hb : bytes[i]? = some backtick)
    (he : askByteIsEscaped bytes start i = false)
    (hc : closerEnd bytes stop (scanWhile (· = backtick) bytes stop i - i)
      (scanWhile (· = backtick) bytes stop i) = some ce) :
    inlineCodeFrom bytes start stop i = (i, ce) :: inlineCodeFrom bytes start stop ce := by
  rw [inlineCodeFrom, dif_pos hi, dif_pos hb]
  simp only
  split
  · rename_i ce' hc'
    rw [he, if_neg Bool.false_ne_true, hc] at hc'
    rw [Option.some.inj hc']
  · rename_i hn
    rw [he, if_neg Bool.false_ne_true, hc] at hn
    cases hn

theorem inlineCodeFrom_skip (hi : i < stop) (hb : bytes[i]? = some backtick)
    (hc : (if askByteIsEscaped bytes start i then none
      else closerEnd bytes stop (scanWhile (· = backtick) bytes stop i - i)
        (scanWhile (· = backtick) bytes stop i)) = none) :
    inlineCodeFrom bytes start stop i
      = inlineCodeFrom bytes start stop (scanWhile (· = backtick) bytes stop i) := by
  rw [inlineCodeFrom, dif_pos hi, dif_pos hb]
  simp only
  split
  · rename_i ce hs
    rw [hc] at hs
    cases hs
  · rfl

/-! ### What the pairing finds -/

/-- The next end of a width is that of the first run of this width. -/
theorem pairRuns_next (r : List ByteRange) (w : ℕ) : (pairRuns r).1[w]?
      = (r.find? fun run => run.2 - run.1 = w).map (·.2) := by
  induction r with
  | nil => simp [pairRuns]
  | cons run r ih =>
    obtain ⟨rs, re⟩ := run
    rw [pairRuns_cons_next, ExtTreeMap.getElem?_insert_ite, List.find?_cons]
    by_cases hw : re - rs = w
    · simp [hw]
    · simp [hw, ih]

/-- Only the start of a run has a closer. -/
theorem pairRuns_closers_mem {r : List ByteRange} {rs ce : ℕ}
    (h : (pairRuns r).2[rs]? = some ce) : ∃ run ∈ r, run.1 = rs := by
  induction r with
  | nil => simp [pairRuns] at h
  | cons run r ih =>
    obtain ⟨first, l⟩ := run
    rw [pairRuns_cons_closers] at h
    by_cases hf : first = rs
    · exact ⟨(first, l), by simp, hf⟩
    · have ho : (pairRuns r).2[rs]? = some ce := by
        split at h
        · rw [ExtTreeMap.getElem?_insert_ite] at h
          simpa [hf] using h
        · exact h
      obtain ⟨run, hr, hs⟩ := ih ho
      exact ⟨run, List.mem_cons_of_mem _ hr, hs⟩

/-- The closer of a run is the next run of its width. -/
theorem pairRuns_closers {ea l : List ByteRange} {rs re : ℕ}
    (he : ∀ run ∈ ea, run.1 ≠ rs) (hl : ∀ run ∈ l, run.1 ≠ rs) :
    (pairRuns (ea ++ (rs, re) :: l)).2[rs]?
      = (l.find? fun run => run.2 - run.1 = re - rs).map (·.2) := by
  induction ea with
  | nil =>
    have hn : (pairRuns l).2[rs]? = none := by
      cases h : (pairRuns l).2[rs]? with
      | none => rfl
      | some ce =>
        obtain ⟨run, hr, hs⟩ := pairRuns_closers_mem h
        exact absurd hs (hl run hr)
    rw [List.nil_append, pairRuns_cons_closers, ← pairRuns_next]
    split
    · rename_i closerEnd hc
      rw [ExtTreeMap.getElem?_insert_ite, hc]
      simp
    · rename_i hc
      rw [hn, hc]
  | cons run ea ih =>
    obtain ⟨first, la⟩ := run
    have hne : first ≠ rs := he (first, la) (by simp)
    have hre := ih fun run hr => he run (List.mem_cons_of_mem _ hr)
    rw [List.cons_append, pairRuns_cons_closers]
    split
    · rw [ExtTreeMap.getElem?_insert_ite]
      simpa [hne] using hre
    · exact hre

/-- The runs of a paragraph behind a position are those that a scan from the position finds. -/
def AtRuns (bytes : List UInt8) (start stop i : ℕ) : Prop :=
  ∃ earlier, runsFrom bytes stop start = earlier ++ runsFrom bytes stop i ∧
    ∀ run ∈ earlier, run.1 < i

/-- The closers that `ask_inline_code_ends` finds. -/
theorem askInlineCodeEnds_eq (hr : AtRuns bytes start stop i) (hi : i < stop)
    (hb : bytes[i]? = some backtick) :
    (askInlineCodeEnds bytes start stop)[i]?
      = closerEnd bytes stop (scanWhile (· = backtick) bytes stop i - i)
        (scanWhile (· = backtick) bytes stop i) := by
  obtain ⟨ea, hs, he⟩ := hr
  have hru := (scanWhile_backtick hi hb).1
  rw [runsFrom_backtick hi hb] at hs
  unfold askInlineCodeEnds closerEnd
  change (pairRuns (runsFrom bytes stop start)).2[i]? = _
  rw [hs, pairRuns_closers]
  · intro run hm
    exact (he run hm).ne
  · intro run hm
    have := (runsFrom_split hm).1
    omega

theorem AtRuns.other (h : AtRuns bytes start stop i) (hb : bytes[i]? ≠ some backtick) :
    AtRuns bytes start stop (i + 1) := by
  obtain ⟨ea, hs, he⟩ := h
  rw [runsFrom_other hb] at hs
  exact ⟨ea, hs, fun run hr => Nat.lt_succ_of_lt (he run hr)⟩

/-- Behind a run, or behind a later one. -/
theorem AtRuns.behind (h : AtRuns bytes start stop i) {run : ByteRange}
    (hr : run ∈ runsFrom bytes stop i) : AtRuns bytes start stop run.2 := by
  obtain ⟨ea, hs, he⟩ := h
  obtain ⟨hle, hlt, -, -, b, hb, ho⟩ := runsFrom_split hr
  refine ⟨ea ++ (b ++ [run]), ?_, ?_⟩
  · rw [hs, hb]
    simp
  · intro other hot
    rcases List.mem_append.mp hot with hol | hn
    · have := he other hol
      omega
    · rcases List.mem_append.mp hn with hm | hl
      · have := ho other hm
        omega
      · rw [List.mem_singleton.mp hl]
        exact hlt

/-- Bytes that are no backticks change neither the runs nor the code. -/
theorem AtRuns.advance (h : AtRuns bytes start stop i) {d : ℕ}
    (hb : ∀ k < d, bytes[i + k]? ≠ some backtick) :
    AtRuns bytes start stop (i + d) ∧
      inlineCodeFrom bytes start stop i = inlineCodeFrom bytes start stop (i + d) := by
  induction d with
  | zero => exact ⟨h, rfl⟩
  | succ d ih =>
    obtain ⟨hr, hc⟩ := ih fun k hk => hb k (by omega)
    have hn := hb d (Nat.lt_succ_self d)
    exact ⟨hr.other hn, hc.trans (inlineCodeFrom_other hn)⟩

/-! ## Sentences -/

/-- The length of a character by its first byte is its length. -/
theorem charLenAt_eq {b : UInt8} {c : Char} (hc : CharAt content i c)
    (hb : (asBytes content)[i]? = some b) : charLenAt b = c.utf8Size := by
  have hf := hc.getElem? c.utf8Size_pos
  rw [Nat.add_zero, hb] at hf
  unfold charLenAt
  rcases first_byte_range hf.symm with
    ⟨hlt, hs⟩ | ⟨hge, hlt, hs⟩ | ⟨hge, hlt, hs⟩ | ⟨hge, hs⟩
  · rw [if_pos hlt, hs]
  · rw [if_neg (UInt8.not_lt.mpr hge), if_pos hlt, hs]
  · rw [if_neg (UInt8.not_lt.mpr (UInt8.le_trans (by decide : (0x80 : UInt8) ≤ 0xe0) hge)),
      if_neg (UInt8.not_lt.mpr hge), if_pos hlt, hs]
  · rw [if_neg (UInt8.not_lt.mpr (UInt8.le_trans (by decide : (0x80 : UInt8) ≤ 0xf0) hge)),
      if_neg (UInt8.not_lt.mpr (UInt8.le_trans (by decide : (0xe0 : UInt8) ≤ 0xf0) hge)),
      if_neg (UInt8.not_lt.mpr hge), hs]

/-- A character that is not a backtick is passed as a whole. -/
theorem charLenAt_advance {b : UInt8} (hi : i < stop) (hbo : isCharBoundary content i = true)
    (hs : isCharBoundary content stop = true) (hb : (asBytes content)[i]? = some b)
    (ht : b ≠ backtick) :
    isCharBoundary content (i + charLenAt b) = true ∧ i + charLenAt b ≤ stop ∧
      ∀ k < charLenAt b, (asBytes content)[i + k]? ≠ some backtick := by
  obtain ⟨c, hc⟩ := exists_charAt hbo (hi.trans_le (isCharBoundary_le hs))
  rw [charLenAt_eq hc hb]
  refine ⟨hc.isCharBoundary_end, hc.le_boundary hs hi, ?_⟩
  intro k hk hby
  cases k with
  | zero =>
    rw [Nat.add_zero, hb] at hby
    exact ht (Option.some.inj hby)
  | succ k =>
    rw [hc.getElem? hk] at hby
    exact not_ascii_of_continuation (Nat.succ_pos k) hby (by decide)

/-- What holds at the head of the loop over the sentences of a paragraph: the ranges so far
segment the paragraph up to the sentence, whose code spans so far are `pending`. -/
structure SentenceAt (content : String) (start stop : ℕ) (parts : List ByteRange)
    (spanStart i : ℕ) (done pending : List ByteRange) : Prop where
  sentence : isCharBoundary content spanStart = true
  boundary : isCharBoundary content i = true
  le : spanStart ≤ i
  le_stop : i ≤ stop
  segments : Segments content start spanStart [] done parts
  pending : CodeIn content spanStart i pending
  runs : AtRuns (asBytes content) start stop i

section SentenceSteps

variable {parts done pending : List ByteRange} {spanStart : ℕ}

/-- Passing text without backticks. -/
theorem SentenceAt.pass (h : SentenceAt content start stop parts spanStart i done pending) {d : ℕ}
    (hbo : isCharBoundary content (i + d) = true) (hle : i + d ≤ stop)
    (hb : ∀ k < d, (asBytes content)[i + k]? ≠ some backtick) :
    SentenceAt content start stop parts spanStart (i + d) done pending where
  sentence := h.sentence
  boundary := hbo
  le := h.le.trans (Nat.le_add_right _ _)
  le_stop := hle
  segments := h.segments
  pending := h.pending.mono (Nat.le_add_right _ _)
  runs := (h.runs.advance hb).1

/-- Passing a run of backticks that opens nothing. -/
theorem SentenceAt.run (h : SentenceAt content start stop parts spanStart i done pending)
    (hi : i < stop) (hb : (asBytes content)[i]? = some backtick) :
    SentenceAt content start stop parts spanStart
      (scanWhile (· = backtick) (asBytes content) stop i) done pending := by
  obtain ⟨hlt, he⟩ := scanWhile_backtick hi hb
  have hm : (i, scanWhile (· = backtick) (asBytes content) stop i)
      ∈ runsFrom (asBytes content) stop i := by
    rw [runsFrom_backtick hi hb]
    exact List.mem_cons_self
  exact ⟨h.sentence, he.isCharBoundary, h.le.trans hlt.le, he.1, h.segments,
    h.pending.mono hlt.le, h.runs.behind hm⟩

/-- Passing a code span. -/
theorem SentenceAt.code (h : SentenceAt content start stop parts spanStart i done pending)
    (hi : i < stop) (hb : (asBytes content)[i]? = some backtick) {w ce : ℕ}
    (hc : closerEnd (asBytes content) stop w
      (scanWhile (· = backtick) (asBytes content) stop i) = some ce) :
    i < ce ∧ SentenceAt content start stop parts spanStart ce done (pending ++ [(i, ce)]) := by
  have hr := h.run hi hb
  have hlt := (scanWhile_backtick hi hb).1
  obtain ⟨run, hm, rfl⟩ := closerEnd_spec hc
  obtain ⟨hle, hru, he, -, -⟩ := runsFrom_split hm
  have hp : i < run.2 := by omega
  refine ⟨hp, h.sentence, he.isCharBoundary, h.le.trans hp.le, he.1, h.segments, ?_,
    hr.runs.behind hm⟩
  intro s hs
  rcases List.mem_append.mp hs with ho | hn
  · exact h.pending.mono hp.le s ho
  · rw [List.mem_singleton.mp hn]
    obtain ⟨-, j, hj, hby⟩ := he
    exact ⟨h.le, hp, Nat.le_refl _, hb, by simpa [hj] using hby⟩

/-- Cutting behind the punctuation at `i`, and passing the blanks up to the next sentence. -/
theorem SentenceAt.cut (h : SentenceAt content start stop parts spanStart i done pending)
    (ba : List ByteRange) {next : ℕ} {b : UInt8} (hb : (asBytes content)[i]? = some b)
    (has : b < 0x80) (hti : b ≠ backtick) (hbl : Blank content (i + 1) next)
    (hn : next ≤ stop) :
    ∃ p, pushSpan (ba ++ parts) content spanStart (i + 1) = some (ba ++ (parts ++ p)) ∧
      SentenceAt content start stop (parts ++ p) next next (done ++ pending) [] ∧
      inlineCodeFrom (asBytes content) start stop i
        = inlineCodeFrom (asBytes content) start stop next := by
  have ha := (isCharBoundary_of_ascii hb has).2
  have hle := hbl.le
  have hbo : isCharBoundary content next = true := by
    obtain ⟨t, ht, -⟩ := hbl
    exact (boundaries_of_slice ht).2.1
  obtain ⟨p, hpu, hp⟩ := pushSpan_segments (ba ++ parts) (h.le.trans (Nat.le_succ i))
    h.sentence ha (h.pending.mono (Nat.le_succ i))
  have hby : ∀ k < next - i, (asBytes content)[i + k]? ≠ some backtick := by
    intro k hk
    cases k with
    | zero =>
      rw [Nat.add_zero, hb]
      exact fun heq => hti (Option.some.inj heq)
    | succ k => exact not_backtick_of_blank hbl (by omega) (by omega)
  obtain ⟨hr, hc⟩ := h.runs.advance hby
  rw [Nat.add_sub_cancel' (by omega : i ≤ next)] at hr hc
  refine ⟨p, by rw [hpu, List.append_assoc], ?_, hc⟩
  have hs := (h.segments.append h.sentence hp).append ha (segments_blank hbl)
  exact ⟨hbo, hbo, Nat.le_refl _, hn, by simpa using hs, codeIn_nil _ _ _, hr⟩

/-- **The sentences of a paragraph segment it.** -/
theorem sentenceLoop_segments (isUpper : Char → Bool)
    (hst : isCharBoundary content stop = true) (ba : List ByteRange) :
    ∀ (n : ℕ) (parts : List ByteRange) (spanStart i : ℕ) (done pending : List ByteRange),
      stop - i < n → SentenceAt content start stop parts spanStart i done pending →
      ∃ ps', sentenceLoop isUpper content
          (askInlineCodeEnds (asBytes content) start stop) start stop n (ba ++ parts) spanStart i
          = some (ba ++ ps') ∧
        Segments content start stop []
          (done ++ (pending ++ inlineCodeFrom (asBytes content) start stop i)) ps' := by
  intro n
  induction n with
  | zero => intro _ _ _ _ _ hf; omega
  | succ n ih =>
    intro parts spanStart i done pending hf h
    have hlen := isCharBoundary_le hst
    rw [sentenceLoop]
    split
    · rename_i hi
      obtain ⟨b, hb⟩ : ∃ b, (asBytes content)[i]? = some b :=
        ⟨_, List.getElem?_eq_getElem (by omega)⟩
      rw [hb, Option.bind_eq_bind, Option.bind_some]
      split
      · rename_i ht
        subst ht
        have hlt := (scanWhile_backtick hi hb).1
        rw [askInlineCodeEnds_eq h.runs hi hb]
        split
        · rename_i ce he
          have hes : askByteIsEscaped (asBytes content) start i = false := by
            split at he
            · cases he
            · rename_i hnot
              simpa using hnot
          rw [hes, if_neg Bool.false_ne_true] at he
          obtain ⟨hpas, hn⟩ := h.code hi hb he
          obtain ⟨ps', hl, hs⟩ := ih _ _ _ _ _ (by omega) hn
          refine ⟨ps', hl, ?_⟩
          rw [inlineCodeFrom_code hi hb hes he]
          simpa using hs
        · rename_i hno
          rw [inlineCodeFrom_skip hi hb hno]
          exact ih _ _ _ _ _ (by omega) (h.run hi hb)
      · rename_i ht
        obtain ⟨hbo, hle, hby⟩ := charLenAt_advance hi h.boundary hst hb ht
        have hsk : ∃ ps', sentenceLoop isUpper content
            (askInlineCodeEnds (asBytes content) start stop) start stop n (ba ++ parts) spanStart
            (i + charLenAt b) = some (ba ++ ps') ∧
            Segments content start stop []
              (done ++ (pending ++ inlineCodeFrom (asBytes content) start stop i)) ps' := by
          have hpo := charLenAt_pos b
          rw [(h.runs.advance hby).2]
          exact ih _ _ _ _ _ (by omega) (h.pass hbo hle hby)
        split
        · rename_i hp
          have ha : b < 0x80 := by
            rcases hp.1 with rfl | rfl | rfl <;> decide
          have haf := (isCharBoundary_of_ascii hb ha).2
          obtain ⟨remainder, hr⟩ := exists_slice (by omega : i + 1 ≤ stop) haf hst
          have hbl := blank_trimStart hr
          rw [hr, Option.bind_eq_bind, Option.bind_some]
          simp only
          split
          · obtain ⟨p, hpu, hn, hc⟩ := h.cut ba hb ha ht hbl (Nat.sub_le _ _)
            have hle := hbl.le
            rw [hpu, Option.bind_eq_bind, Option.bind_some, hc]
            obtain ⟨ps', hl, hs⟩ := ih _ _ _ _ _ (by omega) hn
            exact ⟨ps', hl, by simpa using hs⟩
          · exact hsk
        · exact hsk
    · rename_i hi
      obtain rfl : i = stop := by have := h.le_stop; omega
      obtain ⟨p, hpu, hpa⟩ := pushSpan_segments (ba ++ parts) h.le h.sentence hst h.pending
      refine ⟨parts ++ p, by rw [hpu, List.append_assoc], ?_⟩
      rw [inlineCodeFrom_end (Nat.le_refl _), List.append_nil]
      exact h.segments.append h.sentence hpa

end SentenceSteps

/-- The bytes between two positions are ASCII and no backticks. -/
def IsPlain (bytes : List UInt8) (first last : ℕ) : Prop :=
  ∀ j, first ≤ j → j < last → ∃ b, bytes[j]? = some b ∧ b < 0x80 ∧ b ≠ backtick

theorem IsPlain.append {first m l : ℕ} (h : IsPlain bytes first m)
    (h' : IsPlain bytes m l) : IsPlain bytes first l := by
  intro j hf hl
  rcases Nat.lt_or_ge j m with hlt | hge
  · exact h j hf hlt
  · exact h' j hge hl

theorem isPlain_byte {b : UInt8} (hb : bytes[i]? = some b) (ha : b < 0x80)
    (ht : b ≠ backtick) : IsPlain bytes i (i + 1) := by
  intro j hf hl
  obtain rfl : j = i := by omega
  exact ⟨b, hb, ha, ht⟩

theorem isPlain_scanWhile {p : UInt8 → Bool} (hp : ∀ b, p b = true → b < 0x80 ∧ b ≠ backtick) :
    IsPlain bytes i (scanWhile p bytes stop i) := by
  intro j hf hl
  obtain ⟨b, hb, ht⟩ := scanWhile_passes hf hl
  exact ⟨b, hb, hp b ht⟩

/-- The marker of a list item is plain, and it lies in the paragraph. -/
theorem askListContentStart_spec (h : askListContentStart bytes start stop = some i)
    (hle : start ≤ stop) : i ≤ stop ∧ IsPlain bytes start i := by
  have hsp : IsPlain bytes start (scanWhile (· = ' '.toUInt8) bytes stop start) :=
    isPlain_scanWhile fun b hb => by
      rw [of_decide_eq_true hb]
      decide
  have hs : scanWhile (· = ' '.toUInt8) bytes stop start ≤ stop := scanWhile_le hle
  unfold askListContentStart at h
  simp only at h
  generalize scanWhile (· = ' '.toUInt8) bytes stop start = ass at *
  split at h
  · cases h
  · rename_i hspa
    split at h
    · cases h
    · rename_i b hb
      split at h
      · cases h
      · rename_i am hm
        have ha : am ≤ stop ∧ IsPlain bytes ass am := by
          split at hm
          · rename_i hbu
            cases hm
            refine ⟨by omega, isPlain_byte hb ?_ ?_⟩
            · rcases hbu with rfl | rfl | rfl <;> decide
            · rcases hbu with rfl | rfl | rfl <;> decide
          · have hd : IsPlain bytes ass (scanWhile
                (fun b => '0'.toUInt8 ≤ b ∧ b ≤ '9'.toUInt8) bytes stop ass) :=
              isPlain_scanWhile fun b hb => by
                have hr : '0'.toUInt8 ≤ b ∧ b ≤ '9'.toUInt8 := of_decide_eq_true hb
                refine ⟨UInt8.lt_of_le_of_lt hr.2 (by decide), ?_⟩
                rintro rfl
                exact absurd hr.2 (by decide)
            have hdi : scanWhile (fun b => '0'.toUInt8 ≤ b ∧ b ≤ '9'.toUInt8) bytes stop
                ass ≤ stop := scanWhile_le hs
            split at hm
            · cases hm
            · split at hm
              · cases hm
              · rename_i b' hb'
                split at hm
                · cases hm
                · rename_i hp
                  cases hm
                  have hp' : b' = '.'.toUInt8 ∨ b' = ')'.toUInt8 := by
                    by_contra hnot
                    exact hp (not_or.mp hnot)
                  refine ⟨by omega, hd.append (isPlain_byte hb' ?_ ?_)⟩
                  · rcases hp' with rfl | rfl <;> decide
                  · rcases hp' with rfl | rfl <;> decide
        have hbla : IsPlain bytes am (scanWhile
            (fun b => b = ' '.toUInt8 ∨ b = '\t'.toUInt8) bytes stop am) :=
          isPlain_scanWhile fun b hb => by
            have hblank : b = ' '.toUInt8 ∨ b = '\t'.toUInt8 := of_decide_eq_true hb
            rcases hblank with rfl | rfl <;> decide
        have hbl : scanWhile (fun b => b = ' '.toUInt8 ∨ b = '\t'.toUInt8) bytes stop
            am ≤ stop := scanWhile_le ha.1
        split at h
        · cases h
        · split at h
          · cases h
          · split at h
            · cases h
            · cases h
              exact ⟨hbl, hsp.append (ha.2.append hbla)⟩

/-- **A paragraph is segmented, and its code is not cut.** -/
theorem segmentAskSentences_segments (isUppercase : Char → Bool) (base : List ByteRange)
    (hle : start ≤ stop) (hstart : isCharBoundary content start = true)
    (hstop : isCharBoundary content stop = true) :
    ∃ parts, segmentAskSentences isUppercase content base start stop = some (base ++ parts) ∧
      Segments content start stop [] (inlineCode (asBytes content) start stop) parts := by
  have hbegin : SentenceAt content start stop [] start start [] [] :=
    { sentence := hstart
      boundary := hstart
      le := Nat.le_refl _
      le_stop := hle
      segments := segments_blank (blank_self hstart)
      pending := codeIn_nil _ _ _
      runs := ⟨[], rfl, by simp⟩ }
  -- the marker of a list item is passed first
  obtain ⟨first, hfirst, hat, hcode, hge⟩ : ∃ first,
      (askListContentStart (asBytes content) start stop).getD start = first ∧
      SentenceAt content start stop [] start first [] [] ∧
      inlineCodeFrom (asBytes content) start stop start
        = inlineCodeFrom (asBytes content) start stop first ∧ start ≤ first := by
    cases hlist : askListContentStart (asBytes content) start stop with
    | none => exact ⟨start, rfl, hbegin, rfl, Nat.le_refl _⟩
    | some i =>
      obtain ⟨hi, hplain⟩ := askListContentStart_spec hlist hle
      have hge := le_of_askListContentStart hlist
      have hbytes : ∀ k < i - start, (asBytes content)[start + k]? ≠ some backtick := by
        intro k hk
        obtain ⟨b, hb, -, htick⟩ := hplain (start + k) (by omega) (by omega)
        rw [hb]
        exact fun heq => htick (Option.some.inj heq)
      have hboundary : isCharBoundary content i = true := by
        rcases Nat.eq_or_lt_of_le hge with rfl | hlt
        · exact hstart
        · obtain ⟨b, hb, hascii, -⟩ := hplain (i - 1) (by omega) (by omega)
          have hend := (isCharBoundary_of_ascii hb hascii).2
          rwa [Nat.sub_add_cancel (by omega : 1 ≤ i)] at hend
      have hsum : start + (i - start) = i := Nat.add_sub_cancel' hge
      have hpass := hbegin.pass (by rwa [hsum]) (by rwa [hsum]) hbytes
      have hskip := (hbegin.runs.advance hbytes).2
      rw [hsum] at hpass hskip
      exact ⟨i, rfl, hpass, hskip, hge⟩
  unfold segmentAskSentences inlineCode
  rw [hfirst, hcode]
  have hloop := sentenceLoop_segments isUppercase hstop base (stop - start + 1) [] start first [] []
    (by omega) hat
  simpa using hloop

/-! ## Paragraphs -/

/-- The lines of a part of a text from the line start `i` on. -/
def linesFrom (bytes : List UInt8) (stop i : ℕ) : List ByteRange :=
  if _h : i < stop ∧ stop ≤ bytes.length then
    (i, min (advanceToNewline bytes i) stop)
      :: linesFrom bytes stop (min (advanceToNewline bytes i) stop)
  else []
termination_by stop - i
decreasing_by
  have := lt_advanceToNewline (_h.1.trans_le _h.2)
  omega

theorem linesFrom_cons (hi : i < stop) (hs : stop ≤ bytes.length) :
    linesFrom bytes stop i = (i, min (advanceToNewline bytes i) stop) ::
      linesFrom bytes stop (min (advanceToNewline bytes i) stop) := by
  rw [linesFrom, dif_pos ⟨hi, hs⟩]

theorem linesFrom_end (hi : stop ≤ i) : linesFrom bytes stop i = [] := by
  rw [linesFrom, dif_neg (by omega)]

/-- The line holds blanks only. -/
def isBlankLine (content : String) (line : ByteRange) : Bool :=
  (slice content line.1 line.2).any fun text => trim text = ""

/-- The line starts with the marker of a list item. -/
def isListItem (bytes : List UInt8) (line : ByteRange) : Bool :=
  (askListContentStart bytes line.1 line.2).isSome

/-- The paragraphs of prose that ends at `stop`, the first of which starts at `start` and goes
on with the lines: a blank line ends a paragraph, and a list item starts one. -/
def paragraphs (content : String) (stop : ℕ) : ℕ → List ByteRange → List ByteRange
  | start, [] => [(start, stop)]
  | start, line :: lines =>
    if isBlankLine content line then (start, line.1) :: paragraphs content stop line.2 lines
    else if isListItem (asBytes content) line ∧ start < line.1 then
      (start, line.1) :: paragraphs content stop line.1 lines
    else paragraphs content stop start lines

/-- The inline code of paragraphs. -/
def codeOf (content : String) (paragraphs : List ByteRange) : List ByteRange :=
  paragraphs.flatMap fun paragraph => inlineCode (asBytes content) paragraph.1 paragraph.2

/-- The inline code of the prose between two positions. -/
def proseCode (content : String) (start stop : ℕ) : List ByteRange :=
  codeOf content (paragraphs content stop start (linesFrom (asBytes content) stop start))

/-- **Prose is segmented paragraph by paragraph.** -/
theorem proseLoop_segments (isUppercase : Char → Bool)
    (hstop : isCharBoundary content stop = true) (base : List ByteRange) :
    ∀ (n : ℕ) (parts code : List ByteRange) (paragraphStart lineStart : ℕ), stop - lineStart < n →
      isCharBoundary content paragraphStart = true → isCharBoundary content lineStart = true →
      paragraphStart ≤ lineStart → lineStart ≤ stop →
      Segments content start paragraphStart [] code parts →
      ∃ parts', proseLoop isUppercase content stop n (base ++ parts) paragraphStart lineStart
          = some (base ++ parts') ∧
        Segments content start stop [] (code ++ codeOf content
          (paragraphs content stop paragraphStart (linesFrom (asBytes content) stop lineStart)))
          parts' := by
  intro n
  induction n with
  | zero => intro _ _ _ _ hfuel; omega
  | succ n ih =>
    intro parts code paragraphStart lineStart hfuel hparagraph hline hle hlimit hsegments
    have hlen := isCharBoundary_le hstop
    rw [proseLoop]
    split
    · rename_i hlt
      have hgt := lt_advanceToNewline (by omega : lineStart < (asBytes content).length)
      have hnext : isCharBoundary content
          (min (advanceToNewline (asBytes content) lineStart) stop) = true := by
        rcases Nat.le_total (advanceToNewline (asBytes content) lineStart) stop with h | h
        · rw [Nat.min_eq_left h]
          exact isCharBoundary_advanceToNewline (by omega)
        · rw [Nat.min_eq_right h]
          exact hstop
      rw [linesFrom_cons hlt hlen]
      generalize hnextLine : min (advanceToNewline (asBytes content) lineStart) stop = nextLine at *
      obtain ⟨line, hslice⟩ := exists_slice (by omega : lineStart ≤ nextLine) hline hnext
      obtain ⟨part, hsentences, hpart⟩ := segmentAskSentences_segments isUppercase (base ++ parts)
        hle hparagraph hline
      have hjoined := hsegments.append hparagraph hpart
      rw [List.append_nil] at hjoined
      simp only
      rw [hslice, Option.bind_eq_bind, Option.bind_some, paragraphs]
      by_cases hblank : trim line = ""
      · -- the blank line belongs to no paragraph
        have hline' : isBlankLine content (lineStart, nextLine) = true := by
          simp [isBlankLine, hslice, hblank]
        rw [if_pos hblank, if_pos hline', hsentences, Option.bind_eq_bind, Option.bind_some,
          List.append_assoc]
        have hskip := hjoined.append hline
          (segments_blank ⟨line, hslice, blanks_of_trim_eq_empty hblank⟩)
        obtain ⟨parts', hloop, hparts'⟩ := ih (parts ++ part)
          (code ++ inlineCode (asBytes content) paragraphStart lineStart) nextLine nextLine
          (by omega) hnext hnext (Nat.le_refl _) (by omega) (by simpa using hskip)
        exact ⟨parts', hloop, by simpa [codeOf] using hparts'⟩
      · have hline' : ¬isBlankLine content (lineStart, nextLine) = true := by
          simp [isBlankLine, hslice, hblank]
        rw [if_neg hblank, if_neg hline']
        by_cases hitem : (askListContentStart (asBytes content) lineStart nextLine).isSome = true ∧
            paragraphStart < lineStart
        · have hitem' : isListItem (asBytes content) (lineStart, nextLine) = true ∧
              paragraphStart < (lineStart, nextLine).1 := hitem
          rw [if_pos hitem, if_pos hitem', hsentences, Option.bind_eq_bind, Option.bind_some,
            List.append_assoc]
          obtain ⟨parts', hloop, hparts'⟩ := ih (parts ++ part)
            (code ++ inlineCode (asBytes content) paragraphStart lineStart) lineStart nextLine
            (by omega) hline hnext (by omega) (by omega) hjoined
          exact ⟨parts', hloop, by simpa [codeOf] using hparts'⟩
        · have hitem' : ¬(isListItem (asBytes content) (lineStart, nextLine) = true ∧
              paragraphStart < (lineStart, nextLine).1) := hitem
          rw [if_neg hitem, if_neg hitem']
          exact ih parts code paragraphStart nextLine (by omega) hparagraph hnext (by omega)
            (by omega) hsegments
    · rename_i hge
      obtain rfl : lineStart = stop := by omega
      obtain ⟨part, hsentences, hpart⟩ := segmentAskSentences_segments isUppercase (base ++ parts)
        hle hparagraph hstop
      refine ⟨parts ++ part, by rw [hsentences, List.append_assoc], ?_⟩
      rw [linesFrom_end (Nat.le_refl _), paragraphs]
      simpa [codeOf] using hsegments.append hparagraph hpart

theorem segmentAskProse_segments (isUppercase : Char → Bool) (base : List ByteRange)
    (hle : start ≤ stop) (hstart : isCharBoundary content start = true)
    (hstop : isCharBoundary content stop = true) :
    ∃ parts, segmentAskProse isUppercase content base start stop = some (base ++ parts) ∧
      Segments content start stop [] (proseCode content start stop) parts := by
  have hloop := proseLoop_segments isUppercase hstop base (stop - start + 1) [] [] start start
    (by omega) hstart hstart (Nat.le_refl _) hle (segments_blank (blank_self hstart))
  simpa [segmentAskProse, proseCode] using hloop

/-! ## Fenced blocks -/

/-- What follows the marker on a line. -/
def tailBytes (bytes : List UInt8) (line : ByteRange) (tail : ℕ) : List UInt8 :=
  (bytes.take line.2).drop tail

/-- The line opens a fenced block: it starts with a marker, and no backtick follows one of
backticks. -/
def opensFence (bytes : List UInt8) (line : ByteRange) : Bool :=
  match askFenceLine bytes line.1 line.2 with
  | none => false
  | some (marker, _, tail) => marker ≠ backtick ∨ backtick ∉ tailBytes bytes line tail

/-- The line closes the block of an opening line: it starts with the same marker, at least as
wide, and only blanks follow. -/
def closesFence (bytes : List UInt8) (opening line : ByteRange) : Bool :=
  match askFenceLine bytes opening.1 opening.2, askFenceLine bytes line.1 line.2 with
  | some (openingMarker, openingWidth, _), some (marker, width, tail) =>
    marker = openingMarker ∧ openingWidth ≤ width ∧ (tailBytes bytes line tail).all fun b =>
      b = ' '.toUInt8 ∨ b = '\t'.toUInt8 ∨ b = '\r'.toUInt8 ∨ b = '\n'.toUInt8
  | _, _ => false

/-- A part of a text. -/
inductive Block
  | prose (start stop : ℕ)
  | fence (start stop : ℕ)

/-- The blocks of a text whose prose starts at `start`, by its lines: a fenced block goes from
the first opening line to the first closing line behind it, or to the end of the text. -/
def blocksFrom (bytes : List UInt8) (start : ℕ) (lines : List ByteRange) : List Block :=
  match _hopen : lines.dropWhile fun line => !opensFence bytes line with
  | [] => [.prose start bytes.length]
  | opening :: rest =>
    .prose start opening.1 ::
      match _hclose : rest.dropWhile fun line => !closesFence bytes opening line with
      | [] => [.fence opening.1 bytes.length]
      | closing :: rest' => .fence opening.1 closing.2 :: blocksFrom bytes closing.2 rest'
termination_by lines.length
decreasing_by
  have hlines := (List.dropWhile_suffix (l := lines) fun line => !opensFence bytes line).length_le
  have hrest := (List.dropWhile_suffix (l := rest)
    fun line => !closesFence bytes opening line).length_le
  rw [_hopen, List.length_cons] at hlines
  rw [_hclose, List.length_cons] at hrest
  omega

/-- The blocks of a text. -/
def blocks (content : String) : List Block :=
  blocksFrom (asBytes content) 0 (linesFrom (asBytes content) (asBytes content).length 0)

/-- The fenced blocks among blocks. -/
def fencesOf (blocks : List Block) : List ByteRange :=
  blocks.filterMap fun
    | .prose _ _ => none
    | .fence start stop => some (start, stop)

/-- The inline code of blocks. -/
def blockCode (content : String) (blocks : List Block) : List ByteRange :=
  blocks.flatMap fun
    | .prose start stop => proseCode content start stop
    | .fence _ _ => []

/-- The blocks behind an opening line. -/
def fenceBlocks (bytes : List UInt8) (opening : ByteRange) (lines : List ByteRange) : List Block :=
  match lines.dropWhile fun line => !closesFence bytes opening line with
  | [] => [.fence opening.1 bytes.length]
  | closing :: rest => .fence opening.1 closing.2 :: blocksFrom bytes closing.2 rest

theorem blocksFrom_nil (bytes : List UInt8) (start : ℕ) :
    blocksFrom bytes start [] = [.prose start bytes.length] := by
  rw [blocksFrom.eq_def]
  rfl

theorem blocksFrom_other {l : ByteRange} {ls : List ByteRange} (h : opensFence bytes l = false) :
    blocksFrom bytes start (l :: ls) = blocksFrom bytes start ls := by
  rw [blocksFrom.eq_def, blocksFrom.eq_def bytes start ls]
  rw [List.dropWhile_cons_of_pos (by simp [h])]

theorem blocksFrom_open {l : ByteRange} {ls : List ByteRange} (h : opensFence bytes l = true) :
    blocksFrom bytes start (l :: ls) = .prose start l.1 :: fenceBlocks bytes l ls := by
  rw [blocksFrom.eq_def]
  split
  · rename_i hn
    rw [List.dropWhile_cons_of_neg (by simp [h])] at hn
    cases hn
  · rename_i o r ho
    rw [List.dropWhile_cons_of_neg (by simp [h])] at ho
    obtain ⟨rfl, rfl⟩ := List.cons.inj ho
    unfold fenceBlocks
    congr 1
    split
    · rename_i hc
      rw [hc]
    · rename_i hc
      rw [hc]

theorem fenceBlocks_nil (bytes : List UInt8) (o : ByteRange) :
    fenceBlocks bytes o [] = [.fence o.1 bytes.length] := rfl

theorem fenceBlocks_other {o l : ByteRange} {ls : List ByteRange}
    (h : closesFence bytes o l = false) :
    fenceBlocks bytes o (l :: ls) = fenceBlocks bytes o ls := by
  unfold fenceBlocks
  rw [List.dropWhile_cons_of_pos (by simp [h])]

theorem fenceBlocks_close {o l : ByteRange} {ls : List ByteRange}
    (h : closesFence bytes o l = true) :
    fenceBlocks bytes o (l :: ls) = .fence o.1 l.2 :: blocksFrom bytes l.2 ls := by
  unfold fenceBlocks
  rw [List.dropWhile_cons_of_neg (by simp [h])]

/-- A fence line has its marker on it. -/
theorem askFenceLine_marker {m : UInt8} {w tail : ℕ} (hle : start ≤ stop)
    (h : askFenceLine bytes start stop = some (m, w, tail)) :
    ∃ k, start ≤ k ∧ k < stop ∧ bytes[k]? = some m ∧ (m = backtick ∨ m = tilde) := by
  have hs : start ≤ scanWhile (· = ' '.toUInt8) bytes stop start := le_scanWhile
  have hsp : scanWhile (· = ' '.toUInt8) bytes stop start ≤ stop := scanWhile_le hle
  unfold askFenceLine at h
  simp only at h
  split at h
  · cases h
  · rename_i hspa
    split at h
    · cases h
    · rename_i b hb
      split at h
      · cases h
      · rename_i hm
        split at h
        · obtain ⟨rfl, -⟩ := Prod.mk.inj (Option.some.inj h)
          refine ⟨_, hs, by omega, hb, ?_⟩
          by_contra hnot
          exact hm (not_or.mp hnot)
        · cases h

/-- A fenced block is one range. -/
theorem pushSpan_fence (spans : List ByteRange) {m : UInt8} {w tail lie : ℕ}
    (hle : start ≤ lie) (hl : lie ≤ stop)
    (hst : isCharBoundary content start = true) (hsto : isCharBoundary content stop = true)
    (hf : askFenceLine (asBytes content) start lie = some (m, w, tail)) :
    ∃ p, pushSpan spans content start stop = some (spans ++ p) ∧
      Segments content start stop [(start, stop)] [] p := by
  obtain ⟨k, hfi, hla, hb, hm⟩ := askFenceLine_marker hle hf
  obtain ⟨p, hp, hs⟩ := pushSpan_segments spans (hle.trans hl) hst hsto
    (codeIn_nil content start stop)
  refine ⟨p, hp, { hs with fenced := ?_ }⟩
  rcases pushSpan_cases spans (hle.trans hl) hst hsto with
    ⟨-, hbl⟩ | ⟨range, -, hp', hbe, ha, -⟩
  · -- the marker is no blank
    have has : m < 0x80 := by rcases hm with rfl | rfl <;> decide
    obtain ⟨c, hc, hco⟩ := hbl.ascii hb has hfi (by omega)
    exfalso
    rcases hm with rfl | rfl
    · have hv : c.toNat = 0x60 := hco
      simp [isWhitespace, hv] at hc
    · have hv : c.toNat = 0x7e := hco
      simp [isWhitespace, hv] at hc
  · have hpa : p = [range] := List.append_cancel_left (Option.some.inj (hp.symm.trans hp'))
    intro b hblo
    rw [List.mem_singleton.mp hblo, hpa]
    exact ⟨range, by simp, hbe, ha⟩

/-! ## The whole text -/

/-- What holds at the head of the loop over the lines: the ranges so far segment the text up to
the open prose or fence, and `rest` are the blocks from there on. -/
inductive LineAt (content : String) (fences code : List ByteRange) :
    SegmentState → List Block → Prop
  | prose {spans : List ByteRange} {proseStart lineStart : ℕ}
      (hprose : isCharBoundary content proseStart = true)
      (hline : isCharBoundary content lineStart = true) (hle : proseStart ≤ lineStart)
      (hsegments : Segments content 0 proseStart fences code spans) :
      LineAt content fences code ⟨spans, proseStart, lineStart, none⟩
        (blocksFrom (asBytes content) proseStart
          (linesFrom (asBytes content) (asBytes content).length lineStart))
  | fence {spans : List ByteRange} {proseStart lineStart blockStart lineEnd width tail : ℕ}
      {marker : UInt8} (hblock : isCharBoundary content blockStart = true)
      (hline : isCharBoundary content lineStart = true) (hle : blockStart ≤ lineEnd)
      (hend : lineEnd ≤ lineStart)
      (hfence : askFenceLine (asBytes content) blockStart lineEnd = some (marker, width, tail))
      (hsegments : Segments content 0 blockStart fences code spans) :
      LineAt content fences code ⟨spans, proseStart, lineStart, some (blockStart, marker, width)⟩
        (fenceBlocks (asBytes content) (blockStart, lineEnd)
          (linesFrom (asBytes content) (asBytes content).length lineStart))

theorem fencesOf_cons_fence (first l : ℕ) (r : List Block) :
    fencesOf (.fence first l :: r) = (first, l) :: fencesOf r := rfl

theorem fencesOf_cons_prose (first l : ℕ) (r : List Block) :
    fencesOf (.prose first l :: r) = fencesOf r := rfl

theorem blockCode_cons_prose (first l : ℕ) (r : List Block) :
    blockCode content (.prose first l :: r)
      = proseCode content first l ++ blockCode content r := rfl

theorem blockCode_cons_fence (first l : ℕ) (r : List Block) :
    blockCode content (.fence first l :: r) = blockCode content r := rfl

/-- One line. -/
theorem segmentLine_at (isUpper : Char → Bool) {fs code : List ByteRange}
    {s : SegmentState} {r : List Block} (h : LineAt content fs code s r)
    (hlt : s.lineStart < (asBytes content).length) :
    ∃ s' fs' c' r', segmentLine isUpper content s (advanceToNewline (asBytes content) s.lineStart)
        = some s' ∧
      LineAt content fs' c'
        { s' with lineStart := advanceToNewline (asBytes content) s.lineStart } r' ∧
      fs ++ fencesOf r = fs' ++ fencesOf r' ∧
      code ++ blockCode content r = c' ++ blockCode content r' := by
  have hgt := lt_advanceToNewline hlt
  have hn : isCharBoundary content (advanceToNewline (asBytes content) s.lineStart) = true :=
    isCharBoundary_advanceToNewline hlt.le
  have hm := Nat.min_eq_left (isCharBoundary_le hn)
  cases h with
  | prose hp hl hle hs =>
    rename_i spans ps ls
    simp only at hlt hgt hn hm ⊢
    rw [linesFrom_cons hlt (Nat.le_refl _), hm]
    generalize advanceToNewline (asBytes content) ls = nl at *
    cases ho : opensFence (asBytes content) (ls, nl) with
    | false =>
      refine ⟨⟨spans, ps, ls, none⟩, fs, code, _, ?_, .prose hp hn (hle.trans hgt.le) hs, ?_, ?_⟩
      · unfold segmentLine
        unfold opensFence at ho
        split
        · rfl
        · rename_i m w tail hf
          rw [hf] at ho
          exact if_neg (of_decide_eq_false ho)
      · rw [blocksFrom_other ho]
      · rw [blocksFrom_other ho]
    | true =>
      obtain ⟨p, hpr, hpa⟩ := segmentAskProse_segments isUpper spans hle hp hl
      rw [blocksFrom_open ho]
      unfold opensFence at ho
      unfold segmentLine
      split at ho
      · cases ho
      · rename_i m w tail hf
        simp only at hf
        have hco : m ≠ backtick ∨
            backtick ∉ ((asBytes content).take nl).drop tail := of_decide_eq_true ho
        rw [hf]
        simp only
        rw [if_pos hco, hpr]
        refine ⟨_, fs, code ++ proseCode content ps ls, _, rfl,
          .fence hl hn hgt.le (Nat.le_refl _) hf ?_, ?_, ?_⟩
        · simpa using hs.append hp hpa
        · rw [fencesOf_cons_prose]
        · rw [blockCode_cons_prose, List.append_assoc]
  | fence hb hl hle he hf hs =>
    rename_i spans ps ls bs lie ow ot om
    simp only at hlt hgt hn hm ⊢
    rw [linesFrom_cons hlt (Nat.le_refl _), hm]
    generalize advanceToNewline (asBytes content) ls = nl at *
    cases hc : closesFence (asBytes content) (bs, lie) (ls, nl) with
    | false =>
      refine ⟨⟨spans, ps, ls, some (bs, om, ow)⟩,
        fs, code, _, ?_, .fence hb hn hle (he.trans hgt.le) hf hs, ?_, ?_⟩
      · unfold segmentLine
        unfold closesFence at hc
        simp only [hf] at hc
        split
        · rfl
        · rename_i m w tail hl'
          simp only at hl'
          rw [hl'] at hc
          exact if_neg (of_decide_eq_false hc)
      · rw [fenceBlocks_other hc]
      · rw [fenceBlocks_other hc]
    | true =>
      obtain ⟨p, hpu, hpa⟩ := pushSpan_fence spans hle (he.trans hgt.le) hb hn hf
      rw [fenceBlocks_close hc]
      unfold closesFence at hc
      simp only [hf] at hc
      unfold segmentLine
      split at hc
      · rename_i om' ow' ot' m w tail hop hl'
        obtain ⟨rfl, hr⟩ := Prod.mk.inj (Option.some.inj hop)
        obtain ⟨rfl, -⟩ := Prod.mk.inj hr
        have hco := of_decide_eq_true hc
        unfold tailBytes at hco
        rw [hl']
        simp only
        rw [if_pos hco, hpu]
        refine ⟨_, fs ++ [(bs, nl)], code, _, rfl, .prose hn hn (Nat.le_refl _) ?_, ?_, ?_⟩
        · simpa using hs.append hb hpa
        · rw [fencesOf_cons_fence, List.append_assoc, List.singleton_append]
        · rw [blockCode_cons_fence]
      · cases hc

theorem finishSegments_at (isUpper : Char → Bool) {fs code : List ByteRange}
    {s : SegmentState} {r : List Block} (h : LineAt content fs code s r)
    (he : (asBytes content).length ≤ s.lineStart) :
    ∃ spans, finishSegments isUpper content s = some spans ∧
      Segments content 0 (asBytes content).length (fs ++ fencesOf r)
        (code ++ blockCode content r) spans := by
  have hla := isCharBoundary_length content
  cases h with
  | prose hp hli hle hs =>
    rename_i spans ps ls
    obtain ⟨p, hpr, hpa⟩ := segmentAskProse_segments isUpper spans (isCharBoundary_le hp) hp hla
    refine ⟨_, hpr, ?_⟩
    rw [linesFrom_end he, blocksFrom_nil]
    simpa [fencesOf, blockCode] using hs.append hp hpa
  | fence hb hli hle hl hf hs =>
    rename_i spans ps ls bs lie w tail m
    obtain ⟨p, hpu, hpa⟩ := pushSpan_fence spans hle (hl.trans (isCharBoundary_le hli)) hb hla hf
    refine ⟨_, hpu, ?_⟩
    rw [linesFrom_end he, fenceBlocks_nil]
    simpa [fencesOf, blockCode] using hs.append hb hpa

theorem lineLoop_at (isUpper : Char → Bool) :
    ∀ (n : ℕ) {fs code : List ByteRange} {s : SegmentState} {r : List Block},
      (asBytes content).length - s.lineStart < n → LineAt content fs code s r →
      ∃ spans, (lineLoop isUpper content n s >>= finishSegments isUpper content) = some spans ∧
        Segments content 0 (asBytes content).length (fs ++ fencesOf r)
          (code ++ blockCode content r) spans := by
  intro n
  induction n with
  | zero => intro _ _ _ _ hfu; omega
  | succ n ih =>
    intro fs code s r hfu h
    rw [lineLoop]
    split
    · rename_i hlt
      have hgt := lt_advanceToNewline hlt
      obtain ⟨s', fs', c', r', hl, hat, hf, hc⟩ := segmentLine_at isUpper h hlt
      simp only
      rw [hl, hf, hc]
      exact ih (by simp only; omega) hat
    · exact finishSegments_at isUpper h (by omega)

/-- **The blocks of a text segment it.** -/
theorem segmentSpans_blocks (isUpper : Char → Bool) (content : String) :
    ∃ spans, segmentSpans isUpper content = some spans ∧
      Segments content 0 (asBytes content).length (fencesOf (blocks content))
        (blockCode content (blocks content)) spans := by
  have hz := isCharBoundary_zero content
  have hb : LineAt content [] [] ⟨[], 0, 0, none⟩ (blocks content) :=
    .prose hz hz (Nat.le_refl _) (segments_blank (blank_self hz))
  unfold segmentSpans
  simpa using lineLoop_at isUpper ((asBytes content).length + 1) (by simp) hb

/-! ## Where the scanners read -/

theorem linesFrom_mem {l : ByteRange} (h : l ∈ linesFrom bytes stop i) :
    i ≤ l.1 ∧ l.1 < l.2 ∧ l.2 ≤ stop := by
  induction hn : stop - i using Nat.strong_induction_on generalizing i with
  | _ n ih =>
    by_cases hi : i < stop ∧ stop ≤ bytes.length
    · have hgt := lt_advanceToNewline (hi.1.trans_le hi.2)
      rw [linesFrom_cons hi.1 hi.2] at h
      rcases List.mem_cons.mp h with rfl | hl
      · exact ⟨Nat.le_refl _, by simp only; omega, Nat.min_le_right _ _⟩
      · obtain ⟨hle, hr⟩ := ih _ (by omega) hl rfl
        exact ⟨by omega, hr⟩
    · rw [linesFrom, dif_neg hi] at h
      cases h

/-- A paragraph lies in its prose. -/
theorem paragraphs_mem {p : ByteRange} (hle : start ≤ i) (hi : i ≤ stop)
    (h : p ∈ paragraphs content stop start (linesFrom (asBytes content) stop i)) :
    p.1 ≤ p.2 ∧ p.2 ≤ stop := by
  induction hn : stop - i using Nat.strong_induction_on generalizing i start with
  | _ n ih =>
    by_cases hlt : i < stop ∧ stop ≤ (asBytes content).length
    · have hgt := lt_advanceToNewline (hlt.1.trans_le hlt.2)
      rw [linesFrom_cons hlt.1 hlt.2, paragraphs] at h
      generalize hne : min (advanceToNewline (asBytes content) i) stop = next at *
      split at h
      · rcases List.mem_cons.mp h with rfl | hl
        · exact ⟨hle, hi⟩
        · exact ih _ (by omega) (Nat.le_refl _) (by omega) hl rfl
      · split at h
        · rcases List.mem_cons.mp h with rfl | hl
          · exact ⟨hle, hi⟩
          · exact ih _ (by omega) (by omega) (by omega) hl rfl
        · exact ih _ (by omega) (by omega) (by omega) h rfl
    · rw [linesFrom, dif_neg hlt, paragraphs] at h
      rw [List.mem_singleton.mp h]
      exact ⟨hle.trans hi, Nat.le_refl _⟩

/-- The block lies between two positions. -/
def Block.Within (last : ℕ) : Block → Prop
  | .prose start stop => start ≤ stop ∧ stop ≤ last
  | .fence start stop => start ≤ stop ∧ stop ≤ last

theorem blocks_within (bytes : List UInt8) :
    ∀ i ≤ bytes.length, (∀ start ≤ i, ∀ b ∈ blocksFrom bytes start
        (linesFrom bytes bytes.length i), b.Within bytes.length) ∧
      ∀ o : ByteRange, o.1 ≤ i → ∀ b ∈ fenceBlocks bytes o
        (linesFrom bytes bytes.length i), b.Within bytes.length := by
  intro i
  induction hn : bytes.length - i using Nat.strong_induction_on generalizing i with
  | _ n ih =>
    intro hi
    rcases Nat.lt_or_ge i bytes.length with hlt | hge
    · have hgt := lt_advanceToNewline hlt
      rw [linesFrom_cons hlt (Nat.le_refl _)]
      obtain ⟨hp, hf⟩ := ih _ (by omega) (min (advanceToNewline bytes i) bytes.length) rfl
        (Nat.min_le_right _ _)
      generalize hne : min (advanceToNewline bytes i) bytes.length = next at *
      constructor
      · intro start hs b hb
        cases hop : opensFence bytes (i, next) with
        | false =>
          rw [blocksFrom_other hop] at hb
          exact hp start (by omega) b hb
        | true =>
          rw [blocksFrom_open hop] at hb
          rcases List.mem_cons.mp hb with rfl | hl
          · exact ⟨hs, hi⟩
          · exact hf (i, next) (by simp only; omega) b hl
      · intro o ho b hb
        cases hc : closesFence bytes o (i, next) with
        | false =>
          rw [fenceBlocks_other hc] at hb
          exact hf o (by omega) b hb
        | true =>
          rw [fenceBlocks_close hc] at hb
          rcases List.mem_cons.mp hb with rfl | hl
          · exact ⟨by simp only; omega, by simp only; omega⟩
          · exact hp next (Nat.le_refl _) b hl
    · obtain rfl : i = bytes.length := by omega
      rw [linesFrom_end (Nat.le_refl _)]
      constructor
      · intro start hs b hb
        rw [blocksFrom_nil] at hb
        rw [List.mem_singleton.mp hb]
        exact ⟨hs, Nat.le_refl _⟩
      · intro o ho b hb
        rw [fenceBlocks_nil] at hb
        rw [List.mem_singleton.mp hb]
        exact ⟨ho, Nat.le_refl _⟩

/-- **Segmentation loses nothing and cuts cleanly.** The ranges of a text are non-empty slices
without blanks at their ends, in order and disjoint, and every character that is not a blank lies
in exactly one of them.  A fenced block is one range, up to blanks at its ends.  No range starts
or ends inside an inline code span of a paragraph.  The lines, blocks and paragraphs that the
scanners are given lie in the text. -/
theorem segmentSpans_cover (isUppercase : Char → Bool) (content : String) :
    ∃ spans, segmentSpans isUppercase content = some spans ∧
      (∀ range ∈ spans, range.1 < range.2 ∧ range.2 ≤ (asBytes content).length ∧
        ∃ t, slice content range.1 range.2 = some t ∧ trim t = t) ∧
      spans.Pairwise (fun range later => range.2 ≤ later.1) ∧
      (∀ k c, CharAt content k c → isWhitespace c = false →
        ∃! range, range ∈ spans ∧ range.1 ≤ k ∧ k + c.utf8Size ≤ range.2) ∧
      (∀ start stop, Block.fence start stop ∈ blocks content →
        start ≤ stop ∧ stop ≤ (asBytes content).length ∧
        ∃ range ∈ spans, Blank content start range.1 ∧ Blank content range.2 stop) ∧
      (∀ line ∈ linesFrom (asBytes content) (asBytes content).length 0,
        line.1 < line.2 ∧ line.2 ≤ (asBytes content).length) ∧
      ∀ start stop, Block.prose start stop ∈ blocks content →
        start ≤ stop ∧ stop ≤ (asBytes content).length ∧
        ∀ paragraph ∈ paragraphs content stop start (linesFrom (asBytes content) stop start),
          paragraph.1 ≤ paragraph.2 ∧ paragraph.2 ≤ stop ∧
          ∀ span ∈ inlineCode (asBytes content) paragraph.1 paragraph.2, ∀ range ∈ spans,
            ¬(span.1 < range.1 ∧ range.1 < span.2) ∧ ¬(span.1 < range.2 ∧ range.2 < span.2) := by
  obtain ⟨spans, hsp, hs⟩ := segmentSpans_blocks isUppercase content
  have hw := (blocks_within (asBytes content) 0 (Nat.zero_le _)).1 0 (Nat.le_refl _)
  have hn : ∀ range ∈ spans, range.1 < range.2 := by
    intro range hr
    obtain ⟨t, ht, hne, -⟩ := hs.slices range hr
    have hsi := (boundaries_of_slice ht).2.2
    have hpo : t.utf8ByteSize ≠ 0 := fun hz => hne (String.utf8ByteSize_eq_zero_iff.mp hz)
    omega
  refine ⟨spans, hsp, ?_, hs.ordered, ?_, ?_, ?_, ?_⟩
  · intro range hr
    obtain ⟨t, ht, -, htr⟩ := hs.slices range hr
    exact ⟨hn range hr, (hs.within range hr).2, t, ht, htr⟩
  · intro k c hc hbl
    have he := isCharBoundary_le hc.isCharBoundary_end
    obtain ⟨range, hr, hf, hl⟩ := hs.covered k c hc hbl (Nat.zero_le _) he
    refine ⟨range, ⟨hr, hf, hl⟩, ?_⟩
    rintro other ⟨hot, hf', hl'⟩
    have hpo := c.utf8Size_pos
    -- two ranges that hold the character are not one behind the other
    by_contra hne
    rcases ListRules.rel_or_of_pairwise hs.ordered hr hot (Ne.symm hne) with ho | ho
    · omega
    · omega
  · intro start stop hb
    obtain ⟨hle, hst⟩ := hw _ hb
    exact ⟨hle, hst, hs.fenced (start, stop) (List.mem_filterMap.mpr ⟨_, hb, rfl⟩)⟩
  · intro line hli
    exact (linesFrom_mem hli).2
  · intro start stop hb
    obtain ⟨hle, hst⟩ := hw _ hb
    refine ⟨hle, hst, ?_⟩
    intro paragraph hp
    obtain ⟨hpar, hpa⟩ := paragraphs_mem (Nat.le_refl _) hle hp
    refine ⟨hpar, hpa, ?_⟩
    intro span hspa range hr
    have hco : span ∈ blockCode content (blocks content) :=
      List.mem_flatMap.mpr ⟨_, hb, List.mem_flatMap.mpr ⟨paragraph, hp, hspa⟩⟩
    obtain ⟨hf, hl⟩ := hs.uncut span hco range hr
    exact ⟨by omega, by omega⟩

/-! ## Passages -/

section Passages

variable (isUppercase : Char → Bool) (content : String)

theorem segmentSpans_isSome : (segmentSpans isUppercase content).isSome = true := by
  obtain ⟨spans, hs, -⟩ := segmentSpans_blocks isUppercase content
  rw [hs]
  rfl

/-- The ranges of a text. -/
def spanRanges : List ByteRange :=
  (segmentSpans isUppercase content).get (segmentSpans_isSome isUppercase content)

theorem segments_spanRanges : Segments content 0 (asBytes content).length
    (fencesOf (blocks content)) (blockCode content (blocks content))
    (spanRanges isUppercase content) := by
  obtain ⟨spans, hsp, hs⟩ := segmentSpans_blocks isUppercase content
  have hr : spanRanges isUppercase content = spans := Option.get_of_eq_some _ hsp
  rw [hr]
  exact hs

theorem spanRanges_isSome : ∀ range ∈ spanRanges isUppercase content,
    (slice content range.1 range.2).isSome = true := by
  intro range hr
  obtain ⟨text, hs, -⟩ := (segments_spanRanges isUppercase content).slices range hr
  rw [hs]
  rfl

/-- The ranges of a text with what stands there. -/
def passages : List (ByteRange × String) :=
  (spanRanges isUppercase content).pmap
    (fun range h => (range, (slice content range.1 range.2).get h))
    (spanRanges_isSome isUppercase content)

variable {isUppercase content}

/-- A passage is a slice. -/
theorem slice_of_mem_passages {p : ByteRange × String} (h : p ∈ passages isUppercase content) :
    slice content p.1.1 p.1.2 = some p.2 := by
  obtain ⟨range, hr, rfl⟩ := List.mem_pmap.mp h
  exact (Option.some_get _).symm

end Passages

end Ask
