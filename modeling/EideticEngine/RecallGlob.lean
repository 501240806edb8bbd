/-
# The glob of recall selectors (`src/core/recall.rs`)

`recall_glob_match` walks pattern and text once and remembers the last star: on a mismatch it goes
back to that star and lets it take one character more.  The indices of the source are the rests of
the pattern and of the text that begin there.

The language of a pattern is defined by its pieces.  The matcher decides it, and it ends.
-/
import EideticEngine.BoundedLoop
import EideticEngine.StarPatterns

namespace RecallGlob

open StarPatterns

/-! ## The matcher -/

/-- The loop of `match_char_class` behind the bracket and its sign; `first` is the start of the
class, where a closing bracket stands for itself. -/
def classLoop (ch : Char) (first matched : Bool) : List Char → Option (Bool × List Char)
  | [] => none
  | c :: '-' :: hi :: rest =>
    if c = ']' ∧ first = false then some (matched, '-' :: hi :: rest)
    else if hi ≠ ']' then classLoop ch false (matched || decide (c ≤ ch ∧ ch ≤ hi)) rest
    else classLoop ch false (matched || decide (c = ch)) ('-' :: hi :: rest)
  | c :: rest =>
    if c = ']' ∧ first = false then some (matched, rest)
    else classLoop ch false (matched || decide (c = ch)) rest

/-- A class is negated. -/
def negated (rest : List Char) : Bool := rest.head? = some '!' ∨ rest.head? = some '^'

/-- What stands behind the sign of a class. -/
def classBody (rest : List Char) : List Char := if negated rest then rest.tail else rest

/-- `match_char_class`, with the pattern behind the opening bracket. -/
def matchCharClass (rest : List Char) (ch : Char) : Option (Bool × List Char) :=
  (classLoop ch true false (classBody rest)).map fun found => (found.1 != negated rest, found.2)

/-- What the pattern does with a character of the text. -/
inductive Move where
  | star (rest : List Char)
  | next (rest : List Char)
  | mismatch

def advance (pattern : List Char) (ch : Char) : Move :=
  match pattern with
  | [] => .mismatch
  | c :: rest =>
    if c = '*' then .star rest
    else if c = '?' then .next rest
    else if c = '[' then
      match matchCharClass rest ch with
      | some (true, after) => .next after
      | some (false, _) => .mismatch
      -- an unterminated class: the bracket is a literal
      | none => if ch = '[' then .next rest else .mismatch
    else if c = ch then .next rest
    else .mismatch

/-- The locals of `recall_glob_match`; a star is what stands behind it and where it was tried. -/
structure Matcher where
  pattern : List Char
  text : List Char
  star : Option (List Char × List Char)

/-- A round of the loop, and the stars behind it. -/
def globRound (s : Matcher) : Matcher ⊕ Bool :=
  match s.text with
  | [] => .inr (s.pattern.dropWhile (· = '*')).isEmpty
  | ch :: rest =>
    match advance s.pattern ch with
    | .star behind => .inl ⟨behind, s.text, some (behind, s.text)⟩
    | .next pattern => .inl ⟨pattern, rest, s.star⟩
    | .mismatch =>
      match s.star with
      | some (behind, tried) => .inl ⟨behind, tried.tail, some (behind, tried.tail)⟩
      | none => .inr false

/-! ## The language -/

/-- A member of a class. -/
inductive ClassItem where
  | char (c : Char)
  | range (lo hi : Char)

def ClassItem.contains (ch : Char) : ClassItem → Bool
  | .char c => c = ch
  | .range lo hi => lo ≤ ch ∧ ch ≤ hi

/-- The members of a class up to its closing bracket, which is not the first of them, and what
stands behind it. -/
def classItems (first : Bool) : List Char → Option (List ClassItem × List Char)
  | [] => none
  | c :: '-' :: hi :: rest =>
    if c = ']' ∧ first = false then some ([], '-' :: hi :: rest)
    else if hi ≠ ']' then
      (classItems false rest).map fun found => (.range c hi :: found.1, found.2)
    else (classItems false ('-' :: hi :: rest)).map fun found => (.char c :: found.1, found.2)
  | c :: rest =>
    if c = ']' ∧ first = false then some ([], rest)
    else (classItems false rest).map fun found => (.char c :: found.1, found.2)

theorem length_classItems {first : Bool} {pattern : List Char} {f : List ClassItem × List Char}
    (h : classItems first pattern = some f) : f.2.length < pattern.length := by
  fun_induction classItems first pattern generalizing f with
  | case1 => cases h
  | case2 first c hi r hc =>
    cases h
    exact Nat.lt_succ_self _
  | case3 first c hi r ho hhi ih =>
    obtain ⟨m, hm, rfl⟩ := Option.map_eq_some_iff.mp h
    exact (ih hm).trans (by simp only [List.length_cons]; omega)
  | case4 first c hi r ho hhi ih =>
    obtain ⟨m, hm, rfl⟩ := Option.map_eq_some_iff.mp h
    exact (ih hm).trans (Nat.lt_succ_self _)
  | case5 first c r hn hc =>
    cases h
    exact Nat.lt_succ_self _
  | case6 first c r hn ho ih =>
    obtain ⟨m, hm, rfl⟩ := Option.map_eq_some_iff.mp h
    exact (ih hm).trans (Nat.lt_succ_self _)

/-- The set of a bracket expression. -/
def bracketSet (isNegated : Bool) (items : List ClassItem) (ch : Char) : Bool :=
  items.any (ClassItem.contains ch) != isNegated

theorem length_classBody (r : List Char) : (classBody r).length ≤ r.length := by
  unfold classBody
  split
  · rw [List.length_tail]
    exact Nat.sub_le _ _
  · exact Nat.le_refl _

/-- The pieces of a pattern. -/
def piecesOf : List Char → List (Piece Char)
  | [] => []
  | c :: rest =>
    if c = '*' then .star :: piecesOf rest
    else if c = '?' then .one (fun _ => true) :: piecesOf rest
    else if c = '[' then
      match _h : classItems true (classBody rest) with
      | some found => .one (bracketSet (negated rest) found.1) :: piecesOf found.2
      | none => .one (· = '[') :: piecesOf rest
    else .one (· = c) :: piecesOf rest
  termination_by pattern => pattern.length
  decreasing_by
    · exact Nat.lt_succ_self _
    · exact Nat.lt_succ_self _
    · exact ((length_classItems _h).trans_le (length_classBody rest)).trans (Nat.lt_succ_self _)
    · exact Nat.lt_succ_self _
    · exact Nat.lt_succ_self _

/-- The language of a pattern. -/
def InLanguage (pattern text : String) : Prop := Matches (piecesOf pattern.toList) text.toList

/-! ## What a round does -/

/-- A class finds its members and the end that the language finds. -/
theorem classLoop_eq (ch : Char) (first m : Bool) (pattern : List Char) :
    classLoop ch first m pattern = (classItems first pattern).map fun f =>
      (m || f.1.any (ClassItem.contains ch), f.2) := by
  fun_induction classLoop ch first m pattern with
  | case1 => rfl
  | case2 first m c hi r hc =>
    rw [classItems, if_pos hc, Option.map_some, List.any_nil, Bool.or_false]
  | case3 first m c hi r ho hhi ih =>
    rw [ih, classItems, if_neg ho, if_pos hhi, Option.map_map]
    simp only [Function.comp_def, List.any_cons, Bool.or_assoc, ClassItem.contains]
  | case4 first m c hi r ho hhi ih =>
    rw [ih, classItems, if_neg ho, if_neg hhi, Option.map_map]
    simp only [Function.comp_def, List.any_cons, Bool.or_assoc, ClassItem.contains]
  | case5 first m c r hn hc =>
    rw [classItems, if_pos hc, Option.map_some, List.any_nil, Bool.or_false]
    exact hn
  | case6 first m c r hn ho ih =>
    rw [ih, classItems, if_neg ho, Option.map_map]
    · simp only [Function.comp_def, List.any_cons, Bool.or_assoc, ClassItem.contains]
    · exact hn

theorem matchCharClass_eq (r : List Char) (ch : Char) :
    matchCharClass r ch = (classItems true (classBody r)).map fun f =>
      (bracketSet (negated r) f.1 ch, f.2) := by
  rw [matchCharClass, classLoop_eq, Option.map_map]
  rfl

/-- A move is right for the first piece of the pattern. -/
def Move.Follows (pattern : List Char) (ch : Char) : Move → Prop
  | .star rest => piecesOf pattern = .star :: piecesOf rest ∧ rest.length < pattern.length
  | .next rest => (∃ accepts, piecesOf pattern = .one accepts :: piecesOf rest
      ∧ accepts ch = true) ∧ rest.length < pattern.length
  | .mismatch => ∀ text, ¬ Matches (piecesOf pattern) (ch :: text)

/-- A piece that does not accept the character. -/
theorem not_matches_of_refused {ps : List (Piece Char)} {as : Char → Bool} {ch : Char}
    (h : as ch = false) (text : List Char) : ¬ Matches (.one as :: ps) (ch :: text) := by
  rw [matches_one, h]
  exact fun hb => Bool.noConfusion hb.1

/-- **Every move is right.** -/
theorem advance_follows (pattern : List Char) (ch : Char) :
    (advance pattern ch).Follows pattern ch := by
  cases pattern with
  | nil =>
    intro text h
    rw [piecesOf] at h
    cases h
  | cons c r =>
    have hlt : r.length < (c :: r).length := Nat.lt_succ_self _
    rw [advance]
    split
    · rename_i hs
      exact ⟨by rw [piecesOf, if_pos hs], hlt⟩
    rename_i hs
    split
    · rename_i ha
      exact ⟨⟨_, by rw [piecesOf, if_neg hs, if_pos ha], rfl⟩, hlt⟩
    rename_i ha
    split
    · rename_i ho
      rw [matchCharClass_eq]
      cases hi : classItems true (classBody r) with
      | none =>
        have hp : piecesOf (c :: r) = .one (· = '[') :: piecesOf r := by
          rw [piecesOf, if_neg hs, if_neg ha, if_pos ho]
          split
          · rename_i f hf
            rw [hi] at hf
            cases hf
          · rfl
        simp only [Option.map_none]
        split
        · rename_i hch
          exact ⟨⟨_, hp, decide_eq_true hch⟩, hlt⟩
        · rename_i hch
          intro text
          rw [hp]
          exact not_matches_of_refused (decide_eq_false hch) text
      | some f =>
        have hp : piecesOf (c :: r) = .one (bracketSet (negated r) f.1) :: piecesOf f.2 := by
          rw [piecesOf, if_neg hs, if_neg ha, if_pos ho]
          split
          · rename_i f' hf
            rw [hi] at hf
            cases hf
            rfl
          · rename_i hn
            rw [hi] at hn
            cases hn
        have haf : f.2.length < (c :: r).length :=
          ((length_classItems hi).trans_le (length_classBody r)).trans hlt
        simp only [Option.map_some]
        cases hse : bracketSet (negated r) f.1 ch with
        | true => exact ⟨⟨_, hp, hse⟩, haf⟩
        | false =>
          intro text
          rw [hp]
          exact not_matches_of_refused hse text
    rename_i ho
    have hp : piecesOf (c :: r) = .one (· = c) :: piecesOf r := by
      rw [piecesOf, if_neg hs, if_neg ha, if_neg ho]
    split
    · rename_i hch
      exact ⟨⟨_, hp, decide_eq_true hch.symm⟩, hlt⟩
    · rename_i hch
      intro text
      rw [hp]
      exact not_matches_of_refused (decide_eq_false fun heq => hch heq.symm) text

/-- **The outcomes of a round** with text left. -/
theorem globRound_cases {s : Matcher} {ch : Char} {rest : List Char} (htext : s.text = ch :: rest) :
    (∃ behind, globRound s = .inl ⟨behind, s.text, some (behind, s.text)⟩
        ∧ (Move.star behind).Follows s.pattern ch)
      ∨ (∃ pattern, globRound s = .inl ⟨pattern, rest, s.star⟩
        ∧ (Move.next pattern).Follows s.pattern ch)
      ∨ (Move.mismatch.Follows s.pattern ch
        ∧ ((∃ behind tried, s.star = some (behind, tried)
            ∧ globRound s = .inl ⟨behind, tried.tail, some (behind, tried.tail)⟩)
          ∨ s.star = none ∧ globRound s = .inr false)) := by
  have hfollows := advance_follows s.pattern ch
  unfold globRound
  rw [htext]
  dsimp only
  cases hmove : advance s.pattern ch with
  | star behind => exact Or.inl ⟨behind, rfl, hmove ▸ hfollows⟩
  | next pattern => exact Or.inr (Or.inl ⟨pattern, rfl, hmove ▸ hfollows⟩)
  | mismatch =>
    refine Or.inr (Or.inr ⟨hmove ▸ hfollows, ?_⟩)
    cases hstar : s.star with
    | none => exact Or.inr ⟨rfl, rfl⟩
    | some star => exact Or.inl ⟨star.1, star.2, rfl, rfl⟩

/-! ## The loop ends -/

/-- How much of the text the last star can still try. -/
def Matcher.left (text : List Char) (s : Matcher) : ℕ :=
  match s.star with
  | some (_, tried) => tried.length
  | none => text.length + 1

/-- The rests are those of the pattern and the text, and the star was tried before the rest. -/
structure Within (pattern text : List Char) (s : Matcher) : Prop where
  pattern_le : s.pattern.length ≤ pattern.length
  text_le : s.text.length ≤ text.length
  star_le : ∀ behind tried, s.star = some (behind, tried) →
    behind.length ≤ pattern.length ∧ tried.length ≤ text.length ∧ s.text.length ≤ tried.length

/-- A round moves on in the pattern or in the text, or the star has less to try. -/
def weight (pattern text : List Char) (s : Matcher) : ℕ :=
  s.left text * (pattern.length + text.length + 2) + s.pattern.length + s.text.length

variable {pattern text : List Char}

theorem Within.text_le_left {s : Matcher} (h : Within pattern text s) :
    s.text.length ≤ s.left text := by
  unfold Matcher.left
  split
  · rename_i behind t hs
    exact (h.star_le behind t hs).2.2
  · exact h.text_le.trans (Nat.le_succ _)

/-- A round keeps the rests within the input and takes from the weight. -/
theorem Within.round {s s' : Matcher} (h : Within pattern text s) (hr : globRound s = .inl s') :
    Within pattern text s' ∧ weight pattern text s' < weight pattern text s := by
  have hp := h.pattern_le
  have ht := h.text_le
  cases hte : s.text with
  | nil =>
    rw [globRound, hte] at hr
    cases hr
  | cons ch r =>
    have hlen : s.text.length = r.length + 1 := by rw [hte, List.length_cons]
    rcases globRound_cases hte with ⟨behind, hi, hf⟩ | ⟨next, hi, hf⟩
      | ⟨-, ⟨behind, t, hs, hi⟩ | ⟨-, hin⟩⟩
    · -- a new star
      obtain rfl := Sum.inl.inj (hi.symm.trans hr)
      have hsh := hf.2
      have hl := h.text_le_left
      refine ⟨⟨by dsimp only; omega, ht, ?_⟩, ?_⟩
      · rintro _ _ ⟨⟩
        exact ⟨by omega, ht, Nat.le_refl _⟩
      · have hm := Nat.mul_le_mul_right (pattern.length + text.length + 2) hl
        simp only [weight, Matcher.left] at hm ⊢
        omega
    · obtain rfl := Sum.inl.inj (hi.symm.trans hr)
      have hsh := hf.2
      refine ⟨⟨by dsimp only; omega, by dsimp only; omega, ?_⟩, ?_⟩
      · intro behind t hs
        obtain ⟨hb, htr, hle⟩ := h.star_le behind t hs
        exact ⟨hb, htr, by dsimp only; omega⟩
      · simp only [weight, Matcher.left]
        omega
    · -- back to the star
      obtain rfl := Sum.inl.inj (hi.symm.trans hr)
      obtain ⟨hb, htr, hle⟩ := h.star_le behind t hs
      have hta : t.tail.length + 1 = t.length := by
        rw [List.length_tail]
        omega
      refine ⟨⟨hb, by dsimp only; omega, ?_⟩, ?_⟩
      · rintro _ _ ⟨⟩
        exact ⟨hb, by omega, Nat.le_refl _⟩
      · have hm : t.length * (pattern.length + text.length + 2)
            = t.tail.length * (pattern.length + text.length + 2)
              + (pattern.length + text.length + 2) := by
          rw [← hta, Nat.succ_mul]
        simp only [weight, Matcher.left, hs, hm]
        omega
    · rw [hin] at hr
      cases hr

/-- The loop of `recall_glob_match`. -/
def globLoop (pattern text : List Char) : Loop Matcher Bool where
  step := globRound
  Inv := Within pattern text
  measure := weight pattern text
  inv_step _ _ h hround := (h.round hround).1
  measure_step _ _ h hround := (h.round hround).2

/-- The start of the matcher. -/
def Matcher.start (pattern text : List Char) : Matcher := ⟨pattern, text, none⟩

theorem within_start (pattern text : List Char) : Within pattern text (.start pattern text) :=
  ⟨Nat.le_refl _, Nat.le_refl _, nofun⟩

/-- `recall_glob_match`. -/
def recallGlobMatch (pattern text : String) : Bool :=
  (globLoop pattern.toList text.toList).run (.start pattern.toList text.toList) (within_start _ _)

/-! ## The loop decides the language -/

/-- What the matcher still has to find is what there is to find: from here, or from the last star,
which was matched up to here. -/
structure Decides (goal : Prop) (s : Matcher) : Prop where
  goal_iff : goal ↔ Matches (piecesOf s.pattern) s.text
    ∨ ∃ behind tried, s.star = some (behind, tried) ∧ Later (piecesOf behind) tried
  since : ∀ behind tried, s.star = some (behind, tried) →
    Since (piecesOf behind) tried (piecesOf s.pattern) s.text

variable {goal : Prop} {s s' : Matcher}

/-- **A round loses no match.** -/
theorem Decides.round (h : Decides goal s) (hr : globRound s = .inl s') : Decides goal s' := by
  cases ht : s.text with
  | nil =>
    rw [globRound, ht] at hr
    cases hr
  | cons ch r =>
    rcases globRound_cases ht with ⟨behind, hi, hp, -⟩
      | ⟨next, hi, ⟨as, hp, ha⟩, -⟩
      | ⟨hm, ⟨behind, t, hst, hi⟩ | ⟨-, hin⟩⟩
    · obtain rfl := Sum.inl.inj (hi.symm.trans hr)
      refine ⟨h.goal_iff.trans ?_, ?_⟩
      · -- what the old star would find later, the new one finds
        have ho : (∃ behind t, s.star = some (behind, t) ∧ Later (piecesOf behind) t)
            → Matches (piecesOf s.pattern) s.text := by
          rintro ⟨old, t, hst, hl⟩
          have hs := h.since old t hst
          rw [hp] at hs ⊢
          exact hs.matches_star hl
        rw [or_iff_left_of_imp ho, hp, matches_star_iff]
        simp only [Option.some.injEq, Prod.mk.injEq, exists_and_left, and_assoc, exists_eq_left']
      · rintro _ _ ⟨⟩
        exact since_self
    · obtain rfl := Sum.inl.inj (hi.symm.trans hr)
      refine ⟨h.goal_iff.trans ?_, ?_⟩
      · rw [hp, ht, matches_one, and_iff_right ha]
      · intro old t hst
        have hs := h.since old t hst
        rw [hp, ht] at hs
        exact hs.one
    · obtain rfl := Sum.inl.inj (hi.symm.trans hr)
      refine ⟨h.goal_iff.trans ?_, ?_⟩
      · rw [ht, or_iff_right (hm r)]
        cases t with
        | nil =>
          obtain ⟨mid, se, -, -, hn, -⟩ := h.since behind [] hst
          rw [ht] at hn
          exact absurd hn.symm (List.append_ne_nil_of_right_ne_nil _ (List.cons_ne_nil _ _))
        | cons c t =>
          simp only [hst, Option.some.injEq, Prod.mk.injEq, and_assoc, exists_and_left,
            exists_eq_left', List.tail_cons, later_cons]
      · rintro _ _ ⟨⟩
        exact since_self
    · rw [hin] at hr
      cases hr

/-- Stars at the end match the empty text. -/
theorem matches_nil_iff (pattern : List Char) :
    (pattern.dropWhile (· = '*')).isEmpty = true ↔ Matches (piecesOf pattern) [] := by
  induction pattern with
  | nil =>
    rw [piecesOf]
    exact iff_of_true rfl rfl
  | cons c r ih =>
    by_cases hs : c = '*'
    · subst hs
      have hd : ('*' :: r).dropWhile (· = '*') = r.dropWhile (· = '*') := rfl
      rw [hd, ih, piecesOf, if_pos rfl, matches_star_iff]
      refine (or_iff_left ?_).symm
      rintro ⟨l, -, hlt, -⟩
      exact Nat.not_lt_zero _ hlt
    · rw [List.dropWhile_cons_of_neg (by simpa using hs)]
      refine iff_of_false Bool.false_ne_true ?_
      rw [piecesOf, if_neg hs]
      -- every other piece wants a character
      split
      · rintro ⟨d, l, heq, -⟩
        cases heq
      split
      · split
        · rintro ⟨d, l, heq, -⟩
          cases heq
        · rintro ⟨d, l, heq, -⟩
          cases heq
      · rintro ⟨d, l, heq, -⟩
        cases heq

/-- What a round that ends says. -/
theorem Decides.result {r : Bool} (h : Decides goal s) (hr : globRound s = .inr r) :
    r = true ↔ goal := by
  rw [h.goal_iff]
  cases ht : s.text with
  | nil =>
    rw [globRound, ht] at hr
    obtain rfl := Sum.inr.inj hr
    rw [matches_nil_iff, or_iff_left]
    rintro ⟨behind, t, hs, hl⟩
    have hsi := h.since behind t hs
    rw [ht] at hsi
    exact hsi.not_later hl
  | cons ch re =>
    rcases globRound_cases ht with ⟨behind, hi, -⟩ | ⟨next, hi, -⟩
      | ⟨hm, ⟨behind, t, -, hi⟩ | ⟨hs, hin⟩⟩
    · rw [hi] at hr
      cases hr
    · rw [hi] at hr
      cases hr
    · rw [hi] at hr
      cases hr
    · obtain rfl := Sum.inr.inj (hin.symm.trans hr)
      refine iff_of_false Bool.false_ne_true ?_
      rintro (hma | ⟨behind, t, hso, -⟩)
      · exact hm re hma
      · rw [hs] at hso
        cases hso

/-- **The glob matcher is its definition.**  For every pattern and text the loop ends, and its
result is true exactly when the text is in the language of the pattern. -/
theorem recall_glob_match_decides (pattern text : String) :
    (∃ rounds, iterate globRound rounds (.start pattern.toList text.toList)
        = some (recallGlobMatch pattern text))
      ∧ (recallGlobMatch pattern text = true ↔ InLanguage pattern text) := by
  refine ⟨⟨_, (globLoop pattern.toList text.toList).iterate_eq_run (within_start _ _)⟩, ?_⟩
  refine (globLoop pattern.toList text.toList).run_induction
      (P := Decides (InLanguage pattern text))
    (Q := fun r => r = true ↔ InLanguage pattern text) (fun s s' _ h hr => h.round hr)
    (fun s r _ h hr => h.result hr) _ _ ⟨?_, nofun⟩
  refine (or_iff_left ?_).symm
  rintro ⟨behind, t, hs, -⟩
  cases hs

example : recallGlobMatch "src/*[!x-z].r?" "src/a/b.rs" = true := by decide +kernel

end RecallGlob
