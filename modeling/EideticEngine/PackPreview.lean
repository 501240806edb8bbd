/-
# Token estimates and truncated previews (`src/pack/mod.rs`)

A preview is a proper prefix of the words of a content, with an ellipsis.
`truncated_preview_content` searches for the longest one whose estimate fits the limit, among
those that a bound on the number of words leaves.  The search needs the estimate to grow with
the words; the bound is sound for the character heuristic, and for a tokenizer to which every
word and the ellipsis cost a token.
-/
import EideticEngine.PackLod
import EideticEngine.TextScan

namespace RustText

/-! ## Words -/

/-- A word: not empty and without blanks. -/
def IsWord (w : String) : Prop := w.toList ≠ [] ∧ ∀ c ∈ w.toList, isWhitespace c = false

theorem isWord_of_mem {w s : String} (h : w ∈ splitWhitespace s) : IsWord w := by
  unfold splitWhitespace at h
  obtain ⟨p, hp, rfl⟩ := List.mem_map.mp h
  obtain ⟨hm, hne⟩ := List.mem_filter.mp hp
  unfold IsWord
  rw [String.toList_ofList]
  exact ⟨by simpa using hne, eq_false_of_mem_splitOnP _ hm⟩

theorem joinSpace_concat {words : List String} (h : words ≠ []) (w : String) :
    joinSpace (words ++ [w]) = joinSpace words ++ " " ++ w := by
  unfold joinSpace
  rw [String.intercalate_append_of_ne_nil h (by simp), String.intercalate_singleton]

/-- Joined words start with the first of them. -/
theorem head?_joinSpace {w : String} {words : List String} (hw : IsWord w) :
    (joinSpace (w :: words)).toList.head? = w.toList.head? := by
  unfold joinSpace
  cases words with
  | nil => rw [String.intercalate_singleton]
  | cons w' words =>
    rw [String.intercalate_cons_cons, String.toList_append, String.toList_append,
      List.append_assoc, List.head?_append_of_ne_nil _ hw.1]

end RustText

namespace Pack

open RustText

variable {F : Type}

/-! ## Estimates -/

/-- `estimate_character_heuristic_tokens`. -/
def estimateCharacterHeuristicTokens (charCount : ℕ) : ℕ :=
  if charCount = 0 then 0
  else min (max ((min (charCount * 2) u64Max + 6) / 7) 1) u32Max

/-- `estimate_word_heuristic_tokens`. -/
def estimateWordHeuristicTokens (wordCount : ℕ) : ℕ :=
  if wordCount = 0 then 0
  else min (max ((min (wordCount * 13) u64Max + 9) / 10) 1) u32Max

/-- `TokenEstimationStrategy`. -/
inductive TokenEstimationStrategy where
  | tiktokenCl100kBase
  | characterHeuristic
  | wordHeuristic
  deriving DecidableEq

/-- `estimate_tokens`, with the number of tokens that the encoder finds, if it is there. -/
def estimateTokens (encoder : Option (String → ℕ)) (content : String) :
    TokenEstimationStrategy → ℕ := fun strategy =>
  let trimmed := trim content
  if trimmed.isEmpty then 0
  else
    match strategy with
    | .tiktokenCl100kBase =>
      match encoder with
      | some count => max (min (count trimmed) u32Max) 1
      | none => estimateCharacterHeuristicTokens trimmed.length
    | .characterHeuristic => estimateCharacterHeuristicTokens trimmed.length
    | .wordHeuristic => estimateWordHeuristicTokens (splitWhitespace trimmed).length

/-- `estimate_tokens_default`. -/
def estimateTokensDefault (encoder : Option (String → ℕ)) (content : String) : ℕ :=
  estimateTokens encoder content .tiktokenCl100kBase

/-- More characters are never fewer tokens. -/
theorem estimateCharacterHeuristicTokens_mono : Monotone estimateCharacterHeuristicTokens := by
  intro a b h
  unfold estimateCharacterHeuristicTokens
  split
  · exact Nat.zero_le _
  · rw [if_neg (by omega)]
    have hm : min (a * 2) u64Max ≤ min (b * 2) u64Max := by omega
    have hd := Nat.div_le_div_right (c := 7) (Nat.add_le_add_right hm 6)
    omega

/-- Text with `2 * words + 3` characters does not fit when the words exceed the bound. -/
theorem lt_estimate_of_bound {l words cc : ℕ} (hl : l < u32Max)
    (hwords : (l * 7 - 3 * 2) / (2 * 2) < words) (hc : 2 * words + 3 ≤ cc) :
    l < estimateCharacterHeuristicTokens cc := by
  unfold estimateCharacterHeuristicTokens
  rw [if_neg (by omega)]
  simp only [u32Max, u64Max] at hl ⊢
  omega

/-! ## Previews -/

/-- So many words and an ellipsis. -/
def previewText (words : List String) (count : ℕ) : String :=
  joinSpace (words.take count) ++ " ..."

section Previews

variable {words : List String}

/-- A preview of words is its own trimmed form. -/
theorem trim_previewText (hwords : ∀ w ∈ words, IsWord w) {count : ℕ} (hp : 1 ≤ count)
    (hlt : count < words.length) : trim (previewText words count) = previewText words count := by
  unfold previewText
  obtain ⟨w, r, hr⟩ := List.exists_cons_of_ne_nil (l := words.take count) (by
    intro hn
    have hl := congrArg List.length hn
    rw [List.length_take, List.length_nil] at hl
    omega)
  have hw : IsWord w := hwords w (List.mem_of_mem_take (hr ▸ List.mem_cons_self))
  have hh : (joinSpace (words.take count)).toList.head? = w.toList.head? := by
    rw [hr, head?_joinSpace hw]
  have hne : (joinSpace (words.take count)).toList ≠ [] := by
    intro hn
    rw [hn, eq_comm] at hh
    exact hw.1 (List.head?_eq_none_iff.mp hh)
  apply trim_eq_self
  · intro c hc
    rw [String.toList_append, List.head?_append_of_ne_nil _ hne, hh] at hc
    exact hw.2 c (List.mem_of_head? hc)
  · intro c hc
    rw [String.toList_append] at hc
    simp at hc
    subst hc
    decide

theorem previewText_isEmpty (count : ℕ) : (previewText words count).isEmpty = false := by
  unfold previewText
  rw [← Bool.not_eq_true, String.isEmpty_iff]
  intro h
  have hl := congrArg String.length h
  rw [String.length_append] at hl
  simp at hl

/-- One more word. -/
theorem take_succ_of_lt {α : Type*} {l : List α} {count : ℕ} (h : count < l.length) :
    ∃ x ∈ l, l.take (count + 1) = l.take count ++ [x] :=
  ⟨l[count], List.getElem_mem h, (List.take_concat_get' l count h).symm⟩

/-- Every word and its blank count two characters at least, the ellipsis three. -/
theorem length_previewText (hwords : ∀ w ∈ words, IsWord w) {count : ℕ} (hp : 1 ≤ count)
    (hle : count ≤ words.length) : 2 * count + 3 ≤ (previewText words count).length := by
  have hd : (" ...").length = 4 := by decide
  have hj : 2 * count ≤ (joinSpace (words.take count)).length + 1 := by
    induction count, hp using Nat.le_induction with
    | base =>
      have hlt : 0 < words.length := by omega
      obtain ⟨w, hw, ht⟩ := take_succ_of_lt hlt
      have hne := List.length_pos_of_ne_nil (hwords w hw).1
      rw [ht, List.take_zero, List.nil_append, joinSpace, String.intercalate_singleton]
      rw [String.length_toList] at hne
      omega
    | succ count hp ih =>
      have hlt : count < words.length := by omega
      obtain ⟨w, hw, ht⟩ := take_succ_of_lt hlt
      have hne := List.length_pos_of_ne_nil (hwords w hw).1
      have hn : words.take count ≠ [] := by
        rw [← List.length_pos_iff, List.length_take]
        omega
      have hb : (" ").length = 1 := by decide
      have ih := ih (by omega)
      rw [ht, joinSpace_concat hn, String.length_append, String.length_append, hb]
      rw [String.length_toList] at hne
      omega
  unfold previewText
  rw [String.length_append, hd]
  omega

/-- More words are more characters. -/
theorem length_previewText_mono {j k : ℕ} (hjk : j ≤ k) (hp : 1 ≤ j) (hle : k ≤ words.length) :
    (previewText words j).length ≤ (previewText words k).length := by
  induction k, hjk using Nat.le_induction with
  | base => exact Nat.le_refl _
  | succ k hjk ih =>
    have hlt : k < words.length := by omega
    obtain ⟨w, hw, ht⟩ := take_succ_of_lt hlt
    have hn : words.take k ≠ [] := by
      rw [← List.length_pos_iff, List.length_take]
      omega
    refine (ih (by omega)).trans ?_
    unfold previewText
    rw [ht, joinSpace_concat hn]
    simp only [String.length_append]
    omega

end Previews

/-! ## The search -/

/-- The prefixes of at most `last` words that fit. -/
def fittingPrefixes (estimate : String → ℕ) (words : List String) (limit last : ℕ) : Set ℕ :=
  {count | 1 ≤ count ∧ count ≤ last ∧ estimate (previewText words count) ≤ limit}

/-- The result is the preview of the longest prefix, or nothing where there is none. -/
def ChoosesLongest (prefixes : Set ℕ) (words : List String) : Option String → Prop
  | none => prefixes = ∅
  | some preview => ∃ count, IsGreatest prefixes count ∧ preview = previewText words count

/-- The estimate never decreases when words are appended. -/
def NeverDecreases (estimate : String → ℕ) (words : List String) : Prop :=
  ∀ j k, 1 ≤ j → j ≤ k → k < words.length →
    estimate (previewText words j) ≤ estimate (previewText words k)

/-- Where a search stands: the prefix just below `low` is the best one so far. -/
def BestBelow (estimate : String → ℕ) (words : List String) (limit low : ℕ)
    (best : Option String) : Prop :=
  (best = none ∧ low = 1) ∨ (best = some (previewText words (low - 1)) ∧ 2 ≤ low ∧
    estimate (previewText words (low - 1)) ≤ limit)

/-- When the ends have met, the best one so far is the result. -/
theorem BestBelow.choosesLongest {es : String → ℕ} {words : List String}
    {l la low hi : ℕ} {b : Option String} (h : BestBelow es words l low b)
    (hm : hi < low) (he : low ≤ hi + 1) (hh : hi ≤ la)
    (ha : ∀ count, hi < count → count ≤ la → l < es (previewText words count)) :
    ChoosesLongest (fittingPrefixes es words l la) words b := by
  have hb : ∀ count ∈ fittingPrefixes es words l la, count < low := by
    rintro count ⟨-, hle, hc⟩
    by_contra hlonger
    have := ha count (by omega) hle
    omega
  rcases h with ⟨rfl, rfl⟩ | ⟨rfl, ht, hf⟩
  · refine Set.eq_empty_of_forall_notMem ?_
    intro count hc
    have hlt := hb count hc
    have hp := hc.1
    omega
  · refine ⟨low - 1, ⟨⟨by omega, by omega, hf⟩, ?_⟩, rfl⟩
    intro count hc
    exact Nat.le_sub_one_of_lt (hb count hc)

/-- **The search finds the longest prefix that fits.** -/
theorem previewSearch_spec {env : PackEnv F} {words : List String} {l la : ℕ}
    (hm : NeverDecreases env.estimateTokensDefault words) (hlas : la < words.length)
    {f low h tc : ℕ} {b : Option String} (hfu : h < low + f)
    (hl : 1 ≤ low) (he : low ≤ h + 1) (hh : h ≤ la)
    (ht : low ≤ h → low ≤ tc ∧ tc ≤ h)
    (ha : ∀ count, h < count → count ≤ la → l < env.estimateTokensDefault (previewText words count))
    (hb : BestBelow env.estimateTokensDefault words l low b) :
    ChoosesLongest (fittingPrefixes env.estimateTokensDefault words l la) words
      (previewSearch env words l f low h tc b) := by
  induction f generalizing low h tc b with
  | zero => exact hb.choosesLongest (by omega) he hh ha
  | succ f ih =>
    unfold previewSearch
    split
    · rename_i hle
      obtain ⟨hlo, hta⟩ := ht hle
      change ChoosesLongest _ _ (if env.estimateTokensDefault (previewText words tc) ≤ l
        then _ else _)
      split
      · rename_i hf
        exact ih (by omega) (by omega) (by omega) hh (by omega) ha (.inr ⟨rfl, by omega, hf⟩)
      · rename_i hla
        refine ih (by omega) hl (by omega) (by omega) (by omega) ?_ hb
        -- what is longer than a preview that does not fit does not fit
        intro count hc hle
        have := hm tc count (by omega) (by omega) (by omega)
        omega
    · exact hb.choosesLongest (by omega) he hh ha

/-- The longest prefix among those that the bound leaves. -/
theorem truncatedPreviewContent_within_bound (env : PackEnv F) (c : String) (l : ℕ)
    (hm : NeverDecreases env.estimateTokensDefault (splitWhitespace c)) :
    ChoosesLongest (fittingPrefixes env.estimateTokensDefault (splitWhitespace c) l
        (min ((splitWhitespace c).length - 1) (maxPreviewWordCount l env.tokenizerAvailable)))
      (splitWhitespace c) (truncatedPreviewContent env c l) := by
  unfold truncatedPreviewContent
  split
  · rename_i hz
    have hb : maxPreviewWordCount l env.tokenizerAvailable = 0 := by
      rw [hz]
      cases env.tokenizerAvailable <;> decide
    refine Set.eq_empty_of_forall_notMem ?_
    rintro count ⟨hp, hle, -⟩
    omega
  · simp only
    split
    · refine Set.eq_empty_of_forall_notMem ?_
      rintro count ⟨hp, hle, -⟩
      omega
    · exact previewSearch_spec hm (by omega) (by omega) (Nat.le_refl 1) (by omega)
        (Nat.le_refl _) (by omega) (by omega) (.inl ⟨rfl, rfl⟩)

/-! ## The bound -/

/-- The bound on the number of words discards only prefixes that do not fit. -/
def BoundSound (estimate : String → ℕ) (words : List String) (limit bound : ℕ) : Prop :=
  ∀ count, bound < count → count < words.length → limit < estimate (previewText words count)

/-- A sound bound leaves every proper prefix that fits. -/
theorem BoundSound.fittingPrefixes_eq {es : String → ℕ} {words : List String}
    {l bound : ℕ} (h : BoundSound es words l bound) :
    fittingPrefixes es words l (min (words.length - 1) bound)
      = fittingPrefixes es words l (words.length - 1) := by
  ext count
  constructor
  · rintro ⟨hp, hle, hf⟩
    exact ⟨hp, by omega, hf⟩
  · rintro ⟨hp, hle, hf⟩
    refine ⟨hp, ?_, hf⟩
    by_contra hcut
    have := h count (by omega) (by omega)
    omega

/-- What the program relies on in the tokenizer: a word never makes a preview cheaper, and every
word and the ellipsis cost a token. -/
structure Tokenizes (count : String → ℕ) : Prop where
  never_decreases : ∀ words : List String, (∀ w ∈ words, IsWord w) →
    NeverDecreases count words
  one_per_word : ∀ words : List String, (∀ w ∈ words, IsWord w) → ∀ k, 1 ≤ k →
    k < words.length → k + 1 ≤ count (previewText words k)

section Default

variable {words : List String} (hwords : ∀ w ∈ words, IsWord w)
include hwords

/-- The default estimate of a preview. -/
theorem estimateTokensDefault_previewText (en : Option (String → ℕ)) {k : ℕ} (hp : 1 ≤ k)
    (hlt : k < words.length) :
    estimateTokensDefault en (previewText words k) = match en with
        | some count => max (min (count (previewText words k)) u32Max) 1
        | none => estimateCharacterHeuristicTokens (previewText words k).length := by
  unfold estimateTokensDefault estimateTokens
  rw [trim_previewText hwords hp hlt]
  simp only [previewText_isEmpty, Bool.false_eq_true, if_false]

theorem neverDecreases_estimateTokensDefault (en : Option (String → ℕ))
    (he : ∀ count ∈ en, Tokenizes count) :
    NeverDecreases (estimateTokensDefault en) words := by
  intro j k hp hjk hlt
  rw [estimateTokensDefault_previewText hwords en hp (by omega),
    estimateTokensDefault_previewText hwords en (by omega) hlt]
  cases en with
  | none =>
    exact estimateCharacterHeuristicTokens_mono (length_previewText_mono hjk hp hlt.le)
  | some count =>
    have hle := (he count rfl).never_decreases words hwords j k hp hjk hlt
    simp only
    omega

/-- **The bound is sound for the character heuristic, and for the tokenizer.** -/
theorem boundSound_estimateTokensDefault (en : Option (String → ℕ))
    (he : ∀ count ∈ en, Tokenizes count) {l : ℕ} (hli : l ≤ u32Max)
    (hl : words.length ≤ u64Max) :
    BoundSound (estimateTokensDefault en) words l (maxPreviewWordCount l en.isSome) := by
  intro k hc hlt
  unfold maxPreviewWordCount at hc
  split at hc
  · omega
  · rename_i hne
    rw [estimateTokensDefault_previewText hwords en (by omega) hlt]
    have hs : u32Max * 7 < u64Max := by decide
    cases en with
    | none =>
      simp only [Option.isSome_none, Bool.false_eq_true, if_false] at hc ⊢
      refine lt_estimate_of_bound (by omega) ?_ (length_previewText hwords (by omega) hlt.le)
      omega
    | some count =>
      have hco := (he count rfl).one_per_word words hwords k (by omega) hlt
      simp only [Option.isSome_some, if_true] at hc ⊢
      omega

end Default

/-! ## The longest preview -/

/-- The environment with the program's own estimates. -/
def PackEnv.withEncoder (env : PackEnv F) (encoder : Option (String → ℕ)) : PackEnv F :=
  { env with
    estimateTokensDefault := Pack.estimateTokensDefault encoder
    tokenizerAvailable := encoder.isSome }

theorem PackEnv.withEncoder_estimateTokensDefault (env : PackEnv F) (en : Option (String → ℕ)) :
    (env.withEncoder en).estimateTokensDefault = Pack.estimateTokensDefault en := by
  simp only [PackEnv.withEncoder]

theorem PackEnv.withEncoder_tokenizerAvailable (env : PackEnv F) (en : Option (String → ℕ)) :
    (env.withEncoder en).tokenizerAvailable = en.isSome := rfl

/-- **Truncated previews are as long as possible.**  For any estimate that never decreases the
result is the longest prefix that the bound leaves; under the program's own estimates it is the
longest proper prefix, since the bound discards only prefixes that do not fit. -/
theorem truncated_preview_longest (env : PackEnv F) (encoder : Option (String → ℕ))
    (hencoder : ∀ count ∈ encoder, Tokenizes count) (content : String) (limit : ℕ)
    (hlimit : limit ≤ u32Max) (hlength : (splitWhitespace content).length ≤ u64Max) :
    (NeverDecreases env.estimateTokensDefault (splitWhitespace content) →
      ChoosesLongest (fittingPrefixes env.estimateTokensDefault (splitWhitespace content) limit
          (min ((splitWhitespace content).length - 1)
            (maxPreviewWordCount limit env.tokenizerAvailable)))
        (splitWhitespace content) (truncatedPreviewContent env content limit)) ∧
    BoundSound (estimateTokensDefault encoder) (splitWhitespace content) limit
      (maxPreviewWordCount limit encoder.isSome) ∧
    ChoosesLongest (fittingPrefixes (estimateTokensDefault encoder) (splitWhitespace content) limit
        ((splitWhitespace content).length - 1))
      (splitWhitespace content)
      (truncatedPreviewContent (env.withEncoder encoder) content limit) := by
  have hwords : ∀ w ∈ splitWhitespace content, IsWord w := fun _ => isWord_of_mem
  have hs := boundSound_estimateTokensDefault hwords encoder hencoder hlimit hlength
  have hm := neverDecreases_estimateTokensDefault hwords encoder hencoder
  have hl := truncatedPreviewContent_within_bound (env.withEncoder encoder) content limit
  rw [PackEnv.withEncoder_estimateTokensDefault, PackEnv.withEncoder_tokenizerAvailable,
    hs.fittingPrefixes_eq] at hl
  exact ⟨truncatedPreviewContent_within_bound env content limit, hs, hl hm⟩

/-- Every text costs one token. -/
def constantEnv : PackEnv ℚ :=
  ⟨fun _ => 1, true, fun text => (text, []), fun _ _ => 0, fun _ _ => 0⟩

/-- That an estimate never decreases is not enough: with a tokenizer at hand and one token to
spend, the bound leaves no prefix, although under a constant estimate every prefix fits. -/
theorem constant_estimate_misses_prefix :
    NeverDecreases constantEnv.estimateTokensDefault (splitWhitespace "alpha beta gamma") ∧
      truncatedPreviewContent constantEnv "alpha beta gamma" 1 = none ∧
      ¬ ChoosesLongest (fittingPrefixes constantEnv.estimateTokensDefault
          (splitWhitespace "alpha beta gamma") 1
          ((splitWhitespace "alpha beta gamma").length - 1))
        (splitWhitespace "alpha beta gamma")
        (truncatedPreviewContent constantEnv "alpha beta gamma" 1) := by
  have hnone : truncatedPreviewContent constantEnv "alpha beta gamma" 1 = none := by
    decide +kernel
  refine ⟨fun _ _ _ _ _ => le_refl _, hnone, ?_⟩
  rw [hnone]
  intro hempty
  have hfits : 1 ∈ fittingPrefixes constantEnv.estimateTokensDefault
      (splitWhitespace "alpha beta gamma") 1
      ((splitWhitespace "alpha beta gamma").length - 1) :=
    ⟨le_refl _, by decide, le_refl _⟩
  rw [hempty] at hfits
  exact hfits

/-- A tokenizer to which every word is a token. -/
def wordCounter (text : String) : ℕ := (splitWhitespace text).length

/-- The words of a preview are those it was made of, and the ellipsis. -/
theorem splitWhitespace_previewText {words : List String} (hwords : ∀ w ∈ words, IsWord w)
    (hne : words ≠ []) : splitWhitespace (joinSpace words ++ " ...") = words ++ ["..."] := by
  have hs : ∀ (w : String) (r : List Char), IsWord w →
      splitWhitespace (w ++ String.ofList (' ' :: r)) = w :: splitWhitespace (String.ofList r) := by
    intro w r hw
    unfold splitWhitespace
    rw [String.toList_append, String.toList_ofList, String.toList_ofList,
      List.splitOnP_append_cons_of_forall_mem hw.2 ' ' (by decide),
      List.filter_cons_of_pos (by simpa using hw.1), List.map_cons, String.ofList_toList]
  induction words with
  | nil => exact absurd rfl hne
  | cons w words ih =>
    have hw := hwords w List.mem_cons_self
    cases words with
    | nil =>
      rw [joinSpace, String.intercalate_singleton]
      have hr : splitWhitespace (String.ofList ['.', '.', '.']) = ["..."] := by decide
      exact (hs w ['.', '.', '.'] hw).trans (by rw [hr]; rfl)
    | cons w' words =>
      have ih := ih (fun x hx => hwords x (List.mem_cons_of_mem _ hx)) (by simp)
      have hj : joinSpace (w :: w' :: words) ++ " ..."
          = w ++ String.ofList (' ' :: (joinSpace (w' :: words) ++ " ...").toList) := by
        unfold joinSpace
        rw [String.intercalate_cons_cons, ← String.toList_inj]
        simp
      rw [hj, hs w _ hw, String.ofList_toList, ih]
      rfl

theorem tokenizes_wordCounter : Tokenizes wordCounter := by
  have hc : ∀ words : List String, (∀ w ∈ words, IsWord w) → ∀ k, 1 ≤ k →
      k < words.length → wordCounter (previewText words k) = k + 1 := by
    intro words hwords k hp hlt
    have ht : ∀ w ∈ words.take k, IsWord w := fun w hw => hwords w (List.mem_of_mem_take hw)
    have hl : (words.take k).length = k := by
      rw [List.length_take]
      omega
    unfold wordCounter previewText
    rw [splitWhitespace_previewText ht (List.length_pos_iff.mp (by omega)), List.length_append,
      hl, List.length_singleton]
  constructor
  · intro words hwords j k hp hjk hlt
    rw [hc words hwords j hp (by omega), hc words hwords k (by omega) hlt]
    omega
  · intro words hwords k hp hlt
    exact (hc words hwords k hp hlt).ge

/-- Three of five words fit in four tokens. -/
theorem truncated_preview_longest_three :
    ChoosesLongest (fittingPrefixes (estimateTokensDefault (some wordCounter))
        (splitWhitespace "alpha beta gamma delta epsilon") 4
        ((splitWhitespace "alpha beta gamma delta epsilon").length - 1))
      (splitWhitespace "alpha beta gamma delta epsilon") (some "alpha beta gamma ...") := by
  have hp : truncatedPreviewContent (constantEnv.withEncoder (some wordCounter))
      "alpha beta gamma delta epsilon" 4 = some "alpha beta gamma ..." := by
    decide +kernel
  rw [← hp]
  refine (truncated_preview_longest _ _ ?_ _ _ (by decide) (by decide +kernel)).2.2
  rintro count ⟨⟩
  exact tokenizes_wordCounter

end Pack
