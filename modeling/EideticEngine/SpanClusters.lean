/-
# Replacing spans of a text

Spans are sorted by their starts and may overlap.  One pass over them replaces what they cover: it
copies up to a span that starts at or after what is consumed, puts the text of its label there, and
consumes to the farthest end.  So each cluster of overlapping spans is replaced once, and what no
span covers is kept.
-/
import Mathlib

namespace SpanClusters

variable {ι β : Type*}

structure Span (ι : Type*) where
  start : ℕ
  stop : ℕ
  label : ι
  deriving DecidableEq

/-- The positions of a span. -/
def Span.Covers (span : Span ι) (i : ℕ) : Prop := span.start ≤ i ∧ i < span.stop

/-- Spans by their starts, none turned around. -/
structure Sorted (spans : List (Span ι)) : Prop where
  starts : spans.Pairwise fun a b => a.start ≤ b.start
  le : ∀ span ∈ spans, span.start ≤ span.stop

theorem Sorted.tail {span : Span ι} {spans : List (Span ι)} (h : Sorted (span :: spans)) :
    Sorted spans :=
  ⟨(List.pairwise_cons.mp h.starts).2, fun other ho => h.le other (List.mem_cons_of_mem _ ho)⟩

/-! ## Clusters -/

/-- Spans that overlap what is open become part of it. -/
def clustersFrom («open» : Span ι) : List (Span ι) → List (Span ι)
  | [] => [«open»]
  | span :: spans =>
    if «open».stop ≤ span.start then «open» :: clustersFrom span spans
    else clustersFrom { «open» with stop := max «open».stop span.stop } spans

def clusters : List (Span ι) → List (Span ι)
  | [] => []
  | span :: spans => clustersFrom span spans

section

variable {span : Span ι} {spans : List (Span ι)} {i : ℕ}

theorem sorted_open (h : Sorted (span :: spans)) {next : Span ι} {r : List (Span ι)}
    (hs : spans = next :: r) :
    Sorted ({ span with stop := max span.stop next.stop } :: r) := by
  subst hs
  obtain ⟨hst, hr⟩ := List.pairwise_cons.mp h.starts
  refine ⟨List.pairwise_cons.mpr ⟨?_, (List.pairwise_cons.mp hr).2⟩, ?_⟩
  · exact fun other ho => hst other (List.mem_cons_of_mem _ ho)
  · intro other ho
    rcases List.mem_cons.mp ho with rfl | ho
    · exact (h.le span List.mem_cons_self).trans (le_max_left _ _)
    · exact h.le other (List.mem_cons_of_mem _ (List.mem_cons_of_mem _ ho))

/-- **Clusters cover what the spans cover.** -/
theorem covers_clustersFrom (h : Sorted (span :: spans)) :
    (∃ c ∈ clustersFrom span spans, c.Covers i) ↔ ∃ other ∈ span :: spans, other.Covers i := by
  induction spans generalizing span with
  | nil => rfl
  | cons next r ih =>
    rw [clustersFrom]
    split
    · rename_i ha
      simp only [List.mem_cons, exists_eq_or_imp] at ih ⊢
      rw [ih h.tail]
    · rename_i ho
      rw [ih (sorted_open h rfl)]
      simp only [List.mem_cons, exists_eq_or_imp]
      rw [← or_assoc]
      refine or_congr_left ?_
      have hs := (List.pairwise_cons.mp h.starts).1 next List.mem_cons_self
      simp only [Span.Covers]
      omega

/-- Where the clusters start. -/
theorem start_le_of_mem_clustersFrom (h : Sorted (span :: spans)) :
    ∀ c ∈ clustersFrom span spans, span.start ≤ c.start ∧ c.start ≤ c.stop := by
  induction spans generalizing span with
  | nil =>
    intro c hc
    rw [List.mem_singleton.mp hc]
    exact ⟨le_refl _, h.le span List.mem_cons_self⟩
  | cons next r ih =>
    intro c hc
    rw [clustersFrom] at hc
    split at hc
    · rcases List.mem_cons.mp hc with rfl | hc
      · exact ⟨le_refl _, h.le _ List.mem_cons_self⟩
      · have hs := (List.pairwise_cons.mp h.starts).1 next List.mem_cons_self
        obtain ⟨hle, hsp⟩ := ih h.tail c hc
        exact ⟨hs.trans hle, hsp⟩
    · exact ih (sorted_open h rfl) c hc

/-- Clusters come one after the other. -/
theorem pairwise_clustersFrom (h : Sorted (span :: spans)) :
    (clustersFrom span spans).Pairwise fun a b => a.stop ≤ b.start := by
  induction spans generalizing span with
  | nil => exact List.pairwise_singleton _ _
  | cons next r ih =>
    rw [clustersFrom]
    split
    · rename_i ha
      refine List.pairwise_cons.mpr ⟨fun c hc => ?_, ih h.tail⟩
      exact ha.trans (start_le_of_mem_clustersFrom h.tail c hc).1
    · exact ih (sorted_open h rfl)

/-- A cluster starts as one of the spans and has its label. -/
theorem label_of_mem_clustersFrom : ∀ c ∈ clustersFrom span spans, ∃ other ∈ span :: spans,
      c.start = other.start ∧ c.label = other.label := by
  induction spans generalizing span with
  | nil =>
    intro c hc
    exact ⟨c, hc, rfl, rfl⟩
  | cons next r ih =>
    intro c hc
    rw [clustersFrom] at hc
    split at hc
    · rcases List.mem_cons.mp hc with rfl | hc
      · exact ⟨c, List.mem_cons_self, rfl, rfl⟩
      · obtain ⟨other, ho, hb⟩ := ih c hc
        exact ⟨other, List.mem_cons_of_mem _ ho, hb⟩
    · obtain ⟨other, ho, hb⟩ := ih c hc
      rcases List.mem_cons.mp ho with rfl | ho
      · exact ⟨span, List.mem_cons_self, hb⟩
      · exact ⟨other, List.mem_cons_of_mem _ (List.mem_cons_of_mem _ ho), hb⟩

end

/-! ## Replacement -/

/-- The part of a text between two positions. -/
def between (text : List β) (start stop : ℕ) : List β := (text.drop start).take (stop - start)

section

variable (placeholder : ι → List β) (text : List β)

/-- The text from a position on with each of the spans replaced. -/
def replaceFrom (position : ℕ) : List (Span ι) → List β
  | [] => text.drop position
  | span :: spans =>
    between text position span.start ++ placeholder span.label ++ replaceFrom span.stop spans

/-- One pass over sorted spans. -/
def pass (consumed : ℕ) : List (Span ι) → List β
  | [] => text.drop consumed
  | span :: spans =>
    (if consumed ≤ span.start then between text consumed span.start ++ placeholder span.label
      else []) ++ pass (max consumed span.stop) spans

theorem pass_open {span : Span ι} {spans : List (Span ι)} (h : Sorted (span :: spans))
    (position : ℕ) :
    between text position span.start ++ placeholder span.label
        ++ pass placeholder text span.stop spans
      = replaceFrom placeholder text position (clustersFrom span spans) := by
  induction spans generalizing span position with
  | nil => rfl
  | cons next r ih =>
    have hn := h.tail.le next List.mem_cons_self
    rw [pass, clustersFrom]
    split
    · rename_i ha
      rw [replaceFrom, ← ih h.tail, max_eq_right (ha.trans hn)]
    · rw [List.nil_append]
      exact ih (sorted_open h rfl) position

/-- **One pass replaces the clusters.** -/
theorem pass_eq {spans : List (Span ι)} (h : Sorted spans) :
    pass placeholder text 0 spans = replaceFrom placeholder text 0 (clusters spans) := by
  cases spans with
  | nil => rfl
  | cons span spans =>
    rw [pass, if_pos (Nat.zero_le _), Nat.zero_max]
    exact pass_open placeholder text h 0

end

end SpanClusters
