/-
# An index of terms

Documents are filed under each of their terms.  The documents of a term are those that have
it, in the order in which they came, and counting the admitted documents over the terms of a
query counts the terms that each shares with the query.
-/
import EideticEngine.OrderedMap

namespace TermIndex

open Std (ExtTreeMap TransCmp LawfulEqCmp)

variable {κ ι : Type*} {cmp : κ → κ → Ordering}

/-! ## Filing -/

/-- File a document under a term. -/
def file (index : ExtTreeMap κ (List ι) cmp) [TransCmp cmp] (document : ι) (term : κ) :
    ExtTreeMap κ (List ι) cmp :=
  index.insert term (index[term]?.getD [] ++ [document])

/-- File every document under each of its terms. -/
def build [TransCmp cmp] (terms : ι → List κ) (documents : List ι) : ExtTreeMap κ (List ι) cmp :=
  documents.foldl (fun index document =>
    (terms document).foldl (fun index term => file index document term) index) ∅

section Filing

variable [TransCmp cmp] [LawfulEqCmp cmp] [DecidableEq κ]

/-- Filing one document adds it under each of its terms. -/
theorem getD_foldl_file (index : ExtTreeMap κ (List ι) cmp) (d : ι) {ts : List κ}
    (hn : ts.Nodup) (t : κ) :
    (ts.foldl (fun index t => file index d t) index)[t]?.getD []
      = index[t]?.getD [] ++ if t ∈ ts then [d] else [] := by
  induction ts generalizing index with
  | nil => simp
  | cons head ts ih =>
    obtain ⟨hh, ht⟩ := List.nodup_cons.mp hn
    rw [List.foldl_cons, ih _ ht, file, ExtTreeMap.getElem?_insert_ite]
    by_cases heq : head = t
    · subst heq
      simp [hh]
    · simp [heq, Ne.symm heq]

/-- **The documents of a term.** -/
theorem getD_build {ts : ι → List κ} (hn : ∀ d, (ts d).Nodup) (ds : List ι) (t : κ) :
    (build ts ds : ExtTreeMap κ (List ι) cmp)[t]?.getD [] = ds.filter fun d => t ∈ ts d := by
  unfold build
  induction ds using List.reverseRecOn with
  | nil => simp
  | append_singleton ds d ih =>
    rw [List.foldl_append, List.foldl_cons, List.foldl_nil,
      getD_foldl_file _ _ (hn d), ih, List.filter_append]
    by_cases hm : t ∈ ts d <;> simp [hm]

end Filing

/-! ## Counting -/

section Counting

variable {cmpId : ι → ι → Ordering} [TransCmp cmpId] {admits : ι → Prop} [DecidablePred admits]

/-- Count the admitted ones of some documents. -/
def tally (admits : ι → Prop) [DecidablePred admits] (counts : ExtTreeMap ι ℕ cmpId)
    (documents : List ι) : ExtTreeMap ι ℕ cmpId :=
  documents.foldl (fun counts document =>
    if admits document then counts.insert document (counts[document]?.getD 0 + 1) else counts)
    counts

/-- A count, where a document that was not counted has none. -/
def countOf (n : ℕ) : Option ℕ := if n = 0 then none else some n

theorem getD_countOf (n : ℕ) : (countOf n).getD 0 = n := by
  unfold countOf
  split
  · rename_i hz
    rw [hz]
    rfl
  · rfl

theorem countOf_eq_some_iff {n m : ℕ} : countOf n = some m ↔ n = m ∧ n ≠ 0 := by
  unfold countOf
  split
  · rename_i hz
    simp [hz]
  · rename_i hne
    simp [hne]

variable [LawfulEqCmp cmpId] [DecidableEq ι]

theorem getElem?_tally {cs : ExtTreeMap ι ℕ cmpId} {d : ι} {n : ℕ}
    (hc : cs[d]? = countOf n) (ds : List ι) :
    (tally admits cs ds)[d]? = countOf (n + if admits d then ds.count d else 0) := by
  induction ds using List.reverseRecOn with
  | nil => simpa [tally] using hc
  | append_singleton ds head ih =>
    unfold tally at ih ⊢
    rw [List.foldl_append, List.foldl_cons, List.foldl_nil, List.count_append, List.count_singleton]
    by_cases ha : admits head
    · rw [if_pos ha, ExtTreeMap.getElem?_insert_ite]
      by_cases heq : head = d
      · subst heq
        rw [if_pos rfl, ih, getD_countOf, if_pos ha, if_pos ha]
        simp [countOf, Nat.add_assoc]
      · rw [if_neg heq, ih]
        simp [heq]
    · rw [if_neg ha, ih]
      by_cases heq : head = d
      · subst heq
        rw [if_neg ha, if_neg ha]
      · simp [heq]

/-- **The counts over several lists.** -/
theorem getElem?_foldl_tally (ls : List (List ι)) (d : ι) :
    (ls.foldl (tally admits) (∅ : ExtTreeMap ι ℕ cmpId))[d]?
      = countOf (if admits d then ls.flatten.count d else 0) := by
  induction ls using List.reverseRecOn with
  | nil => simp [countOf]
  | append_singleton ls ds ih =>
    rw [List.foldl_append, List.foldl_cons, List.foldl_nil, getElem?_tally ih]
    by_cases ha : admits d <;> simp [ha]

end Counting

end TermIndex
