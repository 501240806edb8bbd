/-
# Little-endian integers in byte strings

`leBytes w n` is the little-endian encoding of `n` in `w` bytes (of `n` modulo
`256 ^ w`, as a narrowing cast would take it), and `leValue` reads any byte string
back.  `List.slice` is the piece of a list that starts at an offset; its lemmas say
what a slice of a concatenation is, which is how a field of a frame is found.
-/
import Mathlib.Tactic

/-- The little-endian encoding in `w` bytes. -/
def leBytes : ℕ → ℕ → List UInt8
  | 0, _ => []
  | w + 1, n => UInt8.ofNat n :: leBytes w (n / 256)

/-- The number that a byte string encodes. -/
def leValue : List UInt8 → ℕ
  | [] => 0
  | b :: l => b.toNat + 256 * leValue l

@[simp] theorem length_leBytes (w n : ℕ) : (leBytes w n).length = w := by
  induction w generalizing n with
  | zero => rfl
  | succ w ih => simp [leBytes, ih]

/-- Reading an encoding back gives the number modulo the width. -/
theorem leValue_leBytes (w n : ℕ) : leValue (leBytes w n) = n % 256 ^ w := by
  induction w generalizing n with
  | zero => simp [leBytes, leValue, Nat.mod_one]
  | succ w ih =>
    rw [leBytes, leValue, ih, pow_succ', Nat.mod_mul]
    simp

theorem leValue_leBytes_of_lt {w n : ℕ} (h : n < 256 ^ w) : leValue (leBytes w n) = n := by
  rw [leValue_leBytes, Nat.mod_eq_of_lt h]

namespace List

variable {α : Type*}

/-- The `n` elements from offset `start` on. -/
def slice (l : List α) (start n : ℕ) : List α := (l.drop start).take n

theorem length_slice {l : List α} {start n : ℕ} (h : start + n ≤ l.length) :
    (l.slice start n).length = n := by
  simp only [slice, length_take, length_drop]
  omega

/-- The slice between two parts of a concatenation. -/
theorem slice_append_append (a b c : List α) : (a ++ b ++ c).slice a.length b.length = b := by
  simp [slice]

theorem slice_of_eq {l a b c : List α} {start n : ℕ} (hl : l = a ++ b ++ c)
    (hs : start = a.length) (hn : n = b.length) : l.slice start n = b := by
  subst hl hs hn
  exact slice_append_append a b c

/-- A part of a concatenation lies where the parts before it end. -/
theorem slice_flatten {ps : List (List α)} {i : ℕ} {b : List α} {start n : ℕ}
    (h : ps[i]? = some b) (hs : start = ((ps.take i).map length).sum)
    (hn : n = b.length) : ps.flatten.slice start n = b := by
  obtain ⟨hlt, rfl⟩ := getElem?_eq_some_iff.mp h
  refine slice_of_eq (a := (ps.take i).flatten) (c := (ps.drop (i + 1)).flatten) ?_
    (by rw [hs, length_flatten]) hn
  have hp : ps = ps.take i ++ [ps[i]] ++ ps.drop (i + 1) := by
    simp
  nth_rewrite 1 [hp]
  simp only [flatten_append, flatten_cons, flatten_nil, append_nil]

end List
