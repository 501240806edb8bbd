/-
# Numbers in a fixed number of digits

`digitsOf b n v` are the last `n` digits of `v` in base `b`, most significant first, and
`valueOf b` reads digits back from a value so far.  Both directions are inverse to each other
on numbers below `b ^ n` and digits below `b`, and the order of the digits is the order of the
numbers.
-/
import Mathlib

namespace PositionalDigits

variable {b : ℕ}

/-- The last `n` digits of a number, most significant first. -/
def digitsOf (b : ℕ) : ℕ → ℕ → List ℕ
  | 0, _ => []
  | n + 1, v => v / b ^ n % b :: digitsOf b n v

/-- Read digits after a value. -/
def valueOf (b acc : ℕ) (digits : List ℕ) : ℕ :=
  digits.foldl (fun value digit => value * b + digit) acc

@[simp] theorem length_digitsOf (n v : ℕ) : (digitsOf b n v).length = n := by
  induction n with
  | zero => rfl
  | succ n ih => simp [digitsOf, ih]

theorem digitsOf_eq_map (n v : ℕ) :
    digitsOf b n v = (List.range n).map fun i => v / b ^ (n - 1 - i) % b := by
  induction n with
  | zero => rfl
  | succ n ih =>
    rw [digitsOf, ih, List.range_succ_eq_map, List.map_cons, List.map_map]
    simp only [Nat.add_sub_cancel, Nat.sub_zero, List.cons.injEq, true_and]
    refine List.map_congr_left fun i _ => ?_
    rw [Function.comp_apply, Nat.succ_eq_add_one, Nat.sub_sub, Nat.add_comm 1 i]

theorem digitsOf_lt (hb : 0 < b) (n v : ℕ) : ∀ d ∈ digitsOf b n v, d < b := by
  induction n with
  | zero => simp [digitsOf]
  | succ n ih =>
    intro d hd
    rcases List.mem_cons.mp hd with rfl | hd
    · exact Nat.mod_lt _ hb
    · exact ih d hd

/-- What was read before counts for the places to come. -/
theorem valueOf_acc (acc : ℕ) (digits : List ℕ) :
    valueOf b acc digits = acc * b ^ digits.length + valueOf b 0 digits := by
  induction digits generalizing acc with
  | nil => simp [valueOf]
  | cons d digits ih =>
    have hs : ∀ a, valueOf b a (d :: digits) = valueOf b (a * b + d) digits := fun _ => rfl
    rw [hs, hs, ih (acc * b + d), ih (0 * b + d), List.length_cons, pow_succ]
    ring

theorem valueOf_cons (d : ℕ) (digits : List ℕ) :
    valueOf b 0 (d :: digits) = d * b ^ digits.length + valueOf b 0 digits := by
  have hs : valueOf b 0 (d :: digits) = valueOf b (0 * b + d) digits := rfl
  rw [hs, valueOf_acc, Nat.zero_mul, Nat.zero_add]

theorem valueOf_lt {digits : List ℕ} (h : ∀ d ∈ digits, d < b) :
    valueOf b 0 digits < b ^ digits.length := by
  induction digits with
  | nil => simp [valueOf]
  | cons d digits ih =>
    have hd := h d List.mem_cons_self
    have hr := ih fun e he => h e (List.mem_cons_of_mem _ he)
    rw [valueOf_cons, List.length_cons, pow_succ']
    calc d * b ^ digits.length + valueOf b 0 digits
        < d * b ^ digits.length + b ^ digits.length := by omega
      _ = (d + 1) * b ^ digits.length := by ring
      _ ≤ b * b ^ digits.length := Nat.mul_le_mul_right _ hd

/-- Digits only see the number below the places they stand for. -/
theorem digitsOf_mod (n v : ℕ) : digitsOf b n (v % b ^ n) = digitsOf b n v := by
  have hp : ∀ k n, k ≤ n → digitsOf b k (v % b ^ n) = digitsOf b k v := by
    intro k
    induction k with
    | zero => intro n _; rfl
    | succ k ih =>
      intro n hk
      obtain ⟨m, rfl⟩ := Nat.exists_eq_add_of_le hk
      rw [digitsOf, digitsOf, ih _ (by omega)]
      congr 1
      have hpo : b ^ (k + 1 + m) = b ^ k * (b * b ^ m) := by ring
      rw [hpo, Nat.mod_mul_right_div_self, Nat.mod_mul_right_mod]
  exact hp n n (Nat.le_refl n)

/-- **Reading the digits of a number** gives the number, up to the places they have. -/
theorem valueOf_digitsOf (n v : ℕ) : valueOf b 0 (digitsOf b n v) = v % b ^ n := by
  induction n with
  | zero => simp [digitsOf, valueOf, Nat.mod_one]
  | succ n ih =>
    rw [digitsOf, valueOf_cons, ih, length_digitsOf, pow_succ, Nat.mod_mul]
    ring

/-- **The digits of the number that was read** are the digits it was read from. -/
theorem digitsOf_valueOf {digits : List ℕ} (h : ∀ d ∈ digits, d < b) :
    digitsOf b digits.length (valueOf b 0 digits) = digits := by
  induction digits with
  | nil => rfl
  | cons d digits ih =>
    have hd := h d List.mem_cons_self
    have hr : ∀ e ∈ digits, e < b := fun e he => h e (List.mem_cons_of_mem _ he)
    have hlt := valueOf_lt hr
    rw [List.length_cons, digitsOf, valueOf_cons]
    congr 1
    · rw [Nat.mul_comm, Nat.mul_add_div (by omega), Nat.div_eq_of_lt hlt, Nat.add_zero,
        Nat.mod_eq_of_lt hd]
    · rw [← digitsOf_mod, Nat.mul_comm, Nat.mul_add_mod, Nat.mod_eq_of_lt hlt]
      exact ih hr

/-- **The order of the digits is the order of the numbers.** -/
theorem compare_digitsOf {n v w : ℕ} (hv : v < b ^ n) (hw : w < b ^ n) :
    compare (digitsOf b n v) (digitsOf b n w) = compare v w := by
  induction n generalizing v w with
  | zero =>
    have hv' : v = 0 := by simpa using hv
    have hw' : w = 0 := by simpa using hw
    subst hv' hw'
    rfl
  | succ n ih =>
    have hp : 0 < b ^ n := by
      rcases Nat.eq_zero_or_pos (b ^ n) with hz | hp
      · rw [pow_succ, hz] at hv
        omega
      · exact hp
    have hl : ∀ x, x < b ^ (n + 1) → x / b ^ n % b = x / b ^ n := fun x hx =>
      Nat.mod_eq_of_lt ((Nat.div_lt_iff_lt_mul hp).mpr (by rwa [pow_succ'] at hx))
    have hr : compare (digitsOf b n v) (digitsOf b n w) = compare (v % b ^ n) (w % b ^ n) := by
      rw [← digitsOf_mod n v, ← digitsOf_mod n w]
      exact ih (Nat.mod_lt _ hp) (Nat.mod_lt _ hp)
    rw [digitsOf, digitsOf, List.compare_cons_cons, hr, hl v hv, hl w hw]
    have hvs := Nat.div_add_mod v (b ^ n)
    have hws := Nat.div_add_mod w (b ^ n)
    have hvm := Nat.mod_lt v hp
    have hwm := Nat.mod_lt w hp
    generalize v / b ^ n = q, v % b ^ n = r, w / b ^ n = q', w % b ^ n = r' at *
    -- the leading digit decides, and where it does not the rest does
    rcases Nat.lt_trichotomy q q' with hlt | rfl | hgt
    · have hvw : v < w := by
        have hm : b ^ n * (q + 1) ≤ b ^ n * q' := Nat.mul_le_mul_left _ hlt
        rw [Nat.mul_add, Nat.mul_one] at hm
        omega
      rw [Nat.compare_eq_lt.mpr hlt, Nat.compare_eq_lt.mpr hvw]
      rfl
    · rw [Nat.compare_eq_eq.mpr rfl]
      change compare r r' = compare v w
      rcases Nat.lt_trichotomy r r' with h | h | h
      · rw [Nat.compare_eq_lt.mpr h, Nat.compare_eq_lt.mpr (by omega)]
      · rw [Nat.compare_eq_eq.mpr h, Nat.compare_eq_eq.mpr (by omega)]
      · rw [Nat.compare_eq_gt.mpr h, Nat.compare_eq_gt.mpr (by omega)]
    · have hvw : w < v := by
        have hm : b ^ n * (q' + 1) ≤ b ^ n * q := Nat.mul_le_mul_left _ hgt
        rw [Nat.mul_add, Nat.mul_one] at hm
        omega
      rw [Nat.compare_eq_gt.mpr hgt, Nat.compare_eq_gt.mpr hvw]
      rfl

end PositionalDigits
