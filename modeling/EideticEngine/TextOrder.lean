/-
# The order of texts

`str::cmp` compares the UTF-8 bytes of two texts, one after another.
-/
import EideticEngine.RustText

namespace RustText

/-- `str::cmp`: the order of the bytes. -/
def strCmp (a b : String) : Ordering :=
  compare (asBytes a) (asBytes b)

instance : Std.TransCmp strCmp :=
  inferInstanceAs (Std.TransCmp (compareOn asBytes))

instance : Std.LawfulEqCmp strCmp where
  compare_self := Std.ReflOrd.compare_self
  eq_of_compare h := asBytes_injective (Std.LawfulEqOrd.eq_of_compare h)

/-- A common beginning does not decide. -/
theorem compare_append_left {α : Type*} [Ord α] [Std.ReflOrd α] (f a b : List α) :
    compare (f ++ a) (f ++ b) = compare a b := by
  induction f with
  | nil => rfl
  | cons x f ih =>
    rw [List.cons_append, List.cons_append, List.compare_cons_cons, Std.ReflOrd.compare_self]
    exact ih

/-- Elements that are replaced in keeping with their order keep the order of the lists. -/
theorem compare_map {α β : Type*} [Ord α] [Ord β] {f : α → β} {l l' : List α}
    (h : ∀ a ∈ l, ∀ b ∈ l', compare (f a) (f b) = compare a b) :
    compare (l.map f) (l'.map f) = compare l l' := by
  induction l generalizing l' with
  | nil => cases l' <;> rfl
  | cons a l ih =>
    cases l' with
    | nil => rfl
    | cons b l' =>
      rw [List.map_cons, List.map_cons, List.compare_cons_cons, List.compare_cons_cons,
        h a List.mem_cons_self b List.mem_cons_self,
        ih fun c hc d hd => h c (List.mem_cons_of_mem _ hc) d (List.mem_cons_of_mem _ hd)]

end RustText
