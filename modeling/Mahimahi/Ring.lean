import Mathlib.Data.List.Rotate

/-!
# Windows of a ring

A list read as a ring: behind its last element stands its first one again.
`window l start n` is what stands in the `n` places from `start` on, and
`overwrite l i xs` is the list after a copy of `xs` to the places from `i` on,
which does not go around.

A ring that is written behind its window and read from the front of it is a
queue: `window_push` and `window_pop` say what the two do to the window.
-/

namespace Mahimahi

namespace Ring

variable {α : Type*} {l xs : List α} {start m n i j : Nat}

/-- The elements in the `n` places from `start` on. -/
def window (l : List α) (start n : Nat) : List α := (l.rotate start).take n

/-- The places of a window, in a ring of `size` places. -/
def InWindow (size start n i : Nat) : Prop := ∃ k < n, i = (start + k) % size

/-- The list after a copy of `xs` to the places from `i` on. -/
def overwrite (l : List α) (i : Nat) (xs : List α) : List α :=
  l.take i ++ xs ++ l.drop (i + xs.length)

theorem mod_of_lt_two_mul {x size : Nat} (h : x < 2 * size) :
    x % size = if x < size then x else x - size := by
  split
  · next hlt => exact Nat.mod_eq_of_lt hlt
  · next hge =>
      rw [Nat.mod_eq_sub_mod (Nat.le_of_not_lt hge), Nat.mod_eq_of_lt (by omega)]

/-! ## Windows -/

theorem length_window (h : n ≤ l.length) : (window l start n).length = n := by
  rw [window, List.length_take, List.length_rotate, Nat.min_eq_left h]

theorem window_mod (l : List α) (start n : Nat) :
    window l (start % l.length) n = window l start n := by
  rw [window, List.rotate_mod, window]

theorem window_append (h : m + n ≤ l.length) :
    window l start (m + n) = window l start m ++ window l (start + m) n := by
  have hlen : (l.rotate start).length = l.length := List.length_rotate l start
  rw [window, window, window, ← List.rotate_rotate]
  generalize l.rotate start = r at hlen
  have hdrop : n ≤ (r.drop m).length := by
    rw [List.length_drop]
    omega
  rw [List.take_add, List.rotate_eq_drop_append_take (by omega), List.take_append_of_le_length hdrop]

/-- A window that does not go around. -/
theorem window_eq_take_drop (h : start + n ≤ l.length) :
    window l start n = (l.drop start).take n := by
  rw [window, List.rotate_eq_drop_append_take (by omega), List.take_append_of_le_length]
  rw [List.length_drop]
  omega

theorem window_pop (start : Nat) (hm : m ≤ n) (hn : n ≤ l.length) :
    (window l start n).take m = window l start m ∧
      (window l start n).drop m = window l (start + m) (n - m) := by
  have hsplit : window l start (m + (n - m)) = window l start m ++ window l (start + m) (n - m) :=
    window_append (by omega)
  have hlen : (window l start m).length = m := length_window (by omega)
  rw [Nat.add_sub_cancel' hm] at hsplit
  rw [hsplit]
  exact ⟨List.take_left' hlen, List.drop_left' hlen⟩

/-! ## Overwriting -/

theorem length_overwrite (h : i + xs.length ≤ l.length) :
    (overwrite l i xs).length = l.length := by
  simp only [overwrite, List.length_append, List.length_take, List.length_drop]
  omega

theorem getElem?_overwrite (h : i + xs.length ≤ l.length) (hj : j < i ∨ i + xs.length ≤ j) :
    (overwrite l i xs)[j]? = l[j]? := by
  have hi : (l.take i).length = i := by
    rw [List.length_take]
    omega
  rw [overwrite, List.append_assoc]
  rcases hj with hj | hj
  · rw [List.getElem?_append_left (by omega), List.getElem?_take_of_lt hj]
  · rw [List.getElem?_append_right (by omega), List.getElem?_append_right (by omega), List.getElem?_drop,
      hi]
    congr 1
    omega

theorem window_overwrite (h : i + xs.length ≤ l.length) :
    window (overwrite l i xs) i xs.length = xs := by
  have hi : (l.take i).length = i := by
    rw [List.length_take]
    omega
  rw [window_eq_take_drop (by rw [length_overwrite h]; exact h), overwrite, List.append_assoc,
    List.drop_left' hi, List.take_left]

/-- The window does not change where the copy does not touch it. -/
theorem window_overwrite_of_not (h : i + xs.length ≤ l.length) (hn : n ≤ l.length)
    (hout : ∀ j, InWindow l.length start n j → j < i ∨ i + xs.length ≤ j) :
    window (overwrite l i xs) start n = window l start n := by
  refine List.ext_getElem? fun k => ?_
  rw [window, window, List.getElem?_take, List.getElem?_take]
  split
  · next hk =>
      rw [List.getElem?_rotate (by rw [length_overwrite h]; omega), List.getElem?_rotate (by omega),
        length_overwrite h]
      exact getElem?_overwrite h (hout _ ⟨k, hk, by rw [Nat.add_comm]⟩)
  · rfl

theorem window_push (hstart : start < l.length) (hn : n + xs.length ≤ l.length)
    (hi : i = (start + n) % l.length) (h : i + xs.length ≤ l.length) :
    window (overwrite l i xs) start (n + xs.length) = window l start n ++ xs := by
  have hlen := length_overwrite h
  have hbehind : window (overwrite l i xs) (start + n) xs.length = xs := by
    rw [← window_mod, hlen, ← hi, window_overwrite h]
  rw [window_append (by omega), hbehind, window_overwrite_of_not h (by omega)]
  rintro j ⟨k, hk, rfl⟩
  by_cases hxs : xs.length = 0
  · omega
  · rw [mod_of_lt_two_mul (by omega)] at hi ⊢
    split <;> split at hi <;> omega

end Ring

end Mahimahi
