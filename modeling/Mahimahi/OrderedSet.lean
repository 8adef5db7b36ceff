import Mathlib.Data.List.Count
import Mathlib.Data.List.Nodup
import Mathlib.Order.Lattice

/-!
# Sets in the order of their elements

`std::set` keeps its elements in order, each once, and is read in that order. Here it is the
list of them: `emplace` goes along the list to the place of the element and puts it there
unless it is there already. All that is used of the order is that it is linear.
-/

namespace Mahimahi

namespace OrderedSet

variable {α : Type*} [LinearOrder α]

/-- The list of a set: in order, and each element once. -/
abbrev Sorted (l : List α) : Prop := l.Pairwise (· < ·)

def emplace (x : α) : List α → List α
  | [] => [x]
  | y :: ys => if x < y then x :: y :: ys else if y < x then y :: emplace x ys else y :: ys

theorem mem_emplace {x z : α} : ∀ {l : List α}, z ∈ emplace x l ↔ z = x ∨ z ∈ l
  | [] => by simp [emplace]
  | y :: ys => by
      rw [emplace]
      split
      · exact List.mem_cons
      · next hxy =>
          split
          · rw [List.mem_cons, mem_emplace, List.mem_cons]
            exact or_left_comm
          · next hyx =>
              -- neither is less, so the element is there
              obtain rfl : x = y := le_antisymm (not_lt.mp hyx) (not_lt.mp hxy)
              simp

theorem Sorted.emplace {x : α} : ∀ {l : List α}, Sorted l → Sorted (emplace x l)
  | [], _ => List.pairwise_singleton _ _
  | y :: ys, h => by
      obtain ⟨hy, hys⟩ := List.pairwise_cons.mp h
      rw [OrderedSet.emplace]
      split
      · next hxy =>
          refine List.pairwise_cons.mpr ⟨fun z hz => ?_, h⟩
          rcases List.mem_cons.mp hz with rfl | hz
          · exact hxy
          · exact hxy.trans (hy z hz)
      · split
        · next hyx =>
            refine List.pairwise_cons.mpr ⟨fun z hz => ?_, Sorted.emplace hys⟩
            rcases mem_emplace.mp hz with rfl | hz
            · exact hyx
            · exact hy z hz
        · exact h

theorem Sorted.nodup {l : List α} (h : Sorted l) : l.Nodup := h.imp fun hlt => hlt.ne

end OrderedSet

end Mahimahi
