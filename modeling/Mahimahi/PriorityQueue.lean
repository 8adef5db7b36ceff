import Mathlib.Data.List.Basic
import Mathlib.Order.Lattice

/-!
# Priority queues

`PriorityQueue key` is what the C++ standard promises of a
`std::priority_queue` ordered by `key`, least first: `top` is an element
with the least key, and nothing is said about which one. Two queues that
keep the promise:

- `Heap.queue`, the binary heap of libstdc++ (`push_heap` and `pop_heap`
  on a vector). Both operations move a hole through the tree; `HoleAt` is
  what holds while they do.
- `contrary`, which never returns the oldest element where it has another
  choice.
-/

namespace Mahimahi

variable {α κ : Type} [LinearOrder κ]

/-- A priority queue, with the elements it holds in some order. -/
structure PriorityQueue (key : α → κ) where
  Carrier : Type
  empty : Carrier
  emplace : α → Carrier → Carrier
  top : Carrier → Option α
  pop : Carrier → Carrier
  elements : Carrier → List α
  elements_empty : elements empty = []
  emplace_perm : ∀ a q, (elements (emplace a q)).Perm (a :: elements q)
  top_eq_none : ∀ q, top q = none ↔ elements q = []
  top_le : ∀ q a, top q = some a → ∀ b ∈ elements q, key a ≤ key b
  pop_perm : ∀ q a, top q = some a → (elements q).Perm (a :: elements (pop q))

/-! ## The heap of libstdc++ -/

namespace Heap

/-- The index of the parent of a node other than the root. -/
def parent (i : Nat) : Nat := (i - 1) / 2

/-- No node has a smaller key than its parent. -/
def Ordered (key : α → κ) (a : List α) : Prop :=
  ∀ i x y, 0 < i → a[parent i]? = some x → a[i]? = some y → key x ≤ key y

/-- `__push_heap`: move the hole up to where `value` belongs, and fill it.
The first argument bounds the turns; the hole's index is enough. -/
def pushHole (key : α → κ) (value : α) : Nat → Nat → List α → List α
  | 0, hole, a => a.set hole value
  | n + 1, hole, a =>
      match a[parent hole]? with
      | none => a.set hole value
      | some p =>
          if 0 < hole ∧ key value < key p then pushHole key value n (parent hole) (a.set hole p)
          else a.set hole value

/-- The loop of `__adjust_heap`: move the hole down along the smaller
children while it has two; of two equal children it takes the right one. -/
def descend (key : α → κ) : Nat → Nat → List α → Nat × List α
  | 0, hole, a => (hole, a)
  | n + 1, hole, a =>
      if hole < (a.length - 1) / 2 then
        match a[2 * (hole + 1)]?, a[2 * (hole + 1) - 1]? with
        | some right, some left =>
            if key left < key right then descend key n (2 * (hole + 1) - 1) (a.set hole left)
            else descend key n (2 * (hole + 1)) (a.set hole right)
        | _, _ => (hole, a)
      else (hole, a)

/-- The rest of `__adjust_heap` before its `__push_heap`: a hole whose only
child is the last element goes down once more. -/
def descendLast (hole : Nat) (a : List α) : Nat × List α :=
  if a.length % 2 = 0 ∧ hole = (a.length - 2) / 2 then
    match a[2 * (hole + 1) - 1]? with
    | some left => (2 * (hole + 1) - 1, a.set hole left)
    | none => (hole, a)
  else (hole, a)

/-- `__adjust_heap` at the root. -/
def adjustHeap (key : α → κ) (value : α) (a : List α) : List α :=
  let (hole, a) := descend key a.length 0 a
  let (hole, a) := descendLast hole a
  pushHole key value hole hole a

/-- `c.push_back( value ); push_heap( … )`. -/
def push (key : α → κ) (value : α) (a : List α) : List α :=
  pushHole key value a.length a.length (a ++ [value])

/-- `pop_heap( … ); c.pop_back()`. -/
def pop (key : α → κ) (a : List α) : List α :=
  match a.getLast? with
  | none => []
  | some value => if 1 < a.length then adjustHeap key value a.dropLast else []

/-! ### A heap with a hole -/

/-- The element at `hole` is out of order, and the heap is in order around
it: nothing changes for the elements above and below when it is left out. -/
structure HoleAt (key : α → κ) (hole : Nat) (a : List α) : Prop where
  bound : hole < a.length
  ordered : ∀ i x y, 0 < i → i ≠ hole → parent i ≠ hole → a[parent i]? = some x →
    a[i]? = some y → key x ≤ key y
  across : ∀ c x y, 0 < hole → 0 < c → parent c = hole → a[parent hole]? = some x →
    a[c]? = some y → key x ≤ key y

variable {key : α → κ}

theorem parent_lt {i : Nat} (h : 0 < i) : parent i < i := by
  unfold parent; omega

/-- Both moves of a hole swap two elements. -/
theorem set_set_perm {a : List α} {i j : Nat} {x : α} (hij : i ≠ j) (hi : i < a.length)
    (hx : a[j]? = some x) (v : α) : ((a.set i x).set j v).Perm (a.set i v) := by
  obtain ⟨hj, rfl⟩ := List.getElem?_eq_some_iff.mp hx
  have h := List.set_set_perm (i := i) (j := j) (show i < (a.set i v).length by simpa) (by simpa)
  simpa [List.getElem_set, hij] using h

/-- Fill the hole where the value is in order with what is above and below. -/
theorem HoleAt.fill {a : List α} {hole : Nat} {value : α} (h : HoleAt key hole a)
    (hup : ∀ x, 0 < hole → a[parent hole]? = some x → key x ≤ key value)
    (hdown : ∀ c y, 0 < c → parent c = hole → a[c]? = some y → key value ≤ key y) :
    Ordered key (a.set hole value) := by
  intro i x y hi hx hy
  have hlt := parent_lt hi
  rw [List.getElem?_set] at hx hy
  by_cases hih : hole = i
  · subst hih
    rw [if_neg (by omega)] at hx
    rw [if_pos rfl, if_pos h.bound] at hy
    cases hy
    exact hup x hi hx
  · rw [if_neg hih] at hy
    by_cases hph : hole = parent i
    · rw [if_pos hph, if_pos h.bound] at hx
      cases hx
      exact hdown i y hi hph.symm hy
    · rw [if_neg hph] at hx
      exact h.ordered i x y hi (Ne.symm hih) (Ne.symm hph) hx hy

theorem HoleAt.up {a : List α} {hole : Nat} {p : α} (h : HoleAt key hole a) (hpos : 0 < hole)
    (hp : a[parent hole]? = some p) : HoleAt key (parent hole) (a.set hole p) := by
  have hlt := parent_lt hpos
  constructor
  · simpa using Nat.lt_trans hlt h.bound
  · intro i x y hi hne hpne hx hy
    have hilt := parent_lt hi
    have hih : hole ≠ i := by rintro rfl; exact hpne rfl
    rw [List.getElem?_set, if_neg hih] at hy
    rw [List.getElem?_set] at hx
    split at hx
    · next hph =>
        rw [if_pos h.bound] at hx
        cases hx
        exact h.across i p y hpos hi hph.symm hp hy
    · next hph => exact h.ordered i x y hi (Ne.symm hih) (Ne.symm hph) hx hy
  · intro c x y hpp hc hpc hx hy
    have hplt := parent_lt hpp
    rw [List.getElem?_set, if_neg (by omega)] at hx
    have hxp : key x ≤ key p := h.ordered _ x p hpp (by omega) (by omega) hx hp
    rw [List.getElem?_set] at hy
    split at hy
    · rw [if_pos h.bound] at hy
      cases hy
      exact hxp
    · next hch =>
        exact le_trans hxp (h.ordered c p y hc (Ne.symm hch) (by omega) (hpc ▸ hp) hy)

theorem HoleAt.down {a : List α} {hole c : Nat} {x : α} (h : HoleAt key hole a) (hc : 0 < c)
    (hpc : parent c = hole) (hx : a[c]? = some x)
    (hleast : ∀ d y, 0 < d → parent d = hole → a[d]? = some y → key x ≤ key y) :
    HoleAt key c (a.set hole x) := by
  have hlt := parent_lt hc
  constructor
  · simpa using (List.getElem?_eq_some_iff.mp hx).1
  · intro i u v hi hne hpne hu hv
    have hilt := parent_lt hi
    rw [List.getElem?_set] at hu hv
    split at hv
    · next hih =>
        subst hih
        rw [if_pos h.bound] at hv
        cases hv
        rw [if_neg (by omega)] at hu
        exact h.across c u x hi hc hpc hu hx
    · next hih =>
        split at hu
        · next hph =>
            rw [if_pos h.bound] at hu
            cases hu
            exact hleast i v hi hph.symm hv
        · next hph => exact h.ordered i u v hi (Ne.symm hih) (Ne.symm hph) hu hv
  · intro d u v _ hd hpd hu hv
    have hdlt := parent_lt hd
    rw [hpc, List.getElem?_set, if_pos rfl, if_pos h.bound] at hu
    cases hu
    rw [List.getElem?_set, if_neg (by omega)] at hv
    exact h.ordered d x v hd (by omega) (by omega) (hpd ▸ hx) hv

theorem pushHole_spec (value : α) : ∀ {n hole : Nat} {a : List α}, hole ≤ n →
    HoleAt key hole a →
    (∀ c y, 0 < c → parent c = hole → a[c]? = some y → key value ≤ key y) →
    Ordered key (pushHole key value n hole a) ∧
      (pushHole key value n hole a).Perm (a.set hole value)
  | 0, hole, a, hn, h, hdown => by
      refine ⟨h.fill (fun x hpos _ => by omega) hdown, .refl _⟩
  | n + 1, hole, a, hn, h, hdown => by
      rw [pushHole]
      split
      · next hnone =>
          exact ⟨h.fill (fun x _ hx => by simp [hnone] at hx) hdown, .refl _⟩
      · next p hp =>
          split
          · next hmove =>
              obtain ⟨hpos, hlt⟩ := hmove
              have hplt := parent_lt hpos
              obtain ⟨hord, hperm⟩ := pushHole_spec value (n := n) (by omega) (h.up hpos hp)
                (by
                  intro c y hc hpc hy
                  rw [List.getElem?_set] at hy
                  split at hy
                  · rw [if_pos h.bound] at hy
                    cases hy
                    exact le_of_lt hlt
                  · next hch =>
                      exact le_trans (le_of_lt hlt)
                        (h.ordered c p y hc (Ne.symm hch) (by omega) (hpc ▸ hp) hy))
              exact ⟨hord, hperm.trans (set_set_perm (by omega) h.bound hp value)⟩
          · next hstay =>
              refine ⟨h.fill (fun x hpos hx => ?_) hdown, .refl _⟩
              rw [hp] at hx
              cases hx
              exact not_lt.mp fun hlt => hstay ⟨hpos, hlt⟩

/-- What one run of the hole downwards leaves: a hole again, in place of
which any value gives the elements that it gave before. -/
structure Descends (key : α → κ) (hole : Nat) (a : List α) (r : Nat × List α) : Prop where
  holeAt : HoleAt key r.1 r.2
  length : r.2.length = a.length
  perm : ∀ v, (r.2.set r.1 v).Perm (a.set hole v)

theorem Descends.step {a : List α} {hole c : Nat} {x : α} {r : Nat × List α}
    (h : HoleAt key hole a) (hc : 0 < c) (hpc : parent c = hole) (hx : a[c]? = some x)
    (hr : Descends key c (a.set hole x) r) : Descends key hole a r := by
  have hlt := parent_lt hc
  refine ⟨hr.holeAt, by simpa using hr.length, fun v => ?_⟩
  exact (hr.perm v).trans (set_set_perm (by omega) h.bound hx v)

theorem child_cases {d hole : Nat} (hd : 0 < d) (hp : parent d = hole) :
    d = 2 * (hole + 1) - 1 ∨ d = 2 * (hole + 1) := by
  unfold parent at hp; omega

theorem descend_spec : ∀ {n hole : Nat} {a : List α}, a.length ≤ hole + n →
    HoleAt key hole a → Descends key hole a (descend key n hole a) ∧
      (a.length - 1) / 2 ≤ (descend key n hole a).1
  | 0, hole, a, hn, h => by
      have := h.bound
      omega
  | n + 1, hole, a, hn, h => by
      rw [descend]
      split
      · next hlt =>
          have hr : 2 * (hole + 1) < a.length := by omega
          have hl : 2 * (hole + 1) - 1 < a.length := by omega
          rw [List.getElem?_eq_getElem hr, List.getElem?_eq_getElem hl]
          have hright := List.getElem?_eq_getElem hr
          have hleft := List.getElem?_eq_getElem hl
          have hpr : parent (2 * (hole + 1)) = hole := by unfold parent; omega
          have hpl : parent (2 * (hole + 1) - 1) = hole := by unfold parent; omega
          generalize a[2 * (hole + 1)] = right at *
          generalize a[2 * (hole + 1) - 1] = left at *
          simp only
          split
          · next hkey =>
              have hdown := h.down (by omega) hpl hleft (by
                intro d y hd hpd hy
                rcases child_cases hd hpd with rfl | rfl
                · rw [hleft] at hy; cases hy; exact le_rfl
                · rw [hright] at hy; cases hy; exact le_of_lt hkey)
              obtain ⟨hdesc, hend⟩ := descend_spec (n := n) (by simp; omega) hdown
              exact ⟨.step h (by omega) hpl hleft hdesc, by simpa using hend⟩
          · next hkey =>
              have hdown := h.down (by omega) hpr hright (by
                intro d y hd hpd hy
                rcases child_cases hd hpd with rfl | rfl
                · rw [hleft] at hy; cases hy; exact not_lt.mp hkey
                · rw [hright] at hy; cases hy; exact le_rfl)
              obtain ⟨hdesc, hend⟩ := descend_spec (n := n) (by simp; omega) hdown
              exact ⟨.step h (by omega) hpr hright hdesc, by simpa using hend⟩
      · next hge => exact ⟨⟨h, rfl, fun v => .refl _⟩, by simpa using hge⟩

/-- Where `__adjust_heap` fills the hole, it has no children left. -/
theorem descendLast_spec {hole : Nat} {a : List α} (h : HoleAt key hole a)
    (hend : (a.length - 1) / 2 ≤ hole) :
    Descends key hole a (descendLast hole a) ∧
      ∀ c, 0 < c → parent c = (descendLast hole a).1 → a.length ≤ c := by
  have hbound := h.bound
  unfold descendLast
  split
  · next hlast =>
      obtain ⟨heven, hhole⟩ := hlast
      have hl : 2 * (hole + 1) - 1 < a.length := by omega
      rw [List.getElem?_eq_getElem hl]
      have hleft := List.getElem?_eq_getElem hl
      have hpl : parent (2 * (hole + 1) - 1) = hole := by unfold parent; omega
      have hdown := h.down (by omega) hpl hleft (by
        intro d y hd hpd hy
        rcases child_cases hd hpd with rfl | rfl
        · rw [hleft] at hy; cases hy; exact le_rfl
        · have := (List.getElem?_eq_some_iff.mp hy).1
          omega)
      refine ⟨.step h (by omega) hpl hleft ⟨hdown, by simp, fun v => .refl _⟩, fun c hc hpc => ?_⟩
      rcases child_cases hc hpc with rfl | rfl <;> simp only <;> omega
  · next hlast =>
      refine ⟨⟨h, rfl, fun v => .refl _⟩, fun c hc hpc => ?_⟩
      rcases child_cases hc hpc with rfl | rfl <;> simp only <;> omega

theorem adjustHeap_spec {a : List α} {x : α} (value : α) (ha : Ordered key (x :: a)) :
    Ordered key (adjustHeap key value (x :: a)) ∧
      (adjustHeap key value (x :: a)).Perm (value :: a) := by
  have hroot : HoleAt key 0 (x :: a) :=
    ⟨by simp, fun i x y hi _ _ => ha i x y hi, fun _ _ _ h => absurd h (Nat.lt_irrefl 0)⟩
  obtain ⟨hd, hend⟩ := descend_spec (n := (x :: a).length) (by simp) hroot
  have hlen := hd.length
  obtain ⟨hl, hleaf⟩ := descendLast_spec hd.holeAt (by rw [hlen]; exact hend)
  obtain ⟨hord, hperm⟩ := pushHole_spec value (Nat.le_refl _) hl.holeAt (by
    intro c y hc hpc hy
    have := (List.getElem?_eq_some_iff.mp hy).1
    have := hleaf c hc hpc
    have := hl.length
    omega)
  exact ⟨hord, hperm.trans ((hl.perm value).trans (hd.perm value))⟩

theorem push_spec {a : List α} {value : α} (ha : Ordered key a) :
    Ordered key (push key value a) ∧ (push key value a).Perm (value :: a) := by
  have hhole : HoleAt key a.length (a ++ [value]) := by
    refine ⟨by simp, fun i x y hi hne hpne hx hy => ?_, fun c x y _ hc hpc _ hy => ?_⟩
    · have hi' : i < a.length := by
        have := (List.getElem?_eq_some_iff.mp hy).1
        simp only [List.length_append, List.length_singleton] at this
        omega
      have := parent_lt hi
      rw [List.getElem?_append_left (by omega)] at hx hy
      exact ha i x y hi hx hy
    · have := (List.getElem?_eq_some_iff.mp hy).1
      have := parent_lt hc
      simp only [List.length_append, List.length_singleton] at *
      omega
  obtain ⟨hord, hperm⟩ := pushHole_spec value (Nat.le_refl _) hhole (by
    intro c y hc hpc hy
    have := (List.getElem?_eq_some_iff.mp hy).1
    have := parent_lt hc
    simp only [List.length_append, List.length_singleton] at *
    omega)
  refine ⟨hord, hperm.trans ?_⟩
  simp

theorem Ordered.dropLast {a : List α} (ha : Ordered key a) : Ordered key a.dropLast := by
  intro i x y hi hx hy
  rw [List.getElem?_dropLast] at hx hy
  split at hx
  · split at hy
    · exact ha i x y hi hx hy
    · cases hy
  · cases hx

theorem pop_spec {a : List α} {x : α} (ha : Ordered key a) (hx : a.head? = some x) :
    Ordered key (pop key a) ∧ a.Perm (x :: pop key a) := by
  obtain ⟨as, rfl⟩ : ∃ as, a = x :: as := by
    cases a with
    | nil => cases hx
    | cons y as => cases hx; exact ⟨as, rfl⟩
  rcases List.eq_nil_or_concat as with rfl | ⟨bs, value, rfl⟩
  · exact ⟨fun i x y _ hx _ => by simp [pop] at hx, by simp [pop]⟩
  · rw [List.concat_eq_append] at ha ⊢
    have hpop : pop key (x :: (bs ++ [value])) = adjustHeap key value (x :: bs) := by
      have hlast : (x :: (bs ++ [value])).getLast? = some value := by
        rw [← List.cons_append, List.getLast?_concat]
      simp only [pop, hlast]
      rw [if_pos (by simp), ← List.cons_append, List.dropLast_concat]
    have hdrop := ha.dropLast
    rw [← List.cons_append, List.dropLast_concat] at hdrop
    obtain ⟨hord, hperm⟩ := adjustHeap_spec value hdrop
    rw [hpop]
    refine ⟨hord, .cons x ?_⟩
    exact (List.perm_append_comm : (bs ++ [value]).Perm ([value] ++ bs)).trans hperm.symm

/-- The root has the least key. -/
theorem Ordered.root_le {a : List α} {x : α} (ha : Ordered key a) (hx : a[0]? = some x)
    (i : Nat) : ∀ y : α, a[i]? = some y → key x ≤ key y := by
  induction i using Nat.strongRecOn with
  | ind i ih =>
      intro y hy
      rcases Nat.eq_zero_or_pos i with rfl | hi
      · rw [hx] at hy; cases hy; exact le_rfl
      · have hlt := parent_lt hi
        have hlen := (List.getElem?_eq_some_iff.mp hy).1
        have hp := List.getElem?_eq_getElem (l := a) (i := parent i) (by omega)
        exact le_trans (ih _ hlt _ hp) (ha i _ y hi hp hy)

/-- `std::priority_queue` as libstdc++ has it. -/
def queue (key : α → κ) : PriorityQueue key where
  Carrier := { a : List α // Ordered key a }
  empty := ⟨[], fun _ _ _ _ hx _ => by simp at hx⟩
  emplace value a := ⟨push key value a.1, (push_spec a.2).1⟩
  top a := a.1.head?
  pop a := ⟨pop key a.1, by
    cases hx : a.1.head? with
    | none => rw [List.head?_eq_none_iff.mp hx]; exact fun _ _ _ _ hx _ => by simp [pop] at hx
    | some x => exact (pop_spec a.2 hx).1⟩
  elements a := a.1
  elements_empty := rfl
  emplace_perm value a := (push_spec a.2).2
  top_eq_none a := List.head?_eq_none_iff
  top_le a x hx y hy := by
    obtain ⟨i, hi, rfl⟩ := List.getElem_of_mem hy
    exact Ordered.root_le a.2 (by rwa [← List.head?_eq_getElem?]) i _ (List.getElem?_eq_getElem hi)
  pop_perm a x hx := (pop_spec a.2 hx).2

end Heap

/-! ## A queue that avoids the oldest element -/

section

variable {key : α → κ}

/-- `x` has the least key among `xs`. -/
def isLeast (key : α → κ) (xs : List α) (x : α) : Bool := xs.all fun y => key x ≤ key y

theorem isLeast_iff {xs : List α} {x : α} : isLeast key xs x = true ↔ ∀ y ∈ xs, key x ≤ key y := by
  simp [isLeast]

theorem exists_least (key : α → κ) : ∀ xs : List α, xs ≠ [] → ∃ x ∈ xs, isLeast key xs x = true
  | [], h => absurd rfl h
  | [x], _ => ⟨x, by simp, by simp [isLeast]⟩
  | x :: y :: ys, _ => by
      obtain ⟨z, hz, hleast⟩ := exists_least key (y :: ys) (by simp)
      rw [isLeast_iff] at hleast
      rcases le_total (key x) (key z) with h | h
      · refine ⟨x, by simp, isLeast_iff.mpr fun w hw => ?_⟩
        rcases List.mem_cons.mp hw with rfl | hw
        · exact le_rfl
        · exact le_trans h (hleast w hw)
      · refine ⟨z, List.mem_cons_of_mem _ hz, isLeast_iff.mpr fun w hw => ?_⟩
        rcases List.mem_cons.mp hw with rfl | hw
        · exact h
        · exact hleast w hw

variable [DecidableEq α]

/-- The element that `contrary` returns: one with the least key that is not
the oldest, if there is one. -/
def contraryTop (key : α → κ) (xs : List α) : Option α :=
  match xs.find? fun x => isLeast key xs x && xs.head? != some x with
  | some x => some x
  | none => xs.find? (isLeast key xs)

theorem contraryTop_mem {xs : List α} {x : α} (h : contraryTop key xs = some x) :
    x ∈ xs ∧ isLeast key xs x = true := by
  unfold contraryTop at h
  split at h
  · next y hy =>
      cases h
      have := List.find?_some hy
      exact ⟨List.mem_of_find?_eq_some hy, by simpa using (Bool.and_eq_true _ _ ▸ this).1⟩
  · exact ⟨List.mem_of_find?_eq_some h, List.find?_some h⟩

theorem contraryTop_eq_none {xs : List α} : contraryTop key xs = none ↔ xs = [] := by
  constructor
  · intro h
    by_contra hne
    obtain ⟨x, hx, hleast⟩ := exists_least key xs hne
    unfold contraryTop at h
    split at h
    · cases h
    · exact List.find?_eq_none.mp h x hx hleast
  · rintro rfl
    rfl

/-- It returns the oldest element only where nothing else has the least key. -/
theorem contraryTop_head {xs : List α} {x : α} (h : contraryTop key xs = some x)
    (hx : xs.head? = some x) : ∀ y ∈ xs, isLeast key xs y = true → y = x := by
  intro y hy hleast
  unfold contraryTop at h
  split at h
  · next z hz =>
      cases h
      have := List.find?_some hz
      simp [hx] at this
  · next hnone =>
      have := List.find?_eq_none.mp hnone y hy
      simp only [hleast, hx, Bool.true_and, bne_iff_ne, ne_eq, Option.some.injEq, Decidable.not_not] at this
      exact this.symm

/-- The queue that returns the oldest element only where it must. -/
def contrary (key : α → κ) : PriorityQueue key where
  Carrier := List α
  empty := []
  emplace x xs := xs ++ [x]
  top := contraryTop key
  pop xs := match contraryTop key xs with
    | some x => xs.erase x
    | none => []
  elements xs := xs
  elements_empty := rfl
  emplace_perm x xs := by simp
  top_eq_none xs := contraryTop_eq_none
  top_le xs x h := isLeast_iff.mp (contraryTop_mem h).2
  pop_perm xs x h := by
    simp only [h]
    exact List.perm_cons_erase (contraryTop_mem h).1

end

end Mahimahi
