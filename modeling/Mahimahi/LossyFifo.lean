import Mathlib.Data.List.Basic

/-!
# A first-in-first-out queue that may lose things

What is left to promise of a queue that refuses some of what it is offered
and loses some of what it holds: whatever comes out was put in, unchanged,
and in the order in which it was put in. `FifoLog` is the history of such a
queue, and carries the promise: a log can only be built from the empty one
by the four things that may happen to the queue.
-/

namespace Mahimahi

variable {α : Type*}

/-- What is in the queue, what it was offered and what was taken from it. -/
structure FifoLog (α : Type*) where
  queued : List α
  offered : List α
  taken : List α
  inOrder : (taken ++ queued).Sublist offered

namespace FifoLog

def nil : FifoLog α := ⟨[], [], [], .refl _⟩

/-- What is offered is refused. -/
def refuse (s : FifoLog α) (a : α) : FifoLog α where
  queued := s.queued
  offered := s.offered ++ [a]
  taken := s.taken
  inOrder := s.inOrder.trans (List.sublist_append_left ..)

/-- What is offered goes to the back. -/
def append (s : FifoLog α) (a : α) : FifoLog α where
  queued := s.queued ++ [a]
  offered := s.offered ++ [a]
  taken := s.taken
  inOrder := by
    rw [← List.append_assoc]
    exact s.inOrder.append_right [a]

/-- The front is lost, up to what stays. -/
def lose (s : FifoLog α) (kept : List α) (h : kept <:+ s.queued) : FifoLog α where
  queued := kept
  offered := s.offered
  taken := s.taken
  inOrder := (h.sublist.append_left s.taken).trans s.inOrder

/-- The front is taken. -/
def take (s : FifoLog α) (a : α) (rest : List α) (h : s.queued = a :: rest) : FifoLog α where
  queued := rest
  offered := s.offered
  taken := s.taken ++ [a]
  inOrder := by
    rw [List.append_assoc, List.singleton_append, ← h]
    exact s.inOrder

theorem taken_sublist (s : FifoLog α) : s.taken.Sublist s.offered :=
  (List.sublist_append_left ..).trans s.inOrder

end FifoLog

end Mahimahi
