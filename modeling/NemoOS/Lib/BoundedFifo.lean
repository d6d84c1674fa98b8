import Mathlib
import NemoOS.Lib.Runs

/-!
# Bounded queues

A queue that holds at most `cap` elements, as a list with the oldest one first: a push to a full
queue changes nothing, and a pop of an empty one has no result. `conserved` is what such a
queue is for: what was accepted comes out once, in order, or is still there.
-/

namespace Fifo

open Transition

variable {α : Type*}

inductive Call (α : Type*) where
  | push (x : α)
  | pop
deriving DecidableEq, Repr

/-- The result of a pop, and the queue afterwards. -/
def exec (cap : Nat) : List α → Call α → Option α × List α
  | queue, .push x => (none, if queue.length < cap then queue ++ [x] else queue)
  | [], .pop => (none, [])
  | x :: queue, .pop => (some x, queue)

/-- The elements that are accepted by calls, from a queue on. -/
def accepted (cap : Nat) : List α → List (Call α) → List α
  | _, [] => []
  | queue, .push x :: calls =>
      (if queue.length < cap then [x] else []) ++ accepted cap (exec cap queue (.push x)).2 calls
  | queue, .pop :: calls => accepted cap (exec cap queue .pop).2 calls

/-! ## Results of pops -/

section Pops

variable {σ τ : Type*} {impl : σ → Call α → Option α × σ} {spec : τ → Call α → Option α × τ}

/-- What the pops return, of any component with these calls. -/
def pops (impl : σ → Call α → Option α × σ) : σ → List (Call α) → List (Option α)
  | _, [] => []
  | s, .push x :: calls => pops impl (impl s (.push x)).2 calls
  | s, .pop :: calls => (impl s .pop).1 :: pops impl (impl s .pop).2 calls

/-- Components in related states have the same results. -/
theorem pops_eq (R : σ → τ → Prop)
    (hcall : ∀ s t c, R s t → (impl s c).1 = (spec t c).1 ∧ R (impl s c).2 (spec t c).2)
    {s : σ} {t : τ} (h : R s t) (calls : List (Call α)) :
    pops impl s calls = pops spec t calls := by
  induction calls generalizing s t with
  | nil => rfl
  | cons c calls ih =>
      obtain ⟨hresult, hnext⟩ := hcall s t c h
      cases c with
      | push x => exact ih hnext
      | pop => simp [pops, hresult, ih hnext]

end Pops

/-- **Nothing is lost and nothing is doubled.** -/
theorem conserved (cap : Nat) (queue : List α) (calls : List (Call α)) :
    (pops (exec cap) queue calls).reduceOption ++ stateAfter (exec cap) queue calls =
      queue ++ accepted cap queue calls := by
  induction calls generalizing queue with
  | nil => simp [pops, accepted]
  | cons c calls ih =>
      cases c with
      | push x =>
          by_cases hroom : queue.length < cap <;>
            simp [pops, stateAfter_cons, accepted, exec, hroom, ih]
      | pop =>
          cases queue with
          | nil => simpa [pops, stateAfter_cons, accepted, exec] using ih []
          | cons x queue => simpa [pops, stateAfter_cons, accepted, exec] using ih queue

end Fifo
