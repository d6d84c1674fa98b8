import Mathlib

/-!
# Taking turns on a ring

The positions `0 .. n - 1` stand in a ring and some of them take part. `turns p n start`
lists those that do in the order in which a search meets them that begins at `start` and
goes around once. Whoever has had the turn goes to the end (`turns_succ`), so that a
search which always begins behind the position it found last meets every position that
takes part once a round.
-/

namespace Turns

variable {p : Nat → Bool} {n start i : Nat}

/-- The positions that take part, from `start` on and once around. -/
def turns (p : Nat → Bool) (n start : Nat) : List Nat := ((List.range n).rotate start).filter p

theorem rotate_range (n start : Nat) :
    (List.range n).rotate start = (List.range n).map fun i => (start + i) % n := by
  apply List.ext_getElem
  · simp
  · intro i h h'
    simp [List.getElem_rotate, Nat.add_comm]

theorem turns_perm (p : Nat → Bool) (n start : Nat) :
    (turns p n start).Perm ((List.range n).filter p) :=
  (List.rotate_perm (List.range n) start).filter p

/-- The search finds the first position in order. -/
theorem find?_eq_head? :
    ((List.range n).map fun i => (start + i) % n).find? p = (turns p n start).head? := by
  rw [turns, rotate_range, List.head?_filter]

/-- Behind the first position in order, the others come first and it comes last. -/
theorem turns_succ {rest : List Nat} (h : turns p n start = i :: rest) :
    turns p n (i + 1) = rest ++ [i] := by
  obtain ⟨xs, ys, hring, hxs, hi, hys⟩ := List.filter_eq_cons_iff.mp h
  have hat : ((List.range n).rotate start)[xs.length]? = some i := by simp [hring]
  have hindex : (start + xs.length) % n = i := by
    rw [rotate_range, List.getElem?_map, Option.map_eq_some_iff] at hat
    obtain ⟨k, hk, hki⟩ := hat
    obtain ⟨_, hrange⟩ := List.getElem?_eq_some_iff.mp hk
    rw [← hki, ← hrange, List.getElem_range]
  -- going on behind `i` is going on from the start by all of `xs` and `i`
  have hrotate : (List.range n).rotate (i + 1) =
      ((List.range n).rotate start).rotate (xs ++ [i]).length := by
    rw [List.rotate_rotate, List.length_append, List.length_singleton, ← List.rotate_mod,
      ← List.rotate_mod (List.range n) (start + _), List.length_range, ← hindex, ← Nat.add_assoc,
      Nat.mod_add_mod]
  have hnone : xs.filter p = [] := by
    rw [List.filter_eq_nil_iff]
    exact hxs
  rw [turns, hrotate, hring, List.append_cons xs i ys, List.rotate_append_length_eq,
    List.filter_append, List.filter_append, hnone, hys, List.nil_append,
    List.filter_cons_of_pos hi, List.filter_nil]

end Turns
