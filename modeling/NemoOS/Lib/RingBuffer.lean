import Mathlib

/-!
# Circular buffers with separate head, tail and count

`RingBuffer α` is the raw representation: an array of slots and three counters. The
capacity is a parameter of the operations, as it is a constant in the code that
uses them. `RingBuffer.WF` is the representation invariant, `RingBuffer.contents` the
queue it stands for, oldest element first. The four results used from outside
are `WF.push`, `WF.pop`, `contents_push` and `contents_eq_cons`: pushing appends
at the back, popping removes the front, and both keep the invariant.
-/

namespace Circular

variable {α : Type*}

structure RingBuffer (α : Type*) where
  slots : Nat → α
  head : Nat
  tail : Nat
  count : Nat

/-- The counters describe a window of `count` consecutive slots that starts at
    `head` and ends before `tail`, modulo the capacity. -/
structure RingBuffer.WF (cap : Nat) (r : RingBuffer α) : Prop where
  head_lt : r.head < cap
  count_le : r.count ≤ cap
  tail_eq : r.tail = (r.head + r.count) % cap

/-- The stored elements, oldest first. -/
def RingBuffer.contents (cap : Nat) (r : RingBuffer α) : List α :=
  (List.range r.count).map fun i => r.slots ((r.head + i) % cap)

def RingBuffer.push (cap : Nat) (r : RingBuffer α) (x : α) : RingBuffer α where
  slots := Function.update r.slots r.tail x
  head := r.head
  tail := (r.tail + 1) % cap
  count := r.count + 1

def RingBuffer.pop (cap : Nat) (r : RingBuffer α) : RingBuffer α :=
  { r with head := (r.head + 1) % cap, count := r.count - 1 }

@[simp] theorem RingBuffer.length_contents (cap : Nat) (r : RingBuffer α) :
    (r.contents cap).length = r.count := by
  simp [RingBuffer.contents]

/-- Offsets within one revolution name distinct slots. -/
theorem mod_add_ne {cap head i j : Nat} (hij : i < j) (hj : j < cap) :
    (head + i) % cap ≠ (head + j) % cap := by
  intro heq
  have hdvd : cap ∣ (head + j) - (head + i) :=
    (Nat.modEq_iff_dvd' (by omega)).mp heq
  have hle := Nat.le_of_dvd (by omega) hdvd
  omega

theorem RingBuffer.WF.push {cap : Nat} {r : RingBuffer α} (h : r.WF cap) (hroom : r.count < cap) (x : α) :
    (r.push cap x).WF cap where
  head_lt := h.head_lt
  count_le := hroom
  tail_eq := by
    simp only [RingBuffer.push, h.tail_eq, Nat.mod_add_mod, Nat.add_assoc]

theorem RingBuffer.WF.pop {cap : Nat} {r : RingBuffer α} (h : r.WF cap) (hpos : 0 < r.count) :
    (r.pop cap).WF cap where
  head_lt := Nat.mod_lt _ (by have := h.head_lt; omega)
  count_le := by have := h.count_le; simp only [RingBuffer.pop]; omega
  tail_eq := by
    have hshift : r.head + 1 + (r.count - 1) = r.head + r.count := by omega
    simp only [RingBuffer.pop, h.tail_eq, Nat.mod_add_mod, hshift]

/-- Pushing appends at the back of the queue. -/
theorem RingBuffer.contents_push {cap : Nat} {r : RingBuffer α} (h : r.WF cap) (hroom : r.count < cap)
    (x : α) : (r.push cap x).contents cap = r.contents cap ++ [x] := by
  have hold : ∀ i ∈ List.range r.count,
      Function.update r.slots r.tail x ((r.head + i) % cap) = r.slots ((r.head + i) % cap) := by
    intro i hi
    have hne : (r.head + i) % cap ≠ r.tail := by
      rw [h.tail_eq]
      exact mod_add_ne (List.mem_range.mp hi) hroom
    exact Function.update_of_ne hne _ _
  have hnew : Function.update r.slots r.tail x ((r.head + r.count) % cap) = x := by
    rw [← h.tail_eq, Function.update_self]
  simp only [RingBuffer.contents, RingBuffer.push, List.range_succ, List.map_append, List.map_cons,
    List.map_nil, hnew, List.map_congr_left hold]

/-- Popping removes the front of the queue, which is the slot at `head`. -/
theorem RingBuffer.contents_eq_cons {cap : Nat} {r : RingBuffer α} (h : r.WF cap) (hpos : 0 < r.count) :
    r.contents cap = r.slots r.head :: (r.pop cap).contents cap := by
  obtain ⟨n, hn⟩ : ∃ n, r.count = n + 1 := ⟨r.count - 1, by omega⟩
  have hfirst : r.head % cap = r.head := Nat.mod_eq_of_lt h.head_lt
  have hrest : ∀ i ∈ List.range n,
      r.slots ((r.head + (i + 1)) % cap) = r.slots (((r.head + 1) % cap + i) % cap) := by
    intro i _
    rw [Nat.mod_add_mod]
    congr 2
    omega
  simp only [RingBuffer.contents, RingBuffer.pop, hn, Nat.add_sub_cancel, List.range_succ_eq_map,
    List.map_cons, List.map_map, Nat.add_zero, hfirst]
  congr 1
  exact List.map_congr_left hrest

end Circular
