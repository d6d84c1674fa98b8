import Mathlib

/-!
# Ranges of a file stored in blocks

A file is a list of blocks of `b` bytes each. `locate` goes through the list with
an offset and says in which block, and where in it, the bytes of a range are;
`map_locate` relates it to the concatenation of the blocks.
-/

namespace Blocks

variable {β α : Type*} {b : Nat}

/-- The places of the `m` bytes from `offset` on: the block and the position in
    it. -/
def locate (b : Nat) : List β → Nat → Nat → List (β × Nat)
  | [], _, _ => []
  | c :: chain, offset, m =>
      if b ≤ offset then locate b chain (offset - b) m
      else
        (List.range (min (b - offset) m)).map (fun i => (c, offset + i)) ++
          locate b chain 0 (m - min (b - offset) m)

@[simp] theorem locate_zero (chain : List β) (offset : Nat) : locate b chain offset 0 = [] := by
  induction chain generalizing offset with
  | nil => rfl
  | cons c chain ih => simp [locate, ih]

theorem mem_locate {chain : List β} {offset m : Nat} {x : β × Nat}
    (h : x ∈ locate b chain offset m) : x.1 ∈ chain ∧ x.2 < b := by
  induction chain generalizing offset m with
  | nil => simp [locate] at h
  | cons c chain ih =>
      rw [locate] at h
      split at h
      · obtain ⟨hmem, hlt⟩ := ih h
        exact ⟨List.mem_cons_of_mem _ hmem, hlt⟩
      · rcases List.mem_append.mp h with hhere | hlater
        · obtain ⟨i, hi, rfl⟩ := List.mem_map.mp hhere
          have hi' := List.mem_range.mp hi
          exact ⟨List.mem_cons_self, by simp only; omega⟩
        · obtain ⟨hmem, hlt⟩ := ih hlater
          exact ⟨List.mem_cons_of_mem _ hmem, hlt⟩

theorem map_range_eq_take_drop (f : Nat → α) (b offset m : Nat) :
    (List.range (min (b - offset) m)).map (fun i => f (offset + i)) =
      (((List.range b).map f).drop offset).take m := by
  apply List.ext_getElem
  · simp [Nat.min_comm]
  · intro i hi hi'
    simp

theorem locate_past {c : β} {chain : List β} {offset m : Nat} (hle : b ≤ offset) :
    locate b (c :: chain) offset m = locate b chain (offset - b) m := by
  rw [locate, if_pos hle]

theorem locate_here {c : β} {chain : List β} {offset m : Nat} (hlt : offset < b) :
    locate b (c :: chain) offset m =
      (List.range (min (b - offset) m)).map (fun i => (c, offset + i)) ++
        locate b chain 0 (m - min (b - offset) m) := by
  rw [locate, if_neg (Nat.not_le.mpr hlt)]

/-- The bytes at the located places are the range of the concatenation. -/
theorem map_locate (block : β → Nat → α) (chain : List β) (offset m : Nat) :
    (locate b chain offset m).map (fun x => block x.1 x.2) =
      ((chain.flatMap fun c => (List.range b).map (block c)).drop offset).take m := by
  induction chain generalizing offset m with
  | nil => simp [locate]
  | cons c chain ih =>
      have hlen : ((List.range b).map (block c)).length = b := by simp
      rw [locate, List.flatMap_cons, List.drop_append, hlen]
      split
      · next hle =>
          have hpast : ((List.range b).map (block c)).drop offset = [] :=
            List.drop_eq_nil_of_le (by rwa [hlen])
          rw [ih, hpast, List.nil_append]
      · next hlt =>
          have hnext : m - min (b - offset) m = m - (b - offset) := by omega
          have hzero : offset - b = 0 := by omega
          rw [List.map_append, List.map_map, ih, List.take_append, List.length_drop, hlen, hnext,
            hzero, List.drop_zero]
          congr 1
          exact map_range_eq_take_drop (block c) b offset m

theorem length_locate {chain : List β} {offset m : Nat}
    (hlong : offset + m ≤ chain.length * b) : (locate b chain offset m).length = m := by
  induction chain generalizing offset m with
  | nil =>
      rw [List.length_nil, Nat.zero_mul] at hlong
      simp only [locate, List.length_nil]
      omega
  | cons c chain ih =>
      rw [List.length_cons, Nat.succ_mul] at hlong
      rw [locate]
      split
      · exact ih (by omega)
      · rw [List.length_append, List.length_map, List.length_range]
        by_cases hhere : m ≤ b - offset
        · rw [Nat.min_eq_right hhere, Nat.sub_self, locate_zero, List.length_nil, Nat.add_zero]
        · rw [ih (by omega)]
          omega

end Blocks
