import Mathlib
import NemoOS.Lib.Loops
import NemoOS.Lib.Words

/-!
# Singly linked lists

The links are a function on the nodes, however they are stored. `Links next null head nodes`
says that `nodes` are the nodes from `head` on up to the null link. The two loops over such a
list that look for a node, by a test and by its position, end with what `find?` and the
index say of the list. A search by a key finds every node if the keys are different
(`find?_key_iff`).
-/

namespace Linked

open Loops Words

variable {α : Type*} {next next' : α → α} {null head : α} {nodes : List α}

inductive Links (next : α → α) (null : α) : α → List α → Prop where
  | nil : Links next null null []
  | cons {n : α} {rest : List α} : n ≠ null → Links next null (next n) rest →
      Links next null n (n :: rest)

/-- The list depends on the links of its nodes only. -/
theorem Links.congr (h : Links next null head nodes) (hnext : ∀ n ∈ nodes, next' n = next n) :
    Links next' null head nodes := by
  induction h with
  | nil => exact .nil
  | @cons n rest hne _ ih =>
      refine .cons hne ?_
      rw [hnext n List.mem_cons_self]
      exact ih fun m hm => hnext m (List.mem_cons_of_mem n hm)

variable [DecidableEq α]

/-- One round of the search for a node that passes the test. -/
def searchStep (next : α → α) (null : α) (test : α → Bool) (cur : α) : α ⊕ Option α :=
  if cur = null then .inr none else if test cur then .inr (some cur) else .inl (next cur)

theorem Links.search_halts (h : Links next null head nodes) (test : α → Bool) :
    Halts (searchStep next null test) head (nodes.find? test) := by
  induction h with
  | nil => exact halts_of_inr (if_pos rfl)
  | @cons n rest hne _ ih =>
      rw [List.find?_cons]
      cases htest : test n with
      | true =>
          refine halts_of_inr ?_
          rw [searchStep, if_neg hne, htest, if_pos rfl]
      | false =>
          refine halts_of_inl ?_ ih
          rw [searchStep, if_neg hne, htest, if_neg Bool.false_ne_true]

/-- One round of the search for the node at a position; the counter has 32 bits. -/
def indexStep (next : α → α) (null : α) (index : Nat) (s : α × Nat) : (α × Nat) ⊕ Option α :=
  if s.1 = null then .inr none
  else if s.2 = index then .inr (some s.1)
  else .inl (next s.1, u32 (s.2 + 1))

theorem Links.index_halts (h : Links next null head nodes) {index i : Nat} (hi : i ≤ index)
    (hlen : i + nodes.length < 2 ^ 32) :
    Halts (indexStep next null index) (head, i) nodes[index - i]? := by
  induction h generalizing i with
  | nil =>
      refine halts_of_inr ?_
      rw [indexStep, if_pos rfl, List.getElem?_nil]
  | @cons n rest hne _ ih =>
      rw [List.length_cons] at hlen
      by_cases hhere : i = index
      · refine halts_of_inr ?_
        rw [indexStep, if_neg hne, if_pos hhere, hhere, Nat.sub_self, List.getElem?_cons_zero]
      · have hsub : index - i = (index - (i + 1)) + 1 := by omega
        have hstep : indexStep next null index (n, i) = .inl (next n, i + 1) := by
          rw [indexStep, if_neg hne, if_neg hhere, u32_of_lt (by omega)]
        refine halts_of_inl hstep ?_
        rw [hsub, List.getElem?_cons_succ]
        exact ih (by omega) (by omega)

/-! ## Searching by a key -/

/-- In a list without a repeated value of `f`, all are found by their key if the keys are
    different. -/
theorem find?_key_iff {α β γ : Type*} [DecidableEq β] {key : α → β} {f : α → γ} {l : List α}
    (hnodup : (l.map f).Nodup) :
    (∀ x ∈ l, (l.find? fun y => key y = key x).map f = some (f x)) ↔
      l.Pairwise fun x y => key x ≠ key y := by
  induction l with
  | nil => simp
  | cons a l ih =>
      rw [List.map_cons, List.nodup_cons] at hnodup
      rw [List.pairwise_cons, ← ih hnodup.2, List.forall_mem_cons]
      have hhead : ((a :: l).find? fun y => key y = key a).map f = some (f a) := by
        rw [List.find?_cons_of_pos (by simp), Option.map_some]
      have htail : ∀ x, key a ≠ key x → ((a :: l).find? fun y => key y = key x) =
          l.find? fun y => key y = key x := fun x hne => List.find?_cons_of_neg (by simpa using hne)
      constructor
      · rintro ⟨-, hfound⟩
        have hne : ∀ x ∈ l, key a ≠ key x := by
          intro x hx heq
          have hx' := hfound x hx
          rw [List.find?_cons_of_pos (by simpa using heq), Option.map_some, Option.some.injEq] at hx'
          exact hnodup.1 (hx' ▸ List.mem_map_of_mem hx)
        refine ⟨hne, fun x hx => ?_⟩
        rw [← htail x (hne x hx)]
        exact hfound x hx
      · rintro ⟨hne, hfound⟩
        refine ⟨hhead, fun x hx => ?_⟩
        rw [htail x (hne x hx)]
        exact hfound x hx

end Linked
