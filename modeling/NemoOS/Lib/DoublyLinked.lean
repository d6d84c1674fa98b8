import Mathlib
import NemoOS.Lib.Loops

/-!
# Doubly linked lists

The links of a list are two functions on its nodes, however they are stored.
`Seg next prev before head nodes last after` is a segment: it is entered at `head`
from `before` and left from `last` to `after`. A list is a segment between two null
links. The edits (`IsList.remove`, `IsList.replace`, `IsList.append`) are stated by
what they do to the links of the nodes that stay, so that they can be used for any
representation in which the edits of one node's links do not disturb another's.
-/

namespace Linked

open Loops

variable {α : Type*} {next prev next' prev' : α → α} {null head head' : α}

def Seg (next prev : α → α) : α → α → List α → α → α → Prop
  | before, head, [], last, after => head = after ∧ last = before
  | before, head, n :: nodes, last, after =>
      head = n ∧ prev n = before ∧ Seg next prev n (next n) nodes last after

theorem seg_append {xs ys : List α} {before last after : α} :
    Seg next prev before head (xs ++ ys) last after ↔
      ∃ mid link, Seg next prev before head xs mid link ∧
        Seg next prev mid link ys last after := by
  induction xs generalizing before head with
  | nil =>
      constructor
      · intro h
        exact ⟨before, head, ⟨rfl, rfl⟩, h⟩
      · rintro ⟨mid, link, ⟨rfl, rfl⟩, h⟩
        exact h
  | cons x xs ih =>
      simp only [List.cons_append, Seg, ih]
      constructor
      · rintro ⟨hhead, hprev, mid, link, hfirst, hsecond⟩
        exact ⟨mid, link, ⟨hhead, hprev, hfirst⟩, hsecond⟩
      · rintro ⟨mid, link, ⟨hhead, hprev, hfirst⟩, hsecond⟩
        exact ⟨hhead, hprev, mid, link, hfirst, hsecond⟩

/-- A segment depends only on the links of its nodes. -/
theorem Seg.congr {nodes : List α} {before last after : α}
    (h : Seg next prev before head nodes last after) (hnext : ∀ x ∈ nodes, next' x = next x)
    (hprev : ∀ x ∈ nodes, prev' x = prev x) :
    Seg next' prev' before head nodes last after := by
  induction nodes generalizing before head with
  | nil => exact h
  | cons n nodes ih =>
      obtain ⟨hhead, hbefore, hrest⟩ := h
      refine ⟨hhead, ?_, ?_⟩
      · rw [hprev n List.mem_cons_self, hbefore]
      · rw [hnext n List.mem_cons_self]
        exact ih hrest (fun x hx => hnext x (List.mem_cons_of_mem _ hx))
          fun x hx => hprev x (List.mem_cons_of_mem _ hx)

theorem Seg.last_eq {nodes : List α} {before last after : α}
    (h : Seg next prev before head nodes last after) : last = nodes.getLastD before := by
  induction nodes generalizing before head with
  | nil => exact h.2
  | cons n nodes ih =>
      rw [List.getLastD_cons]
      exact ih h.2.2

theorem Seg.head_eq {nodes : List α} {before last after : α}
    (h : Seg next prev before head nodes last after) : head = nodes.headD after := by
  cases nodes with
  | nil => exact h.1
  | cons n nodes => exact h.1

/-! ## Lists -/

structure IsList (next prev : α → α) (null head : α) (nodes : List α) : Prop where
  null_notMem : null ∉ nodes
  nodup : nodes.Nodup
  seg : Seg next prev null head nodes (nodes.getLastD null) null

theorem isList_nil : IsList next prev null null [] := ⟨by simp, by simp, rfl, rfl⟩

theorem IsList.congr {nodes : List α} (h : IsList next prev null head nodes)
    (hnext : ∀ x ∈ nodes, next' x = next x) (hprev : ∀ x ∈ nodes, prev' x = prev x) :
    IsList next' prev' null head nodes :=
  ⟨h.null_notMem, h.nodup, h.seg.congr hnext hprev⟩

theorem IsList.head_eq {nodes : List α} (h : IsList next prev null head nodes) :
    head = nodes.headD null := h.seg.head_eq

/-- A list, cut at one of its nodes. -/
theorem IsList.cut {xs ys : List α} {n : α} (h : IsList next prev null head (xs ++ n :: ys)) :
    Seg next prev null head xs (prev n) n ∧ prev n = xs.getLastD null ∧
      next n = ys.headD null ∧ Seg next prev n (next n) ys (ys.getLastD n) null := by
  obtain ⟨mid, link, hfirst, hlink, hprev, hsecond⟩ := seg_append.mp h.seg
  subst hlink hprev
  have hlast := hsecond.last_eq
  rw [hlast] at hsecond
  exact ⟨hfirst, hfirst.last_eq, hsecond.head_eq, hsecond⟩

theorem IsList.nodup_cut {xs ys : List α} {n : α}
    (h : IsList next prev null head (xs ++ n :: ys)) :
    (xs ++ ys).Nodup ∧ n ∉ xs ++ ys ∧ null ∉ xs ++ ys ∧ n ≠ null := by
  have hnodup := List.nodup_middle.mp h.nodup
  obtain ⟨hfresh, hrest⟩ := List.nodup_cons.mp hnodup
  refine ⟨hrest, hfresh, ?_, ?_⟩
  · intro hmem
    apply h.null_notMem
    rcases List.mem_append.mp hmem with hx | hy
    · exact List.mem_append_left _ hx
    · exact List.mem_append_right _ (List.mem_cons_of_mem _ hy)
  · rintro rfl
    exact h.null_notMem (by simp)

theorem IsList.prev_eq_null_iff {xs ys : List α} {n : α}
    (h : IsList next prev null head (xs ++ n :: ys)) : prev n = null ↔ xs = [] := by
  rw [h.cut.2.1]
  constructor
  · intro heq
    cases xs with
    | nil => rfl
    | cons x xs =>
        have hmem : xs.getLastD x ∈ x :: xs := List.getLastD_mem_cons
        rw [List.getLastD_cons] at heq
        rw [heq] at hmem
        exact absurd (List.mem_append_left _ hmem) h.null_notMem
  · rintro rfl
    rfl

theorem IsList.head_eq_null_iff {nodes : List α} (h : IsList next prev null head nodes) :
    head = null ↔ nodes = [] := by
  rw [h.head_eq]
  cases nodes with
  | nil => simp
  | cons n nodes =>
      have hne : n ≠ null := by
        rintro rfl
        exact h.null_notMem List.mem_cons_self
      simp [hne]

theorem IsList.head_eq_iff {xs ys : List α} {n : α}
    (h : IsList next prev null head (xs ++ n :: ys)) : head = n ↔ xs = [] := by
  rw [h.head_eq]
  cases xs with
  | nil => simp
  | cons x xs =>
      have hne : x ≠ n := by
        rintro rfl
        exact h.nodup_cut.2.1 (by simp)
      simp [hne]

/-- The neighbours of a node are other nodes of the list. -/
theorem IsList.prev_mem {xs ys : List α} {n : α} (h : IsList next prev null head (xs ++ n :: ys))
    (hne : prev n ≠ null) : prev n ∈ xs ++ ys := by
  have hmem : xs.getLastD null ∈ null :: xs := List.getLastD_mem_cons
  rw [← h.cut.2.1] at hmem
  exact List.mem_append_left _ ((List.mem_cons.mp hmem).resolve_left hne)

theorem IsList.next_mem {xs ys : List α} {n : α} (h : IsList next prev null head (xs ++ n :: ys))
    (hne : next n ≠ null) : next n ∈ xs ++ ys := by
  have hnext := h.cut.2.2.1
  cases ys with
  | nil => exact absurd hnext hne
  | cons y ys =>
      rw [hnext]
      simp

/-- What is not another node of the list is no neighbour. -/
theorem IsList.ne_neighbours {xs ys : List α} {n x : α}
    (h : IsList next prev null head (xs ++ n :: ys)) (hx : x ∉ xs ++ ys) (hne : x ≠ null) :
    x ≠ prev n ∧ x ≠ next n := by
  constructor
  · intro heq
    exact hx (heq ▸ h.prev_mem (heq ▸ hne))
  · intro heq
    exact hx (heq ▸ h.next_mem (heq ▸ hne))

/-! ## Walking along a list -/

/-- A loop that follows the links and stops at the first node that `found`
    accepts. -/
theorem IsList.loop_find {ρ : Type*} {step : α → α ⊕ ρ} {nodes : List α} {found : α → Bool}
    {result : Option α → ρ} (h : IsList next prev null head nodes)
    (hnull : step null = .inr (result none))
    (hfound : ∀ n ∈ nodes, found n = true → step n = .inr (result (some n)))
    (hnext : ∀ n ∈ nodes, found n = false → step n = .inl (next n)) {fuel : Nat}
    (hfuel : nodes.length < fuel) : loop step fuel head = some (result (nodes.find? found)) := by
  have hwalk : ∀ (nodes : List α) (before head last : α) (fuel : Nat),
      Seg next prev before head nodes last null →
      (∀ n ∈ nodes, found n = true → step n = .inr (result (some n))) →
      (∀ n ∈ nodes, found n = false → step n = .inl (next n)) → nodes.length < fuel →
      loop step fuel head = some (result (nodes.find? found)) := by
    intro nodes
    induction nodes with
    | nil =>
        intro before head last fuel hseg _ _ hfuel
        obtain ⟨fuel, rfl⟩ : ∃ n, fuel = n + 1 := ⟨fuel - 1, by omega⟩
        rw [loop, hseg.1, hnull]
        rfl
    | cons n nodes ih =>
        intro before head last fuel hseg hfound hnext hfuel
        obtain ⟨rfl, -, hrest⟩ := hseg
        obtain ⟨fuel, rfl⟩ : ∃ n, fuel = n + 1 := ⟨fuel - 1, by omega⟩
        rw [loop, List.find?_cons]
        cases hf : found head with
        | true => rw [hfound head List.mem_cons_self hf]
        | false =>
            rw [hnext head List.mem_cons_self hf]
            exact ih _ _ _ _ hrest (fun x hx => hfound x (List.mem_cons_of_mem _ hx))
              (fun x hx => hnext x (List.mem_cons_of_mem _ hx)) (Nat.lt_of_succ_lt_succ hfuel)
  exact hwalk nodes null head _ fuel h.seg hfound hnext hfuel

/-- A loop that follows the links as long as there is a next node. -/
theorem IsList.loop_last {step : α → α ⊕ α} {nodes : List α}
    (h : IsList next prev null head nodes) (hne : nodes ≠ [])
    (hstop : ∀ n ∈ nodes, next n = null → step n = .inr n)
    (hgo : ∀ n ∈ nodes, next n ≠ null → step n = .inl (next n)) {fuel : Nat}
    (hfuel : nodes.length < fuel) : loop step fuel head = some (nodes.getLastD null) := by
  have hwalk : ∀ (nodes : List α) (before head last : α) (fuel : Nat),
      Seg next prev before head nodes last null → null ∉ nodes → nodes ≠ [] →
      (∀ n ∈ nodes, next n = null → step n = .inr n) →
      (∀ n ∈ nodes, next n ≠ null → step n = .inl (next n)) → nodes.length < fuel →
      loop step fuel head = some (nodes.getLastD before) := by
    intro nodes
    induction nodes with
    | nil =>
        intro before head last fuel _ _ hne
        exact absurd rfl hne
    | cons n nodes ih =>
        intro before head last fuel hseg hnull _ hstop hgo hfuel
        obtain ⟨rfl, -, hrest⟩ := hseg
        obtain ⟨fuel, rfl⟩ : ∃ n, fuel = n + 1 := ⟨fuel - 1, by omega⟩
        rw [loop, List.getLastD_cons]
        cases nodes with
        | nil => rw [hstop head List.mem_cons_self hrest.1, List.getLastD_nil]
        | cons y nodes =>
            have hnext : next head ≠ null := by
              rw [hrest.1]
              rintro rfl
              exact hnull (by simp)
            rw [hgo head List.mem_cons_self hnext]
            exact ih _ _ _ _ hrest (fun hmem => hnull (List.mem_cons_of_mem _ hmem)) (by simp)
              (fun x hx => hstop x (List.mem_cons_of_mem _ hx))
              (fun x hx => hgo x (List.mem_cons_of_mem _ hx)) (Nat.lt_of_succ_lt_succ hfuel)
  exact hwalk nodes null head _ fuel h.seg h.null_notMem hne hstop hgo hfuel

/-! ## Edits -/

variable [DecidableEq α]

/-- Leaving a segment to somewhere else: only the link of its last node changes. -/
theorem Seg.set_after {nodes : List α} {before last after after' : α}
    (h : Seg next prev before head nodes last after) (hnodup : nodes.Nodup)
    (hnext : ∀ x ∈ nodes, next' x = if x = last then after' else next x)
    (hprev : ∀ x ∈ nodes, prev' x = prev x) (hhead : head' = if nodes = [] then after' else head) :
    Seg next' prev' before head' nodes last after' := by
  induction nodes generalizing before head head' with
  | nil => exact ⟨by simpa using hhead, h.2⟩
  | cons n nodes ih =>
      obtain ⟨rfl, hbefore, hrest⟩ := h
      obtain ⟨hfresh, hnodup'⟩ := List.nodup_cons.mp hnodup
      refine ⟨by simpa using hhead, ?_, ?_⟩
      · rw [hprev head List.mem_cons_self, hbefore]
      · refine ih hrest hnodup' (fun x hx => hnext x (List.mem_cons_of_mem _ hx))
          (fun x hx => hprev x (List.mem_cons_of_mem _ hx)) ?_
        rw [hnext head List.mem_cons_self]
        cases nodes with
        | nil =>
            obtain ⟨-, rfl⟩ := hrest
            simp
        | cons y nodes =>
            -- the last node is a later one
            have hlast : head ≠ last := by
              rw [hrest.last_eq, List.getLastD_cons]
              intro heq
              apply hfresh
              have hmem : nodes.getLastD y ∈ y :: nodes := List.getLastD_mem_cons
              exact heq ▸ hmem
            simp [hlast]

/-- Entering a segment from somewhere else: only the link of its first node
    changes. -/
theorem Seg.set_before {nodes : List α} {before before' last after : α}
    (h : Seg next prev before head nodes last after) (hnodup : nodes.Nodup)
    (hnext : ∀ x ∈ nodes, next' x = next x)
    (hprev : ∀ x ∈ nodes, prev' x = if x = head then before' else prev x) :
    Seg next' prev' before' head nodes (nodes.getLastD before') after := by
  cases nodes with
  | nil => exact ⟨h.1, rfl⟩
  | cons n nodes =>
      obtain ⟨rfl, -, hrest⟩ := h
      obtain ⟨hfresh, -⟩ := List.nodup_cons.mp hnodup
      refine ⟨rfl, ?_, ?_⟩
      · rw [hprev head List.mem_cons_self, if_pos rfl]
      · rw [hnext head List.mem_cons_self, List.getLastD_cons, ← hrest.last_eq]
        apply hrest.congr
        · intro x hx
          exact hnext x (List.mem_cons_of_mem _ hx)
        · intro x hx
          have hne : x ≠ head := by
            intro heq
            exact hfresh (heq ▸ hx)
          rw [hprev x (List.mem_cons_of_mem _ hx), if_neg hne]

/-- The nodes around the cut, linked to each other through `mid`. -/
theorem IsList.splice {xs ys : List α} {n first last : α}
    (h : IsList next prev null head (xs ++ n :: ys)) (mid : List α) (hmid : (xs ++ mid ++ ys).Nodup)
    (hnull : null ∉ mid)
    (hnext : ∀ x ∈ xs ++ ys, next' x = if x = prev n then first else next x)
    (hprev : ∀ x ∈ xs ++ ys, prev' x = if x = next n then last else prev x)
    (hseg : Seg next' prev' (prev n) first mid last (next n))
    (hhead : head' = if xs = [] then first else head) :
    IsList next' prev' null head' (xs ++ mid ++ ys) := by
  obtain ⟨hfirst, hprev_eq, hnext_eq, hsecond⟩ := h.cut
  obtain ⟨hnodup, hfresh, hnull', hne⟩ := h.nodup_cut
  have hdisjoint := List.disjoint_of_nodup_append hnodup
  refine ⟨?_, hmid, ?_⟩
  · simp only [List.mem_append, not_or] at hnull' ⊢
    exact ⟨⟨hnull'.1, hnull⟩, hnull'.2⟩
  · have hbefore : Seg next' prev' null head' xs (prev n) first := by
      apply hfirst.set_after (List.Nodup.of_append_left hnodup) _ _ hhead
      · intro x hx
        exact hnext x (List.mem_append_left _ hx)
      · intro x hx
        -- the link that changes belongs to a node after the cut
        rw [hprev x (List.mem_append_left _ hx), if_neg]
        intro heq
        cases ys with
        | nil =>
            have hx' : x = null := by rw [heq, hnext_eq]; rfl
            exact hnull' (List.mem_append_left _ (hx' ▸ hx))
        | cons y ys =>
            rw [hnext_eq] at heq
            exact hdisjoint hx (by simp [heq])
    have hafter : Seg next' prev' last (next n) ys (ys.getLastD last) null := by
      apply hsecond.set_before (List.Nodup.of_append_right hnodup)
      · intro x hx
        rw [hnext x (List.mem_append_right _ hx), if_neg]
        intro heq
        rw [hprev_eq] at heq
        have hmem : xs.getLastD null ∈ null :: xs := List.getLastD_mem_cons
        rw [← heq] at hmem
        rcases List.mem_cons.mp hmem with rfl | hxs
        · exact hnull' (List.mem_append_right _ hx)
        · exact hdisjoint hxs hx
      · intro x hx
        exact hprev x (List.mem_append_right _ hx)
    have hall : Seg next' prev' null head' (xs ++ mid ++ ys) (ys.getLastD last) null :=
      seg_append.mpr ⟨last, next n, seg_append.mpr ⟨prev n, first, hbefore, hseg⟩, hafter⟩
    rwa [← hall.last_eq]

/-- Taking a node out of the list. -/
theorem IsList.remove {xs ys : List α} {n : α} (h : IsList next prev null head (xs ++ n :: ys))
    (hnext : ∀ x ∈ xs ++ ys, next' x = if x = prev n then next n else next x)
    (hprev : ∀ x ∈ xs ++ ys, prev' x = if x = next n then prev n else prev x)
    (hhead : head' = if xs = [] then next n else head) :
    IsList next' prev' null head' (xs ++ ys) := by
  have hmid : xs ++ [] ++ ys = xs ++ ys := by rw [List.append_nil]
  rw [← hmid]
  apply h.splice [] _ (by simp) hnext hprev ⟨rfl, rfl⟩ hhead
  rw [hmid]
  exact h.nodup_cut.1

/-- Putting a new node in the place of another. -/
theorem IsList.replace {xs ys : List α} {n m : α}
    (h : IsList next prev null head (xs ++ n :: ys)) (hm : m ∉ xs ++ ys) (hnull : m ≠ null)
    (hnext : ∀ x ∈ xs ++ ys, next' x = if x = prev n then m else next x)
    (hprev : ∀ x ∈ xs ++ ys, prev' x = if x = next n then m else prev x)
    (hnext_m : next' m = next n) (hprev_m : prev' m = prev n)
    (hhead : head' = if xs = [] then m else head) :
    IsList next' prev' null head' (xs ++ m :: ys) := by
  have hmid : xs ++ [m] ++ ys = xs ++ m :: ys := by simp
  rw [← hmid]
  apply h.splice [m] _ _ hnext hprev ⟨rfl, hprev_m, hnext_m, rfl⟩ hhead
  · rw [hmid, List.nodup_middle]
    exact List.nodup_cons.mpr ⟨hm, h.nodup_cut.1⟩
  · rw [List.mem_singleton]
    exact hnull.symm

/-- Appending a node. -/
theorem IsList.append {nodes : List α} {n : α} (h : IsList next prev null head nodes)
    (hn : n ∉ nodes) (hnull : n ≠ null)
    (hnext : ∀ x ∈ nodes, next' x = if x = nodes.getLastD null then n else next x)
    (hprev : ∀ x ∈ nodes, prev' x = prev x) (hnext_n : next' n = null)
    (hprev_n : prev' n = nodes.getLastD null)
    (hhead : head' = if nodes = [] then n else head) :
    IsList next' prev' null head' (nodes ++ [n]) := by
  refine ⟨?_, ?_, ?_⟩
  · simp only [List.mem_append, List.mem_singleton, not_or]
    exact ⟨h.null_notMem, hnull.symm⟩
  · exact List.nodup_append.mpr ⟨h.nodup, List.nodup_singleton n, by
      intro a ha b hb heq
      rw [List.mem_singleton.mp hb] at heq
      exact hn (heq ▸ ha)⟩
  · rw [List.getLastD_concat, seg_append]
    exact ⟨nodes.getLastD null, n, h.seg.set_after h.nodup hnext hprev hhead, rfl, hprev_n,
      hnext_n, rfl⟩

end Linked
