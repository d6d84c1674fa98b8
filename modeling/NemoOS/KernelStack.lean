import NemoOS.ProcessCreation

/-!
# The pages of a kernel stack

`alloc_kernel_stack` needs two pages side by side. It asks for two pages, and where they are
not adjacent it gives both back and calls itself. The allocator hands out the lowest free
pages, so that the next call gets the same two: the recursion ends at once or never
(`allocKernelStack_of_apart`). The page at 0 is in the way too, since its address is taken
for a failure.

`allocKernelStack_contract_iff` says for which states of the allocator the function does
what it is for.
-/

namespace NemoOS

open Words Bytes Machine

/-- Two free pages side by side. -/
def Pmm.HasPair (p : Pmm) : Prop := ∃ a ∈ p.freePages, a + 1 ∈ p.freePages

theorem Pmm.two_le_of_hasPair {p : Pmm} (h : p.HasPair) : 2 ≤ p.freePages.length := by
  obtain ⟨a, ha, hnext⟩ := h
  rcases hfree : p.freePages with _ | ⟨b, _ | ⟨c, rest⟩⟩
  · rw [hfree] at ha
    nomatch ha
  · rw [hfree, List.mem_singleton] at ha hnext
    omega
  · rw [List.length_cons, List.length_cons]
    omega

/-- Without a free page the call fails. -/
theorem allocKernelStack_of_nil {m : Machine} (hfree : m.pmm.freePages = []) (n : Nat) :
    ∃ m', m.allocKernelStack (n + 1) = some (0, m') := by
  rw [allocKernelStack, Pmm.pmmAllocPage_of_nil hfree]
  exact ⟨_, if_pos (.inl rfl)⟩

/-- With the page at 0 free the call fails. -/
theorem allocKernelStack_of_zero {m : Machine} {rest : List Nat}
    (hfree : m.pmm.freePages = 0 :: rest) (n : Nat) :
    ∃ m', m.allocKernelStack (n + 1) = some (0, m') := by
  obtain ⟨p, halloc, -, -, -, -, -⟩ := Pmm.pmmAllocPage_of_head hfree
  rw [allocKernelStack, halloc, Nat.zero_mul]
  exact ⟨_, if_pos (.inl rfl)⟩

/-- What the function is for: it returns, and where two adjacent pages are free it returns
    the address of the lower one of such a pair, with these two pages marked and no other. -/
structure StackContract (m : Machine) : Prop where
  returns : ∃ n r, m.allocKernelStack n = some r
  finds : m.pmm.HasPair → ∃ n a m', m.allocKernelStack n = some (a * PAGE_SIZE, m') ∧ 0 < a ∧
    a ∈ m.pmm.freePages ∧ a + 1 ∈ m.pmm.freePages ∧
    ∀ k, m'.pmm.testBit k = (m.pmm.testBit k || decide (a = k) || decide (a + 1 = k))

/-- The states of the allocator in which the function keeps its contract: the two lowest
    free pages are adjacent, or there is no pair and the call fails without a retry. -/
def Pmm.StackReady (p : Pmm) : Prop :=
  (∃ a rest, 0 < a ∧ p.freePages = a :: (a + 1) :: rest) ∨
    ¬ p.HasPair ∧ (p.freePages.length < 2 ∨ p.freePages.head? = some 0)

/-- The lowest free page is 0 and there is a pair further up: the call fails. -/
theorem not_stackContract_of_zero {m : Machine} {rest : List Nat}
    (hfree : m.pmm.freePages = 0 :: rest) (hpair : m.pmm.HasPair) : ¬ StackContract m := by
  intro hcontract
  obtain ⟨n, a, m', hcall, hpos, -⟩ := hcontract.finds hpair
  cases n with
  | zero => nomatch hcall
  | succ n =>
      obtain ⟨m₀, hnull⟩ := allocKernelStack_of_zero hfree n
      rw [hnull, Option.some.injEq, Prod.mk.injEq, PAGE_SIZE] at hcall
      omega

/-- The two lowest free pages are adjacent. -/
theorem stackContract_of_pair {m : Machine} {a : Nat} {rest : List Nat} (hpos : 0 < a)
    (hfree : m.pmm.freePages = a :: (a + 1) :: rest) : StackContract m := by
  have hzero : m.pmm.testBit 0 = true := Pmm.testBit_of_lt_head hfree hpos
  obtain ⟨p, -, -, -, -, -, -, -, hbits, hcall⟩ := allocKernelStack_succ hzero hfree 0
  rw [if_pos rfl] at hcall
  refine ⟨⟨1, _, hcall⟩, fun _ => ⟨1, a, _, hcall, hpos, ?_, ?_, hbits⟩⟩
  · rw [hfree]
    exact List.mem_cons_self
  · rw [hfree]
    exact List.mem_cons_of_mem _ List.mem_cons_self

/-- Fewer than two free pages, or the page at 0 free: the call fails at once. -/
theorem stackContract_of_none {m : Machine} (hpair : ¬ m.pmm.HasPair)
    (hfails : m.pmm.freePages.length < 2 ∨ m.pmm.freePages.head? = some 0) : StackContract m := by
  refine ⟨?_, fun h => absurd h hpair⟩
  rcases hfree : m.pmm.freePages with _ | ⟨a, rest⟩
  · obtain ⟨m', hcall⟩ := allocKernelStack_of_nil hfree 0
    exact ⟨1, _, hcall⟩
  · rcases Nat.eq_zero_or_pos a with rfl | hpos
    · obtain ⟨m', hcall⟩ := allocKernelStack_of_zero hfree 0
      exact ⟨1, _, hcall⟩
    · have hzero : m.pmm.testBit 0 = true := Pmm.testBit_of_lt_head hfree hpos
      have hshort : m.pmm.freePages.length < 2 := by
        refine hfails.resolve_right fun hhead => ?_
        rw [hfree, List.head?_cons, Option.some.injEq] at hhead
        omega
      obtain ⟨pmm, hcall, -⟩ := allocKernelStack_of_short hzero hshort 0
      exact ⟨1, _, hcall⟩

/-- **The kernel stack is found where the lowest free pages allow it.** The function returns,
    with a pair where there is one, if and only if the two lowest free pages are adjacent
    (and neither is the page at 0), or there is no pair and fewer than two pages are free or
    the page at 0 is the lowest of them. -/
theorem allocKernelStack_contract_iff (m : Machine) : StackContract m ↔ m.pmm.StackReady := by
  constructor
  · intro hcontract
    by_cases hshort : m.pmm.freePages.length < 2
    · refine .inr ⟨fun hpair => ?_, .inl hshort⟩
      exact Nat.not_lt.mpr (Pmm.two_le_of_hasPair hpair) hshort
    rcases hfree : m.pmm.freePages with _ | ⟨a, _ | ⟨b, rest⟩⟩
    · rw [hfree] at hshort
      exact absurd (by decide) hshort
    · rw [hfree] at hshort
      exact absurd Nat.one_lt_two hshort
    · rcases Nat.eq_zero_or_pos a with rfl | hpos
      · refine .inr ⟨fun hpair => not_stackContract_of_zero hfree hpair hcontract, .inr ?_⟩
        rw [hfree]
        rfl
      · have hzero : m.pmm.testBit 0 = true := Pmm.testBit_of_lt_head hfree hpos
        by_cases hnext : b = a + 1
        · subst hnext
          exact .inl ⟨a, rest, hpos, hfree⟩
        · obtain ⟨n, r, hcall⟩ := hcontract.returns
          rw [allocKernelStack_of_apart hzero hfree hnext] at hcall
          nomatch hcall
  · rintro (⟨a, rest, hpos, hfree⟩ | ⟨hpair, hfails⟩)
    · exact stackContract_of_pair hpos hfree
    · exact stackContract_of_none hpair hfails

/-- The lowest free page is between two pages in use, and the others are adjacent: no number of
    calls is enough. -/
theorem allocKernelStack_never_returns :
    ¬ ∀ m : Machine, m.pmm.testBit 0 = true → StackContract m := by
  intro hall
  obtain ⟨p, rest, hfree⟩ := Pmm.exists_hole
  have hzero := Pmm.testBit_of_lt_head hfree (by decide : 0 < 1025)
  obtain ⟨n, r, hcall⟩ := (hall ⟨fun _ => 0, p, 0⟩ hzero).returns
  rw [allocKernelStack_of_apart (m := ⟨fun _ => 0, p, 0⟩) hzero hfree (by decide)] at hcall
  nomatch hcall

end NemoOS
