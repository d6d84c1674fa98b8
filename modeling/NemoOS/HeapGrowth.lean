import NemoOS.HeapTiling

/-!
# What growing the heap costs

`heap_grow` asks for sixteen pages and hopes that they follow each other. Where they do
not, it starts again and makes a block of every single page it is given, but the pages it
took in the first attempt are neither given back nor put on the free list. The functions
`heapGrowBlocks` and `Pmm.freePages` make both sides of the account explicit: the blocks
that `list_append` is called with, and the pages that the allocator has left.

`heapGrow_conserves_iff` says when the account is balanced and `kmalloc_fails_free_iff`
what a request that fails in the end has cost.
-/

namespace NemoOS

open Words Bytes Loops

/-! ## The first attempt -/

namespace Heap

/-- The pages that the optimistic loop keeps are the first of the free ones. -/
theorem takeContiguous_freePages (first i : Nat) (p : Pmm) (n : Nat) :
    ∃ k, (takeContiguous first i p n).2.freePages = p.freePages.drop k := by
  induction n generalizing i p with
  | zero => exact ⟨0, rfl⟩
  | succ n ih =>
      rw [takeContiguous]
      cases hfree : p.freePages with
      | nil =>
          rw [Pmm.pmmAllocPage_of_nil hfree]
          exact ⟨0, hfree⟩
      | cons a rest =>
          obtain ⟨p', halloc, hrest, hclear, hlt, htotal, hbits⟩ := Pmm.pmmAllocPage_of_head hfree
          rw [halloc]
          dsimp only
          split
          · exact ⟨1, hrest⟩
          · split
            · -- the page that does not follow is the one page that is given back
              have hback := Pmm.testBit_free_taken htotal hlt hclear hbits
              refine ⟨0, ?_⟩
              rw [Pmm.freePages_congr ((Pmm.totalPages_pmmFreePage _ _).trans htotal) hback, hfree]
              rfl
            · obtain ⟨k, hk⟩ := ih (i + 1) p'
              exact ⟨k + 1, by rw [hk, hrest, List.drop_succ_cons]⟩

/-- The attempt succeeds where the pages wanted are the first of the free ones. -/
theorem takeContiguous_eq_true_iff (first i : Nat) (hspace : first + i ≤ 2 ^ 20) {p : Pmm}
    (hzero : p.testBit 0 = true) (n : Nat) :
    (takeContiguous (first * PAGE_SIZE) i p n).1 = true ↔
      List.range' (first + i) n <+: p.freePages := by
  induction n generalizing i p with
  | zero => simp [takeContiguous]
  | succ n ih =>
      rw [takeContiguous, List.range'_succ]
      cases hfree : p.freePages with
      | nil =>
          rw [Pmm.pmmAllocPage_of_nil hfree]
          simp
      | cons a rest =>
          obtain ⟨p', halloc, hrest, hne, -, hlt, -, hbits⟩ := Pmm.pmmAllocPage_of_cons hzero hfree
          have hzero' : p'.testBit 0 = true := by rw [hbits, hzero, Bool.true_or]
          have hbound := p.total_le
          have hpage : a * PAGE_SIZE ≠ 0 := Nat.mul_ne_zero (by omega) (by decide)
          -- the expected address may have wrapped around to 0, which is no page
          have hnext : a * PAGE_SIZE ≠ u32 (first * PAGE_SIZE + i * 4096) ↔ first + i ≠ a := by
            rw [u32, PAGE_SIZE]
            omega
          rw [halloc, List.cons_prefix_cons]
          dsimp only
          rw [if_neg hpage]
          by_cases heq : first + i = a
          · rw [if_neg (by rw [hnext]; exact not_not_intro heq), ih (i + 1) (by omega) hzero', hrest]
            rw [and_iff_right heq]
            rfl
          · rw [if_pos (hnext.mpr heq)]
            simp [heq]

/-- The allocator after an attempt that succeeds. -/
theorem takeContiguous_of_true (first i : Nat) (p : Pmm) (n : Nat)
    (hok : (takeContiguous first i p n).1 = true) :
    (takeContiguous first i p n).2 = p.takePages n := by
  induction n generalizing i p with
  | zero => rfl
  | succ n ih =>
      rw [takeContiguous] at hok ⊢
      dsimp only at hok ⊢
      split at hok
      · exact absurd hok Bool.false_ne_true
      · next hpage =>
        split at hok
        · exact absurd hok Bool.false_ne_true
        · next hnext =>
          rw [if_neg hpage, if_neg hnext, ih _ _ hok, Pmm.takePages_pmmAllocPage]

/-! ## The allocator behind the heap -/

theorem pmm_of_listAppend {s s' : Heap} {h : Nat} (happend : s.listAppend h = some s') :
    s'.pmm = s.pmm := by
  simp only [listAppend] at happend
  split at happend
  · obtain rfl := Option.some.inj happend
    rfl
  · split at happend
    · cases happend
    · obtain rfl := Option.some.inj happend
      rfl

/-- The fallback takes further pages, and keeps all of them. -/
theorem pmm_of_addPages {s s' : Heap} {n : Nat} (hadd : s.addPages n = some s') :
    ∃ k, s'.pmm = s.pmm.takePages k := by
  induction n generalizing s with
  | zero =>
      obtain rfl := Option.some.inj hadd
      exact ⟨0, rfl⟩
  | succ n ih =>
      rw [addPages] at hadd
      dsimp only at hadd
      split at hadd
      · obtain rfl := Option.some.inj hadd
        exact ⟨1, rfl⟩
      · split at hadd
        · cases hadd
        · next s₁ happend =>
          obtain ⟨k, hk⟩ := ih hadd
          rw [pmm_of_listAppend happend] at hk
          exact ⟨k + 1, by rw [hk, Pmm.takePages_pmmAllocPage]⟩

end Heap

/-- The requests of the fallback get the first of the free pages. -/
theorem Pmm.handedOut_eq {p : Pmm} (hzero : p.testBit 0 = true) (n : Nat) :
    p.handedOut n = p.freePages.take n := by
  induction n generalizing p with
  | zero => rfl
  | succ n ih =>
      rw [handedOut]
      cases hfree : p.freePages with
      | nil =>
          rw [pmmAllocPage_of_nil hfree]
          rfl
      | cons a rest =>
          obtain ⟨p', halloc, hrest, hne, -, -, -, hbits⟩ := pmmAllocPage_of_cons hzero hfree
          have hpage : a * PAGE_SIZE ≠ 0 := Nat.mul_ne_zero (by omega) (by decide)
          have hzero' : p'.testBit 0 = true := by rw [hbits, hzero, Bool.true_or]
          rw [halloc]
          dsimp only
          rw [if_neg hpage, ih hzero', hrest, List.take_succ_cons, Nat.mul_div_cancel a (by decide)]

namespace Heap

/-- What `heap_grow` does to the allocator and what it appends. In the last case `p` is the
    allocator that the first attempt leaves behind. -/
theorem heapGrow_cases {s s' : Heap} (hgrow : s.heapGrow = some s') :
    s.pmm.freePages = [] ∧ s'.pmm = s.pmm ∧ s.heapGrowBlocks = [] ∨
    (∃ rest, s.pmm.freePages = 0 :: rest) ∧ s'.pmm = s.pmm.takePages 1 ∧ s.heapGrowBlocks = [] ∨
    ∃ i rest, 0 < i ∧ s.pmm.freePages = i :: rest ∧
      (List.range' i 16 <+: s.pmm.freePages ∧ s'.pmm = s.pmm.takePages 16 ∧
          s.heapGrowBlocks = [⟨i * PAGE_SIZE, 16 * PAGE_SIZE⟩] ∨
        ¬ List.range' i 16 <+: s.pmm.freePages ∧ ∃ (p : Pmm) (n k : Nat), p.freePages = rest.drop n ∧
          p.testBit 0 = true ∧ p.testBit i = true ∧ s'.pmm = p.takePages k ∧
          s.heapGrowBlocks = (p.handedOut 16).map Block.ofPage) := by
  rw [heapGrow] at hgrow
  rw [heapGrowBlocks]
  cases hfree : s.pmm.freePages with
  | nil =>
      rw [Pmm.pmmAllocPage_of_nil hfree] at hgrow ⊢
      obtain rfl := Option.some.inj hgrow
      exact .inl ⟨rfl, rfl, rfl⟩
  | cons i rest =>
      obtain ⟨p', halloc, hrest, hclear, hlt, -, hbits⟩ := Pmm.pmmAllocPage_of_head hfree
      have htake : s.pmm.takePages 1 = p' := congrArg Prod.snd halloc
      rw [halloc] at hgrow ⊢
      dsimp only at hgrow ⊢
      rcases Nat.eq_zero_or_pos i with rfl | hpos
      · rw [Nat.zero_mul, if_pos rfl] at hgrow ⊢
        obtain rfl := Option.some.inj hgrow
        exact .inr (.inl ⟨⟨rest, rfl⟩, htake.symm, rfl⟩)
      · have hpage : i * PAGE_SIZE ≠ 0 := Nat.mul_ne_zero (by omega) (by decide)
        have hbound := s.pmm.total_le
        have hself : p'.testBit i = true := by rw [hbits, decide_eq_true rfl, Bool.or_true]
        have hzero : p'.testBit 0 = true := by
          rw [hbits, Pmm.testBit_of_lt_head hfree hpos, Bool.true_or]
        have hrow : List.range' i 16 <+: i :: rest ↔ List.range' (i + 1) 15 <+: p'.freePages := by
          rw [List.range'_succ, List.cons_prefix_cons, and_iff_right rfl, hrest]
        have hattempt := takeContiguous_eq_true_iff i 1 (by omega) hzero 15
        have hkept := (takeContiguous_spec i 1 (by omega) p' 15).1
        rw [if_neg hpage] at hgrow ⊢
        refine .inr (.inr ⟨i, rest, hpos, rfl, ?_⟩)
        rw [show (HEAP_GROW + 4095) / 4096 = 16 from rfl] at hgrow ⊢
        rw [hrow, ← hattempt]
        split at hgrow
        · next hok =>
          refine .inl ⟨hok, ?_, by rw [if_pos hok]⟩
          rw [pmm_of_listAppend hgrow, takeContiguous_of_true _ _ _ _ hok, ← htake,
            Pmm.takePages_takePages]
        · next hbroken =>
          obtain ⟨n, hn⟩ := takeContiguous_freePages (i * PAGE_SIZE) 1 p' 15
          obtain ⟨k, hk⟩ := pmm_of_addPages hgrow
          exact .inr ⟨hbroken, _, n, k, by rw [hn, hrest], hkept 0 hzero, hkept i hself, hk,
            by rw [if_neg hbroken]⟩

/-! ## The account of `heap_grow` -/

/-- The pages that have been taken are exactly those of the blocks that have been
    appended. -/
def Conserves (s s' : Heap) : Prop :=
  ∀ x, s.pmm.Took s'.pmm (x / PAGE_SIZE) ↔ InBlocks s.heapGrowBlocks x

/-- An attempt that is abandoned forgets the first page it has taken. -/
theorem not_conserves_of_abandoned {s s' : Heap} {i : Nat} {rest : List Nat} {p : Pmm} {k : Nat}
    (hfree : s.pmm.freePages = i :: rest)
    (hzero : p.testBit 0 = true) (hused : p.testBit i = true) (hpmm : s'.pmm = p.takePages k)
    (hblocks : s.heapGrowBlocks = (p.handedOut 16).map Block.ofPage) : ¬ Conserves s s' := by
  intro hall
  have hindex : i * PAGE_SIZE / PAGE_SIZE = i := Nat.mul_div_cancel i (by decide)
  have hmem : i ∈ s.pmm.freePages := by
    rw [hfree]
    exact List.mem_cons_self
  have htook : s.pmm.Took s'.pmm (i * PAGE_SIZE / PAGE_SIZE) := by
    rw [hindex, hpmm]
    exact ⟨(Pmm.mem_freePages.mp hmem).2, by rw [Pmm.testBit_takePages, hused, Bool.true_or]⟩
  obtain ⟨b, hb, hholds⟩ := (hall (i * PAGE_SIZE)).mp htook
  rw [hblocks, Pmm.handedOut_eq hzero] at hb
  obtain ⟨page, hpage, rfl⟩ := List.mem_map.mp hb
  -- the blocks are made of pages that were still free
  have hclear := (Pmm.mem_freePages.mp (List.mem_of_mem_take hpage)).2
  have heq : page = i := by
    obtain ⟨hlow, hhigh⟩ := hholds
    dsimp only [Block.ofPage, PAGE_SIZE] at hlow hhigh
    omega
  rw [heq, hused] at hclear
  exact Bool.false_ne_true hclear.symm

/-- **Growth keeps the account where the pages are contiguous.** What `heap_grow` takes from
    the allocator is what it puts on the free list if and only if there is no free page, or
    the sixteen lowest free pages follow each other and the page at 0 is not one of them. -/
theorem heapGrow_conserves_iff {s s' : Heap} (hgrow : s.heapGrow = some s') :
    Conserves s s' ↔
      s.pmm.freePages = [] ∨ ∃ i, 0 < i ∧ List.range' i 16 <+: s.pmm.freePages := by
  rcases heapGrow_cases hgrow with ⟨hfree, hpmm, hblocks⟩ | ⟨⟨rest, hfree⟩, hpmm, hblocks⟩ |
    ⟨i, rest, hpos, hfree, ⟨hrow, hpmm, hblocks⟩ |
      ⟨hrow, p, n, k, -, hzero, hused, hpmm, hblocks⟩⟩
  · refine iff_of_true (fun x => ?_) (.inl hfree)
    rw [hpmm, hblocks, inBlocks_nil]
    exact iff_of_false Pmm.not_took_self id
  · refine iff_of_false (fun hall => ?_) ?_
    · have htook : s.pmm.Took s'.pmm (0 / PAGE_SIZE) := by
        rw [hpmm, Pmm.took_takePages, hfree]
        exact List.mem_cons_self
      rw [hall 0, hblocks, inBlocks_nil] at htook
      exact htook
    · rw [hfree]
      rintro (hnil | ⟨i, hpos, hrow⟩)
      · nomatch hnil
      · rw [List.range'_succ, List.cons_prefix_cons] at hrow
        omega
  · refine iff_of_true (fun x => ?_) (.inr ⟨i, hpos, hrow⟩)
    have htake : s.pmm.freePages.take 16 = List.range' i 16 := by
      rw [List.prefix_iff_eq_take.mp hrow, List.length_range']
    rw [hpmm, hblocks, Pmm.took_takePages, htake, List.mem_range'_1, inBlocks_cons,
      Block.holds_pages]
    simp
  · refine iff_of_false (not_conserves_of_abandoned hfree hzero hused hpmm hblocks) ?_
    rintro (hnil | ⟨j, hpos, hall⟩)
    · rw [hfree] at hnil
      nomatch hnil
    · have hhead := hall
      rw [hfree, List.range'_succ, List.cons_prefix_cons] at hhead
      exact hrow (hhead.1 ▸ hall)

/-- Sixteen free pages in a row: they become one block. -/
theorem heapGrow_conserves_row :
    let s := pageHeap 4096 ⟨fun i => if i = 0 then 3 else 0, 18, 2, by decide⟩
    s.pmm.freePages = List.range' 2 16 ∧ ∃ s', s.heapGrow = some s' ∧ Conserves s s' := by
  intro s
  have hfree : s.pmm.freePages = List.range' 2 16 := by decide
  have hsome : s.heapGrow.isSome = true := by decide
  obtain ⟨s', hs'⟩ := Option.isSome_iff_exists.mp hsome
  exact ⟨hfree, s', hs', (heapGrow_conserves_iff hs').mpr (.inr ⟨2, by decide, hfree ▸ List.prefix_rfl⟩)⟩

/-- The lowest free page is between two pages in use: it is taken, found to have no neighbour
    and forgotten. -/
theorem heapGrow_forgets_page :
    ¬ ∀ (pages : Nat → Prop) (s s' : Heap) (free live : List Block),
      WellFormed pages s free live → HandedOut pages s.pmm → s.heapGrow = some s' →
        Conserves s s' := by
  intro hall
  obtain ⟨p, rest, hfree⟩ := Pmm.exists_hole
  have hwf : WellFormed (· = 1) (pageHeap 4096 p) [pageBlock] [] :=
    pageHeap_wellFormed rfl pageHeap_list
  have hone : HandedOut (· = 1) p := by
    rintro page rfl
    exact ⟨by decide, Pmm.testBit_of_lt_head hfree (by decide)⟩
  obtain ⟨s', -, hs', -, -⟩ := (hwf.heapInv hone).heapGrow
  have hconserves := hall _ _ s' _ _ hwf hone hs'
  have hfree' : (pageHeap 4096 p).pmm.freePages = 1025 :: 1027 :: rest := hfree
  rcases heapGrow_cases hs' with ⟨hnil, -, -⟩ | ⟨⟨_, hnil⟩, -, -⟩ |
    ⟨i, _, -, hrow, ⟨hstart, -, -⟩ | ⟨-, q, n, k, -, hzero, hused, hpmm, hblocks⟩⟩
  · rw [hfree'] at hnil
    nomatch hnil
  · rw [hfree', List.cons.injEq] at hnil
    exact absurd hnil.1 (by decide)
  · rw [hfree', List.cons.injEq] at hrow
    rw [hfree', ← hrow.1, List.range'_succ, List.range'_succ, List.cons_prefix_cons,
      List.cons_prefix_cons] at hstart
    exact absurd hstart.2.1 (by decide)
  · exact not_conserves_of_abandoned hrow hzero hused hpmm hblocks hconserves

/-! ## The cost of a request that fails -/

/-- Growing takes a page whenever there is one. -/
theorem length_freePages_heapGrow {s s' : Heap} (hgrow : s.heapGrow = some s') :
    s'.pmm.freePages.length = s.pmm.freePages.length ↔ s.pmm.freePages = [] := by
  rcases heapGrow_cases hgrow with ⟨hfree, hpmm, -⟩ | ⟨⟨rest, hfree⟩, hpmm, -⟩ |
    ⟨i, rest, -, hfree, ⟨-, hpmm, -⟩ | ⟨-, p, n, k, hrest, -, -, hpmm, -⟩⟩
  · rw [hpmm, hfree]
    exact iff_of_true rfl rfl
  · rw [hpmm, Pmm.freePages_takePages, hfree]
    simp
  · rw [hpmm, Pmm.freePages_takePages, hfree]
    simp
    omega
  · rw [hpmm, Pmm.freePages_takePages, hrest, hfree]
    simp
    omega

theorem pmm_takeBlock (s : Heap) (h needed : Nat) : (s.takeBlock h needed).2.pmm = s.pmm := by
  simp only [takeBlock]
  split <;> rfl

/-- The first search finds a block, so that the heap need not grow. -/
def Fits (s : Heap) (size : Nat) : Prop :=
  ∃ h, loop (fitStep s.mem (neededFor size)) WALK_LIMIT s.freeList = some (some h)

/-- **A request that fails has cost pages unless it never came to growing.** Of the requests
    that return null, those leave the number of free pages alone that ask for nothing, that
    find a block at once, or that find the allocator without a page. -/
theorem kmalloc_fails_free_iff {s s' : Heap} {size : Nat} (hnull : s.kmalloc size = some (0, s')) :
    s'.pmm.freePages.length = s.pmm.freePages.length ↔
      size = 0 ∨ s.Fits size ∨ s.pmm.freePages = [] := by
  rw [kmalloc] at hnull
  by_cases hsize : size = 0
  · rw [if_pos hsize, Option.some.injEq, Prod.mk.injEq] at hnull
    exact iff_of_true (by rw [hnull.2]) (.inl hsize)
  rw [if_neg hsize] at hnull
  rcases hfit : loop (fitStep s.mem (neededFor size)) WALK_LIMIT s.freeList with _ | _ | h
  · rw [hfit] at hnull
    cases hnull
  · rw [hfit] at hnull
    have hnot : ¬ s.Fits size := by
      rintro ⟨h, hh⟩
      rw [hfit] at hh
      cases hh
    rw [or_iff_right hsize, or_iff_right hnot]
    rcases hgrow : s.heapGrow with _ | s₁
    · rw [hgrow] at hnull
      cases hnull
    · rw [hgrow] at hnull
      dsimp only at hnull
      rw [← length_freePages_heapGrow hgrow]
      split at hnull
      · cases hnull
      · next b hb =>
        rw [Option.some.injEq] at hnull
        rw [← pmm_takeBlock s₁ b (neededFor size), hnull]
      · rw [Option.some.injEq, Prod.mk.injEq] at hnull
        rw [hnull.2]
  · rw [hfit] at hnull
    dsimp only at hnull
    rw [Option.some.injEq] at hnull
    exact iff_of_true (by rw [← pmm_takeBlock s h (neededFor size), hnull])
      (.inr (.inl ⟨h, hfit⟩))

/-- A heap without room and an allocator without a page. -/
theorem kmalloc_fails_free_exhausted :
    let s := pageHeap 4096 ⟨fun _ => 3, 2, 2, by decide⟩
    ∃ s', s.kmalloc 8192 = some (0, s') ∧
      s'.pmm.freePages.length = s.pmm.freePages.length := by
  intro s
  have hnull : ((s.kmalloc 8192).map Prod.fst) = some 0 := by decide
  obtain ⟨⟨ptr, s'⟩, hs', rfl⟩ := Option.map_eq_some_iff.mp hnull
  exact ⟨s', hs', (kmalloc_fails_free_iff hs').mpr (.inr (.inr (by decide)))⟩

/-- A request for 128 KiB with 64 KiB of free pages: it fails, and all of them are gone. -/
theorem kmalloc_fails_takes_pages :
    ¬ ∀ (pages : Nat → Prop) (s s' : Heap) (free live : List Block) (size : Nat),
      WellFormed pages s free live → HandedOut pages s.pmm → s.kmalloc size = some (0, s') →
        s'.pmm.freePages.length = s.pmm.freePages.length := by
  intro hall
  have hnull : (((pageHeap 4096 ⟨fun i => if i = 0 then 3 else 0, 18, 2, by decide⟩).kmalloc
      0x20000).map fun r => (r.1, r.2.pmm.freePages.length)) = some (0, 0) := by decide
  obtain ⟨⟨ptr, s'⟩, hs', hr⟩ := Option.map_eq_some_iff.mp hnull
  rw [Prod.mk.injEq] at hr
  obtain ⟨rfl, hlength⟩ := hr
  have hone : HandedOut (· = 1)
      (pageHeap 4096 ⟨fun i => if i = 0 then 3 else 0, 18, 2, by decide⟩).pmm := by
    rintro page rfl
    decide
  have hsame := hall (· = 1) _ s' [pageBlock] [] 0x20000 (pageHeap_wellFormed rfl pageHeap_list) hone hs'
  rw [hlength] at hsame
  exact absurd hsame (by decide)

end Heap

end NemoOS
