import Mathlib
import NemoOS.Pmm
import NemoOS.Lib.Runs

/-!
# The page allocator as a finite set

What the bitmap and the counter of `memory/pmm_bitmap.cpp` are for is a set of page
numbers: a request takes the least number that is not in the set, a release takes one
number out. `Pmm.marked` reads the set off the bitmap, and `pmm_refines_set` says that
after `pmm_init` the allocator behaves as the set in every run of requests and
releases, with any addresses, and that the counter is the size of the set.
-/

namespace NemoOS

open Words Transition

inductive PmmCall where
  | allocPage
  | freePage (page : Nat)
deriving DecidableEq, Repr

/-! ## The set -/

namespace PageSet

/-- The least number below `total` that is not in the set. -/
def lowest (total : Nat) (used : Finset Nat) : Option Nat :=
  (List.range total).find? fun i => decide (i ∉ used)

/-- The set after a call. -/
def exec (total : Nat) (used : Finset Nat) : PmmCall → Finset Nat
  | .allocPage => (lowest total used).elim used (insert · used)
  | .freePage page => used.erase (page / PAGE_SIZE)

variable {total i : Nat} {used : Finset Nat}

theorem lowest_eq_none (h : ∀ j < total, j ∈ used) : lowest total used = none := by
  rw [lowest, List.find?_eq_none]
  intro j hj
  simpa using h j (List.mem_range.mp hj)

theorem lowest_eq_some (hi : i < total) (hfree : i ∉ used) (hbefore : ∀ j < i, j ∈ used) :
    lowest total used = some i := by
  rw [lowest, List.find?_range_eq_some]
  refine ⟨decide_eq_true hfree, List.mem_range.mpr hi, fun j hj => ?_⟩
  simpa using hbefore j hj

theorem isLeast_of_lowest (h : lowest total used = some i) :
    IsLeast {j | j < total ∧ j ∉ used} i := by
  rw [lowest, List.find?_range_eq_some] at h
  obtain ⟨hfree, hi, hbefore⟩ := h
  refine ⟨⟨List.mem_range.mp hi, of_decide_eq_true hfree⟩, fun j hj => ?_⟩
  by_contra hlt
  have hused := hbefore j (Nat.lt_of_not_le hlt)
  simp [hj.2] at hused

end PageSet

namespace Pmm

/-- The pages below the total that are marked used. -/
def marked (p : Pmm) : Finset Nat := (Finset.range p.totalPages).filter (p.testBit · = true)

def exec (p : Pmm) : PmmCall → Pmm
  | .allocPage => p.pmmAllocPage.2
  | .freePage page => p.pmmFreePage page

theorem mem_marked {p : Pmm} {i : Nat} :
    i ∈ p.marked ↔ i < p.totalPages ∧ p.testBit i = true := by
  rw [marked, Finset.mem_filter, Finset.mem_range]

theorem notMem_marked {p : Pmm} {i : Nat} (hi : i < p.totalPages) :
    i ∉ p.marked ↔ p.testBit i = false := by
  rw [mem_marked, not_and, Bool.not_eq_true]
  exact ⟨fun h => h hi, fun h _ => h⟩

theorem card_marked_le (p : Pmm) : p.marked.card ≤ p.totalPages := by
  have hle := Finset.card_filter_le (Finset.range p.totalPages) (p.testBit · = true)
  rwa [Finset.card_range] at hle

/-! ## One call -/

/-- A request takes the least number that is not in the set. -/
theorem marked_pmmAllocPage (p : Pmm) :
    (PageSet.lowest p.totalPages p.marked = none ∧ p.pmmAllocPage = (0, p)) ∨
    ∃ i, PageSet.lowest p.totalPages p.marked = some i ∧ i ∉ p.marked ∧
      p.pmmAllocPage.1 = i * PAGE_SIZE ∧ p.pmmAllocPage.2.marked = insert i p.marked ∧
      p.pmmAllocPage.2.usedPages = u32 (p.usedPages + 1) := by
  rcases p.pmmAllocPage_cases with ⟨halloc, hall⟩ | ⟨i, hi, hclear, hbefore, halloc⟩
  · exact .inl ⟨PageSet.lowest_eq_none fun j hj => mem_marked.mpr ⟨hj, hall j hj⟩, halloc⟩
  · have hfree : i ∉ p.marked := (notMem_marked hi).mpr hclear
    have hlowest : PageSet.lowest p.totalPages p.marked = some i :=
      PageSet.lowest_eq_some hi hfree fun j hj => mem_marked.mpr ⟨hj.trans hi, hbefore j hj⟩
    have hmarked : p.pmmAllocPage.2.marked = insert i p.marked := by
      ext j
      rw [mem_marked, totalPages_pmmAllocPage, Finset.mem_insert, mem_marked, halloc]
      have hbit : testBit { p.setBit i with usedPages := u32 (p.usedPages + 1) } j =
          (p.testBit j || decide (i = j)) := p.testBit_setBit i j
      rw [hbit, Bool.or_eq_true, decide_eq_true_eq]
      constructor
      · rintro ⟨hj, hbit | rfl⟩
        · exact Or.inr ⟨hj, hbit⟩
        · exact Or.inl rfl
      · rintro (rfl | ⟨hj, hbit⟩)
        · exact ⟨hi, Or.inr rfl⟩
        · exact ⟨hj, Or.inl hbit⟩
    exact .inr ⟨i, hlowest, hfree, by rw [halloc], hmarked, by rw [halloc]⟩

/-- A release takes one number out. -/
theorem marked_pmmFreePage (p : Pmm) (page : Nat) :
    (p.pmmFreePage page).marked = p.marked.erase (page / PAGE_SIZE) := by
  ext j
  rw [mem_marked, totalPages_pmmFreePage, Finset.mem_erase, mem_marked, testBit_pmmFreePage,
    Bool.and_eq_true, Bool.not_eq_true', decide_eq_false_iff_not]
  constructor
  · rintro ⟨hj, hbit, hother⟩
    exact ⟨fun heq => hother ⟨heq.symm, hj⟩, hj, hbit⟩
  · rintro ⟨hne, hj, hbit⟩
    exact ⟨hj, hbit, fun h => hne h.1.symm⟩

/-- The counter changes with the set, if it changes at all. -/
theorem usedPages_pmmFreePage (p : Pmm) (page : Nat) :
    (page / PAGE_SIZE ∈ p.marked ∧ (p.pmmFreePage page).usedPages = sub32 p.usedPages 1) ∨
      page / PAGE_SIZE ∉ p.marked ∧ p.pmmFreePage page = p := by
  by_cases hmem : page / PAGE_SIZE ∈ p.marked
  · obtain ⟨hindex, hbit⟩ := mem_marked.mp hmem
    refine .inl ⟨hmem, ?_⟩
    simp only [pmmFreePage, if_neg (Nat.not_le.mpr hindex), if_pos hbit]
  · refine .inr ⟨hmem, ?_⟩
    simp only [pmmFreePage]
    split
    · rfl
    · next hindex =>
      rw [(notMem_marked (Nat.lt_of_not_le hindex)).mp hmem, if_neg Bool.false_ne_true]

/-! ## The counter -/

/-- Between the two states the counter has moved by as much as the size of the set. -/
def Balanced (p p' : Pmm) : Prop :=
  u32 (p'.usedPages + p.marked.card) = u32 (p.usedPages + p'.marked.card)

theorem Balanced.trans {p p' p'' : Pmm} (h : p.Balanced p') (h' : p'.Balanced p'') :
    p.Balanced p'' := by
  rw [Balanced, u32, u32] at *
  omega

theorem balanced_pmmAllocPage (p : Pmm) : p.Balanced p.pmmAllocPage.2 := by
  rcases p.marked_pmmAllocPage with ⟨-, halloc⟩ | ⟨i, -, hfree, -, hmarked, hused⟩
  · rw [halloc, Balanced]
  · rw [Balanced, hmarked, Finset.card_insert_of_notMem hfree, hused, u32, u32, u32]
    omega

theorem balanced_pmmFreePage (p : Pmm) (page : Nat) : p.Balanced (p.pmmFreePage page) := by
  rcases p.usedPages_pmmFreePage page with ⟨hmem, hused⟩ | ⟨-, hsame⟩
  · have hpos := Finset.card_pos.mpr ⟨_, hmem⟩
    rw [Balanced, marked_pmmFreePage, Finset.card_erase_of_mem hmem, hused, sub32, u32, u32, u32]
    omega
  · rw [hsame, Balanced]

/-- The counter is a `uint32_t`. -/
theorem usedPages_pmmAllocPage_lt {p : Pmm} (h : p.usedPages < 2 ^ 32) :
    p.pmmAllocPage.2.usedPages < 2 ^ 32 := by
  rcases p.marked_pmmAllocPage with ⟨-, halloc⟩ | ⟨i, -, -, -, -, hused⟩
  · rw [halloc]
    exact h
  · rw [hused]
    exact u32_lt _

theorem usedPages_pmmFreePage_lt {p : Pmm} (h : p.usedPages < 2 ^ 32) (page : Nat) :
    (p.pmmFreePage page).usedPages < 2 ^ 32 := by
  rcases p.usedPages_pmmFreePage page with ⟨-, hused⟩ | ⟨-, hsame⟩
  · rw [hused]
    exact u32_lt _
  · rw [hsame]
    exact h

theorem balanced_foldl_pmmFreePage (pages : List Nat) (p : Pmm) :
    p.Balanced (pages.foldl pmmFreePage p) := by
  induction pages generalizing p with
  | nil => rfl
  | cons a pages ih => exact (p.balanced_pmmFreePage a).trans (ih _)

theorem usedPages_foldl_pmmFreePage_lt {p : Pmm} (h : p.usedPages < 2 ^ 32) (pages : List Nat) :
    (pages.foldl pmmFreePage p).usedPages < 2 ^ 32 := by
  induction pages generalizing p with
  | nil => exact h
  | cons a pages ih => exact ih (usedPages_pmmFreePage_lt h a)

/-- The bytes of the bitmap are determined by its bits. -/
theorem bitmap_eq_of_testBit {p p' : Pmm} (h : ∀ k, p'.testBit k = p.testBit k) :
    p'.bitmap = p.bitmap := by
  funext i
  apply UInt8.toNat_inj.mp
  apply Nat.eq_of_testBit_eq
  intro j
  by_cases hj : j < 8
  · have hbit := h (8 * i + j)
    rw [testBit, testBit, show (8 * i + j) / 8 = i by omega, show (8 * i + j) % 8 = j by omega] at hbit
    exact hbit
  · have hpow : 2 ^ 8 ≤ 2 ^ j := Nat.pow_le_pow_right (by decide) (Nat.not_lt.mp hj)
    rw [Nat.testBit_lt_two_pow (Nat.lt_of_lt_of_le (UInt8.toNat_lt _) hpow),
      Nat.testBit_lt_two_pow (Nat.lt_of_lt_of_le (UInt8.toNat_lt _) hpow)]

/-- Two states with the same pages in use between which the counter kept up are the same. -/
theorem eq_of_balanced {p p' : Pmm} (hbits : ∀ k, p'.testBit k = p.testBit k)
    (htotal : p'.totalPages = p.totalPages) (hbalanced : p.Balanced p')
    (hlt : p.usedPages < 2 ^ 32) (hlt' : p'.usedPages < 2 ^ 32) : p' = p := by
  have hmarked : p'.marked = p.marked := by
    ext i
    rw [mem_marked, mem_marked, htotal, hbits]
  have hused : p'.usedPages = p.usedPages := by
    rw [Balanced, hmarked, u32, u32] at hbalanced
    omega
  have hbitmap := bitmap_eq_of_testBit hbits
  obtain ⟨bitmap, totalPages, usedPages, total_le⟩ := p
  obtain ⟨bitmap', totalPages', usedPages', total_le'⟩ := p'
  dsimp only at hbitmap htotal hused
  subst hbitmap htotal hused
  rfl

/-- The counter is the number of marked pages. -/
def Counted (p : Pmm) : Prop := p.usedPages = p.marked.card

theorem Counted.usedPages_lt {p : Pmm} (h : p.Counted) : p.usedPages < 2 ^ 32 := by
  have hle := p.card_marked_le
  have htotal := p.total_le
  rw [h]
  omega

/-- A counter that starts right stays right. -/
theorem Counted.of_balanced {p p' : Pmm} (h : p.Counted) (hbalanced : p.Balanced p')
    (hlt : p'.usedPages < 2 ^ 32) : p'.Counted := by
  have hle := p'.card_marked_le
  have htotal := p'.total_le
  rw [Balanced, h, u32, u32] at hbalanced
  rw [Counted]
  omega

theorem exec_marked {p : Pmm} (hcount : p.Counted) (c : PmmCall) :
    (p.exec c).Counted ∧ (p.exec c).marked = PageSet.exec p.totalPages p.marked c ∧
      (p.exec c).totalPages = p.totalPages := by
  have hlt := hcount.usedPages_lt
  cases c with
  | allocPage =>
      refine ⟨hcount.of_balanced p.balanced_pmmAllocPage (usedPages_pmmAllocPage_lt hlt), ?_,
        p.totalPages_pmmAllocPage⟩
      rcases p.marked_pmmAllocPage with ⟨hlowest, halloc⟩ | ⟨i, hlowest, -, -, hmarked, -⟩
      · rw [PageSet.exec, hlowest, exec, halloc]
        rfl
      · rw [PageSet.exec, hlowest, exec, hmarked]
        rfl
  | freePage page =>
      exact ⟨hcount.of_balanced (p.balanced_pmmFreePage page) (usedPages_pmmFreePage_lt hlt page),
        p.marked_pmmFreePage page, p.totalPages_pmmFreePage page⟩

/-! ## The start -/

theorem foldl_setBit (n : Nat) (p : Pmm) :
    ((List.range n).foldl setBit p).totalPages = p.totalPages ∧
      ((List.range n).foldl setBit p).usedPages = p.usedPages ∧
      ∀ i, ((List.range n).foldl setBit p).testBit i = (p.testBit i || decide (i < n)) := by
  induction n with
  | zero => simp
  | succ n ih =>
      obtain ⟨htotal, hused, hbit⟩ := ih
      rw [List.range_succ, List.foldl_append, List.foldl_cons, List.foldl_nil]
      refine ⟨htotal, hused, fun i => ?_⟩
      rw [testBit_setBit, hbit, Bool.or_assoc, ← Bool.decide_or]
      congr 2
      rw [eq_iff_iff]
      omega

/-- The reserved pages are marked, as far as there are that many. -/
theorem pmmInit_spec (memoryMb : Nat) :
    (pmmInit memoryMb).totalPages = u32 (memoryMb * 1024 * 1024) / PAGE_SIZE ∧
      (pmmInit memoryMb).usedPages =
        min RESERVED_PAGES (u32 (memoryMb * 1024 * 1024) / PAGE_SIZE) ∧
      ∀ i, (pmmInit memoryMb).testBit i =
        decide (i < min RESERVED_PAGES (u32 (memoryMb * 1024 * 1024) / PAGE_SIZE)) := by
  obtain ⟨htotal, hused, hbit⟩ := foldl_setBit
    (min RESERVED_PAGES (u32 (memoryMb * 1024 * 1024) / PAGE_SIZE))
    { bitmap := fun _ => 0
      totalPages := u32 (memoryMb * 1024 * 1024) / PAGE_SIZE
      usedPages := min RESERVED_PAGES (u32 (memoryMb * 1024 * 1024) / PAGE_SIZE)
      total_le := by
        have hlt := u32_lt (memoryMb * 1024 * 1024)
        rw [PAGE_SIZE]
        omega }
  refine ⟨htotal, hused, fun i => (hbit i).trans ?_⟩
  simp [testBit]

theorem pmmInit_marked {memoryMb : Nat} (hmax : memoryMb ≤ 1024) :
    (pmmInit memoryMb).totalPages = memoryMb * 256 ∧ (pmmInit memoryMb).Counted ∧
      (pmmInit memoryMb).marked = Finset.range (min RESERVED_PAGES (memoryMb * 256)) := by
  obtain ⟨htotal, hused, hbit⟩ := pmmInit_spec memoryMb
  -- up to 1024 MiB the number of bytes does not wrap around
  have hpages : u32 (memoryMb * 1024 * 1024) / PAGE_SIZE = memoryMb * 256 := by
    rw [u32_of_lt (by omega), PAGE_SIZE]
    omega
  rw [hpages] at htotal hused hbit
  have hmarked :
      (pmmInit memoryMb).marked = Finset.range (min RESERVED_PAGES (memoryMb * 256)) := by
    ext i
    rw [mem_marked, Finset.mem_range, htotal, hbit, decide_eq_true_eq]
    omega
  refine ⟨htotal, ?_, hmarked⟩
  rw [Counted, hmarked, Finset.card_range, hused]

/-- `pmm_init` reserves the first 1024 pages. -/
theorem freePages_pmmInit {memoryMb : Nat} (hmax : memoryMb ≤ 1024) :
    (pmmInit memoryMb).freePages = List.range' 1024 (memoryMb * 256 - 1024) := by
  have htotal := (pmmInit_marked hmax).1
  have hbits := (pmmInit_spec memoryMb).2.2
  rw [← (pmmInit_spec memoryMb).1, htotal, RESERVED_PAGES] at hbits
  by_cases hsmall : memoryMb * 256 ≤ 1024
  · rw [Nat.sub_eq_zero_of_le hsmall, List.range'_zero, List.eq_nil_iff_forall_not_mem]
    intro i hi
    obtain ⟨hlt, hclear⟩ := mem_freePages.mp hi
    rw [hbits, decide_eq_false_iff_not] at hclear
    omega
  · have hbefore : ∀ j < 1024, (pmmInit memoryMb).testBit j = true := by
      intro j hj
      rw [hbits, decide_eq_true_eq]
      omega
    rw [freePages_eq (by omega) hbefore, htotal, List.filter_eq_self]
    intro j hj
    have hle := (List.mem_range'_1.mp hj).1
    rw [hbits, Bool.not_eq_true', decide_eq_false_iff_not]
    omega

/-! ## Whole runs -/

theorem reachable_marked {memoryMb : Nat} (hmax : memoryMb ≤ 1024) {calls : List PmmCall} {p : Pmm}
    (hrun : Run (Deterministic exec) (pmmInit memoryMb) calls p) :
    p.totalPages = memoryMb * 256 ∧ p.Counted ∧
      p.marked = calls.foldl (PageSet.exec (memoryMb * 256))
        (Finset.range (min RESERVED_PAGES (memoryMb * 256))) := by
  induction hrun with
  | nil => exact pmmInit_marked hmax
  | snoc _ hlast ih =>
      obtain ⟨htotal, hcount, hmarked⟩ := ih
      obtain ⟨hcount', hmarked', htotal'⟩ := exec_marked hcount _
      rw [Deterministic] at hlast
      rw [hlast] at hcount' hmarked' htotal'
      rw [List.foldl_append, List.foldl_cons, List.foldl_nil, ← hmarked, ← htotal]
      exact ⟨htotal', hcount', hmarked'⟩

/-- **The page allocator refines a finite set.** After `pmm_init` the marked pages are,
    in every run of requests and releases, the set that the same calls make of the
    reserved pages. `pmm_used_pages` is its size and `pmm_free_pages` does not
    underflow. The next request marks the least unused page and returns its address, or
    returns null and changes nothing if there is none; a release unmarks at most the
    page with its address. -/
theorem pmm_refines_set {memoryMb : Nat} (hmax : memoryMb ≤ 1024) {calls : List PmmCall} {p : Pmm}
    (hrun : Run (Deterministic exec) (pmmInit memoryMb) calls p) :
    p.pmmTotalPages = memoryMb * 256 ∧
      p.marked = calls.foldl (PageSet.exec (memoryMb * 256))
        (Finset.range (min RESERVED_PAGES (memoryMb * 256))) ∧
      p.pmmUsedPages = p.marked.card ∧
      p.marked.card ≤ p.pmmTotalPages ∧ p.pmmFreePages = p.pmmTotalPages - p.marked.card ∧
      ((∃ i, IsLeast {j | j < p.pmmTotalPages ∧ j ∉ p.marked} i ∧
          p.pmmAllocPage.1 = i * PAGE_SIZE ∧ p.pmmAllocPage.2.marked = insert i p.marked) ∨
        (∀ j < p.pmmTotalPages, j ∈ p.marked) ∧ p.pmmAllocPage = (0, p)) ∧
      ∀ page, (p.pmmFreePage page).marked = p.marked.erase (page / PAGE_SIZE) := by
  obtain ⟨htotal, hcount, hmarked⟩ := reachable_marked hmax hrun
  have hle := p.card_marked_le
  have hbound := p.total_le
  refine ⟨htotal, hmarked, hcount, hle, ?_, ?_, p.marked_pmmFreePage⟩
  · rw [pmmFreePages, pmmTotalPages, hcount]
    exact sub32_of_le hle (by omega)
  · rcases p.marked_pmmAllocPage with ⟨hlowest, hresult⟩ | ⟨i, hlowest, -, hresult, hafter, -⟩
    · refine Or.inr ⟨fun j hj => ?_, hresult⟩
      rw [PageSet.lowest, List.find?_eq_none] at hlowest
      simpa using hlowest j (List.mem_range.mpr hj)
    · exact Or.inl ⟨i, PageSet.isLeast_of_lowest hlowest, hresult, hafter⟩

/-- Page 0 is released through a null pointer, twice, after releases of an address that is
    not aligned and of one that is out of range. -/
theorem pmm_refines_set_foreign :
    let calls := [PmmCall.freePage 8195, .freePage 0xFFFFFFFF, .freePage 0, .freePage 0]
    let p := calls.foldl exec (pmmInit 4)
    p.pmmTotalPages = 1024 ∧ p.marked = ((Finset.range 1024).erase 2).erase 0 ∧
      p.pmmUsedPages = p.marked.card ∧ (p.pmmFreePage 4096).marked = p.marked.erase 1 := by
  intro calls p
  obtain ⟨htotal, hmarked, hused, -, -, -, hfree⟩ :=
    pmm_refines_set (by decide) (run_foldl exec (pmmInit 4) calls)
  refine ⟨htotal, hmarked.trans ?_, hused, hfree 4096⟩
  simp [calls, PageSet.exec, PAGE_SIZE, RESERVED_PAGES]

end Pmm

end NemoOS
