import Mathlib
import NemoOS.Lib.Words

/-!
# The physical page allocator

`memory/pmm_bitmap.cpp`: a bitmap with one bit a page, set for pages in use. The
model keeps the bytes of the bitmap; the lemmas below describe the bit operations
by the bits they change, and `pmmAllocPage_cases` the allocator by what it does to
the set of used pages.
-/

namespace NemoOS

open Words

def PAGE_SIZE : Nat := 4096

/-- The bitmap and the counters. A 32-bit address space has `2 ^ 20` pages. -/
structure Pmm where
  bitmap : Nat → UInt8
  totalPages : Nat
  usedPages : Nat
  total_le : totalPages ≤ 2 ^ 20

namespace Pmm

/-- `bitmap[bit / 8] & (1 << (bit % 8))`. -/
def testBit (p : Pmm) (bit : Nat) : Bool := (p.bitmap (bit / 8)).toNat.testBit (bit % 8)

/-- `bitmap[bit / 8] |= (1 << (bit % 8))`. -/
def setBit (p : Pmm) (bit : Nat) : Pmm :=
  { p with
    bitmap := Function.update p.bitmap (bit / 8)
      (UInt8.ofNat ((p.bitmap (bit / 8)).toNat ||| 2 ^ (bit % 8))) }

/-- `bitmap[bit / 8] &= ~(1 << (bit % 8))`. -/
def clearBit (p : Pmm) (bit : Nat) : Pmm :=
  { p with
    bitmap := Function.update p.bitmap (bit / 8)
      (UInt8.ofNat ((p.bitmap (bit / 8)).toNat &&& (255 ^^^ 2 ^ (bit % 8)))) }

def RESERVED_PAGES : Nat := 1024

def pmmInit (memoryMb : Nat) : Pmm :=
  let empty : Pmm :=
    { bitmap := fun _ => 0
      totalPages := u32 (memoryMb * 1024 * 1024) / PAGE_SIZE
      usedPages := min RESERVED_PAGES (u32 (memoryMb * 1024 * 1024) / PAGE_SIZE)
      total_le := by
        have hlt := u32_lt (memoryMb * 1024 * 1024)
        rw [PAGE_SIZE]
        omega }
  (List.range empty.usedPages).foldl setBit empty

/-- The loop of `pmm_alloc_page` from page `i`, with `n` pages to go. -/
def findClear (p : Pmm) (i : Nat) : Nat → Option Nat
  | 0 => none
  | n + 1 => if p.testBit i then p.findClear (i + 1) n else some i

/-- The address of the page, 0 for `nullptr`, and the new state. -/
def pmmAllocPage (p : Pmm) : Nat × Pmm :=
  match p.findClear 0 p.totalPages with
  | some i => (u32 (i * PAGE_SIZE), { p.setBit i with usedPages := u32 (p.usedPages + 1) })
  | none => (0, p)

def pmmFreePage (p : Pmm) (page : Nat) : Pmm :=
  let index := page / PAGE_SIZE
  if index ≥ p.totalPages then p
  else if p.testBit index then
    { p.clearBit index with usedPages := sub32 p.usedPages 1 }
  else p

/-- The difference of two `uint32_t` counters. -/
def pmmFreePages (p : Pmm) : Nat := sub32 p.totalPages p.usedPages

def pmmUsedPages (p : Pmm) : Nat := p.usedPages

def pmmTotalPages (p : Pmm) : Nat := p.totalPages

/-! ## The bit operations -/

theorem byte_testBit_or (b : UInt8) {i j : Nat} (hj : j < 8) :
    (UInt8.ofNat (b.toNat ||| 2 ^ i)).toNat.testBit j = (b.toNat.testBit j || decide (i = j)) := by
  rw [UInt8.toNat_ofNat', Nat.testBit_mod_two_pow, Nat.testBit_or, Nat.testBit_two_pow]
  simp [hj]

theorem byte_testBit_clear (b : UInt8) {i j : Nat} (hj : j < 8) :
    (UInt8.ofNat (b.toNat &&& (255 ^^^ 2 ^ i))).toNat.testBit j =
      (b.toNat.testBit j && !decide (i = j)) := by
  have hones : Nat.testBit 255 j = true := by
    rw [show 255 = 2 ^ 8 - 1 from rfl, Nat.testBit_two_pow_sub_one]
    simpa using hj
  rw [UInt8.toNat_ofNat', Nat.testBit_mod_two_pow, Nat.testBit_and, Nat.testBit_xor, hones,
    Nat.testBit_two_pow]
  simp [hj]

theorem testBit_setBit (p : Pmm) (i j : Nat) :
    (p.setBit i).testBit j = (p.testBit j || decide (i = j)) := by
  unfold testBit setBit
  by_cases hbyte : j / 8 = i / 8
  · have hbit : (i % 8 = j % 8) = (i = j) := by
      apply propext
      omega
    simp only [hbyte, Function.update_self]
    rw [byte_testBit_or _ (Nat.mod_lt _ (by decide))]
    simp only [hbit]
  · have hne : i ≠ j := by
      rintro rfl
      exact hbyte rfl
    simp [Function.update_of_ne hbyte, hne]

theorem testBit_clearBit (p : Pmm) (i j : Nat) :
    (p.clearBit i).testBit j = (p.testBit j && !decide (i = j)) := by
  unfold testBit clearBit
  by_cases hbyte : j / 8 = i / 8
  · have hbit : (i % 8 = j % 8) = (i = j) := by
      apply propext
      omega
    simp only [hbyte, Function.update_self]
    rw [byte_testBit_clear _ (Nat.mod_lt _ (by decide))]
    simp only [hbit]
  · have hne : i ≠ j := by
      rintro rfl
      exact hbyte rfl
    simp [Function.update_of_ne hbyte, hne]

/-! ## Allocation and release -/

theorem findClear_cases (p : Pmm) (i n : Nat) :
    (p.findClear i n = none ∧ ∀ j, i ≤ j → j < i + n → p.testBit j = true) ∨
    ∃ k, p.findClear i n = some k ∧ i ≤ k ∧ k < i + n ∧ p.testBit k = false ∧
      ∀ j, i ≤ j → j < k → p.testBit j = true := by
  induction n generalizing i with
  | zero => exact Or.inl ⟨rfl, fun j hle hlt => by omega⟩
  | succ n ih =>
      rw [findClear]
      by_cases hbit : p.testBit i
      · rw [if_pos hbit]
        rcases ih (i + 1) with ⟨hnone, hall⟩ | ⟨k, hsome, hle, hlt, hclear, hbefore⟩
        · refine Or.inl ⟨hnone, fun j hle hlt => ?_⟩
          rcases Nat.eq_or_lt_of_le hle with rfl | hlater
          · exact hbit
          · exact hall j hlater (by omega)
        · refine Or.inr ⟨k, hsome, by omega, by omega, hclear, fun j hle' hlt' => ?_⟩
          rcases Nat.eq_or_lt_of_le hle' with rfl | hlater
          · exact hbit
          · exact hbefore j hlater hlt'
      · rw [if_neg hbit]
        exact Or.inr ⟨i, rfl, le_refl i, by omega, by simpa using hbit, fun j hle hlt => by omega⟩

/-- Either every page is in use, or the lowest free page is taken. -/
theorem pmmAllocPage_cases (p : Pmm) :
    (p.pmmAllocPage = (0, p) ∧ ∀ j < p.totalPages, p.testBit j = true) ∨
    ∃ i < p.totalPages, p.testBit i = false ∧ (∀ j < i, p.testBit j = true) ∧
      p.pmmAllocPage =
        (i * PAGE_SIZE, { p.setBit i with usedPages := u32 (p.usedPages + 1) }) := by
  rcases p.findClear_cases 0 p.totalPages with ⟨hnone, hall⟩ | ⟨i, hsome, -, hlt, hclear, hbefore⟩
  · refine Or.inl ⟨by simp [pmmAllocPage, hnone], fun j hj => ?_⟩
    exact hall j (Nat.zero_le j) (by omega)
  · have htotal := p.total_le
    have haddress : u32 (i * PAGE_SIZE) = i * PAGE_SIZE := by
      apply u32_of_lt
      rw [PAGE_SIZE]
      omega
    refine Or.inr ⟨i, by omega, hclear, fun j hj => hbefore j (Nat.zero_le j) hj, ?_⟩
    simp [pmmAllocPage, hsome, haddress]

/-- Every page in use stays in use. -/
def Keeps (p p' : Pmm) : Prop := ∀ page, p.testBit page = true → p'.testBit page = true

theorem Keeps.trans {p p' p'' : Pmm} (h : Keeps p p') (h' : Keeps p' p'') : Keeps p p'' :=
  fun page hpage => h' page (h page hpage)

/-- A page that is free later was free before. -/
theorem Keeps.clear {p p' : Pmm} (h : Keeps p p') {page : Nat} (hpage : p'.testBit page = false) :
    p.testBit page = false := by
  by_contra hused
  rw [Bool.not_eq_false] at hused
  rw [h page hused] at hpage
  exact Bool.false_ne_true hpage.symm

/-- A page that `pmm_alloc_page` returns was free, is now in use, and is not the
    page at 0. -/
theorem pmmAllocPage_spec (p : Pmm) :
    p.Keeps p.pmmAllocPage.2 ∧
      (p.pmmAllocPage.1 = 0 ∨
        ∃ i, 0 < i ∧ i < 2 ^ 20 ∧ p.pmmAllocPage.1 = i * PAGE_SIZE ∧ p.testBit i = false ∧
          ∀ j, p.pmmAllocPage.2.testBit j = (p.testBit j || decide (i = j))) := by
  rcases p.pmmAllocPage_cases with ⟨halloc, -⟩ | ⟨i, hi, hclear, -, halloc⟩
  · rw [halloc]
    exact ⟨fun page h => h, Or.inl rfl⟩
  · have hbit : ∀ j, p.pmmAllocPage.2.testBit j = (p.testBit j || decide (i = j)) := by
      intro j
      rw [halloc]
      exact p.testBit_setBit i j
    have htotal := p.total_le
    refine ⟨fun page hpage => by rw [hbit, hpage, Bool.true_or], ?_⟩
    rcases Nat.eq_zero_or_pos i with rfl | hpos
    · exact Or.inl (by rw [halloc, Nat.zero_mul])
    · exact Or.inr ⟨i, hpos, by omega, by rw [halloc], hclear, hbit⟩

/-- A release clears the bit of the page, if there is such a page. -/
theorem testBit_pmmFreePage (p : Pmm) (page k : Nat) :
    (p.pmmFreePage page).testBit k =
      (p.testBit k && !decide (page / PAGE_SIZE = k ∧ k < p.totalPages)) := by
  have hclear : ∀ n, testBit { p.clearBit (page / PAGE_SIZE) with usedPages := n } k =
      (p.clearBit (page / PAGE_SIZE)).testBit k := fun _ => rfl
  simp only [pmmFreePage]
  split
  · rename_i hbeyond
    have hnot : ¬ (page / PAGE_SIZE = k ∧ k < p.totalPages) := by omega
    simp [hnot]
  · rename_i hbelow
    split
    · rw [hclear, testBit_clearBit]
      congr 2
      rw [decide_eq_decide]
      omega
    · rename_i hfree
      by_cases hk : page / PAGE_SIZE = k
      · rw [hk, Bool.not_eq_true] at hfree
        rw [hfree, Bool.false_and]
      · simp [hk]

theorem totalPages_pmmFreePage (p : Pmm) (page : Nat) :
    (p.pmmFreePage page).totalPages = p.totalPages := by
  simp only [pmmFreePage]
  split
  · rfl
  · split <;> rfl

theorem totalPages_pmmAllocPage (p : Pmm) : p.pmmAllocPage.2.totalPages = p.totalPages := by
  rw [pmmAllocPage]
  split <;> rfl

/-- The pages that are in use after the release of several. -/
theorem testBit_foldl_pmmFreePage (pages : List Nat) (p : Pmm) (k : Nat) :
    (pages.foldl pmmFreePage p).testBit k = true ↔
      p.testBit k = true ∧ ¬ (k < p.totalPages ∧ ∃ a ∈ pages, a / PAGE_SIZE = k) := by
  induction pages generalizing p with
  | nil => simp
  | cons a pages ih =>
      rw [List.foldl_cons, ih, testBit_pmmFreePage, totalPages_pmmFreePage]
      simp only [Bool.and_eq_true, Bool.not_eq_true', decide_eq_false_iff_not, List.mem_cons,
        exists_eq_or_imp]
      constructor
      · rintro ⟨⟨hbit, hfirst⟩, hrest⟩
        refine ⟨hbit, ?_⟩
        rintro ⟨hk, ha | hmore⟩
        · exact hfirst ⟨ha, hk⟩
        · exact hrest ⟨hk, hmore⟩
      · rintro ⟨hbit, hnone⟩
        exact ⟨⟨hbit, fun ha => hnone ⟨ha.2, .inl ha.1⟩⟩, fun hmore => hnone ⟨hmore.1, .inr hmore.2⟩⟩

theorem totalPages_foldl_pmmFreePage (pages : List Nat) (p : Pmm) :
    (pages.foldl pmmFreePage p).totalPages = p.totalPages := by
  induction pages generalizing p with
  | nil => rfl
  | cons a pages ih => rw [List.foldl_cons, ih, totalPages_pmmFreePage]

/-- Releasing the page that was just taken. -/
theorem keeps_pmmFreePage {p p' : Pmm} {i : Nat} (hclear : p.testBit i = false)
    (hkeeps : p.Keeps p') : p.Keeps (p'.pmmFreePage (i * PAGE_SIZE)) := by
  have hindex : i * PAGE_SIZE / PAGE_SIZE = i := Nat.mul_div_cancel i (by decide)
  intro page hpage
  have hne : i ≠ page := by
    rintro rfl
    rw [hclear] at hpage
    exact absurd hpage Bool.false_ne_true
  rw [testBit_pmmFreePage, hkeeps page hpage, hindex]
  simp [hne]

/-- With the page at 0 in use, a request that fails changes nothing. -/
theorem pmmAllocPage_eq_of_zero {p : Pmm} (hzero : p.testBit 0 = true)
    (hfail : p.pmmAllocPage.1 = 0) : p.pmmAllocPage = (0, p) := by
  rcases p.pmmAllocPage_cases with ⟨halloc, -⟩ | ⟨i, -, hclear, -, halloc⟩
  · exact halloc
  · rw [halloc, Nat.mul_eq_zero] at hfail
    rcases hfail with rfl | hsize
    · rw [hzero] at hclear
      exact absurd hclear.symm Bool.false_ne_true
    · exact absurd hsize (by decide)

/-! ## The free pages -/

/-- The numbers of the free pages, the lowest first. -/
def freePages (p : Pmm) : List Nat := (List.range p.totalPages).filter fun i => !p.testBit i

theorem mem_freePages {p : Pmm} {i : Nat} :
    i ∈ p.freePages ↔ i < p.totalPages ∧ p.testBit i = false := by
  rw [freePages, List.mem_filter, List.mem_range, Bool.not_eq_true']

theorem freePages_congr {p p' : Pmm} (htotal : p'.totalPages = p.totalPages)
    (hbits : ∀ i, p'.testBit i = p.testBit i) : p'.freePages = p.freePages := by
  rw [freePages, freePages, htotal]
  simp only [hbits]

/-- A page that is free now was free before. -/
theorem Keeps.freePages {p p' : Pmm} (h : Keeps p p') (htotal : p'.totalPages = p.totalPages)
    {i : Nat} (hi : i ∈ p'.freePages) : i ∈ p.freePages := by
  rw [mem_freePages, htotal] at hi
  exact mem_freePages.mpr ⟨hi.1, h.clear hi.2⟩

/-- The pages below the lowest free page are in use. -/
theorem freePages_eq {p : Pmm} {i : Nat} (hi : i < p.totalPages)
    (hbefore : ∀ j < i, p.testBit j = true) :
    p.freePages = (List.range' i (p.totalPages - i)).filter fun j => !p.testBit j := by
  have hsplit : List.range p.totalPages = List.range i ++ List.range' i (p.totalPages - i) := by
    have happend := List.range'_append_1 (s := 0) (m := i) (n := p.totalPages - i)
    rw [Nat.zero_add, Nat.add_sub_cancel' (Nat.le_of_lt hi)] at happend
    rw [List.range_eq_range', List.range_eq_range', happend]
  have hused : (List.range i).filter (fun j => !p.testBit j) = [] := by
    rw [List.filter_eq_nil_iff]
    intro j hj
    rw [hbefore j (List.mem_range.mp hj)]
    exact Bool.false_ne_true
  rw [freePages, hsplit, List.filter_append, hused, List.nil_append]

theorem fiveMegabytes_le : 1280 ≤ 2 ^ 20 := by decide

/-- The bitmap after `pmm_init` with 5 MiB, three requests and the release of the second page. -/
def holedPmm : Pmm :=
  ⟨fun i => if i < 128 then 255 else if i = 128 then 5 else 0, 1280, 1026,
    fiveMegabytes_le⟩

/-- The lowest free page can have a page in use behind it. -/
theorem exists_hole : ∃ (p : Pmm) (rest : List Nat), p.freePages = 1025 :: 1027 :: rest := by
  have hfull : ∀ bit < 8, Nat.testBit 255 bit = true := by decide
  refine ⟨holedPmm, _, freePages_eq (i := 1025) (by decide) fun j hj => ?_⟩
  by_cases hbyte : j / 8 < 128
  · rw [testBit, show holedPmm.bitmap (j / 8) = 255 from if_pos hbyte]
    exact hfull _ (Nat.mod_lt _ (by decide))
  · obtain rfl : j = 1024 := by omega
    rfl

/-- `pmm_alloc_page` takes the first of the free pages. -/
theorem pmmAllocPage_freePages (p : Pmm) :
    p.pmmAllocPage.1 = p.freePages.headD 0 * PAGE_SIZE ∧
      p.pmmAllocPage.2.freePages = p.freePages.tail := by
  rcases p.pmmAllocPage_cases with ⟨halloc, hall⟩ | ⟨i, hi, hclear, hbefore, halloc⟩
  · have hnil : p.freePages = [] := by
      rw [List.eq_nil_iff_forall_not_mem]
      intro i hmem
      obtain ⟨hi, hclear⟩ := mem_freePages.mp hmem
      rw [hall i hi] at hclear
      exact Bool.false_ne_true hclear.symm
    rw [halloc]
    dsimp only
    rw [hnil]
    exact ⟨(Nat.zero_mul _).symm, rfl⟩
  · have hrange : List.range' i (p.totalPages - i) =
        i :: List.range' (i + 1) (p.totalPages - i - 1) := by
      rw [← List.range'_succ, Nat.sub_add_cancel (by omega)]
    have hbit : ∀ j, p.pmmAllocPage.2.testBit j = (p.testBit j || decide (i = j)) := by
      rw [halloc]
      exact p.testBit_setBit i
    have htotal := p.totalPages_pmmAllocPage
    have hfree : p.freePages = i :: (List.range' (i + 1) (p.totalPages - i - 1)).filter
        fun j => !p.testBit j := by
      rw [freePages_eq hi hbefore, hrange, List.filter_cons_of_pos (by rw [hclear]; rfl)]
    refine ⟨by rw [hfree, halloc]; rfl, ?_⟩
    have hbefore' : ∀ j < i, p.pmmAllocPage.2.testBit j = true := by
      intro j hj
      rw [hbit, hbefore j hj, Bool.true_or]
    rw [hfree, freePages_eq (by rw [htotal]; exact hi) hbefore', htotal, hrange,
      List.filter_cons_of_neg (by rw [hbit]; simp), List.tail_cons]
    apply List.filter_congr
    intro j hj
    have hlater := (List.mem_range'_1.mp hj).1
    rw [hbit, decide_eq_false (by omega), Bool.or_false]

/-- With the page at 0 in use there is no free page where the request fails. -/
theorem pmmAllocPage_eq_zero_iff {p : Pmm} (hzero : p.testBit 0 = true) :
    p.pmmAllocPage.1 = 0 ↔ p.freePages = [] := by
  rw [p.pmmAllocPage_freePages.1]
  cases hfree : p.freePages with
  | nil => simp
  | cons i rest =>
      have hclear := (mem_freePages.mp (hfree ▸ List.mem_cons_self : i ∈ p.freePages)).2
      have hne : i ≠ 0 := by
        rintro rfl
        rw [hzero] at hclear
        exact Bool.false_ne_true hclear.symm
      simp [hne, PAGE_SIZE]

/-- Without a free page the request changes nothing. -/
theorem pmmAllocPage_of_nil {p : Pmm} (hfree : p.freePages = []) : p.pmmAllocPage = (0, p) := by
  rcases p.pmmAllocPage_cases with ⟨halloc, -⟩ | ⟨i, hi, hclear, -, -⟩
  · exact halloc
  · have hmem := mem_freePages.mpr ⟨hi, hclear⟩
    rw [hfree] at hmem
    nomatch hmem

/-- The first free page is taken, also where it is the page at 0. -/
theorem pmmAllocPage_of_head {p : Pmm} {a : Nat} {rest : List Nat}
    (hfree : p.freePages = a :: rest) :
    ∃ p', p.pmmAllocPage = (a * PAGE_SIZE, p') ∧ p'.freePages = rest ∧ p.testBit a = false ∧
      a < p.totalPages ∧ p'.totalPages = p.totalPages ∧
      ∀ k, p'.testBit k = (p.testBit k || decide (a = k)) := by
  obtain ⟨hhead, htail⟩ := p.pmmAllocPage_freePages
  rw [hfree, List.headD_cons] at hhead
  rw [hfree, List.tail_cons] at htail
  rcases p.pmmAllocPage_cases with ⟨-, hall⟩ | ⟨i, hi, hclear, -, halloc⟩
  · obtain ⟨hlt, hclear⟩ := mem_freePages.mp (hfree ▸ List.mem_cons_self : a ∈ p.freePages)
    rw [hall a hlt] at hclear
    exact absurd hclear.symm Bool.false_ne_true
  · have heq : i = a := by
      rw [halloc, PAGE_SIZE] at hhead
      omega
    subst heq
    refine ⟨_, Prod.ext hhead rfl, htail, hclear, hi, p.totalPages_pmmAllocPage, fun k => ?_⟩
    rw [halloc]
    exact p.testBit_setBit i k

/-- The pages before the first free one are in use. -/
theorem testBit_of_lt_head {p : Pmm} {a : Nat} {rest : List Nat} (hfree : p.freePages = a :: rest)
    {j : Nat} (hj : j < a) : p.testBit j = true := by
  obtain ⟨p', halloc, -, -, -, -, -⟩ := pmmAllocPage_of_head hfree
  rcases p.pmmAllocPage_cases with ⟨hnone, hall⟩ | ⟨i, -, -, hbefore, hsome⟩
  · have hzero : a * PAGE_SIZE = 0 := congrArg Prod.fst (halloc.symm.trans hnone)
    rw [PAGE_SIZE] at hzero
    omega
  · have heq : a * PAGE_SIZE = i * PAGE_SIZE := congrArg Prod.fst (halloc.symm.trans hsome)
    rw [PAGE_SIZE] at heq
    exact hbefore j (by omega)

/-- With the page at 0 in use, the first free page is another one. -/
theorem pmmAllocPage_of_cons {p : Pmm} (hzero : p.testBit 0 = true) {a : Nat} {rest : List Nat}
    (hfree : p.freePages = a :: rest) :
    ∃ p', p.pmmAllocPage = (a * PAGE_SIZE, p') ∧ p'.freePages = rest ∧ a ≠ 0 ∧
      p.testBit a = false ∧ a < p.totalPages ∧ p'.totalPages = p.totalPages ∧
      ∀ k, p'.testBit k = (p.testBit k || decide (a = k)) := by
  obtain ⟨p', halloc, hrest, hclear, hlt, htotal, hbits⟩ := pmmAllocPage_of_head hfree
  refine ⟨p', halloc, hrest, ?_, hclear, hlt, htotal, hbits⟩
  rintro rfl
  rw [hzero] at hclear
  exact Bool.false_ne_true hclear.symm

/-- A page that is taken and given back. -/
theorem testBit_free_taken {p p' : Pmm} {a : Nat} (htotal : p'.totalPages = p.totalPages)
    (ha : a < p.totalPages) (hclear : p.testBit a = false)
    (hbits : ∀ k, p'.testBit k = (p.testBit k || decide (a = k))) (k : Nat) :
    (p'.pmmFreePage (a * PAGE_SIZE)).testBit k = p.testBit k := by
  rw [testBit_pmmFreePage, hbits, htotal, Nat.mul_div_cancel a (by decide)]
  by_cases hk : a = k
  · subst hk
    simp [ha, hclear]
  · simp [hk]

/-- The allocator after a number of requests. -/
def takePages (p : Pmm) : Nat → Pmm
  | 0 => p
  | n + 1 => (p.takePages n).pmmAllocPage.2

theorem takePages_pmmAllocPage (p : Pmm) (n : Nat) :
    p.pmmAllocPage.2.takePages n = p.takePages (n + 1) := by
  induction n with
  | zero => rfl
  | succ n ih =>
      rw [takePages, ih]
      rfl

theorem takePages_takePages (p : Pmm) (n k : Nat) :
    (p.takePages n).takePages k = p.takePages (n + k) := by
  induction k with
  | zero => rfl
  | succ k ih =>
      rw [takePages, ih]
      rfl

theorem freePages_takePages (p : Pmm) (n : Nat) :
    (p.takePages n).freePages = p.freePages.drop n := by
  induction n with
  | zero => rfl
  | succ n ih => rw [takePages, (p.takePages n).pmmAllocPage_freePages.2, ih, List.tail_drop]

/-- The requests mark the first of the free pages. -/
theorem testBit_takePages (p : Pmm) (n k : Nat) :
    (p.takePages n).testBit k = (p.testBit k || decide (k ∈ p.freePages.take n)) := by
  induction n generalizing p with
  | zero => simp [takePages]
  | succ n ih =>
      rw [← takePages_pmmAllocPage, ih]
      cases hfree : p.freePages with
      | nil =>
          rw [pmmAllocPage_of_nil hfree, hfree]
          simp
      | cons a rest =>
          obtain ⟨p', halloc, hrest, -, -, -, hbits⟩ := pmmAllocPage_of_head hfree
          rw [halloc]
          dsimp only
          rw [hbits, hrest, List.take_succ_cons, Bool.or_assoc]
          congr 1
          rw [← Bool.decide_or, decide_eq_decide, List.mem_cons, eq_comm]

/-- The page was free and is now in use. -/
def Took (p p' : Pmm) (page : Nat) : Prop :=
  p.testBit page = false ∧ p'.testBit page = true

theorem not_took_self {p : Pmm} {page : Nat} : ¬ p.Took p page := by
  rintro ⟨hfree, hused⟩
  rw [hfree] at hused
  exact Bool.false_ne_true hused

theorem took_takePages {p : Pmm} {n page : Nat} :
    p.Took (p.takePages n) page ↔ page ∈ p.freePages.take n := by
  rw [Took, testBit_takePages]
  constructor
  · rintro ⟨hfree, hused⟩
    rw [hfree, Bool.false_or] at hused
    exact of_decide_eq_true hused
  · intro hmem
    exact ⟨(mem_freePages.mp (List.mem_of_mem_take hmem)).2, by rw [decide_eq_true hmem, Bool.or_true]⟩

end Pmm

end NemoOS
