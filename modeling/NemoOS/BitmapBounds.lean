import NemoOS.PageSet

/-!
# The bits of the bitmap that the allocator touches

The array behind the page allocator has one bit for every page of 1 GiB, while the number
of pages is computed from what the firmware reports (`boot/multiboot.cpp`, `kernel.cpp`).
The functions below list the bits that `set_bit`, `clear_bit` and `test_bit` are called
with. Since a call touches no bit before it has compared its number with `total_pages`,
the lists are exact as long as no index has been out of range.

`bitmap_in_range_iff` gives the reported sizes for which every index stays inside.
-/

namespace NemoOS

open Words Transition

def MAX_RAM_MB : Nat := 1024

def MAX_PAGES : Nat := MAX_RAM_MB * 1024 * 1024 / PAGE_SIZE

/-- `sizeof(bitmap)`. -/
def BITMAP_BYTES : Nat := MAX_PAGES / 8

/-- The fields of the multiboot information that are read. -/
structure MultibootInfo where
  memLower : Nat
  memUpper : Nat
deriving DecidableEq, Repr

/-- `total_memory_mb` after `multiboot_init`; `none` for a null pointer. -/
def multibootInit : Option MultibootInfo → Nat
  | none => 0
  | some mbi => u32 (mbi.memLower + mbi.memUpper) / 1024

namespace Pmm

/-- The bits that `pmm_init` sets. -/
def initBits (memoryMb : Nat) : List Nat :=
  List.range (min RESERVED_PAGES (u32 (memoryMb * 1024 * 1024) / PAGE_SIZE))

/-- The bits that the loop of `pmm_alloc_page` tests, from page `i` on with `n` pages to go. -/
def testedBits (p : Pmm) (i : Nat) : Nat → List Nat
  | 0 => []
  | n + 1 => i :: if p.testBit i then p.testedBits (i + 1) n else []

/-- The bits that a call tests, sets or clears. -/
def touchedBits (p : Pmm) : PmmCall → List Nat
  | .allocPage => p.testedBits 0 p.totalPages ++ (p.findClear 0 p.totalPages).toList
  | .freePage page =>
      let index := page / PAGE_SIZE
      if index ≥ p.totalPages then [] else if p.testBit index then [index, index] else [index]

theorem lt_of_mem_testedBits {p : Pmm} {i n bit : Nat} (h : bit ∈ p.testedBits i n) :
    bit < i + n := by
  induction n generalizing i with
  | zero => nomatch h
  | succ n ih =>
      rw [testedBits, List.mem_cons] at h
      rcases h with rfl | hrest
      · omega
      · split at hrest
        · have hlt := ih hrest
          omega
        · nomatch hrest

/-- No call touches a bit beyond the pages there are. -/
theorem lt_of_mem_touchedBits {p : Pmm} {c : PmmCall} {bit : Nat} (h : bit ∈ p.touchedBits c) :
    bit < p.totalPages := by
  cases c with
  | allocPage =>
      rw [touchedBits, List.mem_append, Option.mem_toList] at h
      rcases h with htested | hset
      · have hlt := lt_of_mem_testedBits htested
        omega
      · rcases p.findClear_cases 0 p.totalPages with ⟨hnone, -⟩ | ⟨k, hsome, -, hlt, -⟩
        · rw [hnone] at hset
          nomatch hset
        · rw [hsome, Option.some.injEq] at hset
          omega
  | freePage page =>
      simp only [touchedBits] at h
      split at h
      · nomatch h
      · next hlt =>
        have heq : bit = page / PAGE_SIZE := by
          split at h
          · simpa using h
          · simpa using h
        omega

/-- A release tests the bit of its page, whatever the bit is. -/
theorem mem_touchedBits_freePage {p : Pmm} (page : Nat) (h : page / PAGE_SIZE < p.totalPages) :
    page / PAGE_SIZE ∈ p.touchedBits (.freePage page) := by
  simp only [touchedBits]
  rw [if_neg (Nat.not_le.mpr h)]
  split <;> exact List.mem_cons_self

theorem totalPages_exec (p : Pmm) (c : PmmCall) : (p.exec c).totalPages = p.totalPages := by
  cases c with
  | allocPage => exact p.totalPages_pmmAllocPage
  | freePage page => exact p.totalPages_pmmFreePage page

theorem totalPages_run {p p' : Pmm} {calls : List PmmCall}
    (hrun : Run (Deterministic exec) p calls p') : p'.totalPages = p.totalPages := by
  refine hrun.invariant (fun q => q.totalPages = p.totalPages) rfl fun q c q' hq hstep => ?_
  obtain rfl : q.exec c = q' := hstep
  rw [totalPages_exec, hq]

/-- The two wrapping products and the division of `pmm_init`. -/
theorem totalPages_pmmInit (memoryMb : Nat) :
    (pmmInit memoryMb).totalPages = memoryMb % 4096 * 256 := by
  rw [(pmmInit_spec memoryMb).1, u32, PAGE_SIZE]
  omega

/-- Every index that `pmm_init` and any calls after it use is inside the bitmap. -/
def InRange (memoryMb : Nat) : Prop :=
  (∀ bit ∈ initBits memoryMb, bit / 8 < BITMAP_BYTES) ∧
    ∀ calls p c, Run (Deterministic exec) (pmmInit memoryMb) calls p →
      ∀ bit ∈ p.touchedBits c, bit / 8 < BITMAP_BYTES

/-- **Every index is inside the bitmap** if and only if the number of MiB, counted modulo
    4 GiB, is at most 1024. -/
theorem bitmap_in_range_iff (mbi : Option MultibootInfo) :
    InRange (multibootInit mbi) ↔ multibootInit mbi % 4096 ≤ 1024 := by
  generalize multibootInit mbi = memoryMb
  have hbytes : BITMAP_BYTES = 32768 := by decide
  constructor
  · rintro ⟨-, hcalls⟩
    by_contra hlarge
    -- the release of the page at 1 GiB tests the first bit that is not there
    have hindex : 0x40000000 / PAGE_SIZE = 262144 := by decide
    have htotal := totalPages_pmmInit memoryMb
    have hlt := hcalls [] _ _ .nil _ (mem_touchedBits_freePage 0x40000000 (by omega))
    omega
  · intro hsmall
    refine ⟨fun bit hbit => ?_, fun calls p c hrun bit hbit => ?_⟩
    · rw [initBits, List.mem_range, RESERVED_PAGES] at hbit
      omega
    · have hlt := lt_of_mem_touchedBits hbit
      rw [totalPages_run hrun, totalPages_pmmInit] at hlt
      omega

/-- 2 GiB are reported, and the page at 1 GiB is released. -/
theorem bitmap_out_of_range :
    ¬ ∀ mbi : Option MultibootInfo, 0 < multibootInit mbi → InRange (multibootInit mbi) := by
  intro hall
  have hcalls := (hall (some ⟨640, 2096512⟩) (by decide)).2
  have hbit := mem_touchedBits_freePage
    (p := pmmInit (multibootInit (some ⟨640, 2096512⟩))) 0x40000000 (by
      rw [totalPages_pmmInit]
      decide)
  exact absurd (hcalls [] _ _ .nil _ hbit) (by decide)

end Pmm

end NemoOS
