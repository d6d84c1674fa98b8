import NemoOS.MapPointwise
import NemoOS.BitmapBounds

/-!
# The identity map of the kernel

`memory/paging.cpp`: `paging_init` fills a static table for the first four MiB and a static
directory, and then maps the rest of memory page by page, with tables from the page
allocator. The tables lie in the memory that is being mapped. The loop needs a table when it
enters a new slot of the directory, and as the allocator hands out the pages after the
reserved ones in order, the table of slot `i` is page `1023 + i` (`slotTable`).

`pagingInit_identity` describes the translation of every address at the end.
-/

namespace NemoOS

open Words Bytes Machine

/-! ## The model -/

/-- The two static tables of the kernel image, which the linker places behind the first MiB
    and below the end of the pages that `pmm_init` reserves. -/
structure BootLayout where
  pageDirectory : Nat
  bootPageTable : Nat
  directory_page : IsPage pageDirectory
  table_page : IsPage bootPageTable
  distinct : pageDirectory ≠ bootPageTable
  directory_low : pageDirectory < Pmm.RESERVED_PAGES * PAGE_SIZE
  table_low : bootPageTable < Pmm.RESERVED_PAGES * PAGE_SIZE

/-- `for(i = 0; i < n; i++) table[i] = e(i)`. -/
def fillTable (mem : Memory) (table : Nat) (e : Nat → Nat) (n : Nat) : Memory :=
  (List.range n).foldl (fun mem i => setEntry mem table i (e i)) mem

/-- The static table and the directory before the loop. -/
def bootTables (layout : BootLayout) (mem : Memory) : Memory :=
  let mem := fillTable mem layout.bootPageTable (fun i => i * 0x1000 + 3) ENTRIES
  let mem := fillTable mem layout.pageDirectory (fun _ => 0) ENTRIES
  setEntry mem layout.pageDirectory 0 (layout.bootPageTable + 3)

/-- The table for the slot of the address, a new one if it has none; `none` for the panic
    when there is no page. -/
def needTable (dir addr : Nat) (mem : Memory) (pmm : Pmm) : Option (Memory × Pmm) :=
  if isPresent (entryAt mem dir (pdIdx addr)) then some (mem, pmm)
  else
    let (pt, pmm) := pmm.pmmAllocPage
    if pt = 0 then none
    else some (setEntry (fill mem pt 0 PAGE_SIZE) dir (pdIdx addr) (pt + 3), pmm)

/-- The loop from the address, with `n` pages to go. -/
def mapRange (dir addr : Nat) (mem : Memory) (pmm : Pmm) : Nat → Option (Memory × Pmm)
  | 0 => some (mem, pmm)
  | n + 1 =>
      match needTable dir addr mem pmm with
      | none => none
      | some (mem, pmm) =>
          mapRange dir (addr + 0x1000)
            (setEntry mem (frame (entryAt mem dir (pdIdx addr))) (ptIdx addr) (addr + 3)) pmm n

/-- `paging_init` with `total_memory_mb`. The loop goes from 4 MiB to the end of memory in
    steps of a page. -/
def pagingInit (layout : BootLayout) (totalMemoryMb : Nat) (mem : Memory) (pmm : Pmm) :
    Option (Memory × Pmm) :=
  let totalMb := if totalMemoryMb = 0 then 32 else totalMemoryMb
  let endAddr := u32 (totalMb * 1024 * 1024)
  mapRange layout.pageDirectory 0x400000 (bootTables layout mem) pmm
    ((endAddr - 0x400000 + 0xFFF) / 0x1000)

/-! ## The static tables -/

section fillTable

variable {mem : Memory} {table n : Nat} {e : Nat → Nat}

theorem fillTable_succ (mem : Memory) (table : Nat) (e : Nat → Nat) (n : Nat) :
    fillTable mem table e (n + 1) = setEntry (fillTable mem table e n) table n (e n) := by
  rw [fillTable, List.range_succ, List.foldl_append, ← fillTable]
  rfl

theorem onlyPage_fillTable (htable : IsPage table) (hn : n ≤ ENTRIES) :
    OnlyPage table mem (fillTable mem table e n) := by
  induction n with
  | zero => exact fun _ _ => rfl
  | succ n ih =>
      intro x hx
      rw [fillTable_succ, onlyPage_setEntry htable hn x hx, ih (Nat.le_of_succ_le hn) x hx]

theorem entryAt_fillTable (htable : IsPage table) (hn : n ≤ ENTRIES)
    (he : ∀ i < ENTRIES, e i < 2 ^ 32) {j : Nat} (hj : j < ENTRIES) :
    entryAt (fillTable mem table e n) table j = if j < n then e j else entryAt mem table j := by
  induction n with
  | zero => rfl
  | succ n ih =>
      rw [fillTable_succ, entryAt_setEntry htable hn hj (he n hn), ih (Nat.le_of_succ_le hn)]
      by_cases heq : j = n
      · rw [if_pos heq, if_pos (heq ▸ Nat.lt_succ_self n), heq]
      · rw [if_neg heq]
        exact if_congr (by omega) rfl rfl

end fillTable

namespace BootLayout

/-- The table that the loop uses for a slot. -/
def slotTable (layout : BootLayout) (i : Nat) : Nat :=
  if i = 0 then layout.bootPageTable else (1023 + i) * PAGE_SIZE

variable (layout : BootLayout)

theorem isPage_slotTable {i : Nat} (hi : i < ENTRIES) : IsPage (layout.slotTable i) := by
  rw [slotTable]
  split
  · exact layout.table_page
  · rw [ENTRIES] at hi
    constructor
    · exact Nat.mul_mod_left _ _
    · rw [PAGE_SIZE]
      omega

theorem slotTable_ne_directory (i : Nat) : layout.slotTable i ≠ layout.pageDirectory := by
  have hlow := layout.directory_low
  rw [slotTable]
  split
  · exact layout.distinct.symm
  · rw [Pmm.RESERVED_PAGES, PAGE_SIZE] at *
    omega

theorem slotTable_inj {i j : Nat} (h : layout.slotTable i = layout.slotTable j) : i = j := by
  have hlow := layout.table_low
  rw [slotTable, slotTable] at h
  rw [Pmm.RESERVED_PAGES, PAGE_SIZE] at *
  split at h <;> split at h <;> omega

end BootLayout

/-! ## The loop -/

theorem maxPages_eq : MAX_PAGES = 262144 := rfl

/-- The first `slots` slots of the directory have tables, and the first `n` pages are mapped
    to themselves. -/
structure Identity (layout : BootLayout) (total slots n : Nat) (mem : Memory) (pmm : Pmm) :
    Prop where
  directory : ∀ i < ENTRIES, entryAt mem layout.pageDirectory i =
    if i < slots then layout.slotTable i + 3 else 0
  table : ∀ i < slots, ∀ j < ENTRIES, entryAt mem (layout.slotTable i) j =
    if i * 1024 + j < n then (i * 1024 + j) * PAGE_SIZE + 3 else 0
  free : pmm.freePages = List.range' (1023 + slots) (total - (1023 + slots))

namespace Identity

variable {layout : BootLayout} {total slots n : Nat} {mem : Memory} {pmm : Pmm}

/-- The entry of a slot with a table. -/
theorem slot (h : Identity layout total slots n mem pmm) {i : Nat} (hi : i < slots)
    (hslots : slots ≤ ENTRIES) :
    isPresent (entryAt mem layout.pageDirectory i) = true ∧
      frame (entryAt mem layout.pageDirectory i) = layout.slotTable i := by
  have hpage := layout.isPage_slotTable (Nat.lt_of_lt_of_le hi hslots)
  rw [h.directory i (Nat.lt_of_lt_of_le hi hslots), if_pos hi]
  exact ⟨isPresent_add hpage, frame_add hpage (by decide)⟩

/-- A new table for the next slot. -/
theorem newTable (h : Identity layout total slots n mem pmm) (hfull : slots * 1024 = n)
    (hslots : slots < ENTRIES) {pmm' : Pmm}
    (hfree : pmm'.freePages = List.range' (1023 + (slots + 1)) (total - (1023 + (slots + 1)))) :
    Identity layout total (slots + 1) n
      (setEntry (fill mem (layout.slotTable slots) 0 PAGE_SIZE) layout.pageDirectory slots
        (layout.slotTable slots + 3)) pmm' := by
  have hpage := layout.isPage_slotTable hslots
  have hdir := layout.directory_page
  have hbound : layout.slotTable slots + 3 < 2 ^ 32 := hpage.add_lt (by decide)
  refine ⟨fun i hi => ?_, fun i hi j hj => ?_, hfree⟩
  · rw [entryAt_setEntry hdir hslots hi hbound,
      entryAt_onlyPage (onlyPage_fill hpage 0) hpage hdir (layout.slotTable_ne_directory slots).symm hi,
      h.directory i hi]
    by_cases heq : i = slots
    · rw [if_pos heq, if_pos (by omega), heq]
    · rw [if_neg heq]
      exact if_congr (by omega) rfl rfl
  · have hi_lt : i < ENTRIES := by omega
    have hpage_i := layout.isPage_slotTable hi_lt
    rw [entryAt_onlyPage (onlyPage_setEntry hdir hslots) hdir hpage_i
      (layout.slotTable_ne_directory i) hj]
    rcases Nat.lt_succ_iff_lt_or_eq.mp hi with hold | rfl
    · have hne : layout.slotTable i ≠ layout.slotTable slots :=
        fun heq => Nat.ne_of_lt hold (layout.slotTable_inj heq)
      rw [entryAt_onlyPage (onlyPage_fill hpage 0) hpage hpage_i hne hj, h.table i hold j hj]
    · rw [entryAt_fill hpage hj, if_neg (by omega)]

/-- One more page in a table that is there. -/
theorem setPage (h : Identity layout total slots n mem pmm) (hslot : n / 1024 < slots)
    (hslots : slots ≤ ENTRIES) :
    Identity layout total slots (n + 1)
      (setEntry mem (layout.slotTable (n / 1024)) (n % 1024) (n * PAGE_SIZE + 3)) pmm := by
  have hi : n / 1024 < ENTRIES := Nat.lt_of_lt_of_le hslot hslots
  have hj : n % 1024 < ENTRIES := Nat.mod_lt _ (by decide)
  have hpage := layout.isPage_slotTable hi
  have hbound : n * PAGE_SIZE + 3 < 2 ^ 32 := by
    rw [ENTRIES] at hi
    rw [PAGE_SIZE]
    omega
  refine ⟨fun i hi' => ?_, fun i hi' j hj' => ?_, h.free⟩
  · rw [entryAt_onlyPage (onlyPage_setEntry hpage hj) hpage layout.directory_page
      (layout.slotTable_ne_directory _).symm hi', h.directory i hi']
  · have hi_lt : i < ENTRIES := Nat.lt_of_lt_of_le hi' hslots
    rw [ENTRIES] at hj'
    by_cases heq : i = n / 1024
    · subst heq
      rw [entryAt_setEntry hpage hj hj' hbound, h.table _ hi' j hj']
      by_cases heq_j : j = n % 1024
      · have hn : n / 1024 * 1024 + j = n := by omega
        rw [if_pos heq_j, hn, if_pos (Nat.lt_succ_self n)]
      · rw [if_neg heq_j]
        exact if_congr (by omega) rfl rfl
    · rw [entryAt_onlyPage (onlyPage_setEntry hpage hj) hpage (layout.isPage_slotTable hi_lt)
        (fun htable => heq (layout.slotTable_inj htable)) hj', h.table i hi' j hj']
      exact if_congr (by omega) rfl rfl

/-- The slot of the next page gets a table if it has none. -/
theorem needTable (h : Identity layout total ((n - 1) / 1024 + 1) n mem pmm) (hn : 1024 ≤ n)
    (hlt : n < total) (htotal : total ≤ MAX_PAGES) :
    ∃ mem' pmm', NemoOS.needTable layout.pageDirectory (n * PAGE_SIZE) mem pmm = some (mem', pmm') ∧
      Identity layout total (n / 1024 + 1) n mem' pmm' := by
  rw [maxPages_eq] at htotal
  have hslot : pdIdx (n * PAGE_SIZE) = n / 1024 := by
    rw [pdIdx, PAGE_SIZE]
    omega
  have hi : n / 1024 < ENTRIES := by
    rw [ENTRIES]
    omega
  rw [NemoOS.needTable, hslot]
  by_cases hfull : n % 1024 = 0
  · have hslots : (n - 1) / 1024 + 1 = n / 1024 := by omega
    rw [hslots] at h
    have habsent : entryAt mem layout.pageDirectory (n / 1024) = 0 := by
      rw [h.directory _ hi, if_neg (Nat.lt_irrefl _)]
    have hrange : List.range' (1023 + n / 1024) (total - (1023 + n / 1024)) =
        (1023 + n / 1024) :: List.range' (1023 + (n / 1024 + 1)) (total - (1023 + (n / 1024 + 1))) := by
      rw [show total - (1023 + n / 1024) = total - (1023 + (n / 1024 + 1)) + 1 by omega,
        List.range'_succ]
      rfl
    -- the allocator is at the page behind the tables that it has handed out
    obtain ⟨pmm', halloc, hrest, -⟩ := Pmm.pmmAllocPage_of_head (h.free.trans hrange)
    have htable : (1023 + n / 1024) * PAGE_SIZE = layout.slotTable (n / 1024) := by
      rw [BootLayout.slotTable, if_neg (by omega)]
    have hne : (1023 + n / 1024) * PAGE_SIZE ≠ 0 := by
      rw [PAGE_SIZE]
      omega
    rw [habsent, show isPresent 0 = false from rfl, if_neg Bool.false_ne_true, halloc]
    dsimp only
    rw [if_neg hne, htable]
    exact ⟨_, _, rfl, h.newTable (by omega) hi hrest⟩
  · have hslots : (n - 1) / 1024 + 1 = n / 1024 + 1 := by omega
    rw [hslots] at h
    rw [(h.slot (Nat.lt_succ_self _) hi).1, if_pos rfl]
    exact ⟨_, _, rfl, h⟩

/-- The loop maps the pages up to the end of memory. -/
theorem mapRange (h : Identity layout total ((n - 1) / 1024 + 1) n mem pmm) (hn : 1024 ≤ n)
    (htotal : total ≤ MAX_PAGES) {k : Nat} (hk : n + k ≤ total) :
    ∃ mem' pmm', NemoOS.mapRange layout.pageDirectory (n * PAGE_SIZE) mem pmm k = some (mem', pmm') ∧
      Identity layout total ((n + k - 1) / 1024 + 1) (n + k) mem' pmm' := by
  induction k generalizing n mem pmm with
  | zero => exact ⟨mem, pmm, rfl, h⟩
  | succ k ih =>
      obtain ⟨mem₁, pmm₁, hneed, h₁⟩ := h.needTable hn (by omega) htotal
      have hi : n / 1024 < ENTRIES := by
        rw [maxPages_eq] at htotal
        rw [ENTRIES]
        omega
      have hslot : pdIdx (n * PAGE_SIZE) = n / 1024 := by
        rw [pdIdx, PAGE_SIZE]
        omega
      have hentry : ptIdx (n * PAGE_SIZE) = n % 1024 := by
        rw [ptIdx, PAGE_SIZE]
        omega
      have hnext : n * PAGE_SIZE + 0x1000 = (n + 1) * PAGE_SIZE := by
        rw [PAGE_SIZE]
        omega
      have h₂ := h₁.setPage (Nat.lt_succ_self _) hi
      rw [show n / 1024 + 1 = (n + 1 - 1) / 1024 + 1 by omega] at h₂
      rw [NemoOS.mapRange, hneed]
      dsimp only
      rw [hslot, hentry, hnext, (h₁.slot (Nat.lt_succ_self _) hi).2,
        show n + (k + 1) = n + 1 + k by omega]
      exact ih h₂ (by omega) (by omega)

/-- Every page below `n` is translated to itself, and no other is. -/
theorem translate_eq (h : Identity layout total ((n - 1) / 1024 + 1) n mem pmm) (hn : 1024 ≤ n)
    (htotal : n ≤ MAX_PAGES) {v : Nat} (hv : v < 2 ^ 32) :
    translate mem layout.pageDirectory v = if v < n * PAGE_SIZE then some ⟨v, 3, 3⟩ else none := by
  have hi := pdIdx_lt hv
  have hpage : pdIdx v * 1024 + ptIdx v = v / PAGE_SIZE := by
    rw [pdIdx, ptIdx, PAGE_SIZE]
    omega
  have hbelow : v / PAGE_SIZE < n ↔ v < n * PAGE_SIZE := by
    rw [PAGE_SIZE]
    omega
  rw [translate_eq_walk]
  by_cases hslot : pdIdx v < (n - 1) / 1024 + 1
  · have hslots : (n - 1) / 1024 + 1 ≤ ENTRIES := by
      rw [maxPages_eq] at htotal
      rw [ENTRIES]
      omega
    obtain ⟨hpresent, hframe⟩ := h.slot hslot hslots
    rw [hframe, h.table _ hslot _ (ptIdx_lt v), hpage]
    by_cases hlt : v < n * PAGE_SIZE
    · have haligned : IsPage (v / PAGE_SIZE * PAGE_SIZE) := frame_isPage hv
      have haddr : v / PAGE_SIZE * PAGE_SIZE + v % PAGE_SIZE = v := Nat.div_add_mod' v PAGE_SIZE
      rw [if_pos (hbelow.mpr hlt), if_pos hlt, walk, hpresent, isPresent_add haligned,
        frame_add haligned (by decide), flagBits_add haligned (by decide), haddr,
        h.directory _ hi, if_pos hslot, flagBits_add (layout.isPage_slotTable hi) (by decide)]
      rfl
    · rw [if_neg (fun hless => hlt (hbelow.mp hless)), if_neg hlt, walk_empty]
  · have hlt : ¬ v < n * PAGE_SIZE := by
      rw [← hbelow, ← hpage]
      omega
    rw [if_neg hlt, h.directory _ hi, if_neg hslot]
    exact walk_absent rfl _ _

end Identity

/-! ## The whole initialisation -/

/-- The static table maps the first 1024 pages. -/
theorem identity_bootTables (layout : BootLayout) (mem : Memory) {total : Nat} {pmm : Pmm}
    (hfree : pmm.freePages = List.range' 1024 (total - 1024)) :
    Identity layout total 1 1024 (bootTables layout mem) pmm := by
  have hdir := layout.directory_page
  have htable := layout.table_page
  have hbound : layout.bootPageTable + 3 < 2 ^ 32 := htable.add_lt (by decide)
  refine ⟨fun i hi => ?_, fun i hi j hj => ?_, hfree⟩
  · rw [bootTables, entryAt_setEntry hdir (by decide) hi hbound,
      entryAt_fillTable hdir (le_refl _) (fun _ _ => Nat.two_pow_pos 32) hi, if_pos hi]
    by_cases hzero : i = 0
    · rw [if_pos hzero, if_pos (by omega), hzero]
      rfl
    · rw [if_neg hzero, if_neg (by omega)]
  · obtain rfl : i = 0 := by omega
    have hne := layout.distinct.symm
    rw [show layout.slotTable 0 = layout.bootPageTable from rfl, bootTables,
      entryAt_onlyPage (onlyPage_setEntry hdir (by decide)) hdir htable hne hj,
      entryAt_onlyPage (onlyPage_fillTable hdir (le_refl _)) hdir htable hne hj,
      entryAt_fillTable htable (le_refl _) (by
        intro i hi
        rw [ENTRIES] at hi
        omega) hj, if_pos hj, Nat.zero_mul, Nat.zero_add]
    exact (if_pos hj).symm

/-- **The boot identity map.** For up to 1 GiB of memory `paging_init` finds a page for every
    table it needs, and every address below the end of memory, or below 4 MiB if memory is
    smaller, is translated to itself with the flags present and writable; no other address
    is mapped. -/
theorem pagingInit_identity (layout : BootLayout) (mem : Memory) {memoryMb : Nat}
    (hmin : 1 ≤ memoryMb) (hmax : memoryMb ≤ 1024) :
    ∃ mem' pmm', pagingInit layout memoryMb mem (Pmm.pmmInit memoryMb) = some (mem', pmm') ∧
      ∀ v < 2 ^ 32, translate mem' layout.pageDirectory v =
        if v < max (4 * 2 ^ 20) (memoryMb * 2 ^ 20) then
          some ⟨v, VMM_PRESENT + VMM_WRITABLE, VMM_PRESENT + VMM_WRITABLE⟩
        else none := by
  have hstart := identity_bootTables layout mem (Pmm.freePages_pmmInit hmax)
  have hend : u32 (memoryMb * 1024 * 1024) = memoryMb * 2 ^ 20 := by
    rw [u32]
    omega
  rw [pagingInit, if_neg (by omega), hend]
  by_cases hsmall : memoryMb ≤ 4
  · have hrounds : (memoryMb * 2 ^ 20 - 0x400000 + 0xFFF) / 0x1000 = 0 := by omega
    have hlimit : max (4 * 2 ^ 20) (memoryMb * 2 ^ 20) = 1024 * PAGE_SIZE := by
      rw [PAGE_SIZE]
      omega
    rw [hrounds, hlimit]
    refine ⟨_, _, rfl, fun v hv => ?_⟩
    exact hstart.translate_eq (le_refl _) (by decide) hv
  · have hrounds : (memoryMb * 2 ^ 20 - 0x400000 + 0xFFF) / 0x1000 = memoryMb * 256 - 1024 := by omega
    have hlimit : max (4 * 2 ^ 20) (memoryMb * 2 ^ 20) = memoryMb * 256 * PAGE_SIZE := by
      rw [PAGE_SIZE]
      omega
    have htotal : memoryMb * 256 ≤ MAX_PAGES := by
      rw [maxPages_eq]
      omega
    obtain ⟨mem', pmm', hrun, hidentity⟩ := hstart.mapRange (le_refl _) htotal
      (k := memoryMb * 256 - 1024) (by omega)
    rw [show 1024 + (memoryMb * 256 - 1024) = memoryMb * 256 by omega] at hidentity
    rw [hrounds, hlimit]
    exact ⟨mem', pmm', hrun, fun v hv => hidentity.translate_eq (by omega) htotal hv⟩

/-- 8 MiB, with the static tables where the linked image has them. -/
theorem pagingInit_identity_eight :
    let layout : BootLayout :=
      ⟨0x118000, 0x119000, ⟨by decide, by decide⟩, ⟨by decide, by decide⟩, by decide, by decide,
        by decide⟩
    ∃ mem' pmm', pagingInit layout 8 (fun _ => 0) (Pmm.pmmInit 8) = some (mem', pmm') ∧
      ∀ v < 2 ^ 32, translate mem' layout.pageDirectory v =
        if v < max (4 * 2 ^ 20) (8 * 2 ^ 20) then
          some ⟨v, VMM_PRESENT + VMM_WRITABLE, VMM_PRESENT + VMM_WRITABLE⟩
        else none :=
  pagingInit_identity _ (fun _ => 0) (by decide) (by decide)

end NemoOS
