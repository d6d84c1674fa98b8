import NemoOS.ElfConfined
import NemoOS.MapEffect

/-!
# Loads with room for their pages

`elf_load_into` returns 0 when the header is valid and every page it asked for could be
allocated. Two free pages for each page that is mapped are enough: one for the page and one
for its table. With them a load that maps in slots of the space's own, and stores where it
has mapped, stays.
-/

namespace NemoOS

open Words Bytes Machine

/-! ## The rounds of a file -/

/-- The program headers that are loaded. -/
def segments (image : Memory) : List ElfPhdr := (phdrs image).filter fun ph => ph.type = PT_LOAD

theorem loadActions_of_valid {image : Memory} (hvalid : validHeader image = true) :
    loadActions (some image) = (segments image).flatMap (segmentActions image) := by
  rw [loadActions, hvalid, if_pos rfl]
  rfl

/-- A load returns 0 when the header is valid and all rounds could be done. -/
theorem elfLoadInto_eq_zero_iff {image : Memory} {space active : Nat} {m : Machine}
    {info : ElfInfo} :
    (elfLoadInto (some image) space active m info).1 = 0 ↔ validHeader image = true ∧
      (Load.perform space active ⟨m, info, []⟩ (loadActions (some image))).1 = true := by
  rw [elfLoadInto]
  cases hvalid : validHeader image with
  | false => exact ⟨fun hminus : (-1 : Int) = 0 => absurd hminus (by decide),
      fun h => absurd h.1 Bool.false_ne_true⟩
  | true =>
      obtain ⟨info', hload⟩ := Load.loadSegments_eq_perform space active image
        ⟨m, ⟨hdrEntry image, 0xFFFFFFFF, 0⟩, []⟩ (phdrs image)
      have hinfo := Load.perform_info space active ⟨m, info, []⟩ ⟨hdrEntry image, 0xFFFFFFFF, 0⟩
        (fileActions image)
      have hactions : loadActions (some image) = fileActions image := loadActions_of_valid hvalid
      rw [if_pos rfl, hload, ← fileActions, hinfo, hactions]
      cases (Load.perform space active ⟨m, info, []⟩ (fileActions image)).1 with
      | true => exact ⟨fun _ => ⟨rfl, rfl⟩, fun _ => rfl⟩
      | false => exact ⟨fun hminus : (-1 : Int) = 0 => absurd hminus (by decide),
          fun h => absurd h.2 Bool.false_ne_true⟩

/-- A page once mapped stays mapped. -/
theorem Plan.pages_mapPage_of_pages {p : Plan} {page : Nat} (virt : Nat)
    (hpage : p.pages page = true) : (p.mapPage virt).pages page = true := by
  have hadd : ∀ q : Plan, q.pages = p.pages → (q.addPage virt).pages page = true := by
    intro q hq
    rw [addPage, hq]
    simp only [hpage, Bool.true_or]
  rw [mapPage]
  split
  · exact hadd p rfl
  · dsimp only
    split
    · exact hpage
    · exact hadd _ rfl

/-! ## Room for a load -/

def LoadAction.isMap : LoadAction → Bool
  | .map .. => true
  | .store .. => false

/-- A page for each one that is mapped, and one for its table. -/
def pagesFor (as : List LoadAction) : Nat := 2 * as.countP LoadAction.isMap

theorem pagesFor_map (page flags : Nat) (as : List LoadAction) :
    pagesFor (.map page flags :: as) = pagesFor as + 2 := by
  rw [pagesFor, List.countP_cons_of_pos rfl]
  rfl

theorem pagesFor_store (virt : Nat) (byte : UInt8) (as : List LoadAction) :
    pagesFor (.store virt byte :: as) = pagesFor as := by
  rw [pagesFor, List.countP_cons_of_neg Bool.false_ne_true]
  rfl

/-- `n` pages are left, and the one at 0 is not among them. -/
structure Pmm.Room (p : Pmm) (n : Nat) : Prop where
  zero_used : p.testBit 0 = true
  le : n ≤ p.freePages.length

theorem Pmm.Room.alloc {p : Pmm} {n : Nat} (h : p.Room (n + 1)) :
    ∃ phys p', p.pmmAllocPage = (phys, p') ∧ phys ≠ 0 ∧ p'.Room n := by
  obtain ⟨hzero, hle⟩ := h
  rcases hfree : p.freePages with _ | ⟨a, rest⟩
  · rw [hfree] at hle
    exact absurd hle (Nat.not_succ_le_zero n)
  · obtain ⟨p', halloc, hrest, ha, -, -, -, hbits⟩ := Pmm.pmmAllocPage_of_cons hzero hfree
    refine ⟨a * PAGE_SIZE, p', halloc, Nat.mul_ne_zero ha (by decide), ?_, ?_⟩
    · rw [hbits, hzero, Bool.true_or]
    · rw [hfree, List.length_cons] at hle
      rw [hrest]
      omega

theorem Pmm.Room.mono {p : Pmm} {n n' : Nat} (h : p.Room n) (hle : n' ≤ n) : p.Room n' :=
  ⟨h.zero_used, hle.trans h.le⟩

/-- A load that finds the pages it needs comes to its end. -/
theorem Load.perform_of_room (space active : Nat) {l : Load} {as : List LoadAction}
    (hroom : l.machine.pmm.Room (pagesFor as)) : (l.perform space active as).1 = true := by
  induction as generalizing l with
  | nil => rfl
  | cons a as ih =>
      rw [perform_cons]
      cases a with
      | store virt byte =>
          rw [pagesFor_store] at hroom
          apply ih
          have hpmm : (l.store active virt byte).machine.pmm = l.machine.pmm := by
            rw [store, Machine.storeByte]
            split <;> rfl
          rw [act, hpmm]
          exact hroom
      | map page flags =>
          rw [pagesFor_map] at hroom
          obtain ⟨phys, pmm, halloc, hne, hroom'⟩ := hroom.alloc
          rw [act_map_some space active page flags halloc hne, if_pos rfl]
          apply ih
          rw [vmmMap_pmm]
          split
          · exact hroom'.mono (Nat.le_succ _)
          · obtain ⟨table, pmm', htable, -, hroom''⟩ := hroom'.alloc
            rw [htable]
            exact hroom''

/-- Every store is to a page that was mapped before it. -/
def storesMapped (pages : List Nat) : List LoadAction → Bool
  | [] => true
  | .map page _ :: rest => storesMapped (page / PAGE_SIZE :: pages) rest
  | .store virt _ :: rest => pages.contains (virt / PAGE_SIZE) && storesMapped pages rest

/-- A load that finds the pages it needs, stays in the slots of the space and stores where it
    has mapped. -/
theorem Plan.stays_of_room {sup : Nat → Bool} {p : Plan} {as : List LoadAction} {pages : List Nat}
    (hroom : p.pmm.Room (pagesFor as)) (hpages : ∀ page ∈ pages, p.pages page = true)
    (hsup : ∀ page flags, LoadAction.map page flags ∈ as → sup (pdIdx page) = false)
    (hstores : storesMapped pages as = true) : p.stays sup as = true := by
  induction as generalizing p pages with
  | nil => rfl
  | cons a as ih =>
      have hsup' := fun page flags hmem => hsup page flags (List.mem_cons_of_mem a hmem)
      cases a with
      | store virt byte =>
          rw [pagesFor_store] at hroom
          rw [storesMapped, Bool.and_eq_true, List.contains_iff_mem] at hstores
          rw [stays, hpages _ hstores.1, Bool.true_and]
          exact ih hroom hpages hsup' hstores.2
      | map page flags =>
          rw [pagesFor_map] at hroom
          obtain ⟨phys, pmm, halloc, hne, hroom'⟩ := hroom.alloc
          obtain ⟨table, pmm', htable, htable_ne, hroom''⟩ := hroom'.alloc
          rw [stays_map page flags as (by rw [halloc]; exact hne), hsup page flags List.mem_cons_self,
            Bool.not_false, Bool.true_and, halloc]
          apply ih _ _ hsup' hstores
          · rw [mapPage]
            split
            · exact hroom'.mono (Nat.le_succ _)
            · dsimp only
              rw [htable]
              dsimp only
              rw [if_neg htable_ne]
              exact hroom''
          · intro other hother
            rcases List.mem_cons.mp hother with rfl | hold
            · apply pages_mapPage
              dsimp only
              rw [htable]
              exact htable_ne
            · exact pages_mapPage_of_pages page (hpages other hold)

/-! ## Files on the small machine -/

/-- The words of a program header. -/
def ElfPhdr.words (ph : ElfPhdr) : List Nat :=
  [ph.type, ph.offset, ph.vaddr, ph.vaddr, ph.filesz, ph.memsz, ph.flags, PAGE_SIZE]

/-- A file that consists of its header and the program headers. -/
def headersOnly (phs : List ElfPhdr) : Memory := fun x =>
  byteOf (([ELF_MAGIC, 0x00010101, 0, 0, 0x00030002, 1, 0x40000000, 52, 0, 0, 0x00200034, phs.length,
    0] ++ phs.flatMap ElfPhdr.words).getD (x / 4) 0) (x % 4)

/-- A page outside the four MiB that the small machine maps for itself. -/
def LoadAction.aboveKernel : LoadAction → Bool
  | .map page _ => page < 2 ^ 32 && pdIdx page != 0
  | .store .. => true

theorem LoadAction.slot_of_aboveKernel {page flags : Nat}
    (h : (LoadAction.map page flags).aboveKernel = true) : page < 2 ^ 32 ∧ pdIdx page ≠ 0 := by
  rw [aboveKernel, Bool.and_eq_true, decide_eq_true_eq, bne_iff_ne] at h
  exact h

/-- A file on the small machine, with room for its pages. -/
theorem smallMachine_load {m : Machine} (hcreate : smallMachine.vmmCreateSpace = (0x3000, m))
    {image : Memory} {as : List LoadAction} (hvalid : validHeader image = true)
    (hactions : loadActions (some image) = as) (hpages : pagesFor as ≤ 12)
    (hslots : as.all LoadAction.aboveKernel) (hstores : storesMapped [] as = true) (info : ElfInfo) :
    SpaceInv m.mem m.pmm m.kernelSpace 0x3000 AllSlots ∧ m.pmm.testBit 0 = true ∧
      Stays (some image) 0x3000 m ∧
      (elfLoadInto (some image) 0x3000 0x3000 m info).1 = 0 := by
  obtain ⟨mem, hcreate'⟩ := smallMachine_create
  have hinv := (smallMachine_kernelSpace.prepared hcreate (by decide) (undisturbed_refl _ _)).inv
  obtain rfl := (Prod.ext_iff.mp (hcreate.symm.trans hcreate')).2
  have hroom : smallMachine.pmm.pmmAllocPage.2.Room (pagesFor as) :=
    Pmm.Room.mono (n := 12) ⟨by decide, by decide⟩ hpages
  refine ⟨hinv, hroom.zero_used, ?_, elfLoadInto_eq_zero_iff.mpr ⟨hvalid, ?_⟩⟩
  · rw [Stays, hactions]
    apply Plan.stays_of_room hroom (fun _ hmem => absurd hmem List.not_mem_nil) _ hstores
    intro page flags hmem
    obtain ⟨hpage, hslot⟩ := LoadAction.slot_of_aboveKernel (List.all_eq_true.mp hslots _ hmem)
    rw [smallMachine_slot hcreate' (pdIdx_lt hpage)]
    exact decide_eq_false hslot
  · rw [hactions]
    exact Load.perform_of_room _ _ hroom

end NemoOS
