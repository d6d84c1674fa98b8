import NemoOS.PageMapping

/-!
# `vmm_map` and `vmm_unmap` change one page

Seen from outside, an address space is the function that takes a virtual address to its
translation. `updatePage` is the operation on such functions that replaces the values of
one page. The two calls refine it: a table of the space is not its directory and belongs
to one slot only (`TableTree`), so that an entry of it decides about the addresses of one
page. A page table that `vmm_map` has to create decides about none as long as it is empty
(`EmptyTable`).

The allocator must not hand out a page of the space itself, nor the page at 0, whose
address is taken for a failure: `vmmMap_pointwise` asks for these pages to be in use, and
`vmmMap_takes_directory` is what happens otherwise.
-/

namespace NemoOS

open Words Bytes Machine

/-- The function with the values of another one in the page of the address. -/
def updatePage (f : Nat → Option Translation) (virt : Nat) (g : Nat → Option Translation) :
    Nat → Option Translation :=
  fun v => if v / PAGE_SIZE = virt / PAGE_SIZE then g v else f v

/-- The two functions agree on the addresses of the space. -/
def SameTranslation (f g : Nat → Option Translation) : Prop := ∀ v < 2 ^ 32, f v = g v

/-- The tables of a space are pages of their own. -/
structure TableTree (m : Memory) (space : Nat) : Prop where
  directory : IsPage space
  ne_directory : ∀ i < ENTRIES, isPresent (entryAt m space i) = true →
    frame (entryAt m space i) ≠ space
  distinct : ∀ i < ENTRIES, ∀ j < ENTRIES, isPresent (entryAt m space i) = true →
    isPresent (entryAt m space j) = true →
      frame (entryAt m space i) = frame (entryAt m space j) → i = j

/-! ## One entry of a table -/

/-- The slot has a table, which is a page of its own. -/
structure OwnTable (m : Memory) (space i : Nat) : Prop where
  directory : IsPage space
  present : isPresent (entryAt m space i) = true
  ne_directory : frame (entryAt m space i) ≠ space
  distinct : ∀ j < ENTRIES, isPresent (entryAt m space j) = true →
    frame (entryAt m space j) = frame (entryAt m space i) → j = i

namespace OwnTable

variable {m : Memory} {space virt : Nat} (h : OwnTable m space (pdIdx virt))

include h

theorem sameDirectory_setEntry (e : Nat) :
    SameDirectory m (setEntry m (frame (entryAt m space (pdIdx virt))) (ptIdx virt) e) space
      AllSlots := by
  intro i hi
  have htable := frame_entryAt_isPage m space (pdIdx virt)
  exact entryAt_onlyPage (onlyPage_setEntry htable (ptIdx_lt virt)) htable h.directory
    h.ne_directory.symm hi

/-- The entry decides about the addresses of its page and no others. -/
theorem translate_setEntry {e : Nat} (he : e < 2 ^ 32) {v : Nat} (hv : v < 2 ^ 32) :
    translate (setEntry m (frame (entryAt m space (pdIdx virt))) (ptIdx virt) e) space v =
      updatePage (translate m space) virt (walk (entryAt m space (pdIdx virt)) e) v := by
  have htable := frame_entryAt_isPage m space (pdIdx virt)
  rw [translate_eq_walk, h.sameDirectory_setEntry e _ (pdIdx_lt hv), updatePage]
  by_cases hslot : pdIdx v = pdIdx virt
  · rw [hslot, entryAt_setEntry htable (ptIdx_lt virt) (ptIdx_lt v) he]
    by_cases hentry : ptIdx v = ptIdx virt
    · rw [if_pos hentry, if_pos (page_eq_iff.mpr ⟨hslot, hentry⟩)]
    · rw [if_neg hentry, if_neg fun hpage => hentry (page_eq_iff.mp hpage).2, translate_eq_walk,
        hslot]
  · rw [if_neg fun hpage => hslot (page_eq_iff.mp hpage).1, translate_eq_walk]
    cases hother : isPresent (entryAt m space (pdIdx v)) with
    | false => rw [walk_absent hother, walk_absent hother]
    | true =>
        -- the tables of two slots are two pages
        have hne : frame (entryAt m space (pdIdx v)) ≠ frame (entryAt m space (pdIdx virt)) :=
          fun heq => hslot (h.distinct _ (pdIdx_lt hv) hother heq)
        rw [entryAt_onlyPage (onlyPage_setEntry htable (ptIdx_lt virt)) htable
          (frame_entryAt_isPage _ _ _) hne (ptIdx_lt v)]

/-- The entry that `vmm_map` writes into a table that is there. -/
theorem translate_setPage {phys flags : Nat} (hphys : phys < 2 ^ 32)
    (hflags : isPresent flags = true) :
    SameTranslation (translate (setPage m space virt phys flags) space)
      (updatePage (translate m space) virt fun v =>
        some ⟨frame phys + v % PAGE_SIZE, flagBits (entryAt m space (pdIdx virt)),
          flagBits flags⟩) := by
  intro v hv
  have hpage := frame_isPage hphys
  have hlow : flagBits flags < PAGE_SIZE := Nat.mod_lt _ (by decide)
  rw [setPage, h.translate_setEntry (hpage.add_lt hlow) hv, updatePage, updatePage, walk, h.present,
    isPresent_add hpage, isPresent_flagBits, hflags, frame_add hpage hlow, flagBits_add hpage hlow]
  rfl

end OwnTable

theorem SpaceInv.ownTable {m : Memory} {pmm : Pmm} {kernel space i : Nat}
    (h : SpaceInv m pmm kernel space AllSlots) (hi : i < ENTRIES)
    (hsup : supervisor m kernel i = false) (hpresent : isPresent (entryAt m space i) = true) :
    OwnTable m space i := by
  refine ⟨h.isPage_space, hpresent, (h.space_tables _ ⟨i, hi, hpresent, rfl⟩).2, ?_⟩
  intro j hj hother heq
  by_contra hne
  exact h.own_distinct i hi hsup hpresent j hj hne hother heq

namespace TableTree

variable {m m' : Memory} {space virt : Nat}

theorem ownTable (h : TableTree m space) {i : Nat} (hi : i < ENTRIES)
    (hpresent : isPresent (entryAt m space i) = true) : OwnTable m space i :=
  ⟨h.directory, hpresent, h.ne_directory i hi hpresent,
    fun j hj hother heq => h.distinct j hj i hi hother hpresent heq⟩

theorem of_directory (h : TableTree m space) (hsame : SameDirectory m m' space AllSlots) :
    TableTree m' space := by
  refine ⟨h.directory, fun i hi hpresent => ?_, fun i hi j hj hpi hpj heq => ?_⟩
  · rw [hsame i hi] at hpresent ⊢
    exact h.ne_directory i hi hpresent
  · rw [hsame i hi] at hpi heq
    rw [hsame j hj] at hpj heq
    exact h.distinct i hi j hj hpi hpj heq

/-! ## A new table -/

/-- A page that is no page of the space becomes the table of an empty slot. -/
theorem emptyTable (h : TableTree m space) {i a : Nat} (hi : i < ENTRIES) (ha : IsPage a)
    (hne : a ≠ space) (htable : ¬ HasTable m space AllSlots a) :
    SpaceInv.EmptyTable m (setEntry (fill m a 0 PAGE_SIZE) space i
      (a + (VMM_PRESENT + VMM_WRITABLE + VMM_USER))) space i a := by
  have hbound : a + (VMM_PRESENT + VMM_WRITABLE + VMM_USER) < 2 ^ 32 := ha.add_lt (by decide)
  have hfill : SameTables m (fill m a 0 PAGE_SIZE) space AllSlots :=
    .of_onlyPage (onlyPage_fill ha 0) ha h.directory hne.symm htable fun _ hj => hj
  refine ⟨⟨fun j hj => ?_, fun j hj hpresent k hk => ?_⟩, ?_, fun j hj => ?_⟩
  · rw [entryAt_setEntry h.directory hi hj.1 hbound, if_neg hj.2, hfill.directory j hj.1]
  · rw [entryAt_onlyPage (onlyPage_setEntry h.directory hi) h.directory
      (frame_entryAt_isPage _ _ _) (h.ne_directory j hj.1 hpresent) hk, hfill.table j hj.1 hpresent k hk]
  · rw [entryAt_setEntry h.directory hi hi hbound, if_pos rfl]
  · rw [entryAt_onlyPage (onlyPage_setEntry h.directory hi) h.directory ha hne hj, entryAt_fill ha hj]

end TableTree

namespace SpaceInv.EmptyTable

variable {m m' : Memory} {space i a : Nat}

theorem tableTree (h : EmptyTable m m' space i a) (htree : TableTree m space) (ha : IsPage a)
    (hne : a ≠ space) (htable : ¬ HasTable m space AllSlots a) : TableTree m' space := by
  have hframe : frame (entryAt m' space i) = a := by
    rw [h.entry]
    exact frame_add ha (by decide)
  have hother : ∀ j < ENTRIES, j ≠ i → isPresent (entryAt m' space j) = true →
      isPresent (entryAt m space j) = true ∧ frame (entryAt m' space j) ≠ a ∧
        entryAt m' space j = entryAt m space j := by
    intro j hj hji hpresent
    have hentry := h.others.directory j ⟨hj, hji⟩
    rw [hentry] at hpresent ⊢
    exact ⟨hpresent, fun heq => htable ⟨j, hj, hpresent, heq⟩, rfl⟩
  refine ⟨htree.directory, fun j hj hpresent => ?_, fun j hj k hk hpj hpk heq => ?_⟩
  · by_cases hji : j = i
    · rw [hji, hframe]
      exact hne
    · obtain ⟨hold, -, hentry⟩ := hother j hj hji hpresent
      rw [hentry]
      exact htree.ne_directory j hj hold
  · by_cases hji : j = i
    · by_contra hjk
      refine (hother k hk (fun hki => hjk (hji.trans hki.symm)) hpk).2.1 ?_
      rw [← heq, hji, hframe]
    · obtain ⟨hold, hfresh, hentry⟩ := hother j hj hji hpj
      by_cases hki : k = i
      · rw [heq, hki, hframe] at hfresh
        exact absurd rfl hfresh
      · obtain ⟨hold', -, hentry'⟩ := hother k hk hki hpk
        rw [hentry, hentry'] at heq
        exact htree.distinct j hj k hk hold hold' heq

end SpaceInv.EmptyTable

/-! ## The calls -/

/-- The allocator has the pages of the space and the page at 0 marked as used. -/
def PagesInUse (m : Machine) (space : Nat) : Prop :=
  ∀ a, a = 0 ∨ a = space ∨ HasTable m.mem space AllSlots a → m.pmm.testBit (a / PAGE_SIZE) = true

/-- The flags of the directory entry through which a page of the slot is mapped. -/
def Machine.slotFlags (m : Machine) (space virt : Nat) : Nat :=
  if isPresent (entryAt m.mem space (pdIdx virt)) then flagBits (entryAt m.mem space (pdIdx virt))
  else VMM_PRESENT + VMM_WRITABLE + VMM_USER

/-- The translation of a page that is mapped to the frame of `phys`. -/
def Machine.mapped (m : Machine) (space virt phys flags : Nat) (v : Nat) : Option Translation :=
  some ⟨frame phys + v % PAGE_SIZE, m.slotFlags space virt, flagBits flags⟩

theorem OwnTable.translate_vmmMap {m : Machine} {space virt phys flags : Nat}
    (h : OwnTable m.mem space (pdIdx virt)) (hphys : phys < 2 ^ 32) (hflags : isPresent flags = true) :
    SameTranslation (translate (setPage m.mem space virt phys flags) space)
      (updatePage (translate m.mem space) virt (m.mapped space virt phys flags)) := by
  intro v hv
  rw [h.translate_setPage hphys hflags v hv, updatePage, updatePage, mapped, slotFlags, h.present]
  rfl

/-- The page is mapped in a new table. -/
theorem SpaceInv.EmptyTable.translate_vmmMap {m : Machine} {space virt phys flags table : Nat}
    {mem : Memory} (h : EmptyTable m.mem mem space (pdIdx virt) table) (htable : IsPage table)
    (habsent : isPresent (entryAt m.mem space (pdIdx virt)) = false)
    (hown : OwnTable mem space (pdIdx virt)) (hphys : phys < 2 ^ 32)
    (hflags : isPresent flags = true) :
    SameTranslation (translate (Machine.setPage mem space virt phys flags) space)
      (updatePage (translate m.mem space) virt (m.mapped space virt phys flags)) := by
  intro v hv
  have hslot : flagBits (entryAt mem space (pdIdx virt)) =
      VMM_PRESENT + VMM_WRITABLE + VMM_USER := by
    rw [h.entry]
    exact flagBits_add htable (by decide)
  rw [hown.translate_setPage hphys hflags v hv, hslot, updatePage, updatePage,
    h.translate_eq htable habsent hv, mapped, slotFlags, habsent]
  rfl

/-- In a space with its own table for the slot, `vmm_map` updates one page, or finds no page for
    the table and writes nothing. -/
theorem SpaceInv.translate_vmmMap {m : Machine} {kernel space virt phys flags : Nat}
    (h : SpaceInv m.mem m.pmm kernel space AllSlots) (hvirt : virt < 2 ^ 32)
    (hsup : supervisor m.mem kernel (pdIdx virt) = false) (hphys : phys < 2 ^ 32)
    (hflags : isPresent flags = true) :
    (m.vmmMap space virt phys flags).1 = true ∧
        SameTranslation (translate (m.vmmMap space virt phys flags).2.mem space)
          (updatePage (translate m.mem space) virt (m.mapped space virt phys flags)) ∨
      (m.vmmMap space virt phys flags).1 = false ∧
        isPresent (entryAt m.mem space (pdIdx virt)) = false ∧
        (m.vmmMap space virt phys flags).2.mem = m.mem := by
  have hslot := pdIdx_lt hvirt
  rcases m.vmmMap_inversion space virt phys flags with
    ⟨hpresent, hcall⟩ | ⟨hpresent, pmm, halloc, hcall⟩ |
    ⟨hpresent, table, pmm, mem, halloc, hne, hmem, hcall⟩
  · rw [hcall]
    exact .inl ⟨rfl, (h.ownTable hslot hsup hpresent).translate_vmmMap hphys hflags⟩
  · rw [hcall]
    exact .inr ⟨rfl, hpresent, rfl⟩
  · rw [hcall]
    obtain ⟨hpage, hinv, hk, hempty⟩ := h.newTable hslot hpresent halloc hne hmem
    have hsup' : supervisor mem kernel (pdIdx virt) = false :=
      (supervisor_congr hk.directory hslot).trans hsup
    have hown := hinv.ownTable hslot hsup' (hempty.isPresent_slot hpage)
    exact .inl ⟨rfl, hempty.translate_vmmMap hpage hpresent hown hphys hflags⟩

/-- A page that was mapped. -/
theorem SpaceInv.translate_mapped {m m' : Machine} {kernel space virt phys flags : Nat}
    (h : SpaceInv m.mem m.pmm kernel space AllSlots) (hvirt : virt < 2 ^ 32)
    (hsup : supervisor m.mem kernel (pdIdx virt) = false) (hphys : phys < 2 ^ 32)
    (hflags : isPresent flags = true) (hmap : m.vmmMap space virt phys flags = (true, m')) :
    SameTranslation (translate m'.mem space)
      (updatePage (translate m.mem space) virt (m.mapped space virt phys flags)) := by
  have hcases := h.translate_vmmMap hvirt hsup hphys hflags
  rw [hmap] at hcases
  exact (hcases.resolve_right fun hfail => Bool.false_ne_true hfail.1.symm).2

/-- In a slot of the space's own user mode gets through the directory. -/
theorem SpaceInv.isUser_slotFlags {m : Machine} {kernel space virt : Nat}
    (h : SpaceInv m.mem m.pmm kernel space AllSlots) (hvirt : virt < 2 ^ 32)
    (hsup : supervisor m.mem kernel (pdIdx virt) = false) :
    isUser (m.slotFlags space virt) = true := by
  rw [Machine.slotFlags]
  split
  · next hpresent =>
    rw [isUser_flagBits]
    exact h.own_user _ (pdIdx_lt hvirt) hsup hpresent
  · rfl

/-- A new page goes through the entry of a page of its slot that is mapped. -/
theorem slotFlags_of_translate {m : Machine} {space v virt : Nat} {t : Translation}
    (ht : translate m.mem space v = some t) (hslot : pdIdx virt = pdIdx v) :
    m.slotFlags space virt = t.directoryFlags := by
  obtain ⟨hpresent, -, rfl⟩ := translate_eq_some ht
  rw [Machine.slotFlags, hslot, hpresent, if_pos rfl]

section calls

variable {m : Machine} {space virt phys flags : Nat} (htree : TableTree m.mem space)
  (hvirt : virt < 2 ^ 32)

include htree hvirt

/-- `vmm_map` updates one page, or finds no page for a table and changes nothing. -/
theorem vmmMap_cases (hused : PagesInUse m space) (hphys : phys < 2 ^ 32)
    (hflags : isPresent flags = true) :
    ((m.vmmMap space virt phys flags).1 = true ∧
        TableTree (m.vmmMap space virt phys flags).2.mem space ∧
        SameTranslation (translate (m.vmmMap space virt phys flags).2.mem space)
          (updatePage (translate m.mem space) virt (m.mapped space virt phys flags))) ∨
      m.vmmMap space virt phys flags = (false, m) ∧ m.pmm.freePages = [] := by
  have hslot := pdIdx_lt hvirt
  rcases m.vmmMap_inversion space virt phys flags with
    ⟨hpresent, hcall⟩ | ⟨hpresent, pmm, halloc, hcall⟩ |
    ⟨hpresent, table, pmm, mem, halloc, hne, hmem, hcall⟩
  · rw [hcall]
    have hown := htree.ownTable hslot hpresent
    exact .inl ⟨rfl, htree.of_directory (hown.sameDirectory_setEntry _),
      hown.translate_vmmMap hphys hflags⟩
  · have hzero : m.pmm.testBit 0 = true := hused 0 (.inl rfl)
    have hnone : m.pmm.pmmAllocPage.1 = 0 := by rw [halloc]
    have hsame := Pmm.pmmAllocPage_eq_of_zero hzero hnone
    obtain ⟨-, rfl⟩ := Prod.ext_iff.mp (halloc.symm.trans hsame)
    exact .inr ⟨hcall, (Pmm.pmmAllocPage_eq_zero_iff hzero).mp hnone⟩
  · obtain ⟨hpage, hclear, -⟩ := (pmmAllocPage_page halloc).2 hne
    -- the new table is no page of the space
    have hfresh : ∀ a, a = 0 ∨ a = space ∨ HasTable m.mem space AllSlots a → table ≠ a := by
      rintro a ha rfl
      rw [hused table ha] at hclear
      exact Bool.false_ne_true hclear.symm
    have hspace := hfresh space (.inr (.inl rfl))
    have hnot : ¬ HasTable m.mem space AllSlots table := fun ha =>
      hfresh table (.inr (.inr ha)) rfl
    have hempty := htree.emptyTable hslot hpage hspace hnot
    rw [← hmem] at hempty
    rw [hcall]
    have htree' := hempty.tableTree htree hpage hspace hnot
    have hown := htree'.ownTable hslot (hempty.isPresent_slot hpage)
    exact .inl ⟨rfl, htree'.of_directory (hown.sameDirectory_setEntry _),
      hempty.translate_vmmMap hpage hpresent hown hphys hflags⟩

/-- `vmm_unmap` removes one page. -/
theorem translate_vmmUnmap :
    SameTranslation (translate (m.vmmUnmap space virt).mem space)
      (updatePage (translate m.mem space) virt fun _ => none) := by
  intro v hv
  rw [vmmUnmap]
  cases hpresent : isPresent (entryAt m.mem space (pdIdx virt)) with
  | true =>
      rw [if_pos rfl]
      dsimp only
      rw [(htree.ownTable (pdIdx_lt hvirt) hpresent).translate_setEntry (Nat.two_pow_pos 32) hv]
      simp only [updatePage, walk_empty]
  | false =>
      rw [if_neg Bool.false_ne_true, updatePage]
      split
      · next hpage => rw [translate_eq_walk, (page_eq_iff.mp hpage).1, walk_absent hpresent]
      · rfl

omit htree hvirt in
/-- The addresses of a page are translated together or not at all. -/
theorem translate_none_of_page {mem : Memory} (hnone : translate mem space virt = none) {v : Nat}
    (hpage : v / PAGE_SIZE = virt / PAGE_SIZE) : translate mem space v = none := by
  obtain ⟨hslot, hentry⟩ := page_eq_iff.mp hpage
  rw [translate_eq_walk, walk] at hnone ⊢
  rw [hslot, hentry]
  split at hnone
  · cases hnone
  · next habsent => rw [if_neg habsent]

/-- **`vmm_map` and `vmm_unmap` are pointwise updates of the translation.** With the pages of
    the space and the page at 0 in use, a page that is mapped is translated as asked for and
    every other page as before; a call that fails finds no free page and changes nothing;
    a page that is unmapped is not translated and every other page as before; and unmapping
    takes a mapping of a page back that was not mapped before. -/
theorem vmmMap_pointwise (hused : PagesInUse m space) (hphys : phys < 2 ^ 32)
    (hflags : isPresent flags = true) :
    ((m.vmmMap space virt phys flags).1 = true →
        SameTranslation (translate (m.vmmMap space virt phys flags).2.mem space)
          (updatePage (translate m.mem space) virt (m.mapped space virt phys flags))) ∧
      ((m.vmmMap space virt phys flags).1 = false →
        m.pmm.freePages = [] ∧ (m.vmmMap space virt phys flags).2 = m) ∧
      SameTranslation (translate (m.vmmUnmap space virt).mem space)
        (updatePage (translate m.mem space) virt fun _ => none) ∧
      (translate m.mem space virt = none →
        SameTranslation
          (translate ((m.vmmMap space virt phys flags).2.vmmUnmap space virt).mem space)
          (translate m.mem space)) := by
  rcases vmmMap_cases htree hvirt hused hphys hflags with ⟨hok, htree', hmap⟩ | ⟨hfail, hnone⟩
  · refine ⟨fun _ => hmap, fun hfail => ?_, translate_vmmUnmap htree hvirt, fun hnone v hv => ?_⟩
    · rw [hok] at hfail
      nomatch hfail
    · rw [translate_vmmUnmap htree' hvirt v hv, updatePage]
      split
      · next hpage => rw [translate_none_of_page hnone hpage]
      · next hpage => rw [hmap v hv, updatePage, if_neg hpage]
  · rw [hfail]
    refine ⟨nofun, fun _ => ⟨hnone, rfl⟩, translate_vmmUnmap htree hvirt, fun hunmapped v hv => ?_⟩
    rw [translate_vmmUnmap htree hvirt v hv, updatePage]
    split
    · next hpage => rw [translate_none_of_page hunmapped hpage]
    · rfl

end calls

theorem entryAt_zero (table i : Nat) : entryAt (fun _ => 0) table i = 0 := rfl

/-- A directory without a table. -/
theorem tableTree_zero : TableTree (fun _ => 0) 0x1000 where
  directory := ⟨by decide, by decide⟩
  ne_directory i _ hpresent := by
    rw [entryAt_zero] at hpresent
    exact absurd hpresent (by decide)
  distinct i _ j _ hpresent := by
    rw [entryAt_zero] at hpresent
    exact absurd hpresent (by decide)

/-- An empty space in page 1 and a free page 2. -/
theorem vmmMap_pointwise_empty :
    let m : Machine := ⟨fun _ => 0, ⟨fun _ => 3, 3, 2, by decide⟩, 0x1000⟩
    (m.vmmMap 0x1000 0x400000 0x5000 3).1 = true ∧
      SameTranslation (translate (m.vmmMap 0x1000 0x400000 0x5000 3).2.mem 0x1000)
        (updatePage (translate m.mem 0x1000) 0x400000 (m.mapped 0x1000 0x400000 0x5000 3)) := by
  intro m
  have hused : PagesInUse m 0x1000 := by
    rintro a (rfl | rfl | ⟨i, -, hpresent, -⟩)
    · decide
    · decide
    · rw [entryAt_zero] at hpresent
      exact absurd hpresent (by decide)
  have hok : (m.vmmMap 0x1000 0x400000 0x5000 3).1 = true := by decide
  exact ⟨hok, (vmmMap_pointwise tableTree_zero (by decide) hused (by decide) (by decide)).1 hok⟩

/-- The directory is a free page of the allocator: `vmm_map` takes it for the new table, and
    the page it reports as mapped is not. -/
theorem vmmMap_takes_directory :
    ¬ ∀ (m : Machine) (space virt phys flags : Nat), TableTree m.mem space → virt < 2 ^ 32 →
      phys < 2 ^ 32 → isPresent flags = true → (m.vmmMap space virt phys flags).1 = true →
        SameTranslation (translate (m.vmmMap space virt phys flags).2.mem space)
          (updatePage (translate m.mem space) virt (m.mapped space virt phys flags)) := by
  intro hall
  have hsame := hall ⟨fun _ => 0, ⟨fun _ => 1, 2, 1, by decide⟩, 0x1000⟩ 0x1000 0 0x5000 3
    tableTree_zero (by decide) (by decide) (by decide) (by decide) 0 (by decide)
  exact absurd hsame (by decide)

end NemoOS
