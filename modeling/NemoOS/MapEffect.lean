import NemoOS.DirectoryFill
import NemoOS.PageMapping

/-!
# What a call of `vmm_map` can change

The effect of `vmm_map` on a space, whether the slot is the space's own or one with a
supervisor table: only directories and tables are written, and a page that becomes a table
was free before. So a page that is in use and is neither a directory nor a table keeps its
bytes, and stays such a page.

A page in a slot of the space's own is mapped where there is a table or a free page for
one; `Pmm.freePages` says which pages are left.
-/

namespace NemoOS

open Words Bytes Machine

/-- A changed byte lies in the page. -/
theorem OnlyPage.page_eq {a : Nat} {m m' : Memory} (hmem : OnlyPage a m m') (ha : IsPage a) {x : Nat}
    (hx : m' x ≠ m x) : x / PAGE_SIZE * PAGE_SIZE = a := by
  have haligned := ha.aligned
  have hin : ¬ (x < a ∨ a + PAGE_SIZE ≤ x) := fun hout => hx (hmem x hout)
  rw [PAGE_SIZE] at *
  omega

structure MapEffect (m m' : Machine) (kernel space : Nat) : Prop where
  inv : SpaceInv m'.mem m'.pmm kernel space AllSlots
  kernelSpace : m'.kernelSpace = m.kernelSpace
  directory : SameDirectory m.mem m'.mem kernel AllSlots
  keeps : m.pmm.Keeps m'.pmm
  total : m'.pmm.totalPages = m.pmm.totalPages
  structural : ∀ a, Structural m'.mem kernel space AllSlots a →
    Structural m.mem kernel space AllSlots a ∨ m.pmm.testBit (a / PAGE_SIZE) = false
  writes : ∀ x, m'.mem x ≠ m.mem x →
    Structural m'.mem kernel space AllSlots (x / PAGE_SIZE * PAGE_SIZE)

namespace MapEffect

variable {m m' : Machine} {kernel space : Nat}

/-- A page in use that is no table does not become one. -/
theorem not_structural (h : MapEffect m m' kernel space) {a : Nat} (ha : InUse m.pmm a)
    (hnot : ¬ Structural m.mem kernel space AllSlots a) :
    ¬ Structural m'.mem kernel space AllSlots a := by
  intro hstructural
  rcases h.structural a hstructural with hold | hclear
  · exact hnot hold
  · exact ha.ne_of_clear hclear rfl

/-- The effect after a page was taken from the allocator. -/
theorem of_alloc {phys : Nat} {pmm : Pmm} (h : MapEffect { m with pmm := pmm } m' kernel space)
    (halloc : m.pmm.pmmAllocPage = (phys, pmm)) : MapEffect m m' kernel space := by
  obtain ⟨hkeeps, htotal, -⟩ := pmmAllocPage_used halloc
  refine ⟨h.inv, h.kernelSpace, h.directory, hkeeps.trans h.keeps, h.total.trans htotal,
    fun a ha => ?_, h.writes⟩
  rcases h.structural a ha with hold | hclear
  · exact .inl hold
  · right
    exact hkeeps.clear hclear

end MapEffect

/-- `vmm_map` takes the pages that it takes on the plan, and succeeds where the plan does. -/
theorem Plan.mapPage_eq {m : Machine} {space virt : Nat} {p : Plan} (hpmm : p.pmm = m.pmm)
    (htable : p.tables (pdIdx virt) = isPresent (entryAt m.mem space (pdIdx virt)))
    (phys flags : Nat) :
    p.mapPage virt =
      ⟨(m.vmmMap space virt phys flags).2.pmm,
        fun i => p.tables i || ((m.vmmMap space virt phys flags).1 && i == pdIdx virt),
        fun page => p.pages page ||
          ((m.vmmMap space virt phys flags).1 && page == virt / PAGE_SIZE)⟩ := by
  rcases m.vmmMap_inversion space virt phys flags with
    ⟨hpresent, hcall⟩ | ⟨hpresent, pmm, halloc, hcall⟩ |
    ⟨hpresent, table, pmm, mem, halloc, hne, -, hcall⟩
  all_goals rw [hcall, Plan.mapPage, htable, hpresent]
  · have htables : (fun i => p.tables i || (true && i == pdIdx virt)) = p.tables := by
      funext i
      by_cases heq : i = pdIdx virt
      · rw [heq, htable, hpresent, Bool.true_or]
      · rw [beq_false_of_ne heq, Bool.and_false, Bool.or_false]
    rw [if_pos rfl, htables, ← hpmm]
    simp only [Plan.addPage, Bool.true_and]
  · rw [if_neg Bool.false_ne_true, hpmm, halloc]
    simp only [if_pos, Bool.false_and, Bool.or_false]
  · rw [if_neg Bool.false_ne_true, hpmm, halloc]
    simp only [if_neg hne, Plan.addPage, Bool.true_and]

section vmmMap

variable {m : Machine} {kernel space virt phys flags : Nat}
  (h : SpaceInv m.mem m.pmm kernel space AllSlots) (hvirt : virt < 2 ^ 32)

include h hvirt

theorem SpaceInv.setPage_effect (hphys : InUse m.pmm phys)
    (hfree : ¬ Structural m.mem kernel space AllSlots phys) (hflags : flags < PAGE_SIZE)
    (hpresent : isPresent (entryAt m.mem space (pdIdx virt)) = true) :
    MapEffect m { m with mem := Machine.setPage m.mem space virt phys flags } kernel space := by
  obtain ⟨hkernel, hspace⟩ := h.sameDirectory_setPage hvirt hpresent phys flags
  have htable : IsPage (frame (entryAt m.mem space (pdIdx virt))) := frame_entryAt_isPage _ _ _
  refine ⟨h.setPage hvirt hpresent hphys hfree hflags, rfl, hkernel, fun _ hpage => hpage, rfl,
    fun a ha => .inl (structural_congr hkernel hspace ha), fun x hx => ?_⟩
  rw [OnlyPage.page_eq (onlyPage_setEntry htable (ptIdx_lt virt)) htable hx]
  refine .inr (.inr (.inr ⟨pdIdx virt, pdIdx_lt hvirt, ?_⟩))
  dsimp only
  rw [hspace _ (pdIdx_lt hvirt)]
  exact ⟨hpresent, rfl⟩

/-- The empty table in a slot that had none. -/
theorem SpaceInv.newTable_effect {table : Nat} {pmm : Pmm}
    (habsent : isPresent (entryAt m.mem space (pdIdx virt)) = false)
    (halloc : m.pmm.pmmAllocPage = (table, pmm)) (hne : table ≠ 0) {mem : Memory}
    (hmem : mem = setEntry (fill m.mem table 0 PAGE_SIZE) space (pdIdx virt)
      (table + (VMM_PRESENT + VMM_WRITABLE + VMM_USER))) :
    MapEffect m { m with mem := mem, pmm := pmm } kernel space ∧
      isPresent (entryAt mem space (pdIdx virt)) = true := by
  obtain ⟨hkeeps, htotal, hclear⟩ := pmmAllocPage_used halloc
  obtain ⟨hpage, hinv, hkernel, hempty⟩ := h.newTable (pdIdx_lt hvirt) habsent halloc hne hmem
  refine ⟨⟨hinv, rfl, hkernel.directory, hkeeps, htotal, fun a ha => ?_, fun x hx => ?_⟩,
    hempty.isPresent_slot hpage⟩
  · rcases hempty.structural hpage hkernel ha with hold | rfl
    · exact .inl hold
    · exact .inr (hclear hne).2.1
  · dsimp only at hx ⊢
    by_cases hfilled : mem x = fill m.mem table 0 PAGE_SIZE x
    · rw [hfilled] at hx
      rw [OnlyPage.page_eq (onlyPage_fill hpage 0) hpage hx]
      refine .inr (.inr (.inr ⟨pdIdx virt, pdIdx_lt hvirt, ?_, ?_⟩))
      · exact hempty.isPresent_slot hpage
      · rw [hempty.entry]
        exact frame_add hpage (by decide)
    · rw [hmem] at hfilled
      rw [OnlyPage.page_eq (onlyPage_setEntry h.isPage_space (pdIdx_lt hvirt)) h.isPage_space hfilled]
      exact .inr (.inl rfl)

/-- `vmm_map` with a page in use that is no table. -/
theorem SpaceInv.mapEffect (hphys : InUse m.pmm phys)
    (hfree : ¬ Structural m.mem kernel space AllSlots phys) (hflags : flags < PAGE_SIZE) :
    MapEffect m (m.vmmMap space virt phys flags).2 kernel space := by
  rcases m.vmmMap_inversion space virt phys flags with
    ⟨hpresent, hcall⟩ | ⟨hpresent, pmm, halloc, hcall⟩ |
    ⟨hpresent, table, pmm, mem, halloc, hne, hmem, hcall⟩
  · rw [hcall]
    exact h.setPage_effect hvirt hphys hfree hflags hpresent
  · rw [hcall]
    obtain ⟨hkeeps, htotal, -⟩ := pmmAllocPage_used halloc
    exact ⟨h.congr .refl .refl hkeeps, rfl, fun _ _ => rfl, hkeeps, htotal, fun a ha => .inl ha,
      fun x hx => absurd rfl hx⟩
  · rw [hcall]
    obtain ⟨heffect, hpresent'⟩ := h.newTable_effect hvirt hpresent halloc hne hmem
    have hset := SpaceInv.setPage_effect (m := { m with mem := mem, pmm := pmm }) heffect.inv
      hvirt (hphys.keeps heffect.keeps) (heffect.not_structural hphys hfree) hflags hpresent'
    obtain ⟨-, hspace⟩ := heffect.inv.sameDirectory_setPage hvirt hpresent' phys flags
    refine ⟨hset.inv, rfl, fun i hi => (hset.directory i hi).trans (heffect.directory i hi),
      heffect.keeps, heffect.total, fun a ha => ?_, fun x hx => ?_⟩
    · rcases hset.structural a ha with hold | hclear
      · exact heffect.structural a hold
      · right
        exact heffect.keeps.clear hclear
    · by_cases hset_x : Machine.setPage mem space virt phys flags x = mem x
      · dsimp only at hx
        rw [hset_x] at hx
        have hkernel' : SameDirectory (Machine.setPage mem space virt phys flags) mem
            kernel AllSlots := fun i hi => (hset.directory i hi).symm
        exact structural_congr hkernel' (fun i hi => (hspace i hi).symm) (heffect.writes x hx)
      · exact hset.writes x hset_x

/-- The slots with a table and the pages that user mode can use after the call. -/
theorem SpaceInv.vmmMap_view (hphys : IsPage phys) (hflags : flags < PAGE_SIZE)
    (hflags_present : isPresent flags = true) (hflags_user : isUser flags = true) {ok : Bool}
    {m' : Machine} (hcall : m.vmmMap space virt phys flags = (ok, m')) :
    (∀ i < ENTRIES, isPresent (entryAt m'.mem space i) =
        (isPresent (entryAt m.mem space i) || (ok && i == pdIdx virt))) ∧
      ∀ v < 2 ^ 32, userMapped m'.mem space v =
        (userMapped m.mem space v ||
          (ok && (!supervisor m.mem kernel (pdIdx virt) && v / PAGE_SIZE == virt / PAGE_SIZE))) := by
  have hslot := pdIdx_lt hvirt
  rcases m.vmmMap_inversion space virt phys flags with
    ⟨hpresent, heq⟩ | ⟨hpresent, pmm, halloc, heq⟩ |
    ⟨hpresent, table, pmm, mem, halloc, hne, hmem, heq⟩
  all_goals obtain ⟨rfl, rfl⟩ := Prod.ext_iff.mp (heq.symm.trans hcall)
  · refine ⟨fun i hi => ?_, fun v hv => h.userMapped_setPage hvirt hpresent hphys hflags
      hflags_present hflags_user hv⟩
    rw [(h.sameDirectory_setPage hvirt hpresent phys flags).2 i hi, Bool.true_and]
    by_cases heq : i = pdIdx virt
    · rw [heq, hpresent, Bool.true_or]
    · rw [beq_false_of_ne heq, Bool.or_false]
  · exact ⟨fun i _ => (Bool.or_false _).symm, fun v _ => (Bool.or_false _).symm⟩
  · obtain ⟨htable, hinv, hkernel, hempty⟩ := h.newTable hslot hpresent halloc hne hmem
    have hpresent' := hempty.isPresent_slot htable
    refine ⟨fun i hi => ?_, fun v hv => ?_⟩
    · rw [(hinv.sameDirectory_setPage hvirt hpresent' phys flags).2 i hi,
        hempty.isPresent_entry htable hi, Bool.true_and]
    · rw [hinv.userMapped_setPage hvirt hpresent' hphys hflags hflags_present hflags_user hv,
        hempty.userMapped_eq htable hpresent hv, supervisor_congr hkernel.directory hslot,
        Bool.true_and]

/-- In a slot of the space's own the kernel's tables are as before. -/
theorem SpaceInv.sameTables_vmmMap (hsup : supervisor m.mem kernel (pdIdx virt) = false) :
    SameTables m.mem (m.vmmMap space virt phys flags).2.mem kernel AllSlots := by
  rcases m.vmmMap_inversion space virt phys flags with
    ⟨hpresent, hcall⟩ | ⟨-, pmm, -, hcall⟩ | ⟨hpresent, table, pmm, mem, halloc, hne, hmem, hcall⟩
  all_goals rw [hcall]
  · exact h.sameTables_setPage hvirt hpresent hsup
  · exact .refl
  · obtain ⟨htable, hinv, hk, hempty⟩ := h.newTable (pdIdx_lt hvirt) hpresent halloc hne hmem
    exact hk.trans (hinv.sameTables_setPage hvirt (hempty.isPresent_slot htable)
      ((supervisor_congr hk.directory (pdIdx_lt hvirt)).trans hsup))

/-- In a slot of the space's own: the kernel's tables are as before and the space is as
    planned. -/
theorem SpaceInv.vmmMap_own (hphys : InUse m.pmm phys)
    (hfree : ¬ Structural m.mem kernel space AllSlots phys) (hflags : flags < PAGE_SIZE)
    (hsup : supervisor m.mem kernel (pdIdx virt) = false)
    (hflags_present : isPresent flags = true) (hflags_user : isUser flags = true) {p : Plan}
    (hplan : Follows m space p) :
    SpaceInv (m.vmmMap space virt phys flags).2.mem (m.vmmMap space virt phys flags).2.pmm kernel
        space AllSlots ∧
      SameTables m.mem (m.vmmMap space virt phys flags).2.mem kernel AllSlots ∧
      m.pmm.Keeps (m.vmmMap space virt phys flags).2.pmm ∧
      Follows (m.vmmMap space virt phys flags).2 space (p.mapPage virt) := by
  have heffect := h.mapEffect hvirt hphys hfree hflags
  refine ⟨heffect.inv, h.sameTables_vmmMap hvirt hsup, heffect.keeps, ?_⟩
  rw [Plan.mapPage_eq hplan.pmm (hplan.tables _ (pdIdx_lt hvirt)) phys flags]
  obtain ⟨htables, hpages⟩ := h.vmmMap_view hvirt hphys.toIsPage hflags hflags_present hflags_user
    (m.vmmMap space virt phys flags).eta.symm
  refine ⟨rfl, fun i hi => ?_, fun v hv => ?_⟩
  · rw [htables i hi, ← hplan.tables i hi]
  · rw [hpages v hv, ← hplan.pages v hv, hsup, Bool.not_false, Bool.true_and]

omit h hvirt

/-- One request where the slot has no table. -/
theorem vmmMap_pmm (m : Machine) (space virt phys flags : Nat) :
    (m.vmmMap space virt phys flags).2.pmm =
      if isPresent (entryAt m.mem space (pdIdx virt)) then m.pmm else m.pmm.pmmAllocPage.2 := by
  rw [vmmMap]
  split
  · rfl
  · rcases m.pmm.pmmAllocPage with ⟨table, pmm⟩
    dsimp only
    split <;> rfl

/-- The free pages after the call, and when it succeeds. -/
theorem vmmMap_pages (hzero : m.pmm.testBit 0 = true) (space virt phys flags : Nat) :
    (m.vmmMap space virt phys flags).2.pmm.freePages =
        (if isPresent (entryAt m.mem space (pdIdx virt)) then m.pmm.freePages
          else m.pmm.freePages.tail) ∧
      ((m.vmmMap space virt phys flags).1 = true ↔
        isPresent (entryAt m.mem space (pdIdx virt)) = true ∨ m.pmm.freePages ≠ []) := by
  constructor
  · rw [vmmMap_pmm]
    split
    · rfl
    · exact m.pmm.pmmAllocPage_freePages.2
  · rw [vmmMap]
    cases isPresent (entryAt m.mem space (pdIdx virt)) with
    | true => exact ⟨fun _ => .inl rfl, fun _ => rfl⟩
    | false =>
        have hempty := Pmm.pmmAllocPage_eq_zero_iff hzero
        rcases halloc : m.pmm.pmmAllocPage with ⟨table, pmm⟩
        rw [halloc] at hempty
        rw [if_neg Bool.false_ne_true]
        dsimp only at hempty ⊢
        by_cases hfail : table = 0
        · rw [if_pos hfail]
          exact ⟨fun hok => absurd hok Bool.false_ne_true,
            fun hor => absurd (hempty.mp hfail) (hor.resolve_left Bool.false_ne_true)⟩
        · rw [if_neg hfail]
          exact ⟨fun _ => .inr fun hnil => hfail (hempty.mpr hnil), fun _ => rfl⟩

end vmmMap

/-- Memories that agree on the directories and the tables. -/
theorem SpaceInv.sameTables_of_bytes {m m' : Memory} {pmm : Pmm} {kernel space : Nat}
    (h : SpaceInv m pmm kernel space AllSlots)
    (hmem : ∀ a, Structural m kernel space AllSlots a →
      ∀ x, x / PAGE_SIZE = a / PAGE_SIZE → m' x = m x) :
    SameTables m m' kernel AllSlots ∧ SameTables m m' space AllSlots := by
  have hentry : ∀ a, Structural m kernel space AllSlots a → ∀ i < ENTRIES,
      entryAt m' a i = entryAt m a i :=
    fun a ha i hi => entryAt_congr (h.inUse a ha).toIsPage hi (hmem a ha)
  constructor
  · exact ⟨hentry _ (.inl rfl), fun i hi hpresent =>
      hentry _ (.inr (.inr (.inl ⟨i, hi, hpresent, rfl⟩)))⟩
  · exact ⟨hentry _ (.inr (.inl rfl)), fun i hi hpresent =>
      hentry _ (.inr (.inr (.inr ⟨i, hi, hpresent, rfl⟩)))⟩

/-- Writes to pages that are not in use. -/
theorem SpaceInv.untouched {m m' : Memory} {pmm pmm' : Pmm} {kernel space : Nat}
    (h : SpaceInv m pmm kernel space AllSlots) (hmem : Untouched pmm m m') (hkeeps : pmm.Keeps pmm') :
    SpaceInv m' pmm' kernel space AllSlots ∧ SameTables m m' kernel AllSlots ∧
      SameTables m m' space AllSlots := by
  obtain ⟨hkernel, hspace⟩ := h.sameTables_of_bytes fun a ha x hx =>
    hmem x (by rw [hx]; exact (h.inUse a ha).used)
  exact ⟨h.congr hkernel hspace hkeeps, hkernel, hspace⟩

end NemoOS
