import NemoOS.ProcessPlan

/-!
# The pages of a process over its life

A process is created, a file is loaded into its space, and the process is destroyed.
`process_destroy` gives back the directory and the user tables of the space and the kernel
stack. Nothing gives back the pages that the tables point to: the user stack and the pages
of the segments.

A page that is in use and is neither a directory nor a table stays so as long as the load
stays in its space (`LoadRounds.lost`), and is still in use at the end
(`processDestroy_keeps`). Without such pages the process gives back what it has taken.
-/

namespace NemoOS

open Words Bytes Machine

/-! ## Pages that a load does not turn into tables -/

section lost

variable {m : Machine} {space f : Nat} {l : Load} {p : Plan}

/-- A page in use that is no table stays one while a load stays. -/
theorem LoadRounds.lost {as : List LoadAction} (h : LoadRounds m space l p as)
    (hinUse : InUse l.machine.pmm f)
    (hnot : ¬ Structural l.machine.mem m.kernelSpace space AllSlots f) :
    InUse (l.perform space space as).2.machine.pmm f ∧
      ¬ Structural (l.perform space space as).2.machine.mem m.kernelSpace space AllSlots f := by
  induction h with
  | nil => exact ⟨hinUse, hnot⟩
  | @store l p virt byte as hload hvirt huser _ ih =>
      obtain ⟨hk, hs, hpmm⟩ := hload.inv.storeByte hvirt byte huser
      rw [Load.perform_cons]
      apply ih
      · change InUse (l.machine.storeByte space virt byte).pmm f
        rw [hpmm]
        exact hinUse
      · exact fun hstructural => hnot (structural_congr hk.directory hs.directory hstructural)
  | @failed l p page flags as pmm hload halloc =>
      obtain ⟨hkeeps, -⟩ := pmmAllocPage_page halloc
      rw [Load.perform_cons, Load.act_map_none space space page flags halloc,
        if_neg Bool.false_ne_true]
      exact ⟨hinUse.keeps hkeeps, hnot⟩
  | @map l p page flags phys as pmm hload hwf halloc hne _ ih =>
      obtain ⟨hkeeps, -⟩ := pmmAllocPage_page halloc
      obtain ⟨hpage, hflags, -, -⟩ := hwf
      obtain ⟨hinv, -, hphys, hfree, -⟩ := fresh_page hload.inv hload.keeps halloc hne
      have heffect := (SpaceInv.mapEffect (m := { l.machine with pmm := pmm }) hinv hpage hphys
        hfree hflags).of_alloc halloc
      rw [Load.perform_cons, Load.act_map_some space space page flags halloc hne, if_pos rfl]
      exact ih (hinUse.keeps heffect.keeps) (heffect.not_structural hinUse hnot)

/-- The rounds ask for a page and there is one. -/
def TakesPage (as : List LoadAction) (pmm : Pmm) : Prop :=
  (∃ page flags, LoadAction.map page flags ∈ as) ∧ pmm.freePages ≠ []

/-- The first page that a load takes is no table. -/
theorem LoadRounds.takes {as : List LoadAction} (h : LoadRounds m space l p as)
    (hzero : l.machine.pmm.testBit 0 = true) (htakes : TakesPage as l.machine.pmm) :
    ∃ f, l.machine.pmm.testBit f = false ∧
      InUse (l.perform space space as).2.machine.pmm (f * PAGE_SIZE) ∧
      ¬ Structural (l.perform space space as).2.machine.mem m.kernelSpace space AllSlots
        (f * PAGE_SIZE) := by
  obtain ⟨⟨page₀, flags₀, hmem⟩, hfree⟩ := htakes
  induction h with
  | nil => exact absurd hmem List.not_mem_nil
  | @store l p virt byte as hload hvirt huser _ ih =>
      obtain ⟨-, -, hpmm⟩ := hload.inv.storeByte hvirt byte huser
      have hpmm' : (l.store space virt byte).machine.pmm = l.machine.pmm := hpmm
      rw [hpmm'] at ih
      rw [Load.perform_cons]
      exact ih hzero hfree ((List.mem_cons.mp hmem).resolve_left nofun)
  | failed _ halloc =>
      exact absurd ((Pmm.pmmAllocPage_eq_zero_iff hzero).mp (by rw [halloc])) hfree
  | @map l p page flags phys as pmm hload hwf halloc hne hrest _ =>
      obtain ⟨f, free, hlist⟩ := List.exists_cons_of_ne_nil hfree
      obtain ⟨pmm', halloc', -, -, hclear, -, -, -⟩ := Pmm.pmmAllocPage_of_cons hzero hlist
      obtain ⟨rfl, rfl⟩ : phys = f * PAGE_SIZE ∧ pmm = pmm' :=
        Prod.mk.inj (halloc.symm.trans halloc')
      obtain ⟨hpage, hflags, -, -⟩ := hwf
      obtain ⟨hinv, -, hphys, hnot, -⟩ := fresh_page hload.inv hload.keeps halloc hne
      have heffect := SpaceInv.mapEffect (m := { l.machine with pmm := pmm }) hinv hpage hphys
        hnot hflags
      rw [Load.perform_cons, Load.act_map_some space space page flags halloc hne, if_pos rfl]
      exact ⟨f, hclear, LoadRounds.lost hrest (hphys.keeps heffect.keeps)
        (heffect.not_structural hphys hnot)⟩

/-- A load that takes no page stores to user pages only. -/
theorem LoadRounds.stores {as : List LoadAction} (h : LoadRounds m space l p as)
    (hzero : l.machine.pmm.testBit 0 = true) (hnone : ¬ TakesPage as l.machine.pmm) :
    (l.perform space space as).2.machine.pmm = l.machine.pmm ∧
      SameTables l.machine.mem (l.perform space space as).2.machine.mem space AllSlots := by
  induction h with
  | nil => exact ⟨rfl, .refl⟩
  | @store l p virt byte as hload hvirt huser _ ih =>
      obtain ⟨-, hs, hpmm⟩ := hload.inv.storeByte hvirt byte huser
      have hpmm' : (l.store space virt byte).machine.pmm = l.machine.pmm := hpmm
      rw [hpmm'] at ih
      have hnone' : ¬ TakesPage as l.machine.pmm := by
        rintro ⟨⟨page, flags, hmem⟩, hfree⟩
        exact hnone ⟨⟨page, flags, List.mem_cons_of_mem _ hmem⟩, hfree⟩
      obtain ⟨hpmm_rest, hsame⟩ := ih hzero hnone'
      rw [Load.perform_cons]
      exact ⟨hpmm_rest, hs.trans hsame⟩
  | @failed l p page flags as pmm _ halloc =>
      have hfail := Pmm.pmmAllocPage_eq_of_zero hzero (by rw [halloc])
      rw [Load.perform_cons, Load.act_map_none space space page flags hfail,
        if_neg Bool.false_ne_true]
      exact ⟨rfl, .refl⟩
  | @map l p page flags phys as pmm _ _ halloc hne _ _ =>
      have hfree : l.machine.pmm.freePages ≠ [] := by
        refine mt (Pmm.pmmAllocPage_eq_zero_iff hzero).mpr ?_
        rw [halloc]
        exact hne
      exact absurd ⟨⟨page, flags, List.mem_cons_self⟩, hfree⟩ hnone

end lost

theorem Load.perform_kernelSpace (space active : Nat) (l : Load) (as : List LoadAction) :
    (l.perform space active as).2.machine.kernelSpace = l.machine.kernelSpace := by
  have hact : ∀ (l : Load) (a : LoadAction),
      (l.act space active a).2.machine.kernelSpace = l.machine.kernelSpace := by
    intro l a
    cases a with
    | map page flags =>
        rw [Load.act, Machine.mapNew]
        dsimp only
        split
        · rfl
        · exact vmmMap_kernelSpace _ _ _ _ _
    | store virt byte =>
        rw [Load.act, Load.store, Machine.storeByte]
        dsimp only
        split <;> rfl
  induction as generalizing l with
  | nil => rfl
  | cons a as ih =>
      rw [Load.perform_cons]
      split
      · rw [ih, hact]
      · exact hact l a

/-! ## Creation and destruction -/

namespace KernelState

/-- `elf_load_into` in the space of the process, which is active. A file that cannot be
    read, `none`, is as good as no load. -/
def elfLoadInto (k : KernelState) (p : Nat) (file : Option Memory) (info : ElfInfo) : KernelState :=
  let space := (k.sys.procs p).addressSpace
  { k with machine := (NemoOS.elfLoadInto file space space k.machine info).2.machine }

variable {k k₁ : KernelState} {p userEntry userEsp n : Nat}

/-- What `process_destroy` gives back for such a process. -/
theorem processDestroy_pmm {pid space a : Nat} (hp : p ≠ 0)
    (hproc : k.sys.procs p =
      ProcessSystem.userProcess pid space (a * PAGE_SIZE) userEntry userEsp)
    (hspace : space ≠ k.machine.kernelSpace) (ha : a ≠ 0) (hlt : a + 1 < 2 ^ 20) :
    (k.processDestroy p).machine.pmm =
      ((k.machine.vmmDestroySpace space).pmm.pmmFreePage (a * PAGE_SIZE)).pmmFreePage
        ((a + 1) * PAGE_SIZE) := by
  have hbottom : a * PAGE_SIZE ≠ 0 := Nat.mul_ne_zero ha (by decide)
  have hnext : u32 (a * PAGE_SIZE + 4096) = (a + 1) * PAGE_SIZE := by
    rw [PAGE_SIZE, u32]
    omega
  have hreleases : ProcessSystem.releases k.machine.kernelSpace p (k.sys.procs p) =
      [.vmmDestroySpace space, .pmmFreePage (a * PAGE_SIZE), .pmmFreePage ((a + 1) * PAGE_SIZE),
        .kfree p] := by
    rw [hproc, ProcessSystem.releases, ProcessSystem.userProcess]
    dsimp only
    rw [if_pos ⟨rfl, hspace⟩, if_pos hbottom, hnext]
    rfl
  rw [processDestroy, ProcessSystem.processDestroy, if_neg hp, hreleases]
  rfl

/-- A page in use that does not belong to the process stays in use. -/
theorem processDestroy_keeps {pid space a f : Nat} (hp : p ≠ 0)
    (hproc : k.sys.procs p =
      ProcessSystem.userProcess pid space (a * PAGE_SIZE) userEntry userEsp)
    (hinv : SpaceInv k.machine.mem k.machine.pmm k.machine.kernelSpace space AllSlots) (ha : a ≠ 0)
    (hlt : a + 1 < 2 ^ 20) (hf : InUse k.machine.pmm (f * PAGE_SIZE))
    (hnot : ¬ Structural k.machine.mem k.machine.kernelSpace space AllSlots (f * PAGE_SIZE))
    (hfa : f ≠ a) (hfb : f ≠ a + 1) : (k.processDestroy p).machine.pmm.testBit f = true := by
  have hindex : ∀ i, i * PAGE_SIZE / PAGE_SIZE = i := fun i => Nat.mul_div_cancel i (by decide)
  have hused := hf.used
  rw [hindex] at hused
  have hkept := vmmDestroySpace_keeps hinv.isPage_space hused fun howns => hnot howns.structural
  rw [processDestroy_pmm hp hproc hinv.space_ne ha hlt, Pmm.testBit_pmmFreePage,
    Pmm.testBit_pmmFreePage, hindex, hindex, hkept]
  simp [hfa.symm, hfb.symm]

/-- The pages in use after the process is destroyed. -/
theorem testBit_processDestroy {pid space a : Nat} (hp : p ≠ 0)
    (hproc : k.sys.procs p =
      ProcessSystem.userProcess pid space (a * PAGE_SIZE) userEntry userEsp)
    (hinv : SpaceInv k.machine.mem k.machine.pmm k.machine.kernelSpace space AllSlots)
    (hspace : space ≠ 0) (ha : a ≠ 0) (hlt : a + 1 < k.machine.pmm.totalPages)
    (howns : ∀ x, Owns k.machine.mem space x → x / PAGE_SIZE < k.machine.pmm.totalPages) (i : Nat) :
    (k.processDestroy p).machine.pmm.testBit i = true ↔
      (k.machine.pmm.testBit i = true ∧ ¬ Owns k.machine.mem space (i * PAGE_SIZE)) ∧
        i ≠ a ∧ i ≠ a + 1 := by
  have hindex : ∀ i, i * PAGE_SIZE / PAGE_SIZE = i := fun i => Nat.mul_div_cancel i (by decide)
  have htotal : (k.machine.vmmDestroySpace space).pmm.totalPages = k.machine.pmm.totalPages := by
    rw [vmmDestroySpace, if_neg hspace, Pmm.totalPages_pmmFreePage, freeUserTables_eq,
      Pmm.totalPages_foldl_pmmFreePage]
  have hbound : a + 1 < 2 ^ 20 := Nat.lt_of_lt_of_le hlt k.machine.pmm.total_le
  rw [processDestroy_pmm hp hproc hinv.space_ne ha hbound, Pmm.testBit_pmmFreePage,
    Pmm.testBit_pmmFreePage, Pmm.totalPages_pmmFreePage, hindex, hindex, htotal]
  simp only [Bool.and_eq_true, Bool.not_eq_true', decide_eq_false_iff_not,
    testBit_vmmDestroySpace hspace hinv.isPage_space howns, and_assoc]
  apply and_congr_right
  intro _
  apply and_congr_right
  intro _
  constructor
  · rintro ⟨hfirst, hsecond⟩
    exact ⟨fun heq => hfirst ⟨heq.symm, by omega⟩, fun heq => hsecond ⟨heq.symm, by omega⟩⟩
  · rintro ⟨hfirst, hsecond⟩
    exact ⟨fun heq => hfirst heq.1.symm, fun heq => hsecond heq.1.symm⟩

/-- The page of the user stack. -/
theorem Created.userStack {space a : Nat} {m₁ m₂ : Machine}
    (hc : Created k k₁ p userEntry userEsp space a m₁ m₂) (h : k.Ready) (hcode : k.userCodePhys ≠ 0) :
    ∃ f, k.machine.pmm.testBit f = false ∧ InUse k₁.machine.pmm (f * PAGE_SIZE) ∧
      ¬ Structural k₁.machine.mem k₁.machine.kernelSpace space AllSlots (f * PAGE_SIZE) ∧
      f ≠ a ∧ f ≠ a + 1 := by
  obtain ⟨-, -, -, hkeeps₁⟩ := h.kernelSpace.vmmCreateSpace hc.create hc.space_ne
  obtain ⟨hinv, hkernel, -, -⟩ := h.install hc.create hc.space_ne hc.install
  obtain ⟨f, hstack⟩ := hc.stackMapped h hcode
  obtain ⟨-, hsame_kernel, hsame⟩ := hinv.untouched hc.stack.untouched hc.stack.keeps
  have hused := hstack.inUse.used
  rw [Nat.mul_div_cancel f (by decide)] at hused
  refine ⟨f, hkeeps₁.clear hstack.clear, hstack.inUse.keeps hc.stack.keeps, ?_, ?_, ?_⟩
  · rw [hc.stack.kernelSpace, hkernel]
    exact fun hstructural =>
      hstack.not_structural (structural_congr hsame_kernel.directory hsame.directory hstructural)
  · rintro rfl
    rw [hc.stack.clear.1] at hused
    exact Bool.false_ne_true hused
  · rintro rfl
    rw [hc.stack.clear.2] at hused
    exact Bool.false_ne_true hused

/-! ## The load -/

section loaded

variable {space : Nat} (haddress : (k.sys.procs p).addressSpace = space)

include haddress

theorem elfLoadInto_machine (file : Option Memory) (info : ElfInfo) :
    (k.elfLoadInto p file info).machine =
      (Load.perform space space ⟨k.machine, info, []⟩ (loadActions file)).2.machine := by
  rw [elfLoadInto, haddress]
  exact (elfLoadInto_eq_perform file space space k.machine info).1

theorem elfLoadInto_kernelSpace (file : Option Memory) (info : ElfInfo) :
    (k.elfLoadInto p file info).machine.kernelSpace = k.machine.kernelSpace := by
  rw [elfLoadInto_machine haddress, Load.perform_kernelSpace]

end loaded

/-- The space after a load that stays. -/
theorem Created.loaded_inv {space a : Nat} {m₁ m₂ : Machine}
    (hc : Created k k₁ p userEntry userEsp space a m₁ m₂) (h : k.Ready) {file : Option Memory}
    (hstays : k.LoadStays file) (info : ElfInfo) :
    SpaceInv (k₁.elfLoadInto p file info).machine.mem (k₁.elfLoadInto p file info).machine.pmm
      (k₁.elfLoadInto p file info).machine.kernelSpace space AllSlots := by
  obtain ⟨plan, hloading⟩ := ((hc.loading h info).perform (loadActions_wellFormed file)).1
    ((hc.stays_iff h).mp hstays)
  rw [elfLoadInto_kernelSpace hc.address, elfLoadInto_machine hc.address]
  exact hloading.inv

/-! ## Conservation -/

/-- The same pages are in use before the process is created and after it is destroyed. -/
def Conserved (k k₁ : KernelState) (p : Nat) (file : Option Memory) (info : ElfInfo) : Prop :=
  ∀ page, ((k₁.elfLoadInto p file info).processDestroy p).machine.pmm.testBit page =
    k.machine.pmm.testBit page

/-- There is no code for user mode, so that the process gets no stack, and the load stays
    in the space and takes no page. -/
def TakesNothing (k : KernelState) (file : Option Memory) : Prop :=
  k.userCodePhys = 0 ∧ k.LoadStays file ∧ ¬ TakesPage (loadActions file) k.createdPlan.pmm

section conservation

variable (h : k.Ready) (hp : p ≠ 0)
  (hcall : k.processCreate p userEntry userEsp n = some (p, k₁))

include h hp hcall

theorem TakesNothing.conserved {file : Option Memory} (hnothing : k.TakesNothing file)
    (info : ElfInfo) : k.Conserved k₁ p file info := by
  obtain ⟨hcode, hstays, hnone⟩ := hnothing
  obtain ⟨space, a, m₁, m₂, hc⟩ := h.created hp hcall
  rw [(hc.follows h).pmm] at hnone
  obtain rfl : m₁ = m₂ := by
    rw [← hc.install, userInstallIntoSpace, if_pos (.inr hcode)]
  obtain ⟨-, -, hmade⟩ := vmmCreateSpace_cases h.kernelSpace.directory_inUse hc.create
  obtain ⟨hdir, hclear, hlt, hfill⟩ := hmade hc.space_ne
  obtain ⟨hinv₁, -, -, hkeeps₁⟩ := h.kernelSpace.vmmCreateSpace hc.create hc.space_ne
  have hstack := hc.stack
  -- the load leaves the page allocator and the directory alone
  have hinv₂ := hc.loaded_inv h hstays info
  have hrounds := (hc.loading h info).rounds (loadActions_wellFormed file)
    ((hc.stays_iff h).mp hstays)
  have hload := hrounds.stores (hc.zero_used h) hnone
  rw [← elfLoadInto_machine hc.address file info] at hload
  have hproc₂ : (k₁.elfLoadInto p file info).sys.procs p = _ := hc.process
  rw [Conserved]
  generalize k₁.elfLoadInto p file info = k₂ at hinv₂ hload hproc₂ ⊢
  obtain ⟨hpmm, hsame_load⟩ := hload
  obtain ⟨-, -, hsame_stack⟩ := hinv₁.untouched hstack.untouched hstack.keeps
  have hsame : SameDirectory m₁.mem k₂.machine.mem space AllSlots :=
    (hsame_stack.trans hsame_load).directory
  have htotal : k₂.machine.pmm.totalPages = k.machine.pmm.totalPages := by
    rw [hpmm, hstack.total, hfill.total]
  have howned := fun x (hx : Owns k₂.machine.mem space x) =>
    hfill.owns hdir hclear hlt (hsame.owns_iff.mp hx)
  intro page
  rw [Bool.eq_iff_iff, testBit_processDestroy hp hproc₂ hinv₂ hc.space_ne hstack.ne_zero
    (by rw [htotal, ← hfill.total]; exact hstack.lt_total)
    (fun x hx => by rw [htotal]; exact (howned x hx).2.1), hpmm, hstack.bits, hsame.owns_iff]
  simp only [Bool.or_eq_true, decide_eq_true_eq, hfill.testBit_iff hdir]
  constructor
  · rintro ⟨⟨((hbit | howns) | heq) | heq, hnot⟩, hfirst, hsecond⟩
    · exact hbit
    · exact absurd howns hnot
    · exact absurd heq.symm hfirst
    · exact absurd heq.symm hsecond
  · intro hbit
    have hbit₁ := hkeeps₁ page hbit
    refine ⟨⟨.inl (.inl (.inl hbit)), fun howns => ?_⟩, ?_, ?_⟩
    · have hfree := (hfill.owns hdir hclear hlt howns).1
      rw [Nat.mul_div_cancel page (by decide), hbit] at hfree
      exact Bool.false_ne_true hfree.symm
    · rintro rfl
      rw [hstack.clear.1] at hbit₁
      exact Bool.false_ne_true hbit₁
    · rintro rfl
      rw [hstack.clear.2] at hbit₁
      exact Bool.false_ne_true hbit₁

theorem Conserved.takesNothing {file : Option Memory} {info : ElfInfo}
    (hconserved : k.Conserved k₁ p file info) (hstays : k.LoadStays file) : k.TakesNothing file := by
  obtain ⟨space, a, m₁, m₂, hc⟩ := h.created hp hcall
  obtain ⟨-, -, -, hkeeps⟩ := h.install hc.create hc.space_ne hc.install
  have hstack := hc.stack
  have hinv₂ := hc.loaded_inv h hstays info
  have hkernel := elfLoadInto_kernelSpace hc.address file info
  have hproc₂ : (k₁.elfLoadInto p file info).sys.procs p = _ := hc.process
  have hlt : a + 1 < 2 ^ 20 := Nat.lt_of_lt_of_le hstack.lt_total m₂.pmm.total_le
  -- a page that was free and is no table after the load is lost
  have hlost : ∀ f, k.machine.pmm.testBit f = false → f ≠ a → f ≠ a + 1 →
      ¬ (InUse (k₁.elfLoadInto p file info).machine.pmm (f * PAGE_SIZE) ∧
        ¬ Structural (k₁.elfLoadInto p file info).machine.mem k₁.machine.kernelSpace space AllSlots
          (f * PAGE_SIZE)) := by
    rintro f hclear hfa hfb ⟨hinUse, hnot⟩
    rw [← hkernel] at hnot
    have hkept := processDestroy_keeps hp hproc₂ hinv₂ hstack.ne_zero hlt hinUse hnot hfa hfb
    rw [hconserved f, hclear] at hkept
    exact Bool.false_ne_true hkept
  have hwf := loadActions_wellFormed file
  have hstays' := (hc.stays_iff h).mp hstays
  refine ⟨?_, hstays, fun htakes => ?_⟩
  · by_contra hcode
    obtain ⟨f, hclear, hinUse, hnot, hfa, hfb⟩ := hc.userStack h hcode
    have hload := ((hc.loading h info).rounds hwf hstays').lost hinUse hnot
    rw [← elfLoadInto_machine hc.address] at hload
    exact hlost f hclear hfa hfb hload
  · rw [(hc.follows h).pmm] at htakes
    obtain ⟨f, hclear, hload⟩ :=
      ((hc.loading h info).rounds hwf hstays').takes (hc.zero_used h) htakes
    rw [← elfLoadInto_machine hc.address] at hload
    dsimp only at hclear
    rw [hstack.bits, Bool.or_eq_false_iff, Bool.or_eq_false_iff, decide_eq_false_iff_not,
      decide_eq_false_iff_not] at hclear
    obtain ⟨⟨hclear, hfa⟩, hfb⟩ := hclear
    exact hlost f (hkeeps.clear hclear) (Ne.symm hfa) (Ne.symm hfb) hload

/-- **Conservation of pages.** A process without a user stack whose load stays and takes no
    page gives back what it took; among loads that stay, no other process does. -/
theorem processDestroy_conserves (file : Option Memory) (info : ElfInfo) :
    (k.TakesNothing file → k.Conserved k₁ p file info) ∧
      (k.LoadStays file → k.Conserved k₁ p file info → k.TakesNothing file) :=
  ⟨fun hnothing => hnothing.conserved h hp hcall info,
    fun hstays hconserved => hconserved.takesNothing h hp hcall hstays⟩

end conservation

/-- The small kernel without code for user mode. -/
def codelessKernel : KernelState := { smallKernel codePages with userCodePhys := 0 }

theorem codelessKernel_ready : codelessKernel.Ready := by
  have hready := codePages_ready
  exact ⟨hready.kernelSpace, hready.zero_used, fun hne => absurd rfl hne⟩

theorem codelessKernel_creates (userEntry userEsp : Nat) :
    ∃ k₁, codelessKernel.processCreate 8 userEntry userEsp 1 = some (8, k₁) := by
  have hmachine : codelessKernel.machine = (smallKernel codePages).machine := rfl
  have hcode : codelessKernel.userCodePhys = 0 := rfl
  apply codelessKernel_ready.creates (by decide)
  · rw [hmachine, smallKernel_spacePages, smallKernel_freePages]
    decide
  · decide
  · rw [if_pos hcode, hmachine, smallKernel_spacePages, smallKernel_freePages]
    rfl

theorem processDestroy_conserves_codeless :
    ∃ k₁, codelessKernel.processCreate 8 0 0 1 = some (8, k₁) ∧
      codelessKernel.Conserved k₁ 8 none ⟨0, 0, 0⟩ := by
  obtain ⟨k₁, hcall⟩ := codelessKernel_creates 0 0
  refine ⟨k₁, hcall, ?_⟩
  apply (processDestroy_conserves codelessKernel_ready (by decide) hcall none _).1
  exact ⟨rfl, rfl, fun htakes => htakes.1.elim fun _ ⟨_, hmem⟩ => List.not_mem_nil hmem⟩

/-- The user stack of a process into which nothing is loaded is never given back. -/
theorem processDestroy_loses_stack :
    ¬ ∀ (k k₁ : KernelState) (p userEntry userEsp n : Nat) (file : Option Memory) (info : ElfInfo),
      k.Ready → p ≠ 0 → k.processCreate p userEntry userEsp n = some (p, k₁) →
        k.Conserved k₁ p file info := by
  intro hall
  have hready := codePages_ready
  obtain ⟨k₁, hcall⟩ := smallKernel_creates USER_CODE_ADDR 0x40002000
  have hconserved := hall _ k₁ 8 _ _ 1 none ⟨0, 0, 0⟩ hready (by decide) hcall
  have hnothing := hconserved.takesNothing hready (by decide) hcall rfl
  exact absurd hnothing.1 (by decide)

end KernelState

end NemoOS
