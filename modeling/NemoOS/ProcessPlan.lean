import NemoOS.ProcessCreation
import NemoOS.ElfConfined

/-!
# The space of a new process before the load

What the space of a new process looks like can be told before `process_create` is called:
the pages that user mode can use are those of the kernel's space and the pages for code and
stack, and the pages that are taken are the lowest free ones. `createdPlan` is this plan, and
`Created.follows` says that every process that `process_create` returns follows it. Conditions
on the load of a file are stated on the plan.
-/

namespace NemoOS

open Words Bytes Machine

/-! ## The plan -/

namespace KernelState

/-- The space of the process that `process_create` would return. The pages that are taken
    are those of the space, the table and the stack for user mode, and the kernel stack. -/
def createdPlan (k : KernelState) : Plan where
  pmm := k.machine.pmm.takePages
    ((if k.userCodePhys = 0 then k.machine.spacePages else k.userPages) + 2)
  tables i := isPresent (entryAt k.machine.mem k.machine.kernelSpace i) ||
    (k.userCodePhys != 0 && i == pdIdx USER_CODE_ADDR)
  pages page := userMapped k.machine.mem k.machine.kernelSpace (page * PAGE_SIZE) ||
    (k.userCodePhys != 0 &&
      (!supervisor k.machine.mem k.machine.kernelSpace (pdIdx USER_CODE_ADDR) &&
        (page == USER_CODE_ADDR / PAGE_SIZE || page == USER_STACK_ADDR / PAGE_SIZE)))

/-- The load of the file into the new process stays in its space. -/
def LoadStays (k : KernelState) (file : Option Memory) : Prop :=
  k.createdPlan.stays (supervisor k.machine.mem k.machine.kernelSpace) (loadActions file) = true

section created

variable {k : KernelState} {space : Nat} {m₁ m₂ : Machine} (h : k.Ready)
  (hcreate : k.machine.vmmCreateSpace = (space, m₁)) (hspace : space ≠ 0)
  (hinstall : m₁.userInstallIntoSpace k.userCodePhys space = m₂)

include h hcreate hspace

/-- The new space before the pages for code and stack. -/
theorem Ready.space_view :
    m₁.pmm = k.machine.pmm.takePages k.machine.spacePages ∧
      (∀ i < ENTRIES, isPresent (entryAt m₁.mem space i) =
        isPresent (entryAt k.machine.mem k.machine.kernelSpace i)) ∧
      ∀ v < 2 ^ 32, userMapped m₁.mem space v =
        userMapped k.machine.mem k.machine.kernelSpace (v / PAGE_SIZE * PAGE_SIZE) := by
  obtain ⟨-, -, hmade⟩ := vmmCreateSpace_cases h.kernelSpace.directory_inUse hcreate
  obtain ⟨-, -, -, hfill⟩ := hmade hspace
  refine ⟨?_, fun i hi => hfill.isPresent_eq hi, fun v hv => ?_⟩
  · exact (vmmCreateSpace_pages h.kernelSpace.directory_inUse h.zero_used hcreate).2 hspace
  · rw [h.kernelSpace.vmmCreateSpace_mirror hcreate hspace hv]
    exact ((follows_planOf k.machine k.machine.kernelSpace).pages v hv).symm

include hinstall

/-- The space before the kernel stack is taken. -/
theorem Ready.install_view (hfree : m₂.pmm.freePages ≠ []) :
    m₂.pmm = k.machine.pmm.takePages
        (if k.userCodePhys = 0 then k.machine.spacePages else k.userPages) ∧
      (∀ i < ENTRIES, isPresent (entryAt m₂.mem space i) = k.createdPlan.tables i) ∧
      ∀ v < 2 ^ 32, userMapped m₂.mem space v = k.createdPlan.pages (v / PAGE_SIZE) := by
  obtain ⟨hpmm₁, htables₁, hpages₁⟩ := h.space_view hcreate hspace
  by_cases hcode : k.userCodePhys = 0
  · obtain rfl : m₁ = m₂ := by
      rw [← hinstall, userInstallIntoSpace, if_pos (.inr hcode)]
    rw [if_pos hcode]
    refine ⟨hpmm₁, fun i hi => ?_, fun v hv => ?_⟩
    · rw [htables₁ i hi, createdPlan, hcode]
      exact (Bool.or_false _).symm
    · rw [hpages₁ v hv, createdPlan, hcode]
      exact (Bool.or_false _).symm
  · have hcode' : (k.userCodePhys != 0) = true := bne_iff_ne.mpr hcode
    obtain ⟨-, hsame, -, -⟩ := h.kernelSpace.vmmCreateSpace hcreate hspace
    have hinstalled := h.installed hcreate hspace hcode
    rw [hinstall] at hinstalled
    obtain ⟨f, hstack⟩ := hinstalled.exists_stack hfree
    rw [if_neg hcode]
    refine ⟨?_, fun i hi => ?_, fun v hv => ?_⟩
    · rw [hinstalled.pmm, hpmm₁, Pmm.takePages_takePages, h.newTables_eq hcreate hspace, userPages,
        Nat.add_assoc]
    · rw [hstack.tables i hi, htables₁ i hi, createdPlan, hcode']
      dsimp only
      rw [Bool.true_and]
    · rw [hstack.pages v hv, hpages₁ v hv, supervisor_congr hsame.directory (by decide), createdPlan,
        hcode']
      dsimp only
      rw [Bool.true_and]

end created

/-! ## Processes that were created -/

/-- The way to a process that `process_create` returned: the space `space`, with the
    machines after `vmm_create_space` and `user_install_into_space`, and the kernel stack
    in the pages `a` and `a + 1`. -/
structure Created (k k₁ : KernelState) (p userEntry userEsp space a : Nat) (m₁ m₂ : Machine) :
    Prop where
  create : k.machine.vmmCreateSpace = (space, m₁)
  space_ne : space ≠ 0
  install : m₁.userInstallIntoSpace k.userCodePhys space = m₂
  adjacent : ∃ rest, m₂.pmm.freePages = a :: (a + 1) :: rest
  stack : StackTaken m₂ k₁.machine a
  process : k₁.sys.procs p =
    ProcessSystem.userProcess k.sys.nextPid space (a * PAGE_SIZE) userEntry userEsp
  room : k.sys.processTable.length < MAX_PROCESSES

theorem Ready.created {k k₁ : KernelState} {p userEntry userEsp n : Nat} (h : k.Ready) (hp : p ≠ 0)
    (hcall : k.processCreate p userEntry userEsp n = some (p, k₁)) :
    ∃ space a m₁ m₂, Created k k₁ p userEntry userEsp space a m₁ m₂ := by
  rcases hcreate : k.machine.vmmCreateSpace with ⟨space, m₁⟩
  have hspace : space ≠ 0 := by
    intro hzero
    rw [processCreate, if_neg hp, hcreate] at hcall
    dsimp only at hcall
    rw [if_pos hzero, Option.some.injEq] at hcall
    exact hp (Prod.ext_iff.mp hcall).1.symm
  obtain ⟨m₂, hinstall⟩ : ∃ m₂, m₁.userInstallIntoSpace k.userCodePhys space = m₂ := ⟨_, rfl⟩
  obtain ⟨-, -, -, hkeeps⟩ := h.install hcreate hspace hinstall
  rcases processCreate_some hp hcreate hspace hinstall (hkeeps 0 h.zero_used) hcall with
    ⟨hzero, -⟩ | ⟨a, rest, hfree, -, hstack, -, hsys⟩
  · exact absurd hzero hp
  · obtain ⟨hroom, -, -, hproc, -⟩ := ProcessSystem.registerProcess_eq_some hsys
    exact ⟨space, a, m₁, m₂, hcreate, hspace, hinstall, ⟨rest, hfree⟩, hstack, hproc, hroom⟩

namespace Created

variable {k k₁ : KernelState} {p userEntry userEsp space a : Nat} {m₁ m₂ : Machine}
  (hc : Created k k₁ p userEntry userEsp space a m₁ m₂) (h : k.Ready)

include hc

theorem free : m₂.pmm.freePages ≠ [] := by
  obtain ⟨rest, hfree⟩ := hc.adjacent
  rw [hfree]
  exact List.cons_ne_nil _ _

theorem address : (k₁.sys.procs p).addressSpace = space := by
  rw [hc.process]
  rfl

include h

theorem inv : SpaceInv k₁.machine.mem k₁.machine.pmm k₁.machine.kernelSpace space AllSlots := by
  obtain ⟨hinv, hkernel, -, -⟩ := h.install hc.create hc.space_ne hc.install
  rw [hc.stack.kernelSpace, hkernel]
  exact (hinv.untouched hc.stack.untouched hc.stack.keeps).1

/-- The user stack, with a page for the code. -/
theorem stackMapped (hcode : k.userCodePhys ≠ 0) :
    ∃ f, StackMapped m₁ m₂ k.machine.kernelSpace space k.userCodePhys f := by
  have hinstalled := h.installed hc.create hc.space_ne hcode
  rw [hc.install] at hinstalled
  exact hinstalled.exists_stack hc.free

theorem zero_used : k₁.machine.pmm.testBit 0 = true := by
  obtain ⟨-, -, -, hkeeps⟩ := h.install hc.create hc.space_ne hc.install
  exact hc.stack.keeps 0 (hkeeps 0 h.zero_used)

/-- **A new process follows the plan.** -/
theorem follows : Follows k₁.machine space k.createdPlan := by
  obtain ⟨hinv, -, -, -⟩ := h.install hc.create hc.space_ne hc.install
  obtain ⟨-, -, hsame⟩ := hinv.untouched hc.stack.untouched hc.stack.keeps
  obtain ⟨hpmm, htables, hpages⟩ := h.install_view hc.create hc.space_ne hc.install hc.free
  refine ⟨?_, fun i hi => ?_, fun v hv => ?_⟩
  · rw [hc.stack.pmm, hpmm]
    rfl
  · rw [hsame.directory i hi]
    exact (htables i hi).symm
  · rw [userMapped_congr hsame (pdIdx_lt hv)]
    exact (hpages v hv).symm

theorem loading (info : ElfInfo) :
    Loading k₁.machine space ⟨k₁.machine, info, []⟩ k.createdPlan :=
  (hc.inv h).loading (hc.follows h) info

/-- The slots with supervisor tables are those from before. -/
theorem supervisor_eq {i : Nat} (hi : i < ENTRIES) :
    supervisor k₁.machine.mem k₁.machine.kernelSpace i =
      supervisor k.machine.mem k.machine.kernelSpace i := by
  obtain ⟨hinv, hkernel, hdirectory, -⟩ := h.install hc.create hc.space_ne hc.install
  obtain ⟨-, hsame, -⟩ := hinv.untouched hc.stack.untouched hc.stack.keeps
  rw [hc.stack.kernelSpace, hkernel]
  exact (supervisor_congr hsame.directory hi).trans (supervisor_congr hdirectory hi)

theorem stays_iff {file : Option Memory} :
    k.LoadStays file ↔
      k.createdPlan.stays (supervisor k₁.machine.mem k₁.machine.kernelSpace) (loadActions file) =
        true := by
  rw [LoadStays, Plan.stays_congr (fun i hi => hc.supervisor_eq h hi) (loadActions_wellFormed file)]

end Created

end KernelState

end NemoOS
