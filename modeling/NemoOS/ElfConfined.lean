import NemoOS.Elf
import NemoOS.UserView

/-!
# Where a load writes

`elf_load_into` takes the addresses of the segments from the file. `Plan.stays` follows
its rounds on the pages of the space alone, without memory: every page it maps lies in a
slot of the space's own, and every byte it stores lies in a page that user mode can use by
then. `elfLoadInto_confined_iff` says that this is exactly when the load leaves the kernel
space alone and stores only to addresses that the space maps for user mode.

As long as the rounds stay, the machine follows the plan (`Loading`). The first round that
does not stay stores to an address without the user bit, or replaces an entry of a
supervisor table, which no later round can undo (`Broken`).
-/

namespace NemoOS

open Words Bytes Machine

/-- What other kernel code does between the creation of a space and a load: it takes
    pages and writes elsewhere. -/
structure Undisturbed (m m' : Machine) (space : Nat) : Prop where
  kernelSpace : m'.kernelSpace = m.kernelSpace
  pmm : m.pmm.Keeps m'.pmm
  kernel_tables : SameTables m.mem m'.mem m.kernelSpace AllSlots
  space_tables : SameTables m.mem m'.mem space AllSlots

theorem undisturbed_refl (m : Machine) (space : Nat) : Undisturbed m m space :=
  ⟨rfl, fun _ hpage => hpage, .refl, .refl⟩

/-- The load left the kernel space alone and stored only where the space has the user
    bit. -/
structure Confined (m : Machine) (l : Load) : Prop where
  translation : ∀ virt < 2 ^ 32,
    translate l.machine.mem m.kernelSpace virt = translate m.mem m.kernelSpace virt
  stores : l.stray = []

/-- The rounds on the plan: no page in a supervisor slot, no store to a page that is not
    mapped by then, until there is no page left. -/
def Plan.stays (sup : Nat → Bool) (p : Plan) : List LoadAction → Bool
  | [] => true
  | .map page _ :: rest =>
      let (phys, pmm) := p.pmm.pmmAllocPage
      if phys = 0 then true
      else !sup (pdIdx page) && (mapPage { p with pmm := pmm } page).stays sup rest
  | .store virt _ :: rest => p.pages (virt / PAGE_SIZE) && p.stays sup rest

theorem Plan.stays_map {sup : Nat → Bool} {p : Plan} (page flags : Nat) (rest : List LoadAction)
    (hne : p.pmm.pmmAllocPage.1 ≠ 0) :
    p.stays sup (.map page flags :: rest) =
      (!sup (pdIdx page) && (mapPage { p with pmm := p.pmm.pmmAllocPage.2 } page).stays sup rest) :=
  if_neg hne

/-- With a page left for a table, a page can be used once it is mapped. -/
theorem Plan.pages_mapPage {p : Plan} {virt : Nat} (hne : p.pmm.pmmAllocPage.1 ≠ 0) :
    (p.mapPage virt).pages (virt / PAGE_SIZE) = true := by
  have hadd : ∀ q : Plan, (q.addPage virt).pages (virt / PAGE_SIZE) = true := by
    intro q
    simp [Plan.addPage]
  rw [Plan.mapPage]
  split
  · exact hadd p
  · dsimp only
    rw [if_neg hne]
    exact hadd _

def Stays (file : Option Memory) (space : Nat) (m : Machine) : Prop :=
  (planOf m space).stays (supervisor m.mem m.kernelSpace) (loadActions file) = true

/-! ## The rounds of a segment -/

/-- Addresses are below `2 ^ 32` and pages are mapped present and for user mode. -/
def LoadAction.WellFormed : LoadAction → Prop
  | .map page flags =>
      page < 2 ^ 32 ∧ flags < PAGE_SIZE ∧ isPresent flags = true ∧ isUser flags = true
  | .store virt _ => virt < 2 ^ 32

theorem segmentFlags_wellFormed (ph : ElfPhdr) :
    segmentFlags ph < PAGE_SIZE ∧ isPresent (segmentFlags ph) = true ∧
      isUser (segmentFlags ph) = true := by
  rw [segmentFlags]
  split <;> decide

theorem segmentActions_wellFormed (image : Memory) (ph : ElfPhdr) :
    ∀ a ∈ segmentActions image ph, a.WellFormed := by
  intro a ha
  rw [segmentActions, List.mem_append, List.mem_append, List.mem_map, List.mem_map,
    List.mem_map] at ha
  rcases ha with (⟨k, hk, rfl⟩ | ⟨j, -, rfl⟩) | ⟨j, -, rfl⟩
  · refine ⟨?_, segmentFlags_wellFormed ph⟩
    have hend : segmentEnd ph < 2 ^ 32 := by
      have hlt := u32_lt (ph.vaddr + ph.memsz + 0xFFF)
      rw [segmentEnd, PAGE_SIZE]
      omega
    rw [List.mem_range, PAGE_SIZE] at hk
    rw [PAGE_SIZE]
    omega
  · exact u32_lt _
  · exact u32_lt _

theorem loadActions_wellFormed (file : Option Memory) :
    ∀ a ∈ loadActions file, a.WellFormed := by
  intro a ha
  cases file with
  | none => exact absurd ha List.not_mem_nil
  | some image =>
      rw [loadActions] at ha
      split at ha
      · rw [fileActions, List.mem_flatMap] at ha
        obtain ⟨ph, -, hmem⟩ := ha
        exact segmentActions_wellFormed image ph a hmem
      · exact absurd ha List.not_mem_nil

/-- Only the slots of the directory are asked for. -/
theorem Plan.stays_congr {sup sup' : Nat → Bool} (hsup : ∀ i < ENTRIES, sup' i = sup i) {p : Plan}
    {as : List LoadAction} (hwf : ∀ a ∈ as, a.WellFormed) : p.stays sup' as = p.stays sup as := by
  induction as generalizing p with
  | nil => rfl
  | cons a as ih =>
      have hrest : ∀ b ∈ as, b.WellFormed := fun b hb => hwf b (List.mem_cons_of_mem a hb)
      cases a with
      | store virt byte => rw [stays, stays, ih hrest]
      | map page flags =>
          have hpage : page < 2 ^ 32 := (hwf _ List.mem_cons_self).1
          rw [stays, stays]
          dsimp only
          rw [hsup _ (pdIdx_lt hpage), ih hrest]

/-! ## Stores through user mappings -/

/-- A store that hits no table. -/
theorem SpaceInv.storeByte_outside {m : Machine} {kernel space virt : Nat}
    (h : SpaceInv m.mem m.pmm kernel space AllSlots) (byte : UInt8)
    (hnot : ∀ t, translate m.mem space virt = some t →
      ¬ Structural m.mem kernel space AllSlots (t.addr / PAGE_SIZE * PAGE_SIZE)) :
    SameTables m.mem (m.storeByte space virt byte).mem kernel AllSlots ∧
      SameTables m.mem (m.storeByte space virt byte).mem space AllSlots ∧
      (m.storeByte space virt byte).pmm = m.pmm := by
  rw [Machine.storeByte]
  cases ht : translate m.mem space virt with
  | none => exact ⟨.refl, .refl, rfl⟩
  | some t =>
      refine and_assoc.mp ⟨h.sameTables_of_bytes fun a ha x hx => ?_, rfl⟩
      apply Function.update_of_ne
      rintro rfl
      refine hnot t ht ?_
      rw [hx, Nat.div_mul_cancel (Nat.dvd_of_mod_eq_zero (h.inUse a ha).aligned)]
      exact ha

/-- A store to an address that the space maps for user mode touches no table. -/
theorem SpaceInv.storeByte {m : Machine} {kernel space virt : Nat}
    (h : SpaceInv m.mem m.pmm kernel space AllSlots) (hvirt : virt < 2 ^ 32) (byte : UInt8)
    (huser : userMapped m.mem space virt = true) :
    SameTables m.mem (m.storeByte space virt byte).mem kernel AllSlots ∧
      SameTables m.mem (m.storeByte space virt byte).mem space AllSlots ∧
      (m.storeByte space virt byte).pmm = m.pmm :=
  h.storeByte_outside byte fun _ ht => (h.not_structural_of_userMapped hvirt huser ht).2

theorem Follows.congr {m m' : Machine} {space : Nat} {p : Plan} (h : Follows m space p)
    (hs : SameTables m.mem m'.mem space AllSlots) (hpmm : m'.pmm = m.pmm) : Follows m' space p := by
  refine ⟨h.pmm.trans hpmm.symm, fun i hi => ?_, fun v hv => ?_⟩
  · rw [hs.directory i hi]
    exact h.tables i hi
  · rw [userMapped_congr hs (pdIdx_lt hv)]
    exact h.pages v hv

/-! ## A load on its way -/

/-- The load has stayed so far: the kernel's tables are those of `m` and the space is as
    in the plan. -/
structure Loading (m : Machine) (space : Nat) (l : Load) (p : Plan) : Prop where
  inv : SpaceInv l.machine.mem l.machine.pmm m.kernelSpace space AllSlots
  keeps : m.pmm.Keeps l.machine.pmm
  kernel_tables : SameTables m.mem l.machine.mem m.kernelSpace AllSlots
  follows : Follows l.machine space p
  stray : l.stray = []

/-- A supervisor table of the kernel has an entry with the user bit for a page that was
    not in use in `m`. -/
structure Tainted (m : Machine) (space : Nat) (l : Load) : Prop where
  inv : SpaceInv l.machine.mem l.machine.pmm m.kernelSpace space AllSlots
  keeps : m.pmm.Keeps l.machine.pmm
  entry : ∃ i < ENTRIES, supervisor l.machine.mem m.kernelSpace i = true ∧ ∃ j < ENTRIES,
    ∃ e, entryAt l.machine.mem (frame (entryAt l.machine.mem m.kernelSpace i)) j = e ∧
      isPresent e = true ∧ isUser e = true ∧ m.pmm.testBit (frame e / PAGE_SIZE) = false

/-- The load has not stayed. -/
def Broken (m : Machine) (space : Nat) (l : Load) : Prop := l.stray ≠ [] ∨ Tainted m space l

section map

variable {m : Machine} {space page flags : Nat} {l : Load}

/-- A page that the load takes was free, is in use now and is no table. -/
theorem fresh_page {pmm : Pmm} {phys : Nat}
    (h : SpaceInv l.machine.mem l.machine.pmm m.kernelSpace space AllSlots)
    (hkeeps : m.pmm.Keeps l.machine.pmm) (halloc : l.machine.pmm.pmmAllocPage = (phys, pmm))
    (hne : phys ≠ 0) :
    SpaceInv l.machine.mem pmm m.kernelSpace space AllSlots ∧ m.pmm.Keeps pmm ∧ InUse pmm phys ∧
      ¬ Structural l.machine.mem m.kernelSpace space AllSlots phys ∧
      m.pmm.testBit (phys / PAGE_SIZE) = false := by
  obtain ⟨hnext, hpage⟩ := pmmAllocPage_page halloc
  obtain ⟨-, hclear, hinUse⟩ := hpage hne
  refine ⟨h.congr .refl .refl hnext, hkeeps.trans hnext, hinUse, h.not_structural hclear, ?_⟩
  exact hkeeps.clear hclear

/-- Mapping a page in a slot of the space's own. -/
theorem Loading.map_own {p : Plan} {pmm : Pmm} {phys : Nat} (h : Loading m space l p)
    (hwf : (LoadAction.map page flags).WellFormed)
    (halloc : l.machine.pmm.pmmAllocPage = (phys, pmm)) (hne : phys ≠ 0)
    (hsup : supervisor m.mem m.kernelSpace (pdIdx page) = false) :
    Loading m space
      { l with machine := (vmmMap { l.machine with pmm := pmm } space page phys flags).2 }
      (Plan.mapPage { p with pmm := pmm } page) := by
  obtain ⟨hpage, hflags, hpresent, huser⟩ := hwf
  obtain ⟨hinv, hkeeps, hinUse, hfree, -⟩ := fresh_page h.inv h.keeps halloc hne
  have hsup' : supervisor l.machine.mem m.kernelSpace (pdIdx page) = false :=
    (supervisor_congr h.kernel_tables.directory (pdIdx_lt hpage)).trans hsup
  have hfollows : Follows { l.machine with pmm := pmm } space { p with pmm := pmm } :=
    ⟨rfl, h.follows.tables, h.follows.pages⟩
  obtain ⟨hinv', hk, hkeeps', hfollows'⟩ :=
    SpaceInv.vmmMap_own (m := { l.machine with pmm := pmm }) hinv hpage hinUse hfree hflags hsup'
      hpresent huser hfollows
  exact ⟨hinv', hkeeps.trans hkeeps', h.kernel_tables.trans hk, hfollows', h.stray⟩

/-- Mapping a page in a supervisor slot. -/
theorem tainted_map_shared {pmm : Pmm} {phys : Nat}
    (h : SpaceInv l.machine.mem l.machine.pmm m.kernelSpace space AllSlots)
    (hkeeps : m.pmm.Keeps l.machine.pmm) (hwf : (LoadAction.map page flags).WellFormed)
    (halloc : l.machine.pmm.pmmAllocPage = (phys, pmm)) (hne : phys ≠ 0)
    (hsup : supervisor l.machine.mem m.kernelSpace (pdIdx page) = true) :
    Tainted m space
      { l with machine := (vmmMap { l.machine with pmm := pmm } space page phys flags).2 } := by
  obtain ⟨hpage, hflags, hpresent, huser⟩ := hwf
  obtain ⟨hinv, hkeeps', hinUse, hfree, hclear⟩ := fresh_page h hkeeps halloc hne
  obtain ⟨hinv', hdir, hkeeps'', hentry⟩ :=
    SpaceInv.vmmMap_shared (m := { l.machine with pmm := pmm }) hinv hpage hinUse hfree hflags hsup
  refine ⟨hinv', hkeeps'.trans hkeeps'', pdIdx page, pdIdx_lt hpage, ?_, ptIdx page, ptIdx_lt page,
    phys + flags, ?_, ?_, ?_, ?_⟩
  · exact (supervisor_congr hdir (pdIdx_lt hpage)).trans hsup
  · dsimp only
    rw [hdir _ (pdIdx_lt hpage), hentry _ _ (frame_entryAt_isPage _ _ _) (ptIdx_lt page),
      if_pos ⟨rfl, rfl⟩]
  · exact (isPresent_add hinUse.toIsPage).trans hpresent
  · exact (isUser_add hinUse.toIsPage).trans huser
  · rw [frame_add hinUse.toIsPage hflags]
    exact hclear

end map

/-! ## Once broken, always broken -/

section broken

variable {m : Machine} {space : Nat} {l l' : Load}

theorem Tainted.congr (h : Tainted m space l)
    (hinv : SpaceInv l'.machine.mem l'.machine.pmm m.kernelSpace space AllSlots)
    (hkeeps : l.machine.pmm.Keeps l'.machine.pmm)
    (hk : SameTables l.machine.mem l'.machine.mem m.kernelSpace AllSlots) : Tainted m space l' := by
  obtain ⟨i, hi, hsup, j, hj, e, hentry, hbits⟩ := h.entry
  refine ⟨hinv, h.keeps.trans hkeeps, i, hi, ?_, j, hj, e, ?_, hbits⟩
  · exact (supervisor_congr hk.directory hi).trans hsup
  · rw [hk.directory i hi, hk.table i hi (supervisor_iff.mp hsup).1 j hj]
    exact hentry

theorem Tainted.act (h : Tainted m space l) {a : LoadAction} (hwf : a.WellFormed) :
    Broken m space (l.act space space a).2 := by
  cases a with
  | store virt byte =>
      rw [Load.act, Load.store]
      cases huser : userMapped l.machine.mem space virt with
      | false =>
          left
          rw [if_neg Bool.false_ne_true]
          exact List.cons_ne_nil _ _
      | true =>
          right
          obtain ⟨hk, hs, hpmm⟩ := h.inv.storeByte hwf byte huser
          have hkeeps : l.machine.pmm.Keeps (l.machine.storeByte space virt byte).pmm := by
            rw [hpmm]
            exact fun _ hpage => hpage
          exact h.congr (h.inv.congr hk hs hkeeps) hkeeps hk
  | map page flags =>
      right
      cases halloc : l.machine.pmm.pmmAllocPage with
      | mk phys pmm =>
        obtain ⟨hkeeps, -⟩ := pmmAllocPage_page halloc
        by_cases hzero : phys = 0
        · subst hzero
          rw [Load.act_map_none space space page flags halloc]
          exact h.congr (h.inv.congr .refl .refl hkeeps) hkeeps .refl
        · rw [Load.act_map_some space space page flags halloc hzero]
          cases hsup : supervisor l.machine.mem m.kernelSpace (pdIdx page) with
          | true => exact tainted_map_shared h.inv h.keeps hwf halloc hzero hsup
          | false =>
              obtain ⟨hpage, hflags, hpresent, huser⟩ := hwf
              obtain ⟨hinv, -, hinUse, hfree, -⟩ := fresh_page h.inv h.keeps halloc hzero
              obtain ⟨hinv', hk, hkeeps', -⟩ :=
                SpaceInv.vmmMap_own (m := { l.machine with pmm := pmm }) hinv hpage hinUse hfree
                  hflags hsup hpresent huser (follows_planOf _ _)
              exact h.congr hinv' (hkeeps.trans hkeeps') hk

theorem Broken.act (h : Broken m space l) {a : LoadAction} (hwf : a.WellFormed) :
    Broken m space (l.act space space a).2 := by
  rcases h with hstray | htainted
  · left
    cases a with
    | map page flags => exact hstray
    | store virt byte =>
        rw [Load.act, Load.store]
        dsimp only
        split
        · exact hstray
        · exact List.cons_ne_nil _ _
  · exact htainted.act hwf

theorem Broken.perform (h : Broken m space l) {as : List LoadAction}
    (hwf : ∀ a ∈ as, a.WellFormed) : Broken m space (l.perform space space as).2 := by
  induction as generalizing l with
  | nil => exact h
  | cons a as ih =>
      have hstep := h.act (hwf a List.mem_cons_self)
      rw [Load.perform_cons]
      split
      · exact ih hstep fun b hb => hwf b (List.mem_cons_of_mem a hb)
      · exact hstep

end broken

/-! ## Following the plan -/

section follow

variable {m : Machine} {space : Nat} {l : Load} {p : Plan}

/-- A store to a page of the plan. -/
theorem Loading.store (h : Loading m space l p) {virt : Nat} (hvirt : virt < 2 ^ 32) (byte : UInt8)
    (huser : userMapped l.machine.mem space virt = true) :
    Loading m space (l.store space virt byte) p := by
  obtain ⟨hk, hs, hpmm⟩ := h.inv.storeByte hvirt byte huser
  have hkeeps : l.machine.pmm.Keeps (l.machine.storeByte space virt byte).pmm := by
    rw [hpmm]
    exact fun _ hpage => hpage
  refine ⟨h.inv.congr hk hs hkeeps, h.keeps.trans hkeeps, h.kernel_tables.trans hk,
    h.follows.congr hs hpmm, ?_⟩
  rw [Load.store, huser, if_pos rfl]
  exact h.stray

/-- The rounds of a load, one by one, with what holds before each of them: stores to addresses
    that are allowed, pages that are mapped, and the request that fails if there is one. -/
inductive Rounds (I : Load → Plan → Prop) (allowed : Machine → Nat → Prop) (space : Nat) :
    Load → Plan → List LoadAction → Prop where
  | nil {l : Load} {p : Plan} : I l p → Rounds I allowed space l p []
  | store {l : Load} {p : Plan} {virt : Nat} {byte : UInt8} {as : List LoadAction} :
      I l p → virt < 2 ^ 32 → allowed l.machine virt →
      Rounds I allowed space (l.store space virt byte) p as →
      Rounds I allowed space l p (.store virt byte :: as)
  | failed {l : Load} {p : Plan} {page flags : Nat} {as : List LoadAction} {pmm : Pmm} :
      I l p → l.machine.pmm.pmmAllocPage = (0, pmm) →
      Rounds I allowed space l p (.map page flags :: as)
  | map {l : Load} {p : Plan} {page flags phys : Nat} {as : List LoadAction} {pmm : Pmm} :
      I l p → (LoadAction.map page flags).WellFormed →
      l.machine.pmm.pmmAllocPage = (phys, pmm) → phys ≠ 0 →
      Rounds I allowed space
        { l with machine := (vmmMap { l.machine with pmm := pmm } space page phys flags).2 }
        (Plan.mapPage { p with pmm := pmm } page) as →
      Rounds I allowed space l p (.map page flags :: as)

theorem Rounds.start {I : Load → Plan → Prop} {allowed : Machine → Nat → Prop}
    {as : List LoadAction} (h : Rounds I allowed space l p as) : I l p := by
  cases h <;> assumption

theorem Rounds.mono {I I' : Load → Plan → Prop} {allowed allowed' : Machine → Nat → Prop}
    {as : List LoadAction} (h : Rounds I allowed space l p as) (hI : ∀ l p, I l p → I' l p)
    (hallowed : ∀ m v, allowed m v → allowed' m v) : Rounds I' allowed' space l p as := by
  induction h with
  | nil hl => exact .nil (hI _ _ hl)
  | store hl hvirt hstore _ ih => exact .store (hI _ _ hl) hvirt (hallowed _ _ hstore) ih
  | failed hl halloc => exact .failed (hI _ _ hl) halloc
  | map hl hwf halloc hne _ ih => exact .map (hI _ _ hl) hwf halloc hne ih

/-- The rounds of a load that stays: stores to pages of the plan, pages mapped in slots of the
    space's own. -/
abbrev LoadRounds (m : Machine) (space : Nat) : Load → Plan → List LoadAction → Prop :=
  Rounds (Loading m space) (fun m' virt => userMapped m'.mem space virt = true) space

theorem Loading.rounds (h : Loading m space l p) {as : List LoadAction}
    (hwf : ∀ a ∈ as, a.WellFormed)
    (hstays : p.stays (supervisor m.mem m.kernelSpace) as = true) :
    LoadRounds m space l p as := by
  induction as generalizing l p with
  | nil => exact .nil h
  | cons a as ih =>
      have hrest : ∀ b ∈ as, b.WellFormed := fun b hb => hwf b (List.mem_cons_of_mem a hb)
      have hhead := hwf a List.mem_cons_self
      cases a with
      | store virt byte =>
          have hvirt : virt < 2 ^ 32 := hhead
          rw [Plan.stays, h.follows.pages virt hvirt, Bool.and_eq_true] at hstays
          exact .store h hvirt hstays.1 (ih (h.store hvirt byte hstays.1) hrest hstays.2)
      | map page flags =>
          rcases halloc : l.machine.pmm.pmmAllocPage with ⟨phys, pmm⟩
          rw [Plan.stays, h.follows.pmm, halloc] at hstays
          dsimp only at hstays
          by_cases hzero : phys = 0
          · subst hzero
            exact .failed h halloc
          · rw [if_neg hzero, Bool.and_eq_true, Bool.not_eq_true'] at hstays
            exact .map h hhead halloc hzero
              (ih (h.map_own hhead halloc hzero hstays.1) hrest hstays.2)

/-- **The plan decides.** A load whose rounds stay ends with the kernel's tables as they
    were; any other ends broken. -/
theorem Loading.perform (h : Loading m space l p) {as : List LoadAction}
    (hwf : ∀ a ∈ as, a.WellFormed) :
    (p.stays (supervisor m.mem m.kernelSpace) as = true →
      ∃ p', Loading m space (l.perform space space as).2 p') ∧
    (p.stays (supervisor m.mem m.kernelSpace) as = false →
      Broken m space (l.perform space space as).2) := by
  induction as generalizing l p with
  | nil => exact ⟨fun _ => ⟨p, h⟩, fun hfalse => absurd hfalse.symm Bool.false_ne_true⟩
  | cons a as ih =>
      have hrest : ∀ b ∈ as, b.WellFormed := fun b hb => hwf b (List.mem_cons_of_mem a hb)
      have hhead := hwf a List.mem_cons_self
      cases a with
      | store virt byte =>
          have hvirt : virt < 2 ^ 32 := hhead
          rw [Load.perform_cons, Plan.stays, h.follows.pages virt hvirt]
          cases huser : userMapped l.machine.mem space virt with
          | true => exact ih (h.store hvirt byte huser) hrest
          | false =>
              have hstray : Broken m space (l.store space virt byte) := by
                left
                rw [Load.store, huser, if_neg Bool.false_ne_true]
                exact List.cons_ne_nil _ _
              exact ⟨fun htrue => absurd htrue Bool.false_ne_true, fun _ => hstray.perform hrest⟩
      | map page flags =>
          rw [Load.perform_cons, Plan.stays, h.follows.pmm]
          cases halloc : l.machine.pmm.pmmAllocPage with
          | mk phys pmm =>
            dsimp only
            by_cases hzero : phys = 0
            · subst hzero
              rw [Load.act_map_none space space page flags halloc, if_pos rfl,
                if_neg Bool.false_ne_true]
              obtain ⟨hkeeps, -⟩ := pmmAllocPage_page halloc
              refine ⟨fun _ => ⟨{ p with pmm := pmm }, ?_⟩,
                fun hfalse => absurd hfalse.symm Bool.false_ne_true⟩
              exact ⟨h.inv.congr .refl .refl hkeeps, h.keeps.trans hkeeps, h.kernel_tables,
                ⟨rfl, h.follows.tables, h.follows.pages⟩, h.stray⟩
            · rw [Load.act_map_some space space page flags halloc hzero, if_neg hzero, if_pos rfl]
              cases hsup : supervisor m.mem m.kernelSpace (pdIdx page) with
              | false => exact ih (h.map_own hhead halloc hzero hsup) hrest
              | true =>
                  have hsup' : supervisor l.machine.mem m.kernelSpace (pdIdx page) = true :=
                    (supervisor_congr h.kernel_tables.directory (pdIdx_lt hhead.1)).trans hsup
                  have htainted := tainted_map_shared h.inv h.keeps hhead halloc hzero hsup'
                  exact ⟨fun htrue => absurd htrue Bool.false_ne_true,
                    fun _ => Broken.perform (Or.inr htainted) hrest⟩

end follow

/-! ## Confinement -/

/-- The first address of a page, from its two indices. -/
theorem exists_virt {i j : Nat} (hi : i < ENTRIES) (hj : j < ENTRIES) :
    ∃ virt < 2 ^ 32, pdIdx virt = i ∧ ptIdx virt = j ∧ virt % PAGE_SIZE = 0 := by
  rw [ENTRIES] at hi hj
  refine ⟨i * 2 ^ 22 + j * 2 ^ 12, by omega, ?_, ?_, ?_⟩
  · rw [pdIdx]
    omega
  · rw [ptIdx]
    omega
  · rw [PAGE_SIZE]
    omega

theorem Loading.confined {m : Machine} {space : Nat} {l : Load} {p : Plan}
    (h : Loading m space l p) : Confined m l :=
  ⟨fun _ hvirt => h.kernel_tables.translate_eq (pdIdx_lt hvirt), h.stray⟩

/-- An entry for a page that was free cannot have been in the kernel's table before. -/
theorem Broken.not_confined {m : Machine} {space : Nat} {l : Load}
    (hframes : ∀ i < ENTRIES, supervisor m.mem m.kernelSpace i = true → ∀ j < ENTRIES,
      isUser (entryAt m.mem (frame (entryAt m.mem m.kernelSpace i)) j) = true →
        InUse m.pmm (frame (entryAt m.mem (frame (entryAt m.mem m.kernelSpace i)) j)))
    (h : Broken m space l) : ¬ Confined m l := by
  intro hconfined
  rcases h with hstray | ⟨-, -, i, hi, hsup, j, hj, e, rfl, hpresent, huser, hclear⟩
  · exact hstray hconfined.stores
  · obtain ⟨virt, hvirt, rfl, rfl, hoffset⟩ := exists_virt hi hj
    obtain ⟨hdir, hdir_user⟩ := supervisor_iff.mp hsup
    have hnew := translate_of_present hdir hpresent
    rw [hconfined.translation virt hvirt] at hnew
    obtain ⟨hdir₀, -, heq⟩ := translate_eq_some hnew
    rw [Translation.mk.injEq] at heq
    obtain ⟨haddr, hdir_flags, hflags⟩ := heq
    have hsup₀ : supervisor m.mem m.kernelSpace (pdIdx virt) = true := by
      rw [supervisor_iff, ← isUser_flagBits, ← hdir_flags, isUser_flagBits]
      exact ⟨hdir₀, hdir_user⟩
    have hinUse := hframes _ hi hsup₀ _ hj (by
      rw [← isUser_flagBits, ← hflags, isUser_flagBits]
      exact huser)
    rw [Nat.add_right_cancel haddr] at hclear
    exact hinUse.ne_of_clear hclear rfl

/-- A machine in which a space has been created and is not in use yet. -/
structure Prepared (m : Machine) (space : Nat) : Prop where
  inv : SpaceInv m.mem m.pmm m.kernelSpace space AllSlots
  frames : ∀ i < ENTRIES, supervisor m.mem m.kernelSpace i = true → ∀ j < ENTRIES,
    isUser (entryAt m.mem (frame (entryAt m.mem m.kernelSpace i)) j) = true →
      InUse m.pmm (frame (entryAt m.mem (frame (entryAt m.mem m.kernelSpace i)) j))

theorem KernelSpace.prepared {m₀ m₁ m : Machine} {space : Nat} (hkernel : KernelSpace m₀)
    (hcreate : m₀.vmmCreateSpace = (space, m₁)) (hne : space ≠ 0)
    (hbetween : Undisturbed m₁ m space) : Prepared m space := by
  obtain ⟨hinv₁, hsame₁, hkernel₁, hkeeps₁⟩ := hkernel.vmmCreateSpace hcreate hne
  have hspace : m.kernelSpace = m₀.kernelSpace := hbetween.kernelSpace.trans hkernel₁
  have hbetween_kernel := hbetween.kernel_tables
  rw [hkernel₁] at hbetween_kernel
  have hsame := hsame₁.trans hbetween_kernel
  constructor
  · rw [hspace]
    exact hinv₁.congr hbetween_kernel hbetween.space_tables hbetween.pmm
  · intro i hi hsup j hj huser
    rw [hspace] at hsup huser ⊢
    rw [supervisor_congr hsame.directory hi] at hsup
    rw [hsame.directory i hi, hsame.table i hi (supervisor_iff.mp hsup).1 j hj] at huser ⊢
    exact (hkernel.supervisor_frames i hi hsup j hj huser).keeps (hkeeps₁.trans hbetween.pmm)

/-- A load before its first round. -/
theorem SpaceInv.loading {m : Machine} {space : Nat}
    (h : SpaceInv m.mem m.pmm m.kernelSpace space AllSlots) {p : Plan} (hplan : Follows m space p)
    (info : ElfInfo) : Loading m space ⟨m, info, []⟩ p :=
  ⟨h, fun _ hpage => hpage, .refl, hplan, rfl⟩

theorem Prepared.confined_iff {m : Machine} {space : Nat} (h : Prepared m space)
    (file : Option Memory) (info : ElfInfo) :
    Confined m (elfLoadInto file space space m info).2 ↔ Stays file space m := by
  obtain ⟨hstays, hbroken⟩ :=
    (h.inv.loading (follows_planOf m space) info).perform (loadActions_wellFormed file)
  obtain ⟨hmachine, hstray⟩ := elfLoadInto_eq_perform file space space m info
  have hconfined : Confined m (elfLoadInto file space space m info).2 ↔
      Confined m (Load.perform space space ⟨m, info, []⟩ (loadActions file)).2 := by
    constructor
    · exact fun h => ⟨hmachine ▸ h.translation, hstray ▸ h.stores⟩
    · exact fun h => ⟨hmachine ▸ h.translation, hstray ▸ h.stores⟩
  rw [hconfined]
  constructor
  · intro hconf
    by_contra hfalse
    rw [Stays, Bool.not_eq_true] at hfalse
    exact (hbroken hfalse).not_confined h.frames hconf
  · intro hstay
    obtain ⟨p, hp⟩ := hstays hstay
    exact hp.confined

end NemoOS
