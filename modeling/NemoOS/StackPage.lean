import NemoOS.ElfImage
import NemoOS.MapPointwise

/-!
# The user stack and the program image

`user_install_into_space` maps a page for the user stack at `USER_STACK_ADDR`, one page above
the address at which programs are usually linked. `elf_load_into` maps its pages over
whatever is there. A segment whose pages reach `USER_STACK_ADDR` takes the place of the
stack: user mode then finds its stack pointer at the end of a page of the image.

A round of the load decides about one page (`Contained.translate_map`), so that the stack is
kept exactly when no segment covers it.
-/

namespace NemoOS

open Words Bytes Machine

/-! ## A page during a load -/

/-- One of the rounds maps the page of the address. -/
def Remaps (v : Nat) (as : List LoadAction) : Prop :=
  ∃ page flags, LoadAction.map page flags ∈ as ∧ v / PAGE_SIZE = page / PAGE_SIZE

theorem not_remaps_nil (v : Nat) : ¬ Remaps v [] := by
  rintro ⟨page, flags, hmem, -⟩
  exact absurd hmem List.not_mem_nil

theorem remaps_store {v virt : Nat} {byte : UInt8} {as : List LoadAction} :
    Remaps v (.store virt byte :: as) ↔ Remaps v as := by
  constructor
  · rintro ⟨page, flags, hmem, hpage⟩
    rcases List.mem_cons.mp hmem with heq | hrest
    · nomatch heq
    · exact ⟨page, flags, hrest, hpage⟩
  · rintro ⟨page, flags, hmem, hpage⟩
    exact ⟨page, flags, List.mem_cons_of_mem _ hmem, hpage⟩

theorem remaps_map {v page flags : Nat} {as : List LoadAction} :
    Remaps v (.map page flags :: as) ↔ v / PAGE_SIZE = page / PAGE_SIZE ∨ Remaps v as := by
  constructor
  · rintro ⟨page', flags', hmem, hpage⟩
    rcases List.mem_cons.mp hmem with heq | hrest
    · rw [LoadAction.map.injEq] at heq
      rw [heq.1] at hpage
      exact .inl hpage
    · exact .inr ⟨page', flags', hrest, hpage⟩
  · rintro (hpage | ⟨page', flags', hmem, hpage⟩)
    · exact ⟨page, flags, List.mem_cons_self, hpage⟩
    · exact ⟨page', flags', List.mem_cons_of_mem _ hmem, hpage⟩

theorem userWritable_of_translate {m : Memory} {space v : Nat} {t : Translation}
    (ht : translate m space v = some t) :
    userWritable m space v = (isUser t.directoryFlags && isUser t.tableFlags &&
      isWritable t.directoryFlags && isWritable t.tableFlags) := by
  rw [userWritable, ht]

section load

variable {m₀ : Machine} {space v f : Nat} {l : Load} {p : Plan} {t : Translation}

/-- A round that maps a page leaves the others as they are; the page gets another frame than
    those in use, through the same entry of the directory. -/
theorem Contained.translate_map {m : Machine} (h : Contained m₀ space m p) {page flags phys : Nat}
    {pmm : Pmm} (hwf : (LoadAction.map page flags).WellFormed)
    (halloc : m.pmm.pmmAllocPage = (phys, pmm)) (hne : phys ≠ 0) (hv : v < 2 ^ 32)
    (hsup : supervisor m₀.mem m₀.kernelSpace (pdIdx v) = false)
    (ht : translate m.mem space v = some t) (hf : m.pmm.testBit f = true) :
    ∃ t', translate (vmmMap { m with pmm := pmm } space page phys flags).2.mem space v = some t' ∧
      t'.directoryFlags = t.directoryFlags ∧ (v / PAGE_SIZE ≠ page / PAGE_SIZE → t' = t) ∧
      (v / PAGE_SIZE = page / PAGE_SIZE → t'.addr / PAGE_SIZE ≠ f) := by
  obtain ⟨hpage, hflags, hpresent, -⟩ := hwf
  obtain ⟨hkeeps, hfresh⟩ := pmmAllocPage_page halloc
  obtain ⟨hphys, hclear, -⟩ := hfresh hne
  have hinv : SpaceInv m.mem pmm m₀.kernelSpace space AllSlots := h.inv.congr .refl .refl hkeeps
  rcases SpaceInv.translate_map (m := { m with pmm := pmm }) hinv hpage hphys hflags hpresent hv with
    ⟨hsame, hnone⟩ | ⟨t', ht', haddr, hdir, hplace⟩
  · refine ⟨t, hsame.trans ht, rfl, fun _ => rfl, fun heq => ?_⟩
    exact absurd (ht.symm.trans (hnone heq)) (Option.some_ne_none t)
  · have heq : v / PAGE_SIZE = page / PAGE_SIZE := by
      refine hplace.resolve_right fun hboth => ?_
      have hfalse := (supervisor_congr h.directory (pdIdx_lt hv)).trans hsup
      exact Bool.false_ne_true (hfalse.symm.trans hboth.2.2)
    refine ⟨t', ht', hdir t ht, fun hother => absurd heq hother, fun _ hframe => ?_⟩
    rw [haddr, (page_add hphys).1] at hframe
    rw [hframe, hf] at hclear
    exact Bool.false_ne_true hclear.symm

/-- The page of an address after the rounds of a load that has the pages it asks for. -/
theorem LandingRounds.translate_run {as : List LoadAction}
    (hrounds : LandingRounds m₀ space l p as) (hok : (l.perform space space as).1 = true)
    (hv : v < 2 ^ 32) (hsup : supervisor m₀.mem m₀.kernelSpace (pdIdx v) = false)
    (ht : translate l.machine.mem space v = some t) (hf : l.machine.pmm.testBit f = true) :
    ∃ t', translate (l.perform space space as).2.machine.mem space v = some t' ∧
      t'.directoryFlags = t.directoryFlags ∧ (¬ Remaps v as → t' = t) ∧
      (Remaps v as ∨ t.addr / PAGE_SIZE ≠ f → t'.addr / PAGE_SIZE ≠ f) := by
  induction hrounds generalizing t with
  | nil hload =>
      exact ⟨t, ht, rfl, fun _ => rfl, fun h => h.resolve_left (not_remaps_nil v)⟩
  | @store l p virt byte as hload hvirt hstore _ ih =>
      rw [Load.perform_cons] at hok ⊢
      obtain ⟨-, hs, hpmm⟩ := hload.inv.storeByte_outside byte fun t ht =>
        hload.not_table hvirt hstore ht
      have hf' : (l.machine.storeByte space virt byte).pmm.testBit f = true := by
        rw [hpmm]
        exact hf
      rw [remaps_store]
      exact ih hok ((hs.translate_eq (pdIdx_lt hv)).trans ht) hf'
  | @failed l p page flags as pmm hload halloc =>
      rw [Load.perform_cons, Load.act_map_none space space page flags halloc] at hok
      exact absurd hok Bool.false_ne_true
  | @map l p page flags phys as pmm hload hwf halloc hne hrest ih =>
      rw [Load.perform_cons, Load.act_map_some space space page flags halloc hne, if_pos rfl] at hok ⊢
      obtain ⟨t₁, ht₁, hdir₁, hother₁, hsame₁⟩ :=
        hload.translate_map hwf halloc hne hv hsup ht hf
      have hf₁ : (vmmMap { l.machine with pmm := pmm } space page phys flags).2.pmm.testBit f =
          true := by
        obtain ⟨hkeeps, -⟩ := pmmAllocPage_page halloc
        rw [vmmMap_pmm]
        split
        · exact hkeeps f hf
        · exact pmm.pmmAllocPage_spec.1 f (hkeeps f hf)
      obtain ⟨t', ht', hdir, hkept, hchanged⟩ := ih hok ht₁ hf₁
      refine ⟨t', ht', hdir.trans hdir₁, fun hnone => ?_, fun hor => ?_⟩
      · rw [remaps_map, not_or] at hnone
        exact (hkept hnone.2).trans (hother₁ hnone.1)
      · apply hchanged
        by_cases hsame : v / PAGE_SIZE = page / PAGE_SIZE
        · exact .inr (hsame₁ hsame)
        · rw [remaps_map] at hor
          rw [hother₁ hsame]
          exact hor.imp_left fun h => h.resolve_left hsame

end load

/-- The rounds of a file map the pages of its segments. -/
theorem remaps_loadActions {image : Memory} (hvalid : validHeader image = true) (v : Nat) :
    Remaps v (loadActions (some image)) ↔ ∃ ph ∈ segments image, ph.covers v := by
  rw [loadActions_of_valid hvalid]
  constructor
  · rintro ⟨page, flags, hmem, hpage⟩
    obtain ⟨ph, hph, hact⟩ := List.mem_flatMap.mp hmem
    refine ⟨ph, hph, covers_iff.mpr ?_⟩
    rw [segmentActions, List.mem_append, List.mem_append, List.mem_map, List.mem_map,
      List.mem_map] at hact
    rcases hact with (⟨k, hk, heq⟩ | ⟨j, -, heq⟩) | ⟨j, -, heq⟩
    · rw [LoadAction.map.injEq] at heq
      rw [← heq.1] at hpage
      exact ⟨k, hk, hpage⟩
    · cases heq
    · cases heq
  · rintro ⟨ph, hph, hcovers⟩
    obtain ⟨k, hk, hpage⟩ := covers_iff.mp hcovers
    refine ⟨_, segmentFlags ph, List.mem_flatMap.mpr ⟨ph, hph, ?_⟩, hpage⟩
    rw [segmentActions, List.append_assoc]
    exact List.mem_append_left _ (List.mem_map_of_mem hk)

/-! ## The stack of a new process -/

namespace KernelState

/-- The frame that `user_install_into_space` takes for the stack of the next process. -/
def stackFrame (k : KernelState) : Nat :=
  let (space, m) := k.machine.vmmCreateSpace
  (m.vmmMap space USER_CODE_ADDR k.userCodePhys (VMM_PRESENT + VMM_USER)).2.pmm.pmmAllocPage.1

/-- The space has this frame at `USER_STACK_ADDR`, for user mode and writable. -/
def StackKept (k : KernelState) (m : Machine) (space : Nat) : Prop :=
  (translate m.mem space USER_STACK_ADDR).map Translation.addr = some k.stackFrame ∧
    userWritable m.mem space USER_STACK_ADDR = true

/-- The flags of the directory entry for the user area: of the kernel's entry if it has one,
    otherwise those of a new table. -/
def stackSlotFlags (k : KernelState) : Nat :=
  k.machine.slotFlags k.machine.kernelSpace USER_STACK_ADDR

/-- User mode can write through the directory entry for the user area. -/
def StackSlot (k : KernelState) : Prop :=
  isUser k.stackSlotFlags = true ∧ isWritable k.stackSlotFlags = true

section created

variable {k k₁ : KernelState} {p userEntry userEsp space a : Nat} {m₁ m₂ : Machine} (h : k.Ready)

include h

/-- A new space has the flags of the kernel's directory. -/
theorem Ready.slotFlags_create (hcreate : k.machine.vmmCreateSpace = (space, m₁))
    (hspace : space ≠ 0) {virt : Nat} (hvirt : virt < 2 ^ 32) :
    m₁.slotFlags space virt = k.machine.slotFlags k.machine.kernelSpace virt := by
  obtain ⟨-, -, hmade⟩ := vmmCreateSpace_cases h.kernelSpace.directory_inUse hcreate
  obtain ⟨-, -, -, hfill⟩ := hmade hspace
  have hslot := pdIdx_lt hvirt
  rw [Machine.slotFlags, Machine.slotFlags]
  cases hpresent : isPresent (entryAt k.machine.mem k.machine.kernelSpace (pdIdx virt)) with
  | false =>
      rw [hfill.absent _ hslot hpresent]
      rfl
  | true =>
      cases huser : isUser (entryAt k.machine.mem k.machine.kernelSpace (pdIdx virt)) with
      | false => rw [hfill.shared _ hslot (supervisor_iff.mpr ⟨hpresent, huser⟩), hpresent]
      | true =>
          obtain ⟨table, hpage, -, hentry, -⟩ := hfill.copied _ hslot hpresent huser
          rw [hentry, isPresent_add hpage, isPresent_flagBits, hpresent, if_pos rfl, if_pos rfl]
          exact flagBits_add hpage (Nat.mod_lt _ (by decide))

/-- The stack page before the load. -/
theorem Created.stack_translate (hc : Created k k₁ p userEntry userEsp space a m₁ m₂)
    (hcode : k.userCodePhys ≠ 0)
    (hsup : supervisor k.machine.mem k.machine.kernelSpace (pdIdx USER_STACK_ADDR) = false) :
    translate k₁.machine.mem space USER_STACK_ADDR =
        some ⟨k.stackFrame, k.stackSlotFlags, VMM_PRESENT + VMM_WRITABLE + VMM_USER⟩ ∧
      k₁.machine.pmm.testBit (k.stackFrame / PAGE_SIZE) = true := by
  obtain ⟨-, hsame, -, -⟩ := h.kernelSpace.vmmCreateSpace hc.create hc.space_ne
  obtain ⟨f, hstack⟩ := hc.stackMapped h hcode
  have hframe : k.stackFrame = f * PAGE_SIZE := by
    rw [stackFrame, hc.create]
    exact hstack.next
  have htranslate := hstack.translation ((supervisor_congr hsame.directory (by decide)).trans hsup)
    USER_STACK_ADDR (by decide)
  have hoffset : USER_STACK_ADDR % PAGE_SIZE = 0 := by decide
  have hflags : flagBits (VMM_PRESENT + VMM_WRITABLE + VMM_USER) =
      VMM_PRESENT + VMM_WRITABLE + VMM_USER := by decide
  rw [updatePage, if_pos rfl, mapped, h.slotFlags_create hc.create hc.space_ne (by decide),
    hstack.inUse.frame_eq, hoffset, hflags, Nat.add_zero] at htranslate
  -- the kernel stack takes nothing from the space
  obtain ⟨hinv₂, -, -, -⟩ := h.install hc.create hc.space_ne hc.install
  obtain ⟨-, -, hs⟩ := hinv₂.untouched hc.stack.untouched hc.stack.keeps
  rw [hframe]
  exact ⟨(hs.translate_eq (pdIdx_lt (by decide))).trans htranslate,
    hc.stack.keeps _ hstack.inUse.used⟩

end created

section result

variable {k k₁ : KernelState} {p userEntry userEsp n : Nat} (h : k.Ready) (hp : p ≠ 0)
  (hcall : k.processCreate p userEntry userEsp n = some (p, k₁)) (hcode : k.userCodePhys ≠ 0)
  {image : Memory} (hlands : k.LoadLands (some image)) {info : ElfInfo}
  (hok : (NemoOS.elfLoadInto (some image) (k₁.sys.procs p).addressSpace
    (k₁.sys.procs p).addressSpace k₁.machine info).1 = 0)

include h hp hcall hcode hlands hok

/-- The stack page after the load, in a slot of the space's own: through the same entry of the
    directory, in the same frame unless a segment covers it. -/
theorem stack_translate_loaded
    (hsup : supervisor k.machine.mem k.machine.kernelSpace (pdIdx USER_STACK_ADDR) = false) :
    ∃ t, translate (k₁.elfLoadInto p (some image) info).machine.mem
        (k₁.sys.procs p).addressSpace USER_STACK_ADDR = some t ∧
      t.directoryFlags = k.stackSlotFlags ∧
      ((∀ ph ∈ segments image, ¬ ph.covers USER_STACK_ADDR) → t.addr = k.stackFrame ∧
        t.tableFlags = VMM_PRESENT + VMM_WRITABLE + VMM_USER) ∧
      ((∃ ph ∈ segments image, ph.covers USER_STACK_ADDR) → t.addr ≠ k.stackFrame) := by
  obtain ⟨space, a, m₁, m₂, hc⟩ := h.created hp hcall
  obtain ⟨ht, hf⟩ := hc.stack_translate h hcode hsup
  rw [hc.address] at hok ⊢
  obtain ⟨hvalid, hperform⟩ := elfLoadInto_eq_zero_iff.mp hok
  have hrounds := (hc.contained h).rounds (l := ⟨k₁.machine, info, []⟩)
    (loadActions_wellFormed (some image)) hlands.lands
  obtain ⟨t, ht', hdir, hkept, hchanged⟩ :=
    hrounds.translate_run hperform (by decide) hsup ht hf
  rw [remaps_loadActions hvalid] at hkept hchanged
  rw [elfLoadInto_machine hc.address]
  refine ⟨t, ht', hdir, fun hnone => ?_, fun hsome haddr => ?_⟩
  · have heq := hkept fun ⟨ph, hph, hcovers⟩ => hnone ph hph hcovers
    rw [heq]
    exact ⟨rfl, rfl⟩
  · exact hchanged (.inl hsome) (by rw [haddr])

omit hp hcode hok in
/-- In a slot with a supervisor table there is no stack for user mode. -/
theorem not_stackKept_of_supervisor (hp : p ≠ 0)
    (hsup : supervisor k.machine.mem k.machine.kernelSpace (pdIdx USER_STACK_ADDR) = true) :
    ¬ k.StackKept (k₁.elfLoadInto p (some image) info).machine (k₁.sys.procs p).addressSpace := by
  rintro ⟨haddr, hwritable⟩
  obtain ⟨space, a, m₁, m₂, hc⟩ := h.created hp hcall
  have hslot : pdIdx USER_STACK_ADDR < ENTRIES := by decide
  rw [hc.address] at haddr hwritable
  obtain ⟨-, hend, -⟩ := (SameButFree.refl k).twin_loaded h hc hc hlands info
  obtain ⟨t, ht, -⟩ := Option.map_eq_some_iff.mp haddr
  have hend_sup := (supervisor_congr hend.directory hslot).trans hsup
  have hshared := hend.inv.shared _ hslot hend_sup
  obtain ⟨-, -, hflags⟩ := translate_eq_some ht
  rw [userWritable_of_translate ht, hflags, isUser_flagBits, hshared,
    (supervisor_iff.mp hend_sup).2] at hwritable
  exact Bool.false_ne_true hwritable

end result

/-! ## Two files in the small kernel -/

/-- A process of the small kernel and a file with room for its pages. -/
theorem smallKernel_load {k₁ : KernelState} {userEntry userEsp n : Nat} {image : Memory}
    {as : List LoadAction}
    (hcall : (smallKernel codePages).processCreate 8 userEntry userEsp n = some (8, k₁))
    (hvalid : validHeader image = true) (hactions : loadActions (some image) = as)
    (hpages : pagesFor as ≤ 7) (hslots : as.all LoadAction.aboveKernel)
    (hstores : storesMapped [] as = true) (info : ElfInfo) :
    (smallKernel codePages).LoadStays (some image) ∧
      (NemoOS.elfLoadInto (some image) (k₁.sys.procs 8).addressSpace (k₁.sys.procs 8).addressSpace
        k₁.machine info).1 = 0 := by
  obtain ⟨space, a, m₁, m₂, hc⟩ := codePages_ready.created (by decide) hcall
  have hplan : (smallKernel codePages).createdPlan.pmm =
      (smallKernel codePages).machine.pmm.takePages 5 := by
    rw [createdPlan, if_neg (by decide), smallKernel_userPages]
  have hroom : (smallKernel codePages).createdPlan.pmm.Room (pagesFor as) := by
    rw [hplan]
    exact Pmm.Room.mono (n := 7) ⟨by decide, by decide⟩ hpages
  refine ⟨?_, elfLoadInto_eq_zero_iff.mpr ⟨hvalid, ?_⟩⟩
  · rw [LoadStays, hactions]
    apply Plan.stays_of_room hroom (fun _ hmem => absurd hmem List.not_mem_nil) _ hstores
    intro page flags hmem
    obtain ⟨hpage, hslot⟩ := LoadAction.slot_of_aboveKernel (List.all_eq_true.mp hslots _ hmem)
    rw [supervisor, smallKernel_entry (pdIdx_lt hpage), if_neg hslot]
    rfl
  · rw [hactions]
    apply Load.perform_of_room
    rw [← (hc.follows codePages_ready).pmm]
    exact hroom

theorem smallKernel_stackSlotFlags :
    (smallKernel codePages).stackSlotFlags = VMM_PRESENT + VMM_WRITABLE + VMM_USER := by
  rw [stackSlotFlags, Machine.slotFlags, smallKernel_entry (by decide)]
  decide

end KernelState

end NemoOS
