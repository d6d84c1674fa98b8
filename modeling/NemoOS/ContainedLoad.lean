import NemoOS.ProcessPlan
import NemoOS.SpaceClone
import NemoOS.UserView

/-!
# Loads that write to no table

`elf_load_into` maps pages wherever the file says, also over pages of the kernel, and it
stores through the new space, which has the kernel's map of memory as well. A page that it
maps in a slot with a supervisor table is out of reach for user mode, and no table is lost by
it. `Plan.lands` follows the rounds on the pages of the space: every byte is stored on a page
that is mapped by then, or to an address that the kernel's own map leads to no free page and
to no table of the kernel (`Harmless`). The loads that are left out are those that store
through the kernel's map into its tables or into free memory.

`Contained` is what such a load keeps: no round writes to a directory or a table.
-/

namespace NemoOS

open Words Bytes Machine

/-! ## The rounds on the plan -/

/-- Every byte is stored on a page of the plan, or where it is harmless, until there is no
    page left. -/
def Plan.lands (harmless : Nat → Prop) (p : Plan) : List LoadAction → Prop
  | [] => True
  | .map page _ :: rest =>
      let (phys, pmm) := p.pmm.pmmAllocPage
      phys ≠ 0 → (mapPage { p with pmm := pmm } page).lands harmless rest
  | .store virt _ :: rest =>
      (p.pages (virt / PAGE_SIZE) = true ∨ harmless virt) ∧ p.lands harmless rest

/-- A load that stays in the slots of the space lands. -/
theorem Plan.lands_of_stays {sup : Nat → Bool} {harmless : Nat → Prop} {p : Plan}
    {as : List LoadAction} (hstays : p.stays sup as = true) : p.lands harmless as := by
  induction as generalizing p with
  | nil => trivial
  | cons a as ih =>
      cases a with
      | store virt byte =>
          rw [stays, Bool.and_eq_true] at hstays
          exact ⟨.inl hstays.1, ih hstays.2⟩
      | map page flags =>
          rw [lands]
          intro hne
          rw [stays_map page flags as hne, Bool.and_eq_true] at hstays
          exact ih hstays.2

/-! ## What is kept -/

/-- User mode can use a whole page or nothing of it. -/
theorem userMapped_page {m : Memory} {space v w : Nat} (hpage : v / PAGE_SIZE = w / PAGE_SIZE) :
    userMapped m space v = userMapped m space w := by
  obtain ⟨hslot, hindex⟩ := page_eq_iff.mp hpage
  rw [userMapped_eq, userMapped_eq, hslot, hindex]

/-- The page at `a` is in use and no table; if it was free at the start, user mode does not
    reach it. -/
structure SetApart (m₀ : Machine) (space : Nat) (m : Machine) (a : Nat) : Prop where
  inUse : InUse m.pmm a
  not_table : ¬ Structural m.mem m₀.kernelSpace space AllSlots a
  unreached : m₀.pmm.testBit (a / PAGE_SIZE) = true ∨
    ∀ w < 2 ^ 32, ∀ b, userAddr m.mem space w = some b → b / PAGE_SIZE ≠ a / PAGE_SIZE

/-- A run that started with the machine `m₀`, in which a space is made and filled. What the
    space maps out of reach for user mode is set apart, or it is what the kernel had there, on
    a page that is not `known`. -/
structure SpaceHeld (m₀ : Machine) (space : Nat) (known : Nat → Bool) (m : Machine) : Prop where
  inv : SpaceInv m.mem m.pmm m₀.kernelSpace space AllSlots
  taken : ∃ n, m.pmm = m₀.pmm.takePages n
  directory : SameDirectory m₀.mem m.mem m₀.kernelSpace AllSlots
  old_tables : ∀ a, Structural m.mem m₀.kernelSpace space AllSlots a →
    m₀.pmm.testBit (a / PAGE_SIZE) = true →
      a = m₀.kernelSpace ∨ HasTable m₀.mem m₀.kernelSpace AllSlots a
  others : ∀ v < 2 ^ 32, userMapped m.mem space v = false →
    ∀ t, translate m.mem space v = some t → SetApart m₀ space m (t.addr / PAGE_SIZE * PAGE_SIZE) ∨
      known (v / PAGE_SIZE) = false ∧
        ∃ t₀, translate m₀.mem m₀.kernelSpace v = some t₀ ∧ t₀.addr = t.addr

namespace SpaceHeld

variable {m₀ m : Machine} {space : Nat} {known known' : Nat → Bool}

/-- Pages are taken, and nothing is written to the tables. -/
theorem congr (h : SpaceHeld m₀ space known m) {m' : Machine}
    (hk : SameTables m.mem m'.mem m₀.kernelSpace AllSlots)
    (hs : SameTables m.mem m'.mem space AllSlots) {n : Nat} (hpmm : m'.pmm = m.pmm.takePages n) :
    SpaceHeld m₀ space known m' := by
  have hkeeps : m.pmm.Keeps m'.pmm := by
    intro page hpage
    rw [hpmm, Pmm.testBit_takePages, hpage, Bool.true_or]
  have hview : ∀ w < 2 ^ 32, userAddr m'.mem space w = userAddr m.mem space w :=
    fun w hw => userAddr_congr hs (pdIdx_lt hw)
  refine ⟨h.inv.congr hk hs hkeeps, ?_, fun i hi => (hk.directory i hi).trans (h.directory i hi),
    fun a ha => h.old_tables a (structural_congr hk.directory hs.directory ha), ?_⟩
  · obtain ⟨n₀, hn₀⟩ := h.taken
    exact ⟨n₀ + n, by rw [hpmm, hn₀, Pmm.takePages_takePages]⟩
  · intro v hv huser t ht
    rw [userMapped_congr hs (pdIdx_lt hv)] at huser
    rw [hs.translate_eq (pdIdx_lt hv)] at ht
    refine (h.others v hv huser t ht).imp_left fun hapart =>
      ⟨hapart.inUse.keeps hkeeps, fun ha => hapart.not_table
        (structural_congr hk.directory hs.directory ha), hapart.unreached.imp_right ?_⟩
    intro hnone w hw b hb
    rw [hview w hw] at hb
    exact hnone w hw b hb

theorem keeps (h : SpaceHeld m₀ space known m) : m₀.pmm.Keeps m.pmm := by
  obtain ⟨n, hn⟩ := h.taken
  intro page hpage
  rw [hn, Pmm.testBit_takePages, hpage, Bool.true_or]

/-- A page is mapped that was in use at the start, or that has been taken just now. -/
theorem map (h : SpaceHeld m₀ space known m) {virt phys flags n : Nat} {pmm : Pmm}
    (hvirt : virt < 2 ^ 32) (hflags : flags < PAGE_SIZE) (hflags_present : isPresent flags = true)
    (hflags_user : isUser flags = true) (hpmm : pmm = m.pmm.takePages n) (hphys : InUse pmm phys)
    (hnot : ¬ Structural m.mem m₀.kernelSpace space AllSlots phys)
    (hnew : m₀.pmm.testBit (phys / PAGE_SIZE) = true ∨ m.pmm.testBit (phys / PAGE_SIZE) = false)
    (hknown : ∀ i, known' i = true → known i = true ∨ i = virt / PAGE_SIZE) :
    SpaceHeld m₀ space known' (vmmMap { m with pmm := pmm } space virt phys flags).2 := by
  obtain ⟨n₀, hn₀⟩ := h.taken
  have hkeeps : m.pmm.Keeps pmm := by
    intro page hpage
    rw [hpmm, Pmm.testBit_takePages, hpage, Bool.true_or]
  have hinv : SpaceInv m.mem pmm m₀.kernelSpace space AllSlots := h.inv.congr .refl .refl hkeeps
  have heffect := SpaceInv.mapEffect (m := { m with pmm := pmm }) hinv hvirt hphys hnot hflags
  have hview := fun v hv a => SpaceInv.userAddr_vmmMap (m := { m with pmm := pmm }) (v := v) (a := a)
    hinv hvirt hphys.toIsPage hflags hflags_present hv
  have htranslate := fun v hv => SpaceInv.translate_map (m := { m with pmm := pmm }) (v := v) hinv
    hvirt hphys.toIsPage hflags hflags_present hv
  have hmore : ∀ v < 2 ^ 32, userMapped m.mem space v = true → userMapped
      (vmmMap { m with pmm := pmm } space virt phys flags).2.mem space v = true := by
    intro v hv huser
    rw [(SpaceInv.vmmMap_view (m := { m with pmm := pmm }) hinv hvirt hphys.toIsPage hflags
      hflags_present hflags_user (Prod.eta _).symm).2 v hv]
    dsimp only
    rw [huser, Bool.true_or]
  have hpmm' := vmmMap_pmm { m with pmm := pmm } space virt phys flags
  generalize (vmmMap { m with pmm := pmm } space virt phys flags).2 = m' at *
  dsimp only at htranslate hview hpmm'
  have hold : ∀ a, SetApart m₀ space m a → SetApart m₀ space m' a := by
    intro a ha
    refine ⟨(ha.inUse.keeps hkeeps).keeps heffect.keeps,
      heffect.not_structural (ha.inUse.keeps hkeeps) ha.not_table, ?_⟩
    by_cases hused : m₀.pmm.testBit (a / PAGE_SIZE) = true
    · exact .inl hused
    · refine .inr fun w hw b hb heq => ?_
      rcases hview w hw b hb with ⟨-, rfl⟩ | ⟨-, hb_old⟩
      · rw [(page_add hphys.toIsPage).1] at heq
        rw [heq] at hnew
        rw [ha.inUse.used] at hnew
        exact hnew.elim hused fun hfalse => Bool.false_ne_true hfalse.symm
      · exact (ha.unreached.resolve_left hused) w hw b hb_old heq
  refine ⟨heffect.inv, ?_, fun i hi => (heffect.directory i hi).trans (h.directory i hi),
    fun a ha hused => ?_, fun v hv huser t ht => ?_⟩
  · rw [hpmm', hpmm, hn₀, Pmm.takePages_takePages]
    split
    · exact ⟨_, rfl⟩
    · exact ⟨n₀ + n + 1, rfl⟩
  · rcases heffect.structural a ha with hold | hclear
    · exact h.old_tables a hold hused
    · have hpage := hkeeps _ (h.keeps _ hused)
      dsimp only at hclear
      rw [hclear] at hpage
      exact absurd hpage Bool.false_ne_true
  · have hbefore : userMapped m.mem space v = false := by
      by_contra htrue
      rw [Bool.not_eq_false] at htrue
      exact Bool.false_ne_true (huser.symm.trans (hmore v hv htrue))
    rcases htranslate v hv with ⟨hsame, hnone⟩ | ⟨t', ht', haddr, -, hplace⟩
    · rw [hsame] at ht
      rcases h.others v hv hbefore t ht with hapart | ⟨hunknown, hkernel⟩
      · exact .inl (hold _ hapart)
      · refine .inr ⟨?_, hkernel⟩
        by_contra htrue
        rw [Bool.not_eq_false] at htrue
        rcases hknown _ htrue with hknown | hpage
        · exact Bool.false_ne_true (hunknown.symm.trans hknown)
        · rw [hnone hpage] at ht
          cases ht
    · -- the page that is mapped
      left
      obtain rfl : t' = t := Option.some.inj (ht'.symm.trans ht)
      rw [haddr, (page_add hphys.toIsPage).2]
      refine ⟨hphys.keeps heffect.keeps, heffect.not_structural hphys hnot, ?_⟩
      refine hnew.imp_right fun hclear w hw b hb heq => ?_
      rcases hview w hw b hb with ⟨hpage, -⟩ | ⟨-, hb_old⟩
      · have hw_user := (userAddr_eq_some.mp hb).1
        rcases hplace with hv_page | ⟨-, hsup, -⟩
        · rw [← userMapped_page (hv_page.trans hpage.symm), huser] at hw_user
          exact Bool.false_ne_true hw_user
        · rw [heffect.inv.not_userMapped hw (by
            rw [supervisor_congr heffect.directory (pdIdx_lt hw), (page_eq_iff.mp hpage).1]
            exact hsup)] at hw_user
          exact Bool.false_ne_true hw_user
      · have hused := (h.inv.userAddr_page hw hb_old).1
        rw [heq, hclear] at hused
        exact Bool.false_ne_true hused

/-- A page from the allocator is mapped. -/
theorem map_new (h : SpaceHeld m₀ space known m) {virt phys flags : Nat} {pmm : Pmm}
    (hvirt : virt < 2 ^ 32) (hflags : flags < PAGE_SIZE) (hflags_present : isPresent flags = true)
    (hflags_user : isUser flags = true) (halloc : m.pmm.pmmAllocPage = (phys, pmm)) (hne : phys ≠ 0)
    (hknown : ∀ i, known' i = true → known i = true ∨ i = virt / PAGE_SIZE) :
    SpaceHeld m₀ space known' (vmmMap { m with pmm := pmm } space virt phys flags).2 := by
  obtain ⟨-, hclear, hinUse⟩ := (pmmAllocPage_page halloc).2 hne
  exact h.map (n := 1) hvirt hflags hflags_present hflags_user (by rw [Pmm.takePages, Pmm.takePages,
    halloc]) hinUse (h.inv.not_structural hclear) (.inr hclear) hknown

/-- The pages for code and stack. -/
theorem install (h : SpaceHeld m₀ space known m) {code : Nat} (hinUse : InUse m.pmm code)
    (hnot : ¬ Structural m.mem m₀.kernelSpace space AllSlots code)
    (hold : m₀.pmm.testBit (code / PAGE_SIZE) = true) :
    SpaceHeld m₀ space known (m.userInstallIntoSpace code space) := by
  rw [Machine.userInstallIntoSpace]
  split
  · exact h
  · have hcode : SpaceHeld m₀ space known
        (m.vmmMap space USER_CODE_ADDR code (VMM_PRESENT + VMM_USER)).2 :=
      h.map (n := 0) (by decide) (by decide) (by decide) (by decide) rfl hinUse hnot (.inl hold)
        fun _ hi => .inl hi
    generalize (m.vmmMap space USER_CODE_ADDR code (VMM_PRESENT + VMM_USER)).2 = m₁ at hcode
    rcases halloc : m₁.pmm.pmmAllocPage with ⟨stack, pmm⟩
    dsimp only
    rw [halloc]
    dsimp only
    split
    · exact hcode.congr (n := 1) .refl .refl (by
        rw [Pmm.takePages, Pmm.takePages, halloc])
    · rename_i hstack
      exact hcode.map_new (by decide) (by decide) (by decide) (by decide) halloc hstack
        fun _ hi => .inl hi

end SpaceHeld

/-- The space follows the plan in the slots of its own. What a load maps elsewhere is in the
    plan too, but user mode does not see it. -/
structure Contained (m₀ : Machine) (space : Nat) (m : Machine) (p : Plan) : Prop
    extends SpaceHeld m₀ space p.pages m where
  pmm : p.pmm = m.pmm
  tables : ∀ i < ENTRIES, p.tables i = isPresent (entryAt m.mem space i)
  pages : ∀ v < 2 ^ 32, supervisor m₀.mem m₀.kernelSpace (pdIdx v) = false →
    p.pages (v / PAGE_SIZE) = userMapped m.mem space v

/-- A store to the address hits no table and no free page, and no byte of a page that was free
    at the start and that user mode reaches. -/
def Misses (m₀ m : Machine) (space virt : Nat) : Prop :=
  ∀ t, translate m.mem space virt = some t →
    ¬ Structural m.mem m₀.kernelSpace space AllSlots (t.addr / PAGE_SIZE * PAGE_SIZE) ∧
      t.addr / PAGE_SIZE ∉ m.pmm.freePages ∧
      (t.addr / PAGE_SIZE ∉ m₀.pmm.freePages ∨
        ∀ w < 2 ^ 32, userAddr m.mem space w ≠ some t.addr)

namespace Contained

variable {m₀ m : Machine} {space : Nat} {p : Plan}

theorem store (h : Contained m₀ space m p) {virt : Nat} (byte : UInt8)
    (hnot : ∀ t, translate m.mem space virt = some t →
      ¬ Structural m.mem m₀.kernelSpace space AllSlots (t.addr / PAGE_SIZE * PAGE_SIZE)) :
    Contained m₀ space (m.storeByte space virt byte) p := by
  obtain ⟨hk, hs, hpmm⟩ := h.inv.storeByte_outside byte hnot
  refine ⟨h.toSpaceHeld.congr (n := 0) hk hs hpmm, h.pmm.trans hpmm.symm, fun i hi => ?_,
    fun v hv hsup => ?_⟩
  · rw [hs.directory i hi]
    exact h.tables i hi
  · rw [userMapped_congr hs (pdIdx_lt hv)]
    exact h.pages v hv hsup

theorem map (h : Contained m₀ space m p) {page flags phys : Nat} {pmm : Pmm}
    (hwf : (LoadAction.map page flags).WellFormed) (halloc : m.pmm.pmmAllocPage = (phys, pmm))
    (hne : phys ≠ 0) :
    Contained m₀ space (vmmMap { m with pmm := pmm } space page phys flags).2
      (Plan.mapPage { p with pmm := pmm } page) := by
  obtain ⟨hpage, hflags, hpresent, huser⟩ := hwf
  obtain ⟨hkeeps, hphys⟩ := pmmAllocPage_page halloc
  obtain ⟨hphys, -, -⟩ := hphys hne
  have hinv : SpaceInv m.mem pmm m₀.kernelSpace space AllSlots := h.inv.congr .refl .refl hkeeps
  obtain ⟨htables, hpages⟩ := SpaceInv.vmmMap_view (m := { m with pmm := pmm }) hinv hpage hphys hflags
    hpresent huser (Prod.eta (vmmMap _ _ _ phys _)).symm
  rw [Plan.mapPage_eq (m := { m with pmm := pmm }) (p := { p with pmm := pmm }) rfl
    (h.tables _ (pdIdx_lt hpage)) phys flags]
  refine ⟨h.toSpaceHeld.map_new hpage hflags hpresent huser halloc hne fun i hi => ?_, rfl,
    fun i hi => ?_, fun v hv hsup => ?_⟩
  · exact (Bool.or_eq_true_iff.mp hi).imp_right fun hnew => eq_of_beq (Bool.and_eq_true_iff.mp hnew).2
  · rw [htables i hi, ← h.tables i hi]
  · -- what is added in a slot of the space's own
    have hadds : (!supervisor m.mem m₀.kernelSpace (pdIdx page) && v / PAGE_SIZE == page / PAGE_SIZE) =
        (v / PAGE_SIZE == page / PAGE_SIZE) := by
      by_cases hsame : v / PAGE_SIZE = page / PAGE_SIZE
      · rw [supervisor_congr h.directory (pdIdx_lt hpage), ← (page_eq_iff.mp hsame).1, hsup,
          Bool.not_false, Bool.true_and]
      · rw [beq_false_of_ne hsame, Bool.and_false]
    rw [hpages v hv]
    dsimp only
    rw [hadds, ← h.pages v hv hsup]

end Contained

/-! ## A load on its way -/

/-- A store to a page that user mode can use, or one that misses. -/
def StoreLands (m₀ : Machine) (space : Nat) (m : Machine) (virt : Nat) : Prop :=
  userMapped m.mem space virt = true ∨ Misses m₀ m space virt

/-- The rounds of a load that lands: no store hits a table, and pages are mapped in any slot. -/
abbrev LandingRounds (m₀ : Machine) (space : Nat) : Load → Plan → List LoadAction → Prop :=
  Rounds (fun l p => Contained m₀ space l.machine p) (StoreLands m₀ space) space

/-- A store that is allowed hits no table. -/
theorem Contained.not_table {m₀ m : Machine} {space virt : Nat} {p : Plan}
    (h : Contained m₀ space m p) (hvirt : virt < 2 ^ 32)
    (hstore : StoreLands m₀ space m virt) {t : Translation}
    (ht : translate m.mem space virt = some t) :
    ¬ Structural m.mem m₀.kernelSpace space AllSlots (t.addr / PAGE_SIZE * PAGE_SIZE) := by
  rcases hstore with huser | hmisses
  · exact (h.inv.not_structural_of_userMapped hvirt huser ht).2
  · exact (hmisses t ht).1

namespace KernelState

/-- The kernel's own map leads the address to no free page and to none of its tables, or
    nowhere. -/
def Harmless (k : KernelState) (v : Nat) : Prop :=
  ∀ t, translate k.machine.mem k.machine.kernelSpace v = some t →
    t.addr / PAGE_SIZE ∉ k.machine.pmm.freePages ∧
      t.addr / PAGE_SIZE * PAGE_SIZE ≠ k.machine.kernelSpace ∧
      ¬ HasTable k.machine.mem k.machine.kernelSpace AllSlots (t.addr / PAGE_SIZE * PAGE_SIZE)

/-- The load of the file into the new process writes to no table and to no free page. -/
structure LoadLands (k : KernelState) (file : Option Memory) : Prop where
  lands : k.createdPlan.lands k.Harmless (loadActions file)

theorem LoadStays.lands {k : KernelState} {file : Option Memory} (h : k.LoadStays file) :
    k.LoadLands file := ⟨Plan.lands_of_stays h⟩

end KernelState

section rounds

variable {k : KernelState} {space : Nat} {p : Plan}

theorem Contained.misses {m : Machine} (h : Contained k.machine space m p) {virt : Nat}
    (hvirt : virt < 2 ^ 32) (huser : userMapped m.mem space virt = false)
    (hlands : p.pages (virt / PAGE_SIZE) = true ∨ k.Harmless virt) :
    Misses k.machine m space virt := by
  intro t ht
  obtain ⟨n, hn⟩ := h.taken
  have hfree : ∀ i ∈ m.pmm.freePages, i ∈ k.machine.pmm.freePages := by
    intro i hi
    rw [hn, Pmm.freePages_takePages] at hi
    exact List.mem_of_mem_drop hi
  have hnot_free : ∀ {q : Pmm} {i : Nat}, q.testBit i = true → i ∉ q.freePages := by
    intro q i hused hmem
    exact Bool.false_ne_true ((Pmm.mem_freePages.mp hmem).2.symm.trans hused)
  have hindex : t.addr / PAGE_SIZE * PAGE_SIZE / PAGE_SIZE = t.addr / PAGE_SIZE :=
    Nat.mul_div_cancel _ (by decide)
  rcases h.others virt hvirt huser t ht with hapart | ⟨hunknown, t₀, ht₀, haddr⟩
  · have hused := hapart.inUse.used
    have hunreached := hapart.unreached
    rw [hindex] at hused hunreached
    refine ⟨hapart.not_table, hnot_free hused, hunreached.imp hnot_free fun hnone w hw hreach => ?_⟩
    exact hnone w hw _ hreach rfl
  · -- the page that the kernel has there
    obtain ⟨hpage, hkernel, htable⟩ :=
      (hlands.resolve_left fun htrue => Bool.false_ne_true (hunknown.symm.trans htrue)) t₀ ht₀
    rw [haddr] at hpage hkernel htable
    refine ⟨fun hstructural => ?_, fun hmem => hpage (hfree _ hmem), .inl hpage⟩
    have hused := (h.inv.inUse _ hstructural).used
    rw [hn, Pmm.testBit_takePages, hindex, Bool.or_eq_true] at hused
    have hold := hused.resolve_right fun hmem =>
      hpage (List.mem_of_mem_take (of_decide_eq_true hmem))
    exact (h.old_tables _ hstructural (by rw [hindex]; exact hold)).elim hkernel htable

theorem Contained.rounds {l : Load} (h : Contained k.machine space l.machine p)
    {as : List LoadAction} (hwf : ∀ a ∈ as, a.WellFormed) (hlands : p.lands k.Harmless as) :
    LandingRounds k.machine space l p as := by
  induction as generalizing l p with
  | nil => exact .nil h
  | cons a as ih =>
      have hrest : ∀ b ∈ as, b.WellFormed := fun b hb => hwf b (List.mem_cons_of_mem a hb)
      have hhead := hwf a List.mem_cons_self
      cases a with
      | store virt byte =>
          have hvirt : virt < 2 ^ 32 := hhead
          obtain ⟨hland, hlands⟩ := hlands
          have hstore : StoreLands k.machine space l.machine virt := by
            cases huser : userMapped l.machine.mem space virt with
            | true => exact .inl huser
            | false => exact .inr (h.misses hvirt huser hland)
          exact .store h hvirt hstore (ih (h.store byte fun t ht => h.not_table hvirt hstore ht) hrest
            hlands)
      | map page flags =>
          rcases halloc : l.machine.pmm.pmmAllocPage with ⟨phys, pmm⟩
          rw [Plan.lands, h.pmm, halloc] at hlands
          by_cases hzero : phys = 0
          · subst hzero
            exact .failed h halloc
          · exact .map h hhead halloc hzero (ih (h.map hhead halloc hzero) hrest (hlands hzero))

end rounds

/-! ## The space of a new process -/

namespace KernelState

variable {k k₁ : KernelState} {p userEntry userEsp space a : Nat} {m₁ m₂ : Machine}

theorem Ready.spaceHeld (h : k.Ready) (hcreate : k.machine.vmmCreateSpace = (space, m₁))
    (hspace : space ≠ 0) : SpaceHeld k.machine space (fun _ => false) m₁ := by
  have hkernel := h.kernelSpace.directory_inUse
  have htables : ∀ a, HasTable k.machine.mem k.machine.kernelSpace AllSlots a →
      InUse k.machine.pmm a := fun a ha => (h.kernelSpace.tables_inUse a ha).1
  obtain ⟨hinv, hsame, -, -⟩ := h.kernelSpace.vmmCreateSpace hcreate hspace
  obtain ⟨-, -, hmade⟩ := vmmCreateSpace_cases hkernel hcreate
  obtain ⟨-, hclear, -, hfill⟩ := hmade hspace
  have hcopied := vmmCreateSpace_copied hkernel htables hcreate hspace
  refine ⟨hinv, ⟨_, (vmmCreateSpace_pages hkernel h.zero_used hcreate).2 hspace⟩, hsame.directory,
    fun a ha hused => ?_, fun v hv _ t ht => .inr ⟨rfl, t, ?_, rfl⟩⟩
  · refine (hfill.structural hkernel hclear ha).resolve_right fun hfree => ?_
    exact Bool.false_ne_true (hfree.symm.trans hused)
  · rw [← hfill.translate_eq htables hcopied v hv]
    exact ht

/-- **A new process before the load.** -/
theorem Created.contained (hc : Created k k₁ p userEntry userEsp space a m₁ m₂) (h : k.Ready) :
    Contained k.machine space k₁.machine k.createdPlan := by
  have hfollows := hc.follows h
  have hheld : SpaceHeld k.machine space (fun _ => false) m₂ := by
    have hmade := h.spaceHeld hc.create hc.space_ne
    rw [← hc.install]
    by_cases hcode : k.userCodePhys = 0
    · rw [userInstallIntoSpace, if_pos (.inr hcode)]
      exact hmade
    · obtain ⟨hinUse, -, -⟩ := h.code hcode
      exact hmade.install (hinUse.keeps hmade.keeps) (h.code_free hc.create hc.space_ne hcode)
        hinUse.used
  obtain ⟨-, hk, hs⟩ := hheld.inv.untouched hc.stack.untouched hc.stack.keeps
  have hstack := hheld.congr (n := 2) hk hs hc.stack.pmm
  refine ⟨⟨hstack.inv, hstack.taken, hstack.directory, hstack.old_tables, fun v hv huser t ht => ?_⟩,
    hfollows.pmm, hfollows.tables, fun v hv _ => hfollows.pages v hv⟩
  exact (hstack.others v hv huser t ht).imp_right fun hkernel =>
    ⟨(hfollows.pages v hv).trans huser, hkernel.2⟩

end KernelState

end NemoOS
