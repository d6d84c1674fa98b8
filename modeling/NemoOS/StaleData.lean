import NemoOS.ContainedLoad
import NemoOS.ProcessPages
import NemoOS.TwoRuns

/-!
# Bytes that a new process finds in its pages

`pmm_alloc_page` hands out pages with the bytes they had. `vmm_map` clears the pages it
takes for tables and `alloc_kernel_stack` those of the kernel stack; the user stack and the
pages of the segments are not cleared. So a byte of such a page is the old one until a round
of the load stores to it.

`Fresh` follows one run and says which bytes are old; `Twin` follows two runs that start
from memories that differ in free pages, and says that user mode sees the same bytes in
both, except for the old ones.
-/

namespace NemoOS

open Words Bytes Machine

/-! ## One run -/

/-- A run that started with the memory `mem₀` and the page allocator `pmm₀`. The bytes that
    user mode sees at the addresses `s` are the old bytes of pages that were free, and no
    other address reaches them. -/
structure Fresh (mem₀ : Memory) (pmm₀ : Pmm) (kernel space : Nat) (s : Nat → Bool) (m : Machine) :
    Prop where
  inv : SpaceInv m.mem m.pmm kernel space AllSlots
  zero_used : m.pmm.testBit 0 = true
  pages : ∀ i ∈ m.pmm.freePages, i ∈ pmm₀.freePages
  free : ∀ x, x / PAGE_SIZE ∈ m.pmm.freePages → m.mem x = mem₀ x
  stale : ∀ v < 2 ^ 32, s v = true → ∀ a, userAddr m.mem space v = some a →
    m.mem a = mem₀ a ∧ a / PAGE_SIZE ∈ pmm₀.freePages
  distinct : ∀ v < 2 ^ 32, s v = true → ∀ w < 2 ^ 32, ∀ a, userAddr m.mem space v = some a →
    userAddr m.mem space w = some a → w = v

/-- Without old bytes in sight. -/
theorem fresh_of_free {mem₀ : Memory} {pmm₀ : Pmm} {kernel space : Nat} {m : Machine}
    (hinv : SpaceInv m.mem m.pmm kernel space AllSlots) (hzero : m.pmm.testBit 0 = true)
    (hpages : ∀ i ∈ m.pmm.freePages, i ∈ pmm₀.freePages)
    (hfree : ∀ x, x / PAGE_SIZE ∈ m.pmm.freePages → m.mem x = mem₀ x) :
    Fresh mem₀ pmm₀ kernel space (fun _ => false) m :=
  ⟨hinv, hzero, hpages, hfree, fun _ _ hfalse => absurd hfalse Bool.false_ne_true,
    fun _ _ hfalse => absurd hfalse Bool.false_ne_true⟩

/-- The addresses after a page is mapped, and after a byte is stored. -/
def staleMap (s : Nat → Bool) (page v : Nat) : Bool := s v || v / PAGE_SIZE == page / PAGE_SIZE

def staleStore (s : Nat → Bool) (virt v : Nat) : Bool := s v && v != virt

theorem staleMap_of_ne {s : Nat → Bool} {page v : Nat} (hne : v / PAGE_SIZE ≠ page / PAGE_SIZE) :
    staleMap s page v = s v := by
  rw [staleMap, beq_false_of_ne hne, Bool.or_false]

/-- A store to an address that user mode reaches. -/
theorem storeByte_of_userAddr {m : Machine} {space virt a : Nat}
    (ha : userAddr m.mem space virt = some a) (byte : UInt8) :
    m.storeByte space virt byte = { m with mem := Function.update m.mem a byte } := by
  obtain ⟨t, ht, rfl⟩ := exists_translate ha
  rw [Machine.storeByte, ht]

/-- The bytes outside the directories and the tables are those from before. -/
theorem MapEffect.mem_eq {m m' : Machine} {kernel space : Nat} (h : MapEffect m m' kernel space)
    {x : Nat} (hx : ¬ Structural m'.mem kernel space AllSlots (x / PAGE_SIZE * PAGE_SIZE)) :
    m'.mem x = m.mem x := by
  by_contra hne
  exact hx (h.writes x hne)

/-- A page that is free is no table. -/
theorem MapEffect.free {m m' : Machine} {kernel space : Nat} (h : MapEffect m m' kernel space)
    {x : Nat} (hx : x / PAGE_SIZE ∈ m'.pmm.freePages) : m'.mem x = m.mem x := by
  apply h.mem_eq
  apply h.inv.not_structural
  rw [Nat.mul_div_cancel _ (by decide)]
  exact (Pmm.mem_freePages.mp hx).2

/-! ### Addresses with a byte of their own -/

/-- No other address reaches the byte of an address in `s`. -/
def Alone (m : Memory) (space : Nat) (s : Nat → Bool) : Prop :=
  ∀ v < 2 ^ 32, s v = true → ∀ w < 2 ^ 32, ∀ a, userAddr m space v = some a →
    userAddr m space w = some a → w = v

/-- A page that was free is mapped. -/
theorem Alone.map {m m' : Memory} {pmm : Pmm} {kernel space virt phys : Nat} {s : Nat → Bool}
    (h : Alone m space s) (hinv : SpaceInv m pmm kernel space AllSlots) (hphys : IsPage phys)
    (hclear : pmm.testBit (phys / PAGE_SIZE) = false)
    (hview : ∀ v < 2 ^ 32, ∀ a, userAddr m' space v = some a →
      v / PAGE_SIZE = virt / PAGE_SIZE ∧ a = phys + v % PAGE_SIZE ∨
        v / PAGE_SIZE ≠ virt / PAGE_SIZE ∧ userAddr m space v = some a) :
    Alone m' space (staleMap s virt) := by
  -- an address outside the page reaches a page that was in use
  have hother : ∀ v < 2 ^ 32, ∀ w, ∀ a, userAddr m space v = some a → a ≠ phys + w % PAGE_SIZE := by
    rintro v hv w a ha rfl
    obtain ⟨hused, -⟩ := hinv.userAddr_page hv ha
    rw [(page_add hphys).1, hclear] at hused
    exact Bool.false_ne_true hused
  intro v hv hs w hw a hva hwa
  rcases hview v hv a hva with ⟨hv_page, rfl⟩ | ⟨hv_page, hv_old⟩
  · rcases hview w hw _ hwa with ⟨hw_page, heq⟩ | ⟨-, hw_old⟩
    · have hpages_eq := hv_page.trans hw_page.symm
      rw [PAGE_SIZE] at *
      omega
    · exact absurd rfl (hother w hw v _ hw_old)
  · rcases hview w hw a hwa with ⟨-, heq⟩ | ⟨-, hw_old⟩
    · exact absurd heq (hother v hv w a hv_old)
    · rw [staleMap_of_ne hv_page] at hs
      exact h v hv hs w hw a hv_old hw_old

/-- The tables stay as they are. -/
theorem Alone.congr {m m' : Memory} {space : Nat} {s s' : Nat → Bool} (h : Alone m space s)
    (hs : SameTables m m' space AllSlots) (hsub : ∀ v, s' v = true → s v = true) :
    Alone m' space s' := by
  intro v hv hsv w hw a hva hwa
  rw [userAddr_congr hs (pdIdx_lt hv)] at hva
  rw [userAddr_congr hs (pdIdx_lt hw)] at hwa
  exact h v hv (hsub v hsv) w hw a hva hwa

section step

variable {mem₀ : Memory} {pmm₀ : Pmm} {kernel space : Nat} {s : Nat → Bool} {m : Machine}

/-- A page from the allocator is mapped. -/
theorem Fresh.map (h : Fresh mem₀ pmm₀ kernel space s m) {virt phys flags : Nat} {pmm : Pmm}
    (hvirt : virt < 2 ^ 32) (hflags : flags < PAGE_SIZE) (hflags_present : isPresent flags = true)
    (halloc : m.pmm.pmmAllocPage = (phys, pmm)) (hne : phys ≠ 0) :
    Fresh mem₀ pmm₀ kernel space (staleMap s virt)
      (vmmMap { m with pmm := pmm } space virt phys flags).2 := by
  obtain ⟨hkeeps, hpage⟩ := pmmAllocPage_page halloc
  obtain ⟨hphys, hclear, hinUse⟩ := hpage hne
  obtain ⟨-, -, hlt⟩ := pmmAllocPage_used halloc
  obtain ⟨-, -, hlt, -⟩ := hlt hne
  have hfree := Pmm.mem_freePages.mpr ⟨hlt, hclear⟩
  have hinv : SpaceInv m.mem pmm kernel space AllSlots := h.inv.congr .refl .refl hkeeps
  have hnot := h.inv.not_structural hclear
  have heffect := SpaceInv.mapEffect (m := { m with pmm := pmm }) hinv hvirt hinUse hnot hflags
  have hnot' := heffect.not_structural hinUse hnot
  replace heffect := heffect.of_alloc halloc
  have hview := fun v hv a => SpaceInv.userAddr_vmmMap (m := { m with pmm := pmm }) (v := v) (a := a)
    hinv hvirt hphys hflags hflags_present hv
  generalize (vmmMap { m with pmm := pmm } space virt phys flags).2 = m' at *
  constructor
  · exact heffect.inv
  · exact heffect.keeps 0 h.zero_used
  · exact fun i hi => h.pages i (heffect.keeps.freePages heffect.total hi)
  · exact fun x hx => (heffect.free hx).trans
      (h.free x (heffect.keeps.freePages heffect.total hx))
  · intro v hv hs a ha
    rcases hview v hv a ha with ⟨-, rfl⟩ | ⟨hne_page, ha_old⟩
    · obtain ⟨hindex, hstart⟩ := page_add (v := v) hphys
      refine ⟨?_, ?_⟩
      · rw [heffect.mem_eq (by rw [hstart]; exact hnot')]
        exact h.free _ (by rw [hindex]; exact hfree)
      · rw [hindex]
        exact h.pages _ hfree
    · rw [staleMap_of_ne hne_page] at hs
      rw [heffect.mem_eq (heffect.inv.userAddr_page hv ha).2]
      exact h.stale v hv hs a ha_old
  · exact Alone.map h.distinct h.inv hphys hclear hview

/-- A store to the address hits no table, no free page and no old byte other than its own. -/
def StoresApart (kernel space : Nat) (s : Nat → Bool) (m : Machine) (virt : Nat) : Prop :=
  ∀ t, translate m.mem space virt = some t →
    ¬ Structural m.mem kernel space AllSlots (t.addr / PAGE_SIZE * PAGE_SIZE) ∧
      t.addr / PAGE_SIZE ∉ m.pmm.freePages ∧
      ∀ v < 2 ^ 32, s v = true → userAddr m.mem space v = some t.addr → v = virt

theorem Fresh.store (h : Fresh mem₀ pmm₀ kernel space s m) {virt : Nat} (byte : UInt8)
    (hstores : StoresApart kernel space s m virt) :
    Fresh mem₀ pmm₀ kernel space (staleStore s virt) (m.storeByte space virt byte) := by
  obtain ⟨hk, hs, hpmm⟩ := h.inv.storeByte_outside byte fun t ht => (hstores t ht).1
  have hbyte : ∀ x, (∀ t, translate m.mem space virt = some t → x ≠ t.addr) →
      (m.storeByte space virt byte).mem x = m.mem x := by
    intro x hx
    rw [Machine.storeByte]
    cases ht : translate m.mem space virt with
    | none => rfl
    | some t => exact Function.update_of_ne (hx t ht) _ _
  constructor
  · refine h.inv.congr hk hs ?_
    rw [hpmm]
    exact fun _ hpage => hpage
  · rw [hpmm]
    exact h.zero_used
  · rw [hpmm]
    exact h.pages
  · intro x hx
    rw [hpmm] at hx
    rw [hbyte x fun t ht heq => (hstores t ht).2.1 (heq ▸ hx)]
    exact h.free x hx
  · intro v hv hstale b hb
    rw [staleStore, Bool.and_eq_true, bne_iff_ne] at hstale
    rw [userAddr_congr hs (pdIdx_lt hv)] at hb
    rw [hbyte b fun t ht heq => hstale.2 ((hstores t ht).2.2 v hv hstale.1 (heq ▸ hb))]
    exact h.stale v hv hstale.1 b hb
  · refine Alone.congr h.distinct hs fun v hstale => ?_
    rw [staleStore, Bool.and_eq_true] at hstale
    exact hstale.1

/-- The stores of a load that lands. -/
theorem Fresh.storesApart {m₀ : Machine} (h : Fresh mem₀ m₀.pmm m₀.kernelSpace space s m) {virt : Nat}
    (hvirt : virt < 2 ^ 32) (hstore : StoreLands m₀ space m virt) :
    StoresApart m₀.kernelSpace space s m virt := by
  intro t ht
  rcases hstore with huser | hmisses
  · obtain ⟨hused, hnot⟩ := h.inv.not_structural_of_userMapped hvirt huser ht
    have haddr : userAddr m.mem space virt = some t.addr := by
      obtain ⟨-, -, rfl⟩ := translate_eq_some ht
      exact userAddr_eq_some.mpr ⟨huser, rfl⟩
    refine ⟨hnot, fun hmem => ?_, fun v hv hs hv_addr =>
      (h.distinct v hv hs virt hvirt _ hv_addr haddr).symm⟩
    exact Bool.false_ne_true ((Pmm.mem_freePages.mp hmem).2.symm.trans hused)
  · obtain ⟨hnot, hfree, hreach⟩ := hmisses t ht
    refine ⟨hnot, hfree, fun v hv hs hv_addr => ?_⟩
    rcases hreach with hold | hnone
    · exact absurd (h.stale v hv hs _ hv_addr).2 hold
    · exact absurd hv_addr (hnone v hv)

/-- The kernel stack is taken. -/
theorem Fresh.stack (h : Fresh mem₀ pmm₀ kernel space s m) {m' : Machine} {b : Nat}
    (hstack : StackTaken m m' b) : Fresh mem₀ pmm₀ kernel space s m' := by
  obtain ⟨hinv, -, hs⟩ := h.inv.untouched hstack.untouched hstack.keeps
  have hview : ∀ v < 2 ^ 32, userAddr m'.mem space v = userAddr m.mem space v :=
    fun v hv => userAddr_congr hs (pdIdx_lt hv)
  have hold : ∀ i ∈ m'.pmm.freePages, i ∈ m.pmm.freePages := fun i hi =>
    hstack.keeps.freePages hstack.total hi
  constructor
  · exact hinv
  · exact hstack.keeps 0 h.zero_used
  · exact fun i hi => h.pages i (hold i hi)
  · intro x hx
    have hclear := (Pmm.mem_freePages.mp hx).2
    rw [hstack.bits, Bool.or_eq_false_iff, Bool.or_eq_false_iff, decide_eq_false_iff_not,
      decide_eq_false_iff_not] at hclear
    rw [hstack.writes x (Ne.symm hclear.1.2) (Ne.symm hclear.2)]
    exact h.free x (hold _ hx)
  · intro v hv hstale a ha
    rw [hview v hv] at ha
    rw [hstack.untouched a (h.inv.userAddr_page hv ha).1]
    exact h.stale v hv hstale a ha
  · exact Alone.congr h.distinct hs fun _ hstale => hstale

end step

/-! ## Two runs -/

/-- Two runs from the memories `mem₀` and `mem₀'` that have made the same calls. -/
structure Twin (mem₀ mem₀' : Memory) (pmm₀ : Pmm) (kernel space : Nat) (s : Nat → Bool)
    (m m' : Machine) : Prop where
  fresh : Fresh mem₀ pmm₀ kernel space s m
  fresh' : Fresh mem₀' pmm₀ kernel space s m'
  pmm : m'.pmm = m.pmm
  tables : ∀ a, Structural m.mem kernel space AllSlots a →
    ∀ x, x / PAGE_SIZE = a / PAGE_SIZE → m'.mem x = m.mem x
  visible : ∀ v < 2 ^ 32, s v = false → ∀ a, userAddr m.mem space v = some a → m'.mem a = m.mem a

namespace Twin

variable {mem₀ mem₀' : Memory} {pmm₀ : Pmm} {kernel space : Nat} {s : Nat → Bool} {m m' : Machine}

/-- Two memories that agree on the pages in use. -/
theorem of_untouched (hfresh : Fresh mem₀ pmm₀ kernel space s m)
    (hfresh' : Fresh mem₀' pmm₀ kernel space s m') (hpmm : m'.pmm = m.pmm)
    (hmem : Untouched m.pmm m.mem m'.mem) : Twin mem₀ mem₀' pmm₀ kernel space s m m' := by
  refine ⟨hfresh, hfresh', hpmm, fun a ha x hx => ?_, fun v hv _ a ha => ?_⟩
  · apply hmem
    rw [hx]
    exact (hfresh.inv.inUse a ha).used
  · exact hmem a (hfresh.inv.userAddr_page hv ha).1

theorem userAddr_eq (h : Twin mem₀ mem₀' pmm₀ kernel space s m m') {v : Nat} (hv : v < 2 ^ 32) :
    userAddr m'.mem space v = userAddr m.mem space v :=
  userAddr_congr (h.fresh.inv.sameTables_of_bytes h.tables).2 (pdIdx_lt hv)

theorem map (h : Twin mem₀ mem₀' pmm₀ kernel space s m m') {virt phys flags : Nat} {pmm : Pmm}
    (hvirt : virt < 2 ^ 32) (hflags : flags < PAGE_SIZE) (hflags_present : isPresent flags = true)
    (halloc : m.pmm.pmmAllocPage = (phys, pmm)) (hne : phys ≠ 0) :
    Twin mem₀ mem₀' pmm₀ kernel space (staleMap s virt)
      (vmmMap { m with pmm := pmm } space virt phys flags).2
      (vmmMap { m' with pmm := pmm } space virt phys flags).2 := by
  obtain ⟨hkeeps, hpage⟩ := pmmAllocPage_page halloc
  obtain ⟨hphys, hclear, hinUse⟩ := hpage hne
  have hinv : SpaceInv m.mem pmm kernel space AllSlots := h.fresh.inv.congr .refl .refl hkeeps
  have heffect := SpaceInv.mapEffect (m := { m with pmm := pmm }) hinv hvirt hinUse
    (h.fresh.inv.not_structural hclear) hflags
  have hentry : entryAt m'.mem space (pdIdx virt) = entryAt m.mem space (pdIdx virt) :=
    (h.fresh.inv.sameTables_of_bytes h.tables).2.directory _ (pdIdx_lt hvirt)
  have hsame : Machine.pmm { m' with pmm := pmm } = Machine.pmm { m with pmm := pmm } := rfl
  obtain ⟨hpmm, hmem⟩ := vmmMap_twin hinv.isPage_space hvirt hsame (hkeeps 0 h.fresh.zero_used)
    hentry phys flags
  refine ⟨h.fresh.map hvirt hflags hflags_present halloc hne, h.fresh'.map hvirt hflags
    hflags_present (by rw [h.pmm]; exact halloc) hne, hpmm, fun a ha x hx => ?_,
    fun v hv hs a ha => ?_⟩
  · apply hmem
    rcases heffect.structural a ha with hold | hnew
    · exact .inl (h.tables a hold x hx)
    · rw [hx]
      exact .inr ⟨hnew, (heffect.inv.inUse a ha).used⟩
  · apply hmem
    left
    rcases SpaceInv.userAddr_vmmMap (m := { m with pmm := pmm }) hinv hvirt hphys hflags
      hflags_present hv ha with
      ⟨hpage_eq, -⟩ | ⟨hpage_ne, hold⟩
    · rw [staleMap, hpage_eq, beq_self_eq_true, Bool.or_true] at hs
      exact absurd hs.symm Bool.false_ne_true
    · rw [staleMap_of_ne hpage_ne] at hs
      exact h.visible v hv hs a hold

theorem store (h : Twin mem₀ mem₀' pmm₀ kernel space s m m') {virt : Nat} (hvirt : virt < 2 ^ 32)
    (byte : UInt8) (hstores : StoresApart kernel space s m virt) :
    Twin mem₀ mem₀' pmm₀ kernel space (staleStore s virt) (m.storeByte space virt byte)
      (m'.storeByte space virt byte) := by
  obtain ⟨hk', hs'⟩ := h.fresh.inv.sameTables_of_bytes h.tables
  have htranslate := hs'.translate_eq (pdIdx_lt hvirt)
  have hstores' : StoresApart kernel space s m' virt := by
    intro t ht
    rw [htranslate] at ht
    obtain ⟨hnot, hfree, halone⟩ := hstores t ht
    refine ⟨fun ha => hnot (structural_congr hk'.directory hs'.directory ha), by rwa [h.pmm],
      fun v hv hsv hva => halone v hv hsv ?_⟩
    rw [← h.userAddr_eq hv]
    exact hva
  obtain ⟨hk, hs, hpmm⟩ := h.fresh.inv.storeByte_outside byte fun t ht => (hstores t ht).1
  obtain ⟨-, -, hpmm'⟩ := h.fresh'.inv.storeByte_outside byte fun t ht => (hstores' t ht).1
  have hsame : ∀ x, ((∀ t, translate m.mem space virt = some t → x ≠ t.addr) →
      m'.mem x = m.mem x) → (m'.storeByte space virt byte).mem x = (m.storeByte space virt byte).mem x := by
    intro x hx
    rw [Machine.storeByte, Machine.storeByte, htranslate]
    cases ht : translate m.mem space virt with
    | none => exact hx fun t hsome => absurd (ht.symm.trans hsome) (Option.some_ne_none t).symm
    | some t =>
        dsimp only
        by_cases heq : x = t.addr
        · rw [heq, Function.update_self, Function.update_self]
        · rw [Function.update_of_ne heq, Function.update_of_ne heq]
          exact hx fun t' ht' => Option.some.inj (ht.symm.trans ht') ▸ heq
  refine ⟨h.fresh.store byte hstores, h.fresh'.store byte hstores', by rw [hpmm, hpmm', h.pmm],
    fun b hb x hx => ?_, fun v hv hstale b hb => ?_⟩
  · exact hsame x fun _ => h.tables b (structural_congr hk.directory hs.directory hb) x hx
  · rw [userAddr_congr hs (pdIdx_lt hv)] at hb
    refine hsame b fun hne => h.visible v hv ?_ b hb
    by_contra htrue
    rw [Bool.not_eq_false] at htrue
    rw [staleStore, htrue, Bool.true_and, bne_eq_false_iff_eq] at hstale
    subst hstale
    obtain ⟨t, ht, haddr⟩ := exists_translate hb
    exact hne t ht haddr.symm

theorem stack (h : Twin mem₀ mem₀' pmm₀ kernel space s m m') {m₁ m₁' : Machine} {b b' : Nat}
    (hstack : StackTaken m m₁ b) (hstack' : StackTaken m' m₁' b') :
    Twin mem₀ mem₀' pmm₀ kernel space s m₁ m₁' := by
  obtain ⟨-, hk, hs⟩ := h.fresh.inv.untouched hstack.untouched hstack.keeps
  have hsame : ∀ x, m.pmm.testBit (x / PAGE_SIZE) = true → m'.mem x = m.mem x →
      m₁'.mem x = m₁.mem x := by
    intro x hx hsame
    rw [hstack'.untouched x (by rw [h.pmm]; exact hx), hstack.untouched x hx, hsame]
  refine ⟨h.fresh.stack hstack, h.fresh'.stack hstack', ?_, fun a ha x hx => ?_,
    fun v hv hstale a ha => ?_⟩
  · rw [hstack.pmm, hstack'.pmm, h.pmm]
  · have hold := structural_congr hk.directory hs.directory ha
    exact hsame x (by rw [hx]; exact (h.fresh.inv.inUse a hold).used) (h.tables a hold x hx)
  · rw [userAddr_congr hs (pdIdx_lt hv)] at ha
    exact hsame a (h.fresh.inv.userAddr_page hv ha).1 (h.visible v hv hstale a ha)

end Twin

/-! ## The load -/

/-- The rounds on the plan, with the addresses of old bytes. -/
def Plan.stale (p : Plan) (s : Nat → Bool) : List LoadAction → Plan × (Nat → Bool)
  | [] => (p, s)
  | .map page _ :: rest =>
      let (phys, pmm) := p.pmm.pmmAllocPage
      if phys = 0 then ({ p with pmm := pmm }, s)
      else (mapPage { p with pmm := pmm } page).stale (staleMap s page) rest
  | .store virt _ :: rest => p.stale (staleStore s virt) rest

theorem Plan.stale_map {p : Plan} {s : Nat → Bool} (page flags : Nat) (rest : List LoadAction)
    (hne : p.pmm.pmmAllocPage.1 ≠ 0) :
    p.stale s (.map page flags :: rest) =
      (mapPage { p with pmm := p.pmm.pmmAllocPage.2 } page).stale (staleMap s page) rest :=
  if_neg hne

section stores

variable {js : List Nat} {f : Nat → Nat} {b : Nat → UInt8} {p : Plan}

/-- Rounds that only store. -/
theorem Plan.stays_stores {sup : Nat → Bool} (hpages : ∀ j ∈ js, p.pages (f j / PAGE_SIZE) = true) :
    p.stays sup (js.map fun j => .store (f j) (b j)) = true := by
  induction js with
  | nil => rfl
  | cons j js ih =>
      rw [List.map_cons, stays, hpages j List.mem_cons_self, Bool.true_and]
      exact ih fun i hi => hpages i (List.mem_cons_of_mem j hi)

theorem Plan.stale_stores_of_false {s : Nat → Bool} {v : Nat} (hs : s v = false) :
    (p.stale s (js.map fun j => .store (f j) (b j))).2 v = false := by
  induction js generalizing s with
  | nil => exact hs
  | cons j js ih =>
      rw [List.map_cons, stale]
      apply ih
      rw [staleStore, hs, Bool.false_and]

theorem Plan.stale_stores {s : Nat → Bool} {j v : Nat} (hj : j ∈ js) (hv : f j = v) :
    (p.stale s (js.map fun j => .store (f j) (b j))).2 v = false := by
  induction js generalizing s with
  | nil => exact absurd hj List.not_mem_nil
  | cons i js ih =>
      rw [List.map_cons, stale]
      rcases List.mem_cons.mp hj with rfl | hmem
      · apply stale_stores_of_false
        rw [staleStore, hv, bne_self_eq_false, Bool.and_false]
      · exact ih hmem

end stores

/-- A page that is mapped and filled. -/
theorem Plan.covers_page {p : Plan} {sup : Nat → Bool} {page : Nat} (flags : Nat) (b : Nat → UInt8)
    (hpage : page % PAGE_SIZE = 0) (hin : page + PAGE_SIZE ≤ 2 ^ 32)
    (hsup : sup (pdIdx page) = false) (hphys : p.pmm.pmmAllocPage.1 ≠ 0)
    (htable : p.pmm.pmmAllocPage.2.pmmAllocPage.1 ≠ 0) {as : List LoadAction}
    (has : as = .map page flags ::
      (List.range PAGE_SIZE).map fun j => .store (u32 (page + j)) (b j)) :
    p.stays sup as = true ∧ ∀ v, (p.stale (fun _ => false) as).2 v = false := by
  have hstored : ∀ j ∈ List.range PAGE_SIZE,
      u32 (page + j) = page + j ∧ (page + j) / PAGE_SIZE = page / PAGE_SIZE := by
    intro j hj
    rw [List.mem_range] at hj
    refine ⟨u32_of_lt (by omega), ?_⟩
    rw [PAGE_SIZE] at *
    omega
  rw [has]
  constructor
  · rw [stays_map _ _ _ hphys, hsup, Bool.not_false, Bool.true_and]
    apply stays_stores
    intro j hj
    rw [(hstored j hj).1, (hstored j hj).2]
    exact pages_mapPage htable
  · intro v
    rw [stale_map _ _ _ hphys]
    by_cases hsame : v / PAGE_SIZE = page / PAGE_SIZE
    · have hj : v - page ∈ List.range PAGE_SIZE := by
        rw [List.mem_range]
        rw [PAGE_SIZE] at *
        omega
      apply stale_stores hj
      rw [(hstored _ hj).1]
      rw [PAGE_SIZE] at *
      omega
    · apply stale_stores_of_false
      rw [staleMap_of_ne hsame]

/-- Two loads of a file whose rounds land. -/
theorem Twin.rounds {mem₀ mem₀' : Memory} {space : Nat} {s : Nat → Bool} {m₀ : Machine}
    {I : Load → Plan → Prop} (hpmm : ∀ l p, I l p → p.pmm = l.machine.pmm) {l l' : Load} {p : Plan}
    {as : List LoadAction} (hrounds : Rounds I (StoreLands m₀ space) space l p as)
    (h : Twin mem₀ mem₀' m₀.pmm m₀.kernelSpace space s l.machine l'.machine) :
    I (l.perform space space as).2 (p.stale s as).1 ∧
      Twin mem₀ mem₀' m₀.pmm m₀.kernelSpace space (p.stale s as).2
        (l.perform space space as).2.machine (l'.perform space space as).2.machine := by
  induction hrounds generalizing l' s with
  | nil hload => exact ⟨hload, h⟩
  | @store l p virt byte as hload hvirt hstore _ ih =>
      rw [Load.perform_cons, Load.perform_cons, Plan.stale]
      exact ih (h.store hvirt byte (h.fresh.storesApart hvirt hstore))
  | @failed l p page flags as pmm hload halloc =>
      have halloc' : l'.machine.pmm.pmmAllocPage = (0, pmm) := by
        rw [h.pmm]
        exact halloc
      have hnone := Pmm.pmmAllocPage_eq_of_zero h.fresh.zero_used (by rw [halloc])
      rw [halloc] at hnone
      obtain rfl : pmm = l.machine.pmm := (Prod.ext_iff.mp hnone).2
      have hsame : { l'.machine with pmm := l.machine.pmm } = l'.machine := by rw [← h.pmm]
      have hplan : { p with pmm := l.machine.pmm } = p := by rw [← hpmm _ _ hload]
      rw [Load.perform_cons, Load.perform_cons, Load.act_map_none space space page flags halloc,
        Load.act_map_none space space page flags halloc', if_neg Bool.false_ne_true,
        if_neg Bool.false_ne_true, Plan.stale, hpmm _ _ hload, halloc]
      dsimp only
      rw [if_pos rfl, hsame, hplan]
      exact ⟨hload, h⟩
  | @map l p page flags phys as pmm hload hwf halloc hne _ ih =>
      have halloc' : l'.machine.pmm.pmmAllocPage = (phys, pmm) := by
        rw [h.pmm]
        exact halloc
      rw [Load.perform_cons, Load.perform_cons,
        Load.act_map_some space space page flags halloc hne,
        Load.act_map_some space space page flags halloc' hne, if_pos rfl, if_pos rfl, Plan.stale,
        hpmm _ _ hload, halloc]
      dsimp only
      rw [if_neg hne]
      exact ih (h.map hwf.1 hwf.2.1 hwf.2.2.1 halloc hne)

/-! ## The creation -/

/-- A page in use is mapped, with no old bytes in sight. -/
theorem Fresh.mapUsed {mem₀ : Memory} {pmm₀ : Pmm} {kernel space : Nat} {m : Machine}
    (h : Fresh mem₀ pmm₀ kernel space (fun _ => false) m) {virt phys flags : Nat}
    (hvirt : virt < 2 ^ 32) (hphys : InUse m.pmm phys)
    (hnot : ¬ Structural m.mem kernel space AllSlots phys) (hflags : flags < PAGE_SIZE) :
    Fresh mem₀ pmm₀ kernel space (fun _ => false) (m.vmmMap space virt phys flags).2 := by
  have heffect := h.inv.mapEffect hvirt hphys hnot hflags
  have hold : ∀ i ∈ (m.vmmMap space virt phys flags).2.pmm.freePages, i ∈ m.pmm.freePages :=
    fun i hi => heffect.keeps.freePages heffect.total hi
  exact fresh_of_free heffect.inv (heffect.keeps 0 h.zero_used) (fun i hi => h.pages i (hold i hi))
    fun x hx => (heffect.free hx).trans (h.free x (hold _ hx))

namespace KernelState

/-- The states differ in the bytes of free pages only. -/
structure SameButFree (k k' : KernelState) : Prop where
  pmm : k'.machine.pmm = k.machine.pmm
  kernelSpace : k'.machine.kernelSpace = k.machine.kernelSpace
  userCodePhys : k'.userCodePhys = k.userCodePhys
  sys : k'.sys = k.sys
  mem : ∀ x, k'.machine.mem x ≠ k.machine.mem x → x / PAGE_SIZE ∈ k.machine.pmm.freePages

theorem SameButFree.refl (k : KernelState) : k.SameButFree k :=
  ⟨rfl, rfl, rfl, rfl, fun _ hne => absurd rfl hne⟩

/-- The addresses of old bytes before the load: the user stack. -/
def oldStack (k : KernelState) : Nat → Bool :=
  if k.userCodePhys = 0 then fun _ => false else staleMap (fun _ => false) USER_STACK_ADDR

section creation

variable {k k' : KernelState} (h : k.Ready) (hsame : k.SameButFree k')

include hsame

theorem SameButFree.untouched : Untouched k.machine.pmm k.machine.mem k'.machine.mem := by
  intro x hx
  by_contra hne
  rw [(Pmm.mem_freePages.mp (hsame.mem x hne)).2] at hx
  exact Bool.false_ne_true hx

include h

theorem SameButFree.ready : k'.Ready := by
  have hmem := hsame.untouched
  have htables : SameTables k.machine.mem k'.machine.mem k.machine.kernelSpace AllSlots :=
    ⟨hmem.sameDirectory h.kernelSpace.directory_inUse, fun i hi hpresent j hj =>
      hmem.entryAt_eq (h.kernelSpace.tables_inUse _ ⟨i, hi, hpresent, rfl⟩).1 hj⟩
  refine ⟨h.kernelSpace.congr hsame.kernelSpace htables ?_, ?_, ?_⟩
  · rw [hsame.pmm]
    exact fun _ hpage => hpage
  · rw [hsame.pmm]
    exact h.zero_used
  · rw [hsame.userCodePhys, hsame.pmm, hsame.kernelSpace]
    intro hcode
    obtain ⟨hinUse, hne, hnot⟩ := h.code hcode
    exact ⟨hinUse, hne, fun ha => hnot (htables.directory.hasTable ha)⟩

variable {space space' : Nat} {m₁ m₁' m₂ m₂' : Machine}

omit hsame in
/-- A new space has no old bytes. -/
theorem Ready.fresh_space (hcreate : k.machine.vmmCreateSpace = (space, m₁)) (hspace : space ≠ 0) :
    Fresh k.machine.mem k.machine.pmm k.machine.kernelSpace space (fun _ => false) m₁ := by
  obtain ⟨hinv, -, -, hkeeps⟩ := h.kernelSpace.vmmCreateSpace hcreate hspace
  have hpages := (vmmCreateSpace_pages h.kernelSpace.directory_inUse h.zero_used hcreate).2 hspace
  apply fresh_of_free hinv (hkeeps 0 h.zero_used)
  · intro i hi
    rw [hpages, Pmm.freePages_takePages] at hi
    exact List.mem_of_mem_drop hi
  · exact fun x hx => vmmCreateSpace_free hcreate hspace (Pmm.mem_freePages.mp hx).2

/-- The two runs up to the kernel stack. -/
theorem SameButFree.twin_install (hcreate : k.machine.vmmCreateSpace = (space, m₁))
    (hcreate' : k'.machine.vmmCreateSpace = (space', m₁')) (hspace : space ≠ 0)
    (hinstall : m₁.userInstallIntoSpace k.userCodePhys space = m₂)
    (hinstall' : m₁'.userInstallIntoSpace k'.userCodePhys space' = m₂')
    (hfree : m₂.pmm.freePages ≠ []) :
    space' = space ∧ Twin k.machine.mem k'.machine.mem k.machine.pmm k.machine.kernelSpace space
      k.oldStack m₂ m₂' := by
  obtain ⟨rfl, htwin⟩ := vmmCreateSpace_twin h.kernelSpace.directory_inUse
    (fun a ha => (h.kernelSpace.tables_inUse a ha).1) hsame.pmm hsame.kernelSpace hsame.untouched
    hcreate hcreate'
  obtain ⟨hpmm₁, -, hmem₁⟩ := htwin hspace
  have hfresh := h.fresh_space hcreate hspace
  have hfresh' := (hsame.ready h).fresh_space hcreate' hspace
  rw [hsame.pmm, hsame.kernelSpace] at hfresh'
  rw [hsame.userCodePhys] at hinstall'
  refine ⟨rfl, ?_⟩
  by_cases hcode : k.userCodePhys = 0
  · rw [userInstallIntoSpace, if_pos (.inr hcode)] at hinstall hinstall'
    subst hinstall hinstall'
    rw [oldStack, if_pos hcode]
    exact .of_untouched hfresh hfresh' hpmm₁ hmem₁
  · have hvirt : USER_CODE_ADDR < 2 ^ 32 := by decide
    have hflags : VMM_PRESENT + VMM_USER < PAGE_SIZE := by decide
    have hinUse := hfresh.inv.inUse space' (.inr (.inl rfl))
    obtain ⟨hcode_used, -, -⟩ := h.code hcode
    obtain ⟨-, -, -, hkeeps⟩ := h.kernelSpace.vmmCreateSpace hcreate hspace
    have hcode₁ := hcode_used.keeps hkeeps
    have hnot := h.code_free hcreate hspace hcode
    have hnot' := (hsame.ready h).code_free hcreate' hspace (by rw [hsame.userCodePhys]; exact hcode)
    rw [hsame.kernelSpace, hsame.userCodePhys] at hnot'
    obtain ⟨hpmm₂, hmem₂⟩ := vmmMap_untouched hinUse.toIsPage hvirt hpmm₁ hfresh.zero_used hinUse.used
      hmem₁ k.userCodePhys (VMM_PRESENT + VMM_USER)
    have hmapped := hfresh.mapUsed hvirt hcode₁ hnot hflags
    have hmapped' := hfresh'.mapUsed hvirt (by rw [hpmm₁]; exact hcode₁) hnot' hflags
    rcases hmap : m₁.vmmMap space' USER_CODE_ADDR k.userCodePhys (VMM_PRESENT + VMM_USER) with
      ⟨ok, m₃⟩
    rcases hmap' : m₁'.vmmMap space' USER_CODE_ADDR k.userCodePhys (VMM_PRESENT + VMM_USER) with
      ⟨ok', m₃'⟩
    rw [hmap] at hpmm₂ hmem₂ hmapped
    rw [hmap'] at hpmm₂ hmem₂ hmapped'
    dsimp only at hpmm₂ hmem₂ hmapped hmapped'
    obtain ⟨-, -, hcalls⟩ := hfresh.inv.install_calls hcode₁ hnot hfresh.zero_used hspace hcode hmap
      hinstall
    rcases hcalls with ⟨hnil, rfl⟩ | ⟨f, rest, pmm, -, halloc, hf, -, -, hmap₂⟩
    · exact absurd hnil hfree
    rw [Machine.userInstallIntoSpace, if_neg (not_or.mpr ⟨hspace, hcode⟩), hmap'] at hinstall'
    dsimp only at hinstall'
    rw [hpmm₂, halloc] at hinstall'
    dsimp only at hinstall'
    rw [if_neg hf] at hinstall'
    obtain ⟨-, rfl⟩ := Prod.ext_iff.mp hmap₂
    subst hinstall'
    rw [oldStack, if_neg hcode]
    exact (Twin.of_untouched hmapped hmapped' hpmm₂ hmem₂).map (by decide) (by decide)
      (by decide) halloc hf

/-- The other run gets a process too. -/
theorem SameButFree.returns {k₁ : KernelState} {p userEntry userEsp a : Nat} (hp : p ≠ 0)
    (hc : Created k k₁ p userEntry userEsp space a m₁ m₂) :
    ∃ k₁', k'.processCreate p userEntry userEsp 1 = some (p, k₁') := by
  rcases hcreate' : k'.machine.vmmCreateSpace with ⟨space', m₁'⟩
  obtain ⟨m₂', hinstall'⟩ : ∃ m₂', m₁'.userInstallIntoSpace k'.userCodePhys space' = m₂' := ⟨_, rfl⟩
  obtain ⟨rfl, htwin⟩ :=
    hsame.twin_install h hc.create hcreate' hc.space_ne hc.install hinstall' hc.free
  obtain ⟨rest, hfree⟩ := hc.adjacent
  apply processCreate_returns hp hcreate' hc.space_ne hinstall' htwin.fresh'.zero_used
  · rw [htwin.pmm]
    exact hfree
  · rw [hsame.sys]
    exact hc.room

/-- The two runs before the load. -/
theorem SameButFree.twin_created {k₁ k₁' : KernelState} {p userEntry userEsp a a' : Nat}
    (hc : Created k k₁ p userEntry userEsp space a m₁ m₂)
    (hc' : Created k' k₁' p userEntry userEsp space' a' m₁' m₂') :
    space' = space ∧ Twin k.machine.mem k'.machine.mem k.machine.pmm k.machine.kernelSpace space
      k.oldStack k₁.machine k₁'.machine := by
  obtain ⟨hspace, htwin⟩ :=
    hsame.twin_install h hc.create hc'.create hc.space_ne hc.install hc'.install hc.free
  exact ⟨hspace, htwin.stack hc.stack hc'.stack⟩

end creation

/-! ## No old data -/

/-- User mode reads the same in both spaces of the process. -/
def SameUserPages (k k' : KernelState) (p : Nat) : Prop :=
  ∀ v < 2 ^ 32, userByte k'.machine.mem (k'.sys.procs p).addressSpace v =
    userByte k.machine.mem (k.sys.procs p).addressSpace v

/-- What the process reads does not depend on the bytes of the pages that were free. -/
def NoStale (k k₁ : KernelState) (p userEntry userEsp : Nat) (file : Option Memory)
    (info : ElfInfo) : Prop :=
  ∀ k' n k₁', k.SameButFree k' → k'.processCreate p userEntry userEsp n = some (p, k₁') →
    SameUserPages (k₁.elfLoadInto p file info) (k₁'.elfLoadInto p file info) p

/-- The space after the load by the plan, and the addresses of old bytes. -/
def loadedPlan (k : KernelState) (file : Option Memory) : Plan × (Nat → Bool) :=
  k.createdPlan.stale k.oldStack (loadActions file)

/-- The load writes to no table and to no free page, and in the pages that user mode can use
    at its end it has stored to every byte since the page was taken. Pages in slots with a
    supervisor table do not count. -/
def Covered (k : KernelState) (file : Option Memory) : Prop :=
  k.LoadLands file ∧ ∀ v < 2 ^ 32,
    supervisor k.machine.mem k.machine.kernelSpace (pdIdx v) = false →
      (k.loadedPlan file).1.pages (v / PAGE_SIZE) = true → (k.loadedPlan file).2 v = false

/-- The two runs after the load. -/
theorem SameButFree.twin_loaded {k k' k₁ k₁' : KernelState}
    {p userEntry userEsp space space' a a' : Nat} {m₁ m₁' m₂ m₂' : Machine}
    (hsame : k.SameButFree k') (h : k.Ready) (hc : Created k k₁ p userEntry userEsp space a m₁ m₂)
    (hc' : Created k' k₁' p userEntry userEsp space' a' m₁' m₂') {file : Option Memory}
    (hlands : k.LoadLands file) (info : ElfInfo) :
    space' = space ∧
      Contained k.machine space (k₁.elfLoadInto p file info).machine (k.loadedPlan file).1 ∧
      Twin k.machine.mem k'.machine.mem k.machine.pmm k.machine.kernelSpace space
        (k.loadedPlan file).2 (k₁.elfLoadInto p file info).machine
        (k₁'.elfLoadInto p file info).machine := by
  obtain ⟨rfl, htwin⟩ := hsame.twin_created h hc hc'
  have hstart : Twin k.machine.mem k'.machine.mem k.machine.pmm k.machine.kernelSpace space'
      k.oldStack (Load.mk k₁.machine info []).machine (Load.mk k₁'.machine info []).machine := htwin
  have hrounds := (hc.contained h).rounds (l := ⟨k₁.machine, info, []⟩)
    (loadActions_wellFormed file) hlands.lands
  rw [elfLoadInto_machine hc.address, elfLoadInto_machine hc'.address]
  exact ⟨rfl, Twin.rounds (fun _ _ hload => hload.pmm) hrounds hstart⟩

section result

variable {k k₁ : KernelState} {p userEntry userEsp n : Nat} (h : k.Ready) (hp : p ≠ 0)
  (hcall : k.processCreate p userEntry userEsp n = some (p, k₁))

include h hp hcall

theorem Covered.noStale {file : Option Memory} (hcovered : k.Covered file) (info : ElfInfo) :
    k.NoStale k₁ p userEntry userEsp file info := by
  intro k' n' k₁' hsame hcall' v hv
  obtain ⟨space, a, m₁, m₂, hc⟩ := h.created hp hcall
  obtain ⟨space', a', m₁', m₂', hc'⟩ := (hsame.ready h).created hp hcall'
  obtain ⟨rfl, hload, htwin⟩ := hsame.twin_loaded h hc hc' hcovered.1 info
  change userByte _ (k₁'.sys.procs p).addressSpace v = userByte _ (k₁.sys.procs p).addressSpace v
  rw [hc.address, hc'.address, userByte, userByte, htwin.userAddr_eq hv]
  rcases haddr : userAddr (k₁.elfLoadInto p file info).machine.mem space' v with _ | x
  · rfl
  · have huser := (userAddr_eq_some.mp haddr).1
    have hsup : supervisor k.machine.mem k.machine.kernelSpace (pdIdx v) = false := by
      rw [← supervisor_congr hload.directory (pdIdx_lt hv)]
      by_contra htrue
      rw [Bool.not_eq_false] at htrue
      exact Bool.false_ne_true ((hload.inv.not_userMapped hv htrue).symm.trans huser)
    have hpage := (hload.pages v hv hsup).trans huser
    exact congrArg some (htwin.visible v hv (hcovered.2 v hv hsup hpage) x haddr)

theorem NoStale.covered {file : Option Memory} {info : ElfInfo}
    (hnone : k.NoStale k₁ p userEntry userEsp file info) (hlands : k.LoadLands file) :
    k.Covered file := by
  refine ⟨hlands, fun v hv hsup hpage => ?_⟩
  by_contra hstale
  rw [Bool.not_eq_false] at hstale
  obtain ⟨space, a, m₁, m₂, hc⟩ := h.created hp hcall
  obtain ⟨-, hload, htwin⟩ := (SameButFree.refl k).twin_loaded h hc hc hlands info
  have huser := (hload.pages v hv hsup).symm.trans hpage
  obtain ⟨x, haddr⟩ : ∃ x, userAddr (k₁.elfLoadInto p file info).machine.mem space v = some x :=
    ⟨_, userAddr_eq_some.mpr ⟨huser, rfl⟩⟩
  obtain ⟨hbyte, hfree⟩ := htwin.fresh.stale v hv hstale x haddr
  -- another byte in the free page
  obtain ⟨k', hk'⟩ : ∃ k' : KernelState, k' = { k with machine := { k.machine with
    mem := Function.update k.machine.mem x (k.machine.mem x + 1) } } := ⟨_, rfl⟩
  have hsame : k.SameButFree k' := by
    subst hk'
    refine ⟨rfl, rfl, rfl, rfl, fun y hne => ?_⟩
    obtain rfl : y = x := by
      by_contra hyx
      exact hne (Function.update_of_ne hyx _ _)
    exact hfree
  have hchanged : k'.machine.mem x = k.machine.mem x + 1 := by
    subst hk'
    exact Function.update_self _ _ _
  obtain ⟨k₁', hcall'⟩ := hsame.returns h hp hc
  obtain ⟨space', a', m₁', m₂', hc'⟩ := (hsame.ready h).created hp hcall'
  obtain ⟨rfl, -, htwin'⟩ := hsame.twin_loaded h hc hc' hlands info
  have haddr' := (htwin'.userAddr_eq hv).trans haddr
  obtain ⟨hbyte', -⟩ := htwin'.fresh'.stale v hv hstale x haddr'
  have hread := hnone k' 1 k₁' hsame hcall' v hv
  change userByte _ (k₁'.sys.procs p).addressSpace v = userByte _ (k₁.sys.procs p).addressSpace v
    at hread
  rw [hc.address, hc'.address, userByte, userByte, haddr, haddr'] at hread
  have hequal := Option.some.inj hread
  rw [hbyte, hbyte', hchanged] at hequal
  exact absurd hequal (by simp)

end result

/-- The rounds for a segment that fills a page. -/
theorem loadActions_full_page :
    ∃ b : Nat → UInt8, loadActions (some (singleSegment 0x40000000 4096 4096 6)) =
      .map 0x40000000 7 :: (List.range 4096).map fun j => .store (u32 (0x40000000 + j)) (b j) := by
  have hvalid : validHeader (singleSegment 0x40000000 4096 4096 6) = true := by decide
  obtain ⟨ph, hph⟩ : ∃ ph : ElfPhdr, ph = ⟨PT_LOAD, 0, 0x40000000, 4096, 4096, 6⟩ := ⟨_, rfl⟩
  have hphdrs : (phdrs (singleSegment 0x40000000 4096 4096 6)).filter (fun ph => ph.type = PT_LOAD) =
      [ph] := by
    subst hph
    decide
  have hpages : (segmentEnd ph - segmentStart ph) / PAGE_SIZE = 1 := by
    subst hph
    decide
  have hzeros : sub32 ph.memsz ph.filesz = 0 := by
    subst hph
    decide
  rw [loadActions, if_pos hvalid, fileActions, hphdrs, List.flatMap_singleton, segmentActions,
    hpages, hzeros, List.range_zero, List.map_nil, List.append_nil, List.range_one,
    List.map_singleton, List.singleton_append]
  subst hph
  exact ⟨_, rfl⟩

/-- The segment is loaded into a process of the kernel without code for user mode. -/
theorem codelessKernel_covered :
    codelessKernel.Covered (some (singleSegment 0x40000000 4096 4096 6)) := by
  have hmachine : codelessKernel.machine = (smallKernel codePages).machine := rfl
  have hcode : codelessKernel.userCodePhys = 0 := rfl
  have hsup : supervisor codelessKernel.machine.mem codelessKernel.machine.kernelSpace
      (pdIdx 0x40000000) = false := by
    rw [supervisor, hmachine, smallKernel_entry (by decide)]
    rfl
  have hfree : codelessKernel.createdPlan.pmm.freePages = [7, 8, 9, 10, 11, 12, 13, 14, 15] := by
    rw [createdPlan, if_pos hcode, Pmm.freePages_takePages, hmachine, smallKernel_spacePages,
      smallKernel_freePages]
    rfl
  obtain ⟨b, hactions⟩ := loadActions_full_page
  suffices hplan : codelessKernel.LoadStays (some (singleSegment 0x40000000 4096 4096 6)) ∧
      ∀ v, (codelessKernel.loadedPlan (some (singleSegment 0x40000000 4096 4096 6))).2 v = false from
    ⟨hplan.1.lands, fun v _ _ _ => hplan.2 v⟩
  rw [LoadStays, loadedPlan, oldStack, if_pos hcode]
  generalize codelessKernel.createdPlan = p at hfree ⊢
  obtain ⟨hhead, htail⟩ := p.pmm.pmmAllocPage_freePages
  obtain ⟨hhead', -⟩ := p.pmm.pmmAllocPage.2.pmmAllocPage_freePages
  rw [hfree] at hhead htail
  rw [htail] at hhead'
  exact Plan.covers_page 7 b (by decide) (by decide) hsup (by rw [hhead]; decide)
    (by rw [hhead']; decide) hactions

end KernelState

end NemoOS
