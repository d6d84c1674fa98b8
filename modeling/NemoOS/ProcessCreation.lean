import NemoOS.ProcessMemory
import NemoOS.MapEffect
import NemoOS.MapPointwise
import NemoOS.PageSet

/-!
# Creation of a process

`process_create` takes pages for the directory, the copies of the kernel's user tables, the
table for code and stack, the user stack and the two pages of the kernel stack. Only the
first two kinds are given back where a later page is missing (`vmm_create_space`). The
others are found out by the list of free pages: every request takes its head
(`Pmm.pmmAllocPage_freePages`), so that the outcome depends on how many pages there are and
on whether the two that are next for the kernel stack are adjacent (`processCreate_some`).

`processCreate_all_or_nothing_iff` says when a call leaves a complete process or nothing.
-/

namespace NemoOS

open Words Bytes Machine

/-! ## The kernel stack -/

/-- Two pages that are taken and given back. -/
theorem Pmm.testBit_free_two {p p₂ : Pmm} {a b : Nat} (htotal : p₂.totalPages = p.totalPages)
    (ha : a < p.totalPages) (hb : b < p.totalPages) (ha_clear : p.testBit a = false)
    (hb_clear : p.testBit b = false)
    (hbits : ∀ k, p₂.testBit k = (p.testBit k || decide (a = k) || decide (b = k))) (k : Nat) :
    ((p₂.pmmFreePage (a * PAGE_SIZE)).pmmFreePage (b * PAGE_SIZE)).testBit k = p.testBit k := by
  have hindex : ∀ i, i * PAGE_SIZE / PAGE_SIZE = i := fun i => Nat.mul_div_cancel i (by decide)
  rw [testBit_pmmFreePage, testBit_pmmFreePage, totalPages_pmmFreePage, htotal, hindex, hindex, hbits]
  by_cases hka : a = k
  · subst hka
    simp [ha, ha_clear]
  · by_cases hkb : b = k
    · subst hkb
      simp [hb, hb_clear]
    · simp [hka, hkb]

section kernelStack

variable {m : Machine} (hzero : m.pmm.testBit 0 = true)

include hzero

/-- With fewer than two free pages the call fails and takes none. -/
theorem allocKernelStack_of_short (hshort : m.pmm.freePages.length < 2) (n : Nat) :
    ∃ pmm, m.allocKernelStack (n + 1) = some (0, { m with pmm := pmm }) ∧
      ∀ k, pmm.testBit k = m.pmm.testBit k := by
  rcases hfree : m.pmm.freePages with _ | ⟨a, rest⟩
  · have hfail : m.pmm.pmmAllocPage = (0, m.pmm) :=
      Pmm.pmmAllocPage_eq_of_zero hzero ((Pmm.pmmAllocPage_eq_zero_iff hzero).mpr hfree)
    refine ⟨m.pmm, ?_, fun _ => rfl⟩
    rw [allocKernelStack, hfail]
    dsimp only
    rw [hfail]
    rfl
  · obtain rfl : rest = [] := by
      rw [hfree, List.length_cons] at hshort
      exact List.length_eq_zero_iff.mp (by omega)
    obtain ⟨p₁, halloc, hfree₁, hne, hclear, hlt, htotal, hbits⟩ :=
      Pmm.pmmAllocPage_of_cons hzero hfree
    have hzero₁ : p₁.testBit 0 = true := by rw [hbits, hzero, Bool.true_or]
    have hfail : p₁.pmmAllocPage = (0, p₁) :=
      Pmm.pmmAllocPage_eq_of_zero hzero₁ ((Pmm.pmmAllocPage_eq_zero_iff hzero₁).mpr hfree₁)
    have hne' : a * PAGE_SIZE ≠ 0 := by
      rw [PAGE_SIZE]
      omega
    refine ⟨p₁.pmmFreePage (a * PAGE_SIZE), ?_, fun k => ?_⟩
    · rw [allocKernelStack, halloc]
      dsimp only
      rw [hfail]
      dsimp only
      rw [if_pos (.inr rfl), if_pos hne', if_neg (not_not_intro rfl)]
    · exact Pmm.testBit_free_taken htotal hlt hclear hbits k

/-- With two free pages: it depends on whether the lowest two are adjacent. -/
theorem allocKernelStack_succ {a b : Nat} {rest : List Nat} (hfree : m.pmm.freePages = a :: b :: rest)
    (n : Nat) :
    ∃ pmm, pmm = m.pmm.pmmAllocPage.2.pmmAllocPage.2 ∧ pmm.totalPages = m.pmm.totalPages ∧ a ≠ 0 ∧
      m.pmm.testBit a = false ∧ m.pmm.testBit b = false ∧ a < m.pmm.totalPages ∧
      b < m.pmm.totalPages ∧
      (∀ k, pmm.testBit k = (m.pmm.testBit k || decide (a = k) || decide (b = k))) ∧
      m.allocKernelStack (n + 1) =
        if b = a + 1 then
          some (a * PAGE_SIZE,
            { m with mem := fill m.mem (a * PAGE_SIZE) 0 KERNEL_STACK_BYTES, pmm := pmm })
        else
          allocKernelStack { m with
            pmm := (pmm.pmmFreePage (a * PAGE_SIZE)).pmmFreePage (b * PAGE_SIZE) } n := by
  obtain ⟨p₁, halloc, hfree₁, hne, hclear, hlt, htotal, hbits⟩ :=
    Pmm.pmmAllocPage_of_cons hzero hfree
  have hzero₁ : p₁.testBit 0 = true := by rw [hbits, hzero, Bool.true_or]
  obtain ⟨p₂, halloc₁, -, hne₁, hclear₁, hlt₁, htotal₁, hbits₁⟩ :=
    Pmm.pmmAllocPage_of_cons hzero₁ hfree₁
  rw [hbits, Bool.or_eq_false_iff] at hclear₁
  rw [htotal] at hlt₁
  refine ⟨p₂, ?_, htotal₁.trans htotal, hne, hclear, hclear₁.1, hlt, hlt₁, fun k => ?_, ?_⟩
  · rw [halloc, halloc₁]
  · rw [hbits₁, hbits]
  · have hbound := m.pmm.total_le
    have hadjacent : (b * PAGE_SIZE ≠ u32 (a * PAGE_SIZE + 4096)) ↔ b ≠ a + 1 := by
      rw [PAGE_SIZE, u32]
      omega
    have hpages : ¬ (a * PAGE_SIZE = 0 ∨ b * PAGE_SIZE = 0) := by
      rw [PAGE_SIZE]
      omega
    rw [allocKernelStack, halloc]
    dsimp only
    rw [halloc₁]
    dsimp only
    rw [if_neg hpages]
    by_cases heq : b = a + 1
    · rw [if_neg fun hne => (hadjacent.mp hne) heq, if_pos heq]
    · rw [if_pos (hadjacent.mpr heq), if_neg heq]

/-- Where the lowest two free pages are not adjacent the function never returns: each call
    gives them back and meets them again. -/
theorem allocKernelStack_of_apart {a b : Nat} {rest : List Nat}
    (hfree : m.pmm.freePages = a :: b :: rest) (hne : b ≠ a + 1) (n : Nat) :
    m.allocKernelStack n = none := by
  induction n generalizing m with
  | zero => rfl
  | succ n ih =>
      obtain ⟨pmm, -, htotal, -, ha_clear, hb_clear, ha, hb, hbits, hcall⟩ :=
        allocKernelStack_succ hzero hfree n
      have hsame := Pmm.testBit_free_two htotal ha hb ha_clear hb_clear hbits
      rw [hcall, if_neg hne]
      apply ih
      · dsimp only
        rw [hsame]
        exact hzero
      · dsimp only
        rw [← hfree]
        apply Pmm.freePages_congr _ hsame
        rw [Pmm.totalPages_pmmFreePage, Pmm.totalPages_pmmFreePage, htotal]

end kernelStack

/-! ## The user pages -/

/-- The page that user mode reaches at the address. -/
def userPage (m : Memory) (space virt : Nat) : Option Nat :=
  match translate m space virt with
  | some t => if isUser t.directoryFlags && isUser t.tableFlags then some (frame t.addr) else none
  | none => none

theorem userPage_of_translate {m : Memory} {space virt : Nat} {t : Translation}
    (ht : translate m space virt = some t) (hdirectory : isUser t.directoryFlags = true)
    (htable : isUser t.tableFlags = true) : userPage m space virt = some (frame t.addr) := by
  rw [userPage, ht]
  dsimp only
  rw [hdirectory, htable]
  rfl

theorem userPage_congr {m m' : Memory} {space virt : Nat} (h : SameTables m m' space AllSlots)
    (hvirt : virt < 2 ^ 32) : userPage m' space virt = userPage m space virt := by
  rw [userPage, userPage, h.translate_eq (pdIdx_lt hvirt)]

theorem userPage_of_supervisor {m : Memory} {space virt : Nat}
    (huser : isUser (entryAt m space (pdIdx virt)) = false) : userPage m space virt = none := by
  rw [userPage]
  rcases htranslate : translate m space virt with _ | t
  · rfl
  · obtain ⟨-, -, rfl⟩ := translate_eq_some htranslate
    dsimp only
    rw [isUser_flagBits, huser]
    rfl

/-- The table that the new space needs for its code and its stack. -/
def Machine.newTables (m : Machine) (space : Nat) : Nat :=
  if isPresent (entryAt m.mem space (pdIdx USER_CODE_ADDR)) then 0 else 1

/-- The user stack is mapped to the page `f`, in the slot of the code. -/
structure StackMapped (m m' : Machine) (kernel space code f : Nat) : Prop where
  next : (m.vmmMap space USER_CODE_ADDR code (VMM_PRESENT + VMM_USER)).2.pmm.pmmAllocPage.1 =
    f * PAGE_SIZE
  clear : m.pmm.testBit f = false
  inUse : InUse m'.pmm (f * PAGE_SIZE)
  not_structural : ¬ Structural m'.mem kernel space AllSlots (f * PAGE_SIZE)
  tables : ∀ i < ENTRIES, isPresent (entryAt m'.mem space i) =
    (isPresent (entryAt m.mem space i) || i == pdIdx USER_CODE_ADDR)
  pages : ∀ v < 2 ^ 32, userMapped m'.mem space v =
    (userMapped m.mem space v || (!supervisor m.mem kernel (pdIdx USER_CODE_ADDR) &&
      (v / PAGE_SIZE == USER_CODE_ADDR / PAGE_SIZE || v / PAGE_SIZE == USER_STACK_ADDR / PAGE_SIZE)))
  translation : supervisor m.mem kernel (pdIdx USER_CODE_ADDR) = false →
    SameTranslation (translate m'.mem space)
      (updatePage (updatePage (translate m.mem space) USER_CODE_ADDR
        (m.mapped space USER_CODE_ADDR code (VMM_PRESENT + VMM_USER))) USER_STACK_ADDR
        (m.mapped space USER_STACK_ADDR (f * PAGE_SIZE) (VMM_PRESENT + VMM_WRITABLE + VMM_USER)))

/-- What `user_install_into_space` does to a space. -/
structure Installed (m m' : Machine) (kernel space code : Nat) : Prop where
  inv : SpaceInv m'.mem m'.pmm kernel space AllSlots
  kernelSpace : m'.kernelSpace = m.kernelSpace
  directory : SameDirectory m.mem m'.mem kernel AllSlots
  keeps : m.pmm.Keeps m'.pmm
  pmm : m'.pmm = m.pmm.takePages (m.newTables space + 1)
  stack : ∀ f rest, m.pmm.freePages.drop (m.newTables space) = f :: rest →
    StackMapped m m' kernel space code f

/-- With a page left afterwards there was one for the stack. -/
theorem Installed.exists_stack {m m' : Machine} {kernel space code : Nat}
    (h : Installed m m' kernel space code) (hfree : m'.pmm.freePages ≠ []) :
    ∃ f, StackMapped m m' kernel space code f := by
  rcases hlist : m.pmm.freePages.drop (m.newTables space) with _ | ⟨f, rest⟩
  · rw [h.pmm, Pmm.freePages_takePages, ← List.tail_drop, hlist] at hfree
    exact absurd rfl hfree
  · exact ⟨f, h.stack f rest hlist⟩

section install

variable {m m₁ m' : Machine} {kernel space code : Nat}
  (h : SpaceInv m.mem m.pmm kernel space AllSlots) (hcode : InUse m.pmm code)
  (hnot : ¬ Structural m.mem kernel space AllSlots code)

include h hcode

/-- Both pages are mapped for user mode. -/
theorem StackMapped.userPages {f : Nat} (hstack : StackMapped m m' kernel space code f)
    (hsup : supervisor m.mem kernel (pdIdx USER_CODE_ADDR) = false) :
    userPage m'.mem space USER_CODE_ADDR = some code ∧
      userPage m'.mem space USER_STACK_ADDR = some (f * PAGE_SIZE) := by
  have huser : isUser (m.slotFlags space USER_CODE_ADDR) = true :=
    h.isUser_slotFlags (by decide) hsup
  have hcode_page := hstack.translation hsup USER_CODE_ADDR (by decide)
  have hstack_page := hstack.translation hsup USER_STACK_ADDR (by decide)
  rw [updatePage, if_neg (by decide), updatePage, if_pos rfl] at hcode_page
  rw [updatePage, if_pos rfl] at hstack_page
  have hcode_user : isUser (flagBits (VMM_PRESENT + VMM_USER)) = true := by decide
  have hstack_user : isUser (flagBits (VMM_PRESENT + VMM_WRITABLE + VMM_USER)) = true := by decide
  rw [userPage_of_translate hcode_page huser hcode_user,
    userPage_of_translate hstack_page huser hstack_user, hcode.frame_eq, hstack.inUse.frame_eq,
    frame_add hcode.toIsPage (by decide), frame_add hstack.inUse.toIsPage (by decide)]
  exact ⟨rfl, rfl⟩

include hnot

/-- The calls of `user_install_into_space`: without a page for the table of the code there is
    none for the stack. -/
theorem SpaceInv.install_calls (hzero : m.pmm.testBit 0 = true) (hspace : space ≠ 0)
    (hne : code ≠ 0) {ok : Bool}
    (hmap : m.vmmMap space USER_CODE_ADDR code (VMM_PRESENT + VMM_USER) = (ok, m₁))
    (hinstall : m.userInstallIntoSpace code space = m') :
    m₁.pmm = m.pmm.takePages (m.newTables space) ∧ MapEffect m m₁ kernel space ∧
      (m₁.pmm.freePages = [] ∧ m' = m₁ ∨
        ∃ f rest pmm, m₁.pmm.freePages = f :: rest ∧ m₁.pmm.pmmAllocPage = (f * PAGE_SIZE, pmm) ∧
          f * PAGE_SIZE ≠ 0 ∧ ok = true ∧
          isPresent (entryAt m₁.mem space (pdIdx USER_STACK_ADDR)) = true ∧
          vmmMap { m₁ with pmm := pmm } space USER_STACK_ADDR (f * PAGE_SIZE)
            (VMM_PRESENT + VMM_WRITABLE + VMM_USER) = (true, m')) := by
  have hvirt : USER_CODE_ADDR < 2 ^ 32 := by decide
  have hflags : VMM_PRESENT + VMM_USER < PAGE_SIZE := by decide
  have heffect := h.mapEffect hvirt hcode hnot hflags
  obtain ⟨htables, -⟩ := h.vmmMap_view hvirt hcode.toIsPage hflags (by decide) (by decide) hmap
  obtain ⟨-, hmapped⟩ := vmmMap_pages hzero space USER_CODE_ADDR code (VMM_PRESENT + VMM_USER)
  have hpmm := vmmMap_pmm m space USER_CODE_ADDR code (VMM_PRESENT + VMM_USER)
  rw [hmap] at heffect hmapped hpmm
  have htake : m₁.pmm = m.pmm.takePages (m.newTables space) := by
    rw [hpmm, newTables]
    split <;> rfl
  have hzero₁ := heffect.keeps 0 hzero
  refine ⟨htake, heffect, ?_⟩
  rw [Machine.userInstallIntoSpace, if_neg (not_or.mpr ⟨hspace, hne⟩), hmap] at hinstall
  dsimp only at hinstall
  rcases hlist : m₁.pmm.freePages with _ | ⟨f, rest⟩
  · rw [Pmm.pmmAllocPage_eq_of_zero hzero₁ ((Pmm.pmmAllocPage_eq_zero_iff hzero₁).mpr hlist)]
      at hinstall
    exact .inl ⟨rfl, hinstall.symm⟩
  · obtain ⟨pmm, halloc, -, hf, -⟩ := Pmm.pmmAllocPage_of_cons hzero₁ hlist
    have hf' : f * PAGE_SIZE ≠ 0 := Nat.mul_ne_zero hf (by decide)
    have hok : ok = true := by
      refine hmapped.mpr (.inr fun hnil => ?_)
      rw [htake, Pmm.freePages_takePages, hnil, List.drop_nil] at hlist
      nomatch hlist
    have hpresent : isPresent (entryAt m₁.mem space (pdIdx USER_STACK_ADDR)) = true := by
      rw [htables _ (by decide), hok]
      exact Bool.or_true _
    obtain ⟨-, hmapped₂⟩ := vmmMap_pages (m := { m₁ with pmm := pmm })
      ((pmmAllocPage_page halloc).1 0 hzero₁) space USER_STACK_ADDR (f * PAGE_SIZE)
      (VMM_PRESENT + VMM_WRITABLE + VMM_USER)
    rw [halloc] at hinstall
    dsimp only at hinstall
    rw [if_neg hf'] at hinstall
    exact .inr ⟨f, rest, pmm, rfl, halloc, hf', hok, hpresent,
      Prod.ext_iff.mpr ⟨hmapped₂.mpr (.inl hpresent), hinstall⟩⟩

/-- The page for the stack, in the table that the code has. -/
theorem SpaceInv.stackMapped {f : Nat} {pmm : Pmm}
    (hmap : m.vmmMap space USER_CODE_ADDR code (VMM_PRESENT + VMM_USER) = (true, m₁))
    (halloc : m₁.pmm.pmmAllocPage = (f * PAGE_SIZE, pmm)) (hf : f * PAGE_SIZE ≠ 0)
    (hmap₂ : vmmMap { m₁ with pmm := pmm } space USER_STACK_ADDR (f * PAGE_SIZE)
      (VMM_PRESENT + VMM_WRITABLE + VMM_USER) = (true, m')) :
    MapEffect m₁ m' kernel space ∧ StackMapped m m' kernel space code f := by
  have hvirt : USER_CODE_ADDR < 2 ^ 32 := by decide
  have hvirt₂ : USER_STACK_ADDR < 2 ^ 32 := by decide
  have hslot : pdIdx USER_STACK_ADDR = pdIdx USER_CODE_ADDR := by decide
  have hflags : VMM_PRESENT + VMM_USER < PAGE_SIZE := by decide
  have hflags₂ : VMM_PRESENT + VMM_WRITABLE + VMM_USER < PAGE_SIZE := by decide
  have heffect := h.mapEffect hvirt hcode hnot hflags
  rw [hmap] at heffect
  obtain ⟨hkeeps, hpage⟩ := pmmAllocPage_page halloc
  obtain ⟨hphys, hclear, hinUse⟩ := hpage hf
  have hinv₁ : SpaceInv m₁.mem pmm kernel space AllSlots := heffect.inv.congr .refl .refl hkeeps
  have hnot₂ := heffect.inv.not_structural hclear
  have heffect₂ := SpaceInv.mapEffect (m := { m₁ with pmm := pmm }) hinv₁ hvirt₂ hinUse hnot₂ hflags₂
  rw [hmap₂] at heffect₂
  obtain ⟨htables, hpages⟩ := h.vmmMap_view hvirt hcode.toIsPage hflags (by decide) (by decide) hmap
  obtain ⟨htables₂, hpages₂⟩ := SpaceInv.vmmMap_view (m := { m₁ with pmm := pmm }) hinv₁ hvirt₂ hphys
    hflags₂ (by decide) (by decide) hmap₂
  have hkernel := supervisor_congr heffect.directory (pdIdx_lt hvirt)
  rw [Nat.mul_div_cancel f (by decide)] at hclear
  refine ⟨heffect₂.of_alloc halloc, by rw [hmap, halloc], heffect.keeps.clear hclear,
    hinUse.keeps heffect₂.keeps, heffect₂.not_structural hinUse hnot₂, fun i hi => ?_,
    fun v hv => ?_, fun hsup v hv => ?_⟩
  · rw [htables₂ i hi, htables i hi, hslot, Bool.true_and, Bool.or_assoc, Bool.or_self]
  · rw [hpages₂ v hv, hpages v hv, hslot, hkernel, Bool.true_and, Bool.true_and, Bool.or_assoc,
      ← Bool.and_or_distrib_left]
  · have hcode_page := h.translate_mapped hvirt hsup hcode.lt (by decide) hmap
    have hstack_page := SpaceInv.translate_mapped (m := { m₁ with pmm := pmm }) hinv₁ hvirt₂
      (by rw [hslot]; exact hkernel.trans hsup) hphys.lt (by decide) hmap₂
    -- the entry of the directory is the one for the code
    have hcode_entry := hcode_page USER_CODE_ADDR hvirt
    rw [updatePage, if_pos rfl] at hcode_entry
    have hentry : m₁.slotFlags space USER_STACK_ADDR = m.slotFlags space USER_STACK_ADDR := by
      rw [slotFlags_of_translate hcode_entry hslot, Machine.slotFlags, Machine.slotFlags, hslot]
    rw [hstack_page v hv, updatePage, updatePage, mapped, mapped, ← hentry, ← hcode_page v hv]
    rfl

/-- `user_install_into_space` with a page for the code. -/
theorem SpaceInv.userInstallIntoSpace (hzero : m.pmm.testBit 0 = true) (hspace : space ≠ 0)
    (hne : code ≠ 0) : Installed m (m.userInstallIntoSpace code space) kernel space code := by
  rcases hmap : m.vmmMap space USER_CODE_ADDR code (VMM_PRESENT + VMM_USER) with ⟨ok, m₁⟩
  obtain ⟨htake, heffect, hcalls⟩ := h.install_calls hcode hnot hzero hspace hne hmap rfl
  have hdrop : m.pmm.freePages.drop (m.newTables space) = m₁.pmm.freePages := by
    rw [htake, Pmm.freePages_takePages]
  rcases hcalls with ⟨hnil, hinstall⟩ | ⟨f, rest, pmm, hlist, halloc, hf, rfl, hpresent, hmap₂⟩
  · rw [hinstall]
    refine ⟨heffect.inv, heffect.kernelSpace, heffect.directory, heffect.keeps, ?_, ?_⟩
    · rw [Pmm.takePages, ← htake, Pmm.pmmAllocPage_of_nil hnil]
    · intro f rest hcons
      rw [hdrop, hnil] at hcons
      exact absurd hcons (List.cons_ne_nil _ _).symm
  · obtain ⟨heffect₂, hstack⟩ := h.stackMapped hcode hnot hmap halloc hf hmap₂
    have hpmm := vmmMap_pmm { m₁ with pmm := pmm } space USER_STACK_ADDR (f * PAGE_SIZE)
      (VMM_PRESENT + VMM_WRITABLE + VMM_USER)
    rw [hmap₂] at hpmm
    refine ⟨heffect₂.inv, heffect₂.kernelSpace.trans heffect.kernelSpace,
      fun i hi => (heffect₂.directory i hi).trans (heffect.directory i hi),
      heffect.keeps.trans heffect₂.keeps, ?_, ?_⟩
    · rw [hpmm, if_pos hpresent, Pmm.takePages, ← htake, halloc]
    · intro f' rest' hcons
      rw [hdrop, hlist, List.cons.injEq] at hcons
      rw [← hcons.1]
      exact hstack

end install

/-! ## The frame on the kernel stack -/

theorem foldl_push {values : List Nat} {t : Nat} (mem : Memory) (ht : t ≤ 2 ^ 32)
    (hlen : 4 * values.length ≤ t) :
    (values.foldl push (u32 t, mem)).1 = u32 (t - 4 * values.length) ∧
      ∀ x, x < t - 4 * values.length ∨ t ≤ x → (values.foldl push (u32 t, mem)).2 x = mem x := by
  induction values generalizing t mem with
  | nil => exact ⟨rfl, fun _ _ => rfl⟩
  | cons v values ih =>
      rw [List.length_cons] at hlen
      have hpush : push (u32 t, mem) v = (u32 (t - 4), write32 mem (t - 4) v) := by
        have hsub : sub32 (u32 t) 4 = t - 4 := by
          rw [sub32, u32, u32]
          omega
        have hlt : t - 4 < 4294967296 := by omega
        rw [push]
        dsimp only
        rw [hsub, u32_of_lt hlt]
      obtain ⟨hsp, hmem⟩ := ih (write32 mem (t - 4) v) (by omega : t - 4 ≤ 2 ^ 32) (by omega)
      rw [List.foldl_cons, hpush, List.length_cons]
      refine ⟨?_, fun x hx => ?_⟩
      · rw [hsp]
        congr 1
        omega
      · rw [hmem x (by omega)]
        exact write32_of_outside (by omega) (by omega)

/-- A kernel stack in the pages `a` and `a + 1`. -/
structure StackTaken (m m' : Machine) (a : Nat) : Prop where
  kernelSpace : m'.kernelSpace = m.kernelSpace
  writes : ∀ x, x / PAGE_SIZE ≠ a → x / PAGE_SIZE ≠ a + 1 → m'.mem x = m.mem x
  pmm : m'.pmm = m.pmm.pmmAllocPage.2.pmmAllocPage.2
  total : m'.pmm.totalPages = m.pmm.totalPages
  ne_zero : a ≠ 0
  lt_total : a + 1 < m.pmm.totalPages
  clear : m.pmm.testBit a = false ∧ m.pmm.testBit (a + 1) = false
  bits : ∀ k, m'.pmm.testBit k = (m.pmm.testBit k || decide (a = k) || decide (a + 1 = k))

theorem StackTaken.keeps {m m' : Machine} {a : Nat} (h : StackTaken m m' a) :
    m.pmm.Keeps m'.pmm := by
  intro k hk
  rw [h.bits, hk, Bool.true_or, Bool.true_or]

/-- The two pages were free. -/
theorem StackTaken.untouched {m m' : Machine} {a : Nat} (h : StackTaken m m' a) :
    Untouched m.pmm m.mem m'.mem := by
  intro x hx
  apply h.writes
  · intro hpage
    rw [hpage, h.clear.1] at hx
    exact Bool.false_ne_true hx
  · intro hpage
    rw [hpage, h.clear.2] at hx
    exact Bool.false_ne_true hx

theorem StackTaken.inUse {m m' : Machine} {a : Nat} (h : StackTaken m m' a) :
    InUse m'.pmm (a * PAGE_SIZE) ∧ InUse m'.pmm (a * PAGE_SIZE + PAGE_SIZE) := by
  have htotal := m.pmm.total_le
  have hlt := h.lt_total
  have hpage : ∀ b, b < 2 ^ 20 → m'.pmm.testBit b = true → InUse m'.pmm (b * PAGE_SIZE) := by
    intro b hb hbit
    refine ⟨⟨?_, ?_⟩, ?_⟩
    · exact Nat.mul_mod_left b PAGE_SIZE
    · rw [PAGE_SIZE]
      omega
    · rw [Nat.mul_div_cancel b (by decide)]
      exact hbit
  rw [← Nat.succ_mul]
  exact ⟨hpage a (by omega) (by rw [h.bits]; simp), hpage (a + 1) (by omega) (by rw [h.bits]; simp)⟩

/-- The bytes of the stack and of the frame lie in its two pages. -/
theorem kernelStack_writes {a x : Nat} (mem : Memory) (hlt : a + 1 < 2 ^ 20)
    (hlow : x / PAGE_SIZE ≠ a) (hhigh : x / PAGE_SIZE ≠ a + 1) (userEntry userEsp : Nat) :
    (buildUserFrame (fill mem (a * PAGE_SIZE) 0 KERNEL_STACK_BYTES)
      (u32 (a * PAGE_SIZE + KERNEL_STACK_BYTES)) userEntry userEsp).2 x = mem x := by
  have hout : x < a * PAGE_SIZE ∨ a * PAGE_SIZE + KERNEL_STACK_BYTES ≤ x := by
    rw [PAGE_SIZE, KERNEL_STACK_BYTES] at *
    omega
  have hspace : a * PAGE_SIZE + KERNEL_STACK_BYTES ≤ 2 ^ 32 := by
    rw [PAGE_SIZE, KERNEL_STACK_BYTES]
    omega
  rw [buildUserFrame, (foldl_push _ hspace ?_).2 x ?_]
  · exact fill_of_outside hspace hout
  · rw [KERNEL_STACK_BYTES]
    simp only [List.length_cons, List.length_nil]
    omega
  · rcases hout with hlow | hhigh
    · left
      rw [KERNEL_STACK_BYTES]
      simp only [List.length_cons, List.length_nil]
      omega
    · exact .inr hhigh

/-! ## The outcomes -/

namespace KernelState

section outcomes

variable {k k' : KernelState} {p userEntry userEsp n space : Nat} {m₁ m₂ : Machine} (hp : p ≠ 0)
  (hcreate : k.machine.vmmCreateSpace = (space, m₁)) (hspace : space ≠ 0)
  (hinstall : m₁.userInstallIntoSpace k.userCodePhys space = m₂) (hzero : m₂.pmm.testBit 0 = true)

include hp hcreate hspace hinstall

theorem processCreate_eq_stack :
    k.processCreate p userEntry userEsp n =
      match m₂.allocKernelStack n with
      | none => none
      | some (kstack, m) =>
          if kstack = 0 then
            some (0, { k with
              machine := m
              sys := { k.sys with nextPid := u32 (k.sys.nextPid + 1) } })
          else
            match k.sys.processCreate p space kstack userEntry userEsp with
            | none => none
            | some sys =>
                some (p, { k with
                  machine := { m with
                    mem := (buildUserFrame m.mem (u32 (kstack + KERNEL_STACK_BYTES)) userEntry
                      userEsp).2 }
                  sys := sys }) := by
  rw [processCreate, if_neg hp, hcreate]
  dsimp only
  rewrite [if_neg hspace, hinstall]
  rfl

include hzero

/-- **How `process_create` ends** once it has a space. -/
theorem processCreate_some {r : Nat} (h : k.processCreate p userEntry userEsp n = some (r, k')) :
    (r = 0 ∧ (∀ i, k'.machine.pmm.testBit i = m₂.pmm.testBit i)) ∨
    ∃ a rest, m₂.pmm.freePages = a :: (a + 1) :: rest ∧ r = p ∧ StackTaken m₂ k'.machine a ∧
      k'.userCodePhys = k.userCodePhys ∧
      k.sys.processCreate p space (a * PAGE_SIZE) userEntry userEsp = some k'.sys := by
  rw [processCreate_eq_stack hp hcreate hspace hinstall] at h
  rcases n with _ | n
  · nomatch h
  by_cases hshort : m₂.pmm.freePages.length < 2
  · obtain ⟨pmm, hstack, hbits⟩ := allocKernelStack_of_short hzero hshort n
    rw [hstack] at h
    dsimp only at h
    rw [if_pos rfl, Option.some.injEq] at h
    obtain ⟨rfl, rfl⟩ := Prod.ext_iff.mp h
    exact .inl ⟨rfl, hbits⟩
  · rcases hfree : m₂.pmm.freePages with _ | ⟨a, _ | ⟨b, rest⟩⟩
    · rw [hfree] at hshort
      exact absurd (by decide) hshort
    · rw [hfree] at hshort
      exact absurd (Nat.lt_succ_self 1) hshort
    by_cases hnext : b = a + 1
    · subst hnext
      obtain ⟨pmm, hpmm, htotal, ha, ha_clear, hb_clear, -, hlt, hbits, hstack⟩ :=
        allocKernelStack_succ hzero hfree n
      rw [hstack, if_pos rfl] at h
      dsimp only at h
      rw [if_neg (by rw [PAGE_SIZE]; omega)] at h
      rcases hsys : k.sys.processCreate p space (a * PAGE_SIZE) userEntry userEsp with _ | sys
      · rw [hsys] at h
        nomatch h
      · rw [hsys] at h
        dsimp only at h
        rw [Option.some.injEq] at h
        obtain ⟨rfl, rfl⟩ := Prod.ext_iff.mp h
        refine .inr ⟨a, rest, rfl, rfl, ?_, rfl, hsys⟩
        have hbound : a + 1 < 2 ^ 20 := Nat.lt_of_lt_of_le hlt m₂.pmm.total_le
        exact ⟨rfl, fun x hlow hhigh => kernelStack_writes m₂.mem hbound hlow hhigh userEntry userEsp,
          hpmm, htotal, ha, hlt, ⟨ha_clear, hb_clear⟩, hbits⟩
    · rw [allocKernelStack_of_apart hzero hfree hnext] at h
      nomatch h

/-- It returns the process where the next two free pages are adjacent and the table has
    room. -/
theorem processCreate_returns {a : Nat} {rest : List Nat}
    (hfree : m₂.pmm.freePages = a :: (a + 1) :: rest)
    (hroom : k.sys.processTable.length < MAX_PROCESSES) :
    ∃ k', k.processCreate p userEntry userEsp 1 = some (p, k') := by
  obtain ⟨pmm, -, -, ha, -, -, -, -, -, hstack⟩ := allocKernelStack_succ hzero hfree 0
  rw [processCreate_eq_stack hp hcreate hspace hinstall, hstack, if_pos rfl]
  dsimp only
  rw [if_neg (by rw [PAGE_SIZE]; omega), ProcessSystem.processCreate, ProcessSystem.registerProcess,
    if_neg (by omega)]
  exact ⟨_, rfl⟩

end outcomes

/-! ## The state that booting leaves -/

/-- The page at 0 is reserved, the kernel's space is that of `paging_init`, and the page
    with the code, if there is one, is not part of it. -/
structure Ready (k : KernelState) : Prop where
  kernelSpace : KernelSpace k.machine
  zero_used : k.machine.pmm.testBit 0 = true
  code : k.userCodePhys ≠ 0 → InUse k.machine.pmm k.userCodePhys ∧
    k.userCodePhys ≠ k.machine.kernelSpace ∧
    ¬ HasTable k.machine.mem k.machine.kernelSpace AllSlots k.userCodePhys

section ready

variable {k : KernelState} {space : Nat} {m₁ m₂ : Machine} (h : k.Ready)
  (hcreate : k.machine.vmmCreateSpace = (space, m₁)) (hspace : space ≠ 0)

include h hcreate hspace

/-- The page with the code is no table of the new space. -/
theorem Ready.code_free (hcode : k.userCodePhys ≠ 0) :
    ¬ Structural m₁.mem k.machine.kernelSpace space AllSlots k.userCodePhys := by
  obtain ⟨hinUse, hne, htable⟩ := h.code hcode
  obtain ⟨-, -, hmade⟩ := vmmCreateSpace_cases h.kernelSpace.directory_inUse hcreate
  obtain ⟨-, hclear, -, hfill⟩ := hmade hspace
  intro hstructural
  rcases hfill.structural h.kernelSpace.directory_inUse hclear hstructural with
    (heq | hold) | hfree
  · exact hne heq
  · exact htable hold
  · exact hinUse.ne_of_clear hfree rfl

theorem Ready.newTables_eq : m₁.newTables space = k.machine.newTables k.machine.kernelSpace := by
  obtain ⟨-, -, hmade⟩ := vmmCreateSpace_cases h.kernelSpace.directory_inUse hcreate
  obtain ⟨-, -, -, hfill⟩ := hmade hspace
  rw [newTables, newTables, hfill.isPresent_eq (by decide)]

theorem Ready.installed (hcode : k.userCodePhys ≠ 0) :
    Installed m₁ (m₁.userInstallIntoSpace k.userCodePhys space) k.machine.kernelSpace space
      k.userCodePhys := by
  obtain ⟨hinv, -, -, hkeeps⟩ := h.kernelSpace.vmmCreateSpace hcreate hspace
  exact hinv.userInstallIntoSpace ((h.code hcode).1.keeps hkeeps) (h.code_free hcreate hspace hcode)
    (hkeeps 0 h.zero_used) hspace hcode

/-- The space before the kernel stack is taken. -/
theorem Ready.install (hinstall : m₁.userInstallIntoSpace k.userCodePhys space = m₂) :
    SpaceInv m₂.mem m₂.pmm k.machine.kernelSpace space AllSlots ∧
      m₂.kernelSpace = k.machine.kernelSpace ∧
      SameDirectory k.machine.mem m₂.mem k.machine.kernelSpace AllSlots ∧
      k.machine.pmm.Keeps m₂.pmm := by
  obtain ⟨hinv, hsame, hkernel, hkeeps⟩ := h.kernelSpace.vmmCreateSpace hcreate hspace
  subst hinstall
  by_cases hcode : k.userCodePhys = 0
  · rw [userInstallIntoSpace, if_pos (.inr hcode)]
    exact ⟨hinv, hkernel, hsame.directory, hkeeps⟩
  · obtain ⟨hinv₂, hkernel₂, hdirectory, hkeeps₂, -, -⟩ := h.installed hcreate hspace hcode
    exact ⟨hinv₂, hkernel₂.trans hkernel, fun i hi => (hdirectory i hi).trans (hsame.directory i hi),
      hkeeps.trans hkeeps₂⟩

end ready

/-! ## All or nothing -/

/-- A process with everything it needs: its space maps the page with the code and a stack
    page of its own for user mode, and the two pages of its kernel stack are in use. -/
structure Complete (k k' : KernelState) (p : Nat) : Prop where
  registered : p ∈ k'.sys.processTable
  code : k.userCodePhys ≠ 0 ∧
    userPage k'.machine.mem (k'.sys.procs p).addressSpace USER_CODE_ADDR = some k.userCodePhys
  stack : ∃ f, k.machine.pmm.testBit f = false ∧
    userPage k'.machine.mem (k'.sys.procs p).addressSpace USER_STACK_ADDR = some (f * PAGE_SIZE)
  kernelStack : (k'.sys.procs p).kernelStackBottom ≠ 0 ∧
    InUse k'.machine.pmm (k'.sys.procs p).kernelStackBottom ∧
    InUse k'.machine.pmm ((k'.sys.procs p).kernelStackBottom + PAGE_SIZE)

structure Unchanged (k k' : KernelState) : Prop where
  used : ∀ page, k'.machine.pmm.testBit page = k.machine.pmm.testBit page
  table : k'.sys.processTable = k.sys.processTable

/-- `process_create` returns, with a complete process or with nothing changed. -/
def AllOrNothing (k : KernelState) (p userEntry userEsp : Nat) : Prop :=
  ∃ n r k', k.processCreate p userEntry userEsp n = some (r, k') ∧
    (r ≠ 0 ∧ k.Complete k' r ∨ r = 0 ∧ k.Unchanged k')

/-- The pages that are taken before the kernel stack: those of the space, the table for
    code and stack, and the stack. -/
def userPages (k : KernelState) : Nat :=
  k.machine.spacePages + k.machine.newTables k.machine.kernelSpace + 1

/-- No control block; too few pages for a space; or all that the process needs: a page with
    the code, no supervisor table in its slot, two adjacent pages that are the lowest free
    ones when the kernel stack is taken, and room in the table. -/
def CanCreate (k : KernelState) (p : Nat) : Prop :=
  p = 0 ∨ k.machine.pmm.freePages.length < k.machine.spacePages ∨
    (k.userCodePhys ≠ 0 ∧
      supervisor k.machine.mem k.machine.kernelSpace (pdIdx USER_CODE_ADDR) = false ∧
      (∃ a rest, k.machine.pmm.freePages.drop k.userPages = a :: (a + 1) :: rest) ∧
      k.sys.processTable.length < MAX_PROCESSES)

section result

variable {k : KernelState} {p userEntry userEsp : Nat} (h : k.Ready)

include h

/-- The pages that are free when the kernel stack is taken. -/
theorem Ready.freePages {space : Nat} {m₁ m₂ : Machine}
    (hcreate : k.machine.vmmCreateSpace = (space, m₁)) (hspace : space ≠ 0)
    (hinstall : m₁.userInstallIntoSpace k.userCodePhys space = m₂) (hcode : k.userCodePhys ≠ 0) :
    m₂.pmm.freePages = k.machine.pmm.freePages.drop k.userPages := by
  have hpages := (vmmCreateSpace_pages h.kernelSpace.directory_inUse h.zero_used hcreate).2 hspace
  have hinstalled := h.installed hcreate hspace hcode
  rw [hinstall] at hinstalled
  rw [hinstalled.pmm, hpages, Pmm.takePages_takePages, Pmm.freePages_takePages,
    h.newTables_eq hcreate hspace, userPages, Nat.add_assoc]

theorem AllOrNothing.canCreate (hresult : k.AllOrNothing p userEntry userEsp) : k.CanCreate p := by
  obtain ⟨n, r, k', hcall, hresult⟩ := hresult
  by_cases hp : p = 0
  · exact .inl hp
  right
  rcases hcreate : k.machine.vmmCreateSpace with ⟨space, m₁⟩
  obtain ⟨henough, -⟩ :=
    vmmCreateSpace_pages h.kernelSpace.directory_inUse h.zero_used hcreate
  by_cases hspace : space = 0
  · exact .inl (Nat.lt_of_not_le fun hle => henough.mpr hle hspace)
  right
  obtain ⟨m₂, hinstall⟩ : ∃ m₂, m₁.userInstallIntoSpace k.userCodePhys space = m₂ := ⟨_, rfl⟩
  obtain ⟨hinv, hkernel, hdirectory, hkeeps⟩ := h.install hcreate hspace hinstall
  have hzero := hkeeps 0 h.zero_used
  rcases processCreate_some hp hcreate hspace hinstall hzero hcall with
    ⟨rfl, hbits⟩ | ⟨a, rest, hfree, rfl, hstack, -, hsys⟩
  · -- the directory of the space is never given back
    rcases hresult with ⟨hne, -⟩ | ⟨-, hunchanged⟩
    · exact absurd rfl hne
    · obtain ⟨-, -, hmade⟩ := vmmCreateSpace_cases h.kernelSpace.directory_inUse hcreate
      obtain ⟨-, hclear, -, -⟩ := hmade hspace
      have hused := (hinv.inUse space (.inr (.inl rfl))).used
      rw [← hbits, hunchanged.used, hclear] at hused
      exact absurd hused Bool.false_ne_true
  · rcases hresult with ⟨-, hcomplete⟩ | ⟨hzero_p, -⟩
    · obtain ⟨hroom, -, -, hproc, -⟩ := ProcessSystem.registerProcess_eq_some hsys
      have hcode := hcomplete.code.1
      refine ⟨hcode, ?_, ⟨a, rest, ?_⟩, hroom⟩
      · by_contra hsup
        rw [Bool.not_eq_false] at hsup
        obtain ⟨hinv', hsame, -⟩ := hinv.untouched hstack.untouched hstack.keeps
        have hslot : pdIdx USER_CODE_ADDR < ENTRIES := by decide
        rw [← supervisor_congr hdirectory hslot, ← supervisor_congr hsame.directory hslot] at hsup
        have hmapped := hcomplete.code.2
        rw [hproc, ProcessSystem.userProcess, userPage_of_supervisor] at hmapped
        · nomatch hmapped
        · rw [hinv'.shared _ hslot hsup]
          exact (supervisor_iff.mp hsup).2
      · rw [← h.freePages hcreate hspace hinstall hcode, hfree]
    · exact absurd hzero_p hp

/-- Without a control block or without a space nothing is changed. -/
theorem allOrNothing_of_failed {space : Nat} {m₁ : Machine}
    (hcreate : k.machine.vmmCreateSpace = (space, m₁)) (hfailed : p = 0 ∨ space = 0) :
    k.AllOrNothing p userEntry userEsp := by
  by_cases hp : p = 0
  · refine ⟨0, 0, k, ?_, .inr ⟨rfl, fun _ => rfl, rfl⟩⟩
    rw [processCreate, if_pos hp]
  · have hspace := hfailed.resolve_left hp
    obtain ⟨-, hback, -⟩ := vmmCreateSpace_cases h.kernelSpace.directory_inUse hcreate
    refine ⟨0, 0,
      { k with machine := m₁, sys := { k.sys with nextPid := u32 (k.sys.nextPid + 1) } }, ?_,
      .inr ⟨rfl, (hback hspace).used_eq h.zero_used, rfl⟩⟩
    rw [processCreate, if_neg hp, hcreate]
    dsimp only
    rw [if_pos hspace]

/-- With enough pages and room in the table the process is returned. -/
theorem Ready.creates (hp : p ≠ 0)
    (henough : k.machine.spacePages ≤ k.machine.pmm.freePages.length)
    (hroom : k.sys.processTable.length < MAX_PROCESSES) {a : Nat} {rest : List Nat}
    (hfree : k.machine.pmm.freePages.drop
      (if k.userCodePhys = 0 then k.machine.spacePages else k.userPages) = a :: (a + 1) :: rest) :
    ∃ k', k.processCreate p userEntry userEsp 1 = some (p, k') := by
  rcases hcreate : k.machine.vmmCreateSpace with ⟨space, m₁⟩
  obtain ⟨hspace, hfree₁⟩ := vmmCreateSpace_pages h.kernelSpace.directory_inUse h.zero_used hcreate
  have hspace := hspace.mpr henough
  obtain ⟨m₂, hinstall⟩ : ∃ m₂, m₁.userInstallIntoSpace k.userCodePhys space = m₂ := ⟨_, rfl⟩
  obtain ⟨-, -, -, hkeeps⟩ := h.install hcreate hspace hinstall
  apply processCreate_returns hp hcreate hspace hinstall (hkeeps 0 h.zero_used) _ hroom
  · exact a
  · exact rest
  · by_cases hcode : k.userCodePhys = 0
    · rw [if_pos hcode] at hfree
      rw [← hinstall, userInstallIntoSpace, if_pos (.inr hcode), hfree₁ hspace,
        Pmm.freePages_takePages, hfree]
    · rw [if_neg hcode] at hfree
      rw [h.freePages hcreate hspace hinstall hcode, hfree]

theorem CanCreate.allOrNothing (hcan : k.CanCreate p) : k.AllOrNothing p userEntry userEsp := by
  rcases hcreate : k.machine.vmmCreateSpace with ⟨space, m₁⟩
  obtain ⟨henough, hfree₁⟩ :=
    vmmCreateSpace_pages h.kernelSpace.directory_inUse h.zero_used hcreate
  by_cases hfailed : p = 0 ∨ space = 0
  · exact allOrNothing_of_failed h hcreate hfailed
  obtain ⟨hp, hspace⟩ := not_or.mp hfailed
  rcases hcan with hzero_p | hshort | ⟨hcode, hsup, ⟨a, rest, hdrop⟩, hroom⟩
  · exact absurd hzero_p hp
  · exact absurd (henough.mp hspace) (Nat.not_le.mpr hshort)
  obtain ⟨m₂, hinstall⟩ : ∃ m₂, m₁.userInstallIntoSpace k.userCodePhys space = m₂ := ⟨_, rfl⟩
  obtain ⟨hinv, -, -, hkeeps⟩ := h.install hcreate hspace hinstall
  have hzero := hkeeps 0 h.zero_used
  obtain ⟨k', hcall⟩ : ∃ k', k.processCreate p userEntry userEsp 1 = some (p, k') :=
    h.creates hp (henough.mp hspace) hroom (by rw [if_neg hcode]; exact hdrop)
  refine ⟨1, p, k', hcall, .inl ⟨hp, ?_⟩⟩
  rcases processCreate_some hp hcreate hspace hinstall hzero hcall with
    ⟨hzero_p, -⟩ | ⟨b, -, -, -, hstack, -, hsys⟩
  · exact absurd hzero_p hp
  obtain ⟨-, htable, -, hproc, -⟩ := ProcessSystem.registerProcess_eq_some hsys
  obtain ⟨-, -, hsame⟩ := hinv.untouched hstack.untouched hstack.keeps
  -- the page of the user stack
  obtain ⟨hinv₁, hsame₁, -, hkeeps₁⟩ := h.kernelSpace.vmmCreateSpace hcreate hspace
  have hinstalled := h.installed hcreate hspace hcode
  rw [hinstall] at hinstalled
  obtain ⟨f, hmapped⟩ := hinstalled.exists_stack (by
    rw [h.freePages hcreate hspace hinstall hcode, hdrop]
    exact List.cons_ne_nil _ _)
  obtain ⟨hcode_page, hstack_page⟩ := hmapped.userPages hinv₁ ((h.code hcode).1.keeps hkeeps₁)
    ((supervisor_congr hsame₁.directory (by decide)).trans hsup)
  constructor
  · rw [htable]
    exact List.mem_append_right _ List.mem_cons_self
  · rw [hproc]
    exact ⟨hcode, (userPage_congr hsame (by decide)).trans hcode_page⟩
  · rw [hproc]
    refine ⟨f, ?_, (userPage_congr hsame (by decide)).trans hstack_page⟩
    exact hkeeps₁.clear hmapped.clear
  · rw [hproc]
    exact ⟨Nat.mul_ne_zero hstack.ne_zero (by decide), hstack.inUse⟩

/-- **Creation is all or nothing** exactly when the process can be completed or the space
    cannot be made. Past that point nothing is given back where the kernel stack cannot be
    had, the lack of a user page is not reported, and a full table is a panic. -/
theorem processCreate_all_or_nothing_iff (p userEntry userEsp : Nat) :
    k.AllOrNothing p userEntry userEsp ↔ k.CanCreate p :=
  ⟨fun hresult => hresult.canCreate h, fun hcan => hcan.allOrNothing h⟩

end result

/-! ## Two small kernels -/

/-- The small machine with the code in the page at `0x3000`. -/
def smallKernel (pmm : Pmm) : KernelState where
  machine := { smallMachine with pmm := pmm }
  userCodePhys := 0x3000
  sys := {
    procs := fun _ => ProcessSystem.kernelProcess 0 0x1000 0
    processTable := []
    currentProcess := -1
    nextPid := 1
    tssEsp0 := 0
    cr3 := 0x1000 }

/-- Sixteen pages, of which the first four are in use. -/
def codePages : Pmm := ⟨fun i => if i = 0 then 15 else 0, 16, 4, smallPages_le⟩

section small

variable {pmm : Pmm}

theorem smallKernel_entry {i : Nat} (hi : i < ENTRIES) :
    entryAt (smallKernel pmm).machine.mem (smallKernel pmm).machine.kernelSpace i =
      if i = 0 then 0x2003 else 0 :=
  entryAt_identity_directory hi

theorem smallMachine_keeps (hused : ∀ i < 8, smallMachine.pmm.testBit i = true →
    pmm.testBit i = true) : smallMachine.pmm.Keeps pmm := by
  intro page hbit
  by_cases hpage : page < 8
  · exact hused page hpage hbit
  · have hbyte : page / 8 ≠ 0 := by omega
    rw [Pmm.testBit, smallMachine] at hbit
    dsimp only at hbit
    rw [if_neg hbyte, UInt8.toNat_zero, Nat.zero_testBit] at hbit
    exact absurd hbit Bool.false_ne_true

theorem smallKernel_ready (hused : ∀ i < 4, pmm.testBit i = true) : (smallKernel pmm).Ready := by
  have hthree : ∀ i < 8, smallMachine.pmm.testBit i = true → i < 4 := by decide
  have hkeeps := smallMachine_keeps fun i hi hbit => hused i (hthree i hi hbit)
  have hcode : (smallKernel pmm).userCodePhys = 0x3000 := rfl
  have hkernel : (smallKernel pmm).machine.kernelSpace = 0x1000 := rfl
  refine ⟨smallMachine_kernelSpace.keeps hkeeps, hused 0 (by decide), fun _ => ?_⟩
  rw [hcode]
  refine ⟨⟨⟨by decide, by decide⟩, hused 3 (by decide)⟩, by rw [hkernel]; decide, ?_⟩
  rintro ⟨i, hi, -, hframe⟩
  rw [smallKernel_entry hi] at hframe
  split at hframe
  · exact absurd hframe (by decide)
  · exact absurd hframe (by decide)

theorem smallKernel_spacePages : (smallKernel pmm).machine.spacePages = 1 := by
  rw [spacePages, Nat.add_eq_right, copiedSlots, List.length_eq_zero_iff, List.filter_eq_nil_iff]
  intro i hi
  rw [copiedSlot, smallKernel_entry (List.mem_range.mp hi)]
  split <;> decide

theorem smallKernel_userPages : (smallKernel pmm).userPages = 3 := by
  rw [userPages, smallKernel_spacePages, newTables, smallKernel_entry (by decide)]
  rfl

end small

theorem codePages_ready : (smallKernel codePages).Ready := smallKernel_ready (by decide)

theorem smallKernel_freePages :
    (smallKernel codePages).machine.pmm.freePages = [4, 5, 6, 7, 8, 9, 10, 11, 12, 13, 14, 15] := by
  decide

theorem smallKernel_creates (userEntry userEsp : Nat) :
    ∃ k', (smallKernel codePages).processCreate 8 userEntry userEsp 1 = some (8, k') := by
  apply codePages_ready.creates (by decide)
  · rw [smallKernel_spacePages, smallKernel_freePages]
    decide
  · decide
  · rw [if_neg (by decide), smallKernel_userPages, smallKernel_freePages]
    rfl

theorem processCreate_all_or_nothing_small :
    (smallKernel codePages).AllOrNothing 8 USER_CODE_ADDR 0x40002000 := by
  apply (processCreate_all_or_nothing_iff codePages_ready 8 _ _).mpr
  refine .inr (.inr ⟨by decide, ?_, ⟨7, [9, 10, 11, 12, 13, 14, 15], ?_⟩, by decide⟩)
  · rw [supervisor, smallKernel_entry (by decide)]
    rfl
  · rw [smallKernel_userPages, smallKernel_freePages]
    rfl

/-- After `pmm_init` with 5 MiB all pages but one have been taken. The call returns `nullptr`
    and the page is lost: it is the directory of a space that nothing refers to. -/
theorem processCreate_loses_space :
    ¬ ∀ (k : KernelState) (p userEntry userEsp : Nat), k.Ready → k.AllOrNothing p userEntry userEsp := by
  intro hall
  obtain ⟨pmm, hfree⟩ : ∃ pmm : Pmm, pmm.freePages = [1279] := by
    refine ⟨(Pmm.pmmInit 5).takePages 255, ?_⟩
    rw [Pmm.freePages_takePages, Pmm.freePages_pmmInit (by decide), List.drop_range']
    rfl
  have hready := smallKernel_ready fun i hi => Pmm.testBit_of_lt_head hfree (by omega : i < 1279)
  have hfree' : (smallKernel pmm).machine.pmm.freePages = [1279] := hfree
  rcases (hall _ 8 USER_CODE_ADDR 0x40002000 hready).canCreate hready with
    hp | hshort | ⟨-, -, ⟨a, rest, hdrop⟩, -⟩
  · exact absurd hp (by decide)
  · rw [hfree', smallKernel_spacePages] at hshort
    exact absurd hshort (by decide)
  · rw [hfree', smallKernel_userPages] at hdrop
    nomatch hdrop

end KernelState

end NemoOS
