import NemoOS.DirectoryFill
import NemoOS.MapPointwise
import NemoOS.PageSet

/-!
# A new space is a clone or was never there

`vmm_create_space` copies the kernel's directory: absent slots stay empty, supervisor slots
share the kernel's table, user slots get a table of their own with the same entries.
`Filling` follows the loop as far as pages are concerned; here the contents of the copied
tables are added (`Copied`), so that every address is translated as in the kernel space.

Where a page is missing, the loop gives back the pages it has taken. The bitmap is then as
before by `GivenBack`, and so is the counter, since it moves with the bitmap in every call
(`Pmm.Balanced`).
-/

namespace NemoOS

open Words Bytes Machine

/-! ## The contents of the copies -/

/-- The tables of the user slots below `i` have the entries of the kernel's. -/
def Copied (mem₀ : Memory) (kernel dir i : Nat) (mem : Memory) : Prop :=
  ∀ j < i, isPresent (entryAt mem₀ kernel j) = true → isUser (entryAt mem₀ kernel j) = true →
    ∀ k < ENTRIES, entryAt mem (frame (entryAt mem dir j)) k =
      entryAt mem₀ (frame (entryAt mem₀ kernel j)) k

section copies

variable {mem₀ mem mem' : Memory} {pmm₀ pmm : Pmm} {kernel dir i : Nat}

/-- The user bit is copied with the other flags. -/
theorem Filling.isUser_copied (h : Filling mem₀ pmm₀ kernel dir i mem pmm) {j : Nat} (hj : j < i)
    (hpresent : isPresent (entryAt mem₀ kernel j) = true)
    (huser : isUser (entryAt mem₀ kernel j) = true) : isUser (entryAt mem dir j) = true := by
  obtain ⟨a, ha, -, hentry, -, -⟩ := h.copied j hj hpresent huser
  rw [hentry, isUser_add ha, isUser_flagBits, huser]

/-- Writes outside the directory entries and the copies made so far leave the copies alone. -/
theorem Copied.congr (h : Copied mem₀ kernel dir i mem)
    (hfilling : Filling mem₀ pmm₀ kernel dir i mem pmm)
    (hdir : ∀ j < i, entryAt mem' dir j = entryAt mem dir j)
    (htable : ∀ j < i, isUser (entryAt mem dir j) = true → ∀ k < ENTRIES,
      entryAt mem' (frame (entryAt mem dir j)) k = entryAt mem (frame (entryAt mem dir j)) k) :
    Copied mem₀ kernel dir i mem' := by
  intro j hj hpresent huser k hk
  rw [hdir j hj, htable j hj (hfilling.isUser_copied hj hpresent huser) k hk]
  exact h j hj hpresent huser k hk

theorem Copied.succ (h : Copied mem₀ kernel dir i mem)
    (hlast : isPresent (entryAt mem₀ kernel i) = true → isUser (entryAt mem₀ kernel i) = true →
      ∀ k < ENTRIES, entryAt mem (frame (entryAt mem dir i)) k =
        entryAt mem₀ (frame (entryAt mem₀ kernel i)) k) :
    Copied mem₀ kernel dir (i + 1) mem := by
  intro j hj
  rcases Nat.lt_succ_iff_lt_or_eq.mp hj with hlt | rfl
  · exact h j hlt
  · exact hlast

/-- A slot of the directory is set. -/
theorem Copied.setSlot (h : Copied mem₀ kernel dir i mem)
    (hfilling : Filling mem₀ pmm₀ kernel dir i mem pmm) (hi : i < ENTRIES) (hdir : IsPage dir)
    {e : Nat} (he : e < 2 ^ 32) : Copied mem₀ kernel dir i (setEntry mem dir i e) := by
  refine h.congr hfilling (fun j hj => ?_) fun j hj huser k hk => ?_
  · rw [entryAt_setEntry hdir hi (Nat.lt_trans hj hi) he, if_neg (Nat.ne_of_lt hj)]
  · exact entryAt_onlyPage (onlyPage_setEntry hdir hi) hdir (frame_entryAt_isPage _ _ _)
      (hfilling.user_clear hj huser).2.1 hk

/-- A page that is not in use gets a copy, and a slot of the directory points to it. -/
theorem Copied.setCopy (h : Copied mem₀ kernel dir i mem)
    (hfilling : Filling mem₀ pmm₀ kernel dir i mem pmm) (hi : i < ENTRIES) (hdir : IsPage dir)
    {table e src : Nat} (htable : IsPage table) (hclear : pmm.testBit (table / PAGE_SIZE) = false)
    (he : e < 2 ^ 32) :
    Copied mem₀ kernel dir i (setEntry (copyPage mem table src) dir i e) := by
  have hcopy : OnlyPage table mem (copyPage mem table src) := onlyPage_copyPage src
  -- the directory and the copies are in use
  have hne : ∀ a, pmm.testBit (a / PAGE_SIZE) = true → a ≠ table := by
    rintro a ha rfl
    rw [hclear] at ha
    exact Bool.false_ne_true ha
  have hne_dir : dir ≠ table := hne dir ((hfilling.used _).mpr (.inr (.inl rfl)))
  refine h.congr hfilling (fun j hj => ?_) fun j hj huser k hk => ?_
  · rw [entryAt_setEntry hdir hi (Nat.lt_trans hj hi) he, if_neg (Nat.ne_of_lt hj)]
    exact entryAt_onlyPage hcopy htable hdir hne_dir (Nat.lt_trans hj hi)
  · have hpage := frame_entryAt_isPage mem dir j
    rw [entryAt_onlyPage (onlyPage_setEntry hdir hi) hdir hpage (hfilling.user_clear hj huser).2.1 hk]
    exact entryAt_onlyPage hcopy htable hpage
      (hne _ ((hfilling.used _).mpr (.inr (.inr ⟨j, hj, huser, rfl⟩)))) hk

end copies

/-- A round of the loop. -/
theorem FillStep.copies {mem₀ : Memory} {pmm₀ : Pmm} {dir i : Nat} {m m' : Machine}
    (hstep : FillStep dir i m m') (hi : i < ENTRIES) (hkernel : InUse pmm₀ m.kernelSpace)
    (htables : ∀ a, HasTable mem₀ m.kernelSpace AllSlots a → InUse pmm₀ a) (hdir : IsPage dir)
    (hfilling : Filling mem₀ pmm₀ m.kernelSpace dir i m.mem m.pmm)
    (h : Copied mem₀ m.kernelSpace dir i m.mem) : Copied mem₀ m.kernelSpace dir (i + 1) m'.mem := by
  have hentry := hfilling.untouched.entryAt_eq hkernel hi
  cases hstep with
  | absent habsent =>
      rw [hentry] at habsent
      refine (h.setSlot hfilling hi hdir (Nat.two_pow_pos 32)).succ fun hpresent => ?_
      rw [habsent] at hpresent
      exact absurd hpresent Bool.false_ne_true
  | shared hsup =>
      rw [supervisor_iff, hentry] at hsup
      refine (h.setSlot hfilling hi hdir (entryAt_lt _ _ _)).succ fun _ huser => ?_
      rw [hsup.2] at huser
      exact absurd huser Bool.false_ne_true
  | copied hpresent huser halloc hne =>
      rename_i table pmm
      obtain ⟨hpage, hclear, -⟩ := (pmmAllocPage_page halloc).2 hne
      have hflags : flagBits (entryAt m.mem m.kernelSpace i) < PAGE_SIZE := Nat.mod_lt _ (by decide)
      have hbound := hpage.add_lt hflags
      have hne_dir : table ≠ dir := by
        rintro rfl
        rw [(hfilling.used _).mpr (.inr (.inl rfl))] at hclear
        exact Bool.false_ne_true hclear.symm
      refine (h.setCopy hfilling hi hdir hpage hclear hbound).succ fun hpresent₀ _ k hk => ?_
      rw [entryAt_setEntry hdir hi hi hbound, if_pos rfl, frame_add hpage hflags,
        entryAt_onlyPage (onlyPage_setEntry hdir hi) hdir hpage hne_dir hk,
        entryAt_copyPage hpage (frame_entryAt_isPage _ _ _) hk, hentry]
      exact hfilling.untouched.entryAt_eq (htables _ ⟨i, hi, hpresent₀, rfl⟩) hk

/-! ## The translation of the clone -/

section clone

variable {mem₀ mem : Memory} {pmm₀ pmm : Pmm} {kernel dir : Nat}
  (htables : ∀ a, HasTable mem₀ kernel AllSlots a → InUse pmm₀ a)

include htables

/-- The kernel's tables are pages in use. -/
theorem Untouched.sameTables (h : Untouched pmm₀ mem₀ mem) (hkernel : InUse pmm₀ kernel) :
    SameTables mem₀ mem kernel AllSlots where
  directory := h.sameDirectory hkernel
  table i hi hpresent _ hj := h.entryAt_eq (htables _ ⟨i, hi, hpresent, rfl⟩) hj

/-- Every address is translated as in the kernel space. -/
theorem Filling.translate_eq (h : Filling mem₀ pmm₀ kernel dir ENTRIES mem pmm)
    (hcopied : Copied mem₀ kernel dir ENTRIES mem) :
    SameTranslation (translate mem dir) (translate mem₀ kernel) := by
  intro v hv
  have hi := pdIdx_lt hv
  rw [translate_eq_walk, translate_eq_walk]
  cases hpresent : isPresent (entryAt mem₀ kernel (pdIdx v)) with
  | false =>
      rw [walk_absent hpresent, h.absent _ hi hpresent]
      exact walk_absent rfl _ _
  | true =>
      cases huser : isUser (entryAt mem₀ kernel (pdIdx v)) with
      | false =>
          rw [h.shared _ hi (supervisor_iff.mpr ⟨hpresent, huser⟩),
            h.untouched.entryAt_eq (htables _ ⟨_, hi, hpresent, rfl⟩) (ptIdx_lt v)]
      | true =>
          have hentries := hcopied _ hi hpresent huser _ (ptIdx_lt v)
          obtain ⟨a, ha, -, hentry, -, -⟩ := h.copied _ hi hpresent huser
          have hflags : flagBits (entryAt mem₀ kernel (pdIdx v)) < PAGE_SIZE :=
            Nat.mod_lt _ (by decide)
          rw [hentries, walk, walk, hentry, isPresent_add ha, isPresent_flagBits,
            flagBits_add ha hflags]

end clone

/-! ## The pages that are given back -/

/-- The loop takes and gives back single pages, and the counter follows. -/
theorem balanced_fillDirectory {dir : Nat} {m m' : Machine} {ok : Bool}
    (hlt : m.pmm.usedPages < 2 ^ 32) (hfill : fillDirectory dir 0 m ENTRIES = (ok, m')) :
    m.pmm.Balanced m'.pmm ∧ m'.pmm.usedPages < 2 ^ 32 := by
  obtain ⟨hdone, hfailed⟩ := fillDirectory_run
    (P := fun _ m₁ => m.pmm.Balanced m₁.pmm ∧ m₁.pmm.usedPages < 2 ^ 32)
    (by
      rintro i m₁ m₂ - ⟨hbalanced, hlt⟩ hstep
      cases hstep with
      | absent => exact ⟨hbalanced, hlt⟩
      | shared => exact ⟨hbalanced, hlt⟩
      | copied _ _ halloc _ =>
          have hnext := m₁.pmm.balanced_pmmAllocPage
          have hlt' := Pmm.usedPages_pmmAllocPage_lt hlt
          rw [halloc] at hnext hlt'
          exact ⟨hbalanced.trans hnext, hlt'⟩)
    ⟨rfl, hlt⟩ (Nat.zero_add _) hfill
  cases ok with
  | true => exact hdone rfl
  | false =>
      obtain ⟨j, m₁, pmm, -, ⟨hbalanced, hlt⟩, ⟨-, -, halloc⟩, rfl⟩ := hfailed rfl
      have hnext := m₁.pmm.balanced_pmmAllocPage
      have hlt' := Pmm.usedPages_pmmAllocPage_lt hlt
      rw [halloc] at hnext hlt'
      dsimp only at hnext hlt' ⊢
      rw [freeTables_eq]
      exact ⟨((hbalanced.trans hnext).trans (Pmm.balanced_foldl_pmmFreePage _ _)).trans
        (Pmm.balanced_pmmFreePage _ _),
        Pmm.usedPages_pmmFreePage_lt (Pmm.usedPages_foldl_pmmFreePage_lt hlt' _) _⟩

theorem balanced_vmmCreateSpace {m m' : Machine} {space : Nat} (hlt : m.pmm.usedPages < 2 ^ 32)
    (hcreate : m.vmmCreateSpace = (space, m')) :
    m.pmm.Balanced m'.pmm ∧ m'.pmm.usedPages < 2 ^ 32 := by
  have hfirst := m.pmm.balanced_pmmAllocPage
  have hlt₁ := Pmm.usedPages_pmmAllocPage_lt hlt
  rw [vmmCreateSpace] at hcreate
  rcases halloc : m.pmm.pmmAllocPage with ⟨dir, pmm⟩
  rw [halloc] at hcreate hfirst hlt₁
  dsimp only at hcreate hfirst hlt₁
  split at hcreate
  · obtain ⟨-, rfl⟩ := Prod.ext_iff.mp hcreate
    exact ⟨hfirst, hlt₁⟩
  · rcases hfill : fillDirectory dir 0 { m with pmm := pmm } ENTRIES with ⟨ok, m₁⟩
    rw [hfill] at hcreate
    obtain ⟨-, rfl⟩ := Prod.ext_iff.mp hcreate
    obtain ⟨hbalanced, hlt₂⟩ := balanced_fillDirectory (m := { m with pmm := pmm }) hlt₁ hfill
    exact ⟨hfirst.trans hbalanced, hlt₂⟩

/-! ## The call -/

/-- A space that is returned translates every address as the kernel space does, and its pages
    are the kernel's or new ones. Where none is returned, the allocator and the kernel's
    directory and tables are as before. -/
structure CloneOrNothing (m : Machine) (space : Nat) (m' : Machine) : Prop where
  clone : space ≠ 0 → SameTranslation (translate m'.mem space) (translate m'.mem m.kernelSpace)
  kernel : SameTranslation (translate m'.mem m.kernelSpace) (translate m.mem m.kernelSpace)
  fresh : space ≠ 0 → ∀ a, a = space ∨ HasTable m'.mem space AllSlots a →
    ¬ HasTable m.mem m.kernelSpace AllSlots a → m.pmm.Took m'.pmm (a / PAGE_SIZE)
  nothing : space = 0 → m'.pmm = m.pmm ∧ ∀ x,
    x / PAGE_SIZE * PAGE_SIZE = m.kernelSpace ∨
      HasTable m.mem m.kernelSpace AllSlots (x / PAGE_SIZE * PAGE_SIZE) → m'.mem x = m.mem x

/-- The pages of a new space that are not tables of the kernel. -/
theorem Filling.took {mem₀ mem : Memory} {pmm₀ pmm : Pmm} {kernel dir : Nat}
    (h : Filling mem₀ pmm₀ kernel dir ENTRIES mem pmm) (hdir : IsPage dir)
    (hclear : pmm₀.testBit (dir / PAGE_SIZE) = false) (hlt : dir / PAGE_SIZE < pmm₀.totalPages)
    {a : Nat} (ha : a = dir ∨ HasTable mem dir AllSlots a)
    (hnot : ¬ HasTable mem₀ kernel AllSlots a) : pmm₀.Took pmm (a / PAGE_SIZE) := by
  have howns : Owns mem dir a := by
    rcases ha with rfl | ⟨i, hi, hpresent, rfl⟩
    · exact .inl rfl
    · cases hsup : supervisor mem₀ kernel i with
      | true =>
          rw [h.shared i hi hsup] at hpresent hnot
          exact absurd ⟨i, hi, hpresent, rfl⟩ hnot
      | false => exact .inr ⟨i, ⟨hi, hpresent, h.own_user hi hsup hpresent⟩, rfl⟩
  obtain ⟨hfree, -, hused⟩ := h.owns hdir hclear hlt howns
  exact ⟨hfree, hused.used⟩

/-- The loop copies the contents of the tables. -/
theorem vmmCreateSpace_copied {m m' : Machine} {space : Nat} (hkernel : InUse m.pmm m.kernelSpace)
    (htables : ∀ a, HasTable m.mem m.kernelSpace AllSlots a → InUse m.pmm a)
    (hcreate : m.vmmCreateSpace = (space, m')) (hne : space ≠ 0) :
    Copied m.mem m.kernelSpace space ENTRIES m'.mem := by
  obtain ⟨pmm, halloc, hfill⟩ := vmmCreateSpace_made hcreate hne
  obtain ⟨-, -, hpage⟩ := pmmAllocPage_used halloc
  obtain ⟨hdir, hclear, -, -⟩ := hpage hne
  obtain ⟨hrun, -⟩ := fillDirectory_run (m := { m with pmm := pmm })
    (P := fun i m₁ => (Filling m.mem m.pmm m.kernelSpace space i m₁.mem m₁.pmm ∧
      m₁.kernelSpace = m.kernelSpace) ∧ Copied m.mem m.kernelSpace space i m₁.mem)
    (by
      rintro i m₁ m₂ hi ⟨⟨hfilling, hsame⟩, hcopied⟩ hstep
      rw [← hsame] at hkernel htables hfilling hcopied ⊢
      exact ⟨hstep.filling hi hkernel hdir hclear hfilling,
        hstep.copies hi hkernel htables hdir hfilling hcopied⟩)
    ⟨⟨Filling.start halloc hne, rfl⟩, fun j hj => absurd hj (Nat.not_lt_zero j)⟩ (Nat.zero_add _)
    hfill
  exact (hrun rfl).2

/-- **`vmm_create_space` returns a clone of the kernel space or leaves no trace**, if the
    kernel's directory and tables and the page at 0 are in use. It returns none exactly where
    there are too few free pages. -/
theorem vmmCreateSpace_cloneOrNothing {m m' : Machine} {space : Nat}
    (hdirectory : IsPage m.kernelSpace) (hused : PagesInUse m m.kernelSpace)
    (hcounter : m.pmm.usedPages < 2 ^ 32) (hcreate : m.vmmCreateSpace = (space, m')) :
    CloneOrNothing m space m' ∧ (space = 0 ↔ m.pmm.freePages.length < m.spacePages) := by
  have hzero : m.pmm.testBit 0 = true := hused 0 (.inl rfl)
  have hkernel : InUse m.pmm m.kernelSpace := ⟨hdirectory, hused _ (.inr (.inl rfl))⟩
  have htables : ∀ a, HasTable m.mem m.kernelSpace AllSlots a → InUse m.pmm a := by
    intro a ha
    refine ⟨?_, hused a (.inr (.inr ha))⟩
    obtain ⟨i, -, -, rfl⟩ := ha
    exact frame_entryAt_isPage _ _ _
  obtain ⟨-, hnone, hmade⟩ := vmmCreateSpace_cases hkernel hcreate
  have huntouched : Untouched m.pmm m.mem m'.mem := by
    by_cases hfail : space = 0
    · exact (hnone hfail).untouched
    · exact (hmade hfail).2.2.2.untouched
  have hsame := (huntouched.sameTables htables hkernel)
  refine ⟨⟨fun hne v hv => ?_, fun v hv => ?_, fun hne a => ?_, fun hfail => ⟨?_, fun x hx => ?_⟩⟩, ?_⟩
  · rw [(hmade hne).2.2.2.translate_eq htables
      (vmmCreateSpace_copied hkernel htables hcreate hne) v hv, hsame.translate_eq (pdIdx_lt hv)]
  · exact hsame.translate_eq (pdIdx_lt hv)
  · obtain ⟨hdir, hclear, hlt, hfilling⟩ := hmade hne
    exact hfilling.took hdir hclear hlt
  · obtain ⟨hbalanced, hlt⟩ := balanced_vmmCreateSpace hcounter hcreate
    exact Pmm.eq_of_balanced ((hnone hfail).used_eq hzero) (hnone hfail).total hbalanced hcounter hlt
  · have hbit := hused _ (.inr hx)
    rw [Nat.mul_div_cancel _ (by decide)] at hbit
    exact huntouched x hbit
  · rw [← Nat.not_le, ← not_iff_not, not_not]
    exact (vmmCreateSpace_pages hkernel hzero hcreate).1

/-- The small machine has the page for one more directory. -/
theorem vmmCreateSpace_cloneOrNothing_small :
    ∃ m', smallMachine.vmmCreateSpace = (0x3000, m') ∧ CloneOrNothing smallMachine 0x3000 m' := by
  obtain ⟨mem, hcreate⟩ := smallMachine_create
  have hused : PagesInUse smallMachine smallMachine.kernelSpace := by
    rintro a (rfl | rfl | htable)
    · decide
    · decide
    · exact (smallMachine_kernelSpace.tables_inUse a htable).1.used
  exact ⟨_, hcreate, (vmmCreateSpace_cloneOrNothing
    smallMachine_kernelSpace.directory_inUse.toIsPage hused (by decide) hcreate).1⟩

theorem vmmCreateSpace_of_null {m : Machine} (hnull : m.pmm.pmmAllocPage.1 = 0) :
    m.vmmCreateSpace = (0, { m with pmm := m.pmm.pmmAllocPage.2 }) := by
  rw [vmmCreateSpace]
  rcases halloc : m.pmm.pmmAllocPage with ⟨dir, pmm⟩
  rw [halloc] at hnull
  dsimp only at hnull ⊢
  rw [if_pos hnull]

/-- The page at 0 is the only free one: the call fails, and the page stays marked. -/
theorem vmmCreateSpace_keeps_zero :
    ¬ ∀ (m m' : Machine) (space : Nat), IsPage m.kernelSpace → m.pmm.usedPages < 2 ^ 32 →
      m.vmmCreateSpace = (space, m') → CloneOrNothing m space m' := by
  intro hall
  have hcreate := vmmCreateSpace_of_null (m := ⟨fun _ => 0, ⟨fun _ => 6, 3, 2, by decide⟩, 0x1000⟩)
    (by decide)
  have hsame := ((hall _ _ 0 ⟨by decide, by decide⟩ (by decide) hcreate).nothing rfl).1
  have hbit := congrArg (Pmm.testBit · 0) hsame
  exact absurd hbit (by decide)

end NemoOS
