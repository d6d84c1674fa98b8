import NemoOS.MapEffect

/-!
# Two runs with the same pages

Two machines with the same page allocator whose memories agree on the pages in use. The
functions of `memory/vmm.cpp` read only pages in use, so that they take the same pages in
both and write the same words; a page that becomes a table is cleared or copied over as a
whole. `Untouched pmm m m'` is read here as "`m` and `m'` agree on the pages in use".

A function that writes a byte by its address alone agrees where its arguments do; copies
are the only exception.
-/

namespace NemoOS

open Words Bytes Machine

/-! ## Byte by byte -/

section bytes

variable {m m' : Memory} {x : Nat} (h : m' x = m x)

include h

theorem write32_congr (a v : Nat) : write32 m' a v x = write32 m a v x := by
  simp only [write32, h]

theorem setEntry_congr (a i e : Nat) : setEntry m' a i e x = setEntry m a i e x :=
  write32_congr h _ _

theorem fill_congr (a : Nat) (v : UInt8) (n : Nat) : fill m' a v n x = fill m a v n x := by
  simp only [fill, h]

end bytes

/-- The words of an entry are overwritten. -/
theorem setEntry_eq {m m' : Memory} {a i e x : Nat} (ha : IsPage a) (hi : i < ENTRIES)
    (hle : a + 4 * i ≤ x) (hlt : x < a + 4 * i + 4) : setEntry m' a i e x = setEntry m a i e x := by
  have hspace := ha.in_space
  rw [PAGE_SIZE] at hspace
  rw [ENTRIES] at hi
  rw [setEntry, setEntry, write32, write32, u32_of_lt (by omega), u32_of_lt (by omega),
    u32_of_lt (by omega), u32_of_lt (by omega)]
  by_cases h0 : x = a + 4 * i
  · rw [if_pos h0, if_pos h0]
  by_cases h1 : x = a + 4 * i + 1
  · rw [if_neg h0, if_neg h0, if_pos h1, if_pos h1]
  by_cases h2 : x = a + 4 * i + 2
  · rw [if_neg h0, if_neg h0, if_neg h1, if_neg h1, if_pos h2, if_pos h2]
  have h3 : x = a + 4 * i + 3 := by omega
  rw [if_neg h0, if_neg h0, if_neg h1, if_neg h1, if_neg h2, if_neg h2, if_pos h3, if_pos h3]

/-- A page that is cleared. -/
theorem fill_eq {m m' : Memory} {a x : Nat} (ha : IsPage a) (v : UInt8)
    (hx : x / PAGE_SIZE = a / PAGE_SIZE) : fill m' a v PAGE_SIZE x = fill m a v PAGE_SIZE x := by
  have haligned := ha.aligned
  have hspace := ha.in_space
  have hin : x < 2 ^ 32 ∧ sub32 x a < PAGE_SIZE := by
    rw [PAGE_SIZE] at *
    rw [sub32, u32]
    omega
  rw [fill, fill, if_pos hin, if_pos hin]

/-- A page that is copied over. -/
theorem copyPage_eq {m m' : Memory} {a src x : Nat} (ha : IsPage a) (hsrc : IsPage src)
    (hx : x / PAGE_SIZE = a / PAGE_SIZE)
    (hsame : ∀ y, y / PAGE_SIZE = src / PAGE_SIZE → m' y = m y) :
    copyPage m' a src x = copyPage m a src x := by
  have haligned := ha.aligned
  have hsrc_aligned := hsrc.aligned
  have hin : a ≤ x ∧ x < a + PAGE_SIZE := by
    rw [PAGE_SIZE] at *
    omega
  rw [copyPage, copyPage, if_pos hin, if_pos hin]
  apply hsame
  rw [PAGE_SIZE] at *
  omega

theorem copyPage_congr {m m' : Memory} {a x : Nat} (ha : IsPage a) (src : Nat)
    (hx : x / PAGE_SIZE ≠ a / PAGE_SIZE) (h : m' x = m x) :
    copyPage m' a src x = copyPage m a src x := by
  have haligned := ha.aligned
  have hout : ¬ (a ≤ x ∧ x < a + PAGE_SIZE) := by
    rw [PAGE_SIZE] at *
    omega
  rw [copyPage, copyPage, if_neg hout, if_neg hout, h]

/-! ## `vmm_create_space` -/

/-- The directories agree in the first `i` slots, and the memories in the other pages in
    use. -/
def AgreeTo (pmm : Pmm) (dir i : Nat) (m m' : Memory) : Prop :=
  ∀ x, pmm.testBit (x / PAGE_SIZE) = true → x / PAGE_SIZE ≠ dir / PAGE_SIZE ∨ x < dir + 4 * i →
    m' x = m x

/-- The same entry in the next slot. -/
theorem AgreeTo.setEntry {pmm : Pmm} {dir i : Nat} {m m' : Memory} (h : AgreeTo pmm dir i m m')
    (hdir : IsPage dir) (hi : i < ENTRIES) (e : Nat) :
    AgreeTo pmm dir (i + 1) (setEntry m dir i e) (setEntry m' dir i e) := by
  intro x hused hx
  by_cases hold : x / PAGE_SIZE ≠ dir / PAGE_SIZE ∨ x < dir + 4 * i
  · exact setEntry_congr (h x hused hold) dir i e
  · exact setEntry_eq hdir hi (by omega) (by omega)

/-- The same copy in a new page. -/
theorem AgreeTo.copyPage {pmm pmm' : Pmm} {dir i table src : Nat} {m m' : Memory}
    (h : AgreeTo pmm dir i m m') (htable : IsPage table) (hsrc : IsPage src)
    (hused : ∀ k, pmm'.testBit k = true ↔ pmm.testBit k = true ∨ k = table / PAGE_SIZE)
    (hsame : ∀ y, y / PAGE_SIZE = src / PAGE_SIZE → m' y = m y) :
    AgreeTo pmm' dir i (copyPage m table src) (copyPage m' table src) := by
  intro x hx_used hx
  by_cases hpage : x / PAGE_SIZE = table / PAGE_SIZE
  · exact copyPage_eq htable hsrc hpage hsame
  · apply copyPage_congr htable src hpage
    exact h x (((hused _).mp hx_used).resolve_right hpage) hx

/-- A round in a machine whose memory agrees: the same entry, and a copy of the same table. -/
theorem FillStep.twin {dir i : Nat} {m m₁ : Machine} {mem' : Memory} (hstep : FillStep dir i m m₁)
    (hi : i < ENTRIES) (hdir : IsPage dir)
    (hentry : entryAt mem' m.kernelSpace i = entryAt m.mem m.kernelSpace i)
    (hsrc : isPresent (entryAt m.mem m.kernelSpace i) = true →
      IsPage (frame (entryAt m.mem m.kernelSpace i)) ∧
        ∀ y, y / PAGE_SIZE = frame (entryAt m.mem m.kernelSpace i) / PAGE_SIZE → mem' y = m.mem y)
    (hagree : AgreeTo m.pmm dir i m.mem mem') :
    ∃ mem₁', FillStep dir i { m with mem := mem' } { m₁ with mem := mem₁' } ∧
      AgreeTo m₁.pmm dir (i + 1) m₁.mem mem₁' := by
  cases hstep with
  | absent habsent =>
      rw [← hentry] at habsent
      exact ⟨_, .absent habsent, hagree.setEntry hdir hi 0⟩
  | shared hsup =>
      have hsup' : supervisor mem' m.kernelSpace i = true := by
        rw [supervisor, hentry]
        exact hsup
      refine ⟨setEntry mem' dir i (entryAt mem' m.kernelSpace i), .shared hsup', ?_⟩
      rw [hentry]
      exact hagree.setEntry hdir hi _
  | @copied hpresent huser table pmm halloc hne =>
      obtain ⟨hframe, hsame⟩ := hsrc hpresent
      obtain ⟨-, -, hpage⟩ := pmmAllocPage_used halloc
      obtain ⟨htable, -, -, hused⟩ := hpage hne
      rw [← hentry] at hpresent huser
      refine ⟨setEntry (copyPage mem' table (frame (entryAt mem' m.kernelSpace i))) dir i
        (table + flagBits (entryAt mem' m.kernelSpace i)), ?_, ?_⟩
      · exact .copied (m := { m with mem := mem' }) hpresent huser halloc hne
      · dsimp only
        rw [hentry]
        exact (hagree.copyPage htable hframe hused hsame).setEntry hdir hi _

/-- The loop in two machines. -/
theorem fillDirectory_twin {mem₀ mem₀' : Memory} {pmm₀ : Pmm} {dir i n : Nat} {m : Machine}
    {mem' : Memory} (hkernel : InUse pmm₀ m.kernelSpace) (hdir : IsPage dir)
    (hclear : pmm₀.testBit (dir / PAGE_SIZE) = false)
    (htables : ∀ a, HasTable mem₀ m.kernelSpace AllSlots a → InUse pmm₀ a)
    (hbase : Untouched pmm₀ mem₀ mem₀') (h : Filling mem₀ pmm₀ m.kernelSpace dir i m.mem m.pmm)
    (h' : Filling mem₀' pmm₀ m.kernelSpace dir i mem' m.pmm)
    (hagree : AgreeTo m.pmm dir i m.mem mem') (hn : i + n = ENTRIES) {ok ok' : Bool}
    {m₁ m₁' : Machine} (hfill : fillDirectory dir i m n = (ok, m₁))
    (hfill' : fillDirectory dir i { m with mem := mem' } n = (ok', m₁')) :
    ok' = ok ∧ (ok = true → m₁'.pmm = m₁.pmm ∧ m₁'.kernelSpace = m₁.kernelSpace ∧
      Untouched m₁.pmm m₁.mem m₁'.mem) := by
  induction n generalizing i m mem' with
  | zero =>
      obtain ⟨rfl, rfl⟩ := Prod.ext_iff.mp hfill
      obtain ⟨rfl, rfl⟩ := Prod.ext_iff.mp hfill'
      refine ⟨rfl, fun _ => ⟨rfl, rfl, fun x hx => hagree x hx ?_⟩⟩
      have haligned := hdir.aligned
      rw [ENTRIES] at hn
      rw [PAGE_SIZE] at *
      omega
  | succ n ih =>
      have hi : i < ENTRIES := by omega
      -- pages in use before the call are the same in both
      have hused : ∀ y, pmm₀.testBit (y / PAGE_SIZE) = true → mem' y = m.mem y := by
        intro y hy
        rw [h'.untouched y hy, hbase y hy, h.untouched y hy]
      have hentry : entryAt mem' m.kernelSpace i = entryAt m.mem m.kernelSpace i :=
        Untouched.entryAt_eq hused hkernel hi
      rcases fillStep_or_fails dir i m with ⟨m₂, hround⟩ | ⟨pmm, hfails⟩
      · obtain ⟨mem₂', hround', hagree₂⟩ := hround.twin hi hdir hentry
          (fun hpresent => by
            rw [h.untouched.entryAt_eq hkernel hi] at hpresent ⊢
            have hsrc := htables _ ⟨i, hi, hpresent, rfl⟩
            refine ⟨hsrc.toIsPage, fun y hy => hused y ?_⟩
            rw [hy]
            exact hsrc.used) hagree
        rw [hround.fillDirectory_eq] at hfill
        rw [hround'.fillDirectory_eq] at hfill'
        obtain ⟨hnext, hspace⟩ := hround.filling hi hkernel hdir hclear h
        obtain ⟨hnext', -⟩ := hround'.filling hi hkernel hdir hclear h'
        rw [← hspace] at hkernel htables hnext hnext'
        exact ih hkernel htables hnext hnext' hagree₂ (by omega) hfill hfill'
      · have hfails' : FillFails i { m with mem := mem' } pmm := by
          obtain ⟨hpresent, huser, halloc⟩ := hfails
          rw [← hentry] at hpresent huser
          exact ⟨hpresent, huser, halloc⟩
        rw [hfails.fillDirectory_eq] at hfill
        rw [hfails'.fillDirectory_eq] at hfill'
        obtain ⟨rfl, -⟩ := Prod.ext_iff.mp hfill
        obtain ⟨rfl, -⟩ := Prod.ext_iff.mp hfill'
        exact ⟨rfl, fun hok => absurd hok Bool.false_ne_true⟩

/-- Both calls return the same space, with the same entries and copies. -/
theorem vmmCreateSpace_twin {m m' : Machine} (hkernel : InUse m.pmm m.kernelSpace)
    (htables : ∀ a, HasTable m.mem m.kernelSpace AllSlots a → InUse m.pmm a)
    (hpmm : m'.pmm = m.pmm) (hsame : m'.kernelSpace = m.kernelSpace)
    (hbase : Untouched m.pmm m.mem m'.mem) {space space' : Nat} {m₁ m₁' : Machine}
    (hcreate : m.vmmCreateSpace = (space, m₁)) (hcreate' : m'.vmmCreateSpace = (space', m₁')) :
    space' = space ∧ (space ≠ 0 → m₁'.pmm = m₁.pmm ∧ m₁'.kernelSpace = m₁.kernelSpace ∧
      Untouched m₁.pmm m₁.mem m₁'.mem) := by
  rw [vmmCreateSpace] at hcreate hcreate'
  rcases halloc : m.pmm.pmmAllocPage with ⟨dir, pmm⟩
  rw [halloc] at hcreate
  rw [hpmm, halloc] at hcreate'
  dsimp only at hcreate hcreate'
  obtain ⟨-, -, hpage⟩ := pmmAllocPage_used halloc
  by_cases hzero : dir = 0
  · rw [if_pos hzero] at hcreate hcreate'
    obtain ⟨rfl, -⟩ := Prod.ext_iff.mp hcreate
    obtain ⟨rfl, -⟩ := Prod.ext_iff.mp hcreate'
    exact ⟨rfl, fun hne => absurd rfl hne⟩
  · rw [if_neg hzero] at hcreate hcreate'
    obtain ⟨hdir, hclear, -, hused⟩ := hpage hzero
    rcases hfill : fillDirectory dir 0 { m with pmm := pmm } ENTRIES with ⟨ok, m₂⟩
    rcases hfill' : fillDirectory dir 0 { m' with pmm := pmm } ENTRIES with ⟨ok', m₂'⟩
    rw [hfill] at hcreate
    rw [hfill'] at hcreate'
    rw [hsame] at hfill'
    have hagree : AgreeTo pmm dir 0 m.mem m'.mem := by
      intro x hx_used hx
      have haligned := hdir.aligned
      apply hbase x (((hused _).mp hx_used).resolve_right _)
      rw [PAGE_SIZE] at *
      omega
    obtain ⟨rfl, htwin⟩ := fillDirectory_twin (m := { m with pmm := pmm }) hkernel hdir hclear
      htables hbase (Filling.start halloc hzero) (Filling.start halloc hzero) hagree (Nat.zero_add _)
      hfill hfill'
    obtain ⟨hspace, rfl⟩ := Prod.ext_iff.mp hcreate
    obtain ⟨hspace', rfl⟩ := Prod.ext_iff.mp hcreate'
    dsimp only at hspace hspace'
    refine ⟨hspace'.symm.trans hspace, fun hne => htwin ?_⟩
    by_contra hfalse
    rw [if_neg hfalse] at hspace
    exact hne hspace.symm

/-! ## Free pages -/

/-- A write inside a page in use changes no free page. -/
theorem OnlyPage.eq_of_clear {pmm : Pmm} {a x : Nat} {m m' : Memory} (hmem : OnlyPage a m m')
    (ha : InUse pmm a) (hx : pmm.testBit (x / PAGE_SIZE) = false) : m' x = m x := by
  by_contra hne
  have hpage := hmem.page_eq ha.toIsPage hne
  have hindex : a / PAGE_SIZE = x / PAGE_SIZE := by
    rw [← hpage, Nat.mul_div_cancel _ (by decide)]
  have hused := ha.used
  rw [hindex, hx] at hused
  exact Bool.false_ne_true hused

/-- A round writes to pages that are in use afterwards. -/
theorem FillStep.free {dir i : Nat} {m m' : Machine} (hstep : FillStep dir i m m')
    (hi : i < ENTRIES) (hdir : InUse m.pmm dir) :
    m.pmm.Keeps m'.pmm ∧ ∀ x, m'.pmm.testBit (x / PAGE_SIZE) = false → m'.mem x = m.mem x := by
  have hentry : ∀ (mem : Memory) (pmm : Pmm) (e : Nat), m.pmm.Keeps pmm → ∀ x,
      pmm.testBit (x / PAGE_SIZE) = false → setEntry mem dir i e x = mem x :=
    fun mem pmm e hkeeps x hx =>
      (onlyPage_setEntry hdir.toIsPage hi).eq_of_clear (hdir.keeps hkeeps) hx
  cases hstep with
  | absent => exact ⟨fun _ hk => hk, hentry _ _ _ fun _ hk => hk⟩
  | shared => exact ⟨fun _ hk => hk, hentry _ _ _ fun _ hk => hk⟩
  | copied _ _ halloc hne =>
      obtain ⟨hkeeps, hpage⟩ := pmmAllocPage_page halloc
      refine ⟨hkeeps, fun x hx => ?_⟩
      dsimp only at hx ⊢
      rw [hentry _ _ _ hkeeps x hx]
      exact (onlyPage_copyPage _).eq_of_clear (hpage hne).2.2 hx

/-- What is free afterwards has the bytes from before. -/
theorem vmmCreateSpace_free {m m' : Machine} {space : Nat}
    (hcreate : m.vmmCreateSpace = (space, m')) (hspace : space ≠ 0) {x : Nat}
    (hx : m'.pmm.testBit (x / PAGE_SIZE) = false) : m'.mem x = m.mem x := by
  obtain ⟨pmm, halloc, hfill⟩ := vmmCreateSpace_made hcreate hspace
  have hdir : InUse pmm space := ((pmmAllocPage_page halloc).2 hspace).2.2
  obtain ⟨hrun, -⟩ := fillDirectory_run
    (P := fun _ m₁ => pmm.Keeps m₁.pmm ∧
      ∀ x, m₁.pmm.testBit (x / PAGE_SIZE) = false → m₁.mem x = m.mem x)
    (by
      rintro i m₁ m₂ hi ⟨hkeeps, hmem⟩ hstep
      obtain ⟨hkeeps₂, hmem₂⟩ := hstep.free hi (hdir.keeps hkeeps)
      exact ⟨hkeeps.trans hkeeps₂, fun x hx => (hmem₂ x hx).trans (hmem x (hkeeps₂.clear hx))⟩)
    (i := 0) (m := { m with pmm := pmm }) ⟨fun _ hk => hk, fun _ _ => rfl⟩ (Nat.zero_add _) hfill
  exact (hrun rfl).2 x hx

/-! ## `vmm_map` -/

section vmmMap

variable {m m' : Machine} {space virt : Nat} (hspace : IsPage space) (hvirt : virt < 2 ^ 32)

include hspace hvirt in
/-- The page goes into the table that was put into the slot. -/
theorem setPage_newTable {table : Nat} (htable : IsPage table) (mem : Memory) (phys flags : Nat) :
    setPage (setEntry mem space (pdIdx virt) (table + (VMM_PRESENT + VMM_WRITABLE + VMM_USER))) space
        virt phys flags =
      setEntry (setEntry mem space (pdIdx virt) (table + (VMM_PRESENT + VMM_WRITABLE + VMM_USER)))
        table (ptIdx virt) (frame phys + flagBits flags) := by
  have hslot := pdIdx_lt hvirt
  have hbound : table + (VMM_PRESENT + VMM_WRITABLE + VMM_USER) < 2 ^ 32 :=
    htable.add_lt (by decide)
  rw [setPage, entryAt_setEntry hspace hslot hslot hbound, if_pos rfl,
    frame_add htable (by decide)]

include hspace hvirt in
/-- Both calls take the same page for a table and write the same words. -/
theorem vmmMap_twin (hpmm : m'.pmm = m.pmm) (hzero : m.pmm.testBit 0 = true)
    (hentry : entryAt m'.mem space (pdIdx virt) = entryAt m.mem space (pdIdx virt))
    (phys flags : Nat) :
    (m'.vmmMap space virt phys flags).2.pmm = (m.vmmMap space virt phys flags).2.pmm ∧
      ∀ x, (m'.mem x = m.mem x ∨ m.pmm.testBit (x / PAGE_SIZE) = false ∧
          (m.vmmMap space virt phys flags).2.pmm.testBit (x / PAGE_SIZE) = true) →
        (m'.vmmMap space virt phys flags).2.mem x = (m.vmmMap space virt phys flags).2.mem x := by
  rw [vmmMap, vmmMap, hentry, hpmm]
  cases hpresent : isPresent (entryAt m.mem space (pdIdx virt)) with
  | true =>
      rw [if_pos rfl, if_pos rfl]
      refine ⟨rfl, ?_⟩
      rintro x (hsame | ⟨hclear, hused⟩)
      · dsimp only
        rw [setPage, setPage, hentry]
        exact setEntry_congr hsame _ _ _
      · dsimp only at hused
        rw [hclear] at hused
        exact absurd hused Bool.false_ne_true
  | false =>
      rw [if_neg Bool.false_ne_true, if_neg Bool.false_ne_true]
      rcases halloc : m.pmm.pmmAllocPage with ⟨table, pmm⟩
      dsimp only
      by_cases hfail : table = 0
      · have hsame := Pmm.pmmAllocPage_eq_of_zero hzero (by rw [halloc]; exact hfail)
        rw [halloc] at hsame
        obtain rfl : pmm = m.pmm := (Prod.ext_iff.mp hsame).2
        rw [if_pos hfail, if_pos hfail]
        refine ⟨rfl, ?_⟩
        rintro x (hsame | ⟨hclear, hused⟩)
        · exact hsame
        · dsimp only at hused
          rw [hclear] at hused
          exact absurd hused Bool.false_ne_true
      · obtain ⟨-, -, hpage⟩ := pmmAllocPage_used halloc
        obtain ⟨htable, -, -, hused⟩ := hpage hfail
        rw [if_neg hfail, if_neg hfail]
        refine ⟨rfl, fun x hx => ?_⟩
        dsimp only at hx ⊢
        rw [setPage_newTable hspace hvirt htable, setPage_newTable hspace hvirt htable]
        apply setEntry_congr
        apply setEntry_congr
        rcases hx with hsame | ⟨hclear, hnew⟩
        · exact fill_congr hsame _ _ _
        · apply fill_eq htable
          rcases (hused _).mp hnew with hold | hpage_eq
          · rw [hclear] at hold
            exact absurd hold Bool.false_ne_true
          · exact hpage_eq

include hspace hvirt in
/-- Memories that agree on the pages in use do so afterwards. -/
theorem vmmMap_untouched (hpmm : m'.pmm = m.pmm) (hzero : m.pmm.testBit 0 = true)
    (hused : m.pmm.testBit (space / PAGE_SIZE) = true) (hmem : Untouched m.pmm m.mem m'.mem)
    (phys flags : Nat) :
    (m'.vmmMap space virt phys flags).2.pmm = (m.vmmMap space virt phys flags).2.pmm ∧
      Untouched (m.vmmMap space virt phys flags).2.pmm (m.vmmMap space virt phys flags).2.mem
        (m'.vmmMap space virt phys flags).2.mem := by
  have hentry := hmem.entryAt_eq ⟨hspace, hused⟩ (pdIdx_lt hvirt)
  obtain ⟨hpmm', hbytes⟩ := vmmMap_twin hspace hvirt hpmm hzero hentry phys flags
  refine ⟨hpmm', fun x hx => hbytes x ?_⟩
  cases hold : m.pmm.testBit (x / PAGE_SIZE) with
  | true => exact .inl (hmem x hold)
  | false => exact .inr ⟨rfl, hx⟩

end vmmMap

end NemoOS
