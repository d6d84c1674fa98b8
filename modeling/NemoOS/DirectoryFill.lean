import NemoOS.AddressSpaces

/-!
# What `vmm_create_space` takes and gives back

A new space is a directory and a copy of each user table of the kernel, in pages that were
free before. If there are too few of them, the ones that were taken are given back.
`vmmCreateSpace_cases` says so by the set of used pages and by the bytes that are left
alone; it does not depend on what other spaces there are.
-/

namespace NemoOS

open Words Bytes Machine

/-! ## Pages of a space -/

/-- The slot has a table of the space's own. -/
def UserSlot (m : Memory) (space i : Nat) : Prop :=
  i < ENTRIES ∧ isPresent (entryAt m space i) = true ∧ isUser (entryAt m space i) = true

/-- The page is the directory or a user table of the space. -/
def Owns (m : Memory) (space a : Nat) : Prop :=
  a = space ∨ ∃ i, UserSlot m space i ∧ frame (entryAt m space i) = a

theorem IsPage.eq_mul_iff {a k : Nat} (ha : IsPage a) : k * PAGE_SIZE = a ↔ a / PAGE_SIZE = k := by
  have haligned := ha.aligned
  rw [PAGE_SIZE] at *
  omega

/-- The pages of a space by their numbers. -/
theorem owns_page_iff {m : Memory} {space k : Nat} (hspace : IsPage space) :
    Owns m space (k * PAGE_SIZE) ↔ k = space / PAGE_SIZE ∨ ∃ i, UserSlot m space i ∧
      frame (entryAt m space i) / PAGE_SIZE = k := by
  rw [Owns, hspace.eq_mul_iff, eq_comm]
  apply or_congr_right
  apply exists_congr
  intro i
  rw [eq_comm (b := k * PAGE_SIZE), (frame_entryAt_isPage m space i).eq_mul_iff]

/-- The pages of a space are directories and tables. -/
theorem Owns.structural {m : Memory} {kernel space a : Nat} (h : Owns m space a) :
    Structural m kernel space AllSlots a := by
  rcases h with rfl | ⟨i, ⟨hi, hpresent, -⟩, rfl⟩
  · exact .inr (.inl rfl)
  · exact .inr (.inr (.inr ⟨i, hi, hpresent, rfl⟩))

theorem SameDirectory.userSlot_iff {m m' : Memory} {space i : Nat}
    (h : SameDirectory m m' space AllSlots) : UserSlot m' space i ↔ UserSlot m space i := by
  rw [UserSlot, UserSlot]
  constructor
  · rintro ⟨hi, hentry⟩
    rw [h i hi] at hentry
    exact ⟨hi, hentry⟩
  · rintro ⟨hi, hentry⟩
    rw [← h i hi] at hentry
    exact ⟨hi, hentry⟩

theorem SameDirectory.owns_iff {m m' : Memory} {space a : Nat}
    (h : SameDirectory m m' space AllSlots) : Owns m' space a ↔ Owns m space a := by
  rw [Owns, Owns]
  apply or_congr_right
  constructor
  · rintro ⟨i, hslot, hframe⟩
    rw [h i hslot.1] at hframe
    exact ⟨i, h.userSlot_iff.mp hslot, hframe⟩
  · rintro ⟨i, hslot, hframe⟩
    rw [← h i hslot.1] at hframe
    exact ⟨i, h.userSlot_iff.mpr hslot, hframe⟩

/-! ## Pages in use -/

/-- Bytes of pages in use are not written. -/
def Untouched (pmm : Pmm) (m m' : Memory) : Prop :=
  ∀ x, pmm.testBit (x / PAGE_SIZE) = true → m' x = m x

theorem Untouched.refl {pmm : Pmm} {m : Memory} : Untouched pmm m m := fun _ _ => rfl

theorem Untouched.trans {pmm : Pmm} {m m' m'' : Memory} (h : Untouched pmm m m')
    (h' : Untouched pmm m' m'') : Untouched pmm m m'' :=
  fun x hx => (h' x hx).trans (h x hx)

/-- A write inside a page that is not in use. -/
theorem OnlyPage.untouched {pmm : Pmm} {m m' : Memory} {a : Nat} (hmem : OnlyPage a m m')
    (ha : IsPage a) (hclear : pmm.testBit (a / PAGE_SIZE) = false) : Untouched pmm m m' := by
  intro x hx
  apply hmem
  by_contra hin
  have haligned := ha.aligned
  have hpage : x / PAGE_SIZE = a / PAGE_SIZE := by
    rw [PAGE_SIZE] at *
    omega
  rw [hpage, hclear] at hx
  exact Bool.false_ne_true hx

theorem Untouched.entryAt_eq {pmm : Pmm} {m m' : Memory} (h : Untouched pmm m m') {d i : Nat}
    (hd : InUse pmm d) (hi : i < ENTRIES) : entryAt m' d i = entryAt m d i :=
  entryAt_congr hd.toIsPage hi fun x hx => h x (by rw [hx]; exact hd.used)

theorem Untouched.sameDirectory {pmm : Pmm} {m m' : Memory} (h : Untouched pmm m m') {d : Nat}
    (hd : InUse pmm d) : SameDirectory m m' d AllSlots :=
  fun _ hi => h.entryAt_eq hd hi

/-! ## Giving tables back -/

/-- The pages of the chosen slots among the first `n`. -/
def pagesOf (sel : Nat → Bool) (page : Nat → Nat) (n : Nat) : List Nat :=
  ((List.range n).filter sel).map page

theorem mem_pagesOf {sel : Nat → Bool} {page : Nat → Nat} {n a : Nat} :
    a ∈ pagesOf sel page n ↔ ∃ j < n, sel j = true ∧ page j = a := by
  simp only [pagesOf, List.mem_map, List.mem_filter, List.mem_range, and_assoc]

theorem foldl_pagesOf_succ (sel : Nat → Bool) (page : Nat → Nat) (n : Nat) (p : Pmm) :
    (pagesOf sel page (n + 1)).foldl Pmm.pmmFreePage p =
      if sel n then ((pagesOf sel page n).foldl Pmm.pmmFreePage p).pmmFreePage (page n)
      else (pagesOf sel page n).foldl Pmm.pmmFreePage p := by
  rw [pagesOf, List.range_succ, List.filter_append, List.map_append, List.foldl_append, ← pagesOf]
  cases hsel : sel n with
  | true => rw [List.filter_cons_of_pos hsel]; rfl
  | false => rw [List.filter_cons_of_neg (by rw [hsel]; exact Bool.false_ne_true)]; rfl

/-- The pages that are in use after the release of tables and of their directory. -/
theorem testBit_foldl_pagesOf {sel : Nat → Bool} {page : Nat → Nat} {n dir : Nat} {p : Pmm}
    (hpages : ∀ j < n, sel j = true → page j / PAGE_SIZE < p.totalPages)
    (hdir : dir / PAGE_SIZE < p.totalPages) (k : Nat) :
    (((pagesOf sel page n).foldl Pmm.pmmFreePage p).pmmFreePage dir).testBit k = true ↔
      p.testBit k = true ∧ k ≠ dir / PAGE_SIZE ∧
        ¬ ∃ j < n, sel j = true ∧ page j / PAGE_SIZE = k := by
  rw [Pmm.testBit_pmmFreePage, Bool.and_eq_true, Bool.not_eq_true', decide_eq_false_iff_not,
    Pmm.testBit_foldl_pmmFreePage, Pmm.totalPages_foldl_pmmFreePage, and_assoc]
  apply and_congr_right
  intro _
  rw [and_comm]
  apply and_congr
  · constructor
    · rintro hnot rfl
      exact hnot ⟨rfl, hdir⟩
    · rintro hne ⟨rfl, -⟩
      exact hne rfl
  · constructor
    · rintro hnot ⟨j, hj, hsel, rfl⟩
      exact hnot ⟨hpages j hj hsel, _, mem_pagesOf.mpr ⟨j, hj, hsel, rfl⟩, rfl⟩
    · rintro hnot ⟨-, a, ha, rfl⟩
      obtain ⟨j, hj, hsel, rfl⟩ := mem_pagesOf.mp ha
      exact hnot ⟨j, hj, hsel, rfl⟩

theorem freeTables_eq (m : Machine) (dir n : Nat) :
    m.freeTables dir n =
      (pagesOf (fun j => isUser (entryAt m.mem dir j)) (fun j => frame (entryAt m.mem dir j))
        n).foldl Pmm.pmmFreePage m.pmm := by
  induction n with
  | zero => rfl
  | succ n ih => rw [foldl_pagesOf_succ, ← ih, freeTables]

theorem freeUserTables_eq (m : Machine) (dir n : Nat) :
    m.freeUserTables dir n =
      (pagesOf (fun j => isPresent (entryAt m.mem dir j) && isUser (entryAt m.mem dir j))
        (fun j => frame (entryAt m.mem dir j)) n).foldl Pmm.pmmFreePage m.pmm := by
  induction n with
  | zero => rfl
  | succ n ih => rw [foldl_pagesOf_succ, ← ih, freeUserTables]

/-- `vmm_destroy_space` leaves the other pages in use. -/
theorem vmmDestroySpace_keeps {m : Machine} {space : Nat} (hspace : IsPage space) {k : Nat}
    (hk : m.pmm.testBit k = true) (hnot : ¬ Owns m.mem space (k * PAGE_SIZE)) :
    (m.vmmDestroySpace space).pmm.testBit k = true := by
  rw [owns_page_iff hspace, not_or] at hnot
  rw [vmmDestroySpace]
  split
  · exact hk
  · dsimp only
    rw [freeUserTables_eq, Pmm.testBit_pmmFreePage, Bool.and_eq_true, Bool.not_eq_true',
      decide_eq_false_iff_not, Pmm.testBit_foldl_pmmFreePage]
    refine ⟨⟨hk, ?_⟩, fun hdir => hnot.1 hdir.1.symm⟩
    rintro ⟨-, a, ha, heq⟩
    obtain ⟨j, hj, hsel, rfl⟩ := mem_pagesOf.mp ha
    exact hnot.2 ⟨j, ⟨hj, Bool.and_eq_true_iff.mp hsel⟩, heq⟩

/-- It gives back exactly the pages of the space. -/
theorem testBit_vmmDestroySpace {m : Machine} {space : Nat} (hne : space ≠ 0)
    (hspace : IsPage space) (hlt : ∀ a, Owns m.mem space a → a / PAGE_SIZE < m.pmm.totalPages)
    (k : Nat) :
    (m.vmmDestroySpace space).pmm.testBit k = true ↔
      m.pmm.testBit k = true ∧ ¬ Owns m.mem space (k * PAGE_SIZE) := by
  have hslot : ∀ {j : Nat}, (isPresent (entryAt m.mem space j) && isUser (entryAt m.mem space j)) =
      true ↔ isPresent (entryAt m.mem space j) = true ∧ isUser (entryAt m.mem space j) = true :=
    Bool.and_eq_true_iff
  rw [vmmDestroySpace, if_neg hne, freeUserTables_eq, testBit_foldl_pagesOf, owns_page_iff hspace,
    not_or]
  · simp only [hslot, UserSlot, and_assoc]
  · intro j hj hsel
    exact hlt _ (.inr ⟨j, ⟨hj, hslot.mp hsel⟩, rfl⟩)
  · exact hlt space (.inl rfl)

/-! ## The loop -/

/-- The directory of a new space in the page `dir`, set up in the first `i` slots. The
    memory and the page allocator are those before `vmm_create_space` and now. -/
structure Filling (mem₀ : Memory) (pmm₀ : Pmm) (kernel dir i : Nat) (mem : Memory) (pmm : Pmm) :
    Prop where
  untouched : Untouched pmm₀ mem₀ mem
  total : pmm.totalPages = pmm₀.totalPages
  used : ∀ k, pmm.testBit k = true ↔ pmm₀.testBit k = true ∨ k = dir / PAGE_SIZE ∨
    ∃ j < i, isUser (entryAt mem dir j) = true ∧ frame (entryAt mem dir j) / PAGE_SIZE = k
  absent : ∀ j < i, isPresent (entryAt mem₀ kernel j) = false → entryAt mem dir j = 0
  shared : ∀ j < i, supervisor mem₀ kernel j = true → entryAt mem dir j = entryAt mem₀ kernel j
  copied : ∀ j < i, isPresent (entryAt mem₀ kernel j) = true →
    isUser (entryAt mem₀ kernel j) = true → ∃ a, IsPage a ∧ a ≠ dir ∧
      entryAt mem dir j = a + flagBits (entryAt mem₀ kernel j) ∧
      pmm₀.testBit (a / PAGE_SIZE) = false ∧ a / PAGE_SIZE < pmm₀.totalPages

/-- A page from the allocator is free before, in use afterwards, and nothing else changes. -/
theorem pmmAllocPage_used {p p' : Pmm} {a : Nat} (halloc : p.pmmAllocPage = (a, p')) :
    p.Keeps p' ∧ p'.totalPages = p.totalPages ∧
      (a ≠ 0 → IsPage a ∧ p.testBit (a / PAGE_SIZE) = false ∧ a / PAGE_SIZE < p.totalPages ∧
        ∀ k, p'.testBit k = true ↔ p.testBit k = true ∨ k = a / PAGE_SIZE) := by
  have htotal := p.totalPages_pmmAllocPage
  rw [halloc] at htotal
  refine ⟨(pmmAllocPage_page halloc).1, htotal, fun hne => ?_⟩
  rcases p.pmmAllocPage_cases with ⟨heq, -⟩ | ⟨i, hi, hclear, -, heq⟩
  · rw [halloc] at heq
    exact absurd (Prod.ext_iff.mp heq).1 hne
  · rw [halloc] at heq
    obtain ⟨rfl, rfl⟩ := Prod.ext_iff.mp heq
    obtain ⟨hpage, -, -⟩ := (pmmAllocPage_page halloc).2 hne
    have hindex : i * PAGE_SIZE / PAGE_SIZE = i := Nat.mul_div_cancel i (by decide)
    refine ⟨hpage, by rw [hindex]; exact hclear, by rw [hindex]; exact hi, fun k => ?_⟩
    change (p.setBit i).testBit k = true ↔ _
    rw [p.testBit_setBit, hindex, Bool.or_eq_true, decide_eq_true_eq]
    exact or_congr_right eq_comm

namespace Filling

variable {mem₀ mem mem' : Memory} {pmm₀ pmm pmm' : Pmm} {kernel dir i : Nat}

theorem start {dir : Nat} (halloc : pmm₀.pmmAllocPage = (dir, pmm)) (hne : dir ≠ 0) :
    Filling mem₀ pmm₀ kernel dir 0 mem₀ pmm := by
  obtain ⟨-, htotal, hpage⟩ := pmmAllocPage_used halloc
  obtain ⟨-, -, -, hused⟩ := hpage hne
  refine ⟨.refl, htotal, fun k => ?_, ?_, ?_, ?_⟩
  · rw [hused]
    constructor
    · rintro (hold | hnew)
      · exact .inl hold
      · exact .inr (.inl hnew)
    · rintro (hold | hnew | ⟨j, hj, -⟩)
      · exact .inl hold
      · exact .inr hnew
      · exact absurd hj (Nat.not_lt_zero j)
  all_goals exact fun j hj => absurd hj (Nat.not_lt_zero j)

/-- The entries with the user bit point to pages that were free. -/
theorem user_clear (h : Filling mem₀ pmm₀ kernel dir i mem pmm) {j : Nat} (hj : j < i)
    (huser : isUser (entryAt mem dir j) = true) :
    isPresent (entryAt mem dir j) = true ∧ frame (entryAt mem dir j) ≠ dir ∧
      pmm₀.testBit (frame (entryAt mem dir j) / PAGE_SIZE) = false ∧
      frame (entryAt mem dir j) / PAGE_SIZE < pmm₀.totalPages := by
  cases hpresent : isPresent (entryAt mem₀ kernel j) with
  | false =>
      rw [h.absent j hj hpresent] at huser
      exact absurd huser (by decide)
  | true =>
      cases hsup : isUser (entryAt mem₀ kernel j) with
      | false =>
          have hshared := h.shared j hj (by rw [supervisor, hpresent, hsup]; rfl)
          rw [hshared, hsup] at huser
          exact absurd huser Bool.false_ne_true
      | true =>
          obtain ⟨a, ha, hne, hentry, hclear, hlt⟩ := h.copied j hj hpresent hsup
          have hframe : frame (entryAt mem dir j) = a := by
            rw [hentry]
            exact frame_add ha (Nat.mod_lt _ (by decide))
          rw [hframe]
          refine ⟨?_, hne, hclear, hlt⟩
          rw [hentry, isPresent_add ha, isPresent_flagBits, hpresent]

/-- Outside the kernel's supervisor slots there are user tables only. -/
theorem own_user (h : Filling mem₀ pmm₀ kernel dir i mem pmm) {j : Nat} (hj : j < i)
    (hsup : supervisor mem₀ kernel j = false) (hpresent : isPresent (entryAt mem dir j) = true) :
    isUser (entryAt mem dir j) = true := by
  cases hkernel : isPresent (entryAt mem₀ kernel j) with
  | false =>
      rw [h.absent j hj hkernel] at hpresent
      exact absurd hpresent (by decide)
  | true =>
      rw [supervisor, hkernel, Bool.true_and, Bool.not_eq_false'] at hsup
      obtain ⟨a, ha, -, hentry, -, -⟩ := h.copied j hj hkernel hsup
      rw [hentry, isUser_add ha, isUser_flagBits, hsup]

/-- One more slot. -/
theorem next (h : Filling mem₀ pmm₀ kernel dir i mem pmm) (hmem : Untouched pmm₀ mem mem')
    (hold : ∀ j < i, entryAt mem' dir j = entryAt mem dir j)
    (htotal : pmm'.totalPages = pmm.totalPages)
    (hused : ∀ k, pmm'.testBit k = true ↔ pmm.testBit k = true ∨
      isUser (entryAt mem' dir i) = true ∧ frame (entryAt mem' dir i) / PAGE_SIZE = k)
    (habsent : isPresent (entryAt mem₀ kernel i) = false → entryAt mem' dir i = 0)
    (hshared : supervisor mem₀ kernel i = true → entryAt mem' dir i = entryAt mem₀ kernel i)
    (hcopied : isPresent (entryAt mem₀ kernel i) = true → isUser (entryAt mem₀ kernel i) = true →
      ∃ a, IsPage a ∧ a ≠ dir ∧ entryAt mem' dir i = a + flagBits (entryAt mem₀ kernel i) ∧
        pmm₀.testBit (a / PAGE_SIZE) = false ∧ a / PAGE_SIZE < pmm₀.totalPages) :
    Filling mem₀ pmm₀ kernel dir (i + 1) mem' pmm' := by
  refine ⟨h.untouched.trans hmem, htotal.trans h.total, fun k => ?_, fun j hj => ?_,
    fun j hj => ?_, fun j hj => ?_⟩
  · rw [hused, h.used]
    constructor
    · rintro ((hbit | hdir | ⟨j, hj, huser, hk⟩) | hnew)
      · exact .inl hbit
      · exact .inr (.inl hdir)
      · refine .inr (.inr ⟨j, Nat.lt_succ_of_lt hj, ?_⟩)
        rw [hold j hj]
        exact ⟨huser, hk⟩
      · exact .inr (.inr ⟨i, Nat.lt_succ_self i, hnew⟩)
    · rintro (hbit | hdir | ⟨j, hj, hentry⟩)
      · exact .inl (.inl hbit)
      · exact .inl (.inr (.inl hdir))
      · rcases Nat.lt_succ_iff_lt_or_eq.mp hj with hj | rfl
        · rw [hold j hj] at hentry
          exact .inl (.inr (.inr ⟨j, hj, hentry⟩))
        · exact .inr hentry
  all_goals
    rcases Nat.lt_succ_iff_lt_or_eq.mp hj with hj | rfl
    · rw [hold j hj]
      first
        | exact h.absent j hj
        | exact h.shared j hj
        | exact h.copied j hj
    · assumption

end Filling

/-- The pages are as before, and so are the bytes of those in use. -/
structure GivenBack (mem₀ : Memory) (pmm₀ : Pmm) (mem : Memory) (pmm : Pmm) : Prop where
  untouched : Untouched pmm₀ mem₀ mem
  total : pmm.totalPages = pmm₀.totalPages
  keeps : pmm₀.Keeps pmm
  used_eq : pmm₀.testBit 0 = true → ∀ k, pmm.testBit k = pmm₀.testBit k

/-- No page for the table of slot `i`: the tables and the directory are given back. -/
theorem Filling.givenBack {mem₀ mem : Memory} {pmm₀ pmm : Pmm} {kernel dir i : Nat}
    (h : Filling mem₀ pmm₀ kernel dir i mem pmm)
    (hclear : pmm₀.testBit (dir / PAGE_SIZE) = false) (hlt : dir / PAGE_SIZE < pmm₀.totalPages)
    {pmm' : Pmm} (halloc : pmm.pmmAllocPage = (0, pmm')) (kernelSpace : Nat) :
    GivenBack mem₀ pmm₀ mem
      ((freeTables ⟨mem, pmm', kernelSpace⟩ dir i).pmmFreePage dir) := by
  obtain ⟨hkeeps, htotal, -⟩ := pmmAllocPage_used halloc
  have htotal₀ := htotal.trans h.total
  rw [freeTables_eq]
  dsimp only
  have hused : ∀ k, (((pagesOf (fun j => isUser (entryAt mem dir j))
      (fun j => frame (entryAt mem dir j)) i).foldl Pmm.pmmFreePage pmm').pmmFreePage
        dir).testBit k = true ↔ pmm'.testBit k = true ∧ k ≠ dir / PAGE_SIZE ∧
        ¬ ∃ j < i, isUser (entryAt mem dir j) = true ∧ frame (entryAt mem dir j) / PAGE_SIZE = k := by
    intro k
    apply testBit_foldl_pagesOf
    · intro j hj huser
      rw [htotal₀]
      exact (h.user_clear hj huser).2.2.2
    · rw [htotal₀]
      exact hlt
  have hkept : ∀ k, pmm₀.testBit k = true → k ≠ dir / PAGE_SIZE ∧
      ¬ ∃ j < i, isUser (entryAt mem dir j) = true ∧ frame (entryAt mem dir j) / PAGE_SIZE = k := by
    intro k hk
    constructor
    · rintro rfl
      rw [hclear] at hk
      exact Bool.false_ne_true hk
    · rintro ⟨j, hj, huser, rfl⟩
      rw [(h.user_clear hj huser).2.2.1] at hk
      exact Bool.false_ne_true hk
  refine ⟨h.untouched, ?_, fun k hk => (hused k).mpr ⟨?_, hkept k hk⟩, fun hzero k => ?_⟩
  · rw [Pmm.totalPages_pmmFreePage, Pmm.totalPages_foldl_pmmFreePage, htotal₀]
  · exact hkeeps k ((h.used k).mpr (.inl hk))
  · have hsame : pmm.pmmAllocPage = (0, pmm) :=
      Pmm.pmmAllocPage_eq_of_zero ((h.used 0).mpr (.inl hzero)) (by rw [halloc])
    rw [halloc] at hsame
    obtain rfl : pmm' = pmm := (Prod.ext_iff.mp hsame).2
    rw [Bool.eq_iff_iff, hused, h.used]
    constructor
    · rintro ⟨hbit | hdir | htable, hne, hnot⟩
      · exact hbit
      · exact absurd hdir hne
      · exact absurd htable hnot
    · intro hk
      exact ⟨.inl hk, hkept k hk⟩

section slots

variable {mem₀ mem : Memory} {pmm₀ pmm : Pmm} {kernel dir i : Nat} (hi : i < ENTRIES)
  (hdir : IsPage dir) (hclear : pmm₀.testBit (dir / PAGE_SIZE) = false)

include hi hdir hclear

theorem setEntry_slot (mem : Memory) {e : Nat} (he : e < 2 ^ 32) :
    Untouched pmm₀ mem (setEntry mem dir i e) ∧
      (∀ j < i, entryAt (setEntry mem dir i e) dir j = entryAt mem dir j) ∧
      entryAt (setEntry mem dir i e) dir i = e := by
  refine ⟨(onlyPage_setEntry hdir hi).untouched hdir hclear, fun j hj => ?_, ?_⟩
  · rw [entryAt_setEntry hdir hi (Nat.lt_trans hj hi) he, if_neg (Nat.ne_of_lt hj)]
  · rw [entryAt_setEntry hdir hi hi he, if_pos rfl]

/-- A slot without a table of its own: it is empty or has the kernel's entry. -/
theorem Filling.next_plain (h : Filling mem₀ pmm₀ kernel dir i mem pmm) {e : Nat}
    (hkind : isPresent (entryAt mem₀ kernel i) = false ∧ e = 0 ∨
      supervisor mem₀ kernel i = true ∧ e = entryAt mem₀ kernel i) :
    Filling mem₀ pmm₀ kernel dir (i + 1) (setEntry mem dir i e) pmm := by
  have he : e < 2 ^ 32 := by
    rcases hkind with ⟨-, rfl⟩ | ⟨-, rfl⟩
    · exact Nat.two_pow_pos 32
    · exact entryAt_lt _ _ _
  have huser : isUser e = false := by
    rcases hkind with ⟨-, rfl⟩ | ⟨hsup, rfl⟩
    · decide
    · rw [supervisor, Bool.and_eq_true, Bool.not_eq_true'] at hsup
      exact hsup.2
  obtain ⟨hmem, hold, hnew⟩ := setEntry_slot hi hdir hclear mem he
  apply h.next hmem hold rfl
  · intro k
    rw [hnew, huser]
    simp
  · intro habsent
    rcases hkind with ⟨-, rfl⟩ | ⟨hsup, -⟩
    · exact hnew
    · rw [supervisor, habsent] at hsup
      exact absurd hsup Bool.false_ne_true
  · intro hsup
    rcases hkind with ⟨habsent, -⟩ | ⟨-, rfl⟩
    · rw [supervisor, habsent] at hsup
      exact absurd hsup Bool.false_ne_true
    · exact hnew
  · intro hpresent hkernel_user
    rcases hkind with ⟨habsent, -⟩ | ⟨hsup, -⟩
    · rw [habsent] at hpresent
      exact absurd hpresent Bool.false_ne_true
    · rw [supervisor, hkernel_user, Bool.not_true, Bool.and_false] at hsup
      exact absurd hsup Bool.false_ne_true

/-- A copy of the kernel's user table in a new page. -/
theorem Filling.next_own (h : Filling mem₀ pmm₀ kernel dir i mem pmm)
    (hpresent : isPresent (entryAt mem₀ kernel i) = true)
    (huser : isUser (entryAt mem₀ kernel i) = true) {table : Nat} {pmm' : Pmm}
    (halloc : pmm.pmmAllocPage = (table, pmm')) (hne : table ≠ 0) (src : Nat) :
    Filling mem₀ pmm₀ kernel dir (i + 1)
      (setEntry (copyPage mem table src) dir i (table + flagBits (entryAt mem₀ kernel i))) pmm' := by
  obtain ⟨-, htotal, hpage⟩ := pmmAllocPage_used halloc
  obtain ⟨ha, htable, hlt, hused⟩ := hpage hne
  have hflags : flagBits (entryAt mem₀ kernel i) < PAGE_SIZE := Nat.mod_lt _ (by decide)
  have hframe : frame (table + flagBits (entryAt mem₀ kernel i)) = table := frame_add ha hflags
  have hbound := ha.add_lt hflags
  -- the page was not in use when the space was begun, and it is not the directory
  have htable₀ : pmm₀.testBit (table / PAGE_SIZE) = false := by
    rw [← Bool.not_eq_true]
    intro hbit
    rw [(h.used _).mpr (.inl hbit)] at htable
    exact Bool.false_ne_true htable.symm
  have htable_dir : table ≠ dir := by
    rintro rfl
    rw [(h.used _).mpr (.inr (.inl rfl))] at htable
    exact Bool.false_ne_true htable.symm
  have hcopy : OnlyPage table mem (copyPage mem table src) := onlyPage_copyPage src
  obtain ⟨hmem, hold, hnew⟩ := setEntry_slot hi hdir hclear (copyPage mem table src) hbound
  apply h.next ((hcopy.untouched ha htable₀).trans hmem) _ htotal
  · intro k
    rw [hnew, hused, isUser_add ha, isUser_flagBits, huser, hframe]
    simp only [true_and]
    exact or_congr_right eq_comm
  · intro habsent
    rw [hpresent] at habsent
    exact absurd habsent.symm Bool.false_ne_true
  · intro hsup
    rw [supervisor, huser, Bool.not_true, Bool.and_false] at hsup
    exact absurd hsup Bool.false_ne_true
  · intro _ _
    exact ⟨table, ha, htable_dir, hnew, htable₀, by rw [← h.total]; exact hlt⟩
  · intro j hj
    rw [hold j hj]
    exact entryAt_onlyPage hcopy ha hdir htable_dir.symm (Nat.lt_trans hj hi)

end slots

/-- A round of the loop. -/
theorem FillStep.filling {mem₀ : Memory} {pmm₀ : Pmm} {dir i : Nat} {m m' : Machine}
    (hstep : FillStep dir i m m') (hi : i < ENTRIES) (hkernel : InUse pmm₀ m.kernelSpace)
    (hdir : IsPage dir) (hclear : pmm₀.testBit (dir / PAGE_SIZE) = false)
    (h : Filling mem₀ pmm₀ m.kernelSpace dir i m.mem m.pmm) :
    Filling mem₀ pmm₀ m.kernelSpace dir (i + 1) m'.mem m'.pmm ∧ m'.kernelSpace = m.kernelSpace := by
  have hentry := h.untouched.entryAt_eq hkernel hi
  cases hstep with
  | absent habsent =>
      rw [hentry] at habsent
      exact ⟨h.next_plain hi hdir hclear (.inl ⟨habsent, rfl⟩), rfl⟩
  | shared hsup =>
      rw [supervisor, hentry] at hsup
      exact ⟨h.next_plain hi hdir hclear (.inr ⟨hsup, hentry⟩), rfl⟩
  | copied hpresent huser halloc hne =>
      rw [hentry] at hpresent huser ⊢
      exact ⟨h.next_own hi hdir hclear hpresent huser halloc hne _, rfl⟩

/-- The loop sets up all slots, or gives back what it has taken. -/
theorem fillDirectory_cases {mem₀ : Memory} {pmm₀ : Pmm} {dir : Nat} {m m' : Machine} {ok : Bool}
    (hkernel : InUse pmm₀ m.kernelSpace) (hdir : IsPage dir)
    (hclear : pmm₀.testBit (dir / PAGE_SIZE) = false) (hlt : dir / PAGE_SIZE < pmm₀.totalPages)
    (h : Filling mem₀ pmm₀ m.kernelSpace dir 0 m.mem m.pmm)
    (hfill : fillDirectory dir 0 m ENTRIES = (ok, m')) :
    m'.kernelSpace = m.kernelSpace ∧
      (ok = true → Filling mem₀ pmm₀ m.kernelSpace dir ENTRIES m'.mem m'.pmm) ∧
      (ok = false → GivenBack mem₀ pmm₀ m'.mem m'.pmm) := by
  obtain ⟨hdone, hfailed⟩ := fillDirectory_run
    (P := fun i m₁ => Filling mem₀ pmm₀ m.kernelSpace dir i m₁.mem m₁.pmm ∧
      m₁.kernelSpace = m.kernelSpace)
    (by
      rintro i m₁ m₂ hi ⟨hstate, hspace⟩ hstep
      rw [← hspace] at hkernel hstate ⊢
      exact hstep.filling hi hkernel hdir hclear hstate)
    ⟨h, rfl⟩ (Nat.zero_add _) hfill
  cases ok with
  | true =>
      obtain ⟨hstate, hspace⟩ := hdone rfl
      exact ⟨hspace, fun _ => hstate, nofun⟩
  | false =>
      obtain ⟨j, m₁, pmm, -, ⟨hstate, hspace⟩, ⟨-, -, halloc⟩, rfl⟩ := hfailed rfl
      exact ⟨hspace, nofun, fun _ => hstate.givenBack hclear hlt halloc m₁.kernelSpace⟩

/-- **What `vmm_create_space` does to pages.** It takes free pages for the space that it
    returns, or gives back what it has taken; the bytes of pages in use stay. -/
theorem vmmCreateSpace_cases {m m' : Machine} {space : Nat} (hkernel : InUse m.pmm m.kernelSpace)
    (hcreate : m.vmmCreateSpace = (space, m')) :
    m'.kernelSpace = m.kernelSpace ∧
      (space = 0 → GivenBack m.mem m.pmm m'.mem m'.pmm) ∧
      (space ≠ 0 → IsPage space ∧ m.pmm.testBit (space / PAGE_SIZE) = false ∧
        space / PAGE_SIZE < m.pmm.totalPages ∧
        Filling m.mem m.pmm m.kernelSpace space ENTRIES m'.mem m'.pmm) := by
  rw [Machine.vmmCreateSpace] at hcreate
  cases halloc : m.pmm.pmmAllocPage with
  | mk dir pmm =>
    rw [halloc] at hcreate
    dsimp only at hcreate
    obtain ⟨hkeeps, htotal, hpage⟩ := pmmAllocPage_used halloc
    by_cases hzero : dir = 0
    · rw [if_pos hzero] at hcreate
      obtain ⟨rfl, rfl⟩ := Prod.ext_iff.mp hcreate
      subst hzero
      refine ⟨rfl, fun _ => ⟨.refl, htotal, hkeeps, fun hbit k => ?_⟩, fun hne => absurd rfl hne⟩
      have hsame := Pmm.pmmAllocPage_eq_of_zero hbit (by rw [halloc])
      rw [halloc] at hsame
      obtain rfl : pmm = m.pmm := (Prod.ext_iff.mp hsame).2
      rfl
    · rw [if_neg hzero] at hcreate
      obtain ⟨hdir, hclear, hlt, -⟩ := hpage hzero
      rcases hfill : fillDirectory dir 0 { m with pmm := pmm } ENTRIES with ⟨ok, m₁⟩
      rw [hfill] at hcreate
      obtain ⟨hspace, rfl⟩ := Prod.ext_iff.mp hcreate
      obtain ⟨hkernel', hfilled, hfailed⟩ := fillDirectory_cases
        (m := { m with pmm := pmm }) hkernel hdir hclear hlt (Filling.start halloc hzero) hfill
      refine ⟨hkernel', ?_⟩
      cases ok with
      | false =>
          rw [if_neg Bool.false_ne_true] at hspace
          exact ⟨fun _ => hfailed rfl, fun hne => absurd hspace.symm hne⟩
      | true =>
          rw [if_pos rfl] at hspace
          subst hspace
          exact ⟨fun h => absurd h hzero, fun _ => ⟨hdir, hclear, hlt, hfilled rfl⟩⟩

/-! ## The tables of a new space -/

section filled

variable {mem₀ mem : Memory} {pmm₀ pmm : Pmm} {kernel dir : Nat}
  (h : Filling mem₀ pmm₀ kernel dir ENTRIES mem pmm)

include h

/-- The new space has a table where the kernel has one. -/
theorem Filling.isPresent_eq {j : Nat} (hj : j < ENTRIES) :
    isPresent (entryAt mem dir j) = isPresent (entryAt mem₀ kernel j) := by
  cases hpresent : isPresent (entryAt mem₀ kernel j) with
  | false =>
      rw [h.absent j hj hpresent]
      rfl
  | true =>
      cases huser : isUser (entryAt mem₀ kernel j) with
      | false =>
          rw [h.shared j hj (supervisor_iff.mpr ⟨hpresent, huser⟩)]
          exact hpresent
      | true =>
          obtain ⟨a, ha, -, hentry, -, -⟩ := h.copied j hj hpresent huser
          rw [hentry, isPresent_add ha, isPresent_flagBits, hpresent]

/-- The directories and tables are the kernel's or were free. -/
theorem Filling.structural (hkernel : InUse pmm₀ kernel)
    (hclear : pmm₀.testBit (dir / PAGE_SIZE) = false) {a : Nat}
    (ha : Structural mem kernel dir AllSlots a) :
    (a = kernel ∨ HasTable mem₀ kernel AllSlots a) ∨ pmm₀.testBit (a / PAGE_SIZE) = false := by
  rcases ha with rfl | rfl | htable | ⟨i, hi, hpresent, rfl⟩
  · exact .inl (.inl rfl)
  · exact .inr hclear
  · exact .inl (.inr ((h.untouched.sameDirectory hkernel).hasTable htable))
  · cases hsup : supervisor mem₀ kernel i with
    | true =>
        rw [h.shared i hi hsup] at hpresent ⊢
        exact .inl (.inr ⟨i, hi, hpresent, rfl⟩)
    | false => exact .inr (h.user_clear hi (h.own_user hi hsup hpresent)).2.2.1

/-- The pages of a new space were free and are in use. -/
theorem Filling.owns {a : Nat} (hdir : IsPage dir)
    (hclear : pmm₀.testBit (dir / PAGE_SIZE) = false) (hlt : dir / PAGE_SIZE < pmm₀.totalPages)
    (ha : Owns mem dir a) :
    pmm₀.testBit (a / PAGE_SIZE) = false ∧ a / PAGE_SIZE < pmm₀.totalPages ∧ InUse pmm a := by
  rcases ha with rfl | ⟨i, ⟨hi, hpresent, huser⟩, rfl⟩
  · exact ⟨hclear, hlt, hdir, (h.used _).mpr (.inr (.inl rfl))⟩
  · obtain ⟨-, -, hclear', hlt'⟩ := h.user_clear hi huser
    exact ⟨hclear', hlt', frame_entryAt_isPage _ _ _, (h.used _).mpr (.inr (.inr ⟨i, hi, huser, rfl⟩))⟩

/-- The pages in use are those from before and the pages of the space. -/
theorem Filling.testBit_iff (hdir : IsPage dir) (k : Nat) :
    pmm.testBit k = true ↔ pmm₀.testBit k = true ∨ Owns mem dir (k * PAGE_SIZE) := by
  rw [h.used, owns_page_iff hdir]
  apply or_congr_right
  apply or_congr_right
  constructor
  · rintro ⟨j, hj, huser, heq⟩
    exact ⟨j, ⟨hj, (h.user_clear hj huser).1, huser⟩, heq⟩
  · rintro ⟨j, ⟨hj, -, huser⟩, heq⟩
    exact ⟨j, hj, huser, heq⟩

end filled

/-! ## How many pages it takes -/

/-- The slot has a user table of the kernel, which a new space gets a copy of. -/
def copiedSlot (m : Memory) (kernel i : Nat) : Bool :=
  isPresent (entryAt m kernel i) && isUser (entryAt m kernel i)

/-- The copies in the first `i` slots. -/
def copiedSlots (m : Memory) (kernel i : Nat) : Nat :=
  ((List.range i).filter (copiedSlot m kernel)).length

theorem copiedSlots_succ (m : Memory) (kernel i : Nat) :
    copiedSlots m kernel (i + 1) =
      copiedSlots m kernel i + if copiedSlot m kernel i then 1 else 0 := by
  rw [copiedSlots, List.range_succ, List.filter_append, List.length_append, copiedSlots]
  cases hcopied : copiedSlot m kernel i with
  | false => rw [List.filter_cons_of_neg (by rw [hcopied]; exact Bool.false_ne_true)]; rfl
  | true => rw [List.filter_cons_of_pos hcopied]; rfl

theorem copiedSlots_le {m : Memory} {kernel i j : Nat} (hle : i ≤ j) :
    copiedSlots m kernel i ≤ copiedSlots m kernel j :=
  ((List.range_sublist.mpr hle).filter _).length_le

/-- The pages of a new space: the directory and the copies. -/
def Machine.spacePages (m : Machine) : Nat := copiedSlots m.mem m.kernelSpace ENTRIES + 1

/-- One request for each copy. -/
theorem FillStep.pmm_eq {mem₀ : Memory} {pmm₀ : Pmm} {dir i : Nat} {m m' : Machine}
    (hstep : FillStep dir i m m') (hi : i < ENTRIES) (hkernel : InUse pmm₀ m.kernelSpace)
    (h : Filling mem₀ pmm₀ m.kernelSpace dir i m.mem m.pmm) :
    if copiedSlot mem₀ m.kernelSpace i then
      m'.pmm = m.pmm.pmmAllocPage.2 ∧ m.pmm.pmmAllocPage.1 ≠ 0
    else m'.pmm = m.pmm := by
  have hentry := h.untouched.entryAt_eq hkernel hi
  cases hstep with
  | absent habsent =>
      rw [hentry] at habsent
      rw [copiedSlot, habsent, Bool.false_and, if_neg Bool.false_ne_true]
  | shared hsup =>
      rw [supervisor_iff, hentry] at hsup
      rw [copiedSlot, hsup.1, hsup.2, Bool.and_false, if_neg Bool.false_ne_true]
  | copied hpresent huser halloc hne =>
      rw [hentry] at hpresent huser
      rw [copiedSlot, hpresent, huser, Bool.true_and, if_pos rfl, halloc]
      exact ⟨rfl, hne⟩

theorem fillDirectory_pages {mem₀ : Memory} {pmm₀ : Pmm} {dir : Nat} {m m' : Machine} {ok : Bool}
    (hkernel : InUse pmm₀ m.kernelSpace) (hdir : IsPage dir)
    (hclear : pmm₀.testBit (dir / PAGE_SIZE) = false) (hzero : pmm₀.testBit 0 = true)
    (h : Filling mem₀ pmm₀ m.kernelSpace dir 0 m.mem m.pmm)
    (hfill : fillDirectory dir 0 m ENTRIES = (ok, m')) :
    (ok = true ↔ copiedSlots mem₀ m.kernelSpace ENTRIES ≤ m.pmm.freePages.length) ∧
      (ok = true → m'.pmm = m.pmm.takePages (copiedSlots mem₀ m.kernelSpace ENTRIES)) := by
  obtain ⟨hdone, hfailed⟩ := fillDirectory_run
    (P := fun i m₁ => (Filling mem₀ pmm₀ m.kernelSpace dir i m₁.mem m₁.pmm ∧
        m₁.kernelSpace = m.kernelSpace) ∧
      m₁.pmm = m.pmm.takePages (copiedSlots mem₀ m.kernelSpace i) ∧
      copiedSlots mem₀ m.kernelSpace i ≤ m.pmm.freePages.length)
    (by
      rintro i m₁ m₂ hi ⟨⟨hstate, hspace⟩, hpmm, hle⟩ hstep
      rw [← hspace] at hkernel hstate hpmm hle ⊢
      refine ⟨hstep.filling hi hkernel hdir hclear hstate, ?_⟩
      have hnext := hstep.pmm_eq hi hkernel hstate
      rw [copiedSlots_succ]
      split at hnext
      · rename_i hcopied
        obtain ⟨hpmm₂, hne⟩ := hnext
        have hfree : m₁.pmm.freePages ≠ [] := fun hnil =>
          hne ((Pmm.pmmAllocPage_eq_zero_iff ((hstate.used 0).mpr (.inl hzero))).mpr hnil)
        rw [hpmm, Pmm.freePages_takePages, Ne, List.drop_eq_nil_iff, Nat.not_le] at hfree
        rw [if_pos hcopied, hpmm₂, hpmm]
        exact ⟨rfl, hfree⟩
      · rename_i hplain
        rw [if_neg hplain, hnext]
        exact ⟨hpmm, hle⟩)
    ⟨⟨h, rfl⟩, rfl, Nat.zero_le _⟩ (Nat.zero_add _) hfill
  cases ok with
  | true =>
      obtain ⟨-, hpmm, hle⟩ := hdone rfl
      exact ⟨⟨fun _ => hle, fun _ => rfl⟩, fun _ => hpmm⟩
  | false =>
      obtain ⟨j, m₁, pmm, hj, ⟨⟨hstate, hspace⟩, hpmm, -⟩, ⟨hpresent, huser, halloc⟩, -⟩ := hfailed rfl
      refine ⟨⟨nofun, fun hle => ?_⟩, nofun⟩
      -- the slot without a page is one more that should have got a copy
      have hnone := (Pmm.pmmAllocPage_eq_zero_iff ((hstate.used 0).mpr (.inl hzero))).mp
        (by rw [halloc])
      rw [hpmm, Pmm.freePages_takePages, List.drop_eq_nil_iff] at hnone
      rw [hspace, hstate.untouched.entryAt_eq hkernel hj] at hpresent huser
      have hmore : copiedSlots mem₀ m.kernelSpace (j + 1) ≤ copiedSlots mem₀ m.kernelSpace ENTRIES :=
        copiedSlots_le hj
      rw [copiedSlots_succ, copiedSlot, hpresent, huser, Bool.true_and, if_pos rfl] at hmore
      omega

/-- The call succeeds where there are enough free pages, and takes the lowest of them. -/
theorem vmmCreateSpace_pages {m m' : Machine} {space : Nat} (hkernel : InUse m.pmm m.kernelSpace)
    (hzero : m.pmm.testBit 0 = true) (hcreate : m.vmmCreateSpace = (space, m')) :
    (space ≠ 0 ↔ m.spacePages ≤ m.pmm.freePages.length) ∧
      (space ≠ 0 → m'.pmm = m.pmm.takePages m.spacePages) := by
  obtain ⟨-, htail⟩ := m.pmm.pmmAllocPage_freePages
  have hempty := Pmm.pmmAllocPage_eq_zero_iff hzero
  have htake := m.pmm.takePages_pmmAllocPage (copiedSlots m.mem m.kernelSpace ENTRIES)
  rw [Machine.vmmCreateSpace] at hcreate
  rcases halloc : m.pmm.pmmAllocPage with ⟨dir, pmm⟩
  rw [halloc] at hcreate htail hempty htake
  dsimp only at hcreate htail hempty htake
  obtain ⟨-, -, hpage⟩ := pmmAllocPage_used halloc
  by_cases hfail : dir = 0
  · rw [if_pos hfail] at hcreate
    obtain ⟨rfl, -⟩ := Prod.ext_iff.mp hcreate
    rw [hempty.mp hfail]
    exact ⟨⟨fun hne => absurd rfl hne, fun hle => absurd hle (by simp [spacePages])⟩,
      fun hne => absurd rfl hne⟩
  · rw [if_neg hfail] at hcreate
    obtain ⟨hdir, hclear, -, -⟩ := hpage hfail
    rcases hfill : fillDirectory dir 0 { m with pmm := pmm } ENTRIES with ⟨ok, m₁⟩
    rw [hfill] at hcreate
    obtain ⟨hspace, rfl⟩ := Prod.ext_iff.mp hcreate
    obtain ⟨hok, hpmm⟩ := fillDirectory_pages (m := { m with pmm := pmm }) hkernel hdir hclear
      hzero (Filling.start halloc hfail) hfill
    dsimp only at hok hpmm hspace
    have hiff : space ≠ 0 ↔ ok = true := by
      rw [← hspace]
      cases ok with
      | false => exact ⟨fun hne => absurd rfl hne, fun hok => absurd hok Bool.false_ne_true⟩
      | true => exact ⟨fun _ => rfl, fun _ => hfail⟩
    have hlength : pmm.freePages.length + 1 = m.pmm.freePages.length := by
      rw [htail]
      rcases hlist : m.pmm.freePages with _ | ⟨f, rest⟩
      · exact absurd (hempty.mpr hlist) hfail
      · rfl
    rw [hiff, spacePages, ← hlength, Nat.add_le_add_iff_right, ← htake]
    exact ⟨hok, hpmm⟩

end NemoOS
