import NemoOS.PageTables

/-!
# How a space shares the kernel's tables

A space that `vmm_create_space` returns shares the supervisor tables of the kernel by
reference and has its own copies of the kernel's user tables; tables that `vmm_map` adds
are its own too. `SpaceInv` says so, together with what keeps the two apart: directories
and tables are pages in use, and no page that can be written through a user mapping is
one of them.

`vmm_map` keeps this in every case. In a slot with an own table it leaves the kernel's
tables alone. In a slot with a shared table it writes an entry of the kernel's.
-/

namespace NemoOS

open Words Bytes

/-- The page is in use. -/
structure InUse (pmm : Pmm) (a : Nat) : Prop extends IsPage a where
  used : pmm.testBit (a / PAGE_SIZE) = true

theorem InUse.keeps {pmm pmm' : Pmm} {a : Nat} (h : InUse pmm a) (hp : pmm.Keeps pmm') :
    InUse pmm' a := ⟨h.toIsPage, hp _ h.used⟩

theorem InUse.ne_of_clear {pmm : Pmm} {a b : Nat} (h : InUse pmm a)
    (hclear : pmm.testBit (b / PAGE_SIZE) = false) : a ≠ b := by
  rintro rfl
  have hused := h.used
  rw [hclear] at hused
  exact Bool.false_ne_true hused

/-- The kernel has a supervisor table in the slot. -/
def supervisor (m : Memory) (kernel i : Nat) : Bool :=
  isPresent (entryAt m kernel i) && !isUser (entryAt m kernel i)

/-- The page is a directory or a table of the kernel, or of the space with the given
    slots. -/
def Structural (m : Memory) (kernel space : Nat) (slots : Nat → Prop) (a : Nat) : Prop :=
  a = kernel ∨ a = space ∨ HasTable m kernel AllSlots a ∨ HasTable m space slots a

/-- What holds of a space that has been set up in the given slots. -/
structure SpaceInv (m : Memory) (pmm : Pmm) (kernel space : Nat) (slots : Nat → Prop) : Prop where
  slots_lt : ∀ i, slots i → i < ENTRIES
  inUse : ∀ a, Structural m kernel space slots a → InUse pmm a
  space_ne : space ≠ kernel
  kernel_tables : ∀ a, HasTable m kernel AllSlots a → a ≠ kernel ∧ a ≠ space
  space_tables : ∀ a, HasTable m space slots a → a ≠ kernel ∧ a ≠ space
  shared : ∀ i, slots i → supervisor m kernel i = true → entryAt m space i = entryAt m kernel i
  own_user : ∀ i, slots i → supervisor m kernel i = false →
    isPresent (entryAt m space i) = true → isUser (entryAt m space i) = true
  own_table : ∀ i, slots i → supervisor m kernel i = false →
    isPresent (entryAt m space i) = true → ¬ HasTable m kernel AllSlots (frame (entryAt m space i))
  own_distinct : ∀ i, slots i → supervisor m kernel i = false →
    isPresent (entryAt m space i) = true → ∀ j, slots j → j ≠ i →
      isPresent (entryAt m space j) = true → frame (entryAt m space j) ≠ frame (entryAt m space i)
  user_frames : ∀ f, HasUserFrame m kernel AllSlots f ∨ HasUserFrame m space slots f →
    InUse pmm f ∧ ¬ Structural m kernel space slots f

theorem structural_congr {m m' : Memory} {kernel space : Nat} {slots : Nat → Prop}
    (hk : SameDirectory m m' kernel AllSlots) (hs : SameDirectory m m' space slots) {a : Nat}
    (ha : Structural m' kernel space slots a) : Structural m kernel space slots a := by
  rcases ha with ha | ha | ha | ha
  · exact Or.inl ha
  · exact Or.inr (Or.inl ha)
  · exact Or.inr (Or.inr (Or.inl (hk.hasTable ha)))
  · exact Or.inr (Or.inr (Or.inr (hs.hasTable ha)))

theorem supervisor_iff {m : Memory} {kernel i : Nat} :
    supervisor m kernel i = true ↔
      isPresent (entryAt m kernel i) = true ∧ isUser (entryAt m kernel i) = false := by
  rw [supervisor, Bool.and_eq_true, Bool.not_eq_true']

theorem supervisor_congr {m m' : Memory} {kernel : Nat}
    (hk : SameDirectory m m' kernel AllSlots) {i : Nat} (hi : i < ENTRIES) :
    supervisor m' kernel i = supervisor m kernel i := by
  rw [supervisor, supervisor, hk i hi]

namespace SpaceInv

variable {m m' : Memory} {pmm pmm' : Pmm} {kernel space : Nat} {slots : Nat → Prop}

theorem isPage_kernel (h : SpaceInv m pmm kernel space slots) : IsPage kernel :=
  (h.inUse kernel (Or.inl rfl)).toIsPage

theorem isPage_space (h : SpaceInv m pmm kernel space slots) : IsPage space :=
  (h.inUse space (Or.inr (Or.inl rfl))).toIsPage

/-- Writes that leave the directories alone. The pages mapped for user mode have to be
    looked at again. -/
theorem of_directories (h : SpaceInv m pmm kernel space slots)
    (hk : SameDirectory m m' kernel AllSlots) (hs : SameDirectory m m' space slots)
    (hp : pmm.Keeps pmm')
    (hframes : ∀ f, HasUserFrame m' kernel AllSlots f ∨ HasUserFrame m' space slots f →
      InUse pmm' f ∧ ¬ Structural m kernel space slots f) :
    SpaceInv m' pmm' kernel space slots := by
  constructor
  · exact h.slots_lt
  · exact fun a ha => (h.inUse a (structural_congr hk hs ha)).keeps hp
  · exact h.space_ne
  · exact fun a ha => h.kernel_tables a (hk.hasTable ha)
  · exact fun a ha => h.space_tables a (hs.hasTable ha)
  · intro i hi hsup
    rw [supervisor_congr hk (h.slots_lt i hi)] at hsup
    rw [hs i hi, hk i (h.slots_lt i hi)]
    exact h.shared i hi hsup
  · intro i hi hsup hpresent
    rw [supervisor_congr hk (h.slots_lt i hi)] at hsup
    rw [hs i hi] at hpresent ⊢
    exact h.own_user i hi hsup hpresent
  · intro i hi hsup hpresent htable
    rw [supervisor_congr hk (h.slots_lt i hi)] at hsup
    rw [hs i hi] at hpresent htable
    exact h.own_table i hi hsup hpresent (hk.hasTable htable)
  · intro i hi hsup hpresent j hj hne hpresent'
    rw [supervisor_congr hk (h.slots_lt i hi)] at hsup
    rw [hs i hi] at hpresent ⊢
    rw [hs j hj] at hpresent' ⊢
    exact h.own_distinct i hi hsup hpresent j hj hne hpresent'
  · intro f hf
    obtain ⟨hinUse, hfree⟩ := hframes f hf
    exact ⟨hinUse, fun ha => hfree (structural_congr hk hs ha)⟩

/-- Writes outside the directories and the tables. -/
theorem congr (h : SpaceInv m pmm kernel space slots) (hk : SameTables m m' kernel AllSlots)
    (hs : SameTables m m' space slots) (hp : pmm.Keeps pmm') :
    SpaceInv m' pmm' kernel space slots := by
  apply h.of_directories hk.directory hs.directory hp
  intro f hf
  have hf' : HasUserFrame m kernel AllSlots f ∨ HasUserFrame m space slots f := by
    rcases hf with hf | hf
    · exact Or.inl (hk.hasUserFrame hf)
    · exact Or.inr (hs.hasUserFrame hf)
  obtain ⟨hinUse, hfree⟩ := h.user_frames f hf'
  exact ⟨hinUse.keeps hp, hfree⟩

/-- A write inside a page that is no directory and no table. -/
theorem sameTables (h : SpaceInv m pmm kernel space slots) {a : Nat} (ha : IsPage a)
    (hfree : ¬ Structural m kernel space slots a) (hmem : OnlyPage a m m') :
    SameTables m m' kernel AllSlots ∧ SameTables m m' space slots := by
  constructor
  · apply SameTables.of_onlyPage hmem ha h.isPage_kernel _ _ fun _ hi => hi
    · exact fun heq => hfree (Or.inl heq.symm)
    · exact fun htable => hfree (Or.inr (Or.inr (Or.inl htable)))
  · apply SameTables.of_onlyPage hmem ha h.isPage_space _ _ h.slots_lt
    · exact fun heq => hfree (Or.inr (Or.inl heq.symm))
    · exact fun htable => hfree (Or.inr (Or.inr (Or.inr htable)))

/-- A page that is not in use is no directory and no table. -/
theorem not_structural (h : SpaceInv m pmm kernel space slots) {a : Nat}
    (hclear : pmm.testBit (a / PAGE_SIZE) = false) : ¬ Structural m kernel space slots a := by
  intro ha
  exact (h.inUse a ha).ne_of_clear hclear rfl

/-! ### One more slot -/

/-- The entry of a table that no slot uses so far, whose user pages are the kernel's. -/
structure NewTable (m : Memory) (pmm : Pmm) (kernel space : Nat) (slots : Nat → Prop) (e : Nat) :
    Prop where
  user : isUser e = true
  inUse : InUse pmm (frame e)
  free : ¬ Structural m kernel space slots (frame e)
  unmapped : ∀ f, HasUserFrame m kernel AllSlots f ∨ HasUserFrame m space slots f → f ≠ frame e
  copied : ∀ j < ENTRIES, isPresent (entryAt m (frame e) j) = true →
    isUser (entryAt m (frame e) j) = true →
      HasUserFrame m kernel AllSlots (frame (entryAt m (frame e) j))

section extend

variable {i : Nat} (hi : i < ENTRIES)
  (hshared : supervisor m kernel i = true → entryAt m space i = entryAt m kernel i)
  (hown : supervisor m kernel i = false → isPresent (entryAt m space i) = true →
    NewTable m pmm kernel space slots (entryAt m space i))

include hi hshared hown

/-- The tables with one more slot. -/
theorem hasTable_extend {a : Nat} (ha : HasTable m space (fun j => slots j ∨ j = i) a) :
    HasTable m space slots a ∨ HasTable m kernel AllSlots a ∨
      a = frame (entryAt m space i) ∧ NewTable m pmm kernel space slots (entryAt m space i) := by
  obtain ⟨j, hj | rfl, hpresent, rfl⟩ := ha
  · exact Or.inl ⟨j, hj, hpresent, rfl⟩
  · cases hsup : supervisor m kernel j with
    | true =>
        rw [hshared hsup] at hpresent ⊢
        exact Or.inr (Or.inl ⟨j, hi, hpresent, rfl⟩)
    | false => exact Or.inr (Or.inr ⟨rfl, hown hsup hpresent⟩)

theorem structural_extend {a : Nat} (ha : Structural m kernel space (fun j => slots j ∨ j = i) a) :
    Structural m kernel space slots a ∨
      a = frame (entryAt m space i) ∧ NewTable m pmm kernel space slots (entryAt m space i) := by
  rcases ha with ha | ha | ha | ha
  · exact Or.inl (Or.inl ha)
  · exact Or.inl (Or.inr (Or.inl ha))
  · exact Or.inl (Or.inr (Or.inr (Or.inl ha)))
  · rcases hasTable_extend hi hshared hown ha with ha | ha | ha
    · exact Or.inl (Or.inr (Or.inr (Or.inr ha)))
    · exact Or.inl (Or.inr (Or.inr (Or.inl ha)))
    · exact Or.inr ha

omit hi in
/-- The slot brings no frames that user mode did not see. -/
theorem hasUserFrame_extend {f : Nat} (hf : HasUserFrame m space (fun j => slots j ∨ j = i) f) :
    HasUserFrame m kernel AllSlots f ∨ HasUserFrame m space slots f := by
  obtain ⟨j, hj | rfl, hpresent, huser, k, hk, hpresent', huser', rfl⟩ := hf
  · exact Or.inr ⟨j, hj, hpresent, huser, k, hk, hpresent', huser', rfl⟩
  · cases hsup : supervisor m kernel j with
    | true =>
        rw [hshared hsup] at huser
        rw [supervisor, huser, Bool.not_true, Bool.and_false] at hsup
        exact absurd hsup Bool.false_ne_true
    | false => exact Or.inl ((hown hsup hpresent).copied k hk hpresent' huser')

/-- A slot is set up: with the entry of the kernel if that is a supervisor table, else
    with a new table or not at all. -/
theorem extend (h : SpaceInv m pmm kernel space slots) :
    SpaceInv m pmm kernel space (fun j => slots j ∨ j = i) := by
  constructor
  · rintro j (hj | rfl)
    · exact h.slots_lt j hj
    · exact hi
  · intro a ha
    rcases structural_extend hi hshared hown ha with ha | ⟨rfl, hnew⟩
    · exact h.inUse a ha
    · exact hnew.inUse
  · exact h.space_ne
  · exact h.kernel_tables
  · intro a ha
    rcases hasTable_extend hi hshared hown ha with ha | ha | ⟨rfl, hnew⟩
    · exact h.space_tables a ha
    · exact h.kernel_tables a ha
    · exact ⟨fun heq => hnew.free (Or.inl heq), fun heq => hnew.free (Or.inr (Or.inl heq))⟩
  · rintro j (hj | rfl) hsup
    · exact h.shared j hj hsup
    · exact hshared hsup
  · rintro j (hj | rfl) hsup hpresent
    · exact h.own_user j hj hsup hpresent
    · exact (hown hsup hpresent).user
  · rintro j (hj | rfl) hsup hpresent
    · exact h.own_table j hj hsup hpresent
    · exact fun ha => (hown hsup hpresent).free (Or.inr (Or.inr (Or.inl ha)))
  · rintro j (hj | rfl) hsup hpresent k (hk | rfl) hne hpresent' heq
    · exact h.own_distinct j hj hsup hpresent k hk hne hpresent' heq
    · -- the table of the new slot is the kernel's or in no other slot
      cases hsup' : supervisor m kernel k with
      | true =>
          rw [hshared hsup'] at hpresent' heq
          exact h.own_table j hj hsup hpresent ⟨k, hi, hpresent', heq⟩
      | false =>
          exact (hown hsup' hpresent').free (Or.inr (Or.inr (Or.inr ⟨j, hj, hpresent, heq.symm⟩)))
    · exact (hown hsup hpresent).free (Or.inr (Or.inr (Or.inr ⟨k, hk, hpresent', heq⟩)))
    · exact hne rfl
  · intro f hf
    have hf' : HasUserFrame m kernel AllSlots f ∨ HasUserFrame m space slots f :=
      hf.elim Or.inl (hasUserFrame_extend hshared hown)
    obtain ⟨hinUse, hfree⟩ := h.user_frames f hf'
    refine ⟨hinUse, fun ha => ?_⟩
    rcases structural_extend hi hshared hown ha with ha | ⟨heq, hnew⟩
    · exact hfree ha
    · exact hnew.unmapped f hf' heq

end extend

/-- Writing the entry of a slot that is not set up yet. -/
theorem setSlot (h : SpaceInv m pmm kernel space slots) {i e : Nat} (hi : i < ENTRIES)
    (hnew : ¬ slots i) (he : e < 2 ^ 32) :
    SameTables m (setEntry m space i e) kernel AllSlots ∧
      SameTables m (setEntry m space i e) space slots ∧
      entryAt (setEntry m space i e) space i = e := by
  have honly : OnlyPage space m (setEntry m space i e) := onlyPage_setEntry h.isPage_space hi
  refine ⟨?_, ⟨?_, ?_⟩, ?_⟩
  · apply SameTables.of_onlyPage honly h.isPage_space h.isPage_kernel h.space_ne.symm _
      fun _ hj => hj
    exact fun htable => (h.kernel_tables space htable).2 rfl
  · intro j hj
    rw [entryAt_setEntry h.isPage_space hi (h.slots_lt j hj) he, if_neg]
    rintro rfl
    exact hnew hj
  · intro j hj hpresent k hk
    apply entryAt_onlyPage honly h.isPage_space (frame_entryAt_isPage m space j) _ hk
    exact (h.space_tables _ ⟨j, hj, hpresent, rfl⟩).2
  · rw [entryAt_setEntry h.isPage_space hi hi he, if_pos rfl]

end SpaceInv

/-! ## `vmm_create_space` -/

theorem pmmAllocPage_page {p p' : Pmm} {a : Nat} (halloc : p.pmmAllocPage = (a, p')) :
    p.Keeps p' ∧ (a ≠ 0 → IsPage a ∧ p.testBit (a / PAGE_SIZE) = false ∧ InUse p' a) := by
  obtain ⟨hkeeps, hcases⟩ := p.pmmAllocPage_spec
  rw [halloc] at hkeeps hcases
  refine ⟨hkeeps, fun hne => ?_⟩
  rcases hcases with hzero | ⟨i, -, hi, rfl, hclear, hbit⟩
  · exact absurd hzero hne
  · have hpage : IsPage (i * PAGE_SIZE) := by
      constructor
      · exact Nat.mul_mod_left _ _
      · rw [PAGE_SIZE]
        omega
    have hindex : i * PAGE_SIZE / PAGE_SIZE = i := Nat.mul_div_cancel i (by decide)
    refine ⟨hpage, by rw [hindex, hclear], hpage, ?_⟩
    simp only [hindex, hbit, decide_true, Bool.or_true]

/-- The three ways in which the loop sets up a slot. -/
theorem SpaceInv.setSlot_absent {m : Memory} {pmm : Pmm} {kernel space i : Nat}
    {slots : Nat → Prop} (h : SpaceInv m pmm kernel space slots) (hi : i < ENTRIES)
    (hnew : ¬ slots i) (habsent : isPresent (entryAt m kernel i) = false) :
    SpaceInv (setEntry m space i 0) pmm kernel space (fun j => slots j ∨ j = i) ∧
      SameTables m (setEntry m space i 0) kernel AllSlots := by
  obtain ⟨hk, hs, hentry⟩ := h.setSlot hi hnew (Nat.two_pow_pos 32)
  have hsup : supervisor (setEntry m space i 0) kernel i = false := by
    rw [supervisor_congr hk.directory hi, supervisor, habsent, Bool.false_and]
  refine ⟨(h.congr hk hs fun _ hpage => hpage).extend hi ?_ ?_, hk⟩
  · intro hsup'
    rw [hsup] at hsup'
    exact absurd hsup' Bool.false_ne_true
  · intro _ hpresent
    rw [hentry] at hpresent
    exact absurd hpresent (by decide)

theorem SpaceInv.setSlot_shared {m : Memory} {pmm : Pmm} {kernel space i : Nat}
    {slots : Nat → Prop} (h : SpaceInv m pmm kernel space slots) (hi : i < ENTRIES)
    (hnew : ¬ slots i) (hsup : supervisor m kernel i = true) :
    SpaceInv (setEntry m space i (entryAt m kernel i)) pmm kernel space
        (fun j => slots j ∨ j = i) ∧
      SameTables m (setEntry m space i (entryAt m kernel i)) kernel AllSlots := by
  obtain ⟨hk, hs, hentry⟩ := h.setSlot hi hnew (entryAt_lt m kernel i)
  refine ⟨(h.congr hk hs fun _ hpage => hpage).extend hi ?_ ?_, hk⟩
  · intro _
    rw [hentry, hk.directory i hi]
  · intro hsup'
    rw [supervisor_congr hk.directory hi, hsup] at hsup'
    exact absurd hsup'.symm Bool.false_ne_true

/-- A new table in the page `a`, which was not in use, with the given contents. -/
theorem SpaceInv.setSlot_own {m m₁ : Memory} {pmm pmm' : Pmm} {kernel space i a f : Nat}
    {slots : Nat → Prop} (h : SpaceInv m pmm kernel space slots) (hi : i < ENTRIES)
    (hnew : ¬ slots i) (hsup : supervisor m kernel i = false) (ha : IsPage a)
    (hclear : pmm.testBit (a / PAGE_SIZE) = false) (hinUse : InUse pmm' a) (hp : pmm.Keeps pmm')
    (hmem : OnlyPage a m m₁) (hf : f < PAGE_SIZE) (huser : isUser f = true)
    (hcopied : ∀ j < ENTRIES, isPresent (entryAt m₁ a j) = true → isUser (entryAt m₁ a j) = true →
      HasUserFrame m kernel AllSlots (frame (entryAt m₁ a j))) :
    SpaceInv (setEntry m₁ space i (a + f)) pmm' kernel space (fun j => slots j ∨ j = i) ∧
      SameTables m (setEntry m₁ space i (a + f)) kernel AllSlots ∧
      SameTables m (setEntry m₁ space i (a + f)) space slots ∧
      entryAt (setEntry m₁ space i (a + f)) space i = a + f ∧
      ∀ j < ENTRIES, entryAt (setEntry m₁ space i (a + f)) a j = entryAt m₁ a j := by
  have hfree := h.not_structural hclear
  obtain ⟨hk₁, hs₁⟩ := h.sameTables ha hfree hmem
  have h₁ := h.congr hk₁ hs₁ hp
  obtain ⟨hk₂, hs₂, hentry⟩ := h₁.setSlot hi hnew (ha.add_lt hf)
  have hk := hk₁.trans hk₂
  have hs := hs₁.trans hs₂
  have htable : ∀ j < ENTRIES, entryAt (setEntry m₁ space i (a + f)) a j = entryAt m₁ a j := by
    intro j hj
    apply entryAt_onlyPage (onlyPage_setEntry h.isPage_space hi) h.isPage_space ha _ hj
    exact fun heq => hfree (Or.inr (Or.inl heq))
  refine ⟨(h₁.congr hk₂ hs₂ fun _ hpage => hpage).extend hi ?_ ?_, hk, hs, hentry, htable⟩
  · intro hsup'
    rw [supervisor_congr hk.directory hi, hsup] at hsup'
    exact absurd hsup' Bool.false_ne_true
  · intro _ _
    rw [hentry]
    have hframe : frame (a + f) = a := frame_add ha hf
    refine ⟨(isUser_add ha).trans huser, ?_, ?_, ?_, ?_⟩
    · rw [hframe]
      exact hinUse
    · rw [hframe]
      exact fun hstructural => hfree (structural_congr hk.directory hs.directory hstructural)
    · rw [hframe]
      rintro b hb rfl
      have hb' : HasUserFrame m kernel AllSlots b ∨ HasUserFrame m space slots b := by
        rcases hb with hb | hb
        · exact Or.inl (hk.hasUserFrame hb)
        · exact Or.inr (hs.hasUserFrame hb)
      exact (h.user_frames b hb').1.ne_of_clear hclear rfl
    · intro j hj hpresent huser'
      rw [hframe, htable j hj] at hpresent huser' ⊢
      exact hk.symm.hasUserFrame (hcopied j hj hpresent huser')

/-! ## The loop of `vmm_create_space` -/

/-- A round of the loop that goes on: the slot is empty, has the kernel's table or a copy
    of it. -/
inductive FillStep (dir i : Nat) (m : Machine) : Machine → Prop
  | absent (habsent : isPresent (entryAt m.mem m.kernelSpace i) = false) :
      FillStep dir i m { m with mem := setEntry m.mem dir i 0 }
  | shared (hsup : supervisor m.mem m.kernelSpace i = true) :
      FillStep dir i m { m with mem := setEntry m.mem dir i (entryAt m.mem m.kernelSpace i) }
  | copied (hpresent : isPresent (entryAt m.mem m.kernelSpace i) = true)
      (huser : isUser (entryAt m.mem m.kernelSpace i) = true) {table : Nat} {pmm : Pmm}
      (halloc : m.pmm.pmmAllocPage = (table, pmm)) (hne : table ≠ 0) :
      FillStep dir i m
        ⟨setEntry (copyPage m.mem table (frame (entryAt m.mem m.kernelSpace i))) dir i
          (table + flagBits (entryAt m.mem m.kernelSpace i)), pmm, m.kernelSpace⟩

/-- A round that ends the loop: the kernel's table is to be copied and there is no page. -/
structure FillFails (i : Nat) (m : Machine) (pmm : Pmm) : Prop where
  present : isPresent (entryAt m.mem m.kernelSpace i) = true
  user : isUser (entryAt m.mem m.kernelSpace i) = true
  alloc : m.pmm.pmmAllocPage = (0, pmm)

section rounds

open Machine

variable {dir i : Nat} {m m' : Machine}

theorem fillStep_or_fails (dir i : Nat) (m : Machine) :
    (∃ m', FillStep dir i m m') ∨ ∃ pmm, FillFails i m pmm := by
  cases hpresent : isPresent (entryAt m.mem m.kernelSpace i) with
  | false => exact .inl ⟨_, .absent hpresent⟩
  | true =>
      cases huser : isUser (entryAt m.mem m.kernelSpace i) with
      | false => exact .inl ⟨_, .shared (supervisor_iff.mpr ⟨hpresent, huser⟩)⟩
      | true =>
          rcases halloc : m.pmm.pmmAllocPage with ⟨table, pmm⟩
          by_cases hzero : table = 0
          · subst hzero
            exact .inr ⟨pmm, hpresent, huser, halloc⟩
          · exact .inl ⟨_, .copied hpresent huser halloc hzero⟩

theorem FillStep.fillDirectory_eq (hstep : FillStep dir i m m') (n : Nat) :
    fillDirectory dir i m (n + 1) = fillDirectory dir (i + 1) m' n := by
  rw [fillDirectory]
  cases hstep with
  | absent habsent => rw [habsent, Bool.not_false, if_pos rfl]
  | shared hsup =>
      obtain ⟨hpresent, huser⟩ := supervisor_iff.mp hsup
      rw [hpresent, huser, Bool.not_true, if_neg Bool.false_ne_true, if_neg Bool.false_ne_true]
  | copied hpresent huser halloc hne =>
      rw [hpresent, huser, Bool.not_true, if_neg Bool.false_ne_true, if_pos rfl, halloc]
      dsimp only
      rw [if_neg hne]

theorem FillFails.fillDirectory_eq {pmm : Pmm} (h : FillFails i m pmm) (dir n : Nat) :
    fillDirectory dir i m (n + 1) =
      (false, { m with pmm := (freeTables { m with pmm := pmm } dir i).pmmFreePage dir }) := by
  rw [fillDirectory, h.present, h.user, Bool.not_true, if_neg Bool.false_ne_true, if_pos rfl, h.alloc]
  dsimp only
  rw [if_pos rfl]

/-- What the rounds keep holds at the end, or when there is no page for a copy. -/
theorem fillDirectory_run {dir : Nat} {P : Nat → Machine → Prop}
    (hstep : ∀ i m m', i < ENTRIES → P i m → FillStep dir i m m' → P (i + 1) m') {i n : Nat}
    {m m' : Machine} {ok : Bool} (h : P i m) (hn : i + n = ENTRIES)
    (hfill : fillDirectory dir i m n = (ok, m')) :
    (ok = true → P ENTRIES m') ∧
      (ok = false → ∃ j m₁ pmm, j < ENTRIES ∧ P j m₁ ∧ FillFails j m₁ pmm ∧
        m' = { m₁ with pmm := (freeTables { m₁ with pmm := pmm } dir j).pmmFreePage dir }) := by
  induction n generalizing i m with
  | zero =>
      obtain rfl : i = ENTRIES := hn
      obtain ⟨rfl, rfl⟩ := Prod.ext_iff.mp hfill
      exact ⟨fun _ => h, nofun⟩
  | succ n ih =>
      have hi : i < ENTRIES := by omega
      rcases fillStep_or_fails dir i m with ⟨m₁, hround⟩ | ⟨pmm, hfails⟩
      · rw [hround.fillDirectory_eq] at hfill
        exact ih (hstep i m m₁ hi h hround) (by omega) hfill
      · rw [hfails.fillDirectory_eq] at hfill
        obtain ⟨rfl, rfl⟩ := Prod.ext_iff.mp hfill
        exact ⟨nofun, fun _ => ⟨i, m, pmm, hi, h, hfails, rfl⟩⟩

end rounds

/-- What a round does to a space that is set up in the first `i` slots. User mode sees the
    same in the new slot as in the kernel's. -/
structure SlotSet (dir i : Nat) (m m' : Machine) : Prop where
  inv : SpaceInv m'.mem m'.pmm m.kernelSpace dir (fun j => j < i + 1)
  kernelSpace : m'.kernelSpace = m.kernelSpace
  keeps : m.pmm.Keeps m'.pmm
  kernel_tables : SameTables m.mem m'.mem m.kernelSpace AllSlots
  slots : SameTables m.mem m'.mem dir (fun j => j < i)
  mirror : ∀ v, pdIdx v = i → userMapped m'.mem dir v = userMapped m.mem m.kernelSpace v

theorem FillStep.slotSet {dir i : Nat} {m m' : Machine} (hstep : FillStep dir i m m')
    (hi : i < ENTRIES) (h : SpaceInv m.mem m.pmm m.kernelSpace dir (fun j => j < i)) :
    SlotSet dir i m m' := by
  have hnew : ¬ i < i := Nat.lt_irrefl i
  have hslots : (fun j => j < i ∨ j = i) = fun j => j < i + 1 := by
    funext j
    exact propext (by omega)
  cases hstep with
  | absent habsent =>
      obtain ⟨hinv, hkernel⟩ := h.setSlot_absent hi hnew habsent
      rw [hslots] at hinv
      obtain ⟨-, hdir, hentry⟩ := h.setSlot hi hnew (Nat.two_pow_pos 32)
      refine ⟨hinv, rfl, fun _ hpage => hpage, hkernel, hdir, ?_⟩
      rintro v rfl
      have hzero : isPresent 0 = false := rfl
      dsimp only
      rw [userMapped_eq, userMapped_eq, hentry, habsent, hzero]
      simp only [Bool.false_and]
  | shared hsup =>
      obtain ⟨hinv, hkernel⟩ := h.setSlot_shared hi hnew hsup
      rw [hslots] at hinv
      obtain ⟨-, hdir, hentry⟩ := h.setSlot hi hnew (entryAt_lt m.mem m.kernelSpace i)
      refine ⟨hinv, rfl, fun _ hpage => hpage, hkernel, hdir, ?_⟩
      rintro v rfl
      dsimp only
      rw [userMapped_eq, userMapped_eq, hentry, (supervisor_iff.mp hsup).2, Bool.and_false,
        Bool.false_and, Bool.false_and]
  | copied hpresent huser halloc hne =>
      rename_i table pmm
      obtain ⟨hkeeps, hpage⟩ := pmmAllocPage_page halloc
      obtain ⟨hpage, hclear, hinUse⟩ := hpage hne
      have hsup : supervisor m.mem m.kernelSpace i = false := by
        rw [supervisor, hpresent, huser]
        rfl
      have hcopy : ∀ j < ENTRIES,
          entryAt (copyPage m.mem table (frame (entryAt m.mem m.kernelSpace i))) table j =
            entryAt m.mem (frame (entryAt m.mem m.kernelSpace i)) j :=
        fun j hj => entryAt_copyPage hpage (frame_entryAt_isPage _ _ _) hj
      have hflags : flagBits (entryAt m.mem m.kernelSpace i) < PAGE_SIZE := Nat.mod_lt _ (by decide)
      obtain ⟨hinv, hkernel, hdir, hentry, htable⟩ := h.setSlot_own hi hnew hsup hpage hclear hinUse
        hkeeps (onlyPage_copyPage (frame (entryAt m.mem m.kernelSpace i))) hflags
        ((isUser_flagBits _).trans huser) (by
          intro j hj hj_present hj_user
          rw [hcopy j hj] at hj_present hj_user ⊢
          exact ⟨i, hi, hpresent, huser, j, hj, hj_present, hj_user, rfl⟩)
      rw [hslots] at hinv
      refine ⟨hinv, rfl, hkeeps, hkernel, hdir, ?_⟩
      rintro v rfl
      dsimp only
      rw [userMapped_eq, userMapped_eq, hentry, frame_add hpage hflags, htable _ (ptIdx_lt v),
        hcopy _ (ptIdx_lt v), isPresent_add hpage, isUser_add hpage, isPresent_flagBits,
        isUser_flagBits]

open Machine in
/-- The loop sets up slot after slot. -/
theorem fillDirectory_spec {dir : Nat} {m m' : Machine}
    (h : SpaceInv m.mem m.pmm m.kernelSpace dir (fun j => j < 0))
    (hfill : fillDirectory dir 0 m ENTRIES = (true, m')) :
    SpaceInv m'.mem m'.pmm m.kernelSpace dir AllSlots ∧
      SameTables m.mem m'.mem m.kernelSpace AllSlots ∧ m'.kernelSpace = m.kernelSpace ∧
      m.pmm.Keeps m'.pmm ∧
      ∀ v < 2 ^ 32, userMapped m'.mem dir v = userMapped m.mem m.kernelSpace v := by
  obtain ⟨hrun, -⟩ := fillDirectory_run
    (P := fun i m₁ => SpaceInv m₁.mem m₁.pmm m.kernelSpace dir (fun j => j < i) ∧
      SameTables m.mem m₁.mem m.kernelSpace AllSlots ∧ m₁.kernelSpace = m.kernelSpace ∧
      m.pmm.Keeps m₁.pmm ∧
      ∀ v < 2 ^ 32, pdIdx v < i → userMapped m₁.mem dir v = userMapped m.mem m.kernelSpace v)
    (by
      rintro i m₁ m₂ hi ⟨hinv, hsame, hkernel, hkeeps, hmirror⟩ hstep
      have hset := hstep.slotSet hi (by rw [hkernel]; exact hinv)
      obtain ⟨hinv₂, hkernel₂, hkeeps₂, hsame₂, hslots, hmirror₂⟩ := hset
      rw [hkernel] at hinv₂ hkernel₂ hsame₂ hmirror₂
      refine ⟨hinv₂, hsame.trans hsame₂, hkernel₂, hkeeps.trans hkeeps₂, fun v hv hslot => ?_⟩
      rcases Nat.lt_succ_iff_lt_or_eq.mp hslot with hlt | heq
      · rw [userMapped_congr hslots hlt]
        exact hmirror v hv hlt
      · rw [hmirror₂ v heq, userMapped_congr hsame (pdIdx_lt hv)])
    ⟨h, .refl, rfl, fun _ hpage => hpage, fun v _ hslot => absurd hslot (Nat.not_lt_zero _)⟩
    (Nat.zero_add _) hfill
  obtain ⟨hinv, hsame, hkernel, hkeeps, hmirror⟩ := hrun rfl
  exact ⟨hinv, hsame, hkernel, hkeeps, fun v hv => hmirror v hv (pdIdx_lt hv)⟩

open Machine in
/-- A call that returns a space. -/
theorem vmmCreateSpace_made {m m' : Machine} {space : Nat}
    (hcreate : m.vmmCreateSpace = (space, m')) (hne : space ≠ 0) :
    ∃ pmm, m.pmm.pmmAllocPage = (space, pmm) ∧
      fillDirectory space 0 { m with pmm := pmm } ENTRIES = (true, m') := by
  rw [vmmCreateSpace] at hcreate
  rcases halloc : m.pmm.pmmAllocPage with ⟨dir, pmm⟩
  rw [halloc] at hcreate
  dsimp only at hcreate
  by_cases hzero : dir = 0
  · rw [if_pos hzero] at hcreate
    exact absurd (Prod.ext_iff.mp hcreate).1.symm hne
  · rw [if_neg hzero] at hcreate
    rcases hfill : fillDirectory dir 0 { m with pmm := pmm } ENTRIES with ⟨ok, m₁⟩
    rw [hfill] at hcreate
    obtain ⟨hspace, rfl⟩ := Prod.ext_iff.mp hcreate
    dsimp only at hspace
    cases ok with
    | false => exact absurd hspace.symm hne
    | true =>
        obtain rfl : dir = space := hspace
        exact ⟨pmm, rfl, hfill⟩

/-- A kernel space as `paging_init` leaves it, and as it stays when pages are mapped: its
    directory and its tables are pages in use, no page mapped for user mode is one of them,
    and pages that entries with the user bit stand for are in use. -/
structure KernelSpace (m : Machine) : Prop where
  directory_inUse : InUse m.pmm m.kernelSpace
  tables_inUse : ∀ a, HasTable m.mem m.kernelSpace AllSlots a → InUse m.pmm a ∧ a ≠ m.kernelSpace
  user_frames : ∀ f, HasUserFrame m.mem m.kernelSpace AllSlots f →
    InUse m.pmm f ∧ f ≠ m.kernelSpace ∧ ¬ HasTable m.mem m.kernelSpace AllSlots f
  supervisor_frames : ∀ i < ENTRIES, supervisor m.mem m.kernelSpace i = true → ∀ j < ENTRIES,
    isUser (entryAt m.mem (frame (entryAt m.mem m.kernelSpace i)) j) = true →
      InUse m.pmm (frame (entryAt m.mem (frame (entryAt m.mem m.kernelSpace i)) j))

theorem KernelSpace.congr {m m' : Machine} (h : KernelSpace m)
    (hkernel : m'.kernelSpace = m.kernelSpace)
    (hsame : SameTables m.mem m'.mem m.kernelSpace AllSlots) (hkeeps : m.pmm.Keeps m'.pmm) :
    KernelSpace m' := by
  constructor
  · rw [hkernel]
    exact h.directory_inUse.keeps hkeeps
  · intro a ha
    rw [hkernel] at ha ⊢
    obtain ⟨hinUse, hne⟩ := h.tables_inUse a (hsame.directory.hasTable ha)
    exact ⟨hinUse.keeps hkeeps, hne⟩
  · intro f hf
    rw [hkernel] at hf ⊢
    obtain ⟨hinUse, hne, hnot⟩ := h.user_frames f (hsame.hasUserFrame hf)
    exact ⟨hinUse.keeps hkeeps, hne, fun ha => hnot (hsame.directory.hasTable ha)⟩
  · intro i hi hsup j hj huser
    rw [hkernel] at hsup huser ⊢
    rw [supervisor_congr hsame.directory hi] at hsup
    rw [hsame.directory i hi, hsame.table i hi (supervisor_iff.mp hsup).1 j hj] at huser ⊢
    exact (h.supervisor_frames i hi hsup j hj huser).keeps hkeeps

theorem KernelSpace.keeps {m : Machine} (h : KernelSpace m) {pmm : Pmm} (hkeeps : m.pmm.Keeps pmm) :
    KernelSpace { m with pmm := pmm } := h.congr rfl .refl hkeeps

/-- A new directory with no slot set up. -/
theorem KernelSpace.spaceInv {m : Machine} (h : KernelSpace m) {dir : Nat} {pmm : Pmm}
    (halloc : m.pmm.pmmAllocPage = (dir, pmm)) (hne : dir ≠ 0) :
    SpaceInv m.mem pmm m.kernelSpace dir (fun j => j < 0) := by
  obtain ⟨hkeeps, hpage⟩ := pmmAllocPage_page halloc
  obtain ⟨-, hclear, hinUse⟩ := hpage hne
  have hused : ∀ a, InUse m.pmm a → InUse pmm a ∧ a ≠ dir :=
    fun a ha => ⟨ha.keeps hkeeps, ha.ne_of_clear hclear⟩
  have htable : ∀ a, ¬ HasTable m.mem dir (fun j => j < 0) a := by
    rintro a ⟨j, hj, -⟩
    exact Nat.not_lt_zero j hj
  constructor
  · exact fun j hj => absurd hj (Nat.not_lt_zero j)
  · rintro a (rfl | rfl | ha | ha)
    · exact (hused _ h.directory_inUse).1
    · exact hinUse
    · exact (hused a (h.tables_inUse a ha).1).1
    · exact absurd ha (htable a)
  · exact (hused _ h.directory_inUse).2.symm
  · exact fun a ha => ⟨(h.tables_inUse a ha).2, (hused a (h.tables_inUse a ha).1).2⟩
  · exact fun a ha => absurd ha (htable a)
  · exact fun j hj => absurd hj (Nat.not_lt_zero j)
  · exact fun j hj => absurd hj (Nat.not_lt_zero j)
  · exact fun j hj => absurd hj (Nat.not_lt_zero j)
  · exact fun j hj => absurd hj (Nat.not_lt_zero j)
  · rintro f (hf | ⟨j, hj, -⟩)
    · obtain ⟨hf_inUse, hf_ne, hf_table⟩ := h.user_frames f hf
      refine ⟨(hused f hf_inUse).1, ?_⟩
      rintro (ha | ha | ha | ha)
      · exact hf_ne ha
      · exact (hused f hf_inUse).2 ha
      · exact hf_table ha
      · exact htable f ha
    · exact absurd hj (Nat.not_lt_zero j)

/-- **The spaces `vmm_create_space` returns.** The space satisfies the invariant, the
    kernel's tables are as before and pages in use stay in use. -/
theorem KernelSpace.vmmCreateSpace {m m' : Machine} {space : Nat} (h : KernelSpace m)
    (hcreate : m.vmmCreateSpace = (space, m')) (hne : space ≠ 0) :
    SpaceInv m'.mem m'.pmm m.kernelSpace space AllSlots ∧
      SameTables m.mem m'.mem m.kernelSpace AllSlots ∧ m'.kernelSpace = m.kernelSpace ∧
      m.pmm.Keeps m'.pmm := by
  obtain ⟨pmm, halloc, hfill⟩ := vmmCreateSpace_made hcreate hne
  obtain ⟨hspace, hsame, hkernel, hkeeps, -⟩ := fillDirectory_spec (m := { m with pmm := pmm })
    (h.spaceInv halloc hne) hfill
  exact ⟨hspace, hsame, hkernel, (pmmAllocPage_page halloc).1.trans hkeeps⟩

/-- User mode sees the same in the new space as in the kernel's. -/
theorem KernelSpace.vmmCreateSpace_mirror {m m' : Machine} {space : Nat} (h : KernelSpace m)
    (hcreate : m.vmmCreateSpace = (space, m')) (hne : space ≠ 0) {v : Nat} (hv : v < 2 ^ 32) :
    userMapped m'.mem space v = userMapped m.mem m.kernelSpace v := by
  obtain ⟨pmm, halloc, hfill⟩ := vmmCreateSpace_made hcreate hne
  obtain ⟨-, -, -, -, hmirror⟩ := fillDirectory_spec (m := { m with pmm := pmm })
    (h.spaceInv halloc hne) hfill
  exact hmirror v hv

/-! ## A kernel without user tables -/

open Machine in
theorem fillDirectory_of_supervisor {dir i n : Nat} {m : Machine}
    (h : SpaceInv m.mem m.pmm m.kernelSpace dir (fun j => j < i)) (hn : i + n = ENTRIES)
    (hnone : ∀ j < ENTRIES, isUser (entryAt m.mem m.kernelSpace j) = false) :
    ∃ mem, fillDirectory dir i m n = (true, { m with mem := mem }) := by
  induction n generalizing i m with
  | zero => exact ⟨m.mem, rfl⟩
  | succ n ih =>
      have hi : i < ENTRIES := by omega
      rcases fillStep_or_fails dir i m with ⟨m₁, hround⟩ | ⟨pmm, hfails⟩
      · obtain ⟨hinv, hkernel, -, hsame, -, -⟩ := hround.slotSet hi h
        have hmem : m₁ = { m with mem := m₁.mem } := by
          cases hround with
          | absent => rfl
          | shared => rfl
          | copied _ huser => exact absurd ((hnone i hi).symm.trans huser) Bool.false_ne_true
        rw [← hkernel] at hinv
        obtain ⟨mem, hrest⟩ := ih hinv (by omega) fun j hj => by
          rw [hkernel, hsame.directory j hj]
          exact hnone j hj
        refine ⟨mem, (hround.fillDirectory_eq n).trans (hrest.trans ?_)⟩
        rw [hmem]
      · exact absurd ((hnone i hi).symm.trans hfails.user) Bool.false_ne_true

/-- With supervisor tables only, a new space takes one page. -/
theorem KernelSpace.vmmCreateSpace_of_supervisor {m : Machine} (h : KernelSpace m)
    (hnone : ∀ j < ENTRIES, isUser (entryAt m.mem m.kernelSpace j) = false) {dir : Nat} {pmm : Pmm}
    (halloc : m.pmm.pmmAllocPage = (dir, pmm)) (hne : dir ≠ 0) :
    ∃ mem, m.vmmCreateSpace = (dir, ⟨mem, pmm, m.kernelSpace⟩) := by
  obtain ⟨mem, hfill⟩ := fillDirectory_of_supervisor (m := { m with pmm := pmm })
    (h.spaceInv halloc hne) (Nat.zero_add ENTRIES) hnone
  refine ⟨mem, ?_⟩
  rw [Machine.vmmCreateSpace, halloc]
  dsimp only
  rw [if_neg hne, hfill]
  rfl

/-! ## A small machine -/

theorem smallPages_le : 16 ≤ 2 ^ 20 := by decide

/-- Sixteen pages, of which the first three are in use; the kernel space maps the first
    four MiB for itself. -/
def smallMachine : Machine where
  mem := identityMemory
  pmm := ⟨fun i => if i = 0 then 7 else 0, 16, 3, smallPages_le⟩
  kernelSpace := 0x1000

theorem entryAt_identity_directory {i : Nat} (hi : i < ENTRIES) :
    entryAt identityMemory 0x1000 i = if i = 0 then 0x2003 else 0 := by
  rw [ENTRIES] at hi
  by_cases hzero : i = 0
  · subst hzero
    decide
  · have hbyte : ∀ b < 4, identityMemory (u32 (0x1000 + 4 * i + b)) = 0 := by
      intro b hb
      rw [identityMemory, u32_of_lt (by omega), if_neg (by omega), if_neg (by omega)]
    rw [if_neg hzero, entryAt, read32, hbyte 1 (by omega), hbyte 2 (by omega), hbyte 3 (by omega)]
    have hfirst := hbyte 0 (by omega)
    rw [Nat.add_zero] at hfirst
    rw [hfirst]
    rfl

theorem entryAt_identity_table {j : Nat} (hj : j < ENTRIES) :
    entryAt identityMemory 0x2000 j = j * PAGE_SIZE + 3 := by
  rw [ENTRIES] at hj
  have hbyte : ∀ b < 4, identityMemory (u32 (0x2000 + 4 * j + b)) = byteOf (j * PAGE_SIZE + 3) b := by
    intro b hb
    have hindex : (0x2000 + 4 * j + b - 0x2000) / 4 = j := by omega
    have hoffset : (0x2000 + 4 * j + b) % 4 = b := by omega
    rw [identityMemory, u32_of_lt (by omega), if_neg (by omega), if_pos (by omega), hindex, hoffset]
  have hfirst := hbyte 0 (by omega)
  rw [Nat.add_zero] at hfirst
  rw [entryAt, read32, hfirst, hbyte 1 (by omega), hbyte 2 (by omega), hbyte 3 (by omega), byteOf,
    byteOf, byteOf, byteOf, UInt8.toNat_ofNat', UInt8.toNat_ofNat', UInt8.toNat_ofNat',
    UInt8.toNat_ofNat', PAGE_SIZE]
  omega

theorem smallMachine_supervisor {j : Nat} (hj : j < ENTRIES) :
    isUser (entryAt smallMachine.mem smallMachine.kernelSpace j) = false := by
  have hentry : entryAt smallMachine.mem smallMachine.kernelSpace j = if j = 0 then 0x2003 else 0 :=
    entryAt_identity_directory hj
  rw [hentry]
  split <;> decide

theorem smallMachine_kernelSpace : KernelSpace smallMachine := by
  have htable : ∀ a, HasTable smallMachine.mem smallMachine.kernelSpace AllSlots a → a = 0x2000 := by
    rintro a ⟨i, hi, hpresent, rfl⟩
    have hentry : entryAt smallMachine.mem smallMachine.kernelSpace i =
        if i = 0 then 0x2003 else 0 := entryAt_identity_directory hi
    rw [hentry] at hpresent ⊢
    split at hpresent
    · rename_i hzero
      rw [if_pos hzero]
      decide
    · exact absurd hpresent (by decide)
  constructor
  · exact ⟨⟨by decide, by decide⟩, by decide⟩
  · intro a ha
    rw [htable a ha]
    exact ⟨⟨⟨by decide, by decide⟩, by decide⟩, by decide⟩
  · rintro f ⟨i, hi, -, huser, -⟩
    rw [smallMachine_supervisor hi] at huser
    exact absurd huser Bool.false_ne_true
  · intro i hi hsup j hj huser
    have hframe := htable _ ⟨i, hi, (supervisor_iff.mp hsup).1, rfl⟩
    have hentry : entryAt smallMachine.mem 0x2000 j = j * PAGE_SIZE + 3 := entryAt_identity_table hj
    rw [hframe, hentry, isUser, PAGE_SIZE, beq_iff_eq] at huser
    omega

/-- The space that is created in the small machine. -/
theorem smallMachine_create :
    ∃ mem, smallMachine.vmmCreateSpace =
      (0x3000, ⟨mem, smallMachine.pmm.pmmAllocPage.2, 0x1000⟩) :=
  smallMachine_kernelSpace.vmmCreateSpace_of_supervisor (fun _ hj => smallMachine_supervisor hj)
    (Prod.ext (by decide) rfl) (by decide)

/-- The slot of an address in the small machine with a new space. -/
theorem smallMachine_slot {m : Machine} (hcreate : smallMachine.vmmCreateSpace = (0x3000, m))
    {i : Nat} (hi : i < ENTRIES) : supervisor m.mem m.kernelSpace i = decide (i = 0) := by
  obtain ⟨-, hsame, hkernel, -⟩ := smallMachine_kernelSpace.vmmCreateSpace hcreate (by decide)
  have hentry : entryAt smallMachine.mem smallMachine.kernelSpace i = if i = 0 then 0x2003 else 0 :=
    entryAt_identity_directory hi
  rw [hkernel, supervisor_congr hsame.directory hi, supervisor, hentry]
  by_cases hzero : i = 0
  · rw [if_pos hzero, decide_eq_true hzero]
    decide
  · rw [if_neg hzero, decide_eq_false hzero]
    decide

end NemoOS
