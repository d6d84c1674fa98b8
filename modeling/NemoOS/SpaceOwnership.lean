import NemoOS.DirectoryFill
import NemoOS.Lib.Runs

/-!
# Who owns directories and tables

Any number of spaces, made and changed by the four functions of `memory/vmm.cpp`. Nothing
records which pages belong to a space: it is its directory and the tables of the entries
with the user bit, while tables without it are the kernel's and shared by all.

`Owned` says that no page belongs to two spaces and that all of them are in use. It reads
the directories only, so that what is written into tables does not matter to it. A frame
argument does the rest: `vmm_create_space` writes to pages that were free
(`Untouched`), the others write into a page of the space they work on.
-/

namespace NemoOS

open Words Bytes Machine Transition

/-! ## The invariant -/

/-- The spaces `live` and the kernel's: each page of a space is in use and no other's; a
    space has the kernel's entry in the kernel's supervisor slots and user tables in the
    others. Pages of the spaces in `live` came from the page allocator. -/
structure Owned (m : Memory) (pmm : Pmm) (kernel : Nat) (live : List Nat) : Prop where
  nodup : (kernel :: live).Nodup
  inUse : ∀ s ∈ kernel :: live, ∀ a, Owns m s a → InUse pmm a
  allocated : ∀ s ∈ live, ∀ a, Owns m s a → a / PAGE_SIZE < pmm.totalPages
  unique : ∀ s ∈ kernel :: live, ∀ t ∈ kernel :: live, ∀ a, Owns m s a → Owns m t a → s = t
  directory : ∀ s ∈ kernel :: live, ∀ i, UserSlot m s i → frame (entryAt m s i) ≠ s
  supervisor_inUse : ∀ i < ENTRIES, supervisor m kernel i = true →
    InUse pmm (frame (entryAt m kernel i))
  supervisor_apart : ∀ i < ENTRIES, supervisor m kernel i = true →
    ∀ s ∈ kernel :: live, ¬ Owns m s (frame (entryAt m kernel i))
  shared : ∀ s ∈ kernel :: live, ∀ i < ENTRIES, supervisor m kernel i = true →
    entryAt m s i = entryAt m kernel i
  own_user : ∀ s ∈ kernel :: live, ∀ i < ENTRIES, supervisor m kernel i = false →
    isPresent (entryAt m s i) = true → isUser (entryAt m s i) = true

namespace Owned

variable {m m' : Memory} {pmm pmm' : Pmm} {kernel : Nat} {live : List Nat}

theorem kernel_inUse (h : Owned m pmm kernel live) : InUse pmm kernel :=
  h.inUse kernel List.mem_cons_self kernel (.inl rfl)

/-- The table of a present slot is the space's or one that the kernel shares. -/
theorem table_cases (h : Owned m pmm kernel live) {s i : Nat} (hs : s ∈ kernel :: live)
    (hi : i < ENTRIES) (hpresent : isPresent (entryAt m s i) = true) :
    (supervisor m kernel i = true ∧ entryAt m s i = entryAt m kernel i) ∨
      (supervisor m kernel i = false ∧ UserSlot m s i) := by
  cases hsup : supervisor m kernel i with
  | true => exact .inl ⟨rfl, h.shared s hs i hi hsup⟩
  | false => exact .inr ⟨rfl, hi, hpresent, h.own_user s hs i hi hsup hpresent⟩

/-- The directories read as before and pages in use stay in use. -/
theorem congr (h : Owned m pmm kernel live)
    (hdir : ∀ s ∈ kernel :: live, SameDirectory m m' s AllSlots)
    (hkeeps : pmm.Keeps pmm') (htotal : pmm'.totalPages = pmm.totalPages) :
    Owned m' pmm' kernel live := by
  have hkernel := hdir kernel List.mem_cons_self
  have hsup : ∀ i < ENTRIES, supervisor m' kernel i = supervisor m kernel i :=
    fun i hi => supervisor_congr hkernel hi
  constructor
  · exact h.nodup
  · exact fun s hs a ha => (h.inUse s hs a ((hdir s hs).owns_iff.mp ha)).keeps hkeeps
  · intro s hs a ha
    rw [htotal]
    exact h.allocated s hs a ((hdir s (List.mem_cons_of_mem _ hs)).owns_iff.mp ha)
  · exact fun s hs t ht a ha ha' =>
      h.unique s hs t ht a ((hdir s hs).owns_iff.mp ha) ((hdir t ht).owns_iff.mp ha')
  · intro s hs i hslot
    rw [hdir s hs i hslot.1]
    exact h.directory s hs i ((hdir s hs).userSlot_iff.mp hslot)
  · intro i hi hi_sup
    rw [hsup i hi] at hi_sup
    rw [hkernel i hi]
    exact (h.supervisor_inUse i hi hi_sup).keeps hkeeps
  · intro i hi hi_sup s hs ha
    rw [hsup i hi] at hi_sup
    rw [hkernel i hi] at ha
    exact h.supervisor_apart i hi hi_sup s hs ((hdir s hs).owns_iff.mp ha)
  · intro s hs i hi hi_sup
    rw [hsup i hi] at hi_sup
    rw [hdir s hs i hi, hkernel i hi]
    exact h.shared s hs i hi hi_sup
  · intro s hs i hi hi_sup hpresent
    rw [hsup i hi] at hi_sup
    rw [hdir s hs i hi] at hpresent ⊢
    exact h.own_user s hs i hi hi_sup hpresent

/-- Writes to pages that are not in use change no translation. -/
theorem sameTables_of_untouched (h : Owned m pmm kernel live) (hmem : Untouched pmm m m')
    {s : Nat} (hs : s ∈ kernel :: live) : SameTables m m' s AllSlots := by
  refine ⟨hmem.sameDirectory (h.inUse s hs s (.inl rfl)), fun i hi hpresent j hj => ?_⟩
  apply hmem.entryAt_eq _ hj
  rcases h.table_cases hs hi hpresent with ⟨hsup, hentry⟩ | ⟨-, hslot⟩
  · rw [hentry]
    exact h.supervisor_inUse i hi hsup
  · exact h.inUse s hs _ (.inr ⟨i, hslot, rfl⟩)

/-- A write into a page of one space changes no translation of another. -/
theorem sameTables_of_owns (h : Owned m pmm kernel live) {s t a : Nat} (hs : s ∈ kernel :: live)
    (ht : t ∈ kernel :: live) (hne : t ≠ s) (ha : Owns m s a) (hmem : OnlyPage a m m') :
    SameTables m m' t AllSlots := by
  have hpage := (h.inUse s hs a ha).toIsPage
  apply SameTables.of_onlyPage hmem hpage (h.inUse t ht t (.inl rfl)).toIsPage _ _ fun _ hi => hi
  · rintro rfl
    exact hne (h.unique t ht s hs t (.inl rfl) ha)
  · rintro ⟨i, hi, hpresent, rfl⟩
    rcases h.table_cases ht hi hpresent with ⟨hsup, hentry⟩ | ⟨-, hslot⟩
    · rw [hentry] at ha
      exact h.supervisor_apart i hi hsup s hs ha
    · exact hne (h.unique t ht s hs _ (.inr ⟨i, hslot, rfl⟩) ha)

/-! ## One more table -/

/-- The slot without a table is no supervisor slot. -/
theorem supervisor_of_absent (h : Owned m pmm kernel live) {s i : Nat} (hs : s ∈ kernel :: live)
    (hi : i < ENTRIES) (habsent : isPresent (entryAt m s i) = false) :
    supervisor m kernel i = false := by
  rw [← Bool.not_eq_true]
  intro hsup
  rw [h.shared s hs i hi hsup] at habsent
  rw [supervisor, habsent] at hsup
  exact absurd hsup Bool.false_ne_true

/-- No space has a page that is not in use. -/
theorem not_owns (h : Owned m pmm kernel live) {a : Nat}
    (hclear : pmm.testBit (a / PAGE_SIZE) = false) {s : Nat} (hs : s ∈ kernel :: live) :
    ¬ Owns m s a :=
  fun ha => (h.inUse s hs a ha).ne_of_clear hclear rfl

/-- One slot of one of the spaces gets an entry for user mode, with the table `a` in it; all other
    slots of all spaces stay. -/
structure FillsSlot (m m' : Memory) (spaces : List Nat) (s i a : Nat) : Prop where
  frame_eq : frame (entryAt m' s i) = a
  user : isUser (entryAt m' s i) = true
  same : ∀ t ∈ spaces, ∀ j < ENTRIES, (t = s → j ≠ i) → entryAt m' t j = entryAt m t j

namespace FillsSlot

variable {s i a : Nat}

theorem entry_cases {spaces : List Nat} (hfills : FillsSlot m m' spaces s i a) {t j : Nat}
    (ht : t ∈ spaces) (hj : j < ENTRIES) : t = s ∧ j = i ∨ entryAt m' t j = entryAt m t j := by
  by_cases hchanged : t = s ∧ j = i
  · exact .inl hchanged
  · exact .inr (hfills.same t ht j hj fun hts hji => hchanged ⟨hts, hji⟩)

/-- A page of a space was one before, or it is the new table. -/
theorem owns_cases {spaces : List Nat} (hfills : FillsSlot m m' spaces s i a) {t b : Nat}
    (ht : t ∈ spaces) (hb : Owns m' t b) : Owns m t b ∨ t = s ∧ b = a := by
  rcases hb with rfl | ⟨j, hslot, rfl⟩
  · exact .inl (.inl rfl)
  · rcases hfills.entry_cases ht hslot.1 with ⟨rfl, rfl⟩ | heq
    · exact .inr ⟨rfl, hfills.frame_eq⟩
    · refine .inl (.inr ⟨j, ⟨hslot.1, ?_⟩, by rw [heq]⟩)
      rw [← heq]
      exact hslot.2

variable (hfills : FillsSlot m m' (kernel :: live) s i a) (hsup_i : supervisor m kernel i = false)
include hfills hsup_i

theorem supervisor_eq {j : Nat} (hj : j < ENTRIES) :
    supervisor m' kernel j = supervisor m kernel j := by
  rcases hfills.entry_cases List.mem_cons_self hj with ⟨rfl, rfl⟩ | heq
  · rw [hsup_i, supervisor, hfills.user, Bool.not_true, Bool.and_false]
  · rw [supervisor, supervisor, heq]

/-- Supervisor slots are not the one that is filled. -/
theorem supervisor_kept {t j : Nat} (ht : t ∈ kernel :: live) (hj : j < ENTRIES)
    (hj_sup : supervisor m kernel j = true) : entryAt m' t j = entryAt m t j := by
  apply hfills.same t ht j hj
  rintro - rfl
  rw [hsup_i] at hj_sup
  exact Bool.false_ne_true hj_sup

end FillsSlot

/-- A table in a free page is put into an empty slot of one of the spaces. -/
theorem addTable (h : Owned m pmm kernel live) {s i a f : Nat} (hs : s ∈ kernel :: live)
    (hi : i < ENTRIES) (habsent : isPresent (entryAt m s i) = false) (ha : IsPage a)
    (hclear : pmm.testBit (a / PAGE_SIZE) = false) (hlt : a / PAGE_SIZE < pmm.totalPages)
    (hinUse : InUse pmm' a) (hkeeps : pmm.Keeps pmm') (htotal : pmm'.totalPages = pmm.totalPages)
    (hf : f < PAGE_SIZE) (huser : isUser f = true) (hentry : entryAt m' s i = a + f)
    (hsame : ∀ t ∈ kernel :: live, ∀ j < ENTRIES, (t = s → j ≠ i) →
      entryAt m' t j = entryAt m t j) : Owned m' pmm' kernel live := by
  have hfills : FillsSlot m m' (kernel :: live) s i a :=
    ⟨by rw [hentry, frame_add ha hf], by rw [hentry, isUser_add ha, huser], hsame⟩
  have hsup_i := h.supervisor_of_absent hs hi habsent
  have hkernel : kernel ∈ kernel :: live := List.mem_cons_self
  constructor
  · exact h.nodup
  · intro t ht b hb
    rcases hfills.owns_cases ht hb with hold | ⟨-, rfl⟩
    · exact (h.inUse t ht b hold).keeps hkeeps
    · exact hinUse
  · intro t ht b hb
    rw [htotal]
    rcases hfills.owns_cases (List.mem_cons_of_mem _ ht) hb with hold | ⟨-, rfl⟩
    · exact h.allocated t ht b hold
    · exact hlt
  · intro t ht u hu b hb hb'
    rcases hfills.owns_cases ht hb with hold | ⟨rfl, rfl⟩
    · rcases hfills.owns_cases hu hb' with hold' | ⟨rfl, rfl⟩
      · exact h.unique t ht u hu b hold hold'
      · exact absurd hold (h.not_owns hclear ht)
    · rcases hfills.owns_cases hu hb' with hold' | ⟨rfl, -⟩
      · exact absurd hold' (h.not_owns hclear hu)
      · rfl
  · intro t ht j hslot heq
    rcases hfills.entry_cases ht hslot.1 with ⟨rfl, rfl⟩ | hentry'
    · rw [hfills.frame_eq] at heq
      exact h.not_owns hclear ht (.inl heq)
    · rw [hentry'] at heq
      refine h.directory t ht j ⟨hslot.1, ?_⟩ heq
      rw [← hentry']
      exact hslot.2
  · intro j hj hj_sup
    rw [hfills.supervisor_eq hsup_i hj] at hj_sup
    rw [hfills.supervisor_kept hsup_i hkernel hj hj_sup]
    exact (h.supervisor_inUse j hj hj_sup).keeps hkeeps
  · intro j hj hj_sup t ht hb
    rw [hfills.supervisor_eq hsup_i hj] at hj_sup
    rw [hfills.supervisor_kept hsup_i hkernel hj hj_sup] at hb
    rcases hfills.owns_cases ht hb with hold | ⟨-, heq⟩
    · exact h.supervisor_apart j hj hj_sup t ht hold
    · exact (h.supervisor_inUse j hj hj_sup).ne_of_clear hclear heq
  · intro t ht j hj hj_sup
    rw [hfills.supervisor_eq hsup_i hj] at hj_sup
    rw [hfills.supervisor_kept hsup_i ht hj hj_sup,
      hfills.supervisor_kept hsup_i hkernel hj hj_sup]
    exact h.shared t ht j hj hj_sup
  · intro t ht j hj hj_sup hpresent
    rw [hfills.supervisor_eq hsup_i hj] at hj_sup
    rcases hfills.entry_cases ht hj with ⟨rfl, rfl⟩ | hentry'
    · exact hfills.user
    · rw [hentry'] at hpresent ⊢
      exact h.own_user t ht j hj hj_sup hpresent

/-! ## One more space, one space less -/

theorem addSpace (h : Owned m pmm kernel live) {dir : Nat} (hdir : IsPage dir)
    (hclear : pmm.testBit (dir / PAGE_SIZE) = false) (hlt : dir / PAGE_SIZE < pmm.totalPages)
    (hfill : Filling m pmm kernel dir ENTRIES m' pmm') : Owned m' pmm' kernel (dir :: live) := by
  have hkeeps : pmm.Keeps pmm' := fun k hk => (hfill.used k).mpr (.inl hk)
  have hsame : ∀ s ∈ kernel :: live, SameDirectory m m' s AllSlots := fun s hs =>
    hfill.untouched.sameDirectory (h.inUse s hs s (.inl rfl))
  have h' := h.congr hsame hkeeps hfill.total
  have hkernel := hsame kernel List.mem_cons_self
  -- no page of the new space belongs to another one
  have hnew : ∀ s ∈ kernel :: live, ∀ a, Owns m' s a → ¬ Owns m' dir a := by
    intro s hs a ha ha'
    exact (h.inUse s hs a ((hsame s hs).owns_iff.mp ha)).ne_of_clear
      (hfill.owns hdir hclear hlt ha').1 rfl
  have hswap : (kernel :: dir :: live).Perm (dir :: kernel :: live) := .swap ..
  have hmem : ∀ s, s ∈ kernel :: dir :: live ↔ s = dir ∨ s ∈ kernel :: live := by
    intro s
    rw [hswap.mem_iff, List.mem_cons]
  have hsup_old : ∀ {i b}, i < ENTRIES → supervisor m' kernel i = b → supervisor m kernel i = b :=
    fun hi hsup => (supervisor_congr hkernel hi).symm.trans hsup
  constructor
  · rw [hswap.nodup_iff, List.nodup_cons]
    exact ⟨fun hold => hnew dir hold dir (.inl rfl) (.inl rfl), h.nodup⟩
  · intro s hs a ha
    rcases (hmem s).mp hs with rfl | hs
    · exact (hfill.owns hdir hclear hlt ha).2.2
    · exact h'.inUse s hs a ha
  · intro s hs a ha
    rcases List.mem_cons.mp hs with rfl | hs
    · rw [hfill.total]
      exact (hfill.owns hdir hclear hlt ha).2.1
    · exact h'.allocated s hs a ha
  · intro s hs t ht a ha ha'
    rcases (hmem s).mp hs with rfl | hs_old
    · rcases (hmem t).mp ht with rfl | ht_old
      · rfl
      · exact absurd ha (hnew t ht_old a ha')
    · rcases (hmem t).mp ht with rfl | ht_old
      · exact absurd ha' (hnew s hs_old a ha)
      · exact h'.unique s hs_old t ht_old a ha ha'
  · intro s hs i hslot
    rcases (hmem s).mp hs with rfl | hs
    · exact (hfill.user_clear hslot.1 hslot.2.2).2.1
    · exact h'.directory s hs i hslot
  · exact h'.supervisor_inUse
  · intro i hi hsup s hs
    rcases (hmem s).mp hs with rfl | hs
    · intro ha
      rw [hkernel i hi] at ha
      exact (h.supervisor_inUse i hi (hsup_old hi hsup)).ne_of_clear
        (hfill.owns hdir hclear hlt ha).1 rfl
    · exact h'.supervisor_apart i hi hsup s hs
  · intro s hs i hi hsup
    rcases (hmem s).mp hs with rfl | hs
    · rw [hkernel i hi]
      exact hfill.shared i hi (hsup_old hi hsup)
    · exact h'.shared s hs i hi hsup
  · intro s hs i hi hsup hpresent
    rcases (hmem s).mp hs with rfl | hs
    · exact hfill.own_user hi (hsup_old hi hsup) hpresent
    · exact h'.own_user s hs i hi hsup hpresent

theorem removeSpace (h : Owned m pmm kernel live) {s : Nat} (hs : s ∈ live)
    (htotal : pmm'.totalPages = pmm.totalPages)
    (hused : ∀ a, InUse pmm a → ¬ Owns m s a → InUse pmm' a) :
    Owned m pmm' kernel (live.erase s) := by
  have hs' := List.mem_cons_of_mem kernel hs
  have hkernel_ne : kernel ≠ s := by
    rintro rfl
    exact (List.nodup_cons.mp h.nodup).1 hs
  have hmem : ∀ t ∈ kernel :: live.erase s, t ∈ kernel :: live ∧ t ≠ s := by
    intro t ht
    rcases List.mem_cons.mp ht with rfl | ht
    · exact ⟨List.mem_cons_self, hkernel_ne⟩
    · obtain ⟨hne, hlive⟩ := ((List.nodup_cons.mp h.nodup).2.mem_erase_iff).mp ht
      exact ⟨List.mem_cons_of_mem _ hlive, hne⟩
  constructor
  · obtain ⟨hkernel, hlive⟩ := List.nodup_cons.mp h.nodup
    exact List.nodup_cons.mpr ⟨fun hk => hkernel (List.mem_of_mem_erase hk), hlive.erase s⟩
  · intro t ht a ha
    obtain ⟨ht, hne⟩ := hmem t ht
    exact hused a (h.inUse t ht a ha) fun ha' => hne (h.unique t ht s hs' a ha ha')
  · intro t ht a ha
    rw [htotal]
    exact h.allocated t (List.mem_of_mem_erase ht) a ha
  · exact fun t ht u hu => h.unique t (hmem t ht).1 u (hmem u hu).1
  · exact fun t ht => h.directory t (hmem t ht).1
  · intro i hi hsup
    exact hused _ (h.supervisor_inUse i hi hsup) (h.supervisor_apart i hi hsup s hs')
  · exact fun i hi hsup t ht => h.supervisor_apart i hi hsup t (hmem t ht).1
  · exact fun t ht => h.shared t (hmem t ht).1
  · exact fun t ht => h.own_user t (hmem t ht).1

/-! ## The functions -/

/-- The translations of all spaces but one stay. -/
def OthersSame (m m' : Memory) (spaces : List Nat) (s : Nat) : Prop :=
  ∀ t ∈ spaces, t ≠ s → SameTables m m' t AllSlots

/-- A write into a user table. -/
theorem writeTable (h : Owned m pmm kernel live) {s i : Nat} (hs : s ∈ kernel :: live)
    (hslot : UserSlot m s i) (hmem : OnlyPage (frame (entryAt m s i)) m m') :
    Owned m' pmm kernel live ∧ OthersSame m m' (kernel :: live) s := by
  have hothers : OthersSame m m' (kernel :: live) s := fun t ht hne =>
    h.sameTables_of_owns hs ht hne (.inr ⟨i, hslot, rfl⟩) hmem
  refine ⟨h.congr ?_ (fun _ hk => hk) rfl, hothers⟩
  intro t ht
  by_cases heq : t = s
  · subst heq
    exact fun j hj => entryAt_onlyPage hmem (frame_entryAt_isPage _ _ _)
      (h.inUse t hs t (.inl rfl)).toIsPage (h.directory t hs i hslot).symm hj
  · exact (hothers t ht heq).directory

theorem vmmUnmap {x : Machine} (h : Owned x.mem x.pmm kernel live) {s virt : Nat}
    (hs : s ∈ kernel :: live) (hvirt : virt < 2 ^ 32)
    (hsup : supervisor x.mem kernel (pdIdx virt) = false) :
    Owned (x.vmmUnmap s virt).mem (x.vmmUnmap s virt).pmm kernel live ∧
      OthersSame x.mem (x.vmmUnmap s virt).mem (kernel :: live) s := by
  rw [Machine.vmmUnmap]
  split
  · rename_i hpresent
    have hslot : UserSlot x.mem s (pdIdx virt) :=
      ⟨pdIdx_lt hvirt, hpresent, h.own_user s hs _ (pdIdx_lt hvirt) hsup hpresent⟩
    exact h.writeTable hs hslot (onlyPage_setEntry (frame_entryAt_isPage _ _ _) (ptIdx_lt virt))
  · exact ⟨h, fun _ _ _ => .refl⟩

/-- `vmm_map` in a slot that has a table. -/
theorem setPage (h : Owned m pmm kernel live) {s virt : Nat} (hs : s ∈ kernel :: live)
    (hvirt : virt < 2 ^ 32) (hsup : supervisor m kernel (pdIdx virt) = false)
    (hpresent : isPresent (entryAt m s (pdIdx virt)) = true) (phys flags : Nat) :
    Owned (setPage m s virt phys flags) pmm kernel live ∧
      OthersSame m (Machine.setPage m s virt phys flags) (kernel :: live) s := by
  have hslot : UserSlot m s (pdIdx virt) :=
    ⟨pdIdx_lt hvirt, hpresent, h.own_user s hs _ (pdIdx_lt hvirt) hsup hpresent⟩
  exact h.writeTable hs hslot (onlyPage_setEntry (frame_entryAt_isPage _ _ _) (ptIdx_lt virt))

/-- The empty table that `vmm_map` puts into a slot. -/
theorem emptyTable (h : Owned m pmm kernel live) {s i a : Nat} (hs : s ∈ kernel :: live)
    (hi : i < ENTRIES) (habsent : isPresent (entryAt m s i) = false)
    (halloc : pmm.pmmAllocPage = (a, pmm')) (hne : a ≠ 0)
    (hm' : m' = setEntry (fill m a 0 PAGE_SIZE) s i (a + (VMM_PRESENT + VMM_WRITABLE + VMM_USER))) :
    Owned m' pmm' kernel live ∧ OthersSame m m' (kernel :: live) s ∧
      isPresent (entryAt m' s i) = true ∧ supervisor m' kernel i = false := by
  obtain ⟨hkeeps, htotal, hpage⟩ := pmmAllocPage_used halloc
  obtain ⟨ha, hclear, hlt, hused⟩ := hpage hne
  have hdir := (h.inUse s hs s (.inl rfl)).toIsPage
  have hbound : a + (VMM_PRESENT + VMM_WRITABLE + VMM_USER) < 2 ^ 32 := ha.add_lt (by decide)
  have hfill : OnlyPage a m (fill m a 0 PAGE_SIZE) := onlyPage_fill ha 0
  have hset : OnlyPage s (fill m a 0 PAGE_SIZE) m' := by
    rw [hm']
    exact onlyPage_setEntry hdir hi
  have hentry : entryAt m' s i = a + (VMM_PRESENT + VMM_WRITABLE + VMM_USER) := by
    rw [hm', entryAt_setEntry hdir hi hi hbound, if_pos rfl]
  -- the page was free, so that filling it touches no space
  have hfilled : ∀ t ∈ kernel :: live, SameTables m (fill m a 0 PAGE_SIZE) t AllSlots :=
    fun t ht => h.sameTables_of_untouched (hfill.untouched ha hclear) ht
  have hfilled_owned : Owned (fill m a 0 PAGE_SIZE) pmm kernel live :=
    h.congr (fun t ht => (hfilled t ht).directory) (fun _ hk => hk) rfl
  have hothers : OthersSame m m' (kernel :: live) s := fun t ht hts =>
    (hfilled t ht).trans (hfilled_owned.sameTables_of_owns hs ht hts (.inl rfl) hset)
  have howned : Owned m' pmm' kernel live := by
    apply h.addTable hs hi habsent ha hclear hlt ⟨ha, (hused _).mpr (.inr rfl)⟩ hkeeps htotal
      (by decide) (by decide) hentry
    intro t ht j hj hji
    by_cases hts : t = s
    · subst hts
      rw [hm', entryAt_setEntry hdir hi hj hbound, if_neg (hji rfl), (hfilled t ht).directory j hj]
    · exact (hothers t ht hts).directory j hj
  have hpresent : isPresent (entryAt m' s i) = true := by
    rw [hentry, isPresent_add ha]
    decide
  refine ⟨howned, hothers, hpresent, ?_⟩
  rw [← Bool.not_eq_true]
  intro hsup
  have hshared := howned.shared s hs i hi hsup
  have huser : isUser (entryAt m' s i) = true := by
    rw [hentry, isUser_add ha]
    decide
  rw [supervisor, ← hshared, huser, Bool.not_true, Bool.and_false] at hsup
  exact Bool.false_ne_true hsup

theorem vmmMap {x : Machine} (h : Owned x.mem x.pmm kernel live) {s virt : Nat}
    (hs : s ∈ kernel :: live) (hvirt : virt < 2 ^ 32)
    (hsup : supervisor x.mem kernel (pdIdx virt) = false) (phys flags : Nat) :
    Owned (x.vmmMap s virt phys flags).2.mem (x.vmmMap s virt phys flags).2.pmm kernel live ∧
      OthersSame x.mem (x.vmmMap s virt phys flags).2.mem (kernel :: live) s := by
  rcases x.vmmMap_inversion s virt phys flags with
    ⟨hpresent, hcall⟩ | ⟨-, pmm, halloc, hcall⟩ | ⟨hpresent, table, pmm, mem, halloc, hne, hmem, hcall⟩
  · rw [hcall]
    exact h.setPage hs hvirt hsup hpresent phys flags
  · rw [hcall]
    obtain ⟨hkeeps, htotal, -⟩ := pmmAllocPage_used halloc
    exact ⟨h.congr (fun _ _ _ _ => rfl) hkeeps htotal, fun _ _ _ => .refl⟩
  · rw [hcall]
    obtain ⟨hnew, hothers, hnew_present, hnew_sup⟩ :=
      h.emptyTable hs (pdIdx_lt hvirt) hpresent halloc hne hmem
    obtain ⟨hmapped, hothers'⟩ := hnew.setPage hs hvirt hnew_sup hnew_present phys flags
    exact ⟨hmapped, fun t ht hts => (hothers t ht hts).trans (hothers' t ht hts)⟩

/-- The pages in use after `vmm_destroy_space`. -/
theorem testBit_vmmDestroySpace {x : Machine} (h : Owned x.mem x.pmm kernel live) {s : Nat}
    (hs : s ∈ live) (hne : s ≠ 0) (k : Nat) :
    (x.vmmDestroySpace s).pmm.testBit k = true ↔
      x.pmm.testBit k = true ∧ ¬ Owns x.mem s (k * PAGE_SIZE) := by
  have hpage := (h.inUse s (List.mem_cons_of_mem _ hs) s (.inl rfl)).toIsPage
  exact NemoOS.testBit_vmmDestroySpace hne hpage (h.allocated s hs) k

theorem vmmDestroySpace {x : Machine} (h : Owned x.mem x.pmm kernel live) {s : Nat}
    (hs : s ∈ live) (hne : s ≠ 0) :
    Owned (x.vmmDestroySpace s).mem (x.vmmDestroySpace s).pmm kernel (live.erase s) ∧
      (x.vmmDestroySpace s).mem = x.mem := by
  have hbits := h.testBit_vmmDestroySpace hs hne
  rw [Machine.vmmDestroySpace, if_neg hne] at hbits ⊢
  refine ⟨h.removeSpace hs ?_ fun a ha hnot => ?_, rfl⟩
  · rw [Pmm.totalPages_pmmFreePage, freeUserTables_eq, Pmm.totalPages_foldl_pmmFreePage]
  · refine ⟨ha.toIsPage, (hbits _).mpr ⟨ha.used, ?_⟩⟩
    rwa [(ha.toIsPage.eq_mul_iff).mpr rfl]

end Owned

/-! ## Runs -/

/-- The machine and the spaces that have been created and not destroyed. -/
structure Spaces where
  machine : Machine
  live : List Nat

inductive SpaceOp where
  | create
  | map (space virt phys flags : Nat)
  | unmap (space virt : Nat)
  | destroy (space : Nat)
deriving DecidableEq, Repr

/-- The space that an operation works on, if there is one before. -/
def SpaceOp.target : SpaceOp → Option Nat
  | .create => none
  | .map space _ _ _ => some space
  | .unmap space _ => some space
  | .destroy space => some space

namespace Spaces

/-- The kernel's space and the others. -/
def all (x : Spaces) : List Nat := x.machine.kernelSpace :: x.live

def create (x : Spaces) : Spaces :=
  let (space, m) := x.machine.vmmCreateSpace
  ⟨m, if space = 0 then x.live else space :: x.live⟩

/-- Pages are mapped and unmapped in slots that are no present supervisor slots of the
    kernel's directory. -/
inductive Step (x : Spaces) : SpaceOp → Spaces → Prop where
  | create : Step x .create x.create
  | map (space virt phys flags : Nat) (hspace : space ∈ x.all) (hvirt : virt < 2 ^ 32)
      (hslot : supervisor x.machine.mem x.machine.kernelSpace (pdIdx virt) = false) :
      Step x (.map space virt phys flags)
        { x with machine := (x.machine.vmmMap space virt phys flags).2 }
  | unmap (space virt : Nat) (hspace : space ∈ x.all) (hvirt : virt < 2 ^ 32)
      (hslot : supervisor x.machine.mem x.machine.kernelSpace (pdIdx virt) = false) :
      Step x (.unmap space virt) { x with machine := x.machine.vmmUnmap space virt }
  | destroy (space : Nat) (hspace : space ∈ x.live) :
      Step x (.destroy space) ⟨x.machine.vmmDestroySpace space, x.live.erase space⟩

/-- Only the kernel's space is there, as `paging_init` leaves it: its directory and its
    tables are pages in use, and a user table is in one slot only. -/
structure Initial (x : Spaces) : Prop where
  live_eq : x.live = []
  directory : InUse x.machine.pmm x.machine.kernelSpace
  tables : ∀ i < ENTRIES, isPresent (entryAt x.machine.mem x.machine.kernelSpace i) = true →
    InUse x.machine.pmm (frame (entryAt x.machine.mem x.machine.kernelSpace i)) ∧
      frame (entryAt x.machine.mem x.machine.kernelSpace i) ≠ x.machine.kernelSpace
  user_tables : ∀ i, UserSlot x.machine.mem x.machine.kernelSpace i →
    ∀ j < ENTRIES, isPresent (entryAt x.machine.mem x.machine.kernelSpace j) = true → j ≠ i →
      frame (entryAt x.machine.mem x.machine.kernelSpace j) ≠
        frame (entryAt x.machine.mem x.machine.kernelSpace i)

structure Inv (x : Spaces) : Prop where
  owned : Owned x.machine.mem x.machine.pmm x.machine.kernelSpace x.live
  nonzero : 0 ∉ x.live

variable {x y : Spaces}

theorem Inv.initial (h : x.Initial) : x.Inv := by
  have hmem : ∀ {s : Nat}, s ∈ x.machine.kernelSpace :: x.live ↔ s = x.machine.kernelSpace := by
    rw [h.live_eq]
    exact List.mem_singleton
  refine ⟨⟨?_, ?_, ?_, ?_, ?_, ?_, ?_, ?_, ?_⟩, ?_⟩
  · rw [h.live_eq]
    exact List.nodup_cons.mpr ⟨List.not_mem_nil, List.nodup_nil⟩
  · rintro s hs a (rfl | ⟨i, ⟨hi, hpresent, -⟩, rfl⟩)
    · rw [hmem.mp hs]
      exact h.directory
    · rw [hmem.mp hs] at hpresent ⊢
      exact (h.tables i hi hpresent).1
  · intro s hs
    rw [h.live_eq] at hs
    exact absurd hs List.not_mem_nil
  · intro s hs t ht a _ _
    rw [hmem.mp hs, hmem.mp ht]
  · rintro s hs i ⟨hi, hpresent, -⟩
    rw [hmem.mp hs] at hpresent ⊢
    exact (h.tables i hi hpresent).2
  · intro i hi hsup
    exact (h.tables i hi (supervisor_iff.mp hsup).1).1
  · rintro i hi hsup s hs howns
    obtain ⟨hpresent, huser⟩ := supervisor_iff.mp hsup
    rw [hmem.mp hs] at howns
    rcases howns with heq | ⟨j, hslot, heq⟩
    · exact (h.tables i hi hpresent).2 heq
    · apply h.user_tables j hslot i hi hpresent _ heq.symm
      rintro rfl
      rw [hslot.2.2] at huser
      exact Bool.false_ne_true huser.symm
  · intro s hs i _ _
    rw [hmem.mp hs]
  · intro s hs i hi hsup hpresent
    rw [hmem.mp hs] at hpresent ⊢
    by_contra huser
    rw [supervisor_iff.mpr ⟨hpresent, Bool.eq_false_iff.mpr huser⟩] at hsup
    exact Bool.false_ne_true hsup.symm
  · rw [h.live_eq]
    exact List.not_mem_nil

theorem create_of_eq {space : Nat} {m : Machine} (h : x.machine.vmmCreateSpace = (space, m)) :
    x.create = ⟨m, if space = 0 then x.live else space :: x.live⟩ := by
  rw [Spaces.create, h]

theorem Step.of_create {space : Nat} {m : Machine} (h : x.machine.vmmCreateSpace = (space, m))
    (hne : space ≠ 0) : Step x .create ⟨m, space :: x.live⟩ := by
  have hstep : Step x .create x.create := .create
  rwa [create_of_eq h, if_neg hne] at hstep

theorem Inv.create (h : x.Inv) :
    x.create.Inv ∧ ∀ t ∈ x.all, SameTables x.machine.mem x.create.machine.mem t AllSlots := by
  rcases hcreate : x.machine.vmmCreateSpace with ⟨space, m⟩
  obtain ⟨hkernel, hfailed, hmade⟩ := vmmCreateSpace_cases h.owned.kernel_inUse hcreate
  rw [create_of_eq hcreate]
  by_cases hzero : space = 0
  · obtain ⟨huntouched, htotal, hkeeps, -⟩ := hfailed hzero
    have hsame : ∀ t ∈ x.all, SameTables x.machine.mem m.mem t AllSlots := fun t ht =>
      h.owned.sameTables_of_untouched huntouched ht
    refine ⟨⟨?_, ?_⟩, hsame⟩
    · dsimp only
      rw [if_pos hzero, hkernel]
      exact h.owned.congr (fun t ht => (hsame t ht).directory) hkeeps htotal
    · rw [if_pos hzero]
      exact h.nonzero
  · obtain ⟨hdir, hclear, hlt, hfill⟩ := hmade hzero
    refine ⟨⟨?_, ?_⟩, fun t ht => h.owned.sameTables_of_untouched hfill.untouched ht⟩
    · dsimp only
      rw [if_neg hzero, hkernel]
      exact h.owned.addSpace hdir hclear hlt hfill
    · rw [if_neg hzero, List.mem_cons]
      rintro (h0 | h0)
      · exact hzero h0.symm
      · exact h.nonzero h0

/-- One operation keeps the invariant and the translations of the other spaces. -/
theorem Inv.step (h : x.Inv) {op : SpaceOp} (hstep : x.Step op y) :
    y.Inv ∧ ∀ t ∈ x.all, op.target ≠ some t →
      SameTables x.machine.mem y.machine.mem t AllSlots := by
  cases hstep with
  | create => exact ⟨h.create.1, fun t ht _ => h.create.2 t ht⟩
  | map space virt phys flags hspace hvirt hslot =>
      obtain ⟨howned, hothers⟩ := h.owned.vmmMap hspace hvirt hslot phys flags
      refine ⟨⟨?_, h.nonzero⟩, fun t ht hne => hothers t ht fun heq => hne (by rw [heq]; rfl)⟩
      dsimp only
      rw [vmmMap_kernelSpace]
      exact howned
  | unmap space virt hspace hvirt hslot =>
      obtain ⟨howned, hothers⟩ := h.owned.vmmUnmap hspace hvirt hslot
      refine ⟨⟨?_, h.nonzero⟩, fun t ht hne => hothers t ht fun heq => hne (by rw [heq]; rfl)⟩
      dsimp only
      rw [vmmUnmap_kernelSpace]
      exact howned
  | destroy space hspace =>
      have hne : space ≠ 0 := fun hzero => h.nonzero (by rw [← hzero]; exact hspace)
      obtain ⟨howned, hmem⟩ := h.owned.vmmDestroySpace hspace hne
      refine ⟨⟨?_, fun h0 => h.nonzero (List.mem_of_mem_erase h0)⟩, fun t _ _ => ?_⟩
      · have hkernel : (x.machine.vmmDestroySpace space).kernelSpace = x.machine.kernelSpace := by
          rw [Machine.vmmDestroySpace, if_neg hne]
        dsimp only
        rw [hkernel]
        exact howned
      · dsimp only
        rw [hmem]
        exact .refl

/-- **Ownership and isolation of address spaces.** In every state that is reached by
    creating, mapping, unmapping and destroying, each directory and each user table is in
    use and belongs to one space only. The next operation leaves every translation of the
    kernel's space and of the other spaces as it is, and `vmm_destroy_space` gives back
    exactly the pages of its space. -/
theorem spaces_owned_isolated {ops : List SpaceOp} (hinit : x.Initial) (hrun : Run Step x ops y) :
    (∀ s ∈ y.all, ∀ a, Owns y.machine.mem s a →
      InUse y.machine.pmm a ∧ ∀ t ∈ y.all, Owns y.machine.mem t a → t = s) ∧
    ∀ op z, y.Step op z →
      (∀ t ∈ y.all, op.target ≠ some t → ∀ virt < 2 ^ 32,
        translate z.machine.mem t virt = translate y.machine.mem t virt) ∧
      ∀ s, op = .destroy s → ∀ page,
        z.machine.pmm.testBit page = true ↔
          y.machine.pmm.testBit page = true ∧ ¬ Owns y.machine.mem s (page * PAGE_SIZE) := by
  have hinv : y.Inv := by
    apply hrun.invariant Inv (Inv.initial hinit)
    intro a op b ha hstep
    exact (ha.step hstep).1
  refine ⟨fun s hs a ha => ⟨hinv.owned.inUse s hs a ha, fun t ht hta =>
    hinv.owned.unique t ht s hs a hta ha⟩, fun op z hstep => ⟨fun t ht hne virt hvirt => ?_, ?_⟩⟩
  · exact ((hinv.step hstep).2 t ht hne).translate_eq (pdIdx_lt hvirt)
  · rintro s rfl page
    cases hstep with
    | destroy _ hspace =>
        apply hinv.owned.testBit_vmmDestroySpace hspace
        exact fun hzero => hinv.nonzero (by rw [← hzero]; exact hspace)

theorem Initial.of_kernelSpace {m : Machine} (h : KernelSpace m)
    (hnone : ∀ j < ENTRIES, isUser (entryAt m.mem m.kernelSpace j) = false) :
    Initial ⟨m, []⟩ := by
  refine ⟨rfl, h.directory_inUse, fun i hi hpresent => h.tables_inUse _ ⟨i, hi, hpresent, rfl⟩, ?_⟩
  rintro i ⟨hi, -, huser⟩
  rw [hnone i hi] at huser
  exact absurd huser Bool.false_ne_true

/-- Two spaces in the small machine. -/
theorem smallMachine_spaces :
    ∃ m, Run Step ⟨smallMachine, []⟩ [.create, .create] ⟨m, [0x4000, 0x3000]⟩ ∧
      m.pmm.pmmAllocPage.1 = 0x5000 ∧
      supervisor m.mem m.kernelSpace (pdIdx 0x40000000) = false := by
  have hslot : pdIdx 0x40000000 < ENTRIES := by decide
  obtain ⟨mem₁, hcreate₁⟩ := smallMachine_create
  obtain ⟨-, hsame₁, hkernel, hkeeps⟩ :=
    smallMachine_kernelSpace.vmmCreateSpace hcreate₁ (by decide)
  have hspace := smallMachine_kernelSpace.congr hkernel hsame₁ hkeeps
  have halloc : smallMachine.pmm.pmmAllocPage.2.pmmAllocPage =
      (0x4000, smallMachine.pmm.pmmAllocPage.2.pmmAllocPage.2) := Prod.ext (by decide) rfl
  obtain ⟨mem₂, hcreate₂⟩ := hspace.vmmCreateSpace_of_supervisor
    (fun j hj => (congrArg isUser (hsame₁.directory j hj)).trans (smallMachine_supervisor hj))
    halloc (by decide)
  obtain ⟨-, hsame₂, -, -⟩ := hspace.vmmCreateSpace hcreate₂ (by decide)
  have hnext : smallMachine.pmm.pmmAllocPage.2.pmmAllocPage.2.pmmAllocPage.1 = 0x5000 := by decide
  refine ⟨_, .snoc (.snoc .nil (.of_create hcreate₁ (by decide))) (.of_create hcreate₂ (by decide)),
    hnext, ?_⟩
  exact (supervisor_congr hsame₂.directory hslot).trans (smallMachine_slot hcreate₁ hslot)

/-- A page is mapped in the first of two spaces, and the space is destroyed. -/
theorem spaces_owned_isolated_small :
    ∃ y z, Run Step ⟨smallMachine, []⟩ [.create, .create] y ∧
      (y.machine.vmmMap 0x3000 0x40000000 0x8000 7).1 = true ∧
      y.Step (.map 0x3000 0x40000000 0x8000 7) z ∧
      (∀ virt < 2 ^ 32,
        translate z.machine.mem 0x4000 virt = translate y.machine.mem 0x4000 virt) ∧
      (z.machine.vmmDestroySpace 0x3000).pmm.testBit 3 = false ∧
      (z.machine.vmmDestroySpace 0x3000).pmm.testBit 4 = true := by
  obtain ⟨m, hrun, halloc, hsup⟩ := smallMachine_spaces
  have hinit : Initial ⟨smallMachine, []⟩ :=
    .of_kernelSpace smallMachine_kernelSpace fun _ hj => smallMachine_supervisor hj
  generalize smallMachine = m₀ at hrun hinit
  have hlive : (0x3000 : Nat) ∈ [0x4000, 0x3000] := by decide
  have hfirst (k : Machine) : 0x3000 ∈ all ⟨k, [0x4000, 0x3000]⟩ := List.mem_cons_of_mem _ hlive
  have hsecond (k : Machine) : 0x4000 ∈ all ⟨k, [0x4000, 0x3000]⟩ :=
    List.mem_cons_of_mem _ List.mem_cons_self
  have hmap : Step ⟨m, [0x4000, 0x3000]⟩ _ _ :=
    .map 0x3000 0x40000000 0x8000 7 (hfirst m) (by decide) hsup
  have hok : (m.vmmMap 0x3000 0x40000000 0x8000 7).1 = true := by
    rcases m.vmmMap_inversion 0x3000 0x40000000 0x8000 7 with
      ⟨-, hcall⟩ | ⟨-, pmm, hnone, -⟩ | ⟨-, table, pmm, mem, -, -, -, hcall⟩
    · rw [hcall]
    · rw [hnone] at halloc
      exact absurd halloc (by simp)
    · rw [hcall]
  obtain ⟨howned, hnext⟩ := spaces_owned_isolated hinit (hrun.snoc hmap)
  have hdestroy := (hnext _ _ (.destroy 0x3000 hlive)).2 0x3000 rfl
  refine ⟨_, _, hrun, hok, hmap, ?_, ?_, ?_⟩
  · exact ((spaces_owned_isolated hinit hrun).2 _ _ hmap).1 0x4000 (hsecond _) (by decide)
  · exact Bool.eq_false_iff.mpr fun hbit => ((hdestroy 3).mp hbit).2 (.inl rfl)
  · obtain ⟨hinUse, hunique⟩ := howned 0x4000 (hsecond _) 0x4000 (.inl rfl)
    exact (hdestroy 4).mpr ⟨hinUse.used, fun ha => absurd (hunique 0x3000 (hfirst _) ha) (by decide)⟩

end Spaces

end NemoOS
