import NemoOS.AddressSpaces

/-!
# What `vmm_map` does to a space

The effect of mapping one page with the user bit on a space that `vmm_create_space`
returned. `SpaceInv` is kept in every case. What else happens depends on the slot of
the page:

* in a slot of the space's own, the kernel's tables stay as they are and the page is
  added to those that user mode can use;
* in a slot with a shared supervisor table, an entry of the kernel's table is replaced
  and nothing is added for user mode, since the directory entry lacks the user bit.
-/

namespace NemoOS

open Words Bytes Machine

/-! ## The two entries of an address -/

/-- What the two entries say about an address. -/
def walk (pde pte virt : Nat) : Option Translation :=
  if isPresent pde && isPresent pte then
    some ⟨frame pte + virt % PAGE_SIZE, flagBits pde, flagBits pte⟩
  else none

theorem translate_eq_walk (m : Memory) (space virt : Nat) :
    translate m space virt = walk (entryAt m space (pdIdx virt))
      (entryAt m (frame (entryAt m space (pdIdx virt))) (ptIdx virt)) virt := rfl

theorem walk_absent {pde : Nat} (h : isPresent pde = false) (pte virt : Nat) :
    walk pde pte virt = none := by
  rw [walk, h]
  rfl

theorem walk_empty (pde virt : Nat) : walk pde 0 virt = none := by
  rw [walk, show isPresent 0 = false from rfl, Bool.and_false]
  rfl

/-! ## One entry of a table -/

section setPage

variable {m : Memory} {space virt phys flags : Nat}

theorem entryAt_setPage (hphys : IsPage phys) (hflags : flags < PAGE_SIZE) {t j : Nat}
    (ht : IsPage t) (hj : j < ENTRIES) :
    entryAt (setPage m space virt phys flags) t j =
      if t = frame (entryAt m space (pdIdx virt)) ∧ j = ptIdx virt then phys + flags
      else entryAt m t j := by
  have htable : IsPage (frame (entryAt m space (pdIdx virt))) := frame_entryAt_isPage m _ _
  have hentry : frame phys + flagBits flags = phys + flags := by
    have hframe : frame (phys + 0) = phys := frame_add hphys (by decide)
    rw [Nat.add_zero] at hframe
    rw [hframe, flagBits, Nat.mod_eq_of_lt hflags]
  have hlt := hphys.add_lt hflags
  rw [setPage, hentry]
  by_cases heq : t = frame (entryAt m space (pdIdx virt))
  · subst heq
    rw [entryAt_setEntry htable (ptIdx_lt virt) hj hlt]
    simp only [true_and]
  · rw [if_neg (fun hboth => heq hboth.1)]
    exact entryAt_onlyPage (onlyPage_setEntry htable (ptIdx_lt virt)) htable ht heq hj

theorem HasUserFrame.of_setPage (hphys : IsPage phys) (hflags : flags < PAGE_SIZE)
    {dir f : Nat} {slots : Nat → Prop}
    (hdir : SameDirectory m (setPage m space virt phys flags) dir slots)
    (hf : HasUserFrame (setPage m space virt phys flags) dir slots f) :
    HasUserFrame m dir slots f ∨ f = phys := by
  obtain ⟨i, hi, hpresent, huser, j, hj, hentry⟩ := hf
  rw [hdir i hi] at hpresent huser hentry
  rw [entryAt_setPage hphys hflags (frame_entryAt_isPage m dir i) hj] at hentry
  split at hentry
  · exact Or.inr (hentry.2.2.symm.trans (frame_add hphys hflags))
  · exact Or.inl ⟨i, hi, hpresent, huser, j, hj, hentry⟩

end setPage

theorem page_eq_iff {v virt : Nat} :
    v / PAGE_SIZE = virt / PAGE_SIZE ↔ pdIdx v = pdIdx virt ∧ ptIdx v = ptIdx virt := by
  rw [pdIdx, pdIdx, ptIdx, ptIdx, PAGE_SIZE]
  omega

namespace SpaceInv

variable {m : Memory} {pmm pmm' : Pmm} {kernel space virt phys flags : Nat}

/-- A table shared with the kernel is in no slot of the space's own. -/
theorem supervisor_of_frame (h : SpaceInv m pmm kernel space AllSlots) {i j : Nat}
    (hi : i < ENTRIES) (hj : j < ENTRIES) (hsup : supervisor m kernel i = true)
    (hpresent : isPresent (entryAt m space j) = true)
    (hframe : frame (entryAt m space j) = frame (entryAt m space i)) :
    supervisor m kernel j = true := by
  by_contra hown
  rw [Bool.not_eq_true] at hown
  apply h.own_table j hj hown hpresent
  rw [hframe, h.shared i hi hsup]
  exact ⟨i, hi, (supervisor_iff.mp hsup).1, rfl⟩

/-- Nothing in a slot with a supervisor table is for user mode. -/
theorem not_userMapped (h : SpaceInv m pmm kernel space AllSlots) {v : Nat} (hv : v < 2 ^ 32)
    (hsup : supervisor m kernel (pdIdx v) = true) : userMapped m space v = false := by
  rw [userMapped_eq, h.shared _ (pdIdx_lt hv) hsup, (supervisor_iff.mp hsup).2, Bool.and_false,
    Bool.false_and]

/-! ## A page in a slot that has a table -/

section present

variable (h : SpaceInv m pmm kernel space AllSlots) (hvirt : virt < 2 ^ 32)
  (hpresent : isPresent (entryAt m space (pdIdx virt)) = true)

include h hvirt hpresent

omit h in
theorem hasTable_slot : HasTable m space AllSlots (frame (entryAt m space (pdIdx virt))) :=
  ⟨pdIdx virt, pdIdx_lt hvirt, hpresent, rfl⟩

theorem sameDirectory_setPage (phys flags : Nat) :
    SameDirectory m (setPage m space virt phys flags) kernel AllSlots ∧
      SameDirectory m (setPage m space virt phys flags) space AllSlots := by
  have htable : IsPage (frame (entryAt m space (pdIdx virt))) := frame_entryAt_isPage m _ _
  have honly : OnlyPage (frame (entryAt m space (pdIdx virt))) m
      (setPage m space virt phys flags) := onlyPage_setEntry htable (ptIdx_lt virt)
  obtain ⟨hkernel, hspace⟩ := h.space_tables _ (hasTable_slot hvirt hpresent)
  constructor
  · exact fun i hi => entryAt_onlyPage honly htable h.isPage_kernel hkernel.symm hi
  · exact fun i hi => entryAt_onlyPage honly htable h.isPage_space hspace.symm hi

theorem setPage (hphys : InUse pmm phys) (hfree : ¬ Structural m kernel space AllSlots phys)
    (hflags : flags < PAGE_SIZE) :
    SpaceInv (setPage m space virt phys flags) pmm kernel space AllSlots := by
  obtain ⟨hk, hs⟩ := h.sameDirectory_setPage hvirt hpresent phys flags
  apply h.of_directories hk hs fun _ hpage => hpage
  intro f hf
  have hcases : (HasUserFrame m kernel AllSlots f ∨ HasUserFrame m space AllSlots f) ∨ f = phys := by
    rcases hf with hf | hf
    · exact (HasUserFrame.of_setPage hphys.toIsPage hflags hk hf).imp_left Or.inl
    · exact (HasUserFrame.of_setPage hphys.toIsPage hflags hs hf).imp_left Or.inr
  rcases hcases with hold | rfl
  · exact h.user_frames f hold
  · exact ⟨hphys, hfree⟩

/-- In a slot of the space's own the kernel's tables are not touched. -/
theorem sameTables_setPage (hsup : supervisor m kernel (pdIdx virt) = false) :
    SameTables m (Machine.setPage m space virt phys flags) kernel AllSlots := by
  have htable : IsPage (frame (entryAt m space (pdIdx virt))) := frame_entryAt_isPage m _ _
  obtain ⟨hkernel, -⟩ := h.space_tables _ (hasTable_slot hvirt hpresent)
  apply SameTables.of_onlyPage (onlyPage_setEntry htable (ptIdx_lt virt)) htable h.isPage_kernel
    hkernel.symm _ fun _ hi => hi
  exact h.own_table _ (pdIdx_lt hvirt) hsup hpresent

/-- One entry is replaced. A supervisor table may stand in several slots. -/
theorem translate_setPage (hphys : IsPage phys) (hflags : flags < PAGE_SIZE)
    (hflags_present : isPresent flags = true) {v : Nat} (hv : v < 2 ^ 32) :
    v / PAGE_SIZE ≠ virt / PAGE_SIZE ∧
        translate (Machine.setPage m space virt phys flags) space v = translate m space v ∨
      (v / PAGE_SIZE = virt / PAGE_SIZE ∨
          supervisor m kernel (pdIdx virt) = true ∧ supervisor m kernel (pdIdx v) = true) ∧
        translate (Machine.setPage m space virt phys flags) space v =
          some ⟨phys + v % PAGE_SIZE, flagBits (entryAt m space (pdIdx v)),
            flagBits (phys + flags)⟩ := by
  obtain ⟨-, hs⟩ := h.sameDirectory_setPage hvirt hpresent phys flags
  rw [translate_eq_walk, translate_eq_walk, hs _ (pdIdx_lt hv),
    entryAt_setPage hphys hflags (frame_entryAt_isPage m space (pdIdx v)) (ptIdx_lt v)]
  cases hv_present : isPresent (entryAt m space (pdIdx v)) with
  | false =>
      rw [walk_absent hv_present, walk_absent hv_present]
      refine .inl ⟨fun hpage => ?_, rfl⟩
      rw [(page_eq_iff.mp hpage).1, hpresent] at hv_present
      exact Bool.false_ne_true hv_present.symm
  | true =>
      split
      · rename_i hcond
        right
        refine ⟨?_, ?_⟩
        · by_cases hslot : pdIdx v = pdIdx virt
          · exact .inl (page_eq_iff.mpr ⟨hslot, hcond.2⟩)
          · cases hsup : supervisor m kernel (pdIdx virt) with
            | true =>
                exact .inr ⟨rfl, h.supervisor_of_frame (pdIdx_lt hvirt) (pdIdx_lt hv) hsup
                  hv_present hcond.1⟩
            | false =>
                exact absurd hcond.1 (h.own_distinct _ (pdIdx_lt hvirt) hsup hpresent _
                  (pdIdx_lt hv) hslot hv_present)
        · rw [walk, hv_present, isPresent_add hphys, hflags_present, frame_add hphys hflags]
          rfl
      · rename_i hcond
        refine .inl ⟨fun hpage => hcond ?_, rfl⟩
        obtain ⟨hslot, hindex⟩ := page_eq_iff.mp hpage
        exact ⟨by rw [hslot], hindex⟩

/-- User mode can use the page afterwards, unless the slot has a supervisor table. -/
theorem userMapped_setPage (hphys : IsPage phys) (hflags : flags < PAGE_SIZE)
    (hflags_present : isPresent flags = true) (hflags_user : isUser flags = true) {v : Nat}
    (hv : v < 2 ^ 32) :
    userMapped (Machine.setPage m space virt phys flags) space v =
      (userMapped m space v ||
        (!supervisor m kernel (pdIdx virt) && v / PAGE_SIZE == virt / PAGE_SIZE)) := by
  rcases h.translate_setPage hvirt hpresent hphys hflags hflags_present hv with
    ⟨hne, heq⟩ | ⟨hplace, heq⟩
  · rw [beq_false_of_ne hne, Bool.and_false, Bool.or_false, userMapped, userMapped, heq]
  · have hnew : userMapped (Machine.setPage m space virt phys flags) space v =
        isUser (entryAt m space (pdIdx v)) := by
      rw [userMapped, heq]
      dsimp only
      rw [isUser_flagBits, isUser_flagBits, isUser_add hphys, hflags_user, Bool.and_true]
    rw [hnew]
    cases hsup : supervisor m kernel (pdIdx virt) with
    | true =>
        -- the entry is the kernel's; where the space uses it the directory lacks the user bit
        have hv_sup : supervisor m kernel (pdIdx v) = true := by
          rcases hplace with hpage | ⟨-, hv_sup⟩
          · rw [(page_eq_iff.mp hpage).1]
            exact hsup
          · exact hv_sup
        rw [h.not_userMapped hv hv_sup, h.shared _ (pdIdx_lt hv) hv_sup,
          (supervisor_iff.mp hv_sup).2]
        rfl
    | false =>
        have hpage := hplace.resolve_right fun hboth => Bool.false_ne_true (hsup.symm.trans hboth.1)
        rw [(page_eq_iff.mp hpage).1, h.own_user _ (pdIdx_lt hvirt) hsup hpresent, hpage,
          beq_self_eq_true, Bool.not_false, Bool.true_and, Bool.or_true]

end present

/-! ## A page in a slot without a table -/

theorem mono {slots slots' : Nat → Prop} (h : SpaceInv m pmm kernel space slots)
    (hsub : ∀ i, slots' i → slots i) : SpaceInv m pmm kernel space slots' := by
  have htable : ∀ a, HasTable m space slots' a → HasTable m space slots a := by
    rintro a ⟨i, hi, hentry⟩
    exact ⟨i, hsub i hi, hentry⟩
  have hstructural : ∀ a, Structural m kernel space slots' a → Structural m kernel space slots a :=
    fun a ha => ha.imp_right fun ha => ha.imp_right fun ha => ha.imp_right (htable a)
  constructor
  · exact fun i hi => h.slots_lt i (hsub i hi)
  · exact fun a ha => h.inUse a (hstructural a ha)
  · exact h.space_ne
  · exact h.kernel_tables
  · exact fun a ha => h.space_tables a (htable a ha)
  · exact fun i hi => h.shared i (hsub i hi)
  · exact fun i hi => h.own_user i (hsub i hi)
  · exact fun i hi => h.own_table i (hsub i hi)
  · exact fun i hi hsup hpresent j hj => h.own_distinct i (hsub i hi) hsup hpresent j (hsub j hj)
  · intro f hf
    have hf' : HasUserFrame m kernel AllSlots f ∨ HasUserFrame m space slots f := by
      rcases hf with hf | ⟨i, hi, hentry⟩
      · exact Or.inl hf
      · exact Or.inr ⟨i, hsub i hi, hentry⟩
    obtain ⟨hinUse, hfree⟩ := h.user_frames f hf'
    exact ⟨hinUse, fun ha => hfree (hstructural f ha)⟩

theorem supervisor_of_absent (h : SpaceInv m pmm kernel space AllSlots) {i : Nat}
    (hi : i < ENTRIES) (habsent : isPresent (entryAt m space i) = false) :
    supervisor m kernel i = false := by
  by_contra hsup
  rw [Bool.not_eq_false] at hsup
  rw [h.shared i hi hsup, (supervisor_iff.mp hsup).1] at habsent
  exact Bool.false_ne_true habsent.symm

/-- What the empty table is that `vmm_map` puts into a slot. -/
structure EmptyTable (m m' : Memory) (space i a : Nat) : Prop where
  others : SameTables m m' space (fun j => AllSlots j ∧ j ≠ i)
  entry : entryAt m' space i = a + (VMM_PRESENT + VMM_WRITABLE + VMM_USER)
  empty : ∀ j < ENTRIES, entryAt m' a j = 0

theorem newTable (h : SpaceInv m pmm kernel space AllSlots) {i a : Nat} (hi : i < ENTRIES)
    (habsent : isPresent (entryAt m space i) = false) (halloc : pmm.pmmAllocPage = (a, pmm'))
    (hne : a ≠ 0) {m' : Memory}
    (hm' : m' = setEntry (fill m a 0 PAGE_SIZE) space i
      (a + (VMM_PRESENT + VMM_WRITABLE + VMM_USER))) :
    IsPage a ∧ SpaceInv m' pmm' kernel space AllSlots ∧ SameTables m m' kernel AllSlots ∧
      EmptyTable m m' space i a := by
  obtain ⟨hp, hpage⟩ := pmmAllocPage_page halloc
  obtain ⟨ha, hclear, hinUse⟩ := hpage hne
  have hrest : SpaceInv m pmm kernel space (fun j => AllSlots j ∧ j ≠ i) := h.mono fun _ hj => hj.1
  have hslots : (fun j => (AllSlots j ∧ j ≠ i) ∨ j = i) = AllSlots := by
    funext j
    refine propext ⟨?_, fun hj => ?_⟩
    · rintro (hj | rfl)
      · exact hj.1
      · exact hi
    · by_cases heq : j = i
      · exact Or.inr heq
      · exact Or.inl ⟨hj, heq⟩
  obtain ⟨hinv, hk, hs, hentry, htable⟩ := hrest.setSlot_own hi (fun hslot => hslot.2 rfl)
    (h.supervisor_of_absent hi habsent) ha hclear hinUse hp (onlyPage_fill ha 0)
    (by decide : VMM_PRESENT + VMM_WRITABLE + VMM_USER < PAGE_SIZE) (by decide) (by
      intro j hj hpresent
      rw [entryAt_fill ha hj] at hpresent
      exact absurd hpresent (by decide))
  rw [hslots] at hinv
  subst hm'
  refine ⟨ha, hinv, hk, hs, hentry, fun j hj => ?_⟩
  rw [htable j hj, entryAt_fill ha hj]

namespace EmptyTable

variable {m' : Memory} {i a : Nat}

theorem isPresent_entry (h : EmptyTable m m' space i a) (ha : IsPage a) {j : Nat}
    (hj : j < ENTRIES) :
    isPresent (entryAt m' space j) = (isPresent (entryAt m space j) || j == i) := by
  by_cases heq : j = i
  · subst heq
    rw [h.entry, isPresent_add ha, beq_self_eq_true, Bool.or_true]
    rfl
  · rw [h.others.directory j ⟨hj, heq⟩, beq_false_of_ne heq, Bool.or_false]

theorem isPresent_slot (h : EmptyTable m m' space i a) (ha : IsPage a) :
    isPresent (entryAt m' space i) = true := by
  rw [h.entry, isPresent_add ha]
  rfl

/-- No address is translated through the new table yet. -/
theorem translate_eq (h : EmptyTable m m' space i a) (ha : IsPage a)
    (habsent : isPresent (entryAt m space i) = false) {v : Nat} (hv : v < 2 ^ 32) :
    translate m' space v = translate m space v := by
  by_cases heq : pdIdx v = i
  · have hframe : frame (a + (VMM_PRESENT + VMM_WRITABLE + VMM_USER)) = a :=
      frame_add ha (by decide)
    rw [translate_eq_walk, translate_eq_walk, heq, h.entry, hframe, h.empty _ (ptIdx_lt v),
      walk_empty, walk_absent habsent]
  · exact h.others.translate_eq ⟨pdIdx_lt hv, heq⟩

theorem userMapped_eq (h : EmptyTable m m' space i a) (ha : IsPage a)
    (habsent : isPresent (entryAt m space i) = false) {v : Nat} (hv : v < 2 ^ 32) :
    userMapped m' space v = userMapped m space v := by
  rw [userMapped, userMapped, h.translate_eq ha habsent hv]

theorem structural (h : EmptyTable m m' space i a) (ha : IsPage a)
    (hk : SameTables m m' kernel AllSlots) {b : Nat}
    (hb : Structural m' kernel space AllSlots b) :
    Structural m kernel space AllSlots b ∨ b = a := by
  rcases hb with hb | hb | hb | ⟨j, hj, hpresent, rfl⟩
  · exact Or.inl (Or.inl hb)
  · exact Or.inl (Or.inr (Or.inl hb))
  · exact Or.inl (Or.inr (Or.inr (Or.inl (hk.directory.hasTable hb))))
  · by_cases heq : j = i
    · subst heq
      rw [h.entry]
      exact Or.inr (frame_add ha (by decide))
    · rw [h.others.directory j ⟨hj, heq⟩] at hpresent ⊢
      exact Or.inl (Or.inr (Or.inr (Or.inr ⟨j, hj, hpresent, rfl⟩)))

end EmptyTable

end SpaceInv

/-! ## The pages of a space -/

/-- A space as far as user mode goes: the page allocator, the slots that have a table and
    the pages that user mode can use. -/
structure Plan where
  pmm : Pmm
  tables : Nat → Bool
  pages : Nat → Bool

def Plan.addPage (p : Plan) (virt : Nat) : Plan :=
  { p with pages := fun page => p.pages page || page == virt / PAGE_SIZE }

/-- `vmm_map` on the plan. -/
def Plan.mapPage (p : Plan) (virt : Nat) : Plan :=
  if p.tables (pdIdx virt) then p.addPage virt
  else
    let (table, pmm) := p.pmm.pmmAllocPage
    if table = 0 then { p with pmm := pmm }
    else addPage { p with pmm := pmm, tables := fun i => p.tables i || i == pdIdx virt } virt

def planOf (m : Machine) (space : Nat) : Plan where
  pmm := m.pmm
  tables i := isPresent (entryAt m.mem space i)
  pages page := userMapped m.mem space (page * PAGE_SIZE)

/-- The space is as in the plan. -/
structure Follows (m : Machine) (space : Nat) (p : Plan) : Prop where
  pmm : p.pmm = m.pmm
  tables : ∀ i < ENTRIES, p.tables i = isPresent (entryAt m.mem space i)
  pages : ∀ v < 2 ^ 32, p.pages (v / PAGE_SIZE) = userMapped m.mem space v

theorem follows_planOf (m : Machine) (space : Nat) : Follows m space (planOf m space) := by
  refine ⟨rfl, fun _ _ => rfl, fun v _ => ?_⟩
  have hpage : v / PAGE_SIZE * PAGE_SIZE / PAGE_SIZE = v / PAGE_SIZE :=
    Nat.mul_div_cancel _ (by decide)
  obtain ⟨hslot, hindex⟩ := page_eq_iff.mp hpage
  rw [userMapped_eq, ← hslot, ← hindex, ← userMapped_eq]
  rfl

section vmmMap

variable {m : Machine} {kernel space virt phys flags : Nat}
  (h : SpaceInv m.mem m.pmm kernel space AllSlots) (hvirt : virt < 2 ^ 32)
  (hphys : InUse m.pmm phys) (hfree : ¬ Structural m.mem kernel space AllSlots phys)
  (hflags : flags < PAGE_SIZE)

include h hvirt hphys hfree hflags

/-- In a slot with a supervisor table: the entry of the kernel is replaced. -/
theorem SpaceInv.vmmMap_shared (hsup : supervisor m.mem kernel (pdIdx virt) = true) :
    SpaceInv (m.vmmMap space virt phys flags).2.mem (m.vmmMap space virt phys flags).2.pmm kernel
        space AllSlots ∧
      SameDirectory m.mem (m.vmmMap space virt phys flags).2.mem kernel AllSlots ∧
      m.pmm.Keeps (m.vmmMap space virt phys flags).2.pmm ∧
      ∀ t j, IsPage t → j < ENTRIES →
        entryAt (m.vmmMap space virt phys flags).2.mem t j =
          if t = frame (entryAt m.mem kernel (pdIdx virt)) ∧ j = ptIdx virt then phys + flags
          else entryAt m.mem t j := by
  have hentry := h.shared _ (pdIdx_lt hvirt) hsup
  have hpresent : isPresent (entryAt m.mem space (pdIdx virt)) = true := by
    rw [hentry]
    exact (supervisor_iff.mp hsup).1
  rw [vmmMap, hpresent, if_pos rfl, ← hentry]
  exact ⟨h.setPage hvirt hpresent hphys hfree hflags,
    (h.sameDirectory_setPage hvirt hpresent phys flags).1, fun _ hpage => hpage,
    fun _ _ ht hj => entryAt_setPage hphys.toIsPage hflags ht hj⟩

end vmmMap

end NemoOS
