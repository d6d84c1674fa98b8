import NemoOS.MapEffect

/-!
# What user mode sees of a space

`userAddr` is the byte of memory that user mode reaches at an address. Such a byte lies in
a page in use that is no table (`SpaceInv.userAddr_page`). After a call of `vmm_map` the
addresses of the page reach the mapped page, where they reach anything, and all others what
they reached before (`SpaceInv.userAddr_vmmMap`); this holds in the slots of the space's own
and in those with a supervisor table, through which user mode reaches nothing.
-/

namespace NemoOS

open Words Bytes Machine

def userAddr (m : Memory) (space virt : Nat) : Option Nat :=
  match translate m space virt with
  | some t => if isUser t.directoryFlags && isUser t.tableFlags then some t.addr else none
  | none => none

/-- The byte that user mode reads. -/
def userByte (m : Memory) (space virt : Nat) : Option UInt8 :=
  (userAddr m space virt).map m

section view

variable {m m' : Memory} {space virt a : Nat}

theorem userAddr_eq (m : Memory) (space virt : Nat) :
    userAddr m space virt =
      if userMapped m space virt then
        some (frame (entryAt m (frame (entryAt m space (pdIdx virt))) (ptIdx virt)) + virt % PAGE_SIZE)
      else none := by
  rw [userAddr, userMapped]
  rcases htranslate : translate m space virt with _ | t
  · rfl
  · obtain ⟨-, -, rfl⟩ := translate_eq_some htranslate
    rfl

theorem userAddr_eq_some :
    userAddr m space virt = some a ↔ userMapped m space virt = true ∧
      frame (entryAt m (frame (entryAt m space (pdIdx virt))) (ptIdx virt)) + virt % PAGE_SIZE = a := by
  rw [userAddr_eq]
  cases userMapped m space virt with
  | true => rw [if_pos rfl, Option.some.injEq, and_iff_right rfl]
  | false => exact ⟨nofun, fun hboth => absurd hboth.1 Bool.false_ne_true⟩

theorem exists_translate (h : userAddr m space virt = some a) :
    ∃ t, translate m space virt = some t ∧ t.addr = a := by
  rw [userAddr] at h
  rcases htranslate : translate m space virt with _ | t
  · rw [htranslate] at h
    cases h
  · rw [htranslate] at h
    dsimp only at h
    split at h
    · exact ⟨t, rfl, Option.some.inj h⟩
    · cases h

theorem userAddr_congr {slots : Nat → Prop} (h : SameTables m m' space slots)
    (hslot : slots (pdIdx virt)) : userAddr m' space virt = userAddr m space virt := by
  rw [userAddr, userAddr, h.translate_eq hslot]

end view

/-- An address in a page. -/
theorem page_add {phys v : Nat} (hphys : IsPage phys) :
    (phys + v % PAGE_SIZE) / PAGE_SIZE = phys / PAGE_SIZE ∧
      (phys + v % PAGE_SIZE) / PAGE_SIZE * PAGE_SIZE = phys := by
  have haligned := hphys.aligned
  rw [PAGE_SIZE] at *
  omega

namespace SpaceInv

/-- What user mode reaches is in use and is no table. -/
theorem userAddr_page {m : Memory} {pmm : Pmm} {kernel space v a : Nat}
    (h : SpaceInv m pmm kernel space AllSlots) (hv : v < 2 ^ 32)
    (ha : userAddr m space v = some a) :
    pmm.testBit (a / PAGE_SIZE) = true ∧
      ¬ Structural m kernel space AllSlots (a / PAGE_SIZE * PAGE_SIZE) := by
  obtain ⟨huser, rfl⟩ := userAddr_eq_some.mp ha
  rw [userMapped_eq] at huser
  simp only [Bool.and_eq_true] at huser
  obtain ⟨⟨hdir, hdir_user⟩, htable, htable_user⟩ := huser
  obtain ⟨hinUse, hnot⟩ := h.user_frames _ (.inr ⟨pdIdx v, pdIdx_lt hv, hdir, hdir_user, ptIdx v,
    ptIdx_lt v, htable, htable_user, rfl⟩)
  obtain ⟨hindex, hstart⟩ := page_add (v := v) hinUse.toIsPage
  rw [hstart, hindex]
  exact ⟨hinUse.used, hnot⟩

end SpaceInv

/-- An address of a space after a page has been mapped at `virt`, in any slot: it is as before,
    or it lies in the mapped page, through the same entry of the directory. -/
def AfterMap (m m' : Memory) (kernel space virt phys v : Nat) : Prop :=
  translate m' space v = translate m space v ∧
      (v / PAGE_SIZE = virt / PAGE_SIZE → translate m space v = none) ∨
    ∃ t, translate m' space v = some t ∧ t.addr = phys + v % PAGE_SIZE ∧
      (∀ t₀, translate m space v = some t₀ → t.directoryFlags = t₀.directoryFlags) ∧
      (v / PAGE_SIZE = virt / PAGE_SIZE ∨ isUser t.directoryFlags = false ∧
        supervisor m kernel (pdIdx virt) = true ∧ supervisor m kernel (pdIdx v) = true)

theorem SpaceInv.afterMap_setPage {m : Memory} {pmm : Pmm} {kernel space virt phys flags v : Nat}
    (h : SpaceInv m pmm kernel space AllSlots) (hvirt : virt < 2 ^ 32)
    (hpresent : isPresent (entryAt m space (pdIdx virt)) = true) (hphys : IsPage phys)
    (hflags : flags < PAGE_SIZE) (hflags_present : isPresent flags = true) (hv : v < 2 ^ 32) :
    AfterMap m (Machine.setPage m space virt phys flags) kernel space virt phys v := by
  rcases h.translate_setPage hvirt hpresent hphys hflags hflags_present hv with
    ⟨hne, heq⟩ | ⟨hplace, heq⟩
  · exact .inl ⟨heq, fun hpage => absurd hpage hne⟩
  · refine .inr ⟨_, heq, rfl, fun t₀ ht₀ => ?_, hplace.imp_right fun hboth => ⟨?_, hboth⟩⟩
    · obtain ⟨-, -, rfl⟩ := translate_eq_some ht₀
      rfl
    · dsimp only
      rw [isUser_flagBits, h.shared _ (pdIdx_lt hv) hboth.2, (supervisor_iff.mp hboth.2).2]

/-- **One address after `vmm_map`.** -/
theorem SpaceInv.translate_map {m : Machine} {kernel space virt phys flags v : Nat}
    (h : SpaceInv m.mem m.pmm kernel space AllSlots) (hvirt : virt < 2 ^ 32) (hphys : IsPage phys)
    (hflags : flags < PAGE_SIZE) (hflags_present : isPresent flags = true) (hv : v < 2 ^ 32) :
    AfterMap m.mem (m.vmmMap space virt phys flags).2.mem kernel space virt phys v := by
  rcases m.vmmMap_inversion space virt phys flags with
    ⟨hpresent, hcall⟩ | ⟨hpresent, pmm, -, hcall⟩ |
    ⟨hpresent, table, pmm, mem, halloc, hne, hmem, hcall⟩
  all_goals rw [hcall]
  · exact h.afterMap_setPage hvirt hpresent hphys hflags hflags_present hv
  · refine .inl ⟨rfl, fun hpage => ?_⟩
    rw [translate_eq_walk, (page_eq_iff.mp hpage).1]
    exact walk_absent hpresent _ _
  · obtain ⟨htable, hinv, hk, hempty⟩ := h.newTable (pdIdx_lt hvirt) hpresent halloc hne hmem
    have hset := hinv.afterMap_setPage hvirt (hempty.isPresent_slot htable) hphys hflags
      hflags_present hv
    rw [AfterMap, hempty.translate_eq htable hpresent hv,
      supervisor_congr hk.directory (pdIdx_lt hvirt), supervisor_congr hk.directory (pdIdx_lt hv)] at hset
    exact hset

/-- **What user mode reaches after `vmm_map`.** -/
theorem SpaceInv.userAddr_vmmMap {m : Machine} {kernel space virt phys flags v a : Nat}
    (h : SpaceInv m.mem m.pmm kernel space AllSlots) (hvirt : virt < 2 ^ 32) (hphys : IsPage phys)
    (hflags : flags < PAGE_SIZE) (hflags_present : isPresent flags = true) (hv : v < 2 ^ 32)
    (ha : userAddr (m.vmmMap space virt phys flags).2.mem space v = some a) :
    v / PAGE_SIZE = virt / PAGE_SIZE ∧ a = phys + v % PAGE_SIZE ∨
      v / PAGE_SIZE ≠ virt / PAGE_SIZE ∧ userAddr m.mem space v = some a := by
  rcases h.translate_map hvirt hphys hflags hflags_present hv with
    ⟨hsame, hnone⟩ | ⟨t, ht, haddr, -, hplace⟩
  · rw [userAddr, hsame, ← userAddr.eq_1] at ha
    refine .inr ⟨fun hpage => ?_, ha⟩
    obtain ⟨t, ht, -⟩ := exists_translate ha
    rw [hnone hpage] at ht
    cases ht
  · rw [userAddr, ht] at ha
    dsimp only at ha
    split at ha
    · rename_i huser
      refine .inl ⟨hplace.resolve_right fun hsup => ?_, (Option.some.inj ha).symm.trans haddr⟩
      rw [hsup.1] at huser
      exact Bool.false_ne_true huser
    · cases ha

/-- What user mode reaches is no table. -/
theorem SpaceInv.not_structural_of_userMapped {m : Memory} {pmm : Pmm} {kernel space virt : Nat}
    (h : SpaceInv m pmm kernel space AllSlots) (hvirt : virt < 2 ^ 32)
    (huser : userMapped m space virt = true) {t : Translation}
    (ht : translate m space virt = some t) :
    pmm.testBit (t.addr / PAGE_SIZE) = true ∧
      ¬ Structural m kernel space AllSlots (t.addr / PAGE_SIZE * PAGE_SIZE) := by
  apply h.userAddr_page hvirt
  obtain ⟨-, -, rfl⟩ := translate_eq_some ht
  exact userAddr_eq_some.mpr ⟨huser, rfl⟩

end NemoOS
