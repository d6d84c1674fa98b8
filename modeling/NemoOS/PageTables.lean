import NemoOS.Vmm

/-!
# Page tables in memory

Directories and tables are pages of the same memory that they map. The lemmas here
say which entries a write can change: a write inside one page leaves the entries of
every other page alone. `SameTables` is the frame condition the rest of the
development works with: the directory, and every table it points to, read as before.
-/

namespace NemoOS

open Words Bytes

/-! ## Pages -/

structure IsPage (a : Nat) : Prop where
  aligned : a % PAGE_SIZE = 0
  in_space : a + PAGE_SIZE ≤ 2 ^ 32

/-- An address in the page. -/
theorem IsPage.add_lt {a n : Nat} (h : IsPage a) (hn : n < PAGE_SIZE) : a + n < 2 ^ 32 := by
  have hspace := h.in_space
  omega

theorem IsPage.lt {a : Nat} (h : IsPage a) : a < 2 ^ 32 :=
  h.add_lt (n := 0) (by decide)

theorem IsPage.frame_eq {a : Nat} (h : IsPage a) : frame a = a :=
  Nat.div_mul_cancel (Nat.dvd_of_mod_eq_zero h.aligned)

theorem frame_isPage {e : Nat} (he : e < 2 ^ 32) : IsPage (frame e) := by
  constructor
  · exact Nat.mul_mod_left _ _
  · rw [frame, PAGE_SIZE]
    omega

theorem entryAt_lt (m : Memory) (table i : Nat) : entryAt m table i < 2 ^ 32 := read32_lt m _

theorem frame_entryAt_isPage (m : Memory) (table i : Nat) : IsPage (frame (entryAt m table i)) :=
  frame_isPage (entryAt_lt m table i)

section entries

variable {a f : Nat}

theorem frame_add (ha : IsPage a) (hf : f < PAGE_SIZE) : frame (a + f) = a := by
  have haligned := ha.aligned
  rw [frame]
  rw [PAGE_SIZE] at *
  omega

theorem flagBits_add (ha : IsPage a) (hf : f < PAGE_SIZE) : flagBits (a + f) = f := by
  have haligned := ha.aligned
  rw [PAGE_SIZE] at *
  rw [flagBits, PAGE_SIZE]
  omega

theorem isPresent_add (ha : IsPage a) : isPresent (a + f) = isPresent f := by
  have haligned := ha.aligned
  rw [PAGE_SIZE] at haligned
  have heq : (a + f) % 2 = f % 2 := by omega
  rw [isPresent, isPresent, heq]

theorem isUser_add (ha : IsPage a) : isUser (a + f) = isUser f := by
  have haligned := ha.aligned
  rw [PAGE_SIZE] at haligned
  have heq : (a + f) / 4 % 2 = f / 4 % 2 := by omega
  rw [isUser, isUser, heq]

theorem isPresent_flagBits (e : Nat) : isPresent (flagBits e) = isPresent e := by
  have heq : e % 4096 % 2 = e % 2 := by omega
  rw [isPresent, isPresent, flagBits, PAGE_SIZE, heq]

theorem isUser_flagBits (e : Nat) : isUser (flagBits e) = isUser e := by
  have heq : e % 4096 / 4 % 2 = e / 4 % 2 := by omega
  rw [isUser, isUser, flagBits, PAGE_SIZE, heq]

end entries

/-! ## Writes inside one page -/

/-- Nothing but bytes of the page changes. -/
def OnlyPage (a : Nat) (m m' : Memory) : Prop :=
  ∀ x, x < a ∨ a + PAGE_SIZE ≤ x → m' x = m x

section writes

variable {m m' : Memory} {a d i j e : Nat}

theorem entryAt_onlyPage (hmem : OnlyPage a m m') (ha : IsPage a) (hd : IsPage d) (hne : d ≠ a)
    (hi : i < ENTRIES) : entryAt m' d i = entryAt m d i := by
  have ha_aligned := ha.aligned
  have hd_aligned := hd.aligned
  have hspace := hd.in_space
  rw [PAGE_SIZE] at ha_aligned hd_aligned hspace
  rw [ENTRIES] at hi
  apply read32_congr (by omega)
  intro x hle hlt
  apply hmem
  rw [PAGE_SIZE]
  omega

/-- Memories that agree on a page. -/
theorem entryAt_congr (ha : IsPage a) (hi : i < ENTRIES)
    (hmem : ∀ x, x / PAGE_SIZE = a / PAGE_SIZE → m' x = m x) : entryAt m' a i = entryAt m a i := by
  have haligned := ha.aligned
  have hspace := ha.in_space
  rw [PAGE_SIZE] at haligned hspace
  rw [ENTRIES] at hi
  apply read32_congr (by omega)
  intro x hle hlt
  apply hmem
  rw [PAGE_SIZE]
  omega

theorem onlyPage_setEntry (ha : IsPage a) (hi : i < ENTRIES) : OnlyPage a m (setEntry m a i e) := by
  have hspace := ha.in_space
  intro x hx
  rw [PAGE_SIZE] at hspace hx
  rw [ENTRIES] at hi
  exact write32_of_outside (by omega) (by omega)

theorem entryAt_setEntry (ha : IsPage a) (hi : i < ENTRIES) (hj : j < ENTRIES) (he : e < 2 ^ 32) :
    entryAt (setEntry m a i e) a j = if j = i then e else entryAt m a j := by
  have hspace := ha.in_space
  rw [PAGE_SIZE] at hspace
  rw [ENTRIES] at hi hj
  by_cases heq : j = i
  · subst heq
    rw [if_pos rfl]
    exact read32_write32_self (by omega) he
  · rw [if_neg heq]
    exact read32_write32_of_disjoint (by omega) (by omega) (by omega)

theorem onlyPage_fill (ha : IsPage a) (v : UInt8) : OnlyPage a m (fill m a v PAGE_SIZE) :=
  fun _ hx => fill_of_outside ha.in_space hx

theorem entryAt_fill (ha : IsPage a) (hi : i < ENTRIES) :
    entryAt (fill m a 0 PAGE_SIZE) a i = 0 := by
  have hspace := ha.in_space
  rw [PAGE_SIZE] at hspace
  rw [ENTRIES] at hi
  have hzero : ∀ x, a ≤ x → x < a + 4096 → fill m a 0 PAGE_SIZE x = 0 := by
    intro x hle hlt
    rw [fill, if_pos]
    rw [PAGE_SIZE, sub32, u32]
    omega
  have hread : read32 (fill m a 0 PAGE_SIZE) (a + 4 * i) = read32 (fun _ => 0) (a + 4 * i) := by
    apply read32_congr (by omega)
    intro x hle hlt
    exact hzero x (by omega) (by omega)
  rw [entryAt, hread]
  rfl

theorem onlyPage_copyPage (src : Nat) : OnlyPage a m (copyPage m a src) := by
  intro x hx
  rw [copyPage, if_neg (by omega)]

theorem entryAt_copyPage (ha : IsPage a) (hd : IsPage d) (hi : i < ENTRIES) :
    entryAt (copyPage m a d) a i = entryAt m d i := by
  have hspace := ha.in_space
  have hspace' := hd.in_space
  rw [PAGE_SIZE] at hspace hspace'
  rw [ENTRIES] at hi
  have hbyte : ∀ b < 4, copyPage m a d (a + 4 * i + b) = m (d + 4 * i + b) := by
    intro b hb
    rw [copyPage, if_pos (by rw [PAGE_SIZE]; omega)]
    congr 1
    omega
  rw [entryAt, entryAt, read32, read32]
  rw [u32_of_lt (by omega), u32_of_lt (by omega), u32_of_lt (by omega), u32_of_lt (by omega),
    u32_of_lt (by omega), u32_of_lt (by omega), u32_of_lt (by omega), u32_of_lt (by omega)]
  rw [hbyte 1 (by omega), hbyte 2 (by omega), hbyte 3 (by omega)]
  have hzero := hbyte 0 (by omega)
  rw [Nat.add_zero, Nat.add_zero] at hzero
  rw [hzero]

end writes

/-! ## Directories and their tables -/

def AllSlots (i : Nat) : Prop := i < ENTRIES

theorem pdIdx_lt {virt : Nat} (hvirt : virt < 2 ^ 32) : pdIdx virt < ENTRIES := by
  rw [pdIdx, ENTRIES]
  omega

theorem ptIdx_lt (virt : Nat) : ptIdx virt < ENTRIES := Nat.mod_lt _ (by decide)

/-- The page is the table of one of the slots. -/
def HasTable (m : Memory) (dir : Nat) (slots : Nat → Prop) (a : Nat) : Prop :=
  ∃ i, slots i ∧ isPresent (entryAt m dir i) = true ∧ frame (entryAt m dir i) = a

/-- The page is mapped with the user bit through one of the slots. -/
def HasUserFrame (m : Memory) (dir : Nat) (slots : Nat → Prop) (f : Nat) : Prop :=
  ∃ i, slots i ∧ isPresent (entryAt m dir i) = true ∧ isUser (entryAt m dir i) = true ∧
    ∃ j < ENTRIES, isPresent (entryAt m (frame (entryAt m dir i)) j) = true ∧
      isUser (entryAt m (frame (entryAt m dir i)) j) = true ∧
      frame (entryAt m (frame (entryAt m dir i)) j) = f

/-- The slots of the directory read the same. -/
def SameDirectory (m m' : Memory) (dir : Nat) (slots : Nat → Prop) : Prop :=
  ∀ i, slots i → entryAt m' dir i = entryAt m dir i

theorem SameDirectory.hasTable {m m' : Memory} {dir a : Nat} {slots : Nat → Prop}
    (h : SameDirectory m m' dir slots) (htable : HasTable m' dir slots a) :
    HasTable m dir slots a := by
  obtain ⟨i, hi, hpresent, heq⟩ := htable
  rw [h i hi] at hpresent heq
  exact ⟨i, hi, hpresent, heq⟩

/-- The slots of the directory and their tables read the same. -/
structure SameTables (m m' : Memory) (dir : Nat) (slots : Nat → Prop) : Prop where
  directory : SameDirectory m m' dir slots
  table : ∀ i, slots i → isPresent (entryAt m dir i) = true → ∀ j < ENTRIES,
    entryAt m' (frame (entryAt m dir i)) j = entryAt m (frame (entryAt m dir i)) j

namespace SameTables

variable {m m' m'' : Memory} {dir a : Nat} {slots : Nat → Prop}

theorem refl : SameTables m m dir slots := ⟨fun _ _ => rfl, fun _ _ _ _ _ => rfl⟩

theorem symm (h : SameTables m m' dir slots) : SameTables m' m dir slots := by
  refine ⟨fun i hi => (h.directory i hi).symm, fun i hi hpresent j hj => ?_⟩
  rw [h.directory i hi] at hpresent ⊢
  exact (h.table i hi hpresent j hj).symm

theorem trans (h : SameTables m m' dir slots) (h' : SameTables m' m'' dir slots) :
    SameTables m m'' dir slots := by
  refine ⟨fun i hi => (h'.directory i hi).trans (h.directory i hi), fun i hi hpresent j hj => ?_⟩
  rw [← h.table i hi hpresent j hj, ← h.directory i hi]
  rw [← h.directory i hi] at hpresent
  exact h'.table i hi hpresent j hj

/-- A write inside a page that is neither the directory nor one of its tables. -/
theorem of_onlyPage (hmem : OnlyPage a m m') (ha : IsPage a) (hdir : IsPage dir) (hne : dir ≠ a)
    (htable : ¬ HasTable m dir slots a) (hslots : ∀ i, slots i → i < ENTRIES) :
    SameTables m m' dir slots := by
  constructor
  · intro i hi
    exact entryAt_onlyPage hmem ha hdir hne (hslots i hi)
  · intro i hi hpresent j hj
    apply entryAt_onlyPage hmem ha (frame_entryAt_isPage m dir i) _ hj
    intro heq
    exact htable ⟨i, hi, hpresent, heq⟩

theorem hasUserFrame (h : SameTables m m' dir slots) (hframe : HasUserFrame m' dir slots a) :
    HasUserFrame m dir slots a := by
  obtain ⟨i, hi, hpresent, huser, j, hj, hentry⟩ := hframe
  rw [h.directory i hi] at hpresent huser hentry
  rw [h.table i hi hpresent j hj] at hentry
  exact ⟨i, hi, hpresent, huser, j, hj, hentry⟩

theorem translate_eq (h : SameTables m m' dir slots) {virt : Nat} (hslot : slots (pdIdx virt)) :
    translate m' dir virt = translate m dir virt := by
  rw [translate, translate, h.directory _ hslot]
  by_cases hpresent : isPresent (entryAt m dir (pdIdx virt)) = true
  · rw [h.table _ hslot hpresent _ (ptIdx_lt virt)]
  · simp [hpresent]

end SameTables

/-! ## Translations by their entries -/

theorem translate_of_present {m : Memory} {space virt : Nat}
    (hdir : isPresent (entryAt m space (pdIdx virt)) = true)
    (htable : isPresent (entryAt m (frame (entryAt m space (pdIdx virt))) (ptIdx virt)) = true) :
    translate m space virt =
      some ⟨frame (entryAt m (frame (entryAt m space (pdIdx virt))) (ptIdx virt)) +
        virt % PAGE_SIZE, flagBits (entryAt m space (pdIdx virt)),
        flagBits (entryAt m (frame (entryAt m space (pdIdx virt))) (ptIdx virt))⟩ := by
  rw [translate, hdir, htable]
  rfl

theorem translate_eq_some {m : Memory} {space virt : Nat} {t : Translation}
    (h : translate m space virt = some t) :
    isPresent (entryAt m space (pdIdx virt)) = true ∧
      isPresent (entryAt m (frame (entryAt m space (pdIdx virt))) (ptIdx virt)) = true ∧
      t = ⟨frame (entryAt m (frame (entryAt m space (pdIdx virt))) (ptIdx virt)) +
        virt % PAGE_SIZE, flagBits (entryAt m space (pdIdx virt)),
        flagBits (entryAt m (frame (entryAt m space (pdIdx virt))) (ptIdx virt))⟩ := by
  rw [translate] at h
  split at h
  · rename_i hpresent
    rw [Bool.and_eq_true] at hpresent
    exact ⟨hpresent.1, hpresent.2, (Option.some.inj h).symm⟩
  · exact absurd h.symm (Option.some_ne_none t)

/-- The two entries that stand for an address have the present and the user bit. -/
theorem userMapped_eq (m : Memory) (space virt : Nat) :
    userMapped m space virt =
      (isPresent (entryAt m space (pdIdx virt)) && isUser (entryAt m space (pdIdx virt)) &&
        (isPresent (entryAt m (frame (entryAt m space (pdIdx virt))) (ptIdx virt)) &&
          isUser (entryAt m (frame (entryAt m space (pdIdx virt))) (ptIdx virt)))) := by
  rw [userMapped, translate]
  by_cases hdir : isPresent (entryAt m space (pdIdx virt)) = true
  · by_cases htable :
        isPresent (entryAt m (frame (entryAt m space (pdIdx virt))) (ptIdx virt)) = true
    · simp [hdir, htable, isUser_flagBits]
    · simp [htable]
  · simp [hdir]

theorem userMapped_congr {m m' : Memory} {space virt : Nat} {slots : Nat → Prop}
    (h : SameTables m m' space slots) (hslot : slots (pdIdx virt)) :
    userMapped m' space virt = userMapped m space virt := by
  rw [userMapped, userMapped, h.translate_eq hslot]

end NemoOS
