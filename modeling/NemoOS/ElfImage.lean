import NemoOS.LoadRoom
import NemoOS.StaleData

/-!
# The bytes of a loaded file

`elf_load_into` asks for new pages for every segment, also where an earlier segment has
pages already, and maps them over those. What the earlier segment stored there is then out
of reach, and the bytes that the new page held before are read instead.

`leaves` follows the rounds of a load at one address, `Imaged` says that the memory is as
followed, and `elfLoadInto_image_iff` that the segments are read back from the space exactly
when no segment maps a page on which an earlier one has a byte.
-/

namespace NemoOS

open Words Bytes Machine

/-! ## One address -/

/-- What a load has done at an address: nothing, mapped a new page over it, or stored a byte
    in a page that it has mapped. -/
inductive Cell where
  | untouched
  | mapped
  | stored (byte : UInt8)
deriving DecidableEq, Repr

def LoadAction.leaves (v : Nat) (c : Cell) : LoadAction → Cell
  | .map page _ => if v / PAGE_SIZE = page / PAGE_SIZE then .mapped else c
  | .store virt byte => if v = virt ∧ c ≠ .untouched then .stored byte else c

def leaves (v : Nat) (c : Cell) (as : List LoadAction) : Cell := as.foldl (LoadAction.leaves v) c

section leaves

variable {v : Nat} {c : Cell}

theorem leaves_cons (a : LoadAction) (as : List LoadAction) :
    leaves v c (a :: as) = leaves v (a.leaves v c) as := rfl

theorem leaves_append (as bs : List LoadAction) :
    leaves v c (as ++ bs) = leaves v (leaves v c as) bs := List.foldl_append

variable {l : List Nat} {f : Nat → Nat}

theorem leaves_maps (flags : Nat) :
    leaves v c (l.map fun k => .map (f k) flags) =
      if ∃ k ∈ l, v / PAGE_SIZE = f k / PAGE_SIZE then .mapped else c := by
  induction l generalizing c with
  | nil => simp [leaves]
  | cons k l ih =>
      rw [List.map_cons, leaves_cons, LoadAction.leaves, ih]
      by_cases hhead : v / PAGE_SIZE = f k / PAGE_SIZE
      · rw [if_pos hhead, ite_self, if_pos ⟨k, List.mem_cons_self, hhead⟩]
      · rw [if_neg hhead]
        simp only [List.mem_cons, exists_eq_or_imp, hhead, false_or]

variable {b : Nat → UInt8}

/-- A loop that stores to a row of addresses. -/
theorem leaves_row {start n : Nat} (hf : ∀ j < n, f j = start + j) :
    leaves v c ((List.range n).map fun j => .store (f j) (b j)) =
      if (start ≤ v ∧ v < start + n) ∧ c ≠ .untouched then .stored (b (v - start)) else c := by
  induction n with
  | zero =>
      rw [if_neg (by omega)]
      rfl
  | succ n ih =>
      rw [List.range_succ, List.map_append, leaves_append, ih fun j hj => hf j (by omega),
        List.map_singleton, leaves_cons, LoadAction.leaves, hf n (Nat.lt_succ_self n)]
      by_cases hc : c = .untouched
      · simp [hc, leaves]
      by_cases hlast : v = start + n
      · have hbefore : ¬ ((start ≤ v ∧ v < start + n) ∧ c ≠ .untouched) := by omega
        rw [if_neg hbefore, if_pos ⟨hlast, hc⟩, if_pos ⟨⟨by omega, by omega⟩, hc⟩,
          show v - start = n by omega]
        rfl
      · have hrow : start ≤ v ∧ v < start + (n + 1) ↔ start ≤ v ∧ v < start + n := by omega
        rw [if_neg fun h => hlast h.1]
        simp only [hrow]
        rfl

end leaves

/-! ## The segments -/

namespace ElfPhdr

variable (ph : ElfPhdr)

/-- The address is one of a byte of the segment. -/
def holds (v : Nat) : Prop := ph.vaddr ≤ v ∧ v < ph.vaddr + ph.memsz

/-- The address lies in a page that is mapped for the segment. -/
def covers (v : Nat) : Prop := segmentStart ph ≤ v ∧ v < segmentEnd ph

instance (v : Nat) : Decidable (ph.holds v) := inferInstanceAs (Decidable (_ ∧ _))
instance (v : Nat) : Decidable (ph.covers v) := inferInstanceAs (Decidable (_ ∧ _))

/-- The byte that the file gives for a byte of the segment. -/
def byteAt (image : Memory) (k : Nat) : UInt8 := if k < ph.filesz then image (ph.offset + k) else 0

/-- Inside a file of `size` bytes, and without wrapping around. -/
structure Fits (size : Nat) : Prop where
  inside : ph.offset + ph.filesz ≤ size
  filesz_le : ph.filesz ≤ ph.memsz
  no_wrap : ph.vaddr + ph.memsz ≤ 2 ^ 32

/-- The end of a segment that has bytes does not wrap around when it is rounded up to a
    page. -/
def RoundsUp : Prop := ph.memsz ≠ 0 → ph.vaddr + ph.memsz + 0xFFF < 2 ^ 32

instance : Decidable ph.RoundsUp := inferInstanceAs (Decidable (_ → _))

end ElfPhdr

section segment

variable {ph : ElfPhdr} {size v : Nat} (hfits : ph.Fits size) (hround : ph.RoundsUp)

/-- The pages of a segment that has bytes reach from its first to its last byte. -/
theorem ElfPhdr.covers_of_holds (hround : ph.RoundsUp) (hv : ph.holds v) : ph.covers v := by
  obtain ⟨hle, hlt⟩ := hv
  have hno_wrap := hround (by omega)
  rw [covers, segmentStart, segmentEnd, u32_of_lt hno_wrap, PAGE_SIZE]
  omega

theorem covers_iff : ph.covers v ↔
    ∃ k ∈ List.range ((segmentEnd ph - segmentStart ph) / PAGE_SIZE),
      v / PAGE_SIZE = (segmentStart ph + k * PAGE_SIZE) / PAGE_SIZE := by
  have hend : segmentEnd ph % PAGE_SIZE = 0 := Nat.mul_mod_left _ _
  have hstart : segmentStart ph % PAGE_SIZE = 0 := Nat.mul_mod_left _ _
  rw [ElfPhdr.covers]
  generalize segmentEnd ph = last at *
  generalize segmentStart ph = first at *
  rw [PAGE_SIZE] at *
  constructor
  · rintro ⟨hle, hlt⟩
    exact ⟨v / 4096 - first / 4096, by rw [List.mem_range]; omega, by omega⟩
  · rintro ⟨k, hk, heq⟩
    rw [List.mem_range] at hk
    omega

include hfits hround in
/-- **One segment at one address.** -/
theorem leaves_segment (hsize : size ≤ 2 ^ 32) (image : Memory) (c : Cell) :
    leaves v c (segmentActions image ph) =
      if ph.holds v then .stored (ph.byteAt image (v - ph.vaddr))
      else if ph.covers v then .mapped else c := by
  obtain ⟨hinside, hle, hwrap⟩ := hfits
  -- the addresses of the two loops that store
  have hcopy : ∀ j < ph.filesz, u32 (ph.vaddr + j) = ph.vaddr + j := by
    intro j hj
    exact u32_of_lt (by omega)
  have hsub : sub32 ph.memsz ph.filesz = ph.memsz - ph.filesz := by
    apply sub32_of_le hle
    by_cases hempty : ph.memsz = 0
    · omega
    · have := hround hempty
      omega
  have hzero : ∀ j < ph.memsz - ph.filesz,
      u32 (u32 (ph.vaddr + ph.filesz) + j) = ph.vaddr + ph.filesz + j := by
    intro j hj
    rw [u32_of_lt (n := ph.vaddr + ph.filesz) (by omega)]
    exact u32_of_lt (by omega)
  rw [segmentActions, hsub, leaves_append, leaves_append, leaves_maps, leaves_row hcopy,
    leaves_row hzero]
  simp only [← covers_iff]
  by_cases hholds : ph.holds v
  · have hmapped : Cell.mapped ≠ .untouched := Cell.noConfusion
    have hlow := hholds.1
    have hhigh := hholds.2
    rw [if_pos hholds, if_pos (ElfPhdr.covers_of_holds hround hholds), ElfPhdr.byteAt]
    by_cases hk : v < ph.vaddr + ph.filesz
    · have hcopied : (ph.vaddr ≤ v ∧ v < ph.vaddr + ph.filesz) ∧ Cell.mapped ≠ .untouched :=
        ⟨⟨hlow, hk⟩, hmapped⟩
      rw [if_neg fun h => absurd h.1.1 (Nat.not_le_of_lt hk), if_pos hcopied, if_pos (by omega),
        u32_of_lt (by omega)]
    · have hcleared : ph.vaddr + ph.filesz ≤ v ∧
          v < ph.vaddr + ph.filesz + (ph.memsz - ph.filesz) := by omega
      simp only [hk, and_false, false_and, if_false]
      rw [if_pos ⟨hcleared, hmapped⟩, if_neg (by omega)]
  · have hcopied : ¬ (ph.vaddr ≤ v ∧ v < ph.vaddr + ph.filesz) := fun h => hholds ⟨h.1, by omega⟩
    have hcleared : ¬ (ph.vaddr + ph.filesz ≤ v ∧
        v < ph.vaddr + ph.filesz + (ph.memsz - ph.filesz)) := fun h =>
      hholds ⟨by omega, by omega⟩
    rw [if_neg fun h => hcleared h.1, if_neg fun h => hcopied h.1, if_neg hholds]

end segment

section list

variable {segs : List ElfPhdr} {size v : Nat} (hsize : size ≤ 2 ^ 32)

include hsize

/-- Segments without a byte at the address. -/
theorem leaves_segments_of_not_holds (hfits : ∀ ph ∈ segs, ph.Fits size)
    (hround : ∀ ph ∈ segs, ph.RoundsUp) (hnone : ∀ ph ∈ segs, ¬ ph.holds v) (image : Memory)
    (c : Cell) :
    leaves v c (segs.flatMap (segmentActions image)) =
      if ∃ ph ∈ segs, ph.covers v then .mapped else c := by
  induction segs generalizing c with
  | nil => simp [leaves]
  | cons ph segs ih =>
      rw [List.forall_mem_cons] at hfits hround hnone
      rw [List.flatMap_cons, leaves_append, leaves_segment hfits.1 hround.1 hsize, if_neg hnone.1,
        ih hfits.2 hround.2 hnone.2]
      by_cases hhead : ph.covers v
      · rw [if_pos hhead, ite_self, if_pos ⟨ph, List.mem_cons_self, hhead⟩]
      · rw [if_neg hhead]
        simp only [List.mem_cons, exists_eq_or_imp, hhead, false_or]

/-- The segment with a byte at the address, where no later one has a byte there: a later one
    that maps the page makes an end of it. -/
theorem leaves_segments {before after : List ElfPhdr} {ph : ElfPhdr}
    (hfits : ∀ q ∈ ph :: after, q.Fits size) (hround : ∀ q ∈ ph :: after, q.RoundsUp)
    (hholds : ph.holds v) (hnone : ∀ q ∈ after, ¬ q.holds v) (image : Memory) (c : Cell) :
    leaves v c ((before ++ ph :: after).flatMap (segmentActions image)) =
      if ∃ q ∈ after, q.covers v then .mapped
      else .stored (ph.byteAt image (v - ph.vaddr)) := by
  rw [List.forall_mem_cons] at hfits hround
  rw [List.flatMap_append, leaves_append, List.flatMap_cons, leaves_append,
    leaves_segment hfits.1 hround.1 hsize, if_pos hholds,
    leaves_segments_of_not_holds hsize hfits.2 hround.2 hnone]

end list

/-! ## The memory of a load -/

/-- The memory as followed: the load has bytes of its own at the addresses it has touched, and
    reads there what it stored. -/
structure Imaged (space : Nat) (c : Nat → Cell) (m : Memory) : Prop where
  alone : Alone m space fun v => c v != .untouched
  bytes : ∀ v < 2 ^ 32, ∀ b, c v = .stored b → userByte m space v = some b

theorem imaged_untouched (m : Memory) (space : Nat) : Imaged space (fun _ => .untouched) m :=
  ⟨fun _ _ hs => absurd hs Bool.false_ne_true, fun _ _ _ hc => nomatch hc⟩

theorem userByte_eq_some {m : Memory} {space v : Nat} {b : UInt8} :
    userByte m space v = some b ↔ ∃ a, userAddr m space v = some a ∧ m a = b :=
  Option.map_eq_some_iff

section run

variable {m : Machine} {space : Nat} {l : Load} {p : Plan} {c : Nat → Cell}

/-- A page is mapped. -/
theorem Imaged.map {page flags phys : Nat} {pmm : Pmm} (h : Imaged space c l.machine.mem)
    (hload : Loading m space l p) (hwf : (LoadAction.map page flags).WellFormed)
    (halloc : l.machine.pmm.pmmAllocPage = (phys, pmm)) (hne : phys ≠ 0)
    (hload' : Loading m space
      { l with machine := (vmmMap { l.machine with pmm := pmm } space page phys flags).2 }
      (Plan.mapPage { p with pmm := pmm } page)) :
    Imaged space (fun v => (LoadAction.map page flags).leaves v (c v))
      (vmmMap { l.machine with pmm := pmm } space page phys flags).2.mem := by
  obtain ⟨hpage, hflags, hpresent, -⟩ := hwf
  obtain ⟨hkeeps, hfresh⟩ := pmmAllocPage_page halloc
  obtain ⟨hphys, hclear, hinUse⟩ := hfresh hne
  have hinv : SpaceInv l.machine.mem pmm m.kernelSpace space AllSlots :=
    hload.inv.congr .refl .refl hkeeps
  have hview := fun v hv a => SpaceInv.userAddr_vmmMap (m := { l.machine with pmm := pmm }) (v := v)
    (a := a) hinv hpage hphys hflags hpresent hv
  have heffect := SpaceInv.mapEffect (m := { l.machine with pmm := pmm }) hinv hpage hinUse
    (hload.inv.not_structural hclear) hflags
  constructor
  · have hown : (fun v => (LoadAction.map page flags).leaves v (c v) != .untouched) =
        staleMap (fun v => c v != .untouched) page := by
      funext v
      rw [LoadAction.leaves, staleMap]
      by_cases hsame : v / PAGE_SIZE = page / PAGE_SIZE
      · rw [if_pos hsame, beq_iff_eq.mpr hsame, Bool.or_true]
        rfl
      · rw [if_neg hsame, beq_eq_false_iff_ne.mpr hsame, Bool.or_false]
    rw [hown]
    exact Alone.map h.alone hload.inv hphys hclear hview
  · intro v hv b hb
    have hother : v / PAGE_SIZE ≠ page / PAGE_SIZE := by
      intro hsame
      rw [LoadAction.leaves, if_pos hsame] at hb
      cases hb
    rw [LoadAction.leaves, if_neg hother] at hb
    obtain ⟨a, ha, hbyte⟩ := userByte_eq_some.mp (h.bytes v hv b hb)
    have huser : userMapped (vmmMap { l.machine with pmm := pmm } space page phys flags).2.mem space
        v = true := by
      rw [← hload'.follows.pages v hv]
      apply Plan.pages_mapPage_of_pages
      exact (hload.follows.pages v hv).trans (userAddr_eq_some.mp ha).1
    obtain ⟨a', ha'⟩ : ∃ a', userAddr (vmmMap { l.machine with pmm := pmm } space page phys
        flags).2.mem space v = some a' := ⟨_, userAddr_eq_some.mpr ⟨huser, rfl⟩⟩
    have hold : userAddr l.machine.mem space v = some a' := by
      rcases hview v hv a' ha' with ⟨hsame, -⟩ | ⟨-, hold⟩
      · exact absurd hsame hother
      · exact hold
    obtain rfl : a' = a := Option.some.inj (hold.symm.trans ha)
    refine userByte_eq_some.mpr ⟨a', ha', ?_⟩
    rw [heffect.mem_eq (heffect.inv.userAddr_page hv ha').2]
    exact hbyte

/-- A byte is stored. -/
theorem Imaged.store {virt : Nat} (h : Imaged space c l.machine.mem) (hload : Loading m space l p)
    (hvirt : virt < 2 ^ 32) (huser : userMapped l.machine.mem space virt = true) (byte : UInt8) :
    Imaged space (fun v => (LoadAction.store virt byte).leaves v (c v))
      (l.store space virt byte).machine.mem := by
  obtain ⟨-, hs, -⟩ := hload.inv.storeByte hvirt byte huser
  obtain ⟨a, ha⟩ : ∃ a, userAddr l.machine.mem space virt = some a :=
    ⟨_, userAddr_eq_some.mpr ⟨huser, rfl⟩⟩
  have hmem : (l.store space virt byte).machine.mem = Function.update l.machine.mem a byte := by
    rw [Load.store, storeByte_of_userAddr ha]
  rw [storeByte_of_userAddr ha] at hs
  rw [hmem]
  constructor
  · refine h.alone.congr hs fun v hv => ?_
    rw [bne_iff_ne, LoadAction.leaves] at hv
    rw [bne_iff_ne]
    intro hc
    rw [hc, if_neg fun hand => hand.2 rfl] at hv
    exact hv rfl
  · intro v hv b hb
    rw [LoadAction.leaves] at hb
    rw [userByte_eq_some]
    dsimp only at hs
    rw [userAddr_congr hs (pdIdx_lt hv)]
    by_cases hstored : v = virt ∧ c v ≠ .untouched
    · rw [if_pos hstored, Cell.stored.injEq] at hb
      exact ⟨a, hstored.1 ▸ ha, (Function.update_self _ _ _).trans hb⟩
    · rw [if_neg hstored] at hb
      obtain ⟨x, hx, hbyte⟩ := userByte_eq_some.mp (h.bytes v hv b hb)
      have hown : (c v != .untouched) = true := by rw [hb]; rfl
      refine ⟨x, hx, ?_⟩
      rw [Function.update_of_ne]
      · exact hbyte
      · rintro rfl
        have hsame := h.alone v hv hown virt hvirt x hx ha
        exact hstored ⟨hsame.symm, bne_iff_ne.mp hown⟩

/-- A load that stays and has the pages it asks for. -/
theorem LoadRounds.imaged {as : List LoadAction} (hrounds : LoadRounds m space l p as)
    (h : Imaged space c l.machine.mem) (hok : (l.perform space space as).1 = true) :
    Imaged space (fun v => leaves v (c v) as) (l.perform space space as).2.machine.mem := by
  induction hrounds generalizing c with
  | nil hload => exact h
  | @store l p virt byte as hload hvirt huser _ ih =>
      rw [Load.perform_cons] at hok ⊢
      exact ih (h.store hload hvirt huser byte) hok
  | @failed l p page flags as pmm hload halloc =>
      rw [Load.perform_cons, Load.act_map_none space space page flags halloc] at hok
      exact absurd hok Bool.false_ne_true
  | @map l p page flags phys as pmm hload hwf halloc hne hrest ih =>
      rw [Load.perform_cons, Load.act_map_some space space page flags halloc hne, if_pos rfl] at hok ⊢
      exact ih (h.map hload hwf halloc hne hrest.start) hok

/-- The old bytes of `Plan.stale` are those at addresses that are mapped and no more. -/
theorem LoadRounds.stale_eq {as : List LoadAction} (hrounds : LoadRounds m space l p as)
    (hok : (l.perform space space as).1 = true) {s : Nat → Bool} {v : Nat} {d : Cell}
    (hs : s v = decide (d = .mapped)) : (p.stale s as).2 v = decide (leaves v d as = .mapped) := by
  induction hrounds generalizing s d with
  | nil hload => exact hs
  | @store l p virt byte as hload hvirt huser _ ih =>
      rw [Load.perform_cons] at hok
      rw [Plan.stale, leaves_cons]
      apply ih hok
      rw [staleStore, hs, LoadAction.leaves]
      cases d with
      | untouched => simp
      | mapped => by_cases hv : v = virt <;> simp [hv]
      | stored b => by_cases hv : v = virt <;> simp [hv]
  | @failed l p page flags as pmm hload halloc =>
      rw [Load.perform_cons, Load.act_map_none space space page flags halloc] at hok
      exact absurd hok Bool.false_ne_true
  | @map l p page flags phys as pmm hload hwf halloc hne _ ih =>
      rw [Load.perform_cons, Load.act_map_some space space page flags halloc hne, if_pos rfl] at hok
      rw [Plan.stale, hload.follows.pmm, halloc]
      dsimp only
      rw [if_neg hne, leaves_cons]
      apply ih hok
      rw [staleMap, hs, LoadAction.leaves]
      by_cases hv : v / PAGE_SIZE = page / PAGE_SIZE <;> simp [hv]

end run

/-! ## The file -/

/-- A file of `size` bytes whose segments lie inside it, do not wrap around and have no byte
    in common. -/
structure Loadable (image : Memory) (size : Nat) : Prop where
  size_lt : size < 2 ^ 32
  valid : validHeader image = true
  fits : ∀ ph ∈ segments image, ph.Fits size
  disjoint : (segments image).Pairwise fun p q => ∀ v, p.holds v → ¬ q.holds v

/-- Every byte of every segment is the one that the file gives. -/
def ImageLoaded (image : Memory) (space : Nat) (m : Machine) : Prop :=
  ∀ ph ∈ segments image, ∀ k < ph.memsz,
    userByte m.mem space (ph.vaddr + k) = some (ph.byteAt image k)

/-- No segment maps a page on which an earlier one has a byte. -/
def SegmentsApart (image : Memory) : Prop :=
  (segments image).Pairwise fun p q => ∀ v, p.holds v → ¬ q.covers v

theorem SegmentsApart.not_covers {image : Memory} (h : SegmentsApart image)
    {before after : List ElfPhdr} {ph : ElfPhdr} (hsplit : segments image = before ++ ph :: after)
    {v : Nat} (hholds : ph.holds v) : ¬ ∃ q ∈ after, q.covers v := by
  rintro ⟨q, hq, hcovers⟩
  rw [SegmentsApart, hsplit, List.pairwise_append, List.pairwise_cons] at h
  exact h.2.1.1 q hq v hholds hcovers

theorem Loadable.lt_of_holds {image : Memory} {size : Nat} (h : Loadable image size) {ph : ElfPhdr}
    (hph : ph ∈ segments image) {v : Nat} (hholds : ph.holds v) : v < 2 ^ 32 :=
  Nat.lt_of_lt_of_le hholds.2 (h.fits ph hph).no_wrap

section load

variable {m : Machine} {space : Nat} (h : SpaceInv m.mem m.pmm m.kernelSpace space AllSlots)
  (hzero : m.pmm.testBit 0 = true)

include h hzero

/-- Two loads that start with other bytes in free pages. -/
theorem SpaceInv.twin_load {mem : Memory} {file : Option Memory} (hstays : Stays file space m)
    (hfree : ∀ x, mem x ≠ m.mem x → x / PAGE_SIZE ∈ m.pmm.freePages) (info : ElfInfo) :
    Twin m.mem mem m.pmm m.kernelSpace space
      ((planOf m space).stale (fun _ => false) (loadActions file)).2
      (elfLoadInto file space space m info).2.machine
      (elfLoadInto file space space { m with mem := mem } info).2.machine := by
  have huntouched : Untouched m.pmm m.mem mem := by
    intro x hx
    by_contra hne
    rw [(Pmm.mem_freePages.mp (hfree x hne)).2] at hx
    exact Bool.false_ne_true hx
  obtain ⟨hinv', -, -⟩ := h.untouched huntouched fun _ hpage => hpage
  have hfresh : Fresh m.mem m.pmm m.kernelSpace space (fun _ => false) m :=
    fresh_of_free h hzero (fun _ hi => hi) fun _ _ => rfl
  have hfresh' : Fresh mem m.pmm m.kernelSpace space (fun _ => false) { m with mem := mem } :=
    fresh_of_free hinv' hzero (fun _ hi => hi) fun _ _ => rfl
  have hrounds := (h.loading (follows_planOf m space) info).rounds (loadActions_wellFormed file)
    hstays
  rw [(elfLoadInto_eq_perform file space space m info).1,
    (elfLoadInto_eq_perform file space space { m with mem := mem } info).1]
  have hstart : Twin m.mem mem m.pmm m.kernelSpace space (fun _ => false)
      (Load.mk m info []).machine (Load.mk { m with mem := mem } info []).machine :=
    .of_untouched hfresh hfresh' rfl huntouched
  exact (Twin.rounds (fun _ _ hload => hload.follows.pmm)
    (Rounds.mono hrounds (fun _ _ hload => hload) fun _ _ huser => .inl huser) hstart).2

variable {image : Memory} {size : Nat} (hfile : Loadable image size)
  (hround : ∀ ph ∈ segments image, ph.RoundsUp) (hstays : Stays (some image) space m)
  {info : ElfInfo} (hok : (elfLoadInto (some image) space space m info).1 = 0)

include hfile hround

omit h hzero in
/-- What the rounds of the load leave at a byte of a segment. -/
theorem Loadable.leaves {before after : List ElfPhdr} {ph : ElfPhdr}
    (hsplit : segments image = before ++ ph :: after) {v : Nat} (hholds : ph.holds v) (c : Cell) :
    NemoOS.leaves v c (loadActions (some image)) =
      if ∃ q ∈ after, q.covers v then .mapped
      else .stored (ph.byteAt image (v - ph.vaddr)) := by
  have hmem : ∀ q ∈ ph :: after, q ∈ segments image := by
    intro q hq
    rw [hsplit]
    exact List.mem_append_right before hq
  have hdisjoint := hfile.disjoint
  rw [hsplit, List.pairwise_append, List.pairwise_cons] at hdisjoint
  rw [loadActions_of_valid hfile.valid, hsplit]
  exact leaves_segments (Nat.le_of_lt hfile.size_lt) (fun q hq => hfile.fits q (hmem q hq))
    (fun q hq => hround q (hmem q hq)) hholds (fun q hq => hdisjoint.2.1.1 q hq v hholds) image c

include hstays hok

omit hzero in
/-- Segments that are apart are read back. -/
theorem SegmentsApart.imageLoaded (hapart : SegmentsApart image) :
    ImageLoaded image space (elfLoadInto (some image) space space m info).2.machine := by
  intro ph hph k hk
  obtain ⟨before, after, hsplit⟩ := List.append_of_mem hph
  have hholds : ph.holds (ph.vaddr + k) := ⟨by omega, by omega⟩
  have hleaves := hfile.leaves hround hsplit hholds .untouched
  rw [if_neg (hapart.not_covers hsplit hholds), Nat.add_sub_cancel_left] at hleaves
  have hrounds := (h.loading (follows_planOf m space) info).rounds
    (loadActions_wellFormed (some image)) hstays
  have himaged := hrounds.imaged (imaged_untouched m.mem space) (elfLoadInto_eq_zero_iff.mp hok).2
  rw [(elfLoadInto_eq_perform (some image) space space m info).1]
  exact himaged.bytes _ (hfile.lt_of_holds hph hholds) _ hleaves

omit hzero in
/-- The old bytes are those of pages that a later segment has mapped. -/
theorem Loadable.stale_eq {before after : List ElfPhdr} {ph : ElfPhdr}
    (hsplit : segments image = before ++ ph :: after) {v : Nat} (hholds : ph.holds v) :
    ((planOf m space).stale (fun _ => false) (loadActions (some image))).2 v =
      decide (∃ q ∈ after, q.covers v) := by
  have hrounds := (h.loading (follows_planOf m space) info).rounds
    (loadActions_wellFormed (some image)) hstays
  rw [hrounds.stale_eq (elfLoadInto_eq_zero_iff.mp hok).2 (d := .untouched) rfl,
    hfile.leaves hround hsplit hholds]
  split
  · simp [*]
  · simp [*]

/-- The byte that the load leaves where a later segment has mapped the page is the one that
    a free page held. -/
theorem Loadable.lost {before after : List ElfPhdr} {ph q : ElfPhdr}
    (hsplit : segments image = before ++ ph :: after) {v : Nat} (hholds : ph.holds v)
    (hq : q ∈ after) (hcovers : q.covers v) {a : Nat}
    (ha : userAddr (elfLoadInto (some image) space space m info).2.machine.mem space v = some a) :
    a / PAGE_SIZE ∈ m.pmm.freePages ∧ ∀ mem : Memory,
      (∀ x, mem x ≠ m.mem x → x / PAGE_SIZE ∈ m.pmm.freePages) →
        userByte (elfLoadInto (some image) space space { m with mem := mem } info).2.machine.mem
          space v = some (mem a) := by
  have hph : ph ∈ segments image := by
    rw [hsplit]
    exact List.mem_append_right before List.mem_cons_self
  have hlt := hfile.lt_of_holds hph hholds
  have hstale := hfile.stale_eq h hround hstays hok hsplit hholds
  rw [decide_eq_true ⟨q, hq, hcovers⟩] at hstale
  have hsame := h.twin_load hzero hstays (fun x hne => absurd rfl hne) info
  refine ⟨(hsame.fresh.stale v hlt hstale a ha).2, fun mem hfree => ?_⟩
  have htwin := h.twin_load hzero hstays hfree info
  have ha' := (htwin.userAddr_eq hlt).trans ha
  exact userByte_eq_some.mpr ⟨a, ha', (htwin.fresh'.stale v hlt hstale a ha').1⟩

/-- **The bytes of a loaded file.** Whatever the free pages hold, a load into the space that
    returns 0 leaves the bytes of every segment as the file gives them, exactly when no segment
    maps a page on which an earlier one has a byte. -/
theorem elfLoadInto_image_iff :
    (∀ mem : Memory, (∀ x, mem x ≠ m.mem x → x / PAGE_SIZE ∈ m.pmm.freePages) →
      ImageLoaded image space
        (elfLoadInto (some image) space space { m with mem := mem } info).2.machine) ↔
      SegmentsApart image := by
  constructor
  · intro hloaded
    rw [SegmentsApart, List.pairwise_iff_forall_sublist]
    intro ph q hsublist v hholds hcovers
    obtain ⟨early, late, hsegments, hearly, hlate⟩ := List.cons_sublist_iff.mp hsublist
    obtain ⟨before, between, rfl⟩ := List.append_of_mem hearly
    rw [List.append_assoc, List.cons_append] at hsegments
    have hq : q ∈ between ++ late := List.mem_append_right _ (List.singleton_sublist.mp hlate)
    have hph : ph ∈ segments image := by
      rw [hsegments]
      exact List.mem_append_right before List.mem_cons_self
    -- read the byte back in the machine as it is, and with another byte in the free page
    have hread : ∀ mem : Memory, (∀ x, mem x ≠ m.mem x → x / PAGE_SIZE ∈ m.pmm.freePages) →
        userByte (elfLoadInto (some image) space space { m with mem := mem } info).2.machine.mem
          space v = some (ph.byteAt image (v - ph.vaddr)) := by
      intro mem hfree
      obtain ⟨hle, hlt⟩ := hholds
      have := hloaded mem hfree ph hph (v - ph.vaddr) (by omega)
      rwa [Nat.add_sub_cancel' hle] at this
    obtain ⟨a, ha, -⟩ := userByte_eq_some.mp (hread m.mem fun x hne => absurd rfl hne)
    obtain ⟨hpage, hlost⟩ := hfile.lost h hzero hround hstays hok hsegments hholds hq hcovers ha
    have hother : ∀ x, Function.update m.mem a (m.mem a + 1) x ≠ m.mem x →
        x / PAGE_SIZE ∈ m.pmm.freePages := by
      intro x hne
      obtain rfl : x = a := by
        by_contra hxa
        exact hne (Function.update_of_ne hxa _ _)
      exact hpage
    have hfirst := (hread m.mem fun x hne => absurd rfl hne).symm.trans
      (hlost m.mem fun x hne => absurd rfl hne)
    have hsecond := (hread _ hother).symm.trans (hlost _ hother)
    rw [Function.update_self] at hsecond
    exact absurd (Option.some.inj (hfirst.symm.trans hsecond)) (by simp)
  · intro hapart mem hfree ph hph k hk
    obtain ⟨before, after, hsplit⟩ := List.append_of_mem hph
    have hholds : ph.holds (ph.vaddr + k) := ⟨by omega, by omega⟩
    have hlt := hfile.lt_of_holds hph hholds
    have hstale := hfile.stale_eq h hround hstays hok hsplit hholds
    rw [decide_eq_false (hapart.not_covers hsplit hholds)] at hstale
    have hloaded := hapart.imageLoaded h hfile hround hstays hok ph hph k hk
    obtain ⟨a, ha, hbyte⟩ := userByte_eq_some.mp hloaded
    have htwin := h.twin_load hzero hstays hfree info
    exact userByte_eq_some.mpr ⟨a, (htwin.userAddr_eq hlt).trans ha,
      (htwin.visible _ hlt hstale a ha).trans hbyte⟩

end load

/-! ## Two files of two segments -/

def text : ElfPhdr := ⟨PT_LOAD, 0, 0x40000000, 4, 4, 5⟩
def dataAt (vaddr : Nat) : ElfPhdr := ⟨PT_LOAD, 4, vaddr, 2, 8, 6⟩

/-- Text and data on pages of their own, and on one page. -/
def twoPages : Memory := headersOnly [text, dataAt 0x40001000]
def onePage : Memory := headersOnly [text, dataAt 0x40000010]

theorem loadable_two {image : Memory} {vaddr : Nat} (hvalid : validHeader image = true)
    (hsegments : segments image = [text, dataAt vaddr]) (hlow : 0x40000004 ≤ vaddr)
    (hhigh : vaddr ≤ 0x40001000) :
    Loadable image 116 ∧ ∀ ph ∈ segments image, ph.RoundsUp := by
  refine ⟨⟨by decide, hvalid, ?_, ?_⟩, ?_⟩
  · rw [hsegments, List.forall_mem_cons, List.forall_mem_singleton]
    refine ⟨⟨by decide, by decide, by decide⟩, ?_, ?_, ?_⟩
    · show 4 + 2 ≤ 116
      decide
    · show 2 ≤ 8
      decide
    · dsimp only [dataAt]
      omega
  · rw [hsegments, List.pairwise_pair]
    rintro v ⟨-, hlt⟩ ⟨hle, -⟩
    dsimp only [text, dataAt] at hlt hle
    omega
  · rw [hsegments, List.forall_mem_cons, List.forall_mem_singleton]
    refine ⟨by decide, fun _ => ?_⟩
    dsimp only [dataAt]
    omega

theorem elfLoadInto_image_two_pages :
    ∃ m, smallMachine.vmmCreateSpace = (0x3000, m) ∧
      ∀ mem : Memory, (∀ x, mem x ≠ m.mem x → x / PAGE_SIZE ∈ m.pmm.freePages) →
        ImageLoaded twoPages 0x3000
          (elfLoadInto (some twoPages) 0x3000 0x3000 { m with mem := mem } ⟨0, 0, 0⟩).2.machine := by
  obtain ⟨mem, hcreate⟩ := smallMachine_create
  have hvalid : validHeader twoPages = true := by decide
  have hsegments : segments twoPages = [text, dataAt 0x40001000] := by decide
  obtain ⟨hinv, hzero, hstays, hok⟩ := smallMachine_load hcreate hvalid rfl (by decide)
    (by decide) (by decide) ⟨0, 0, 0⟩
  obtain ⟨hfile, hround⟩ := loadable_two hvalid hsegments (by decide) (by decide)
  refine ⟨_, hcreate, (elfLoadInto_image_iff hinv hzero hfile hround hstays hok).mpr ?_⟩
  rw [SegmentsApart, hsegments, List.pairwise_pair]
  rintro v ⟨-, hlt⟩ ⟨hle, -⟩
  have hpage : segmentStart (dataAt 0x40001000) = 0x40001000 := by decide
  dsimp only [text] at hlt
  omega

/-- Text and data on one page: the text is gone when the data are loaded. -/
theorem elfLoadInto_loses_text :
    ¬ ∀ (m : Machine) (space : Nat) (image : Memory) (size : Nat) (info : ElfInfo),
      SpaceInv m.mem m.pmm m.kernelSpace space AllSlots → m.pmm.testBit 0 = true →
      Loadable image size → (∀ ph ∈ segments image, ph.RoundsUp) → Stays (some image) space m →
      (elfLoadInto (some image) space space m info).1 = 0 →
        ImageLoaded image space (elfLoadInto (some image) space space m info).2.machine := by
  intro hall
  obtain ⟨mem, hcreate⟩ := smallMachine_create
  have hvalid : validHeader onePage = true := by decide
  have hsegments : segments onePage = [text, dataAt 0x40000010] := by decide
  obtain ⟨hinv, hzero, hstays, hok⟩ := smallMachine_load hcreate hvalid rfl (by decide)
    (by decide) (by decide) ⟨0, 0, 0⟩
  obtain ⟨hfile, hround⟩ := loadable_two hvalid hsegments (by decide) (by decide)
  have htext : text ∈ segments onePage := by
    rw [hsegments]
    exact List.mem_cons_self
  have hread := hall _ _ _ _ _ hinv hzero hfile hround hstays hok text htext 0 (by decide)
  obtain ⟨a, ha, -⟩ := userByte_eq_some.mp hread
  have hsplit : segments onePage = [] ++ text :: [dataAt 0x40000010] := hsegments
  obtain ⟨hfree, hlost⟩ := hfile.lost hinv hzero hround hstays hok hsplit ⟨by decide, by decide⟩
    List.mem_cons_self ⟨by decide, by decide⟩ ha
  have hnew := hread.symm.trans (hlost mem fun x hne => absurd rfl hne)
  -- the free pages of the small machine are zero
  obtain ⟨-, hclear⟩ := Pmm.mem_freePages.mp hfree
  have hpage : 3 ≤ a / PAGE_SIZE := by
    by_contra hlow
    have hused : ∀ i < 3, smallMachine.pmm.pmmAllocPage.2.testBit i = true := by decide
    rw [hused _ (by omega)] at hclear
    exact Bool.false_ne_true hclear.symm
  have hold : mem a = 0 := by
    have hsame : mem a = identityMemory a := vmmCreateSpace_free hcreate (by decide) hclear
    rw [PAGE_SIZE] at hpage
    rw [hsame, identityMemory, if_neg (by omega), if_neg (by omega)]
  rw [hold] at hnew
  exact absurd hnew (by decide)

end NemoOS
