import NemoOS.LoadRoom

/-!
# Where a load reads the file

`elf_load_into` reads the header, the program headers and the bytes of the segments at
indices of `file_buf` that it computes from the file, and compares none of them with the
size of the file. `elfReads` lists the indices in the order of the source.
`elfReads_inside_iff` says for which files they all lie inside the file, whatever machine the
file is loaded on: the file, its size and the number of free pages decide it.
-/

namespace NemoOS

open Words Bytes Machine

/-! ## The indices -/

/-- The indices of the bytes of a field. -/
def fieldAt (a n : Nat) : List Nat := (List.range n).map fun b => u32 (a + b)

/-- The checks of the header stop at the first field that is wrong. -/
def headerReads (image : Memory) : List Nat :=
  fieldAt 0 4 ++
    if read32 image 0 ≠ ELF_MAGIC then []
    else fieldAt 4 1 ++
      if (image 4).toNat ≠ 1 then []
      else fieldAt 5 1 ++
        if (image 5).toNat ≠ 1 then []
        else fieldAt 18 2 ++
          if read16 image 18 ≠ 3 then [] else fieldAt 16 2

/-- The rounds of the loop that maps the pages of a segment. -/
def pageActions (ph : ElfPhdr) : List LoadAction :=
  (List.range ((segmentEnd ph - segmentStart ph) / PAGE_SIZE)).map fun k =>
    .map (segmentStart ph + k * PAGE_SIZE) (segmentFlags ph)

/-- The rounds of the two loops that store. -/
def storeActions (image : Memory) (ph : ElfPhdr) : List LoadAction :=
  ((List.range ph.filesz).map fun j =>
    .store (u32 (ph.vaddr + j)) (image (u32 (ph.offset + j)))) ++
  ((List.range (sub32 ph.memsz ph.filesz)).map fun j =>
    .store (u32 (u32 (ph.vaddr + ph.filesz) + j)) 0)

theorem segmentActions_eq (image : Memory) (ph : ElfPhdr) :
    segmentActions image ph = pageActions ph ++ storeActions image ph := List.append_assoc ..

/-- The offsets of the program headers. -/
def phdrOffsets (image : Memory) : List Nat :=
  (List.range (hdrPhnum image)).map fun i => u32 (hdrPhoff image + i * hdrPhentsize image)

theorem phdrs_eq (image : Memory) : phdrs image = (phdrOffsets image).map (phdrAt image) := by
  rw [phdrs, phdrOffsets, List.map_map]
  rfl

namespace Load

variable (image : Memory) (space active : Nat)

/-- The loop over the pages gets a page. -/
def getsPage (l : Load) (ph : ElfPhdr) : Prop :=
  pageActions ph ≠ [] ∧ l.machine.pmm.pmmAllocPage.1 ≠ 0

instance (l : Load) (ph : ElfPhdr) : Decidable (l.getsPage ph) :=
  inferInstanceAs (Decidable (_ ∧ _))

/-- A segment whose header is at the offset `a`, each field where it is read first: `vaddr` and
    `memsz` for the pages, `flags` once there is a page, `filesz` after all pages, and `offset`
    with each byte. -/
def segmentReads (l : Load) (a : Nat) : List Nat :=
  fieldAt (a + 8) 4 ++ fieldAt (a + 20) 4 ++
    (if l.getsPage (phdrAt image a) then fieldAt (a + 24) 4 else []) ++
    if (l.perform space active (pageActions (phdrAt image a))).1 then
      fieldAt (a + 16) 4 ++ (List.range (phdrAt image a).filesz).flatMap fun j =>
        fieldAt (a + 4) 4 ++ [u32 ((phdrAt image a).offset + j)]
    else []

/-- The loop over the headers. -/
def phdrReads (l : Load) : List Nat → List Nat
  | [] => []
  | a :: rest =>
      fieldAt a 4 ++
        if (phdrAt image a).type ≠ PT_LOAD then l.phdrReads rest
        else l.segmentReads image space active a ++
          let (ok, l') := l.perform space active (segmentActions image (phdrAt image a))
          if ok then { l' with info := l'.info.add (phdrAt image a) }.phdrReads rest else []

end Load

/-- The indices at which `elf_load_into` reads `file_buf`. -/
def elfReads (file : Option Memory) (space active : Nat) (m : Machine) : List Nat :=
  match file with
  | none => []
  | some image =>
      headerReads image ++
        if validHeader image then
          fieldAt 24 4 ++ fieldAt 44 2 ++
            if hdrPhnum image = 0 then []
            else fieldAt 28 4 ++ fieldAt 42 2 ++
              Load.phdrReads image space active ⟨m, ⟨hdrEntry image, 0xFFFFFFFF, 0⟩, []⟩
                (phdrOffsets image)
        else []

/-! ## Inside the file -/

def Inside (size : Nat) (is : List Nat) : Prop := ∀ i ∈ is, i < size

section inside

variable {size : Nat}

theorem inside_append {is js : List Nat} : Inside size (is ++ js) ↔ Inside size is ∧ Inside size js :=
  List.forall_mem_append

theorem inside_nil : Inside size [] := fun _ hi => absurd hi List.not_mem_nil

theorem inside_ite {c : Prop} [Decidable c] {is : List Nat} :
    Inside size (if c then is else []) ↔ (c → Inside size is) := by
  split
  · rename_i hc
    exact ⟨fun h _ => h, fun h => h hc⟩
  · rename_i hc
    exact ⟨fun _ h => absurd h hc, fun _ => inside_nil⟩

theorem inside_ite_not {c : Prop} [Decidable c] {is : List Nat} :
    Inside size (if ¬ c then [] else is) ↔ (c → Inside size is) := by
  rw [ite_not]
  exact inside_ite

/-- A field does not wrap around in a file that is smaller than the address space. -/
theorem inside_fieldAt (hsize : size < 2 ^ 32) (a n : Nat) :
    Inside size (fieldAt a (n + 1)) ↔ u32 a + (n + 1) ≤ size := by
  have hbyte : ∀ b, u32 (a + b) = (u32 a + b) % 2 ^ 32 := fun b => (Nat.mod_add_mod a _ b).symm
  have hlt := u32_lt a
  constructor
  · intro h
    -- a field that wraps around has the last index of the address space
    have hlast : ∀ b < n + 1, u32 (a + b) < size :=
      fun b hb => h _ (List.mem_map_of_mem (List.mem_range.mpr hb))
    by_contra hout
    by_cases hwrap : u32 a + n < 2 ^ 32
    · have := hlast n (by omega)
      rw [hbyte, Nat.mod_eq_of_lt hwrap] at this
      omega
    · have := hlast (2 ^ 32 - 1 - u32 a) (by omega)
      rw [hbyte, Nat.add_sub_cancel' (by omega)] at this
      omega
  · intro h i hi
    obtain ⟨b, hb, rfl⟩ := List.mem_map.mp hi
    rw [List.mem_range] at hb
    rw [hbyte, Nat.mod_eq_of_lt (by omega)]
    omega

/-- The header lies in the file as far as the checks get, and as a whole if it is valid. -/
structure HeaderFits (size : Nat) (image : Memory) : Prop where
  magic : 4 ≤ size
  cls : read32 image 0 = ELF_MAGIC → 5 ≤ size
  data : read32 image 0 = ELF_MAGIC → (image 4).toNat = 1 → 6 ≤ size
  machine : read32 image 0 = ELF_MAGIC → (image 4).toNat = 1 → (image 5).toNat = 1 → 20 ≤ size
  fields : validHeader image = true → 46 ≤ size

theorem inside_headerReads (hsize : size < 2 ^ 32) (image : Memory) :
    Inside size (headerReads image) ∧ (validHeader image = true → 46 ≤ size) ↔
      HeaderFits size image := by
  have hfield := fun a n => inside_fieldAt hsize a n
  have hindex : u32 0 = 0 ∧ u32 4 = 4 ∧ u32 5 = 5 ∧ u32 18 = 18 ∧ u32 16 = 16 := by decide
  obtain ⟨h0, h4, h5, h18, h16⟩ := hindex
  rw [headerReads]
  simp only [inside_append, inside_ite_not, ne_eq, hfield, h0, h4, h5, h18, h16]
  constructor
  · rintro ⟨⟨hmagic, hrest⟩, hfields⟩
    refine ⟨hmagic, fun hm => (hrest hm).1, fun hm hc => ((hrest hm).2 hc).1,
      fun hm hc hd => (((hrest hm).2 hc).2 hd).1, hfields⟩
  · rintro ⟨hmagic, hcls, hdata, hmachine, hfields⟩
    refine ⟨⟨hmagic, fun hm => ⟨hcls hm, fun hc => ⟨hdata hm hc, fun hd => ⟨hmachine hm hc hd, ?_⟩⟩⟩⟩,
      hfields⟩
    have := hmachine hm hc hd
    intro _
    omega

/-- The pages a segment asks for. -/
def segmentPages (ph : ElfPhdr) : Nat := (segmentEnd ph - segmentStart ph) / PAGE_SIZE

/-- With `left` free pages, the fields of a program header that are read and the bytes of its
    segment lie in the file. -/
structure RoundFits (size : Nat) (image : Memory) (left a : Nat) : Prop where
  type : u32 a + 4 ≤ size
  range : (phdrAt image a).type = PT_LOAD → u32 (a + 8) + 4 ≤ size ∧ u32 (a + 20) + 4 ≤ size
  flags : (phdrAt image a).type = PT_LOAD → 0 < segmentPages (phdrAt image a) → 0 < left →
    u32 (a + 24) + 4 ≤ size
  bytes : (phdrAt image a).type = PT_LOAD → segmentPages (phdrAt image a) ≤ left →
    u32 (a + 16) + 4 ≤ size ∧ ∀ j < (phdrAt image a).filesz,
      u32 (a + 4) + 4 ≤ size ∧ u32 ((phdrAt image a).offset + j) < size

/-- The headers at the offsets, up to the first segment for which there are not enough pages. -/
def RoundsFit (size : Nat) (image : Memory) : Nat → List Nat → Prop
  | _, [] => True
  | left, a :: rest =>
      RoundFits size image left a ∧
        if (phdrAt image a).type ≠ PT_LOAD then RoundsFit size image left rest
        else segmentPages (phdrAt image a) ≤ left →
          RoundsFit size image (left - segmentPages (phdrAt image a)) rest

/-- All that a load with so many free pages can read lies in the file: the header, and the
    program headers and segments that it comes to. -/
structure ReadsFit (size : Nat) (image : Memory) (pages : Nat) : Prop where
  header : HeaderFits size image
  rounds : validHeader image = true → RoundsFit size image pages (phdrOffsets image)

theorem inside_segmentReads (hsize : size < 2 ^ 32) (image : Memory) (space active : Nat) (l : Load)
    (a : Nat) :
    Inside size (l.segmentReads image space active a) ↔
      (u32 (a + 8) + 4 ≤ size ∧ u32 (a + 20) + 4 ≤ size) ∧
      (l.getsPage (phdrAt image a) → u32 (a + 24) + 4 ≤ size) ∧
      ((l.perform space active (pageActions (phdrAt image a))).1 = true →
        u32 (a + 16) + 4 ≤ size ∧ ∀ j < (phdrAt image a).filesz,
          u32 (a + 4) + 4 ≤ size ∧ u32 ((phdrAt image a).offset + j) < size) := by
  have hfield := fun a n => inside_fieldAt hsize a n
  have hloop : Inside size ((List.range (phdrAt image a).filesz).flatMap fun j =>
        fieldAt (a + 4) 4 ++ [u32 ((phdrAt image a).offset + j)]) ↔
      ∀ j < (phdrAt image a).filesz,
        u32 (a + 4) + 4 ≤ size ∧ u32 ((phdrAt image a).offset + j) < size := by
    have hround : ∀ j, Inside size (fieldAt (a + 4) 4 ++ [u32 ((phdrAt image a).offset + j)]) ↔
        u32 (a + 4) + 4 ≤ size ∧ u32 ((phdrAt image a).offset + j) < size := by
      intro j
      rw [inside_append, hfield, Inside, List.forall_mem_singleton]
    simp only [← hround]
    constructor
    · exact fun h j hj i hi => h i (List.mem_flatMap.mpr ⟨j, List.mem_range.mpr hj, hi⟩)
    · intro h i hi
      obtain ⟨j, hj, hmem⟩ := List.mem_flatMap.mp hi
      exact h j (List.mem_range.mp hj) i hmem
  rw [Load.segmentReads]
  simp only [inside_append, inside_ite, hfield, hloop, and_assoc]

/-- What is read of one header and behind it. -/
theorem inside_phdrReads_cons (hsize : size < 2 ^ 32) (image : Memory) (space active : Nat)
    (l : Load) (a : Nat) (rest : List Nat) :
    Inside size (l.phdrReads image space active (a :: rest)) ↔ u32 a + 4 ≤ size ∧
      if (phdrAt image a).type ≠ PT_LOAD then Inside size (l.phdrReads image space active rest)
      else Inside size (l.segmentReads image space active a) ∧
        ((l.perform space active (segmentActions image (phdrAt image a))).1 = true →
          Inside size (Load.phdrReads image space active
            { (l.perform space active (segmentActions image (phdrAt image a))).2 with
              info := (l.perform space active (segmentActions image (phdrAt image a))).2.info.add
                (phdrAt image a) } rest)) := by
  rw [Load.phdrReads, inside_append, inside_fieldAt hsize]
  apply and_congr_right
  intro _
  split
  · rfl
  · rw [inside_append]
    apply and_congr_right
    intro _
    rcases l.perform space active (segmentActions image (phdrAt image a)) with ⟨ok, l'⟩
    exact inside_ite

end inside

/-! ## The pages a load gets -/

/-- The pages that are to be had. Where the page at 0 is free it is handed out first, and the
    loop takes that for a failure. -/
def Pmm.supply (p : Pmm) : Nat := if p.testBit 0 then p.freePages.length else 0

theorem Pmm.supply_cases (p : Pmm) :
    p.supply = 0 ∧ p.pmmAllocPage.1 = 0 ∨
      ∃ phys p', p.pmmAllocPage = (phys, p') ∧ phys ≠ 0 ∧ p'.testBit 0 = true ∧
        p.supply = p'.supply + 1 := by
  rcases hfree : p.freePages with _ | ⟨a, rest⟩
  · refine .inl ⟨?_, by rw [pmmAllocPage_of_nil hfree]⟩
    rw [supply, hfree]
    split <;> rfl
  · cases hzero : p.testBit 0 with
    | true =>
        obtain ⟨p', halloc, hrest, ha, -, -, -, hbits⟩ := pmmAllocPage_of_cons hzero hfree
        have hzero' : p'.testBit 0 = true := by rw [hbits, hzero, Bool.true_or]
        refine .inr ⟨_, p', halloc, Nat.mul_ne_zero ha (by decide), hzero', ?_⟩
        rw [supply, supply, if_pos hzero, if_pos hzero', hfree, hrest, List.length_cons]
    | false =>
        obtain rfl : a = 0 := by
          by_contra hne
          have hused := testBit_of_lt_head hfree (Nat.pos_of_ne_zero hne)
          rw [hzero] at hused
          exact Bool.false_ne_true hused
        refine .inl ⟨by rw [supply, hzero, if_neg Bool.false_ne_true], ?_⟩
        rw [p.pmmAllocPage_freePages.1, hfree]
        exact Nat.zero_mul _

/-- A new page for a segment is one page less, and one more if it has a new table. -/
theorem Machine.mapNew_supply (m : Machine) (space page flags : Nat) :
    m.pmm.supply = 0 ∧ (m.mapNew space page flags).1 = false ∨
      0 < m.pmm.supply ∧ (m.mapNew space page flags).1 = true ∧
        (m.mapNew space page flags).2.pmm.supply + 1 ≤ m.pmm.supply ∧
        (isPresent (entryAt m.mem space (pdIdx page)) = true → ∃ phys,
          (m.mapNew space page flags).2.mem = setPage m.mem space page phys flags ∧
          (m.mapNew space page flags).2.pmm.supply + 1 = m.pmm.supply) := by
  rcases m.pmm.supply_cases with ⟨hnone, halloc⟩ | ⟨phys, p', halloc, hne, hzero, hsupply⟩
  · refine .inl ⟨hnone, ?_⟩
    rcases hpair : m.pmm.pmmAllocPage with ⟨phys, pmm⟩
    obtain rfl : phys = 0 := by rwa [hpair] at halloc
    rw [mapNew, hpair]
    rfl
  · have hmap : m.mapNew space page flags =
        (true, (vmmMap { m with pmm := p' } space page phys flags).2) := by
      rw [mapNew, halloc]
      exact if_neg hne
    rw [hmap, hsupply]
    refine .inr ⟨Nat.succ_pos _, rfl, Nat.succ_le_succ ?_, fun hpresent => ⟨phys, ?_⟩⟩
    · rw [vmmMap_pmm]
      split
      · exact le_rfl
      · rcases p'.supply_cases with ⟨-, hnone⟩ | ⟨table, p'', htable, -, -, hless⟩
        · have hnil := (Pmm.pmmAllocPage_eq_zero_iff hzero).mp hnone
          rw [Pmm.pmmAllocPage_of_nil hnil]
        · rw [htable, hless]
          exact Nat.le_succ _
    · rw [vmmMap, if_pos hpresent]
      exact ⟨rfl, rfl⟩

theorem countP_pageActions (ph : ElfPhdr) :
    (pageActions ph).countP LoadAction.isMap = segmentPages ph := by
  rw [pageActions, List.countP_eq_length.mpr (by simp [LoadAction.isMap]), List.length_map,
    List.length_range, segmentPages]

theorem countP_segmentActions (image : Memory) (ph : ElfPhdr) :
    (segmentActions image ph).countP LoadAction.isMap = segmentPages ph := by
  have hstores : (storeActions image ph).countP LoadAction.isMap = 0 := by
    rw [List.countP_eq_zero]
    intro a ha
    rw [storeActions, List.mem_append, List.mem_map, List.mem_map] at ha
    rcases ha with ⟨j, -, rfl⟩ | ⟨j, -, rfl⟩ <;> exact Bool.false_ne_true
  rw [segmentActions_eq, List.countP_append, countP_pageActions, hstores, Nat.add_zero]

namespace Load

theorem pmm_store (l : Load) (active virt : Nat) (byte : UInt8) :
    (l.store active virt byte).machine.pmm = l.machine.pmm := by
  rw [store, Machine.storeByte]
  split <;> rfl

/-- Every page that is mapped is one page less. -/
theorem supply_perform {space active : Nat} {as : List LoadAction} {l : Load}
    (hok : (l.perform space active as).1 = true) :
    (l.perform space active as).2.machine.pmm.supply + as.countP LoadAction.isMap ≤
      l.machine.pmm.supply := by
  induction as generalizing l with
  | nil => exact le_rfl
  | cons a as ih =>
      rw [perform_cons] at hok ⊢
      cases a with
      | store virt byte =>
          have hrest := ih (l := l.store active virt byte) hok
          rw [pmm_store] at hrest
          rwa [List.countP_cons_of_neg Bool.false_ne_true]
      | map page flags =>
          rcases l.machine.mapNew_supply space page flags with ⟨-, hnone⟩ | ⟨-, hsome, hless, -⟩
          · rw [act, hnone] at hok
            exact absurd hok Bool.false_ne_true
          · rw [act, hsome, if_pos rfl] at hok ⊢
            have hrest := ih hok
            rw [List.countP_cons_of_pos rfl]
            dsimp only at hrest ⊢
            omega

end Load

/-! ## A machine that takes no page for tables -/

/-- The directory at `0x1000` has the same table in all its slots, and that at `0x2000` has
    none. -/
def fullDirectory : Memory := fun x => if x / PAGE_SIZE = 1 then 1 else 0

section fullDirectory

variable {mem : Memory} (h : OnlyPage 0x1010000 fullDirectory mem)
include h

theorem entryAt_fullDirectory {i : Nat} (hi : i < ENTRIES) : entryAt mem 0x1000 i = 0x1010101 := by
  have hones : entryAt fullDirectory 0x1000 i = entryAt (fun _ => 1) 0x1000 i :=
    entryAt_congr ⟨by decide, by decide⟩ hi fun x hx => if_pos hx
  rw [entryAt_onlyPage h ⟨by decide, by decide⟩ ⟨by decide, by decide⟩
    (by decide) hi, hones]
  simp [entryAt, read32]

theorem translate_emptyDirectory {virt : Nat} (hvirt : virt < 2 ^ 32) :
    translate mem 0x2000 virt = none := by
  have hzeros : entryAt fullDirectory 0x2000 (pdIdx virt) =
      entryAt (fun _ => 0) 0x2000 (pdIdx virt) :=
    entryAt_congr ⟨by decide, by decide⟩ (pdIdx_lt hvirt) fun x hx => if_neg (by
      rw [hx]
      decide)
  rw [translate_eq_walk, entryAt_onlyPage h ⟨by decide, by decide⟩
    ⟨by decide, by decide⟩ (by decide) (pdIdx_lt hvirt), hzeros]
  exact walk_absent rfl _ _

/-- One page for each that is mapped, as long as there are pages. -/
theorem perform_fullDirectory {as : List LoadAction} (hwf : ∀ a ∈ as, a.WellFormed) {l : Load}
    (hl : l.machine.mem = mem) :
    ((l.perform 0x1000 0x2000 as).1 = true ↔ as.countP LoadAction.isMap ≤ l.machine.pmm.supply) ∧
      ((l.perform 0x1000 0x2000 as).1 = true →
        OnlyPage 0x1010000 fullDirectory (l.perform 0x1000 0x2000 as).2.machine.mem ∧
        (l.perform 0x1000 0x2000 as).2.machine.pmm.supply + as.countP LoadAction.isMap =
          l.machine.pmm.supply) := by
  induction as generalizing l mem with
  | nil => exact ⟨⟨fun _ => Nat.zero_le _, fun _ => rfl⟩, fun _ => ⟨hl ▸ h, rfl⟩⟩
  | cons a as ih =>
      have hrest := fun b hb => hwf b (List.mem_cons_of_mem a hb)
      have hhead := hwf a List.mem_cons_self
      rw [Load.perform_cons]
      cases a with
      | store virt byte =>
          have hsame : (l.store 0x2000 virt byte).machine = l.machine := by
            rw [Load.store, Machine.storeByte, hl, translate_emptyDirectory h hhead]
          have hstep := ih h hrest (l := l.store 0x2000 virt byte) (by rw [hsame, hl])
          rw [hsame] at hstep
          rw [List.countP_cons_of_neg Bool.false_ne_true]
          exact hstep
      | map page flags =>
          have hslot : pdIdx page < ENTRIES := pdIdx_lt hhead.1
          have hentry := entryAt_fullDirectory h hslot
          rw [List.countP_cons_of_pos rfl, Load.act]
          rcases l.machine.mapNew_supply 0x1000 page flags with
            ⟨hempty, hnone⟩ | ⟨-, hsome, -, hmapped⟩
          · rw [hnone, hempty, if_neg Bool.false_ne_true]
            exact ⟨iff_of_false Bool.false_ne_true (by omega),
              fun hok => absurd hok Bool.false_ne_true⟩
          · obtain ⟨phys, hmem, hless⟩ := hmapped (by rw [hl, hentry]; rfl)
            rw [hsome, if_pos rfl]
            have honly : OnlyPage 0x1010000 fullDirectory
                (setPage l.machine.mem 0x1000 page phys flags) := by
              intro x hx
              rw [setPage, hl, hentry, ← h x hx]
              exact onlyPage_setEntry ⟨by decide, by decide⟩ (ptIdx_lt page) x hx
            obtain ⟨hiff, hkept⟩ := ih honly hrest
              (l := { l with machine := (l.machine.mapNew 0x1000 page flags).2 }) hmem
            dsimp only at hiff hkept ⊢
            refine ⟨hiff.trans ⟨fun hle => by omega, fun hle => by omega⟩, fun hok => ?_⟩
            obtain ⟨hmem', hsupply⟩ := hkept hok
            exact ⟨hmem', by omega⟩

end fullDirectory

/-! ## The files that are read inside -/

section files

variable {size : Nat} {image : Memory} (hsize : size < 2 ^ 32)

theorem phdrOffsets_of_zero (hzero : hdrPhnum image = 0) : phdrOffsets image = [] := by
  rw [phdrOffsets, hzero]
  rfl

include hsize

/-- With fewer pages nothing else is read. -/
theorem RoundsFit.inside {left : Nat} {offsets : List Nat} (h : RoundsFit size image left offsets)
    {space active : Nat} {l : Load} (hleft : l.machine.pmm.supply ≤ left) :
    Inside size (l.phdrReads image space active offsets) := by
  induction offsets generalizing l left with
  | nil => exact inside_nil
  | cons a offsets ih =>
      obtain ⟨⟨htype, hrange, hflags, hbytes⟩, hrest⟩ := h
      rw [inside_phdrReads_cons hsize]
      refine ⟨htype, ?_⟩
      by_cases hload : (phdrAt image a).type = PT_LOAD
      case neg =>
        rw [if_pos hload] at hrest ⊢
        exact ih hrest hleft
      rw [if_neg (not_not_intro hload)] at hrest ⊢
      rw [inside_segmentReads hsize]
      refine ⟨⟨hrange hload, fun hgets => ?_, fun hok => ?_⟩, fun hok => ?_⟩
      · -- a page is got only where one is asked for and there is one
        obtain ⟨hne, halloc⟩ := hgets
        have hpos : 0 < segmentPages (phdrAt image a) := by
          refine Nat.pos_of_ne_zero fun hzero => hne ?_
          rw [pageActions, ← segmentPages, hzero]
          rfl
        rcases l.machine.pmm.supply_cases with ⟨-, hnone⟩ | ⟨_, _, -, -, -, hsupply⟩
        · exact absurd hnone halloc
        · exact hflags hload hpos (by omega)
      · have hless := Load.supply_perform hok
        rw [countP_pageActions] at hless
        exact hbytes hload (by omega)
      · have hless := Load.supply_perform hok
        rw [countP_segmentActions] at hless
        exact ih (hrest (by omega)) (by dsimp only; omega)

/-- On the machine that takes no page for tables, all of it is read. -/
theorem roundsFit_of_inside {offsets : List Nat} {l : Load}
    (hfull : OnlyPage 0x1010000 fullDirectory l.machine.mem)
    (h : Inside size (l.phdrReads image 0x1000 0x2000 offsets)) :
    RoundsFit size image l.machine.pmm.supply offsets := by
  induction offsets generalizing l with
  | nil => trivial
  | cons a offsets ih =>
      rw [inside_phdrReads_cons hsize] at h
      obtain ⟨htype, hrest⟩ := h
      by_cases hload : (phdrAt image a).type = PT_LOAD
      case neg =>
        refine ⟨⟨htype, fun hl => absurd hl hload, fun hl => absurd hl hload,
          fun hl => absurd hl hload⟩, ?_⟩
        rw [if_pos hload] at hrest ⊢
        exact ih hfull hrest
      rw [if_neg (not_not_intro hload), inside_segmentReads hsize] at hrest
      obtain ⟨⟨hrange, hflags, hbytes⟩, hmore⟩ := hrest
      have hwf := segmentActions_wellFormed image (phdrAt image a)
      have hwf' : ∀ b ∈ pageActions (phdrAt image a), b.WellFormed :=
        fun b hb => hwf b (segmentActions_eq image _ ▸ List.mem_append_left _ hb)
      have hpages := perform_fullDirectory hfull hwf' rfl
      have hall := perform_fullDirectory hfull hwf rfl
      rw [countP_pageActions] at hpages
      rw [countP_segmentActions] at hall
      refine ⟨⟨htype, fun _ => hrange, fun _ hpos hleft => hflags ⟨?_, ?_⟩,
        fun _ hle => hbytes (hpages.1.mpr hle)⟩, ?_⟩
      · intro hnil
        rw [← countP_pageActions, hnil] at hpos
        exact absurd hpos (by decide)
      · rcases l.machine.pmm.supply_cases with ⟨hnone, -⟩ | ⟨phys, p', halloc, hne, -⟩
        · omega
        · rwa [halloc]
      · rw [if_neg (not_not_intro hload)]
        intro hle
        have hok := hall.1.mpr hle
        obtain ⟨hkept, hsupply⟩ := hall.2 hok
        rw [← Nat.eq_sub_of_add_eq hsupply]
        let l' := (l.perform 0x1000 0x2000 (segmentActions image (phdrAt image a))).2
        exact ih (l := { l' with info := l'.info.add (phdrAt image a) }) hkept (hmore hok)

theorem readsFit_of_inside {pmm : Pmm} {kernelSpace : Nat}
    (h : Inside size (elfReads (some image) 0x1000 0x2000 ⟨fullDirectory, pmm, kernelSpace⟩)) :
    ReadsFit size image pmm.supply := by
  have hphnum : u32 44 = 44 := by decide
  rw [elfReads, inside_append, inside_ite, inside_append, inside_append, inside_fieldAt hsize,
    inside_fieldAt hsize, hphnum] at h
  obtain ⟨hheader, hrest⟩ := h
  refine ⟨(inside_headerReads hsize image).mp ⟨hheader, fun hvalid => (hrest hvalid).1.2⟩, ?_⟩
  intro hvalid
  obtain ⟨-, hrounds⟩ := hrest hvalid
  by_cases hzero : hdrPhnum image = 0
  · rw [phdrOffsets_of_zero hzero]
    trivial
  · rw [if_neg hzero, inside_append] at hrounds
    exact roundsFit_of_inside hsize (fun _ _ => rfl) hrounds.2

theorem ReadsFit.inside {pmm : Pmm} (h : ReadsFit size image pmm.supply) (mem : Memory)
    (kernelSpace space active : Nat) :
    Inside size (elfReads (some image) space active ⟨mem, pmm, kernelSpace⟩) := by
  obtain ⟨hheader, hrounds⟩ := h
  obtain ⟨hreads, hfields⟩ := (inside_headerReads hsize image).mpr hheader
  have hindex : u32 24 = 24 ∧ u32 44 = 44 ∧ u32 28 = 28 ∧ u32 42 = 42 := by decide
  obtain ⟨h24, h44, h28, h42⟩ := hindex
  rw [elfReads, inside_append, inside_ite, inside_append, inside_append, inside_fieldAt hsize,
    inside_fieldAt hsize, h24, h44]
  refine ⟨hreads, fun hvalid => ?_⟩
  have h46 := hfields hvalid
  refine ⟨⟨by omega, h46⟩, ?_⟩
  split
  · exact inside_nil
  · rw [inside_append, inside_append, inside_fieldAt hsize, inside_fieldAt hsize, h28, h42]
    exact ⟨⟨by omega, by omega⟩, (hrounds hvalid).inside hsize le_rfl⟩

/-- The header, every program header and every segment lie inside the file. -/
structure Placed (size : Nat) (image : Memory) : Prop where
  header : 46 ≤ size
  phdrs : ∀ a ∈ phdrOffsets image, a + 28 ≤ size
  segments : ∀ ph ∈ segments image, ph.offset + ph.filesz ≤ size

/-- A file whose parts lie inside it is read inside it, with any number of pages. -/
theorem Placed.readsFit (h : Placed size image) (pages : Nat) : ReadsFit size image pages := by
  obtain ⟨hheader, hphdrs, hsegments⟩ := h
  have hround : ∀ a ∈ phdrOffsets image, ∀ left, RoundFits size image left a := by
    intro a ha left
    have hend := hphdrs a ha
    have hindex : ∀ k < 28, u32 (a + k) = a + k := fun k hk => u32_of_lt (by omega)
    have hstart : u32 a = a := u32_of_lt (by omega)
    constructor
    · omega
    · rw [hindex 8 (by decide), hindex 20 (by decide)]
      omega
    · rw [hindex 24 (by decide)]
      omega
    · intro htype _
      have hmem : phdrAt image a ∈ NemoOS.segments image := by
        rw [NemoOS.segments, phdrs_eq]
        exact List.mem_filter.mpr ⟨List.mem_map_of_mem ha, decide_eq_true htype⟩
      have hbytes := hsegments _ hmem
      rw [hindex 16 (by decide), hindex 4 (by decide)]
      refine ⟨by omega, fun j hj => ⟨by omega, ?_⟩⟩
      rw [u32_of_lt (by omega)]
      omega
  constructor
  · constructor
    all_goals
      intros
      omega
  · intro _
    generalize phdrOffsets image = offsets at hround
    induction offsets generalizing pages with
    | nil => trivial
    | cons a offsets ih =>
        have hlater := fun b hb => hround b (List.mem_cons_of_mem a hb)
        refine ⟨hround a List.mem_cons_self pages, ?_⟩
        split
        · exact ih pages hlater
        · exact fun _ => ih _ hlater

end files

/-- `test_elf_data` of `fs/test_elf.h`: the 84 bytes of the headers, with a segment that starts
    at offset `0x1000`. -/
def testElf : Memory := headersOnly [⟨PT_LOAD, 0x1000, 0x40000000, 0x1000, 0x1000, 7⟩]

example : (List.range 84).map testElf = [
    0x7f, 0x45, 0x4c, 0x46, 0x01, 0x01, 0x01, 0x00, 0x00, 0x00, 0x00, 0x00,
    0x00, 0x00, 0x00, 0x00, 0x02, 0x00, 0x03, 0x00, 0x01, 0x00, 0x00, 0x00,
    0x00, 0x00, 0x00, 0x40, 0x34, 0x00, 0x00, 0x00, 0x00, 0x00, 0x00, 0x00,
    0x00, 0x00, 0x00, 0x00, 0x34, 0x00, 0x20, 0x00, 0x01, 0x00, 0x00, 0x00,
    0x00, 0x00, 0x00, 0x00, 0x01, 0x00, 0x00, 0x00, 0x00, 0x10, 0x00, 0x00,
    0x00, 0x00, 0x00, 0x40, 0x00, 0x00, 0x00, 0x40, 0x00, 0x10, 0x00, 0x00,
    0x00, 0x10, 0x00, 0x00, 0x07, 0x00, 0x00, 0x00, 0x00, 0x10, 0x00, 0x00] := by decide

end NemoOS
