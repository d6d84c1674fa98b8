import NemoOS.Vmm

/-!
# The ELF loader

`elf_load_into` of `fs/elf.cpp`. A file is the memory that its buffer starts: the loader
computes addresses in it from the fields of the file and checks none of them, so that
they can lie behind the buffer as well. Everything the loader reads there is taken as it
is when the loop over the headers starts.

The three loops over a segment map pages, copy bytes and store zeros. They are given by
the list of what they do, in order (`segmentActions`); the loader does one after the other
and stops where a page cannot be allocated. A byte is stored through the active space,
which `exec` has switched to the new one. `stray` keeps the addresses of the stores that
went to an address which the active space does not map for user mode.
-/

namespace NemoOS

open Words Bytes

def ELF_MAGIC : Nat := 0x464C457F
def PT_LOAD : Nat := 1
def PF_W : Nat := 2

structure ElfPhdr where
  type : Nat
  offset : Nat
  vaddr : Nat
  filesz : Nat
  memsz : Nat
  flags : Nat
deriving DecidableEq, Repr

structure ElfInfo where
  entry : Nat
  loadAddr : Nat
  size : Nat
deriving DecidableEq, Repr

/-! ## The headers -/

section headers

variable (image : Memory)

/-- The five fields of the header that are checked. -/
def validHeader : Bool :=
  read32 image 0 == ELF_MAGIC && (image 4).toNat == 1 && (image 5).toNat == 1 &&
    read16 image 18 == 3 && read16 image 16 == 2

def hdrEntry : Nat := read32 image 24
def hdrPhoff : Nat := read32 image 28
def hdrPhentsize : Nat := read16 image 42
def hdrPhnum : Nat := read16 image 44

/-- The program header at an offset in the buffer. -/
def phdrAt (a : Nat) : ElfPhdr where
  type := read32 image a
  offset := read32 image (a + 4)
  vaddr := read32 image (a + 8)
  filesz := read32 image (a + 16)
  memsz := read32 image (a + 20)
  flags := read32 image (a + 24)

def phdrs : List ElfPhdr :=
  (List.range (hdrPhnum image)).map fun i =>
    phdrAt image (u32 (hdrPhoff image + i * hdrPhentsize image))

end headers

/-- A file with one segment, whose bytes are those from the start of the file on. -/
def singleSegment (vaddr filesz memsz flags : Nat) : Memory := fun x =>
  byteOf ([ELF_MAGIC, 0x00010101, 0, 0, 0x00030002, 1, vaddr, 52, 0, 0, 0x00200034, 1, 0,
    PT_LOAD, 0, vaddr, vaddr, filesz, memsz, flags, PAGE_SIZE].getD (x / 4) 0) (x % 4)

/-! ## A segment -/

/-- One round of one of the three loops. -/
inductive LoadAction where
  | map (page flags : Nat)
  | store (virt : Nat) (byte : UInt8)
deriving DecidableEq, Repr

/-- `ph->vaddr & ~0xFFF`. -/
def segmentStart (ph : ElfPhdr) : Nat := ph.vaddr / PAGE_SIZE * PAGE_SIZE

/-- `(ph->vaddr + ph->memsz + 0xFFF) & ~0xFFF`. -/
def segmentEnd (ph : ElfPhdr) : Nat :=
  u32 (ph.vaddr + ph.memsz + 0xFFF) / PAGE_SIZE * PAGE_SIZE

def segmentFlags (ph : ElfPhdr) : Nat :=
  VMM_PRESENT + VMM_USER + if ph.flags / PF_W % 2 = 1 then VMM_WRITABLE else 0

/-- The rounds of the loops. Start and end of the first are multiples of a page, so that
    it has no round where the end has wrapped around. -/
def segmentActions (image : Memory) (ph : ElfPhdr) : List LoadAction :=
  ((List.range ((segmentEnd ph - segmentStart ph) / PAGE_SIZE)).map fun k =>
    .map (segmentStart ph + k * PAGE_SIZE) (segmentFlags ph)) ++
  ((List.range ph.filesz).map fun j =>
    .store (u32 (ph.vaddr + j)) (image (u32 (ph.offset + j)))) ++
  ((List.range (sub32 ph.memsz ph.filesz)).map fun j =>
    .store (u32 (u32 (ph.vaddr + ph.filesz) + j)) 0)

/-- `info` after a segment. -/
def ElfInfo.add (info : ElfInfo) (ph : ElfPhdr) : ElfInfo :=
  let loadAddr := if ph.vaddr < info.loadAddr then ph.vaddr else info.loadAddr
  { info with
    loadAddr := loadAddr
    size := if u32 (ph.vaddr + ph.memsz) > info.size then sub32 (u32 (ph.vaddr + ph.memsz)) loadAddr
      else info.size }

/-! ## Loading -/

namespace Machine

/-- A byte store through a space. Where nothing is mapped the processor faults. -/
def storeByte (m : Machine) (active virt : Nat) (byte : UInt8) : Machine :=
  match translate m.mem active virt with
  | some t => { m with mem := Function.update m.mem t.addr byte }
  | none => m

/-- A new page for a segment; whether there was one. The result of `vmm_map` is not
    looked at. -/
def mapNew (m : Machine) (space page flags : Nat) : Bool × Machine :=
  let (phys, pmm) := m.pmm.pmmAllocPage
  if phys = 0 then (false, { m with pmm := pmm })
  else (true, (vmmMap { m with pmm := pmm } space page phys flags).2)

end Machine

structure Load where
  machine : Machine
  info : ElfInfo
  stray : List Nat

namespace Load

def store (l : Load) (active virt : Nat) (byte : UInt8) : Load :=
  { l with
    machine := l.machine.storeByte active virt byte
    stray := if userMapped l.machine.mem active virt then l.stray else virt :: l.stray }

/-- One round, and whether the loop goes on. -/
def act (space active : Nat) (l : Load) : LoadAction → Bool × Load
  | .map page flags =>
      ((l.machine.mapNew space page flags).1,
        { l with machine := (l.machine.mapNew space page flags).2 })
  | .store virt byte => (true, l.store active virt byte)

def perform (space active : Nat) (l : Load) : List LoadAction → Bool × Load
  | [] => (true, l)
  | a :: rest =>
      let (ok, l') := l.act space active a
      if ok then l'.perform space active rest else (false, l')

/-- The loop over the headers; whether it came to its end. -/
def loadSegments (image : Memory) (space active : Nat) (l : Load) : List ElfPhdr → Bool × Load
  | [] => (true, l)
  | ph :: rest =>
      if ph.type ≠ PT_LOAD then l.loadSegments image space active rest
      else
        let (ok, l') := l.perform space active (segmentActions image ph)
        if ok then { l' with info := l'.info.add ph }.loadSegments image space active rest
        else (false, l')

end Load

/-- `elf_load_into` with the active space. `file` is `none` if there is no node, no buffer
    or the file cannot be read; `m` is the machine once the file is in the buffer. -/
def elfLoadInto (file : Option Memory) (space active : Nat) (m : Machine) (info : ElfInfo) :
    Int × Load :=
  match file with
  | none => (-1, ⟨m, info, []⟩)
  | some image =>
      if validHeader image then
        let (ok, l) := Load.loadSegments image space active ⟨m, ⟨hdrEntry image, 0xFFFFFFFF, 0⟩, []⟩
          (phdrs image)
        (if ok then 0 else -1, l)
      else (-1, ⟨m, info, []⟩)

/-- The rounds of all loops of a load that has the pages it asks for. -/
def fileActions (image : Memory) : List LoadAction :=
  ((phdrs image).filter fun ph => ph.type = PT_LOAD).flatMap (segmentActions image)

def loadActions : Option Memory → List LoadAction
  | none => []
  | some image => if validHeader image then fileActions image else []

/-! ## A load is the list of its rounds -/

namespace Load

variable (space active : Nat)

theorem perform_cons (l : Load) (a : LoadAction) (as : List LoadAction) :
    l.perform space active (a :: as) =
      if (l.act space active a).1 then (l.act space active a).2.perform space active as
      else (false, (l.act space active a).2) := rfl

/-- A round that maps a page, without and with a page for it. -/
theorem act_map_none {l : Load} {pmm : Pmm} (page flags : Nat)
    (halloc : l.machine.pmm.pmmAllocPage = (0, pmm)) :
    l.act space active (.map page flags) =
      (false, { l with machine := { l.machine with pmm := pmm } }) := by
  rw [act, Machine.mapNew, halloc]
  rfl

theorem act_map_some {l : Load} {pmm : Pmm} {phys : Nat} (page flags : Nat)
    (halloc : l.machine.pmm.pmmAllocPage = (phys, pmm)) (hne : phys ≠ 0) :
    l.act space active (.map page flags) =
      (true,
        { l with
          machine := (Machine.vmmMap { l.machine with pmm := pmm } space page phys flags).2 }) := by
  have hnew : l.machine.mapNew space page flags =
      (true, (Machine.vmmMap { l.machine with pmm := pmm } space page phys flags).2) := by
    rw [Machine.mapNew, halloc]
    exact if_neg hne
  rw [act, hnew]

theorem perform_append (l : Load) (as bs : List LoadAction) :
    l.perform space active (as ++ bs) =
      if (l.perform space active as).1 then (l.perform space active as).2.perform space active bs
      else l.perform space active as := by
  induction as generalizing l with
  | nil => rfl
  | cons a as ih =>
      rw [List.cons_append, perform_cons, perform_cons]
      cases hok : (l.act space active a).1 with
      | true => rw [if_pos rfl, if_pos rfl, ih]
      | false => rfl

/-- The information record is not read by the loops. -/
theorem perform_info (l : Load) (info : ElfInfo) (as : List LoadAction) :
    { l with info := info }.perform space active as =
      ((l.perform space active as).1, { (l.perform space active as).2 with info := info }) := by
  induction as generalizing l with
  | nil => rfl
  | cons a as ih =>
      have hact : { l with info := info }.act space active a =
          ((l.act space active a).1, { (l.act space active a).2 with info := info }) := by
        cases a with
        | map page flags => rfl
        | store virt byte => rfl
      rw [perform_cons, perform_cons, hact]
      cases hok : (l.act space active a).1 with
      | true =>
          rw [if_pos rfl, if_pos rfl]
          exact ih _
      | false => rfl

theorem loadSegments_eq_perform (image : Memory) (l : Load) (phs : List ElfPhdr) :
    ∃ info, l.loadSegments image space active phs =
      ((l.perform space active
          ((phs.filter fun ph => ph.type = PT_LOAD).flatMap (segmentActions image))).1,
        { (l.perform space active
          ((phs.filter fun ph => ph.type = PT_LOAD).flatMap (segmentActions image))).2 with
            info := info }) := by
  induction phs generalizing l with
  | nil => exact ⟨l.info, rfl⟩
  | cons ph phs ih =>
      by_cases htype : ph.type = PT_LOAD
      · rw [loadSegments, if_neg (not_not_intro htype),
          List.filter_cons_of_pos (by simpa using htype), List.flatMap_cons, perform_append]
        cases hperform : l.perform space active (segmentActions image ph) with
        | mk ok l' =>
          cases ok with
          | true =>
              obtain ⟨info, hrest⟩ := ih { l' with info := l'.info.add ph }
              rw [perform_info] at hrest
              exact ⟨info, hrest⟩
          | false => exact ⟨l'.info, rfl⟩
      · rw [loadSegments, if_pos htype, List.filter_cons_of_neg (by simpa using htype)]
        exact ih l

end Load

/-- What a load does to the machine, and where its stores went. -/
theorem elfLoadInto_eq_perform (file : Option Memory) (space active : Nat) (m : Machine)
    (info : ElfInfo) :
    (elfLoadInto file space active m info).2.machine =
        (Load.perform space active ⟨m, info, []⟩ (loadActions file)).2.machine ∧
      (elfLoadInto file space active m info).2.stray =
        (Load.perform space active ⟨m, info, []⟩ (loadActions file)).2.stray := by
  cases file with
  | none => exact ⟨rfl, rfl⟩
  | some image =>
      rw [elfLoadInto, loadActions]
      cases hvalid : validHeader image with
      | false => exact ⟨rfl, rfl⟩
      | true =>
          obtain ⟨info', hload⟩ := Load.loadSegments_eq_perform space active image
            ⟨m, ⟨hdrEntry image, 0xFFFFFFFF, 0⟩, []⟩ (phdrs image)
          have hinfo := Load.perform_info space active ⟨m, info, []⟩ ⟨hdrEntry image, 0xFFFFFFFF, 0⟩
            (fileActions image)
          rw [if_pos rfl, if_pos rfl, hload, ← fileActions, hinfo]
          exact ⟨rfl, rfl⟩

end NemoOS
