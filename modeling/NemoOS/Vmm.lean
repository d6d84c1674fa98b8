import NemoOS.Lib.ByteMemory
import NemoOS.Pmm

/-!
# Address spaces

`memory/vmm.cpp` on physical memory. A space is the address of its page directory;
directories and page tables are pages of 1024 words. The kernel reaches them through
its identity map, so a pointer to a table is the physical address of the table.

`translate` is the walk of the processor: the address a virtual address stands for,
with the flags of the two entries that were used. A virtual address can be used in
ring 3 if both entries have the user bit.

The processor's translation buffer is not modelled; `vmm_map` and `vmm_unmap`
invalidate the entry they change.
-/

namespace NemoOS

open Words Bytes

def VMM_PRESENT : Nat := 1
def VMM_WRITABLE : Nat := 2
def VMM_USER : Nat := 4

/-! ## Entries -/

/-- `e & VMM_PRESENT`. -/
def isPresent (e : Nat) : Bool := e % 2 == 1

/-- `e & VMM_WRITABLE`. -/
def isWritable (e : Nat) : Bool := e / 2 % 2 == 1

/-- `e & VMM_USER`. -/
def isUser (e : Nat) : Bool := e / 4 % 2 == 1

/-- `e & 0xFFFFF000`. -/
def frame (e : Nat) : Nat := e / PAGE_SIZE * PAGE_SIZE

/-- `e & 0xFFF`. -/
def flagBits (e : Nat) : Nat := e % PAGE_SIZE

/-- The number of entries of a directory or a table. -/
def ENTRIES : Nat := 1024

def entryAt (m : Memory) (table i : Nat) : Nat := read32 m (table + 4 * i)

def setEntry (m : Memory) (table i e : Nat) : Memory := write32 m (table + 4 * i) e

def pdIdx (virt : Nat) : Nat := virt / 2 ^ 22
def ptIdx (virt : Nat) : Nat := virt / 2 ^ 12 % 1024

/-! ## Translation -/

structure Translation where
  addr : Nat
  directoryFlags : Nat
  tableFlags : Nat
deriving DecidableEq, Repr

def translate (m : Memory) (space virt : Nat) : Option Translation :=
  let pde := entryAt m space (pdIdx virt)
  let pte := entryAt m (frame pde) (ptIdx virt)
  if isPresent pde && isPresent pte then
    some ⟨frame pte + virt % PAGE_SIZE, flagBits pde, flagBits pte⟩
  else none

/-- The space maps the address with the user bit. -/
def userMapped (m : Memory) (space virt : Nat) : Bool :=
  match translate m space virt with
  | some t => isUser t.directoryFlags && isUser t.tableFlags
  | none => false

/-- The space maps the address with the user bit and writable. -/
def userWritable (m : Memory) (space virt : Nat) : Bool :=
  match translate m space virt with
  | some t =>
      isUser t.directoryFlags && isUser t.tableFlags && isWritable t.directoryFlags &&
        isWritable t.tableFlags
  | none => false

/-- The bytes at the addresses of a space; 0 where nothing is mapped. -/
def viewOf (m : Memory) (space : Nat) : Nat → UInt8 := fun virt =>
  match translate m space virt with
  | some t => m t.addr
  | none => 0

/-- A directory at `0x1000` and a table at `0x2000` that maps the first four MiB to
    themselves, as `paging_init` sets it up; all other bytes are 0. -/
def identityMemory : Memory := fun x =>
  if 0x1000 ≤ x ∧ x < 0x1004 then byteOf 0x2003 (x % 4)
  else if 0x2000 ≤ x ∧ x < 0x3000 then byteOf ((x - 0x2000) / 4 * PAGE_SIZE + 3) (x % 4)
  else 0

/-! ## The functions of `vmm.cpp` -/

/-- Physical memory, the page allocator and the directory of the kernel space. -/
structure Machine where
  mem : Memory
  pmm : Pmm
  kernelSpace : Nat

/-- The copy of one page to another. -/
def copyPage (m : Memory) (dst src : Nat) : Memory := fun x =>
  if dst ≤ x ∧ x < dst + PAGE_SIZE then m (src + (x - dst)) else m x

namespace Machine

/-- Gives the tables of the first `n` slots back that have the user bit. -/
def freeTables (m : Machine) (dir : Nat) : Nat → Pmm
  | 0 => m.pmm
  | n + 1 =>
      let pmm := m.freeTables dir n
      if isUser (entryAt m.mem dir n) then pmm.pmmFreePage (frame (entryAt m.mem dir n)) else pmm

/-- The loop of `vmm_create_space` from slot `i`, with `n` slots to go: whether it came
    to its end. -/
def fillDirectory (dir i : Nat) (m : Machine) : Nat → Bool × Machine
  | 0 => (true, m)
  | n + 1 =>
      let entry := entryAt m.mem m.kernelSpace i
      if !isPresent entry then
        fillDirectory dir (i + 1) { m with mem := setEntry m.mem dir i 0 } n
      else if isUser entry then
        let (table, pmm) := m.pmm.pmmAllocPage
        if table = 0 then
          (false, { m with pmm := (freeTables { m with pmm := pmm } dir i).pmmFreePage dir })
        else
          let mem := copyPage m.mem table (frame entry)
          fillDirectory dir (i + 1)
            { m with mem := setEntry mem dir i (table + flagBits entry), pmm := pmm } n
      else fillDirectory dir (i + 1) { m with mem := setEntry m.mem dir i entry } n

/-- The new space, 0 if there are not enough pages. -/
def vmmCreateSpace (m : Machine) : Nat × Machine :=
  let (dir, pmm) := m.pmm.pmmAllocPage
  if dir = 0 then (0, { m with pmm := pmm })
  else
    let (ok, m') := fillDirectory dir 0 { m with pmm := pmm } ENTRIES
    (if ok then dir else 0, m')

/-- `pt[pt_idx] = (phys & 0xFFFFF000) | (flags & 0xFFF)`, in the table of the slot. -/
def setPage (m : Memory) (space virt phys flags : Nat) : Memory :=
  setEntry m (frame (entryAt m space (pdIdx virt))) (ptIdx virt) (frame phys + flagBits flags)

/-- Whether the page was mapped; `vmm_map` returns -1 if not. -/
def vmmMap (m : Machine) (space virt phys flags : Nat) : Bool × Machine :=
  if isPresent (entryAt m.mem space (pdIdx virt)) then
    (true, { m with mem := setPage m.mem space virt phys flags })
  else
    let (table, pmm) := m.pmm.pmmAllocPage
    if table = 0 then (false, { m with pmm := pmm })
    else
      let mem := setEntry (fill m.mem table 0 PAGE_SIZE) space (pdIdx virt)
        (table + (VMM_PRESENT + VMM_WRITABLE + VMM_USER))
      (true, { m with mem := setPage mem space virt phys flags, pmm := pmm })

/-- `vmm_unmap`, which always returns 0. -/
def vmmUnmap (m : Machine) (space virt : Nat) : Machine :=
  if isPresent (entryAt m.mem space (pdIdx virt)) then
    { m with mem := setEntry m.mem (frame (entryAt m.mem space (pdIdx virt))) (ptIdx virt) 0 }
  else m

/-- Gives the tables of the first `n` slots back that are present with the user bit. -/
def freeUserTables (m : Machine) (dir : Nat) : Nat → Pmm
  | 0 => m.pmm
  | n + 1 =>
      let pmm := m.freeUserTables dir n
      if isPresent (entryAt m.mem dir n) && isUser (entryAt m.mem dir n) then
        pmm.pmmFreePage (frame (entryAt m.mem dir n))
      else pmm

def vmmDestroySpace (m : Machine) (space : Nat) : Machine :=
  if space = 0 then m
  else { m with pmm := (m.freeUserTables space ENTRIES).pmmFreePage space }

/-- The three ways that `vmm_map` can go: the slot has a table, there is no page for one, or
    a new table is put into the slot first. -/
theorem vmmMap_inversion (m : Machine) (space virt phys flags : Nat) :
    (isPresent (entryAt m.mem space (pdIdx virt)) = true ∧
        m.vmmMap space virt phys flags =
          (true, { m with mem := setPage m.mem space virt phys flags })) ∨
      (isPresent (entryAt m.mem space (pdIdx virt)) = false ∧ ∃ pmm,
        m.pmm.pmmAllocPage = (0, pmm) ∧
          m.vmmMap space virt phys flags = (false, { m with pmm := pmm })) ∨
      isPresent (entryAt m.mem space (pdIdx virt)) = false ∧ ∃ table pmm mem,
        m.pmm.pmmAllocPage = (table, pmm) ∧ table ≠ 0 ∧
          mem = setEntry (fill m.mem table 0 PAGE_SIZE) space (pdIdx virt)
            (table + (VMM_PRESENT + VMM_WRITABLE + VMM_USER)) ∧
          m.vmmMap space virt phys flags =
            (true, { m with mem := setPage mem space virt phys flags, pmm := pmm }) := by
  rw [vmmMap]
  cases hpresent : isPresent (entryAt m.mem space (pdIdx virt)) with
  | true => exact .inl ⟨rfl, if_pos rfl⟩
  | false =>
      rw [if_neg Bool.false_ne_true]
      rcases halloc : m.pmm.pmmAllocPage with ⟨table, pmm⟩
      dsimp only
      by_cases hzero : table = 0
      · subst hzero
        exact .inr (.inl ⟨rfl, pmm, rfl, if_pos rfl⟩)
      · exact .inr (.inr ⟨rfl, table, pmm, _, rfl, hzero, rfl, if_neg hzero⟩)

theorem vmmMap_kernelSpace (m : Machine) (space virt phys flags : Nat) :
    (m.vmmMap space virt phys flags).2.kernelSpace = m.kernelSpace := by
  rcases m.vmmMap_inversion space virt phys flags with
    ⟨-, hcall⟩ | ⟨-, pmm, -, hcall⟩ | ⟨-, table, pmm, mem, -, -, -, hcall⟩
  · rw [hcall]
  · rw [hcall]
  · rw [hcall]

theorem vmmUnmap_kernelSpace (m : Machine) (space virt : Nat) :
    (m.vmmUnmap space virt).kernelSpace = m.kernelSpace := by
  rw [Machine.vmmUnmap]
  split <;> rfl

end Machine

end NemoOS
