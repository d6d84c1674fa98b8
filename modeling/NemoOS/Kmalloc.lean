import NemoOS.Lib.ByteMemory
import NemoOS.Lib.Loops
import NemoOS.Pmm

/-!
# The kernel heap

`memory/kmalloc.cpp` on byte-addressed memory: block headers, footers and the links
of the free list are words of the same memory as the payloads. Pointers are
addresses, 0 is `nullptr`.

A walk along the free list that has not come to its end after `2 ^ 32` blocks has
visited one of them twice and never ends. The functions that walk the list return
`none` in that case.
-/

namespace NemoOS

open Words Bytes Loops

def HEAP_MAGIC : Nat := 0xDEAD
def MIN_BLOCK : Nat := 32
def HEAP_GROW : Nat := 64 * 1024
def HEADER_SIZE : Nat := 16

/-- The fields of a `heap_header`. -/
inductive HeaderField where
  | size
  | magic
  | next
  | prev
deriving DecidableEq, Repr

def HeaderField.offset : HeaderField → Nat
  | .size => 0
  | .magic => 4
  | .next => 8
  | .prev => 12

def field (m : Memory) (f : HeaderField) (h : Nat) : Nat := read32 m (h + f.offset)

def setField (m : Memory) (f : HeaderField) (h v : Nat) : Memory := write32 m (h + f.offset) v

/-- `if(n) n->f = v`. -/
def setLink (m : Memory) (f : HeaderField) (n v : Nat) : Memory :=
  if n ≠ 0 then setField m f n v else m

/-- `*(uint32_t*)((uint8_t*)h + h->size - 4) = h->size`. -/
def setFooter (m : Memory) (h : Nat) : Memory :=
  write32 m (sub32 (h + field m .size h) 4) (field m .size h)

def nextBlock (m : Memory) (h : Nat) : Nat := u32 (h + field m .size h)

def prevBlock (m : Memory) (h : Nat) : Nat := sub32 h (read32 m (sub32 h 4))

/-- The header words every new block gets: its size, the magic and the footer. -/
def formatBlock (m : Memory) (b size : Nat) : Memory :=
  setFooter (setField (setField m .size b size) .magic b HEAP_MAGIC) b

/-- The memory, the two globals of the allocator and the page allocator below it. -/
structure Heap where
  mem : Memory
  freeList : Nat
  heapEnd : Nat
  pmm : Pmm

/-- The rounds after which a walk along the list never ends. -/
def WALK_LIMIT : Nat := 2 ^ 32

namespace Heap

def hasNext (s : Heap) (h : Nat) : Bool := nextBlock s.mem h < s.heapEnd

def hasPrev (s : Heap) (h : Nat) : Bool := h > sub32 s.heapEnd HEAP_GROW

/-! ## The free list -/

def listRemove (s : Heap) (h : Nat) : Heap :=
  let m₁ := setLink s.mem .next (field s.mem .prev h) (field s.mem .next h)
  let m₂ := setLink m₁ .prev (field m₁ .next h) (field m₁ .prev h)
  { s with mem := m₂, freeList := if s.freeList = h then field m₂ .next h else s.freeList }

/-- `while(last->next) last = last->next`. -/
def lastStep (m : Memory) (last : Nat) : Nat ⊕ Nat :=
  if field m .next last ≠ 0 then .inl (field m .next last) else .inr last

def listAppend (s : Heap) (h : Nat) : Option Heap :=
  let m := setField (setField s.mem .next h 0) .prev h 0
  if s.freeList = 0 then some { s with mem := m, freeList := h }
  else
    match loop (lastStep m) WALK_LIMIT s.freeList with
    | none => none
    | some last => some { s with mem := setField (setField m .next last h) .prev h last }

/-! ## Initialisation and growth -/

/-- `kmalloc_init`; `none` for the panic when there is no page. -/
def kmallocInit (mem : Memory) (pmm : Pmm) : Option Heap :=
  let (initial, pmm) := pmm.pmmAllocPage
  if initial = 0 then none
  else
    some {
      mem := setField (setField (formatBlock mem initial 4096) .next initial 0) .prev initial 0
      freeList := initial
      heapEnd := u32 (initial + 4096)
      pmm := pmm }

/-- The loop that takes the pages after `first`, from the `i`-th on with `n` to go:
    whether all of them were contiguous. -/
def takeContiguous (first i : Nat) (pmm : Pmm) : Nat → Bool × Pmm
  | 0 => (true, pmm)
  | n + 1 =>
      let (page, pmm) := pmm.pmmAllocPage
      if page = 0 then (false, pmm)
      else if page ≠ u32 (first + i * 4096) then (false, pmm.pmmFreePage page)
      else takeContiguous first (i + 1) pmm n

/-- The loop that adds single pages, with `n` to go. -/
def addPages (s : Heap) : Nat → Option Heap
  | 0 => some s
  | n + 1 =>
      let (page, pmm) := s.pmm.pmmAllocPage
      if page = 0 then some { s with pmm := pmm }
      else
        let s' : Heap :=
          { s with mem := formatBlock s.mem page 4096, heapEnd := u32 (page + 4096), pmm := pmm }
        match s'.listAppend page with
        | none => none
        | some s'' => s''.addPages n

def heapGrow (s : Heap) : Option Heap :=
  let pages := (HEAP_GROW + 4095) / 4096
  let (first, pmm) := s.pmm.pmmAllocPage
  if first = 0 then some { s with pmm := pmm }
  else
    let (contiguous, pmm) := takeContiguous first 1 pmm (pages - 1)
    if contiguous then
      let s' : Heap :=
        { s with
          mem := formatBlock s.mem first (pages * 4096)
          heapEnd := u32 (first + pages * 4096)
          pmm := pmm }
      s'.listAppend first
    else ({ s with pmm := pmm } : Heap).addPages pages

/-! ## Allocation -/

/-- One round of the search: `none` at the end of the list. -/
def fitStep (m : Memory) (needed h : Nat) : Nat ⊕ Option Nat :=
  if h = 0 then .inr none
  else if field m .size h ≥ needed then .inr (some h)
  else .inl (field m .next h)

/-- The new block behind `h` takes the place of `h` in the list. -/
def splitBlock (s : Heap) (h needed : Nat) : Heap :=
  let leftover := field s.mem .size h - needed
  let split := u32 (h + needed)
  let m₁ := formatBlock s.mem split leftover
  let m₂ := setField m₁ .next split (field m₁ .next h)
  let m₃ := setField m₂ .prev split (field m₂ .prev h)
  let m₄ := setLink m₃ .prev (field m₃ .next h) split
  let m₅ := setLink m₄ .next (field m₄ .prev h) split
  { s with
    mem := setField m₅ .size h needed
    freeList := if field m₄ .prev h ≠ 0 then s.freeList else split }

/-- What `kmalloc` does with a block of sufficient size: the payload and the new
    state. -/
def takeBlock (s : Heap) (h needed : Nat) : Nat × Heap :=
  let s' :=
    if field s.mem .size h - needed ≥ MIN_BLOCK then s.splitBlock h needed else s.listRemove h
  let m := setFooter s'.mem h
  (u32 (h + HEADER_SIZE),
    { s' with mem := fill m (u32 (h + HEADER_SIZE)) 0 (sub32 (field m .size h) 20) })

/-- The block size `kmalloc` looks for. -/
def neededFor (size : Nat) : Nat :=
  max MIN_BLOCK (u32 (u32 (size + 7) / 8 * 8 + HEADER_SIZE + 4))

/-- The payload, 0 for `nullptr`, and the new state. -/
def kmalloc (s : Heap) (size : Nat) : Option (Nat × Heap) :=
  if size = 0 then some (0, s)
  else
    match loop (fitStep s.mem (neededFor size)) WALK_LIMIT s.freeList with
    | none => none
    | some (some h) => some (s.takeBlock h (neededFor size))
    | some none =>
        match s.heapGrow with
        | none => none
        | some s =>
            match loop (fitStep s.mem (neededFor size)) WALK_LIMIT s.freeList with
            | none => none
            | some (some h) => some (s.takeBlock h (neededFor size))
            | some none => some (0, s)

/-! ## Release -/

def mergePrev (s : Heap) (h : Nat) : Bool :=
  s.hasPrev h && field s.mem .magic (prevBlock s.mem h) == HEAP_MAGIC

def mergeNext (s : Heap) (h : Nat) : Bool :=
  s.hasNext h && field s.mem .magic (nextBlock s.mem h) == HEAP_MAGIC

/-- `b->size += more; set_footer(b)`. -/
def enlarge (m : Memory) (b more : Nat) : Memory :=
  setFooter (setField m .size b (u32 (field m .size b + more))) b

/-- What `kfree` does with a block once it has seen the magic. -/
def release (s : Heap) (h : Nat) : Option Heap :=
  let p := prevBlock s.mem h
  let n := nextBlock s.mem h
  if s.mergePrev h && s.mergeNext h then
    let s' := (s.listRemove p).listRemove n
    let more := u32 (field s'.mem .size h + field s'.mem .size n)
    ({ s' with mem := enlarge s'.mem p more } : Heap).listAppend p
  else if s.mergePrev h then
    let s' := s.listRemove p
    some { s' with mem := enlarge s'.mem p (field s'.mem .size h) }
  else if s.mergeNext h then
    let s' := s.listRemove n
    ({ s' with mem := enlarge s'.mem h (field s'.mem .size n) } : Heap).listAppend h
  else ({ s with mem := setFooter (setField s.mem .magic h HEAP_MAGIC) h } : Heap).listAppend h

def kfree (s : Heap) (ptr : Nat) : Option Heap :=
  if ptr = 0 then some s
  else
    let h := sub32 ptr HEADER_SIZE
    if field s.mem .magic h ≠ HEAP_MAGIC then some s else s.release h

end Heap

end NemoOS
