import NemoOS.FsNodes
import NemoOS.Kmalloc
import NemoOS.Lib.CStrings
import NemoOS.Lib.SinglyLinked

/-!
# RAMFS in memory

The functions of `fs/ramfs.cpp` on the bytes of the heap. A `ramfs_node` is a block of 436
bytes: the `vfs_node`, with 128 bytes for the name, the three links and 256 bytes of data.
The name is copied without a bound before the other fields are assigned, so that a long one
runs through them. `node_pool` is never read, of it there is only the count.

The nodes of `FsNodes` are what the file system layer sees of these blocks.
-/

namespace NemoOS

open Words Bytes Loops Linked

namespace Ramfs

/-! ## Nodes -/

def MAX_DATA : Nat := 256

def NODE_SIZE : Nat := 436

/-- The offset of `data`. -/
def DATA : Nat := 180

/-- The words of a `ramfs_node`, in order; `parentNode` is the `parent` behind the
    `vfs_node`. -/
inductive NodeField where
  | flags
  | size
  | inode
  | impl
  | parent
  | destroy
  | read
  | write
  | readdir
  | finddir
  | nextSibling
  | firstChild
  | parentNode
deriving DecidableEq, Repr

def NodeField.offset : NodeField → Nat
  | .flags => 128
  | .size => 132
  | .inode => 136
  | .impl => 140
  | .parent => 144
  | .destroy => 148
  | .read => 152
  | .write => 156
  | .readdir => 160
  | .finddir => 164
  | .nextSibling => 168
  | .firstChild => 172
  | .parentNode => 176

def nodeField (m : Memory) (f : NodeField) (n : Nat) : Nat := read32 m (n + f.offset)

def setNodeField (m : Memory) (f : NodeField) (n v : Nat) : Memory := write32 m (n + f.offset) v

/-- Assignments one after the other. -/
def setFields (m : Memory) (n : Nat) (fields : List (NodeField × Nat)) : Memory :=
  fields.foldl (fun m assigned => setNodeField m assigned.1 n assigned.2) m

/-- `node->flags & flag`. -/
def hasFlag (m : Memory) (flag : UInt32) (n : Nat) : Bool :=
  nodeField m .flags n &&& flag.toNat != 0

def flagsOf (dir : Bool) : Nat := if dir then FS_DIR.toNat else FS_FILE.toNat

/-- The addresses of the functions that a node points to. -/
structure Callbacks where
  destroy : Nat
  read : Nat
  write : Nat
  readdir : Nat
  finddir : Nat

/-! ## Creating nodes -/

structure RamfsState where
  heap : Heap
  poolCount : Nat

def RamfsState.mem (s : RamfsState) : Memory := s.heap.mem

/-- `alloc_node`; `none` if `kmalloc` does not return. -/
def allocNode (s : RamfsState) : Option (Nat × RamfsState) :=
  if s.poolCount ≥ POOL_SIZE then some (0, s)
  else
    match s.heap.kmalloc NODE_SIZE with
    | none => none
    | some (n, heap) =>
        if n = 0 then some (0, { s with heap := heap })
        else some (n, { heap := heap, poolCount := s.poolCount + 1 })

/-- What is assigned to the fields of a new node. -/
def nodeFields (cb : Callbacks) (dir : Bool) (inode parent : Nat) : List (NodeField × Nat) :=
  [(.flags, flagsOf dir),
   (.size, 0),
   (.inode, inode),
   (.impl, 0),
   (.parent, parent),
   (.destroy, cb.destroy),
   (.read, if dir then 0 else cb.read),
   (.write, if dir then 0 else cb.write),
   (.readdir, if dir then cb.readdir else 0),
   (.finddir, if dir then cb.finddir else 0),
   (.nextSibling, 0),
   (.firstChild, 0),
   (.parentNode, parent)]

/-- The name, and then the other fields. -/
def initNode (m : Memory) (n : Nat) (name : CString) (fields : List (NodeField × Nat)) : Memory :=
  setFields (strcpy m n name) n fields

/-- `n->next_sibling = pn->first_child; pn->first_child = n`. -/
def linkChild (m : Memory) (n parent : Nat) : Memory :=
  setNodeField (setNodeField m .nextSibling n (nodeField m .firstChild parent)) .firstChild parent n

/-- `ramfs_create_root`. -/
def createRoot (cb : Callbacks) (s : RamfsState) : Option (Nat × RamfsState) :=
  match allocNode s with
  | none => none
  | some (n, s) =>
      if n = 0 then some (0, s)
      else
        let m := initNode s.mem n [SLASH] (nodeFields cb true 0 n)
        some (n, { s with heap := { s.heap with mem := m } })

/-- `ramfs_create_file` and `ramfs_create_dir`: the node, 0 for `nullptr`, and the new state. -/
def create (cb : Callbacks) (dir : Bool) (s : RamfsState) (parent : Nat) (name : CString) :
    Option (Nat × RamfsState) :=
  if parent = 0 ∨ hasFlag s.mem FS_DIR parent = false then some (0, s)
  else
    match allocNode s with
    | none => none
    | some (n, s) =>
        if n = 0 then some (0, s)
        else
          let m := initNode s.mem n name (nodeFields cb dir n parent)
          some (n, { s with heap := { s.heap with mem := linkChild m n parent } })

def createFile (cb : Callbacks) := create cb false

def createDir (cb : Callbacks) := create cb true

/-! ## Files -/

/-- `ramfs_read`: what it returns and the bytes it stores to the buffer. -/
def read (m : Memory) (node offset size : Nat) : Int × List UInt8 :=
  if node = 0 ∨ hasFlag m FS_FILE node = false then (-1, [])
  else if offset ≥ nodeField m .size node then (0, [])
  else
    let remain := nodeField m .size node - offset
    let n := if size > remain then remain else size
    (toInt32 (UInt32.ofNat n),
      (List.range n).map fun i => m (u32 (node + DATA + u32 (offset + i))))

/-- The size after `if(offset + size > MAX_DATA) size = MAX_DATA - offset`. -/
def writeSize (offset size : Nat) : Nat :=
  if u32 (offset + size) > MAX_DATA then sub32 MAX_DATA offset else size

/-- `ramfs_write`, with what `buf` holds. -/
def write (m : Memory) (node offset size : Nat) (buf : Nat → UInt8) : Int × Memory :=
  if node = 0 ∨ hasFlag m FS_FILE node = false then (-1, m)
  else
    let n := writeSize offset size
    let m := storeBytes m (node + DATA + offset) ((List.range n).map buf)
    (toInt32 (UInt32.ofNat n),
      if u32 (offset + n) > nodeField m .size node then
        setNodeField m .size node (u32 (offset + n))
      else m)

/-! ## Directories -/

/-- What `ramfs_readdir` leaves in `child`. -/
structure DirEntry where
  name : CString
  flags : Nat
  size : Nat
  inode : Nat
  impl : Nat
deriving DecidableEq

/-- The string in a `name` that a string was copied to before `flags` behind it was assigned. -/
def nameField (flags : Nat) (name : CString) : CString :=
  if name.length < 128 then name
  else name.take 128 ++ ((List.range 4).map (byteOf flags)).takeWhile (· ≠ 0)

def dirEntry (m : Memory) (cur : Nat) (name : CString) : DirEntry where
  name := nameField (nodeField m .flags cur) name
  flags := nodeField m .flags cur
  size := nodeField m .size cur
  inode := cur
  impl := nodeField m .impl cur

/-- `ramfs_readdir`; `none` is the result -1. -/
def ReaddirReturns (m : Memory) (node index : Nat) (r : Option DirEntry) : Prop :=
  if node = 0 ∨ hasFlag m FS_DIR node = false then r = none
  else
    ∃ c, Halts (indexStep (nodeField m .nextSibling) 0 index) (nodeField m .firstChild node, 0) c ∧
      match c with
      | none => r = none
      | some cur => ∃ name, StringAt m cur name ∧ r = some (dirEntry m cur name)

/-- `ramfs_finddir`. -/
def FinddirReturns (m : Memory) (node : Nat) (name : CString) (r : Option Nat) : Prop :=
  if node = 0 ∨ hasFlag m FS_DIR node = false then r = none
  else
    Halts (searchStep (nodeField m .nextSibling) 0 fun cur => strcmp m cur name == 0)
      (nodeField m .firstChild node) r

end Ramfs

end NemoOS
