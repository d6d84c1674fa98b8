import Mathlib
import NemoOS.Fat32Dir

/-!
# Nodes of both file systems

`ramfs_node` and `fat32_node` both begin with a `vfs_node`, and everything outside the two
drivers handles them as pointers to it. An `FsNode` is such a block of memory: what the
functions below use of the `vfs_node`, and the three words behind it, at offsets 168, 172
and 176. They are `next_sibling`, `first_child` and `parent` of a `ramfs_node`, and `fs`,
`first_cluster` and `is_dir` of a `fat32_node`.

The functions of `fs/ramfs.cpp` cast a `vfs_node` to a `ramfs_node` without a look at
which of the two it is.
-/

namespace NemoOS

open Loops

/-- Which structure a block was allocated as. -/
inductive FsKind where
  | ramfs
  | fat32
deriving DecidableEq, Repr

/-- `dir` is whether `flags` has `FS_DIR`, it is `FS_FILE` otherwise. Pointers are addresses,
    0 is `nullptr`. -/
structure FsNode where
  kind : FsKind
  name : CString
  dir : Bool
  parent : Nat
  word168 : Nat
  word172 : Nat
  word176 : Nat
deriving DecidableEq

namespace FsNode

/-- The `finddir` of a node: directories have that of their file system, files have none. -/
def finddir (n : FsNode) : Option FsKind := if n.dir then some n.kind else none

def nextSibling (n : FsNode) : Nat := n.word168

def firstChild (n : FsNode) : Nat := n.word172

/-- What `fat32_finddir` reads of the node, with the `fat32_fs` its `fs` points to. -/
def fat32Node (volumes : Nat → Fat32Fs) (n : FsNode) : Fat32Node where
  fs := volumes n.word168
  firstCluster := UInt32.ofNat n.word172
  isDir := n.word176 % 256 != 0
  size := 0

end FsNode

/-- The blocks in which there are nodes, by address. -/
abbrev NodeMemory := Nat → Option FsNode

/-- The nodes, the number of RAMFS nodes in the pool, the mount table and the directory of
    the shell. -/
structure FsState where
  nodes : NodeMemory
  poolCount : Nat
  mounts : MountTable Nat
  cwd : Nat

/-! ## RAMFS -/

/-- The loop of `ramfs_finddir`. A pointer that is not to a node leads nowhere. -/
def siblingStep (nodes : NodeMemory) (name : CString) (cur : Nat) : Nat ⊕ Option Nat :=
  if cur = 0 then .inr none
  else
    match nodes cur with
    | none => .inl cur
    | some node => if node.name = name then .inr (some cur) else .inl node.nextSibling

def RamfsFinddirReturns (nodes : NodeMemory) (node : FsNode) (name : CString)
    (r : Option Nat) : Prop :=
  if node.dir then Halts (siblingStep nodes name) node.firstChild r else r = none

/-- The string in `name` after `strcpy` and the assignment of `flags`. A name of 128 bytes or
    more runs into the fields behind `char name[128]`; they are assigned after it, and the
    string goes on with the lowest byte of `flags`. -/
def storedName (dir : Bool) (name : CString) : CString :=
  if name.length < 128 then name
  else name.take 128 ++ [if dir then FS_DIR.toUInt8 else FS_FILE.toUInt8]

def POOL_SIZE : Nat := 128

/-- A new node below `parent`, whose children so far are its siblings. -/
def ramfsNode (dir : Bool) (parent : Nat) (pn : FsNode) (name : CString) : FsNode where
  kind := .ramfs
  name := storedName dir name
  dir := dir
  parent := parent
  word168 := pn.firstChild
  word172 := 0
  word176 := parent

/-- The memory with the node `n` in the block, put in front of the children of `parent`. -/
def NodeMemory.addChild (nodes : NodeMemory) (block : Nat) (n : FsNode) (parent : Nat)
    (pn : FsNode) : NodeMemory :=
  Function.update (Function.update nodes block (some n)) parent (some { pn with word172 := block })

/-- `ramfs_create_file` and `ramfs_create_dir`, with the block that `kmalloc` returns. -/
def ramfsCreate (dir : Bool) (s : FsState) (block parent : Nat) (name : CString) :
    Option Nat × FsState :=
  match s.nodes parent with
  | none => (none, s)
  | some pn =>
      if !pn.dir then (none, s)
      else if s.poolCount ≥ POOL_SIZE then (none, s)
      else if block = 0 then (none, s)
      else
        (some block,
          { s with
            poolCount := s.poolCount + 1
            nodes := s.nodes.addChild block (ramfsNode dir parent pn name) parent pn })

def ramfsCreateFile := ramfsCreate false

def ramfsCreateDir := ramfsCreate true

/-- `ramfs_create_root`, with the block that `kmalloc` returns. -/
def ramfsCreateRoot (s : FsState) (block : Nat) : Option Nat × FsState :=
  if s.poolCount ≥ POOL_SIZE then (none, s)
  else if block = 0 then (none, s)
  else
    let n : FsNode :=
      { kind := .ramfs
        name := [SLASH]
        dir := true
        parent := block
        word168 := 0
        word172 := 0
        word176 := block }
    (some block,
      { s with
        poolCount := s.poolCount + 1
        nodes := Function.update s.nodes block (some n) })

/-- Nothing happens, or the new node has been put below the parent. -/
theorem ramfsCreate_cases (dir : Bool) (s : FsState) (block parent : Nat) (name : CString) :
    (ramfsCreate dir s block parent name).2 = s ∨
    ∃ pn, s.nodes parent = some pn ∧ pn.dir = true ∧ s.poolCount < POOL_SIZE ∧ block ≠ 0 ∧
      (ramfsCreate dir s block parent name).2 =
        { s with
          poolCount := s.poolCount + 1
          nodes := s.nodes.addChild block (ramfsNode dir parent pn name) parent pn } := by
  rw [ramfsCreate]
  cases hparent : s.nodes parent with
  | none => exact Or.inl rfl
  | some pn =>
      by_cases hdir : pn.dir = true
      · by_cases hpool : s.poolCount ≥ POOL_SIZE
        · exact Or.inl (by simp [hpool])
        · by_cases hblock : block = 0
          · exact Or.inl (by simp [hblock])
          · exact Or.inr ⟨pn, rfl, hdir, Nat.lt_of_not_le hpool, hblock, by
              simp [hdir, hpool, hblock]⟩
      · exact Or.inl (by simp [hdir])

/-- A block with a node is not one without. -/
theorem NodeMemory.ne_of_some {nodes : NodeMemory} {block m : Nat} {node : FsNode}
    (hblock : nodes block = none) (hm : nodes m = some node) : m ≠ block := by
  rintro rfl
  rw [hblock] at hm
  cases hm

/-- In a memory with one node there is no other. -/
theorem NodeMemory.single_eq_some {block m : Nat} {n node : FsNode}
    (h : Function.update (fun _ : Nat => (none : Option FsNode)) block (some n) m = some node) :
    m = block ∧ node = n := by
  by_cases hm : m = block
  · subst hm
    rw [Function.update_self] at h
    exact ⟨rfl, (Option.some.inj h).symm⟩
  · rw [Function.update_of_ne hm] at h
    cases h

/-- The nodes afterwards: the new one, and the old ones but for the parent's `first_child`. -/
theorem NodeMemory.addChild_eq_some_iff {nodes : NodeMemory} {block parent m : Nat}
    {n pn x : FsNode} (hparent : nodes parent = some pn) (hblock : nodes block = none) :
    nodes.addChild block n parent pn m = some x ↔
      m = block ∧ x = n ∨
      ∃ node, nodes m = some node ∧
        x = { node with word172 := if m = parent then block else node.word172 } := by
  have hne : parent ≠ block := ne_of_some hblock hparent
  by_cases hm : m = parent
  · subst hm
    simp [addChild, hne, hparent, eq_comm]
  · by_cases hmb : m = block
    · subst hmb
      simp [addChild, hm, hblock, eq_comm]
    · simp [addChild, hm, hmb, eq_comm]

/-- An old node keeps everything but the `first_child` of the parent. -/
theorem NodeMemory.addChild_of_some {nodes : NodeMemory} {block parent m : Nat} {n pn node : FsNode}
    (hparent : nodes parent = some pn) (hblock : nodes block = none) (hm : nodes m = some node) :
    nodes.addChild block n parent pn m =
      some { node with word172 := if m = parent then block else node.word172 } :=
  (addChild_eq_some_iff hparent hblock).mpr (Or.inr ⟨node, hm, rfl⟩)

/-! ## FAT32 -/

/-- The device and the `fat32_fs` structures of the mounted volumes. -/
structure Fat32Disk where
  dev : AtaDevice
  volumes : Nat → Fat32Fs

/-- The node that `fat32_finddir` makes for an entry of the directory `n` at address `parent`. -/
def fat32Child (parent : Nat) (n : FsNode) (child : DirChild) (node : Fat32Node) : FsNode where
  kind := .fat32
  name := child.name
  dir := node.isDir
  parent := parent
  word168 := n.word168
  word172 := node.firstCluster.toNat
  word176 := if node.isDir then 1 else 0

end NemoOS
