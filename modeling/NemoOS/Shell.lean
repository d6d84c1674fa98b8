import NemoOS.FsNodes
import NemoOS.MountCrossing
import NemoOS.Lib.Runs

/-!
# The shell's `touch`, `mkdir`, `cd` and `pwd`

Path resolution over the nodes of both file systems and the commands of
`shell/shell.cpp` that use it. `fat32_finddir` allocates a node for what it finds, so that
resolving a path changes the node memory; what it does there depends on the disk and on
where `kmalloc` places the nodes, so resolution is a relation between the state before
and the state and the result afterwards. `kmalloc` returns no block that holds a node.
-/

namespace NemoOS

open Loops Paths Transition

namespace FsState

/-- `kmalloc` can return the block: it is null or holds no node. -/
def Available (s : FsState) (block : Nat) : Prop := block = 0 ∨ s.nodes block = none

/-- The state with a node in a block. -/
def store (s : FsState) (block : Nat) (n : FsNode) : FsState :=
  { s with nodes := Function.update s.nodes block (some n) }

/-! ## Resolution -/

/-- The call of `finddir` of a node. -/
inductive Finddir (disk : Fat32Disk) (s : FsState) (n : Nat) (node : FsNode) (name : CString) :
    FsState → Option Nat → Prop where
  | none : node.finddir = none → Finddir disk s n node name s none
  | ramfs {r : Option Nat} : node.finddir = some .ramfs → RamfsFinddirReturns s.nodes node name r →
      Finddir disk s n node name s r
  | missing {block : Nat} : node.finddir = some .fat32 → s.Available block →
      Fat32FinddirReturns disk.dev (node.fat32Node disk.volumes) (block != 0) name .none →
      Finddir disk s n node name s none
  | found {block : Nat} {child : DirChild} {fn : Fat32Node} : node.finddir = some .fat32 →
      s.Available block →
      Fat32FinddirReturns disk.dev (node.fat32Node disk.volumes) (block != 0) name
        (some (child, fn)) →
      Finddir disk s n node name (s.store block (fat32Child n node child fn)) (some block)

/-- One component of a path, from the node `n`. -/
def Enters (disk : Fat32Disk) (s : FsState) (n : Nat) (component : CString) (s' : FsState)
    (r : Option Nat) : Prop :=
  ∃ node, s.nodes n = some node ∧
    if component = [DOT] then s' = s ∧ r = some n
    else if component = [DOT, DOT] then
      s' = s ∧ r = some (if node.parent ≠ 0 then node.parent else n)
    else Finddir disk s n node component s' r

/-- The loop of `vfs_resolve` and `vfs_resolve_relative`. -/
inductive Walks (disk : Fat32Disk) : FsState → Nat → CString → FsState → Option Nat → Prop where
  | done {s : FsState} {n : Nat} {rel : CString} : FileSystem.skipSlashes rel = [] →
      Walks disk s n rel s (some n)
  | stop {s s' : FsState} {n : Nat} {rel : CString} : FileSystem.skipSlashes rel ≠ [] →
      Enters disk s n (FileSystem.nextComponent (FileSystem.skipSlashes rel)) s' none →
      Walks disk s n rel s' none
  | step {s s' s'' : FsState} {n n' : Nat} {rel : CString} {r : Option Nat} :
      FileSystem.skipSlashes rel ≠ [] →
      Enters disk s n (FileSystem.nextComponent (FileSystem.skipSlashes rel)) s' (some n') →
      Walks disk s' n' ((FileSystem.skipSlashes rel).drop
        (FileSystem.nextComponent (FileSystem.skipSlashes rel)).length) s'' r →
      Walks disk s n rel s'' r

/-- `vfs_resolve`. -/
def Resolves (disk : Fat32Disk) (s : FsState) (path : CString) (s' : FsState)
    (r : Option Nat) : Prop :=
  if path = [] then s' = s ∧ r = none
  else
    match s.mounts.findMountRoot path with
    | none => s' = s ∧ r = none
    | some (root, rel) => Walks disk s root rel s' r

/-- `vfs_resolve_relative`. -/
def ResolvesRelative (disk : Fat32Disk) (s : FsState) (base : Nat) (path : CString)
    (s' : FsState) (r : Option Nat) : Prop :=
  if path.head? = some SLASH then Resolves disk s path s' r else Walks disk s base path s' r

/-! ## Commands -/

/-- `cwd = dir` if the result is a directory. -/
def changeDir (s : FsState) (r : Option Nat) : FsState :=
  match r with
  | none => s
  | some dir =>
      match s.nodes dir with
      | none => s
      | some node => if node.dir then { s with cwd := dir } else s

/-- The nodes that `pwd` collects, at most `limit` of them: from `cur` up to the node that is
    its own parent. -/
def climb (nodes : NodeMemory) : Nat → Nat → List Nat
  | 0, _ => []
  | limit + 1, cur =>
      match nodes cur with
      | none => []
      | some node => if node.parent = cur then [] else cur :: climb nodes limit node.parent

def nodeName (s : FsState) (n : Nat) : CString := (s.nodes n).elim [] FsNode.name

/-- The nodes whose names `pwd` writes, from the top down. -/
def pathNodes (s : FsState) : List Nat := (climb s.nodes 64 s.cwd).reverse

/-- What `pwd` writes, `none` if it does not fit `char path[256]`. -/
def pwd (s : FsState) : Option CString :=
  let path := SLASH :: List.intercalate [SLASH] (s.pathNodes.map s.nodeName)
  if path.length ≤ 255 then some path else none

end FsState

/-- The commands, with the block that `kmalloc` returns for the new node. -/
inductive ShellCommand where
  | touch (name : CString) (block : Nat)
  | mkdir (name : CString) (block : Nat)
  | cd (path : CString)

/-- The argument has been typed: with the `n` bytes before it, it fits `char cmd[256]`. -/
def Typed (n : Nat) (argument : CString) : Prop := n + argument.length ≤ 255 ∧ 0 ∉ argument

namespace FsState

def Step (disk : Fat32Disk) (s : FsState) : ShellCommand → FsState → Prop
  | .touch name block, t =>
      Typed 6 name ∧ s.Available block ∧ t = (ramfsCreateFile s block s.cwd name).2
  | .mkdir name block, t =>
      Typed 6 name ∧ s.Available block ∧ t = (ramfsCreateDir s block s.cwd name).2
  | .cd path, t =>
      Typed 3 path ∧ ∃ s' r, ResolvesRelative disk s s.cwd path s' r ∧ t = s'.changeDir r

end FsState

end NemoOS
