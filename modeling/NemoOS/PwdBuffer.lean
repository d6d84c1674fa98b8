import NemoOS.WorkingDirectory

/-!
# The buffers of `pwd`

`pwd` climbs from the current directory to the root, collects at most 64 nodes in `nodes[64]`
and copies their names to `char path[256]`, with a slash in front of each. The loop over the
nodes stops at 64, the loops over the names stop nowhere: `pwdSafe_iff` says of which
directories the path fits. Two directories with names of 127 bytes, one in the other, are
one byte too long.
-/

namespace NemoOS

open Transition

/-! ## Writing the path -/

/-- The stores to `path` so far, each with its index, and `pi`. -/
structure PathBuffer where
  stores : List (UInt8 × Nat)
  pi : Nat
deriving DecidableEq, Repr

namespace PathBuffer

def empty : PathBuffer := ⟨[], 0⟩

/-- `path[pi++] = c`. -/
def push (b : PathBuffer) (c : UInt8) : PathBuffer := ⟨b.stores ++ [(c, b.pi)], b.pi + 1⟩

/-- The loop over the bytes of a name. -/
def pushName (b : PathBuffer) (name : CString) : PathBuffer := name.foldl push b

/-- The loop over the nodes, from the top down: no slash behind the last name. -/
def pushNames (b : PathBuffer) : List CString → PathBuffer
  | [] => b
  | [name] => b.pushName name
  | name :: next :: names => ((b.pushName name).push SLASH).pushNames (next :: names)

/-- `path[pi] = 0`. -/
def terminate (b : PathBuffer) : List (UInt8 × Nat) := b.stores ++ [(0, b.pi)]

end PathBuffer

namespace FsState

/-- `cwd` is neither null nor its own parent. -/
def usesBuffers (s : FsState) : Bool := (s.nodes s.cwd).any fun node => node.parent ≠ s.cwd

/-- The stores to `nodes`, each with its index. -/
def nodeStores (s : FsState) : List (Nat × Nat) :=
  if s.usesBuffers then (climb s.nodes 64 s.cwd).zipIdx else []

/-- The stores to `path`, each with its index. -/
def pathStores (s : FsState) : List (UInt8 × Nat) :=
  if s.usesBuffers then
    ((PathBuffer.empty.push SLASH).pushNames (s.pathNodes.map s.nodeName)).terminate
  else []

/-- `pwd` writes only inside `path[256]` and `nodes[64]`. -/
def PwdSafe (s : FsState) : Prop :=
  (∀ store ∈ s.pathStores, store.2 < 256) ∧ ∀ store ∈ s.nodeStores, store.2 < 64

/-- A slash and a name for each of the nodes. -/
def pathLength (s : FsState) : Nat :=
  (s.pathNodes.map fun n => (s.nodeName n).length + 1).sum

end FsState

/-! ## What is stored where -/

namespace PathBuffer

/-- Every byte is stored behind the bytes before it. -/
theorem pushAll_stores (text : CString) (b : PathBuffer) :
    text.foldl push b = ⟨b.stores ++ text.zipIdx b.pi, b.pi + text.length⟩ := by
  induction text generalizing b with
  | nil => simp
  | cons c text ih =>
      rw [List.foldl_cons, ih]
      simp [push, Nat.add_assoc, Nat.add_comm 1]

/-- With the slash that is stored first, there is one in front of every name. -/
theorem push_pushNames (b : PathBuffer) (name : CString) (names : List CString) :
    (b.push SLASH).pushNames (name :: names) =
      ((name :: names).flatMap fun name => SLASH :: name).foldl push b := by
  induction names generalizing b name with
  | nil => simp [pushNames, pushName]
  | cons next names ih =>
      rw [pushNames, ih]
      simp only [List.flatMap_cons, List.foldl_append, List.foldl_cons, pushName]

theorem terminate_foldl_push (text : CString) :
    (text.foldl push empty).terminate = (text ++ [0]).zipIdx := by
  rw [pushAll_stores]
  simp [terminate, empty, List.zipIdx_append]

end PathBuffer

/-- All indices of a list are below a bound if its length is not above it. -/
theorem zipIdx_lt_iff {α : Type*} (xs : List α) (bound : Nat) :
    (∀ store ∈ xs.zipIdx, store.2 < bound) ↔ xs.length ≤ bound := by
  constructor
  · intro h
    by_contra hlong
    have hbound : bound < xs.length := Nat.lt_of_not_le hlong
    exact Nat.lt_irrefl bound (h (xs[bound], bound) (List.mk_mem_zipIdx_iff_getElem?.mpr
      (List.getElem?_eq_getElem hbound)))
  · rintro hlength ⟨x, i⟩ hstore
    have hi := (List.getElem?_eq_some_iff.mp (List.mk_mem_zipIdx_iff_getElem?.mp hstore)).1
    exact Nat.lt_of_lt_of_le hi hlength

namespace FsState

theorem length_climb_le (nodes : NodeMemory) (limit cur : Nat) :
    (climb nodes limit cur).length ≤ limit := by
  induction limit generalizing cur with
  | zero => exact Nat.le_refl 0
  | succ limit ih =>
      rw [climb]
      split
      · exact Nat.zero_le _
      · split_ifs
        · exact Nat.zero_le _
        · exact Nat.succ_le_succ (ih _)

/-- There is a node to write exactly where `pwd` uses the buffers. -/
theorem pathNodes_ne_nil_iff (s : FsState) : s.pathNodes ≠ [] ↔ s.usesBuffers = true := by
  rw [pathNodes, ne_eq, List.reverse_eq_nil_iff, climb, usesBuffers]
  cases s.nodes s.cwd with
  | none => simp
  | some node => by_cases hparent : node.parent = s.cwd <;> simp [hparent]

theorem length_flatMap_pathNodes (s : FsState) :
    ((s.pathNodes.map s.nodeName).flatMap fun name => SLASH :: name).length = s.pathLength := by
  simp [pathLength, List.length_flatMap, Function.comp_def]

/-- The text in `path` is the path, with the 0 behind it. -/
theorem pathStores_eq {s : FsState} (h : s.usesBuffers = true) :
    s.pathStores =
      (((s.pathNodes.map s.nodeName).flatMap fun name => SLASH :: name) ++ [0]).zipIdx := by
  obtain ⟨n, rest, hnodes⟩ := List.exists_cons_of_ne_nil ((pathNodes_ne_nil_iff s).mpr h)
  rw [pathStores, if_pos h, hnodes, List.map_cons, PathBuffer.push_pushNames,
    PathBuffer.terminate_foldl_push]

theorem nodeStores_lt (s : FsState) : ∀ store ∈ s.nodeStores, store.2 < 64 := by
  rw [nodeStores]
  split_ifs
  · exact (zipIdx_lt_iff _ _).mpr (length_climb_le _ _ _)
  · simp

theorem pathStores_lt_iff (s : FsState) :
    (∀ store ∈ s.pathStores, store.2 < 256) ↔ s.pathLength ≤ 255 := by
  by_cases h : s.usesBuffers = true
  · rw [pathStores_eq h, zipIdx_lt_iff, List.length_append, length_flatMap_pathNodes]
    exact Nat.succ_le_succ_iff
  · have hnil : s.pathNodes = [] := of_not_not fun hne => h ((pathNodes_ne_nil_iff s).mp hne)
    rw [pathStores, if_neg h, pathLength, hnil]
    simp

/-- **`pwd` stays inside its arrays** exactly if the names on the way to the root, at most 64 of
    them, are together with their slashes not longer than 255 bytes. -/
theorem pwdSafe_iff (s : FsState) : s.PwdSafe ↔ s.pathLength ≤ 255 := by
  rw [PwdSafe, and_iff_left s.nodeStores_lt, pathStores_lt_iff]

end FsState

/-! ## Two long names -/

/-- The longest name that fits the field of a node. -/
def deepName : CString := List.replicate 127 97

/-- After `mkdir` of the long name in the root. -/
def outerFs : FsState := (ramfsCreateDir bootFs 32 16 deepName).2

/-- After `cd` to it and `mkdir` of the same name. -/
def innerFs : FsState := (ramfsCreateDir { outerFs with cwd := 32 } 48 32 deepName).2

/-- After the second `cd`. -/
def deepFs : FsState := { innerFs with cwd := 48 }

theorem typed_deepName {n : Nat} (hn : n ≤ 6) : Typed n deepName := by
  refine ⟨?_, by decide⟩
  rw [deepName, List.length_replicate]
  omega

/-- `cd` to a child with this name. -/
theorem step_cd_deepName (disk : Fat32Disk) {s : FsState} {node child : FsNode} {n : Nat}
    (hcwd : s.nodes s.cwd = some node) (hfinddir : node.finddir = some .ramfs)
    (hfound : RamfsFinddirReturns s.nodes node deepName (some n))
    (hchild : s.nodes n = some child) (hdir : child.dir = true) :
    FsState.Step disk s (.cd deepName) { s with cwd := n } := by
  have hwalks : FsState.Walks disk s s.cwd deepName s (some n) := by
    refine .step (by decide +kernel) ⟨node, hcwd, ?_⟩ (.done (by decide +kernel))
    exact .ramfs hfinddir hfound
  refine ⟨typed_deepName (by decide), s, some n, hwalks, ?_⟩
  simp only [FsState.changeDir, hchild, if_pos hdir]

/-- `mkdir` and `cd`, twice: the 0 behind the path is stored to `path[256]`. -/
theorem pwd_overruns :
    (∀ disk, Run (FsState.Step disk) bootFs
        [.mkdir deepName 32, .cd deepName, .mkdir deepName 48, .cd deepName] deepFs) ∧
      (0, 256) ∈ deepFs.pathStores ∧ ¬ deepFs.PwdSafe := by
  have hstore : (0, 256) ∈ deepFs.pathStores := by decide +kernel
  refine ⟨fun disk => ?_, hstore, fun hsafe => Nat.lt_irrefl 256 (hsafe.1 _ hstore)⟩
  have houter : FsState.Step disk bootFs (.mkdir deepName 32) outerFs :=
    ⟨typed_deepName (by decide), Or.inr (by decide), rfl⟩
  have henter : FsState.Step disk outerFs (.cd deepName) { outerFs with cwd := 32 } :=
    step_cd_deepName disk rfl rfl ⟨1, by decide +kernel⟩ rfl rfl
  have hinner : FsState.Step disk { outerFs with cwd := 32 } (.mkdir deepName 48) innerFs :=
    ⟨typed_deepName (by decide), Or.inr (by decide), rfl⟩
  have hlast : FsState.Step disk innerFs (.cd deepName) deepFs :=
    step_cd_deepName disk rfl rfl ⟨1, by decide +kernel⟩ rfl rfl
  exact (((Run.nil.snoc houter).snoc henter).snoc hinner).snoc hlast

end NemoOS
