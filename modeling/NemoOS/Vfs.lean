import Mathlib
import NemoOS.Lib.PathComponents

/-!
# The virtual file system

The mount table of `fs/vfs.cpp` and path resolution. Nodes are pointers of an
arbitrary type `ν`; what the resolver uses of them, the parent pointer and the
`finddir` callback, is a `FileSystem`. A C string is the list of its bytes before
the terminator, so that reading the terminator is reading past the list.
-/

namespace NemoOS

open Paths

abbrev CString := List UInt8

def SLASH : UInt8 := 47
def DOT : UInt8 := 46

def MAX_MOUNTS : Nat := 16

/-- The `char path[256]` of a mount: a string that fits with its terminator. -/
structure MountPath where
  bytes : CString
  fits : bytes.length < 256

/-- A used entry of the mount table. -/
structure Mount (ν : Type*) where
  path : MountPath
  root : ν

/-- `mounts`, with `none` for the entries that are not used. -/
structure MountTable (ν : Type*) where
  slots : List (Option (Mount ν))
  size_eq : slots.length = MAX_MOUNTS

/-- What path resolution uses of the nodes: both pointers may be null, and so may
    the result of `finddir`. -/
structure FileSystem (ν : Type*) where
  parent : ν → Option ν
  finddir : ν → Option (CString → Option ν)

namespace MountTable

variable {ν : Type*}

def vfsInit : MountTable ν := ⟨List.replicate MAX_MOUNTS none, by simp⟩

def vfsMount (t : MountTable ν) (path : Option MountPath) (root : Option ν) :
    Int × MountTable ν :=
  match path, root with
  | some path, some root =>
      match t.slots.findIdx? Option.isNone with
      | some i => (0, ⟨t.slots.set i (some ⟨path, root⟩), by simpa using t.size_eq⟩)
      | none => (-1, t)
  | _, _ => (-1, t)

/-- The used mounts, in table order. -/
def used (t : MountTable ν) : List (Mount ν) := t.slots.filterMap id

def vfsGetRoot (t : MountTable ν) : Option ν :=
  (t.used.find? fun m => m.path.bytes = [SLASH]).map Mount.root

/-! ## Selecting a mount -/

/-- The inner loop of `find_mount_root`: how far the two strings agree. -/
def matchLen : CString → CString → Nat
  | a :: mount, b :: path => if a = b then matchLen mount path + 1 else 0
  | _, _ => 0

/-- One round of the outer loop, on `best_len` and `best_root`. -/
def considerMount (path : CString) (best : Int × Option ν) (m : Mount ν) : Int × Option ν :=
  let len := matchLen m.path.bytes path
  if m.path.bytes[len]? = none ∧ (path[len]? = some SLASH ∨ path[len]? = none) ∧
      (len : Int) > best.1 then
    (len, some m.root)
  else best

/-- The root of the selected mount and the rest of the path. -/
def findMountRoot (t : MountTable ν) (path : CString) : Option (ν × CString) :=
  let best := t.used.foldl (considerMount path) (-1, none)
  best.2.map fun root => (root, path.drop best.1.toNat)

end MountTable

/-! ## Walking a path -/

namespace FileSystem

variable {ν : Type*}

/-- One component of a path, from the node `current`. -/
def enter (fs : FileSystem ν) (current : ν) (component : CString) : Option ν :=
  if component = [DOT] then some current
  else if component = [DOT, DOT] then some ((fs.parent current).getD current)
  else
    match fs.finddir current with
    | none => none
    | some finddir => finddir component

/-- `while(*rel == '/') rel++`. -/
def skipSlashes (rel : CString) : CString := rel.dropWhile (· = SLASH)

/-- The bytes the inner loop copies into `char component[128]`. -/
def nextComponent (rel : CString) : CString := (rel.takeWhile (· ≠ SLASH)).take 127

theorem head?_skipSlashes (rel : CString) : (skipSlashes rel).head? ≠ some SLASH := by
  intro hhead
  have hfalse := List.head?_dropWhile_not (· = SLASH) rel
  rw [← skipSlashes, hhead] at hfalse
  simp at hfalse

theorem nextComponent_length_pos {rel : CString} (hne : skipSlashes rel ≠ []) :
    0 < (nextComponent (skipSlashes rel)).length := by
  have hhead := head?_skipSlashes rel
  cases hname : skipSlashes rel with
  | nil => exact absurd hname hne
  | cons c name =>
      have hc : c ≠ SLASH := by simpa [hname] using hhead
      simp [nextComponent, hc]

/-- The loop of `vfs_resolve` and `vfs_resolve_relative`. -/
def walkPath (fs : FileSystem ν) (current : ν) (rel : CString) : Option ν :=
  if rel = [] then some current
  else if skipSlashes rel = [] then some current
  else
    match fs.enter current (nextComponent (skipSlashes rel)) with
    | none => none
    | some next =>
        fs.walkPath next ((skipSlashes rel).drop (nextComponent (skipSlashes rel)).length)
termination_by rel.length
decreasing_by
  rename_i _ hname
  have hpos := nextComponent_length_pos hname
  have hle : (skipSlashes rel).length ≤ rel.length := List.length_dropWhile_le _ rel
  have hlen : 0 < (skipSlashes rel).length := List.length_pos_iff.mpr hname
  rw [List.length_drop]
  omega

/-- Walking a list of components. -/
def walk (fs : FileSystem ν) (start : ν) (names : List CString) : Option ν :=
  names.foldlM fs.enter start

end FileSystem

variable {ν : Type*}

def vfsResolve (fs : FileSystem ν) (t : MountTable ν) (path : CString) : Option ν :=
  if path = [] then none
  else
    match t.findMountRoot path with
    | none => none
    | some (root, rel) => fs.walkPath root rel

def vfsResolveRelative (fs : FileSystem ν) (t : MountTable ν) (base : ν) (path : CString) :
    Option ν :=
  if path.head? = some SLASH then vfsResolve fs t path
  else fs.walkPath base path

end NemoOS
