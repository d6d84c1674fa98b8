import NemoOS.RamfsNode
import NemoOS.Lib.Runs

/-!
# RAMFS files

`ramfs_write` cuts a write off at the end of `data`, with a sum and a difference of 32 bits:
a write that begins behind the data, or whose end wraps around, is not cut but stores
outside of it. A write that the cut is right for stores what fits. The files that only see
such writes are arrays of at most 256 bytes (`file_refines`).
-/

namespace NemoOS

open Words Bytes Loops Linked Transition

namespace Ramfs

theorem toInt32_ofNat {n : Nat} (hn : n < 2 ^ 31) : toInt32 (UInt32.ofNat n) = n := by
  rw [toInt32, UInt32.toNat_ofNat_of_lt' (Nat.lt_trans hn (by decide)), if_pos hn]

/-! ## One write -/

/-- The stores are to `data`, whose length the size does not exceed, and the result counts
    them. -/
structure WriteContained (m : Memory) (node offset size : Nat) (buf : Nat → UInt8) : Prop where
  inside : ∀ i < writeSize offset size, u32 (offset + i) < MAX_DATA
  others : ∀ x, x < node + DATA ∨ node + NODE_SIZE ≤ x →
    x < node + NodeField.size.offset ∨ node + NodeField.size.offset + 4 ≤ x →
    (write m node offset size buf).2 x = m x
  size_le : nodeField (write m node offset size buf).2 .size node ≤ MAX_DATA
  returns : (write m node offset size buf).1 = writeSize offset size

theorem writeSize_eq {offset size : Nat} (hoffset : offset ≤ MAX_DATA)
    (hsum : offset + size < 2 ^ 32) : writeSize offset size = min size (MAX_DATA - offset) := by
  rw [writeSize, u32_of_lt hsum, sub32_of_le hoffset (by decide)]
  split <;> omega

/-- A write for which the cut is right, on a file. -/
structure FileWrite (m : Memory) (node offset size : Nat) : Prop where
  node_ne : node ≠ 0
  in_space : node + NODE_SIZE ≤ 2 ^ 32
  file : hasFlag m FS_FILE node = true
  offset_le : offset ≤ MAX_DATA
  sum_lt : offset + size < 2 ^ 32

namespace FileWrite

variable {m : Memory} {node offset size : Nat} (h : FileWrite m node offset size)
  (buf : Nat → UInt8)

/-- What fits is stored, and the size is raised to its end. -/
def stored (m : Memory) (node offset size : Nat) (buf : Nat → UInt8) : Memory :=
  storeBytes m (node + DATA + offset) ((List.range (min size (MAX_DATA - offset))).map buf)

include h

theorem stored_of_outside {x : Nat}
    (hx : x < node + DATA + offset ∨ node + DATA + offset + min size (MAX_DATA - offset) ≤ x) :
    stored m node offset size buf x = m x := by
  have hspace := h.in_space
  have hoffset := h.offset_le
  have hsize : DATA + MAX_DATA = NODE_SIZE := rfl
  refine storeBytes_of_outside ?_ ?_
  · rw [List.length_map, List.length_range]
    omega
  · rw [List.length_map, List.length_range]
    exact hx

theorem stored_data {i : Nat} (hi : i < min size (MAX_DATA - offset)) :
    stored m node offset size buf (node + DATA + offset + i) = buf i := by
  have hspace := h.in_space
  have hoffset := h.offset_le
  have hsize : DATA + MAX_DATA = NODE_SIZE := rfl
  have hlen : ((List.range (min size (MAX_DATA - offset))).map buf).length =
      min size (MAX_DATA - offset) := by rw [List.length_map, List.length_range]
  rw [stored, storeBytes_getElem (by omega) (by omega), List.getElem_map, List.getElem_range]

theorem stored_field (f : NodeField) :
    nodeField (stored m node offset size buf) f node = nodeField m f node := by
  have hf := f.offset_bounds
  exact nodeField_congr h.in_space fun x hle hlt => h.stored_of_outside buf (by omega)

theorem write_eq :
    write m node offset size buf =
      (((min size (MAX_DATA - offset) : Nat) : Int),
        if offset + min size (MAX_DATA - offset) > nodeField m .size node then
          setNodeField (stored m node offset size buf) .size node
            (offset + min size (MAX_DATA - offset))
        else stored m node offset size buf) := by
  have hoffset := h.offset_le
  have hmax : MAX_DATA = 256 := rfl
  have hfield := h.stored_field buf .size
  rw [stored] at hfield
  rw [write, if_neg (not_refused h.node_ne h.file), writeSize_eq hoffset h.sum_lt]
  dsimp only
  rw [toInt32_ofNat (by omega), u32_of_lt (by omega), hfield]
  rfl

theorem size_write :
    nodeField (write m node offset size buf).2 .size node =
      max (nodeField m .size node) (offset + min size (MAX_DATA - offset)) := by
  have hoffset := h.offset_le
  have hmax : MAX_DATA = 256 := rfl
  rw [h.write_eq]
  dsimp only
  split
  · rw [nodeField_setNodeField_self h.in_space (by omega)]
    omega
  · rw [h.stored_field]
    omega

/-- The size apart, there are only the stores. -/
theorem write_of_ne_size {x : Nat}
    (hx : x < node + NodeField.size.offset ∨ node + NodeField.size.offset + 4 ≤ x) :
    (write m node offset size buf).2 x = stored m node offset size buf x := by
  rw [h.write_eq]
  dsimp only
  split
  · exact setNodeField_of_outside h.in_space hx
  · rfl

/-- The data after the write. -/
theorem data_write {i : Nat} (hi : i < MAX_DATA) :
    (write m node offset size buf).2 (node + DATA + i) =
      if offset ≤ i ∧ i < offset + min size (MAX_DATA - offset) then buf (i - offset)
      else m (node + DATA + i) := by
  have hsize : NodeField.size.offset + 4 ≤ DATA := by decide
  rw [h.write_of_ne_size buf (by omega)]
  split
  · next hin =>
    obtain ⟨j, rfl⟩ := Nat.exists_eq_add_of_le hin.1
    rw [← Nat.add_assoc, h.stored_data buf (by omega), Nat.add_sub_cancel_left]
  · rw [h.stored_of_outside buf (by omega)]

theorem contained (hle : nodeField m .size node ≤ MAX_DATA) :
    WriteContained m node offset size buf := by
  have hoffset := h.offset_le
  have hsum := h.sum_lt
  have hmax : MAX_DATA = 256 := rfl
  have hsize : DATA + MAX_DATA = NODE_SIZE := rfl
  refine ⟨fun i hi => ?_, fun x hx hx' => ?_, ?_, ?_⟩
  · rw [writeSize_eq hoffset hsum] at hi
    rw [u32_of_lt (by omega)]
    omega
  · rw [h.write_of_ne_size buf hx', h.stored_of_outside buf (by omega)]
  · rw [h.size_write]
    omega
  · rw [h.write_eq, writeSize_eq hoffset hsum]

end FileWrite

/-- Other writes store outside of `data`. -/
theorem writeSize_outside {offset size : Nat} (hoffset : offset < 2 ^ 32) (hsize : size < 2 ^ 32)
    (h : ∀ i < writeSize offset size, u32 (offset + i) < MAX_DATA) :
    offset ≤ MAX_DATA ∧ offset + size < 2 ^ 32 := by
  have hmax : MAX_DATA = 256 := rfl
  rw [writeSize] at h
  by_cases hcut : u32 (offset + size) > MAX_DATA
  · rw [if_pos hcut, sub32] at h
    rw [u32] at hcut
    have hle : offset ≤ MAX_DATA := by
      by_contra hbehind
      -- the difference wraps around, and the first store is behind the data
      have hfirst := h 0 (by rw [u32]; omega)
      rw [u32] at hfirst
      omega
    exact ⟨hle, by omega⟩
  · rw [if_neg hcut] at h
    rw [u32] at hcut
    by_cases hwrap : offset + size < 2 ^ 32
    · exact ⟨by omega, hwrap⟩
    · -- nothing is cut off, and a store reaches the end of the data
      have hfirst := h 0 (by omega)
      rw [u32] at hfirst
      have hend := h (MAX_DATA - offset) (by omega)
      rw [u32] at hend
      omega

/-- **What `ramfs_write` cuts off.** A write to a file stays in its data exactly when it begins
    no later than the end of the data and its own end does not wrap around. -/
theorem write_contained_iff {m : Memory} {node offset size : Nat} {buf : Nat → UInt8}
    (hne : node ≠ 0) (hspace : node + NODE_SIZE ≤ 2 ^ 32) (hfile : hasFlag m FS_FILE node = true)
    (hle : nodeField m .size node ≤ MAX_DATA) (hoffset : offset < 2 ^ 32) (hsize : size < 2 ^ 32) :
    WriteContained m node offset size buf ↔ offset ≤ MAX_DATA ∧ offset + size < 2 ^ 32 := by
  constructor
  · intro h
    exact writeSize_outside hoffset hsize h.inside
  · rintro ⟨hoffset, hsum⟩
    exact FileWrite.contained ⟨hne, hspace, hfile, hoffset, hsum⟩ buf hle

/-- Memory with an empty file at 4096. -/
def emptyFile : Memory := setNodeField (fun _ => 0) .flags 4096 FS_FILE.toNat

theorem write_contained_four : WriteContained emptyFile 4096 8 4 fun _ => 255 :=
  (write_contained_iff (by decide) (by decide) (by decide) (by decide) (by decide)
    (by decide)).mpr ⟨by decide, by decide⟩

/-- One byte at offset 300 becomes `2 ^ 32 - 44` bytes from there on. -/
theorem write_leaves_data :
    ¬ ∀ (m : Memory) (node offset size : Nat) (buf : Nat → UInt8), node ≠ 0 →
      node + NODE_SIZE ≤ 2 ^ 32 → hasFlag m FS_FILE node = true →
      nodeField m .size node ≤ MAX_DATA → offset < 2 ^ 32 → size < 2 ^ 32 →
        WriteContained m node offset size buf := by
  intro hall
  have h := hall emptyFile 4096 300 1 (fun _ => 255) (by decide) (by decide) (by decide) (by decide)
    (by decide) (by decide)
  exact absurd (h.inside 0 (by decide)) (by decide)

/-! ## Files as byte arrays -/

/-- What a file is for: its length, and a byte at every place below the capacity. -/
structure ByteFile where
  length : Nat
  bytes : Nat → UInt8

namespace ByteFile

/-- A new file. -/
def empty : ByteFile := ⟨0, fun _ => 0⟩

/-- The bytes from `offset` on, `size` of them or as many as there are. -/
def read (f : ByteFile) (offset size : Nat) : List UInt8 :=
  (List.range (min size (f.length - offset))).map fun i => f.bytes (offset + i)

/-- The number of bytes that are stored. -/
def room (offset size : Nat) : Nat := min size (MAX_DATA - offset)

def write (f : ByteFile) (offset size : Nat) (buf : Nat → UInt8) : ByteFile where
  length := max f.length (offset + room offset size)
  bytes := fun i =>
    if offset ≤ i ∧ i < offset + room offset size then buf (i - offset) else f.bytes i

end ByteFile

/-- A call of `ramfs_read` or `ramfs_write`. -/
inductive FileCall where
  | read (offset size : Nat)
  | write (offset size : Nat) (buf : Nat → UInt8)

/-- The writes that are cut off in the right place, and all reads. -/
def FileCall.Allowed : FileCall → Prop
  | .read offset size => offset < 2 ^ 32 ∧ size < 2 ^ 32
  | .write offset size _ => offset ≤ MAX_DATA ∧ offset + size < 2 ^ 32

/-- The call on the node `n`: the result, with the bytes that were read, and the memory. -/
def exec (n : Nat) (m : Memory) : FileCall → (Int × List UInt8) × Memory
  | .read offset size => (read m n offset size, m)
  | .write offset size buf => (((write m n offset size buf).1, []), (write m n offset size buf).2)

def ByteFile.exec (f : ByteFile) : FileCall → (Int × List UInt8) × ByteFile
  | .read offset size => (((f.read offset size).length, f.read offset size), f)
  | .write offset size buf => ((ByteFile.room offset size, []), f.write offset size buf)

/-- The node `n` is the file. -/
structure IsFile (n : Nat) (m : Memory) (f : ByteFile) : Prop where
  node_ne : n ≠ 0
  in_space : n + NODE_SIZE ≤ 2 ^ 32
  file : hasFlag m FS_FILE n = true
  size_eq : nodeField m .size n = f.length
  length_le : f.length ≤ MAX_DATA
  data : ∀ i < MAX_DATA, m (n + DATA + i) = f.bytes i

namespace IsFile

variable {n : Nat} {m : Memory} {f : ByteFile}

theorem read_eq (h : IsFile n m f) (offset size : Nat) :
    Ramfs.read m n offset size =
      (((f.read offset size).length : Int), f.read offset size) := by
  have hspace := h.in_space
  have hle := h.length_le
  have hmax : MAX_DATA = 256 := rfl
  have hsize : DATA + MAX_DATA = NODE_SIZE := rfl
  rw [Ramfs.read, if_neg (not_refused h.node_ne h.file), h.size_eq, ByteFile.read, List.length_map,
    List.length_range]
  by_cases hend : offset ≥ f.length
  · rw [if_pos hend, Nat.sub_eq_zero_of_le hend, Nat.min_zero]
    rfl
  · have hcount : (if size > f.length - offset then f.length - offset else size) =
        min size (f.length - offset) := by split <;> omega
    rw [if_neg hend]
    dsimp only
    rw [hcount, toInt32_ofNat (by omega), Prod.mk.injEq]
    refine ⟨rfl, List.map_congr_left fun i hi => ?_⟩
    rw [List.mem_range] at hi
    have hindex : u32 (offset + i) = offset + i := u32_of_lt (by omega)
    rw [hindex, u32_of_lt (by omega), h.data _ (by omega)]

theorem write (h : IsFile n m f) {offset size : Nat} (hoffset : offset ≤ MAX_DATA)
    (hsum : offset + size < 2 ^ 32) (buf : Nat → UInt8) :
    (Ramfs.write m n offset size buf).1 = ByteFile.room offset size ∧
      IsFile n (Ramfs.write m n offset size buf).2 (f.write offset size buf) := by
  have hwrite : FileWrite m n offset size := ⟨h.node_ne, h.in_space, h.file, hoffset, hsum⟩
  have hle := h.length_le
  refine ⟨?_, h.node_ne, h.in_space, ?_, ?_, ?_, fun i hi => ?_⟩
  · rw [hwrite.write_eq, ByteFile.room]
  · have hflags : nodeField (Ramfs.write m n offset size buf).2 .flags n = nodeField m .flags n := by
      have hapart : NodeField.flags.offset + 4 ≤ NodeField.size.offset := by decide
      refine (nodeField_congr h.in_space fun x hx hlt => ?_).trans (hwrite.stored_field buf .flags)
      exact hwrite.write_of_ne_size buf (by omega)
    rw [hasFlag, hflags]
    exact h.file
  · rw [hwrite.size_write, h.size_eq, ByteFile.write, ByteFile.room]
  · rw [ByteFile.write, ByteFile.room]
    dsimp only
    omega
  · rw [hwrite.data_write buf hi, h.data i hi, ByteFile.write, ByteFile.room]

end IsFile

/-- A file that was created with a name that fits is empty. -/
theorem isFile_of_newNode {m : Memory} {n inode parent next : Nat} {name : CString}
    (h : NewNode m n false inode parent next name) (hne : n ≠ 0) (hspace : n + NODE_SIZE ≤ 2 ^ 32)
    (hname : name.length ≤ 127) : IsFile n m .empty := by
  refine ⟨hne, hspace, ?_, h.size_eq, Nat.zero_le _, fun i hi => ?_⟩
  · rw [hasFlag, h.flags_eq]
    decide
  · rw [h.data i hi, List.getD_eq_default _ _ (Nat.le_trans hname (by rw [DATA]; omega))]
    rfl

/-- **RAMFS files refine byte arrays.** Calls on a new file, among them any reads, have the
    results that they have on an empty array. -/
theorem file_refines {owned : Nat → Prop} {s s' : RamfsState} {free held : List Block}
    {parent n : Nat} {name : CString} {cb : Callbacks} {calls : List FileCall}
    (h : HeapInv owned s.heap free held) (hparent : NodeIn held parent)
    (hdir : hasFlag s.mem FS_DIR parent = true) (hname : name.length ≤ 127) (hnul : 0 ∉ name)
    (hcreate : createFile cb s parent name = some (n, s')) (hne : n ≠ 0)
    (hcalls : ∀ c ∈ calls, c.Allowed) :
    outputs (exec n) s'.mem calls = outputs ByteFile.exec .empty calls := by
  have hlen : name.length < NODE_SIZE := Nat.lt_of_le_of_lt hname (by decide)
  obtain ⟨n', t, owned', free', held', hcall, hinv, hresult⟩ :=
    create_spec h hparent hdir hlen hnul cb false
  obtain ⟨rfl, rfl⟩ := Prod.mk.inj (Option.some.inj (hcreate.symm.trans hcall))
  rcases hresult with ⟨hzero, -⟩ | ⟨b, rfl, hblock, -, -, hnew, -⟩
  · exact absurd hzero hne
  · have hspace := (hblock.in_space (hinv.tidy.sound b List.mem_cons_self)).2
    refine outputs_eq (IsFile n) ?_ (isFile_of_newNode hnew hne hspace hname) hcalls
    intro m f c hfile hok
    cases c with
    | read offset size => exact ⟨hfile.read_eq offset size, hfile⟩
    | write offset size buf =>
        obtain ⟨hresult, hnext⟩ := hfile.write hok.1 hok.2 buf
        exact ⟨Prod.ext hresult rfl, hnext⟩

theorem file_refines_a :
    ∃ s', createFile sampleCallbacks rootRamfs 4112 [97] = some (4572, s') ∧
      outputs (exec 4572) s'.mem [.write 2 3 fun _ => 7, .read 0 10] =
        [(3, []), (5, [0, 0, 7, 7, 7])] := by
  obtain ⟨owned, free, held, hinv, hroot, hdir⟩ := rootRamfs_ready
  obtain ⟨s', hcreate⟩ := create_rootRamfs false [97] (by decide) (by decide)
  refine ⟨s', hcreate, ?_⟩
  rw [file_refines hinv hroot hdir (by decide) (by decide) hcreate (by decide)]
  · decide
  · rintro c (_ | ⟨_, _ | ⟨_, hc⟩⟩)
    · exact ⟨by decide, by decide⟩
    · exact ⟨by decide, by decide⟩
    · cases hc

end Ramfs

end NemoOS
