import NemoOS.HeapTiling
import NemoOS.Ramfs

/-!
# A new RAMFS node

What `ramfs_create_file` and `ramfs_create_dir` leave in memory. The block comes zeroed from
`kmalloc`; the name is copied over as much of it as it needs, and the fields behind the 128
bytes for it are assigned afterwards. So the node has its fields whatever the name is, and a
long name is cut off where `flags` ends it, while what reached the data stays there
(`initNode_byte`). `create_spec` is the one account of a call: the new node, the link to it
in the parent, and nothing else.
-/

namespace NemoOS

open Words Bytes Loops Linked

namespace Ramfs

/-! ## Fields -/

theorem NodeField.offset_bounds (f : NodeField) : 128 ≤ f.offset ∧ f.offset + 4 ≤ DATA := by
  cases f <;> decide

theorem NodeField.offset_apart {f g : NodeField} (h : f ≠ g) :
    f.offset + 4 ≤ g.offset ∨ g.offset + 4 ≤ f.offset := by
  revert h
  cases f <;> cases g <;> decide

section fields

variable {m m' : Memory} {n v x : Nat} {f g : NodeField} {fields : List (NodeField × Nat)}

theorem nodeField_lt (m : Memory) (f : NodeField) (n : Nat) : nodeField m f n < 2 ^ 32 :=
  read32_lt m _

theorem nodeField_congr (hn : n + NODE_SIZE ≤ 2 ^ 32)
    (h : ∀ x, n + f.offset ≤ x → x < n + f.offset + 4 → m' x = m x) :
    nodeField m' f n = nodeField m f n := by
  have hf := f.offset_bounds
  rw [NODE_SIZE] at hn
  rw [DATA] at hf
  exact read32_congr (by omega) h

theorem setNodeField_of_outside (hn : n + NODE_SIZE ≤ 2 ^ 32)
    (hx : x < n + f.offset ∨ n + f.offset + 4 ≤ x) : setNodeField m f n v x = m x := by
  have hf := f.offset_bounds
  rw [NODE_SIZE] at hn
  rw [DATA] at hf
  exact write32_of_outside (by omega) hx

theorem nodeField_setNodeField_self (hn : n + NODE_SIZE ≤ 2 ^ 32) (hv : v < 2 ^ 32) :
    nodeField (setNodeField m f n v) f n = v := by
  have hf := f.offset_bounds
  rw [NODE_SIZE] at hn
  rw [DATA] at hf
  exact read32_write32_self (by omega) hv

theorem nodeField_setNodeField_of_ne (hn : n + NODE_SIZE ≤ 2 ^ 32) (hfg : f ≠ g) :
    nodeField (setNodeField m f n v) g n = nodeField m g n := by
  have happart := NodeField.offset_apart hfg
  exact nodeField_congr hn fun x hle hlt => setNodeField_of_outside hn (by omega)

/-- The check that every function begins with passes. -/
theorem not_refused {flag : UInt32} (hne : n ≠ 0) (hflag : hasFlag m flag n = true) :
    ¬ (n = 0 ∨ hasFlag m flag n = false) := by
  rw [hflag]
  rintro (hzero | hfalse)
  · exact hne hzero
  · exact Bool.noConfusion hfalse

theorem setFields_cons (assigned : NodeField × Nat) :
    setFields m n (assigned :: fields) =
      setFields (setNodeField m assigned.1 n assigned.2) n fields := rfl

/-- The fields lie between the name and the data. -/
theorem setFields_of_outside (hn : n + NODE_SIZE ≤ 2 ^ 32) (hx : x < n + 128 ∨ n + DATA ≤ x) :
    setFields m n fields x = m x := by
  induction fields generalizing m with
  | nil => rfl
  | cons assigned fields ih =>
      have hf := assigned.1.offset_bounds
      rw [setFields_cons, ih, setNodeField_of_outside hn (by omega)]

theorem nodeField_setFields_of_notMem (hn : n + NODE_SIZE ≤ 2 ^ 32)
    (hf : f ∉ fields.map Prod.fst) :
    nodeField (setFields m n fields) f n = nodeField m f n := by
  induction fields generalizing m with
  | nil => rfl
  | cons assigned fields ih =>
      rw [List.map_cons, List.mem_cons, not_or] at hf
      rw [setFields_cons, ih hf.2, nodeField_setNodeField_of_ne hn (Ne.symm hf.1)]

/-- A field that is assigned once has the value. -/
theorem nodeField_setFields (hn : n + NODE_SIZE ≤ 2 ^ 32) (hnodup : (fields.map Prod.fst).Nodup)
    (hmem : (f, v) ∈ fields) (hv : v < 2 ^ 32) : nodeField (setFields m n fields) f n = v := by
  induction fields generalizing m with
  | nil => exact absurd hmem List.not_mem_nil
  | cons assigned fields ih =>
      rw [List.map_cons, List.nodup_cons] at hnodup
      rw [setFields_cons]
      rcases List.mem_cons.mp hmem with rfl | hmem
      · rw [nodeField_setFields_of_notMem hn hnodup.1, nodeField_setNodeField_self hn hv]
      · exact ih hnodup.2 hmem

end fields

/-! ## The block of a new node -/

section initNode

variable {m : Memory} {n : Nat} {name : CString} {fields : List (NodeField × Nat)}
  (hn : n + NODE_SIZE ≤ 2 ^ 32) (hname : name.length < NODE_SIZE)

include hn hname

theorem initNode_of_outside {x : Nat} (hx : x < n ∨ n + NODE_SIZE ≤ x) :
    initNode m n name fields x = m x := by
  have hdata : DATA ≤ NODE_SIZE := by decide
  rw [initNode, setFields_of_outside hn (by omega), strcpy, storeBytes_of_outside]
  · rw [List.length_append, List.length_singleton]
    omega
  · rw [List.length_append, List.length_singleton]
    omega

/-- A byte outside the fields is the one of the name, or zero behind it. -/
theorem initNode_byte (hzero : ∀ i < NODE_SIZE, m (n + i) = 0) {i : Nat}
    (hi : i < 128 ∨ DATA ≤ i) (hlt : i < NODE_SIZE) :
    initNode m n name fields (n + i) = name.getD i 0 := by
  have hlen : (name ++ [0]).length = name.length + 1 := by
    rw [List.length_append, List.length_singleton]
  rw [initNode, setFields_of_outside hn (by omega), strcpy]
  by_cases hin : i < name.length + 1
  · rw [storeBytes_getElem (by omega) (by omega)]
    by_cases hchar : i < name.length
    · rw [List.getElem_append_left hchar, List.getD_eq_getElem _ _ hchar]
    · obtain rfl : i = name.length := by omega
      rw [List.getElem_concat_length rfl, List.getD_eq_default _ _ (Nat.le_refl _)]
  · rw [storeBytes_of_outside (by omega) (by omega), hzero i hlt,
      List.getD_eq_default _ _ (by omega)]

omit hname in
theorem nodeField_initNode (hnodup : (fields.map Prod.fst).Nodup) {f : NodeField} {v : Nat}
    (hmem : (f, v) ∈ fields) (hv : v < 2 ^ 32) : nodeField (initNode m n name fields) f n = v :=
  nodeField_setFields hn hnodup hmem hv

end initNode

theorem nodeFields_nodup (cb : Callbacks) (dir : Bool) (inode parent : Nat) :
    ((nodeFields cb dir inode parent).map Prod.fst).Nodup := by
  have hfields : (nodeFields cb dir inode parent).map Prod.fst =
      [.flags, .size, .inode, .impl, .parent, .destroy, .read, .write, .readdir, .finddir,
        .nextSibling, .firstChild, .parentNode] := rfl
  rw [hfields]
  decide

theorem flagsOf_lt (dir : Bool) : flagsOf dir < 256 := by
  cases dir <;> decide

/-- The two bytes that a small word begins with. -/
theorem bytes_of_read32 {m : Memory} {a v : Nat} (h : read32 m a = v) (hv : v < 256) :
    m (u32 a) = UInt8.ofNat v ∧ m (u32 (a + 1)) = 0 := by
  have h0 := (m (u32 a)).toNat_lt
  rw [read32] at h
  rw [← UInt8.toNat_inj, ← UInt8.toNat_inj, UInt8.toNat_ofNat', UInt8.toNat_zero]
  omega

/-- The string in the name of a new node. -/
theorem stringAt_initNode {m : Memory} {n : Nat} {name : CString} {dir : Bool}
    {fields : List (NodeField × Nat)} (hn : n + NODE_SIZE ≤ 2 ^ 32)
    (hname : name.length < NODE_SIZE) (hzero : ∀ i < NODE_SIZE, m (n + i) = 0)
    (hnodup : (fields.map Prod.fst).Nodup) (hflags : (.flags, flagsOf dir) ∈ fields)
    (hnul : 0 ∉ name) : StringAt (initNode m n name fields) n (storedName dir name) := by
  have hsmall : 180 ≤ NODE_SIZE := by decide
  have hbyte : ∀ i < 128, initNode m n name fields (u32 (n + i)) = name.getD i 0 := by
    intro i hi
    rw [u32_of_lt (by omega), initNode_byte hn hname hzero (.inl hi) (by omega)]
  rw [stringAt_iff]
  by_cases hshort : name.length < 128
  · rw [storedName, if_pos hshort]
    refine ⟨fun i hi => ?_, ?_, hnul⟩
    · rw [hbyte i (by omega), List.getD_eq_getElem _ _ hi]
    · rw [hbyte _ hshort, List.getD_eq_default _ _ (Nat.le_refl _)]
  · have hlt := flagsOf_lt dir
    have hfield : nodeField (initNode m n name fields) .flags n = flagsOf dir :=
      nodeField_initNode hn hnodup hflags (by omega)
    obtain ⟨hflag, hend⟩ := bytes_of_read32 hfield hlt
    have hvalue : UInt8.ofNat (flagsOf dir) = if dir then FS_DIR.toUInt8 else FS_FILE.toUInt8 := by
      cases dir <;> rfl
    rw [NodeField.offset] at hflag hend
    have hlen : (name.take 128).length = 128 := by
      rw [List.length_take]
      omega
    rw [storedName, if_neg hshort, ← hvalue]
    refine ⟨fun i hi => ?_, ?_, ?_⟩
    · rw [List.length_append, hlen, List.length_singleton] at hi
      by_cases hin : i < 128
      · rw [hbyte i hin, List.getElem_append_left (by omega), List.getElem_take,
          List.getD_eq_getElem _ _ (by omega)]
      · obtain rfl : i = 128 := by omega
        rw [hflag, List.getElem_append_right (by omega)]
        simp [hlen]
    · rw [List.length_append, hlen, List.length_singleton]
      exact hend
    · rw [List.mem_append, not_or]
      refine ⟨fun hmem => hnul (List.mem_of_mem_take hmem), ?_⟩
      cases dir <;> decide

theorem length_storedName (dir : Bool) (name : CString) : (storedName dir name).length ≤ 129 := by
  rw [storedName]
  split
  · omega
  · rw [List.length_append, List.length_take, List.length_singleton]
    omega

/-- What a directory listing shows of a node that was created with the name. -/
structure NodeIs (m : Memory) (n : Nat) (dir : Bool) (name : CString) : Prop where
  flags_eq : nodeField m .flags n = flagsOf dir
  size_eq : nodeField m .size n = 0
  impl_eq : nodeField m .impl n = 0
  string : StringAt m n (storedName dir name)

/-- It does not depend on the links and the data. -/
theorem NodeIs.congr {m m' : Memory} {n : Nat} {dir : Bool} {name : CString}
    (h : NodeIs m n dir name) (hn : n + NODE_SIZE ≤ 2 ^ 32)
    (hsame : ∀ x, n ≤ x → x < n + 168 → m' x = m x) : NodeIs m' n dir name := by
  have hsize : NODE_SIZE = 436 := rfl
  have hlen := length_storedName dir name
  have hfield : ∀ f : NodeField, f.offset ≤ 140 → nodeField m' f n = nodeField m f n := fun f hf =>
    nodeField_congr hn fun x hle hlt => hsame x (by omega) (by omega)
  refine ⟨?_, ?_, ?_, ?_⟩
  · rw [hfield .flags (by decide), h.flags_eq]
  · rw [hfield .size (by decide), h.size_eq]
  · rw [hfield .impl (by decide), h.impl_eq]
  · exact h.string.congr (by omega) fun x hle hlt => hsame x hle (by omega)

/-- All of a new node but its functions. -/
structure NewNode (m : Memory) (n : Nat) (dir : Bool) (inode parent next : Nat) (name : CString) :
    Prop extends NodeIs m n dir name where
  inode_eq : nodeField m .inode n = inode
  parent_eq : nodeField m .parent n = parent
  parentNode_eq : nodeField m .parentNode n = parent
  nextSibling_eq : nodeField m .nextSibling n = next
  firstChild_eq : nodeField m .firstChild n = 0
  data : ∀ i < MAX_DATA, m (n + DATA + i) = name.getD (DATA + i) 0

theorem newNode_initNode {m : Memory} {n inode parent : Nat} {name : CString} (cb : Callbacks)
    (dir : Bool) (hn : n + NODE_SIZE ≤ 2 ^ 32) (hname : name.length < NODE_SIZE)
    (hzero : ∀ i < NODE_SIZE, m (n + i) = 0) (hnul : 0 ∉ name) (hinode : inode < 2 ^ 32)
    (hparent : parent < 2 ^ 32) :
    NewNode (initNode m n name (nodeFields cb dir inode parent)) n dir inode parent 0 name := by
  have hnodup := nodeFields_nodup cb dir inode parent
  have hfield : ∀ f v, (f, v) ∈ nodeFields cb dir inode parent → v < 2 ^ 32 →
      nodeField (initNode m n name (nodeFields cb dir inode parent)) f n = v :=
    fun f v hmem hv => nodeField_initNode hn hnodup hmem hv
  have hflags := flagsOf_lt dir
  refine ⟨⟨?_, ?_, ?_, ?_⟩, ?_, ?_, ?_, ?_, ?_, ?_⟩
  · exact hfield .flags _ (by simp [nodeFields]) (by omega)
  · exact hfield .size _ (by simp [nodeFields]) (by omega)
  · exact hfield .impl _ (by simp [nodeFields]) (by omega)
  · exact stringAt_initNode hn hname hzero hnodup (by simp [nodeFields]) hnul
  · exact hfield .inode _ (by simp [nodeFields]) hinode
  · exact hfield .parent _ (by simp [nodeFields]) hparent
  · exact hfield .parentNode _ (by simp [nodeFields]) hparent
  · exact hfield .nextSibling _ (by simp [nodeFields]) (by omega)
  · exact hfield .firstChild _ (by simp [nodeFields]) (by omega)
  · intro i hi
    have hlt : DATA + MAX_DATA = NODE_SIZE := rfl
    rw [Nat.add_assoc]
    exact initNode_byte hn hname hzero (.inr (Nat.le_add_right ..)) (by omega)

/-! ## The link in the parent -/

/-- Two nodes have no byte in common. -/
def Apart (n n' : Nat) : Prop := n + NODE_SIZE ≤ n' ∨ n' + NODE_SIZE ≤ n

section linkChild

variable {m : Memory} {n parent x : Nat} (hn : n + NODE_SIZE ≤ 2 ^ 32)
  (hparent : parent + NODE_SIZE ≤ 2 ^ 32)

include hn hparent

theorem linkChild_of_outside (hx : x < n + 168 ∨ n + 172 ≤ x)
    (hx' : x < parent + 172 ∨ parent + 176 ≤ x) : linkChild m n parent x = m x := by
  rw [linkChild, setNodeField_of_outside hparent hx', setNodeField_of_outside hn hx]

theorem nodeField_linkChild_parent : nodeField (linkChild m n parent) .firstChild parent = n := by
  have hpos : 0 < NODE_SIZE := by decide
  exact nodeField_setNodeField_self hparent (by omega)

variable (hapart : Apart n parent)

include hapart

/-- The fields of the new node. -/
theorem nodeField_linkChild (f : NodeField) :
    nodeField (linkChild m n parent) f n =
      if f = .nextSibling then nodeField m .firstChild parent else nodeField m f n := by
  have hf := f.offset_bounds
  have hfirst : NodeField.firstChild.offset = 172 := rfl
  rw [Apart, NODE_SIZE] at hapart
  rw [DATA] at hf
  have hother : nodeField (linkChild m n parent) f n =
      nodeField (setNodeField m .nextSibling n (nodeField m .firstChild parent)) f n :=
    nodeField_congr hn fun x hle hlt => setNodeField_of_outside hparent (by omega)
  rw [hother]
  by_cases hnext : f = .nextSibling
  · rw [if_pos hnext, hnext, nodeField_setNodeField_self hn (nodeField_lt ..)]
  · rw [if_neg hnext, nodeField_setNodeField_of_ne hn (Ne.symm hnext)]

end linkChild

/-! ## Nodes in the heap -/

/-- The node in a block of the heap. -/
def NodeBlock (b : Block) (n : Nat) : Prop := n = b.addr + 16 ∧ NODE_SIZE + 20 ≤ b.size

/-- The node is in one of the blocks. -/
def NodeIn (held : List Block) (n : Nat) : Prop := ∃ b ∈ held, NodeBlock b n

section blocks

variable {owned : Nat → Prop} {blocks : List Block} {b c : Block} {n n' : Nat}

theorem NodeBlock.in_space (h : NodeBlock b n) (hb : b.Sound owned) :
    n ≠ 0 ∧ n + NODE_SIZE ≤ 2 ^ 32 := by
  have hspace := hb.in_space
  obtain ⟨rfl, hsize⟩ := h
  omega

theorem NodeBlock.holds (h : NodeBlock b n) {x : Nat} (hx : n ≤ x) (hlt : x < n + NODE_SIZE) :
    b.Holds x ∧ b.addr + 16 ≤ x := by
  obtain ⟨rfl, hsize⟩ := h
  exact ⟨⟨by omega, by omega⟩, hx⟩

/-- The bytes of another block. -/
theorem NodeBlock.outside_of_disjoint (h : NodeBlock b n) (hdisjoint : b.Disjoint c) {x : Nat}
    (hx : c.Holds x) : x < n ∨ n + NODE_SIZE ≤ x := by
  by_contra hin
  exact hdisjoint.not_holds (h.holds (by omega) (by omega)).1 hx

/-- The bytes that are not behind the header of the block. -/
theorem NodeBlock.outside_of_notBody (h : NodeBlock b n) {x : Nat}
    (hx : ¬ (b.addr + 16 ≤ x ∧ x < b.addr + b.size)) : x < n ∨ n + NODE_SIZE ≤ x := by
  by_contra hin
  have hholds := h.holds (x := x) (by omega) (by omega)
  exact hx ⟨hholds.2, hholds.1.2⟩

theorem NodeBlock.apart (h : NodeBlock b n) (h' : NodeBlock c n') (hdisjoint : b.Disjoint c) :
    Apart n n' := by
  obtain ⟨rfl, hsize⟩ := h
  obtain ⟨rfl, hsize'⟩ := h'
  rw [Block.Disjoint] at hdisjoint
  rw [Apart]
  omega

end blocks

/-! ## `alloc_node` -/

theorem allocNode_spec {owned : Nat → Prop} {s : RamfsState} {free held : List Block}
    (h : HeapInv owned s.heap free held) :
    ∃ n s' owned' free' held', allocNode s = some (n, s') ∧ HeapInv owned' s'.heap free' held' ∧
      (∀ b ∈ held, ∀ x, b.Holds x → s'.mem x = s.mem x) ∧
      (n = 0 ∧ held' = held ∧ s'.poolCount = s.poolCount ∨
        ∃ b, held' = b :: held ∧ NodeBlock b n ∧ s.poolCount < POOL_SIZE ∧
          s'.poolCount = s.poolCount + 1 ∧ ∀ i < NODE_SIZE, s'.mem (n + i) = 0) := by
  rw [allocNode]
  by_cases hpool : s.poolCount ≥ POOL_SIZE
  · rw [if_pos hpool]
    exact ⟨0, s, owned, free, held, rfl, h, fun _ _ _ _ => rfl, .inl ⟨rfl, rfl, rfl⟩⟩
  · rw [if_neg hpool]
    obtain ⟨ptr, heap, owned', free', hcall, hkeep, hresult⟩ :=
      h.kmalloc_zeroed (by decide : NODE_SIZE ≤ 2 ^ 32 - 24)
    rw [hcall]
    rcases hresult with ⟨rfl, hinv⟩ | ⟨b, hptr, hsize, hinv, hzero⟩
    · exact ⟨0, { s with heap := heap }, owned', free', held, if_pos rfl, hinv, hkeep,
        .inl ⟨rfl, rfl, rfl⟩⟩
    · exact ⟨ptr, ⟨heap, s.poolCount + 1⟩, owned', free', b :: held, if_neg (by omega), hinv, hkeep,
        .inr ⟨b, rfl, ⟨hptr, hsize⟩, Nat.lt_of_not_le hpool, rfl, hzero⟩⟩

/-! ## The calls -/

theorem newNode_linkChild {m : Memory} {n inode parent : Nat} {dir : Bool} {name : CString}
    (hn : n + NODE_SIZE ≤ 2 ^ 32) (hparent : parent + NODE_SIZE ≤ 2 ^ 32) (hapart : Apart n parent)
    (h : NewNode m n dir inode parent 0 name) :
    NewNode (linkChild m n parent) n dir inode parent (nodeField m .firstChild parent) name := by
  have hfield := nodeField_linkChild (m := m) hn hparent hapart
  have hsize : NODE_SIZE = 436 := rfl
  have houtside : ∀ x, n ≤ x → x < n + NODE_SIZE → x < n + 168 ∨ n + 172 ≤ x →
      linkChild m n parent x = m x := by
    intro x hle hlt hx
    rw [Apart] at hapart
    exact linkChild_of_outside hn hparent hx (by omega)
  refine ⟨h.toNodeIs.congr hn fun x hle hlt => houtside x hle (by omega) (.inl hlt),
    ?_, ?_, ?_, ?_, ?_, ?_⟩
  · rw [hfield, if_neg (by decide), h.inode_eq]
  · rw [hfield, if_neg (by decide), h.parent_eq]
  · rw [hfield, if_neg (by decide), h.parentNode_eq]
  · rw [hfield, if_pos rfl]
  · rw [hfield, if_neg (by decide), h.firstChild_eq]
  · intro i hi
    rw [MAX_DATA] at hi
    rw [houtside _ (by omega) (by rw [DATA]; omega) (by rw [DATA]; omega), h.data i hi]

/-- A new node is where `alloc_node` put it. -/
theorem create_fst {cb : Callbacks} {dir : Bool} {s : RamfsState} {parent : Nat} {name : CString}
    (hne : parent ≠ 0) (hdir : hasFlag s.mem FS_DIR parent = true) :
    (create cb dir s parent name).map Prod.fst = (allocNode s).map Prod.fst := by
  rw [create, if_neg (not_refused hne hdir)]
  cases allocNode s with
  | none => rfl
  | some r =>
      by_cases hzero : r.1 = 0
      · simp [hzero]
      · simp [hzero]

/-- `ramfs_create_root`. -/
theorem createRoot_spec {owned : Nat → Prop} {s : RamfsState} {free held : List Block}
    (h : HeapInv owned s.heap free held) (cb : Callbacks) :
    ∃ n s' owned' free' held', createRoot cb s = some (n, s') ∧
      HeapInv owned' s'.heap free' held' ∧
      (n = 0 ∧ held' = held ∨
        ∃ b, held' = b :: held ∧ NodeBlock b n ∧ s.poolCount < POOL_SIZE ∧
          s'.poolCount = s.poolCount + 1 ∧ NewNode s'.mem n true 0 n 0 [SLASH]) := by
  obtain ⟨n, s₁, owned', free', held', halloc, hinv, -, hresult⟩ := allocNode_spec h
  rw [createRoot, halloc]
  rcases hresult with ⟨rfl, hheld, -⟩ | ⟨b, rfl, hblock, hpool, hcount, hzero⟩
  · exact ⟨0, s₁, owned', free', held', if_pos rfl, hinv, .inl ⟨rfl, hheld⟩⟩
  · have hsound := hinv.tidy.sound b List.mem_cons_self
    obtain ⟨hne, hn⟩ := hblock.in_space hsound
    have hname : ([SLASH] : CString).length < NODE_SIZE := by decide
    have hpos : 0 < NODE_SIZE := by decide
    refine ⟨n, _, owned', free', b :: held, if_neg hne, ?_, .inr ⟨b, rfl, hblock, hpool, hcount, ?_⟩⟩
    · exact hinv.store fun x hx =>
        initNode_of_outside hn hname (hblock.outside_of_notBody (hx b List.mem_cons_self))
    · exact newNode_initNode cb true hn hname hzero (by decide) (by omega) (by omega)

/-- **A call of `ramfs_create_file` or `ramfs_create_dir`.** Either nothing that is held has
    changed, or there is a new node, which the parent now has as its first child. -/
theorem create_spec {owned : Nat → Prop} {s : RamfsState} {free held : List Block} {parent : Nat}
    {name : CString} (h : HeapInv owned s.heap free held) (hparent : NodeIn held parent)
    (hdir : hasFlag s.mem FS_DIR parent = true) (hname : name.length < NODE_SIZE) (hnul : 0 ∉ name)
    (cb : Callbacks) (dir : Bool) :
    ∃ n s' owned' free' held', create cb dir s parent name = some (n, s') ∧
      HeapInv owned' s'.heap free' held' ∧
      (n = 0 ∧ held' = held ∧ s'.poolCount = s.poolCount ∧
          (∀ b ∈ held, ∀ x, b.Holds x → s'.mem x = s.mem x) ∨
        ∃ b, held' = b :: held ∧ NodeBlock b n ∧ s.poolCount < POOL_SIZE ∧
          s'.poolCount = s.poolCount + 1 ∧
          NewNode s'.mem n dir n parent (nodeField s.mem .firstChild parent) name ∧
          nodeField s'.mem .firstChild parent = n ∧
          ∀ c ∈ held, ∀ x, c.Holds x → x < parent + 172 ∨ parent + 176 ≤ x →
            s'.mem x = s.mem x) := by
  obtain ⟨pb, hpb, hpblock⟩ := hparent
  obtain ⟨hpne, hpspace⟩ := hpblock.in_space (h.tidy.sound pb (List.mem_append_left _ hpb))
  obtain ⟨n, s₁, owned', free', held', halloc, hinv, hkeep, hresult⟩ := allocNode_spec h
  rw [create, if_neg (not_refused hpne hdir), halloc]
  rcases hresult with ⟨rfl, rfl, hcount⟩ | ⟨b, rfl, hblock, hpool, hcount, hzero⟩
  · exact ⟨0, s₁, owned', free', held', if_pos rfl, hinv, .inl ⟨rfl, rfl, hcount, hkeep⟩⟩
  · have hsound := hinv.tidy.sound b List.mem_cons_self
    obtain ⟨hne, hn⟩ := hblock.in_space hsound
    have hdisjoint : ∀ c ∈ held, b.Disjoint c := fun c hc =>
      (List.pairwise_cons.mp hinv.tidy.disjoint).1 c (List.mem_append_left _ hc)
    have hapart := hblock.apart hpblock (hdisjoint pb hpb)
    have hpos : 0 < NODE_SIZE := by decide
    have hnew := newNode_initNode cb dir hn hname hzero hnul (by omega : n < 2 ^ 32)
      (by omega : parent < 2 ^ 32)
    -- the new block is not one of those that were held
    have hinit : ∀ c ∈ held, ∀ x, c.Holds x →
        initNode s₁.mem n name (nodeFields cb dir n parent) x = s.mem x := by
      intro c hc x hx
      rw [initNode_of_outside hn hname (hblock.outside_of_disjoint (hdisjoint c hc) hx),
        hkeep c hc x hx]
    have hfirst : nodeField (initNode s₁.mem n name (nodeFields cb dir n parent)) .firstChild
        parent = nodeField s.mem .firstChild parent := by
      refine nodeField_congr hpspace fun x hle hlt => hinit pb hpb x (hpblock.holds ?_ ?_).1
      · omega
      · have hf := NodeField.firstChild.offset_bounds
        have hdata : DATA ≤ NODE_SIZE := by decide
        omega
    refine ⟨n, _, owned', free', b :: held, if_neg hne, ?_, .inr ⟨b, rfl, hblock, hpool, hcount, ?_,
      nodeField_linkChild_parent hn hpspace, ?_⟩⟩
    · refine hinv.store fun x hx => ?_
      have hsize : NODE_SIZE = 436 := rfl
      have hnode := hblock.outside_of_notBody (hx b List.mem_cons_self)
      have hpnode := hpblock.outside_of_notBody (hx pb (List.mem_cons_of_mem b hpb))
      rw [linkChild_of_outside hn hpspace (by omega) (by omega), initNode_of_outside hn hname hnode]
      rfl
    · have hlinked := newNode_linkChild hn hpspace hapart hnew
      rw [hfirst] at hlinked
      exact hlinked
    · intro c hc x hx hother
      have hnode := hblock.outside_of_disjoint (hdisjoint c hc) hx
      have hsize : NODE_SIZE = 436 := rfl
      have hlink := linkChild_of_outside hn hpspace (x := x)
        (m := initNode s₁.mem n name (nodeFields cb dir n parent)) (by omega) hother
      exact hlink.trans (hinit c hc x hx)

/-! ## A small RAMFS -/

/-- No node yet, and a heap of one page. -/
def freshRamfs : RamfsState := ⟨Heap.pageHeap 4096 ⟨fun _ => 3, 2, 2, by decide⟩, 0⟩

def sampleCallbacks : Callbacks := ⟨0x100010, 0x100020, 0x100030, 0x100040, 0x100050⟩

/-- The small RAMFS with its root. -/
def rootRamfs : RamfsState := ((createRoot sampleCallbacks freshRamfs).getD (0, freshRamfs)).2

theorem freshRamfs_heapInv :
    HeapInv (· = 1) freshRamfs.heap [Heap.pageBlock] [] := by
  refine (Heap.pageHeap_wellFormed rfl Heap.pageHeap_list).heapInv ?_
  rintro page rfl
  exact ⟨by decide, by decide⟩

/-- The root, with the node itself and its block. -/
theorem rootRamfs_spec :
    createRoot sampleCallbacks freshRamfs = some (4112, rootRamfs) ∧
      ∃ owned free b, HeapInv owned rootRamfs.heap free [b] ∧ NodeBlock b 4112 ∧
        rootRamfs.poolCount = 1 ∧ NewNode rootRamfs.mem 4112 true 0 4112 0 [SLASH] := by
  obtain ⟨n, s', owned, free, held, hcall, hinv, hresult⟩ :=
    createRoot_spec freshRamfs_heapInv sampleCallbacks
  have hroot : rootRamfs = s' := by rw [rootRamfs, hcall, Option.getD_some]
  have hptr : (createRoot sampleCallbacks freshRamfs).map Prod.fst = some 4112 := by decide
  rw [hcall, Option.map_some, Option.some.injEq] at hptr
  dsimp only at hptr
  subst hptr
  rw [hroot]
  rcases hresult with ⟨hzero, -⟩ | ⟨b, rfl, hblock, -, hcount, hnew⟩
  · exact absurd hzero (by decide)
  · exact ⟨hcall, owned, free, b, hinv, hblock, hcount, hnew⟩

theorem rootRamfs_ready :
    ∃ owned free held, HeapInv owned rootRamfs.heap free held ∧ NodeIn held 4112 ∧
      hasFlag rootRamfs.mem FS_DIR 4112 = true := by
  obtain ⟨-, owned, free, b, hinv, hblock, -, hnew⟩ := rootRamfs_spec
  refine ⟨owned, free, [b], hinv, ⟨b, List.mem_singleton_self b, hblock⟩, ?_⟩
  rw [hasFlag, hnew.flags_eq]
  decide

/-- The next node comes behind the root. -/
theorem create_rootRamfs (dir : Bool) (name : CString) (hname : name.length < NODE_SIZE)
    (hnul : 0 ∉ name) : ∃ s', create sampleCallbacks dir rootRamfs 4112 name = some (4572, s') := by
  obtain ⟨owned, free, held, hinv, hroot, hdir⟩ := rootRamfs_ready
  obtain ⟨n, s', -, -, -, hcall, -⟩ := create_spec hinv hroot hdir hname hnul sampleCallbacks dir
  have hptr : (allocNode rootRamfs).map Prod.fst = some 4572 := by decide
  rw [← create_fst (by decide) hdir, hcall, Option.map_some, Option.some.injEq] at hptr
  exact ⟨s', hptr ▸ hcall⟩

end Ramfs

end NemoOS
