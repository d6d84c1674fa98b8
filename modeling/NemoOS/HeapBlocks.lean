import Mathlib
import NemoOS.Kmalloc
import NemoOS.Lib.DoublyLinked

/-!
# Blocks of the kernel heap

The layout of the heap is kept apart from its memory. A layout is a list of blocks,
pairs of an address and a size; `Tidy` says that they are disjoint and lie in pages
of the heap, and the operations of the allocator split, merge, add and drop blocks.
Memory comes in through `Formatted`, which says that the header words of a block are
as the layout has it, and through the link words of the blocks on the free list.

The lemmas about the list operations at the end of the module say what becomes of
the list and that nothing but link words changes.
-/

namespace NemoOS

open Words Bytes Loops Linked

/-! ## Header words -/

/-- Two headers do not overlap. -/
def Apart (b c : Nat) : Prop := b + 16 ≤ c ∨ c + 16 ≤ b

theorem HeaderField.offset_le (f : HeaderField) : f.offset ≤ 12 := by
  cases f <;> decide

theorem HeaderField.offset_apart {f g : HeaderField} (h : f ≠ g) :
    f.offset + 4 ≤ g.offset ∨ g.offset + 4 ≤ f.offset := by
  cases f <;> cases g <;> first | exact absurd rfl h | decide

theorem field_lt (m : Memory) (f : HeaderField) (b : Nat) : field m f b < 2 ^ 32 := read32_lt m _

theorem field_congr {m m' : Memory} (f : HeaderField) {b : Nat} (hb : b + 16 ≤ 2 ^ 32)
    (h : ∀ x, b + f.offset ≤ x → x < b + f.offset + 4 → m' x = m x) :
    field m' f b = field m f b := by
  have hf := f.offset_le
  exact read32_congr (by omega) h

theorem setField_of_outside {m : Memory} {f : HeaderField} {b v x : Nat} (hb : b + 16 ≤ 2 ^ 32)
    (hx : x < b + f.offset ∨ b + f.offset + 4 ≤ x) : setField m f b v x = m x := by
  have hf := f.offset_le
  exact write32_of_outside (by omega) (by omega)

theorem field_setField_self {m : Memory} {f : HeaderField} {b v : Nat} (hb : b + 16 ≤ 2 ^ 32)
    (hv : v < 2 ^ 32) : field (setField m f b v) f b = v := by
  have hf := f.offset_le
  exact read32_write32_self (by omega) hv

theorem field_setField_of_ne {m : Memory} {f g : HeaderField} {b v : Nat} (hb : b + 16 ≤ 2 ^ 32)
    (h : f ≠ g) : field (setField m f b v) g b = field m g b := by
  have hf := f.offset_le
  have hg := g.offset_le
  have hfg := HeaderField.offset_apart h
  exact read32_write32_of_disjoint (by omega) (by omega) (by omega)

theorem field_setField_of_apart {m : Memory} {f g : HeaderField} {b c v : Nat}
    (hb : b + 16 ≤ 2 ^ 32) (hc : c + 16 ≤ 2 ^ 32) (h : Apart b c) :
    field (setField m f b v) g c = field m g c := by
  have hf := f.offset_le
  have hg := g.offset_le
  unfold Apart at h
  exact read32_write32_of_disjoint (by omega) (by omega) (by omega)

/-! ## Layouts -/

structure Block where
  addr : Nat
  size : Nat
deriving DecidableEq, Repr

namespace Block

/-- The address is one of the block's. -/
def Holds (b : Block) (x : Nat) : Prop := b.addr ≤ x ∧ x < b.addr + b.size

/-- The bytes of adjacent blocks. -/
theorem holds_add {addr n k x : Nat} :
    Holds ⟨addr, n + k⟩ x ↔ Holds ⟨addr, n⟩ x ∨ Holds ⟨addr + n, k⟩ x := by
  simp only [Holds]
  omega

def Disjoint (b c : Block) : Prop := b.addr + b.size ≤ c.addr ∨ c.addr + c.size ≤ b.addr

theorem Disjoint.symm {b c : Block} (h : Disjoint b c) : Disjoint c b := Or.symm h

instance : Std.Symm Disjoint := ⟨fun _ _ => Disjoint.symm⟩

theorem Disjoint.not_holds {b c : Block} (h : Disjoint b c) {x : Nat} (hb : b.Holds x) :
    ¬ c.Holds x := by
  unfold Disjoint at h
  unfold Holds at hb ⊢
  omega

/-- A block with room for its header and footer, inside the address space and in
    pages of the heap. -/
structure Sound (owned : Nat → Prop) (b : Block) : Prop where
  addr_pos : 0 < b.addr
  min_size : 32 ≤ b.size
  in_space : b.addr + b.size ≤ 2 ^ 32
  in_heap : ∀ x, b.Holds x → owned (x / PAGE_SIZE)

/-- The header of the block whose payload is freed. -/
theorem Sound.header_eq {owned : Nat → Prop} {b : Block} (h : b.Sound owned) :
    sub32 (b.addr + 16) HEADER_SIZE = b.addr := by
  have hmin := h.min_size
  have hspace := h.in_space
  rw [sub32, u32, HEADER_SIZE]
  omega

end Block

/-- The address lies in one of the blocks. -/
def InBlocks (blocks : List Block) (x : Nat) : Prop := ∃ b ∈ blocks, b.Holds x

@[simp] theorem inBlocks_nil {x : Nat} : InBlocks [] x ↔ False := by simp [InBlocks]

@[simp] theorem inBlocks_cons {b : Block} {blocks : List Block} {x : Nat} :
    InBlocks (b :: blocks) x ↔ b.Holds x ∨ InBlocks blocks x := by
  simp [InBlocks]

@[simp] theorem inBlocks_append {blocks blocks' : List Block} {x : Nat} :
    InBlocks (blocks ++ blocks') x ↔ InBlocks blocks x ∨ InBlocks blocks' x := by
  simp [InBlocks, or_and_right, exists_or]

/-- A block in the middle of a list. -/
theorem inBlocks_middle {xs ys : List Block} {c : Block} {x : Nat} :
    InBlocks (xs ++ c :: ys) x ↔ c.Holds x ∨ InBlocks (xs ++ ys) x := by
  rw [inBlocks_append, inBlocks_cons, inBlocks_append, or_left_comm]

/-- Taking a block out of a list, merging it with `b` and putting the result at the end. -/
theorem inBlocks_merge {xs ys : List Block} {b c merged : Block} {x : Nat}
    (hmerged : merged.Holds x ↔ b.Holds x ∨ c.Holds x) :
    InBlocks (b :: (xs ++ c :: ys)) x ↔ InBlocks (xs ++ ys ++ [merged]) x := by
  rw [inBlocks_cons, inBlocks_middle, inBlocks_middle, List.append_nil, hmerged, or_assoc]

/-- The same with two blocks of the list. -/
theorem inBlocks_merge_both {xs ys us vs : List Block} {b c d merged : Block} {x : Nat}
    (hrest : xs ++ ys = us ++ d :: vs)
    (hmerged : merged.Holds x ↔ c.Holds x ∨ b.Holds x ∨ d.Holds x) :
    InBlocks (b :: (xs ++ c :: ys)) x ↔ InBlocks (us ++ vs ++ [merged]) x := by
  rw [inBlocks_cons, inBlocks_middle, hrest, inBlocks_middle, inBlocks_middle, List.append_nil,
    hmerged, or_left_comm, or_assoc, or_assoc]

/-- The blocks are sound and disjoint. -/
structure Tidy (owned : Nat → Prop) (blocks : List Block) : Prop where
  sound : ∀ b ∈ blocks, b.Sound owned
  disjoint : blocks.Pairwise Block.Disjoint

namespace Tidy

variable {owned : Nat → Prop} {blocks blocks' rest : List Block} {b c : Block}

theorem perm (h : Tidy owned blocks) (hperm : blocks.Perm blocks') : Tidy owned blocks' where
  sound := fun b hb => h.sound b (hperm.mem_iff.mpr hb)
  disjoint := (hperm.pairwise_iff Block.Disjoint.symm).mp h.disjoint

theorem tail (h : Tidy owned (b :: rest)) : Tidy owned rest where
  sound := fun c hc => h.sound c (List.mem_cons_of_mem _ hc)
  disjoint := (List.pairwise_cons.mp h.disjoint).2

theorem mono {owned' : Nat → Prop} (h : Tidy owned blocks) (hle : ∀ page, owned page → owned' page) :
    Tidy owned' blocks where
  sound := fun b hb =>
    let hs := h.sound b hb
    ⟨hs.addr_pos, hs.min_size, hs.in_space, fun x hx => hle _ (hs.in_heap x hx)⟩
  disjoint := h.disjoint

theorem cons (h : Tidy owned rest) (hb : b.Sound owned) (hdisjoint : ∀ c ∈ rest, b.Disjoint c) :
    Tidy owned (b :: rest) where
  sound := by
    intro c hc
    rcases List.mem_cons.mp hc with rfl | hc
    · exact hb
    · exact h.sound c hc
  disjoint := List.pairwise_cons.mpr ⟨hdisjoint, h.disjoint⟩

/-- Cutting a block in two. -/
theorem split {addr n k : Nat} (h : Tidy owned (⟨addr, n + k⟩ :: rest)) (hn : 32 ≤ n)
    (hk : 32 ≤ k) : Tidy owned (⟨addr, n⟩ :: ⟨addr + n, k⟩ :: rest) := by
  obtain ⟨hpos, -, hspace, hheap⟩ := h.sound _ List.mem_cons_self
  have hdisjoint := (List.pairwise_cons.mp h.disjoint).1
  simp only [Block.Holds, Block.Disjoint] at hpos hspace hheap hdisjoint
  refine (h.tail.cons ?_ ?_).cons ?_ ?_
  · refine ⟨by simp only; omega, hk, by simp only; omega, fun x hx => hheap x ?_⟩
    simp only [Block.Holds] at hx
    omega
  · intro c hc
    have hc' := hdisjoint c hc
    simp only [Block.Disjoint]
    omega
  · refine ⟨hpos, hn, by simp only; omega, fun x hx => hheap x ?_⟩
    simp only [Block.Holds] at hx
    omega
  · intro c hc
    simp only [Block.Disjoint]
    rcases List.mem_cons.mp hc with rfl | hc
    · exact Or.inl (le_refl _)
    · have hc' := hdisjoint c hc
      omega

/-- Joining two adjacent blocks. -/
theorem merge {addr n k : Nat} (h : Tidy owned (⟨addr, n⟩ :: ⟨addr + n, k⟩ :: rest)) :
    Tidy owned (⟨addr, n + k⟩ :: rest) := by
  obtain ⟨hpos, hmin, -, hheap⟩ := h.sound _ List.mem_cons_self
  obtain ⟨-, hmin', hspace', hheap'⟩ := h.sound _ (List.mem_cons_of_mem _ List.mem_cons_self)
  have hfirst := (List.pairwise_cons.mp h.disjoint).1
  have hsecond := (List.pairwise_cons.mp h.tail.disjoint).1
  simp only [Block.Holds, Block.Disjoint] at hpos hmin hheap hmin' hspace' hheap' hfirst hsecond
  refine h.tail.tail.cons ⟨hpos, ?_, ?_, ?_⟩ ?_
  · simp only
    omega
  · simp only
    omega
  · intro x hx
    simp only [Block.Holds] at hx
    by_cases hlt : x < addr + n
    · exact hheap x ⟨hx.1, hlt⟩
    · exact hheap' x (by omega)
  · intro c hc
    have hc₁ := hfirst c (List.mem_cons_of_mem _ hc)
    have hc₂ := hsecond c hc
    simp only [Block.Disjoint]
    have hc := h.sound c (List.mem_cons_of_mem _ (List.mem_cons_of_mem _ hc))
    have hmin_c := hc.min_size
    omega

theorem disjoint_of_ne (h : Tidy owned blocks) (hb : b ∈ blocks) (hc : c ∈ blocks)
    (hne : b ≠ c) : b.Disjoint c :=
  h.disjoint.forall hb hc hne

end Tidy

/-! ## Memory and layout -/

/-- The header of the block has its size and the magic. -/
structure Formatted (m : Memory) (b : Block) : Prop where
  size_eq : field m .size b.addr = b.size
  magic_eq : field m .magic b.addr = HEAP_MAGIC

theorem Formatted.congr {m m' : Memory} {b : Block} (h : Formatted m b)
    (hb : b.addr + 16 ≤ 2 ^ 32) (heq : ∀ x, b.addr ≤ x → x < b.addr + 8 → m' x = m x) :
    Formatted m' b := by
  constructor
  · rw [field_congr .size hb, h.size_eq]
    intro x hle hlt
    simp only [HeaderField.offset] at hle hlt
    exact heq x (by omega) (by omega)
  · rw [field_congr .magic hb, h.magic_eq]
    intro x hle hlt
    simp only [HeaderField.offset] at hle hlt
    exact heq x (by omega) (by omega)

/-- The address is in the link words of one of the nodes. -/
def LinkWord (nodes : List Nat) (x : Nat) : Prop := ∃ n ∈ nodes, n + 8 ≤ x ∧ x < n + 16

/-- Nothing but link words of the nodes changes. -/
def OnlyLinks (nodes : List Nat) (m m' : Memory) : Prop := ∀ x, ¬ LinkWord nodes x → m' x = m x

/-- Headers inside the address space that do not overlap. -/
structure Separated (nodes : List Nat) : Prop where
  in_space : ∀ n ∈ nodes, n + 16 ≤ 2 ^ 32
  apart : ∀ n ∈ nodes, ∀ k ∈ nodes, n ≠ k → Apart n k

theorem Separated.mono {nodes nodes' : List Nat} (h : Separated nodes)
    (hsub : ∀ n ∈ nodes', n ∈ nodes) : Separated nodes' where
  in_space := fun n hn => h.in_space n (hsub n hn)
  apart := fun n hn k hk => h.apart n (hsub n hn) k (hsub k hk)

theorem Tidy.separated {owned : Nat → Prop} {blocks : List Block} (h : Tidy owned blocks) :
    Separated (blocks.map Block.addr) where
  in_space := by
    intro n hn
    obtain ⟨b, hb, rfl⟩ := List.mem_map.mp hn
    have hmin := (h.sound b hb).min_size
    have hspace := (h.sound b hb).in_space
    omega
  apart := by
    intro n hn k hk hne
    obtain ⟨b, hb, rfl⟩ := List.mem_map.mp hn
    obtain ⟨c, hc, rfl⟩ := List.mem_map.mp hk
    have hdisjoint := h.disjoint_of_ne hb hc fun heq => hne (heq ▸ rfl)
    have hmin := (h.sound b hb).min_size
    have hmin' := (h.sound c hc).min_size
    unfold Block.Disjoint at hdisjoint
    unfold Apart
    omega

/-- Setting a field of one node is an update of that field of all nodes. -/
theorem field_setField {nodes : List Nat} (h : Separated nodes) {m : Memory} {f : HeaderField}
    {n v x : Nat} (hn : n ∈ nodes) (hx : x ∈ nodes) (hv : v < 2 ^ 32) :
    field (setField m f n v) f x = if x = n then v else field m f x := by
  by_cases heq : x = n
  · subst heq
    rw [if_pos rfl, field_setField_self (h.in_space x hx) hv]
  · rw [if_neg heq, field_setField_of_apart (h.in_space n hn) (h.in_space x hx)
      (h.apart n hn x hx (Ne.symm heq))]

theorem field_setField_other {nodes : List Nat} (h : Separated nodes) {m : Memory}
    {f g : HeaderField} {n v x : Nat} (hn : n ∈ nodes) (hx : x ∈ nodes) (hfg : f ≠ g) :
    field (setField m f n v) g x = field m g x := by
  by_cases heq : x = n
  · subst heq
    exact field_setField_of_ne (h.in_space x hx) hfg
  · exact field_setField_of_apart (h.in_space n hn) (h.in_space x hx)
      (h.apart n hn x hx (Ne.symm heq))

theorem onlyLinks_setField {nodes : List Nat} (h : Separated nodes) {m : Memory}
    {f : HeaderField} {n v : Nat} (hn : n ∈ nodes) (hf : 8 ≤ f.offset) :
    OnlyLinks nodes m (setField m f n v) := by
  intro x hx
  have hle := f.offset_le
  apply setField_of_outside (h.in_space n hn)
  by_contra hin
  exact hx ⟨n, hn, by omega, by omega⟩

theorem OnlyLinks.trans {nodes : List Nat} {m m' m'' : Memory} (h : OnlyLinks nodes m m')
    (h' : OnlyLinks nodes m' m'') : OnlyLinks nodes m m'' := by
  intro x hx
  rw [h' x hx, h x hx]

section setLink

variable {nodes : List Nat} (h : Separated nodes) (hnull : 0 ∉ nodes) {m : Memory}
  {f g : HeaderField} {n v x : Nat} (hn : n ≠ 0 → n ∈ nodes)

include h hn

include hnull in
theorem field_setLink (hx : x ∈ nodes) (hv : v < 2 ^ 32) :
    field (setLink m f n v) f x = if x = n then v else field m f x := by
  by_cases hzero : n = 0
  · have hne : x ≠ n := by
      rintro rfl
      exact hnull (hzero ▸ hx)
    rw [setLink, if_neg (not_not.mpr hzero), if_neg hne]
  · rw [setLink, if_pos hzero, field_setField h (hn hzero) hx hv]

theorem field_setLink_other (hx : x ∈ nodes) (hfg : f ≠ g) :
    field (setLink m f n v) g x = field m g x := by
  rw [setLink]
  split
  · next hne => exact field_setField_other h (hn hne) hx hfg
  · rfl

theorem onlyLinks_setLink (hf : 8 ≤ f.offset) : OnlyLinks nodes m (setLink m f n v) := by
  rw [setLink]
  split
  · next hne => exact onlyLinks_setField h (hn hne) hf
  · exact fun _ _ => rfl

end setLink

/-! ## The list operations -/

/-- The nodes of the free list. -/
def Heap.FreeList (s : Heap) (nodes : List Nat) : Prop :=
  IsList (field s.mem .next) (field s.mem .prev) 0 s.freeList nodes

/-- The list does not depend on memory other than the headers of its nodes. -/
theorem Heap.FreeList.congr {s s' : Heap} {nodes : List Nat} (h : s.FreeList nodes)
    (hsep : Separated nodes) (hhead : s'.freeList = s.freeList)
    (hmem : ∀ n ∈ nodes, ∀ x, n ≤ x → x < n + 16 → s'.mem x = s.mem x) : s'.FreeList nodes := by
  unfold FreeList at h ⊢
  rw [hhead]
  have hfield : ∀ (f : HeaderField), ∀ n ∈ nodes, field s'.mem f n = field s.mem f n := by
    intro f n hn
    have hf := f.offset_le
    exact field_congr f (hsep.in_space n hn) fun x hle hlt =>
      hmem n hn x (by omega) (by omega)
  exact IsList.congr h (hfield .next) (hfield .prev)

/-- Walks along the list end. -/
theorem Heap.FreeList.length_lt {s : Heap} {nodes : List Nat} (h : s.FreeList nodes)
    (hsep : Separated nodes) : nodes.length < WALK_LIMIT := by
  have hnodup : (0 :: nodes).Nodup := List.nodup_cons.mpr ⟨h.null_notMem, h.nodup⟩
  have hsub : (0 :: nodes) ⊆ List.range (2 ^ 32) := by
    intro n hn
    rw [List.mem_range]
    rcases List.mem_cons.mp hn with rfl | hn
    · exact Nat.two_pow_pos 32
    · have hspace := hsep.in_space n hn
      omega
  have hle := (List.subperm_of_subset hnodup hsub).length_le
  rwa [List.length_range] at hle

@[simp]
theorem Heap.listRemove_pmm (s : Heap) (h : Nat) : (s.listRemove h).pmm = s.pmm := rfl

@[simp]
theorem Heap.splitBlock_pmm (s : Heap) (h needed : Nat) : (s.splitBlock h needed).pmm = s.pmm := rfl

/-- Linking the block before to the one behind does not touch the links of the block. -/
theorem Heap.next_of_bypass {s : Heap} {xs ys : List Nat} {h : Nat}
    (hlist : s.FreeList (xs ++ h :: ys)) (hsep : Separated (xs ++ h :: ys)) :
    field (setLink s.mem .next (field s.mem .prev h) (field s.mem .next h)) .next h =
      field s.mem .next h := by
  obtain ⟨-, hfresh, -, hne⟩ := IsList.nodup_cut hlist
  have hp := IsList.prev_mem hlist
  have hsub : ∀ x ∈ xs ++ ys, x ∈ xs ++ h :: ys :=
    ((List.sublist_cons_self h ys).append_left xs).subset
  rw [field_setLink hsep hlist.null_notMem (fun h' => hsub _ (hp h')) (by simp) (field_lt _ _ _),
    if_neg (IsList.ne_neighbours hlist hfresh hne).1]

theorem Heap.listRemove_spec {s : Heap} {xs ys : List Nat} {h : Nat}
    (hlist : s.FreeList (xs ++ h :: ys)) (hsep : Separated (xs ++ h :: ys)) :
    (s.listRemove h).FreeList (xs ++ ys) ∧ OnlyLinks (xs ++ ys) s.mem (s.listRemove h).mem := by
  obtain ⟨-, hfresh, -, hne⟩ := IsList.nodup_cut hlist
  have hsub : ∀ x ∈ xs ++ ys, x ∈ xs ++ h :: ys :=
    ((List.sublist_cons_self h ys).append_left xs).subset
  have hself : h ∈ xs ++ h :: ys := by simp
  have hp := IsList.prev_mem hlist
  have hn := IsList.next_mem hlist
  have hp_ne : h ≠ field s.mem .prev h := (IsList.ne_neighbours hlist hfresh hne).1
  -- the links after the first write
  have hnext₁ : ∀ x ∈ xs ++ h :: ys, field
      (setLink s.mem .next (field s.mem .prev h) (field s.mem .next h)) .next x =
        if x = field s.mem .prev h then field s.mem .next h else field s.mem .next x := fun x hx =>
    field_setLink hsep hlist.null_notMem (fun h' => hsub _ (hp h')) hx (field_lt _ _ _)
  have hprev₁ : ∀ x ∈ xs ++ h :: ys, field
      (setLink s.mem .next (field s.mem .prev h) (field s.mem .next h)) .prev x =
        field s.mem .prev x := fun x hx =>
    field_setLink_other hsep (fun h' => hsub _ (hp h')) hx (by decide)
  have hnext_h := next_of_bypass hlist hsep
  have hmem : (s.listRemove h).mem =
      setLink (setLink s.mem .next (field s.mem .prev h) (field s.mem .next h)) .prev
        (field s.mem .next h) (field s.mem .prev h) := by
    simp only [listRemove, hnext_h, hprev₁ h hself]
  have hnext : ∀ x ∈ xs ++ h :: ys, field (s.listRemove h).mem .next x =
      if x = field s.mem .prev h then field s.mem .next h else field s.mem .next x := by
    intro x hx
    rw [hmem, field_setLink_other hsep (fun h' => hsub _ (hn h')) hx (by decide), hnext₁ x hx]
  have hprev : ∀ x ∈ xs ++ h :: ys, field (s.listRemove h).mem .prev x =
      if x = field s.mem .next h then field s.mem .prev h else field s.mem .prev x := by
    intro x hx
    rw [hmem, field_setLink hsep hlist.null_notMem (fun h' => hsub _ (hn h')) hx (field_lt _ _ _),
      hprev₁ x hx]
  constructor
  · apply IsList.remove hlist
    · exact fun x hx => hnext x (hsub x hx)
    · exact fun x hx => hprev x (hsub x hx)
    · have hhead := hnext h hself
      rw [if_neg hp_ne] at hhead
      change (if s.freeList = h then field (s.listRemove h).mem .next h else s.freeList) = _
      rw [hhead]
      simp only [IsList.head_eq_iff hlist]
  · have hsep' := hsep.mono hsub
    rw [hmem]
    exact (onlyLinks_setLink hsep' hp (by decide)).trans (onlyLinks_setLink hsep' hn (by decide))

/-- The links after a block has got a successor and a block, maybe the same, a predecessor. -/
theorem field_setLinks {nodes : List Nat} {m : Memory} {a b n p : Nat} (hsep : Separated nodes)
    (ha : a ∈ nodes) (hb : b ∈ nodes) (hn : n < 2 ^ 32) (hp : p < 2 ^ 32) :
    (∀ x ∈ nodes, field (setField (setField m .next a n) .prev b p) .next x =
      if x = a then n else field m .next x) ∧
    ∀ x ∈ nodes, field (setField (setField m .next a n) .prev b p) .prev x =
      if x = b then p else field m .prev x := by
  constructor
  · intro x hx
    rw [field_setField_other hsep hb hx (by decide), field_setField hsep ha hx hn]
  · intro x hx
    rw [field_setField hsep hb hx hp, field_setField_other hsep ha hx (by decide)]

theorem onlyLinks_setLinks {nodes : List Nat} {m : Memory} {a b : Nat} (hsep : Separated nodes)
    (ha : a ∈ nodes) (hb : b ∈ nodes) (n p : Nat) :
    OnlyLinks nodes m (setField (setField m .next a n) .prev b p) :=
  (onlyLinks_setField hsep ha (by decide)).trans (onlyLinks_setField hsep hb (by decide))

/-- The loop that looks for the end of the list. -/
theorem loop_lastStep {m : Memory} {head : Nat} {nodes : List Nat}
    (hlist : IsList (field m .next) (field m .prev) 0 head nodes) (hne : nodes ≠ [])
    (hlength : nodes.length < WALK_LIMIT) :
    loop (Heap.lastStep m) WALK_LIMIT head = some (nodes.getLastD 0) := by
  apply hlist.loop_last hne _ _ hlength
  · intro x _ hx
    rw [Heap.lastStep, if_neg (not_not.mpr hx)]
  · intro x _ hx
    rw [Heap.lastStep, if_pos hx]

/-- A block that is not on the list may have its links cleared. -/
theorem Heap.FreeList.clearLinks {s : Heap} {nodes : List Nat} {h : Nat} (hlist : s.FreeList nodes)
    (hsep : Separated (nodes ++ [h])) (hfresh : h ∉ nodes) :
    IsList (field (setField (setField s.mem .next h 0) .prev h 0) .next)
      (field (setField (setField s.mem .next h 0) .prev h 0) .prev) 0 s.freeList nodes := by
  have hself : h ∈ nodes ++ [h] := List.mem_append_right _ (List.mem_singleton_self h)
  obtain ⟨hnext, hprev⟩ := field_setLinks (m := s.mem) hsep hself hself (Nat.two_pow_pos 32)
    (Nat.two_pow_pos 32)
  have hx_ne : ∀ x ∈ nodes, x ≠ h := fun x hx heq => hfresh (heq ▸ hx)
  apply IsList.congr hlist
  · intro x hx
    rw [hnext x (List.mem_append_left _ hx), if_neg (hx_ne x hx)]
  · intro x hx
    rw [hprev x (List.mem_append_left _ hx), if_neg (hx_ne x hx)]

theorem Heap.listAppend_spec {s : Heap} {nodes : List Nat} {h : Nat} (hlist : s.FreeList nodes)
    (hsep : Separated (nodes ++ [h])) (hfresh : h ∉ nodes) (hne : h ≠ 0) :
    ∃ s', s.listAppend h = some s' ∧ s'.FreeList (nodes ++ [h]) ∧
      OnlyLinks (nodes ++ [h]) s.mem s'.mem ∧ s'.heapEnd = s.heapEnd ∧ s'.pmm = s.pmm := by
  have hself : h ∈ nodes ++ [h] := List.mem_append_right _ (List.mem_singleton_self h)
  have hsub : ∀ x ∈ nodes, x ∈ nodes ++ [h] := fun x hx => List.mem_append_left _ hx
  have hx_ne : ∀ x ∈ nodes, x ≠ h := fun x hx heq => hfresh (heq ▸ hx)
  have hclear := onlyLinks_setLinks (m := s.mem) hsep hself hself 0 0
  have hlist' := hlist.clearLinks hsep hfresh
  obtain ⟨hnext, hprev⟩ := field_setLinks (m := s.mem) hsep hself hself (Nat.two_pow_pos 32)
    (Nat.two_pow_pos 32)
  rw [listAppend]
  -- the memory once the links of the new node are cleared
  generalize setField (setField s.mem .next h 0) .prev h 0 = m at hclear hlist' hnext hprev ⊢
  by_cases hempty : nodes = []
  · refine ⟨_, if_pos ((IsList.head_eq_null_iff hlist).mpr hempty), ?_, hclear, rfl, rfl⟩
    subst hempty
    apply IsList.append hlist' hfresh hne
    · exact fun x hx => absurd hx List.not_mem_nil
    · exact fun x hx => absurd hx List.not_mem_nil
    · exact (hnext h hself).trans (if_pos rfl)
    · exact (hprev h hself).trans (if_pos rfl)
    · rfl
  · have hhead : s.freeList ≠ 0 := mt (IsList.head_eq_null_iff hlist).mp hempty
    have hlast_mem : nodes.getLastD 0 ∈ nodes := by
      rw [List.getLastD_eq_getLast?, List.getLast?_eq_some_getLast hempty]
      exact List.getLast_mem hempty
    rw [if_neg hhead, loop_lastStep hlist' hempty (hlist.length_lt (hsep.mono hsub))]
    generalize hlast : nodes.getLastD 0 = last at hlast_mem ⊢
    have hspace : ∀ x ∈ nodes ++ [h], x < 2 ^ 32 := by
      intro x hx
      have := hsep.in_space x hx
      omega
    obtain ⟨hnext', hprev'⟩ := field_setLinks (m := m) hsep (hsub last hlast_mem) hself
      (hspace h hself) (hspace last (hsub last hlast_mem))
    refine ⟨_, rfl, ?_, hclear.trans (onlyLinks_setLinks hsep (hsub last hlast_mem) hself _ _), rfl,
      rfl⟩
    apply IsList.append hlist' hfresh hne
    · rw [hlast]
      exact fun x hx => hnext' x (hsub x hx)
    · exact fun x hx => (hprev' x (hsub x hx)).trans (if_neg (hx_ne x hx))
    · refine (hnext' h hself).trans ?_
      rw [if_neg (hx_ne last hlast_mem).symm, hnext h hself, if_pos rfl]
    · rw [hlast]
      exact (hprev' h hself).trans (if_pos rfl)
    · rw [if_neg hempty]

/-- A block gets its two links and its neighbours, where there are any, theirs to it. -/
def relink (m : Memory) (split N P : Nat) : Memory :=
  setLink (setLink (setField (setField m .next split N) .prev split P) .prev N split) .next P split

theorem field_relink {nodes : List Nat} {m : Memory} {split N P h : Nat} (hsep : Separated nodes)
    (hzero : 0 ∉ nodes) (hsplit : split ∈ nodes) (hself : h ∈ nodes) (hP : P ≠ 0 → P ∈ nodes)
    (hN : N ≠ 0 → N ∈ nodes) (hP_lt : P < 2 ^ 32) (hN_lt : N < 2 ^ 32) (size : Nat) :
    (∀ x ∈ nodes, field (setField (relink m split N P) .size h size) .next x =
      if x = P then split else if x = split then N else field m .next x) ∧
    ∀ x ∈ nodes, field (setField (relink m split N P) .size h size) .prev x =
      if x = N then split else if x = split then P else field m .prev x := by
  have hsplit_lt : split < 2 ^ 32 := by
    have := hsep.in_space split hsplit
    omega
  obtain ⟨hnext, hprev⟩ := field_setLinks (m := m) hsep hsplit hsplit hN_lt hP_lt
  constructor
  · intro x hx
    rw [field_setField_other hsep hself hx (by decide), relink,
      field_setLink hsep hzero hP hx hsplit_lt, field_setLink_other hsep hN hx (by decide),
      hnext x hx]
  · intro x hx
    rw [field_setField_other hsep hself hx (by decide), relink,
      field_setLink_other hsep hP hx (by decide), field_setLink hsep hzero hN hx hsplit_lt,
      hprev x hx]

/-- What `splitBlock` writes. `m` is the memory once the new block is formatted; the block
    that is split keeps its links until the end. -/
theorem Heap.splitBlock_eq {s : Heap} {nodes : List Nat} {h needed split N P : Nat} {m : Memory}
    (hsplit : split = u32 (h + needed))
    (hm : m = formatBlock s.mem split (field s.mem .size h - needed)) (hsep : Separated nodes)
    (hself : h ∈ nodes) (hsplit_mem : split ∈ nodes) (hzero : 0 ∉ nodes) (hne : h ≠ split)
    (hN : field m .next h = N) (hP : field m .prev h = P) (hN_node : N ≠ 0 → N ∈ nodes)
    (hN_ne : h ≠ N) :
    s.splitBlock h needed =
      { s with
        mem := setField (relink m split N P) .size h needed
        freeList := if P ≠ 0 then s.freeList else split } := by
  have hN_lt : N < 2 ^ 32 := hN ▸ field_lt _ _ _
  have hP_lt : P < 2 ^ 32 := hP ▸ field_lt _ _ _
  obtain ⟨hnext, hprev⟩ := field_setLinks (m := m) hsep hsplit_mem hsplit_mem hN_lt hP_lt
  have hprev₂ : field (setField m .next split N) .prev h = P := by
    rw [field_setField_other hsep hsplit_mem hself (by decide), hP]
  have hnext₃ : field (setField (setField m .next split N) .prev split P) .next h = N := by
    rw [hnext h hself, if_neg hne, hN]
  have hprev₄ : field (setLink (setField (setField m .next split N) .prev split P) .prev N split)
      .prev h = P := by
    rw [field_setLink hsep hzero hN_node hself (hsplit ▸ u32_lt _), if_neg hN_ne, hprev h hself,
      if_neg hne, hP]
  simp only [splitBlock, relink, ← hsplit, ← hm, hN, hprev₂, hnext₃, hprev₄]

/-- The block that is split off takes the place of the block in the list. `m` is the
    memory once the new block is formatted. -/
theorem Heap.splitBlock_spec {s : Heap} {xs ys : List Nat} {h needed split : Nat} {m : Memory}
    (hsplit : split = u32 (h + needed))
    (hm : m = formatBlock s.mem split (field s.mem .size h - needed))
    (hlist : s.FreeList (xs ++ h :: ys)) (hsep : Separated (split :: (xs ++ h :: ys)))
    (hfresh : split ∉ xs ++ h :: ys) (hne : split ≠ 0)
    (hkeep : ∀ f, ∀ x ∈ xs ++ h :: ys, field m f x = field s.mem f x) :
    (s.splitBlock h needed).FreeList (xs ++ split :: ys) ∧
      ∃ m', OnlyLinks (split :: (xs ++ ys)) m m' ∧
        (s.splitBlock h needed).mem = setField m' .size h needed := by
  obtain ⟨-, hh_fresh, hnull, hh_ne⟩ := IsList.nodup_cut hlist
  have hself : h ∈ split :: (xs ++ h :: ys) := by simp
  have hsplit_mem : split ∈ split :: (xs ++ h :: ys) := List.mem_cons_self
  have hsub : ∀ x ∈ xs ++ ys, x ∈ xs ++ h :: ys :=
    ((List.sublist_cons_self h ys).append_left xs).subset
  have hzero : 0 ∉ split :: (xs ++ h :: ys) := by
    intro hmem
    rcases List.mem_cons.mp hmem with heq | hmem
    · exact hne heq.symm
    · exact hlist.null_notMem hmem
  have hold : ∀ x ∈ xs ++ h :: ys, x ∈ split :: (xs ++ h :: ys) ∧ x ≠ split := by
    intro x hx
    refine ⟨List.mem_cons_of_mem _ hx, ?_⟩
    rintro rfl
    exact hfresh hx
  -- the neighbours of the block
  generalize hP : field s.mem .prev h = P
  generalize hN : field s.mem .next h = N
  have hP_mem : P ≠ 0 → P ∈ xs ++ ys := hP ▸ IsList.prev_mem hlist
  have hN_mem : N ≠ 0 → N ∈ xs ++ ys := hN ▸ IsList.next_mem hlist
  have hh_other : h ≠ P ∧ h ≠ N := hP ▸ hN ▸ IsList.ne_neighbours hlist hh_fresh hh_ne
  have hsplit_other : split ≠ P ∧ split ≠ N :=
    hP ▸ hN ▸ IsList.ne_neighbours hlist (fun hx => hfresh (hsub _ hx)) hne
  have hP_lt : P < 2 ^ 32 := hP ▸ field_lt _ _ _
  have hN_lt : N < 2 ^ 32 := hN ▸ field_lt _ _ _
  have hP_node : P ≠ 0 → P ∈ split :: (xs ++ h :: ys) := fun h' => (hold P (hsub P (hP_mem h'))).1
  have hN_node : N ≠ 0 → N ∈ split :: (xs ++ h :: ys) := fun h' => (hold N (hsub N (hN_mem h'))).1
  obtain ⟨hnext, hprev⟩ := field_relink (m := m) hsep hzero hsplit_mem hself hP_node hN_node hP_lt
    hN_lt needed
  have hresult : s.splitBlock h needed =
      { s with
        mem := setField (relink m split N P) .size h needed
        freeList := if P ≠ 0 then s.freeList else split } :=
    splitBlock_eq hsplit hm hsep hself hsplit_mem hzero (hold h (by simp)).2
      ((hkeep .next h (by simp)).trans hN) ((hkeep .prev h (by simp)).trans hP) hN_node
      hh_other.2
  rw [hresult]
  constructor
  · apply IsList.replace hlist (fun hx => hfresh (hsub _ hx)) hne
    · intro x hx
      have hx' := hold x (hsub x hx)
      rw [hnext x hx'.1, if_neg hx'.2, hkeep .next x (hsub x hx), hP]
    · intro x hx
      have hx' := hold x (hsub x hx)
      rw [hprev x hx'.1, if_neg hx'.2, hkeep .prev x (hsub x hx), hN]
    · rw [hnext split hsplit_mem, if_neg hsplit_other.1, if_pos rfl, hN]
    · rw [hprev split hsplit_mem, if_neg hsplit_other.2, if_pos rfl, hP]
    · simp only [← hP, ne_eq, IsList.prev_eq_null_iff hlist, ite_not]
  · have hsep' : Separated (split :: (xs ++ ys)) := by
      apply hsep.mono
      intro x hx
      rcases List.mem_cons.mp hx with rfl | hx
      · exact hsplit_mem
      · exact (hold x (hsub x hx)).1
    refine ⟨relink m split N P, ?_, rfl⟩
    exact ((onlyLinks_setLinks hsep' List.mem_cons_self List.mem_cons_self N P).trans
      (onlyLinks_setLink hsep' (fun h' => List.mem_cons_of_mem _ (hN_mem h')) (by decide))).trans
      (onlyLinks_setLink hsep' (fun h' => List.mem_cons_of_mem _ (hP_mem h')) (by decide))

end NemoOS
