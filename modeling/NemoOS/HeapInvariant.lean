import NemoOS.HeapBlocks

/-!
# The heap invariant

`HeapInv owned s free held` is the invariant of the allocator: the free list has the
blocks of `free`, the blocks of `held` are the others that are accounted for, the
headers of both say what the layout says, and all of them are disjoint and lie in
pages of the heap. A held block is one that `kmalloc` has returned, or one an
operation is working on.

The rules below move blocks between the two lists: a block is taken off the list
(`HeapInv.listRemove`), put on it (`HeapInv.listAppend_body`), dropped (`HeapInv.drop`),
or a block comes in or changes its extent (`HeapInv.hold`). The branches of
`kmalloc` and `kfree` are compositions of them.
-/

namespace NemoOS

open Words Bytes Loops Linked

/-! ## Changes inside blocks -/

/-- Nothing but bytes of the blocks changes. -/
def OnlyIn (blocks : List Block) (m m' : Memory) : Prop :=
  ∀ x, (∀ b ∈ blocks, ¬ b.Holds x) → m' x = m x

section OnlyIn

variable {blocks blocks' : List Block} {m m' m'' : Memory}

theorem OnlyIn.trans (h : OnlyIn blocks m m') (h' : OnlyIn blocks m' m'') :
    OnlyIn blocks m m'' := by
  intro x hx
  rw [h' x hx, h x hx]

theorem OnlyIn.mono (h : OnlyIn blocks m m')
    (hle : ∀ b ∈ blocks, ∀ x, b.Holds x → ∃ c ∈ blocks', c.Holds x) : OnlyIn blocks' m m' := by
  intro x hx
  apply h
  intro b hb hholds
  obtain ⟨c, hc, hc'⟩ := hle b hb x hholds
  exact hx c hc hc'

theorem OnlyIn.of_mem {b : Block} (h : OnlyIn [b] m m') (hb : b ∈ blocks) :
    OnlyIn blocks m m' := by
  apply h.mono
  intro c hc x hx
  rw [List.mem_singleton.mp hc] at hx
  exact ⟨b, hb, hx⟩

theorem OnlyLinks.onlyIn {nodes : List Nat} (h : OnlyLinks nodes m m')
    (hnodes : ∀ n ∈ nodes, ∃ b ∈ blocks, b.addr = n ∧ 32 ≤ b.size) : OnlyIn blocks m m' := by
  intro x hx
  apply h
  rintro ⟨n, hn, hle, hlt⟩
  obtain ⟨b, hb, rfl, hsize⟩ := hnodes n hn
  exact hx b hb ⟨by omega, by omega⟩

end OnlyIn

/-- The bytes of the block other than its link words do not change. -/
def SameBody (m m' : Memory) (b : Block) : Prop :=
  ∀ x, b.Holds x → x < b.addr + 8 ∨ b.addr + 16 ≤ x → m' x = m x

section SameBody

variable {owned : Nat → Prop} {blocks : List Block} {m m' m'' : Memory} {b c : Block}

theorem SameBody.trans (h : SameBody m m' b) (h' : SameBody m' m'' b) : SameBody m m'' b := by
  intro x hx hbody
  rw [h' x hx hbody, h x hx hbody]

/-- Bytes of other blocks are written. -/
theorem OnlyIn.sameBody (h : OnlyIn blocks m m') (hdisjoint : ∀ c ∈ blocks, c.Disjoint b) :
    SameBody m m' b := by
  intro x hx _
  exact h x fun c hc => (hdisjoint c hc).symm.not_holds hx

/-- Links are written. -/
theorem Tidy.sameBody (h : Tidy owned blocks) {nodes : List Nat}
    (hnodes : ∀ n ∈ nodes, ∃ c ∈ blocks, c.addr = n) (hmem : OnlyLinks nodes m m')
    (hb : b ∈ blocks) : SameBody m m' b := by
  intro x hx hbody
  apply hmem
  rintro ⟨n, hn, hle, hlt⟩
  obtain ⟨c, hc, rfl⟩ := hnodes n hn
  by_cases heq : b = c
  · subst heq
    omega
  · have hmin := (h.sound c hc).min_size
    exact (h.disjoint_of_ne hb hc heq).not_holds hx ⟨by omega, by omega⟩

end SameBody

/-! ## Writing a block -/

section writes

variable {owned : Nat → Prop} {m m' : Memory} {b : Block}

theorem setFooter_eq (hb : b.Sound owned) (hsize : field m .size b.addr = b.size) :
    setFooter m b.addr = write32 m (b.addr + b.size - 4) b.size := by
  have hmin := hb.min_size
  have hspace := hb.in_space
  have haddress : sub32 (b.addr + b.size) 4 = b.addr + b.size - 4 := by
    rw [sub32, u32]
    omega
  rw [setFooter, hsize, haddress]

/-- The footer is the last word of the block. -/
theorem setFooter_of_outside (hb : b.Sound owned) (hsize : field m .size b.addr = b.size) {x : Nat}
    (hx : x < b.addr + b.size - 4 ∨ b.addr + b.size ≤ x) : setFooter m b.addr x = m x := by
  have hmin := hb.min_size
  have hspace := hb.in_space
  rw [setFooter_eq hb hsize]
  exact write32_of_outside (by omega) (by omega)

theorem formatted_setFooter (hb : b.Sound owned) (h : Formatted m b) :
    Formatted (setFooter m b.addr) b ∧ OnlyIn [b] m (setFooter m b.addr) := by
  have hmin := hb.min_size
  have hspace := hb.in_space
  constructor
  · apply h.congr (by omega)
    intro x hle hlt
    exact setFooter_of_outside hb h.size_eq (by omega)
  · intro x hx
    have hout := hx b List.mem_cons_self
    unfold Block.Holds at hout
    exact setFooter_of_outside hb h.size_eq (by omega)

/-- The last word of the block is its size. -/
def Footed (m : Memory) (b : Block) : Prop := read32 m (b.addr + b.size - 4) = b.size

theorem footed_setFooter (hb : b.Sound owned) (h : Formatted m b) :
    Footed (setFooter m b.addr) b := by
  have hpos := hb.addr_pos
  have hmin := hb.min_size
  have hspace := hb.in_space
  rw [Footed, setFooter_eq hb h.size_eq]
  exact read32_write32_self (by omega) (by omega)

theorem Footed.congr (hb : b.Sound owned)
    (hsame : ∀ x, b.Holds x → b.addr + b.size - 4 ≤ x → m' x = m x) (h : Footed m b) :
    Footed m' b := by
  have hmin := hb.min_size
  have hspace := hb.in_space
  refine Eq.trans (read32_congr (by omega) fun x hle hlt => ?_) h
  exact hsame x ⟨by omega, by omega⟩ hle

theorem SameBody.footed (hb : b.Sound owned) (hbody : SameBody m m' b) (h : Footed m b) :
    Footed m' b := by
  have hmin := hb.min_size
  exact h.congr hb fun x hx hle => hbody x hx (by omega)

theorem SameBody.formatted (hb : b.Sound owned) (hbody : SameBody m m' b) (h : Formatted m b) :
    Formatted m' b := by
  have hmin := hb.min_size
  have hspace := hb.in_space
  exact h.congr (by omega) fun x hle hlt => hbody x ⟨hle, by omega⟩ (by omega)

theorem onlyIn_setField (hb : b.Sound owned) (f : HeaderField) (v : Nat) :
    OnlyIn [b] m (setField m f b.addr v) := by
  have hmin := hb.min_size
  have hspace := hb.in_space
  intro x hx
  have hf := f.offset_le
  have hout := hx b List.mem_cons_self
  unfold Block.Holds at hout
  exact setField_of_outside (by omega) (by omega)

theorem formatted_header (hb : b.Sound owned) :
    Formatted (setField (setField m .size b.addr b.size) .magic b.addr HEAP_MAGIC) b := by
  have hpos := hb.addr_pos
  have hmin := hb.min_size
  have hspace := hb.in_space
  constructor
  · rw [field_setField_of_ne (by omega) (by decide), field_setField_self (by omega) (by omega)]
  · exact field_setField_self (by omega) (by decide)

/-- Formatting a block. -/
theorem formatted_formatBlock (hb : b.Sound owned) :
    Formatted (formatBlock m b.addr b.size) b ∧ OnlyIn [b] m (formatBlock m b.addr b.size) := by
  obtain ⟨hformatted, honly⟩ := formatted_setFooter hb (formatted_header (m := m) hb)
  exact ⟨hformatted, ((onlyIn_setField hb _ _).trans (onlyIn_setField hb _ _)).trans honly⟩

theorem footed_formatBlock (hb : b.Sound owned) : Footed (formatBlock m b.addr b.size) b :=
  footed_setFooter hb (formatted_header hb)

/-- Enlarging a block. -/
theorem formatted_enlarge {addr n more : Nat} (hb : Block.Sound owned ⟨addr, n + more⟩)
    (h : Formatted m ⟨addr, n⟩) :
    Formatted (Heap.enlarge m addr more) ⟨addr, n + more⟩ ∧
      OnlyIn [⟨addr, n + more⟩] m (Heap.enlarge m addr more) ∧
      Footed (Heap.enlarge m addr more) ⟨addr, n + more⟩ := by
  have hpos := hb.addr_pos
  have hmin := hb.min_size
  have hspace := hb.in_space
  simp only at hpos hmin hspace
  have hsize : u32 (field m .size addr + more) = n + more := by
    rw [h.size_eq]
    exact u32_of_lt (by simp only; omega)
  have hheader : Formatted (setField m .size addr (n + more)) ⟨addr, n + more⟩ := by
    constructor
    · exact field_setField_self (by omega) (by omega)
    · exact (field_setField_of_ne (by omega) (by decide)).trans h.magic_eq
  obtain ⟨hformatted, honly⟩ := formatted_setFooter hb hheader
  have hfooted := footed_setFooter hb hheader
  rw [Heap.enlarge, hsize]
  exact ⟨hformatted, (onlyIn_setField hb _ _).trans honly, hfooted⟩

/-- Clearing the payload. -/
theorem formatted_fill (hb : b.Sound owned) (h : Formatted m b) :
    Formatted (fill m (b.addr + 16) 0 (b.size - 20)) b ∧
      OnlyIn [b] m (fill m (b.addr + 16) 0 (b.size - 20)) := by
  have hmin := hb.min_size
  have hspace := hb.in_space
  constructor
  · apply h.congr (by omega)
    intro x hle hlt
    exact fill_of_outside (by omega) (by omega)
  · intro x hx
    have hout := hx b List.mem_cons_self
    unfold Block.Holds at hout
    exact fill_of_outside (by omega) (by omega)

end writes

/-- The header of a block that is not written. -/
theorem field_onlyIn {c : Block} (hc : c.Sound owned) (hdisjoint : b.Disjoint c)
    (hmem : OnlyIn [b] m m') (f : HeaderField) : field m' f c.addr = field m f c.addr := by
  have hmin := hc.min_size
  have hspace := hc.in_space
  have hf := f.offset_le
  apply field_congr f (by omega)
  intro x hle hlt
  apply hmem
  intro d hd
  rw [List.mem_singleton.mp hd]
  exact hdisjoint.symm.not_holds ⟨by omega, by omega⟩

/-! ## The invariant -/

structure HeapInv (owned : Nat → Prop) (s : Heap) (free held : List Block) : Prop where
  list : s.FreeList (free.map Block.addr)
  formatted : ∀ b ∈ held ++ free, Formatted s.mem b
  tidy : Tidy owned (held ++ free)
  used : ∀ page, owned page → s.pmm.testBit page = true

namespace HeapInv

variable {owned owned' : Nat → Prop} {s s' : Heap} {free held xs ys : List Block} {b c : Block}

theorem perm_held {held' : List Block} (h : HeapInv owned s free held)
    (hperm : held.Perm held') : HeapInv owned s free held' where
  list := h.list
  formatted := fun b hb => h.formatted b ((hperm.append_right free).mem_iff.mpr hb)
  tidy := h.tidy.perm (hperm.append_right free)
  used := h.used

theorem drop (h : HeapInv owned s free (b :: held)) : HeapInv owned s free held where
  list := h.list
  formatted := fun c hc => h.formatted c (List.mem_cons_of_mem _ hc)
  tidy := h.tidy.tail
  used := h.used

theorem mono (h : HeapInv owned s free held) (hle : ∀ page, owned page → owned' page)
    (hused : ∀ page, owned' page → s.pmm.testBit page = true) : HeapInv owned' s free held where
  list := h.list
  formatted := h.formatted
  tidy := h.tidy.mono hle
  used := hused

theorem separated_free (h : HeapInv owned s free held) : Separated (free.map Block.addr) := by
  apply h.tidy.separated.mono
  intro n hn
  rw [List.map_append]
  exact List.mem_append_right _ hn

/-- Memory that agrees on the headers of the blocks. -/
theorem congr (h : HeapInv owned s free held) {mem : Memory} {pmm : Pmm}
    (hkeep : ∀ b ∈ held ++ free, ∀ x, b.addr ≤ x → x < b.addr + 16 → mem x = s.mem x)
    (hpmm : ∀ page, owned page → pmm.testBit page = true) :
    HeapInv owned { s with mem := mem, pmm := pmm } free held := by
  refine ⟨?_, ?_, h.tidy, hpmm⟩
  · refine h.list.congr h.separated_free rfl ?_
    intro n hn x hle hlt
    obtain ⟨b, hb, rfl⟩ := List.mem_map.mp hn
    exact hkeep b (List.mem_append_right _ hb) x hle hlt
  · intro b hb
    have hmin := (h.tidy.sound b hb).min_size
    have hspace := (h.tidy.sound b hb).in_space
    exact (h.formatted b hb).congr (by omega) fun x hle hlt => hkeep b hb x hle (by omega)

/-- Stores to the bytes behind the headers of held blocks. -/
theorem store (h : HeapInv owned s free held) {mem : Memory}
    (honly : ∀ x, (∀ b ∈ held, ¬ (b.addr + 16 ≤ x ∧ x < b.addr + b.size)) → mem x = s.mem x) :
    HeapInv owned { s with mem := mem } free held := by
  refine h.congr (fun b hb x hle hlt => honly x fun c hc hx => ?_) h.used
  have hmin := (h.tidy.sound b hb).min_size
  by_cases heq : b = c
  · subst heq
    omega
  · exact (h.tidy.disjoint_of_ne hb (List.mem_append_left _ hc) heq).not_holds ⟨hle, by omega⟩
      ⟨by omega, hx.2⟩

/-- A block comes in, from new pages or as a new extent of old blocks: its header is
    written and nothing outside it. -/
theorem hold (h : HeapInv owned s free held) (htidy : Tidy owned' (b :: (held ++ free)))
    (hmem : OnlyIn [b] s.mem s'.mem) (hb : Formatted s'.mem b) (hhead : s'.freeList = s.freeList)
    (hused : ∀ page, owned' page → s'.pmm.testBit page = true) :
    HeapInv owned' s' free (b :: held) := by
  have hdisjoint := (List.pairwise_cons.mp htidy.disjoint).1
  -- the other blocks do not change
  have hkeep : ∀ c ∈ held ++ free, ∀ x, c.Holds x → s'.mem x = s.mem x := by
    intro c hc x hx
    apply hmem
    intro d hd
    rw [List.mem_singleton.mp hd]
    exact (hdisjoint c hc).symm.not_holds hx
  have hmin : ∀ c ∈ held ++ free, 32 ≤ c.size ∧ c.addr + c.size ≤ 2 ^ 32 := fun c hc =>
    ⟨(h.tidy.sound c hc).min_size, (h.tidy.sound c hc).in_space⟩
  refine ⟨?_, ?_, htidy, hused⟩
  · apply h.list.congr h.separated_free hhead
    intro n hn x hle hlt
    obtain ⟨c, hc, rfl⟩ := List.mem_map.mp hn
    have hc' : c ∈ held ++ free := List.mem_append_right _ hc
    have hsize := hmin c hc'
    exact hkeep c hc' x ⟨hle, by omega⟩
  · intro c hc
    rcases List.mem_cons.mp hc with rfl | hc
    · exact hb
    · have hsize := hmin c hc
      exact (h.formatted c hc).congr (by omega) fun x hle hlt => hkeep c hc x ⟨hle, by omega⟩

theorem perm_remove {xs ys : List Block} :
    (held ++ (xs ++ c :: ys)).Perm (c :: held ++ (xs ++ ys)) := by
  rw [← List.append_assoc, List.cons_append, ← List.append_assoc]
  exact List.perm_middle

/-- Taking a block off the list writes links of the others. -/
theorem listRemove_links (h : HeapInv owned s (xs ++ c :: ys) held) :
    (s.listRemove c.addr).FreeList ((xs ++ ys).map Block.addr) ∧
      OnlyLinks ((xs ++ ys).map Block.addr) s.mem (s.listRemove c.addr).mem := by
  have hlist := h.list
  have hsep := h.separated_free
  rw [List.map_append, List.map_cons] at hlist hsep
  rw [List.map_append]
  exact Heap.listRemove_spec hlist hsep

theorem listRemove_body (h : HeapInv owned s (xs ++ c :: ys) held) {d : Block}
    (hd : d ∈ held ++ (xs ++ c :: ys)) : SameBody s.mem (s.listRemove c.addr).mem d := by
  apply h.tidy.sameBody _ h.listRemove_links.2 hd
  intro n hn
  obtain ⟨b, hb, rfl⟩ := List.mem_map.mp hn
  have hsub := ((List.sublist_cons_self c ys).append_left xs).subset hb
  exact ⟨b, List.mem_append_right _ hsub, rfl⟩

theorem listRemove_footed (h : HeapInv owned s (xs ++ c :: ys) held)
    (hfooted : ∀ d ∈ held ++ (xs ++ c :: ys), Footed s.mem d) :
    ∀ d ∈ c :: held ++ (xs ++ ys), Footed (s.listRemove c.addr).mem d := by
  intro d hd
  have hd' := perm_remove.mem_iff.mpr hd
  exact (h.listRemove_body hd').footed (h.tidy.sound d hd') (hfooted d hd')

/-- A block is taken off the list. -/
theorem listRemove (h : HeapInv owned s (xs ++ c :: ys) held) :
    HeapInv owned (s.listRemove c.addr) (xs ++ ys) (c :: held) ∧
      OnlyIn (xs ++ c :: ys) s.mem (s.listRemove c.addr).mem := by
  obtain ⟨hlist, honly⟩ := h.listRemove_links
  refine ⟨⟨hlist, ?_, h.tidy.perm perm_remove, by simpa using h.used⟩, ?_⟩
  · intro b hb
    have hb' := perm_remove.mem_iff.mpr hb
    exact (h.listRemove_body hb').formatted (h.tidy.sound b hb') (h.formatted b hb')
  · apply honly.onlyIn
    intro n hn
    obtain ⟨b, hb, rfl⟩ := List.mem_map.mp hn
    have hsub := ((List.sublist_cons_self c ys).append_left xs).subset hb
    exact ⟨b, hsub, rfl, (h.tidy.sound b (List.mem_append_right _ hsub)).min_size⟩

theorem perm_append : (b :: held ++ free).Perm (held ++ (free ++ [b])) := by
  rw [List.cons_append, ← List.append_assoc]
  exact (List.perm_append_singleton b _).symm

/-- Putting a block on the list writes its links and links of the others. -/
theorem listAppend_links (h : HeapInv owned s free (b :: held)) :
    ∃ s', s.listAppend b.addr = some s' ∧ s'.FreeList ((free ++ [b]).map Block.addr) ∧
      OnlyLinks ((free ++ [b]).map Block.addr) s.mem s'.mem ∧ s'.heapEnd = s.heapEnd ∧
      s'.pmm = s.pmm := by
  have hmem : ∀ d ∈ free ++ [b], d ∈ b :: held ++ free := fun d hd =>
    perm_append.mem_iff.mpr (List.mem_append_right _ hd)
  have hsep : Separated (free.map Block.addr ++ [b.addr]) := by
    apply h.tidy.separated.mono
    intro n hn
    rw [← List.map_singleton, ← List.map_append] at hn
    obtain ⟨d, hd, rfl⟩ := List.mem_map.mp hn
    exact List.mem_map_of_mem (hmem d hd)
  have hfresh : b.addr ∉ free.map Block.addr := by
    intro hn
    obtain ⟨d, hd, heq⟩ := List.mem_map.mp hn
    have hd' := (List.pairwise_cons.mp h.tidy.disjoint).1 d (List.mem_append_right _ hd)
    have hmin := (h.tidy.sound b List.mem_cons_self).min_size
    have hmin' := (h.tidy.sound d (hmem d (List.mem_append_left _ hd))).min_size
    unfold Block.Disjoint at hd'
    omega
  have hpos := (h.tidy.sound b List.mem_cons_self).addr_pos
  rw [List.map_append, List.map_singleton]
  exact Heap.listAppend_spec h.list hsep hfresh (Nat.ne_of_gt hpos)

/-- A block is put at the end of the list: nothing but links changes. -/
theorem listAppend_body (h : HeapInv owned s free (b :: held)) :
    ∃ s', s.listAppend b.addr = some s' ∧ HeapInv owned s' (free ++ [b]) held ∧
      OnlyIn (free ++ [b]) s.mem s'.mem ∧ (∀ d ∈ b :: held ++ free, SameBody s.mem s'.mem d) ∧
      s'.heapEnd = s.heapEnd ∧ s'.pmm = s.pmm := by
  have hmem : ∀ d ∈ free ++ [b], d ∈ b :: held ++ free := fun d hd =>
    perm_append.mem_iff.mpr (List.mem_append_right _ hd)
  obtain ⟨s', hs', hlist, honly, hend, hpmm⟩ := h.listAppend_links
  have hbody : ∀ d ∈ b :: held ++ free, SameBody s.mem s'.mem d := by
    intro d hd
    apply h.tidy.sameBody _ honly hd
    intro n hn
    obtain ⟨e, he, rfl⟩ := List.mem_map.mp hn
    exact ⟨e, hmem e he, rfl⟩
  refine ⟨s', hs', ⟨hlist, ?_, h.tidy.perm perm_append, ?_⟩, ?_, hbody, hend, hpmm⟩
  · intro d hd
    have hd' := perm_append.mem_iff.mpr hd
    exact (hbody d hd').formatted (h.tidy.sound d hd') (h.formatted d hd')
  · rw [hpmm]
    exact h.used
  · apply honly.onlyIn
    intro n hn
    obtain ⟨e, he, rfl⟩ := List.mem_map.mp hn
    exact ⟨e, he, rfl, (h.tidy.sound e (hmem e he)).min_size⟩

/-! ### Cutting a block in two -/

section split

variable {addr n k : Nat}

theorem split_tidy (h : HeapInv owned s (xs ++ ⟨addr, n + k⟩ :: ys) held) (hn : 32 ≤ n)
    (hk : 32 ≤ k) : Tidy owned (⟨addr, n⟩ :: ⟨addr + n, k⟩ :: (held ++ (xs ++ ys))) :=
  (h.tidy.perm perm_remove).split hn hk

/-- The nodes of the list are addresses of blocks that do not meet the new one. -/
theorem split_node (h : HeapInv owned s (xs ++ ⟨addr, n + k⟩ :: ys) held) (hn : 32 ≤ n)
    (hk : 32 ≤ k) {x : Nat} (hx : x ∈ xs.map Block.addr ++ addr :: ys.map Block.addr) :
    ∃ d, d.Sound owned ∧ Block.Disjoint ⟨addr + n, k⟩ d ∧ d.addr = x ∧
      d ∈ ⟨addr, n⟩ :: ⟨addr + n, k⟩ :: (held ++ (xs ++ ys)) := by
  have htidy := h.split_tidy hn hk
  have hlisted : ∀ d ∈ xs ++ ys, ∃ e, e.Sound owned ∧ Block.Disjoint ⟨addr + n, k⟩ e ∧
      e.addr = d.addr ∧ e ∈ ⟨addr, n⟩ :: ⟨addr + n, k⟩ :: (held ++ (xs ++ ys)) := by
    intro d hd
    have hd' : d ∈ held ++ (xs ++ ys) := List.mem_append_right _ hd
    exact ⟨d, htidy.tail.tail.sound d hd', (List.pairwise_cons.mp htidy.tail.disjoint).1 d hd', rfl,
      List.mem_cons_of_mem _ (List.mem_cons_of_mem _ hd')⟩
  rcases List.mem_append.mp hx with hx | hx
  · obtain ⟨d, hd, rfl⟩ := List.mem_map.mp hx
    exact hlisted d (List.mem_append_left _ hd)
  · rcases List.mem_cons.mp hx with rfl | hx
    · exact ⟨_, htidy.sound _ List.mem_cons_self, Or.inr (le_refl _), rfl, List.mem_cons_self⟩
    · obtain ⟨d, hd, rfl⟩ := List.mem_map.mp hx
      exact hlisted d (List.mem_append_right _ hd)

/-- The stores of a split: the new block is formatted, links are written, and the block
    gets its new size. -/
theorem splitBlock_memory (h : HeapInv owned s (xs ++ ⟨addr, n + k⟩ :: ys) held) (hn : 32 ≤ n)
    (hk : 32 ≤ k) :
    (s.splitBlock addr n).FreeList ((xs ++ ⟨addr + n, k⟩ :: ys).map Block.addr) ∧
      ∃ m m', m = formatBlock s.mem (addr + n) k ∧
        OnlyLinks (((⟨addr + n, k⟩ : Block) :: (xs ++ ys)).map Block.addr) m m' ∧
        (s.splitBlock addr n).mem = setField m' .size addr n := by
  have htidy := h.split_tidy hn hk
  have hfirst := htidy.sound _ List.mem_cons_self
  have hsecond := htidy.sound _ (List.mem_cons_of_mem _ List.mem_cons_self)
  have hpos := hfirst.addr_pos
  have hspace := hsecond.in_space
  simp only at hpos hspace
  have hsize : field s.mem .size addr - n = k := by
    have hwhole := (h.formatted ⟨addr, n + k⟩ (by simp)).size_eq
    simp only at hwhole
    omega
  have hsep : Separated ((addr + n) :: (xs.map Block.addr ++ addr :: ys.map Block.addr)) := by
    apply htidy.separated.mono
    intro x hx
    rcases List.mem_cons.mp hx with rfl | hx
    · exact List.mem_map.mpr ⟨_, List.mem_cons_of_mem _ List.mem_cons_self, rfl⟩
    · obtain ⟨d, -, -, rfl, hd⟩ := h.split_node hn hk hx
      exact List.mem_map_of_mem hd
  have hfresh : addr + n ∉ xs.map Block.addr ++ addr :: ys.map Block.addr := by
    intro hx
    obtain ⟨d, hd, hdisjoint, heq, -⟩ := h.split_node hn hk hx
    have hmin := hd.min_size
    simp only [Block.Disjoint] at hdisjoint
    omega
  have hlist := h.list
  rw [List.map_append, List.map_cons] at hlist
  have hsplit : addr + n = u32 (addr + n) := (u32_of_lt (by omega)).symm
  obtain ⟨hlist', m', hlinks, hmem⟩ := Heap.splitBlock_spec hsplit
    (m := formatBlock s.mem (addr + n) k) (by rw [hsize]) hlist hsep hfresh (by omega)
    fun f x hx => by
      obtain ⟨d, hd, hdisjoint, rfl, -⟩ := h.split_node hn hk hx
      exact field_onlyIn hd hdisjoint (formatted_formatBlock hsecond).2 f
  rw [List.map_append, List.map_cons, List.map_cons, List.map_append]
  exact ⟨hlist', _, m', rfl, hlinks, hmem⟩

/-- The other blocks keep what is not a link, and both parts have their headers. -/
theorem splitBlock_body (h : HeapInv owned s (xs ++ ⟨addr, n + k⟩ :: ys) held) (hn : 32 ≤ n)
    (hk : 32 ≤ k) :
    (∀ d ∈ held ++ (xs ++ ys), SameBody s.mem (s.splitBlock addr n).mem d) ∧
      Formatted (s.splitBlock addr n).mem ⟨addr, n⟩ ∧
      Formatted (s.splitBlock addr n).mem ⟨addr + n, k⟩ ∧
      Footed (s.splitBlock addr n).mem ⟨addr + n, k⟩ := by
  have htidy := h.split_tidy hn hk
  have hfirst := htidy.sound _ List.mem_cons_self
  have hsecond := htidy.sound _ (List.mem_cons_of_mem _ List.mem_cons_self)
  have hpos := hfirst.addr_pos
  have hspace := hsecond.in_space
  simp only at hpos hspace
  obtain ⟨-, m, m', hm, hlinks, hmem⟩ := h.splitBlock_memory hn hk
  obtain ⟨hformatted, honly⟩ := formatted_formatBlock (m := s.mem) hsecond
  have hfooted := footed_formatBlock (m := s.mem) hsecond
  simp only at hformatted honly hfooted
  rw [← hm] at hformatted honly hfooted
  have hlinked : ∀ d ∈ ⟨addr, n⟩ :: ⟨addr + n, k⟩ :: (held ++ (xs ++ ys)), SameBody m m' d := by
    intro d hd
    apply htidy.sameBody _ hlinks hd
    intro x hx
    obtain ⟨e, he, rfl⟩ := List.mem_map.mp hx
    refine ⟨e, List.mem_cons_of_mem _ ?_, rfl⟩
    rcases List.mem_cons.mp he with rfl | he
    · exact List.mem_cons_self
    · exact List.mem_cons_of_mem _ (List.mem_append_right _ he)
  -- the new size is written in the first part
  have hresized : ∀ d ∈ ⟨addr + n, k⟩ :: (held ++ (xs ++ ys)),
      SameBody m' (s.splitBlock addr n).mem d := by
    intro d hd
    rw [hmem]
    apply (onlyIn_setField (m := m') hfirst .size n).sameBody
    intro c hc
    rw [List.mem_singleton.mp hc]
    exact (List.pairwise_cons.mp htidy.disjoint).1 d hd
  have hsecond_body := (hlinked _ (List.mem_cons_of_mem _ List.mem_cons_self)).trans
    (hresized _ List.mem_cons_self)
  refine ⟨fun d hd => ?_, ?_, hsecond_body.formatted hsecond hformatted,
    hsecond_body.footed hsecond hfooted⟩
  · have hd' : d ∈ ⟨addr + n, k⟩ :: (held ++ (xs ++ ys)) := List.mem_cons_of_mem _ hd
    have hformat : SameBody s.mem m d := honly.sameBody fun c hc => by
      rw [List.mem_singleton.mp hc]
      exact (List.pairwise_cons.mp htidy.tail.disjoint).1 d hd
    exact (hformat.trans (hlinked d (List.mem_cons_of_mem _ hd'))).trans (hresized d hd')
  · have hformat : SameBody s.mem m ⟨addr, n⟩ := honly.sameBody fun c hc => by
      rw [List.mem_singleton.mp hc]
      exact Or.inr (le_refl _)
    have hbody := hformat.trans (hlinked _ List.mem_cons_self)
    have hwhole : Formatted m' ⟨addr, n + k⟩ := by
      apply (h.formatted ⟨addr, n + k⟩ (by simp)).congr (by simp only; omega)
      intro x hle hlt
      exact hbody x ⟨hle, by simp only at hlt ⊢; omega⟩ (Or.inl hlt)
    rw [hmem]
    constructor
    · exact field_setField_self (by omega) (by omega)
    · exact (field_setField_of_ne (by omega) (by decide)).trans hwhole.magic_eq

theorem splitBlock_onlyIn (h : HeapInv owned s (xs ++ ⟨addr, n + k⟩ :: ys) held) (hn : 32 ≤ n)
    (hk : 32 ≤ k) : OnlyIn (xs ++ ⟨addr, n + k⟩ :: ys) s.mem (s.splitBlock addr n).mem := by
  have htidy := h.split_tidy hn hk
  have hfirst := htidy.sound _ List.mem_cons_self
  have hsecond := htidy.sound _ (List.mem_cons_of_mem _ List.mem_cons_self)
  obtain ⟨-, m, m', hm, hlinks, hmem⟩ := h.splitBlock_memory hn hk
  have hinside : ∀ x, Block.Holds ⟨addr, n⟩ x ∨ Block.Holds ⟨addr + n, k⟩ x →
      ∃ c ∈ xs ++ ⟨addr, n + k⟩ :: ys, c.Holds x := by
    intro x hx
    exact ⟨⟨addr, n + k⟩, by simp, Block.holds_add.mpr hx⟩
  have hformat : OnlyIn (xs ++ ⟨addr, n + k⟩ :: ys) s.mem m := by
    rw [hm]
    apply (formatted_formatBlock (m := s.mem) hsecond).2.mono
    intro d hd x hx
    rw [List.mem_singleton.mp hd] at hx
    exact hinside x (Or.inr hx)
  have hlink : OnlyIn (⟨addr + n, k⟩ :: (xs ++ ys)) m m' := by
    apply hlinks.onlyIn
    intro x hx
    obtain ⟨d, hd, rfl⟩ := List.mem_map.mp hx
    refine ⟨d, hd, rfl, ?_⟩
    rcases List.mem_cons.mp hd with rfl | hd
    · exact hk
    · exact (htidy.tail.tail.sound d (List.mem_append_right _ hd)).min_size
  have hlink' : OnlyIn (xs ++ ⟨addr, n + k⟩ :: ys) m m' := by
    apply hlink.mono
    intro d hd x hx
    rcases List.mem_cons.mp hd with rfl | hd
    · exact hinside x (Or.inr hx)
    · exact ⟨d, ((List.sublist_cons_self _ ys).append_left xs).subset hd, hx⟩
  have hresize : OnlyIn (xs ++ ⟨addr, n + k⟩ :: ys) m' (setField m' .size addr n) := by
    apply (onlyIn_setField (m := m') hfirst .size n).mono
    intro d hd x hx
    rw [List.mem_singleton.mp hd] at hx
    exact hinside x (Or.inl hx)
  rw [hmem]
  exact (hformat.trans hlink').trans hresize

/-- A block on the list is cut in two: the first part is held and the rest takes its
    place. -/
theorem splitBlock (h : HeapInv owned s (xs ++ ⟨addr, n + k⟩ :: ys) held) (hn : 32 ≤ n)
    (hk : 32 ≤ k) :
    HeapInv owned (s.splitBlock addr n) (xs ++ ⟨addr + n, k⟩ :: ys) (⟨addr, n⟩ :: held) ∧
      OnlyIn (xs ++ ⟨addr, n + k⟩ :: ys) s.mem (s.splitBlock addr n).mem := by
  have htidy := h.split_tidy hn hk
  have hperm : (⟨addr, n⟩ :: ⟨addr + n, k⟩ :: (held ++ (xs ++ ys))).Perm
      (⟨addr, n⟩ :: held ++ (xs ++ ⟨addr + n, k⟩ :: ys)) := by
    rw [List.cons_append, List.perm_cons]
    exact perm_remove.symm
  obtain ⟨hbody, hfirst, hsecond, -⟩ := h.splitBlock_body hn hk
  refine ⟨⟨(h.splitBlock_memory hn hk).1, ?_, htidy.perm hperm, by simpa using h.used⟩,
    h.splitBlock_onlyIn hn hk⟩
  intro d hd
  rcases List.mem_cons.mp (hperm.mem_iff.mpr hd) with rfl | hd
  · exact hfirst
  · rcases List.mem_cons.mp hd with rfl | hd
    · exact hsecond
    · have hold : d ∈ held ++ (xs ++ ⟨addr, n + k⟩ :: ys) :=
        (((List.sublist_cons_self _ ys).append_left xs).append_left held).subset hd
      exact (hbody d hd).formatted (htidy.tail.tail.sound d hd) (h.formatted d hold)

end split

/-- A held block is given a new extent. -/
theorem enlarge {addr n more : Nat} (h : HeapInv owned s free (⟨addr, n⟩ :: held))
    (htidy : Tidy owned (⟨addr, n + more⟩ :: (held ++ free))) :
    HeapInv owned { s with mem := Heap.enlarge s.mem addr more } free
        (⟨addr, n + more⟩ :: held) ∧
      OnlyIn [⟨addr, n + more⟩] s.mem (Heap.enlarge s.mem addr more) ∧
      ((∀ d ∈ held ++ free, Footed s.mem d) →
        ∀ d ∈ ⟨addr, n + more⟩ :: held ++ free, Footed (Heap.enlarge s.mem addr more) d) := by
  obtain ⟨hformatted, honly, hfooted⟩ := formatted_enlarge (htidy.sound _ List.mem_cons_self)
    (h.formatted _ List.mem_cons_self)
  refine ⟨h.drop.hold htidy honly hformatted rfl h.used, honly, fun hothers d hd => ?_⟩
  rcases List.mem_cons.mp hd with rfl | hd
  · exact hfooted
  · refine (honly.sameBody fun c hc => ?_).footed (htidy.tail.sound d hd) (hothers d hd)
    rw [List.mem_singleton.mp hc]
    exact (List.pairwise_cons.mp htidy.disjoint).1 d hd

end HeapInv

end NemoOS
