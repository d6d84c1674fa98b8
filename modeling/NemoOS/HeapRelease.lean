import NemoOS.HeapSafety
import NemoOS.HeapTiling

/-!
# What `kfree` puts back and what it touches

Two properties of `kfree` in the runs in which it merges only with blocks on the free
list. The block that is freed and all that was free before are on the list
afterwards, except in one of the four branches: when the block is merged with the one
before it alone, the merged block is taken off the list and not put back
(`kfree_keeps_free_iff`).

`kfree` guesses from the end of the heap whether a block has neighbours. The pages of the
heap are tiled by blocks all the time, so a block has a neighbour on each side unless a
stretch of pages begins or ends with it. Everything `kfree` reads and writes lies in pages
of the heap when it takes no such block for one with a neighbour, and otherwise it reads a
footer or a header outside them (`kfree_inside_heap_iff`).
-/

namespace NemoOS

open Words Bytes Loops Linked Transition

/-! ## What is put back -/

namespace Heap

/-- The address lies in a block on the free list. -/
def InFreeList (s : Heap) (x : Nat) : Prop :=
  ∃ b, s.listed b = true ∧ Block.Holds ⟨b, field s.mem .size b⟩ x

/-- After the release of the block `h` in state `s`, what was free and the block itself
    are on the list. -/
def KeepsFree (s : Heap) (h : Nat) (s' : Heap) : Prop :=
  ∀ x, Block.Holds ⟨h, field s.mem .size h⟩ x ∨ s.InFreeList x → s'.InFreeList x

/-- The block is not merged with the one before it alone. -/
def Relinks (s : Heap) (h : Nat) : Prop := s.mergePrev h = true → s.mergeNext h = true

end Heap

namespace HeapInv

variable {owned : Nat → Prop} {s : Heap} {free held : List Block} {b c : Block}

theorem inFreeList_iff (h : HeapInv owned s free held) {x : Nat} :
    s.InFreeList x ↔ InBlocks free x := by
  have hsize : ∀ c ∈ free, field s.mem .size c.addr = c.size := fun c hc =>
    (h.formatted c (List.mem_append_right _ hc)).size_eq
  constructor
  · rintro ⟨_, hlisted, hx⟩
    obtain ⟨c, hc, rfl⟩ := h.listed_iff.mp hlisted
    rw [hsize c hc] at hx
    exact ⟨c, hc, hx⟩
  · rintro ⟨c, hc, hx⟩
    refine ⟨c.addr, h.listed_iff.mpr ⟨c, hc, rfl⟩, ?_⟩
    rw [hsize c hc]
    exact hx

theorem kfree_keepsFree (h : HeapInv owned s free (b :: held)) (hmerges : s.MergesFree b.addr) :
    ∃ s', s.kfree (b.addr + 16) = some s' ∧ (s.KeepsFree b.addr s' ↔ s.Relinks b.addr) := by
  obtain ⟨s', free', lost, hs', hreleases, hcases⟩ := h.kfree hmerges
  have hinv := hreleases.others
  have hsize := (h.formatted b List.mem_cons_self).size_eq
  refine ⟨s', hs', ?_⟩
  simp only [Heap.KeepsFree, hsize, h.inFreeList_iff, hinv.inFreeList_iff, ← inBlocks_cons]
  rcases hcases with ⟨hmp, hmn, hsub⟩ | ⟨hrelinks, rfl⟩
  · -- the first byte of the block is in none of the blocks that were free before
    apply iff_of_false
    · intro hkeeps
      have hmin := (h.tidy.sound b List.mem_cons_self).min_size
      have hfirst : b.Holds b.addr := ⟨Nat.le_refl _, by omega⟩
      obtain ⟨c, hc, hx⟩ := hkeeps b.addr ⟨b, List.mem_cons_self, hfirst⟩
      have hdisjoint := (List.pairwise_append.mp h.tidy.disjoint).2.2 b List.mem_cons_self c
        (hsub.subset hc)
      exact hdisjoint.not_holds hfirst hx
    · intro hrelinks
      rw [hrelinks hmp] at hmn
      exact absurd hmn (by decide)
  · refine iff_of_true (fun x hx => ?_) hrelinks
    simpa using (hreleases.layout x).mp hx

end HeapInv

namespace HeapRun

variable {t : HeapRun}

/-- **What `kfree` puts back.** In every run in which `kfree` merges only with blocks on
    the free list, and for every live pointer that it frees in this way next: the
    bytes of its block and those that were free before are on the free list
    afterwards, if and only if the block is not merged with the one before it alone. -/
theorem kfree_keeps_free_iff {mem : Memory} {pmm : Pmm} {heap : Heap} {calls : List HeapCall}
    (hinit : Heap.kmallocInit mem pmm = some heap)
    (hrun : Run (Guarded MergesOnlyFree Step) (HeapRun.init pmm heap) calls t) {ptr : Nat}
    (hlive : t.Allowed (.kfree ptr)) (hmerges : t.MergesOnlyFree (.kfree ptr)) :
    ∃ heap', t.heap.kfree ptr = some heap' ∧
      (t.heap.KeepsFree (sub32 ptr HEADER_SIZE) heap' ↔
        t.heap.Relinks (sub32 ptr HEADER_SIZE)) := by
  obtain ⟨free, h⟩ := exists_inv hinit hrun
  obtain ⟨a, rest, -, -, -, -, haddr, hptr, hperm⟩ := h.freed hlive
  rw [MergesOnlyFree, haddr] at hmerges
  rw [haddr, hptr]
  exact (h.heap.perm_held hperm).kfree_keepsFree hmerges

/-- A block is allocated and freed: it is merged with the rest of the page. -/
theorem kfree_keeps_free_rejoined :
    ∃ heap t heap', Heap.kmallocInit bootMemory bootPmm = some heap ∧
      Run (Guarded MergesOnlyFree Step) (HeapRun.init bootPmm heap) [.kmalloc 16] t ∧
      t.live = [⟨4194320, 16, 16⟩] ∧ t.heap.kfree 4194320 = some heap' ∧
      t.heap.KeepsFree 4194304 heap' := by
  have hexec : ((HeapRun.init bootPmm bootHeap).exec freesAlone [.kmalloc 16]).map (fun t =>
      (t.live, decide (t.MergesOnlyFree (.kfree 4194320)), t.heap.mergePrev 4194304)) =
      some ([⟨4194320, 16, 16⟩], true, false) := by
    decide
  obtain ⟨t, ht, hstate⟩ := Option.map_eq_some_iff.mp hexec
  simp only [Prod.mk.injEq, decide_eq_true_eq] at hstate
  obtain ⟨hlive, hmerges, hprev⟩ := hstate
  have hrun := run_freesAlone ht
  have hallowed : t.Allowed (.kfree 4194320) := ⟨⟨4194320, 16, 16⟩, by rw [hlive]; simp, rfl⟩
  obtain ⟨heap', hkfree, hiff⟩ := kfree_keeps_free_iff kmallocInit_boot hrun hallowed hmerges
  have hrelinks : t.heap.Relinks 4194304 := fun hmerge => absurd (hprev.symm.trans hmerge) (by decide)
  exact ⟨bootHeap, t, heap', kmallocInit_boot, hrun, hlive, hkfree, hiff.mpr hrelinks⟩

/-- Two blocks fill the page, and the second is freed. It is merged into the first, which
    is not put on the list: the free list is empty afterwards. -/
theorem kfree_loses_block :
    ¬ ∀ (mem : Memory) (pmm : Pmm) (heap : Heap) (calls : List HeapCall) (t : HeapRun)
        (ptr : Nat) (heap' : Heap),
      Heap.kmallocInit mem pmm = some heap → Run Step (HeapRun.init pmm heap) calls t →
      t.Allowed (.kfree ptr) → t.heap.kfree ptr = some heap' →
      t.heap.KeepsFree (sub32 ptr HEADER_SIZE) heap' := by
  intro h
  have hexec : ((HeapRun.init bootPmm bootHeap).exec freesLive
      [.kmalloc 16, .kmalloc 4016]).bind (fun t => (t.heap.kfree 4194356).map fun heap' =>
        (t.freesLive (.kfree 4194356), field t.heap.mem .size 4194340, heap'.freeList)) =
      some (true, 4060, 0) := by
    decide
  obtain ⟨t, ht, hexec⟩ := Option.bind_eq_some_iff.mp hexec
  obtain ⟨heap', hkfree, hstate⟩ := Option.map_eq_some_iff.mp hexec
  simp only [Prod.mk.injEq] at hstate
  obtain ⟨hlive, hsize, hempty⟩ := hstate
  have hrun : Run (Guarded (fun _ _ => True) Step) (HeapRun.init bootPmm bootHeap) _ t :=
    run_exec (fun s c hc => ⟨trivial, allowed_of_freesLive hc⟩) ht
  obtain ⟨b, hlisted, -⟩ := h _ _ _ _ t 4194356 heap' kmallocInit_boot
    (hrun.mono fun _ _ _ hstep => hstep.2) (allowed_of_freesLive hlive) hkfree 4194340
    (Or.inl ⟨Nat.le_refl _, by rw [show sub32 4194356 HEADER_SIZE = 4194340 from rfl, hsize]; decide⟩)
  have hnone : loop (Heap.seekStep heap'.mem b) WALK_LIMIT 0 = some false :=
    loop_mono (show loop (Heap.seekStep heap'.mem b) 1 0 = some false by simp [loop, Heap.seekStep])
      (by decide)
  rw [Heap.listed, hempty, hnone] at hlisted
  exact absurd hlisted (by decide)

end HeapRun

/-! ## What is touched

A word is given by the address of its first byte. -/

/-- The word of the field `f` of the header `h`. -/
def fieldWord (f : HeaderField) (h : Nat) : Nat := h + f.offset

namespace Heap

/-- `if(h->prev) h->prev->next = h->next; if(h->next) h->next->prev = h->prev;` -/
def listRemoveWords (s : Heap) (h : Nat) : List Nat :=
  let m₁ := setLink s.mem .next (field s.mem .prev h) (field s.mem .next h)
  [fieldWord .prev h, fieldWord .next h] ++
    (if field s.mem .prev h ≠ 0 then [fieldWord .next (field s.mem .prev h)] else []) ++
    (if field m₁ .next h ≠ 0 then [fieldWord .prev (field m₁ .next h)] else [])

/-- The links of the block and those of every block on the way to the end of the list. -/
def listAppendWords (s : Heap) (h : Nat) : List Nat :=
  let m := setField (setField s.mem .next h 0) .prev h 0
  [fieldWord .next h, fieldWord .prev h] ++
    if s.freeList = 0 then []
    else (visited (lastStep m) WALK_LIMIT s.freeList).map (fieldWord .next)

/-- `b->size += more; set_footer(b)`: the footer ends with the block of the new size. -/
def enlargeWords (m : Memory) (b more : Nat) : List Nat :=
  [fieldWord .size b, sub32 (b + u32 (field m .size b + more)) 4]

/-- The words that `kfree` reads to find out about the neighbours of a block. -/
def neighbourWords (s : Heap) (h : Nat) : List Nat :=
  (if s.hasPrev h then [sub32 h 4, fieldWord .magic (prevBlock s.mem h)] else []) ++
    fieldWord .size h ::
    if s.hasNext h then [fieldWord .magic (nextBlock s.mem h)] else []

/-- The words that the four branches of `kfree` read and write. -/
def mergeWords (s : Heap) (h : Nat) : List Nat :=
  let p := prevBlock s.mem h
  let n := nextBlock s.mem h
  if s.mergePrev h && s.mergeNext h then
    let s' := (s.listRemove p).listRemove n
    let more := u32 (field s'.mem .size h + field s'.mem .size n)
    s.listRemoveWords p ++ (s.listRemove p).listRemoveWords n ++
      [fieldWord .size h, fieldWord .size n] ++ enlargeWords s'.mem p more ++
      ({ s' with mem := enlarge s'.mem p more } : Heap).listAppendWords p
  else if s.mergePrev h then
    let s' := s.listRemove p
    s.listRemoveWords p ++ [fieldWord .size h] ++ enlargeWords s'.mem p (field s'.mem .size h)
  else if s.mergeNext h then
    let s' := s.listRemove n
    s.listRemoveWords n ++ [fieldWord .size n] ++ enlargeWords s'.mem h (field s'.mem .size n) ++
      ({ s' with mem := enlarge s'.mem h (field s'.mem .size n) } : Heap).listAppendWords h
  else
    let m := setField s.mem .magic h HEAP_MAGIC
    [fieldWord .magic h, fieldWord .size h, sub32 (h + field m .size h) 4] ++
      ({ s with mem := setFooter m h } : Heap).listAppendWords h

/-- The words of metadata that `kfree` reads and writes. -/
def kfreeWords (s : Heap) (ptr : Nat) : List Nat :=
  if ptr = 0 then []
  else
    let h := sub32 ptr HEADER_SIZE
    fieldWord .magic h ::
      if field s.mem .magic h ≠ HEAP_MAGIC then [] else s.neighbourWords h ++ s.mergeWords h

end Heap

/-- All four bytes of the word are in the pages. -/
def WordIn (pages : Nat → Prop) (w : Nat) : Prop := ∀ i < 4, pages (u32 (w + i) / PAGE_SIZE)

def WordsIn (pages : Nat → Prop) (words : List Nat) : Prop := ∀ w ∈ words, WordIn pages w

section wordsIn

variable {pages : Nat → Prop} {w : Nat} {words words' : List Nat}

@[simp] theorem wordsIn_nil : WordsIn pages [] := fun _ hw => absurd hw List.not_mem_nil

@[simp] theorem wordsIn_cons :
    WordsIn pages (w :: words) ↔ WordIn pages w ∧ WordsIn pages words :=
  List.forall_mem_cons

@[simp] theorem wordsIn_append :
    WordsIn pages (words ++ words') ↔ WordsIn pages words ∧ WordsIn pages words' :=
  List.forall_mem_append

@[simp] theorem wordsIn_ite {c : Bool} :
    WordsIn pages (if c then words else []) ↔ (c = true → WordsIn pages words) := by
  cases c <;> simp

end wordsIn

/-- No block that begins a stretch of the pages lies less than 64 KiB before `heap_end`, where
    `has_prev` expects a neighbour, and none that ends a stretch ends below `heap_end`, where
    `has_next` expects one. -/
def Heap.GuessesRight (pages : Nat → Prop) (s : Heap) (h : Nat) : Prop :=
  (¬ pages ((h - 1) / PAGE_SIZE) → h ≤ sub32 s.heapEnd HEAP_GROW) ∧
  (¬ pages ((h + field s.mem .size h) / PAGE_SIZE) → s.heapEnd ≤ u32 (h + field s.mem .size h))

/-- What `has_prev` and `has_next` make `kfree` look at is in the pages. -/
def Heap.NeighboursIn (pages : Nat → Prop) (s : Heap) (h : Nat) : Prop :=
  (s.hasPrev h = true →
    WordIn pages (sub32 h 4) ∧ WordIn pages (fieldWord .magic (prevBlock s.mem h))) ∧
  (s.hasNext h = true → WordIn pages (fieldWord .magic (nextBlock s.mem h)))

namespace Block.Sound

variable {owned : Nat → Prop} {b : Block}

theorem word_in (h : b.Sound owned) {w : Nat} (hle : b.addr ≤ w) (hlt : w + 4 ≤ b.addr + b.size) :
    WordIn owned w := by
  intro i hi
  have hspace := h.in_space
  rw [u32_of_lt (by omega)]
  exact h.in_heap _ ⟨by omega, by omega⟩

theorem field_in (h : b.Sound owned) (f : HeaderField) : WordIn owned (fieldWord f b.addr) := by
  have hoffset := f.offset_le
  have hmin := h.min_size
  exact h.word_in (Nat.le_add_right _ _) (by rw [fieldWord]; omega)

theorem footer_in (h : b.Sound owned) : WordIn owned (sub32 (b.addr + b.size) 4) := by
  have hmin := h.min_size
  have hspace := h.in_space
  have hfooter : sub32 (b.addr + b.size) 4 = b.addr + b.size - 4 := by
    rw [sub32, u32]
    omega
  rw [hfooter]
  exact h.word_in (by omega) (by omega)

end Block.Sound

theorem enlargeWords_in {owned : Nat → Prop} {m : Memory} {addr n more : Nat}
    (hb : Block.Sound owned ⟨addr, n + more⟩) (hsize : field m .size addr = n) :
    WordsIn owned (Heap.enlargeWords m addr more) := by
  have hpos := hb.addr_pos
  have hspace := hb.in_space
  simp only at hpos hspace
  rw [Heap.enlargeWords, hsize, u32_of_lt (by omega)]
  simp only [wordsIn_cons, wordsIn_nil, and_true]
  exact ⟨hb.field_in .size, hb.footer_in⟩

namespace HeapInv

variable {owned : Nat → Prop} {s : Heap} {free held : List Block} {b c : Block}

theorem node_in (h : HeapInv owned s free held) {n : Nat} (hn : n ∈ free.map Block.addr)
    (f : HeaderField) : WordIn owned (fieldWord f n) := by
  obtain ⟨c, hc, rfl⟩ := List.mem_map.mp hn
  exact (h.tidy.sound c (List.mem_append_right _ hc)).field_in f

theorem listRemoveWords_in (h : HeapInv owned s free held) (hc : c ∈ free) :
    WordsIn owned (s.listRemoveWords c.addr) := by
  obtain ⟨xs, ys, rfl⟩ := List.append_of_mem hc
  have hself : c.addr ∈ (xs ++ c :: ys).map Block.addr := List.mem_map_of_mem hc
  have hlist := h.list
  have hsep := h.separated_free
  have hnodes : (xs ++ c :: ys).map Block.addr = xs.map Block.addr ++ c.addr :: ys.map Block.addr :=
    by simp
  rw [hnodes] at hlist hsep
  have hsub : ∀ n ∈ xs.map Block.addr ++ ys.map Block.addr, n ∈ (xs ++ c :: ys).map Block.addr := by
    rw [hnodes]
    exact ((List.sublist_cons_self _ _).append_left _).subset
  intro w hw
  simp only [Heap.listRemoveWords, Heap.next_of_bypass hlist hsep, List.mem_append, List.mem_cons,
    List.not_mem_nil, or_false, List.mem_ite_nil_right] at hw
  rcases hw with ((rfl | rfl) | ⟨hne, rfl⟩) | ⟨hne, rfl⟩
  · exact h.node_in hself .prev
  · exact h.node_in hself .next
  · exact h.node_in (hsub _ (IsList.prev_mem hlist hne)) .next
  · exact h.node_in (hsub _ (IsList.next_mem hlist hne)) .prev

theorem listAppendWords_in (h : HeapInv owned s free (b :: held)) :
    WordsIn owned (s.listAppendWords b.addr) := by
  have hb := h.tidy.sound b List.mem_cons_self
  have hsep := h.tidy.separated
  have hself : b.addr ∈ ((b :: held) ++ free).map Block.addr := by simp
  intro w hw
  simp only [Heap.listAppendWords, List.mem_append, List.mem_cons, List.not_mem_nil,
    or_false] at hw
  rcases hw with (rfl | rfl) | hw
  · exact hb.field_in .next
  · exact hb.field_in .prev
  · split at hw
    · exact absurd hw List.not_mem_nil
    · next hhead =>
      obtain ⟨n, hn, rfl⟩ := List.mem_map.mp hw
      refine h.node_in (visited_invariant (P := (· ∈ free.map Block.addr)) ?_ ?_ n hn) .next
      · -- the links of the nodes are those before the block's own were cleared
        intro n n' hn hstep
        have hn' : n ∈ ((b :: held) ++ free).map Block.addr := by
          rw [List.map_append]
          exact List.mem_append_right _ hn
        rw [Heap.lastStep, field_setField_other hsep hself hn' (by decide),
          field_setField hsep hself hn' (Nat.two_pow_pos 32)] at hstep
        by_cases hother : n = b.addr
        · rw [if_pos hother, if_neg (by decide)] at hstep
          cases hstep
        · rw [if_neg hother] at hstep
          by_cases hne : field s.mem .next n = 0
          · rw [if_neg (not_not.mpr hne)] at hstep
            cases hstep
          · rw [if_pos hne, Sum.inl.injEq] at hstep
            subst hstep
            obtain ⟨xs, ys, hsplit⟩ := List.append_of_mem hn
            have hlist := h.list
            rw [hsplit] at hlist ⊢
            exact ((List.sublist_cons_self _ _).append_left _).subset (IsList.next_mem hlist hne)
      · rw [IsList.head_eq h.list] at hhead ⊢
        cases hnodes : free.map Block.addr with
        | nil => exact absurd (by rw [hnodes]; rfl) hhead
        | cons n nodes => exact List.mem_cons_self

theorem mergeWords_in_both (h : HeapInv owned s free (b :: held)) (hmerges : s.MergesFree b.addr)
    (hmp : s.mergePrev b.addr = true) (hmn : s.mergeNext b.addr = true) :
    WordsIn owned (s.mergeWords b.addr) := by
  have hb := h.tidy.sound b List.mem_cons_self
  obtain ⟨c, hc, hc_addr, hc_ends⟩ := h.prev_of_merge hmerges hmp
  obtain ⟨d, hd, hd_addr, hd_begins⟩ := h.next_of_merge hmerges hmn
  obtain ⟨free', hjoins⟩ := h.join_both hc hd hc_ends hd_begins
  have hjoined := hjoins.inv
  have hmerged := hjoined.tidy.sound _ List.mem_cons_self
  have happend := hjoined.listAppendWords_in
  obtain ⟨xs, ys, rfl⟩ := List.append_of_mem hc
  obtain ⟨hinv, -⟩ := h.listRemove
  have hb_min := hb.min_size
  have hc_min := (h.tidy.sound c (by simp)).min_size
  have hd' : d ∈ xs ++ ys := mem_others hd (by rintro rfl; omega)
  have hremove := hinv.listRemoveWords_in hd'
  generalize xs ++ ys = rest at hd' hinv
  obtain ⟨us, vs, rfl⟩ := List.append_of_mem hd'
  -- the sizes are read when both neighbours are off the list
  obtain ⟨hinv₁, -⟩ := hinv.listRemove
  have hb_size := (hinv₁.formatted b (by simp)).size_eq
  have hc_size := (hinv₁.formatted c (by simp)).size_eq
  have hd_size := (hinv₁.formatted d List.mem_cons_self).size_eq
  have hspace := hmerged.in_space
  simp only at hspace
  rw [Heap.mergeWords, hmp, hmn, if_pos (Bool.and_self true), ← hc_addr, ← hd_addr]
  simp only [wordsIn_append, wordsIn_cons, wordsIn_nil, and_true]
  refine ⟨⟨⟨⟨h.listRemoveWords_in hc, hremove⟩, hb.field_in .size, ?_⟩, ?_⟩, happend⟩
  · exact (h.tidy.sound d (List.mem_append_right _ hd)).field_in .size
  · rw [hb_size, hd_size, u32_of_lt (show b.size + d.size < 2 ^ 32 by omega)]
    exact enlargeWords_in hmerged hc_size

theorem mergeWords_in_prev (h : HeapInv owned s free (b :: held)) (hmerges : s.MergesFree b.addr)
    (hmp : s.mergePrev b.addr = true) (hmn : s.mergeNext b.addr = false) :
    WordsIn owned (s.mergeWords b.addr) := by
  have hb := h.tidy.sound b List.mem_cons_self
  obtain ⟨c, hc, hc_addr, hc_ends⟩ := h.prev_of_merge hmerges hmp
  obtain ⟨free', hjoins, -⟩ := h.join_prev hc hc_ends
  have hmerged := hjoins.inv.tidy.sound _ List.mem_cons_self
  obtain ⟨xs, ys, rfl⟩ := List.append_of_mem hc
  obtain ⟨hinv, -⟩ := h.listRemove
  have hb_size := (hinv.formatted b (by simp)).size_eq
  have hc_size := (hinv.formatted c List.mem_cons_self).size_eq
  rw [Heap.mergeWords, hmp, hmn, if_neg (by decide), if_pos rfl, ← hc_addr]
  simp only [wordsIn_append, wordsIn_cons, wordsIn_nil, and_true]
  refine ⟨⟨h.listRemoveWords_in hc, hb.field_in .size⟩, ?_⟩
  rw [hb_size]
  exact enlargeWords_in hmerged hc_size

theorem mergeWords_in_next (h : HeapInv owned s free (b :: held)) (hmerges : s.MergesFree b.addr)
    (hmp : s.mergePrev b.addr = false) (hmn : s.mergeNext b.addr = true) :
    WordsIn owned (s.mergeWords b.addr) := by
  obtain ⟨d, hd, hd_addr, hd_begins⟩ := h.next_of_merge hmerges hmn
  obtain ⟨free', hjoins⟩ := h.join_next hd hd_begins
  have hjoined := hjoins.inv
  have hmerged := hjoined.tidy.sound _ List.mem_cons_self
  have happend := hjoined.listAppendWords_in
  obtain ⟨xs, ys, rfl⟩ := List.append_of_mem hd
  obtain ⟨hinv, -⟩ := h.listRemove
  have hb_size := (hinv.formatted b (by simp)).size_eq
  have hd_size := (hinv.formatted d List.mem_cons_self).size_eq
  rw [Heap.mergeWords, hmp, hmn, if_neg (by decide), if_neg (by decide), if_pos rfl, ← hd_addr]
  simp only [wordsIn_append, wordsIn_cons, wordsIn_nil, and_true]
  refine ⟨⟨⟨h.listRemoveWords_in hd, ?_⟩, ?_⟩, happend⟩
  · exact (h.tidy.sound d (by simp)).field_in .size
  · rw [hd_size]
    exact enlargeWords_in hmerged hb_size

theorem mergeWords_in_alone (h : HeapInv owned s free (b :: held))
    (hmp : s.mergePrev b.addr = false) (hmn : s.mergeNext b.addr = false) :
    WordsIn owned (s.mergeWords b.addr) := by
  have hb := h.tidy.sound b List.mem_cons_self
  have hmin := hb.min_size
  have hspace := hb.in_space
  have hsize : field (setField s.mem .magic b.addr HEAP_MAGIC) .size b.addr = b.size := by
    rw [field_setField_of_ne (by omega) (by decide), (h.formatted b List.mem_cons_self).size_eq]
  rw [Heap.mergeWords, hmp, hmn, if_neg (by decide), if_neg (by decide), if_neg (by decide)]
  simp only [wordsIn_append, wordsIn_cons, wordsIn_nil, and_true, hsize]
  exact ⟨⟨hb.field_in .magic, hb.field_in .size, hb.footer_in⟩, h.stamp.inv.listAppendWords_in⟩

/-- The branches of `kfree` stay in the heap when the neighbours they merge with are on
    the list. -/
theorem mergeWords_in (h : HeapInv owned s free (b :: held)) (hmerges : s.MergesFree b.addr) :
    WordsIn owned (s.mergeWords b.addr) := by
  cases hmp : s.mergePrev b.addr with
  | true =>
      cases hmn : s.mergeNext b.addr with
      | true => exact h.mergeWords_in_both hmerges hmp hmn
      | false => exact h.mergeWords_in_prev hmerges hmp hmn
  | false =>
      cases hmn : s.mergeNext b.addr with
      | true => exact h.mergeWords_in_next hmerges hmp hmn
      | false => exact h.mergeWords_in_alone hmp hmn

theorem kfreeWords_in_iff (h : HeapInv owned s free (b :: held)) (hmerges : s.MergesFree b.addr) :
    WordsIn owned (s.kfreeWords (b.addr + 16)) ↔ s.NeighboursIn owned b.addr := by
  have hb := h.tidy.sound b List.mem_cons_self
  have hmagic := (h.formatted b List.mem_cons_self).magic_eq
  have hwords : s.kfreeWords (b.addr + 16) =
      fieldWord .magic b.addr :: (s.neighbourWords b.addr ++ s.mergeWords b.addr) := by
    rw [Heap.kfreeWords, if_neg (Nat.succ_ne_zero _), hb.header_eq]
    simp only [hmagic, ne_eq, not_true_eq_false, if_false]
  rw [hwords, Heap.neighbourWords, Heap.NeighboursIn]
  simp only [wordsIn_cons, wordsIn_append, wordsIn_ite, wordsIn_nil, and_true, hb.field_in,
    h.mergeWords_in hmerges, true_and]

end HeapInv

/-- On a tiled heap the neighbours are in the pages exactly if no guess is wrong. -/
theorem Heap.WellFormed.neighboursIn_iff {pages : Nat → Prop} {s : Heap} {free live : List Block}
    {b : Block} (h : s.WellFormed pages free live) (hpages : HandedOut pages s.pmm)
    (hb : b ∈ live ++ free) : s.NeighboursIn pages b.addr ↔ s.GuessesRight pages b.addr := by
  have hsound := (h.heapInv hpages).tidy.sound
  have hpos := (hsound b hb).addr_pos
  have hmin := (hsound b hb).min_size
  have hspace := (hsound b hb).in_space
  have hinside := (hsound b hb).in_heap
  have hsize := (h.formatted b hb).size_eq
  rw [NeighboursIn, GuessesRight, hasPrev, hasNext, nextBlock, hsize, decide_eq_true_iff,
    decide_eq_true_iff]
  apply and_congr
  · by_cases hbefore : pages ((b.addr - 1) / PAGE_SIZE)
    · obtain ⟨c, hc, hends, hprev⟩ := h.block_before hpages hb hbefore
      rw [← hends, hends, hprev]
      refine iff_of_true (fun _ => ⟨?_, (hsound c hc).field_in .magic⟩) fun hnot =>
        absurd hbefore hnot
      rw [← hends]
      exact (hsound c hc).footer_in
    · -- the last byte of the footer that would be there
      have hword : ¬ WordIn pages (sub32 b.addr 4) := by
        intro hword
        have hlast := hword 3 (by decide)
        rw [show u32 (sub32 b.addr 4 + 3) = b.addr - 1 by rw [sub32, u32, u32]; omega] at hlast
        exact hbefore hlast
      simp only [hword, hbefore, false_and, imp_false, not_false_eq_true, true_imp_iff, gt_iff_lt,
        not_lt]
  · by_cases hbehind : pages ((b.addr + b.size) / PAGE_SIZE)
    · obtain ⟨d, hd, hbegins⟩ := h.block_behind hpages hb hbehind
      have hd_space := (hsound d hd).in_space
      have hd_min := (hsound d hd).min_size
      rw [u32_of_lt (by omega), ← hbegins]
      exact iff_of_true (fun _ => (hsound d hd).field_in .magic) fun hnot =>
        absurd (hbegins ▸ hbehind) hnot
    · -- the block ends with its page, and its last byte is in the page before
      have hword : ¬ WordIn pages (fieldWord .magic (u32 (b.addr + b.size))) := by
        intro hword
        have hfirst := hword 0 (by decide)
        have hlast := hinside (b.addr + b.size - 1) ⟨by omega, by omega⟩
        rw [fieldWord, HeaderField.offset] at hfirst
        by_cases hend : b.addr + b.size = 2 ^ 32
        · rw [hend] at hfirst
          exact absurd (hpages _ hfirst).1 (by decide)
        · have hpage : (b.addr + b.size - 1) / PAGE_SIZE ≠ (b.addr + b.size) / PAGE_SIZE :=
            fun hsame => hbehind (hsame ▸ hlast)
          have hsame : u32 (u32 (b.addr + b.size) + 4 + 0) / PAGE_SIZE =
              (b.addr + b.size) / PAGE_SIZE := by
            rw [u32_of_lt (show b.addr + b.size < 2 ^ 32 by omega), u32]
            simp only [PAGE_SIZE] at hpage ⊢
            omega
          exact hbehind (hsame ▸ hfirst)
      simp only [hword, hbehind, imp_false, not_false_eq_true, true_imp_iff, not_lt]

namespace HeapRun

variable {s t : HeapRun} {free : List Block}

/-- The pages given to the heap once the call has returned. -/
def given (s : HeapRun) : HeapCall → Nat → Prop
  | .kmalloc size, page => s.owned page ∨ page ∈ s.heap.kmallocPages size
  | .kfree _, page => s.owned page
  | .others _ _, page => s.owned page

/-- A step after which `owned` are the pages given to the heap. `call` counts the pages that
    `heap_grow` takes and then leaves unused as well. -/
def GivenStep (s : HeapRun) (c : HeapCall) (t : HeapRun) : Prop :=
  s.Allowed c ∧ (s.call c).map (fun u => { u with owned := s.given c }) = some t

/-- After `kmalloc_init`, with the page it has taken. -/
def initGiven (pmm : Pmm) (heap : Heap) : HeapRun :=
  { heap := heap
    live := []
    owned := (· = pmm.pmmAllocPage.1 / PAGE_SIZE) }

theorem Inv.givenStep (h : s.Inv free) {c : HeapCall} (hmerges : s.MergesOnlyFree c)
    (hstep : s.GivenStep c t) : ∃ free', t.Inv free' := by
  obtain ⟨hallowed, hcall⟩ := hstep
  obtain ⟨u, hu, rfl⟩ := Option.map_eq_some_iff.mp hcall
  cases c with
  | kmalloc size =>
      obtain ⟨u', owned', free', hu', hinv, hpages, -⟩ := h.alloc size
      obtain rfl : u' = u := Option.some.inj (hu'.symm.trans hu)
      exact ⟨free', hinv.mono (fun page => (hpages page).mp) fun page hpage =>
        hinv.heap.used page ((hpages page).mpr hpage)⟩
  | kfree ptr =>
      obtain ⟨u', free', hu', hinv, -⟩ := h.release hallowed hmerges
      obtain rfl : u' = u := Option.some.inj (hu'.symm.trans hu)
      exact ⟨free', hinv⟩
  | others mem pmm =>
      obtain rfl : { s with heap := { s.heap with mem := mem, pmm := pmm } } = u :=
        Option.some.inj hu
      exact ⟨free, h.call_others hallowed⟩

/-- The live blocks, those on the free list and those that `kfree` has lost tile the pages
    of the heap. -/
structure Tiled (s : HeapRun) (free lost : List Block) : Prop where
  heap : s.heap.WellFormed s.owned free (s.live.map Allocation.block ++ lost)
  pages : Heap.HandedOut s.owned s.heap.pmm

theorem Tiled.init {mem : Memory} {pmm : Pmm} {heap : Heap}
    (hinit : Heap.kmallocInit mem pmm = some heap) :
    ∃ free lost, (initGiven pmm heap).Tiled free lost := by
  obtain ⟨new, hgrows, -⟩ := kmallocInit_grows hinit
  have hempty : Heap.WellFormed (fun _ => False) ⟨mem, 0, 0, pmm⟩ [] [] :=
    ⟨by simp, by simp, by simp, List.Pairwise.nil, by simp, by simp, by simp, isList_nil⟩
  obtain ⟨hwf, hpages⟩ := hempty.grows (fun _ h => h.elim) hgrows
  exact ⟨_, [], hwf, hpages⟩

theorem Tiled.givenStep {lost : List Block} {free₀ : List Block} (h : s.Tiled free lost)
    (hinv : s.Inv free₀) {c : HeapCall} (hmerges : s.MergesOnlyFree c) (hstep : s.GivenStep c t) :
    ∃ free' lost', t.Tiled free' lost' := by
  have hheap := h.heap.heapInv h.pages
  obtain ⟨hallowed, hcall⟩ := hstep
  obtain ⟨u, hu, rfl⟩ := Option.map_eq_some_iff.mp hcall
  cases c with
  | kmalloc size =>
      obtain ⟨ptr, heap, pages', s₁, new, hkmalloc, hgrows, hgiven, hresult⟩ :=
        hheap.kmalloc_cases size
      obtain ⟨hgrown, hpages⟩ := h.heap.grows h.pages hgrows
      obtain rfl : pages' = s.given (.kmalloc size) := funext fun page => propext (hgiven page)
      simp only [call, hkmalloc, Option.some.injEq] at hu
      subst hu
      rcases hresult with ⟨rfl, rfl, -⟩ | ⟨xs, c, ys, b, rest, hsplit, rfl, -, -, htakes⟩
      · exact ⟨_, lost, hgrown, hpages⟩
      · rw [hsplit] at hgrown
        obtain ⟨haddr, hblock⟩ := block_of_held htakes.inv size
        refine ⟨xs ++ rest ++ ys, lost, ?_, htakes.pmm_eq ▸ hpages⟩
        simp only [haddr, if_neg (Nat.succ_ne_zero _), List.map_cons, hblock]
        exact hgrown.takes htakes
  | kfree ptr =>
      obtain ⟨a, rest, -, -, -, herase, haddr, hptr, hperm⟩ := hinv.freed hallowed
      have hwf := h.heap.perm_live h.pages (hperm.append_right lost)
      rw [MergesOnlyFree, haddr] at hmerges
      obtain ⟨heap, free', lost', hkfree, hreleases, -⟩ := (hwf.heapInv h.pages).kfree hmerges
      rw [← hptr] at hkfree
      simp only [call, hkfree, herase, Option.some.injEq] at hu
      subst hu
      have hpages : Heap.HandedOut s.owned heap.pmm := hreleases.pmm_eq ▸ h.pages
      have hreleased := hwf.releases hreleases
      refine ⟨free', lost'.toList ++ lost, hreleased.perm_live hpages ?_, hpages⟩
      exact List.perm_append_comm_assoc _ _ _
  | others mem pmm =>
      obtain rfl : { s with heap := { s.heap with mem := mem, pmm := pmm } } = u :=
        Option.some.inj hu
      have hkeeps {b : Block} (hb : b ∈ s.live.map Allocation.block ++ lost ++ free) {x : Nat} :=
        Allowed.keeps hallowed hheap.tidy hinv.header (fun a ha => List.mem_append_left _
          (List.mem_append_left _ (List.mem_map_of_mem ha))) hb (x := x)
      refine ⟨free, lost, .of_heapInv (hheap.congr (fun b hb x hle hlt => ?_) hallowed.2)
        h.heap.in_space h.heap.covered fun b hb => ?_, fun page hpage =>
          ⟨(h.pages page hpage).1, hallowed.2 page hpage⟩⟩
      · have hmin := h.heap.min_size b hb
        exact hkeeps hb ⟨hle, by omega⟩ (Or.inl hlt)
      · exact (h.heap.footed b hb).congr (hheap.tidy.sound b hb) fun x hx hle =>
          hkeeps hb hx (Or.inr hle)

/-- **What `kfree` touches.** In every run in which `kfree` merges only with blocks on the
    free list, whatever the rest of the kernel does to memory outside the heap, and for
    every live pointer that is freed in this way next: the words of metadata that
    `kfree` reads and writes lie in the pages given to the heap, if and only if the block
    begins no stretch of these pages less than 64 KiB before `heap_end` and ends no stretch
    below `heap_end`. -/
theorem kfree_inside_heap_iff {mem : Memory} {pmm : Pmm} {heap : Heap} {calls : List HeapCall}
    (hinit : Heap.kmallocInit mem pmm = some heap)
    (hrun : Run (Guarded MergesOnlyFree GivenStep) (initGiven pmm heap) calls t) {ptr : Nat}
    (hlive : t.Allowed (.kfree ptr)) (hmerges : t.MergesOnlyFree (.kfree ptr)) :
    WordsIn t.owned (t.heap.kfreeWords ptr) ↔
      t.heap.GuessesRight t.owned (sub32 ptr HEADER_SIZE) := by
  have hinv : (∃ free, t.Inv free) ∧ ∃ free lost, t.Tiled free lost := by
    refine hrun.invariant (fun s => (∃ free, s.Inv free) ∧ ∃ free lost, s.Tiled free lost)
      ⟨?_, Tiled.init hinit⟩ ?_
    · obtain ⟨free, hinv, -⟩ := Inv.first_page hinit
      exact ⟨free, hinv⟩
    · rintro a c b ⟨⟨free, ha⟩, free', lost, htiled⟩ ⟨hmerges, hstep⟩
      exact ⟨ha.givenStep hmerges hstep, htiled.givenStep ha hmerges hstep⟩
  obtain ⟨⟨free, h⟩, free', lost, htiled⟩ := hinv
  obtain ⟨a, rest, ha, -, -, -, haddr, hptr, hperm⟩ := h.freed hlive
  rw [MergesOnlyFree, haddr] at hmerges
  rw [haddr, hptr, (h.heap.perm_held hperm).kfreeWords_in_iff hmerges]
  exact htiled.heap.neighboursIn_iff htiled.pages
    (List.mem_append_left _ (List.mem_append_left _ (List.mem_map_of_mem ha)))

theorem givenStep_kmalloc {size ptr : Nat} {heap : Heap}
    (h : s.heap.kmalloc size = some (ptr, heap)) (hptr : ptr ≠ 0) :
    s.GivenStep (.kmalloc size)
      { heap := heap
        live := ⟨ptr, size, field heap.mem .size (sub32 ptr HEADER_SIZE) - 20⟩ :: s.live
        owned := s.given (.kmalloc size) } :=
  ⟨trivial, by simp only [call, h, if_neg hptr, Option.map_some]⟩

/-- A page allocator with 32 free pages from address 128 KiB on. -/
def smallPmm : Pmm := ⟨fun i => if i < 4 then 255 else 0, 64, 32, by decide⟩

/-- The first block of the first page is freed after the heap has grown: nothing before it
    is looked at, and it is merged with the rest of the page. -/
theorem kfree_inside_heap_grown :
    ∃ heap t, Heap.kmallocInit (fun _ => 0) smallPmm = some heap ∧
      Run (Guarded MergesOnlyFree GivenStep) (initGiven smallPmm heap)
        [.kmalloc 16, .kmalloc 8000] t ∧
      t.Allowed (.kfree 131088) ∧ t.heap.hasNext 131072 = true ∧
      WordsIn t.owned (t.heap.kfreeWords 131088) := by
  have hexec : (Heap.kmallocInit (fun _ => 0) smallPmm).bind (fun heap =>
      (heap.kmalloc 16).bind fun r => (r.2.kmalloc 8000).map fun r' =>
        ((r.1, r'.1), decide (r'.2.MergesFree 131072), (r'.2.hasPrev 131072,
          r'.2.hasNext 131072), field r'.2.mem .size 131072)) =
      some ((131088, 135184), true, (false, true), 36) := by
    decide
  obtain ⟨heap, hheap, hexec⟩ := Option.bind_eq_some_iff.mp hexec
  obtain ⟨r, hfirst, hexec⟩ := Option.bind_eq_some_iff.mp hexec
  obtain ⟨r', hsecond, hstate⟩ := Option.map_eq_some_iff.mp hexec
  simp only [Prod.mk.injEq, decide_eq_true_eq] at hstate
  obtain ⟨⟨hptr, hptr'⟩, hmerges, ⟨hprev, hnext⟩, hsize⟩ := hstate
  replace hfirst : heap.kmalloc 16 = some (131088, r.2) := by rw [hfirst, ← hptr]
  replace hsecond : r.2.kmalloc 8000 = some (135184, r'.2) := by rw [hsecond, ← hptr']
  have hstep := givenStep_kmalloc (s := initGiven smallPmm heap) hfirst (by decide)
  generalize hs : HeapRun.mk r.2 _ _ = s at hstep
  have hstep' := givenStep_kmalloc (s := s) (by rw [← hs]; exact hsecond) (by decide)
  generalize ht : HeapRun.mk r'.2 _ _ = t at hstep'
  have hrun : Run (Guarded MergesOnlyFree GivenStep) (initGiven smallPmm heap)
      [.kmalloc 16, .kmalloc 8000] t := .cons ⟨trivial, hstep⟩ (.cons ⟨trivial, hstep'⟩ .nil)
  have hlive : t.Allowed (.kfree 131088) := by
    rw [← ht, ← hs]
    exact ⟨_, List.mem_cons_of_mem _ List.mem_cons_self, rfl⟩
  have hpage : t.owned 32 := by
    rw [← ht, ← hs]
    have hfirst : (32 : Nat) = smallPmm.pmmAllocPage.1 / PAGE_SIZE := by decide
    exact Or.inl (Or.inl hfirst)
  have heap_eq : t.heap = r'.2 := by rw [← ht]
  refine ⟨heap, t, hheap, hrun, hlive, by rw [heap_eq]; exact hnext, ?_⟩
  refine (kfree_inside_heap_iff hheap hrun hlive ?_).mpr ⟨?_, ?_⟩
  · rw [MergesOnlyFree, heap_eq]
    exact hmerges
  · intro _
    rw [heap_eq]
    exact Nat.le_of_not_lt (of_decide_eq_false hprev)
  · rw [heap_eq, show sub32 131088 HEADER_SIZE = 131072 from rfl, hsize]
    exact fun hnot => absurd hpage hnot

/-- The first block of the heap is freed. It lies less than 64 KiB before the end of the
    heap, so `kfree` reads the word before the page. -/
theorem kfree_reads_before_heap :
    ¬ ∀ (mem : Memory) (pmm : Pmm) (heap : Heap) (calls : List HeapCall) (t : HeapRun) (ptr : Nat),
      Heap.kmallocInit mem pmm = some heap → Run GivenStep (initGiven pmm heap) calls t →
      t.Allowed (.kfree ptr) → WordsIn t.owned (t.heap.kfreeWords ptr) := by
  intro h
  have hexec : (bootHeap.kmalloc 16).map (fun r =>
      (r.1, bootHeap.kmallocPages 16, decide (4194300 ∈ r.2.kfreeWords 4194320))) =
      some (4194320, [], true) := by
    decide
  obtain ⟨r, hfirst, hstate⟩ := Option.map_eq_some_iff.mp hexec
  simp only [Prod.mk.injEq, decide_eq_true_eq] at hstate
  obtain ⟨hptr, hpages, hword⟩ := hstate
  replace hfirst : bootHeap.kmalloc 16 = some (4194320, r.2) := by rw [hfirst, ← hptr]
  have hstep := givenStep_kmalloc (s := initGiven bootPmm bootHeap) hfirst (by decide)
  have hwords := h _ _ _ [.kmalloc 16] _ 4194320 kmallocInit_boot (.cons hstep .nil)
    ⟨_, List.mem_cons_self, rfl⟩
  rcases hwords 4194300 hword 0 (by decide) with hpage | hpage
  · have hpage' : (1023 : Nat) = bootPmm.pmmAllocPage.1 / PAGE_SIZE := hpage
    rw [pmmAllocPage_boot] at hpage'
    exact absurd hpage' (by decide)
  · rw [show (initGiven bootPmm bootHeap).heap = bootHeap from rfl, hpages] at hpage
    exact absurd hpage List.not_mem_nil

end HeapRun

end NemoOS
