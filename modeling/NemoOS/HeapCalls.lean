import NemoOS.HeapInvariant

/-!
# What `kmalloc` and `kfree` do to the layout

`kmalloc` keeps the invariant in every state: it takes a block off the free list or
cuts a piece from one, after adding pages to the heap if no block is large enough.
`kfree` takes its neighbours for blocks on the free list when it merges them, and
keeps the invariant when they are (`Heap.MergesFree`).
-/

namespace NemoOS

open Words Bytes Loops Linked

/-! ## Pages -/

/-- The pages taken by the optimistic loop of `heap_grow` are the ones after the
    first, as long as it does not give up. -/
theorem takeContiguous_spec (first i : Nat) (hspace : first + i ≤ 2 ^ 20) (p : Pmm) (n : Nat) :
    p.Keeps (Heap.takeContiguous (first * PAGE_SIZE) i p n).2 ∧
      ((Heap.takeContiguous (first * PAGE_SIZE) i p n).1 = true →
        first + i + n ≤ 2 ^ 20 ∧ ∀ page, first + i ≤ page → page < first + i + n →
          p.testBit page = false ∧
            (Heap.takeContiguous (first * PAGE_SIZE) i p n).2.testBit page = true) := by
  induction n generalizing i p with
  | zero => exact ⟨fun page h => h, fun _ => ⟨by omega, fun page hle hlt => by omega⟩⟩
  | succ n ih =>
      obtain ⟨hkeeps, hcases⟩ := p.pmmAllocPage_spec
      rw [Heap.takeContiguous]
      generalize halloc : p.pmmAllocPage = alloc at hkeeps hcases
      obtain ⟨page, p'⟩ := alloc
      dsimp only at hkeeps hcases ⊢
      rcases hcases with rfl | ⟨k, hk, hk_lt, rfl, hclear, hbit⟩
      · rw [if_pos rfl]
        exact ⟨hkeeps, fun h => absurd h Bool.false_ne_true⟩
      · have hnonzero : k * PAGE_SIZE ≠ 0 := Nat.mul_ne_zero (by omega) (by decide)
        rw [if_neg hnonzero]
        split
        · exact ⟨Pmm.keeps_pmmFreePage hclear hkeeps, fun h => absurd h Bool.false_ne_true⟩
        · next hnext =>
          -- the expected address has not wrapped around to the page at 0
          have hk_eq : k = first + i := by
            rw [not_not, u32, PAGE_SIZE] at hnext
            omega
          subst hk_eq
          obtain ⟨hkeeps', hcontiguous⟩ := ih (i + 1) (by omega) p'
          refine ⟨hkeeps.trans hkeeps', fun hok => ?_⟩
          obtain ⟨hbound, hpages⟩ := hcontiguous hok
          refine ⟨by omega, fun page hle hlt => ?_⟩
          rcases Nat.eq_or_lt_of_le hle with rfl | hlater
          · exact ⟨hclear, hkeeps' _ (by rw [hbit]; simp)⟩
          · obtain ⟨hbefore, hafter⟩ := hpages page (by omega) (by omega)
            rw [hbit, Bool.or_eq_false_iff] at hbefore
            exact ⟨hbefore.1, hafter⟩

/-! ## Growth -/

/-- The bytes of the heap outside the blocks do not change. -/
def KeepsHeap (owned : Nat → Prop) (blocks : List Block) (m m' : Memory) : Prop :=
  ∀ x, owned (x / PAGE_SIZE) → (∀ b ∈ blocks, ¬ b.Holds x) → m' x = m x

/-- The heap has gained pages that were free, and blocks that fill them. The old blocks keep
    what is not a link. -/
structure Grows (owned owned' : Nat → Prop) (s s' : Heap) (free new held : List Block) : Prop where
  inv : HeapInv owned' s' (free ++ new) held
  pages_le : ∀ page, owned page → owned' page
  pages_new : ∀ page, owned' page → owned page ∨ s.pmm.testBit page = false
  pmm_keeps : s.pmm.Keeps s'.pmm
  blocks_new : ∀ b ∈ new, ∀ x, b.Holds x → ¬ owned (x / PAGE_SIZE)
  mem_keeps : KeepsHeap owned free s.mem s'.mem
  covered : ∀ x, owned' (x / PAGE_SIZE) → owned (x / PAGE_SIZE) ∨ ∃ b ∈ new, b.Holds x
  footed : ∀ b ∈ new, Footed s'.mem b
  bodies : ∀ b ∈ held ++ free, SameBody s.mem s'.mem b

/-- The bytes of a run of pages. -/
theorem Block.holds_pages {first count x : Nat} :
    Block.Holds ⟨first * PAGE_SIZE, count * PAGE_SIZE⟩ x ↔
      first ≤ x / PAGE_SIZE ∧ x / PAGE_SIZE < first + count := by
  simp only [Block.Holds, PAGE_SIZE]
  omega

theorem Block.sound_pages {owned : Nat → Prop} {first count : Nat} (hfirst : 0 < first)
    (hcount : 0 < count) (hspace : first + count ≤ 2 ^ 20)
    (howned : ∀ page, first ≤ page ∧ page < first + count → owned page) :
    Block.Sound owned ⟨first * PAGE_SIZE, count * PAGE_SIZE⟩ := by
  refine ⟨?_, ?_, ?_, fun x hx => howned _ (Block.holds_pages.mp hx)⟩
  all_goals
    simp only [PAGE_SIZE]
    omega

namespace HeapInv

variable {owned owned' : Nat → Prop} {s s' : Heap} {free held xs ys : List Block} {b c : Block}

theorem grows_refl (h : HeapInv owned s free held) {p : Pmm} (hp : s.pmm.Keeps p) :
    Grows owned owned s { s with pmm := p } free [] held where
  inv := by
    rw [List.append_nil]
    exact ⟨h.list, h.formatted, h.tidy, fun page hpage => hp page (h.used page hpage)⟩
  pages_le := fun _ hpage => hpage
  pages_new := fun _ hpage => Or.inl hpage
  pmm_keeps := hp
  blocks_new := fun b hb => absurd hb List.not_mem_nil
  mem_keeps := fun _ _ _ => rfl
  covered := fun _ hx => Or.inl hx
  footed := fun b hb => absurd hb List.not_mem_nil
  bodies := fun _ _ _ _ _ => rfl

/-- A block outside the pages of the heap is apart from its blocks. -/
theorem tidy_cons_new (h : HeapInv owned s free held)
    (hle : ∀ page, owned page → owned' page) (hsound : b.Sound owned')
    (hnew : ∀ x, b.Holds x → ¬ owned (x / PAGE_SIZE)) : Tidy owned' (b :: (held ++ free)) := by
  apply (h.tidy.mono hle).cons hsound
  intro c hc
  -- a common byte would be in an owned page
  by_contra hdisjoint
  have hc_sound := h.tidy.sound c hc
  have hmin := hc_sound.min_size
  have hmin' := hsound.min_size
  rw [Block.Disjoint, not_or] at hdisjoint
  exact hnew (max b.addr c.addr) ⟨by omega, by omega⟩
    (hc_sound.in_heap (max b.addr c.addr) ⟨by omega, by omega⟩)

/-- A block made of free pages is formatted and put on the list. -/
theorem adopt (h : HeapInv owned s free held) {first count : Nat} (heapEnd : Nat) {p : Pmm}
    (hfirst : 0 < first) (hcount : 0 < count) (hspace : first + count ≤ 2 ^ 20)
    (hp : s.pmm.Keeps p)
    (hpages : ∀ page, first ≤ page → page < first + count →
      s.pmm.testBit page = false ∧ p.testBit page = true) :
    ∃ s', Heap.listAppend
        { s with
          mem := formatBlock s.mem (first * PAGE_SIZE) (count * PAGE_SIZE)
          heapEnd := heapEnd
          pmm := p } (first * PAGE_SIZE) = some s' ∧ s'.pmm = p ∧
      Grows owned (fun page => owned page ∨ first ≤ page ∧ page < first + count) s s' free
        [⟨first * PAGE_SIZE, count * PAGE_SIZE⟩] held := by
  obtain ⟨b, hb⟩ : ∃ b : Block, b = ⟨first * PAGE_SIZE, count * PAGE_SIZE⟩ := ⟨_, rfl⟩
  have haddr : b.addr = first * PAGE_SIZE := by rw [hb]
  have hsize : b.size = count * PAGE_SIZE := by rw [hb]
  have hholds : ∀ x, b.Holds x ↔ first ≤ x / PAGE_SIZE ∧ x / PAGE_SIZE < first + count :=
    fun x => hb ▸ Block.holds_pages
  have hnew : ∀ x, b.Holds x → ¬ owned (x / PAGE_SIZE) := by
    intro x hx howned
    obtain ⟨hle, hlt⟩ := (hholds x).mp hx
    have hused := h.used _ howned
    rw [(hpages _ hle hlt).1] at hused
    exact absurd hused Bool.false_ne_true
  have hsound : b.Sound (fun page => owned page ∨ first ≤ page ∧ page < first + count) := by
    rw [hb]
    exact Block.sound_pages hfirst hcount hspace fun page hpage => Or.inr hpage
  have htidy := h.tidy_cons_new (fun page hpage => Or.inl hpage) hsound hnew
  obtain ⟨hformatted, honly⟩ := formatted_formatBlock (m := s.mem) hsound
  have hused : ∀ page, owned page ∨ first ≤ page ∧ page < first + count →
      p.testBit page = true := by
    rintro page (hpage | ⟨hle, hlt⟩)
    · exact hp page (h.used page hpage)
    · exact (hpages page hle hlt).2
  have hheld : HeapInv _ ⟨formatBlock s.mem b.addr b.size, s.freeList, heapEnd, p⟩ free
      (b :: held) := h.hold htidy honly hformatted rfl hused
  obtain ⟨s', hs', hinv, honly', hbody, -, hpmm⟩ := hheld.listAppend_body
  rw [haddr, hsize] at hs'
  refine ⟨s', hs', hpmm, hb ▸ hinv, fun _ => Or.inl, ?_, hpmm ▸ hp, ?_, ?_, ?_, ?_, ?_⟩
  · rintro page (hpage | ⟨hle, hlt⟩)
    · exact Or.inl hpage
    · exact Or.inr (hpages page hle hlt).1
  · intro c hc
    rw [List.mem_singleton.mp hc, ← hb]
    exact hnew
  · intro x hx hfree
    have hout : ¬ b.Holds x := fun hb => hnew x hb hx
    refine (honly' x ?_).trans (honly x ?_)
    · intro c hc
      rcases List.mem_append.mp hc with hc | hc
      · exact hfree c hc
      · rw [List.mem_singleton.mp hc]
        exact hout
    · intro c hc
      rw [List.mem_singleton.mp hc]
      exact hout
  · rintro x (hx | hx)
    · exact Or.inl hx
    · exact Or.inr ⟨b, hb ▸ List.mem_singleton_self _, (hholds x).mpr hx⟩
  · intro c hc
    rw [List.mem_singleton.mp hc, ← hb]
    exact (hbody b List.mem_cons_self).footed hsound (footed_formatBlock hsound)
  · intro c hc
    have hformat : SameBody s.mem (formatBlock s.mem b.addr b.size) c := honly.sameBody fun d hd => by
      rw [List.mem_singleton.mp hd]
      exact (List.pairwise_cons.mp htidy.disjoint).1 c hc
    exact hformat.trans (hbody c (List.mem_cons_of_mem _ hc))

end HeapInv

theorem Grows.trans {owned owned' owned'' : Nat → Prop} {s s' s'' : Heap}
    {free new new' held : List Block} (h : Grows owned owned' s s' free new held)
    (h' : Grows owned' owned'' s' s'' (free ++ new) new' held) :
    Grows owned owned'' s s'' free (new ++ new') held where
  inv := by
    rw [← List.append_assoc]
    exact h'.inv
  pages_le := fun page hpage => h'.pages_le page (h.pages_le page hpage)
  pages_new := by
    intro page hpage
    rcases h'.pages_new page hpage with hpage | hpage
    · exact h.pages_new page hpage
    · right
      by_contra hused
      rw [Bool.not_eq_false] at hused
      rw [h.pmm_keeps page hused] at hpage
      exact absurd hpage.symm Bool.false_ne_true
  pmm_keeps := h.pmm_keeps.trans h'.pmm_keeps
  blocks_new := by
    intro b hb x hx howned
    rcases List.mem_append.mp hb with hb | hb
    · exact h.blocks_new b hb x hx howned
    · exact h'.blocks_new b hb x hx (h.pages_le _ howned)
  mem_keeps := by
    intro x howned hx
    rw [h'.mem_keeps x (h.pages_le _ howned), h.mem_keeps x howned hx]
    intro b hb
    rcases List.mem_append.mp hb with hb | hb
    · exact hx b hb
    · exact fun hholds => h.blocks_new b hb x hholds howned
  covered := by
    intro x hx
    rcases h'.covered x hx with hx | ⟨b, hb, hx⟩
    · rcases h.covered x hx with hx | ⟨b, hb, hx⟩
      · exact Or.inl hx
      · exact Or.inr ⟨b, List.mem_append_left _ hb, hx⟩
    · exact Or.inr ⟨b, List.mem_append_right _ hb, hx⟩
  footed := by
    intro b hb
    rcases List.mem_append.mp hb with hb | hb
    · have hb' : b ∈ held ++ (free ++ new) :=
        List.mem_append_right _ (List.mem_append_right _ hb)
      exact (h'.bodies b hb').footed (h.inv.tidy.sound b hb') (h.footed b hb)
    · exact h'.footed b hb
  bodies := by
    intro b hb
    apply (h.bodies b hb).trans (h'.bodies b _)
    rw [← List.append_assoc]
    exact List.mem_append_left _ hb

/-- The pages that `n` calls of `pmm_alloc_page` hand out, up to the first that fails. -/
def Pmm.handedOut (pmm : Pmm) : Nat → List Nat
  | 0 => []
  | n + 1 =>
      let (page, pmm) := pmm.pmmAllocPage
      if page = 0 then [] else page / PAGE_SIZE :: pmm.handedOut n

/-- The pages that `heap_grow` makes blocks of. Those it takes before it finds that they
    are not contiguous are not among them. -/
def Heap.heapGrowPages (s : Heap) : List Nat :=
  let pages := (HEAP_GROW + 4095) / 4096
  let (first, pmm) := s.pmm.pmmAllocPage
  if first = 0 then []
  else
    let (contiguous, pmm) := takeContiguous first 1 pmm (pages - 1)
    if contiguous then List.range' (first / PAGE_SIZE) pages else pmm.handedOut pages

/-- A block of one page. -/
def Block.ofPage (page : Nat) : Block := ⟨page * PAGE_SIZE, PAGE_SIZE⟩

/-- The blocks that `heap_grow` appends to the free list, in the order of its calls of
    `list_append`. -/
def Heap.heapGrowBlocks (s : Heap) : List Block :=
  let pages := (HEAP_GROW + 4095) / 4096
  let (first, pmm) := s.pmm.pmmAllocPage
  if first = 0 then []
  else
    let (contiguous, pmm) := takeContiguous first 1 pmm (pages - 1)
    if contiguous then [⟨first, pages * PAGE_SIZE⟩] else (pmm.handedOut pages).map Block.ofPage

/-- The pages that `kmalloc` gives to the heap. -/
def Heap.kmallocPages (s : Heap) (size : Nat) : List Nat :=
  if size = 0 then []
  else
    match loop (fitStep s.mem (neededFor size)) WALK_LIMIT s.freeList with
    | some none => s.heapGrowPages
    | _ => []

/-- The loop that adds single pages. -/
theorem HeapInv.addPages {owned : Nat → Prop} {s : Heap} {free held : List Block}
    (h : HeapInv owned s free held) (n : Nat) :
    ∃ s' owned', s.addPages n = some s' ∧
      Grows owned owned' s s' free ((s.pmm.handedOut n).map Block.ofPage) held ∧
      ∀ page, owned' page ↔ owned page ∨ page ∈ s.pmm.handedOut n := by
  induction n generalizing s owned free with
  | zero =>
      exact ⟨s, owned, rfl, h.grows_refl fun _ hpage => hpage, by simp [Pmm.handedOut]⟩
  | succ n ih =>
      obtain ⟨hkeeps, hcases⟩ := s.pmm.pmmAllocPage_spec
      rw [Heap.addPages, Pmm.handedOut]
      generalize halloc : s.pmm.pmmAllocPage = alloc at hkeeps hcases
      obtain ⟨page, p⟩ := alloc
      dsimp only at hkeeps hcases ⊢
      rcases hcases with rfl | ⟨k, hk, hk_lt, rfl, hclear, hbit⟩
      · rw [if_pos rfl, if_pos rfl]
        exact ⟨_, owned, rfl, h.grows_refl hkeeps, by simp⟩
      · have hnonzero : k * PAGE_SIZE ≠ 0 := Nat.mul_ne_zero (by omega) (by decide)
        rw [if_neg hnonzero, if_neg hnonzero]
        obtain ⟨s₁, hs₁, hpmm, hgrows⟩ := h.adopt (u32 (k * PAGE_SIZE + 4096)) hk
          Nat.one_pos hk_lt hkeeps (by
            intro page hle hlt
            obtain rfl : k = page := by omega
            exact ⟨hclear, by rw [hbit]; simp⟩)
        rw [Nat.one_mul] at hs₁ hgrows
        obtain ⟨s', owned', hs', hgrows', hpages⟩ := ih hgrows.inv
        rw [hpmm] at hgrows' hpages
        rw [Nat.mul_div_cancel k (by decide)]
        refine ⟨s', owned', ?_, hgrows.trans hgrows', fun page => ?_⟩
        · rw [PAGE_SIZE] at hs₁ ⊢
          rw [hs₁]
          exact hs'
        · have hself : k ≤ page ∧ page < k + 1 ↔ page = k := by omega
          rw [hpages, hself, List.mem_cons, or_assoc]

theorem HeapInv.heapGrow {owned : Nat → Prop} {s : Heap} {free held : List Block}
    (h : HeapInv owned s free held) :
    ∃ s' owned', s.heapGrow = some s' ∧
      Grows owned owned' s s' free s.heapGrowBlocks held ∧
      ∀ page, owned' page ↔ owned page ∨ page ∈ s.heapGrowPages := by
  obtain ⟨hkeeps, hcases⟩ := s.pmm.pmmAllocPage_spec
  rw [Heap.heapGrow, Heap.heapGrowPages, Heap.heapGrowBlocks]
  generalize halloc : s.pmm.pmmAllocPage = alloc at hkeeps hcases
  obtain ⟨first, p⟩ := alloc
  dsimp only at hkeeps hcases ⊢
  rcases hcases with rfl | ⟨k, hk, hk_lt, rfl, hclear, hbit⟩
  · rw [if_pos rfl, if_pos rfl, if_pos rfl]
    exact ⟨_, owned, rfl, h.grows_refl hkeeps, by simp⟩
  · have hnonzero : k * PAGE_SIZE ≠ 0 := Nat.mul_ne_zero (by omega) (by decide)
    rw [if_neg hnonzero, if_neg hnonzero, if_neg hnonzero]
    obtain ⟨hkeeps', hcontiguous⟩ := takeContiguous_spec k 1 hk_lt p
      ((HEAP_GROW + 4095) / 4096 - 1)
    generalize Heap.takeContiguous (k * PAGE_SIZE) 1 p ((HEAP_GROW + 4095) / 4096 - 1) = taken
      at hkeeps' hcontiguous
    obtain ⟨contiguous, p'⟩ := taken
    dsimp only at hkeeps' hcontiguous ⊢
    cases hok : contiguous with
    | true =>
      obtain ⟨hbound, hpages⟩ := hcontiguous hok
      have hcount : k + 1 + ((HEAP_GROW + 4095) / 4096 - 1) = k + (HEAP_GROW + 4095) / 4096 := by
        rw [HEAP_GROW]
      rw [hcount] at hbound hpages
      obtain ⟨s', hs', -, hgrows⟩ := h.adopt
        (u32 (k * PAGE_SIZE + (HEAP_GROW + 4095) / 4096 * PAGE_SIZE)) hk (by decide) hbound
        (hkeeps.trans hkeeps') (by
          intro page hle hlt
          rcases Nat.eq_or_lt_of_le hle with rfl | hlater
          · exact ⟨hclear, hkeeps' _ (by rw [hbit]; simp)⟩
          · obtain ⟨hbefore, hafter⟩ := hpages page hlater hlt
            rw [hbit, Bool.or_eq_false_iff] at hbefore
            exact ⟨hbefore.1, hafter⟩)
      refine ⟨s', _, hs', hgrows, fun page => ?_⟩
      rw [if_pos rfl, List.mem_range'_1, Nat.mul_div_cancel k (by decide)]
    | false =>
      -- the pages taken so far stay in use
      have hinv := (h.grows_refl (hkeeps.trans hkeeps')).inv
      rw [List.append_nil] at hinv
      obtain ⟨s', owned', hs', hgrows, hpages⟩ := hinv.addPages ((HEAP_GROW + 4095) / 4096)
      rw [← List.append_nil free] at hgrows
      exact ⟨s', owned', hs', (h.grows_refl (hkeeps.trans hkeeps')).trans hgrows, hpages⟩

/-! ## Allocation -/

namespace HeapInv

variable {owned owned' : Nat → Prop} {s s' : Heap} {free held : List Block} {b c : Block}

/-- The search ends with a block on the list that is large enough, or with nothing if there
    is none. -/
theorem fit (h : HeapInv owned s free held) (needed : Nat) :
    (loop (Heap.fitStep s.mem needed) WALK_LIMIT s.freeList = some none ∧
        ∀ c ∈ free, c.size < needed) ∨
      ∃ c ∈ free, needed ≤ c.size ∧
        loop (Heap.fitStep s.mem needed) WALK_LIMIT s.freeList = some (some c.addr) := by
  have hnonzero : ∀ n ∈ free.map Block.addr, n ≠ 0 := by
    rintro n hn rfl
    exact h.list.null_notMem hn
  have hwalk : loop (Heap.fitStep s.mem needed) WALK_LIMIT s.freeList =
      some (id ((free.map Block.addr).find? fun n => decide (field s.mem .size n ≥ needed))) := by
    apply IsList.loop_find h.list
    · rw [Heap.fitStep, if_pos rfl, id]
    · intro n hn hfound
      rw [Heap.fitStep, if_neg (hnonzero n hn), if_pos (of_decide_eq_true hfound), id]
    · intro n hn hfound
      rw [Heap.fitStep, if_neg (hnonzero n hn), if_neg (of_decide_eq_false hfound)]
    · exact h.list.length_lt h.separated_free
  rw [hwalk, id]
  cases hfind : (free.map Block.addr).find? fun n => decide (field s.mem .size n ≥ needed) with
  | none =>
      refine Or.inl ⟨rfl, fun c hc => ?_⟩
      have hsmall := List.find?_eq_none.mp hfind c.addr (List.mem_map_of_mem hc)
      rw [decide_eq_true_eq, (h.formatted c (List.mem_append_right _ hc)).size_eq] at hsmall
      exact Nat.lt_of_not_le hsmall
  | some n =>
      right
      obtain ⟨c, hc, rfl⟩ := List.mem_map.mp (List.mem_of_find?_eq_some hfind)
      refine ⟨c, hc, ?_, rfl⟩
      have hfound := List.find?_some hfind
      rwa [decide_eq_true_eq, (h.formatted c (List.mem_append_right _ hc)).size_eq] at hfound

end HeapInv

/-- The footer of a block that is about to be returned is written and its payload
    cleared. -/
def clearBlock (m : Memory) (h : Nat) : Memory :=
  fill (setFooter m h) (u32 (h + HEADER_SIZE)) 0 (sub32 (field (setFooter m h) .size h) 20)

section clearBlock

variable {owned : Nat → Prop} {m : Memory} {b : Block}

theorem clearBlock_eq (hb : b.Sound owned) (h : Formatted m b) :
    clearBlock m b.addr = fill (setFooter m b.addr) (b.addr + 16) 0 (b.size - 20) := by
  have hpos := hb.addr_pos
  have hmin := hb.min_size
  have hspace := hb.in_space
  have hpayload : u32 (b.addr + HEADER_SIZE) = b.addr + 16 := u32_of_lt (by
    rw [HEADER_SIZE]
    omega)
  have hroom : sub32 b.size 20 = b.size - 20 := sub32_of_le (by omega) (by omega)
  rw [clearBlock, (formatted_setFooter hb h).1.size_eq, hpayload, hroom]

theorem formatted_clearBlock (hb : b.Sound owned) (h : Formatted m b) :
    Formatted (clearBlock m b.addr) b ∧ OnlyIn [b] m (clearBlock m b.addr) := by
  obtain ⟨hformatted, honly⟩ := formatted_setFooter hb h
  obtain ⟨hformatted', honly'⟩ := formatted_fill hb hformatted
  rw [clearBlock_eq hb h]
  exact ⟨hformatted', honly.trans honly'⟩

theorem footed_clearBlock (hb : b.Sound owned) (h : Formatted m b) :
    Footed (clearBlock m b.addr) b := by
  have hmin := hb.min_size
  have hspace := hb.in_space
  have hsame : read32 (fill (setFooter m b.addr) (b.addr + 16) 0 (b.size - 20))
      (b.addr + b.size - 4) = read32 (setFooter m b.addr) (b.addr + b.size - 4) :=
    read32_congr (by omega) fun x hle hlt => fill_of_outside (by omega) (by omega)
  rw [clearBlock_eq hb h]
  exact hsame.trans (footed_setFooter hb h)

theorem clearBlock_payload (hb : b.Sound owned) (h : Formatted m b) {x : Nat}
    (hle : b.addr + 16 ≤ x) (hlt : x < b.addr + b.size - 4) : clearBlock m b.addr x = 0 := by
  have hspace := hb.in_space
  rw [clearBlock_eq hb h, fill, if_pos]
  refine ⟨by omega, ?_⟩
  rw [sub32, u32]
  omega

end clearBlock

namespace HeapInv

variable {owned owned' : Nat → Prop} {s s' : Heap} {free held xs ys : List Block} {b c : Block}

theorem clear (h : HeapInv owned s free (b :: held)) :
    HeapInv owned { s with mem := clearBlock s.mem b.addr } free (b :: held) ∧
      OnlyIn [b] s.mem (clearBlock s.mem b.addr) := by
  obtain ⟨hformatted, honly⟩ := formatted_clearBlock (h.tidy.sound b List.mem_cons_self)
    (h.formatted b List.mem_cons_self)
  exact ⟨h.drop.hold h.tidy honly hformatted rfl h.used, honly⟩

end HeapInv

/-- `kmalloc` has taken the block `b` from the block `c` of the list `xs ++ c :: ys`; what
    is left of `c` is on the list in its place. -/
structure Takes (owned : Nat → Prop) (s s' : Heap) (xs ys held : List Block) (c b : Block)
    (rest : List Block) : Prop where
  inv : HeapInv owned s' (xs ++ rest ++ ys) (b :: held)
  only : OnlyIn (xs ++ c :: ys) s.mem s'.mem
  pmm_eq : s'.pmm = s.pmm
  tiles : ∀ x, c.Holds x ↔ ∃ d ∈ b :: rest, d.Holds x
  bodies : ∀ d ∈ held ++ (xs ++ ys), SameBody s.mem s'.mem d
  footed : ∀ d ∈ b :: rest, Footed s'.mem d
  zero : ∀ x, b.addr + 16 ≤ x → x < b.addr + b.size - 4 → s'.mem x = 0

namespace HeapInv

variable {owned owned' : Nat → Prop} {s s' : Heap} {free held xs ys : List Block} {b c : Block}

/-- The block that was cut off or unlinked is cleared. -/
theorem clear_takes {rest : List Block} (h : HeapInv owned s' (xs ++ rest ++ ys) (b :: held))
    (honly : OnlyIn (xs ++ c :: ys) s.mem s'.mem) (hpmm : s'.pmm = s.pmm)
    (htiles : ∀ x, c.Holds x ↔ ∃ d ∈ b :: rest, d.Holds x)
    (hbodies : ∀ d ∈ held ++ (xs ++ ys), SameBody s.mem s'.mem d)
    (hfooted : ∀ d ∈ rest, Footed s'.mem d) :
    Takes owned s { s' with mem := clearBlock s'.mem b.addr } xs ys held c b rest := by
  have hb := h.tidy.sound b List.mem_cons_self
  have hb_formatted := h.formatted b List.mem_cons_self
  have hdisjoint := (List.pairwise_cons.mp h.tidy.disjoint).1
  obtain ⟨hinv, hclear⟩ := h.clear
  -- the other blocks are not written
  have hbody : ∀ d ∈ held ++ (xs ++ rest ++ ys), SameBody s'.mem (clearBlock s'.mem b.addr) d := by
    intro d hd
    apply hclear.sameBody
    intro e he
    rw [List.mem_singleton.mp he]
    exact hdisjoint d hd
  refine ⟨hinv, honly.trans (hclear.mono ?_), hpmm, htiles, fun d hd => ?_, fun d hd => ?_,
    fun x => clearBlock_payload hb hb_formatted⟩
  · intro d hd x hx
    rw [List.mem_singleton.mp hd] at hx
    exact ⟨c, by simp, (htiles x).mpr ⟨b, List.mem_cons_self, hx⟩⟩
  · have hd' : d ∈ held ++ (xs ++ rest ++ ys) := by
      simp only [List.mem_append] at hd ⊢
      tauto
    exact (hbodies d hd).trans (hbody d hd')
  · rcases List.mem_cons.mp hd with rfl | hd
    · exact footed_clearBlock hb hb_formatted
    · have hd' : d ∈ held ++ (xs ++ rest ++ ys) := by
        simp only [List.mem_append]
        tauto
      exact (hbody d hd').footed (h.tidy.sound d (List.mem_cons_of_mem _ hd')) (hfooted d hd)

/-- A block of sufficient size is taken, whole or in part. -/
theorem takeBlock (h : HeapInv owned s (xs ++ c :: ys) held) {needed : Nat} (hmin : 32 ≤ needed)
    (hfit : needed ≤ c.size) :
    ∃ b rest s', s.takeBlock c.addr needed = (b.addr + 16, s') ∧ needed ≤ b.size ∧
      b.size < needed + 32 ∧ Takes owned s s' xs ys held c b rest := by
  have hc_mem : c ∈ held ++ (xs ++ c :: ys) := by simp
  have hc_sound := h.tidy.sound c hc_mem
  have hspace := hc_sound.in_space
  have hc_min := hc_sound.min_size
  have hpayload : u32 (c.addr + HEADER_SIZE) = c.addr + 16 := u32_of_lt (by
    rw [HEADER_SIZE]
    omega)
  rw [Heap.takeBlock, (h.formatted c hc_mem).size_eq]
  by_cases hsplit : c.size - needed ≥ MIN_BLOCK
  · rw [if_pos hsplit]
    rw [MIN_BLOCK] at hsplit
    obtain ⟨addr, size⟩ := c
    obtain ⟨k, rfl⟩ : ∃ k, size = needed + k := ⟨size - needed, by simp only at hfit; omega⟩
    have hk : 32 ≤ k := by
      simp only at hsplit
      omega
    obtain ⟨hinv, honly⟩ := h.splitBlock hmin hk
    obtain ⟨hbodies, -, -, hfooted⟩ := h.splitBlock_body hmin hk
    rw [List.append_cons] at hinv
    refine ⟨⟨addr, needed⟩, [⟨addr + needed, k⟩], _, Prod.ext hpayload rfl, le_refl _, by simp,
      hinv.clear_takes honly (by simp) (fun x => ?_) hbodies fun d hd => ?_⟩
    · simpa using Block.holds_add
    · rw [List.mem_singleton.mp hd]
      exact hfooted
  · rw [if_neg hsplit]
    rw [MIN_BLOCK] at hsplit
    obtain ⟨hinv, honly⟩ := h.listRemove
    rw [← List.append_nil xs] at hinv
    refine ⟨c, [], _, Prod.ext hpayload rfl, hfit, by omega,
      hinv.clear_takes honly (by simp) (fun x => by simp) (fun d hd => ?_) fun d hd => ?_⟩
    · apply h.listRemove_body
      simp only [List.mem_append, List.mem_cons] at hd ⊢
      tauto
    · exact absurd hd List.not_mem_nil

/-- **What `kmalloc` can do.** It grows the heap or leaves it as it is, and then it takes a
    block from the list, or it returns null since no block is large enough. -/
theorem kmalloc_cases (h : HeapInv owned s free held) (size : Nat) :
    ∃ ptr s' owned' s₁ new, s.kmalloc size = some (ptr, s') ∧
      Grows owned owned' s s₁ free new held ∧
      (∀ page, owned' page ↔ owned page ∨ page ∈ s.kmallocPages size) ∧
      (ptr = 0 ∧ s' = s₁ ∧ (0 < size → s.heapGrow = some s₁ ∧
          ∀ c ∈ free ++ new, c.size < Heap.neededFor size) ∨
        ∃ xs c ys b rest, free ++ new = xs ++ c :: ys ∧ ptr = b.addr + 16 ∧
          Heap.neededFor size ≤ b.size ∧ b.size < Heap.neededFor size + 32 ∧
          Takes owned' s₁ s' xs ys held c b rest) := by
  have hmin : 32 ≤ Heap.neededFor size := Nat.le_max_left _ _
  have hsame : Grows owned owned s s free [] held := h.grows_refl fun _ hpage => hpage
  rw [Heap.kmalloc, Heap.kmallocPages]
  by_cases hzero : size = 0
  · rw [if_pos hzero, if_pos hzero]
    exact ⟨0, s, owned, s, [], rfl, hsame, by simp, Or.inl ⟨rfl, rfl, fun hpos => by omega⟩⟩
  rw [if_neg hzero, if_neg hzero]
  rcases h.fit (Heap.neededFor size) with ⟨hnone, -⟩ | ⟨c, hc, hfit, hsome⟩
  · obtain ⟨s₁, owned', hs₁, hgrows, hpages⟩ := h.heapGrow
    rw [hnone, hs₁]
    rcases hgrows.inv.fit (Heap.neededFor size) with ⟨hnone', hsmall⟩ | ⟨c, hc, hfit, hsome'⟩
    · simp only [hnone']
      exact ⟨0, s₁, owned', s₁, s.heapGrowBlocks, rfl, hgrows, hpages,
        Or.inl ⟨rfl, rfl, fun _ => ⟨rfl, hsmall⟩⟩⟩
    · obtain ⟨xs, ys, hsplit⟩ := List.append_of_mem hc
      have hinv := hgrows.inv
      rw [hsplit] at hinv
      obtain ⟨b, rest, s', htake, hsize, hlimit, htakes⟩ := hinv.takeBlock hmin hfit
      simp only [hsome', htake]
      exact ⟨_, s', owned', s₁, s.heapGrowBlocks, rfl, hgrows, hpages,
        Or.inr ⟨xs, c, ys, b, rest, hsplit, rfl, hsize, hlimit, htakes⟩⟩
  · obtain ⟨xs, ys, rfl⟩ := List.append_of_mem hc
    obtain ⟨b, rest, s', htake, hsize, hlimit, htakes⟩ := h.takeBlock hmin hfit
    simp only [hsome, htake]
    exact ⟨_, s', owned, s, [], rfl, hsame, by simp,
      Or.inr ⟨xs, c, ys, b, rest, List.append_nil _, rfl, hsize, hlimit, htakes⟩⟩

/-- **`kmalloc` keeps the invariant.** It returns, it changes no byte of the heap that
    is not in a block on the free list, and what it returns is null or the payload
    of a new block. -/
theorem kmalloc (h : HeapInv owned s free held) (size : Nat) :
    ∃ ptr s' owned' free', s.kmalloc size = some (ptr, s') ∧
      (∀ page, owned page → owned' page) ∧
      (∀ page, owned' page → owned page ∨ s.pmm.testBit page = false) ∧
      (∀ page, owned' page ↔ owned page ∨ page ∈ s.kmallocPages size) ∧
      KeepsHeap owned free s.mem s'.mem ∧
      (ptr = 0 ∧ HeapInv owned' s' free' held ∨
        ∃ b, ptr = b.addr + 16 ∧ Heap.neededFor size ≤ b.size ∧
          HeapInv owned' s' free' (b :: held)) := by
  obtain ⟨ptr, s', owned', s₁, new, hcall, hgrows, hpages, hresult⟩ := h.kmalloc_cases size
  rcases hresult with ⟨rfl, rfl, -⟩ | ⟨xs, c, ys, b, rest, hsplit, hptr, hsize, -, htakes⟩
  · exact ⟨0, s', owned', _, hcall, hgrows.pages_le, hgrows.pages_new, hpages, hgrows.mem_keeps,
      Or.inl ⟨rfl, hgrows.inv⟩⟩
  · refine ⟨ptr, s', owned', _, hcall, hgrows.pages_le, hgrows.pages_new, hpages, ?_,
      Or.inr ⟨b, hptr, hsize, htakes.inv⟩⟩
    intro x howned hx
    rw [htakes.only x, hgrows.mem_keeps x howned hx]
    intro d hd
    rw [← hsplit] at hd
    rcases List.mem_append.mp hd with hd | hd
    · exact hx d hd
    · exact fun hholds => hgrows.blocks_new d hd x hholds howned

end HeapInv

/-- Rounding up and adding the header and the footer does not wrap around for sizes
    up to `2 ^ 32 - 24`. -/
theorem Heap.le_neededFor {size : Nat} (h : size ≤ 2 ^ 32 - 24) :
    size + 20 ≤ Heap.neededFor size := by
  rw [neededFor, u32, u32, HEADER_SIZE]
  omega

/-- `kmalloc` keeps the bytes of the blocks that are held. -/
theorem HeapInv.kmalloc_keeps {owned : Nat → Prop} {s s' : Heap} {free held : List Block}
    {ptr size : Nat} (h : HeapInv owned s free held) (hcall : s.kmalloc size = some (ptr, s')) :
    ∀ b ∈ held, ∀ x, b.Holds x → s'.mem x = s.mem x := by
  obtain ⟨ptr', t, owned', free', hcall', -, -, -, hkeeps, -⟩ := h.kmalloc size
  obtain ⟨-, rfl⟩ := Prod.mk.inj (Option.some.inj (hcall.symm.trans hcall'))
  intro b hb x hx
  apply hkeeps x ((h.tidy.sound b (List.mem_append_left _ hb)).in_heap x hx)
  intro c hc
  exact ((List.pairwise_append.mp h.tidy.disjoint).2.2 b hb c hc).not_holds hx

/-- What `kmalloc` returns is zero. -/
theorem HeapInv.kmalloc_zeroed {owned : Nat → Prop} {s : Heap} {free held : List Block}
    (h : HeapInv owned s free held) {size : Nat} (hsize : size ≤ 2 ^ 32 - 24) :
    ∃ ptr s' owned' free', s.kmalloc size = some (ptr, s') ∧
      (∀ b ∈ held, ∀ x, b.Holds x → s'.mem x = s.mem x) ∧
      (ptr = 0 ∧ HeapInv owned' s' free' held ∨
        ∃ b, ptr = b.addr + 16 ∧ size + 20 ≤ b.size ∧ HeapInv owned' s' free' (b :: held) ∧
          ∀ i < size, s'.mem (ptr + i) = 0) := by
  obtain ⟨ptr, s', owned', s₁, new, hcall, hgrows, -, hresult⟩ := h.kmalloc_cases size
  have hkeep := h.kmalloc_keeps hcall
  rcases hresult with ⟨rfl, rfl, -⟩ | ⟨xs, c, ys, b, rest, hsplit, rfl, hneeded, -, htakes⟩
  · exact ⟨0, s', owned', free ++ new, hcall, hkeep, .inl ⟨rfl, hgrows.inv⟩⟩
  · have hroom := Heap.le_neededFor hsize
    refine ⟨_, s', owned', _, hcall, hkeep, .inr ⟨b, rfl, by omega, htakes.inv, ?_⟩⟩
    intro i hi
    exact htakes.zero _ (by omega) (by omega)

/-! ## Release -/

/-- A search for `b` along the list. -/
def Heap.seekStep (m : Memory) (b h : Nat) : Nat ⊕ Bool :=
  if h = 0 then .inr false else if h = b then .inr true else .inl (field m .next h)

/-- The block is on the free list. -/
def Heap.listed (s : Heap) (b : Nat) : Bool :=
  loop (seekStep s.mem b) WALK_LIMIT s.freeList == some true

/-- The neighbours `kfree` merges the block with are on the free list, and the one
    before it ends where the block begins. -/
def Heap.MergesFree (s : Heap) (h : Nat) : Prop :=
  (s.mergePrev h = true → s.listed (prevBlock s.mem h) = true ∧
    prevBlock s.mem h + field s.mem .size (prevBlock s.mem h) = h) ∧
  (s.mergeNext h = true → s.listed (nextBlock s.mem h) = true)

instance (s : Heap) (h : Nat) : Decidable (s.MergesFree h) :=
  inferInstanceAs (Decidable (_ ∧ _))

namespace HeapInv

variable {owned : Nat → Prop} {s : Heap} {free held : List Block} {b : Block}

theorem listed_iff (h : HeapInv owned s free held) {a : Nat} :
    s.listed a = true ↔ ∃ c ∈ free, c.addr = a := by
  have hnonzero : ∀ n ∈ free.map Block.addr, n ≠ 0 := by
    rintro n hn rfl
    exact h.list.null_notMem hn
  have hwalk : loop (Heap.seekStep s.mem a) WALK_LIMIT s.freeList =
      some ((free.map Block.addr).find? fun n => decide (n = a)).isSome := by
    apply IsList.loop_find h.list
    · rw [Heap.seekStep, if_pos rfl]
      rfl
    · intro n hn hfound
      rw [Heap.seekStep, if_neg (hnonzero n hn), if_pos (of_decide_eq_true hfound)]
      rfl
    · intro n hn hfound
      rw [Heap.seekStep, if_neg (hnonzero n hn), if_neg (of_decide_eq_false hfound)]
    · exact h.list.length_lt h.separated_free
  rw [Heap.listed, hwalk, beq_iff_eq, Option.some_inj, List.find?_isSome]
  simp

theorem mem_others {xs ys : List Block} {c d : Block} (hd : d ∈ xs ++ c :: ys) (hne : d ≠ c) :
    d ∈ xs ++ ys := by
  simpa [hne] using hd

/-- The block `b` and neighbours of it that were on the list have become one block, which is
    not on the list. -/
structure Joins (owned : Nat → Prop) (s s' : Heap) (b : Block) (free held free' : List Block)
    (merged : Block) : Prop where
  inv : HeapInv owned s' free' (merged :: held)
  only : OnlyIn (b :: free) s.mem s'.mem
  layout : ∀ x, InBlocks (b :: free) x ↔ InBlocks (free' ++ [merged]) x
  footed : (∀ d ∈ b :: held ++ free, Footed s.mem d) →
    ∀ d ∈ merged :: held ++ free', Footed s'.mem d

/-- The block takes in the one behind it, which was on the list. -/
theorem join_next {c : Block} (h : HeapInv owned s free (b :: held)) (hc : c ∈ free)
    (hadjacent : c.addr = b.addr + b.size) :
    ∃ free', Joins owned s
      { s.listRemove c.addr with
        mem := Heap.enlarge (s.listRemove c.addr).mem b.addr
          (field (s.listRemove c.addr).mem .size c.addr) }
      b free held free' ⟨b.addr, b.size + c.size⟩ := by
  obtain ⟨xs, ys, rfl⟩ := List.append_of_mem hc
  obtain ⟨addr, n⟩ := b
  obtain ⟨addr', k⟩ := c
  obtain rfl : addr' = addr + n := hadjacent
  obtain ⟨hinv, honly⟩ := h.listRemove
  have hsize := (hinv.formatted _ List.mem_cons_self).size_eq
  simp only at hsize
  rw [hsize]
  -- only the block itself stays held
  have htidy : Tidy owned (⟨addr, n + k⟩ :: (held ++ (xs ++ ys))) :=
    (hinv.tidy.perm (List.Perm.swap _ _ _)).merge
  obtain ⟨hinv₁, honly₁, hfooted₁⟩ := hinv.drop.enlarge htidy
  have hlayout : ∀ x, InBlocks (⟨addr, n⟩ :: (xs ++ ⟨addr + n, k⟩ :: ys)) x ↔
      InBlocks (xs ++ ys ++ [⟨addr, n + k⟩]) x := fun x =>
    inBlocks_merge Block.holds_add
  refine ⟨_, hinv₁, (honly.mono ?_).trans (honly₁.mono ?_), hlayout, fun hfooted =>
    hfooted₁ fun d hd => h.listRemove_footed hfooted d
      (List.mem_cons_of_mem _ (List.mem_cons_of_mem _ hd))⟩
  · exact fun d hd x hx => ⟨d, List.mem_cons_of_mem _ hd, hx⟩
  · exact fun d hd x hx => (hlayout x).mpr ⟨d, List.mem_append_right _ hd, hx⟩

/-- The block before it, which was on the list, takes the block in. The merged block
    is not put back on the list. -/
theorem join_prev {c : Block} (h : HeapInv owned s free (b :: held)) (hc : c ∈ free)
    (hadjacent : c.addr + c.size = b.addr) :
    ∃ free', Joins owned s
        { s.listRemove c.addr with
          mem := Heap.enlarge (s.listRemove c.addr).mem c.addr
            (field (s.listRemove c.addr).mem .size b.addr) }
        b free held free' ⟨c.addr, c.size + b.size⟩ ∧ free'.Sublist free := by
  obtain ⟨xs, ys, rfl⟩ := List.append_of_mem hc
  obtain ⟨addr, n⟩ := c
  obtain ⟨addr', k⟩ := b
  obtain rfl : addr + n = addr' := hadjacent
  obtain ⟨hinv, honly⟩ := h.listRemove
  have hsize := (hinv.formatted ⟨addr + n, k⟩ (by simp)).size_eq
  simp only at hsize
  rw [hsize]
  have hinv₁ := (hinv.perm_held (List.Perm.swap _ _ _)).drop
  obtain ⟨hinv₂, honly₂, hfooted₂⟩ := hinv₁.enlarge hinv.tidy.merge
  have hlayout : ∀ x, InBlocks (⟨addr + n, k⟩ :: (xs ++ ⟨addr, n⟩ :: ys)) x ↔
      InBlocks (xs ++ ys ++ [⟨addr, n + k⟩]) x := fun x =>
    inBlocks_merge (Block.holds_add.trans or_comm)
  refine ⟨_, ⟨hinv₂, (honly.mono ?_).trans (honly₂.mono ?_), hlayout, fun hfooted =>
    hfooted₂ fun d hd => h.listRemove_footed hfooted d
      (List.mem_cons_of_mem _ (List.mem_cons_of_mem _ hd))⟩,
    (List.sublist_cons_self _ ys).append_left xs⟩
  · exact fun d hd x hx => ⟨d, List.mem_cons_of_mem _ hd, hx⟩
  · exact fun d hd x hx => (hlayout x).mpr ⟨d, List.mem_append_right _ hd, hx⟩

/-- The block before it takes in the block and the one behind it. -/
theorem join_both {c d : Block} (h : HeapInv owned s free (b :: held)) (hc : c ∈ free)
    (hd : d ∈ free) (hbefore : c.addr + c.size = b.addr) (hbehind : d.addr = b.addr + b.size) :
    ∃ free', Joins owned s
      { (s.listRemove c.addr).listRemove d.addr with
        mem := Heap.enlarge ((s.listRemove c.addr).listRemove d.addr).mem c.addr
          (u32 (field ((s.listRemove c.addr).listRemove d.addr).mem .size b.addr +
            field ((s.listRemove c.addr).listRemove d.addr).mem .size d.addr)) }
      b free held free' ⟨c.addr, c.size + (b.size + d.size)⟩ := by
  have hb_min := (h.tidy.sound b List.mem_cons_self).min_size
  have hc_min := (h.tidy.sound c (List.mem_append_right _ hc)).min_size
  obtain ⟨xs, ys, rfl⟩ := List.append_of_mem hc
  obtain ⟨hinv, honly⟩ := h.listRemove
  have hremoved := h.listRemove_footed
  have hmiddle : (xs ++ ys).Sublist (xs ++ c :: ys) :=
    (List.sublist_cons_self _ ys).append_left xs
  have hd' : d ∈ xs ++ ys := mem_others hd (by rintro rfl; omega)
  generalize hrest : xs ++ ys = rest at hd' hinv hmiddle hremoved
  obtain ⟨us, vs, rfl⟩ := List.append_of_mem hd'
  obtain ⟨hinv₁, honly₁⟩ := hinv.listRemove
  have hremoved₁ := hinv.listRemove_footed
  obtain ⟨addr, n⟩ := c
  obtain ⟨addr', k⟩ := b
  obtain ⟨addr'', l⟩ := d
  obtain rfl : addr + n = addr' := hbefore
  obtain rfl : addr'' = addr + n + k := hbehind
  have hspace := (hinv₁.tidy.sound _ List.mem_cons_self).in_space
  simp only at hspace hc_min
  have hb_size := (hinv₁.formatted ⟨addr + n, k⟩ (by simp)).size_eq
  have hd_size := (hinv₁.formatted ⟨addr + n + k, l⟩ (by simp)).size_eq
  simp only at hb_size hd_size
  rw [hb_size, hd_size, u32_of_lt (show k + l < 2 ^ 32 by omega)]
  have htidy : Tidy owned (⟨addr, n + (k + l)⟩ :: (held ++ (us ++ vs))) := by
    have hperm : (⟨addr + n + k, l⟩ :: ⟨addr, n⟩ :: ⟨addr + n, k⟩ :: (held ++ (us ++ vs))).Perm
        (⟨addr, n⟩ :: ⟨addr + n, k⟩ :: ⟨addr + n + k, l⟩ :: (held ++ (us ++ vs))) :=
      (List.Perm.swap _ _ _).trans ((List.Perm.swap _ _ _).cons _)
    have hmerged := (hinv₁.tidy.perm hperm).merge
    rw [Nat.add_assoc addr] at hmerged
    rw [← Nat.add_assoc n]
    exact hmerged.merge
  have hinv₂ := (hinv₁.drop.perm_held (List.Perm.swap _ _ _)).drop
  obtain ⟨hinv₃, honly₃, hfooted₃⟩ := hinv₂.enlarge htidy
  have hlayout : ∀ x, InBlocks (⟨addr + n, k⟩ :: (xs ++ ⟨addr, n⟩ :: ys)) x ↔
      InBlocks (us ++ vs ++ [⟨addr, n + (k + l)⟩]) x := fun x =>
    inBlocks_merge_both hrest (by rw [Block.holds_add, Block.holds_add])
  refine ⟨_, hinv₃, ((honly.mono ?_).trans (honly₁.mono ?_)).trans (honly₃.mono ?_), hlayout,
    fun hfooted => hfooted₃ fun e he => hremoved₁ (hremoved hfooted) e
      (List.mem_cons_of_mem _ (List.mem_cons_of_mem _ (List.mem_cons_of_mem _ he)))⟩
  · exact fun e he x hx => ⟨e, List.mem_cons_of_mem _ he, hx⟩
  · exact fun e he x hx => ⟨e, List.mem_cons_of_mem _ (hmiddle.subset he), hx⟩
  · exact fun e he x hx => (hlayout x).mpr ⟨e, List.mem_append_right _ he, hx⟩

/-- The magic and the footer of a block are written again. -/
theorem stamp (h : HeapInv owned s free (b :: held)) :
    Joins owned s { s with mem := setFooter (setField s.mem .magic b.addr HEAP_MAGIC) b.addr }
      b free held free b := by
  have hb := h.tidy.sound b List.mem_cons_self
  have hmin := hb.min_size
  have hspace := hb.in_space
  have hformatted : Formatted (setField s.mem .magic b.addr HEAP_MAGIC) b := by
    constructor
    · rw [field_setField_of_ne (by omega) (by decide),
        (h.formatted b List.mem_cons_self).size_eq]
    · exact field_setField_self (by omega) (by decide)
  obtain ⟨hformatted', honly⟩ := formatted_setFooter hb hformatted
  have honly' := (onlyIn_setField (m := s.mem) hb .magic HEAP_MAGIC).trans honly
  refine ⟨h.drop.hold h.tidy honly' hformatted' rfl h.used, honly'.of_mem List.mem_cons_self,
    fun x => ?_, fun hfooted d hd => ?_⟩
  · rw [inBlocks_append, inBlocks_cons, inBlocks_cons, inBlocks_nil, or_false, or_comm]
  · rcases List.mem_cons.mp hd with rfl | hd'
    · exact footed_setFooter hb hformatted
    · refine (honly'.sameBody fun c hc => ?_).footed (h.tidy.sound d hd) (hfooted d hd)
      rw [List.mem_singleton.mp hc]
      exact (List.pairwise_cons.mp h.tidy.disjoint).1 d hd'

/-- `kfree` has released the block `b`: it is on the list, alone or merged with neighbours,
    or in the block that is lost. -/
structure Releases (owned : Nat → Prop) (s s' : Heap) (b : Block) (free held free' : List Block)
    (lost : Option Block) : Prop where
  inv : HeapInv owned s' free' (lost.toList ++ held)
  only : OnlyIn (b :: free) s.mem s'.mem
  pmm_eq : s'.pmm = s.pmm
  layout : ∀ x, InBlocks (b :: free) x ↔ InBlocks (free' ++ lost.toList) x
  footed : (∀ d ∈ b :: held ++ free, Footed s.mem d) →
    ∀ d ∈ lost.toList ++ held ++ free', Footed s'.mem d

theorem Releases.others {s' : Heap} {free' : List Block} {lost : Option Block}
    (h : Releases owned s s' b free held free' lost) : HeapInv owned s' free' held := by
  cases lost with
  | none => exact h.inv
  | some merged => exact h.inv.drop

/-- The merged block goes to the end of the list. -/
theorem Joins.relink {s' : Heap} {merged : Block} {free' : List Block}
    (h : Joins owned s s' b free held free' merged) (hpmm : s'.pmm = s.pmm) :
    ∃ t, s'.listAppend merged.addr = some t ∧
      Releases owned s t b free held (free' ++ [merged]) none := by
  obtain ⟨t, ht, hinv, honly, hbody, -, hpmm'⟩ := h.inv.listAppend_body
  refine ⟨t, ht, hinv, h.only.trans (honly.mono ?_), hpmm'.trans hpmm, ?_, ?_⟩
  · exact fun d hd x hx => (h.layout x).mpr ⟨d, hd, hx⟩
  · simpa using h.layout
  · intro hfooted d hd
    have hd' := perm_append.mem_iff.mpr hd
    exact (hbody d hd').footed (h.inv.tidy.sound d hd') (h.footed hfooted d hd')

/-- The neighbour before the block, as a block of the layout. -/
theorem prev_of_merge (h : HeapInv owned s free (b :: held)) (hmerges : s.MergesFree b.addr)
    (hmerge : s.mergePrev b.addr = true) :
    ∃ c ∈ free, c.addr = prevBlock s.mem b.addr ∧ c.addr + c.size = b.addr := by
  obtain ⟨hlisted, hends⟩ := hmerges.1 hmerge
  obtain ⟨c, hc, hc_addr⟩ := h.listed_iff.mp hlisted
  have hsize := (h.formatted c (List.mem_append_right _ hc)).size_eq
  rw [hc_addr] at hsize
  exact ⟨c, hc, hc_addr, by rw [hc_addr, ← hsize, hends]⟩

/-- The neighbour behind the block. -/
theorem next_of_merge (h : HeapInv owned s free (b :: held)) (hmerges : s.MergesFree b.addr)
    (hmerge : s.mergeNext b.addr = true) :
    ∃ d ∈ free, d.addr = nextBlock s.mem b.addr ∧ d.addr = b.addr + b.size := by
  obtain ⟨d, hd, hd_addr⟩ := h.listed_iff.mp (hmerges.2 hmerge)
  have hb := h.tidy.sound b List.mem_cons_self
  have hmin := hb.min_size
  have hspace := hb.in_space
  have hd_pos := (h.tidy.sound d (List.mem_append_right _ hd)).addr_pos
  refine ⟨d, hd, hd_addr, ?_⟩
  rw [nextBlock, (h.formatted b List.mem_cons_self).size_eq, u32] at hd_addr
  omega

/-- **What `kfree` does when it merges with blocks on the list.** It returns, and
    changes nothing but bytes of the block and of blocks on the free list. What was free
    and the block itself are free afterwards, unless the block before it alone takes it in:
    the merged block is lost then, and nothing new is on the list. -/
theorem kfree (h : HeapInv owned s free (b :: held)) (hmerges : s.MergesFree b.addr) :
    ∃ s' free' lost, s.kfree (b.addr + 16) = some s' ∧ Releases owned s s' b free held free' lost ∧
      (s.mergePrev b.addr = true ∧ s.mergeNext b.addr = false ∧ free'.Sublist free ∨
        (s.mergePrev b.addr = true → s.mergeNext b.addr = true) ∧ lost = none) := by
  have hb := h.tidy.sound b List.mem_cons_self
  have hb_formatted := h.formatted b List.mem_cons_self
  have hmin := hb.min_size
  have hspace := hb.in_space
  have hrelease : s.kfree (b.addr + 16) = s.release b.addr := by
    rw [Heap.kfree, if_neg (Nat.succ_ne_zero _), hb.header_eq,
      if_neg (not_not.mpr hb_formatted.magic_eq)]
  rw [hrelease, Heap.release]
  cases hmp : s.mergePrev b.addr with
  | true =>
      obtain ⟨c, hc, hc_addr, hc_ends⟩ := h.prev_of_merge hmerges hmp
      cases hmn : s.mergeNext b.addr with
      | true =>
          obtain ⟨d, hd, hd_addr, hd_begins⟩ := h.next_of_merge hmerges hmn
          rw [if_pos (Bool.and_self true), ← hc_addr, ← hd_addr]
          obtain ⟨free₁, hjoins⟩ := h.join_both hc hd hc_ends hd_begins
          obtain ⟨s', hs', hreleases⟩ := hjoins.relink (by simp)
          exact ⟨s', _, none, hs', hreleases, Or.inr ⟨fun _ => rfl, rfl⟩⟩
      | false =>
          rw [if_neg (by decide), if_pos rfl, ← hc_addr]
          obtain ⟨free', hjoins, hsub⟩ := h.join_prev hc hc_ends
          exact ⟨_, free', some _, rfl, ⟨hjoins.inv, hjoins.only, by simp, hjoins.layout,
            hjoins.footed⟩, Or.inl ⟨rfl, rfl, hsub⟩⟩
  | false =>
      cases hmn : s.mergeNext b.addr with
      | true =>
          obtain ⟨d, hd, hd_addr, hd_begins⟩ := h.next_of_merge hmerges hmn
          rw [if_neg (by decide), if_neg (by decide), if_pos rfl, ← hd_addr]
          obtain ⟨free₁, hjoins⟩ := h.join_next hd hd_begins
          obtain ⟨s', hs', hreleases⟩ := hjoins.relink (by simp)
          exact ⟨s', _, none, hs', hreleases, Or.inr ⟨fun _ => rfl, rfl⟩⟩
      | false =>
          rw [if_neg (by decide), if_neg (by decide), if_neg (by decide)]
          obtain ⟨s', hs', hreleases⟩ := h.stamp.relink rfl
          exact ⟨s', _, none, hs', hreleases,
            Or.inr ⟨fun hmerge => absurd hmerge (by decide), rfl⟩⟩

end HeapInv

end NemoOS
