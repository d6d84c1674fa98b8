import NemoOS.HeapCalls

/-!
# A step of `kmalloc` on a well-formed heap

`WellFormed` is the shape of a heap, whatever calls have led to it: its pages are tiled
by blocks with the magic and a matching footer, the free list links some of them, and the
others are live. `kmalloc_wellFormed` says what one call does to it.

The shape says nothing about the page allocator. `heap_grow` takes what `pmm_alloc_page`
returns for new memory, so a page of the heap that the page allocator could hand out
again would be formatted over the blocks in it (`kmalloc_overwrites_live_block`). The
pages of the heap have to be in use, and not the one at address 0, which the page
allocator never hands out.
-/

namespace NemoOS

open Words Bytes Loops Linked

namespace Heap

/-- The pages of the heap are tiled exactly by blocks of at least 32 bytes with the magic
    and a matching footer. The blocks of `free` are on the free list, in this order, and
    those of `live` are the others. -/
structure WellFormed (pages : Nat → Prop) (s : Heap) (free live : List Block) : Prop where
  in_space : ∀ page, pages page → page < 2 ^ 20
  min_size : ∀ b ∈ live ++ free, 32 ≤ b.size
  inside : ∀ b ∈ live ++ free, ∀ x, b.Holds x → pages (x / PAGE_SIZE)
  disjoint : (live ++ free).Pairwise Block.Disjoint
  covered : ∀ x, pages (x / PAGE_SIZE) → ∃ b ∈ live ++ free, b.Holds x
  formatted : ∀ b ∈ live ++ free, Formatted s.mem b
  footed : ∀ b ∈ live ++ free, Footed s.mem b
  list : s.FreeList (free.map Block.addr)

/-- The pages are ones that `pmm_alloc_page` has handed out. -/
def HandedOut (pages : Nat → Prop) (pmm : Pmm) : Prop :=
  ∀ page, pages page → 0 < page ∧ pmm.testBit page = true

namespace WellFormed

variable {pages : Nat → Prop} {s : Heap} {free live : List Block}

theorem heapInv (h : WellFormed pages s free live) (hpages : HandedOut pages s.pmm) :
    HeapInv pages s free live := by
  refine ⟨h.list, h.formatted, ⟨fun b hb => ?_, h.disjoint⟩, fun page hpage => (hpages page hpage).2⟩
  have hmin := h.min_size b hb
  have hfirst := h.inside b hb b.addr ⟨le_refl _, by omega⟩
  have hlast := h.in_space _ (h.inside b hb (b.addr + b.size - 1) ⟨by omega, by omega⟩)
  have hpos := (hpages _ hfirst).1
  rw [PAGE_SIZE] at hlast hpos
  exact ⟨by omega, hmin, by omega, h.inside b hb⟩

theorem of_heapInv (h : HeapInv pages s free live) (hspace : ∀ page, pages page → page < 2 ^ 20)
    (hcovered : ∀ x, pages (x / PAGE_SIZE) → ∃ b ∈ live ++ free, b.Holds x)
    (hfooted : ∀ b ∈ live ++ free, Footed s.mem b) : WellFormed pages s free live where
  in_space := hspace
  min_size := fun b hb => (h.tidy.sound b hb).min_size
  inside := fun b hb => (h.tidy.sound b hb).in_heap
  disjoint := h.tidy.disjoint
  covered := hcovered
  formatted := h.formatted
  footed := hfooted
  list := h.list

/-- Growth adds blocks that fill the new pages. -/
theorem grows {pages' : Nat → Prop} {s' : Heap} {new : List Block}
    (h : WellFormed pages s free live) (hpages : HandedOut pages s.pmm)
    (hgrows : Grows pages pages' s s' free new live) :
    WellFormed pages' s' (free ++ new) live ∧ HandedOut pages' s'.pmm := by
  have hsound := hgrows.inv.tidy.sound
  -- a page is an old one, or its first byte is in a new block
  have hpage : ∀ page, pages' page → pages page ∨
      ∃ b ∈ live ++ (free ++ new), b.Holds (page * PAGE_SIZE) := by
    intro page hpage
    have hfirst : page * PAGE_SIZE / PAGE_SIZE = page := Nat.mul_div_cancel page (by decide)
    rcases hgrows.covered (page * PAGE_SIZE) (hfirst.symm ▸ hpage) with hold | ⟨b, hb, hx⟩
    · exact Or.inl (hfirst ▸ hold)
    · exact Or.inr ⟨b, List.mem_append_right _ (List.mem_append_right _ hb), hx⟩
  refine ⟨of_heapInv hgrows.inv ?_ ?_ ?_, fun page hnew => ⟨?_, hgrows.inv.used page hnew⟩⟩
  · intro page hnew
    rcases hpage page hnew with hold | ⟨b, hb, hx⟩
    · exact h.in_space page hold
    · have hspace := (hsound b hb).in_space
      rw [Block.Holds, PAGE_SIZE] at hx
      omega
  · intro x hx
    rcases hgrows.covered x hx with hold | ⟨b, hb, hx⟩
    · obtain ⟨b, hb, hx⟩ := h.covered x hold
      refine ⟨b, ?_, hx⟩
      rw [← List.append_assoc]
      exact List.mem_append_left _ hb
    · exact ⟨b, List.mem_append_right _ (List.mem_append_right _ hb), hx⟩
  · intro b hb
    rw [← List.append_assoc] at hb
    rcases List.mem_append.mp hb with hb | hb
    · exact (hgrows.bodies b hb).footed ((h.heapInv hpages).tidy.sound b hb) (h.footed b hb)
    · exact hgrows.footed b hb
  · rcases hpage page hnew with hold | ⟨b, hb, hx⟩
    · exact (hpages page hold).1
    · have hpos := (hsound b hb).addr_pos
      rw [Block.Holds, PAGE_SIZE] at hx
      omega

/-- A block that is taken, whole or in part, and what is left of it tile the block. -/
theorem takes {s' : Heap} {xs ys rest : List Block} {c b : Block}
    (h : WellFormed pages s (xs ++ c :: ys) live) (htakes : Takes pages s s' xs ys live c b rest) :
    WellFormed pages s' (xs ++ rest ++ ys) (b :: live) := by
  have hsplit : ∀ d ∈ b :: live ++ (xs ++ rest ++ ys), d ∈ b :: rest ∨ d ∈ live ++ (xs ++ ys) := by
    intro d hd
    simp only [List.mem_append, List.mem_cons] at hd ⊢
    tauto
  refine of_heapInv htakes.inv h.in_space ?_ ?_
  · intro x hx
    obtain ⟨d, hd, hx⟩ := h.covered x hx
    by_cases hdc : d = c
    · subst hdc
      obtain ⟨e, he, hx⟩ := (htakes.tiles x).mp hx
      refine ⟨e, ?_, hx⟩
      simp only [List.mem_append, List.mem_cons] at he ⊢
      tauto
    · refine ⟨d, ?_, hx⟩
      simp only [List.mem_append, List.mem_cons] at hd ⊢
      tauto
  · intro d hd
    rcases hsplit d hd with hd' | hd'
    · exact htakes.footed d hd'
    · have hold : d ∈ live ++ (xs ++ c :: ys) := by
        simp only [List.mem_append, List.mem_cons] at hd' ⊢
        tauto
      exact (htakes.bodies d hd').footed (htakes.inv.tidy.sound d hd) (h.footed d hold)

theorem perm_live {live' : List Block} (h : WellFormed pages s free live)
    (hpages : HandedOut pages s.pmm) (hperm : live.Perm live') :
    WellFormed pages s free live' := by
  have hmem : ∀ b, b ∈ live ++ free ↔ b ∈ live' ++ free := fun b =>
    (hperm.append_right free).mem_iff
  refine of_heapInv ((h.heapInv hpages).perm_held hperm) h.in_space (fun x hx => ?_)
    fun b hb => h.footed b ((hmem b).mpr hb)
  obtain ⟨b, hb, hx⟩ := h.covered x hx
  exact ⟨b, (hmem b).mp hb, hx⟩

/-- A block that is released is in one that is free, or in one that is lost. -/
theorem releases {s' : Heap} {b : Block} {free' : List Block} {lost : Option Block}
    (h : WellFormed pages s free (b :: live))
    (hreleases : HeapInv.Releases pages s s' b free live free' lost) :
    WellFormed pages s' free' (lost.toList ++ live) := by
  refine of_heapInv hreleases.inv h.in_space (fun x hx => ?_) (hreleases.footed h.footed)
  obtain ⟨d, hd, hx⟩ := h.covered x hx
  by_cases hlive : d ∈ live
  · exact ⟨d, List.mem_append_left _ (List.mem_append_right _ hlive), hx⟩
  · have hd' : d ∈ b :: free := by
      simpa [hlive] using hd
    obtain ⟨e, he, hx⟩ := (hreleases.layout x).mp ⟨d, hd', hx⟩
    refine ⟨e, ?_, hx⟩
    simp only [List.mem_append] at he ⊢
    tauto

/-- Where the byte before a block is in a page of the heap, a block ends there, and
    `prev_block` finds it. -/
theorem block_before {b : Block} (h : WellFormed pages s free live) (hpages : HandedOut pages s.pmm)
    (hb : b ∈ live ++ free) (hbefore : pages ((b.addr - 1) / PAGE_SIZE)) :
    ∃ c ∈ live ++ free, c.addr + c.size = b.addr ∧ prevBlock s.mem b.addr = c.addr := by
  have htidy := (h.heapInv hpages).tidy
  obtain ⟨c, hc, hx⟩ := h.covered _ hbefore
  have hpos := (htidy.sound b hb).addr_pos
  have hmin := h.min_size b hb
  have hc_min := h.min_size c hc
  have hspace := (htidy.sound c hc).in_space
  have hdisjoint := htidy.disjoint_of_ne hc hb (by rintro rfl; unfold Block.Holds at hx; omega)
  unfold Block.Holds at hx
  unfold Block.Disjoint at hdisjoint
  have hends : c.addr + c.size = b.addr := by omega
  have hfooted := h.footed c hc
  rw [Footed, hends] at hfooted
  refine ⟨c, hc, hends, ?_⟩
  rw [prevBlock, show sub32 b.addr 4 = b.addr - 4 by rw [sub32, u32]; omega, hfooted, sub32, u32]
  omega

/-- Where the byte behind a block is in a page of the heap, a block begins there. -/
theorem block_behind {b : Block} (h : WellFormed pages s free live) (hpages : HandedOut pages s.pmm)
    (hb : b ∈ live ++ free) (hbehind : pages ((b.addr + b.size) / PAGE_SIZE)) :
    ∃ d ∈ live ++ free, d.addr = b.addr + b.size := by
  obtain ⟨d, hd, hx⟩ := h.covered _ hbehind
  have hdisjoint := (h.heapInv hpages).tidy.disjoint_of_ne hd hb
    (by rintro rfl; unfold Block.Holds at hx; omega)
  unfold Block.Holds at hx
  unfold Block.Disjoint at hdisjoint
  have hmin := h.min_size b hb
  exact ⟨d, hd, by omega⟩

end WellFormed

/-- **A step of `kmalloc`.** On a well-formed heap whose pages have been handed out,
    `kmalloc` returns and leaves a well-formed heap. No byte of a live block changes. The
    result is null, or the payload of a block that was not live and now is, with at least
    as many bytes as were asked for, all of them zero. -/
theorem kmalloc_wellFormed {pages : Nat → Prop} {s : Heap} {free live : List Block}
    (h : WellFormed pages s free live) (hpages : HandedOut pages s.pmm) {size : Nat}
    (hsize : size ≤ 2 ^ 32 - 24) :
    ∃ ptr s' pages' free' live', s.kmalloc size = some (ptr, s') ∧
      WellFormed pages' s' free' live' ∧ HandedOut pages' s'.pmm ∧
      (∀ page, pages page → pages' page) ∧
      (∀ b ∈ live, ∀ x, b.Holds x → s'.mem x = s.mem x) ∧
      (ptr = 0 ∧ live' = live ∨
        ∃ b, ptr = b.addr + 16 ∧ live' = b :: live ∧ (∀ c ∈ live, b.Disjoint c) ∧
          size ≤ b.size - 20 ∧ ∀ x, ptr ≤ x → x < ptr + (b.size - 20) → s'.mem x = 0) := by
  have hinv := h.heapInv hpages
  obtain ⟨ptr, s', pages', s₁, new, hcall, hgrows, -, hresult⟩ := hinv.kmalloc_cases size
  obtain ⟨hgrown, hpages'⟩ := h.grows hpages hgrows
  have hkeep := hinv.kmalloc_keeps hcall
  rcases hresult with ⟨rfl, rfl, -⟩ | ⟨xs, c, ys, b, rest, hsplit, rfl, hneeded, -, htakes⟩
  · exact ⟨0, s', pages', _, live, hcall, hgrown, hpages', hgrows.pages_le, hkeep,
      Or.inl ⟨rfl, rfl⟩⟩
  · rw [hsplit] at hgrown
    have htaken := hgrown.takes htakes
    have hroom := le_neededFor hsize
    have hmin := htaken.min_size b List.mem_cons_self
    refine ⟨_, s', pages', _, b :: live, hcall, htaken, htakes.pmm_eq ▸ hpages', hgrows.pages_le,
      hkeep, Or.inr ⟨b, rfl, rfl, ?_, by omega, ?_⟩⟩
    · intro d hd
      exact (List.pairwise_cons.mp htaken.disjoint).1 d (List.mem_append_left _ hd)
    · intro x hle hlt
      exact htakes.zero x hle (by omega)

/-! ## One page -/

/-- The block that fills the page at 4096. -/
def pageBlock : Block := ⟨4096, 4096⟩

/-- A heap of one page with one block. -/
def pageHeap (freeList : Nat) (pmm : Pmm) : Heap :=
  ⟨formatBlock (fun _ => 0) 4096 4096, freeList, 8192, pmm⟩

theorem pageHeap_wellFormed {freeList : Nat} {pmm : Pmm} {free live : List Block}
    (hone : live ++ free = [pageBlock])
    (hlist : (pageHeap freeList pmm).FreeList (free.map Block.addr)) :
    WellFormed (· = 1) (pageHeap freeList pmm) free live := by
  have hinside : ∀ x, pageBlock.Holds x ↔ x / PAGE_SIZE = 1 := by
    intro x
    simp only [Block.Holds, pageBlock, PAGE_SIZE]
    omega
  have hsound : pageBlock.Sound (· = 1) :=
    ⟨by decide, by decide, by decide, fun x => (hinside x).mp⟩
  have hblock : ∀ {P : Block → Prop}, P pageBlock → ∀ b ∈ live ++ free, P b := by
    intro P hP b hb
    rw [hone] at hb
    exact List.mem_singleton.mp hb ▸ hP
  have hmem : (pageHeap freeList pmm).mem =
      formatBlock (fun _ => 0) pageBlock.addr pageBlock.size := rfl
  have hformatted := (formatted_formatBlock (m := fun _ => 0) hsound).1
  have hfooted := footed_formatBlock (m := fun _ => 0) hsound
  rw [← hmem] at hformatted hfooted
  refine ⟨?_, hblock (by decide), hblock fun x => (hinside x).mp, ?_, ?_, hblock hformatted,
    hblock hfooted, hlist⟩
  · rintro page rfl
    decide
  · rw [hone]
    exact List.pairwise_singleton _ _
  · intro x hx
    rw [hone]
    exact ⟨pageBlock, List.mem_singleton_self _, (hinside x).mpr hx⟩

theorem pageHeap_list {pmm : Pmm} : (pageHeap 4096 pmm).FreeList [4096] := by
  have hlinks : field (formatBlock (fun _ => 0) 4096 4096) .prev 4096 = 0 ∧
      field (formatBlock (fun _ => 0) 4096 4096) .next 4096 = 0 := by
    decide
  exact ⟨by decide, by decide, rfl, hlinks.1, hlinks.2, rfl⟩

/-- The block of the page is on the list and the first two pages are in use. -/
theorem kmalloc_wellFormed_page :
    let s := pageHeap 4096 ⟨fun _ => 3, 2, 2, by decide⟩
    (s.kmalloc 16).map Prod.fst = some 4112 ∧ WellFormed (· = 1) s [pageBlock] [] ∧
      ∃ ptr s' pages' free' live', s.kmalloc 16 = some (ptr, s') ∧
        WellFormed pages' s' free' live' ∧ HandedOut pages' s'.pmm ∧ (pages' 1) ∧
        (ptr = 0 ∧ live' = [] ∨
          ∃ b, ptr = b.addr + 16 ∧ live' = [b] ∧ 16 ≤ b.size - 20 ∧
            ∀ x, ptr ≤ x → x < ptr + (b.size - 20) → s'.mem x = 0) := by
  intro s
  have hwf : WellFormed (· = 1) s [pageBlock] [] := pageHeap_wellFormed rfl pageHeap_list
  have hpages : HandedOut (· = 1) s.pmm := by
    rintro page rfl
    decide
  obtain ⟨ptr, s', pages', free', live', hcall, hwf', hpages', hle, -, hresult⟩ :=
    kmalloc_wellFormed hwf hpages (show 16 ≤ 2 ^ 32 - 24 by decide)
  refine ⟨by decide, hwf, ptr, s', pages', free', live', hcall, hwf', hpages', hle 1 rfl, ?_⟩
  rcases hresult with hnull | ⟨b, hptr, hlive, -, hroom, hzero⟩
  · exact Or.inl hnull
  · exact Or.inr ⟨b, hptr, hlive, hroom, hzero⟩

/-- The block of the page is live, but for the page allocator the page is free:
    `heap_grow` takes it again and formats it. -/
theorem kmalloc_overwrites_live_block :
    ¬ ∀ (pages : Nat → Prop) (s : Heap) (free live : List Block) (size : Nat),
      WellFormed pages s free live → 0 < size → size ≤ 2 ^ 32 - 24 →
      ∃ ptr s', s.kmalloc size = some (ptr, s') ∧
        ∀ b ∈ live, ∀ x, b.Holds x → s'.mem x = s.mem x := by
  intro h
  have hlist : (pageHeap 0 ⟨fun i => if i = 0 then 1 else 0, 20, 1, by decide⟩).FreeList [] :=
    isList_nil
  obtain ⟨ptr, s', hcall, hkeep⟩ := h (· = 1) _ [] [pageBlock] 16 (pageHeap_wellFormed rfl hlist)
    (by decide) (by decide)
  have hbyte : ((pageHeap 0 ⟨fun i => if i = 0 then 1 else 0, 20, 1, by decide⟩).kmalloc 16).map
      (fun r => r.2.mem 4096) = some 36 := by
    decide
  have hsame := hkeep pageBlock List.mem_cons_self 4096 ⟨by decide, by decide⟩
  rw [hcall, Option.map_some, hsame] at hbyte
  exact absurd hbyte (by decide)

/-! ## The room in a block -/

/-- The bytes of a block between its header and its footer. -/
def usable (s : Heap) (ptr : Nat) : Nat := field s.mem .size (sub32 ptr HEADER_SIZE) - 20

theorem usable_eq {owned : Nat → Prop} {s : Heap} {free held : List Block} {b : Block}
    (h : HeapInv owned s free (b :: held)) : s.usable (b.addr + 16) = b.size - 20 := by
  rw [usable, (h.tidy.sound b List.mem_cons_self).header_eq,
    (h.formatted b List.mem_cons_self).size_eq]

/-- There is no block, and `heap_grow` does not add one. -/
def Exhausted (s : Heap) : Prop := s.freeList = 0 ∧ ∃ s', s.heapGrow = some s' ∧ s'.freeList = 0

/-- Behind `2 ^ 32 - 24` the computation of the block size wraps around. -/
theorem neededFor_of_large {size : Nat} (hsize : size < 2 ^ 32) (hlarge : 2 ^ 32 - 24 < size) :
    neededFor size = 32 := by
  simp only [neededFor, u32, HEADER_SIZE, MIN_BLOCK]
  omega

theorem fit_nil (m : Memory) (needed : Nat) : loop (fitStep m needed) WALK_LIMIT 0 = some none :=
  loop_mono (show loop (fitStep m needed) 1 0 = some none by simp [loop, fitStep]) (by decide)

theorem Exhausted.kmalloc {s : Heap} (h : s.Exhausted) (size : Nat) :
    ∃ s', s.kmalloc size = some (0, s') := by
  obtain ⟨hempty, s', hgrow, hempty'⟩ := h
  rw [Heap.kmalloc]
  split
  · exact ⟨s, rfl⟩
  · rw [hempty, fit_nil, hgrow]
    simp only [hempty', fit_nil]
    exact ⟨s', rfl⟩

/-- **The room in a block.** What `kmalloc` returns has at least as many bytes as were asked
    for if and only if the size is at most `2 ^ 32 - 24` or there is no block at all. -/
theorem kmalloc_room_iff {owned : Nat → Prop} {s : Heap} {free held : List Block}
    (h : HeapInv owned s free held) {size : Nat} (hsize : size < 2 ^ 32) :
    (∀ ptr s', s.kmalloc size = some (ptr, s') → ptr ≠ 0 → size ≤ s'.usable ptr) ↔
      size ≤ 2 ^ 32 - 24 ∨ s.Exhausted := by
  obtain ⟨ptr, s', owned', s₁, new, hcall, hgrows, -, hresult⟩ := h.kmalloc_cases size
  constructor
  · intro hroom
    by_contra hnot
    obtain ⟨hlarge, hexhausted⟩ := not_or.mp hnot
    have hneeded := neededFor_of_large hsize (Nat.lt_of_not_le hlarge)
    rcases hresult with ⟨-, -, hnone⟩ | ⟨xs, c, ys, b, rest, -, rfl, -, hlimit, htakes⟩
    · obtain ⟨hgrow, hsmall⟩ := hnone (by omega)
      -- every block is large enough, so there is none
      have hnil : free ++ new = [] := by
        rw [List.eq_nil_iff_forall_not_mem]
        intro c hc
        have hmin := (hgrows.inv.tidy.sound c (List.mem_append_right _ hc)).min_size
        have hlt := hsmall c hc
        omega
      have hfree := (List.append_eq_nil_iff.mp hnil).1
      apply hexhausted
      refine ⟨?_, s₁, hgrow, ?_⟩
      · rw [h.list.head_eq, hfree]
        rfl
      · rw [hgrows.inv.list.head_eq, hnil]
        rfl
    · have hle := hroom _ s' hcall (Nat.succ_ne_zero _)
      rw [usable_eq htakes.inv] at hle
      omega
  · rintro (hsmall | hexhausted) ptr' s'' hcall' hne
    · obtain ⟨rfl, rfl⟩ := Prod.ext_iff.mp (Option.some.inj (hcall.symm.trans hcall'))
      rcases hresult with ⟨hnull, -⟩ | ⟨xs, c, ys, b, rest, -, hptr, hneeded, -, htakes⟩
      · exact absurd hnull hne
      · have hroom := le_neededFor hsmall
        rw [hptr, usable_eq htakes.inv]
        omega
    · obtain ⟨t, hnull⟩ := hexhausted.kmalloc size
      rw [hnull] at hcall'
      exact absurd (congrArg Prod.fst (Option.some.inj hcall')).symm hne

/-- The block of the page has room for 16 bytes. -/
theorem kmalloc_room_iff_page :
    let s := pageHeap 4096 ⟨fun _ => 3, 2, 2, by decide⟩
    (s.kmalloc 16).map Prod.fst = some 4112 ∧
      ∀ ptr s', s.kmalloc 16 = some (ptr, s') → ptr ≠ 0 → 16 ≤ s'.usable ptr := by
  intro s
  have hinv : HeapInv (· = 1) s [pageBlock] [] := by
    refine (pageHeap_wellFormed rfl pageHeap_list).heapInv ?_
    rintro page rfl
    decide
  exact ⟨by decide, (kmalloc_room_iff hinv (by decide)).mpr (Or.inl (by decide))⟩

/-- A request for `2 ^ 32 - 1` bytes is answered with a block that has room for 12. -/
theorem kmalloc_room_wraps :
    ¬ ∀ (pages : Nat → Prop) (s : Heap) (free live : List Block) (size : Nat),
      WellFormed pages s free live → HandedOut pages s.pmm → size < 2 ^ 32 →
      ∀ ptr s', s.kmalloc size = some (ptr, s') → ptr ≠ 0 → size ≤ s'.usable ptr := by
  intro h
  have hresult : ((pageHeap 4096 ⟨fun _ => 3, 2, 2, by decide⟩).kmalloc (2 ^ 32 - 1)).map
      (fun r => (r.1, r.2.usable r.1)) = some (4112, 12) := by
    decide
  obtain ⟨⟨ptr, s'⟩, hcall, hpair⟩ := Option.map_eq_some_iff.mp hresult
  obtain ⟨hptr, husable⟩ := Prod.ext_iff.mp hpair
  simp only at hptr husable
  have hle := h (· = 1) _ [pageBlock] [] _ (pageHeap_wellFormed rfl pageHeap_list)
    (by rintro page rfl; decide) (by decide) ptr s' hcall (by omega)
  omega

end Heap

end NemoOS
