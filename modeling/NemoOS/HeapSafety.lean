import NemoOS.HeapCalls
import NemoOS.Lib.Runs

/-!
# Safety of the heap over whole runs

A run starts after `kmalloc_init` and consists of calls of `kmalloc` and of `kfree` on
live pointers, with anything in between that the rest of the kernel may do: it
writes to the payloads it holds and to memory outside the heap, and takes and
releases pages that are not the heap's.

`kfree` takes every neighbour with the magic for a free block, and live blocks have
the magic as well. Freeing a block next to a live one hands the live block out
again. In the runs in which `kfree` merges only with blocks on the free list, the
payloads stay disjoint and the calls do not touch them.
-/

namespace NemoOS

open Words Bytes Loops Linked Transition

/-- A pointer `kmalloc` has returned: the size that was asked for and the bytes of
    the block between its header and its footer. -/
structure Allocation where
  ptr : Nat
  size : Nat
  room : Nat
deriving DecidableEq, Repr

namespace Allocation

def Payload (a : Allocation) (x : Nat) : Prop := a.ptr ≤ x ∧ x < a.ptr + a.room

instance (a : Allocation) (x : Nat) : Decidable (a.Payload x) :=
  inferInstanceAs (Decidable (_ ∧ _))

def block (a : Allocation) : Block := ⟨a.ptr - 16, a.room + 20⟩

end Allocation

/-- The heap, the live allocations and the pages the heap has taken. -/
structure HeapRun where
  heap : Heap
  live : List Allocation
  owned : Nat → Prop

inductive HeapCall where
  | kmalloc (size : Nat)
  | kfree (ptr : Nat)
  /-- what the rest of the kernel does to memory and to the page allocator -/
  | others (mem : Memory) (pmm : Pmm)

namespace HeapRun

/-- With the pages that were free before and are now in use. -/
def grown (s : HeapRun) (pmm : Pmm) (page : Nat) : Prop :=
  s.owned page ∨ s.heap.pmm.testBit page = false ∧ pmm.testBit page = true

/-- `none` if the call does not return. -/
def call (s : HeapRun) : HeapCall → Option HeapRun
  | .kmalloc size =>
      match s.heap.kmalloc size with
      | none => none
      | some (ptr, heap) =>
          let room := field heap.mem .size (sub32 ptr HEADER_SIZE) - 20
          some {
            heap := heap
            live := if ptr = 0 then s.live else ⟨ptr, size, room⟩ :: s.live
            owned := s.grown heap.pmm }
  | .kfree ptr =>
      match s.heap.kfree ptr with
      | none => none
      | some heap =>
          some {
            heap := heap
            live := s.live.eraseP (·.ptr = ptr)
            owned := s.grown heap.pmm }
  | .others mem pmm => some { s with heap := { s.heap with mem := mem, pmm := pmm } }

/-- Only live pointers are freed, and the rest of the kernel leaves the heap alone
    outside the payloads. -/
def Allowed (s : HeapRun) : HeapCall → Prop
  | .kmalloc _ => True
  | .kfree ptr => ∃ a ∈ s.live, a.ptr = ptr
  | .others mem pmm =>
      (∀ x, s.owned (x / PAGE_SIZE) → (∀ a ∈ s.live, ¬ a.Payload x) → mem x = s.heap.mem x) ∧
        ∀ page, s.owned page → pmm.testBit page = true

def Step (s : HeapRun) (c : HeapCall) (t : HeapRun) : Prop := s.Allowed c ∧ s.call c = some t

/-- After `kmalloc_init`. -/
def init (pmm : Pmm) (heap : Heap) : HeapRun :=
  { heap := heap
    live := []
    owned := fun page => pmm.testBit page = false ∧ heap.pmm.testBit page = true }

/-! ## What is safe -/

/-- The payloads are disjoint, and as large as was asked for unless the computation
    of the block size wraps around. -/
structure Safe (s : HeapRun) : Prop where
  disjoint : s.live.Pairwise fun a b => ∀ x, a.Payload x → ¬ b.Payload x
  room : ∀ a ∈ s.live, a.size ≤ 2 ^ 32 - 24 → a.size ≤ a.room

/-- The call changes no payload byte of a live allocation other than the one that is
    freed. -/
def KeepsPayloads (s : HeapRun) (c : HeapCall) (t : HeapRun) : Prop :=
  match c with
  | .kmalloc _ => ∀ a ∈ s.live, ∀ x, a.Payload x → t.heap.mem x = s.heap.mem x
  | .kfree ptr =>
      ∀ a ∈ s.live, a.ptr ≠ ptr → ∀ x, a.Payload x → t.heap.mem x = s.heap.mem x
  | .others _ _ => True

/-- `kfree` merges only with blocks on the free list. -/
def MergesOnlyFree (s : HeapRun) : HeapCall → Prop
  | .kfree ptr => s.heap.MergesFree (sub32 ptr HEADER_SIZE)
  | _ => True

/-! ## The invariant of runs -/

/-- The live allocations are the blocks held in a layout of the heap. -/
structure Inv (s : HeapRun) (free : List Block) : Prop where
  heap : HeapInv s.owned s.heap free (s.live.map Allocation.block)
  header : ∀ a ∈ s.live, 16 ≤ a.ptr
  room : ∀ a ∈ s.live, a.size ≤ 2 ^ 32 - 24 → a.size ≤ a.room

variable {s t : HeapRun} {free : List Block}

theorem Inv.holds (h : s.Inv free) {a : Allocation} (ha : a ∈ s.live) {x : Nat}
    (hx : a.Payload x) : a.block.Holds x := by
  have hheader := h.header a ha
  simp only [Allocation.Payload] at hx
  simp only [Allocation.block, Block.Holds]
  omega

theorem Inv.block_mem {a : Allocation} (ha : a ∈ s.live) :
    a.block ∈ s.live.map Allocation.block ++ free :=
  List.mem_append_left _ (List.mem_map_of_mem ha)

theorem Inv.safe (h : s.Inv free) : s.Safe where
  disjoint := by
    have hheld := (List.pairwise_append.mp h.heap.tidy.disjoint).1
    rw [List.pairwise_map] at hheld
    apply hheld.imp_of_mem
    intro a b ha hb hdisjoint x hx hx'
    exact hdisjoint.not_holds (h.holds ha hx) (h.holds hb hx')
  room := h.room

/-- Live payloads are heap bytes outside the free list. -/
theorem Inv.keeps (h : s.Inv free) {m : Memory} (hkeeps : KeepsHeap s.owned free s.heap.mem m)
    {a : Allocation} (ha : a ∈ s.live) {x : Nat} (hx : a.Payload x) : m x = s.heap.mem x := by
  have hholds := h.holds ha hx
  apply hkeeps x ((h.heap.tidy.sound a.block (Inv.block_mem ha)).in_heap x hholds)
  intro b hb
  have hdisjoint := (List.pairwise_append.mp h.heap.tidy.disjoint).2.2 a.block
    (List.mem_map_of_mem ha) b hb
  exact hdisjoint.not_holds hholds

/-- The allocation made of the first block held. -/
theorem block_of_held {owned : Nat → Prop} {heap : Heap} {held : List Block} {b : Block}
    (h : HeapInv owned heap free (b :: held)) (size : Nat) :
    sub32 (b.addr + 16) HEADER_SIZE = b.addr ∧
      Allocation.block ⟨b.addr + 16, size, field heap.mem .size b.addr - 20⟩ = b := by
  have hmin := (h.tidy.sound b List.mem_cons_self).min_size
  have hspace := (h.tidy.sound b List.mem_cons_self).in_space
  constructor
  · rw [sub32, u32, HEADER_SIZE]
    omega
  · rw [(h.formatted b List.mem_cons_self).size_eq]
    obtain ⟨addr, size'⟩ := b
    simp only [Allocation.block, Block.mk.injEq] at hmin ⊢
    omega

/-- `kmalloc` keeps the invariant for the pages it gives to the heap. -/
theorem Inv.alloc (h : s.Inv free) (size : Nat) :
    ∃ t owned' free', s.call (.kmalloc size) = some t ∧ Inv { t with owned := owned' } free' ∧
      (∀ page, owned' page ↔ s.owned page ∨ page ∈ s.heap.kmallocPages size) ∧
      t.owned = s.grown t.heap.pmm ∧ (∀ page, owned' page → t.owned page) ∧
      s.KeepsPayloads (.kmalloc size) t := by
  obtain ⟨ptr, heap, owned', free', hcall, hle, hnew, hpages, hkeeps, hresult⟩ :=
    h.heap.kmalloc size
  have hcall' : s.call (.kmalloc size) = some
      { heap := heap
        live := if ptr = 0 then s.live
          else ⟨ptr, size, field heap.mem .size (sub32 ptr HEADER_SIZE) - 20⟩ :: s.live
        owned := s.grown heap.pmm } := by
    simp only [call, hcall]
  -- the pages the heap has gained are among those the call has taken
  have hgrown : (∀ page, owned' page → heap.pmm.testBit page = true) →
      ∀ page, owned' page → s.grown heap.pmm page := by
    intro hused page hpage
    rcases hnew page hpage with hold | hfree
    · exact Or.inl hold
    · exact Or.inr ⟨hfree, hused page hpage⟩
  refine ⟨_, owned', free', hcall', ?_, hpages, rfl, ?_, fun a ha x hx => h.keeps hkeeps ha hx⟩
  · rcases hresult with ⟨rfl, hinv⟩ | ⟨b, rfl, hsize, hinv⟩
    · rw [if_pos rfl]
      exact ⟨hinv, h.header, h.room⟩
    · obtain ⟨haddr, hblock⟩ := block_of_held hinv size
      rw [if_neg (Nat.succ_ne_zero _), haddr]
      refine ⟨?_, ?_, ?_⟩
      · rw [List.map_cons, hblock]
        exact hinv
      · intro a ha
        rcases List.mem_cons.mp ha with rfl | ha
        · exact Nat.le_add_left _ _
        · exact h.header a ha
      · intro a ha hle
        rcases List.mem_cons.mp ha with rfl | ha
        · have hneeded := Heap.le_neededFor hle
          rw [(hinv.formatted b List.mem_cons_self).size_eq]
          simp only at hneeded ⊢
          omega
        · exact h.room a ha hle
  · rcases hresult with ⟨-, hinv⟩ | ⟨b, -, -, hinv⟩
    · exact hgrown hinv.used
    · exact hgrown hinv.used

/-- Pages in use may be counted as the heap's. -/
theorem Inv.mono {owned' : Nat → Prop} (h : s.Inv free)
    (hle : ∀ page, s.owned page → owned' page)
    (hused : ∀ page, owned' page → s.heap.pmm.testBit page = true) :
    Inv { s with owned := owned' } free :=
  ⟨h.heap.mono hle hused, h.header, h.room⟩

theorem Inv.call_kmalloc (h : s.Inv free) (size : Nat) :
    ∃ t free', s.call (.kmalloc size) = some t ∧ t.Inv free' ∧
      s.KeepsPayloads (.kmalloc size) t := by
  obtain ⟨t, owned', free', hcall, hinv, hpages, howned, hle, hkeeps⟩ := h.alloc size
  refine ⟨t, free', hcall, hinv.mono hle ?_, hkeeps⟩
  rw [howned]
  rintro page (hold | ⟨-, hused⟩)
  · exact hinv.heap.used page ((hpages page).mpr (Or.inl hold))
  · exact hused

/-- The allocation that is freed, and the others. -/
theorem Inv.freed (h : s.Inv free) {ptr : Nat} (hlive : s.Allowed (.kfree ptr)) :
    ∃ a rest, a ∈ s.live ∧ a.ptr = ptr ∧ (∀ b ∈ rest, b ∈ s.live) ∧
      s.live.eraseP (·.ptr = ptr) = rest ∧ sub32 ptr HEADER_SIZE = a.block.addr ∧
      ptr = a.block.addr + 16 ∧
      (s.live.map Allocation.block).Perm (a.block :: rest.map Allocation.block) := by
  obtain ⟨a, ha, hptr⟩ := hlive
  obtain ⟨a, before, after, -, hptr, hsplit, herase⟩ :=
    List.exists_of_eraseP (p := fun a : Allocation => decide (a.ptr = ptr)) ha (decide_eq_true hptr)
  rw [decide_eq_true_eq] at hptr
  subst hptr
  have ha : a ∈ s.live := by simp [hsplit]
  have hheader := h.header a ha
  have hspace := (h.heap.tidy.sound a.block (Inv.block_mem ha)).in_space
  simp only [Allocation.block] at hspace
  refine ⟨a, before ++ after, ha, rfl, ?_, herase, ?_, ?_, ?_⟩
  · rw [hsplit]
    exact ((List.sublist_cons_self a after).append_left before).subset
  · rw [sub32, u32, HEADER_SIZE, Allocation.block]
    simp only
    omega
  · rw [Allocation.block]
    simp only
    omega
  · rw [hsplit, List.map_append, List.map_cons, List.map_append]
    exact List.perm_middle

/-- `kfree` keeps the invariant for the pages the heap has. -/
theorem Inv.release (h : s.Inv free) {ptr : Nat} (hlive : s.Allowed (.kfree ptr))
    (hmerges : s.MergesOnlyFree (.kfree ptr)) :
    ∃ t free', s.call (.kfree ptr) = some t ∧ Inv { t with owned := s.owned } free' ∧
      t.owned = s.grown t.heap.pmm ∧ s.KeepsPayloads (.kfree ptr) t := by
  obtain ⟨a, rest, ha, rfl, hsub, herase, haddr, hptr, hperm⟩ := h.freed hlive
  rw [MergesOnlyFree, haddr] at hmerges
  obtain ⟨heap, free', lost, hcall, hreleases, -⟩ := (h.heap.perm_held hperm).kfree hmerges
  rw [← hptr] at hcall
  have hcall' : s.call (.kfree a.ptr) = some
      { heap := heap, live := rest, owned := s.grown heap.pmm } := by
    simp only [call, hcall, herase]
  refine ⟨_, free', hcall', ⟨hreleases.others, ?_, ?_⟩, rfl, ?_⟩
  · exact fun b hb => h.header b (hsub b hb)
  · exact fun b hb => h.room b (hsub b hb)
  · intro b hb hne x hx
    apply hreleases.only
    have hholds := h.holds hb hx
    intro c hc
    rcases List.mem_cons.mp hc with rfl | hc
    · -- the freed block is another one
      have hblock : b.block ≠ a.block := by
        intro heq
        have haddr_eq := congrArg Block.addr heq
        have hheader' := h.header b hb
        simp only [Allocation.block] at haddr_eq
        omega
      exact (h.heap.tidy.disjoint_of_ne (Inv.block_mem hb) (Inv.block_mem ha)
        hblock).not_holds hholds
    · exact ((List.pairwise_append.mp h.heap.tidy.disjoint).2.2 b.block
        (List.mem_map_of_mem hb) c hc).not_holds hholds

theorem Inv.call_kfree (h : s.Inv free) {ptr : Nat} (hlive : s.Allowed (.kfree ptr))
    (hmerges : s.MergesOnlyFree (.kfree ptr)) :
    ∃ t free', s.call (.kfree ptr) = some t ∧ t.Inv free' ∧ s.KeepsPayloads (.kfree ptr) t := by
  obtain ⟨t, free', hcall, hinv, howned, hkeeps⟩ := h.release hlive hmerges
  refine ⟨t, free', hcall, hinv.mono (fun page hpage => howned ▸ Or.inl hpage) ?_, hkeeps⟩
  rw [howned]
  rintro page (hold | ⟨-, hused⟩)
  · exact hinv.heap.used page hold
  · exact hused

/-- The rest of the kernel does not reach the headers and the footers. -/
theorem Allowed.keeps {mem : Memory} {pmm : Pmm} (hallowed : s.Allowed (.others mem pmm))
    {blocks : List Block} (htidy : Tidy s.owned blocks) (hheader : ∀ a ∈ s.live, 16 ≤ a.ptr)
    (hlive : ∀ a ∈ s.live, a.block ∈ blocks) {b : Block} (hb : b ∈ blocks) {x : Nat}
    (hx : b.Holds x) (hedge : x < b.addr + 16 ∨ b.addr + b.size - 4 ≤ x) :
    mem x = s.heap.mem x := by
  apply hallowed.1 x ((htidy.sound b hb).in_heap x hx)
  intro a ha hpayload
  have hptr := hheader a ha
  by_cases heq : b = a.block
  · subst heq
    simp only [Allocation.Payload, Allocation.block] at hpayload hedge
    omega
  · refine (htidy.disjoint_of_ne hb (hlive a ha) heq).not_holds hx ?_
    simp only [Allocation.Payload] at hpayload
    simp only [Allocation.block, Block.Holds]
    omega

theorem Inv.call_others (h : s.Inv free) {mem : Memory} {pmm : Pmm}
    (hallowed : s.Allowed (.others mem pmm)) :
    Inv { s with heap := { s.heap with mem := mem, pmm := pmm } } free := by
  refine ⟨h.heap.congr (fun b hb x hle hlt => ?_) hallowed.2, h.header, h.room⟩
  have hmin := (h.heap.tidy.sound b hb).min_size
  exact Allowed.keeps hallowed h.heap.tidy h.header (fun a ha => Inv.block_mem ha) hb
    ⟨hle, by omega⟩ (Or.inl hlt)

/-- The heap after `kmalloc_init` is one page. -/
theorem kmallocInit_grows {mem : Memory} {pmm : Pmm} {heap : Heap}
    (hinit : Heap.kmallocInit mem pmm = some heap) :
    ∃ new, Grows (fun _ => False) (· = pmm.pmmAllocPage.1 / PAGE_SIZE)
        ⟨mem, 0, 0, pmm⟩ heap [] new [] ∧
      pmm.testBit (pmm.pmmAllocPage.1 / PAGE_SIZE) = false := by
  have hempty : HeapInv (fun _ => False) ⟨mem, 0, 0, pmm⟩ [] [] :=
    ⟨isList_nil, by simp, ⟨by simp, List.Pairwise.nil⟩, fun _ h => h.elim⟩
  obtain ⟨hkeeps, hcases⟩ := pmm.pmmAllocPage_spec
  rw [Heap.kmallocInit] at hinit
  generalize pmm.pmmAllocPage = alloc at hkeeps hcases hinit
  obtain ⟨page, p⟩ := alloc
  dsimp only at hkeeps hcases hinit
  rcases hcases with rfl | ⟨k, hk, hk_lt, rfl, hclear, hbit⟩
  · rw [if_pos rfl] at hinit
    exact absurd hinit (by simp)
  · have hnonzero : k * PAGE_SIZE ≠ 0 := Nat.mul_ne_zero (by omega) (by decide)
    rw [if_neg hnonzero] at hinit
    obtain ⟨s', hs', hpmm, hgrows⟩ := hempty.adopt (u32 (k * PAGE_SIZE + 4096)) hk Nat.one_pos hk_lt
      hkeeps (by
        intro page hle hlt
        obtain rfl : k = page := by omega
        exact ⟨hclear, by rw [hbit]; simp⟩)
    -- the list was empty
    have hheap : s' = heap := by
      rw [Heap.listAppend, if_pos rfl, Nat.one_mul] at hs'
      exact Option.some.inj (hs'.symm.trans hinit)
    subst hheap
    rw [Nat.mul_div_cancel k (by decide)]
    have hself : (fun page => False ∨ k ≤ page ∧ page < k + 1) = (· = k) := by
      funext page
      rw [false_or, eq_iff_iff]
      omega
    exact ⟨_, hself ▸ hgrows, hclear⟩

theorem Inv.first_page {mem : Memory} {pmm : Pmm} {heap : Heap}
    (hinit : Heap.kmallocInit mem pmm = some heap) :
    ∃ free, Inv { heap := heap, live := [], owned := (· = pmm.pmmAllocPage.1 / PAGE_SIZE) } free ∧
      pmm.testBit (pmm.pmmAllocPage.1 / PAGE_SIZE) = false := by
  obtain ⟨new, hgrows, hclear⟩ := kmallocInit_grows hinit
  exact ⟨_, ⟨hgrows.inv, by simp, by simp⟩, hclear⟩

theorem Inv.init {mem : Memory} {pmm : Pmm} {heap : Heap}
    (hinit : Heap.kmallocInit mem pmm = some heap) : ∃ free, (HeapRun.init pmm heap).Inv free := by
  obtain ⟨free, hinv, hclear⟩ := Inv.first_page hinit
  refine ⟨free, hinv.mono ?_ fun page hpage => hpage.2⟩
  rintro page rfl
  exact ⟨hclear, hinv.heap.used _ rfl⟩


/-! ## Whole runs -/

theorem Inv.call (h : s.Inv free) {c : HeapCall} (hallowed : s.Allowed c)
    (hmerges : s.MergesOnlyFree c) :
    ∃ t free', s.call c = some t ∧ t.Inv free' ∧ s.KeepsPayloads c t := by
  cases c with
  | kmalloc size => exact h.call_kmalloc size
  | kfree ptr => exact h.call_kfree hallowed hmerges
  | others mem pmm => exact ⟨_, free, rfl, h.call_others hallowed, trivial⟩

theorem exists_inv {mem : Memory} {pmm : Pmm} {heap : Heap} {calls : List HeapCall}
    (hinit : Heap.kmallocInit mem pmm = some heap)
    (hrun : Run (Guarded MergesOnlyFree Step) (HeapRun.init pmm heap) calls t) :
    ∃ free, t.Inv free := by
  refine hrun.invariant (fun s => ∃ free, s.Inv free) (Inv.init hinit) ?_
  rintro a c b ⟨free, ha⟩ ⟨hmerges, hallowed, hcall⟩
  obtain ⟨b', free', hcall', hb, -⟩ := ha.call hallowed hmerges
  obtain rfl : b' = b := Option.some.inj (hcall'.symm.trans hcall)
  exact ⟨free', hb⟩

/-- Runs the calls as long as each passes the check. -/
def exec (check : HeapRun → HeapCall → Bool) (s : HeapRun) : List HeapCall → Option HeapRun
  | [] => some s
  | c :: calls =>
      if check s c then
        match s.call c with
        | none => none
        | some t => t.exec check calls
      else none

theorem run_exec {check : HeapRun → HeapCall → Bool} {ok : HeapRun → HeapCall → Prop}
    (hcheck : ∀ s c, check s c = true → ok s c ∧ s.Allowed c) {calls : List HeapCall}
    (h : s.exec check calls = some t) : Run (Guarded ok Step) s calls t := by
  induction calls generalizing s with
  | nil =>
      obtain rfl : s = t := Option.some.inj h
      exact .nil
  | cons c calls ih =>
      rw [exec] at h
      split at h
      · next hc =>
        obtain ⟨hok, hallowed⟩ := hcheck s c hc
        split at h
        · cases h
        · next u hu => exact .cons ⟨hok, hallowed, hu⟩ (ih h)
      · cases h

/-- The call frees a live pointer, if any. -/
def freesLive (s : HeapRun) : HeapCall → Bool
  | .kmalloc _ => true
  | .kfree ptr => s.live.any (·.ptr = ptr)
  | .others _ _ => false

theorem allowed_of_freesLive {c : HeapCall} (h : s.freesLive c = true) : s.Allowed c := by
  cases c with
  | kmalloc size => trivial
  | kfree ptr => simpa [freesLive, Allowed] using h
  | others mem pmm => cases h

instance (s : HeapRun) (c : HeapCall) : Decidable (s.MergesOnlyFree c) :=
  match c with
  | .kmalloc _ => isTrue trivial
  | .kfree ptr => inferInstanceAs (Decidable (s.heap.MergesFree (sub32 ptr HEADER_SIZE)))
  | .others _ _ => isTrue trivial

/-- The call frees a live pointer, if any, and merges only with blocks on the free list. -/
def freesAlone (s : HeapRun) (c : HeapCall) : Bool := s.freesLive c && decide (s.MergesOnlyFree c)

theorem run_freesAlone {calls : List HeapCall} (h : s.exec freesAlone calls = some t) :
    Run (Guarded MergesOnlyFree Step) s calls t := by
  apply run_exec _ h
  intro s c hc
  rw [freesAlone, Bool.and_eq_true, decide_eq_true_eq] at hc
  exact ⟨hc.2, allowed_of_freesLive hc.1⟩

/-- The page allocator of a machine with 5 MiB after `pmm_init`. -/
def bootPmm : Pmm :=
  ⟨fun i => if i < 128 then 255 else 0, 1280, 1024, Pmm.fiveMegabytes_le⟩

/-- Memory that is zero but for the word before the first page of the heap. -/
def bootMemory : Memory := fun x => if x = 0x400000 - 4 then 8 else 0

/-- The heap that `kmalloc_init` makes of them. -/
def bootHeap : Heap :=
  { mem := setField (setField (formatBlock bootMemory 0x400000 4096) .next 0x400000 0) .prev
      0x400000 0
    freeList := 0x400000
    heapEnd := 0x401000
    pmm := bootPmm.pmmAllocPage.2 }

theorem pmmAllocPage_boot : bootPmm.pmmAllocPage.1 = 0x400000 := by decide +kernel

theorem kmallocInit_boot : Heap.kmallocInit bootMemory bootPmm = some bootHeap := by
  have hpage := pmmAllocPage_boot
  rw [Heap.kmallocInit, bootHeap]
  generalize bootPmm.pmmAllocPage = alloc at hpage ⊢
  obtain ⟨_, pmm⟩ := alloc
  obtain rfl := hpage
  rfl

/-- **Heap safety.** After `kmalloc_init`, in every run of `kmalloc` and of `kfree` on
    live pointers in which `kfree` merges only with blocks on the free list, the
    payloads of the live allocations are disjoint, and every further such call
    returns and changes no payload byte of a live allocation other than the one
    that is freed. -/
theorem payloads_safe {mem : Memory} {pmm : Pmm} {heap : Heap} {calls : List HeapCall}
    (hinit : Heap.kmallocInit mem pmm = some heap)
    (hrun : Run (Guarded MergesOnlyFree Step) (HeapRun.init pmm heap) calls t) :
    t.Safe ∧ ∀ c, t.Allowed c → t.MergesOnlyFree c →
      ∃ u, t.call c = some u ∧ t.KeepsPayloads c u := by
  obtain ⟨free, h⟩ := exists_inv hinit hrun
  refine ⟨h.safe, fun c hallowed hmerges => ?_⟩
  obtain ⟨u, -, hcall, -, hkeeps⟩ := h.call hallowed hmerges
  exact ⟨u, hcall, hkeeps⟩

/-- A block is allocated and freed, and two blocks are allocated in its place. -/
theorem payloads_safe_reused :
    ∃ heap t, Heap.kmallocInit bootMemory bootPmm = some heap ∧
      Run (Guarded MergesOnlyFree Step) (HeapRun.init bootPmm heap)
        [.kmalloc 16, .kfree 4194320, .kmalloc 32, .kmalloc 100] t ∧
      t.live = [⟨4194372, 100, 104⟩, ⟨4194320, 32, 32⟩] ∧ t.Safe ∧
      ∀ c, t.Allowed c → t.MergesOnlyFree c → ∃ u, t.call c = some u ∧ t.KeepsPayloads c u := by
  have hlive : ((HeapRun.init bootPmm bootHeap).exec freesAlone
      [.kmalloc 16, .kfree 4194320, .kmalloc 32, .kmalloc 100]).map live =
      some [⟨4194372, 100, 104⟩, ⟨4194320, 32, 32⟩] := by
    decide
  obtain ⟨t, ht, hlive⟩ := Option.map_eq_some_iff.mp hlive
  have hrun := run_freesAlone ht
  exact ⟨bootHeap, t, kmallocInit_boot, hrun, hlive, payloads_safe kmallocInit_boot hrun⟩

/-- Of two adjacent blocks the second is freed: `kfree` merges it into the first,
    which is live, and the next call returns the first block again. -/
theorem kfree_hands_out_live_block :
    ¬ ∀ (mem : Memory) (pmm : Pmm) (heap : Heap) (calls : List HeapCall) (t : HeapRun),
      Heap.kmallocInit mem pmm = some heap → Run Step (HeapRun.init pmm heap) calls t →
      t.Safe := by
  intro h
  have hlive : ((HeapRun.init bootPmm bootHeap).exec freesLive
      [.kmalloc 16, .kmalloc 32, .kfree 4194356, .kmalloc 16]).map live =
      some [⟨4194320, 16, 16⟩, ⟨4194320, 16, 16⟩] := by
    decide
  obtain ⟨t, ht, hlive⟩ := Option.map_eq_some_iff.mp hlive
  have hrun : Run (Guarded (fun _ _ => True) Step) (HeapRun.init bootPmm bootHeap) _ t :=
    run_exec (fun s c hc => ⟨trivial, allowed_of_freesLive hc⟩) ht
  have hsafe := h _ _ _ _ t kmallocInit_boot (hrun.mono fun _ _ _ hstep => hstep.2)
  have hdisjoint := hsafe.disjoint
  rw [hlive] at hdisjoint
  exact (List.pairwise_cons.mp hdisjoint).1 _ List.mem_cons_self 4194320 (by decide) (by decide)

end HeapRun

end NemoOS
