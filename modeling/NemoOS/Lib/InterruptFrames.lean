import Mathlib
import NemoOS.Lib.ByteMemory

/-!
# Interrupt frames of a 32-bit x86 processor

The registers that an interrupt and `pusha` put on a stack, and that `popa` and `iret` load
from it. An interrupt in ring 3 starts at the stack pointer of the task state segment and
stores the stack of ring 3 as well; one in ring 0 goes on where the stack is.

`resume` is `popa; iret`. It reads one frame (`resume_of_saved`), and the frame that
`enter`, an interrupt followed by `pusha`, leaves is that of the interrupted registers
(`enter_spec`), so that whoever keeps these bytes can go on later (`Saved.congr`).

Data segments are not part of it: none of these instructions stores one.
-/

namespace Ia32

open Words Bytes

/-! ## Words on a stack -/

/-- The word at an address. -/
def load (m : Memory) (a : Nat) : UInt32 := UInt32.ofNat (read32 m a)

/-- Addresses wrap. -/
@[simp] theorem load_mod_add (m : Memory) (a k : Nat) :
    load m (a % 4294967296 + k) = load m (a + k) := by
  simp only [load, read32, u32, Nat.add_assoc, Nat.mod_add_mod]

@[simp] theorem load_mod (m : Memory) (a : Nat) : load m (a % 4294967296) = load m a :=
  load_mod_add m a 0

/-- The `n` words from `a` on. -/
def frame (m : Memory) (a n : Nat) : List UInt32 := (List.range n).map fun i => load m (a + 4 * i)

@[simp] theorem length_frame (m : Memory) (a n : Nat) : (frame m a n).length = n := by
  simp [frame]

theorem frame_succ (m : Memory) (a n : Nat) :
    frame m a (n + 1) = load m a :: frame m (a + 4) n := by
  simp only [frame, List.range_succ_eq_map, List.map_cons, List.map_map]
  congr 1
  apply List.map_congr_left
  intro i _
  simp only [Function.comp]
  congr 1
  omega

theorem frame_add (m : Memory) (a n k : Nat) :
    frame m a (n + k) = frame m a n ++ frame m (a + 4 * n) k := by
  induction n generalizing a with
  | zero => simp [frame]
  | succ n ih =>
      rw [Nat.succ_add, frame_succ, frame_succ, ih, List.cons_append]
      congr 3
      omega

/-- A frame is determined by its bytes. -/
theorem frame_congr {m m' : Memory} {a n : Nat} (ha : a + 4 * n ≤ 2 ^ 32)
    (h : ∀ x, a ≤ x → x < a + 4 * n → m' x = m x) : frame m' a n = frame m a n := by
  apply List.map_congr_left
  intro i hi
  have hlt := List.mem_range.mp hi
  rw [load, load, read32_congr (by omega)]
  intro x hlow hhigh
  exact h x (by omega) (by omega)

/-- A store into a frame. -/
theorem frame_write32 {m : Memory} {a n i : Nat} (ha : a + 4 * n ≤ 2 ^ 32) (hi : i < n)
    (v : UInt32) :
    frame (write32 m (a + 4 * i) v.toNat) a n = (frame m a n).set i v := by
  apply List.ext_getElem (by simp)
  intro j hj _
  rw [length_frame] at hj
  rw [List.getElem_set]
  simp only [frame, List.getElem_map, List.getElem_range, load]
  split
  · next hij =>
    rw [hij, read32_write32_self (by omega) v.toNat_lt, UInt32.ofNat_toNat]
  · next hij => rw [read32_write32_of_disjoint (by omega) (by omega) (by omega)]

/-! ## The processor -/

structure Registers where
  eax : UInt32
  ecx : UInt32
  edx : UInt32
  ebx : UInt32
  esp : UInt32
  ebp : UInt32
  esi : UInt32
  edi : UInt32
  eip : UInt32
  cs : UInt32
  eflags : UInt32
  ss : UInt32
deriving DecidableEq, Repr

/-- The code segment is one of ring 3. -/
def Registers.user (r : Registers) : Bool := r.cs.toNat % 4 = 3

structure Processor where
  regs : Registers
  mem : Memory

namespace Processor

def push (c : Processor) (v : UInt32) : Processor where
  regs := { c.regs with esp := c.regs.esp - 4 }
  mem := write32 c.mem (c.regs.esp - 4).toNat v.toNat

def pushAll (c : Processor) (vs : List UInt32) : Processor := vs.foldl push c

def pusha (c : Processor) : Processor :=
  let r := c.regs
  c.pushAll [r.eax, r.ecx, r.edx, r.ebx, r.esp, r.ebp, r.esi, r.edi]

/-- The stored stack pointer is skipped. -/
def popa (c : Processor) : Processor :=
  let word i := load c.mem (c.regs.esp.toNat + 4 * i)
  { c with regs := { c.regs with
      edi := word 0, esi := word 1, ebp := word 2, ebx := word 4, edx := word 5, ecx := word 6,
      eax := word 7, esp := c.regs.esp + 32 } }

/-- A return to ring 3 loads the stack of ring 3. -/
def iret (c : Processor) : Processor :=
  let word i := load c.mem (c.regs.esp.toNat + 4 * i)
  let r := { c.regs with eip := word 0, cs := word 1, eflags := word 2 }
  { c with regs := if r.user then { r with esp := word 3, ss := word 4 }
      else { r with esp := c.regs.esp + 12 } }

def resume (c : Processor) : Processor := c.popa.iret

/-- Where an interrupt comes to: the code, and the stack for interrupts in ring 3. -/
structure Entry where
  cs : UInt32
  eip : UInt32
  ss0 : UInt32
  esp0 : UInt32

/-- An interrupt through an interrupt gate, which clears the interrupt flag. -/
def interrupt (e : Entry) (c : Processor) : Processor :=
  let r := c.regs
  let c := if r.user then
      pushAll { c with regs := { r with esp := e.esp0, ss := e.ss0 } }
        [r.ss, r.esp, r.eflags, r.cs, r.eip]
    else c.pushAll [r.eflags, r.cs, r.eip]
  { c with regs := { c.regs with cs := e.cs, eip := e.eip, eflags := r.eflags &&& 0xFFFFFDFF } }

/-- An interrupt and the `pusha` that its handler begins with. -/
def enter (e : Entry) (c : Processor) : Processor := (c.interrupt e).pusha

/-! ## Pushing -/

theorem toNat_sub {a : UInt32} {k : Nat} (h : k ≤ a.toNat) :
    (a - UInt32.ofNat k).toNat = a.toNat - k := by
  have hlt := a.toNat_lt
  have hk : (UInt32.ofNat k).toNat = k := by
    rw [UInt32.toNat_ofNat', Nat.mod_eq_of_lt (by omega)]
  rw [UInt32.toNat_sub_of_le, hk]
  rw [UInt32.le_iff_toNat_le, hk]
  exact h

theorem toNat_esp_push {c : Processor} (h : 4 ≤ c.regs.esp.toNat) (v : UInt32) :
    (c.push v).regs.esp.toNat = c.regs.esp.toNat - 4 :=
  toNat_sub (k := 4) h

/-- What pushing does: the words are below the old stack pointer, the last one lowest, and all
    other bytes are as before. -/
theorem pushAll_spec (c : Processor) (vs : List UInt32) (h : 4 * vs.length ≤ c.regs.esp.toNat) :
    (c.pushAll vs).regs = { c.regs with esp := c.regs.esp - UInt32.ofNat (4 * vs.length) } ∧
      frame (c.pushAll vs).mem (c.regs.esp.toNat - 4 * vs.length) vs.length = vs.reverse ∧
      ∀ x, x < c.regs.esp.toNat - 4 * vs.length ∨ c.regs.esp.toNat ≤ x →
        (c.pushAll vs).mem x = c.mem x := by
  induction vs generalizing c with
  | nil => simp [pushAll, frame]
  | cons v vs ih =>
      rw [List.length_cons] at h ⊢
      have hsp := toNat_esp_push (c := c) (by omega) v
      have hlt := c.regs.esp.toNat_lt
      obtain ⟨hregs, hframe, hmem⟩ := ih (c.push v) (by omega)
      have hcons : c.pushAll (v :: vs) = (c.push v).pushAll vs := rfl
      have hpush : (c.push v).mem = write32 c.mem (c.regs.esp.toNat - 4) v.toNat := by
        rw [← hsp]
        rfl
      have hlow : c.regs.esp.toNat - 4 - 4 * vs.length =
          c.regs.esp.toNat - 4 * (vs.length + 1) := by omega
      have hhigh : c.regs.esp.toNat - 4 * (vs.length + 1) + 4 * vs.length =
          c.regs.esp.toNat - 4 := by omega
      rw [hsp, hlow] at hframe hmem
      rw [hcons]
      refine ⟨?_, ?_, fun x hx => ?_⟩
      · have hesp : c.regs.esp - 4 - UInt32.ofNat (4 * vs.length) =
            c.regs.esp - UInt32.ofNat (4 * (vs.length + 1)) := by
          rw [Nat.mul_succ, UInt32.ofNat_add, add_comm, ← sub_sub]
          rfl
        rw [hregs, ← hesp]
        rfl
      · -- the first word is the highest one, and nothing is pushed over it
        have hfirst : load ((c.push v).pushAll vs).mem (c.regs.esp.toNat - 4) = v := by
          rw [load, read32_congr (m := (c.push v).mem) (by omega) fun x hx _ => hmem x (.inr hx),
            hpush, read32_write32_self (by omega) v.toNat_lt, UInt32.ofNat_toNat]
        rw [frame_add, hframe, hhigh, List.reverse_cons, frame_succ, hfirst]
        rfl
      · rw [hmem x (by omega), hpush]
        exact write32_of_outside (by omega) (by omega)

end Processor

/-! ## The frame of a context -/

/-- The words that `popa` and `iret` load, lowest first; `skipped` is the stored stack pointer. -/
def Registers.frame (r : Registers) (skipped : UInt32) : List UInt32 :=
  [r.edi, r.esi, r.ebp, skipped, r.ebx, r.edx, r.ecx, r.eax, r.eip, r.cs, r.eflags] ++
    if r.user then [r.esp, r.ss] else []

/-- The size of the frame: a context of ring 0 has no stack in it. -/
def Registers.frameBytes (r : Registers) : Nat := if r.user then 52 else 44

namespace Processor

/-- The context is on the stack: its frame begins at the stack pointer, and where it has no
    stack of its own it goes on behind the frame. -/
structure Saved (m : Memory) (ss : UInt32) (esp : UInt32) (r : Registers) : Prop where
  frame : ∃ skipped, frame m esp.toNat (r.frameBytes / 4) = r.frame skipped
  kernel : r.user = false → r.esp = esp + 44 ∧ r.ss = ss

/-- What is loaded from a frame. -/
theorem resume_of_saved {c : Processor} {r : Registers} (h : Saved c.mem c.regs.ss c.regs.esp r) :
    c.resume.regs = r := by
  obtain ⟨⟨skipped, hframe⟩, hkernel⟩ := h
  cases huser : r.user with
  | true =>
      simp [Registers.frame, Registers.frameBytes, huser, Ia32.frame, List.range_succ] at hframe
      obtain ⟨hedi, hesi, hebp, -, hebx, hedx, hecx, heax, heip, hcs, hflags, hesp, hss⟩ := hframe
      have hring : r.cs.toNat % 4 = 3 := by simpa [Registers.user] using huser
      simp [resume, iret, popa, Registers.user, *]
  | false =>
      simp [Registers.frame, Registers.frameBytes, huser, Ia32.frame, List.range_succ] at hframe
      obtain ⟨hedi, hesi, hebp, -, hebx, hedx, hecx, heax, heip, hcs, hflags⟩ := hframe
      have hring : r.cs.toNat % 4 ≠ 3 := by simpa [Registers.user] using huser
      obtain ⟨hesp, hss⟩ := hkernel huser
      have hend : c.regs.esp + 32 + 12 = r.esp := by
        rw [hesp, add_assoc]
        rfl
      simp [resume, iret, popa, Registers.user, hedi, hesi, hebp, hebx, hedx, hecx, heax, heip, hcs,
        hflags, hring, hend, ← hss]

/-- A context stays on the stack as long as its bytes do. -/
theorem Saved.congr {m m' : Memory} {ss esp : UInt32} {r : Registers} (h : Saved m ss esp r)
    (hroom : esp.toNat + r.frameBytes ≤ 2 ^ 32)
    (hmem : ∀ x, esp.toNat ≤ x → x < esp.toNat + r.frameBytes → m' x = m x) :
    Saved m' ss esp r where
  frame := by
    have hwords : 4 * (r.frameBytes / 4) = r.frameBytes := by
      rw [Registers.frameBytes]
      split <;> rfl
    obtain ⟨skipped, hframe⟩ := h.frame
    exact ⟨skipped, by rw [frame_congr (by rw [hwords]; exact hroom) (by rwa [hwords]), hframe]⟩
  kernel := h.kernel

/-- `mov %eax, 28(%esp)`: the context goes on with another `eax`. -/
theorem Saved.set_eax {m : Memory} {ss esp : UInt32} {r : Registers} (h : Saved m ss esp r)
    (hroom : esp.toNat + r.frameBytes ≤ 2 ^ 32) (v : UInt32) :
    Saved (write32 m (esp.toNat + 28) v.toNat) ss esp { r with eax := v } where
  frame := by
    obtain ⟨skipped, hframe⟩ := h.frame
    refine ⟨skipped, ?_⟩
    have hbytes : r.frameBytes = 52 ∨ r.frameBytes = 44 := by
      rw [Registers.frameBytes]
      split <;> simp
    have hset : Registers.frame { r with eax := v } skipped = (r.frame skipped).set 7 v := rfl
    rw [hset, ← hframe]
    exact frame_write32 (m := m) (a := esp.toNat) (n := r.frameBytes / 4) (i := 7) (by omega)
      (by omega) v
  kernel := h.kernel

/-! ## Entering -/

/-- Where an interrupt begins to push. -/
def start (e : Entry) (c : Processor) : UInt32 := if c.regs.user then e.esp0 else c.regs.esp

/-- The words that an interrupt pushes. -/
def interruptWords (r : Registers) : List UInt32 :=
  (if r.user then [r.ss, r.esp] else []) ++ [r.eflags, r.cs, r.eip]

theorem interrupt_eq (e : Entry) (c : Processor) :
    c.interrupt e =
      let pushed := pushAll { c with regs := { c.regs with
        esp := c.start e, ss := if c.regs.user then e.ss0 else c.regs.ss } } (interruptWords c.regs)
      { pushed with regs := { pushed.regs with
          cs := e.cs, eip := e.eip, eflags := c.regs.eflags &&& 0xFFFFFDFF } } := by
  cases huser : c.regs.user <;> simp [interrupt, start, interruptWords, huser]

theorem length_interruptWords (r : Registers) :
    4 * (interruptWords r).length + 32 = r.frameBytes := by
  cases huser : r.user <;> simp [interruptWords, Registers.frameBytes, huser]

/-- **Entering.** An interrupt and `pusha` leave the frame of the interrupted registers right
    below where they began, and no other byte is changed. -/
theorem enter_spec (e : Entry) (c : Processor) (h : c.regs.frameBytes ≤ (c.start e).toNat) :
    (c.enter e).regs.esp = c.start e - UInt32.ofNat c.regs.frameBytes ∧
      (c.enter e).regs.ss = (if c.regs.user then e.ss0 else c.regs.ss) ∧
      (∃ skipped, frame (c.enter e).mem ((c.start e).toNat - c.regs.frameBytes)
        (c.regs.frameBytes / 4) = c.regs.frame skipped) ∧
      ∀ x, x < (c.start e).toNat - c.regs.frameBytes ∨ (c.start e).toNat ≤ x →
        (c.enter e).mem x = c.mem x := by
  have hlen := length_interruptWords c.regs
  obtain ⟨hregs, hframe, hmem⟩ := pushAll_spec { c with regs := { c.regs with
    esp := c.start e, ss := if c.regs.user then e.ss0 else c.regs.ss } }
    (interruptWords c.regs) (by dsimp only; omega)
  have hint := interrupt_eq e c
  dsimp only at hint hregs hframe hmem
  rw [hregs] at hint
  have hesp : (c.interrupt e).regs.esp.toNat =
      (c.start e).toNat - 4 * (interruptWords c.regs).length := by
    rw [hint]
    exact toNat_sub (by omega)
  obtain ⟨hregs', hframe', hmem'⟩ := pushAll_spec (c.interrupt e)
    [c.regs.eax, c.regs.ecx, c.regs.edx, c.regs.ebx, (c.interrupt e).regs.esp, c.regs.ebp,
      c.regs.esi, c.regs.edi] (by rw [hesp]; simp; omega)
  have henter : c.enter e = (c.interrupt e).pushAll [c.regs.eax, c.regs.ecx, c.regs.edx, c.regs.ebx,
      (c.interrupt e).regs.esp, c.regs.ebp, c.regs.esi, c.regs.edi] := by
    rw [enter, pusha, hint]
  rw [← henter] at hregs' hframe' hmem'
  simp only [List.length_cons, List.length_nil, hesp] at hregs' hframe' hmem'
  have hbase : (c.start e).toNat - 4 * (interruptWords c.regs).length - 4 * 8 =
      (c.start e).toNat - c.regs.frameBytes := by omega
  rw [hbase] at hframe' hmem'
  have hmem₁ : ∀ x, (c.interrupt e).mem x = _ := fun x => congrFun (congrArg Processor.mem hint) x
  refine ⟨?_, ?_, ⟨(c.interrupt e).regs.esp, ?_⟩, fun x hx => ?_⟩
  · rw [hregs', hint, ← hlen, UInt32.ofNat_add, ← sub_sub]
  · rw [hregs', hint]
  · have hwords : c.regs.frameBytes / 4 = 8 + (interruptWords c.regs).length := by omega
    have hupper : (c.start e).toNat - c.regs.frameBytes + 4 * 8 =
        (c.start e).toNat - 4 * (interruptWords c.regs).length := by omega
    have hkept : frame (c.enter e).mem ((c.start e).toNat - 4 * (interruptWords c.regs).length)
        (interruptWords c.regs).length = (interruptWords c.regs).reverse := by
      rw [← hframe]
      have hlt := (c.start e).toNat_lt
      refine frame_congr (by omega) fun x hx _ => ?_
      rw [hmem' x (by omega), hmem₁]
    rw [hwords, frame_add, hframe', hupper, hkept]
    cases huser : c.regs.user <;> simp [interruptWords, Registers.frame, huser]
  · rw [hmem' x (by omega), hmem₁, hmem x (by omega)]

theorem pushAll_regs (c : Processor) (vs : List UInt32) :
    (c.pushAll vs).regs = { c.regs with esp := (c.pushAll vs).regs.esp } := by
  induction vs generalizing c with
  | nil => rfl
  | cons v vs ih => exact ih (c.push v)

/-- The registers in which arguments are passed are as they were. -/
theorem enter_arguments (e : Entry) (c : Processor) :
    (c.enter e).regs.eax = c.regs.eax ∧ (c.enter e).regs.ebx = c.regs.ebx ∧
      (c.enter e).regs.ecx = c.regs.ecx ∧ (c.enter e).regs.edx = c.regs.edx := by
  rw [enter, pusha, pushAll_regs, interrupt_eq]
  dsimp only
  rw [pushAll_regs]
  simp

/-- The interrupted context is on the stack, if contexts of ring 0 have the stack segment that
    the entry loads. -/
theorem saved_enter {e : Entry} {c : Processor} (h : c.regs.frameBytes ≤ (c.start e).toNat) :
    Saved (c.enter e).mem (c.enter e).regs.ss (c.enter e).regs.esp c.regs := by
  obtain ⟨hesp, hss, hframe, -⟩ := enter_spec e c h
  constructor
  · rw [hesp, toNat_sub h]
    exact hframe
  · intro huser
    rw [hesp, hss, start, Registers.frameBytes, huser]
    exact ⟨(sub_add_cancel _ _).symm, rfl⟩

end Processor

end Ia32
