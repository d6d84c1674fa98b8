import NemoOS.ProcessMemory
import NemoOS.Scheduler
import NemoOS.Lib.InterruptFrames

/-!
# Contexts on kernel stacks

While a process is not running, its registers are in a frame on its kernel stack, and
`scheduler_tick` returns the address of that frame. `Held` says so of one process, `Loaded` of
all processes of the table but the one that runs, and `Suspended` of that one as well, between
the entry of an interrupt and the `popa; iret` that ends it.

`Suspended.schedulerTick` is the central step: a tick that is given the frame of the
interrupted process returns the frame of the process it switches to, and all contexts are
where they were. Frames are made by interrupts (`Running.enter`) and by the functions that
create processes (`buildUserFrame_spec`, `buildKernelFrame_spec`).
-/

namespace NemoOS

open Words Bytes Ia32

/-! ## Frames that are built -/

/-- The registers that `build_user_frame` describes. -/
def userStart (entry userEsp : Nat) : Registers where
  eax := 0
  ecx := 0
  edx := 0
  ebx := 0
  esp := UInt32.ofNat userEsp
  ebp := 0
  esi := 0
  edi := 0
  eip := UInt32.ofNat entry
  cs := 0x1B
  eflags := 0x202
  ss := 0x23

/-- The registers that `build_kernel_frame` describes: after `iret` the stack is empty. -/
def kernelStart (entry kernelStack : Nat) : Registers where
  eax := 0
  ecx := 0
  edx := 0
  ebx := 0
  esp := UInt32.ofNat kernelStack
  ebp := 0
  esi := 0
  edi := 0
  eip := UInt32.ofNat entry
  cs := 0x08
  eflags := 0x202
  ss := 0x10

@[simp] theorem userStart_user (entry userEsp : Nat) : (userStart entry userEsp).user = true := by
  simp [Registers.user, userStart]

@[simp] theorem kernelStart_user (entry kernelStack : Nat) :
    (kernelStart entry kernelStack).user = false := by
  simp [Registers.user, kernelStart]

/-- `push` of the C code is that of the processor. -/
theorem foldl_push_eq (c : Processor) (vs : List UInt32) :
    (vs.map UInt32.toNat).foldl push (c.regs.esp.toNat, c.mem) =
      ((c.pushAll vs).regs.esp.toNat, (c.pushAll vs).mem) := by
  induction vs generalizing c with
  | nil => rfl
  | cons v vs ih =>
      have hsub : sub32 c.regs.esp.toNat 4 = (c.regs.esp - 4).toNat := by
        have hlt := c.regs.esp.toNat_lt
        have hfour : (4 : UInt32).toNat = 4 := rfl
        rw [UInt32.toNat_sub, sub32, u32, hfour]
        omega
      have hpush : push (c.regs.esp.toNat, c.mem) v.toNat =
          ((c.push v).regs.esp.toNat, (c.push v).mem) := by
        simp only [push, hsub, Processor.push]
      rw [List.map_cons, List.foldl_cons, hpush, ih]
      rfl

theorem toNat_ofNat {n : Nat} (h : n < 2 ^ 32) : (UInt32.ofNat n).toNat = n := by
  rw [UInt32.toNat_ofNat', Nat.mod_eq_of_lt h]

/-- What pushing does to the memory. -/
theorem foldl_push_spec (mem : Memory) {sp : Nat} (hsp : sp < 2 ^ 32) (vs : List UInt32)
    (h : 4 * vs.length ≤ sp) :
    Ia32.frame ((vs.map UInt32.toNat).foldl push (sp, mem)).2 (sp - 4 * vs.length) vs.length =
        vs.reverse ∧
      ∀ x, x < sp - 4 * vs.length ∨ sp ≤ x →
        ((vs.map UInt32.toNat).foldl push (sp, mem)).2 x = mem x := by
  have hpush := foldl_push_eq ⟨kernelStart 0 sp, mem⟩ vs
  have hesp : (kernelStart 0 sp).esp.toNat = sp := toNat_ofNat hsp
  have hspec := Processor.pushAll_spec ⟨kernelStart 0 sp, mem⟩ vs (by rw [hesp]; exact h)
  simp only [hesp] at hpush hspec
  rw [hpush]
  exact hspec.2

/-- `build_user_frame` leaves a context that starts at the entry. -/
theorem buildUserFrame_spec (mem : Memory) {sp entry userEsp : Nat} (hsp : sp < 2 ^ 32)
    (hroom : 52 ≤ sp) (hentry : entry < 2 ^ 32) (huserEsp : userEsp < 2 ^ 32) :
    Processor.Saved (buildUserFrame mem sp entry userEsp).2 0x10 (UInt32.ofNat (sp - 52))
        (userStart entry userEsp) ∧
      ∀ x, x < sp - 52 ∨ sp ≤ x → (buildUserFrame mem sp entry userEsp).2 x = mem x := by
  have hbuild : buildUserFrame mem sp entry userEsp =
      ([0x23, UInt32.ofNat userEsp, 0x202, 0x1B, UInt32.ofNat entry, 0, 0, 0, 0, 0, 0, 0, 0].map
        UInt32.toNat).foldl push (sp, mem) := by
    simp only [buildUserFrame, List.map_cons, List.map_nil, toNat_ofNat hentry,
      toNat_ofNat huserEsp]
    rfl
  obtain ⟨hframe, hmem⟩ := foldl_push_spec mem hsp [0x23, UInt32.ofNat userEsp, 0x202, 0x1B,
    UInt32.ofNat entry, 0, 0, 0, 0, 0, 0, 0, 0] hroom
  rw [← hbuild] at hframe hmem
  refine ⟨⟨⟨0, ?_⟩, fun huser => ?_⟩, hmem⟩
  · rw [toNat_ofNat (by omega), Registers.frameBytes, Registers.frame, userStart_user]
    exact hframe
  · simp at huser

/-- `build_kernel_frame` leaves a context that starts at the entry, with an empty stack. -/
theorem buildKernelFrame_spec (mem : Memory) {sp entry : Nat} (hsp : sp < 2 ^ 32)
    (hroom : 44 ≤ sp) (hentry : entry < 2 ^ 32) :
    Processor.Saved (buildKernelFrame mem sp entry).2 0x10 (UInt32.ofNat (sp - 44))
        (kernelStart entry sp) ∧
      ∀ x, x < sp - 44 ∨ sp ≤ x → (buildKernelFrame mem sp entry).2 x = mem x := by
  have hbuild : buildKernelFrame mem sp entry =
      ([0x202, 0x08, UInt32.ofNat entry, 0, 0, 0, 0, 0, 0, 0, 0].map UInt32.toNat).foldl push
        (sp, mem) := by
    simp only [buildKernelFrame, List.map_cons, List.map_nil, toNat_ofNat hentry]
    rfl
  obtain ⟨hframe, hmem⟩ := foldl_push_spec mem hsp
    [0x202, 0x08, UInt32.ofNat entry, 0, 0, 0, 0, 0, 0, 0, 0] hroom
  rw [← hbuild] at hframe hmem
  refine ⟨⟨⟨0, ?_⟩, fun _ => ⟨?_, rfl⟩⟩, hmem⟩
  · rw [toNat_ofNat (by omega), Registers.frameBytes, Registers.frame, kernelStart_user]
    exact hframe
  · apply UInt32.toNat_inj.mp
    rw [UInt32.toNat_add, toNat_ofNat (by omega)]
    exact (toNat_ofNat hsp).trans (by simp; omega)

/-! ## Contexts of processes -/

/-- The stack of a process: two pages below `kernel_stack`, none of them the first one. -/
structure HasStack (proc : Process) : Prop where
  bottom_pos : 0 < proc.kernelStackBottom
  top_eq : proc.kernelStack = proc.kernelStackBottom + KERNEL_STACK_BYTES
  top_lt : proc.kernelStack < 2 ^ 32

/-- The context is in a frame at `esp` on the stack of the process. For a context of ring 3
    the frame is at the top of the stack; for one of ring 0 the stack above the frame is the
    stack of the context, with the bytes of `stack`. -/
structure Held (mem : Memory) (proc : Process) (esp : Nat) (r : Registers) (stack : Memory) :
    Prop where
  saved : Processor.Saved mem 0x10 (UInt32.ofNat esp) r
  low : proc.kernelStackBottom ≤ esp
  high : esp + r.frameBytes ≤ proc.kernelStack
  user : r.user = true → esp + r.frameBytes = proc.kernelStack
  kernel : r.user = false → ∀ x, r.esp.toNat ≤ x → x < proc.kernelStack → mem x = stack x

section SaveProc

variable (esp : Nat) (proc : Process)

@[simp] theorem saveProc_kernelStack :
    (ProcessSystem.saveProc esp proc).kernelStack = proc.kernelStack := by
  unfold ProcessSystem.saveProc; split <;> rfl

@[simp] theorem saveProc_kernelStackBottom :
    (ProcessSystem.saveProc esp proc).kernelStackBottom = proc.kernelStackBottom := by
  unfold ProcessSystem.saveProc; split <;> rfl

@[simp] theorem saveProc_ring : (ProcessSystem.saveProc esp proc).ring = proc.ring := by
  unfold ProcessSystem.saveProc; split <;> rfl

end SaveProc

namespace Held

variable {mem mem' : Memory} {proc : Process} {esp : Nat} {r : Registers} {stack : Memory}

theorem toNat_esp (h : Held mem proc esp r stack) (hproc : HasStack proc) :
    (UInt32.ofNat esp).toNat = esp := by
  have hhigh := h.high
  have hlt := hproc.top_lt
  exact toNat_ofNat (by omega)

theorem toNat_kernel_esp (h : Held mem proc esp r stack) (hproc : HasStack proc)
    (hkernel : r.user = false) : r.esp.toNat = esp + 44 := by
  have hhigh := h.high
  have hlt := hproc.top_lt
  rw [Registers.frameBytes, hkernel] at hhigh
  rw [(h.saved.kernel hkernel).1, UInt32.toNat_add, h.toNat_esp hproc]
  exact Nat.mod_eq_of_lt (by simp at hhigh ⊢; omega)

theorem congr_mem (h : Held mem proc esp r stack) (hproc : HasStack proc)
    (hmem : ∀ x, esp ≤ x → x < proc.kernelStack → mem' x = mem x) :
    Held mem' proc esp r stack where
  saved := by
    have hhigh := h.high
    have hlt := hproc.top_lt
    have hesp := h.toNat_esp hproc
    exact h.saved.congr (by omega) fun x hx hx' => hmem x (by omega) (by omega)
  low := h.low
  high := h.high
  user := h.user
  kernel := by
    intro hkernel x hx hx'
    have hesp := h.toNat_kernel_esp hproc hkernel
    rw [hmem x (by omega) hx', h.kernel hkernel x hx hx']

theorem congr_proc (h : Held mem proc esp r stack) {proc' : Process}
    (hbottom : proc'.kernelStackBottom = proc.kernelStackBottom)
    (htop : proc'.kernelStack = proc.kernelStack) : Held mem proc' esp r stack where
  saved := h.saved
  low := hbottom ▸ h.low
  high := htop ▸ h.high
  user := htop ▸ h.user
  kernel := htop ▸ h.kernel

/-- The result of a system call is stored in the frame. -/
theorem set_eax (h : Held mem proc esp r stack) (hproc : HasStack proc) (v : UInt32) :
    Held (write32 mem (esp + 28) v.toNat) proc esp { r with eax := v } stack where
  saved := by
    have hhigh := h.high
    have hlt := hproc.top_lt
    have hesp := h.toNat_esp hproc
    have hset := h.saved.set_eax (by omega) v
    rwa [hesp] at hset
  low := h.low
  high := h.high
  user := h.user
  kernel := by
    intro hkernel x hx hx'
    have hesp := h.toNat_kernel_esp hproc hkernel
    have hlt := hproc.top_lt
    have hx'' : r.esp.toNat ≤ x := hx
    rw [write32_of_outside (by omega) (by omega)]
    exact h.kernel hkernel x hx hx'

end Held

/-! ## Contexts of the table -/

/-- The kernel stacks have the bytes that they had, but for the part below `esp` of the
    stack of the process that is out. -/
def KeepsStacks (s : ProcessSystem) (out : Option Nat) (esp : Nat) (mem mem' : Memory) : Prop :=
  ∀ q ∈ s.processTable, ∀ x, (s.procs q).kernelStackBottom ≤ x → x < (s.procs q).kernelStack →
    (out = some q → esp ≤ x) → mem' x = mem x

/-- Each process has a stack of its own, and the contexts of the processes that can run again
    are on them, but for the process that is out: it is running, or it was interrupted and the
    scheduler has not seen it yet. -/
structure Loaded (s : ProcessSystem) (mem : Memory) (regs : Nat → Registers)
    (stack : Nat → Memory) (out : Option Nat) : Prop where
  hasStack : ∀ q ∈ s.processTable, HasStack (s.procs q)
  apart : ∀ p ∈ s.processTable, ∀ q ∈ s.processTable, p ≠ q →
    (s.procs p).kernelStack ≤ (s.procs q).kernelStackBottom ∨
      (s.procs q).kernelStack ≤ (s.procs p).kernelStackBottom
  ring : ∀ q ∈ s.processTable, (regs q).user = decide ((s.procs q).ring = .user)
  held : ∀ q ∈ s.processTable, out ≠ some q → (s.procs q).state ≠ .dead →
    Held mem (s.procs q) (ProcessSystem.resumeEsp (s.procs q)) (regs q) (stack q)

/-- The control block has the stack and the ring of the other one. -/
structure SameStack (proc proc' : Process) : Prop where
  bottom_eq : proc'.kernelStackBottom = proc.kernelStackBottom
  top_eq : proc'.kernelStack = proc.kernelStack
  ring_eq : proc'.ring = proc.ring

/-- The process is current, and interrupts in ring 3 use its stack. -/
structure IsCurrent (s : ProcessSystem) (c : Nat) : Prop where
  current : s.schedulerCurrentProcess = some c
  not_free : (s.procs c).state ≠ .free
  esp0 : s.tssEsp0 = (s.procs c).kernelStack

theorem IsCurrent.mem {s : ProcessSystem} {c : Nat} (h : IsCurrent s c) : c ∈ s.processTable :=
  ProcessSystem.schedulerCurrentProcess_mem h.current

/-- The current process runs with the given registers. -/
structure Running (s : ProcessSystem) (mem : Memory) (regs : Nat → Registers)
    (stack : Nat → Memory) (c : Nat) (r : Registers) : Prop where
  loaded : Loaded s mem regs stack (some c)
  isCurrent : IsCurrent s c
  regs_eq : r = regs c
  kernel : r.user = false → r.ss = 0x10 ∧ (s.procs c).kernelStackBottom + 44 ≤ r.esp.toNat ∧
    r.esp.toNat ≤ (s.procs c).kernelStack
  stack_eq : r.user = false → ∀ x, r.esp.toNat ≤ x → x < (s.procs c).kernelStack →
    mem x = stack c x

/-- The current process is interrupted, with its frame at `esp`. -/
structure Suspended (s : ProcessSystem) (mem : Memory) (regs : Nat → Registers)
    (stack : Nat → Memory) (c esp : Nat) : Prop where
  loaded : Loaded s mem regs stack (some c)
  isCurrent : IsCurrent s c
  interrupted : Held mem (s.procs c) esp (regs c) (stack c)

section

variable {s : ProcessSystem} {mem mem' : Memory} {regs : Nat → Registers} {stack : Nat → Memory}

theorem Loaded.congr_mem {out : Option Nat} {esp : Nat} (h : Loaded s mem regs stack out)
    (hkeep : KeepsStacks s out esp mem mem') : Loaded s mem' regs stack out where
  hasStack := h.hasStack
  apart := h.apart
  ring := h.ring
  held := by
    intro q hq hout halive
    have hheld := h.held q hq hout halive
    refine hheld.congr_mem (h.hasStack q hq) fun x hx hx' => ?_
    exact hkeep q hq x (Nat.le_trans hheld.low hx) hx' fun heq => absurd heq hout

/-- Writing to a part of one stack. -/
theorem Loaded.keepsStacks {out : Option Nat} (h : Loaded s mem regs stack out) {c low high : Nat}
    (hc : c ∈ s.processTable) (hlow : (s.procs c).kernelStackBottom ≤ low)
    (hhigh : high ≤ (s.procs c).kernelStack)
    (hmem : ∀ x, x < low ∨ high ≤ x → mem' x = mem x) : KeepsStacks s (some c) high mem mem' := by
  intro q hq x hx hx' hout
  apply hmem
  by_cases hqc : q = c
  · exact .inr (hout (by rw [hqc]))
  · rcases h.apart q hq c hc hqc with hapart | hapart
    · left
      omega
    · right
      omega

/-- The process that is out has no context on its stack that could be wrong. -/
theorem Loaded.update {c : Nat} (h : Loaded s mem regs stack (some c)) {r : Registers}
    (hr : r.user = (regs c).user) (bytes : Memory) :
    Loaded s mem (Function.update regs c r) (Function.update stack c bytes) (some c) where
  hasStack := h.hasStack
  apart := h.apart
  ring := by
    intro q hq
    by_cases hqc : q = c
    · subst hqc
      rw [Function.update_self, hr, h.ring q hq]
    · rw [Function.update_of_ne hqc, h.ring q hq]
  held := by
    intro q hq hout halive
    have hqc : q ≠ c := fun hqc => hout (by rw [hqc])
    rw [Function.update_of_ne hqc, Function.update_of_ne hqc]
    exact h.held q hq hout halive

/-- Another table with the same stacks, and contexts that are on them. -/
theorem Loaded.congr_procs {t : ProcessSystem} {regs' : Nat → Registers} {out out' : Option Nat}
    (h : Loaded s mem regs stack out) (htable : ∀ q ∈ t.processTable, q ∈ s.processTable)
    (hprocs : ∀ q, SameStack (s.procs q) (t.procs q))
    (hregs : ∀ q ∈ s.processTable, (regs' q).user = (regs q).user)
    (hheld : ∀ q ∈ t.processTable, out' ≠ some q → (t.procs q).state ≠ .dead →
      Held mem' (t.procs q) (ProcessSystem.resumeEsp (t.procs q)) (regs' q) (stack q)) :
    Loaded t mem' regs' stack out' where
  hasStack := by
    intro q hq
    obtain ⟨hbottom, htop, -⟩ := hprocs q
    obtain ⟨hpos, heq, hlt⟩ := h.hasStack q (htable q hq)
    exact ⟨by rwa [hbottom], by rwa [hbottom, htop], by rwa [htop]⟩
  apart := by
    intro p hp q hq hne
    rw [(hprocs p).top_eq, (hprocs p).bottom_eq, (hprocs q).top_eq, (hprocs q).bottom_eq]
    exact h.apart p (htable p hp) q (htable q hq) hne
  ring := by
    intro q hq
    rw [(hprocs q).ring_eq, hregs q (htable q hq)]
    exact h.ring q (htable q hq)
  held := hheld

theorem Suspended.congr_mem {c esp : Nat} (h : Suspended s mem regs stack c esp)
    (hkeep : KeepsStacks s (some c) esp mem mem') : Suspended s mem' regs stack c esp where
  loaded := h.loaded.congr_mem hkeep
  isCurrent := h.isCurrent
  interrupted := by
    refine h.interrupted.congr_mem (h.loaded.hasStack c h.isCurrent.mem) fun x hx hx' => ?_
    exact hkeep c h.isCurrent.mem x (Nat.le_trans h.interrupted.low hx) hx' fun _ => hx

/-- The result of a system call is stored in the frame of the caller. -/
theorem Suspended.set_eax {c esp : Nat} (h : Suspended s mem regs stack c esp) (v : UInt32) :
    Suspended s (write32 mem (esp + 28) v.toNat)
      (Function.update regs c { regs c with eax := v }) stack c esp := by
  have hc := h.isCurrent.mem
  have hheld := h.interrupted
  have hlt := (h.loaded.hasStack c hc).top_lt
  have hlow := hheld.low
  have hhigh := hheld.high
  have hbytes : 44 ≤ (regs c).frameBytes := by
    rw [Registers.frameBytes]
    split <;> omega
  have hkeep : KeepsStacks s (some c) (esp + 32) mem (write32 mem (esp + 28) v.toNat) :=
    h.loaded.keepsStacks hc hlow (by omega) fun x hx => write32_of_outside (by omega) (by omega)
  refine ⟨?_, h.isCurrent, ?_⟩
  · have hupdate := (h.loaded.congr_mem hkeep).update (r := { regs c with eax := v }) rfl (stack c)
    rwa [Function.update_eq_self] at hupdate
  · rw [Function.update_self]
    exact hheld.set_eax (h.loaded.hasStack c hc) v

/-- `popa; iret` from the frame. -/
theorem Suspended.resume {c esp : Nat} (h : Suspended s mem regs stack c esp) {r : Registers}
    (hss : r.ss = 0x10) :
    Running s mem regs stack c
      (Processor.resume ⟨{ r with esp := UInt32.ofNat esp }, mem⟩).regs := by
  have hproc := h.loaded.hasStack c h.isCurrent.mem
  have hregs : (Processor.resume ⟨{ r with esp := UInt32.ofNat esp }, mem⟩).regs = regs c :=
    Processor.resume_of_saved (by simpa only [hss] using h.interrupted.saved)
  rw [hregs]
  refine ⟨h.loaded, h.isCurrent, rfl, fun hkernel => ?_, h.interrupted.kernel⟩
  have hesp := h.interrupted.toNat_kernel_esp hproc hkernel
  have hlow := h.interrupted.low
  have hhigh := h.interrupted.high
  rw [Registers.frameBytes, hkernel] at hhigh
  exact ⟨(h.interrupted.saved.kernel hkernel).2, by omega, by simp at hhigh; omega⟩

/-- An interrupt leaves the context of the current process on its stack. -/
theorem Running.enter {c : Nat} {r : Registers} (h : Running s mem regs stack c r)
    {e : Processor.Entry} (hss : e.ss0 = 0x10) (hesp0 : e.esp0 = UInt32.ofNat s.tssEsp0) :
    Suspended s (Processor.enter e ⟨r, mem⟩).mem regs stack c
        (Processor.enter e ⟨r, mem⟩).regs.esp.toNat ∧
      (Processor.enter e ⟨r, mem⟩).regs.ss = 0x10 := by
  have hproc := h.loaded.hasStack c h.isCurrent.mem
  have hpos := hproc.bottom_pos
  have htop := hproc.top_eq
  have hlt := hproc.top_lt
  -- where the interrupt begins to push, in either ring
  have hstart : (s.procs c).kernelStackBottom + r.frameBytes ≤ (Processor.start e ⟨r, mem⟩).toNat ∧
      (Processor.start e ⟨r, mem⟩).toNat ≤ (s.procs c).kernelStack ∧
      (r.user = true → (Processor.start e ⟨r, mem⟩).toNat = (s.procs c).kernelStack) ∧
      (r.user = false → (Processor.start e ⟨r, mem⟩).toNat = r.esp.toNat) := by
    cases huser : r.user with
    | true =>
        have hesp : (Processor.start e ⟨r, mem⟩).toNat = (s.procs c).kernelStack := by
          rw [Processor.start, if_pos huser, hesp0, h.isCurrent.esp0, toNat_ofNat hlt]
        rw [hesp, Registers.frameBytes, if_pos huser, htop, KERNEL_STACK_BYTES]
        simp
    | false =>
        obtain ⟨-, hlow, hhigh⟩ := h.kernel huser
        have hesp : (Processor.start e ⟨r, mem⟩).toNat = r.esp.toNat := by
          simp [Processor.start, huser]
        rw [hesp, Registers.frameBytes, huser]
        exact ⟨hlow, hhigh, by simp, by simp⟩
  obtain ⟨hlow, hhigh, huser, hkernel⟩ := hstart
  have hroom : r.frameBytes ≤ (Processor.start e ⟨r, mem⟩).toNat := by omega
  have hsaved := Processor.saved_enter (e := e) (c := ⟨r, mem⟩) hroom
  obtain ⟨hesp, hss', -, hmem⟩ := Processor.enter_spec e ⟨r, mem⟩ hroom
  dsimp only at hesp hss' hmem
  have hespNat := congrArg UInt32.toNat hesp
  rw [Processor.toNat_sub hroom] at hespNat
  have hss₁ : (Processor.enter e ⟨r, mem⟩).regs.ss = 0x10 := by
    cases hring : r.user with
    | true => simp [hss', hring, hss]
    | false => simp [hss', hring, (h.kernel hring).1]
  -- only bytes of the stack of `c` are written
  have hkeep : KeepsStacks s (some c) (Processor.start e ⟨r, mem⟩).toNat mem
      (Processor.enter e ⟨r, mem⟩).mem :=
    h.loaded.keepsStacks h.isCurrent.mem (by omega) hhigh hmem
  refine ⟨⟨h.loaded.congr_mem hkeep, h.isCurrent, ?_, ?_, ?_, ?_, ?_⟩, hss₁⟩
  · rw [UInt32.ofNat_toNat, ← h.regs_eq, ← hss₁]
    exact hsaved
  · rw [hespNat]
    omega
  · rw [hespNat, ← h.regs_eq]
    omega
  · intro hring
    rw [← h.regs_eq] at hring ⊢
    rw [hespNat, ← huser hring]
    omega
  · intro hring x hx hx'
    rw [← h.regs_eq] at hring hx
    rw [hmem x (.inr (by rw [hkernel hring]; exact hx))]
    exact h.stack_eq hring x hx hx'

/-- A process that is not current after the tick has the context that it had before it. -/
theorem Suspended.held_saveContext {c esp : Nat} (h : Suspended s mem regs stack c esp)
    (hready : (s.procs c).state ≠ .ready) {q : Nat} (hq : q ∈ s.processTable)
    (halive : (s.procs q).state ≠ .dead) :
    Held mem ((s.saveContext esp).procs q)
      (ProcessSystem.resumeEsp ((s.saveContext esp).procs q)) (regs q) (stack q) := by
  rw [ProcessSystem.saveContext_procs, h.isCurrent.current]
  by_cases hqc : q = c
  · subst hqc
    have hpos := (h.loaded.hasStack q hq).bottom_pos
    have hlow := h.interrupted.low
    have hstate : (s.procs q).state = .running ∨ (s.procs q).state = .blocked := by
      have hfree := h.isCurrent.not_free
      cases hstate : (s.procs q).state <;> simp_all
    have hesp : ProcessSystem.resumeEsp (ProcessSystem.saveProc esp (s.procs q)) = esp := by
      rw [ProcessSystem.resumeEsp, ProcessSystem.saveProc_savedEsp _ _ hstate, if_pos (by omega)]
    rw [if_pos rfl, hesp]
    exact h.interrupted.congr_proc (by simp) (by simp)
  · have hne : some c ≠ some q := fun heq => hqc (Option.some.inj heq).symm
    rw [if_neg hne]
    exact h.loaded.held q hq hne halive

/-- **Every context survives a tick.** The tick is given the frame of the interrupted process
    and returns the frame of the process that runs next. -/
theorem Suspended.schedulerTick {c esp : Nat} (h : Suspended s mem regs stack c esp)
    (hready : (s.procs c).state ≠ .ready) :
    ∃ c', Suspended (s.schedulerTick esp).2 mem regs stack c' (s.schedulerTick esp).1 := by
  have hsame : ∀ q, SameStack (s.procs q) ((s.saveContext esp).procs q) := by
    intro q
    rw [ProcessSystem.saveContext_procs]
    split
    · exact ⟨by simp, by simp, by simp⟩
    · exact ⟨rfl, rfl, rfl⟩
  have halive : ∀ q, ((s.saveContext esp).procs q).state ≠ .dead → (s.procs q).state ≠ .dead := by
    intro q hq hdead
    apply hq
    rw [ProcessSystem.saveContext_procs]
    split
    · simp [ProcessSystem.saveProc_state, hdead]
    · exact hdead
  have hc := h.isCurrent.current
  rcases s.schedulerTick_cases esp with ⟨idx, next, -, hget, hrun, heq⟩ | ⟨-, heq, -⟩
  · have hnext := ProcessSystem.processGet_mem hget
    have hself : (s.switchedTo esp idx next).procs next =
        { (s.saveContext esp).procs next with state := .running } := by
      simp [ProcessSystem.switchedTo]
    have hother : ∀ q, q ≠ next →
        (s.switchedTo esp idx next).procs q = (s.saveContext esp).procs q :=
      fun q hq => ProcessSystem.setState_procs_of_ne _ _ _ hq
    have hstack := (h.loaded.hasStack next hnext)
    have htop : ((s.saveContext esp).procs next).kernelStack ≠ 0 := by
      have hpos := hstack.bottom_pos
      have htop := hstack.top_eq
      rw [(hsame next).top_eq]
      omega
    rw [heq]
    refine ⟨next, ?_, ⟨ProcessSystem.switchedTo_current hget esp, by rw [hself]; simp, ?_⟩, ?_⟩
    · refine h.loaded.congr_procs (fun q hq => by simpa [ProcessSystem.switchedTo] using hq)
        (fun q => ?_) (fun _ _ => rfl) fun q hq hne hq' => ?_
      · by_cases hq : q = next
        · subst hq
          rw [hself]
          exact ⟨(hsame q).bottom_eq, (hsame q).top_eq, (hsame q).ring_eq⟩
        · rw [hother q hq]
          exact hsame q
      · have hqn : q ≠ next := fun hqn => hne (by rw [hqn])
        rw [hother q hqn] at hq' ⊢
        exact h.held_saveContext hready (by simpa [ProcessSystem.switchedTo] using hq)
          (halive q hq')
    · rw [hself]
      simp [ProcessSystem.switchedTo, ProcessSystem.processSwitch, ProcessSystem.setState,
        ProcessSystem.modify, htop]
    · rw [hself]
      exact (h.held_saveContext hready hnext hrun.1).congr_proc rfl rfl
  · rw [heq]
    refine ⟨c, ?_, ⟨?_, ?_, ?_⟩, ?_⟩
    · refine h.loaded.congr_procs (fun q hq => by simpa using hq) hsame (fun _ _ => rfl) ?_
      intro q hq _ hq'
      exact h.held_saveContext hready (by simpa using hq) (halive q hq')
    · exact (ProcessSystem.schedulerCurrentProcess_congr (by simp) (by simp)).trans hc
    · rw [ProcessSystem.saveContext_procs, if_pos hc, ProcessSystem.saveProc_state]
      split
      · simp
      · exact h.isCurrent.not_free
    · rw [(hsame c).top_eq, ← h.isCurrent.esp0, ProcessSystem.saveContext, hc]
      rfl
    · exact h.interrupted.congr_proc (hsame c).bottom_eq (hsame c).top_eq

/-- The context of the process that runs is not touched by what happens to others. -/
theorem Running.congr {t : ProcessSystem} {regs' : Nat → Registers} {c : Nat} {r : Registers}
    (h : Running s mem regs stack c r) (hloaded : Loaded t mem' regs' stack (some c))
    (hcurrent : IsCurrent t c) (hsame : SameStack (s.procs c) (t.procs c))
    (hregs : regs' c = regs c)
    (hmem : ∀ x, r.esp.toNat ≤ x → (s.procs c).kernelStackBottom ≤ x →
      x < (s.procs c).kernelStack → mem' x = mem x) : Running t mem' regs' stack c r where
  loaded := hloaded
  isCurrent := hcurrent
  regs_eq := by rw [h.regs_eq, hregs]
  kernel := by
    rw [hsame.bottom_eq, hsame.top_eq]
    exact h.kernel
  stack_eq := by
    intro hkernel x hx hx'
    rw [hsame.top_eq] at hx'
    obtain ⟨-, hlow, -⟩ := h.kernel hkernel
    rw [hmem x hx (by omega) hx']
    exact h.stack_eq hkernel x hx hx'

/-! ## Calls -/

/-- What a call of the current process leaves as it was. It may change states and queues and
    remove processes from the table. -/
structure KeepsContexts (s t : ProcessSystem) (c : Nat) : Prop where
  table : ∀ q ∈ t.processTable, q ∈ s.processTable
  current : t.schedulerCurrentProcess = some c
  esp0 : t.tssEsp0 = s.tssEsp0
  sameStack : ∀ q, SameStack (s.procs q) (t.procs q)
  resumeEsp_eq : ∀ q, ProcessSystem.resumeEsp (t.procs q) = ProcessSystem.resumeEsp (s.procs q)
  dead : ∀ q, q ≠ c → (s.procs q).state = .dead → (t.procs q).state = .dead
  not_free : (s.procs c).state ≠ .free → (t.procs c).state ≠ .free

namespace KeepsContexts

variable {t : ProcessSystem} {c : Nat}

theorem refl (hc : s.schedulerCurrentProcess = some c) : KeepsContexts s s c :=
  ⟨fun _ => id, hc, rfl, fun _ => ⟨rfl, rfl, rfl⟩, fun _ => rfl, fun _ _ => id, id⟩

/-- A store through a `Process*` that does not touch the stack. -/
theorem modify (hc : s.schedulerCurrentProcess = some c) {p : Nat} {f : Process → Process}
    (hstack : SameStack (s.procs p) (f (s.procs p)))
    (hesp : ProcessSystem.resumeEsp (f (s.procs p)) = ProcessSystem.resumeEsp (s.procs p))
    (hdead : p ≠ c → (s.procs p).state = .dead → (f (s.procs p)).state = .dead)
    (hfree : (s.procs p).state ≠ .free → (f (s.procs p)).state ≠ .free) :
    KeepsContexts s (s.modify p f) c := by
  have hother : ∀ q, q ≠ p → (s.modify p f).procs q = s.procs q :=
    fun q hq => ProcessSystem.modify_procs_of_ne s p f hq
  refine ⟨fun _ => id, hc, rfl, fun q => ?_, fun q => ?_, fun q hq => ?_, ?_⟩
  · by_cases hqp : q = p
    · subst hqp
      simpa using hstack
    · rw [hother q hqp]
      exact ⟨rfl, rfl, rfl⟩
  · by_cases hqp : q = p
    · subst hqp
      simpa using hesp
    · rw [hother q hqp]
  · by_cases hqp : q = p
    · subst hqp
      simpa using hdead hq
    · rw [hother q hqp]
      exact id
  · by_cases hcp : c = p
    · subst hcp
      simpa using hfree
    · rw [hother c hcp]
      exact id

theorem setState (hc : s.schedulerCurrentProcess = some c) {p : Nat} {state : TaskState}
    (hdead : p ≠ c → state = .dead) (hfree : state ≠ .free) :
    KeepsContexts s (s.setState p state) c :=
  modify hc ⟨rfl, rfl, rfl⟩ rfl (fun hp _ => hdead hp) fun _ => hfree

theorem isCurrent (h : KeepsContexts s t c) (hc : IsCurrent s c) : IsCurrent t c where
  current := h.current
  not_free := h.not_free hc.not_free
  esp0 := by rw [h.esp0, hc.esp0, (h.sameStack c).top_eq]

theorem loaded (h : KeepsContexts s t c) (hs : Loaded s mem regs stack (some c)) :
    Loaded t mem regs stack (some c) := by
  refine hs.congr_procs h.table h.sameStack (fun _ _ => rfl) fun q hq hne halive => ?_
  have hqc : q ≠ c := fun heq => hne (by rw [heq])
  rw [h.resumeEsp_eq]
  exact (hs.held q (h.table q hq) hne fun hdead => halive (h.dead q hqc hdead)).congr_proc
    (h.sameStack q).bottom_eq (h.sameStack q).top_eq

theorem suspended (h : KeepsContexts s t c) {esp : Nat} (hs : Suspended s mem regs stack c esp) :
    Suspended t mem regs stack c esp where
  loaded := h.loaded hs.loaded
  isCurrent := h.isCurrent hs.isCurrent
  interrupted := hs.interrupted.congr_proc (h.sameStack c).bottom_eq (h.sameStack c).top_eq

theorem running (h : KeepsContexts s t c) {r : Registers} (hs : Running s mem regs stack c r) :
    Running t mem regs stack c r :=
  hs.congr (h.loaded hs.loaded) (h.isCurrent hs.isCurrent) (h.sameStack c) rfl fun _ _ _ _ => rfl

end KeepsContexts

end

end NemoOS
