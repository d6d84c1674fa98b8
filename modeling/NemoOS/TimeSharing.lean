import NemoOS.ContextErasure
import NemoOS.ContextCreation
import NemoOS.KeyboardBuffer
import NemoOS.Keyboard

/-!
# Time sharing is transparent

One processor is shared by all processes. The timer interrupt and every system call end in
`scheduler_tick`, after which `popa; iret` may go on with another process (`interrupts/isr_stub.s`,
`interrupts/syscall_stub.s`).

`TimeShared` is the machine with its memory and the stubs instruction by instruction. C
functions that the stubs call may write everywhere but to the kernel stacks; of the stack they
run on they may use what is below the stack pointer. `Virtual` is a machine in which every
process has a processor of its own: there are no frames, interrupts change no registers, and
a system call changes `eax` of its caller only.

`timeSharing_transparent`: whatever happens in whatever order, the process that runs has the
registers it has on the processor of its own, and so has the stack of a kernel process its
bytes.

Data segment registers are not part of it; neither the stubs nor `iret` to ring 0 load them.
-/

namespace NemoOS

open Words Bytes Ia32 Transition

namespace Kernel

/-- `irq_handler`, without the counter of `sleep_tick`. -/
def irqHandler (k : Kernel) : Kernel := { k with timerTicks := u32 (k.timerTicks + 1) }

/-- `keyboard_irq_handler`. -/
def keyboardIrqHandler (k : Kernel) (modifiers : Modifiers) (scancode : UInt8) :
    Kernel × Modifiers :=
  let (c, modifiers) := keyboardScancodeToAscii modifiers scancode
  (if c ≠ 0 then { k with keyboard := keyboardBufferPush k.keyboard c } else k, modifiers)

def setSys (k : Kernel) (sys : ProcessSystem) : Kernel := { k with sys := sys }

end Kernel

/-! ## The machine -/

/-- What can happen. `run` is what the current process does by itself, `call` and the
    events after `int80` are calls of kernel code by a process of ring 0 or by `kernel_main`. -/
inductive CpuEvent where
  | run (r : Registers) (mem : Memory)
  | irq0
  | irq1 (scancode : UInt8)
  | int80 (view : Nat → UInt8)
  | call (op : Op)
  | attachQueue (p : Nat) (msgs : Nat → IpcMsg)
  | processCreate (p space kstack entry userEsp : Nat)
  | processCreateKernel (p space kstack entry : Nat)
  | processSetEntry (p entry userEsp : Nat)
  | processFirstEnter (p : Nat)

/-- The addresses of the stubs. -/
structure Stubs where
  irq0 : UInt32
  irq1 : UInt32
  syscallStub : UInt32

structure TimeShared where
  kernel : Kernel
  modifiers : Modifiers
  cpu : Processor

namespace TimeShared

def current (x : TimeShared) : Option Nat := x.kernel.sys.schedulerCurrentProcess

/-- The gates have the code segment of the kernel, and the task state segment has its stack
    segment. -/
def gate (x : TimeShared) (stub : UInt32) : Processor.Entry :=
  ⟨0x08, stub, 0x10, UInt32.ofNat x.kernel.sys.tssEsp0⟩

/-- An interrupt and the `pusha` of the stub. -/
def entered (x : TimeShared) (stub : UInt32) : TimeShared :=
  { x with cpu := x.cpu.enter (x.gate stub) }

/-- `popa; iret`, with the stack pointer at `esp`. -/
def ret (x : TimeShared) (esp : Nat) (mem : Memory) : TimeShared :=
  { x with cpu := Processor.resume ⟨{ x.cpu.regs with esp := UInt32.ofNat esp }, mem⟩ }

/-- The end of `irq0` and `syscall_stub`: `scheduler_tick` is given the stack pointer, and what
    it returns is loaded. `mem` is the memory after the calls. -/
def tickAndReturn (x : TimeShared) (mem : Memory) : TimeShared :=
  let (esp, sys) := x.kernel.sys.schedulerTick x.cpu.regs.esp.toNat
  ret { x with kernel := x.kernel.setSys sys } esp mem

def irq0 (x : TimeShared) (stub : UInt32) (mem : Memory) : TimeShared :=
  let x := x.entered stub
  tickAndReturn { x with kernel := x.kernel.irqHandler } mem

def irq1 (x : TimeShared) (stub : UInt32) (scancode : UInt8) (mem : Memory) : TimeShared :=
  let x := x.entered stub
  let (kernel, modifiers) := x.kernel.keyboardIrqHandler x.modifiers scancode
  ret { x with kernel := kernel, modifiers := modifiers } x.cpu.regs.esp.toNat mem

/-- The call of `syscall_dispatch` with the registers that `syscall_stub` pushes. -/
def dispatch (x : TimeShared) (view : Nat → UInt8) : SyscallResult × Kernel :=
  x.kernel.syscallDispatch view x.cpu.regs.eax.toNat x.cpu.regs.ebx.toNat x.cpu.regs.ecx.toNat
    x.cpu.regs.edx.toNat

/-- After `syscall_dispatch`, which has left `mem`, and `mov %eax, 28(%esp)`. -/
def dispatched (x : TimeShared) (stub : UInt32) (view : Nat → UInt8) (mem : Memory) : TimeShared :=
  let x := x.entered stub
  let (r, kernel) := x.dispatch view
  { x with
    kernel := kernel
    cpu := ⟨x.cpu.regs, write32 mem (x.cpu.regs.esp.toNat + 28) (UInt32.ofNat r.ret).toNat⟩ }

/-- A C function that is called now may leave this memory. -/
def CallKeeps (x : TimeShared) (mem : Memory) : Prop :=
  KeepsStacks x.kernel.sys x.current x.cpu.regs.esp.toNat x.cpu.mem mem

def setMem (x : TimeShared) (mem : Memory) : TimeShared := { x with cpu := ⟨x.cpu.regs, mem⟩ }

def setSys (x : TimeShared) (sys : ProcessSystem) : TimeShared :=
  { x with kernel := x.kernel.setSys sys }

inductive Step (stubs : Stubs) (x : TimeShared) : CpuEvent → TimeShared → Prop where
  | run (r : Registers) (mem : Memory) : Step stubs x (.run r mem) { x with cpu := ⟨r, mem⟩ }
  | irq0 {mem : Memory} : (x.entered stubs.irq0).CallKeeps mem →
      Step stubs x .irq0 (x.irq0 stubs.irq0 mem)
  | irq1 (scancode : UInt8) {mem : Memory} : (x.entered stubs.irq1).CallKeeps mem →
      Step stubs x (.irq1 scancode) (x.irq1 stubs.irq1 scancode mem)
  | int80 {mem₁ mem₂ : Memory} {view : Nat → UInt8} :
      view = viewOf (x.entered stubs.syscallStub).cpu.mem x.kernel.sys.cr3 →
      (x.entered stubs.syscallStub).CallKeeps mem₁ →
      (x.dispatched stubs.syscallStub view mem₁).CallKeeps mem₂ →
      Step stubs x (.int80 view) ((x.dispatched stubs.syscallStub view mem₁).tickAndReturn mem₂)
  | call {op : Op} {mem : Memory} : op.isCall = true → x.CallKeeps mem →
      Step stubs x (.call op) ((x.setSys (x.kernel.sys.exec op)).setMem mem)
  | attachQueue (p : Nat) (msgs : Nat → IpcMsg) {mem : Memory} : x.CallKeeps mem →
      Step stubs x (.attachQueue p msgs) ((x.setSys (x.kernel.sys.attachQueue p msgs)).setMem mem)
  | processCreate {p space kstack entry userEsp : Nat} {mem : Memory} {sys : ProcessSystem} :
      x.CallKeeps mem → x.kernel.sys.processCreate p space kstack entry userEsp = some sys →
      Step stubs x (.processCreate p space kstack entry userEsp)
        ((x.setSys sys).setMem (buildUserFrame (fill mem kstack 0 KERNEL_STACK_BYTES)
          (u32 (kstack + KERNEL_STACK_BYTES)) entry userEsp).2)
  | processCreateKernel {p space kstack entry : Nat} {mem : Memory} {sys : ProcessSystem} :
      x.CallKeeps mem → x.kernel.sys.processCreateKernel p space kstack = some sys →
      Step stubs x (.processCreateKernel p space kstack entry)
        ((x.setSys sys).setMem (buildKernelFrame (fill mem kstack 0 KERNEL_STACK_BYTES)
          (u32 (kstack + KERNEL_STACK_BYTES)) entry).2)
  | processSetEntry {p entry userEsp : Nat} {mem : Memory} : x.CallKeeps mem →
      Step stubs x (.processSetEntry p entry userEsp)
        ((x.setSys (x.kernel.sys.processSetEntry p entry userEsp)).setMem
          (buildUserFrame mem (u32 ((x.kernel.sys.procs p).kernelStackBottom + 8192)) entry
            userEsp).2)
  | processFirstEnter {p : Nat} {mem : Memory} : x.CallKeeps mem →
      Step stubs x (.processFirstEnter p)
        ((x.setSys (x.kernel.sys.processFirstEnter p).2).ret
          (x.kernel.sys.processFirstEnter p).1 mem)

/-! ## What is assumed -/

/-- Kernel code is called by `kernel_main` or by a process of ring 0. -/
def InKernel (x : TimeShared) : Prop := x.current ≠ none → x.cpu.regs.user = false

/-- A new process gets a control block and a stack that no process of the table has. -/
def FreshStack (x : TimeShared) (p kstack entry : Nat) : Prop :=
  p ∉ x.kernel.sys.processTable ∧ 0 < kstack ∧ kstack + KERNEL_STACK_BYTES < 2 ^ 32 ∧
    StackApart x.kernel.sys kstack ∧ entry < 2 ^ 32

/-- A process stays in its ring and does not write to the kernel stacks of others; in ring 0 it
    is on its own stack with room for a frame. At a tick it is not in state `READY`, and a
    system call that reaps a child leaves it current. -/
def Ok (x : TimeShared) : CpuEvent → Prop
  | .run r mem => ∃ c, x.current = some c ∧ r.user = x.cpu.regs.user ∧
      (r.user = false → r.ss = 0x10 ∧ (x.kernel.sys.procs c).kernelStackBottom + 44 ≤ r.esp.toNat ∧
        r.esp.toNat ≤ (x.kernel.sys.procs c).kernelStack) ∧
      KeepsStacks x.kernel.sys (some c) (2 ^ 32) x.cpu.mem mem
  | .irq0 => ∃ c, x.current = some c ∧ (x.kernel.sys.procs c).state ≠ .ready
  | .irq1 _ => x.current ≠ none
  | .int80 view => ∃ c, x.current = some c ∧
      (x.dispatch view).2.sys.schedulerCurrentProcess = some c ∧
      ((x.dispatch view).2.sys.procs c).state ≠ .ready
  | .call _ => x.current ≠ none ∧ x.InKernel
  | .attachQueue _ _ => x.InKernel
  | .processCreate p _ kstack entry userEsp =>
      x.InKernel ∧ x.FreshStack p kstack entry ∧ userEsp < 2 ^ 32
  | .processCreateKernel p _ kstack entry => x.InKernel ∧ x.FreshStack p kstack entry
  | .processSetEntry p entry userEsp =>
      x.InKernel ∧ p ∈ x.kernel.sys.processTable ∧ p ≠ 0 ∧ x.current ≠ some p ∧
        (x.kernel.sys.procs p).ring = .user ∧ entry < 2 ^ 32 ∧ userEsp < 2 ^ 32
  | .processFirstEnter p =>
      x.current = none ∧ p ∈ x.kernel.sys.processTable ∧
        x.kernel.sys.processTable.length ≤ MAX_PROCESSES ∧
        (x.kernel.sys.procs p).state ≠ .dead ∧ (x.kernel.sys.procs p).savedEsp = 0

/-- After `gdt_init` and `scheduler_init`, with no process yet. -/
structure Booted (x : TimeShared) : Prop where
  booted : x.kernel.sys.Booted
  ss_eq : x.cpu.regs.ss = 0x10

end TimeShared

/-! ## Calls leave the contexts alone -/

theorem Loaded.attachQueue {s : ProcessSystem} {mem : Memory} {regs : Nat → Registers}
    {stack : Nat → Memory} {out : Option Nat} (h : Loaded s mem regs stack out) (p : Nat)
    (msgs : Nat → IpcMsg) : Loaded (s.attachQueue p msgs) mem regs stack out := by
  have hprocs : ∀ q, SameStack (s.procs q) ((s.attachQueue p msgs).procs q) ∧
      ((s.attachQueue p msgs).procs q).state = (s.procs q).state ∧
      ProcessSystem.resumeEsp ((s.attachQueue p msgs).procs q) =
        ProcessSystem.resumeEsp (s.procs q) := by
    intro q
    by_cases hqp : q = p
    · subst hqp
      rw [ProcessSystem.attachQueue, ProcessSystem.modify_procs_self]
      exact ⟨⟨rfl, rfl, rfl⟩, rfl, rfl⟩
    · rw [ProcessSystem.attachQueue, ProcessSystem.modify_procs_of_ne _ _ _ hqp]
      exact ⟨⟨rfl, rfl, rfl⟩, rfl, rfl⟩
  refine h.congr_procs (fun _ => id) (fun q => (hprocs q).1) (fun _ _ => rfl)
    fun q hq hout halive => ?_
  obtain ⟨hsame, hstate, hesp⟩ := hprocs q
  rw [hesp]
  exact (h.held q hq hout (hstate ▸ halive)).congr_proc hsame.bottom_eq hsame.top_eq

section Calls

variable {s : ProcessSystem} {c : Nat} (hc : s.schedulerCurrentProcess = some c)

include hc

theorem keepsContexts_kill (pid : Nat) : KeepsContexts s (s.kill pid).2 c := by
  unfold ProcessSystem.kill
  split
  · exact .setState hc (fun _ => rfl) (by simp)
  · exact .refl hc

theorem keepsContexts_exitCurrent (code : Int) : KeepsContexts s (s.exitCurrent code) c := by
  unfold ProcessSystem.exitCurrent
  split
  · exact .modify hc ⟨rfl, rfl, rfl⟩ rfl (fun _ _ => rfl) fun _ => by simp
  · exact .refl hc

theorem keepsContexts_ipcSend (view : Nat → UInt8) (targetPid data size : Nat) :
    KeepsContexts s (s.ipcSend view targetPid data size).2 c := by
  rcases s.ipcSend_cases view targetPid data size with heq | ⟨p, q, -, halive, -, -, -, -, -, heq⟩
  · rw [heq]
    exact .refl hc
  · rw [heq]
    refine .modify hc ⟨rfl, rfl, rfl⟩ rfl (fun _ hdead => absurd hdead halive) fun hfree => ?_
    simp only [ProcessSystem.deliver]
    split
    · simp
    · exact hfree

theorem keepsContexts_ipcRecv (sender buf size : Nat) :
    KeepsContexts s (s.ipcRecv sender buf size).2 c := by
  rcases s.ipcRecv_cases sender buf size with heq | ⟨me, q, hme, -, -, -, ⟨-, heq⟩ | ⟨-, heq⟩⟩
  · rw [heq]
    exact .refl hc
  · obtain rfl : me = c := Option.some.inj (hme.symm.trans hc)
    rw [heq]
    exact .setState hc (fun hne => absurd rfl hne) (by simp)
  · rw [heq]
    exact .modify hc ⟨rfl, rfl, rfl⟩ rfl (fun _ => id) id

theorem keepsContexts_exec {op : Op} (hcall : op.isCall = true) :
    KeepsContexts s (s.exec op) c := by
  cases op with
  | ipcSend view targetPid data size => exact keepsContexts_ipcSend hc view targetPid data size
  | ipcRecv sender buf size => exact keepsContexts_ipcRecv hc sender buf size
  | kill pid => exact keepsContexts_kill hc pid
  | exit code => exact keepsContexts_exitCurrent hc code
  | _ => simp [Op.isCall] at hcall

/-- Reaping a child, where it leaves the caller current. -/
theorem keepsContexts_processDestroy {kernelSpace p : Nat}
    (hc' : (s.processDestroy kernelSpace p).2.schedulerCurrentProcess = some c) :
    KeepsContexts s (s.processDestroy kernelSpace p).2 c := by
  by_cases hnull : p = 0
  · simpa [ProcessSystem.processDestroy, hnull] using KeepsContexts.refl hc
  · have hdead : KeepsContexts s (s.setState p .dead) c := .setState hc (fun _ => rfl) (by simp)
    have heq : (s.processDestroy kernelSpace p).2 = { s.setState p .dead with
        processTable := ProcessSystem.removeEntry s.processTable p } := by
      simp [ProcessSystem.processDestroy, hnull]
    rw [heq] at hc' ⊢
    exact ⟨fun q hq => ProcessSystem.mem_of_mem_removeEntry hq, hc', rfl, hdead.sameStack,
      hdead.resumeEsp_eq, hdead.dead, hdead.not_free⟩

end Calls

theorem keepsContexts_syscallDispatch {k : Kernel} {c : Nat}
    (hc : k.sys.schedulerCurrentProcess = some c) {view : Nat → UInt8} {eax ebx ecx edx : Nat}
    (hc' : (k.syscallDispatch view eax ebx ecx edx).2.sys.schedulerCurrentProcess = some c) :
    KeepsContexts k.sys (k.syscallDispatch view eax ebx ecx edx).2.sys c := by
  unfold Kernel.syscallDispatch at hc' ⊢
  split
  · exact .refl hc
  · split <;> exact .refl hc
  · split <;> exact .refl hc
  · exact keepsContexts_exitCurrent hc _
  · -- only this call takes a process out of the table
    simp only [Kernel.waitChild, hc] at hc' ⊢
    cases hchild : Kernel.findChild k.sys c (signed ebx) with
    | none => exact .refl hc
    | some child =>
        simp only [hchild] at hc'
        exact keepsContexts_processDestroy hc hc'
  · exact keepsContexts_kill hc _
  · exact keepsContexts_ipcSend hc view ebx ecx edx
  · exact keepsContexts_ipcRecv hc 0 ebx ecx
  · exact .refl hc

/-! ## The machine with a processor for each process -/

/-- `regs` are the registers of each process and `stack` has the bytes of its kernel stack. -/
structure Virtual where
  kernel : Kernel
  modifiers : Modifiers
  regs : Nat → Registers
  stack : Nat → Memory

namespace Virtual

def current (v : Virtual) : Option Nat := v.kernel.sys.schedulerCurrentProcess

def setRegs (v : Virtual) (p : Nat) (r : Registers) : Virtual :=
  { v with regs := Function.update v.regs p r }

def setSys (v : Virtual) (sys : ProcessSystem) : Virtual :=
  { v with kernel := v.kernel.setSys sys }

/-- Someone else's turn. -/
def turn (v : Virtual) : Virtual := v.setSys (v.kernel.sys.schedulerTick 0).2

/-- The current process does something on its processor. -/
def run (v : Virtual) (r : Registers) (mem : Memory) : Virtual :=
  match v.current with
  | some c => { v.setRegs c r with stack := Function.update v.stack c mem }
  | none => v

/-- The result of a system call is in `eax` of the caller. -/
def syscall (v : Virtual) (view : Nat → UInt8) : Virtual :=
  match v.current with
  | some c =>
      let r := v.regs c
      let (result, kernel) := v.kernel.syscallDispatch view r.eax.toNat r.ebx.toNat r.ecx.toNat
        r.edx.toNat
      { v.setRegs c { r with eax := UInt32.ofNat result.ret } with kernel := kernel }
  | none => v

def exec (v : Virtual) : CpuEvent → Virtual
  | .run r mem => v.run r mem
  | .irq0 => { v with kernel := v.kernel.irqHandler }.turn
  | .irq1 scancode =>
      let (kernel, modifiers) := v.kernel.keyboardIrqHandler v.modifiers scancode
      { v with kernel := kernel, modifiers := modifiers }
  | .int80 view => (v.syscall view).turn
  | .call op => v.setSys (v.kernel.sys.exec op)
  | .attachQueue p msgs => v.setSys (v.kernel.sys.attachQueue p msgs)
  | .processCreate p space kstack entry userEsp =>
      match v.kernel.sys.processCreate p space kstack entry userEsp with
      | some sys => (v.setSys sys).setRegs p (userStart entry userEsp)
      | none => v
  | .processCreateKernel p space kstack entry =>
      match v.kernel.sys.processCreateKernel p space kstack with
      | some sys => (v.setSys sys).setRegs p (kernelStart entry (kstack + KERNEL_STACK_BYTES))
      | none => v
  | .processSetEntry p entry userEsp =>
      (v.setSys (v.kernel.sys.processSetEntry p entry userEsp)).setRegs p (userStart entry userEsp)
  | .processFirstEnter p => v.setSys (v.kernel.sys.processFirstEnter p).2

/-- Before there are processes. -/
def boot (x : TimeShared) : Virtual where
  kernel := x.kernel.forget
  modifiers := x.modifiers
  regs := fun _ => x.cpu.regs
  stack := fun _ => x.cpu.mem

end Virtual

namespace TimeShared

/-- The two machines agree. -/
structure Related (x : TimeShared) (v : Virtual) : Prop where
  kernel_eq : v.kernel = x.kernel.forget
  modifiers_eq : v.modifiers = x.modifiers
  contexts : (x.kernel.sys.currentProcess < 0 ∧ x.cpu.regs.ss = 0x10 ∧
      Loaded x.kernel.sys x.cpu.mem v.regs v.stack none) ∨
    ∃ c, Running x.kernel.sys x.cpu.mem v.regs v.stack c x.cpu.regs

theorem related_boot {x : TimeShared} (h : x.Booted) : x.Related (Virtual.boot x) := by
  obtain ⟨⟨htable, hcurrent⟩, hss⟩ := h
  refine ⟨rfl, rfl, .inl ⟨?_, hss, ?_⟩⟩
  · simp [hcurrent]
  · constructor <;> simp [htable]

/-! ## The stubs -/

section

variable {x : TimeShared} {v : Virtual}

theorem current_of_neg (h : x.kernel.sys.currentProcess < 0) : x.current = none := by
  rw [current, ProcessSystem.schedulerCurrentProcess, if_pos h]

theorem Related.running (h : x.Related v) {c : Nat} (hc : x.current = some c) :
    Running x.kernel.sys x.cpu.mem v.regs v.stack c x.cpu.regs := by
  rcases h.contexts with ⟨hneg, -⟩ | ⟨c', hrunning⟩
  · rw [current_of_neg hneg] at hc
    cases hc
  · obtain rfl : c' = c := Option.some.inj (hrunning.isCurrent.current.symm.trans hc)
    exact hrunning

theorem Related.current_eq (h : x.Related v) : v.current = x.current := by
  rw [Virtual.current, h.kernel_eq]
  rfl

theorem Related.entered (h : x.Related v) {c : Nat} (hc : x.current = some c) (stub : UInt32) :
    Suspended x.kernel.sys (x.entered stub).cpu.mem v.regs v.stack c
        (x.entered stub).cpu.regs.esp.toNat ∧
      (x.entered stub).cpu.regs.ss = 0x10 :=
  (h.running hc).enter rfl rfl

/-- The machine after the end of a stub, with the virtual machine after the turn. -/
theorem related_tickAndReturn (hkernel : v.kernel = x.kernel.forget)
    (hmodifiers : v.modifiers = x.modifiers) {c : Nat} {mem : Memory}
    (h : Suspended x.kernel.sys x.cpu.mem v.regs v.stack c x.cpu.regs.esp.toNat)
    (hss : x.cpu.regs.ss = 0x10) (hready : (x.kernel.sys.procs c).state ≠ .ready)
    (hkeep : x.CallKeeps mem) : (x.tickAndReturn mem).Related v.turn := by
  rw [CallKeeps, current, h.isCurrent.current] at hkeep
  obtain ⟨c', hnext⟩ := (h.congr_mem hkeep).schedulerTick hready
  refine ⟨?_, hmodifiers, .inr ⟨c', hnext.resume hss⟩⟩
  have hturn := ProcessSystem.forget_schedulerTick x.kernel.sys x.cpu.regs.esp.toNat
  simp only [Virtual.turn, Virtual.setSys, hkernel]
  exact congrArg x.kernel.setSys hturn.symm

theorem dispatch_entered (x : TimeShared) (stub : UInt32) (view : Nat → UInt8) :
    (x.entered stub).dispatch view = x.dispatch view := by
  obtain ⟨heax, hebx, hecx, hedx⟩ := Processor.enter_arguments (x.gate stub) x.cpu
  simp only [dispatch, entered, heax, hebx, hecx, hedx]

/-! ## One event -/

theorem Related.run (h : x.Related v) {r : Registers} {mem : Memory} (hok : x.Ok (.run r mem)) :
    Related { x with cpu := ⟨r, mem⟩ } (v.exec (.run r mem)) := by
  obtain ⟨c, hc, huser, hkernel, hkeep⟩ := hok
  have hrunning := h.running hc
  have hexec : v.exec (.run r mem) =
      { v.setRegs c r with stack := Function.update v.stack c mem } := by
    simp only [Virtual.exec, Virtual.run, h.current_eq, hc]
  rw [hexec]
  refine ⟨h.kernel_eq, h.modifiers_eq, .inr ⟨c, ?_, hrunning.isCurrent, ?_, hkernel, ?_⟩⟩
  · exact (hrunning.loaded.congr_mem hkeep).update (by rw [huser, hrunning.regs_eq]) mem
  · exact (Function.update_self c r v.regs).symm
  · intro _ y _ _
    simp

theorem CallKeeps.of_current {mem : Memory} {c : Nat} (h : x.CallKeeps mem)
    (hc : x.current = some c) :
    KeepsStacks x.kernel.sys (some c) x.cpu.regs.esp.toNat x.cpu.mem mem := by
  rw [CallKeeps, hc] at h
  exact h

theorem Related.irq0 (h : x.Related v) (hok : x.Ok .irq0) {stub : UInt32} {mem : Memory}
    (hkeep : (x.entered stub).CallKeeps mem) : (x.irq0 stub mem).Related (v.exec .irq0) := by
  obtain ⟨c, hc, hready⟩ := hok
  obtain ⟨hsuspended, hss⟩ := h.entered hc stub
  have hkernel : v.kernel.irqHandler = x.kernel.irqHandler.forget := by
    rw [h.kernel_eq]
    rfl
  exact related_tickAndReturn (x := { x.entered stub with kernel := x.kernel.irqHandler })
    (v := { v with kernel := v.kernel.irqHandler }) hkernel h.modifiers_eq hsuspended hss hready
    hkeep

theorem Related.irq1 (h : x.Related v) {scancode : UInt8} (hok : x.Ok (.irq1 scancode))
    {stub : UInt32} {mem : Memory} (hkeep : (x.entered stub).CallKeeps mem) :
    (x.irq1 stub scancode mem).Related (v.exec (.irq1 scancode)) := by
  obtain ⟨c, hc⟩ := Option.ne_none_iff_exists'.mp hok
  obtain ⟨hsuspended, hss⟩ := h.entered hc stub
  have hrunning := (hsuspended.congr_mem (hkeep.of_current hc)).resume hss
  have hkernel : (v.kernel.keyboardIrqHandler v.modifiers scancode) =
      ((x.kernel.keyboardIrqHandler x.modifiers scancode).1.forget,
        (x.kernel.keyboardIrqHandler x.modifiers scancode).2) := by
    rw [h.kernel_eq, h.modifiers_eq]
    simp only [Kernel.keyboardIrqHandler]
    split <;> rfl
  have hsys : (x.irq1 stub scancode mem).kernel.sys = x.kernel.sys := by
    simp only [TimeShared.irq1, ret, Kernel.keyboardIrqHandler]
    split <;> rfl
  refine ⟨?_, ?_, .inr ⟨c, ?_⟩⟩
  · simp only [Virtual.exec, hkernel]
    rfl
  · simp only [Virtual.exec, hkernel]
    rfl
  · rw [hsys]
    exact hrunning

theorem Related.int80 (h : x.Related v) {view : Nat → UInt8} (hok : x.Ok (.int80 view))
    {stub : UInt32} {mem₁ mem₂ : Memory} (hkeep₁ : (x.entered stub).CallKeeps mem₁)
    (hkeep₂ : (x.dispatched stub view mem₁).CallKeeps mem₂) :
    ((x.dispatched stub view mem₁).tickAndReturn mem₂).Related (v.exec (.int80 view)) := by
  obtain ⟨c, hc, hc', hready⟩ := hok
  obtain ⟨hsuspended, hss⟩ := h.entered hc stub
  have hregs : v.regs c = x.cpu.regs := (h.running hc).regs_eq.symm
  have hcall : KeepsContexts x.kernel.sys (x.dispatch view).2.sys c :=
    keepsContexts_syscallDispatch hc hc'
  have hstored := hcall.suspended ((hsuspended.congr_mem (hkeep₁.of_current hc)).set_eax
    (UInt32.ofNat (x.dispatch view).1.ret))
  have hforget := Kernel.forget_syscallDispatch x.kernel view x.cpu.regs.eax.toNat
    x.cpu.regs.ebx.toNat x.cpu.regs.ecx.toNat x.cpu.regs.edx.toNat
  have hsyscall : v.syscall view =
      { v.setRegs c { v.regs c with eax := UInt32.ofNat (x.dispatch view).1.ret } with
        kernel := (x.dispatch view).2.forget } := by
    simp only [Virtual.syscall, h.current_eq, hc, h.kernel_eq, hregs, hforget.2, ← hforget.1]
    rfl
  have hkernel : (x.dispatched stub view mem₁).kernel = (x.dispatch view).2 := by
    simp only [dispatched, dispatch_entered]
  have hmem : (x.dispatched stub view mem₁).cpu.mem =
      write32 mem₁ ((x.entered stub).cpu.regs.esp.toNat + 28)
        (UInt32.ofNat (x.dispatch view).1.ret).toNat := by
    simp only [dispatched, dispatch_entered]
  rw [Virtual.exec, hsyscall]
  refine related_tickAndReturn (by rw [hkernel]) (by exact h.modifiers_eq) ?_ hss
    (by rwa [hkernel]) hkeep₂
  rw [hkernel, hmem]
  exact hstored

/-! ## Calls of kernel code -/

theorem Related.callKeeps (h : x.Related v) {mem : Memory} (hkeep : x.CallKeeps mem) :
    (x.setMem mem).Related v := by
  refine ⟨h.kernel_eq, h.modifiers_eq, ?_⟩
  rcases h.contexts with ⟨hneg, hss, hloaded⟩ | ⟨c, hrunning⟩
  · rw [CallKeeps, current_of_neg hneg] at hkeep
    exact .inl ⟨hneg, hss, hloaded.congr_mem hkeep⟩
  · have hkeep' := hkeep.of_current hrunning.isCurrent.current
    refine .inr ⟨c, hrunning.congr (hrunning.loaded.congr_mem hkeep') hrunning.isCurrent
      ⟨rfl, rfl, rfl⟩ rfl fun y hy hlow hhigh => ?_⟩
    exact hkeep' c hrunning.isCurrent.mem y hlow hhigh fun _ => hy

theorem Related.call (h : x.Related v) {op : Op} (hok : x.Ok (.call op)) (hcall : op.isCall = true)
    {mem : Memory} (hkeep : x.CallKeeps mem) :
    ((x.setSys (x.kernel.sys.exec op)).setMem mem).Related (v.exec (.call op)) := by
  obtain ⟨c, hc⟩ := Option.ne_none_iff_exists'.mp hok.1
  have hrunning := (h.callKeeps hkeep).running hc
  refine ⟨?_, h.modifiers_eq, .inr ⟨c, (keepsContexts_exec hc hcall).running hrunning⟩⟩
  simp only [Virtual.exec, Virtual.setSys, h.kernel_eq]
  exact congrArg x.kernel.setSys (ProcessSystem.forget_exec x.kernel.sys hcall).symm

theorem Related.attachQueue (h : x.Related v) (p : Nat) (msgs : Nat → IpcMsg) {mem : Memory}
    (hkeep : x.CallKeeps mem) :
    ((x.setSys (x.kernel.sys.attachQueue p msgs)).setMem mem).Related
      (v.exec (.attachQueue p msgs)) := by
  have hkernel : (v.exec (.attachQueue p msgs)).kernel =
      (x.kernel.setSys (x.kernel.sys.attachQueue p msgs)).forget := by
    simp only [Virtual.exec, Virtual.setSys, h.kernel_eq]
    exact congrArg x.kernel.setSys (ProcessSystem.forget_attachQueue x.kernel.sys p msgs).symm
  refine ⟨hkernel, h.modifiers_eq, ?_⟩
  rcases (h.callKeeps hkeep).contexts with ⟨hneg, hss, hloaded⟩ | ⟨c, hrunning⟩
  · exact .inl ⟨hneg, hss, hloaded.attachQueue p msgs⟩
  · have hkeeps : KeepsContexts x.kernel.sys (x.kernel.sys.attachQueue p msgs) c :=
      .modify hrunning.isCurrent.current ⟨rfl, rfl, rfl⟩ rfl (fun _ => id) id
    exact .inr ⟨c, hkeeps.running hrunning⟩

/-- A new process, with its context on its stack. -/
theorem Related.register (h : x.Related v) {p : Nat} {proc : Process} {r : Registers}
    {sys : ProcessSystem} {mem : Memory} (hreg : x.kernel.sys.registerProcess p proc = some sys)
    (hp : p ∉ x.kernel.sys.processTable) (hapart : StackApart x.kernel.sys proc.kernelStackBottom)
    (hmem : ∀ y, y < proc.kernelStackBottom ∨ proc.kernelStackBottom + KERNEL_STACK_BYTES ≤ y →
      mem y = x.cpu.mem y)
    (hloaded : ∀ out, Loaded x.kernel.sys x.cpu.mem v.regs v.stack out →
      Loaded sys mem (Function.update v.regs p r) v.stack out) {w : Virtual}
    (hw : w = (v.setSys sys.forget).setRegs p r) :
    ((x.setSys sys).setMem mem).Related w := by
  subst hw
  obtain ⟨-, htable, hindex, -, hother⟩ := ProcessSystem.registerProcess_eq_some hreg
  refine ⟨?_, h.modifiers_eq, ?_⟩
  · simp only [Virtual.setRegs, Virtual.setSys, h.kernel_eq]
    rfl
  rcases h.contexts with ⟨hneg, hss, hold⟩ | ⟨c, hrunning⟩
  · exact .inl ⟨by rw [← hindex] at hneg; exact hneg, hss, hloaded none hold⟩
  · have hcp : c ≠ p := fun heq => hp (heq ▸ hrunning.isCurrent.mem)
    have hsame : sys.procs c = x.kernel.sys.procs c := hother c hcp
    have hesp0 : sys.tssEsp0 = x.kernel.sys.tssEsp0 := by
      simp only [ProcessSystem.registerProcess] at hreg
      split at hreg
      · cases hreg
      · cases hreg
        rfl
    refine .inr ⟨c, hrunning.congr (hloaded _ hrunning.loaded) ⟨?_, ?_, ?_⟩ ?_ ?_ ?_⟩
    · exact ProcessSystem.schedulerCurrentProcess_of_append htable hindex hrunning.isCurrent.current
    · exact hsame ▸ hrunning.isCurrent.not_free
    · exact (hesp0.trans hrunning.isCurrent.esp0).trans (congrArg Process.kernelStack hsame.symm)
    · exact hsame ▸ ⟨rfl, rfl, rfl⟩
    · exact Function.update_of_ne hcp _ _
    · intro y _ hlow hhigh
      apply hmem
      rcases hapart c hrunning.isCurrent.mem with hbelow | habove
      · left
        omega
      · right
        omega

theorem Related.processCreate (h : x.Related v) {p space kstack entry userEsp : Nat}
    (hok : x.Ok (.processCreate p space kstack entry userEsp)) {mem : Memory} {sys : ProcessSystem}
    (hkeep : x.CallKeeps mem)
    (hcreate : x.kernel.sys.processCreate p space kstack entry userEsp = some sys) :
    ((x.setSys sys).setMem (buildUserFrame (fill mem kstack 0 KERNEL_STACK_BYTES)
        (u32 (kstack + KERNEL_STACK_BYTES)) entry userEsp).2).Related
      (v.exec (.processCreate p space kstack entry userEsp)) := by
  obtain ⟨-, ⟨hp, hpos, hroom, hapart, hentry⟩, huserEsp⟩ := hok
  have hforget : x.kernel.sys.forget.processCreate p space kstack entry userEsp =
      some sys.forget := by
    have hmap := ProcessSystem.forget_registerProcess x.kernel.sys p
      (ProcessSystem.userProcess x.kernel.sys.nextPid space kstack entry userEsp) rfl
    rw [ProcessSystem.processCreate] at hcreate
    rw [hcreate] at hmap
    exact hmap.symm
  refine (h.callKeeps hkeep).register hcreate hp hapart
    (userFrame_of_outside mem hroom hentry huserEsp) (r := userStart entry userEsp)
    (fun out hold => hold.processCreate hcreate hp hpos hroom hapart hentry huserEsp) ?_
  simp only [Virtual.exec, h.kernel_eq, Kernel.forget, hforget]

theorem Related.processCreateKernel (h : x.Related v) {p space kstack entry : Nat}
    (hok : x.Ok (.processCreateKernel p space kstack entry)) {mem : Memory} {sys : ProcessSystem}
    (hkeep : x.CallKeeps mem)
    (hcreate : x.kernel.sys.processCreateKernel p space kstack = some sys) :
    ((x.setSys sys).setMem (buildKernelFrame (fill mem kstack 0 KERNEL_STACK_BYTES)
        (u32 (kstack + KERNEL_STACK_BYTES)) entry).2).Related
      (v.exec (.processCreateKernel p space kstack entry)) := by
  obtain ⟨-, hp, hpos, hroom, hapart, hentry⟩ := hok
  have hforget : x.kernel.sys.forget.processCreateKernel p space kstack = some sys.forget := by
    have hmap := ProcessSystem.forget_registerProcess x.kernel.sys p
      (ProcessSystem.kernelProcess x.kernel.sys.nextPid space kstack) rfl
    rw [ProcessSystem.processCreateKernel] at hcreate
    rw [hcreate] at hmap
    exact hmap.symm
  refine (h.callKeeps hkeep).register hcreate hp hapart (kernelFrame_of_outside mem hroom hentry)
    (r := kernelStart entry (kstack + KERNEL_STACK_BYTES))
    (fun out hold => hold.processCreateKernel hcreate hp hpos hroom hapart hentry) ?_
  simp only [Virtual.exec, h.kernel_eq, Kernel.forget, hforget]

theorem Related.processSetEntry (h : x.Related v) {p entry userEsp : Nat}
    (hok : x.Ok (.processSetEntry p entry userEsp)) {mem : Memory} (hkeep : x.CallKeeps mem) :
    ((x.setSys (x.kernel.sys.processSetEntry p entry userEsp)).setMem
        (buildUserFrame mem (u32 ((x.kernel.sys.procs p).kernelStackBottom + 8192)) entry
          userEsp).2).Related (v.exec (.processSetEntry p entry userEsp)) := by
  obtain ⟨-, hp, hnull, hcurrent, hring, hentry, huserEsp⟩ := hok
  have hkernel : (v.exec (.processSetEntry p entry userEsp)).kernel =
      (x.kernel.setSys (x.kernel.sys.processSetEntry p entry userEsp)).forget := by
    simp only [Virtual.exec, Virtual.setSys, Virtual.setRegs, h.kernel_eq]
    exact congrArg x.kernel.setSys
      (ProcessSystem.forget_processSetEntry x.kernel.sys p entry userEsp).symm
  refine ⟨hkernel, h.modifiers_eq, ?_⟩
  rcases (h.callKeeps hkeep).contexts with ⟨hneg, hss, hloaded⟩ | ⟨c, hrunning⟩
  · refine .inl ⟨?_, hss, hloaded.processSetEntry hp hnull (by simp) hring hentry huserEsp⟩
    simp only [setMem, setSys, Kernel.setSys, processSetEntry_eq hnull]
    exact hneg
  · have hcp : some c ≠ some p := hrunning.isCurrent.current ▸ hcurrent
    have hne : c ≠ p := fun heq => hcp (by rw [heq])
    have hsame : (x.kernel.sys.processSetEntry p entry userEsp).procs c = x.kernel.sys.procs c :=
      processSetEntry_procs_of_ne hnull entry userEsp hne
    have hcurrent' : IsCurrent (x.kernel.sys.processSetEntry p entry userEsp) c := by
      obtain ⟨hc, hfree, hesp0⟩ := hrunning.isCurrent
      refine ⟨?_, hsame ▸ hfree, ?_⟩
      · rw [processSetEntry_eq hnull]
        exact hc
      · rw [hsame, processSetEntry_eq hnull]
        exact hesp0
    refine .inr ⟨c, hrunning.congr (hrunning.loaded.processSetEntry hp hnull hcp hring hentry
      huserEsp) hcurrent' (sameStack_processSetEntry hnull entry userEsp c)
      (Function.update_of_ne hne _ _) fun y _ hlow hhigh => ?_⟩
    exact hrunning.loaded.buildUserFrame_of_ne hp hrunning.isCurrent.mem hne hentry huserEsp hlow
      hhigh

theorem Related.processFirstEnter (h : x.Related v) {p : Nat} (hok : x.Ok (.processFirstEnter p))
    {mem : Memory} (hkeep : x.CallKeeps mem) :
    ((x.setSys (x.kernel.sys.processFirstEnter p).2).ret (x.kernel.sys.processFirstEnter p).1
      mem).Related (v.exec (.processFirstEnter p)) := by
  obtain ⟨hnone, hp, hlen, halive, hfresh⟩ := hok
  have hkernel : (v.exec (.processFirstEnter p)).kernel =
      (x.kernel.setSys (x.kernel.sys.processFirstEnter p).2).forget := by
    simp only [Virtual.exec, Virtual.setSys, h.kernel_eq]
    exact congrArg x.kernel.setSys (ProcessSystem.forget_processFirstEnter x.kernel.sys p).symm
  refine ⟨hkernel, h.modifiers_eq, .inr ⟨p, ?_⟩⟩
  rcases (h.callKeeps hkeep).contexts with ⟨-, hss, hloaded⟩ | ⟨c, hrunning⟩
  · exact (hloaded.processFirstEnter hp hlen halive hfresh).resume hss
  · have hc : x.current = some c := hrunning.isCurrent.current
    rw [hnone] at hc
    cases hc

/-- **One event.** -/
theorem Related.step {stubs : Stubs} (h : x.Related v) {event : CpuEvent} {y : TimeShared}
    (hok : x.Ok event) (hstep : x.Step stubs event y) : y.Related (v.exec event) := by
  cases hstep with
  | run r mem => exact h.run hok
  | irq0 hkeep => exact h.irq0 hok hkeep
  | irq1 scancode hkeep => exact h.irq1 hok hkeep
  | int80 _ hkeep₁ hkeep₂ => exact h.int80 hok hkeep₁ hkeep₂
  | call hcall hkeep => exact h.call hok hcall hkeep
  | attachQueue p msgs hkeep => exact h.attachQueue p msgs hkeep
  | processCreate hkeep hcreate => exact h.processCreate hok hkeep hcreate
  | processCreateKernel hkeep hcreate => exact h.processCreateKernel hok hkeep hcreate
  | processSetEntry hkeep => exact h.processSetEntry hok hkeep
  | processFirstEnter hkeep => exact h.processFirstEnter hok hkeep

end

/-! ## Runs -/

/-- The virtual machine after the events. -/
def virtual (x : TimeShared) (events : List CpuEvent) : Virtual :=
  events.foldl Virtual.exec (Virtual.boot x)

theorem related_run {stubs : Stubs} {x y : TimeShared} {events : List CpuEvent} (hboot : x.Booted)
    (hrun : Run (Guarded Ok (Step stubs)) x events y) : y.Related (x.virtual events) := by
  induction hrun with
  | nil => exact related_boot hboot
  | snoc _ hlast ih =>
      rw [virtual, List.foldl_append]
      exact ih.step hlast.1 hlast.2

/-- **Time sharing is transparent.** Boot, create processes, enter the first one, and let
    processes, interrupts and system calls take turns in any order. The process that is current
    then has the registers that it has on a processor of its own, on which nothing but its own
    steps and the results of its system calls happen; a process of ring 0 has the same bytes on
    its stack; and the processes, queues and devices are those of the virtual machine. -/
theorem timeSharing_transparent {stubs : Stubs} {x y : TimeShared} {events : List CpuEvent}
    {c : Nat} (hboot : x.Booted) (hrun : Run (Guarded Ok (Step stubs)) x events y)
    (hc : y.current = some c) :
    y.cpu.regs = (x.virtual events).regs c ∧
      (y.cpu.regs.user = false → ∀ a, y.cpu.regs.esp.toNat ≤ a →
        a < (y.kernel.sys.procs c).kernelStack → y.cpu.mem a = (x.virtual events).stack c a) ∧
      y.kernel.forget = (x.virtual events).kernel := by
  have hrelated := related_run hboot hrun
  have hrunning := hrelated.running hc
  exact ⟨hrunning.regs_eq, hrunning.stack_eq, hrelated.kernel_eq.symm⟩

/-- A machine before its first process. -/
def fresh : TimeShared where
  kernel :=
    { sys :=
        { procs := fun _ => ProcessSystem.kernelProcess 0 0 0
          processTable := []
          currentProcess := -1
          nextPid := 1
          tssEsp0 := 0
          cr3 := 0 }
      keyboard := keyboardBufferInit
      output := []
      timerTicks := 0
      kernelSpace := 0 }
  modifiers := {}
  cpu := ⟨kernelStart 0 0x9000, fun _ => 0⟩

theorem callKeeps_self (x : TimeShared) : x.CallKeeps x.cpu.mem := fun _ _ _ _ _ _ => rfl

theorem inKernel_of_none {x : TimeShared} (h : x.current = none) : x.InKernel :=
  fun hne => absurd h hne

/-- The machine after a kernel process and a user process are created. -/
def created : TimeShared :=
  let sys := (fresh.kernel.sys.processCreateKernel 1 0 0x10000).getD fresh.kernel.sys
  let x := (fresh.setSys sys).setMem (buildKernelFrame (fill fresh.cpu.mem 0x10000 0
    KERNEL_STACK_BYTES) (u32 (0x10000 + KERNEL_STACK_BYTES)) 0x1000).2
  let sys := (x.kernel.sys.processCreate 2 0 0x20000 0x40000000 0x40002000).getD x.kernel.sys
  (x.setSys sys).setMem (buildUserFrame (fill x.cpu.mem 0x20000 0 KERNEL_STACK_BYTES)
    (u32 (0x20000 + KERNEL_STACK_BYTES)) 0x40000000 0x40002000).2

theorem run_created : Run (Guarded Ok (Step ⟨0, 0, 0⟩)) fresh
    [.processCreateKernel 1 0 0x10000 0x1000, .processCreate 2 0 0x20000 0x40000000 0x40002000]
    created := by
  refine .cons ⟨⟨inKernel_of_none (by decide), by decide, by decide, by decide, ?_, by decide⟩,
    .processCreateKernel (callKeeps_self _) rfl⟩ <|
    .cons ⟨⟨inKernel_of_none ?_, ⟨?_, by decide, by decide, ?_, by decide⟩, by decide⟩,
      .processCreate (callKeeps_self _) rfl⟩ .nil
  · intro q hq
    cases hq
  · decide
  · decide
  · intro q hq
    have hone : q ∈ [1] := hq
    rw [List.mem_singleton.mp hone]
    decide

/-- The first process is entered. -/
def started : TimeShared :=
  (created.setSys (created.kernel.sys.processFirstEnter 1).2).ret
    (created.kernel.sys.processFirstEnter 1).1 created.cpu.mem

/-- The first process has set `ebx`. -/
def withEbx : TimeShared :=
  { started with cpu := ⟨{ kernelStart 0x1000 0x12000 with ebx := 7 }, started.cpu.mem⟩ }

def ticked (x : TimeShared) : TimeShared := x.irq0 0 (x.entered 0).cpu.mem

/-- A kernel process sets `ebx` and is interrupted, a user process has its first turn, and after
    the next tick `ebx` is still there. -/
theorem timeSharing_transparent_two :
    Run (Guarded Ok (Step ⟨0, 0, 0⟩)) fresh
        [.processCreateKernel 1 0 0x10000 0x1000,
          .processCreate 2 0 0x20000 0x40000000 0x40002000, .processFirstEnter 1,
          .run { kernelStart 0x1000 0x12000 with ebx := 7 } started.cpu.mem, .irq0, .irq0]
        withEbx.ticked.ticked ∧
      withEbx.ticked.current = some 2 ∧ withEbx.ticked.ticked.current = some 1 ∧
      withEbx.ticked.ticked.cpu.regs.ebx = 7 := by
  have hboot : fresh.Booted := ⟨⟨rfl, rfl⟩, rfl⟩
  have hfirst : Guarded Ok (Step ⟨0, 0, 0⟩) created (.processFirstEnter 1) started :=
    ⟨⟨by decide, by decide, by decide, by decide, by decide⟩, .processFirstEnter (callKeeps_self _)⟩
  have hregs := ((related_run hboot (run_created.snoc hfirst)).running (c := 1) (by decide)).regs_eq
  have hebx : Guarded Ok (Step ⟨0, 0, 0⟩) started
      (.run { kernelStart 0x1000 0x12000 with ebx := 7 } started.cpu.mem) withEbx := by
    refine ⟨⟨1, by decide, ?_, fun _ => ⟨rfl, by decide, by decide⟩, fun _ _ _ _ _ _ => rfl⟩,
      .run _ _⟩
    rw [hregs]
    decide
  have htick : Guarded Ok (Step ⟨0, 0, 0⟩) withEbx .irq0 withEbx.ticked :=
    ⟨⟨1, by decide, by decide⟩, .irq0 (callKeeps_self _)⟩
  have htick' : Guarded Ok (Step ⟨0, 0, 0⟩) withEbx.ticked .irq0 withEbx.ticked.ticked :=
    ⟨⟨2, by decide, by decide⟩, .irq0 (callKeeps_self _)⟩
  have hrun := (((run_created.snoc hfirst).snoc hebx).snoc htick).snoc htick'
  have hcurrent : withEbx.ticked.ticked.current = some 1 := by decide
  refine ⟨hrun, by decide, hcurrent, ?_⟩
  rw [(timeSharing_transparent hboot hrun hcurrent).1]
  rfl

end TimeShared

end NemoOS
