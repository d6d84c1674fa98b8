import NemoOS.Process
import NemoOS.DirectoryFill

/-!
# The memory of a process

`process_create` and `process_destroy` with the calls they make into the page allocator and
the address spaces, which `Process.lean` takes as given: the directory and the tables, the
user stack (`user_install_into_space` of `user/user_mode.cpp`) and the kernel stack.

The heap is not part of it. The control block is at the address that `kmalloc` returned,
and the machine is the one after that call, so that pages the heap has taken count as in
use. `kfree` makes no call into the page allocator.
-/

namespace NemoOS

open Words Bytes

def USER_CODE_ADDR : Nat := 0x40000000
def USER_STACK_ADDR : Nat := 0x40001000

namespace Machine

/-- `user_code_phys` is 0 if `user_map_pages` got no page. The results of `vmm_map` are not
    looked at, and without a page for the stack nothing is reported. -/
def userInstallIntoSpace (m : Machine) (userCodePhys space : Nat) : Machine :=
  if space = 0 ∨ userCodePhys = 0 then m
  else
    let m := (m.vmmMap space USER_CODE_ADDR userCodePhys (VMM_PRESENT + VMM_USER)).2
    let (stack, pmm) := m.pmm.pmmAllocPage
    if stack = 0 then { m with pmm := pmm }
    else
      (vmmMap { m with pmm := pmm } space USER_STACK_ADDR stack
        (VMM_PRESENT + VMM_WRITABLE + VMM_USER)).2

/-- The lowest page of the stack, 0 for `nullptr`. The function calls itself where the two
    pages are not adjacent; `none` if the given number of calls is not enough. -/
def allocKernelStack (m : Machine) : Nat → Option (Nat × Machine)
  | 0 => none
  | n + 1 =>
      let (lo, pmm₁) := m.pmm.pmmAllocPage
      let (hi, pmm₂) := pmm₁.pmmAllocPage
      if lo = 0 ∨ hi = 0 then
        let pmm₃ := if lo ≠ 0 then pmm₂.pmmFreePage lo else pmm₂
        some (0, { m with pmm := if hi ≠ 0 then pmm₃.pmmFreePage hi else pmm₃ })
      else if hi ≠ u32 (lo + 4096) then
        allocKernelStack { m with pmm := (pmm₂.pmmFreePage lo).pmmFreePage hi } n
      else some (lo, { m with mem := fill m.mem lo 0 KERNEL_STACK_BYTES, pmm := pmm₂ })

end Machine

/-- `*(--sp) = v`. -/
def push (s : Nat × Memory) (v : Nat) : Nat × Memory :=
  (sub32 s.1 4, write32 s.2 (sub32 s.1 4) v)

/-- The frame for `iret` to ring 3 and the one for `popa` below it. -/
def buildUserFrame (mem : Memory) (sp entry userEsp : Nat) : Nat × Memory :=
  [0x23, userEsp, 0x202, 0x1B, entry, 0, 0, 0, 0, 0, 0, 0, 0].foldl push (sp, mem)

/-- The frame for `iret` to ring 0 and the one for `popa` below it. -/
def buildKernelFrame (mem : Memory) (sp entry : Nat) : Nat × Memory :=
  [0x202, 0x08, entry, 0, 0, 0, 0, 0, 0, 0, 0].foldl push (sp, mem)

/-- The machine, the page with the code for user mode and the process system. -/
structure KernelState where
  machine : Machine
  userCodePhys : Nat
  sys : ProcessSystem

namespace KernelState

/-- `process_create` with a control block at `p`, 0 if `kmalloc` has returned `nullptr`:
    the process, 0 for `nullptr`. The result is `none` where `register_process` panics, and
    where `alloc_kernel_stack` has not returned after the given number of calls. -/
def processCreate (k : KernelState) (p userEntry userEsp calls : Nat) : Option (Nat × KernelState) :=
  if p = 0 then some (0, k)
  else
    let sys := { k.sys with nextPid := u32 (k.sys.nextPid + 1) }
    let (space, m) := k.machine.vmmCreateSpace
    if space = 0 then some (0, { k with machine := m, sys := sys })
    else
      match (m.userInstallIntoSpace k.userCodePhys space).allocKernelStack calls with
      | none => none
      | some (kstack, m) =>
          if kstack = 0 then some (0, { k with machine := m, sys := sys })
          else
            let (_, mem) := buildUserFrame m.mem (u32 (kstack + KERNEL_STACK_BYTES)) userEntry userEsp
            match k.sys.processCreate p space kstack userEntry userEsp with
            | none => none
            | some sys => some (p, { k with machine := { m with mem := mem }, sys := sys })

/-- One of the calls of `process_destroy`. -/
def release (m : Machine) : ProcessSystem.Release → Machine
  | .vmmDestroySpace space => m.vmmDestroySpace space
  | .pmmFreePage page => { m with pmm := m.pmm.pmmFreePage page }
  | .kfreeQueue _ => m
  | .kfree _ => m

def processDestroy (k : KernelState) (p : Nat) : KernelState :=
  let (calls, sys) := ProcessSystem.processDestroy k.machine.kernelSpace k.sys p
  { k with machine := calls.foldl release k.machine, sys := sys }

end KernelState

end NemoOS
