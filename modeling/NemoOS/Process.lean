import NemoOS.IpcQueue

/-!
# Processes and the process table (`process/process.cpp`)

A `Process*` is an address; `ProcessSystem.procs` holds the process control
block at each address and `processTable` the first `process_count` entries of
`process_table`. The scheduler's `current_process` is an index into that table,
not a pointer, and is kept beside it. `tssEsp0` and `cr3` are the two machine
registers that `process_switch` loads.

A `msg_queue` is modelled by value: every queue is allocated for one process and
no code stores its address in a second one. `main_task` is never read and is
left out.
-/

namespace NemoOS

open Words

/-- `enum TaskState`. -/
inductive TaskState where
  | free
  | ready
  | running
  | blocked
  | dead
deriving DecidableEq, Repr

/-- `enum ProcessRing`. -/
inductive ProcessRing where
  | kernel
  | user
deriving DecidableEq, Repr

structure Process where
  pid : Nat
  parentPid : Nat
  state : TaskState
  ring : ProcessRing
  addressSpace : Nat
  kernelStack : Nat
  kernelStackTop : Nat
  kernelStackBottom : Nat
  savedEsp : Nat
  userEntry : Nat
  userEsp : Nat
  exitCode : Int
  msgQueue : Option IpcQueue

/-- `find_next` may pick the process: it is neither dead nor blocked. -/
def Process.runnable (p : Process) : Prop := p.state ≠ .dead ∧ p.state ≠ .blocked

instance (p : Process) : Decidable p.runnable :=
  inferInstanceAs (Decidable (p.state ≠ .dead ∧ p.state ≠ .blocked))

structure ProcessSystem where
  procs : Nat → Process
  processTable : List Nat
  currentProcess : Int
  nextPid : Nat
  tssEsp0 : Nat
  cr3 : Nat

def MAX_PROCESSES : Nat := 16
def KERNEL_STACK_BYTES : Nat := 2 * 4096

namespace ProcessSystem

/-- A store through a `Process*`. -/
def modify (s : ProcessSystem) (p : Nat) (f : Process → Process) : ProcessSystem :=
  { s with procs := Function.update s.procs p (f (s.procs p)) }

def setState (s : ProcessSystem) (p : Nat) (state : TaskState) : ProcessSystem :=
  s.modify p fun proc => { proc with state := state }

/-! ## Table lookup -/

def processTotal (s : ProcessSystem) : Int := s.processTable.length

def processGet (s : ProcessSystem) (index : Int) : Option Nat :=
  if index < 0 ∨ index ≥ s.processTotal then none else s.processTable[index.toNat]?

/-- The first process with the given pid, in table order: the search loop of
    `ipc_send`, syscall 6 and the shell's `kill`. -/
def findPid (s : ProcessSystem) (pid : Nat) : Option Nat :=
  s.processTable.find? fun p => (s.procs p).pid = pid

/-! ## Creation

`register_process` panics when the table is full; a panic halts the machine, so
there is no state after it. The memory side of `process_create` (the address
space, the kernel stack and the two heap blocks) is its caller's: here a process
is created from the addresses those allocations returned. -/

/-- The control block `process_create` fills in. Its kernel stack holds the
    thirteen words of `build_user_frame`. -/
def userProcess (pid space kstack userEntry userEsp : Nat) : Process where
  pid := pid
  parentPid := 1
  state := .ready
  ring := .user
  addressSpace := space
  kernelStack := u32 (kstack + KERNEL_STACK_BYTES)
  kernelStackTop := u32 (kstack + KERNEL_STACK_BYTES - 13 * 4)
  kernelStackBottom := kstack
  savedEsp := 0
  userEntry := userEntry
  userEsp := userEsp
  exitCode := 0
  msgQueue := none

/-- The control block `process_create_kernel` fills in. Its kernel stack holds
    the eleven words of `build_kernel_frame`. -/
def kernelProcess (pid space kstack : Nat) : Process where
  pid := pid
  parentPid := 1
  state := .ready
  ring := .kernel
  addressSpace := space
  kernelStack := u32 (kstack + KERNEL_STACK_BYTES)
  kernelStackTop := u32 (kstack + KERNEL_STACK_BYTES - 11 * 4)
  kernelStackBottom := kstack
  savedEsp := 0
  userEntry := 0
  userEsp := 0
  exitCode := 0
  msgQueue := none

/-- Store the new control block at `p`, take the next pid and register it. -/
def registerProcess (s : ProcessSystem) (p : Nat) (proc : Process) : Option ProcessSystem :=
  if s.processTable.length ≥ MAX_PROCESSES then none
  else some { s with
    procs := Function.update s.procs p proc
    processTable := s.processTable ++ [p]
    nextPid := u32 (s.nextPid + 1) }

/-- A registered process is the last entry of the table. -/
theorem registerProcess_eq_some {s t : ProcessSystem} {p : Nat} {proc : Process}
    (h : s.registerProcess p proc = some t) :
    s.processTable.length < MAX_PROCESSES ∧ t.processTable = s.processTable ++ [p] ∧
      t.currentProcess = s.currentProcess ∧ t.procs p = proc ∧
      ∀ q, q ≠ p → t.procs q = s.procs q := by
  rw [registerProcess] at h
  split at h
  · cases h
  · cases h
    exact ⟨Nat.lt_of_not_le ‹_›, rfl, rfl, Function.update_self _ _ _,
      fun q hq => Function.update_of_ne hq _ _⟩

def processCreate (s : ProcessSystem) (p space kstack userEntry userEsp : Nat) :
    Option ProcessSystem :=
  s.registerProcess p (userProcess s.nextPid space kstack userEntry userEsp)

def processCreateKernel (s : ProcessSystem) (p space kstack : Nat) : Option ProcessSystem :=
  s.registerProcess p (kernelProcess s.nextPid space kstack)

/-- `kernel_main` gives a process its initialised queue. -/
def attachQueue (s : ProcessSystem) (p : Nat) (msgs : Nat → IpcMsg) : ProcessSystem :=
  s.modify p fun proc => { proc with msgQueue := some (ipcQueueInit msgs) }

/-! ## Destruction -/

/-- `process_table[i] = process_table[--process_count]` at the first `i` that
    holds `p`. -/
def removeEntry (table : List Nat) (p : Nat) : List Nat :=
  match table.idxOf? p with
  | some i => (table.set i (table.getLastD 0)).dropLast
  | none => table

/-- What `process_destroy` gives back to the allocators, in call order. -/
inductive Release where
  | vmmDestroySpace (space : Nat)
  | pmmFreePage (page : Nat)
  | kfreeQueue (p : Nat)
  | kfree (p : Nat)
deriving DecidableEq, Repr

/-- The calls `process_destroy` makes into the memory managers. -/
def releases (kernelSpace p : Nat) (proc : Process) : List Release :=
  (if proc.ring = .user ∧ proc.addressSpace ≠ kernelSpace then
    [.vmmDestroySpace proc.addressSpace] else []) ++
  (if proc.kernelStackBottom ≠ 0 then
    [.pmmFreePage proc.kernelStackBottom, .pmmFreePage (u32 (proc.kernelStackBottom + 4096))]
    else []) ++
  (if proc.msgQueue.isSome then [.kfreeQueue p] else []) ++ [.kfree p]

/-- `process_destroy`: the calls that give the process's memory back, and the
    process system afterwards. The process is dead and its table entry is
    overwritten by the last one; the scheduler's index is not touched. -/
def processDestroy (kernelSpace : Nat) (s : ProcessSystem) (p : Nat) :
    List Release × ProcessSystem :=
  if p = 0 then ([], s)
  else (releases kernelSpace p (s.procs p),
    { s.setState p .dead with processTable := removeEntry s.processTable p })

/-! ## Switching -/

def processSwitch (s : ProcessSystem) (next : Nat) : ProcessSystem :=
  { s with
    tssEsp0 := if (s.procs next).kernelStack ≠ 0 then (s.procs next).kernelStack else s.tssEsp0
    cr3 := if (s.procs next).addressSpace ≠ 0 then (s.procs next).addressSpace else s.cr3 }

def vmmSwitch (s : ProcessSystem) (space : Nat) : ProcessSystem := { s with cr3 := space }

/-- `process_set_entry`: a new user frame at the top of the kernel stack. -/
def processSetEntry (s : ProcessSystem) (p entry userEsp : Nat) : ProcessSystem :=
  if p = 0 then s
  else s.modify p fun proc =>
    { proc with
      userEntry := entry
      userEsp := userEsp
      kernelStackTop := u32 (proc.kernelStackBottom + KERNEL_STACK_BYTES - 13 * 4) }

/-- The first index below sixteen whose entry is `p`. -/
def indexOf (s : ProcessSystem) (p : Nat) : Option Nat :=
  (List.range 16).find? fun i => s.processGet i = some p

/-- `process_first_enter` on a non-null process: the value is the stack pointer
    it resumes from. -/
def processFirstEnter (s : ProcessSystem) (p : Nat) : Nat × ProcessSystem :=
  let s := (s.setState p .running).processSwitch p
  let s := match s.indexOf p with
    | some i => { s with currentProcess := i }
    | none => s
  ((s.procs p).kernelStackTop, s)

end ProcessSystem

end NemoOS
