import NemoOS.Exec
import NemoOS.Syscall

/-!
# The process system without contexts

`scheduler_tick` is given a stack pointer and keeps it in the control block. No decision of
the process system depends on these values: which process is next, who is woken, what a system
call returns. `forget` removes them, and every operation commutes with it. With stack pointers
that are all 0 the operations are those of a system in which each process has a processor of
its own, and scheduling only says whose turn it is.
-/

namespace NemoOS

/-- The control block without the saved stack pointer. -/
def Process.forget (proc : Process) : Process := { proc with savedEsp := 0 }

namespace ProcessSystem

def forget (s : ProcessSystem) : ProcessSystem := { s with procs := fun p => (s.procs p).forget }

section Fields

variable (s : ProcessSystem)

@[simp] theorem forget_procs (p : Nat) : s.forget.procs p = (s.procs p).forget := rfl
@[simp] theorem forget_processTable : s.forget.processTable = s.processTable := rfl
@[simp] theorem forget_currentProcess : s.forget.currentProcess = s.currentProcess := rfl
@[simp] theorem forget_nextPid : s.forget.nextPid = s.nextPid := rfl

@[simp] theorem forget_processGet (i : Int) : s.forget.processGet i = s.processGet i := rfl

@[simp] theorem forget_schedulerCurrentProcess :
    s.forget.schedulerCurrentProcess = s.schedulerCurrentProcess := rfl

@[simp] theorem forget_findPid (pid : Nat) : s.forget.findPid pid = s.findPid pid := rfl

@[simp] theorem forget_senderPid : s.forget.senderPid = s.senderPid := rfl

@[simp] theorem forget_findNextLoop (start : Int) (step n : Nat) :
    s.forget.findNextLoop start step n = s.findNextLoop start step n := by
  induction n generalizing step with
  | zero => rfl
  | succ n ih =>
      simp only [findNextLoop, ih]
      rfl

@[simp] theorem forget_findNext (start : Int) : s.forget.findNext start = s.findNext start := by
  simp [findNext, processTotal]

@[simp] theorem forget_tickTarget : s.forget.tickTarget = s.tickTarget := by
  simp [tickTarget]

end Fields

/-! ## Operations -/

theorem forget_modify (s : ProcessSystem) (p : Nat) {f g : Process → Process}
    (h : ∀ proc, (f proc).forget = g proc.forget) :
    (s.modify p f).forget = s.forget.modify p g := by
  have hprocs : (s.modify p f).forget.procs = (s.forget.modify p g).procs := by
    funext q
    by_cases hq : q = p
    · subst hq
      simp [h]
    · simp [modify_procs_of_ne _ _ _ hq]
  exact congrArg (fun procs => { s with procs := procs }) hprocs

theorem forget_setState (s : ProcessSystem) (p : Nat) (state : TaskState) :
    (s.setState p state).forget = s.forget.setState p state :=
  forget_modify s p fun _ => rfl

theorem forget_saveContext (s : ProcessSystem) (esp : Nat) :
    (s.saveContext esp).forget = s.forget.saveContext 0 := by
  unfold saveContext
  rw [forget_schedulerCurrentProcess]
  cases s.schedulerCurrentProcess with
  | none => rfl
  | some p =>
      refine forget_modify s p fun proc => ?_
      cases hstate : proc.state <;> simp [saveProc, Process.forget, hstate]

/-- A tick switches to the same process, whatever the stack pointers are. -/
theorem forget_schedulerTick (s : ProcessSystem) (esp : Nat) :
    (s.schedulerTick esp).2.forget = (s.forget.schedulerTick 0).2 := by
  have htarget : (s.forget.saveContext 0).tickTarget = (s.saveContext esp).tickTarget := by
    rw [← forget_saveContext s esp, forget_tickTarget]
  have hnext : (s.forget.saveContext 0).findNext (s.forget.saveContext 0).currentProcess =
      (s.saveContext esp).findNext (s.saveContext esp).currentProcess := by
    rw [← forget_saveContext s esp, forget_findNext, forget_currentProcess]
  by_cases hempty : s.processTotal = 0
  · have hempty' : s.forget.processTotal = 0 := hempty
    simp [schedulerTick, hempty, hempty']
  · have hempty' : s.forget.processTotal ≠ 0 := hempty
    simp only [schedulerTick, if_neg hempty, if_neg hempty', htarget, hnext]
    cases (s.saveContext esp).tickTarget with
    | none => exact forget_saveContext s esp
    | some next =>
        simp only [← forget_saveContext s esp]
        exact congrArg (fun t : ProcessSystem => { t with
            currentProcess := (s.saveContext esp).findNext (s.saveContext esp).currentProcess })
          (forget_setState ((s.saveContext esp).processSwitch next) next .running)

theorem forget_kill (s : ProcessSystem) (pid : Nat) :
    (s.kill pid).2.forget = (s.forget.kill pid).2 ∧ (s.forget.kill pid).1 = (s.kill pid).1 := by
  rw [kill, kill, forget_findPid]
  cases s.findPid pid with
  | none => exact ⟨rfl, rfl⟩
  | some p => exact ⟨forget_setState s p .dead, rfl⟩

theorem forget_exitCurrent (s : ProcessSystem) (code : Int) :
    (s.exitCurrent code).forget = s.forget.exitCurrent code := by
  rw [exitCurrent, exitCurrent, forget_schedulerCurrentProcess]
  cases s.schedulerCurrentProcess with
  | none => rfl
  | some p => exact forget_modify s p fun _ => rfl

theorem forget_ipcSend (s : ProcessSystem) (view : Nat → UInt8) (targetPid data size : Nat) :
    (s.ipcSend view targetPid data size).2.forget = (s.forget.ipcSend view targetPid data size).2 ∧
      (s.forget.ipcSend view targetPid data size).1 = (s.ipcSend view targetPid data size).1 := by
  simp only [ipcSend, forget_findPid, forget_procs, forget_senderPid, Process.forget]
  split
  · exact ⟨rfl, rfl⟩
  · cases s.findPid targetPid with
    | none => exact ⟨rfl, rfl⟩
    | some p =>
        by_cases hdead : (s.procs p).state = .dead
        · simp [hdead]
        · simp only [hdead, if_false]
          cases (s.procs p).msgQueue with
          | none => exact ⟨rfl, rfl⟩
          | some q =>
              dsimp only
              split
              · exact ⟨rfl, rfl⟩
              · exact ⟨forget_modify s p fun _ => rfl, rfl⟩

theorem forget_ipcRecv (s : ProcessSystem) (sender buf size : Nat) :
    (s.ipcRecv sender buf size).2.forget = (s.forget.ipcRecv sender buf size).2 ∧
      (s.forget.ipcRecv sender buf size).1 = (s.ipcRecv sender buf size).1 := by
  simp only [ipcRecv, forget_schedulerCurrentProcess, forget_procs, Process.forget]
  cases s.schedulerCurrentProcess with
  | none => exact ⟨rfl, rfl⟩
  | some me =>
      dsimp only
      split
      · exact ⟨rfl, rfl⟩
      · cases (s.procs me).msgQueue with
        | none => exact ⟨rfl, rfl⟩
        | some q =>
            dsimp only
            split
            · exact ⟨forget_setState s me .blocked, rfl⟩
            · exact ⟨forget_modify s me fun _ => rfl, rfl⟩

theorem forget_processDestroy (kernelSpace : Nat) (s : ProcessSystem) (p : Nat) :
    (s.processDestroy kernelSpace p).2.forget = (s.forget.processDestroy kernelSpace p).2 := by
  unfold processDestroy
  split
  · rfl
  · exact congrArg (fun t : ProcessSystem => { t with
      processTable := removeEntry s.processTable p }) (forget_setState s p .dead)

theorem forget_registerProcess (s : ProcessSystem) (p : Nat) (proc : Process)
    (hproc : proc.savedEsp = 0) :
    (s.registerProcess p proc).map forget = s.forget.registerProcess p proc := by
  unfold registerProcess
  rw [forget_processTable]
  split
  · rfl
  · have hforget : proc.forget = proc := by simp [Process.forget, ← hproc]
    have hprocs := congrArg procs (forget_modify s p (f := fun _ => proc) (g := fun _ => proc)
      fun _ => hforget)
    exact congrArg (fun procs => some { s with
      procs := procs, processTable := s.processTable ++ [p], nextPid := Words.u32 (s.nextPid + 1) })
      hprocs

theorem forget_processSetEntry (s : ProcessSystem) (p entry userEsp : Nat) :
    (s.processSetEntry p entry userEsp).forget = s.forget.processSetEntry p entry userEsp := by
  unfold processSetEntry
  split
  · rfl
  · exact forget_modify s p fun _ => rfl

theorem forget_attachQueue (s : ProcessSystem) (p : Nat) (msgs : Nat → IpcMsg) :
    (s.attachQueue p msgs).forget = s.forget.attachQueue p msgs :=
  forget_modify s p fun _ => rfl

theorem forget_processFirstEnter (s : ProcessSystem) (p : Nat) :
    (s.processFirstEnter p).2.forget = (s.forget.processFirstEnter p).2 := by
  have hswitch : ((s.setState p .running).processSwitch p).forget =
      (s.forget.setState p .running).processSwitch p := by
    rw [← forget_setState]
    rfl
  have hindex : ((s.forget.setState p .running).processSwitch p).indexOf p =
      ((s.setState p .running).processSwitch p).indexOf p := rfl
  simp only [processFirstEnter, hindex]
  cases ((s.setState p .running).processSwitch p).indexOf p with
  | none => exact hswitch
  | some i => exact congrArg (fun t : ProcessSystem => { t with currentProcess := i }) hswitch

/-- The calls of processes. -/
theorem forget_exec (s : ProcessSystem) {op : Op} (hcall : op.isCall = true) :
    (s.exec op).forget = s.forget.exec op := by
  cases op with
  | ipcSend view targetPid data size => exact (forget_ipcSend s view targetPid data size).1
  | ipcRecv sender buf size => exact (forget_ipcRecv s sender buf size).1
  | kill pid => exact (forget_kill s pid).1
  | exit code => exact forget_exitCurrent s code
  | _ => simp [Op.isCall] at hcall

end ProcessSystem

/-! ## System calls -/

namespace Kernel

def forget (k : Kernel) : Kernel := { k with sys := k.sys.forget }

theorem forget_waitChild (k : Kernel) (pid : Int) :
    (k.waitChild pid).2.forget = (k.forget.waitChild pid).2 ∧
      (k.forget.waitChild pid).1 = (k.waitChild pid).1 := by
  have hchild : ∀ me, findChild k.forget.sys me pid = findChild k.sys me pid := fun _ => rfl
  have hcurrent : k.forget.sys.schedulerCurrentProcess = k.sys.schedulerCurrentProcess := rfl
  simp only [waitChild, hcurrent, hchild]
  cases k.sys.schedulerCurrentProcess with
  | none => exact ⟨rfl, rfl⟩
  | some me =>
      dsimp only
      cases findChild k.sys me pid with
      | none => exact ⟨rfl, rfl⟩
      | some child =>
          exact ⟨congrArg (fun sys => { k with sys := sys })
            (ProcessSystem.forget_processDestroy k.kernelSpace k.sys child), rfl⟩

/-- **System calls do not depend on contexts.** -/
theorem forget_syscallDispatch (k : Kernel) (view : Nat → UInt8) (eax ebx ecx edx : Nat) :
    (k.syscallDispatch view eax ebx ecx edx).2.forget =
        (k.forget.syscallDispatch view eax ebx ecx edx).2 ∧
      (k.forget.syscallDispatch view eax ebx ecx edx).1 =
        (k.syscallDispatch view eax ebx ecx edx).1 := by
  have hsys : ∀ {s t : ProcessSystem}, s.forget = t →
      Kernel.forget { k with sys := s } = { k.forget with sys := t } := by
    rintro s t rfl
    rfl
  unfold syscallDispatch
  split
  · exact ⟨rfl, rfl⟩
  · split <;> exact ⟨rfl, rfl⟩
  · split <;> exact ⟨rfl, rfl⟩
  · exact ⟨hsys (k.sys.forget_exitCurrent _), rfl⟩
  · obtain ⟨hkernel, hret⟩ := k.forget_waitChild (signed ebx)
    exact ⟨hkernel, congrArg SyscallResult.value hret⟩
  · obtain ⟨hkill, hret⟩ := k.sys.forget_kill ebx
    refine ⟨hsys hkill, ?_⟩
    dsimp only
    exact congrArg (fun found => SyscallResult.value (if found then 0 else 0xFFFFFFFF)) hret
  · obtain ⟨hsend, hret⟩ := k.sys.forget_ipcSend view ebx ecx edx
    exact ⟨hsys hsend, congrArg (fun r : SendResult =>
      (⟨unsigned r.ret, r.reads, []⟩ : SyscallResult)) hret⟩
  · obtain ⟨hrecv, hret⟩ := k.sys.forget_ipcRecv 0 ebx ecx
    have hret' : (k.forget.sys.ipcRecv 0 ebx ecx).1 = (k.sys.ipcRecv 0 ebx ecx).1 := hret
    refine ⟨hsys hrecv, ?_⟩
    dsimp only
    rw [hret']
  · exact ⟨rfl, rfl⟩

end Kernel

end NemoOS
