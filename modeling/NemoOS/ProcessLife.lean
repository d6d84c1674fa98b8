import NemoOS.Ipc
import NemoOS.Lib.Runs

/-!
# The life of a process

`Op` lists the operations that write process states, the process table or the
scheduler's index, wherever in the source they are; `Step` is the transition
relation they give. Three results about it:

  * `schedulerCurrentProcess_processDestroy_iff`: destroying another process
    leaves the current one in place unless it is the last table entry;
  * `blocked_only_on_empty_queue`: over every run, a blocked process waits on an
    empty queue, and a tick resumes a blocked process only when nothing can run;
  * `dead_is_terminal`: a dead process stays dead as long as it does not itself
    call `ipc_recv` on an empty queue.
-/

namespace NemoOS

open Transition

/-- The operations on processes. `ipcRecv`, `exit` and the sender of `ipcSend`
    are the current process. -/
inductive Op where
  | processCreate (p space kstack userEntry userEsp : Nat)
  | processCreateKernel (p space kstack : Nat)
  | attachQueue (p : Nat) (msgs : Nat → IpcMsg)
  | processFirstEnter (p : Nat)
  | processDestroy (kernelSpace p : Nat)
  | schedulerTick (esp : Nat)
  | ipcSend (view : Nat → UInt8) (targetPid data size : Nat)
  | ipcRecv (sender buf size : Nat)
  | kill (pid : Nat)
  | exit (code : Int)

/-- The operations of running processes: none of them creates a process, destroys
    one or enters the first one. -/
def Op.runtime : Op → Bool
  | .schedulerTick _ | .ipcSend .. | .ipcRecv .. | .kill _ | .exit _ => true
  | _ => false

def Op.destroys : Op → Bool
  | .processDestroy .. => true
  | _ => false

namespace ProcessSystem

def Step (s : ProcessSystem) : Op → ProcessSystem → Prop
  | .processCreate p space kstack userEntry userEsp, t =>
      s.processCreate p space kstack userEntry userEsp = some t
  | .processCreateKernel p space kstack, t => s.processCreateKernel p space kstack = some t
  | .attachQueue p msgs, t => s.attachQueue p msgs = t
  | .processFirstEnter p, t => (s.processFirstEnter p).2 = t
  | .processDestroy kernelSpace p, t => (s.processDestroy kernelSpace p).2 = t
  | .schedulerTick esp, t => (s.schedulerTick esp).2 = t
  | .ipcSend view targetPid data size, t => (s.ipcSend view targetPid data size).2 = t
  | .ipcRecv sender buf size, t => (s.ipcRecv sender buf size).2 = t
  | .kill pid, t => (s.kill pid).2 = t
  | .exit code, t => s.exitCurrent code = t

/-- The operations of running processes are functions of the state. -/
def exec (s : ProcessSystem) : Op → ProcessSystem
  | .schedulerTick esp => (s.schedulerTick esp).2
  | .ipcSend view targetPid data size => (s.ipcSend view targetPid data size).2
  | .ipcRecv sender buf size => (s.ipcRecv sender buf size).2
  | .kill pid => (s.kill pid).2
  | .exit code => s.exitCurrent code
  | _ => s

theorem step_iff_exec {s t : ProcessSystem} {op : Op} (hop : op.runtime = true) :
    s.Step op t ↔ s.exec op = t := by
  cases op <;> first | rfl | simp [Op.runtime] at hop

/-- The state `scheduler_init` leaves, before the first process is created. -/
def Booted (s : ProcessSystem) : Prop := s.processTable = [] ∧ s.currentProcess = -1

/-! ## Removing a table entry -/

theorem removeEntry_getElem? {table : List Nat} {p v i : Nat} (hv : table.idxOf? p = some v)
    (hi : i ≠ v) :
    (removeEntry table p)[i]? = if i + 1 < table.length then table[i]? else none := by
  simp only [removeEntry, hv, List.getElem?_dropLast, List.length_set]
  by_cases hlt : i < table.length - 1
  · rw [if_pos hlt, if_pos (by omega), List.getElem?_set_ne (by omega)]
  · rw [if_neg hlt, if_neg (by omega)]

theorem mem_of_mem_removeEntry {table : List Nat} {p q : Nat}
    (h : q ∈ removeEntry table p) : q ∈ table := by
  unfold removeEntry at h
  split at h
  · rename_i i hi
    rcases List.mem_or_eq_of_mem_set (List.dropLast_subset _ h) with hmem | hlast
    · exact hmem
    · have hne : table ≠ [] := by
        intro hnil
        simp [hnil] at hi
      rw [hlast, List.getLastD_eq_getLast?, List.getLast?_eq_some_getLast hne, Option.getD_some]
      exact List.getLast_mem hne
  · exact h

/-! ## Destroying a process that is not current -/

/-- **Who is current after `process_destroy`.** The victim is overwritten by the
    last entry while the scheduler keeps a position, so the current process stays
    current exactly when it is not the last entry itself. -/
theorem schedulerCurrentProcess_processDestroy_iff (kernelSpace : Nat) (s : ProcessSystem)
    {current victim : Nat} (hcurrent : s.schedulerCurrentProcess = some current)
    (hvictim : victim ∈ s.processTable) (hnull : victim ≠ 0) (hne : victim ≠ current) :
    (s.processDestroy kernelSpace victim).2.schedulerCurrentProcess = some current ↔
      s.currentProcess ≠ s.processTotal - 1 := by
  obtain ⟨hnonneg, hget⟩ := schedulerCurrentProcess_eq_some hcurrent
  obtain ⟨i, hi⟩ : ∃ i : Nat, s.currentProcess = i := ⟨s.currentProcess.toNat, by omega⟩
  rw [hi, processGet_natCast] at hget
  obtain ⟨v, hv⟩ : ∃ v, s.processTable.idxOf? victim = some v := by
    rw [← Option.isSome_iff_exists, List.isSome_idxOf?]
    exact hvictim
  -- the two processes sit at different positions
  have hiv : i ≠ v := by
    rintro rfl
    have hat : s.processTable[i]? = some victim := by
      obtain ⟨hlt, hbeq, -⟩ := List.idxOf?_eq_some_iff.mp hv
      rw [List.getElem?_eq_getElem hlt, hbeq]
    rw [hat] at hget
    exact hne (Option.some.inj hget)
  have hlen : i < s.processTable.length := (List.getElem?_eq_some_iff.mp hget).1
  have hafter : (s.processDestroy kernelSpace victim).2.schedulerCurrentProcess =
      (removeEntry s.processTable victim)[i]? := by
    simp only [processDestroy, if_neg hnull, schedulerCurrentProcess, setState_currentProcess, hi]
    rw [if_neg (by omega), processGet_natCast]
  rw [hafter, removeEntry_getElem? hv hiv, hi, processTotal]
  split
  · simp only [hget, true_iff]
    omega
  · simp only [reduceCtorEq, false_iff]
    omega

/-- A table of kernel processes, each at the address that is its pid, with the
    scheduler at index `current`. -/
def tableOf (table : List Nat) (current : Int) : ProcessSystem where
  procs := fun p => kernelProcess p 0 p
  processTable := table
  currentProcess := current
  nextPid := 1
  tssEsp0 := 0
  cr3 := 0

theorem schedulerCurrentProcess_processDestroy_middle :
    ((tableOf [1, 2, 3] 1).processDestroy 0 1).2.schedulerCurrentProcess = some 2 ∧
      (tableOf [1, 2, 3] 1).currentProcess ≠ (tableOf [1, 2, 3] 1).processTotal - 1 :=
  ⟨(schedulerCurrentProcess_processDestroy_iff 0 (tableOf [1, 2, 3] 1) (by decide) (by decide)
    (by decide) (by decide)).mpr (by decide), by decide⟩

/-- With two processes and the second one current, reaping the first leaves the
    scheduler without a current process. -/
theorem processDestroy_not_keeps_current :
    ¬ ∀ (kernelSpace : Nat) (s : ProcessSystem) (current victim : Nat),
      s.schedulerCurrentProcess = some current → victim ∈ s.processTable → victim ≠ 0 →
      victim ≠ current →
      (s.processDestroy kernelSpace victim).2.schedulerCurrentProcess = some current := by
  intro h
  have hkept := h 0 (tableOf [1, 2] 1) 2 1 (by decide) (by decide) (by decide) (by decide)
  revert hkept
  decide

/-! ## Blocked processes -/

/-- A blocked process waits on a message queue that holds no message. -/
def WaitsOnEmpty (proc : Process) : Prop :=
  proc.state = .blocked → ∃ q, proc.msgQueue = some q ∧ q.count = 0

structure BlockedInv (s : ProcessSystem) : Prop where
  current_ge : -1 ≤ s.currentProcess
  waits : ∀ p ∈ s.processTable, WaitsOnEmpty (s.procs p)

theorem waitsOnEmpty_of_ne {proc : Process} (h : proc.state ≠ .blocked) : WaitsOnEmpty proc :=
  fun hb => absurd hb h

/-- Writing one control block keeps the invariant when the new block satisfies
    it. Every operation but creation and destruction goes through this. -/
theorem BlockedInv.modify {s : ProcessSystem} (h : BlockedInv s) (p : Nat) (f : Process → Process)
    (hf : p ∈ s.processTable → WaitsOnEmpty (f (s.procs p))) : BlockedInv (s.modify p f) where
  current_ge := h.current_ge
  waits := by
    intro q hq
    by_cases hqp : q = p
    · subst hqp
      rw [modify_procs_self]
      exact hf hq
    · rw [modify_procs_of_ne s p f hqp]
      exact h.waits q hq

theorem BlockedInv.setState {s : ProcessSystem} (h : BlockedInv s) (p : Nat) {state : TaskState}
    (hstate : state ≠ .blocked) : BlockedInv (s.setState p state) :=
  h.modify p _ fun _ => waitsOnEmpty_of_ne hstate

theorem BlockedInv.registerProcess {s t : ProcessSystem} (h : BlockedInv s) {p : Nat}
    {proc : Process} (hproc : proc.state = .ready) (hreg : s.registerProcess p proc = some t) :
    BlockedInv t := by
  unfold ProcessSystem.registerProcess at hreg
  split at hreg
  · cases hreg
  · cases hreg
    refine ⟨h.current_ge, ?_⟩
    intro q hq
    by_cases hqp : q = p
    · subst hqp
      exact waitsOnEmpty_of_ne (by simp [hproc])
    · have hmem : q ∈ s.processTable := by simpa [hqp] using hq
      simpa [hqp] using h.waits q hmem

theorem BlockedInv.processFirstEnter {s : ProcessSystem} (h : BlockedInv s) (p : Nat) :
    BlockedInv (s.processFirstEnter p).2 := by
  have hset : BlockedInv (s.setState p .running) := h.setState p (by simp)
  have hswitch : BlockedInv ((s.setState p .running).processSwitch p) :=
    ⟨hset.current_ge, hset.waits⟩
  unfold ProcessSystem.processFirstEnter
  dsimp only
  split
  · exact ⟨by simp only; omega, hswitch.waits⟩
  · exact hswitch

theorem BlockedInv.processDestroy {s : ProcessSystem} (h : BlockedInv s) (kernelSpace p : Nat) :
    BlockedInv (s.processDestroy kernelSpace p).2 := by
  unfold ProcessSystem.processDestroy
  split
  · exact h
  · have hdead : BlockedInv (s.setState p .dead) := h.setState p (by simp)
    exact ⟨hdead.current_ge, fun q hq => hdead.waits q (mem_of_mem_removeEntry hq)⟩

theorem saveProc_waitsOnEmpty {esp : Nat} {proc : Process} (h : WaitsOnEmpty proc) :
    WaitsOnEmpty (saveProc esp proc) := by
  intro hb
  rw [saveProc_state] at hb
  split at hb
  · cases hb
  · simpa using h hb

theorem BlockedInv.saveContext {s : ProcessSystem} (h : BlockedInv s) (esp : Nat) :
    BlockedInv (s.saveContext esp) := by
  unfold ProcessSystem.saveContext
  split
  · exact h.modify _ _ fun hp => saveProc_waitsOnEmpty (h.waits _ hp)
  · exact h

theorem BlockedInv.schedulerTick {s : ProcessSystem} (h : BlockedInv s) (esp : Nat) :
    BlockedInv (s.schedulerTick esp).2 := by
  rcases s.schedulerTick_cases esp with ⟨idx, next, -, hget, -, heq⟩ | ⟨-, heq, -⟩
  · rw [heq]
    have hsaved := h.saveContext esp
    have hswitch : BlockedInv ((s.saveContext esp).processSwitch next) :=
      ⟨hsaved.current_ge, hsaved.waits⟩
    have hrun : BlockedInv (((s.saveContext esp).processSwitch next).setState next .running) :=
      hswitch.setState next (by simp)
    have hidx := (processGet_eq_some hget).1
    exact ⟨by simp only [switchedTo]; omega, hrun.waits⟩
  · rw [heq]
    exact h.saveContext esp

/-- A delivered message and the wake-up happen in the same step. -/
theorem BlockedInv.ipcSend {s : ProcessSystem} (h : BlockedInv s) (view : Nat → UInt8)
    (targetPid data size : Nat) : BlockedInv (s.ipcSend view targetPid data size).2 := by
  rcases s.ipcSend_cases view targetPid data size with heq | ⟨p, q, -, -, -, -, -, -, -, heq⟩
  · rw [heq]
    exact h
  · rw [heq]
    refine h.modify p _ fun _ => waitsOnEmpty_of_ne ?_
    simp only [deliver]
    split
    · simp
    · assumption

theorem BlockedInv.ipcRecv {s : ProcessSystem} (h : BlockedInv s) (sender buf size : Nat) :
    BlockedInv (s.ipcRecv sender buf size).2 := by
  rcases s.ipcRecv_cases sender buf size with
    heq | ⟨me, q, hme, -, -, hqueue, ⟨hempty, heq⟩ | ⟨hpos, heq⟩⟩
  · rw [heq]
    exact h
  · rw [heq]
    exact h.modify me (fun proc => { proc with state := .blocked }) fun _ _ =>
      ⟨q, hqueue, hempty⟩
  · rw [heq]
    refine h.modify me (takeMessage q) fun hmem hb => ?_
    -- a caller that is still marked blocked would have an empty queue
    obtain ⟨q', hq', hzero⟩ := h.waits me hmem hb
    rw [hqueue] at hq'
    cases hq'
    omega

theorem BlockedInv.step {s t : ProcessSystem} {op : Op} (h : BlockedInv s) (hstep : s.Step op t) :
    BlockedInv t := by
  cases op with
  | processCreate p space kstack userEntry userEsp => exact h.registerProcess rfl hstep
  | processCreateKernel p space kstack => exact h.registerProcess rfl hstep
  | attachQueue p msgs =>
    cases hstep
    exact h.modify p _ fun _ _ => ⟨_, rfl, rfl⟩
  | processFirstEnter p => cases hstep; exact h.processFirstEnter p
  | processDestroy kernelSpace p => cases hstep; exact h.processDestroy kernelSpace p
  | schedulerTick esp => cases hstep; exact h.schedulerTick esp
  | ipcSend view targetPid data size => cases hstep; exact h.ipcSend view targetPid data size
  | ipcRecv sender buf size => cases hstep; exact h.ipcRecv sender buf size
  | kill pid =>
    cases hstep
    unfold kill
    split
    · exact h.setState _ (by simp)
    · exact h
  | exit code =>
    cases hstep
    unfold exitCurrent
    split
    · exact h.modify _ _ fun _ => waitsOnEmpty_of_ne (by simp)
    · exact h

theorem BlockedInv.run {s t : ProcessSystem} {ops : List Op} (hboot : Booted s)
    (hrun : Run Step s ops t) : BlockedInv t :=
  hrun.invariant BlockedInv ⟨by simp [hboot.2], by simp [hboot.1]⟩ fun _ _ _ h hstep => h.step hstep

/-- **No lost wake-up.** In every state reachable from boot a blocked process has
    a message queue without messages; and whenever some process is runnable, a
    tick resumes the stored context of a process that was not blocked. -/
theorem blocked_only_on_empty_queue {s t : ProcessSystem} {ops : List Op} (hboot : Booted s)
    (hrun : Run Step s ops t) :
    (∀ p ∈ t.processTable, (t.procs p).state = .blocked →
      ∃ q, (t.procs p).msgQueue = some q ∧ q.count = 0) ∧
    ∀ esp, (∃ r ∈ t.processTable, (t.procs r).runnable) →
      ∃ next, (t.schedulerTick esp).2.schedulerCurrentProcess = some next ∧
        (t.procs next).state ≠ .blocked ∧
        (t.schedulerTick esp).1 = resumeEsp ((t.saveContext esp).procs next) := by
  have hinv := BlockedInv.run hboot hrun
  refine ⟨hinv.waits, ?_⟩
  rintro esp ⟨r, hr, hrunnable⟩
  rcases t.schedulerTick_cases esp with ⟨idx, next, -, hget, hnext, heq⟩ | ⟨-, -, hnone⟩
  · rw [heq]
    exact ⟨next, switchedTo_current hget esp, hnext.2, rfl⟩
  · exact absurd hrunnable (hnone hinv.current_ge r hr)

/-- A process that blocks on its own empty queue while another one is ready. -/
theorem blocked_only_on_empty_queue_recv :
    ∃ t, Run Step (tableOf [] (-1))
        [.processCreateKernel 4096 0 8192, .attachQueue 4096 (fun _ => ⟨0, 0, fun _ => 0⟩),
          .processCreateKernel 5120 0 16384, .processFirstEnter 4096, .ipcRecv 0 1 1] t ∧
      (t.procs 4096).state = .blocked ∧
      (∃ q, (t.procs 4096).msgQueue = some q ∧ q.count = 0) ∧
      ∃ next, (t.schedulerTick 7).2.schedulerCurrentProcess = some next ∧
        (t.procs next).state ≠ .blocked := by
  have hrun : Run Step (tableOf [] (-1))
      [.processCreateKernel 4096 0 8192, .attachQueue 4096 (fun _ => ⟨0, 0, fun _ => 0⟩),
        .processCreateKernel 5120 0 16384, .processFirstEnter 4096, .ipcRecv 0 1 1] _ :=
    .cons rfl <| .cons rfl <| .cons rfl <| .cons rfl <| .cons rfl .nil
  obtain ⟨hwaits, hresumes⟩ := blocked_only_on_empty_queue ⟨rfl, rfl⟩ hrun
  obtain ⟨next, hcurrent, hstate, -⟩ := hresumes 7 ⟨5120, by decide, by decide⟩
  exact ⟨_, hrun, by decide, hwaits 4096 (by decide) (by decide), next, hcurrent, hstate⟩

/-! ## Dead processes -/

/-- The one step that writes the state of a dead process: it is still current and
    calls `ipc_recv`, which finds its queue empty. -/
def RevivesDead (s : ProcessSystem) : Op → Prop
  | .ipcRecv _ buf size => buf ≠ 0 ∧ size ≠ 0 ∧
      ∃ me q, s.schedulerCurrentProcess = some me ∧ (s.procs me).state = .dead ∧
        (s.procs me).msgQueue = some q ∧ q.count = 0
  | _ => False

/-- A store through a pointer keeps a process dead unless it writes that
    process's state. -/
theorem modify_dead {s : ProcessSystem} {p q : Nat} {f : Process → Process}
    (hdead : (s.procs p).state = .dead)
    (hf : p = q → (f (s.procs p)).state = .dead) : ((s.modify q f).procs p).state = .dead := by
  by_cases hpq : p = q
  · subst hpq
    rw [modify_procs_self]
    exact hf rfl
  · rwa [modify_procs_of_ne s q f hpq]

theorem setState_dead {s : ProcessSystem} {p : Nat} (hdead : (s.procs p).state = .dead) (q : Nat) :
    ((s.setState q .dead).procs p).state = .dead :=
  modify_dead hdead fun _ => rfl

theorem saveContext_dead {s : ProcessSystem} {p : Nat} (hdead : (s.procs p).state = .dead)
    (esp : Nat) : ((s.saveContext esp).procs p).state = .dead := by
  rw [saveContext_procs]
  split
  · rw [saveProc_state]
    simp [hdead]
  · exact hdead

theorem schedulerTick_dead {s : ProcessSystem} {p : Nat} (hdead : (s.procs p).state = .dead)
    (esp : Nat) : ((s.schedulerTick esp).2.procs p).state = .dead := by
  rcases s.schedulerTick_cases esp with ⟨idx, next, -, -, hnext, heq⟩ | ⟨-, heq, -⟩
  · rw [heq]
    have hne : p ≠ next := by
      rintro rfl
      exact hnext.1 hdead
    have hkept : (s.switchedTo esp idx next).procs p = (s.saveContext esp).procs p :=
      setState_procs_of_ne _ _ _ hne
    rw [hkept]
    exact saveContext_dead hdead esp
  · rw [heq]
    exact saveContext_dead hdead esp

theorem ipcSend_dead {s : ProcessSystem} {p : Nat} (hdead : (s.procs p).state = .dead)
    (view : Nat → UInt8) (targetPid data size : Nat) :
    ((s.ipcSend view targetPid data size).2.procs p).state = .dead := by
  rcases s.ipcSend_cases view targetPid data size with heq | ⟨q, queue, -, halive, -, -, -, -, -, heq⟩
  · rwa [heq]
  · rw [heq]
    refine modify_dead hdead ?_
    rintro rfl
    exact absurd hdead halive

/-- A receive keeps every dead process dead, except the caller that blocks. -/
theorem ipcRecv_dead_iff {s : ProcessSystem} {p : Nat} (hdead : (s.procs p).state = .dead)
    (sender buf size : Nat) :
    ((s.ipcRecv sender buf size).2.procs p).state = .dead ↔
      ¬ (s.RevivesDead (.ipcRecv sender buf size) ∧ s.schedulerCurrentProcess = some p) := by
  have hunused : ∀ q, (s.procs p).msgQueue = some q → 0 < q.count →
      s.schedulerCurrentProcess = some p →
      ¬ s.RevivesDead (.ipcRecv sender buf size) := by
    rintro q hq hpos hp ⟨-, -, me, q', hme, -, hq', hzero⟩
    rw [hp] at hme
    cases hme
    rw [hq] at hq'
    cases hq'
    omega
  rcases s.ipcRecv_cases sender buf size with
    heq | ⟨me, q, hme, hbuf, hsize, hqueue, ⟨hempty, heq⟩ | ⟨hpos, heq⟩⟩
  · -- a failed call changes nothing, and a call that would block does not fail
    rw [heq]
    refine iff_of_true hdead ?_
    rintro ⟨⟨hbuf, hsize, me, q, hme, -, hqueue, hempty⟩, -⟩
    simp [ipcRecv, hme, hbuf, hsize, hqueue, hempty, RecvResult.failed] at heq
  · rw [heq]
    by_cases hp : p = me
    · subst hp
      refine iff_of_false (by simp) ?_
      exact not_not_intro ⟨⟨hbuf, by omega, p, q, hme, hdead, hqueue, hempty⟩, hme⟩
    · refine iff_of_true (by rwa [setState_procs_of_ne s me .blocked hp]) ?_
      rintro ⟨-, hcurrent⟩
      rw [hme] at hcurrent
      cases hcurrent
      exact hp rfl
  · rw [heq]
    refine iff_of_true (modify_dead hdead fun _ => hdead) ?_
    rintro ⟨hrevives, hcurrent⟩
    rw [hme] at hcurrent
    cases hcurrent
    exact hunused q hqueue hpos hme hrevives

/-- **What one step does to a dead process.** -/
theorem step_dead_iff {s t : ProcessSystem} {op : Op} {p : Nat}
    (hop : op.runtime = true ∨ op.destroys = true) (hstep : s.Step op t)
    (hdead : (s.procs p).state = .dead) :
    (t.procs p).state = .dead ↔ ¬ (s.RevivesDead op ∧ s.schedulerCurrentProcess = some p) := by
  cases op with
  | processCreate | processCreateKernel | attachQueue | processFirstEnter =>
    simp [Op.runtime, Op.destroys] at hop
  | ipcRecv sender buf size => cases hstep; exact ipcRecv_dead_iff hdead sender buf size
  | processDestroy kernelSpace q =>
    refine iff_of_true ?_ (fun h => h.1.elim)
    cases hstep
    unfold processDestroy
    split
    · exact hdead
    · exact setState_dead hdead q
  | schedulerTick esp =>
    refine iff_of_true ?_ (fun h => h.1.elim)
    cases hstep
    exact schedulerTick_dead hdead esp
  | ipcSend view targetPid data size =>
    refine iff_of_true ?_ (fun h => h.1.elim)
    cases hstep
    exact ipcSend_dead hdead view targetPid data size
  | kill pid =>
    refine iff_of_true ?_ (fun h => h.1.elim)
    cases hstep
    unfold kill
    split
    · exact setState_dead hdead _
    · exact hdead
  | exit code =>
    refine iff_of_true ?_ (fun h => h.1.elim)
    cases hstep
    unfold exitCurrent
    split
    · exact modify_dead hdead fun _ => rfl
    · exact hdead

/-- **A dead process stays dead.** In every run of ticks, sends, receives, kills,
    exits and destructions in which no dead process blocks itself in `ipc_recv`,
    a process that is dead at the start is dead at the end. -/
theorem dead_is_terminal {s t : ProcessSystem} {ops : List Op} {p : Nat}
    (hrun : Run (Guarded
      (fun s op => (op.runtime = true ∨ op.destroys = true) ∧ ¬ s.RevivesDead op) Step) s ops t)
    (hdead : (s.procs p).state = .dead) : (t.procs p).state = .dead := by
  refine hrun.invariant (fun s => (s.procs p).state = .dead) hdead ?_
  rintro a op b ha ⟨⟨hop, hok⟩, hstep⟩
  exact (step_dead_iff hop hstep ha).mpr fun h => hok h.1

/-- A killed process that is switched away from, and two later steps. -/
theorem dead_is_terminal_killed :
    ∃ t, Run (Guarded
        (fun s op => (op.runtime = true ∨ op.destroys = true) ∧ ¬ s.RevivesDead op) Step)
        ((tableOf [1, 2] 0).setState 1 .dead) [.schedulerTick 7, .ipcRecv 0 1 1] t ∧
      (t.procs 1).state = .dead := by
  have hok : ¬ (((tableOf [1, 2] 0).setState 1 .dead).schedulerTick 7).2.RevivesDead
      (.ipcRecv 0 1 1) := by
    rintro ⟨-, -, me, q, hme, -, hqueue, -⟩
    have hcurrent : (((tableOf [1, 2] 0).setState 1 .dead).schedulerTick
        7).2.schedulerCurrentProcess = some 2 := by decide
    rw [hcurrent] at hme
    cases hme
    cases hqueue
  have hrun : Run (Guarded
      (fun s op => (op.runtime = true ∨ op.destroys = true) ∧ ¬ s.RevivesDead op) Step)
      ((tableOf [1, 2] 0).setState 1 .dead) [.schedulerTick 7, .ipcRecv 0 1 1] _ :=
    .cons ⟨⟨Or.inl rfl, id⟩, rfl⟩ <| .cons ⟨⟨Or.inl rfl, hok⟩, rfl⟩ .nil
  exact ⟨_, hrun, dead_is_terminal hrun (by decide)⟩

/-- A process that kills itself and then calls `ipc_recv` before the next tick is
    blocked, no longer dead. -/
theorem ipcRecv_revives_dead :
    ∃ s t, Run Step (tableOf [] (-1))
        [.processCreateKernel 4096 0 8192, .attachQueue 4096 (fun _ => ⟨0, 0, fun _ => 0⟩),
          .processFirstEnter 4096, .kill 1] s ∧
      (s.procs 4096).state = .dead ∧
      Run Step s [.ipcRecv 0 1 1] t ∧ 4096 ∈ t.processTable ∧ (t.procs 4096).state ≠ .dead :=
  ⟨_, _, .cons rfl <| .cons rfl <| .cons rfl <| .cons rfl .nil, by decide, .cons rfl .nil,
    by decide, by decide⟩

end ProcessSystem

end NemoOS
