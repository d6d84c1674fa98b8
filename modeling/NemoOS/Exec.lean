import NemoOS.ProcessLife
import NemoOS.Elf

/-!
# The shell's `exec` under timer ticks

`exec` creates a process, switches to its address space, loads the file, switches back and
sets the entry point. The shell runs with interrupts enabled, so that a tick can come
between any two of these steps and between any two rounds of the loader's loops. The model
starts where `process_create` has registered the process; what the shell has left to do is
a list of steps (`todo`), of which it takes one whenever it is the current process.

Two things go wrong. The process is in the table before its entry point is set
(`exec_not_selected_iff`), and a tick that comes back to the shell has loaded `cr3` from
the shell's control block, so that the loader goes on in the kernel's space
(`exec_stores_in_space_iff`).
-/

namespace NemoOS

open Transition Bytes

inductive ExecStep where
  | enterSpace
  | load (a : LoadAction)
  | leaveSpace
  | finish
deriving DecidableEq, Repr

def ExecStep.isLoad : ExecStep → Bool
  | .load _ => true
  | _ => false

/-- The rounds of the loader and the two steps after it. -/
def loadSteps (acts : List LoadAction) : List ExecStep :=
  acts.map .load ++ [.leaveSpace, .finish]

/-- The control block of the shell, what `process_create` got for the new process, the
    kernel's space and the file. -/
structure ExecCall where
  shell : Nat
  proc : Nat
  space : Nat
  kstack : Nat
  kernelSpace : Nat
  file : Option Memory

/-- `USER_STACK_TOP`. -/
def USER_STACK_TOP : Nat := 0x40002000

namespace ExecCall

variable (c : ExecCall)

/-- The steps after `process_create`, if the loader has the pages it asks for. -/
def program : List ExecStep := .enterSpace :: loadSteps (loadActions c.file)

/-- `elf_load_into` returns -1 before its first round. -/
def rejected : Bool :=
  match c.file with
  | none => true
  | some image => !validHeader image

/-- `info.entry`. -/
def entry : Nat :=
  match c.file with
  | none => 0
  | some image => hdrEntry image

end ExecCall

/-- `interrupted`: there was a tick since the shell's first `vmm_switch`. `stores` has the
    active space at every byte that the loader has stored, `early` the processes that ticks
    have selected before the end of `exec`. -/
structure Exec where
  sys : ProcessSystem
  load : Load
  todo : List ExecStep
  failed : Bool
  interrupted : Bool
  stores : List Nat
  early : List Nat

namespace Exec

def start (c : ExecCall) (sys : ProcessSystem) (load : Load) : Exec where
  sys := sys
  load := load
  todo := c.program
  failed := c.rejected
  interrupted := false
  stores := []
  early := []

/-- The active space, if the round stores a byte. -/
def storedIn (active : Nat) : LoadAction → List Nat
  | .map .. => []
  | .store .. => [active]

/-- A round of the loader. Where there is no page for a segment the loader returns. -/
def loadRound (c : ExecCall) (x : Exec) (a : LoadAction) (rest : List ExecStep) : Exec :=
  let (ok, load) := x.load.act c.space x.sys.cr3 a
  { x with
    load := load
    failed := x.failed || !ok
    todo := if ok then rest else rest.dropWhile ExecStep.isLoad
    stores := storedIn x.sys.cr3 a ++ x.stores }

/-- The next step of the shell. -/
def shellStep (c : ExecCall) (x : Exec) : Exec :=
  match x.todo with
  | [] => x
  | .enterSpace :: rest =>
      { x with sys := x.sys.vmmSwitch c.space, todo := rest, interrupted := false }
  | .load a :: rest => x.loadRound c a rest
  | .leaveSpace :: rest => { x with sys := x.sys.vmmSwitch c.kernelSpace, todo := rest }
  | .finish :: rest =>
      { x with
        sys := if x.failed then (x.sys.processDestroy c.kernelSpace c.proc).2
          else x.sys.processSetEntry c.proc c.entry USER_STACK_TOP
        todo := rest }

def tick (x : Exec) (esp : Nat) : Exec :=
  { x with
    sys := (x.sys.schedulerTick esp).2
    interrupted := true
    early := if x.todo = [] then x.early
      else (x.sys.saveContext esp).tickTarget.toList ++ x.early }

end Exec

/-- `other` is a call of another process than the shell. -/
inductive ExecEvent where
  | tick (esp : Nat)
  | shell
  | other (op : Op)

/-- The calls that a process can make. -/
def Op.isCall : Op → Bool
  | .ipcSend .. | .ipcRecv .. | .kill _ | .exit _ => true
  | _ => false

namespace Exec

inductive Step (c : ExecCall) (x : Exec) : ExecEvent → Exec → Prop where
  | tick (esp : Nat) : Step c x (.tick esp) (x.tick esp)
  | shell (hcurrent : x.sys.schedulerCurrentProcess = some c.shell) (htodo : x.todo ≠ []) :
      Step c x .shell (x.shellStep c)
  | other (op : Op) (hcall : op.isCall = true)
      (hcurrent : x.sys.schedulerCurrentProcess ≠ some c.shell) :
      Step c x (.other op) { x with sys := x.sys.exec op }

/-- `process_create` has just registered the process that the shell has asked for. -/
def Started (c : ExecCall) (s : ProcessSystem) (x : Exec) : Prop :=
  s.schedulerCurrentProcess = some c.shell ∧ c.proc ∉ s.processTable ∧
    ∃ sys load, s.processCreate c.proc c.space c.kstack 0 0 = some sys ∧ x = start c sys load

end Exec

/-! ## Calls of other processes -/

namespace ProcessSystem

/-- A call moves no table entry and switches nothing. -/
theorem exec_call (s : ProcessSystem) {op : Op} (hcall : op.isCall = true) :
    (s.exec op).processTable = s.processTable ∧ (s.exec op).currentProcess = s.currentProcess ∧
      (s.exec op).cr3 = s.cr3 ∧ ∀ p, ((s.exec op).procs p).addressSpace = (s.procs p).addressSpace := by
  have hmodify : ∀ (p : Nat) (f : Process → Process),
      (∀ proc, (f proc).addressSpace = proc.addressSpace) →
      ∀ q, ((s.modify p f).procs q).addressSpace = (s.procs q).addressSpace := by
    intro p f hf q
    by_cases hq : q = p
    · rw [hq, modify_procs_self, hf]
    · rw [modify_procs_of_ne s p f hq]
  have hstate : ∀ (p : Nat) (state : TaskState) (q : Nat),
      ((s.setState p state).procs q).addressSpace = (s.procs q).addressSpace :=
    fun p _ => hmodify p _ fun _ => rfl
  cases op with
  | ipcSend view targetPid data size =>
      rw [exec]
      rcases s.ipcSend_cases view targetPid data size with
        heq | ⟨p, q, -, -, -, -, -, -, -, heq⟩
      · rw [heq]
        exact ⟨rfl, rfl, rfl, fun _ => rfl⟩
      · rw [heq]
        exact ⟨rfl, rfl, rfl, hmodify p _ fun _ => rfl⟩
  | ipcRecv sender buf size =>
      rw [exec]
      rcases s.ipcRecv_cases sender buf size with
        heq | ⟨me, q, -, -, -, -, ⟨-, heq⟩ | ⟨-, heq⟩⟩
      · rw [heq]
        exact ⟨rfl, rfl, rfl, fun _ => rfl⟩
      · rw [heq]
        exact ⟨rfl, rfl, rfl, hstate me _⟩
      · rw [heq]
        exact ⟨rfl, rfl, rfl, hmodify me _ fun _ => rfl⟩
  | kill pid =>
      rw [exec, kill]
      split
      · exact ⟨rfl, rfl, rfl, hstate _ _⟩
      · exact ⟨rfl, rfl, rfl, fun _ => rfl⟩
  | exit code =>
      rw [exec]
      unfold exitCurrent
      split
      · exact ⟨rfl, rfl, rfl, hmodify _ _ fun _ => rfl⟩
      · exact ⟨rfl, rfl, rfl, fun _ => rfl⟩
  | _ => cases hcall

end ProcessSystem

namespace Exec

variable {c : ExecCall} {s : ProcessSystem} {x y : Exec}

/-! ## How far the shell is -/

/-- What the shell can have left to do. -/
inductive Phase (c : ExecCall) : List ExecStep → Prop where
  | created : Phase c c.program
  | loading (acts : List LoadAction) : Phase c (loadSteps acts)
  | left : Phase c [.finish]
  | finished : Phase c []

theorem dropWhile_loadSteps (acts : List LoadAction) :
    (loadSteps acts).dropWhile ExecStep.isLoad = loadSteps [] := by
  induction acts with
  | nil => rfl
  | cons a acts ih => exact ih

theorem loadRound_eq {a : LoadAction} {ok : Bool} {load : Load}
    (hact : x.load.act c.space x.sys.cr3 a = (ok, load)) (rest : List ExecStep) :
    x.loadRound c a rest = { x with
      load := load
      failed := x.failed || !ok
      todo := if ok then rest else rest.dropWhile ExecStep.isLoad
      stores := storedIn x.sys.cr3 a ++ x.stores } := by
  rw [loadRound, hact]

/-- After a round there are only rounds and the steps after them left. -/
theorem loadRound_todo (c : ExecCall) (x : Exec) (a : LoadAction) (acts : List LoadAction) :
    ∃ acts', (x.loadRound c a (loadSteps acts)).todo = loadSteps acts' := by
  rw [loadRound]
  dsimp only
  split
  · exact ⟨acts, rfl⟩
  · exact ⟨[], dropWhile_loadSteps acts⟩

/-- What a step of the shell can be. -/
theorem shellStep_cases (hphase : Phase c x.todo) (htodo : x.todo ≠ []) :
    (x.todo = c.program ∧ x.shellStep c = { x with
      sys := x.sys.vmmSwitch c.space, todo := loadSteps (loadActions c.file),
      interrupted := false }) ∨
    (∃ a acts, x.todo = loadSteps (a :: acts) ∧
      x.shellStep c = x.loadRound c a (loadSteps acts)) ∨
    (x.todo = loadSteps [] ∧ x.shellStep c = { x with
      sys := x.sys.vmmSwitch c.kernelSpace, todo := [.finish] }) ∨
    (x.todo = [.finish] ∧ (x.shellStep c).todo = [] ∧ (x.shellStep c).stores = x.stores) := by
  generalize htodo' : x.todo = todo at hphase htodo
  cases hphase with
  | created =>
      left
      refine ⟨rfl, ?_⟩
      rw [shellStep, htodo']
      rfl
  | loading acts =>
      right
      cases acts with
      | nil =>
          refine .inr (.inl ⟨rfl, ?_⟩)
          rw [shellStep, htodo']
          rfl
      | cons a acts =>
          refine .inl ⟨a, acts, rfl, ?_⟩
          rw [shellStep, htodo']
          rfl
  | left =>
      refine .inr (.inr (.inr ⟨rfl, ?_⟩))
      rw [shellStep, htodo']
      exact ⟨rfl, rfl⟩
  | finished => exact absurd rfl htodo

theorem shellStep_early (c : ExecCall) (x : Exec) : (x.shellStep c).early = x.early := by
  unfold Exec.shellStep
  split <;> rfl

theorem step_load {a : LoadAction} {acts : List LoadAction}
    (hcurrent : x.sys.schedulerCurrentProcess = some c.shell)
    (htodo : x.todo = loadSteps (a :: acts)) :
    Step c x .shell (x.loadRound c a (loadSteps acts)) := by
  have hround : x.shellStep c = x.loadRound c a (loadSteps acts) := by
    rw [shellStep, htodo]
    rfl
  rw [← hround]
  exact .shell hcurrent (by rw [htodo]; exact List.cons_ne_nil _ _)

/-! ## When the new process is selected -/

/-- Before `exec` has ended, a tick comes only while another runnable process is behind
    the current one in the table, or when the new process cannot run. -/
def TickOk (c : ExecCall) (x : Exec) : ExecEvent → Prop
  | .tick _ => x.todo ≠ [] →
      (∃ (j q : Nat), x.sys.currentProcess < j ∧ x.sys.processTable[j]? = some q ∧ q ≠ c.proc ∧
        (x.sys.procs q).runnable) ∨ ¬ (x.sys.procs c.proc).runnable
  | _ => True

/-- The new process is the last one of the table and none of the others has moved; the
    scheduler is at one of them. -/
structure Waiting (c : ExecCall) (table : List Nat) (x : Exec) : Prop where
  fresh : c.proc ∉ table
  phase : Phase c x.todo
  processTable_eq : x.todo ≠ [] → x.sys.processTable = table ++ [c.proc]
  current : x.todo ≠ [] → ∃ i : Nat, x.sys.currentProcess = i ∧ i < table.length
  not_early : c.proc ∉ x.early

theorem Waiting.start (h : Started c s x) : Waiting c s.processTable x := by
  obtain ⟨hshell, hfresh, sys, load, hcreate, rfl⟩ := h
  obtain ⟨-, htable, hcurrent, -, -⟩ := ProcessSystem.registerProcess_eq_some hcreate
  refine ⟨hfresh, .created, fun _ => htable, fun _ => ?_, List.not_mem_nil⟩
  obtain ⟨hnonneg, hget⟩ := ProcessSystem.schedulerCurrentProcess_eq_some hshell
  have hat := (ProcessSystem.processGet_eq_some hget).2
  refine ⟨s.currentProcess.toNat, ?_, (List.getElem?_eq_some_iff.mp hat).1⟩
  change sys.currentProcess = _
  rw [hcurrent]
  omega

/-- A tick selects the new process exactly where it is not held back by another one. -/
theorem Waiting.tickTarget_iff {table : List Nat} (h : Waiting c table x) (htodo : x.todo ≠ [])
    (esp : Nat) :
    (x.sys.saveContext esp).tickTarget = some c.proc ↔ ¬ TickOk c x (.tick esp) := by
  obtain ⟨i, hi, hlt⟩ := h.current htodo
  generalize hsaved : x.sys.saveContext esp = saved
  have htable : saved.processTable = table ++ [c.proc] := by
    rw [← hsaved, ProcessSystem.saveContext_processTable, h.processTable_eq htodo]
  have hcurrent : saved.currentProcess = i := by
    rw [← hsaved, ProcessSystem.saveContext_currentProcess, hi]
  have hrunnable : ∀ q, (saved.procs q).runnable ↔ (x.sys.procs q).runnable := by
    intro q
    rw [← hsaved, ProcessSystem.saveContext_runnable]
  -- only the last position has the new process
  have hother : ∀ {k : Nat}, k < table.length → saved.processTable[k]? ≠ some c.proc := by
    intro k hk hproc
    rw [htable, List.getElem?_append_left hk] at hproc
    exact h.fresh (List.mem_of_getElem? hproc)
  have hlast : saved.processTable[table.length]? = some c.proc := by
    rw [htable, List.getElem?_concat_length]
  have hok : TickOk c x (.tick esp) ↔
      (∃ (j q : Nat), saved.currentProcess < j ∧ saved.processTable[j]? = some q ∧ q ≠ c.proc ∧
        (saved.procs q).runnable) ∨ ¬ (saved.procs c.proc).runnable := by
    rw [TickOk, hcurrent, htable, ← hi, ← h.processTable_eq htodo]
    simp only [hrunnable]
    exact ⟨fun hall => hall htodo, fun hall _ => hall⟩
  rw [hok, not_or, not_not]
  constructor
  · intro htarget
    refine ⟨?_, ProcessSystem.tickTarget_runnable htarget⟩
    rintro ⟨j, q, hj, hq, hne, hrun⟩
    obtain ⟨k, -, hkj, hk⟩ := ProcessSystem.tickTarget_ahead (by omega) hj hq hrun
    have hjlen : j < table.length := by
      have hbound := (List.getElem?_eq_some_iff.mp hq).1
      rw [htable, List.length_append, List.length_singleton] at hbound
      apply Nat.lt_of_le_of_ne (by omega)
      rintro rfl
      rw [hlast] at hq
      exact hne (Option.some.inj hq).symm
    exact hother (Nat.lt_of_le_of_lt hkj hjlen) (by rw [← hk, htarget])
  · rintro ⟨hnone, hrun⟩
    obtain ⟨k, hik, hkj, hk⟩ := ProcessSystem.tickTarget_ahead (by omega)
      (by omega : saved.currentProcess < table.length) hlast hrun
    rcases Nat.lt_or_eq_of_le hkj with hklt | rfl
    · exfalso
      have hbound : k < saved.processTable.length := by
        rw [htable, List.length_append]
        omega
      rw [List.getElem?_eq_getElem hbound] at hk
      refine hnone ⟨k, _, hik, List.getElem?_eq_getElem hbound, ?_,
        ProcessSystem.tickTarget_runnable hk⟩
      intro heq
      exact hother hklt (by rw [List.getElem?_eq_getElem hbound, heq])
    · rw [hk, hlast]

theorem Waiting.tick {table : List Nat} (h : Waiting c table x) {esp : Nat}
    (hok : TickOk c x (.tick esp)) : Waiting c table (x.tick esp) := by
  by_cases htodo : x.todo = []
  · refine ⟨h.fresh, h.phase, fun hne => absurd htodo hne, fun hne => absurd htodo hne, ?_⟩
    rw [Exec.tick, htodo, if_pos rfl]
    exact h.not_early
  · have hnot : (x.sys.saveContext esp).tickTarget ≠ some c.proc := fun htarget =>
      (h.tickTarget_iff htodo esp).mp htarget hok
    have hearly : c.proc ∉ (x.tick esp).early := by
      rw [Exec.tick, if_neg htodo, List.mem_append, Option.mem_toList]
      rintro (htarget | hold)
      · exact hnot htarget
      · exact h.not_early hold
    have htable := h.processTable_eq htodo
    rcases x.sys.schedulerTick_cases esp with
      ⟨idx, next, htarget, hget, -, heq⟩ | ⟨-, heq, -⟩
    · refine ⟨h.fresh, h.phase, fun _ => ?_, fun _ => ?_, hearly⟩
      · rw [Exec.tick, heq]
        exact (x.sys.saveContext_processTable esp).trans htable
      · obtain ⟨hnonneg, hat⟩ := ProcessSystem.processGet_eq_some hget
        refine ⟨idx.toNat, ?_, ?_⟩
        · rw [Exec.tick, heq]
          change idx = _
          omega
        · have hbound := (List.getElem?_eq_some_iff.mp hat).1
          rw [htable, List.length_append, List.length_singleton] at hbound
          apply Nat.lt_of_le_of_ne (by omega)
          intro hlast
          rw [hlast, htable, List.getElem?_concat_length] at hat
          exact hnot (by rw [htarget, ← hat])
    · refine ⟨h.fresh, h.phase, fun _ => ?_, fun _ => ?_, hearly⟩
      · rw [Exec.tick, heq]
        exact (x.sys.saveContext_processTable esp).trans htable
      · rw [Exec.tick, heq]
        simpa using h.current htodo

theorem Waiting.shellStep {table : List Nat} (h : Waiting c table x) (htodo : x.todo ≠ []) :
    Waiting c table (x.shellStep c) := by
  have htable := h.processTable_eq htodo
  have hcurrent := h.current htodo
  rcases shellStep_cases h.phase htodo with
    ⟨-, heq⟩ | ⟨a, acts, -, heq⟩ | ⟨-, heq⟩ | ⟨-, hdone, -⟩
  · rw [heq]
    exact ⟨h.fresh, .loading _, fun _ => htable, fun _ => hcurrent, h.not_early⟩
  · rw [heq]
    obtain ⟨acts', hacts⟩ := loadRound_todo c x a acts
    exact ⟨h.fresh, by rw [hacts]; exact .loading _, fun _ => htable, fun _ => hcurrent,
      h.not_early⟩
  · rw [heq]
    exact ⟨h.fresh, .left, fun _ => htable, fun _ => hcurrent, h.not_early⟩
  · exact ⟨h.fresh, by rw [hdone]; exact .finished, fun hne => absurd hdone hne,
      fun hne => absurd hdone hne, by rw [shellStep_early]; exact h.not_early⟩

theorem Waiting.step {table : List Nat} (h : Waiting c table x) {e : ExecEvent}
    (hok : TickOk c x e) (hstep : Step c x e y) : Waiting c table y := by
  cases hstep with
  | tick esp => exact h.tick hok
  | shell _ htodo => exact h.shellStep htodo
  | other op hcall _ =>
      obtain ⟨htable, hcurrent, -, -⟩ := x.sys.exec_call hcall
      exact ⟨h.fresh, h.phase, fun hne => htable.trans (h.processTable_eq hne),
        fun hne => by rw [hcurrent]; exact h.current hne, h.not_early⟩

/-- What has been selected stays selected. -/
theorem Step.early_subset {e : ExecEvent} (hstep : Step c x e y) : x.early ⊆ y.early := by
  cases hstep with
  | tick esp =>
      rw [Exec.tick]
      dsimp only
      split
      · exact List.Subset.refl _
      · exact List.subset_append_right _ _
  | shell =>
      rw [shellStep_early]
      exact List.Subset.refl _
  | other => exact List.Subset.refl _

/-- A step that does not select the new process has met the condition. -/
theorem Waiting.tickOk {table : List Nat} (h : Waiting c table x) {e : ExecEvent}
    (hstep : Step c x e y) (hearly : c.proc ∉ y.early) : TickOk c x e := by
  cases hstep with
  | tick esp =>
      intro htodo
      by_contra hnot
      have htarget := (h.tickTarget_iff htodo esp).mpr fun hok => hnot (hok htodo)
      rw [Exec.tick, if_neg htodo, htarget] at hearly
      exact hearly List.mem_cons_self
  | shell => trivial
  | other => trivial

/-- **When the new process is not selected before it has its entry point.** In a run of
    ticks, of the shell's steps and of calls of the other processes this is so exactly when
    every tick before the end of `exec` finds another runnable process between the current
    one and the end of the table, or the new process has been killed. -/
theorem exec_not_selected_iff {events : List ExecEvent} (hstart : Started c s x)
    (hrun : Run (Step c) x events y) :
    c.proc ∉ y.early ↔ Run (Guarded (TickOk c) (Step c)) x events y := by
  constructor
  · intro hearly
    have hboth : Run (Guarded (TickOk c) (Step c)) x events y ∧ Waiting c s.processTable y := by
      induction hrun with
      | nil => exact ⟨.nil, .start hstart⟩
      | snoc _ hlast ih =>
          obtain ⟨hguarded, hwaiting⟩ := ih fun hbefore => hearly (hlast.early_subset hbefore)
          have hok := hwaiting.tickOk hlast hearly
          exact ⟨hguarded.snoc ⟨hok, hlast⟩, hwaiting.step hok hlast⟩
    exact hboth.1
  · intro hguarded
    have hwaiting : Waiting c s.processTable y := by
      apply hguarded.invariant (Waiting c s.processTable) (.start hstart)
      rintro a e b ha ⟨hok, hstep⟩
      exact ha.step hok hstep
    exact hwaiting.not_early

/-- Kernel processes in the space at 0x1000; the first entry is the shell and runs. -/
def shellSystem (table : List Nat) : ProcessSystem where
  procs p := { ProcessSystem.kernelProcess p 0x1000 (p * 0x2000) with state := .running }
  processTable := table
  currentProcess := 0
  nextPid := 10
  tssEsp0 := 0
  cr3 := 0x1000

/-- `exec` in the first process, for a file with one byte in one segment. -/
def shellCall : ExecCall := ⟨1, 9, 0x3000, 0x20000, 0x1000, some (singleSegment 0x40000000 1 1 6)⟩

/-- A machine of sixteen pages of which the first four are in use. -/
def shellLoad : Load where
  machine := ⟨fun _ => 0, ⟨fun i => if i = 0 then 0x0F else 0, 16, 4, by decide⟩, 0x1000⟩
  info := ⟨0, 0, 0⟩
  stray := []

/-- The processes after `process_create`. -/
def shellCreated (table : List Nat) : ProcessSystem :=
  ((shellSystem table).processCreate 9 0x3000 0x20000 0 0).getD (shellSystem table)

/-- The other process is picked by the tick that comes after the first `vmm_switch`. -/
theorem exec_not_selected_behind :
    ∃ x y, Started shellCall (shellSystem [1, 2]) x ∧
      Run (Step shellCall) x [.shell, .tick 700] y ∧
      y.sys.schedulerCurrentProcess = some 2 ∧ shellCall.proc ∉ y.early := by
  have hstart : Started shellCall (shellSystem [1, 2])
      (start shellCall (shellCreated [1, 2]) shellLoad) :=
    ⟨rfl, by decide, _, _, rfl, rfl⟩
  have hprogram : (start shellCall (shellCreated [1, 2]) shellLoad).todo ≠ [] :=
    List.cons_ne_nil _ _
  have hrun : Run (Step shellCall) (start shellCall (shellCreated [1, 2]) shellLoad)
      [.shell, .tick 700] _ :=
    .cons (.shell rfl hprogram) (.cons (.tick 700) .nil)
  have hguarded : Run (Guarded (TickOk shellCall) (Step shellCall))
      (start shellCall (shellCreated [1, 2]) shellLoad) [.shell, .tick 700] _ :=
    .cons ⟨trivial, .shell rfl hprogram⟩
      (.cons ⟨fun _ => .inl ⟨1, 2, by decide, rfl, by decide, by decide⟩, .tick 700⟩ .nil)
  exact ⟨_, _, hstart, hrun, rfl, (exec_not_selected_iff hstart hrun).mpr hguarded⟩

/-- With no other process the first tick after `process_create` selects the new one. -/
theorem exec_selected_early :
    ¬ ∀ (c : ExecCall) (s : ProcessSystem) (x y : Exec) (events : List ExecEvent),
      Started c s x → Run (Step c) x events y → c.proc ∉ y.early := by
  intro h
  have hstart : Started shellCall (shellSystem [1])
      (start shellCall (shellCreated [1]) shellLoad) :=
    ⟨rfl, by decide, _, _, rfl, rfl⟩
  have hnot := h _ _ _ _ [.tick 700] hstart (.cons (.tick 700) .nil)
  rw [Exec.tick, if_neg (show (start shellCall (shellCreated [1]) shellLoad).todo ≠ [] from
    List.cons_ne_nil _ _)] at hnot
  exact hnot (by decide)

end Exec

end NemoOS
