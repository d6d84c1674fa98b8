import NemoOS.Process

/-!
# The scheduler (`scheduler/scheduler.cpp`)

`scheduler_tick` is called from the timer interrupt and at the end of every
system call with the interrupted stack pointer; the value it returns is loaded
into `%esp` before `popa; iret`, so it is the context that runs next.

The source decides three things in one function: whether the interrupted
process's context is stored, which process is next, and what is returned. They
are `saveContext`, `findNext` and the rest of `schedulerTick`. `schedulerTick_cases`
says once what a tick can do; every result about runs starts from it.
-/

namespace NemoOS

namespace ProcessSystem

def schedulerCurrentProcess (s : ProcessSystem) : Option Nat :=
  if s.currentProcess < 0 then none else s.processGet s.currentProcess

/-- `scheduler_mark_dead`. -/
def schedulerMarkDead (s : ProcessSystem) : ProcessSystem :=
  match s.schedulerCurrentProcess with
  | some p => s.setState p .dead
  | none => s

/-- Syscall 4 and `process_exit_current`. -/
def exitCurrent (s : ProcessSystem) (code : Int) : ProcessSystem :=
  match s.schedulerCurrentProcess with
  | some p => s.modify p fun proc => { proc with exitCode := code, state := .dead }
  | none => s

/-- Syscall 6 and the shell's `kill`: whether a process with the pid was found,
    and the state afterwards. -/
def kill (s : ProcessSystem) (pid : Nat) : Bool × ProcessSystem :=
  match s.findPid pid with
  | some p => (true, s.setState p .dead)
  | none => (false, s)

/-- The loop of `find_next`, from `step` with `n` steps left. -/
def findNextLoop (s : ProcessSystem) (start : Int) (step : Nat) : Nat → Int
  | 0 => -1
  | n + 1 =>
      let idx := (start + step).tmod s.processTotal
      match s.processGet idx with
      | some p =>
          if (s.procs p).runnable then idx else s.findNextLoop start (step + 1) n
      | none => s.findNextLoop start (step + 1) n

def findNext (s : ProcessSystem) (start : Int) : Int :=
  if s.processTotal = 0 then -1 else s.findNextLoop start 1 s.processTable.length

/-- What the first half of `scheduler_tick` does to the interrupted process: only
    a running or a blocked one has its stack pointer stored. -/
def saveProc (currentEsp : Nat) (proc : Process) : Process :=
  match proc.state with
  | .running => { proc with state := .ready, savedEsp := currentEsp }
  | .blocked => { proc with savedEsp := currentEsp }
  | _ => proc

def saveContext (s : ProcessSystem) (currentEsp : Nat) : ProcessSystem :=
  match s.schedulerCurrentProcess with
  | some p => s.modify p (saveProc currentEsp)
  | none => s

/-- The stack pointer a process is resumed from. -/
def resumeEsp (proc : Process) : Nat :=
  if proc.savedEsp ≠ 0 then proc.savedEsp else proc.kernelStackTop

/-- The process `scheduler_tick` switches to, if any. -/
def tickTarget (saved : ProcessSystem) : Option Nat :=
  if saved.findNext saved.currentProcess ≥ 0 then
    saved.processGet (saved.findNext saved.currentProcess)
  else none

def schedulerTick (s : ProcessSystem) (currentEsp : Nat) : Nat × ProcessSystem :=
  if s.processTotal = 0 then (currentEsp, s)
  else
    let saved := s.saveContext currentEsp
    let nextIdx := saved.findNext saved.currentProcess
    match saved.tickTarget with
    | none => (currentEsp, saved)
    | some next =>
        let switched := (saved.processSwitch next).setState next .running
        (resumeEsp (switched.procs next), { switched with currentProcess := nextIdx })

/-! ## Field lemmas -/

section Fields

variable (s : ProcessSystem) (p : Nat) (f : Process → Process) (state : TaskState)

@[simp] theorem modify_processTable : (s.modify p f).processTable = s.processTable := rfl
@[simp] theorem modify_currentProcess : (s.modify p f).currentProcess = s.currentProcess := rfl
@[simp] theorem modify_nextPid : (s.modify p f).nextPid = s.nextPid := rfl
@[simp] theorem setState_processTable : (s.setState p state).processTable = s.processTable := rfl
@[simp] theorem setState_currentProcess :
    (s.setState p state).currentProcess = s.currentProcess := rfl
@[simp] theorem processSwitch_procs : (s.processSwitch p).procs = s.procs := rfl
@[simp] theorem processSwitch_processTable :
    (s.processSwitch p).processTable = s.processTable := rfl

@[simp] theorem modify_procs_self : (s.modify p f).procs p = f (s.procs p) := by
  simp [modify]

theorem modify_procs_of_ne {q : Nat} (h : q ≠ p) : (s.modify p f).procs q = s.procs q := by
  simp [modify, h]

@[simp] theorem setState_procs_self :
    (s.setState p state).procs p = { s.procs p with state := state } := by
  simp [setState]

theorem setState_procs_of_ne {q : Nat} (h : q ≠ p) :
    (s.setState p state).procs q = s.procs q :=
  modify_procs_of_ne s p _ h

theorem processGet_congr {s t : ProcessSystem} (h : t.processTable = s.processTable) (i : Int) :
    t.processGet i = s.processGet i := by
  simp [processGet, processTotal, h]

theorem schedulerCurrentProcess_congr {s t : ProcessSystem}
    (htable : t.processTable = s.processTable) (hcur : t.currentProcess = s.currentProcess) :
    t.schedulerCurrentProcess = s.schedulerCurrentProcess := by
  simp [schedulerCurrentProcess, hcur, processGet_congr htable]

end Fields

/-! ## What a lookup returns -/

theorem processGet_eq_some {s : ProcessSystem} {i : Int} {p : Nat}
    (h : s.processGet i = some p) : 0 ≤ i ∧ s.processTable[i.toNat]? = some p := by
  unfold processGet at h
  split at h
  · cases h
  · exact ⟨by omega, h⟩

theorem processGet_mem {s : ProcessSystem} {i : Int} {p : Nat} (h : s.processGet i = some p) :
    p ∈ s.processTable :=
  List.mem_of_getElem? (processGet_eq_some h).2

theorem processGet_natCast (s : ProcessSystem) (n : Nat) :
    s.processGet n = s.processTable[n]? := by
  unfold processGet processTotal
  split
  · rename_i h
    exact (List.getElem?_eq_none (by omega)).symm
  · simp

/-- `process_first_enter` finds the index of a registered process. -/
theorem processFirstEnter_index {s : ProcessSystem} {p : Nat} (hmem : p ∈ s.processTable)
    (hlen : s.processTable.length ≤ MAX_PROCESSES) :
    ∃ i : Nat, ((s.setState p .running).processSwitch p).indexOf p = some i ∧
      s.processGet i = some p := by
  obtain ⟨k, hk, hget⟩ := List.mem_iff_getElem.mp hmem
  have hk16 : k < 16 := Nat.lt_of_lt_of_le hk hlen
  have hfound : (((s.setState p .running).processSwitch p).indexOf p).isSome := by
    simp only [indexOf, List.find?_isSome, List.mem_range, decide_eq_true_eq]
    refine ⟨k, hk16, ?_⟩
    rw [processGet_natCast]
    simp [List.getElem?_eq_getElem hk, hget]
  obtain ⟨i, hi⟩ := Option.isSome_iff_exists.mp hfound
  refine ⟨i, hi, ?_⟩
  have hat := List.find?_some hi
  simpa [processGet_natCast] using hat

/-- The state after `process_first_enter` on a registered process, which is then current. -/
theorem processFirstEnter_eq {s : ProcessSystem} {p : Nat} (hmem : p ∈ s.processTable)
    (hlen : s.processTable.length ≤ MAX_PROCESSES) :
    ∃ i : Nat, (s.processFirstEnter p).2 =
        { (s.setState p .running).processSwitch p with currentProcess := i } ∧
      (s.processFirstEnter p).2.schedulerCurrentProcess = some p := by
  obtain ⟨i, hi, hget⟩ := processFirstEnter_index hmem hlen
  have henter : (s.processFirstEnter p).2 =
      { (s.setState p .running).processSwitch p with currentProcess := i } := by
    simp [processFirstEnter, hi]
  refine ⟨i, henter, ?_⟩
  rw [henter, schedulerCurrentProcess, if_neg (by simp)]
  exact (processGet_congr (by simp) _).trans hget

theorem schedulerCurrentProcess_eq_some {s : ProcessSystem} {p : Nat}
    (h : s.schedulerCurrentProcess = some p) :
    0 ≤ s.currentProcess ∧ s.processGet s.currentProcess = some p := by
  unfold schedulerCurrentProcess at h
  split at h
  · cases h
  · exact ⟨by omega, h⟩

theorem schedulerCurrentProcess_mem {s : ProcessSystem} {p : Nat}
    (h : s.schedulerCurrentProcess = some p) : p ∈ s.processTable :=
  processGet_mem (schedulerCurrentProcess_eq_some h).2

/-- A new entry does not move the current process. -/
theorem schedulerCurrentProcess_of_append {s t : ProcessSystem} {p c : Nat}
    (htable : t.processTable = s.processTable ++ [p]) (hcur : t.currentProcess = s.currentProcess)
    (hc : s.schedulerCurrentProcess = some c) : t.schedulerCurrentProcess = some c := by
  obtain ⟨hnonneg, hget⟩ := schedulerCurrentProcess_eq_some hc
  obtain ⟨i, hi⟩ : ∃ i : Nat, s.currentProcess = i := ⟨_, (Int.toNat_of_nonneg hnonneg).symm⟩
  rw [hi, processGet_natCast] at hget
  rw [schedulerCurrentProcess, hcur, if_neg (Int.not_lt.mpr hnonneg), hi, processGet_natCast, htable,
    List.getElem?_append_left (List.getElem?_eq_some_iff.mp hget).1, hget]

/-! ## The search for the next process -/

/-- The loop returns an index it has looked at, of a runnable process, or `-1`
    after looking at every one of its steps. -/
theorem findNextLoop_spec (s : ProcessSystem) (start : Int) (n : Nat) :
    ∀ step : Nat,
      (∃ p, s.processGet (s.findNextLoop start step n) = some p ∧ (s.procs p).runnable) ∨
      (s.findNextLoop start step n = -1 ∧
        ∀ k < n, ∀ p, s.processGet ((start + ((step + k : Nat) : Int)).tmod s.processTotal) = some p →
          ¬ (s.procs p).runnable) := by
  induction n with
  | zero => intro step; exact Or.inr ⟨rfl, by simp⟩
  | succ n ih =>
    intro step
    -- a step that does not stop the loop leaves the later ones to the induction
    have hskip : (∀ p, s.processGet ((start + (step : Int)).tmod s.processTotal) = some p →
          ¬ (s.procs p).runnable) →
        s.findNextLoop start step (n + 1) = s.findNextLoop start (step + 1) n →
        (∃ p, s.processGet (s.findNextLoop start step (n + 1)) = some p ∧
          (s.procs p).runnable) ∨
        (s.findNextLoop start step (n + 1) = -1 ∧
          ∀ k < n + 1, ∀ p,
            s.processGet ((start + ((step + k : Nat) : Int)).tmod s.processTotal) = some p →
            ¬ (s.procs p).runnable) := by
      intro hhere heq
      rw [heq]
      rcases ih (step + 1) with hfound | ⟨hnone, hall⟩
      · exact Or.inl hfound
      · refine Or.inr ⟨hnone, ?_⟩
        intro k hk
        cases k with
        | zero => simpa using hhere
        | succ k =>
          have hshift : step + (k + 1) = step + 1 + k := by omega
          rw [hshift]
          exact hall k (by omega)
    rcases hget : s.processGet ((start + (step : Int)).tmod s.processTotal) with _ | p
    · exact hskip (by simp [hget]) (by simp [findNextLoop, hget])
    · by_cases hrun : (s.procs p).runnable
      · left
        refine ⟨p, ?_, hrun⟩
        simp [findNextLoop, hget, hrun]
      · refine hskip ?_ (by simp [findNextLoop, hget, hrun])
        intro q hq
        rw [hget] at hq
        cases hq
        exact hrun

/-- Among `n` consecutive indices every residue modulo `n` occurs. -/
theorem exists_step (start : Int) (hstart : -1 ≤ start) {n i : Nat} (hi : i < n) :
    ∃ k < n, (start + ((1 + k : Nat) : Int)).tmod (n : Int) = i := by
  obtain ⟨m, hm⟩ : ∃ m : Nat, start + 1 = m := ⟨(start + 1).toNat, by omega⟩
  have hmod : m % n < n := Nat.mod_lt _ (by omega)
  refine ⟨(i + n - m % n) % n, Nat.mod_lt _ (by omega), ?_⟩
  have hsum : start + ((1 + (i + n - m % n) % n : Nat) : Int) =
      ((m + (i + n - m % n) % n : Nat) : Int) := by
    push_cast
    omega
  rw [hsum, ← Int.ofNat_tmod]
  congr 1
  rw [Nat.add_mod_mod, ← Nat.mod_add_mod]
  have hcancel : m % n + (i + n - m % n) = i + n := by omega
  rw [hcancel, Nat.add_mod_right, Nat.mod_eq_of_lt hi]

/-- `find_next` returns a runnable process of the table, or `-1`; from an index
    the scheduler can hold, `-1` means that there is none. -/
theorem findNext_cases (s : ProcessSystem) (start : Int) :
    (∃ p, s.processGet (s.findNext start) = some p ∧ (s.procs p).runnable) ∨
    (s.findNext start = -1 ∧
      (-1 ≤ start → ∀ p ∈ s.processTable, ¬ (s.procs p).runnable)) := by
  unfold findNext
  split
  · rename_i hzero
    right
    have hnil : s.processTable = [] := List.length_eq_zero_iff.mp (by simpa [processTotal] using hzero)
    simp [hnil]
  · rcases s.findNextLoop_spec start s.processTable.length 1 with hfound | ⟨hnone, hall⟩
    · exact Or.inl hfound
    · refine Or.inr ⟨hnone, ?_⟩
      intro hstart p hp
      obtain ⟨i, hi, hget⟩ := List.mem_iff_getElem.mp hp
      obtain ⟨k, hk, hidx⟩ := exists_step start hstart hi
      refine hall k hk p ?_
      have hindex : (start + ((1 + k : Nat) : Int)).tmod s.processTotal = (i : Int) := hidx
      rw [hindex, processGet_natCast, List.getElem?_eq_getElem hi, hget]

/-- The loop goes no further than a runnable process that is ahead of it. -/
theorem findNextLoop_ahead {s : ProcessSystem} {start : Int} {j q : Nat} (hstart : 0 ≤ start)
    (hj : s.processTable[j]? = some q) (hq : (s.procs q).runnable) (n : Nat) :
    ∀ step : Nat, start + step ≤ j → j < start + step + n →
      ∃ i : Nat, s.findNextLoop start step n = i ∧ start + step ≤ i ∧ i ≤ j := by
  have hlen : j < s.processTable.length := (List.getElem?_eq_some_iff.mp hj).1
  induction n with
  | zero =>
      intro step hle hlt
      omega
  | succ n ih =>
      intro step hle hlt
      obtain ⟨k, hk⟩ : ∃ k : Nat, start + step = k := ⟨(start + step).toNat, by omega⟩
      have hidx : (start + step).tmod s.processTotal = k := by
        rw [hk, processTotal, ← Int.ofNat_tmod, Nat.mod_eq_of_lt (by omega)]
      have hget : s.processGet k = s.processTable[k]? := processGet_natCast s k
      rw [findNextLoop, hidx, hget, List.getElem?_eq_getElem (by omega)]
      dsimp only
      split
      · exact ⟨k, rfl, by omega, by omega⟩
      · rename_i hblocked
        have hne : k ≠ j := by
          rintro rfl
          rw [List.getElem?_eq_getElem hlen] at hj
          rw [Option.some.inj hj] at hblocked
          exact hblocked hq
        obtain ⟨i, heq, hlow, hhigh⟩ := ih (step + 1) (by omega) (by omega)
        exact ⟨i, heq, by omega, hhigh⟩

/-- Round robin: a runnable process behind the start is not passed over. -/
theorem findNext_ahead {s : ProcessSystem} {start : Int} {j q : Nat} (hstart : 0 ≤ start)
    (hlt : start < j) (hj : s.processTable[j]? = some q) (hq : (s.procs q).runnable) :
    ∃ i : Nat, s.findNext start = i ∧ start < i ∧ i ≤ j := by
  have hlen : j < s.processTable.length := (List.getElem?_eq_some_iff.mp hj).1
  have htotal : s.processTotal ≠ 0 := by
    rw [processTotal]
    omega
  obtain ⟨i, heq, hlow, hhigh⟩ :=
    findNextLoop_ahead hstart hj hq s.processTable.length 1 (by omega) (by omega)
  rw [findNext, if_neg htotal]
  exact ⟨i, heq, by omega, hhigh⟩

theorem tickTarget_runnable {saved : ProcessSystem} {next : Nat}
    (h : saved.tickTarget = some next) : (saved.procs next).runnable := by
  rw [tickTarget] at h
  split at h
  · rcases saved.findNext_cases saved.currentProcess with ⟨p, hget, hrun⟩ | ⟨hnone, -⟩
    · rw [hget] at h
      cases h
      exact hrun
    · rename_i hge
      rw [hnone] at hge
      exact absurd hge (by decide)
  · cases h

/-- The target is no further than a runnable process behind the current one. -/
theorem tickTarget_ahead {saved : ProcessSystem} {j q : Nat} (hcurrent : 0 ≤ saved.currentProcess)
    (hlt : saved.currentProcess < j) (hj : saved.processTable[j]? = some q)
    (hq : (saved.procs q).runnable) :
    ∃ i : Nat, saved.currentProcess < i ∧ i ≤ j ∧ saved.tickTarget = saved.processTable[i]? := by
  obtain ⟨i, heq, hlow, hhigh⟩ := findNext_ahead hcurrent hlt hj hq
  refine ⟨i, hlow, hhigh, ?_⟩
  rw [tickTarget, heq, if_pos (Int.natCast_nonneg i), processGet_natCast]

/-! ## What a tick does -/

section SaveProc

variable (esp : Nat) (proc : Process)

@[simp] theorem saveProc_pid : (saveProc esp proc).pid = proc.pid := by
  unfold saveProc; split <;> rfl

@[simp] theorem saveProc_kernelStackTop :
    (saveProc esp proc).kernelStackTop = proc.kernelStackTop := by
  unfold saveProc; split <;> rfl

@[simp] theorem saveProc_addressSpace :
    (saveProc esp proc).addressSpace = proc.addressSpace := by
  unfold saveProc; split <;> rfl

@[simp] theorem saveProc_msgQueue : (saveProc esp proc).msgQueue = proc.msgQueue := by
  unfold saveProc; split <;> rfl

theorem saveProc_state :
    (saveProc esp proc).state = if proc.state = .running then .ready else proc.state := by
  unfold saveProc
  split <;> simp_all

theorem saveProc_savedEsp (h : proc.state = .running ∨ proc.state = .blocked) :
    (saveProc esp proc).savedEsp = esp := by
  rcases h with h | h <;> simp [saveProc, h]

@[simp] theorem saveProc_runnable : (saveProc esp proc).runnable ↔ proc.runnable := by
  simp only [Process.runnable, saveProc_state]
  split <;> simp_all

end SaveProc

@[simp] theorem saveContext_processTable (s : ProcessSystem) (esp : Nat) :
    (s.saveContext esp).processTable = s.processTable := by
  unfold saveContext; split <;> rfl

@[simp] theorem saveContext_currentProcess (s : ProcessSystem) (esp : Nat) :
    (s.saveContext esp).currentProcess = s.currentProcess := by
  unfold saveContext; split <;> rfl

/-- Storing the context changes the control block of the current process only. -/
theorem saveContext_procs (s : ProcessSystem) (esp q : Nat) :
    (s.saveContext esp).procs q =
      if s.schedulerCurrentProcess = some q then saveProc esp (s.procs q) else s.procs q := by
  unfold saveContext
  split
  · rename_i p hp
    by_cases hq : q = p
    · subst hq; simp [hp]
    · rw [modify_procs_of_ne s p _ hq, hp, if_neg]
      intro heq
      cases heq
      exact hq rfl
  · rename_i hnone
    simp [hnone]

@[simp] theorem saveContext_runnable (s : ProcessSystem) (esp q : Nat) :
    ((s.saveContext esp).procs q).runnable ↔ (s.procs q).runnable := by
  rw [saveContext_procs]
  split <;> simp

/-- The state after a tick has picked the process at index `idx`. -/
def switchedTo (s : ProcessSystem) (esp : Nat) (idx : Int) (next : Nat) : ProcessSystem :=
  { ((s.saveContext esp).processSwitch next).setState next .running with currentProcess := idx }

theorem switchedTo_current {s : ProcessSystem} {idx : Int} {next : Nat}
    (hget : s.processGet idx = some next) (esp : Nat) :
    (s.switchedTo esp idx next).schedulerCurrentProcess = some next := by
  have hidx : ¬ (s.switchedTo esp idx next).currentProcess < 0 :=
    Int.not_lt.mpr (processGet_eq_some hget).1
  rw [schedulerCurrentProcess, if_neg hidx]
  exact (processGet_congr (by simp [switchedTo]) idx).trans hget

/-- **What a tick can do.** After the context of the interrupted process has been
    stored, it switches to a runnable process, or it finds none and resumes the
    interrupted one. -/
theorem schedulerTick_cases (s : ProcessSystem) (esp : Nat) :
    (∃ idx next, (s.saveContext esp).tickTarget = some next ∧ s.processGet idx = some next ∧
      (s.procs next).runnable ∧
      s.schedulerTick esp =
        (resumeEsp ((s.saveContext esp).procs next), s.switchedTo esp idx next)) ∨
    ((s.saveContext esp).tickTarget = none ∧ s.schedulerTick esp = (esp, s.saveContext esp) ∧
      (-1 ≤ s.currentProcess → ∀ p ∈ s.processTable, ¬ (s.procs p).runnable)) := by
  have hempty : s.processTotal = 0 → s.saveContext esp = s := by
    intro hzero
    have hnone : s.schedulerCurrentProcess = none := by
      simp [schedulerCurrentProcess, processGet, hzero]
    simp [saveContext, hnone]
  rcases (s.saveContext esp).findNext_cases (s.saveContext esp).currentProcess with
    ⟨next, hget, hrun⟩ | ⟨hnone, hall⟩
  · left
    have hnonneg := (processGet_eq_some hget).1
    have htarget : (s.saveContext esp).tickTarget = some next := by
      rw [tickTarget, if_pos hnonneg, hget]
    have hget' := (processGet_congr (saveContext_processTable s esp) _).symm.trans hget
    refine ⟨_, next, htarget, hget', by simpa using hrun, ?_⟩
    have htotal : s.processTotal ≠ 0 := by
      intro hzero
      simp [processGet, hzero] at hget'
      omega
    simp only [schedulerTick, if_neg htotal, htarget]
    simp [resumeEsp, switchedTo]
  · right
    have htarget : (s.saveContext esp).tickTarget = none := by
      rw [tickTarget, hnone, if_neg (by decide)]
    refine ⟨htarget, ?_, by simpa using hall⟩
    unfold schedulerTick
    split
    · rename_i hzero
      rw [hempty hzero]
    · simp only [htarget]

/-- A tick leaves the address spaces of the processes alone. -/
theorem schedulerTick_addressSpace (s : ProcessSystem) (esp q : Nat) :
    ((s.schedulerTick esp).2.procs q).addressSpace = (s.procs q).addressSpace := by
  have hsaved : ((s.saveContext esp).procs q).addressSpace = (s.procs q).addressSpace := by
    rw [saveContext_procs]
    split
    · exact saveProc_addressSpace esp _
    · rfl
  rcases s.schedulerTick_cases esp with ⟨idx, next, -, -, -, heq⟩ | ⟨-, heq, -⟩
  · rw [heq, ← hsaved]
    by_cases hq : q = next
    · subst hq
      simp [switchedTo]
    · exact congrArg Process.addressSpace (setState_procs_of_ne _ _ _ hq)
  · rw [heq, hsaved]

end ProcessSystem

end NemoOS
