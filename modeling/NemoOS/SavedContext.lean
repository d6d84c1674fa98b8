import NemoOS.ProcessLife

/-!
# Saved contexts

A context is the stack pointer a process was interrupted at. `scheduler_tick`
stores it in the control block of the process it leaves and returns the stored
one of the process it enters. The results here compare what is returned with
what was interrupted, over whole runs, through a log of the switches.

The tick stores the context of a process in state `RUNNING` or `BLOCKED`. A
process that blocked itself and is then sent a message before the tick is
`READY` while it still runs, so its context is not stored, and it is later
resumed from an older one (`ipcSend_to_self_loses_context`). Without that,
and with stack pointers that are not null, no context is lost (`context_kept`).
-/

namespace NemoOS

open Transition

/-- One switch: the process that was current, the process that was entered, the
    interrupted stack pointer and the returned one. -/
structure Switch where
  prev : Option Nat
  next : Nat
  esp : Nat
  ret : Nat
deriving DecidableEq, Repr

/-- The last switch away from `q`. -/
def lastAway (log : List Switch) (q : Nat) : Option Switch :=
  log.reverse.find? fun sw => sw.prev = some q

/-- `q` has run: it was entered first, or some switch entered it. -/
def HasRun (first : Nat) (log : List Switch) (q : Nat) : Prop :=
  q = first ∨ ∃ sw ∈ log, sw.next = q

/-- The value a switch has to return: the stack pointer of the tick that last
    switched away from the entered process (possibly this one, when the process
    is picked again), or the top of its kernel stack if it has never run. -/
def Resumes (first : Nat) (top : Nat → Nat) (before : List Switch) (sw : Switch) : Prop :=
  match lastAway (before ++ [sw]) sw.next with
  | some away => sw.ret = away.esp
  | none => ¬ HasRun first before sw.next ∧ sw.ret = top sw.next

/-- Every switch of the log returned what it has to return. -/
def ContextKept (first : Nat) (top : Nat → Nat) (log : List Switch) : Prop :=
  ∀ before sw after, log = before ++ sw :: after → Resumes first top before sw

/-- The process system with the log of its switches. -/
structure Traced where
  sys : ProcessSystem
  log : List Switch

namespace Traced

/-- The log entry of a tick that switches. -/
def switchOf (s : ProcessSystem) (esp : Nat) : List Switch :=
  match (s.saveContext esp).tickTarget with
  | some next => [⟨s.schedulerCurrentProcess, next, esp, (s.schedulerTick esp).1⟩]
  | none => []

/-- The log entries of an operation: only a tick switches. -/
def switches (s : ProcessSystem) : Op → List Switch
  | .schedulerTick esp => switchOf s esp
  | _ => []

def Step (x : Traced) (op : Op) (y : Traced) : Prop :=
  x.sys.Step op y.sys ∧ y.log = x.log ++ switches x.sys op

/-- The result of an operation of a running process. -/
def exec (x : Traced) (op : Op) : Traced := ⟨x.sys.exec op, x.log ++ switches x.sys op⟩

theorem step_exec (x : Traced) {op : Op} (hop : op.runtime = true) : x.Step op (x.exec op) :=
  ⟨(ProcessSystem.step_iff_exec hop).mpr rfl, rfl⟩

/-- The state after `process_first_enter`, before the first switch. -/
def start (s : ProcessSystem) (first : Nat) : Traced := ⟨(s.processFirstEnter first).2, []⟩

/-- A tick meets this when the interrupted stack pointer is not null and the
    interrupted process is not in state `READY`. -/
def TickOk (s : ProcessSystem) : Op → Prop
  | .schedulerTick esp =>
      esp ≠ 0 ∧ ∀ c, s.schedulerCurrentProcess = some c → (s.procs c).state ≠ .ready
  | _ => True

/-! ## The log -/

theorem lastAway_append_self (log : List Switch) (sw : Switch) {q : Nat}
    (h : sw.prev = some q) : lastAway (log ++ [sw]) q = some sw := by
  simp [lastAway, h]

theorem lastAway_append_of_ne (log : List Switch) (sw : Switch) {q : Nat}
    (h : sw.prev ≠ some q) : lastAway (log ++ [sw]) q = lastAway log q := by
  simp [lastAway, h]

theorem contextKept_append {first : Nat} {top : Nat → Nat} {log : List Switch} {sw : Switch}
    (hlog : ContextKept first top log) (hsw : Resumes first top log sw) :
    ContextKept first top (log ++ [sw]) := by
  intro before sw' after heq
  rcases List.eq_nil_or_concat after with rfl | ⟨init, last, rfl⟩
  · obtain ⟨rfl, hlast⟩ := List.append_inj' heq rfl
    cases hlast
    exact hsw
  · have hshape : log ++ [sw] = (before ++ sw' :: init) ++ [last] := by
      simpa using heq
    obtain ⟨rfl, -⟩ := List.append_inj' hshape rfl
    exact hlog before sw' init rfl

/-! ## The invariant -/

/-- What the control block of a process that is not current says about its
    context: it is dead, or its last switch is stored, or it has never run. -/
def Stored (first : Nat) (log : List Switch) (q : Nat) (proc : Process) : Prop :=
  proc.state = .dead ∨
  (∃ away, lastAway log q = some away ∧ proc.savedEsp = away.esp ∧ away.esp ≠ 0) ∨
  (lastAway log q = none ∧ ¬ HasRun first log q ∧ proc.savedEsp = 0)

/-- `current` is the process that runs. -/
structure Inv (first : Nat) (top : Nat → Nat) (current : Nat) (x : Traced) : Prop where
  is_current : x.sys.schedulerCurrentProcess = some current
  not_free : (x.sys.procs current).state ≠ .free
  top_eq : ∀ q, (x.sys.procs q).kernelStackTop = top q
  stored : ∀ q ∈ x.sys.processTable, q ≠ current → Stored first x.log q (x.sys.procs q)
  kept : ContextKept first top x.log

/-- A store through a `Process*` keeps the invariant when it leaves the saved
    context alone, revives no dead process and never sets the state `FREE`. -/
theorem Inv.modify {first : Nat} {top : Nat → Nat} {current : Nat} {s : ProcessSystem}
    {log : List Switch} (h : Inv first top current ⟨s, log⟩) {p : Nat} {f : Process → Process}
    (htop : (f (s.procs p)).kernelStackTop = (s.procs p).kernelStackTop)
    (hsaved : (f (s.procs p)).savedEsp = (s.procs p).savedEsp)
    (hfree : (s.procs p).state ≠ .free → (f (s.procs p)).state ≠ .free)
    (hdead : p ≠ current → (s.procs p).state = .dead → (f (s.procs p)).state = .dead) :
    Inv first top current ⟨s.modify p f, log⟩ where
  is_current := h.is_current
  not_free := by
    by_cases hp : current = p
    · subst hp
      simpa using hfree h.not_free
    · simpa [ProcessSystem.modify_procs_of_ne s p f hp] using h.not_free
  top_eq := by
    intro q
    by_cases hq : q = p
    · subst hq
      simpa [htop] using h.top_eq q
    · simpa [ProcessSystem.modify_procs_of_ne s p f hq] using h.top_eq q
  stored := by
    intro q hq hne
    have hold := h.stored q hq hne
    by_cases hqp : q = p
    · subst hqp
      simp only [ProcessSystem.modify_procs_self, Stored, hsaved]
      rcases hold with hold | hold
      · exact Or.inl (hdead hne hold)
      · exact Or.inr hold
    · simpa [ProcessSystem.modify_procs_of_ne s p f hqp] using hold
  kept := h.kept

/-! ## One step -/

/-- The current process is dead at a tick, or its context is stored. -/
theorem Inv.dead_or_saved {first : Nat} {top : Nat → Nat} {current : Nat} {x : Traced}
    (h : Inv first top current x) (hready : (x.sys.procs current).state ≠ .ready) (esp : Nat) :
    (x.sys.procs current).state = .dead ∨
      (ProcessSystem.saveProc esp (x.sys.procs current)).savedEsp = esp := by
  have hfree := h.not_free
  cases hstate : (x.sys.procs current).state with
  | free => exact absurd hstate hfree
  | ready => exact absurd hstate hready
  | running => exact Or.inr (ProcessSystem.saveProc_savedEsp _ _ (Or.inl hstate))
  | blocked => exact Or.inr (ProcessSystem.saveProc_savedEsp _ _ (Or.inr hstate))
  | dead => exact Or.inl rfl

theorem Inv.resumes {first : Nat} {top : Nat → Nat} {current : Nat} {s : ProcessSystem}
    {log : List Switch} (h : Inv first top current ⟨s, log⟩) {esp next : Nat} (hesp : esp ≠ 0)
    (hready : (s.procs current).state ≠ .ready) (hmem : next ∈ s.processTable)
    (hnext : (s.procs next).runnable) :
    Resumes first top log ⟨some current, next, esp,
      ProcessSystem.resumeEsp ((s.saveContext esp).procs next)⟩ := by
  unfold Resumes
  by_cases hself : next = current
  · -- the interrupted process is picked again: its context has just been stored
    subst hself
    rw [lastAway_append_self _ _ rfl]
    have hcurrent : s.schedulerCurrentProcess = some next := h.is_current
    have hsaved : (ProcessSystem.saveProc esp (s.procs next)).savedEsp = esp := by
      rcases h.dead_or_saved hready esp with hdead | hsaved
      · exact absurd hdead hnext.1
      · exact hsaved
    simp [ProcessSystem.resumeEsp, ProcessSystem.saveContext_procs, hcurrent, hsaved, hesp]
  · rw [lastAway_append_of_ne _ _ (by simpa using Ne.symm hself)]
    have hcurrent : s.schedulerCurrentProcess ≠ some next := by
      rw [show s.schedulerCurrentProcess = some current from h.is_current]
      simpa using Ne.symm hself
    have hproc : (s.saveContext esp).procs next = s.procs next := by
      rw [ProcessSystem.saveContext_procs, if_neg hcurrent]
    rw [hproc]
    rcases h.stored next hmem hself with hdead | ⟨away, haway, hsaved, hnull⟩ | ⟨haway, hnever, hsaved⟩
    · exact absurd hdead hnext.1
    · have hlast : lastAway log next = some away := haway
      have hesp' : (s.procs next).savedEsp = away.esp := hsaved
      simp [hlast, ProcessSystem.resumeEsp, hesp', hnull]
    · have hlast : lastAway log next = none := haway
      have hzero : (s.procs next).savedEsp = 0 := hsaved
      have htop := h.top_eq next
      simp only [hlast, ProcessSystem.resumeEsp, hzero]
      exact ⟨hnever, by simpa using htop⟩

/-- After a switch, the process that was left is stored and the others are as
    they were. -/
theorem Inv.stored_switch {first : Nat} {top : Nat → Nat} {current : Nat} {s : ProcessSystem}
    {log : List Switch} (h : Inv first top current ⟨s, log⟩) {esp next ret q : Nat} (hesp : esp ≠ 0)
    (hready : (s.procs current).state ≠ .ready) (hmem : q ∈ s.processTable) (hq : q ≠ next) :
    Stored first (log ++ [⟨some current, next, esp, ret⟩]) q ((s.saveContext esp).procs q) := by
  have hcur : s.schedulerCurrentProcess = some current := h.is_current
  by_cases hqc : q = current
  · subst hqc
    rw [ProcessSystem.saveContext_procs, if_pos hcur]
    rcases h.dead_or_saved hready esp with hdead | hsaved
    · left
      have hdead' : (s.procs q).state = .dead := hdead
      simp [ProcessSystem.saveProc_state, hdead']
    · exact Or.inr (Or.inl ⟨_, lastAway_append_self _ _ rfl, hsaved, hesp⟩)
  · have hne : s.schedulerCurrentProcess ≠ some q := by
      rw [hcur]
      simpa using Ne.symm hqc
    rw [ProcessSystem.saveContext_procs, if_neg hne]
    have haway : lastAway (log ++ [⟨some current, next, esp, ret⟩]) q = lastAway log q :=
      lastAway_append_of_ne _ _ (by simpa using Ne.symm hqc)
    rcases h.stored q hmem hqc with hdead | hstored | ⟨hnone, hnever, hsaved⟩
    · exact Or.inl hdead
    · exact Or.inr (Or.inl (haway ▸ hstored))
    · refine Or.inr (Or.inr ⟨haway.trans hnone, ?_, hsaved⟩)
      rintro (hfirst | ⟨sw, hsw, hnext⟩)
      · exact hnever (Or.inl hfirst)
      · rcases List.mem_append.mp hsw with hold | hnew
        · exact hnever (Or.inr ⟨sw, hold, hnext⟩)
        · rw [List.mem_singleton.mp hnew] at hnext
          exact hq hnext.symm

theorem Inv.schedulerTick {first : Nat} {top : Nat → Nat} {current : Nat} {s : ProcessSystem}
    {log : List Switch} (h : Inv first top current ⟨s, log⟩) {esp : Nat} (hesp : esp ≠ 0)
    (hready : (s.procs current).state ≠ .ready) :
    ∃ current', Inv first top current' ⟨(s.schedulerTick esp).2, log ++ switchOf s esp⟩ := by
  have hcur : s.schedulerCurrentProcess = some current := h.is_current
  have htop : ∀ q, ((s.saveContext esp).procs q).kernelStackTop = top q := by
    intro q
    rw [ProcessSystem.saveContext_procs]
    split
    · simpa using h.top_eq q
    · exact h.top_eq q
  rcases s.schedulerTick_cases esp with ⟨idx, next, htarget, hget, hnext, heq⟩ | ⟨htarget, heq, -⟩
  · have hlog : switchOf s esp =
        [⟨some current, next, esp, ProcessSystem.resumeEsp ((s.saveContext esp).procs next)⟩] := by
      simp [switchOf, htarget, heq, hcur]
    have hmem := ProcessSystem.processGet_mem hget
    rw [hlog, heq]
    refine ⟨next, ProcessSystem.switchedTo_current hget esp, ?_, ?_, ?_,
      contextKept_append h.kept (h.resumes hesp hready hmem hnext)⟩
    · simp [ProcessSystem.switchedTo]
    · intro q
      by_cases hq : q = next
      · subst hq
        simpa [ProcessSystem.switchedTo] using htop q
      · have hkept : (s.switchedTo esp idx next).procs q = (s.saveContext esp).procs q :=
          ProcessSystem.setState_procs_of_ne _ _ _ hq
        rw [hkept]
        exact htop q
    · intro q hq hne
      have hkept : (s.switchedTo esp idx next).procs q = (s.saveContext esp).procs q :=
        ProcessSystem.setState_procs_of_ne _ _ _ hne
      rw [hkept]
      exact h.stored_switch hesp hready (by simpa [ProcessSystem.switchedTo] using hq) hne
  · have hlog : switchOf s esp = [] := by simp [switchOf, htarget]
    rw [hlog, heq, List.append_nil]
    refine ⟨current, ?_, ?_, htop, ?_, h.kept⟩
    · exact (ProcessSystem.schedulerCurrentProcess_congr (by simp) (by simp)).trans hcur
    · rw [ProcessSystem.saveContext_procs, if_pos hcur, ProcessSystem.saveProc_state]
      split
      · simp
      · exact h.not_free
    · intro q hq hne
      have hother : s.schedulerCurrentProcess ≠ some q := by
        rw [hcur]
        simpa using Ne.symm hne
      rw [ProcessSystem.saveContext_procs, if_neg hother]
      exact h.stored q (by simpa using hq) hne

theorem Inv.step {first : Nat} {top : Nat → Nat} {current : Nat} {x y : Traced} {op : Op}
    (h : Inv first top current x) (hop : op.runtime = true) (hok : TickOk x.sys op)
    (hstep : x.Step op y) : ∃ current', Inv first top current' y := by
  obtain ⟨s, log⟩ := x
  obtain ⟨t, log'⟩ := y
  obtain ⟨hsys, hlog⟩ := hstep
  have hcur : s.schedulerCurrentProcess = some current := h.is_current
  cases op with
  | processCreate | processCreateKernel | attachQueue | processFirstEnter | processDestroy =>
    simp [Op.runtime] at hop
  | schedulerTick esp =>
    cases hsys
    cases hlog
    exact h.schedulerTick hok.1 (hok.2 current hcur)
  | ipcSend view targetPid data size =>
    cases hsys
    simp only [switches, List.append_nil] at hlog
    subst hlog
    rcases s.ipcSend_cases view targetPid data size with heq | ⟨p, q, -, halive, -, -, -, -, -, heq⟩
    · rw [heq]
      exact ⟨current, h⟩
    · rw [heq]
      refine ⟨current, h.modify rfl rfl ?_ fun _ hdead => absurd hdead halive⟩
      intro hfree
      simp only [ProcessSystem.deliver]
      split
      · simp
      · exact hfree
  | ipcRecv sender buf size =>
    cases hsys
    simp only [switches, List.append_nil] at hlog
    subst hlog
    rcases s.ipcRecv_cases sender buf size with
      heq | ⟨me, q, hme, -, -, -, ⟨-, heq⟩ | ⟨-, heq⟩⟩
    · rw [heq]
      exact ⟨current, h⟩
    · rw [heq]
      rw [hcur] at hme
      cases hme
      exact ⟨current, h.modify rfl rfl (fun _ => by simp) fun hne => absurd rfl hne⟩
    · rw [heq]
      exact ⟨current, h.modify rfl rfl id fun _ hdead => hdead⟩
  | kill pid =>
    cases hsys
    simp only [switches, List.append_nil] at hlog
    subst hlog
    unfold ProcessSystem.kill
    split
    · exact ⟨current, h.modify rfl rfl (fun _ => by simp) fun _ _ => rfl⟩
    · exact ⟨current, h⟩
  | exit code =>
    obtain rfl : s.exitCurrent code = t := hsys
    simp only [switches, List.append_nil] at hlog
    subst hlog
    unfold ProcessSystem.exitCurrent
    split
    · exact ⟨current, h.modify rfl rfl (fun _ => by simp) fun _ _ => rfl⟩
    · exact ⟨current, h⟩

/-! ## Whole runs -/

theorem Inv.start {s : ProcessSystem} {first : Nat} (hmem : first ∈ s.processTable)
    (hlen : s.processTable.length ≤ MAX_PROCESSES)
    (hfresh : ∀ q ∈ s.processTable, (s.procs q).savedEsp = 0) :
    Inv first (fun q => (s.procs q).kernelStackTop) first (Traced.start s first) := by
  obtain ⟨i, henter, hcur⟩ := ProcessSystem.processFirstEnter_eq hmem hlen
  rw [henter] at hcur
  unfold Traced.start
  rw [henter]
  refine ⟨hcur, by simp, ?_, ?_, ?_⟩
  · intro q
    by_cases hq : q = first
    · subst hq; simp
    · simp [ProcessSystem.setState_procs_of_ne _ _ _ hq]
  · intro q hq hne
    refine Or.inr (Or.inr ⟨rfl, ?_, ?_⟩)
    · rintro (hfirst | ⟨sw, hsw, -⟩)
      · exact hne hfirst
      · cases hsw
    · simpa [ProcessSystem.setState_procs_of_ne _ _ _ hne] using hfresh q (by simpa using hq)
  · intro before sw after heq
    simp at heq

/-- **No lost context.** Start in the first process of any table of processes
    that have never run. In every run of ticks, sends, receives, kills and exits
    in which no tick interrupts a process that is in state `READY` or passes a
    null stack pointer, every switch returns exactly the stack pointer of the
    tick that last left the entered process, or the top of its kernel stack if
    it has never run. -/
theorem context_kept {s : ProcessSystem} {first : Nat} {ops : List Op} {y : Traced}
    (hmem : first ∈ s.processTable) (hlen : s.processTable.length ≤ MAX_PROCESSES)
    (hfresh : ∀ q ∈ s.processTable, (s.procs q).savedEsp = 0)
    (hrun : Run (Guarded (fun x op => op.runtime = true ∧ TickOk x.sys op) Step)
      (Traced.start s first) ops y) :
    ContextKept first (fun q => (s.procs q).kernelStackTop) y.log := by
  have hinv : ∃ current, Inv first (fun q => (s.procs q).kernelStackTop) current y := by
    refine hrun.invariant
      (fun x => ∃ current, Inv first (fun q => (s.procs q).kernelStackTop) current x)
      ⟨first, Inv.start hmem hlen hfresh⟩ ?_
    rintro a op b ⟨current, ha⟩ ⟨⟨hop, hok⟩, hstep⟩
    exact ha.step hop hok hstep
  obtain ⟨current, h⟩ := hinv
  exact h.kept

/-- Two processes that take turns. -/
theorem context_kept_two_processes :
    ∃ y, Run (Guarded (fun x op => op.runtime = true ∧ TickOk x.sys op) Step)
        (Traced.start (ProcessSystem.tableOf [1, 2] (-1)) 1)
        [.schedulerTick 100, .schedulerTick 200] y ∧
      y.log = [⟨some 1, 2, 100, 8150⟩, ⟨some 2, 1, 200, 100⟩] ∧
      ContextKept 1 (fun q => ((ProcessSystem.tableOf [1, 2] (-1)).procs q).kernelStackTop) y.log := by
  have hok : ∀ (s : ProcessSystem) (esp c : Nat), esp ≠ 0 →
      s.schedulerCurrentProcess = some c → (s.procs c).state ≠ .ready →
      TickOk s (.schedulerTick esp) := by
    intro s esp c hesp hcur hstate
    refine ⟨hesp, fun c' hc' => ?_⟩
    rw [hcur] at hc'
    cases hc'
    exact hstate
  have hrun : Run (Guarded (fun x op => op.runtime = true ∧ TickOk x.sys op) Step)
      (Traced.start (ProcessSystem.tableOf [1, 2] (-1)) 1)
      [.schedulerTick 100, .schedulerTick 200] _ :=
    .cons ⟨⟨rfl, hok _ _ 1 (by decide) (by decide) (by decide)⟩, step_exec _ rfl⟩ <|
      .cons ⟨⟨rfl, hok _ _ 2 (by decide) (by decide) (by decide)⟩, step_exec _ rfl⟩ .nil
  exact ⟨_, hrun, by decide, context_kept (by decide) (by decide) (by decide) hrun⟩

/-- A process that finds its queue empty, sends itself a message and is then
    interrupted at `300` is resumed at `100`, where it was interrupted before. -/
theorem ipcSend_to_self_loses_context :
    ¬ ∀ (s : ProcessSystem) (first : Nat) (ops : List Op) (y : Traced),
      first ∈ s.processTable → s.processTable.length ≤ MAX_PROCESSES →
      (∀ q ∈ s.processTable, (s.procs q).savedEsp = 0) →
      Run (Guarded (fun _ op => op.runtime = true) Step) (Traced.start s first) ops y →
      ContextKept first (fun q => (s.procs q).kernelStackTop) y.log := by
  intro h
  have hrun : Run (Guarded (fun _ op => op.runtime = true) Step)
      (Traced.start ((ProcessSystem.tableOf [1, 2] (-1)).attachQueue 1
        fun _ => ⟨0, 0, fun _ => 0⟩) 1)
      [.schedulerTick 100, .schedulerTick 200, .ipcRecv 0 1 1, .ipcSend (fun _ => 0) 1 1 1,
        .schedulerTick 300, .schedulerTick 400] _ :=
    .cons ⟨rfl, step_exec _ rfl⟩ <| .cons ⟨rfl, step_exec _ rfl⟩ <|
      .cons ⟨rfl, step_exec _ rfl⟩ <| .cons ⟨rfl, step_exec _ rfl⟩ <|
      .cons ⟨rfl, step_exec _ rfl⟩ <| .cons ⟨rfl, step_exec _ rfl⟩ .nil
  have hkept := h _ _ _ _ (by decide) (by decide) (by decide) hrun
  have hlast : Resumes 1 _ _ ⟨some 2, 1, 400, 100⟩ :=
    hkept [⟨some 1, 2, 100, 8150⟩, ⟨some 2, 1, 200, 100⟩, ⟨some 1, 2, 300, 200⟩] _ [] (by decide)
  simp [Resumes, lastAway] at hlast

end Traced

end NemoOS
