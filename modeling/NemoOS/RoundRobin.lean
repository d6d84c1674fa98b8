import NemoOS.Scheduler
import NemoOS.Lib.Runs
import NemoOS.Lib.Turns

/-!
# Fairness of the scheduler

`find_next` begins its search behind the index of the process it found last and goes
around the table once. So the processes that are neither dead nor blocked take turns:
`order` is the order in which they come, and a tick selects the first of them and puts it
at the end (`TickStep.order`). Over as many ticks as there are such processes, each is
selected once (`round_robin`).

Between two ticks the kernel does anything that changes neither the table nor the state
of a process.
-/

namespace NemoOS

open Transition Turns

namespace ProcessSystem

/-! ## The order of the processes -/

/-- The entry of the table is a process that `find_next` may pick. -/
def runnableAt (s : ProcessSystem) (i : Nat) : Bool :=
  match s.processTable[i]? with
  | some p => decide (s.procs p).runnable
  | none => false

/-- The indices of the runnable processes as `find_next` comes to them. -/
def order (s : ProcessSystem) : List Nat :=
  turns s.runnableAt s.processTable.length (s.currentProcess + 1).toNat

/-- The processes that are neither dead nor blocked. -/
def runnableProcesses (s : ProcessSystem) : List Nat :=
  s.processTable.filter fun p => decide (s.procs p).runnable

theorem runnableAt_eq_true {s : ProcessSystem} {i : Nat} (h : s.runnableAt i = true) :
    ∃ p, s.processTable[i]? = some p ∧ (s.procs p).runnable := by
  rw [runnableAt] at h
  split at h
  · next p hp => exact ⟨p, hp, of_decide_eq_true h⟩
  · cases h

/-- Entries by index and entries by process. -/
theorem filter_range_map (table : List Nat) (keep : Nat → Bool) :
    ((List.range table.length).filter fun i => (table[i]?.map keep).getD false).map (table[·]?) =
      (table.filter keep).map some := by
  induction table using List.reverseRecOn with
  | nil => rfl
  | append_singleton table p ih =>
      have hold : ∀ i ∈ List.range table.length, (table ++ [p])[i]? = table[i]? := fun i hi =>
        List.getElem?_append_left (List.mem_range.mp hi)
      have hfilter : (List.range table.length).filter
            (fun i => ((table ++ [p])[i]?.map keep).getD false) =
          (List.range table.length).filter fun i => (table[i]?.map keep).getD false :=
        List.filter_congr fun i hi => by rw [hold i hi]
      rw [List.length_append, List.length_singleton, List.range_succ, List.filter_append, hfilter,
        List.map_append, List.filter_append, List.map_append, ← ih]
      congr 1
      · exact List.map_congr_left fun i hi => hold i (List.mem_of_mem_filter hi)
      · by_cases hp : keep p <;> simp [hp]

theorem order_perm (s : ProcessSystem) :
    (s.order.map (s.processTable[·]?)).Perm (s.runnableProcesses.map some) := by
  have hat : s.runnableAt =
      fun i => (s.processTable[i]?.map fun p => decide (s.procs p).runnable).getD false := by
    funext i
    rw [runnableAt]
    cases s.processTable[i]? <;> rfl
  rw [runnableProcesses, ← filter_range_map, order, hat]
  exact (turns_perm _ _ _).map _

/-! ## One tick -/

/-- The loop of `find_next` looks at the indices in order. -/
theorem findNextLoop_eq_find? (s : ProcessSystem) {start : Int} {m : Nat} (hm : start + 1 = m)
    (k j : Nat) :
    s.findNextLoop start (1 + j) k =
      (((List.range' j k).map fun i => (m + i) % s.processTable.length).find? s.runnableAt).elim
        (-1) (↑) := by
  induction k generalizing j with
  | zero => rfl
  | succ k ih =>
      have hidx : (start + ((1 + j : Nat) : Int)).tmod s.processTotal =
          (((m + j) % s.processTable.length : Nat) : Int) := by
        have hsum : start + ((1 + j : Nat) : Int) = ((m + j : Nat) : Int) := by
          push_cast
          omega
        rw [hsum, processTotal, ← Int.ofNat_tmod]
      rw [findNextLoop, hidx, processGet_natCast, List.range'_succ, List.map_cons, List.find?_cons]
      have hnext := ih (j + 1)
      rw [← Nat.add_assoc] at hnext
      rw [hnext]
      generalize (m + j) % s.processTable.length = i
      simp only [runnableAt]
      cases s.processTable[i]? with
      | none => rfl
      | some p => by_cases hp : (s.procs p).runnable <;> simp [hp]

theorem findNext_eq_head? {s : ProcessSystem} (hcurrent : -1 ≤ s.currentProcess) :
    s.findNext s.currentProcess = s.order.head?.elim (-1) (↑) := by
  rw [findNext, order, ← find?_eq_head?, List.range_eq_range']
  split
  · next hzero =>
    have hlength : s.processTable.length = 0 := Int.natCast_eq_zero.mp hzero
    rw [hlength]
    rfl
  · exact s.findNextLoop_eq_find? (by omega) s.processTable.length 0

/-- Nothing changes that the scheduler looks at. -/
structure Quiet (s t : ProcessSystem) : Prop where
  table : t.processTable = s.processTable
  current : t.currentProcess = s.currentProcess
  states : ∀ p, (t.procs p).state = (s.procs p).state

theorem Quiet.refl (s : ProcessSystem) : Quiet s s := ⟨rfl, rfl, fun _ => rfl⟩

/-- A tick, after whatever the kernel did since the last one. The label is the process
    the tick selects. -/
def TickStep (s : ProcessSystem) (selected : Option Nat) (t : ProcessSystem) : Prop :=
  ∃ s' esp, Quiet s s' ∧ selected = (s'.saveContext esp).tickTarget ∧ t = (s'.schedulerTick esp).2

theorem order_congr {s t : ProcessSystem} (htable : t.processTable = s.processTable)
    (hcurrent : t.currentProcess = s.currentProcess)
    (hrunnable : ∀ p, (t.procs p).runnable ↔ (s.procs p).runnable) : t.order = s.order := by
  have hat : t.runnableAt = s.runnableAt := by
    funext i
    simp only [runnableAt, htable, hrunnable]
  rw [order, order, htable, hcurrent, hat]

theorem Quiet.runnable {s t : ProcessSystem} (h : Quiet s t) (p : Nat) :
    (t.procs p).runnable ↔ (s.procs p).runnable := by
  rw [Process.runnable, Process.runnable, h.states p]

/-- What a tick does while there is a runnable process. -/
structure Selects (s : ProcessSystem) (i next : Nat) (t : ProcessSystem) : Prop where
  entry : s.processTable[i]? = some next
  table : t.processTable = s.processTable
  current : t.currentProcess = i
  state : (t.procs next).state = .running
  others : ∀ p, p ≠ next → (t.procs p).state =
    if s.schedulerCurrentProcess = some p ∧ (s.procs p).state = .running then .ready
    else (s.procs p).state
  runnable : ∀ p, (t.procs p).runnable ↔ (s.procs p).runnable

theorem switchedTo_selects {s : ProcessSystem} {i next : Nat} (esp : Nat)
    (hentry : s.processTable[i]? = some next) (hrunnable : (s.procs next).runnable) :
    Selects s i next (s.switchedTo esp i next) := by
  have hnext : (s.switchedTo esp i next).procs next =
      { (s.saveContext esp).procs next with state := .running } := setState_procs_self _ next _
  have hother : ∀ p, p ≠ next → (s.switchedTo esp i next).procs p = (s.saveContext esp).procs p :=
    fun p hp => setState_procs_of_ne _ next _ hp
  refine ⟨hentry, saveContext_processTable s esp, rfl, by rw [hnext], fun p hp => ?_, fun p => ?_⟩
  · rw [hother p hp, saveContext_procs]
    by_cases hcurrent : s.schedulerCurrentProcess = some p
    · simp only [hcurrent, true_and, if_true, saveProc_state]
    · simp only [hcurrent, false_and, if_false]
  · by_cases hp : p = next
    · subst hp
      rw [hnext]
      exact iff_of_true ⟨nofun, nofun⟩ hrunnable
    · rw [hother p hp, saveContext_runnable]

theorem schedulerTick_selects {s : ProcessSystem} {i : Nat} {rest : List Nat} (esp : Nat)
    (hcurrent : -1 ≤ s.currentProcess) (horder : s.order = i :: rest) :
    ∃ next, (s.saveContext esp).tickTarget = some next ∧
      Selects s i next (s.schedulerTick esp).2 := by
  have hat : s.runnableAt i = true := by
    have hmem : i ∈ s.order := horder ▸ List.mem_cons_self
    exact (List.mem_filter.mp hmem).2
  obtain ⟨next, hentry, hrunnable⟩ := runnableAt_eq_true hat
  have hsaved : (s.saveContext esp).order = s.order :=
    order_congr (by simp) (by simp) (saveContext_runnable s esp)
  have hfind : (s.saveContext esp).findNext (s.saveContext esp).currentProcess = i := by
    rw [findNext_eq_head? (by simpa using hcurrent), hsaved, horder]
    rfl
  have htarget : (s.saveContext esp).tickTarget = some next := by
    rw [tickTarget, hfind, if_pos (Int.natCast_nonneg i), processGet_natCast,
      saveContext_processTable, hentry]
  have htotal : s.processTotal ≠ 0 := by
    have hlength := (List.getElem?_eq_some_iff.mp hentry).1
    rw [processTotal]
    omega
  have htick : (s.schedulerTick esp).2 = s.switchedTo esp i next := by
    simp only [schedulerTick, if_neg htotal, htarget, hfind]
    rfl
  rw [htick]
  exact ⟨next, htarget, switchedTo_selects esp hentry hrunnable⟩

/-! ## Consecutive ticks -/

/-- A tick selects the first process in order, which then is the last. -/
theorem TickStep.order {s t : ProcessSystem} {selected : Option Nat} (h : TickStep s selected t)
    (hcurrent : -1 ≤ s.currentProcess) {i : Nat} {rest : List Nat} (horder : s.order = i :: rest) :
    selected = s.processTable[i]? ∧ t.order = rest ++ [i] ∧ t.processTable = s.processTable ∧
      -1 ≤ t.currentProcess ∧ ∀ p, (t.procs p).runnable ↔ (s.procs p).runnable := by
  obtain ⟨s', esp, hquiet, rfl, rfl⟩ := h
  have horder' : s'.order = i :: rest := by
    rw [order_congr hquiet.table hquiet.current hquiet.runnable, horder]
  obtain ⟨next, htarget, hselects⟩ :=
    schedulerTick_selects esp (by rw [hquiet.current]; exact hcurrent) horder'
  have hrunnable : ∀ p, ((s'.schedulerTick esp).2.procs p).runnable ↔ (s.procs p).runnable :=
    fun p => (hselects.runnable p).trans (hquiet.runnable p)
  refine ⟨?_, ?_, hselects.table.trans hquiet.table, ?_, hrunnable⟩
  · rw [htarget, ← hquiet.table, hselects.entry]
  · have hat : (s'.schedulerTick esp).2.runnableAt = s'.runnableAt := by
      funext j
      simp only [runnableAt, hselects.table, hselects.runnable]
    rw [ProcessSystem.order, hselects.current, hselects.table, hat]
    exact turns_succ horder'
  · rw [hselects.current]
    omega

/-- The order after some ticks, and the processes they have selected. -/
theorem run_order {s t : ProcessSystem} {selected : List (Option Nat)}
    (hrun : Run TickStep s selected t) (hcurrent : -1 ≤ s.currentProcess) (hne : s.order ≠ []) :
    t.order = s.order.rotate selected.length ∧ t.order ≠ [] ∧ t.processTable = s.processTable ∧
      -1 ≤ t.currentProcess ∧ (∀ p, (t.procs p).runnable ↔ (s.procs p).runnable) ∧
      (selected.length ≤ s.order.length →
        selected = (s.order.take selected.length).map (s.processTable[·]?)) := by
  induction hrun with
  | nil => exact ⟨by simp, hne, rfl, hcurrent, fun _ => Iff.rfl, fun _ => by simp⟩
  | @snoc labels t u l _ hlast ih =>
      obtain ⟨horder, hne', htable, hcurrent', hrunnable, hselected⟩ := ih
      obtain ⟨i, rest, hcons⟩ := List.exists_cons_of_ne_nil hne'
      obtain ⟨hl, horder', htable', hcurrent'', hrunnable'⟩ := hlast.order hcurrent' hcons
      refine ⟨?_, by simp [horder'], htable'.trans htable, hcurrent'',
        fun p => (hrunnable' p).trans (hrunnable p), ?_⟩
      · rw [horder', List.length_append, List.length_singleton, ← List.rotate_rotate, ← horder,
          hcons, List.rotate_cons_succ, List.rotate_zero]
      · intro hlength
        rw [List.length_append, List.length_singleton] at hlength ⊢
        have hi : s.order[labels.length]? = some i := by
          have hhead := congrArg (·[0]?) hcons
          simp only [horder, List.getElem?_cons_zero] at hhead
          rw [List.getElem?_rotate (by omega), Nat.zero_add, Nat.mod_eq_of_lt (by omega)] at hhead
          exact hhead
        rw [List.take_add_one, hi, List.map_append, ← hselected (by omega), hl, htable]
        rfl

/-- No process but the current one is running. -/
def OnlyCurrentRuns (s : ProcessSystem) : Prop :=
  ∀ p ∈ s.processTable, (s.procs p).state = .running → s.schedulerCurrentProcess = some p

theorem Selects.onlyCurrentRuns {s t : ProcessSystem} {i next : Nat} (h : Selects s i next t)
    (honly : s.OnlyCurrentRuns) :
    ∀ p ∈ t.processTable, (t.procs p).state = .running → p = next := by
  intro p hp hstate
  by_contra hne
  rw [h.others p hne] at hstate
  split at hstate
  · cases hstate
  · next hother => exact hother ⟨honly p (h.table ▸ hp) hstate, hstate⟩

theorem Selects.currentProcess {s t : ProcessSystem} {i next : Nat} (h : Selects s i next t) :
    t.schedulerCurrentProcess = some next := by
  rw [schedulerCurrentProcess, h.current, if_neg (by omega), processGet_natCast, h.table, h.entry]

/-- After a tick the selected process is the only one that is running. -/
theorem TickStep.running {s t : ProcessSystem} {selected : Option Nat} (h : TickStep s selected t)
    (hcurrent : -1 ≤ s.currentProcess) (hne : s.order ≠ []) (honly : s.OnlyCurrentRuns) :
    t.OnlyCurrentRuns ∧ ∃ p, selected = some p ∧ (t.procs p).state = .running ∧
      ∀ q ∈ t.processTable, (t.procs q).state = .running → q = p := by
  obtain ⟨s', esp, hquiet, rfl, rfl⟩ := h
  have horder' : s'.order = s.order := order_congr hquiet.table hquiet.current hquiet.runnable
  obtain ⟨i, rest, hcons⟩ := List.exists_cons_of_ne_nil (horder' ▸ hne)
  obtain ⟨next, htarget, hselects⟩ :=
    schedulerTick_selects esp (by rw [hquiet.current]; exact hcurrent) hcons
  have honly' : s'.OnlyCurrentRuns := by
    intro p hp hstate
    rw [hquiet.states p] at hstate
    rw [schedulerCurrentProcess_congr hquiet.table hquiet.current]
    exact honly p (hquiet.table ▸ hp) hstate
  have hrunning := hselects.onlyCurrentRuns honly'
  refine ⟨fun p hp hstate => ?_, next, htarget, hselects.state, hrunning⟩
  rw [hrunning p hp hstate, hselects.currentProcess]

theorem run_onlyCurrentRuns {s t : ProcessSystem} {selected : List (Option Nat)}
    (hrun : Run TickStep s selected t) (hcurrent : -1 ≤ s.currentProcess) (hne : s.order ≠ [])
    (honly : s.OnlyCurrentRuns) : t.OnlyCurrentRuns := by
  induction hrun with
  | nil => exact honly
  | snoc hrun hlast ih =>
      obtain ⟨-, hne', -, hcurrent', -, -⟩ := run_order hrun hcurrent hne
      exact (hlast.running hcurrent' hne' ih).1

theorem order_ne_nil {s : ProcessSystem} (h : s.runnableProcesses ≠ []) : s.order ≠ [] := by
  intro hnil
  have hperm := s.order_perm
  rw [hnil, List.map_nil, List.nil_perm, List.map_eq_nil_iff] at hperm
  exact h hperm

/-- **Round robin.** For every table with a runnable process and every index the scheduler
    can hold, any ticks that follow each other, as many as there are runnable processes,
    select each of them once; and if only the current process was running before the first
    tick, the selected process is the only one that is running after each tick. -/
theorem round_robin {s : ProcessSystem} (hcurrent : -1 ≤ s.currentProcess)
    (hne : s.runnableProcesses ≠ []) :
    (∀ before selected t, Run TickStep s (before ++ selected) t →
      selected.length = s.runnableProcesses.length →
      selected.Perm (s.runnableProcesses.map some)) ∧
    (s.OnlyCurrentRuns → ∀ before selected t, Run TickStep s (before ++ [selected]) t →
      ∃ p, selected = some p ∧ (t.procs p).state = .running ∧
        ∀ q ∈ t.processTable, (t.procs q).state = .running → q = p) := by
  have horder_ne := order_ne_nil hne
  constructor
  · intro before selected t hrun hlength
    obtain ⟨u, hbefore, hselected⟩ := hrun.cut
    obtain ⟨-, hne', htable, hcurrent', hrunnable, -⟩ := run_order hbefore hcurrent horder_ne
    have hprocesses : u.runnableProcesses = s.runnableProcesses := by
      rw [runnableProcesses, runnableProcesses, htable]
      simp only [hrunnable]
    have hlength' : selected.length = u.order.length := by
      have hperm := u.order_perm.length_eq
      rw [List.length_map, List.length_map, hprocesses] at hperm
      rw [hlength, hperm]
    obtain ⟨-, -, -, -, -, hpicked⟩ := run_order hselected hcurrent' hne'
    rw [hpicked hlength'.le, hlength', List.take_length, ← hprocesses]
    exact u.order_perm
  · intro honly before selected t hrun
    obtain ⟨u, hbefore, hlast⟩ := hrun.last
    obtain ⟨-, hne', -, hcurrent', -, -⟩ := run_order hbefore hcurrent horder_ne
    exact (hlast.running hcurrent' hne'
      (run_onlyCurrentRuns hbefore hcurrent horder_ne honly)).2

/-- A blocked, a ready, a dead and a running process, in this order. -/
def mixedSystem : ProcessSystem where
  procs p :=
    { kernelProcess p 0x1000 (p * 0x2000) with
      state := if p = 1 then .blocked else if p = 2 then .ready else if p = 3 then .dead
        else .running }
  processTable := [1, 2, 3, 4]
  currentProcess := 3
  nextPid := 5
  tssEsp0 := 0
  cr3 := 0x1000

/-- Two ticks select the ready and the running process. -/
theorem round_robin_mixed :
    ∃ t, Run TickStep mixedSystem ([] ++ [some 2, some 4]) t ∧
      List.Perm [some 2, some 4] (mixedSystem.runnableProcesses.map some) ∧
      ∃ p, some 4 = some p ∧ (t.procs p).state = .running ∧
        ∀ q ∈ t.processTable, (t.procs q).state = .running → q = p := by
  have htick : ∀ s esp, TickStep s (saveContext s esp).tickTarget (s.schedulerTick esp).2 :=
    fun s esp => ⟨s, esp, Quiet.refl s, rfl, rfl⟩
  have hfirst : (mixedSystem.saveContext 8).tickTarget = some 2 := by decide
  have hsecond : ((mixedSystem.schedulerTick 8).2.saveContext 8).tickTarget = some 4 := by decide
  have hrun : Run TickStep mixedSystem ([] ++ [some 2, some 4]) _ :=
    .cons (hfirst ▸ htick mixedSystem 8) (.cons (hsecond ▸ htick _ 8) .nil)
  have hfair := round_robin (s := mixedSystem) (by decide) (by decide)
  have honly : mixedSystem.OnlyCurrentRuns := by
    unfold OnlyCurrentRuns
    decide
  exact ⟨_, hrun, hfair.1 _ _ _ hrun (by decide), hfair.2 honly [some 2] (some 4) _ hrun⟩

end ProcessSystem

end NemoOS
