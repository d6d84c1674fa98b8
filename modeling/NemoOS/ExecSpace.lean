import NemoOS.Exec

/-!
# The space that `exec` loads into

The loader stores through the active space. `exec` makes the new space active, but every
tick that switches loads `cr3` from the control block of the process it enters, and the
shell's is the kernel's space. So a byte goes to the new space exactly when no tick came
since the `vmm_switch` of `exec`.
-/

namespace NemoOS

open Transition

namespace Exec

variable {c : ExecCall} {s : ProcessSystem} {x y : Exec}

/-- The loader stores a byte only if no tick came since the first `vmm_switch`. -/
def StoreOk (x : Exec) : ExecEvent → Prop
  | .shell => ∀ virt byte rest, x.todo = .load (.store virt byte) :: rest → x.interrupted = false
  | _ => True

/-- While `exec` lasts: what holds whenever the shell is the current process. -/
structure Active (c : ExecCall) (x : Exec) : Prop where
  current_ge : -1 ≤ x.sys.currentProcess
  space_eq : (x.sys.procs c.shell).addressSpace = c.kernelSpace
  runnable : x.sys.schedulerCurrentProcess = some c.shell →
    ∃ q ∈ x.sys.processTable, (x.sys.procs q).runnable
  cr3_eq : (∃ acts, x.todo = loadSteps acts) → x.sys.schedulerCurrentProcess = some c.shell →
    x.sys.cr3 = if x.interrupted then c.kernelSpace else c.space

theorem program_ne_loadSteps (c : ExecCall) (acts : List LoadAction) :
    c.program ≠ loadSteps acts := by
  cases acts with
  | nil => exact fun h => nomatch (List.cons.inj h).1
  | cons a acts => exact fun h => nomatch (List.cons.inj h).1

theorem loadSteps_ne_nil (acts : List LoadAction) : loadSteps acts ≠ [] :=
  List.append_ne_nil_of_right_ne_nil _ (List.cons_ne_nil _ _)

theorem finish_ne_loadSteps (acts : List LoadAction) : [ExecStep.finish] ≠ loadSteps acts := by
  cases acts with
  | nil => exact fun h => nomatch (List.cons.inj h).1
  | cons a acts => exact fun h => nomatch (List.cons.inj h).1

/-- The invariant of a run. -/
def Tracked (c : ExecCall) (x : Exec) : Prop := Phase c x.todo ∧ (x.todo ≠ [] → Active c x)

theorem Active.start (h : Started c s x)
    (hshell : (s.procs c.shell).addressSpace = c.kernelSpace) : Active c x := by
  obtain ⟨hcurrent, hfresh, sys, load, hcreate, rfl⟩ := h
  obtain ⟨-, htable, hindex, hself, hother⟩ := ProcessSystem.registerProcess_eq_some hcreate
  have hne : c.shell ≠ c.proc := fun heq =>
    hfresh (by rw [← heq]; exact ProcessSystem.schedulerCurrentProcess_mem hcurrent)
  have hnonneg := (ProcessSystem.schedulerCurrentProcess_eq_some hcurrent).1
  refine ⟨?_, ?_, fun _ => ⟨c.proc, ?_, ?_⟩, ?_⟩
  · change -1 ≤ sys.currentProcess
    omega
  · change (sys.procs c.shell).addressSpace = _
    rw [hother _ hne, hshell]
  · change c.proc ∈ sys.processTable
    rw [htable]
    exact List.mem_append_right _ List.mem_cons_self
  · change (sys.procs c.proc).runnable
    rw [hself]
    exact ⟨nofun, nofun⟩
  · rintro ⟨acts, hacts⟩
    exact absurd hacts (program_ne_loadSteps c acts)

/-- A tick comes back to the shell only by switching to it. -/
theorem Active.tick (h : Active c x) (hkernel : c.kernelSpace ≠ 0) (esp : Nat) :
    Active c (x.tick esp) := by
  have hspace := (x.sys.schedulerTick_addressSpace esp c.shell).trans h.space_eq
  rcases x.sys.schedulerTick_cases esp with
    ⟨idx, next, -, hget, -, heq⟩ | ⟨-, heq, hnone⟩
  · have hnext := ProcessSystem.switchedTo_current hget esp
    have hidx := (ProcessSystem.processGet_eq_some hget).1
    refine ⟨?_, hspace, ?_, ?_⟩
    · rw [Exec.tick, heq]
      change -1 ≤ idx
      omega
    · intro hcurrent
      rw [Exec.tick, heq] at hcurrent ⊢
      refine ⟨next, ?_, by simp [ProcessSystem.switchedTo, Process.runnable]⟩
      simpa [ProcessSystem.switchedTo] using ProcessSystem.processGet_mem hget
    · intro _ hcurrent
      rw [Exec.tick, heq] at hcurrent
      have hshell : next = c.shell := Option.some.inj (hnext.symm.trans hcurrent)
      have hloaded : ((x.sys.saveContext esp).procs next).addressSpace = c.kernelSpace := by
        rw [heq, ← hshell] at hspace
        simpa [ProcessSystem.switchedTo] using hspace
      rw [Exec.tick, heq, if_pos rfl, ← hloaded]
      exact if_pos (by rw [hloaded]; exact hkernel)
  · -- nobody can run, so that the shell is not the current process
    have hother : (x.tick esp).sys.schedulerCurrentProcess ≠ some c.shell := by
      intro hcurrent
      rw [Exec.tick, heq] at hcurrent
      have hsame : (x.sys.saveContext esp).schedulerCurrentProcess =
          x.sys.schedulerCurrentProcess :=
        ProcessSystem.schedulerCurrentProcess_congr (by simp) (by simp)
      obtain ⟨q, hq, hrun⟩ := h.runnable (hsame.symm.trans hcurrent)
      exact hnone h.current_ge q hq hrun
    refine ⟨?_, hspace, fun hcurrent => absurd hcurrent hother,
      fun _ hcurrent => absurd hcurrent hother⟩
    rw [Exec.tick, heq]
    simpa using h.current_ge

theorem Tracked.shellStep (h : Tracked c x) (htodo : x.todo ≠ [])
    (hcurrent : x.sys.schedulerCurrentProcess = some c.shell) : Tracked c (x.shellStep c) := by
  have hactive := h.2 htodo
  have hrun := hactive.runnable hcurrent
  rcases shellStep_cases h.1 htodo with
    ⟨-, heq⟩ | ⟨a, acts, hacts, heq⟩ | ⟨-, heq⟩ | ⟨-, hdone, -⟩
  · rw [heq]
    exact ⟨.loading _, fun _ =>
      ⟨hactive.current_ge, hactive.space_eq, fun _ => hrun, fun _ _ => rfl⟩⟩
  · rw [heq]
    obtain ⟨acts', hacts'⟩ := loadRound_todo c x a acts
    exact ⟨by rw [hacts']; exact .loading _, fun _ =>
      ⟨hactive.current_ge, hactive.space_eq, fun _ => hrun, fun _ => hactive.cr3_eq ⟨_, hacts⟩⟩⟩
  · rw [heq]
    refine ⟨.left, fun _ => ⟨hactive.current_ge, hactive.space_eq, fun _ => hrun, ?_⟩⟩
    rintro ⟨acts, hacts⟩
    exact absurd hacts (finish_ne_loadSteps acts)
  · exact ⟨by rw [hdone]; exact .finished, fun hne => absurd hdone hne⟩

theorem Tracked.step (h : Tracked c x) (hkernel : c.kernelSpace ≠ 0) {e : ExecEvent}
    (hstep : Step c x e y) : Tracked c y := by
  cases hstep with
  | tick esp => exact ⟨h.1, fun htodo => (h.2 htodo).tick hkernel esp⟩
  | shell hcurrent htodo => exact h.shellStep htodo hcurrent
  | other op hcall hother =>
      obtain ⟨htable, hindex, hcr3, hspaces⟩ := x.sys.exec_call hcall
      have hsame : (x.sys.exec op).schedulerCurrentProcess = x.sys.schedulerCurrentProcess :=
        ProcessSystem.schedulerCurrentProcess_congr htable hindex
      have hnot : (x.sys.exec op).schedulerCurrentProcess ≠ some c.shell := by
        rw [hsame]
        exact hother
      refine ⟨h.1, fun htodo => ⟨?_, ?_, fun hcurrent => absurd hcurrent hnot,
        fun _ hcurrent => absurd hcurrent hnot⟩⟩
      · exact (h.2 htodo).current_ge.trans_eq hindex.symm
      · exact (hspaces _).trans (h.2 htodo).space_eq

/-! ## The bytes that are stored -/

/-- What a step adds to the stores. -/
theorem Step.stores_cases {e : ExecEvent} (hphase : Phase c x.todo) (hstep : Step c x e y) :
    (y.stores = x.stores ∧ StoreOk x e) ∨
      ∃ virt byte acts, x.todo = loadSteps (.store virt byte :: acts) ∧ e = .shell ∧
        x.sys.schedulerCurrentProcess = some c.shell ∧ y.stores = x.sys.cr3 :: x.stores := by
  cases hstep with
  | tick esp => exact .inl ⟨rfl, trivial⟩
  | other => exact .inl ⟨rfl, trivial⟩
  | shell hcurrent htodo =>
      rcases shellStep_cases hphase htodo with
        ⟨hprogram, heq⟩ | ⟨a, acts, hacts, heq⟩ | ⟨hleave, heq⟩ | ⟨hfinish, -, heq⟩
      · refine .inl ⟨by rw [heq], fun virt byte rest hstore => ?_⟩
        rw [hprogram] at hstore
        exact nomatch (List.cons.inj hstore).1
      · cases a with
        | map page flags =>
            refine .inl ⟨by rw [heq]; rfl, fun virt byte rest hstore => ?_⟩
            rw [hacts] at hstore
            exact nomatch ExecStep.load.inj (List.cons.inj hstore).1
        | store virt byte => exact .inr ⟨virt, byte, _, hacts, rfl, hcurrent, by rw [heq]; rfl⟩
      · refine .inl ⟨by rw [heq], fun virt byte rest hstore => ?_⟩
        rw [hleave] at hstore
        exact nomatch (List.cons.inj hstore).1
      · refine .inl ⟨heq, fun virt byte rest hstore => ?_⟩
        rw [hfinish] at hstore
        exact nomatch (List.cons.inj hstore).1

/-- A byte is stored into the new space exactly when no tick has come before it. -/
theorem Tracked.stores_iff (h : Tracked c x) (hspace : c.space ≠ c.kernelSpace) {e : ExecEvent}
    (hstep : Step c x e y) :
    (∀ a ∈ y.stores, a = c.space) ↔ (∀ a ∈ x.stores, a = c.space) ∧ StoreOk x e := by
  rcases hstep.stores_cases h.1 with
    ⟨hsame, hok⟩ | ⟨virt, byte, acts, htodo, rfl, hcurrent, hstores⟩
  · rw [hsame]
    exact ⟨fun hall => ⟨hall, hok⟩, fun hall => hall.1⟩
  · have hcr3 := (h.2 (by rw [htodo]; exact loadSteps_ne_nil _)).cr3_eq ⟨_, htodo⟩ hcurrent
    rw [hstores, List.forall_mem_cons, hcr3, and_comm]
    have hok : StoreOk x .shell ↔ x.interrupted = false := by
      constructor
      · intro hok
        exact hok virt byte _ htodo
      · intro hclear _ _ _ _
        exact hclear
    rw [hok]
    cases x.interrupted with
    | false => simp
    | true => simp [Ne.symm hspace]

/-- **When the loader stores into the new space.** In a run of ticks, of the shell's steps
    and of calls of the other processes every byte is stored while the new space is active
    exactly when no tick comes between the first `vmm_switch` and a byte that is stored. -/
theorem exec_stores_in_space_iff {events : List ExecEvent} (hstart : Started c s x)
    (hshell : (s.procs c.shell).addressSpace = c.kernelSpace) (hkernel : c.kernelSpace ≠ 0)
    (hspace : c.space ≠ c.kernelSpace) (hrun : Run (Step c) x events y) :
    (∀ a ∈ y.stores, a = c.space) ↔ Run (Guarded StoreOk (Step c)) x events y := by
  have htracked : Tracked c x := by
    refine ⟨?_, fun _ => .start hstart hshell⟩
    obtain ⟨-, -, sys, load, -, rfl⟩ := hstart
    exact .created
  have hnone : ∀ a ∈ x.stores, a = c.space := by
    obtain ⟨-, -, sys, load, -, rfl⟩ := hstart
    exact fun a ha => nomatch ha
  constructor
  · intro hall
    induction hrun with
    | nil => exact .nil
    | snoc hbefore hlast ih =>
        have hinv := hbefore.invariant (Tracked c) htracked fun _ _ _ ha hstep =>
          ha.step hkernel hstep
        obtain ⟨hold, hok⟩ := (hinv.stores_iff hspace hlast).mp hall
        exact (ih hold).snoc ⟨hok, hlast⟩
  · intro hguarded
    have hboth : Tracked c y ∧ ∀ a ∈ y.stores, a = c.space := by
      apply hguarded.invariant (fun z => Tracked c z ∧ ∀ a ∈ z.stores, a = c.space)
        ⟨htracked, hnone⟩
      rintro a e b ⟨ha, hstores⟩ ⟨hok, hstep⟩
      exact ⟨ha.step hkernel hstep, (ha.stores_iff hspace hstep).mpr ⟨hstores, hok⟩⟩
    exact hboth.2

/-- The two rounds of the loader for the file of `shellCall`. -/
theorem loadActions_shellCall :
    loadActions shellCall.file = [.map 0x40000000 7, .store 0x40000000 0x7F] := by
  decide

/-- The shell at the only byte of the file, with one process in the table. -/
def shellLoading : Exec :=
  ((start shellCall (shellCreated [1]) shellLoad).shellStep shellCall).loadRound shellCall
    (.map 0x40000000 7) (loadSteps [.store 0x40000000 0x7F])

theorem shellLoading_todo : shellLoading.todo = loadSteps [.store 0x40000000 0x7F] := by
  have hact := Load.act_map_some shellCall.space 0x3000 0x40000000 7
    (rfl : shellLoad.machine.pmm.pmmAllocPage = (0x4000, shellLoad.machine.pmm.pmmAllocPage.2))
    (by decide)
  rw [shellLoading, loadRound_eq hact, if_pos rfl]

theorem shellLoading_started :
    Started shellCall (shellSystem [1]) (start shellCall (shellCreated [1]) shellLoad) :=
  ⟨rfl, by decide, _, _, rfl, rfl⟩

/-- Up to that byte no tick has come. -/
theorem shellLoading_run :
    Run (Guarded StoreOk (Step shellCall)) (start shellCall (shellCreated [1]) shellLoad)
      [.shell, .shell] shellLoading :=
  .cons ⟨fun _ _ _ _ => rfl, .shell rfl (List.cons_ne_nil _ _)⟩
    (.cons ⟨fun _ _ _ _ => rfl, step_load rfl (congrArg loadSteps loadActions_shellCall)⟩ .nil)

/-- Without a tick the byte goes to the new space. -/
theorem exec_stores_in_space_undisturbed :
    ∃ x y, Started shellCall (shellSystem [1]) x ∧
      Run (Step shellCall) x [.shell, .shell, .shell] y ∧ y.stores ≠ [] ∧
      ∀ a ∈ y.stores, a = shellCall.space := by
  have hok : StoreOk shellLoading .shell := fun _ _ _ _ => rfl
  have hguarded := shellLoading_run.snoc ⟨hok, step_load rfl shellLoading_todo⟩
  have hrun := hguarded.mono fun _ _ _ hstep => hstep.2
  exact ⟨_, _, shellLoading_started, hrun, List.cons_ne_nil _ _,
    (exec_stores_in_space_iff shellLoading_started rfl (by decide) (by decide) hrun).mpr hguarded⟩

/-- Two ticks, to the new process and back, come between the page of the segment and its
    byte: the byte is stored while the kernel's space is active. -/
theorem exec_stores_in_kernel_space :
    ¬ ∀ (c : ExecCall) (s : ProcessSystem) (x y : Exec) (events : List ExecEvent),
      Started c s x → (s.procs c.shell).addressSpace = c.kernelSpace → c.kernelSpace ≠ 0 →
      c.space ≠ c.kernelSpace → Run (Step c) x events y → ∀ a ∈ y.stores, a = c.space := by
  intro h
  have hrun := (((shellLoading_run.mono fun _ _ _ hstep => hstep.2).snoc (.tick 700)).snoc
    (.tick 800)).snoc (step_load rfl shellLoading_todo)
  have hstored := h _ _ _ _ _ shellLoading_started rfl (by decide) (by decide) hrun 0x1000
    List.mem_cons_self
  exact absurd hstored (by decide)

end Exec

end NemoOS
