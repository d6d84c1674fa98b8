import NemoOS.StackContexts

/-!
# Creating processes and entering the first one

`process_create`, `process_create_kernel` and `process_set_entry` write the frame from which a
process starts, and `process_first_enter` loads the first of them. With a stack that no other
process has, every process of the table has its context on its stack afterwards.
-/

namespace NemoOS

open Words Bytes Ia32

variable {s : ProcessSystem} {mem mem' : Memory} {regs : Nat → Registers} {stack : Nat → Memory}

/-- The stack of the new process is not that of another one. -/
def StackApart (s : ProcessSystem) (bottom : Nat) : Prop :=
  ∀ q ∈ s.processTable, (s.procs q).kernelStack ≤ bottom ∨
    bottom + KERNEL_STACK_BYTES ≤ (s.procs q).kernelStackBottom

/-- Writing to a stack that is apart. -/
theorem StackApart.keepsStacks {bottom : Nat} (h : StackApart s bottom) {out : Option Nat}
    {esp : Nat} (hmem : ∀ x, x < bottom ∨ bottom + KERNEL_STACK_BYTES ≤ x → mem' x = mem x) :
    KeepsStacks s out esp mem mem' := by
  intro q hq x hx hx' _
  apply hmem
  rcases h q hq with hlow | hhigh
  · left
    omega
  · right
    omega

/-- A process is registered with its context on its stack. -/
theorem Loaded.register {t : ProcessSystem} {out : Option Nat} (h : Loaded s mem regs stack out)
    {p : Nat} {proc : Process} (hreg : s.registerProcess p proc = some t) (hp : p ∉ s.processTable)
    (hproc : HasStack proc) (hapart : StackApart s proc.kernelStackBottom) {r : Registers}
    (hring : r.user = decide (proc.ring = .user))
    (hheld : Held mem proc (ProcessSystem.resumeEsp proc) r (stack p)) :
    Loaded t mem (Function.update regs p r) stack out := by
  obtain ⟨-, htable, -, hself, hother⟩ := ProcessSystem.registerProcess_eq_some hreg
  have hne : ∀ q ∈ s.processTable, q ≠ p := fun q hq heq => hp (heq ▸ hq)
  have hmem : ∀ q ∈ t.processTable, q ≠ p → q ∈ s.processTable := by
    intro q hq hqp
    simpa [htable, hqp] using hq
  have htop := hproc.top_eq
  refine ⟨fun q hq => ?_, fun q hq q' hq' hqq => ?_, fun q hq => ?_, fun q hq hout halive => ?_⟩
  · by_cases hqp : q = p
    · rw [hqp, hself]
      exact hproc
    · rw [hother q hqp]
      exact h.hasStack q (hmem q hq hqp)
  · by_cases hqp : q = p
    · have hqp' : q' ≠ p := fun heq => hqq (hqp.trans heq.symm)
      rw [hqp, hself, hother q' hqp', htop]
      exact (hapart q' (hmem q' hq' hqp')).symm
    · rw [hother q hqp]
      by_cases hqp' : q' = p
      · rw [hqp', hself, htop]
        exact hapart q (hmem q hq hqp)
      · rw [hother q' hqp']
        exact h.apart q (hmem q hq hqp) q' (hmem q' hq' hqp') hqq
  · by_cases hqp : q = p
    · rw [hqp, hself, Function.update_self, hring]
    · rw [hother q hqp, Function.update_of_ne hqp]
      exact h.ring q (hmem q hq hqp)
  · by_cases hqp : q = p
    · rw [hqp, hself, Function.update_self]
      exact hheld
    · rw [hother q hqp] at halive ⊢
      rw [Function.update_of_ne hqp]
      exact h.held q (hmem q hq hqp) hout halive

/-- The two pages of a new stack, with the frame in them, are all that changes. -/
theorem frame_of_outside {kstack n : Nat} {built : Memory}
    (hroom : kstack + KERNEL_STACK_BYTES < 2 ^ 32) (hn : n ≤ KERNEL_STACK_BYTES)
    (hbuilt : ∀ x, x < kstack + KERNEL_STACK_BYTES - n ∨ kstack + KERNEL_STACK_BYTES ≤ x →
      built x = fill mem kstack 0 KERNEL_STACK_BYTES x) :
    ∀ x, x < kstack ∨ kstack + KERNEL_STACK_BYTES ≤ x → built x = mem x := by
  intro x hx
  rw [hbuilt x (by omega)]
  exact fill_of_outside (by omega) hx

theorem userFrame_of_outside (mem : Memory) {kstack entry userEsp : Nat}
    (hroom : kstack + KERNEL_STACK_BYTES < 2 ^ 32) (hentry : entry < 2 ^ 32)
    (huserEsp : userEsp < 2 ^ 32) : ∀ x, x < kstack ∨ kstack + KERNEL_STACK_BYTES ≤ x →
      (buildUserFrame (fill mem kstack 0 KERNEL_STACK_BYTES) (u32 (kstack + KERNEL_STACK_BYTES))
        entry userEsp).2 x = mem x := by
  have hbytes : KERNEL_STACK_BYTES = 8192 := rfl
  rw [u32_of_lt hroom]
  exact frame_of_outside hroom (by omega)
    (buildUserFrame_spec _ hroom (by omega) hentry huserEsp).2

theorem kernelFrame_of_outside (mem : Memory) {kstack entry : Nat}
    (hroom : kstack + KERNEL_STACK_BYTES < 2 ^ 32) (hentry : entry < 2 ^ 32) :
    ∀ x, x < kstack ∨ kstack + KERNEL_STACK_BYTES ≤ x →
      (buildKernelFrame (fill mem kstack 0 KERNEL_STACK_BYTES) (u32 (kstack + KERNEL_STACK_BYTES))
        entry).2 x = mem x := by
  have hbytes : KERNEL_STACK_BYTES = 8192 := rfl
  rw [u32_of_lt hroom]
  exact frame_of_outside hroom (by omega) (buildKernelFrame_spec _ hroom (by omega) hentry).2

/-- `process_create` from its two pages on. -/
theorem Loaded.processCreate {t : ProcessSystem} {out : Option Nat}
    (h : Loaded s mem regs stack out) {p space kstack entry userEsp : Nat}
    (hcreate : s.processCreate p space kstack entry userEsp = some t) (hp : p ∉ s.processTable)
    (hpos : 0 < kstack) (hroom : kstack + KERNEL_STACK_BYTES < 2 ^ 32)
    (hapart : StackApart s kstack) (hentry : entry < 2 ^ 32) (huserEsp : userEsp < 2 ^ 32) :
    Loaded t (buildUserFrame (fill mem kstack 0 KERNEL_STACK_BYTES)
        (u32 (kstack + KERNEL_STACK_BYTES)) entry userEsp).2
      (Function.update regs p (userStart entry userEsp)) stack out := by
  have hbytes : KERNEL_STACK_BYTES = 8192 := rfl
  have htop : u32 (kstack + KERNEL_STACK_BYTES) = kstack + KERNEL_STACK_BYTES := u32_of_lt hroom
  have hframe : u32 (kstack + KERNEL_STACK_BYTES - 13 * 4) = kstack + KERNEL_STACK_BYTES - 52 :=
    u32_of_lt (by omega)
  have hkeep : KeepsStacks s out 0 mem _ :=
    hapart.keepsStacks (userFrame_of_outside mem hroom hentry huserEsp)
  obtain ⟨hsaved, -⟩ := buildUserFrame_spec (fill mem kstack 0 KERNEL_STACK_BYTES) hroom
    (by omega) hentry huserEsp
  rw [htop] at hkeep ⊢
  refine (h.congr_mem hkeep).register hcreate hp ⟨hpos, htop, u32_lt _⟩ hapart
    (by simp [ProcessSystem.userProcess]) ?_
  have hesp : ProcessSystem.resumeEsp
      (ProcessSystem.userProcess s.nextPid space kstack entry userEsp) =
      kstack + KERNEL_STACK_BYTES - 52 := hframe
  have hstack : (ProcessSystem.userProcess s.nextPid space kstack entry userEsp).kernelStack =
      kstack + KERNEL_STACK_BYTES := htop
  rw [hesp]
  refine ⟨hsaved, ?_, ?_, fun _ => ?_, fun hring => ?_⟩
  · simp only [ProcessSystem.userProcess]
    omega
  · rw [hstack, Registers.frameBytes, userStart_user, if_pos rfl]
    omega
  · rw [hstack, Registers.frameBytes, userStart_user, if_pos rfl]
    omega
  · simp at hring

/-- `process_create_kernel` from its two pages on. -/
theorem Loaded.processCreateKernel {t : ProcessSystem} {out : Option Nat}
    (h : Loaded s mem regs stack out) {p space kstack entry : Nat}
    (hcreate : s.processCreateKernel p space kstack = some t) (hp : p ∉ s.processTable)
    (hpos : 0 < kstack) (hroom : kstack + KERNEL_STACK_BYTES < 2 ^ 32)
    (hapart : StackApart s kstack) (hentry : entry < 2 ^ 32) :
    Loaded t (buildKernelFrame (fill mem kstack 0 KERNEL_STACK_BYTES)
        (u32 (kstack + KERNEL_STACK_BYTES)) entry).2
      (Function.update regs p (kernelStart entry (kstack + KERNEL_STACK_BYTES))) stack out := by
  have hbytes : KERNEL_STACK_BYTES = 8192 := rfl
  have htop : u32 (kstack + KERNEL_STACK_BYTES) = kstack + KERNEL_STACK_BYTES := u32_of_lt hroom
  have hframe : u32 (kstack + KERNEL_STACK_BYTES - 11 * 4) = kstack + KERNEL_STACK_BYTES - 44 :=
    u32_of_lt (by omega)
  have hkeep : KeepsStacks s out 0 mem _ :=
    hapart.keepsStacks (kernelFrame_of_outside mem hroom hentry)
  obtain ⟨hsaved, -⟩ := buildKernelFrame_spec (fill mem kstack 0 KERNEL_STACK_BYTES) hroom
    (by omega) hentry
  rw [htop] at hkeep ⊢
  refine (h.congr_mem hkeep).register hcreate hp ⟨hpos, htop, u32_lt _⟩ hapart
    (by simp [ProcessSystem.kernelProcess]) ?_
  have hesp : ProcessSystem.resumeEsp (ProcessSystem.kernelProcess s.nextPid space kstack) =
      kstack + KERNEL_STACK_BYTES - 44 := hframe
  have hstack : (ProcessSystem.kernelProcess s.nextPid space kstack).kernelStack =
      kstack + KERNEL_STACK_BYTES := htop
  rw [hesp]
  refine ⟨hsaved, ?_, ?_, fun hring => ?_, fun _ x hx hx' => ?_⟩
  · simp only [ProcessSystem.kernelProcess]
    omega
  · rw [hstack, Registers.frameBytes, kernelStart_user, if_neg (by simp)]
    omega
  · simp at hring
  · -- the stack is empty
    have hempty : (kernelStart entry (kstack + KERNEL_STACK_BYTES)).esp.toNat =
        kstack + KERNEL_STACK_BYTES := toNat_ofNat hroom
    omega

/-! ## Changing the entry -/

section SetEntry

variable {p : Nat} (hnull : p ≠ 0) (entry userEsp : Nat)

include hnull

theorem processSetEntry_eq : s.processSetEntry p entry userEsp = s.modify p fun proc =>
    { proc with
      userEntry := entry
      userEsp := userEsp
      kernelStackTop := u32 (proc.kernelStackBottom + KERNEL_STACK_BYTES - 13 * 4) } := by
  rw [ProcessSystem.processSetEntry, if_neg hnull]

theorem processSetEntry_procs_of_ne {q : Nat} (hq : q ≠ p) :
    (s.processSetEntry p entry userEsp).procs q = s.procs q := by
  rw [processSetEntry_eq hnull, ProcessSystem.modify_procs_of_ne _ _ _ hq]

theorem sameStack_processSetEntry (q : Nat) :
    SameStack (s.procs q) ((s.processSetEntry p entry userEsp).procs q) := by
  by_cases hqp : q = p
  · subst hqp
    rw [processSetEntry_eq hnull, ProcessSystem.modify_procs_self]
    exact ⟨rfl, rfl, rfl⟩
  · rw [processSetEntry_procs_of_ne hnull entry userEsp hqp]
    exact ⟨rfl, rfl, rfl⟩

end SetEntry

/-- A process of ring 3 that is not running has its frame at the top of its stack. -/
theorem Loaded.resumeEsp_processSetEntry {out : Option Nat} (h : Loaded s mem regs stack out)
    {p : Nat} (hp : p ∈ s.processTable) (hnull : p ≠ 0) (hout : out ≠ some p)
    (halive : (s.procs p).state ≠ .dead) (huser : (regs p).user = true) (entry userEsp : Nat) :
    ProcessSystem.resumeEsp ((s.processSetEntry p entry userEsp).procs p) =
      (s.procs p).kernelStack - 52 := by
  have hframe := (h.held p hp hout halive).user huser
  have hlt := (h.hasStack p hp).top_lt
  have htop := (h.hasStack p hp).top_eq
  rw [Registers.frameBytes, huser, if_pos rfl] at hframe
  rw [processSetEntry_eq hnull, ProcessSystem.modify_procs_self]
  by_cases hsaved : (s.procs p).savedEsp = 0
  · simp only [ProcessSystem.resumeEsp, hsaved]
    rw [if_neg (by simp), u32_of_lt (by omega)]
    omega
  · simp only [ProcessSystem.resumeEsp, if_pos hsaved] at hframe ⊢
    omega

/-- A frame at the top of one stack does not touch another. -/
theorem Loaded.buildUserFrame_of_ne {out : Option Nat} (h : Loaded s mem regs stack out)
    {p q entry userEsp : Nat} (hp : p ∈ s.processTable) (hq : q ∈ s.processTable) (hne : q ≠ p)
    (hentry : entry < 2 ^ 32) (huserEsp : userEsp < 2 ^ 32) {x : Nat}
    (hlow : (s.procs q).kernelStackBottom ≤ x) (hhigh : x < (s.procs q).kernelStack) :
    (buildUserFrame mem (u32 ((s.procs p).kernelStackBottom + 8192)) entry userEsp).2 x =
      mem x := by
  have hlt := (h.hasStack p hp).top_lt
  have htop : (s.procs p).kernelStack = (s.procs p).kernelStackBottom + 8192 :=
    (h.hasStack p hp).top_eq
  rw [← htop, u32_of_lt hlt]
  apply (buildUserFrame_spec mem hlt (by omega) hentry huserEsp).2
  rcases h.apart q hq p hp hne with hapart | hapart
  · left
    omega
  · right
    omega

/-- `process_set_entry` on a process of ring 3 that is not running: the frame it overwrites is
    the one the process goes on from, whether it has run or not. -/
theorem Loaded.processSetEntry {out : Option Nat} (h : Loaded s mem regs stack out)
    {p entry userEsp : Nat} (hp : p ∈ s.processTable) (hnull : p ≠ 0) (hout : out ≠ some p)
    (hring : (s.procs p).ring = .user) (hentry : entry < 2 ^ 32) (huserEsp : userEsp < 2 ^ 32) :
    Loaded (s.processSetEntry p entry userEsp)
      (buildUserFrame mem (u32 ((s.procs p).kernelStackBottom + 8192)) entry userEsp).2
      (Function.update regs p (userStart entry userEsp)) stack out := by
  have hlt := (h.hasStack p hp).top_lt
  have htop : (s.procs p).kernelStack = (s.procs p).kernelStackBottom + 8192 :=
    (h.hasStack p hp).top_eq
  have huser : (regs p).user = true := by simpa [hring] using h.ring p hp
  have hsaved : Processor.Saved (buildUserFrame mem
      (u32 ((s.procs p).kernelStackBottom + 8192)) entry userEsp).2 0x10 (UInt32.ofNat ((s.procs p).kernelStack - 52)) (userStart entry userEsp) := by
    rw [← htop, u32_of_lt hlt]
    exact (buildUserFrame_spec mem hlt (by omega) hentry huserEsp).1
  refine h.congr_procs ?_ (sameStack_processSetEntry hnull entry userEsp) ?_ ?_
  · simp [processSetEntry_eq hnull]
  · intro q _
    by_cases hqp : q = p
    · rw [hqp, Function.update_self, userStart_user, huser]
    · rw [Function.update_of_ne hqp]
  · intro q hq hout' halive
    have hq' : q ∈ s.processTable := by simpa [processSetEntry_eq hnull] using hq
    by_cases hqp : q = p
    · subst hqp
      have halive' : (s.procs q).state ≠ .dead := by simpa [processSetEntry_eq hnull] using halive
      rw [h.resumeEsp_processSetEntry hp hnull hout halive' huser, Function.update_self]
      have hstack := sameStack_processSetEntry (s := s) hnull entry userEsp q
      refine ⟨hsaved, ?_, ?_, fun _ => ?_, fun hkernel => ?_⟩
      · rw [hstack.bottom_eq]
        omega
      · rw [hstack.top_eq, Registers.frameBytes, userStart_user, if_pos rfl]
        omega
      · rw [hstack.top_eq, Registers.frameBytes, userStart_user, if_pos rfl]
        omega
      · simp at hkernel
    · rw [processSetEntry_procs_of_ne hnull entry userEsp hqp] at halive ⊢
      rw [Function.update_of_ne hqp]
      have hheld := h.held q hq' hout' halive
      have hlow := hheld.low
      exact hheld.congr_mem (h.hasStack q hq') fun x hx hx' =>
        h.buildUserFrame_of_ne hp hq' hqp hentry huserEsp (Nat.le_trans hlow hx) hx'

/-! ## The first process -/

/-- `process_first_enter`, up to the load of the stack pointer. -/
theorem Loaded.processFirstEnter (h : Loaded s mem regs stack none) {p : Nat}
    (hp : p ∈ s.processTable) (hlen : s.processTable.length ≤ MAX_PROCESSES)
    (halive : (s.procs p).state ≠ .dead) (hfresh : (s.procs p).savedEsp = 0) :
    Suspended (s.processFirstEnter p).2 mem regs stack p (s.processFirstEnter p).1 := by
  obtain ⟨i, henter, hcurrent⟩ := ProcessSystem.processFirstEnter_eq hp hlen
  have hesp : (s.processFirstEnter p).1 = ProcessSystem.resumeEsp (s.procs p) := by
    unfold ProcessSystem.processFirstEnter
    dsimp only
    split <;> simp [ProcessSystem.resumeEsp, hfresh]
  have hprocs : (s.processFirstEnter p).2.procs = (s.setState p .running).procs := by
    rw [henter]
    rfl
  have htable : (s.processFirstEnter p).2.processTable = s.processTable := by rw [henter]; rfl
  have hself : (s.processFirstEnter p).2.procs p = { s.procs p with state := .running } := by
    rw [hprocs, ProcessSystem.setState_procs_self]
  have hother : ∀ q, q ≠ p → (s.processFirstEnter p).2.procs q = s.procs q := by
    intro q hq
    rw [hprocs, ProcessSystem.setState_procs_of_ne _ _ _ hq]
  have htop : (s.procs p).kernelStack ≠ 0 := by
    have hpos := (h.hasStack p hp).bottom_pos
    have htop := (h.hasStack p hp).top_eq
    omega
  refine ⟨?_, ⟨hcurrent, by rw [hself]; simp, ?_⟩, ?_⟩
  · refine h.congr_procs (by simp [htable]) (fun q => ?_) (fun _ _ => rfl) fun q hq hout hq' => ?_
    · by_cases hqp : q = p
      · rw [hqp, hself]
        exact ⟨rfl, rfl, rfl⟩
      · rw [hother q hqp]
        exact ⟨rfl, rfl, rfl⟩
    · have hqp : q ≠ p := fun hqp => hout (by rw [hqp])
      rw [hother q hqp] at hq' ⊢
      exact h.held q (htable ▸ hq) (by simp) hq'
  · rw [hself, henter]
    simp [ProcessSystem.processSwitch, htop]
  · rw [hself, hesp]
    exact (h.held p hp (by simp) halive).congr_proc rfl rfl

end NemoOS
