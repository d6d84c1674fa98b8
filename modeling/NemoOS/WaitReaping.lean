import NemoOS.ContextOwner
import NemoOS.Syscall

/-!
# What `wait` reaps

System call 5 looks in the table for a dead child of the caller and destroys the first one.
Its search is on the pid as an `int`, its removal moves the last entry of the table to the
free place; `wait_reaps` says that together they take one process, and one that may be taken.
The value for "no child" is also a pid: `wait_returns_pid` has a child that is reaped and
whose pid is `0xFFFFFFFF`.
-/

namespace NemoOS

namespace Kernel

/-- The process is in the table, it is dead, the caller is its parent, and it has the pid
    that was asked for, if one was. -/
structure MayReap (k : Kernel) (ebx child : Nat) : Prop where
  mem : child ∈ k.sys.processTable
  nonnull : child ≠ 0
  dead : (k.sys.procs child).state = .dead
  parent : ∃ me, k.sys.schedulerCurrentProcess = some me ∧
    (k.sys.procs child).parentPid = (k.sys.procs me).pid
  asked : 0 ≤ signed ebx → (k.sys.procs child).pid = ebx

/-- On words, equal as `int` is equal. -/
theorem signed_inj {m n : Nat} (hm : m < 2 ^ 32) (hn : n < 2 ^ 32) :
    signed m = signed n ↔ m = n := by
  simp only [signed]
  split_ifs <;> omega

variable {k : Kernel} {ebx : Nat}

/-- The test of the search, for the process that is current. -/
theorem mayReap_iff (hpids : ∀ p ∈ k.sys.processTable, (k.sys.procs p).pid < 2 ^ 32)
    (hebx : ebx < 2 ^ 32) {me : Nat} (hme : k.sys.schedulerCurrentProcess = some me)
    {child : Nat} (hmem : child ∈ k.sys.processTable) :
    k.MayReap ebx child ↔
      child ≠ 0 ∧ (k.sys.procs child).parentPid = (k.sys.procs me).pid ∧
        (signed ebx < 0 ∨ signed (k.sys.procs child).pid = signed ebx) ∧
        (k.sys.procs child).state = .dead := by
  rw [signed_inj (hpids child hmem) hebx, ← not_le, ← imp_iff_not_or]
  constructor
  · rintro ⟨-, hnonnull, hdead, ⟨caller, hcaller, hparent⟩, hasked⟩
    obtain rfl : caller = me := Option.some.inj (hcaller.symm.trans hme)
    exact ⟨hnonnull, hparent, hasked, hdead⟩
  · rintro ⟨hnonnull, hparent, hasked, hdead⟩
    exact ⟨hmem, hnonnull, hdead, ⟨me, hme, hparent⟩, hasked⟩

/-- The call finds nothing that may be reaped, or it destroys a process that may be. -/
theorem waitChild_cases (hpids : ∀ p ∈ k.sys.processTable, (k.sys.procs p).pid < 2 ^ 32)
    (hebx : ebx < 2 ^ 32) :
    (k.waitChild (signed ebx) = (0xFFFFFFFF, k) ∧ ∀ child, ¬ k.MayReap ebx child) ∨
      ∃ child, k.MayReap ebx child ∧
        k.waitChild (signed ebx) = ((k.sys.procs child).pid,
          { k with sys := (k.sys.processDestroy k.kernelSpace child).2 }) := by
  cases hme : k.sys.schedulerCurrentProcess with
  | none =>
      left
      refine ⟨by simp only [waitChild, hme], fun child hreap => ?_⟩
      obtain ⟨me, hsome, -⟩ := hreap.parent
      rw [hme] at hsome
      cases hsome
  | some me =>
      cases hfind : findChild k.sys me (signed ebx) with
      | none =>
          left
          refine ⟨by simp only [waitChild, hme, hfind], fun child hreap => ?_⟩
          have hfails := List.find?_eq_none.mp hfind child hreap.mem
          exact hfails (decide_eq_true ((mayReap_iff hpids hebx hme hreap.mem).mp hreap))
      | some child =>
          right
          have hmem : child ∈ k.sys.processTable := List.mem_of_find?_eq_some hfind
          have htest := List.find?_some hfind
          exact ⟨child, (mayReap_iff hpids hebx hme hmem).mpr (of_decide_eq_true htest),
            by simp only [waitChild, hme, hfind]⟩

/-- **`wait` reaps only what it may.** For every table, caller and argument, either nothing may
    be reaped, the call returns `0xFFFFFFFF` and changes nothing, or a process that may be
    reaped is taken from the table, all other entries stay, and the call returns its pid. In
    a table that holds no process twice the others are then there exactly once. -/
theorem wait_reaps (hpids : ∀ p ∈ k.sys.processTable, (k.sys.procs p).pid < 2 ^ 32)
    (hebx : ebx < 2 ^ 32) (view : Nat → UInt8) (ecx edx : Nat) :
    ((k.syscallDispatch view 5 ebx ecx edx).1.ret = 0xFFFFFFFF ∧
        (k.syscallDispatch view 5 ebx ecx edx).2 = k ∧ ∀ child, ¬ k.MayReap ebx child) ∨
      ∃ child, k.MayReap ebx child ∧
        (k.syscallDispatch view 5 ebx ecx edx).1.ret = (k.sys.procs child).pid ∧
        (child :: (k.syscallDispatch view 5 ebx ecx edx).2.sys.processTable).Perm
          k.sys.processTable ∧
        (k.sys.processTable.Nodup →
          (k.syscallDispatch view 5 ebx ecx edx).2.sys.processTable.Nodup ∧
            ∀ p, p ∈ (k.syscallDispatch view 5 ebx ecx edx).2.sys.processTable ↔
              p ≠ child ∧ p ∈ k.sys.processTable) := by
  simp only [syscallDispatch, SyscallResult.value]
  rcases k.waitChild_cases hpids hebx with ⟨hwait, hnone⟩ | ⟨child, hreap, hwait⟩
  · left
    rw [hwait]
    exact ⟨rfl, rfl, hnone⟩
  · right
    have hperm : ((k.sys.processDestroy k.kernelSpace child).2.processTable).Perm
        (k.sys.processTable.erase child) := by
      rw [ProcessSystem.processDestroy, if_neg hreap.nonnull]
      exact ProcessSystem.removeEntry_perm _ _
    rw [hwait]
    refine ⟨child, hreap, rfl, ?_, fun hnodup => ⟨?_, fun p => ?_⟩⟩
    · exact (hperm.cons child).trans (List.perm_cons_erase hreap.mem).symm
    · exact hperm.nodup_iff.mpr (hnodup.erase child)
    · rw [hperm.mem_iff, hnodup.mem_erase_iff]

/-- Process 1 runs; the processes at 2, which has the pid, and at 3 are dead children of it. -/
def parentOfTwo (pid : Nat) : Kernel where
  sys :=
    { procs := fun p =>
        { ProcessSystem.kernelProcess (if p = 2 then pid else p) 0x1000 0x5000 with
          state := if p = 1 then .running else .dead }
      processTable := [1, 2, 3]
      currentProcess := 0
      nextPid := 4
      tssEsp0 := 0x7000
      cr3 := 0x1000 }
  keyboard := ⟨fun _ => 0, 0, 0⟩
  output := []
  timerTicks := 0
  kernelSpace := 0x1000

/-- The first of the two dead children is reaped; the caller and the other child stay. -/
theorem wait_reaps_second :
    ∃ child, (parentOfTwo 2).MayReap 2 child ∧
      ((parentOfTwo 2).syscallDispatch (fun _ => 0) 5 2 0 0).1.ret = 2 ∧
      ∀ p, p ∈ ((parentOfTwo 2).syscallDispatch (fun _ => 0) 5 2 0 0).2.sys.processTable ↔
        p ≠ child ∧ p ∈ [1, 2, 3] := by
  have hreap : (parentOfTwo 2).MayReap 2 2 :=
    ⟨by decide, by decide, by decide, ⟨1, by decide, by decide⟩, fun _ => by decide⟩
  have hword : 2 < 2 ^ 32 := by decide
  rcases wait_reaps (k := parentOfTwo 2) (by decide) hword (fun _ => 0) 0 0 with
    ⟨-, -, hnone⟩ | ⟨child, hchild, hret, -, honce⟩
  · exact absurd hreap (hnone 2)
  · exact ⟨child, hchild, hret.trans (hchild.asked (by decide)), (honce (by decide)).2⟩

/-- `wait(-1)` with a dead child that has the last pid: the child is reaped, and the value
    returned is the one for "no child". -/
theorem wait_returns_pid :
    (parentOfTwo 0xFFFFFFFF).MayReap 0xFFFFFFFF 2 ∧
      ((parentOfTwo 0xFFFFFFFF).syscallDispatch (fun _ => 0) 5 0xFFFFFFFF 0 0).1.ret =
        0xFFFFFFFF ∧
      ((parentOfTwo 0xFFFFFFFF).syscallDispatch (fun _ => 0) 5 0xFFFFFFFF 0 0).2.sys.processTable =
        [1, 3] :=
  ⟨⟨by decide, by decide, by decide, ⟨1, by decide, by decide⟩, fun h => absurd h (by decide)⟩,
    by decide, by decide⟩

end Kernel

end NemoOS
