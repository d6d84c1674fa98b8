import Mathlib
import NemoOS.ProcessLife

/-!
# Whose context a tick resumes

The stack pointer that `scheduler_tick` returns is a context that some process left
behind. `Cpu` adds to the process system what the source does not record: the process
whose instructions run, and for every control block the process whose context its
`saved_esp` is. The two need not be the process at the scheduler's index, because
`process_destroy` moves a table entry while the scheduler keeps a position.

`tick_resumes_runnable_iff` says over every run when the resumed process can run: some
process of the table has to be runnable. Otherwise the tick returns the interrupted stack
pointer and a blocked or dead process goes on.
-/

namespace NemoOS

open Transition

/-- `onCpu` is `none` as long as `kernel_main` runs. -/
structure Cpu where
  sys : ProcessSystem
  onCpu : Option Nat
  owner : Nat → Option Nat

namespace Cpu

/-- The process in whose control block a tick stores the interrupted context. -/
def storesInto (x : Cpu) : Option Nat :=
  x.sys.schedulerCurrentProcess.filter fun c =>
    (x.sys.procs c).state = .running ∨ (x.sys.procs c).state = .blocked

/-- The owners of the stored contexts after the first half of a tick. -/
def saveOwner (x : Cpu) : Nat → Option Nat :=
  match x.storesInto with
  | some c => Function.update x.owner c x.onCpu
  | none => x.owner

/-- The process whose context the returned stack pointer belongs to: the owner of a stored
    one, the process itself on a fresh stack, the interrupted process without a switch. -/
def tickOwner (x : Cpu) (esp : Nat) : Option Nat :=
  match (x.sys.saveContext esp).tickTarget with
  | none => x.onCpu
  | some next =>
      if ((x.sys.saveContext esp).procs next).savedEsp ≠ 0 then x.saveOwner next else some next

def onCpuAfter (x : Cpu) : Op → Option Nat
  | .schedulerTick esp => x.tickOwner esp
  | .processFirstEnter p => some p
  | _ => x.onCpu

def ownerAfter (x : Cpu) : Op → Nat → Option Nat
  | .schedulerTick _ => x.saveOwner
  | _ => x.owner

def Step (x : Cpu) (op : Op) (y : Cpu) : Prop :=
  x.sys.Step op y.sys ∧ y.onCpu = x.onCpuAfter op ∧ y.owner = x.ownerAfter op

/-- What the callers keep to: the heap hands out no block that is in use, queues are
    attached and the first process is entered by `kernel_main`, and no process destroys
    itself. -/
def Allowed (x : Cpu) : Op → Prop
  | .processCreate p .. => p ∉ x.sys.processTable
  | .processCreateKernel p .. => p ∉ x.sys.processTable
  | .attachQueue .. => x.onCpu = none
  | .processFirstEnter p => x.onCpu = none ∧ p ∈ x.sys.processTable
  | .processDestroy _ p => x.onCpu ≠ some p
  | _ => True

/-- The process that goes on after a tick is neither dead nor blocked. -/
def ResumesRunnable (x : Cpu) (esp : Nat) : Prop :=
  ∀ p, x.tickOwner esp = some p → ((x.sys.schedulerTick esp).2.procs p).runnable

end Cpu

/-! ## The table after a removal -/

namespace ProcessSystem

theorem removeEntry_of_mem {table : List Nat} {p : Nat} (h : p ∈ table) :
    ∃ before after, table = before ++ p :: after ∧ p ∉ before ∧
      ((after = [] ∧ removeEntry table p = before) ∨
        ∃ middle last, after = middle ++ [last] ∧
          removeEntry table p = before ++ last :: middle) := by
  obtain ⟨before, after, rfl, hnot⟩ := List.eq_append_cons_of_mem h
  have hindex : (before ++ p :: after).idxOf? p = some before.length := by
    rw [List.idxOf?_eq_some_iff]
    refine ⟨by simp, by simp, ?_⟩
    intro j hj hjp
    rw [List.getElem_append_left hj] at hjp
    exact hnot (by rw [← hjp]; exact List.getElem_mem hj)
  refine ⟨before, after, rfl, hnot, ?_⟩
  rw [removeEntry, hindex]
  dsimp only
  rw [List.set_append_right _ _ (Nat.le_refl _), Nat.sub_self, List.set_cons_zero]
  rcases List.eq_nil_or_concat after with rfl | ⟨middle, last, rfl⟩
  · left
    exact ⟨rfl, List.dropLast_concat⟩
  · right
    rw [List.concat_eq_append]
    refine ⟨middle, last, rfl, ?_⟩
    have hlast : (before ++ p :: (middle ++ [last])).getLastD 0 = last := by
      rw [← List.cons_append, ← List.append_assoc, List.getLastD_concat]
    rw [hlast, ← List.cons_append, ← List.append_assoc, List.dropLast_concat]

theorem removeEntry_of_not_mem {table : List Nat} {p : Nat} (h : p ∉ table) :
    removeEntry table p = table := by
  rw [removeEntry, List.idxOf?_eq_none_iff.mpr h]

/-- Up to the order, the entry is erased. -/
theorem removeEntry_perm (table : List Nat) (p : Nat) :
    (removeEntry table p).Perm (table.erase p) := by
  by_cases h : p ∈ table
  · obtain ⟨before, after, rfl, hnot, ⟨rfl, heq⟩ | ⟨middle, last, rfl, heq⟩⟩ :=
      removeEntry_of_mem h
    · rw [heq, List.erase_append_right _ hnot, List.erase_cons_head, List.append_nil]
    · rw [heq, List.erase_append_right _ hnot, List.erase_cons_head]
      exact List.Perm.append_left _ (List.perm_append_singleton last middle).symm
  · rw [removeEntry_of_not_mem h, List.erase_of_not_mem h]

/-- An entry that is left was at the same position or behind it. -/
theorem getElem?_of_removeEntry {table : List Nat} {p r i : Nat}
    (h : (removeEntry table p)[i]? = some r) : ∃ j, i ≤ j ∧ table[j]? = some r := by
  by_cases hmem : p ∈ table
  · obtain ⟨before, after, rfl, -, ⟨-, heq⟩ | ⟨middle, last, rfl, heq⟩⟩ := removeEntry_of_mem hmem
    · rw [heq] at h
      refine ⟨i, Nat.le_refl i, ?_⟩
      rw [List.getElem?_append_left (List.getElem?_eq_some_iff.mp h).1, h]
    · rw [heq, List.getElem?_append] at h
      rcases Nat.lt_trichotomy i before.length with hlt | rfl | hgt
      · rw [if_pos hlt] at h
        exact ⟨i, Nat.le_refl i, by rw [List.getElem?_append_left hlt, h]⟩
      · rw [if_neg (Nat.lt_irrefl _), Nat.sub_self, List.getElem?_cons_zero] at h
        refine ⟨before.length + (middle.length + 1), Nat.le_add_right _ _, ?_⟩
        rw [List.getElem?_append_right (Nat.le_add_right _ _), Nat.add_sub_cancel_left,
          List.getElem?_cons_succ, List.getElem?_concat_length, h]
      · obtain ⟨k, rfl⟩ : ∃ k, i = before.length + (k + 1) := ⟨i - before.length - 1, by omega⟩
        rw [if_neg (by omega), Nat.add_sub_cancel_left, List.getElem?_cons_succ] at h
        refine ⟨_, Nat.le_refl _, ?_⟩
        rw [List.getElem?_append_right (Nat.le_add_right _ _), Nat.add_sub_cancel_left,
          List.getElem?_cons_succ, List.getElem?_append_left (List.getElem?_eq_some_iff.mp h).1, h]
  · rw [removeEntry_of_not_mem hmem] at h
    exact ⟨i, Nat.le_refl i, h⟩

/-- Another entry stays where it is unless it is the last one, which is moved. -/
theorem removeEntry_stays {table : List Nat} {p q i : Nat} (hq : table[i]? = some q)
    (hne : p ≠ q) :
    (removeEntry table p)[i]? = some q ∨ (removeEntry table p).length ≤ i := by
  rcases hindex : table.idxOf? p with _ | v
  · rw [removeEntry, hindex]
    exact .inl hq
  · have hmem : p ∈ table := by
      rw [← List.isSome_idxOf?, hindex]
      rfl
    have hiv : i ≠ v := by
      rintro rfl
      obtain ⟨hlt, hat, -⟩ := List.idxOf?_eq_some_iff.mp hindex
      rw [List.getElem?_eq_getElem hlt, hat] at hq
      exact hne (Option.some.inj hq)
    rw [removeEntry_getElem? hindex hiv]
    split
    · exact .inl hq
    · right
      rw [(removeEntry_perm table p).length_eq, List.length_erase_of_mem hmem]
      omega

end ProcessSystem

namespace Cpu

/-! ## The invariant -/

/-- A process that has not run and cannot block. -/
def Fresh (proc : Process) : Prop :=
  (proc.state = .ready ∨ proc.state = .dead) ∧ proc.msgQueue = none

/-- The process at the scheduler's index runs, or all entries from the index on were
    created after the running process had been moved away from it. -/
def Located (s : ProcessSystem) (q : Nat) : Prop :=
  s.schedulerCurrentProcess = some q ∨
    0 ≤ s.currentProcess ∧
      ∀ i r, s.currentProcess.toNat ≤ i → s.processTable[i]? = some r → Fresh (s.procs r)

structure Inv (x : Cpu) : Prop where
  current_ge : -1 ≤ x.sys.currentProcess
  length_le : x.sys.processTable.length ≤ MAX_PROCESSES
  nodup : x.sys.processTable.Nodup
  owned : ∀ p ∈ x.sys.processTable, (x.sys.procs p).savedEsp ≠ 0 → x.owner p = some p
  idle : x.onCpu = none → x.sys.currentProcess = -1
  mem : ∀ q, x.onCpu = some q → q ∈ x.sys.processTable
  located : ∀ q, x.onCpu = some q → Located x.sys q

variable {x y : Cpu}

theorem Located.modify {s : ProcessSystem} {q p : Nat} {f : Process → Process}
    (h : Located s q) (hfresh : Fresh (s.procs p) → Fresh (f (s.procs p))) :
    Located (s.modify p f) q := by
  rcases h with hcur | ⟨hnonneg, hentries⟩
  · exact .inl hcur
  · refine .inr ⟨hnonneg, fun i r hi hr => ?_⟩
    have hold := hentries i r hi hr
    by_cases hrp : r = p
    · subst hrp
      rw [ProcessSystem.modify_procs_self]
      exact hfresh hold
    · rw [ProcessSystem.modify_procs_of_ne _ _ _ hrp]
      exact hold

/-- A store through a `Process*` that leaves the stored context alone. -/
theorem Inv.modify (h : x.Inv) {p : Nat} {f : Process → Process}
    (hsaved : (f (x.sys.procs p)).savedEsp = (x.sys.procs p).savedEsp)
    (hfresh : x.onCpu ≠ none → Fresh (x.sys.procs p) → Fresh (f (x.sys.procs p))) :
    Inv { x with sys := x.sys.modify p f } where
  current_ge := h.current_ge
  length_le := h.length_le
  nodup := h.nodup
  owned := by
    intro q hq hne
    apply h.owned q hq
    by_cases hqp : q = p
    · subst hqp
      rw [← hsaved]
      simpa using hne
    · simpa [ProcessSystem.modify_procs_of_ne _ _ _ hqp] using hne
  idle := h.idle
  mem := h.mem
  located q hq := (h.located q hq).modify (hfresh (by rw [hq]; simp))

/-- What the running process is when a tick finds a process to store the context in. -/
theorem Inv.onCpu_of_storesInto (h : x.Inv) {c : Nat} (hc : x.storesInto = some c) :
    x.onCpu = some c := by
  rw [storesInto, Option.filter_eq_some_iff, decide_eq_true_eq] at hc
  obtain ⟨hcur, hstate⟩ := hc
  obtain ⟨hnonneg, hget⟩ := ProcessSystem.schedulerCurrentProcess_eq_some hcur
  rcases honCpu : x.onCpu with _ | q
  · have hidle := h.idle honCpu
    omega
  · rcases h.located q honCpu with hq | ⟨-, hentries⟩
    · rw [← hq, hcur]
    · have hat := (ProcessSystem.processGet_eq_some hget).2
      obtain ⟨hready | hdead, -⟩ := hentries _ c (Nat.le_refl _) hat
      · rw [hready] at hstate
        simp at hstate
      · rw [hdead] at hstate
        simp at hstate

/-- After the first half of a tick every stored context is the process's own. -/
theorem Inv.saveOwner_eq (h : x.Inv) {esp p : Nat} (hp : p ∈ x.sys.processTable)
    (hsaved : ((x.sys.saveContext esp).procs p).savedEsp ≠ 0) : x.saveOwner p = some p := by
  rw [saveOwner]
  rcases hstore : x.storesInto with _ | c
  · -- nothing is stored, so the control block is the old one
    apply h.owned p hp
    rw [ProcessSystem.saveContext_procs] at hsaved
    split at hsaved
    · rename_i hcur
      rw [storesInto, hcur, Option.filter_some] at hstore
      split at hstore
      · cases hstore
      · rename_i hstate
        rw [decide_eq_true_eq, not_or] at hstate
        rw [ProcessSystem.saveProc] at hsaved
        split at hsaved
        · exact absurd ‹_› hstate.1
        · exact absurd ‹_› hstate.2
        · exact hsaved
    · exact hsaved
  · by_cases hpc : p = c
    · subst hpc
      dsimp only
      rw [Function.update_self, h.onCpu_of_storesInto hstore]
    · dsimp only
      rw [Function.update_of_ne hpc]
      apply h.owned p hp
      rw [storesInto, Option.filter_eq_some_iff] at hstore
      rw [ProcessSystem.saveContext_procs, hstore.1, if_neg (by simpa using Ne.symm hpc)] at hsaved
      exact hsaved

/-- A switch resumes the process that was picked. -/
theorem Inv.tickOwner_eq (h : x.Inv) {esp next : Nat}
    (htarget : (x.sys.saveContext esp).tickTarget = some next)
    (hmem : next ∈ x.sys.processTable) : x.tickOwner esp = some next := by
  rw [tickOwner, htarget]
  dsimp only
  split
  · exact h.saveOwner_eq hmem ‹_›
  · rfl

/-! ## One step -/

theorem fresh_saveProc {esp : Nat} {proc : Process} (h : Fresh proc) :
    Fresh (ProcessSystem.saveProc esp proc) := by
  obtain ⟨hstate | hstate, hqueue⟩ := h
  · exact ⟨.inl (by simp [ProcessSystem.saveProc_state, hstate]), by simpa using hqueue⟩
  · exact ⟨.inr (by simp [ProcessSystem.saveProc_state, hstate]), by simpa using hqueue⟩

theorem Located.saveContext {s : ProcessSystem} {q : Nat} (h : Located s q) (esp : Nat) :
    Located (s.saveContext esp) q := by
  rw [ProcessSystem.saveContext]
  split
  · exact h.modify fresh_saveProc
  · exact h

theorem Inv.tick (h : x.Inv) (esp : Nat) :
    Inv ⟨(x.sys.schedulerTick esp).2, x.tickOwner esp, x.saveOwner⟩ := by
  rcases x.sys.schedulerTick_cases esp with
    ⟨idx, next, htarget, hget, hrun, heq⟩ | ⟨htarget, heq, -⟩
  · have hmem := ProcessSystem.processGet_mem hget
    have hidx := (ProcessSystem.processGet_eq_some hget).1
    have htable : (x.sys.switchedTo esp idx next).processTable = x.sys.processTable := by
      simp [ProcessSystem.switchedTo]
    rw [heq, h.tickOwner_eq htarget hmem]
    refine ⟨?_, by rw [htable]; exact h.length_le, by rw [htable]; exact h.nodup, ?_, ?_, ?_, ?_⟩
    · change -1 ≤ idx
      omega
    · intro p hp hsaved
      rw [htable] at hp
      have hkept : ((x.sys.saveContext esp).procs p).savedEsp ≠ 0 := by
        by_cases hpn : p = next
        · subst hpn
          simpa [ProcessSystem.switchedTo] using hsaved
        · have hkept : (x.sys.switchedTo esp idx next).procs p = (x.sys.saveContext esp).procs p :=
            ProcessSystem.setState_procs_of_ne _ _ _ hpn
          rwa [hkept] at hsaved
      exact h.saveOwner_eq hp hkept
    · intro hnone
      cases hnone
    · intro q hq
      cases hq
      rw [htable]
      exact hmem
    · intro q hq
      cases hq
      exact .inl (ProcessSystem.switchedTo_current hget esp)
  · have howner : x.tickOwner esp = x.onCpu := by rw [tickOwner, htarget]
    rw [heq, howner]
    exact ⟨by simpa using h.current_ge, by simpa using h.length_le, by simpa using h.nodup,
      fun p hp hsaved => h.saveOwner_eq (by simpa using hp) hsaved, by simpa using h.idle,
      by simpa using h.mem, fun q hq => (h.located q hq).saveContext esp⟩

theorem Located.registerProcess {s t : ProcessSystem} {p q : Nat} {proc : Process}
    (h : Located s q) (hproc : Fresh proc) (hreg : s.registerProcess p proc = some t) :
    Located t q := by
  obtain ⟨-, htable, hcurrent, hself, hother⟩ := ProcessSystem.registerProcess_eq_some hreg
  rcases h with hcur | ⟨hnonneg, hentries⟩
  · exact .inl (ProcessSystem.schedulerCurrentProcess_of_append htable hcurrent hcur)
  · refine .inr ⟨by rw [hcurrent]; exact hnonneg, fun i r hi hr => ?_⟩
    by_cases hrp : r = p
    · rw [hrp, hself]
      exact hproc
    · rw [hother r hrp]
      rw [hcurrent] at hi
      rw [htable, List.getElem?_append] at hr
      split at hr
      · exact hentries i r hi hr
      · rw [List.getElem?_singleton] at hr
        split at hr
        · exact absurd (Option.some.inj hr).symm hrp
        · cases hr

theorem Inv.registerProcess (h : x.Inv) {p : Nat} {proc : Process} {t : ProcessSystem}
    (hnew : p ∉ x.sys.processTable) (hproc : Fresh proc) (hsaved : proc.savedEsp = 0)
    (hreg : x.sys.registerProcess p proc = some t) : Inv { x with sys := t } := by
  obtain ⟨hroom, htable, hcurrent, hself, hother⟩ := ProcessSystem.registerProcess_eq_some hreg
  refine ⟨by rw [hcurrent]; exact h.current_ge, ?_, ?_, ?_, by rw [hcurrent]; exact h.idle, ?_, ?_⟩
  · rw [htable, List.length_append, List.length_singleton]
    exact hroom
  · rw [htable, ← List.concat_eq_append]
    exact h.nodup.concat hnew
  · intro q hq hne
    by_cases hqp : q = p
    · rw [hqp] at hne
      exact absurd (by rw [hself]; exact hsaved) hne
    · rw [hother q hqp] at hne
      refine h.owned q ?_ hne
      rw [htable, List.mem_append, List.mem_singleton] at hq
      exact hq.resolve_right hqp
  · intro q hq
    rw [htable]
    exact List.mem_append_left _ (h.mem q hq)
  · exact fun q hq => (h.located q hq).registerProcess hproc hreg

theorem Inv.firstEnter (h : x.Inv) {p : Nat} (hmem : p ∈ x.sys.processTable) :
    Inv ⟨(x.sys.processFirstEnter p).2, some p, x.owner⟩ := by
  obtain ⟨i, henter, hcur⟩ := ProcessSystem.processFirstEnter_eq hmem h.length_le
  rw [henter] at hcur ⊢
  refine ⟨?_, h.length_le, h.nodup, ?_, ?_, ?_, ?_⟩
  · dsimp only
    omega
  · intro q hq hne
    apply h.owned q hq
    by_cases hqp : q = p
    · subst hqp
      simpa using hne
    · simpa [ProcessSystem.setState_procs_of_ne _ _ _ hqp] using hne
  · intro hnone
    cases hnone
  · intro q hq
    cases hq
    exact hmem
  · intro q hq
    cases hq
    exact .inl hcur

theorem Located.removeEntry {s : ProcessSystem} {p q : Nat} (h : Located s q) (hne : p ≠ q) :
    Located { s with processTable := ProcessSystem.removeEntry s.processTable p } q := by
  rcases h with hcur | ⟨hnonneg, hentries⟩
  · obtain ⟨hnonneg, hget⟩ := ProcessSystem.schedulerCurrentProcess_eq_some hcur
    obtain ⟨i, hi⟩ : ∃ i : Nat, s.currentProcess = i := ⟨_, (Int.toNat_of_nonneg hnonneg).symm⟩
    rw [hi, ProcessSystem.processGet_natCast] at hget
    rcases ProcessSystem.removeEntry_stays hget hne with hstays | hshort
    · left
      rw [ProcessSystem.schedulerCurrentProcess, if_neg (Int.not_lt.mpr hnonneg)]
      dsimp only
      rw [hi, ProcessSystem.processGet_natCast]
      exact hstays
    · -- the running process was the last entry, and no entry is left at its position
      refine .inr ⟨hnonneg, fun j r hj hr => ?_⟩
      have hlt := (List.getElem?_eq_some_iff.mp hr).1
      dsimp only at hj hlt
      omega
  · refine .inr ⟨hnonneg, fun i r hi hr => ?_⟩
    obtain ⟨j, hij, hj⟩ := ProcessSystem.getElem?_of_removeEntry hr
    exact hentries j r (Nat.le_trans hi hij) hj

theorem Inv.processDestroy (h : x.Inv) {kernelSpace p : Nat} (hne : x.onCpu ≠ some p) :
    Inv { x with sys := (x.sys.processDestroy kernelSpace p).2 } := by
  rw [ProcessSystem.processDestroy]
  split
  · exact h
  · have hdead : Inv { x with sys := x.sys.setState p .dead } :=
      h.modify rfl fun _ hfresh => ⟨.inr rfl, hfresh.2⟩
    have hperm := ProcessSystem.removeEntry_perm x.sys.processTable p
    refine ⟨h.current_ge, ?_, hperm.nodup_iff.mpr (h.nodup.erase p), ?_, h.idle, ?_, ?_⟩
    · exact (hperm.length_eq.trans_le List.length_erase_le).trans h.length_le
    · exact fun q hq => hdead.owned q (ProcessSystem.mem_of_mem_removeEntry hq)
    · intro q hq
      have hqp : q ≠ p := fun heq => hne (by rw [← heq]; exact hq)
      exact hperm.mem_iff.mpr ((List.mem_erase_of_ne hqp).mpr (h.mem q hq))
    · intro q hq
      have hpq : p ≠ q := fun heq => hne (by rw [heq]; exact hq)
      exact (hdead.located q hq).removeEntry hpq

theorem Inv.step (h : x.Inv) {op : Op} (hallowed : x.Allowed op) (hstep : x.Step op y) :
    y.Inv := by
  obtain ⟨t, onCpu, owner⟩ := y
  obtain ⟨hsys, rfl, rfl⟩ := hstep
  cases op with
  | processCreate p space kstack userEntry userEsp =>
      exact h.registerProcess hallowed ⟨.inl rfl, rfl⟩ rfl hsys
  | processCreateKernel p space kstack =>
      exact h.registerProcess hallowed ⟨.inl rfl, rfl⟩ rfl hsys
  | attachQueue p msgs =>
      obtain rfl : x.sys.attachQueue p msgs = t := hsys
      unfold ProcessSystem.attachQueue
      exact h.modify rfl fun hrunning => absurd hallowed hrunning
  | processFirstEnter p =>
      cases hsys
      exact h.firstEnter hallowed.2
  | processDestroy kernelSpace p =>
      cases hsys
      exact h.processDestroy hallowed
  | schedulerTick esp =>
      cases hsys
      exact h.tick esp
  | ipcSend view targetPid data size =>
      cases hsys
      rcases x.sys.ipcSend_cases view targetPid data size with
        heq | ⟨p, q, -, -, hqueue, -, -, -, -, heq⟩
      · rw [heq]
        exact h
      · rw [heq]
        refine h.modify rfl fun _ hfresh => ?_
        rw [hfresh.2] at hqueue
        cases hqueue
  | ipcRecv sender buf size =>
      cases hsys
      rcases x.sys.ipcRecv_cases sender buf size with
        heq | ⟨me, q, -, -, -, hqueue, ⟨-, heq⟩ | ⟨-, heq⟩⟩
      · rw [heq]
        exact h
      · rw [heq]
        have hblock : Inv { x with sys := x.sys.setState me .blocked } :=
          h.modify rfl fun _ hfresh => by rw [hfresh.2] at hqueue; cases hqueue
        exact hblock
      · rw [heq]
        refine h.modify rfl fun _ hfresh => ?_
        rw [hfresh.2] at hqueue
        cases hqueue
  | kill pid =>
      cases hsys
      rw [ProcessSystem.kill]
      split
      · exact h.modify rfl fun _ hfresh => ⟨.inr rfl, hfresh.2⟩
      · exact h
  | exit code =>
      obtain rfl : x.sys.exitCurrent code = t := hsys
      unfold ProcessSystem.exitCurrent
      split
      · exact h.modify rfl fun _ hfresh => ⟨.inr rfl, hfresh.2⟩
      · exact h

/-! ## Every run -/

/-- `scheduler_init` has run and there is no process. -/
def Initial (x : Cpu) : Prop := x.sys.Booted ∧ x.onCpu = none

theorem Inv.initial (h : x.Initial) : x.Inv where
  current_ge := by rw [h.1.2]
  length_le := by rw [h.1.1]; exact Nat.zero_le _
  nodup := by rw [h.1.1]; exact List.nodup_nil
  owned p hp := by rw [h.1.1] at hp; cases hp
  idle _ := h.1.2
  mem q hq := by rw [h.2] at hq; cases hq
  located q hq := by rw [h.2] at hq; cases hq

/-- **When a tick resumes a process that can run.** In every state that is reached from
    `scheduler_init`, the process whose context a tick returns is neither dead nor blocked
    exactly when some process of the table is neither, or no process has been entered yet. -/
theorem tick_resumes_runnable_iff {ops : List Op} (hinit : x.Initial)
    (hrun : Run (Guarded Allowed Step) x ops y) (esp : Nat) :
    y.ResumesRunnable esp ↔
      y.onCpu = none ∨ ∃ p ∈ y.sys.processTable, (y.sys.procs p).runnable := by
  have hinv : y.Inv := by
    apply hrun.invariant Inv (Inv.initial hinit)
    rintro a op b ha ⟨hallowed, hstep⟩
    exact ha.step hallowed hstep
  rw [ResumesRunnable]
  rcases y.sys.schedulerTick_cases esp with
    ⟨idx, next, htarget, hget, hnext, heq⟩ | ⟨htarget, heq, hnone⟩
  · have hmem := ProcessSystem.processGet_mem hget
    apply iff_of_true _ (.inr ⟨next, hmem, hnext⟩)
    intro p hp
    rw [hinv.tickOwner_eq htarget hmem] at hp
    cases hp
    rw [heq]
    simp [ProcessSystem.switchedTo, Process.runnable]
  · have howner : y.tickOwner esp = y.onCpu := by rw [tickOwner, htarget]
    have hblocked := hnone hinv.current_ge
    rw [howner, heq]
    constructor
    · intro hresumes
      by_contra hcannot
      obtain ⟨q, hq⟩ := Option.ne_none_iff_exists'.mp (not_or.mp hcannot).1
      have hrunnable := hresumes q hq
      rw [ProcessSystem.saveContext_runnable] at hrunnable
      exact hblocked q (hinv.mem q hq) hrunnable
    · rintro (hidle | ⟨p, hp, hrunnable⟩) q hq
      · rw [hidle] at hq
        cases hq
      · exact absurd hrunnable (hblocked p hp)

/-- The machine before `kernel_main` creates the first process. -/
def bootCpu : Cpu := ⟨ProcessSystem.tableOf [] (-1), none, fun _ => none⟩

theorem bootCpu_initial : bootCpu.Initial := ⟨⟨rfl, rfl⟩, rfl⟩

theorem step_of {op : Op} {t : ProcessSystem} (h : x.sys.Step op t) :
    x.Step op ⟨t, x.onCpuAfter op, x.ownerAfter op⟩ :=
  ⟨h, rfl, rfl⟩

/-- The first of two processes blocks on its empty queue, and the second one is resumed. -/
theorem tick_resumes_runnable_recv :
    ∃ y, Run (Guarded Allowed Step) bootCpu
        [.processCreateKernel 4096 0 8192, .attachQueue 4096 (fun _ => ⟨0, 0, fun _ => 0⟩),
          .processCreateKernel 5120 0 16384, .processFirstEnter 4096, .ipcRecv 0 1 1] y ∧
      y.ResumesRunnable 300 := by
  have hrun : Run (Guarded Allowed Step) bootCpu
      [.processCreateKernel 4096 0 8192, .attachQueue 4096 (fun _ => ⟨0, 0, fun _ => 0⟩),
        .processCreateKernel 5120 0 16384, .processFirstEnter 4096, .ipcRecv 0 1 1] _ :=
    .cons ⟨List.not_mem_nil, step_of rfl⟩ <| .cons ⟨rfl, step_of rfl⟩ <|
      .cons ⟨(by decide : (5120 : Nat) ∉ [4096]), step_of rfl⟩ <|
      .cons ⟨⟨rfl, List.mem_cons_self⟩, step_of rfl⟩ <| .cons ⟨trivial, step_of rfl⟩ .nil
  exact ⟨_, hrun, (tick_resumes_runnable_iff bootCpu_initial hrun 300).mpr
    (.inr ⟨5120, by decide, by decide⟩)⟩

/-- The shell kills the other process and then itself: the tick goes on with the dead
    shell. -/
theorem tick_resumes_dead :
    ¬ ∀ (x y : Cpu) (ops : List Op) (esp : Nat), x.Initial →
      Run (Guarded Allowed Step) x ops y → y.ResumesRunnable esp := by
  intro h
  have hrun : Run (Guarded Allowed Step) bootCpu
      [.processCreateKernel 4096 0 8192, .processCreateKernel 5120 0 16384,
        .processFirstEnter 4096, .kill 2, .kill 1] _ :=
    .cons ⟨List.not_mem_nil, step_of rfl⟩ <|
      .cons ⟨(by decide : (5120 : Nat) ∉ [4096]), step_of rfl⟩ <|
      .cons ⟨⟨rfl, List.mem_cons_self⟩, step_of rfl⟩ <| .cons ⟨trivial, step_of rfl⟩ <|
      .cons ⟨trivial, step_of rfl⟩ .nil
  have hdead := h _ _ _ 300 bootCpu_initial hrun 4096 rfl
  revert hdead
  decide

end Cpu

end NemoOS
