import NemoOS.Scheduler

/-!
# Sending and receiving messages (`ipc/ipc.cpp`)

Both calls dereference a pointer the caller passed in. Memory is seen through
`view`, the bytes at the addresses of the caller's space; what a call read or
stored through the pointer is part of its result, so that the access can be
judged where the pointer comes from (the dispatcher hands over register values
unchecked).
-/

namespace NemoOS

open Words

/-- The result of `ipc_send`, with the addresses it read through `data`. -/
structure SendResult where
  ret : Int
  reads : List Nat
deriving DecidableEq, Repr

/-- The result of `ipc_recv`: `sender` is what was stored through a non-null
    `sender` pointer, `bytes` what was stored at `buf`, `buf + 1`, … -/
structure RecvResult where
  ret : Int
  sender : Option Nat
  bytes : List UInt8
deriving DecidableEq, Repr

def SendResult.failed : SendResult := ⟨-1, []⟩
def RecvResult.failed : RecvResult := ⟨-1, none, []⟩

namespace ProcessSystem

/-- `scheduler_current_process()->pid`, or `0` without a current process. -/
def senderPid (s : ProcessSystem) : Nat :=
  match s.schedulerCurrentProcess with
  | some p => (s.procs p).pid
  | none => 0

/-- What a delivered message changes in the target's control block. -/
def deliver (view : Nat → UInt8) (sender data size : Nat) (q : IpcQueue) (proc : Process) :
    Process :=
  { proc with
    msgQueue := some (q.enqueue view sender data size)
    state := if proc.state = .blocked then .ready else proc.state }

/-- What taking a message changes in the receiver's control block. -/
def takeMessage (q : IpcQueue) (proc : Process) : Process :=
  { proc with msgQueue := some q.dequeue }

def ipcSend (s : ProcessSystem) (view : Nat → UInt8) (targetPid data size : Nat) :
    SendResult × ProcessSystem :=
  if data = 0 ∨ size = 0 ∨ size > IPC_MAX_MSG_SIZE then (.failed, s)
  else
    match s.findPid targetPid with
    | none => (.failed, s)
    | some p =>
        if (s.procs p).state = .dead then (.failed, s)
        else
          match (s.procs p).msgQueue with
          | none => (.failed, s)
          | some q =>
              if q.count ≥ IPC_MAX_MSG_PER_PROC then (.failed, s)
              else
                (⟨0, (List.range size).map fun i => u32 (data + i)⟩,
                  s.modify p (deliver view s.senderPid data size q))

def ipcRecv (s : ProcessSystem) (sender buf size : Nat) : RecvResult × ProcessSystem :=
  match s.schedulerCurrentProcess with
  | none => (.failed, s)
  | some me =>
      if buf = 0 ∨ size = 0 then (.failed, s)
      else
        match (s.procs me).msgQueue with
        | none => (.failed, s)
        | some q =>
            -- the source's `while` returns in its first iteration
            if q.count = 0 then (⟨0, none, []⟩, s.setState me .blocked)
            else
              let msg := q.msgs q.head
              let copySize := if msg.size < size then msg.size else size
              (⟨copySize, if sender ≠ 0 then some msg.senderPid else none, msg.bytes copySize⟩,
                s.modify me (takeMessage q))

/-! ## What a call can do -/

theorem findPid_eq_some {s : ProcessSystem} {pid p : Nat} (h : s.findPid pid = some p) :
    p ∈ s.processTable ∧ (s.procs p).pid = pid :=
  ⟨List.mem_of_find?_eq_some h, by simpa using List.find?_some h⟩

/-- **What a send can do.** It fails and changes nothing, or it enqueues at the
    first process with the target's pid and wakes it. -/
theorem ipcSend_cases (s : ProcessSystem) (view : Nat → UInt8) (targetPid data size : Nat) :
    s.ipcSend view targetPid data size = (.failed, s) ∨
    ∃ p q, s.findPid targetPid = some p ∧ (s.procs p).state ≠ .dead ∧
      (s.procs p).msgQueue = some q ∧ q.count < IPC_MAX_MSG_PER_PROC ∧
      data ≠ 0 ∧ 0 < size ∧ size ≤ IPC_MAX_MSG_SIZE ∧
      s.ipcSend view targetPid data size =
        (⟨0, (List.range size).map fun i => u32 (data + i)⟩,
          s.modify p (deliver view s.senderPid data size q)) := by
  unfold ipcSend
  split
  · exact Or.inl rfl
  · rename_i hargs
    rcases hfind : s.findPid targetPid with _ | p
    · exact Or.inl rfl
    · by_cases hdead : (s.procs p).state = .dead
      · exact Or.inl (by simp [hdead])
      · rcases hqueue : (s.procs p).msgQueue with _ | q
        · exact Or.inl (by simp [hdead, hqueue])
        · by_cases hfull : q.count ≥ IPC_MAX_MSG_PER_PROC
          · exact Or.inl (by simp [hdead, hqueue, hfull])
          · right
            refine ⟨p, q, rfl, hdead, hqueue, by omega, by omega, by omega, by omega, ?_⟩
            simp [hdead, hqueue, hfull]

/-- **What a receive can do.** It fails and changes nothing, it finds its queue
    empty and blocks the caller, or it takes the oldest message. -/
theorem ipcRecv_cases (s : ProcessSystem) (sender buf size : Nat) :
    s.ipcRecv sender buf size = (.failed, s) ∨
    ∃ me q, s.schedulerCurrentProcess = some me ∧ buf ≠ 0 ∧ 0 < size ∧
      (s.procs me).msgQueue = some q ∧
      ((q.count = 0 ∧ s.ipcRecv sender buf size = (⟨0, none, []⟩, s.setState me .blocked)) ∨
       (0 < q.count ∧ s.ipcRecv sender buf size =
        (⟨(min (q.msgs q.head).size size : Nat),
            if sender ≠ 0 then some (q.msgs q.head).senderPid else none,
            (q.msgs q.head).bytes (min (q.msgs q.head).size size)⟩,
          s.modify me (takeMessage q)))) := by
  unfold ipcRecv
  rcases hme : s.schedulerCurrentProcess with _ | me
  · exact Or.inl rfl
  · by_cases hargs : buf = 0 ∨ size = 0
    · exact Or.inl (by simp [hargs])
    · rcases hqueue : (s.procs me).msgQueue with _ | q
      · exact Or.inl (by simp [hargs, hqueue])
      · right
        refine ⟨me, q, rfl, by omega, by omega, hqueue, ?_⟩
        have hmin : (if (q.msgs q.head).size < size then (q.msgs q.head).size else size) =
            min (q.msgs q.head).size size := by
          split <;> omega
        by_cases hempty : q.count = 0
        · exact Or.inl ⟨hempty, by simp [hargs, hqueue, hempty]⟩
        · exact Or.inr ⟨by omega, by simp [hargs, hqueue, hempty, hmin]⟩

end ProcessSystem

end NemoOS
