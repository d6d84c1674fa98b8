import NemoOS.Lib.RingBuffer
import NemoOS.Lib.Words

/-!
# Message queues (`ipc/ipc.hpp`)

`ipc_queue` is a circular buffer of sixteen message slots with a head, a tail
and a count. The operations below are the parts of `ipc_send` and `ipc_recv`
that touch the queue; the rest of those two functions, which also reads and
writes process states, is in `NemoOS.Ipc`.

A slot keeps the bytes of an older message behind the end of a shorter one, so
the slot array is not the queue: `IpcQueue.pending` is.
-/

namespace NemoOS

open Words Circular

def IPC_MAX_MSG_SIZE : Nat := 64
def IPC_MAX_MSG_PER_PROC : Nat := 16

/-- `struct ipc_msg`. Only `data 0 .. data 63` exist. -/
structure IpcMsg where
  senderPid : Nat
  size : Nat
  data : Nat → UInt8

/-- `struct ipc_queue`. Only `msgs 0 .. msgs 15` exist. -/
structure IpcQueue where
  msgs : Nat → IpcMsg
  head : Nat
  tail : Nat
  count : Nat

/-- `ipc_queue_init`: the slots keep whatever the allocation held. -/
def ipcQueueInit (msgs : Nat → IpcMsg) : IpcQueue where
  msgs := msgs
  head := 0
  tail := 0
  count := 0

/-- `memcpy(msg->data, data, size)` with the source read through `view`. -/
def copyIn (view : Nat → UInt8) (data size : Nat) (old : Nat → UInt8) : Nat → UInt8 :=
  fun i => if i < size then view (u32 (data + i)) else old i

/-- The message slot `ipc_send` fills, and the advanced tail and count. -/
def IpcQueue.enqueue (q : IpcQueue) (view : Nat → UInt8) (sender data size : Nat) : IpcQueue :=
  { q with
    msgs := Function.update q.msgs q.tail
      ⟨sender, size, copyIn view data size (q.msgs q.tail).data⟩
    tail := (q.tail + 1) % IPC_MAX_MSG_PER_PROC
    count := q.count + 1 }

/-- The advanced head and count of `ipc_recv`. -/
def IpcQueue.dequeue (q : IpcQueue) : IpcQueue :=
  { q with head := (q.head + 1) % IPC_MAX_MSG_PER_PROC, count := q.count - 1 }

/-- The first `n` bytes of a message. -/
def IpcMsg.bytes (msg : IpcMsg) (n : Nat) : List UInt8 := (List.range n).map msg.data

@[simp] theorem IpcMsg.length_bytes (msg : IpcMsg) (n : Nat) : (msg.bytes n).length = n := by
  simp [IpcMsg.bytes]

/-! ## The queue as a ring buffer -/

def IpcQueue.toRing (q : IpcQueue) : RingBuffer IpcMsg := ⟨q.msgs, q.head, q.tail, q.count⟩

/-- The queue an initialised `ipc_queue` can become. -/
def IpcQueue.WF (q : IpcQueue) : Prop := q.toRing.WF IPC_MAX_MSG_PER_PROC

/-- The messages that wait to be received, oldest first. -/
def IpcQueue.pending (q : IpcQueue) : List IpcMsg := q.toRing.contents IPC_MAX_MSG_PER_PROC

@[simp] theorem IpcQueue.length_pending (q : IpcQueue) : q.pending.length = q.count :=
  RingBuffer.length_contents _ _

theorem ipcQueueInit_wf (msgs : Nat → IpcMsg) : (ipcQueueInit msgs).WF where
  head_lt := Nat.zero_lt_succ 15
  count_le := by simp [ipcQueueInit, IpcQueue.toRing]
  tail_eq := by simp [ipcQueueInit, IpcQueue.toRing]

@[simp] theorem ipcQueueInit_pending (msgs : Nat → IpcMsg) : (ipcQueueInit msgs).pending = [] := rfl

theorem IpcQueue.WF.enqueue {q : IpcQueue} (h : q.WF) (hroom : q.count < IPC_MAX_MSG_PER_PROC)
    (view : Nat → UInt8) (sender data size : Nat) : (q.enqueue view sender data size).WF :=
  RingBuffer.WF.push h hroom _

theorem IpcQueue.WF.dequeue {q : IpcQueue} (h : q.WF) (hpos : 0 < q.count) : q.dequeue.WF :=
  RingBuffer.WF.pop h hpos

/-- A sent message is appended behind the pending ones. -/
theorem IpcQueue.pending_enqueue {q : IpcQueue} (h : q.WF)
    (hroom : q.count < IPC_MAX_MSG_PER_PROC) (view : Nat → UInt8) (sender data size : Nat) :
    (q.enqueue view sender data size).pending =
      q.pending ++ [⟨sender, size, copyIn view data size (q.msgs q.tail).data⟩] :=
  RingBuffer.contents_push h hroom _

/-- The slot at `head` is the oldest pending message, and `ipc_recv` removes it. -/
theorem IpcQueue.pending_eq_cons {q : IpcQueue} (h : q.WF) (hpos : 0 < q.count) :
    q.pending = q.msgs q.head :: q.dequeue.pending :=
  RingBuffer.contents_eq_cons h hpos

end NemoOS
