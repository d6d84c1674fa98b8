import NemoOS.ProcessLife

/-!
# Message queues are first in, first out

A process that owns an initialised queue is watched while any processes send and
receive. `Channel` records what was successfully sent to it and what it
successfully received; `fifo` compares the two records after every run. Which
process is current between two calls is left open (`Call.dispatch`), so that every
interleaving is covered and not only those the scheduler produces; ticks, kills
and exits may happen in between.

The simulation behind it is `FifoInv`: the pending messages of the circular
buffer are exactly the sent messages that have not been received yet.
-/

namespace NemoOS

open Transition Words

/-- A message as its sender handed it over. -/
structure Message where
  sender : Nat
  bytes : List UInt8
deriving DecidableEq, Repr

/-- A successful receive: whether the caller asked for the sender's pid, the size
    of its buffer, and the result. -/
structure Reception where
  wantsSender : Bool
  size : Nat
  result : RecvResult
deriving DecidableEq, Repr

/-- The reception yields the message: its first bytes up to the size of the
    buffer, their number, and the sender's pid if it was asked for. -/
def Delivered (m : Message) (r : Reception) : Prop :=
  r.result.ret = (min m.bytes.length r.size : Nat) ∧
  r.result.bytes = m.bytes.take r.size ∧
  r.result.sender = if r.wantsSender then some m.sender else none

/-- The process system with the record of what went through the queue of one
    process. -/
structure Channel where
  sys : ProcessSystem
  sent : List Message
  received : List Reception

/-- A call of some process, or a change of the current process. -/
inductive Call where
  | op (op : Op)
  | dispatch (index : Int)

namespace Channel

/-- What an operation adds to the messages sent to `owner`. -/
def sentBy (owner : Nat) (s : ProcessSystem) : Op → List Message
  | .ipcSend view targetPid data size =>
      if targetPid = (s.procs owner).pid ∧ (s.ipcSend view targetPid data size).1.ret = 0 then
        [⟨s.senderPid, (List.range size).map fun i => view (u32 (data + i))⟩]
      else []
  | _ => []

/-- What an operation adds to the messages received by `owner`. -/
def receivedBy (owner : Nat) (s : ProcessSystem) : Op → List Reception
  | .ipcRecv sender buf size =>
      if s.schedulerCurrentProcess = some owner ∧ (s.ipcRecv sender buf size).1.ret > 0 then
        [⟨sender ≠ 0, size, (s.ipcRecv sender buf size).1⟩]
      else []
  | _ => []

def step (owner : Nat) (x : Channel) : Call → Channel
  | .op op => ⟨x.sys.exec op, x.sent ++ sentBy owner x.sys op,
      x.received ++ receivedBy owner x.sys op⟩
  | .dispatch index => { x with sys := { x.sys with currentProcess := index } }

def Step (owner : Nat) (x : Channel) (call : Call) (y : Channel) : Prop :=
  (∀ op, call = .op op → op.runtime = true) ∧ step owner x call = y

/-- No two processes of the table have the same pid. -/
def DistinctPids (s : ProcessSystem) : Prop :=
  ∀ a ∈ s.processTable, ∀ b ∈ s.processTable, (s.procs a).pid = (s.procs b).pid → a = b

instance (s : ProcessSystem) : Decidable (DistinctPids s) :=
  inferInstanceAs (Decidable (∀ a ∈ s.processTable, ∀ b ∈ s.processTable, _ → _))

/-! ## Messages in slots -/

def ofSlot (msg : IpcMsg) : Message := ⟨msg.senderPid, msg.bytes msg.size⟩

theorem ofSlot_copyIn (view : Nat → UInt8) (sender data size : Nat) (old : Nat → UInt8) :
    ofSlot ⟨sender, size, copyIn view data size old⟩ =
      ⟨sender, (List.range size).map fun i => view (u32 (data + i))⟩ := by
  have hbytes : (List.range size).map (copyIn view data size old) =
      (List.range size).map fun i => view (u32 (data + i)) := by
    refine List.map_congr_left fun i hi => ?_
    simp [copyIn, List.mem_range.mp hi]
  simp only [ofSlot, IpcMsg.bytes, hbytes]

theorem bytes_take (msg : IpcMsg) (n : Nat) :
    (msg.bytes msg.size).take n = msg.bytes (min msg.size n) := by
  rw [IpcMsg.bytes, IpcMsg.bytes, ← List.map_take, List.take_range, Nat.min_comm]

/-! ## The simulation -/

/-- The circular buffer holds the sent messages that were not received yet. -/
structure Simulates (q : IpcQueue) (sent : List Message) (received : List Reception) : Prop where
  wf : q.WF
  sizes : ∀ msg ∈ q.pending, 0 < msg.size
  received_le : received.length ≤ sent.length
  delivered : ∀ (k : Nat) r, received[k]? = some r → ∃ m, sent[k]? = some m ∧ Delivered m r
  pending : q.pending.map ofSlot = sent.drop received.length

theorem Simulates.init (msgs : Nat → IpcMsg) : Simulates (ipcQueueInit msgs) [] [] where
  wf := ipcQueueInit_wf msgs
  sizes := by simp [ipcQueueInit_pending]
  received_le := le_refl _
  delivered := by simp
  pending := by simp [ipcQueueInit_pending]

theorem Simulates.enqueue {q : IpcQueue} {sent : List Message} {received : List Reception}
    (h : Simulates q sent received) (hroom : q.count < IPC_MAX_MSG_PER_PROC)
    (view : Nat → UInt8) (sender data : Nat) {size : Nat} (hsize : 0 < size) :
    Simulates (q.enqueue view sender data size)
      (sent ++ [⟨sender, (List.range size).map fun i => view (u32 (data + i))⟩]) received where
  wf := h.wf.enqueue hroom _ _ _ _
  sizes := by
    intro msg hmsg
    rw [IpcQueue.pending_enqueue h.wf hroom] at hmsg
    rcases List.mem_append.mp hmsg with hold | hnew
    · exact h.sizes msg hold
    · rw [List.mem_singleton.mp hnew]
      exact hsize
  received_le := by
    rw [List.length_append]
    exact Nat.le_add_right_of_le h.received_le
  delivered := by
    intro k r hr
    obtain ⟨m, hm, hdel⟩ := h.delivered k r hr
    refine ⟨m, ?_, hdel⟩
    rw [List.getElem?_append_left (List.getElem?_eq_some_iff.mp hm).1, hm]
  pending := by
    rw [IpcQueue.pending_enqueue h.wf hroom, List.map_append, h.pending,
      List.drop_append_of_le_length h.received_le, List.map_singleton, ofSlot_copyIn]

theorem Simulates.dequeue {q : IpcQueue} {sent : List Message} {received : List Reception}
    (h : Simulates q sent received) (hcount : 0 < q.count) (wantsSender : Bool) (size : Nat) :
    Simulates q.dequeue sent (received ++ [⟨wantsSender, size,
      ⟨(min (q.msgs q.head).size size : Nat),
        if wantsSender then some (q.msgs q.head).senderPid else none,
        (q.msgs q.head).bytes (min (q.msgs q.head).size size)⟩⟩]) := by
  have hcons := IpcQueue.pending_eq_cons h.wf hcount
  -- the oldest pending message is the first one not received yet
  have hsplit : ofSlot (q.msgs q.head) :: q.dequeue.pending.map ofSlot =
      sent.drop received.length := by
    rw [← h.pending, hcons, List.map_cons]
  have hnext : sent[received.length]? = some (ofSlot (q.msgs q.head)) := by
    rw [← List.head?_drop, ← hsplit, List.head?_cons]
  refine ⟨h.wf.dequeue hcount, ?_, ?_, ?_, ?_⟩
  · intro msg hmsg
    exact h.sizes msg (hcons ▸ List.mem_cons_of_mem _ hmsg)
  · rw [List.length_append]
    exact (List.getElem?_eq_some_iff.mp hnext).1
  · intro k r hr
    rcases Nat.lt_or_ge k received.length with hlt | hge
    · rw [List.getElem?_append_left hlt] at hr
      exact h.delivered k r hr
    · rw [List.getElem?_append_right hge] at hr
      obtain ⟨hk, rfl⟩ := List.getElem?_eq_some_iff.mp hr
      obtain rfl : k = received.length := by
        rw [List.length_singleton] at hk
        omega
      refine ⟨_, hnext, ?_⟩
      simp [Delivered, ofSlot, bytes_take]
  · rw [List.length_append, ← List.drop_drop, ← hsplit]
    rfl

/-- The owner is registered, its pid is its own, and its queue simulates the
    record. -/
structure FifoInv (owner : Nat) (x : Channel) : Prop where
  registered : owner ∈ x.sys.processTable
  distinct : DistinctPids x.sys
  queue : ∃ q, (x.sys.procs owner).msgQueue = some q ∧ Simulates q x.sent x.received

/-- What keeps the table and the pids keeps the simulation if the owner's queue
    still simulates the record. -/
theorem FifoInv.frame {owner : Nat} {x y : Channel} (h : FifoInv owner x)
    (htable : y.sys.processTable = x.sys.processTable)
    (hpid : ∀ a, (y.sys.procs a).pid = (x.sys.procs a).pid)
    (hqueue : ∀ q, (x.sys.procs owner).msgQueue = some q → Simulates q x.sent x.received →
      ∃ q', (y.sys.procs owner).msgQueue = some q' ∧ Simulates q' y.sent y.received) :
    FifoInv owner y where
  registered := htable ▸ h.registered
  distinct := by
    intro a ha b hb heq
    rw [hpid, hpid] at heq
    exact h.distinct a (htable ▸ ha) b (htable ▸ hb) heq
  queue := by
    obtain ⟨q, hq, hsim⟩ := h.queue
    exact hqueue q hq hsim

/-- What does not touch the table, the pids or the owner's queue keeps the
    simulation. -/
theorem FifoInv.untouched {owner : Nat} {x : Channel} (h : FifoInv owner x) {t : ProcessSystem}
    (htable : t.processTable = x.sys.processTable)
    (hpid : ∀ a, (t.procs a).pid = (x.sys.procs a).pid)
    (hqueue : (t.procs owner).msgQueue = (x.sys.procs owner).msgQueue) :
    FifoInv owner { x with sys := t } :=
  h.frame htable hpid fun q hq hsim => ⟨q, hqueue.trans hq, hsim⟩

theorem modify_pid (s : ProcessSystem) (p : Nat) {f : Process → Process}
    (hf : ∀ proc, (f proc).pid = proc.pid) (a : Nat) :
    ((s.modify p f).procs a).pid = (s.procs a).pid := by
  by_cases ha : a = p
  · subst ha
    simp [hf]
  · rw [ProcessSystem.modify_procs_of_ne _ _ _ ha]

/-- A store through a `Process*` that leaves the pid alone, and the queue too if
    it is the owner's. -/
theorem FifoInv.modify {owner : Nat} {x : Channel} (h : FifoInv owner x) {p : Nat}
    {f : Process → Process} (hpid : ∀ proc, (f proc).pid = proc.pid)
    (hqueue : p = owner → ∀ proc, (f proc).msgQueue = proc.msgQueue) :
    FifoInv owner { x with sys := x.sys.modify p f } := by
  refine h.untouched rfl (modify_pid x.sys p hpid) ?_
  by_cases howner : owner = p
  · subst howner
    simp [hqueue rfl]
  · rw [ProcessSystem.modify_procs_of_ne _ _ _ howner]

/-! ## One step -/

theorem FifoInv.schedulerTick {owner : Nat} {x : Channel} (h : FifoInv owner x) (esp : Nat) :
    FifoInv owner { x with sys := (x.sys.schedulerTick esp).2 } := by
  have hsaved : FifoInv owner { x with sys := x.sys.saveContext esp } := by
    unfold ProcessSystem.saveContext
    split
    · exact h.modify (by simp) (by simp)
    · exact h
  rcases x.sys.schedulerTick_cases esp with ⟨idx, next, -, -, -, heq⟩ | ⟨-, heq, -⟩
  · rw [heq]
    have hrunning := hsaved.modify (p := next) (f := fun proc => { proc with state := .running })
      (fun _ => rfl) (fun _ _ => rfl)
    exact hrunning.untouched rfl (fun _ => rfl) rfl
  · rw [heq]
    exact hsaved

theorem FifoInv.ipcSend {owner : Nat} {x : Channel} (h : FifoInv owner x) (view : Nat → UInt8)
    (targetPid data size : Nat) :
    FifoInv owner (step owner x (.op (.ipcSend view targetPid data size))) := by
  rcases x.sys.ipcSend_cases view targetPid data size with
    heq | ⟨p, q, hfind, -, hq, hroom, -, hsize, -, heq⟩
  · -- a failed send adds nothing to the record
    have hnothing : step owner x (.op (.ipcSend view targetPid data size)) = x := by
      simp [step, ProcessSystem.exec, sentBy, receivedBy, heq, SendResult.failed]
    rw [hnothing]
    exact h
  · obtain ⟨hmem, hpid⟩ := ProcessSystem.findPid_eq_some hfind
    by_cases hp : p = owner
    · subst hp
      have hstep : step p x (.op (.ipcSend view targetPid data size)) =
          ⟨x.sys.modify p (ProcessSystem.deliver view x.sys.senderPid data size q),
            x.sent ++ [⟨x.sys.senderPid, (List.range size).map fun i => view (u32 (data + i))⟩],
            x.received⟩ := by
        simp [step, ProcessSystem.exec, sentBy, receivedBy, heq, hpid]
      rw [hstep]
      refine h.frame rfl (modify_pid x.sys p fun _ => rfl) fun q' hq' hsim => ?_
      rw [hq] at hq'
      cases hq'
      exact ⟨_, by simp [ProcessSystem.deliver], hsim.enqueue hroom _ _ _ hsize⟩
    · -- distinct pids: a message for another process is not counted
      have hother : targetPid ≠ (x.sys.procs owner).pid := by
        intro heqpid
        exact hp (h.distinct p hmem owner h.registered (hpid.trans heqpid))
      have hstep : step owner x (.op (.ipcSend view targetPid data size)) =
          { x with
            sys := x.sys.modify p (ProcessSystem.deliver view x.sys.senderPid data size q) } := by
        simp [step, ProcessSystem.exec, sentBy, receivedBy, heq, hother]
      rw [hstep]
      exact h.modify (fun _ => rfl) fun howner => absurd howner hp

theorem FifoInv.ipcRecv {owner : Nat} {x : Channel} (h : FifoInv owner x)
    (sender buf size : Nat) : FifoInv owner (step owner x (.op (.ipcRecv sender buf size))) := by
  rcases x.sys.ipcRecv_cases sender buf size with
    heq | ⟨me, q, hme, -, hsize, hq, ⟨hempty, heq⟩ | ⟨hcount, heq⟩⟩
  · have hnothing : step owner x (.op (.ipcRecv sender buf size)) = x := by
      simp [step, ProcessSystem.exec, sentBy, receivedBy, heq, RecvResult.failed]
    rw [hnothing]
    exact h
  · -- an empty queue only blocks the caller
    have hstep : step owner x (.op (.ipcRecv sender buf size)) =
        { x with sys := x.sys.setState me .blocked } := by
      simp [step, ProcessSystem.exec, sentBy, receivedBy, heq]
    rw [hstep]
    exact h.modify (fun _ => rfl) fun _ _ => rfl
  · by_cases hp : me = owner
    · subst hp
      obtain ⟨q', hq', hsim⟩ := h.queue
      rw [hq] at hq'
      cases hq'
      have hpositive : 0 < (q.msgs q.head).size :=
        hsim.sizes _ (IpcQueue.pending_eq_cons hsim.wf hcount ▸ List.mem_cons_self)
      have hstep : step me x (.op (.ipcRecv sender buf size)) =
          ⟨x.sys.modify me (ProcessSystem.takeMessage q), x.sent,
            x.received ++ [⟨sender ≠ 0, size, ⟨(min (q.msgs q.head).size size : Nat),
              if sender ≠ 0 then some (q.msgs q.head).senderPid else none,
              (q.msgs q.head).bytes (min (q.msgs q.head).size size)⟩⟩]⟩ := by
        have hret : (0 : Int) < (min (q.msgs q.head).size size : Nat) := by omega
        simp only [step, ProcessSystem.exec, sentBy, receivedBy, heq, hme, gt_iff_lt, hret,
          and_self, if_true, List.append_nil]
      rw [hstep]
      refine h.frame rfl (modify_pid x.sys me fun _ => rfl) fun _ _ _ => ?_
      exact ⟨q.dequeue, by simp [ProcessSystem.takeMessage],
        by simpa using hsim.dequeue hcount (decide (sender ≠ 0)) size⟩
    · -- another process reads its own queue
      have hother : x.sys.schedulerCurrentProcess ≠ some owner := by
        rw [hme]
        simpa using hp
      have hstep : step owner x (.op (.ipcRecv sender buf size)) =
          { x with sys := x.sys.modify me (ProcessSystem.takeMessage q) } := by
        simp [step, ProcessSystem.exec, sentBy, receivedBy, heq, hother]
      rw [hstep]
      exact h.modify (fun _ => rfl) fun howner => absurd howner hp

theorem FifoInv.step {owner : Nat} {x y : Channel} {call : Call} (h : FifoInv owner x)
    (hstep : Step owner x call y) : FifoInv owner y := by
  obtain ⟨hruntime, rfl⟩ := hstep
  cases call with
  | dispatch index => exact h.untouched rfl (fun _ => rfl) rfl
  | op op =>
      cases op with
      | schedulerTick esp => 
          simpa [Channel.step, ProcessSystem.exec, sentBy, receivedBy] using h.schedulerTick esp
      | ipcSend view targetPid data size => exact h.ipcSend view targetPid data size
      | ipcRecv sender buf size => exact h.ipcRecv sender buf size
      | kill pid =>
          simp only [Channel.step, sentBy, receivedBy, List.append_nil, ProcessSystem.exec,
            ProcessSystem.kill]
          split
          · exact h.modify (f := fun proc => { proc with state := .dead }) (fun _ => rfl)
              fun _ _ => rfl
          · exact h
      | exit code =>
          simp only [Channel.step, sentBy, receivedBy, List.append_nil, ProcessSystem.exec,
            ProcessSystem.exitCurrent]
          split
          · exact h.modify (fun _ => rfl) fun _ _ => rfl
          · exact h
      | _ => simp [Op.runtime] at hruntime

/-! ## Whole runs -/

theorem ipcSend_failed (s : ProcessSystem) (view : Nat → UInt8) (targetPid data size : Nat)
    (hret : (s.ipcSend view targetPid data size).1.ret = -1) :
    (s.ipcSend view targetPid data size).2 = s := by
  rcases s.ipcSend_cases view targetPid data size with heq | ⟨p, q, -, -, -, -, -, -, -, heq⟩
  · rw [heq]
  · rw [heq] at hret
    simp at hret

/-- **First in, first out.** After any run the `k`-th reception of the owner has
    delivered the `k`-th message sent to it; the queue holds the messages sent and
    not yet received, at most sixteen; and a send that fails changes nothing. -/
theorem fifo {owner : Nat} {s : ProcessSystem} {msgs : Nat → IpcMsg} {calls : List Call}
    {x : Channel} (howner : owner ∈ s.processTable) (hpids : DistinctPids s)
    (hqueue : (s.procs owner).msgQueue = some (ipcQueueInit msgs))
    (hrun : Run (Step owner) ⟨s, [], []⟩ calls x) :
    (∀ (k : Nat) r, x.received[k]? = some r → ∃ m, x.sent[k]? = some m ∧ Delivered m r) ∧
    (∃ q, (x.sys.procs owner).msgQueue = some q ∧
      x.received.length + q.count = x.sent.length ∧ q.count ≤ 16) ∧
    ∀ view targetPid data size, (x.sys.ipcSend view targetPid data size).1.ret = -1 →
      (x.sys.ipcSend view targetPid data size).2 = x.sys := by
  have hinv := hrun.invariant (FifoInv owner) ⟨howner, hpids, _, hqueue, .init msgs⟩
    fun _ _ _ => FifoInv.step
  obtain ⟨q, hq, hsim⟩ := hinv.queue
  refine ⟨hsim.delivered, ⟨q, hq, ?_, hsim.wf.count_le⟩, ipcSend_failed x.sys⟩
  have hpending : q.count = x.sent.length - x.received.length := by
    rw [← IpcQueue.length_pending, ← List.length_map (f := ofSlot), hsim.pending, List.length_drop]
  have hle := hsim.received_le
  omega

/-- Two messages from process 1, and a receive of process 2 into a buffer that is
    shorter than the first of them. -/
theorem fifo_truncated :
    ∃ x, Run (Step 2)
        ⟨(ProcessSystem.tableOf [1, 2] 0).attachQueue 2 fun _ => ⟨0, 0, fun _ => 0⟩, [], []⟩
        [.op (.ipcSend UInt8.ofNat 2 10 3), .op (.ipcSend UInt8.ofNat 2 40 1), .dispatch 1,
          .op (.ipcRecv 1 1 2)] x ∧
      x.received = [⟨true, 2, ⟨2, some 1, [10, 11]⟩⟩] ∧
      ∃ m, x.sent[0]? = some m ∧ Delivered m ⟨true, 2, ⟨2, some 1, [10, 11]⟩⟩ := by
  have hrun : Run (Step 2)
      ⟨(ProcessSystem.tableOf [1, 2] 0).attachQueue 2 fun _ => ⟨0, 0, fun _ => 0⟩, [], []⟩
      [.op (.ipcSend UInt8.ofNat 2 10 3), .op (.ipcSend UInt8.ofNat 2 40 1), .dispatch 1,
        .op (.ipcRecv 1 1 2)] _ :=
    .cons ⟨by simp [Op.runtime], rfl⟩ <| .cons ⟨by simp [Op.runtime], rfl⟩ <|
      .cons ⟨by simp, rfl⟩ <| .cons ⟨by simp [Op.runtime], rfl⟩ .nil
  have hreceived := (fifo (by decide) (by decide) rfl hrun).1
  exact ⟨_, hrun, by decide, hreceived 0 _ (by decide)⟩

end Channel

end NemoOS
