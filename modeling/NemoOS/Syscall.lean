import NemoOS.Ipc
import NemoOS.Vmm

/-!
# System calls

`syscalls/syscall.cpp`: the dispatcher passes the registers of the caller on as they
are. Four of the calls use one of them as a pointer: `2` prints from it, `3` stores
key presses at it, `7` sends from it and `8` receives to it. The addresses they read
and the bytes they store are part of the result; memory is seen through `view`, the
bytes at the addresses of the caller's space.

The only thing that is checked about a pointer is that it is not null. What bounds
an access is the buffer the caller names, whether that buffer is the caller's or not.
-/

namespace NemoOS

open Words Bytes

/-! ## The keyboard buffer -/

/-- `drivers/keyboard_buffer.cpp`. Only `buffer 0 .. buffer 255` exist. -/
structure KeyboardBuffer where
  buffer : Nat → UInt8
  head : Nat
  tail : Nat

def keyboardBufferPop (k : KeyboardBuffer) : Option (UInt8 × KeyboardBuffer) :=
  if k.tail = k.head then none
  else some (k.buffer k.tail, { k with tail := (k.tail + 1) % 256 })

/-! ## The dispatcher -/

/-- What the calls read and change: the processes, the pending keys, the characters
    the terminal has shown and the clock. -/
structure Kernel where
  sys : ProcessSystem
  keyboard : KeyboardBuffer
  output : List UInt8
  timerTicks : Nat
  kernelSpace : Nat

/-- The value in `eax`, and what was read and stored through pointers of the caller. -/
structure SyscallResult where
  ret : Nat
  reads : List Nat
  writes : List (Nat × UInt8)
deriving DecidableEq, Repr

def SyscallResult.value (ret : Nat) : SyscallResult := ⟨ret, [], []⟩

/-- `(unsigned int)i`. -/
def unsigned (i : Int) : Nat := (i % 2 ^ 32).toNat

/-- `(int)n`. -/
def signed (n : Nat) : Int := if n < 2 ^ 31 then n else (n : Int) - 2 ^ 32

namespace Kernel

/-- The loop of call 2 from byte `i`, with `n` bytes to go: the addresses read and the
    characters printed. -/
def printLoop (view : Nat → UInt8) (str i : Nat) : Nat → List Nat × List UInt8
  | 0 => ([], [])
  | n + 1 =>
      let c := view (u32 (str + i))
      if c = 0 then ([u32 (str + i)], [])
      else
        let (reads, chars) := printLoop view str (i + 1) n
        (u32 (str + i) :: reads, c :: chars)

/-- The loop of call 3 with `count` keys stored and `n` to go. -/
def readLoop (buf count : Nat) (k : KeyboardBuffer) : Nat → List (Nat × UInt8) × KeyboardBuffer
  | 0 => ([], k)
  | n + 1 =>
      match keyboardBufferPop k with
      | none => ([], k)
      | some (c, k) =>
          let (writes, k) := readLoop buf (count + 1) k n
          ((u32 (buf + count), c) :: writes, k)

/-- The search of call 5: a dead child of the caller, any or the one with the pid. -/
def findChild (s : ProcessSystem) (me : Nat) (pid : Int) : Option Nat :=
  s.processTable.find? fun child =>
    child ≠ 0 ∧ (s.procs child).parentPid = (s.procs me).pid ∧
      (pid < 0 ∨ signed (s.procs child).pid = pid) ∧ (s.procs child).state = .dead

/-- Call 5. -/
def waitChild (k : Kernel) (pid : Int) : Nat × Kernel :=
  match k.sys.schedulerCurrentProcess with
  | none => (0xFFFFFFFF, k)
  | some me =>
      match findChild k.sys me pid with
      | none => (0xFFFFFFFF, k)
      | some child =>
          ((k.sys.procs child).pid,
            { k with sys := (k.sys.processDestroy k.kernelSpace child).2 })

def syscallDispatch (k : Kernel) (view : Nat → UInt8) (eax ebx ecx edx : Nat) :
    SyscallResult × Kernel :=
  match eax with
  | 1 => (.value k.timerTicks, k)
  | 2 =>
      if ebx = 0 then (.value 0, k)
      else
        let (reads, chars) := printLoop view ebx 0 ecx
        (⟨ecx, reads, []⟩, { k with output := k.output ++ chars })
  | 3 =>
      if ebx = 0 ∨ ecx = 0 then (.value 0, k)
      else
        let (writes, keyboard) := readLoop ebx 0 k.keyboard ecx
        (⟨writes.length, [], writes⟩, { k with keyboard := keyboard })
  | 4 => (.value 0, { k with sys := k.sys.exitCurrent (signed ebx) })
  | 5 =>
      let (ret, k) := k.waitChild (signed ebx)
      (.value ret, k)
  | 6 =>
      let (found, sys) := k.sys.kill ebx
      (.value (if found then 0 else 0xFFFFFFFF), { k with sys := sys })
  | 7 =>
      let (r, sys) := k.sys.ipcSend view ebx ecx edx
      (⟨unsigned r.ret, r.reads, []⟩, { k with sys := sys })
  | 8 =>
      let (r, sys) := k.sys.ipcRecv 0 ebx ecx
      (⟨unsigned r.ret, [], r.bytes.zipIdx.map fun (c, i) => (u32 (ebx + i), c)⟩,
        { k with sys := sys })
  | _ => (.value 0xFFFFFFFF, k)

/-! ## The buffers of a call -/

/-- The addresses of `n` bytes from `p` on. -/
def addresses (p n : Nat) : List Nat := (List.range n).map fun i => u32 (p + i)

/-- The buffer a call reads: its address and its length. -/
def readBuffer (eax ebx ecx edx : Nat) : Nat × Nat :=
  match eax with
  | 2 => (ebx, ecx)
  | 7 => (ecx, edx)
  | _ => (0, 0)

/-- The buffer a call stores to. -/
def writeBuffer (eax ebx ecx : Nat) : Nat × Nat :=
  match eax with
  | 3 => (ebx, ecx)
  | 8 => (ebx, ecx)
  | _ => (0, 0)

/-- The accesses are to the first bytes of the buffer, and to none if its address is
    null. -/
def InBuffer (accesses : List Nat) (buffer : Nat × Nat) : Prop :=
  ∃ n ≤ buffer.2, accesses = addresses buffer.1 n ∧ (buffer.1 = 0 → n = 0)

theorem inBuffer_nil (buffer : Nat × Nat) : InBuffer [] buffer :=
  ⟨0, Nat.zero_le _, rfl, fun _ => rfl⟩

theorem addresses_succ (p i n : Nat) :
    (List.range (n + 1)).map (fun j => u32 (p + (i + j))) =
      u32 (p + i) :: (List.range n).map fun j => u32 (p + (i + 1 + j)) := by
  rw [List.range_succ_eq_map, List.map_cons, List.map_map]
  congr 1
  apply List.map_congr_left
  intro j _
  simp only [Function.comp]
  congr 2
  omega

theorem printLoop_reads (view : Nat → UInt8) (str i n : Nat) :
    ∃ k ≤ n, (printLoop view str i n).1 = (List.range k).map fun j => u32 (str + (i + j)) := by
  induction n generalizing i with
  | zero => exact ⟨0, le_refl 0, rfl⟩
  | succ n ih =>
      rw [printLoop]
      by_cases hend : view (u32 (str + i)) = 0
      · refine ⟨1, by omega, ?_⟩
        rw [if_pos hend, addresses_succ]
        rfl
      · obtain ⟨k, hle, heq⟩ := ih (i + 1)
        refine ⟨k + 1, by omega, ?_⟩
        rw [if_neg hend, addresses_succ, ← heq]

theorem readLoop_writes (buf count : Nat) (k : KeyboardBuffer) (n : Nat) :
    ∃ m ≤ n, (readLoop buf count k n).1.map Prod.fst =
      (List.range m).map fun j => u32 (buf + (count + j)) := by
  induction n generalizing count k with
  | zero => exact ⟨0, le_refl 0, rfl⟩
  | succ n ih =>
      rw [readLoop]
      cases hpop : keyboardBufferPop k with
      | none => exact ⟨0, Nat.zero_le _, rfl⟩
      | some popped =>
          obtain ⟨m, hle, heq⟩ := ih (count + 1) popped.2
          refine ⟨m + 1, by omega, ?_⟩
          rw [addresses_succ, ← heq]
          rfl

theorem stored_addresses (p : Nat) (bytes : List UInt8) :
    (bytes.zipIdx.map fun (c, i) => (u32 (p + i), c)).map Prod.fst = addresses p bytes.length := by
  have hindex : bytes.zipIdx.map Prod.snd = List.range bytes.length := by
    rw [List.zipIdx_map_snd, List.range_eq_range']
  rw [addresses, ← hindex, List.map_map, List.map_map]
  rfl

/-- Call by call, what is read is in the buffer that is read. -/
theorem reads_inBuffer (k : Kernel) (view : Nat → UInt8) (eax ebx ecx edx : Nat) :
    InBuffer (k.syscallDispatch view eax ebx ecx edx).1.reads (readBuffer eax ebx ecx edx) := by
  unfold syscallDispatch readBuffer
  split
  · exact inBuffer_nil _
  · split
    · exact inBuffer_nil _
    · next hnull =>
      obtain ⟨n, hle, heq⟩ := printLoop_reads view ebx 0 ecx
      refine ⟨n, hle, ?_, fun h => absurd h hnull⟩
      simpa [addresses] using heq
  · split
    · exact inBuffer_nil _
    · exact inBuffer_nil _
  · exact inBuffer_nil _
  · exact inBuffer_nil _
  · exact inBuffer_nil _
  · rcases k.sys.ipcSend_cases view ebx ecx edx with
      hfail | ⟨p, q, -, -, -, -, hnull, -, -, hsend⟩
    · rw [hfail]
      exact inBuffer_nil _
    · rw [hsend]
      exact ⟨edx, le_refl _, rfl, fun h => absurd h hnull⟩
  · exact inBuffer_nil _
  · exact inBuffer_nil _

/-- Call by call, what is stored is in the buffer that is stored to. -/
theorem writes_inBuffer (k : Kernel) (view : Nat → UInt8) (eax ebx ecx edx : Nat) :
    InBuffer ((k.syscallDispatch view eax ebx ecx edx).1.writes.map Prod.fst)
      (writeBuffer eax ebx ecx) := by
  unfold syscallDispatch writeBuffer
  split
  · exact inBuffer_nil _
  · split
    · exact inBuffer_nil _
    · exact inBuffer_nil _
  · split
    · exact inBuffer_nil _
    · next hnull =>
      obtain ⟨n, hle, heq⟩ := readLoop_writes ebx 0 k.keyboard ecx
      refine ⟨n, hle, ?_, fun h => absurd (Or.inl h) hnull⟩
      simpa [addresses] using heq
  · exact inBuffer_nil _
  · exact inBuffer_nil _
  · exact inBuffer_nil _
  · exact inBuffer_nil _
  · rcases k.sys.ipcRecv_cases 0 ebx ecx with
      hfail | ⟨me, q, -, hnull, -, -, ⟨-, hrecv⟩ | ⟨-, hrecv⟩⟩
    · rw [hfail]
      exact inBuffer_nil _
    · rw [hrecv]
      exact inBuffer_nil _
    · rw [hrecv]
      refine ⟨_, ?_, stored_addresses ebx _, fun h => absurd h hnull⟩
      rw [IpcMsg.length_bytes]
      exact Nat.min_le_right _ _
  · exact inBuffer_nil _

theorem InBuffer.of_buffer {accesses : List Nat} {buffer : Nat × Nat} {ok : Nat → Bool}
    (h : InBuffer accesses buffer) (hok : ∀ i < buffer.2, ok (u32 (buffer.1 + i)) = true) :
    ∀ a ∈ accesses, ok a = true := by
  obtain ⟨n, hle, rfl, -⟩ := h
  intro a ha
  obtain ⟨i, hi, rfl⟩ := List.mem_map.mp ha
  exact hok i (Nat.lt_of_lt_of_le (List.mem_range.mp hi) hle)

/-- **System calls stay in the buffers the caller names.** Whatever the registers are,
    calls 2 and 7 read only the first bytes of the buffer the caller passes to be
    read, calls 3 and 8 store only to the first bytes of the buffer the caller passes
    to be filled, no call accesses anything else through the registers, and nothing
    is accessed through a null pointer. Hence the accesses are to addresses the space
    maps for user mode whenever the named buffer is. -/
theorem syscallDispatch_in_buffers (k : Kernel) (m : Memory) (space eax ebx ecx edx : Nat) :
    InBuffer (k.syscallDispatch (viewOf m space) eax ebx ecx edx).1.reads
        (readBuffer eax ebx ecx edx) ∧
      InBuffer ((k.syscallDispatch (viewOf m space) eax ebx ecx edx).1.writes.map Prod.fst)
        (writeBuffer eax ebx ecx) ∧
      ((∀ i < (readBuffer eax ebx ecx edx).2,
          userMapped m space (u32 ((readBuffer eax ebx ecx edx).1 + i)) = true) →
        ∀ a ∈ (k.syscallDispatch (viewOf m space) eax ebx ecx edx).1.reads,
          userMapped m space a = true) ∧
      ((∀ i < (writeBuffer eax ebx ecx).2,
          userWritable m space (u32 ((writeBuffer eax ebx ecx).1 + i)) = true) →
        ∀ a ∈ (k.syscallDispatch (viewOf m space) eax ebx ecx edx).1.writes.map Prod.fst,
          userWritable m space a = true) := by
  have hreads := k.reads_inBuffer (viewOf m space) eax ebx ecx edx
  have hwrites := k.writes_inBuffer (viewOf m space) eax ebx ecx edx
  exact ⟨hreads, hwrites, fun h => hreads.of_buffer h, fun h => hwrites.of_buffer h⟩

/-- A kernel with one process, which is in ring 3 and has the space at `0x1000`, and
    with one key pending. -/
def oneUser : Kernel where
  sys :=
    { procs := fun _ => ProcessSystem.userProcess 1 0x1000 0x5000 0x40000000 0x40002000
      processTable := [1]
      currentProcess := 0
      nextPid := 2
      tssEsp0 := 0x7000
      cr3 := 0x1000 }
  keyboard := ⟨fun _ => 65, 1, 0⟩
  output := []
  timerTicks := 0
  kernelSpace := 0x1000

/-- `identityMemory` with a table at `0x3000` that maps the page at `0x40000000` to
    `0x4000`, writable and for user mode. -/
def userMemory : Memory := fun x =>
  if 0x1400 ≤ x ∧ x < 0x1404 then byteOf 0x3007 (x % 4)
  else if 0x3000 ≤ x ∧ x < 0x3004 then byteOf 0x4007 (x % 4)
  else identityMemory x

/-- A space that maps the page at `0x40000000` for user mode: a key is stored there. -/
theorem syscallDispatch_in_buffers_read :
    (oneUser.syscallDispatch (viewOf userMemory 0x1000) 3 0x40000000 4 0).1.writes =
        [(0x40000000, 65)] ∧
      ∀ a ∈ (oneUser.syscallDispatch (viewOf userMemory 0x1000) 3 0x40000000 4 0).1.writes.map
        Prod.fst, userWritable userMemory 0x1000 a = true :=
  ⟨by decide, (oneUser.syscallDispatch_in_buffers userMemory 0x1000 3 0x40000000 4 0).2.2.2
    (by decide)⟩

/-- The key is stored at `0x200000`, which only the kernel may access. -/
theorem syscallDispatch_writes_kernel_memory :
    ¬ ∀ (k : Kernel) (m : Memory) (p eax ebx ecx edx : Nat),
      k.sys.schedulerCurrentProcess = some p → (k.sys.procs p).ring = .user →
      (∀ a ∈ (k.syscallDispatch (viewOf m (k.sys.procs p).addressSpace) eax ebx ecx
          edx).1.writes.map Prod.fst, userWritable m (k.sys.procs p).addressSpace a = true) ∧
        ∀ a ∈ (k.syscallDispatch (viewOf m (k.sys.procs p).addressSpace) eax ebx ecx edx).1.reads,
          userMapped m (k.sys.procs p).addressSpace a = true := by
  intro h
  have hwrites := (h oneUser identityMemory 1 3 0x200000 1 0 rfl rfl).1 0x200000 (by decide)
  revert hwrites
  decide

end Kernel

end NemoOS
