import NemoOS.Lib.BoundedFifo
import NemoOS.Syscall

/-!
# The keyboard buffer

`drivers/keyboard_buffer.cpp`: 256 slots between `tail`, the oldest character, and `head`, the
next free slot. There is no count, so that one slot stays free: a full buffer has 255
characters, and with `head` at `tail` it is empty. `keyboardBuffer_refines` says that under
all sequences of calls it is a queue for 255 characters. That calls do follow one another,
although one comes from an interrupt, is in `NemoOS.KeyboardInterrupts`.
-/

namespace NemoOS

open Circular Transition Fifo

/-! ## The code -/

/-- The static variables. -/
def keyboardBufferInit : KeyboardBuffer := ⟨fun _ => 0, 0, 0⟩

/-- The test for a full buffer. -/
def KeyboardBuffer.full (k : KeyboardBuffer) : Bool := (k.head + 1) % 256 = k.tail

def keyboardBufferPush (k : KeyboardBuffer) (c : UInt8) : KeyboardBuffer :=
  if k.full then k
  else { k with buffer := Function.update k.buffer k.head c, head := (k.head + 1) % 256 }

namespace KeyboardBuffer

/-- A call: what `keyboard_buffer_pop` returns, and the buffer afterwards. -/
def exec (k : KeyboardBuffer) : Fifo.Call UInt8 → Option UInt8 × KeyboardBuffer
  | .push c => (none, keyboardBufferPush k c)
  | .pop =>
      match keyboardBufferPop k with
      | none => (none, k)
      | some (c, k) => (some c, k)

/-- The characters that are not dropped. -/
def accepted (k : KeyboardBuffer) : List (Fifo.Call UInt8) → List UInt8
  | [] => []
  | .push c :: calls => (if k.full then [] else [c]) ++ (k.exec (.push c)).2.accepted calls
  | .pop :: calls => (k.exec .pop).2.accepted calls

/-! ## The buffer as a queue -/

/-- With the number of characters, which the driver does not keep. -/
def toRing (k : KeyboardBuffer) : RingBuffer UInt8 :=
  ⟨k.buffer, k.tail, k.head, (k.head + 256 - k.tail) % 256⟩

/-- The characters that wait, oldest first. -/
def pending (k : KeyboardBuffer) : List UInt8 := k.toRing.contents 256

structure InRange (k : KeyboardBuffer) : Prop where
  head_lt : k.head < 256
  tail_lt : k.tail < 256

variable {k : KeyboardBuffer}

theorem inRange_init : keyboardBufferInit.InRange := ⟨by decide, by decide⟩

theorem pending_init : keyboardBufferInit.pending = [] := rfl

theorem length_pending (k : KeyboardBuffer) :
    k.pending.length = (k.head + 256 - k.tail) % 256 := by
  simp [pending, toRing]

theorem InRange.wf (h : k.InRange) : k.toRing.WF 256 := by
  have hhead := h.head_lt
  have htail := h.tail_lt
  refine ⟨htail, ?_, ?_⟩ <;> simp only [toRing] <;> omega

theorem InRange.full_iff (h : k.InRange) : k.full = true ↔ k.pending.length = 255 := by
  have hhead := h.head_lt
  have htail := h.tail_lt
  simp only [full, decide_eq_true_eq, length_pending]
  omega

theorem InRange.empty_iff (h : k.InRange) : k.tail = k.head ↔ k.pending = [] := by
  have hhead := h.head_lt
  have htail := h.tail_lt
  rw [← List.length_eq_zero_iff, length_pending]
  omega

theorem length_pending_le (k : KeyboardBuffer) : k.pending.length ≤ 255 := by
  rw [length_pending]
  omega

/-! ## Calls -/

/-- A character that is not dropped is behind all others. -/
theorem InRange.push_of_not_full (h : k.InRange) (c : UInt8) (hroom : k.full = false) :
    (keyboardBufferPush k c).InRange ∧ (keyboardBufferPush k c).pending = k.pending ++ [c] := by
  have hhead := h.head_lt
  have htail := h.tail_lt
  have hcount : ((k.head + 1) % 256 + 256 - k.tail) % 256 = (k.head + 256 - k.tail) % 256 + 1 := by
    simp only [full, decide_eq_false_iff_not] at hroom
    omega
  have hring : (keyboardBufferPush k c).toRing = k.toRing.push 256 c := by
    simp [keyboardBufferPush, hroom, toRing, RingBuffer.push, hcount]
  constructor
  · simp only [keyboardBufferPush, hroom]
    exact ⟨Nat.mod_lt _ (by decide), htail⟩
  · have hlength : k.toRing.count < 256 := by simp only [toRing]; omega
    rw [pending, hring]
    exact RingBuffer.contents_push h.wf hlength c

/-- The oldest character is taken. -/
theorem InRange.pop_of_ne (h : k.InRange) (hne : k.tail ≠ k.head) :
    ∃ k', keyboardBufferPop k = some (k.buffer k.tail, k') ∧ k'.InRange ∧
      k.pending = k.buffer k.tail :: k'.pending := by
  have hhead := h.head_lt
  have htail := h.tail_lt
  refine ⟨{ k with tail := (k.tail + 1) % 256 }, by simp [keyboardBufferPop, hne],
    ⟨hhead, Nat.mod_lt _ (by decide)⟩, ?_⟩
  have hcount : (k.head + 256 - (k.tail + 1) % 256) % 256 = (k.head + 256 - k.tail) % 256 - 1 := by
    omega
  have hring : toRing { k with tail := (k.tail + 1) % 256 } = k.toRing.pop 256 := by
    simp [toRing, RingBuffer.pop, hcount]
  have hpos : 0 < k.toRing.count := by simp only [toRing]; omega
  rw [pending, RingBuffer.contents_eq_cons h.wf hpos, pending, hring]
  rfl

/-- The buffer stands for the queue. -/
def Represents (k : KeyboardBuffer) (queue : List UInt8) : Prop := k.InRange ∧ k.pending = queue

theorem represents_init : keyboardBufferInit.Represents [] := ⟨inRange_init, pending_init⟩

/-- Every call has the result that it has on the queue, and the buffer stands for the queue
    afterwards. -/
theorem exec_refines (k : KeyboardBuffer) (queue : List UInt8) (c : Fifo.Call UInt8)
    (h : k.Represents queue) :
    (k.exec c).1 = (Fifo.exec 255 queue c).1 ∧
      (k.exec c).2.Represents (Fifo.exec 255 queue c).2 := by
  obtain ⟨hrange, rfl⟩ := h
  cases c with
  | push c =>
      refine ⟨rfl, ?_⟩
      cases hfull : k.full with
      | true =>
          have hlength := hrange.full_iff.mp hfull
          simpa [exec, Fifo.exec, keyboardBufferPush, hfull, hlength] using ⟨hrange, rfl⟩
      | false =>
          have hlength : k.pending.length < 255 := by
            have hne : k.pending.length ≠ 255 := fun heq => by
              simp [hrange.full_iff.mpr heq] at hfull
            have hle := k.length_pending_le
            omega
          simpa [exec, Fifo.exec, hlength, Represents] using hrange.push_of_not_full c hfull
  | pop =>
      by_cases hempty : k.tail = k.head
      · have hnil := hrange.empty_iff.mp hempty
        simpa [exec, keyboardBufferPop, hempty, hnil, Fifo.exec] using ⟨hrange, hnil⟩
      · obtain ⟨k', hpop, hrange', hpending⟩ := hrange.pop_of_ne hempty
        simpa [exec, hpop, hpending, Fifo.exec] using ⟨hrange', rfl⟩

theorem accepted_eq {queue : List UInt8} (h : k.Represents queue) (calls : List (Fifo.Call UInt8)) :
    k.accepted calls = Fifo.accepted 255 queue calls := by
  induction calls generalizing k queue with
  | nil => rfl
  | cons c calls ih =>
      have hnext := ih (exec_refines k queue c h).2
      cases c with
      | push c =>
          have hroom : k.full = true ↔ ¬ queue.length < 255 := by
            rw [h.1.full_iff, h.2]
            have hle := k.length_pending_le
            rw [h.2] at hle
            omega
          by_cases hlength : queue.length < 255 <;> simp_all [accepted, Fifo.accepted]
      | pop => exact hnext

/-- A push that is not dropped moves `head`. -/
theorem InRange.push_eq_iff (h : k.InRange) (c : UInt8) :
    keyboardBufferPush k c = k ↔ k.pending.length = 255 := by
  rw [← h.full_iff]
  constructor
  · intro heq
    by_contra hroom
    have hhead := congrArg KeyboardBuffer.head heq
    have hlt := h.head_lt
    simp only [keyboardBufferPush, if_neg hroom] at hhead
    omega
  · intro hfull
    simp [keyboardBufferPush, hfull]

theorem InRange.pop_eq_none_iff (h : k.InRange) :
    keyboardBufferPop k = none ↔ k.pending = [] := by
  rw [← h.empty_iff]
  simp [keyboardBufferPop]

/-! ## Sequences of calls -/

/-- The buffer after calls, from the start. -/
def after (calls : List (Fifo.Call UInt8)) : KeyboardBuffer :=
  stateAfter exec keyboardBufferInit calls

/-- What the pops among them have returned. -/
def popped (calls : List (Fifo.Call UInt8)) : List (Option UInt8) :=
  pops exec keyboardBufferInit calls

theorem represents_after (calls : List (Fifo.Call UInt8)) :
    (after calls).Represents (stateAfter (Fifo.exec 255) [] calls) :=
  stateAfter_related Represents (fun k queue c h => (exec_refines k queue c h).2)
    represents_init calls

theorem popped_eq (calls : List (Fifo.Call UInt8)) : popped calls = pops (Fifo.exec 255) [] calls :=
  pops_eq Represents exec_refines represents_init calls

theorem popped_append_pending (calls : List (Fifo.Call UInt8)) :
    (popped calls).reduceOption ++ (after calls).pending = keyboardBufferInit.accepted calls := by
  rw [popped_eq, (represents_after calls).2, accepted_eq represents_init]
  exact Fifo.conserved 255 [] calls

end KeyboardBuffer

/-- **The keyboard buffer is a queue for 255 characters.** After any calls: pops have returned
    what they return on the queue; the characters that came out and those that wait are the
    ones that were accepted, in this order; a push is dropped, with no change at all, exactly
    if 255 characters wait, and a pop fails exactly if none does. -/
theorem keyboardBuffer_refines (calls : List (Fifo.Call UInt8)) :
    KeyboardBuffer.popped calls = pops (Fifo.exec 255) [] calls ∧
      (KeyboardBuffer.popped calls).reduceOption ++ (KeyboardBuffer.after calls).pending =
        keyboardBufferInit.accepted calls ∧
      (∀ c, keyboardBufferPush (KeyboardBuffer.after calls) c = KeyboardBuffer.after calls ↔
        (KeyboardBuffer.after calls).pending.length = 255) ∧
      (keyboardBufferPop (KeyboardBuffer.after calls) = none ↔
        (KeyboardBuffer.after calls).pending = []) := by
  obtain ⟨hrange, -⟩ := KeyboardBuffer.represents_after calls
  exact ⟨KeyboardBuffer.popped_eq calls, KeyboardBuffer.popped_append_pending calls,
    hrange.push_eq_iff, hrange.pop_eq_none_iff⟩

end NemoOS
