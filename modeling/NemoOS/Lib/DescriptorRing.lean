import Mathlib
import NemoOS.Lib.RingBuffer

/-!
# Rings of descriptors

A producer and a consumer go round the same `n` descriptors, each with a pointer of its own and
with no count between them: a descriptor itself says whether it holds something. The producer
does not look at that before it writes, the consumer waits at a descriptor that is empty.

`Holds lag` is a ring whose contents are a queue and whose producer is `lag` descriptors ahead of
its end. With no lag it is a queue as long as the producer does not get round. One descriptor too
many leaves a lag of one, which taking does not change; with a lag, `Waiting` is the ring in which
the consumer stands at an empty descriptor before those that are full.
-/

namespace Descriptors

variable {α : Type*} {n : Nat}

/-- Different offsets within one revolution name different descriptors. -/
theorem offset_ne {start i j : Nat} (hij : i ≠ j) (hi : i < n) (hj : j < n) :
    (start + i) % n ≠ (start + j) % n := by
  obtain hlt | hgt := Nat.lt_or_gt_of_ne hij
  · exact Circular.mod_add_ne hlt hj
  · exact (Circular.mod_add_ne hgt hi).symm

theorem offset_ne_start {start i : Nat} (hstart : start < n) (hi : i + 1 < n) :
    (start + (i + 1)) % n ≠ start := by
  intro heq
  refine offset_ne (Nat.succ_ne_zero i) hi (Nat.zero_lt_of_lt hi) (heq.trans ?_)
  rw [Nat.add_zero, Nat.mod_eq_of_lt hstart]

theorem getElem?_concat_of_ne {l : List α} {i : Nat} (h : i ≠ l.length) (x : α) :
    (l ++ [x])[i]? = l[i]? := by
  obtain hlt | hgt := Nat.lt_or_gt_of_ne h
  · exact List.getElem?_append_left hlt
  · rw [List.getElem?_eq_none (by simpa using hgt), List.getElem?_eq_none hgt.le]

structure DescriptorRing (α : Type*) where
  slots : Nat → Option α
  producer : Nat
  consumer : Nat

namespace DescriptorRing

def put (n : Nat) (r : DescriptorRing α) (x : α) : DescriptorRing α :=
  { r with
    slots := Function.update r.slots r.producer (some x), producer := (r.producer + 1) % n }

def take (n : Nat) (r : DescriptorRing α) : Option α × DescriptorRing α :=
  match r.slots r.consumer with
  | none => (none, r)
  | some x =>
      (some x, { r with
        slots := Function.update r.slots r.consumer none, consumer := (r.consumer + 1) % n })

theorem take_of_none {r : DescriptorRing α} (h : r.slots r.consumer = none) :
    r.take n = (none, r) := by
  simp [take, h]

theorem take_of_some {r : DescriptorRing α} {x : α} (h : r.slots r.consumer = some x) :
    r.take n = (some x, { r with
      slots := Function.update r.slots r.consumer none, consumer := (r.consumer + 1) % n }) := by
  simp [take, h]

/-- The contents from the consumer on are the queue, and the producer is `lag` past its end. -/
structure Holds (n lag : Nat) (r : DescriptorRing α) (queue : List α) : Prop where
  consumer_lt : r.consumer < n
  length_le : queue.length ≤ n
  producer_eq : r.producer = (r.consumer + queue.length + lag) % n
  slots_eq : ∀ i < n, r.slots ((r.consumer + i) % n) = queue[i]?

theorem Holds.slot_consumer {lag : Nat} {r : DescriptorRing α} {queue : List α}
    (h : r.Holds n lag queue) : r.slots r.consumer = queue.head? := by
  have hpos : 0 < n := Nat.zero_lt_of_lt h.consumer_lt
  have hslot := h.slots_eq 0 hpos
  rwa [Nat.add_zero, Nat.mod_eq_of_lt h.consumer_lt, ← List.head?_eq_getElem?] at hslot

/-- An empty descriptor at the producer means that there is room. -/
theorem Holds.length_lt {r : DescriptorRing α} {queue : List α} (h : r.Holds n 0 queue)
    (hfree : r.slots r.producer = none) : queue.length < n := by
  refine lt_of_le_of_ne h.length_le fun hfull => ?_
  have hat : r.producer = r.consumer := by
    rw [h.producer_eq, hfull, Nat.add_zero, Nat.add_mod_right, Nat.mod_eq_of_lt h.consumer_lt]
  rw [hat, h.slot_consumer, List.head?_eq_none_iff] at hfree
  have := h.consumer_lt
  simp [hfree] at hfull
  omega

/-- With room and no lag the ring is a queue. -/
theorem Holds.put {r : DescriptorRing α} {queue : List α} (h : r.Holds n 0 queue)
    (hroom : queue.length < n) (x : α) : (r.put n x).Holds n 0 (queue ++ [x]) where
  consumer_lt := h.consumer_lt
  length_le := by simpa using hroom
  producer_eq := by
    simp [DescriptorRing.put, h.producer_eq, Nat.add_assoc]
  slots_eq := by
    intro i hi
    have hat : r.producer = (r.consumer + queue.length) % n := h.producer_eq
    by_cases hend : i = queue.length
    · simp [DescriptorRing.put, hend, hat]
    · have hne : (r.consumer + i) % n ≠ r.producer := hat ▸ offset_ne hend hi hroom
      rw [getElem?_concat_of_ne hend, ← h.slots_eq i hi]
      simp [DescriptorRing.put, Function.update_of_ne hne]

/-- The first of the queue is taken, whatever the lag. -/
theorem Holds.take_cons {lag : Nat} {r : DescriptorRing α} {x : α} {queue : List α}
    (h : r.Holds n lag (x :: queue)) :
    (r.take n).1 = some x ∧ (r.take n).2.Holds n lag queue := by
  have hslot : r.slots r.consumer = some x := by simpa using h.slot_consumer
  have hpos : 0 < n := Nat.zero_lt_of_lt h.consumer_lt
  have hlen := h.length_le
  rw [List.length_cons] at hlen
  rw [take_of_some hslot]
  refine ⟨rfl, Nat.mod_lt _ hpos, Nat.le_of_succ_le hlen, ?_, ?_⟩
  · have hproducer := h.producer_eq
    rw [List.length_cons] at hproducer
    simp only [hproducer]
    rw [Nat.add_assoc ((r.consumer + 1) % n), Nat.mod_add_mod]
    congr 1
    omega
  · intro i hi
    have hshift : ((r.consumer + 1) % n + i) % n = (r.consumer + (i + 1)) % n := by
      rw [Nat.mod_add_mod, Nat.add_assoc, Nat.add_comm 1 i]
    simp only [hshift]
    by_cases hlast : i + 1 = n
    · have hat : (r.consumer + (i + 1)) % n = r.consumer := by
        rw [hlast, Nat.add_mod_right, Nat.mod_eq_of_lt h.consumer_lt]
      rw [hat, Function.update_self, List.getElem?_eq_none (by omega)]
    · have hne : (r.consumer + (i + 1)) % n ≠ r.consumer :=
        offset_ne_start h.consumer_lt (by omega)
      rw [Function.update_of_ne hne, h.slots_eq (i + 1) (by omega), List.getElem?_cons_succ]

theorem Holds.take_nil {lag : Nat} {r : DescriptorRing α} (h : r.Holds n lag []) :
    r.take n = (none, r) := take_of_none (by simpa using h.slot_consumer)

/-- One too many replaces the first of the queue and puts the producer ahead. -/
theorem Holds.put_full {r : DescriptorRing α} {x : α} {queue : List α}
    (h : r.Holds n 0 (x :: queue)) (hfull : (x :: queue).length = n) (y : α) :
    (r.put n y).Holds n 1 (y :: queue) := by
  have hat : r.producer = r.consumer := by
    rw [h.producer_eq, hfull, Nat.add_zero, Nat.add_mod_right, Nat.mod_eq_of_lt h.consumer_lt]
  have hlen : (y :: queue).length = n := by simpa using hfull
  refine ⟨h.consumer_lt, hlen.le, ?_, ?_⟩
  · rw [hlen, Nat.add_right_comm, Nat.add_mod_right]
    simp [DescriptorRing.put, hat]
  · intro i hi
    simp only [DescriptorRing.put, hat]
    cases i with
    | zero => simp [Nat.mod_eq_of_lt h.consumer_lt]
    | succ i =>
        rw [Function.update_of_ne (offset_ne_start h.consumer_lt hi), h.slots_eq (i + 1) hi,
          List.getElem?_cons_succ, List.getElem?_cons_succ]

/-- The consumer stands at an empty descriptor, right before those that are full. -/
structure Waiting (n : Nat) (r : DescriptorRing α) (later : List α) : Prop where
  consumer_lt : r.consumer < n
  length_lt : later.length < n
  producer_eq : r.producer = (r.consumer + (later.length + 1)) % n
  here : r.slots r.consumer = none
  slots_eq : ∀ i, i + 1 < n → r.slots ((r.consumer + (i + 1)) % n) = later[i]?

theorem Holds.waiting {r : DescriptorRing α} (h : r.Holds n 1 []) : r.Waiting n [] where
  consumer_lt := h.consumer_lt
  length_lt := Nat.zero_lt_of_lt h.consumer_lt
  producer_eq := by simpa using h.producer_eq
  here := by simpa using h.slot_consumer
  slots_eq := fun i hi => by simpa using h.slots_eq (i + 1) hi

theorem Waiting.take {r : DescriptorRing α} {later : List α} (h : r.Waiting n later) :
    r.take n = (none, r) := take_of_none h.here

theorem Waiting.put {r : DescriptorRing α} {later : List α} (h : r.Waiting n later)
    (hroom : later.length + 1 < n) (x : α) : (r.put n x).Waiting n (later ++ [x]) := by
  have hne : r.consumer ≠ r.producer :=
    h.producer_eq ▸ (offset_ne_start h.consumer_lt hroom).symm
  refine ⟨h.consumer_lt, by simpa using hroom, ?_, ?_, ?_⟩
  · simp [DescriptorRing.put, h.producer_eq, Nat.add_assoc]
  · simpa [DescriptorRing.put, Function.update_of_ne hne] using h.here
  · intro i hi
    by_cases hend : i = later.length
    · simp [DescriptorRing.put, hend, h.producer_eq]
    · have hne' : (r.consumer + (i + 1)) % n ≠ r.producer :=
        h.producer_eq ▸ offset_ne (fun heq => hend (Nat.succ.inj heq)) hi hroom
      rw [getElem?_concat_of_ne hend, ← h.slots_eq i hi]
      simp [DescriptorRing.put, Function.update_of_ne hne']

/-- The last descriptor is the one the consumer waits for: what was put last comes first. -/
theorem Waiting.put_last {r : DescriptorRing α} {later : List α} (h : r.Waiting n later)
    (hlast : later.length + 1 = n) (x : α) : (r.put n x).Holds n 1 (x :: later) := by
  have hat : r.producer = r.consumer := by
    rw [h.producer_eq, hlast, Nat.add_mod_right, Nat.mod_eq_of_lt h.consumer_lt]
  refine ⟨h.consumer_lt, by simp [hlast], ?_, ?_⟩
  · rw [List.length_cons, hlast, Nat.add_right_comm, Nat.add_mod_right]
    simp [DescriptorRing.put, hat]
  · intro i hi
    simp only [DescriptorRing.put, hat]
    cases i with
    | zero => simp [Nat.mod_eq_of_lt h.consumer_lt]
    | succ i =>
        rw [Function.update_of_ne (offset_ne_start h.consumer_lt hi), h.slots_eq i hi,
          List.getElem?_cons_succ]

end DescriptorRing

end Descriptors
