import Mathlib
import NemoOS.LoadRoom

/-!
# The extent of a loaded file

`elf_load_into` leaves in `info` where the image starts and how large it is. Both are kept
up in one pass over the segments. The start is the lowest address seen so far. The size is
computed from the start as it is at that segment, and the next segment compares its end, an
address, with that size, which is a distance. The size is right when the segment that ends
last comes no earlier than the lowest one and no later segment changes the size again.
-/

namespace NemoOS

open Words Bytes

/-- Where the memory of a segment ends. -/
def ElfPhdr.endAddr (ph : ElfPhdr) : Nat := ph.vaddr + ph.memsz

/-- `base` is the lowest address of the segments, and the last one ends `size` above it. -/
structure Extent (phs : List ElfPhdr) (base size : Nat) : Prop where
  lowest : IsLeast {a | ∃ ph ∈ phs, ph.vaddr = a} base
  highest : IsGreatest {a | ∃ ph ∈ phs, ph.endAddr = a} (base + size)

/-- A segment that ends last stands at or behind one that is lowest, and those behind it end
    at addresses that are no larger than the size of the image. -/
def SizeSettled (phs : List ElfPhdr) : Prop :=
  ∃ before ph after low, phs = before ++ ph :: after ∧ low ∈ before ++ [ph] ∧
    (∀ q ∈ phs, low.vaddr ≤ q.vaddr ∧ q.endAddr ≤ ph.endAddr) ∧
    ∀ q ∈ after, low.vaddr + q.endAddr ≤ ph.endAddr

/-! ## `info` as a fold over the segments -/

/-- The segments up to one are among all of them. -/
theorem mem_split_of_mem {before after : List ElfPhdr} {ph q : ElfPhdr} (hq : q ∈ before ++ [ph]) :
    q ∈ before ++ ph :: after := by
  rw [List.append_cons]
  exact List.mem_append_left after hq

namespace ElfInfo

/-- `info` once these segments are loaded. -/
def ofSegments (entry : Nat) (phs : List ElfPhdr) : ElfInfo :=
  phs.foldl add ⟨entry, 0xFFFFFFFF, 0⟩

theorem ofSegments_concat (entry : Nat) (phs : List ElfPhdr) (ph : ElfPhdr) :
    ofSegments entry (phs ++ [ph]) = (ofSegments entry phs).add ph :=
  List.foldl_concat ..

/-- A segment lowers the base to its address. -/
theorem add_loadAddr (info : ElfInfo) (ph : ElfPhdr) :
    (info.add ph).loadAddr = min info.loadAddr ph.vaddr := by
  rw [add]
  dsimp only
  split <;> omega

theorem add_size_of_le {info : ElfInfo} {ph : ElfPhdr} (hwrap : ph.endAddr < 2 ^ 32)
    (hle : ph.endAddr ≤ info.size) : (info.add ph).size = info.size := by
  rw [ElfPhdr.endAddr] at hwrap hle
  rw [add, u32_of_lt hwrap]
  exact if_neg (Nat.not_lt.mpr hle)

/-- A segment that ends above the size sets it to the distance from the new base. -/
theorem add_size_of_lt {info : ElfInfo} {ph : ElfPhdr} (hwrap : ph.endAddr < 2 ^ 32)
    (hlt : info.size < ph.endAddr) :
    (info.add ph).size + (info.add ph).loadAddr = ph.endAddr := by
  have hbase : (info.add ph).loadAddr ≤ ph.endAddr := by
    rw [add_loadAddr, ElfPhdr.endAddr]
    omega
  have hsize : (info.add ph).size = sub32 (u32 ph.endAddr) (info.add ph).loadAddr := by
    rw [ElfPhdr.endAddr] at hwrap hlt ⊢
    rw [add, u32_of_lt hwrap]
    exact if_pos hlt
  rw [hsize, u32_of_lt hwrap, sub32_of_le hbase hwrap]
  omega

section fold

variable {phs : List ElfPhdr} (hwrap : ∀ ph ∈ phs, ph.endAddr < 2 ^ 32) (entry : Nat)

include hwrap

/-- Segments that end at or below the size leave it. -/
theorem foldl_add_size {info : ElfInfo} (hle : ∀ ph ∈ phs, ph.endAddr ≤ info.size) :
    (phs.foldl add info).size = info.size := by
  induction phs generalizing info with
  | nil => rfl
  | cons ph phs ih =>
      have hsize := add_size_of_le (hwrap ph List.mem_cons_self) (hle ph List.mem_cons_self)
      rw [List.foldl_cons, ih (fun q hq => hwrap q (List.mem_cons_of_mem ph hq)), hsize]
      intro q hq
      rw [hsize]
      exact hle q (List.mem_cons_of_mem ph hq)

/-- The base is the lowest address, whatever the order of the segments. -/
theorem ofSegments_lowest (hne : phs ≠ []) :
    IsLeast {a | ∃ ph ∈ phs, ph.vaddr = a} (ofSegments entry phs).loadAddr := by
  induction phs using List.reverseRecOn with
  | nil => exact absurd rfl hne
  | append_singleton phs ph ih =>
      have hlt := hwrap ph (List.mem_append_right _ (List.mem_singleton_self ph))
      rw [ElfPhdr.endAddr] at hlt
      rw [ofSegments_concat, add_loadAddr]
      by_cases hnil : phs = []
      · subst hnil
        have hinit : (ofSegments entry []).loadAddr = 0xFFFFFFFF := rfl
        rw [hinit, min_eq_right (by omega)]
        refine ⟨⟨ph, List.mem_singleton_self ph, rfl⟩, ?_⟩
        rintro a ⟨q, hq, rfl⟩
        rw [List.mem_singleton.mp hq]
      · obtain ⟨⟨low, hlow, hbase⟩, hleast⟩ :=
          ih (fun q hq => hwrap q (List.mem_append_left _ hq)) hnil
        constructor
        · rcases min_choice (ofSegments entry phs).loadAddr ph.vaddr with hmin | hmin
          · exact ⟨low, List.mem_append_left _ hlow, hbase.trans hmin.symm⟩
          · exact ⟨ph, List.mem_append_right _ (List.mem_singleton_self ph), hmin.symm⟩
        · rintro a ⟨q, hq, rfl⟩
          rcases List.mem_append.mp hq with hold | hnew
          · exact (min_le_left _ _).trans (hleast ⟨q, hold, rfl⟩)
          · rw [List.mem_singleton.mp hnew]
            exact min_le_right _ _

/-- The size is the one of the last segment that changed it, with the base of that time. -/
theorem ofSegments_size :
    ((∀ q ∈ phs, q.endAddr = 0) ∧ (ofSegments entry phs).size = 0) ∨
      ∃ before ph after, phs = before ++ ph :: after ∧
        (ofSegments entry phs).size + (ofSegments entry (before ++ [ph])).loadAddr = ph.endAddr ∧
        ∀ q ∈ after, q.endAddr ≤ (ofSegments entry phs).size := by
  induction phs using List.reverseRecOn with
  | nil => exact .inl ⟨fun q hq => absurd hq List.not_mem_nil, rfl⟩
  | append_singleton phs ph ih =>
      have hlt := hwrap ph (List.mem_append_right _ (List.mem_singleton_self ph))
      by_cases hchange : (ofSegments entry phs).size < ph.endAddr
      · refine .inr ⟨phs, ph, [], rfl, ?_, fun q hq => absurd hq List.not_mem_nil⟩
        rw [ofSegments_concat]
        exact add_size_of_lt hlt hchange
      · have hle := Nat.not_lt.mp hchange
        rw [ofSegments_concat, add_size_of_le hlt hle]
        rcases ih (fun q hq => hwrap q (List.mem_append_left _ hq)) with
          ⟨hzero, hsize⟩ | ⟨before, last, after, rfl, hsize, hafter⟩
        · refine .inl ⟨fun q hq => ?_, hsize⟩
          rcases List.mem_append.mp hq with hold | hnew
          · exact hzero q hold
          · rw [List.mem_singleton.mp hnew]
            exact Nat.le_zero.mp (hsize ▸ hle)
        · refine .inr ⟨before, last, after ++ [ph], ?_, hsize, fun q hq => ?_⟩
          · rw [List.append_assoc, List.cons_append]
          · rcases List.mem_append.mp hq with hold | hnew
            · exact hafter q hold
            · rw [List.mem_singleton.mp hnew]
              exact hle

end fold

/-- Where no segment before it ends later, a segment sets the size to its distance from the
    base, or the size was that already. -/
theorem ofSegments_concat_size {before : List ElfPhdr} {ph low : ElfPhdr}
    (hwrap : ∀ q ∈ before ++ [ph], q.endAddr < 2 ^ 32) (entry : Nat) (hlow : low ∈ before ++ [ph])
    (hall : ∀ q ∈ before ++ [ph], low.vaddr ≤ q.vaddr ∧ q.endAddr ≤ ph.endAddr) :
    (ofSegments entry (before ++ [ph])).size + low.vaddr = ph.endAddr := by
  have hbase : (ofSegments entry (before ++ [ph])).loadAddr = low.vaddr := by
    refine (ofSegments_lowest hwrap entry (List.ne_nil_of_mem hlow)).unique ⟨⟨low, hlow, rfl⟩, ?_⟩
    rintro a ⟨q, hq, rfl⟩
    exact (hall q hq).1
  have hph := hwrap ph (List.mem_append_right _ (List.mem_singleton_self ph))
  have habove := (hall ph (List.mem_append_right _ (List.mem_singleton_self ph))).1
  by_cases hchange : (ofSegments entry before).size < ph.endAddr
  · have hsize := add_size_of_lt hph hchange
    rw [← ofSegments_concat, hbase] at hsize
    exact hsize
  · -- The size came from an end that was no later, so the base was 0 then, and is so now.
    have hle := Nat.not_lt.mp hchange
    rw [ofSegments_concat, add_size_of_le hph hle]
    rcases ofSegments_size (fun q hq => hwrap q (List.mem_append_left _ hq)) entry with
      ⟨-, hsize⟩ | ⟨front, last, rest, rfl, hsize, -⟩
    · rw [ElfPhdr.endAddr] at hle ⊢
      omega
    · have hlast := (hall last (List.mem_append_left _ (List.mem_append_right _
        List.mem_cons_self))).2
      have hfront : ∀ q ∈ front ++ [last], q.endAddr < 2 ^ 32 := fun q hq =>
        hwrap q (List.mem_append_left _ (mem_split_of_mem hq))
      obtain ⟨⟨first, hfirst, hthen⟩, -⟩ := ofSegments_lowest hfront entry
        (List.append_ne_nil_of_right_ne_nil front (List.cons_ne_nil last []))
      have hnow := (hall first (List.mem_append_left _ (mem_split_of_mem hfirst))).1
      omega

/-- The size is right exactly when it is settled by the time the last segment comes. -/
theorem ofSegments_extent_iff {phs : List ElfPhdr} (hwrap : ∀ ph ∈ phs, ph.endAddr < 2 ^ 32)
    (entry : Nat) (hne : phs ≠ []) :
    Extent phs (ofSegments entry phs).loadAddr (ofSegments entry phs).size ↔ SizeSettled phs := by
  have hlowest := ofSegments_lowest hwrap entry hne
  obtain ⟨⟨low, hlow, hbase⟩, hleast⟩ := hlowest
  constructor
  · rintro ⟨-, ⟨top, htop, hend⟩, hgreatest⟩
    rcases ofSegments_size hwrap entry with ⟨hzero, hsize⟩ | ⟨before, ph, after, rfl, hsize, hafter⟩
    · -- No segment has a byte, and all are at address 0.
      obtain ⟨ph, after, rfl⟩ := List.exists_cons_of_ne_nil hne
      have haddr : ∀ q ∈ ph :: after, q.vaddr = 0 := fun q hq =>
        (Nat.add_eq_zero_iff.mp (hzero q hq)).1
      refine ⟨[], ph, after, ph, rfl, List.mem_singleton_self ph, fun q hq => ?_, fun q hq => ?_⟩
      · rw [haddr ph List.mem_cons_self, hzero q hq]
        exact ⟨Nat.zero_le _, Nat.zero_le _⟩
      · rw [haddr ph List.mem_cons_self, hzero q (List.mem_cons_of_mem ph hq)]
        exact Nat.zero_le _
    · have hph : ph ∈ before ++ ph :: after := List.mem_append_right _ List.mem_cons_self
      obtain ⟨⟨first, hfirst, hbefore⟩, -⟩ :=
        ofSegments_lowest (fun q hq => hwrap q (mem_split_of_mem hq)) entry
          (List.append_ne_nil_of_right_ne_nil before (List.cons_ne_nil ph []))
      have hle := hleast ⟨first, mem_split_of_mem hfirst, rfl⟩
      have hlast := hgreatest ⟨ph, hph, rfl⟩
      refine ⟨before, ph, after, first, rfl, hfirst, fun q hq => ⟨?_, ?_⟩, fun q hq => ?_⟩
      · have hq := hleast ⟨q, hq, rfl⟩
        omega
      · have hq := hgreatest ⟨q, hq, rfl⟩
        omega
      · have hq := hafter q hq
        omega
  · rintro ⟨before, ph, after, first, rfl, hfirst, hall, hafter⟩
    have hfirstBase : first.vaddr = (ofSegments entry (before ++ ph :: after)).loadAddr :=
      le_antisymm (hbase ▸ (hall low hlow).1) (hleast ⟨first, mem_split_of_mem hfirst, rfl⟩)
    have hsize := ofSegments_concat_size (fun q hq => hwrap q (mem_split_of_mem hq)) entry hfirst
      fun q hq => hall q (mem_split_of_mem hq)
    have hrest : (ofSegments entry (before ++ ph :: after)).size =
        (ofSegments entry (before ++ [ph])).size := by
      rw [List.append_cons, ofSegments, List.foldl_append]
      apply foldl_add_size
      · exact fun q hq => hwrap q (List.mem_append_right _ (List.mem_cons_of_mem ph hq))
      · intro q hq
        have hq := hafter q hq
        rw [ofSegments] at hsize
        omega
    refine ⟨⟨⟨low, hlow, hbase⟩, hleast⟩, ⟨ph, List.mem_append_right _ List.mem_cons_self, ?_⟩,
      ?_⟩
    · rw [hrest, ← hfirstBase]
      omega
    · rintro a ⟨q, hq, rfl⟩
      have hq := (hall q hq).2
      rw [hrest, ← hfirstBase]
      omega

end ElfInfo

/-! ## A load -/

/-- A pass over the headers that comes to its end has added every segment. -/
theorem Load.loadSegments_info {space active : Nat} {image : Memory} {l : Load}
    {phs : List ElfPhdr} (hok : (l.loadSegments image space active phs).1 = true) :
    (l.loadSegments image space active phs).2.info =
      (phs.filter fun ph => ph.type = PT_LOAD).foldl ElfInfo.add l.info := by
  induction phs generalizing l with
  | nil => rfl
  | cons ph phs ih =>
      by_cases htype : ph.type = PT_LOAD
      · rw [List.filter_cons_of_pos (by simpa using htype), List.foldl_cons]
        have hinfo := congrArg (fun r => r.2.info) (perform_info space active l l.info
          (segmentActions image ph))
        rw [loadSegments, if_neg (not_not_intro htype)] at hok ⊢
        cases hperform : l.perform space active (segmentActions image ph) with
        | mk ok l' =>
            rw [hperform] at hok hinfo
            cases ok with
            | false => exact absurd hok Bool.false_ne_true
            | true =>
                have hrest := ih hok
                dsimp only at hinfo hrest ⊢
                rw [hinfo] at hrest
                rw [if_pos rfl, hinfo, hrest]
      · rw [List.filter_cons_of_neg (by simpa using htype)]
        rw [loadSegments, if_pos htype] at hok ⊢
        exact ih hok

/-- `info` after a load that returns 0. -/
theorem elfLoadInto_info {image : Memory} {space active : Nat} {m : Machine} {info : ElfInfo}
    (hok : (elfLoadInto (some image) space active m info).1 = 0) :
    (elfLoadInto (some image) space active m info).2.info =
      ElfInfo.ofSegments (hdrEntry image) (segments image) := by
  have hvalid := (elfLoadInto_eq_zero_iff.mp hok).1
  rw [elfLoadInto, if_pos hvalid] at hok ⊢
  cases hend : (Load.loadSegments image space active ⟨m, ⟨hdrEntry image, 0xFFFFFFFF, 0⟩, []⟩
      (phdrs image)).1 with
  | true => exact Load.loadSegments_info hend
  | false =>
      dsimp only at hok
      rw [hend, if_neg Bool.false_ne_true] at hok
      exact absurd hok (by decide)

/-- Text and, behind it, data. -/
def textAndData : List ElfPhdr :=
  [⟨PT_LOAD, 0, 0x40000000, 0x10, 0x10, 5⟩, ⟨PT_LOAD, 0, 0x40001000, 8, 0x20, 6⟩]

end NemoOS
