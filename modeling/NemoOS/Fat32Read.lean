import NemoOS.Fat32Volume
import NemoOS.Lib.Blocks

/-!
# Reading a file through its cluster chain

`fat32_read` is compared with the concatenation of the clusters in chain order.
`readSources_eq_locate_iff` says when the loop takes its bytes from the places the
bytes of the file are at: it computes the position of a cluster in the file from
its number on the disk, so the clusters it reads have to be where a file that
starts at the beginning of the data area would have them (`InPlace`).

`fat32Read_correct_iff` concludes from it when a read is right. It takes the
contents of the data area as arbitrary, for a wrong byte may by chance have the
right value.
-/

namespace NemoOS

open Loops Blocks

/-! ## When the sources are the places of the file's bytes -/

section InPlace

variable {bpc size : UInt32}

theorem toRead_pos {c offset read : UInt32} (hlt : read < size)
    (hactive : offset < clusterStart bpc c + bpc) :
    0 < (toRead bpc (offset - clusterStart bpc c) (size - read)).toNat := by
  have hlt' := UInt32.lt_iff_toNat_lt.mp hlt
  have hactive' := UInt32.lt_iff_toNat_lt.mp hactive
  have hbpc := bpc.toNat_lt
  have hoffset := offset.toNat_lt
  have hstart := (clusterStart bpc c).toNat_lt
  rw [UInt32.toNat_add] at hactive'
  unfold toRead
  split
  · rw [UInt32.toNat_sub_of_le _ _ (UInt32.le_of_lt hlt)]
    omega
  · rw [UInt32.toNat_sub, UInt32.toNat_sub]
    omega

theorem mem_readSources {chain : List UInt32} {offset read : UInt32} {x : UInt32 × Nat}
    (hx : x ∈ readSources bpc size chain offset read) : x.1 ∈ chain := by
  induction chain generalizing offset read with
  | nil => simp [readSources] at hx
  | cons c chain ih =>
      by_cases hlt : read < size
      · by_cases hactive : offset < clusterStart bpc c + bpc
        · rw [readSources_active hlt hactive] at hx
          rcases List.mem_append.mp hx with hhere | hlater
          · obtain ⟨i, -, rfl⟩ := List.mem_map.mp hhere
            exact List.mem_cons_self
          · exact List.mem_cons_of_mem _ (ih hlater)
        · rw [readSources_skip hlt hactive] at hx
          exact List.mem_cons_of_mem _ (ih hx)
      · simp [readSources_done hlt] at hx

theorem head?_readSources_active {c offset read : UInt32} (chain : List UInt32)
    (hlt : read < size) (hactive : offset < clusterStart bpc c + bpc) :
    (readSources bpc size (c :: chain) offset read).head? =
      some (c, (offset - clusterStart bpc c).toNat) := by
  obtain ⟨n, hn⟩ : ∃ n, (toRead bpc (offset - clusterStart bpc c) (size - read)).toNat = n + 1 :=
    ⟨_, (Nat.succ_pred_eq_of_pos (toRead_pos hlt hactive)).symm⟩
  rw [readSources_active hlt hactive, hn, List.range_succ_eq_map]
  simp

/-- Nothing is read if enough was read before, or if every cluster is skipped. -/
theorem readSources_eq_nil_iff {chain : List UInt32} {offset read : UInt32} :
    readSources bpc size chain offset read = [] ↔
      ¬ read < size ∨ ∀ c ∈ chain, (clusterStart bpc c + bpc).toNat ≤ offset.toNat := by
  by_cases hlt : read < size
  · induction chain with
    | nil => simp [readSources]
    | cons c chain ih =>
        by_cases hactive : offset < clusterStart bpc c + bpc
        · have hhead := head?_readSources_active chain hlt hactive
          have hnot := Nat.not_le.mpr (UInt32.lt_iff_toNat_lt.mp hactive)
          constructor
          · intro hnil
            simp [hnil] at hhead
          · rintro (hdone | hskip)
            · exact absurd hlt hdone
            · exact absurd (hskip c List.mem_cons_self) hnot
        · have hle := UInt32.le_iff_toNat_le.mp (UInt32.not_lt.mp hactive)
          rw [readSources_skip hlt hactive, ih, List.forall_mem_cons]
          simp only [hlt, hle, not_true_eq_false, false_or, true_and]
  · simp [readSources_done hlt, hlt]

/-- The clusters of the chain, the first of them the `k`-th of the file, are where
    the loop looks for `m` bytes from position `o` on, with `limit` bytes wanted:
    those before are skipped, those with the bytes have the number that belongs to
    their place in the file, and if more is wanted than there is, the file ends
    with a cluster and those after it are skipped. -/
@[mk_iff]
structure InPlace (bpc : UInt32) (chain : List UInt32) (k o m limit : Nat) : Prop where
  skipped : ∀ (j : Nat) (c : UInt32), chain[j]? = some c → (k + j + 1) * bpc.toNat ≤ o →
    (clusterStart bpc c + bpc).toNat ≤ o
  placed : ∀ (j : Nat) (c : UInt32), chain[j]? = some c → o < (k + j + 1) * bpc.toNat →
    (k + j) * bpc.toNat < o + m →
    (clusterStart bpc c).toNat = (k + j) * bpc.toNat ∧ (k + j + 1) * bpc.toNat < 2 ^ 32
  ended : limit = m ∨ (o + m) % bpc.toNat = 0 ∧ ∀ (j : Nat) (c : UInt32), chain[j]? = some c →
    o + m ≤ (k + j) * bpc.toNat → (clusterStart bpc c + bpc).toNat ≤ o + m

/-- What holds of the clusters of a chain, each with its number from `k` on. -/
theorem forall_cons_iff {c : UInt32} {chain : List UInt32} {k : Nat} {P : Nat → UInt32 → Prop} :
    (∀ (j : Nat) (c' : UInt32), (c :: chain)[j]? = some c' → P (k + j) c') ↔
      P k c ∧ ∀ (j : Nat) (c' : UInt32), chain[j]? = some c' → P (k + 1 + j) c' := by
  have hshift : ∀ j, k + 1 + j = k + (j + 1) := fun j => by omega
  constructor
  · intro h
    refine ⟨h 0 c rfl, fun j c' hc' => ?_⟩
    rw [hshift]
    exact h (j + 1) c' hc'
  · rintro ⟨hhead, htail⟩ j c' hc'
    cases j with
    | zero =>
        obtain rfl : c = c' := by simpa using hc'
        exact hhead
    | succ j =>
        rw [← hshift]
        exact htail j c' hc'

theorem inPlace_cons {c : UInt32} {chain : List UInt32} {k o m limit : Nat} :
    InPlace bpc (c :: chain) k o m limit ↔
      ((k + 1) * bpc.toNat ≤ o → (clusterStart bpc c + bpc).toNat ≤ o) ∧
      (o < (k + 1) * bpc.toNat → k * bpc.toNat < o + m →
        (clusterStart bpc c).toNat = k * bpc.toNat ∧ (k + 1) * bpc.toNat < 2 ^ 32) ∧
      (limit = m ∨ (o + m ≤ k * bpc.toNat → (clusterStart bpc c + bpc).toNat ≤ o + m)) ∧
      InPlace bpc chain (k + 1) o m limit := by
  rw [inPlace_iff, inPlace_iff,
    forall_cons_iff (P := fun i c =>
      (i + 1) * bpc.toNat ≤ o → (clusterStart bpc c + bpc).toNat ≤ o),
    forall_cons_iff (P := fun i c => o < (i + 1) * bpc.toNat → i * bpc.toNat < o + m →
      (clusterStart bpc c).toNat = i * bpc.toNat ∧ (i + 1) * bpc.toNat < 2 ^ 32),
    forall_cons_iff (P := fun i c =>
      o + m ≤ i * bpc.toNat → (clusterStart bpc c + bpc).toNat ≤ o + m)]
  tauto

theorem inPlace_cons_past {c : UInt32} {chain : List UInt32} {k o m limit : Nat}
    (hstop : (clusterStart bpc c + bpc).toNat ≤ o) (hpast : (k + 1) * bpc.toNat ≤ o) :
    InPlace bpc (c :: chain) k o m limit ↔ InPlace bpc chain (k + 1) o m limit := by
  rw [inPlace_cons]
  constructor
  · rintro ⟨-, -, -, h⟩
    exact h
  · intro h
    refine ⟨fun _ => hstop, fun hcon => ?_, Or.inr fun _ => ?_, h⟩
    · exact absurd hpast (Nat.not_le.mpr hcon)
    · exact hstop.trans (Nat.le_add_right _ _)

theorem inPlace_cons_placed {c : UInt32} {chain : List UInt32} {k o m limit : Nat}
    (hstart : (clusterStart bpc c).toNat = k * bpc.toNat)
    (hstop : (k + 1) * bpc.toNat < 2 ^ 32) (hk : k * bpc.toNat ≤ o)
    (hhere : o < (k + 1) * bpc.toNat) (hm : 0 < m) :
    InPlace bpc (c :: chain) k o m limit ↔ InPlace bpc chain (k + 1) o m limit := by
  rw [inPlace_cons]
  constructor
  · rintro ⟨-, -, -, h⟩
    exact h
  · intro h
    refine ⟨fun hcon => ?_, fun _ _ => ⟨hstart, hstop⟩, Or.inr fun hcon => ?_, h⟩
    · exact absurd hhere (Nat.not_lt.mpr hcon)
    · omega

/-- Only the end of the range matters for the clusters after the one the range
    begins in. -/
theorem InPlace.later {chain : List UInt32} {k o o' m m' limit limit' : Nat}
    (h : InPlace bpc chain k o m limit) (hend : o + m = o' + m')
    (hlimit : limit = m ↔ limit' = m') (ho : o < (k + 1) * bpc.toNat)
    (ho' : o' < (k + 1) * bpc.toNat) : InPlace bpc chain k o' m' limit' := by
  have hnext : ∀ j, (k + 1) * bpc.toNat ≤ (k + j + 1) * bpc.toNat := by
    intro j
    exact Nat.mul_le_mul_right _ (by omega)
  refine ⟨?_, ?_, ?_⟩
  · intro j c hc hle
    exact absurd (hnext j) (by omega)
  · intro j c hc _ hbefore
    exact h.placed j c hc (by have := hnext j; omega) (by omega)
  · rw [← hlimit, ← hend]
    exact h.ended

theorem inPlace_later_iff {chain : List UInt32} {k o o' m m' limit limit' : Nat}
    (hend : o + m = o' + m') (hlimit : limit = m ↔ limit' = m') (ho : o < (k + 1) * bpc.toNat)
    (ho' : o' < (k + 1) * bpc.toNat) :
    InPlace bpc chain k o m limit ↔ InPlace bpc chain k o' m' limit' :=
  ⟨fun h => h.later hend hlimit ho ho', fun h => h.later hend.symm hlimit.symm ho' ho⟩

/-- With nothing left of the file, the remaining clusters have to be skipped. -/
theorem inPlace_zero_iff (hbpc : 0 < bpc.toNat) {chain : List UInt32} {k limit : Nat} :
    InPlace bpc chain k (k * bpc.toNat) 0 limit ↔
      limit = 0 ∨ ∀ c ∈ chain, (clusterStart bpc c + bpc).toNat ≤ k * bpc.toNat := by
  have hfrom : ∀ j, k * bpc.toNat ≤ (k + j) * bpc.toNat := by
    intro j
    exact Nat.mul_le_mul_right _ (Nat.le_add_right _ _)
  constructor
  · intro h
    rcases h.ended with heq | ⟨-, hafter⟩
    · exact Or.inl heq
    · right
      intro c hc
      obtain ⟨j, hj⟩ := List.mem_iff_getElem?.mp hc
      exact hafter j c hj (hfrom j)
  · intro h
    refine ⟨?_, ?_, ?_⟩
    · intro j c _ hle
      have hsucc : (k + j + 1) * bpc.toNat = (k + j) * bpc.toNat + bpc.toNat :=
        Nat.succ_mul _ _
      have hj := hfrom j
      omega
    · intro j c _ _ hbefore
      exact absurd (hfrom j) (Nat.not_le.mpr hbefore)
    · rcases h with heq | hskip
      · exact Or.inl heq
      · refine Or.inr ⟨Nat.mul_mod_left _ _, ?_⟩
        intro j c hc _
        exact hskip c (List.mem_iff_getElem?.mpr ⟨j, hc⟩)

/-- A range that ends inside the cluster before is complete there, if it is all
    that is wanted. -/
theorem inPlace_inside_iff {chain : List UInt32} {k o m limit : Nat}
    (hk : k * bpc.toNat < o + m) (hend : o + m < (k + 1) * bpc.toNat) :
    InPlace bpc chain (k + 1) o m limit ↔ limit = m := by
  have hfrom : ∀ j, (k + 1) * bpc.toNat ≤ (k + 1 + j) * bpc.toNat := by
    intro j
    exact Nat.mul_le_mul_right _ (Nat.le_add_right _ _)
  have hsucc : (k + 1) * bpc.toNat = k * bpc.toNat + bpc.toNat := Nat.succ_mul k bpc.toNat
  constructor
  · intro h
    rcases h.ended with heq | ⟨hmod, -⟩
    · exact heq
    · obtain ⟨r, hr⟩ := Nat.exists_eq_add_of_lt hk
      rw [hr, Nat.add_assoc, Nat.mul_add_mod_of_lt (by omega)] at hmod
      omega
  · intro heq
    refine ⟨?_, ?_, Or.inl heq⟩
    · intro j c _ hle
      have hj := hfrom j
      have hsucc' : (k + 1 + j + 1) * bpc.toNat = (k + 1 + j) * bpc.toNat + bpc.toNat :=
        Nat.succ_mul _ _
      omega
    · intro j c _ _ hbefore
      have hj := hfrom j
      omega

/-- A cluster with the number that belongs to its place is read from where the
    position lies in it. -/
theorem active_of_placed {c offset read : UInt32} {k : Nat}
    (hstart : (clusterStart bpc c).toNat = k * bpc.toNat)
    (hstop : (k + 1) * bpc.toNat < 2 ^ 32) (hle : k * bpc.toNat ≤ offset.toNat)
    (hlt : offset.toNat < (k + 1) * bpc.toNat) (hread : read < size) :
    offset < clusterStart bpc c + bpc ∧
    (offset - clusterStart bpc c).toNat = offset.toNat - k * bpc.toNat ∧
    (toRead bpc (offset - clusterStart bpc c) (size - read)).toNat =
      min ((k + 1) * bpc.toNat - offset.toNat) (size.toNat - read.toNat) := by
  have hsucc : (k + 1) * bpc.toNat = k * bpc.toNat + bpc.toNat := Nat.succ_mul k bpc.toNat
  have hoff : (offset - clusterStart bpc c).toNat = offset.toNat - k * bpc.toNat := by
    rw [UInt32.toNat_sub_of_le, hstart]
    rwa [UInt32.le_iff_toNat_le, hstart]
  have hrest : (bpc - (offset - clusterStart bpc c)).toNat =
      (k + 1) * bpc.toNat - offset.toNat := by
    rw [UInt32.toNat_sub_of_le, hoff]
    · omega
    · rw [UInt32.le_iff_toNat_le, hoff]
      omega
  have hwanted : (size - read).toNat = size.toNat - read.toNat :=
    UInt32.toNat_sub_of_le _ _ (UInt32.le_of_lt hread)
  refine ⟨?_, hoff, ?_⟩
  · rw [UInt32.lt_iff_toNat_lt, UInt32.toNat_add, hstart]
    omega
  · unfold toRead
    split
    · next hmore =>
        have hmore' := UInt32.lt_iff_toNat_lt.mp hmore
        omega
    · next hmore =>
        have hmore' := UInt32.le_iff_toNat_le.mp (UInt32.not_lt.mp hmore)
        omega

/-- Conversely, if the first byte the loop takes from a cluster is the right one,
    the cluster has the number that belongs to its place. -/
theorem placed_of_active {c offset : UInt32} {k : Nat}
    (hactive : offset < clusterStart bpc c + bpc) (hle : k * bpc.toNat ≤ offset.toNat)
    (hoff : (offset - clusterStart bpc c).toNat = offset.toNat - k * bpc.toNat) :
    (clusterStart bpc c).toNat = k * bpc.toNat ∧ (k + 1) * bpc.toNat < 2 ^ 32 := by
  have hsucc : (k + 1) * bpc.toNat = k * bpc.toNat + bpc.toNat := Nat.succ_mul k bpc.toNat
  have hbpc := bpc.toNat_lt
  have hoffset := offset.toNat_lt
  have hbound := (clusterStart bpc c).toNat_lt
  rw [UInt32.toNat_sub] at hoff
  have hstart : (clusterStart bpc c).toNat = k * bpc.toNat := by omega
  refine ⟨hstart, ?_⟩
  rw [UInt32.lt_iff_toNat_lt, UInt32.toNat_add, hstart] at hactive
  omega

/-- The bytes taken from one cluster, as `locate` writes them. -/
theorem map_source_eq {offset start : UInt32} {c : UInt32} {n q : Nat}
    (hoff : (offset - start).toNat = q) (hbound : q + n ≤ 2 ^ 32) :
    (List.range n).map (fun i => (c, (offset - start + UInt32.ofNat i).toNat)) =
      (List.range n).map fun i => (c, q + i) := by
  refine List.map_congr_left fun i hi => ?_
  have hi' := List.mem_range.mp hi
  rw [UInt32.toNat_add, UInt32.toNat_ofNat', hoff]
  congr 1
  omega

/-- One round on a cluster in place. -/
theorem readSources_placed {c offset read : UInt32} (chain : List UInt32) {k : Nat}
    (hstart : (clusterStart bpc c).toNat = k * bpc.toNat)
    (hstop : (k + 1) * bpc.toNat < 2 ^ 32) (hle : k * bpc.toNat ≤ offset.toNat)
    (hlt : offset.toNat < (k + 1) * bpc.toNat) (hread : read < size) :
    let n := min ((k + 1) * bpc.toNat - offset.toNat) (size.toNat - read.toNat)
    ∃ offset' read' : UInt32, offset'.toNat = offset.toNat + n ∧ read'.toNat = read.toNat + n ∧
      readSources bpc size (c :: chain) offset read =
        (List.range n).map (fun i => (c, offset.toNat - k * bpc.toNat + i)) ++
          readSources bpc size chain offset' read' := by
  obtain ⟨hactive, hoff, hn⟩ := active_of_placed hstart hstop hle hlt hread
  have hsize := size.toNat_lt
  refine ⟨offset + toRead bpc (offset - clusterStart bpc c) (size - read),
    read + toRead bpc (offset - clusterStart bpc c) (size - read), ?_, ?_, ?_⟩
  · rw [UInt32.toNat_add, hn]
    omega
  · rw [(toNat_add_toRead hread bpc _).1, hn]
  · rw [readSources_active hread hactive, hn, map_source_eq hoff (by omega)]

/-- A range that ends inside the cluster is read if it is all that is wanted. -/
theorem append_readSources_eq_iff {offset' read read' : UInt32} {chain : List UInt32}
    {f : Nat → UInt32 × Nat} {room m : Nat} (hm : m < room) (hlimit : m ≤ size.toNat - read.toNat)
    (hread' : read'.toNat = read.toNat + min room (size.toNat - read.toNat)) :
    (List.range (min room (size.toNat - read.toNat))).map f ++
        readSources bpc size chain offset' read' = (List.range m).map f ↔
      size.toNat - read.toNat = m := by
  constructor
  · intro heq
    have hlen := congrArg List.length heq
    rw [List.length_append, List.length_map, List.length_map, List.length_range,
      List.length_range] at hlen
    omega
  · intro heq
    have hall : min room (size.toNat - read.toNat) = m := by omega
    rw [hall] at hread'
    have hdone : ¬ read' < size := by
      rw [UInt32.lt_iff_toNat_lt]
      omega
    rw [hall, readSources_done hdone, List.append_nil]

/-- If the first byte taken is the right one, it is from a cluster in place. -/
theorem placed_of_head? {c offset read : UInt32} {chain : List UInt32} {k : Nat}
    (hfresh : c ∉ chain) (hlt : read < size) (hk : k * bpc.toNat ≤ offset.toNat)
    (hhead : (readSources bpc size (c :: chain) offset read).head? =
      some (c, offset.toNat - k * bpc.toNat)) :
    (clusterStart bpc c).toNat = k * bpc.toNat ∧ (k + 1) * bpc.toNat < 2 ^ 32 := by
  by_cases hactive : offset < clusterStart bpc c + bpc
  · rw [head?_readSources_active chain hlt hactive] at hhead
    exact placed_of_active hactive hk (Prod.mk.inj (Option.some.inj hhead)).2
  · rw [readSources_skip hlt hactive] at hhead
    exact absurd (mem_readSources (List.mem_of_mem_head? hhead)) hfresh

/-- The loop takes the right bytes of these clusters, of which the first is the `k`th of the
    file, if and only if they are in place. -/
def TakesRight (bpc size : UInt32) (chain : List UInt32) (k m : Nat) (offset read : UInt32) : Prop :=
  readSources bpc size chain offset read =
      locate bpc.toNat chain (offset.toNat - k * bpc.toNat) m ↔
    InPlace bpc chain k offset.toNat m (size.toNat - read.toNat)

section cons

variable {c : UInt32} {chain : List UInt32} {k m : Nat} {offset read : UInt32}

/-- The range begins behind the cluster, which has to be skipped. -/
theorem takesRight_past (hfresh : c ∉ chain) (hlt : read < size)
    (hpast : (k + 1) * bpc.toNat ≤ offset.toNat)
    (htail : TakesRight bpc size chain (k + 1) m offset read) :
    TakesRight bpc size (c :: chain) k m offset read := by
  have hsucc : (k + 1) * bpc.toNat = k * bpc.toNat + bpc.toNat := Nat.succ_mul k bpc.toNat
  have hrel : offset.toNat - k * bpc.toNat - bpc.toNat = offset.toNat - (k + 1) * bpc.toNat := by
    omega
  rw [TakesRight, locate_past (by omega), hrel]
  by_cases hactive : offset < clusterStart bpc c + bpc
  · constructor
    · intro heq
      have hhead := head?_readSources_active chain hlt hactive
      rw [heq] at hhead
      exact absurd (mem_locate (List.mem_of_mem_head? hhead)).1 hfresh
    · intro h
      have hactive' := UInt32.lt_iff_toNat_lt.mp hactive
      exact absurd (h.skipped 0 c rfl hpast) (Nat.not_le.mpr hactive')
  · have hstop := UInt32.le_iff_toNat_le.mp (UInt32.not_lt.mp hactive)
    rw [TakesRight] at htail
    rw [readSources_skip hlt hactive, htail, inPlace_cons_past hstop hpast]

/-- The range begins in the cluster, which is in place. -/
theorem takesRight_placed (hbpc : 0 < bpc.toNat)
    (hstart : (clusterStart bpc c).toNat = k * bpc.toNat) (hstop : (k + 1) * bpc.toNat < 2 ^ 32)
    (hk : k * bpc.toNat ≤ offset.toNat) (hhere : offset.toNat < (k + 1) * bpc.toNat)
    (hlt : read < size) (hm : 0 < m) (hlimit : m ≤ size.toNat - read.toNat)
    (htail : ∀ m' offset' read', offset'.toNat = (k + 1) * bpc.toNat → 0 < m' →
      offset'.toNat + m' = offset.toNat + m → m' ≤ size.toNat - read'.toNat →
      TakesRight bpc size chain (k + 1) m' offset' read') :
    TakesRight bpc size (c :: chain) k m offset read := by
  have hsucc : (k + 1) * bpc.toNat = k * bpc.toNat + bpc.toNat := Nat.succ_mul k bpc.toNat
  obtain ⟨offset', read', hoffset', hread', hsources⟩ :=
    readSources_placed chain hstart hstop hk hhere hlt
  rw [TakesRight, locate_here (by omega), hsources, inPlace_cons_placed hstart hstop hk hhere hm]
  by_cases hwhole : (k + 1) * bpc.toNat - offset.toNat ≤ m
  · -- the rest of the cluster is read, and the loop goes on at the next one
    have hn : min ((k + 1) * bpc.toNat - offset.toNat) (size.toNat - read.toNat) =
        (k + 1) * bpc.toNat - offset.toNat := by omega
    have hn' : min (bpc.toNat - (offset.toNat - k * bpc.toNat)) m =
        (k + 1) * bpc.toNat - offset.toNat := by omega
    rw [hn, hn', List.append_right_inj]
    rw [hn] at hoffset' hread'
    have hat : offset'.toNat = (k + 1) * bpc.toNat := by omega
    have hnext : (k + 1) * bpc.toNat < (k + 1 + 1) * bpc.toNat :=
      Nat.mul_lt_mul_of_pos_right (Nat.lt_succ_self _) hbpc
    have hlater : InPlace bpc chain (k + 1) offset'.toNat
        (m - ((k + 1) * bpc.toNat - offset.toNat)) (size.toNat - read'.toNat) ↔
        InPlace bpc chain (k + 1) offset.toNat m (size.toNat - read.toNat) :=
      inPlace_later_iff (by omega) (by omega) (by omega) (by omega)
    rw [← hlater]
    by_cases hexact : m = (k + 1) * bpc.toNat - offset.toNat
    · have hzero : m - ((k + 1) * bpc.toNat - offset.toNat) = 0 := by omega
      have hdone : ¬ read' < size ↔ size.toNat - read'.toNat = 0 := by
        rw [UInt32.lt_iff_toNat_lt]
        omega
      rw [hzero, locate_zero, readSources_eq_nil_iff, hat, inPlace_zero_iff hbpc, hdone]
    · have hrest := htail (m - ((k + 1) * bpc.toNat - offset.toNat)) offset' read' hat (by omega)
        (by omega) (by omega)
      rw [TakesRight, hat, Nat.sub_self] at hrest
      rw [hat]
      exact hrest
  · -- the range ends in this cluster
    have hn : min (bpc.toNat - (offset.toNat - k * bpc.toNat)) m = m := by omega
    rw [hn, Nat.sub_self, locate_zero, List.append_nil, inPlace_inside_iff (by omega) (by omega)]
    exact append_readSources_eq_iff (Nat.lt_of_not_le hwhole) hlimit hread'

/-- Neither side holds for a cluster out of place. -/
theorem takesRight_displaced (hfresh : c ∉ chain) (hlt : read < size)
    (hk : k * bpc.toNat ≤ offset.toNat) (hhere : offset.toNat < (k + 1) * bpc.toNat) (hm : 0 < m)
    (hplaced : ¬ ((clusterStart bpc c).toNat = k * bpc.toNat ∧ (k + 1) * bpc.toNat < 2 ^ 32)) :
    TakesRight bpc size (c :: chain) k m offset read := by
  have hsucc : (k + 1) * bpc.toNat = k * bpc.toNat + bpc.toNat := Nat.succ_mul k bpc.toNat
  rw [TakesRight, locate_here (by omega)]
  constructor
  · intro heq
    obtain ⟨n, hn⟩ : ∃ n, min (bpc.toNat - (offset.toNat - k * bpc.toNat)) m = n + 1 :=
      ⟨_, (Nat.succ_pred_eq_of_pos (by omega)).symm⟩
    have hhead : (readSources bpc size (c :: chain) offset read).head? =
        some (c, offset.toNat - k * bpc.toNat) := by
      rw [heq, hn, List.range_succ_eq_map]
      simp
    exact absurd (placed_of_head? hfresh hlt hk hhead) hplaced
  · intro h
    exact absurd ((inPlace_cons.mp h).2.1 hhere (by omega)) hplaced

end cons

/-- **The loop takes the right bytes** if and only if the clusters are in place. -/
theorem readSources_eq_locate_iff (hbpc : 0 < bpc.toNat) {chain : List UInt32}
    (hnodup : chain.Nodup) (k m : Nat) (offset read : UInt32)
    (hk : k * bpc.toNat ≤ offset.toNat) (hm : 0 < m) (hlimit : m ≤ size.toNat - read.toNat)
    (hlong : offset.toNat + m ≤ (k + chain.length) * bpc.toNat)
    (hbound : offset.toNat + m < 2 ^ 32) : TakesRight bpc size chain k m offset read := by
  induction chain generalizing k m offset read with
  | nil =>
      rw [List.length_nil, Nat.add_zero] at hlong
      omega
  | cons c chain ih =>
      have hlt : read < size := UInt32.lt_iff_toNat_lt.mpr (by omega)
      obtain ⟨hfresh, hnodup'⟩ := List.nodup_cons.mp hnodup
      rw [List.length_cons, Nat.add_comm chain.length, ← Nat.add_assoc] at hlong
      by_cases hpast : (k + 1) * bpc.toNat ≤ offset.toNat
      · exact takesRight_past hfresh hlt hpast (ih hnodup' _ _ _ _ hpast hm hlimit hlong hbound)
      · have hhere : offset.toNat < (k + 1) * bpc.toNat := Nat.lt_of_not_le hpast
        by_cases hplaced : (clusterStart bpc c).toNat = k * bpc.toNat ∧
            (k + 1) * bpc.toNat < 2 ^ 32
        · refine takesRight_placed hbpc hplaced.1 hplaced.2 hk hhere hlt hm hlimit ?_
          intro m' offset' read' hat hm' hsum hlimit'
          exact ih hnodup' _ _ _ _ hat.ge hm' hlimit' (by omega) (by omega)
        · exact takesRight_displaced hfresh hlt hk hhere hm hplaced

end InPlace

/-! ## The contents of the data area are arbitrary -/

/-- The two images agree outside the data area, and so have the same FAT. -/
def SameFat (fs : Fat32Fs) (image image' : Nat → UInt8) : Prop :=
  ∀ a < (fs.partitionStart.toNat + fs.dataStart.toNat) * ATA_SECTOR_SIZE, image' a = image a

theorem SameFat.fatEntry_eq {fs : Fat32Fs} {image image' : Nat → UInt8}
    (h : SameFat fs image image') {cluster : UInt32} (hrange : InRange fs cluster) :
    fatEntry image' fs cluster = fatEntry image fs cluster := by
  have hfat := hrange.in_fat
  have hbefore : ∀ i < 4, image' ((fs.partitionStart.toNat + fs.reservedSectors.toNat) *
      ATA_SECTOR_SIZE + 4 * cluster.toNat + i) = image ((fs.partitionStart.toNat +
        fs.reservedSectors.toNat) * ATA_SECTOR_SIZE + 4 * cluster.toNat + i) := by
    intro i hi
    apply h
    rw [ATA_SECTOR_SIZE] at hfat ⊢
    omega
  have h0 := hbefore 0 (by omega)
  rw [fatEntry, fatEntry, wordAt, wordAt, hbefore 1 (by omega), hbefore 2 (by omega),
    hbefore 3 (by omega)]
  rw [Nat.add_zero] at h0
  rw [h0]

theorem FatChain.congr {next next' : UInt32 → UInt32} {cluster : UInt32} {chain : List UInt32}
    (h : FatChain next cluster chain) (heq : ∀ c ∈ chain, next' c = next c) :
    FatChain next' cluster chain := by
  induction h with
  | last heoc => exact .last heoc
  | @more cluster chain _ ih =>
      apply FatChain.more
      rw [heq cluster List.mem_cons_self]
      exact ih fun c hc => heq c (List.mem_cons_of_mem _ hc)

theorem clusterBase_eq {fs : Fat32Fs} (hfs : fs.Supported) (c : UInt32) :
    clusterBase fs c = (fs.partitionStart.toNat + fs.dataStart.toNat) * ATA_SECTOR_SIZE +
      (c.toNat - 2) * fs.bytesPerCluster.toNat := by
  rw [clusterBase, hfs.bytesPerCluster_eq, ← Nat.mul_assoc, ← Nat.add_mul]

/-- Different places in clusters are at different addresses. -/
theorem clusterBase_add_inj {fs : Fat32Fs} (hfs : fs.Supported) {c c' : UInt32} {j j' : Nat}
    (hc : InRange fs c) (hc' : InRange fs c') (hj : j < fs.bytesPerCluster.toNat)
    (hj' : j' < fs.bytesPerCluster.toNat)
    (heq : clusterBase fs c + j = clusterBase fs c' + j') : (c, j) = (c', j') := by
  rw [clusterBase_eq hfs, clusterBase_eq hfs, Nat.add_assoc, Nat.add_assoc,
    Nat.add_left_cancel_iff] at heq
  have hquotient : ∀ q i, i < fs.bytesPerCluster.toNat →
      (q * fs.bytesPerCluster.toNat + i) / fs.bytesPerCluster.toNat = q := by
    intro q i hi
    rw [Nat.add_comm, Nat.add_mul_div_right _ _ (Nat.zero_lt_of_lt hi), Nat.div_eq_of_lt hi,
      Nat.zero_add]
  have hnumber : c.toNat - 2 = c'.toNat - 2 := by
    rw [← hquotient (c.toNat - 2) j hj, heq, hquotient _ j' hj']
  have hj_eq : j = j' := by
    rw [hnumber] at heq
    exact Nat.add_left_cancel heq
  have hc_eq : c = c' := by
    have htwo := hc.two_le
    have htwo' := hc'.two_le
    exact UInt32.toNat_inj.mp (by omega)
  rw [hc_eq, hj_eq]

/-- The image with a data area that is zero but for one address. -/
def markAt (image : Nat → UInt8) (fs : Fat32Fs) (target : Nat) : Nat → UInt8 :=
  fun a =>
    if a < (fs.partitionStart.toNat + fs.dataStart.toNat) * ATA_SECTOR_SIZE then image a
    else if a = target then 1 else 0

theorem clusterByte_markAt (image : Nat → UInt8) {fs : Fat32Fs} (hfs : fs.Supported)
    (target : Nat) (c : UInt32) (j : Nat) :
    clusterByte (markAt image fs target) fs c j =
      if clusterBase fs c + j = target then 1 else 0 := by
  have hdata : ¬ clusterBase fs c + j <
      (fs.partitionStart.toNat + fs.dataStart.toNat) * ATA_SECTOR_SIZE := by
    rw [clusterBase_eq hfs]
    omega
  rw [clusterByte, markAt, if_neg hdata]

/-- Bytes that agree whatever the data area contains come from the same places. -/
theorem eq_of_fetch_eq (image : Nat → UInt8) {fs : Fat32Fs} (hfs : fs.Supported)
    {sources places : List (UInt32 × Nat)} (hsources : ∀ x ∈ sources, InRange fs x.1)
    (hplaces : ∀ x ∈ places, InRange fs x.1 ∧ x.2 < fs.bytesPerCluster.toNat)
    (h : ∀ image' stack, SameFat fs image image' →
      sources.mapIdx (fetch image' fs stack) =
        places.map fun x => clusterByte image' fs x.1 x.2) :
    sources = places := by
  have hlen : sources.length = places.length := by
    have hlen := congrArg List.length (h image (fun _ _ => 0) fun _ _ => rfl)
    simpa using hlen
  refine List.ext_getElem hlen fun p hp hp' => ?_
  obtain ⟨hrange, hj⟩ := hplaces places[p] (List.getElem_mem hp')
  have hrange' := hsources sources[p] (List.getElem_mem hp)
  -- mark the place of the `p`-th byte: only a source there yields the mark
  have hbyte := congrArg (fun l => l[p]?) (h
    (markAt image fs (clusterBase fs places[p].1 + places[p].2)) (fun _ _ => 0)
    fun a ha => if_pos ha)
  simp only [List.getElem?_mapIdx, List.getElem?_map, List.getElem?_eq_getElem hp,
    List.getElem?_eq_getElem hp', Option.map_some, Option.some.injEq, fetch,
    clusterByte_markAt image hfs, if_true] at hbyte
  split at hbyte
  · next hj' =>
      split at hbyte
      · next heq => exact clusterBase_add_inj hfs hrange' hrange hj' hj heq
      · exact absurd hbyte (by decide)
  · exact absurd hbyte (by decide)

/-! ## Reading a file -/

/-- The number of bytes a read of the file should yield. -/
def readCount (node : Fat32Node) (offset size : UInt32) : Nat :=
  min size.toNat (node.size.toNat - offset.toNat)

/-- Whatever the data area and the stack contain, `fat32_read` returns the number
    of bytes there are and has stored these bytes of the file. -/
def ReadsFile (image : Nat → UInt8) (node : Fat32Node) (chain : List UInt32)
    (offset size : UInt32) : Prop :=
  ∀ image' stack, SameFat node.fs image image' →
    Fat32ReadReturns (imageDevice image') stack node offset size
      (readCount node offset size,
        ((fileBytes image' node.fs chain).drop offset.toNat).take (readCount node offset size))

/-- What the loop is asked for: `offset + size > node->size` misses a sum that
    wraps. -/
def wantedCount (node : Fat32Node) (offset size : UInt32) : Nat :=
  if offset.toNat + size.toNat < 2 ^ 32 then readCount node offset size else size.toNat

theorem clipped_toNat {node : Fat32Node} {offset : UInt32} (size : UInt32)
    (hlt : offset < node.size) :
    (clippedSize node offset size).toNat = wantedCount node offset size := by
  have hlt' := UInt32.lt_iff_toNat_lt.mp hlt
  have hbound := node.size.toNat_lt
  have hbound' := size.toNat_lt
  unfold clippedSize wantedCount readCount
  split
  · next hmore =>
      have hmore' := UInt32.lt_iff_toNat_lt.mp hmore
      rw [UInt32.toNat_add] at hmore'
      rw [UInt32.toNat_sub_of_le _ _ (UInt32.le_of_lt hlt)]
      split <;> omega
  · next hmore =>
      have hmore' := UInt32.le_iff_toNat_le.mp (UInt32.not_lt.mp hmore)
      rw [UInt32.toNat_add] at hmore'
      split <;> omega

theorem toInt32_ofNat_eq_iff {n : Nat} (hn : n < 2 ^ 32) :
    toInt32 (UInt32.ofNat n) = (n : Int) ↔ n < 2 ^ 31 := by
  rw [toInt32, UInt32.toNat_ofNat', Nat.mod_eq_of_lt hn]
  split
  · next hlt => simpa using hlt
  · next hge =>
      constructor
      · intro heq
        omega
      · intro hlt
        exact absurd hlt hge

/-- The sources of a read of the file. -/
def fileSources (node : Fat32Node) (chain : List UInt32) (offset size : UInt32) :
    List (UInt32 × Nat) :=
  readSources node.fs.bytesPerCluster (clippedSize node offset size) chain offset 0

/-- What `fat32_read` returns inside a file. -/
theorem fat32ReadReturns_iff {image : Nat → UInt8} {node : Fat32Node} {chain : List UInt32}
    (hfs : node.fs.Supported) (hfile : node.isDir = false)
    (hchain : FatChain (fatEntry image node.fs) node.firstCluster chain)
    (hrange : ∀ c ∈ chain, InRange node.fs c) {offset : UInt32} (hlt : offset < node.size)
    (size : UInt32) (stack : Nat → Nat → UInt8) (r : Int × List UInt8) :
    Fat32ReadReturns (imageDevice image) stack node offset size r ↔
      r = (toInt32 (UInt32.ofNat (fileSources node chain offset size).length),
        (fileSources node chain offset size).mapIdx (fetch image node.fs stack)) := by
  have hzero : 0 ≤ clippedSize node offset size := UInt32.zero_le
  have hhalts := readLoop_halts hfs stack hchain hrange offset 0 [] hzero
  simp only [UInt32.zero_add, List.nil_append, UInt32.toNat_zero, Nat.zero_add] at hhalts
  rw [Fat32ReadReturns, if_neg (by simp [hfile]), if_neg (UInt32.not_le.mpr hlt)]
  constructor
  · intro h
    exact h.unique hhalts
  · rintro rfl
    exact hhalts

/-- A read with something to read is right if and only if its number is a
    non-negative `int` and its sources are the places of the file's bytes. -/
theorem readsFile_iff_sources {image : Nat → UInt8} {node : Fat32Node} {chain : List UInt32}
    (hfs : node.fs.Supported) (hfile : node.isDir = false)
    (hchain : FatChain (fatEntry image node.fs) node.firstCluster chain)
    (hrange : ∀ c ∈ chain, InRange node.fs c)
    (hlong : node.size.toNat ≤ chain.length * node.fs.bytesPerCluster.toNat)
    {offset : UInt32} (hlt : offset < node.size) (size : UInt32) :
    ReadsFile image node chain offset size ↔ readCount node offset size < 2 ^ 31 ∧
      fileSources node chain offset size = locate node.fs.bytesPerCluster.toNat chain
        offset.toNat (readCount node offset size) := by
  set places := locate node.fs.bytesPerCluster.toNat chain offset.toNat
    (readCount node offset size) with hplaces
  have hmem : ∀ x ∈ places, InRange node.fs x.1 ∧ x.2 < node.fs.bytesPerCluster.toNat := by
    intro x hx
    obtain ⟨hchain, hx'⟩ := mem_locate hx
    exact ⟨hrange x.1 hchain, hx'⟩
  have hlt' := UInt32.lt_iff_toNat_lt.mp hlt
  have hbound := node.size.toNat_lt
  have hlength : places.length = readCount node offset size := by
    apply length_locate
    rw [readCount]
    omega
  have hcount : readCount node offset size < 2 ^ 32 := by
    rw [readCount]
    omega
  have hbytes : ∀ image', ((fileBytes image' node.fs chain).drop offset.toNat).take
      (readCount node offset size) = places.map fun x => clusterByte image' node.fs x.1 x.2 :=
    fun image' => (map_locate (clusterByte image' node.fs) chain _ _).symm
  have hreturns : ReadsFile image node chain offset size ↔
      ∀ image' stack, SameFat node.fs image image' →
        ((readCount node offset size : Int),
          places.map fun x => clusterByte image' node.fs x.1 x.2) =
        (toInt32 (UInt32.ofNat (fileSources node chain offset size).length),
          (fileSources node chain offset size).mapIdx (fetch image' node.fs stack)) := by
    refine forall_congr' fun image' => forall_congr' fun stack => forall_congr' fun hsame => ?_
    have hchain' := hchain.congr fun c hc => hsame.fatEntry_eq (hrange c hc)
    rw [fat32ReadReturns_iff hfs hfile hchain' hrange hlt, hbytes]
  rw [hreturns]
  constructor
  · intro h
    have heq : fileSources node chain offset size = places := by
      apply eq_of_fetch_eq image hfs
      · intro x hx
        exact hrange x.1 (mem_readSources hx)
      · exact hmem
      · intro image' stack hsame
        exact (Prod.mk.inj (h image' stack hsame)).2.symm
    refine ⟨?_, heq⟩
    have hret := (Prod.mk.inj (h image (fun _ _ => 0) fun _ _ => rfl)).1
    rw [heq, hlength] at hret
    exact (toInt32_ofNat_eq_iff hcount).mp hret.symm
  · rintro ⟨hint, heq⟩ image' stack -
    rw [heq, hlength, (toInt32_ofNat_eq_iff hcount).mpr hint]
    congr 1
    apply List.ext_getElem
    · simp
    · intro p hp hp'
      rw [List.length_map] at hp
      simp [fetch, (hmem places[p] (List.getElem_mem hp)).2]

/-- **When a FAT32 read is right.** For a file with an acyclic chain of clusters of
    the volume, long enough for its size, the read is right if and only if there is
    nothing to read, or the number of bytes is a non-negative `int` and the
    clusters are in place. -/
theorem fat32Read_correct_iff {image : Nat → UInt8} {node : Fat32Node} {chain : List UInt32}
    (hfs : node.fs.Supported) (hfile : node.isDir = false)
    (hchain : 0 < node.size → FatChain (fatEntry image node.fs) node.firstCluster chain)
    (hrange : ∀ c ∈ chain, InRange node.fs c) (hnodup : chain.Nodup)
    (hlong : node.size.toNat ≤ chain.length * node.fs.bytesPerCluster.toNat)
    (offset size : UInt32) :
    ReadsFile image node chain offset size ↔
      readCount node offset size = 0 ∨
      readCount node offset size < 2 ^ 31 ∧
        InPlace node.fs.bytesPerCluster chain 0 offset.toNat (readCount node offset size)
          (wantedCount node offset size) := by
  by_cases hlt : offset < node.size
  · have hlt' := UInt32.lt_iff_toNat_lt.mp hlt
    have hbound := node.size.toNat_lt
    have hpos : 0 < node.size := UInt32.lt_iff_toNat_lt.mpr (Nat.zero_lt_of_lt hlt')
    have hwanted := clipped_toNat size hlt
    rw [readsFile_iff_sources hfs hfile (hchain hpos) hrange hlong hlt]
    by_cases hzero : readCount node offset size = 0
    · have hnothing : ¬ 0 < clippedSize node offset size := by
        rw [UInt32.lt_iff_toNat_lt, hwanted, wantedCount]
        rw [readCount] at hzero ⊢
        split <;> simp only [UInt32.toNat_zero] <;> omega
      refine iff_of_true ⟨?_, ?_⟩ (Or.inl hzero)
      · rw [hzero]
        decide
      · rw [fileSources, readSources_done hnothing, hzero, locate_zero]
    · have hbpc : 0 < node.fs.bytesPerCluster.toNat := by
        have hone := hfs.one_le
        rw [hfs.bytesPerCluster_eq, ATA_SECTOR_SIZE]
        omega
      have hcount : offset.toNat + readCount node offset size ≤ node.size.toNat := by
        rw [readCount]
        omega
      have hle : readCount node offset size ≤ wantedCount node offset size := by
        unfold wantedCount readCount
        split <;> omega
      have hlimit : readCount node offset size ≤
          (clippedSize node offset size).toNat - (0 : UInt32).toNat := by
        rwa [hwanted]
      have hplaces := readSources_eq_locate_iff hbpc hnodup 0 _ offset 0 (by omega)
        (Nat.pos_of_ne_zero hzero) hlimit (by rw [Nat.zero_add]; exact hcount.trans hlong)
        (hcount.trans_lt hbound)
      rw [TakesRight, Nat.zero_mul, Nat.sub_zero, UInt32.toNat_zero, Nat.sub_zero, hwanted] at hplaces
      rw [fileSources, hplaces]
      simp [hzero]
  · have hzero : readCount node offset size = 0 := by
      have hle := UInt32.le_iff_toNat_le.mp (UInt32.not_lt.mp hlt)
      rw [readCount]
      omega
    refine iff_of_true ?_ (Or.inl hzero)
    intro image' stack _
    rw [Fat32ReadReturns, if_neg (by simp [hfile]), if_pos (UInt32.not_lt.mp hlt), hzero]
    simp

/-- A small volume: the partition begins at sector 1 with a reserved sector and one
    sector of FAT, in which cluster 3 follows cluster 2 and is the last of its chain. The
    first byte of cluster 3 is 7. -/
def smallVolume : Fat32Fs := ⟨1, 512, 1, 1, 2⟩

def smallImage (a : Nat) : UInt8 :=
  if 1036 ≤ a ∧ a < 1040 then 255 else if a = 1032 then 3 else if a = 2048 then 7 else 0

theorem smallVolume_inRange : ∀ c ∈ [(2 : UInt32), 3], InRange smallVolume c := by
  intro c hc
  rcases List.mem_pair.mp hc with rfl | rfl
  · exact ⟨by decide, by decide, by decide, by decide⟩
  · exact ⟨by decide, by decide, by decide, by decide⟩

theorem smallImage_last : FatChain (fatEntry smallImage smallVolume) 3 [3] :=
  .more (.last (by decide))

theorem smallVolume_supported : smallVolume.Supported := ⟨rfl, by decide, by decide⟩

/-- A file of the small volume that begins with cluster `c`. -/
def smallFile (c size : UInt32) : Fat32Node := ⟨smallVolume, c, false, size⟩

/-- A file in the first two clusters of the data area is read correctly: the last two bytes
    of the one and three of the other. -/
theorem fat32Read_correct_two_clusters : ReadsFile smallImage (smallFile 2 515) [2, 3] 510 9 := by
  have hchain : FatChain (fatEntry smallImage smallVolume) 2 [2, 3] := .more smallImage_last
  have hfile : (smallFile 2 515).isDir = false := rfl
  refine (fat32Read_correct_iff smallVolume_supported hfile (fun _ => hchain) smallVolume_inRange
    (by decide) (by decide) 510 9).mpr (Or.inr ⟨by decide, ?_⟩)
  have hend : InPlace 512 [] 2 510 5 5 := (inPlace_inside_iff (by decide) (by decide)).mpr rfl
  have hsecond : InPlace 512 [3] 1 510 5 5 :=
    inPlace_cons.mpr ⟨by decide, by decide, .inl rfl, hend⟩
  exact inPlace_cons.mpr ⟨by decide, by decide, by decide, hsecond⟩

/-- A file of one byte in the second cluster of the data area: the loop reads in
    front of its buffer, and not the byte of the file. -/
theorem fat32Read_second_cluster_wrong :
    ¬ ∀ (image : Nat → UInt8) (stack : Nat → Nat → UInt8) (node : Fat32Node)
        (chain : List UInt32) (offset size : UInt32),
      node.fs.Supported → node.isDir = false →
      FatChain (fatEntry image node.fs) node.firstCluster chain →
      (∀ c ∈ chain, InRange node.fs c) → chain.Nodup →
      node.size.toNat ≤ chain.length * node.fs.bytesPerCluster.toNat →
      Fat32ReadReturns (imageDevice image) stack node offset size
        (readCount node offset size,
          ((fileBytes image node.fs chain).drop offset.toNat).take
            (readCount node offset size)) := by
  intro h
  have hrange : ∀ c ∈ [(3 : UInt32)], InRange smallVolume c := fun c hc =>
    smallVolume_inRange c (List.mem_cons_of_mem _ hc)
  have hfile : (smallFile 3 1).isDir = false := rfl
  have hreturns := h smallImage (fun _ _ => 0) (smallFile 3 1) [3] 0 1 smallVolume_supported hfile
    smallImage_last hrange (List.nodup_singleton _) (by decide)
  rw [fat32ReadReturns_iff smallVolume_supported hfile smallImage_last hrange (by decide),
    fileBytes,
    ← map_locate] at hreturns
  have hplaces : locate (smallFile 3 1).fs.bytesPerCluster.toNat [(3 : UInt32)]
      (0 : UInt32).toNat (readCount (smallFile 3 1) 0 1) = [(3, 0)] := by decide
  have hsources : fileSources (smallFile 3 1) [3] 0 1 = [(3, 4294966784)] := by decide
  rw [hplaces, hsources] at hreturns
  exact absurd (Prod.mk.inj hreturns).2 (by decide)

end NemoOS
