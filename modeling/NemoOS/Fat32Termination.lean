import NemoOS.Fat32Mount
import NemoOS.Fat32Volume

/-!
# Cluster chains that end

`fat32_finddir`, `fat32_readdir` and `fat32_read` follow the links of the FAT from the first
cluster of a node and stop at a link that is `FAT32_EOC` or above. Nothing counts the rounds,
so that a loop of links in a damaged FAT is followed for ever. All three loops go from a
cluster to the next one in every round, which is all that termination needs
(`FatChain.halts`); a read behind the clusters of the file takes nothing else into account.
-/

namespace NemoOS

open Loops

/-! ## Loops along a chain -/

/-- A loop that goes on only below `FAT32_EOC`, and then to the next cluster, ends where
    the chain does. -/
theorem FatChain.halts {σ ρ : Type*} {step : σ → σ ⊕ ρ} {next : UInt32 → UInt32}
    (cluster : σ → UInt32)
    (hstep : ∀ s s', step s = .inl s' → cluster s < FAT32_EOC ∧ cluster s' = next (cluster s))
    {s : σ} {c : UInt32} {chain : List UInt32} (hchain : FatChain next c chain)
    (hc : cluster s = c) : ∃ r, Halts step s r := by
  induction hchain generalizing s with
  | last heoc =>
      cases hs : step s with
      | inr r => exact ⟨r, halts_of_inr hs⟩
      | inl s' => exact absurd (hc ▸ (hstep s s' hs).1) (UInt32.not_lt.mpr heoc)
  | more _ ih =>
      cases hs : step s with
      | inr r => exact ⟨r, halts_of_inr hs⟩
      | inl s' =>
          obtain ⟨r, hr⟩ := ih (s := s') (hc ▸ (hstep s s' hs).2)
          exact ⟨r, halts_of_inl hs hr⟩

section steps

variable {dev : AtaDevice} {fs : Fat32Fs}

theorem finddirStep_next {kmalloc : Bool} {name : CString} {c c' : UInt32}
    (h : finddirStep dev fs kmalloc name c = .inl c') :
    c < FAT32_EOC ∧ c' = fat32NextCluster dev fs c := by
  rw [finddirStep] at h
  split at h
  · next hlt =>
    refine ⟨hlt, ?_⟩
    split at h
    · cases h
    · split at h
      · exact (Sum.inl.inj h).symm
      · cases h
  · cases h

theorem readdirStep_next {index : UInt32} {s s' : UInt32 × UInt32}
    (h : readdirStep dev fs index s = .inl s') :
    s.1 < FAT32_EOC ∧ s'.1 = fat32NextCluster dev fs s.1 := by
  rw [readdirStep] at h
  split at h
  · next hlt =>
    refine ⟨hlt, ?_⟩
    split at h
    · cases h
    · split at h
      · rw [← Sum.inl.inj h]
      · cases h
  · cases h

theorem readStep_next {stack : Nat → Nat → UInt8} {size : UInt32} {s s' : ReadState}
    (h : readStep dev fs stack size s = .inl s') :
    s.cluster < FAT32_EOC ∧ s'.cluster = fat32NextCluster dev fs s.cluster := by
  rw [readStep] at h
  split at h
  · next hlt =>
    refine ⟨hlt.1, ?_⟩
    dsimp only at h
    split at h
    · split at h
      · cases h
      · rw [← Sum.inl.inj h]
    · rw [← Sum.inl.inj h]
  · cases h

/-- The end of a cluster is a multiple of the sector size, so that it is no end for an offset
    in the last bytes below 4 GiB. -/
theorem readStep_behind {stack : Nat → Nat → UInt8} {c : UInt32} {out : List UInt8}
    (hc : c < FAT32_EOC) :
    readStep dev fs stack 1 ⟨c, 0xFFFFFFFE, 0, out⟩ =
      .inl ⟨fat32NextCluster dev fs c, 0xFFFFFFFE, 0, out⟩ := by
  have hbehind : ¬ (0xFFFFFFFE : UInt32) < clusterStart fs.bytesPerCluster c + fs.bytesPerCluster := by
    have hbpc : fs.bytesPerCluster.toNat = 512 * (fs.sectorsPerCluster.toNat % 2 ^ 23) := by
      rw [Fat32Fs.bytesPerCluster, UInt32.toNat_mul, show (512 : UInt32).toNat = 512 from rfl]
      omega
    have hoffset : (0xFFFFFFFE : UInt32).toNat = 2 ^ 32 - 2 := rfl
    rw [clusterStart, UInt32.lt_iff_toNat_lt, UInt32.toNat_add, UInt32.toNat_mul, hbpc, hoffset,
      Nat.mul_left_comm]
    omega
  rw [readStep, if_pos ⟨hc, (by decide : (0 : UInt32) < 1)⟩]
  exact if_neg hbehind

end steps

/-! ## The three functions -/

/-- All calls for a node return. -/
structure Terminates (dev : AtaDevice) (node : Fat32Node) : Prop where
  finddir : ∀ kmalloc name, ∃ r, Fat32FinddirReturns dev node kmalloc name r
  readdir : ∀ index, ∃ r, Fat32ReaddirReturns dev node index r
  read : ∀ stack offset size, ∃ r, Fat32ReadReturns dev stack node offset size r

theorem FatChain.terminates {dev : AtaDevice} {node : Fat32Node} {chain : List UInt32}
    (hchain : FatChain (fat32NextCluster dev node.fs) node.firstCluster chain) :
    Terminates dev node := by
  constructor
  · intro kmalloc name
    unfold Fat32FinddirReturns
    split
    · exact hchain.halts id (fun _ _ => finddirStep_next) rfl
    · exact ⟨none, rfl⟩
  · intro index
    unfold Fat32ReaddirReturns
    split
    · exact hchain.halts Prod.fst (fun _ _ => readdirStep_next) rfl
    · exact ⟨none, rfl⟩
  · intro stack offset size
    unfold Fat32ReadReturns
    split
    · exact ⟨_, rfl⟩
    · split
      · exact ⟨_, rfl⟩
      · exact hchain.halts ReadState.cluster (fun _ _ => readStep_next) rfl

/-- **When the driver returns.** For the nodes with a first cluster, directories and files of
    any size, all calls return exactly when the links from there come to an end. -/
theorem fat32_terminates_iff {dev : AtaDevice} {fs : Fat32Fs} {first : UInt32} :
    (∀ isDir size, Terminates dev ⟨fs, first, isDir, size⟩) ↔
      ∃ chain, FatChain (fat32NextCluster dev fs) first chain := by
  constructor
  · intro h
    by_contra hendless
    -- a file of the largest size, read in its last byte
    obtain ⟨r, hr⟩ := (h false 0xFFFFFFFF).read (fun _ _ => 0) 0xFFFFFFFE 1
    have hsize : clippedSize ⟨fs, first, false, 0xFFFFFFFF⟩ 0xFFFFFFFE 1 = 1 := rfl
    rw [Fat32ReadReturns, if_neg Bool.false_ne_true,
      if_neg (by decide : ¬ (0xFFFFFFFE : UInt32) ≥ 0xFFFFFFFF), hsize] at hr
    refine not_halts_of_invariant (P := fun s => s.offset = 0xFFFFFFFE ∧ s.read = 0 ∧
      ¬ ∃ chain, FatChain (fat32NextCluster dev fs) s.cluster chain) ?_ ⟨rfl, rfl, hendless⟩ r hr
    rintro ⟨c, offset, read, out⟩ ⟨rfl, rfl, hc⟩
    have hlt : c < FAT32_EOC := UInt32.not_le.mp fun heoc => hc ⟨[], .last heoc⟩
    refine ⟨_, readStep_behind hlt, rfl, rfl, ?_⟩
    rintro ⟨chain, hchain⟩
    exact hc ⟨c :: chain, .more hchain⟩
  · rintro ⟨chain, hchain⟩ isDir size
    exact FatChain.terminates hchain

/-- The FAT links cluster 2 to itself. -/
def loopedFat : Sector := sectorOf [(8, 2)]

def loopedDisk : AtaDevice :=
  partitionedDisk (bootSector 512 1) fun lba => if lba = 2 then loopedFat else fun _ => 0

/-- A root directory whose only cluster is its own successor: a lookup in it never returns. -/
theorem finddir_endless :
    ¬ ∀ (devices : List AtaDevice) (kmallocFs kmallocRoot : Bool) (ataDev partition : Int)
      (root node : Fat32Node) (dev : AtaDevice),
      fat32Mount devices kmallocFs kmallocRoot ataDev partition = some root →
      devices[ataDev.toNat]? = some dev → root.fs.Fits → node.fs = root.fs →
      Terminates dev node := by
  intro hall
  have hmount : fat32Mount [loopedDisk] true true 0 0 =
      some ⟨fat32Volume 1 (bootSector 512 1), 2, true, 0⟩ := fat32Mount_partitionedDisk ..
  have hfits : (fat32Volume 1 (bootSector 512 1)).Fits :=
    ⟨by decide, by decide, by decide, by decide⟩
  obtain ⟨r, hr⟩ := (hall _ _ _ _ _ _ _ _ hmount rfl hfits rfl).finddir true []
  have hround : finddirStep loopedDisk (fat32Volume 1 (bootSector 512 1)) true [] 2 = .inl 2 := by
    rfl
  refine not_halts_of_invariant (P := (· = 2)) ?_ rfl r hr
  rintro c rfl
  exact ⟨2, hround, rfl⟩

end NemoOS
