import Mathlib
import NemoOS.Fat32

/-!
# Volumes, chains and what the read loop does on them

A volume is the byte image of a disk whose sectors can all be read. The entries of
its file allocation table link clusters to chains, and a file is the concatenation
of the clusters of its chain. `readLoop_halts` runs the loop of `fat32_read` over a
chain and says which byte of which cluster every stored byte comes from
(`readSources`), whatever the clusters contain.
-/

namespace NemoOS

open Loops

/-! ## Volumes and chains -/

/-- A device that answers every read from an image of the disk. -/
def imageDevice (image : Nat → UInt8) : AtaDevice :=
  fun lba => some fun i => image (lba * ATA_SECTOR_SIZE + i)

/-- The entry of a cluster in the file allocation table. -/
def fatEntry (image : Nat → UInt8) (fs : Fat32Fs) (cluster : UInt32) : UInt32 :=
  wordAt image ((fs.partitionStart.toNat + fs.reservedSectors.toNat) * ATA_SECTOR_SIZE +
    4 * cluster.toNat) &&& 0x0FFFFFFF

/-- A cluster of the volume: its FAT entry stands before the data area, and its
    sectors have 28-bit addresses. -/
structure InRange (fs : Fat32Fs) (cluster : UInt32) : Prop where
  two_le : 2 ≤ cluster.toNat
  lt_eoc : cluster < FAT32_EOC
  in_fat : fs.reservedSectors.toNat + 4 * cluster.toNat / ATA_SECTOR_SIZE < fs.dataStart.toNat
  on_disk : fs.partitionStart.toNat + fs.dataStart.toNat +
    (cluster.toNat - 1) * fs.sectorsPerCluster.toNat ≤ 2 ^ 28

/-- The clusters from `cluster` to the end-of-chain mark. -/
inductive FatChain (next : UInt32 → UInt32) : UInt32 → List UInt32 → Prop where
  | last {cluster : UInt32} : FAT32_EOC ≤ cluster → FatChain next cluster []
  | more {cluster : UInt32} {chain : List UInt32} :
      FatChain next (next cluster) chain → FatChain next cluster (cluster :: chain)

/-- Where a cluster begins in the image. -/
def clusterBase (fs : Fat32Fs) (cluster : UInt32) : Nat :=
  (fs.partitionStart.toNat + fs.dataStart.toNat +
    (cluster.toNat - 2) * fs.sectorsPerCluster.toNat) * ATA_SECTOR_SIZE

def clusterByte (image : Nat → UInt8) (fs : Fat32Fs) (cluster : UInt32) (j : Nat) : UInt8 :=
  image (clusterBase fs cluster + j)

/-- The concatenation of the clusters. -/
def fileBytes (image : Nat → UInt8) (fs : Fat32Fs) (chain : List UInt32) : List UInt8 :=
  chain.flatMap fun c => (List.range fs.bytesPerCluster.toNat).map (clusterByte image fs c)

/-- The volumes considered: 512-byte sectors and one to eight of them a cluster. -/
structure Fat32Fs.Supported (fs : Fat32Fs) : Prop where
  bytesPerSector_eq : fs.bytesPerSector = 512
  one_le : 1 ≤ fs.sectorsPerCluster.toNat
  le_eight : fs.sectorsPerCluster.toNat ≤ 8

theorem Fat32Fs.Supported.bytesPerCluster_eq {fs : Fat32Fs} (h : fs.Supported) :
    fs.bytesPerCluster.toNat = fs.sectorsPerCluster.toNat * ATA_SECTOR_SIZE := by
  have hle := h.le_eight
  have h512 : (512 : UInt32).toNat = 512 := rfl
  rw [Fat32Fs.bytesPerCluster, UInt32.toNat_mul, h512, ATA_SECTOR_SIZE]
  omega

/-! ## The driver's primitives on an image -/

theorem fat32ReadSector_image (image : Nat → UInt8) {fs : Fat32Fs} {lba : UInt32}
    (hlba : fs.partitionStart.toNat + lba.toNat < 2 ^ 28) :
    fat32ReadSector (imageDevice image) fs lba =
      some fun i => image ((fs.partitionStart.toNat + lba.toNat) * ATA_SECTOR_SIZE + i) := by
  have hsum : (fs.partitionStart + lba).toNat % 2 ^ 28 = fs.partitionStart.toNat + lba.toNat := by
    rw [UInt32.toNat_add]
    omega
  rw [fat32ReadSector, ataReadSector, hsum, imageDevice]

theorem wordAt_shift (image : Nat → UInt8) (base j : Nat) :
    wordAt (fun i => image (base + i)) j = wordAt image (base + j) := by
  simp only [wordAt, Nat.add_assoc]

theorem fat32NextCluster_image {image : Nat → UInt8} {fs : Fat32Fs} {cluster : UInt32}
    (hfs : fs.Supported) (hrange : InRange fs cluster) :
    fat32NextCluster (imageDevice image) fs cluster = fatEntry image fs cluster := by
  have heoc : cluster.toNat < 2 ^ 28 := by
    have hlt := UInt32.lt_iff_toNat_lt.mp hrange.lt_eoc
    have hval : FAT32_EOC.toNat = 268435448 := rfl
    omega
  have hoffset : (cluster * 4).toNat = 4 * cluster.toNat := by
    have h4 : (4 : UInt32).toNat = 4 := rfl
    rw [UInt32.toNat_mul, h4]
    omega
  have h512 : (512 : UInt32).toNat = ATA_SECTOR_SIZE := rfl
  have hfat := hrange.in_fat
  have hdisk := hrange.on_disk
  have hsector : (fs.reservedSectors + cluster * 4 / fs.bytesPerSector).toNat =
      fs.reservedSectors.toNat + 4 * cluster.toNat / ATA_SECTOR_SIZE := by
    rw [UInt32.toNat_add, UInt32.toNat_div, hoffset, hfs.bytesPerSector_eq, h512]
    exact Nat.mod_eq_of_lt (hfat.trans fs.dataStart.toNat_lt)
  have hlba : fs.partitionStart.toNat +
      (fs.reservedSectors + cluster * 4 / fs.bytesPerSector).toNat < 2 ^ 28 := by
    rw [hsector]
    omega
  have hread := fat32ReadSector_image image hlba
  have hbyte : (cluster * 4 % fs.bytesPerSector).toNat = 4 * cluster.toNat % ATA_SECTOR_SIZE := by
    rw [UInt32.toNat_mod, hoffset, hfs.bytesPerSector_eq, h512]
  have haddress : (fs.partitionStart.toNat +
      (fs.reservedSectors.toNat + 4 * cluster.toNat / ATA_SECTOR_SIZE)) * ATA_SECTOR_SIZE +
      4 * cluster.toNat % ATA_SECTOR_SIZE =
      (fs.partitionStart.toNat + fs.reservedSectors.toNat) * ATA_SECTOR_SIZE +
        4 * cluster.toNat := by
    rw [ATA_SECTOR_SIZE]
    omega
  simp only [fat32NextCluster, hread]
  rw [hbyte, wordAt_shift, hsector, haddress, fatEntry]

/-- A cluster whose sectors can be read fills the buffer sector by sector. -/
theorem fat32ReadCluster_of_sectors {dev : AtaDevice} {fs : Fat32Fs} {cluster : UInt32}
    (data : Nat → Sector)
    (h : ∀ i < fs.sectorsPerCluster.toNat,
      fat32ReadSector dev fs (fat32ClusterToLba fs cluster + UInt32.ofNat i) = some (data i)) :
    fat32ReadCluster dev fs cluster =
      some fun j => if j < fs.sectorsPerCluster.toNat * ATA_SECTOR_SIZE then
        some (data (j / ATA_SECTOR_SIZE) (j % ATA_SECTOR_SIZE)) else none := by
  have hfold : ∀ n ≤ fs.sectorsPerCluster.toNat,
      (List.range n).foldlM (storeSector dev fs (fat32ClusterToLba fs cluster))
        (fun _ => none) =
      some fun j => if j < n * ATA_SECTOR_SIZE then
        some (data (j / ATA_SECTOR_SIZE) (j % ATA_SECTOR_SIZE)) else none := by
    intro n hn
    induction n with
    | zero => simp
    | succ n ih =>
        rw [List.range_succ, List.foldlM_append, ih (by omega)]
        simp only [Option.bind_eq_bind, Option.bind_some, List.foldlM_cons, List.foldlM_nil,
          storeSector, h n (by omega), Option.map_some]
        congr 1
        funext j
        have hsucc : (n + 1) * ATA_SECTOR_SIZE = n * ATA_SECTOR_SIZE + ATA_SECTOR_SIZE :=
          Nat.succ_mul n ATA_SECTOR_SIZE
        rcases Nat.lt_or_ge j (n * ATA_SECTOR_SIZE) with hbefore | hfrom
        · rw [if_neg (by omega), if_pos hbefore, if_pos (by omega)]
        · by_cases hhere : j < (n + 1) * ATA_SECTOR_SIZE
          · obtain ⟨i, rfl⟩ := Nat.exists_eq_add_of_le hfrom
            have hi : i < ATA_SECTOR_SIZE := by omega
            rw [if_pos ⟨hfrom, hhere⟩, if_pos hhere, Nat.add_sub_cancel_left, Nat.mul_comm,
              Nat.mul_add_div (by decide), Nat.div_eq_of_lt hi, Nat.mul_add_mod,
              Nat.mod_eq_of_lt hi, Nat.add_zero]
          · rw [if_neg (by omega), if_neg (by omega), if_neg hhere]
  rw [fat32ReadCluster, hfold _ (le_refl _)]

theorem fat32ReadCluster_image {image : Nat → UInt8} {fs : Fat32Fs} {cluster : UInt32}
    (hfs : fs.Supported) (hrange : InRange fs cluster) :
    fat32ReadCluster (imageDevice image) fs cluster =
      some fun j => if j < fs.bytesPerCluster.toNat then some (clusterByte image fs cluster j)
        else none := by
  have htwo := hrange.two_le
  have hdisk := hrange.on_disk
  have hsplit : (cluster.toNat - 1) * fs.sectorsPerCluster.toNat =
      (cluster.toNat - 2) * fs.sectorsPerCluster.toNat + fs.sectorsPerCluster.toNat := by
    rw [← Nat.succ_mul]
    congr 1
    omega
  have hlba : (fat32ClusterToLba fs cluster).toNat =
      fs.dataStart.toNat + (cluster.toNat - 2) * fs.sectorsPerCluster.toNat := by
    have h2 : (2 : UInt32) ≤ cluster := UInt32.le_iff_toNat_le.mpr htwo
    rw [fat32ClusterToLba, UInt32.toNat_add, UInt32.toNat_mul, UInt32.toNat_sub_of_le _ _ h2]
    simp only [UInt32.reduceToNat]
    omega
  have hsector : ∀ i < fs.sectorsPerCluster.toNat,
      (fat32ClusterToLba fs cluster + UInt32.ofNat i).toNat =
        fs.dataStart.toNat + (cluster.toNat - 2) * fs.sectorsPerCluster.toNat + i := by
    intro i hi
    rw [UInt32.toNat_add, UInt32.toNat_ofNat', hlba]
    omega
  have hread : ∀ i < fs.sectorsPerCluster.toNat,
      fat32ReadSector (imageDevice image) fs (fat32ClusterToLba fs cluster + UInt32.ofNat i) =
        some fun k => clusterByte image fs cluster (i * ATA_SECTOR_SIZE + k) := by
    intro i hi
    rw [fat32ReadSector_image image (by rw [hsector i hi]; omega), hsector i hi]
    refine congrArg some (funext fun k => ?_)
    rw [clusterByte, clusterBase]
    refine congrArg image ?_
    ring
  rw [fat32ReadCluster_of_sectors _ hread, hfs.bytesPerCluster_eq]
  simp only [Nat.div_add_mod']

/-! ## Where the loop takes its bytes from -/

/-- The cluster and the position in `cluster_buf` of every byte the loop stores, if
    it goes through the clusters of `chain`. -/
def readSources (bytesPerCluster size : UInt32) :
    List UInt32 → UInt32 → UInt32 → List (UInt32 × Nat)
  | [], _, _ => []
  | c :: chain, offset, read =>
      if read < size then
        let start := clusterStart bytesPerCluster c
        if offset < start + bytesPerCluster then
          let n := toRead bytesPerCluster (offset - start) (size - read)
          (List.range n.toNat).map (fun i => (c, (offset - start + UInt32.ofNat i).toNat)) ++
            readSources bytesPerCluster size chain (offset + n) (read + n)
        else readSources bytesPerCluster size chain offset read
      else []

section Equations

variable {bytesPerCluster size c offset read : UInt32} {chain : List UInt32}

theorem readSources_done (hread : ¬ read < size) :
    readSources bytesPerCluster size chain offset read = [] := by
  cases chain with
  | nil => rfl
  | cons c chain => simp [readSources, hread]

theorem readSources_skip (hread : read < size)
    (hskip : ¬ offset < clusterStart bytesPerCluster c + bytesPerCluster) :
    readSources bytesPerCluster size (c :: chain) offset read =
      readSources bytesPerCluster size chain offset read := by
  simp [readSources, hread, hskip]

theorem readSources_active (hread : read < size)
    (hactive : offset < clusterStart bytesPerCluster c + bytesPerCluster) :
    readSources bytesPerCluster size (c :: chain) offset read =
      (List.range (toRead bytesPerCluster (offset - clusterStart bytesPerCluster c)
        (size - read)).toNat).map
          (fun i => (c, (offset - clusterStart bytesPerCluster c + UInt32.ofNat i).toNat)) ++
        readSources bytesPerCluster size chain
          (offset + toRead bytesPerCluster (offset - clusterStart bytesPerCluster c) (size - read))
          (read + toRead bytesPerCluster (offset - clusterStart bytesPerCluster c)
            (size - read)) := by
  simp [readSources, hread, hactive]

end Equations

/-- The byte the loop finds at a source: outside the cluster it is what the stack
    holds. -/
def fetch (image : Nat → UInt8) (fs : Fat32Fs) (stack : Nat → Nat → UInt8) (n : Nat)
    (source : UInt32 × Nat) : UInt8 :=
  if source.2 < fs.bytesPerCluster.toNat then clusterByte image fs source.1 source.2
  else stack n source.2

theorem toRead_le (bytesPerCluster clusterOff wanted : UInt32) :
    (toRead bytesPerCluster clusterOff wanted).toNat ≤ wanted.toNat := by
  unfold toRead
  split
  · exact le_refl _
  · next hle => exact UInt32.le_iff_toNat_le.mp (UInt32.not_lt.mp hle)

theorem toNat_add_toRead {read size : UInt32} (hlt : read < size) (bytesPerCluster off : UInt32) :
    (read + toRead bytesPerCluster off (size - read)).toNat =
      read.toNat + (toRead bytesPerCluster off (size - read)).toNat ∧
    read + toRead bytesPerCluster off (size - read) ≤ size := by
  have hle := toRead_le bytesPerCluster off (size - read)
  have hbound := size.toNat_lt
  have hlt' := UInt32.lt_iff_toNat_lt.mp hlt
  rw [UInt32.toNat_sub_of_le _ _ (UInt32.le_of_lt hlt)] at hle
  have hsum : (read + toRead bytesPerCluster off (size - read)).toNat =
      read.toNat + (toRead bytesPerCluster off (size - read)).toNat := by
    rw [UInt32.toNat_add]
    omega
  refine ⟨hsum, ?_⟩
  rw [UInt32.le_iff_toNat_le, hsum]
  omega

theorem mapIdx_map_range {α β : Type*} (f : Nat → α → β) (g : Nat → α) (n : Nat) :
    ((List.range n).map g).mapIdx f = (List.range n).map fun i => f i (g i) := by
  apply List.ext_getElem
  · simp
  · intro i hi hi'
    simp

theorem readStep_skip {image : Nat → UInt8} {fs : Fat32Fs} {stack : Nat → Nat → UInt8}
    {size cluster offset read : UInt32} {out : List UInt8} (hfs : fs.Supported)
    (hc : InRange fs cluster) (hlt : read < size)
    (hskip : ¬ offset < clusterStart fs.bytesPerCluster cluster + fs.bytesPerCluster) :
    readStep (imageDevice image) fs stack size ⟨cluster, offset, read, out⟩ =
      .inl ⟨fatEntry image fs cluster, offset, read, out⟩ := by
  simp [readStep, hc.lt_eoc, hlt, hskip, fat32NextCluster_image hfs hc]

theorem readStep_active {image : Nat → UInt8} {fs : Fat32Fs} {stack : Nat → Nat → UInt8}
    {size cluster offset read : UInt32} {out : List UInt8} (hfs : fs.Supported)
    (hc : InRange fs cluster) (hlt : read < size)
    (hactive : offset < clusterStart fs.bytesPerCluster cluster + fs.bytesPerCluster) :
    let clusterOff := offset - clusterStart fs.bytesPerCluster cluster
    let n := toRead fs.bytesPerCluster clusterOff (size - read)
    readStep (imageDevice image) fs stack size ⟨cluster, offset, read, out⟩ =
      .inl ⟨fatEntry image fs cluster, offset + n, read + n,
        out ++ (List.range n.toNat).map fun i =>
          fetch image fs stack (read.toNat + i) (cluster, (clusterOff + UInt32.ofNat i).toNat)⟩ := by
  have hbyte : ∀ n j, (if j < fs.bytesPerCluster.toNat then some (clusterByte image fs cluster j)
      else none).getD (stack n j) = fetch image fs stack n (cluster, j) := by
    intro n j
    simp only [fetch]
    split <;> rfl
  simp only [readStep, hc.lt_eoc, hlt, hactive, and_self, if_true, hbyte,
    fat32NextCluster_image hfs hc, fat32ReadCluster_image hfs hc]

/-- The loop ends at the end of the chain, with the bytes at its sources. -/
theorem readLoop_halts {image : Nat → UInt8} {fs : Fat32Fs} (hfs : fs.Supported)
    (stack : Nat → Nat → UInt8) {size : UInt32} {chain : List UInt32} {cluster : UInt32}
    (hchain : FatChain (fatEntry image fs) cluster chain) (hrange : ∀ c ∈ chain, InRange fs c)
    (offset read : UInt32) (out : List UInt8) (hread : read ≤ size) :
    Halts (readStep (imageDevice image) fs stack size) ⟨cluster, offset, read, out⟩
      (toInt32 (read + UInt32.ofNat
          (readSources fs.bytesPerCluster size chain offset read).length),
        out ++ (readSources fs.bytesPerCluster size chain offset read).mapIdx fun n =>
          fetch image fs stack (read.toNat + n)) := by
  induction hchain generalizing offset read out with
  | last heoc =>
      apply halts_of_inr
      simp [readStep, readSources, UInt32.not_lt.mpr heoc]
  | @more cluster chain hrest ih =>
      have hc := hrange cluster List.mem_cons_self
      have hlater := @ih fun c hc => hrange c (List.mem_cons_of_mem _ hc)
      by_cases hlt : read < size
      · by_cases hactive : offset < clusterStart fs.bytesPerCluster cluster + fs.bytesPerCluster
        · obtain ⟨hsum, hle⟩ := toNat_add_toRead hlt fs.bytesPerCluster
            (offset - clusterStart fs.bytesPerCluster cluster)
          apply halts_of_inl (readStep_active hfs hc hlt hactive)
          rw [readSources_active hlt hactive]
          set n := toRead fs.bytesPerCluster (offset - clusterStart fs.bytesPerCluster cluster)
            (size - read)
          -- what is stored here and what the later rounds store, as one list
          have hlength : read + UInt32.ofNat (n.toNat + (readSources fs.bytesPerCluster size chain
              (offset + n) (read + n)).length) = read + n + UInt32.ofNat (readSources
                fs.bytesPerCluster size chain (offset + n) (read + n)).length := by
            rw [UInt32.ofNat_add, UInt32.ofNat_toNat, UInt32.add_assoc]
          rw [List.length_append, List.length_map, List.length_range, hlength, List.mapIdx_append,
            mapIdx_map_range, ← List.append_assoc, List.length_map, List.length_range]
          have hshift : (fun i => fetch image fs stack (read.toNat + (i + n.toNat))) =
              fun i => fetch image fs stack ((read + n).toNat + i) := by
            funext i
            rw [hsum]
            congr 1
            omega
          rw [hshift]
          exact hlater _ _ _ hle
        · apply halts_of_inl (readStep_skip hfs hc hlt hactive)
          rw [readSources_skip hlt hactive]
          exact hlater _ _ _ hread
      · apply halts_of_inr
        rw [readSources_done hlt]
        simp [readStep, hlt]

end NemoOS
