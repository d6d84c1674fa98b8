import NemoOS.Fat32Dir

/-!
# Mounting a FAT32 volume

`fat32_mount` takes the geometry of the volume from its boot sector and checks none of it:
only the MBR has a signature and a partition type to match. The driver divides by
`bytes_per_sector`, reads the entry of a cluster from a buffer of one sector, and reads the
`sectors_per_cluster` sectors of a cluster into buffers for eight. What those functions touch
is `nextClusterReads` and `readClusterWrites`.
-/

namespace NemoOS

/-! ## `fat32_mount` -/

/-- The `fat32_fs` for a partition with this boot sector. -/
def fat32Volume (lbaStart : UInt32) (bpb : Sector) : Fat32Fs where
  partitionStart := lbaStart
  bytesPerSector := halfAt bpb 11
  sectorsPerCluster := (bpb 13).toUInt32
  reservedSectors := halfAt bpb 14
  dataStart := halfAt bpb 14 + (bpb 16).toUInt32 * wordAt bpb 36

/-- `fat32_get_root_node`. -/
def fat32GetRootNode (fs : Fat32Fs) (rootCluster : UInt32) (kmalloc : Bool) : Option Fat32Node :=
  if kmalloc then some ⟨fs, rootCluster, true, 0⟩ else none

/-- The partition of an MBR that is accepted: where it starts. -/
def mbrPartition (mbr : Sector) (partition : Int) : Option UInt32 :=
  let part := 446 + 16 * partition.toNat
  if halfAt mbr 510 ≠ 0xAA55 then none
  else if partition < 0 ∨ partition ≥ 4 then none
  else if mbr (part + 4) ≠ 0x0B ∧ mbr (part + 4) ≠ 0x0C then none
  else some (wordAt mbr (part + 8))

/-- `fat32_mount`, with whether `kmalloc` returns a block for the `fat32_fs` and for the
    root. -/
def fat32Mount (devices : List AtaDevice) (kmallocFs kmallocRoot : Bool) (ataDev partition : Int) :
    Option Fat32Node :=
  if ataDev < 0 ∨ ataDev ≥ devices.length then none
  else
    devices[ataDev.toNat]?.bind fun dev =>
      (ataReadSector dev 0).bind fun mbr =>
        (mbrPartition mbr partition).bind fun lbaStart =>
          if !kmallocFs then none
          else
            (ataReadSector dev lbaStart).bind fun bpb =>
              fat32GetRootNode (fat32Volume lbaStart bpb) (wordAt bpb 44) kmallocRoot

/-- What a mount that succeeds has found. -/
theorem fat32Mount_eq_some_iff {devices : List AtaDevice} {kmallocFs kmallocRoot : Bool}
    {ataDev partition : Int} {root : Fat32Node} :
    fat32Mount devices kmallocFs kmallocRoot ataDev partition = some root ↔
      kmallocFs = true ∧ kmallocRoot = true ∧ 0 ≤ ataDev ∧
      ∃ dev mbr lbaStart bpb, devices[ataDev.toNat]? = some dev ∧ ataReadSector dev 0 = some mbr ∧
        mbrPartition mbr partition = some lbaStart ∧ ataReadSector dev lbaStart = some bpb ∧
        root = ⟨fat32Volume lbaStart bpb, wordAt bpb 44, true, 0⟩ := by
  constructor
  · intro hmount
    rw [fat32Mount] at hmount
    split at hmount
    · cases hmount
    · next hrange =>
      obtain ⟨dev, hdev, hmount⟩ := Option.bind_eq_some_iff.mp hmount
      obtain ⟨mbr, hmbr, hmount⟩ := Option.bind_eq_some_iff.mp hmount
      obtain ⟨lbaStart, hpart, hmount⟩ := Option.bind_eq_some_iff.mp hmount
      cases kmallocFs with
      | false => cases hmount
      | true =>
          obtain ⟨bpb, hbpb, hroot⟩ := Option.bind_eq_some_iff.mp hmount
          cases kmallocRoot with
          | false => cases hroot
          | true =>
              obtain rfl := Option.some.inj hroot
              exact ⟨rfl, rfl, by omega, dev, mbr, lbaStart, bpb, hdev, hmbr, hpart, hbpb, rfl⟩
  · rintro ⟨rfl, rfl, hzero, dev, mbr, lbaStart, bpb, hdev, hmbr, hpart, hbpb, rfl⟩
    have hlt : ataDev.toNat < devices.length := (List.getElem?_eq_some_iff.mp hdev).1
    rw [fat32Mount, if_neg (by omega), hdev, Option.bind_some, hmbr, Option.bind_some, hpart,
      Option.bind_some, if_neg (by decide), hbpb, Option.bind_some]
    rfl

/-! ## What the driver touches -/

/-- The positions of its buffer that `fat32_next_cluster` reads. -/
def nextClusterReads (dev : AtaDevice) (fs : Fat32Fs) (cluster : UInt32) : List Nat :=
  let fatOffset := cluster * 4
  match fat32ReadSector dev fs (fs.reservedSectors + fatOffset / fs.bytesPerSector) with
  | none => []
  | some _ => List.range' (fatOffset % fs.bytesPerSector).toNat 4

/-- The positions of the buffer at which `fat32_read_cluster` stores: those of the sectors
    before the first one that cannot be read. -/
def readClusterWrites (dev : AtaDevice) (fs : Fat32Fs) (cluster : UInt32) : List Nat :=
  ((List.range fs.sectorsPerCluster.toNat).takeWhile fun i =>
    (fat32ReadSector dev fs (fat32ClusterToLba fs cluster + UInt32.ofNat i)).isSome).flatMap fun i =>
      List.range' (i * ATA_SECTOR_SIZE) ATA_SECTOR_SIZE

/-- No division by zero, and no access outside the buffers. -/
structure AccessSafe (dev : AtaDevice) (fs : Fat32Fs) (cluster : UInt32) : Prop where
  divisor : fs.bytesPerSector ≠ 0
  entry : ∀ j ∈ nextClusterReads dev fs cluster, j < ATA_SECTOR_SIZE
  buffer : ∀ j ∈ readClusterWrites dev fs cluster, j < 8 * ATA_SECTOR_SIZE

/-- A geometry for which the buffers are large enough. A sector size that is no multiple of
    four lets an entry begin at any place, or any even place, in the sector. -/
structure Fat32Fs.Fits (fs : Fat32Fs) : Prop where
  pos : 0 < fs.bytesPerSector.toNat
  le_sector : fs.bytesPerSector.toNat ≤ ATA_SECTOR_SIZE
  ne_odd : fs.bytesPerSector.toNat ≠ 511
  le_eight : fs.sectorsPerCluster.toNat ≤ 8

section access

variable {dev : AtaDevice} {fs : Fat32Fs} {cluster : UInt32}

theorem mem_readClusterWrites_of_all (h : ∀ i < fs.sectorsPerCluster.toNat,
      (fat32ReadSector dev fs (fat32ClusterToLba fs cluster + UInt32.ofNat i)).isSome) {j : Nat} :
    j ∈ readClusterWrites dev fs cluster ↔ j < fs.sectorsPerCluster.toNat * ATA_SECTOR_SIZE := by
  have hall : (List.range fs.sectorsPerCluster.toNat).takeWhile (fun i =>
      (fat32ReadSector dev fs (fat32ClusterToLba fs cluster + UInt32.ofNat i)).isSome) =
      List.range fs.sectorsPerCluster.toNat := by
    rw [List.takeWhile_eq_self_iff]
    exact fun i hi => h i (List.mem_range.mp hi)
  rw [readClusterWrites, hall, List.mem_flatMap]
  simp only [List.mem_range, List.mem_range'_1, ATA_SECTOR_SIZE]
  constructor
  · rintro ⟨i, hi, hj⟩
    omega
  · intro hj
    exact ⟨j / 512, by omega, by omega⟩

/-! ## Safety -/

/-- An entry begins at a multiple of four, reduced by the sector size. -/
theorem fatByte_toNat (fs : Fat32Fs) (cluster : UInt32) :
    (cluster * 4 % fs.bytesPerSector).toNat =
      4 * (cluster.toNat % 2 ^ 30) % fs.bytesPerSector.toNat := by
  have hfour : (4 : UInt32).toNat = 4 := rfl
  rw [UInt32.toNat_mod, UInt32.toNat_mul, hfour]
  congr 1
  omega

/-- A multiple of four leaves room for four bytes. -/
theorem mod_add_four_le {x n : Nat} (hpos : 0 < n) (hle : n ≤ 512) (hodd : n ≠ 511) :
    4 * x % n + 4 ≤ 512 := by
  have hlt := Nat.mod_lt (4 * x) hpos
  by_cases hsmall : n ≤ 509
  · omega
  · -- The remainders of multiples of four are even here, or multiples of four.
    obtain rfl | rfl : n = 510 ∨ n = 512 := by omega
    · omega
    · omega

theorem Fat32Fs.Fits.accessSafe (h : fs.Fits) : AccessSafe dev fs cluster := by
  obtain ⟨hpos, hle, hodd, hspc⟩ := h
  constructor
  · intro hzero
    rw [hzero] at hpos
    exact absurd hpos (by decide)
  · intro j hj
    rw [nextClusterReads] at hj
    split at hj
    · exact absurd hj List.not_mem_nil
    · rw [List.mem_range'_1, fatByte_toNat] at hj
      rw [ATA_SECTOR_SIZE] at hle ⊢
      have hroom := mod_add_four_le (x := cluster.toNat % 2 ^ 30) hpos hle hodd
      omega
  · intro j hj
    rw [readClusterWrites, List.mem_flatMap] at hj
    obtain ⟨i, hi, hj⟩ := hj
    have hlt := List.mem_range.mp ((List.takeWhile_sublist _).mem hi)
    rw [List.mem_range'_1, ATA_SECTOR_SIZE] at hj
    rw [ATA_SECTOR_SIZE]
    omega

/-- Where every sector can be read, the buffers are large enough for no other geometry. -/
theorem Fat32Fs.fits_of_accessSafe (hread : ∀ lba, (ataReadSector dev lba).isSome)
    (hsafe : ∀ cluster, AccessSafe dev fs cluster) : fs.Fits := by
  have hentry : ∀ cluster : UInt32,
      4 * (cluster.toNat % 2 ^ 30) % fs.bytesPerSector.toNat + 4 ≤ 512 := by
    intro cluster
    have hbound := (hsafe cluster).entry (4 * (cluster.toNat % 2 ^ 30) % fs.bytesPerSector.toNat + 3)
    rw [nextClusterReads] at hbound
    split at hbound
    · next hnone =>
      have hsome := hread (fs.partitionStart + (fs.reservedSectors + cluster * 4 / fs.bytesPerSector))
      rw [← fat32ReadSector, hnone] at hsome
      exact absurd hsome Bool.false_ne_true
    · rw [List.mem_range'_1, fatByte_toNat, ATA_SECTOR_SIZE] at hbound
      omega
  have hpos : 0 < fs.bytesPerSector.toNat := by
    rw [Nat.pos_iff_ne_zero]
    exact fun hzero => (hsafe 0).divisor (UInt32.toNat_inj.mp hzero)
  refine ⟨hpos, ?_, ?_, ?_⟩
  · -- The entry of cluster 128 would begin at byte 512.
    have h128 := hentry 128
    rw [ATA_SECTOR_SIZE]
    by_contra hlarge
    rw [show 4 * ((128 : UInt32).toNat % 2 ^ 30) = 512 from rfl,
      Nat.mod_eq_of_lt (by omega)] at h128
    omega
  · intro hodd
    have h383 := hentry 383
    rw [hodd] at h383
    exact absurd h383 (by decide)
  · by_contra hlarge
    have hwrite : 8 * ATA_SECTOR_SIZE ∈ readClusterWrites dev fs 0 := by
      rw [mem_readClusterWrites_of_all fun i _ => hread _, ATA_SECTOR_SIZE]
      omega
    exact absurd ((hsafe 0).buffer _ hwrite) (Nat.lt_irrefl _)

end access

/-- The device with its unreadable sectors replaced by zeros. -/
def readableDevice (dev : AtaDevice) : AtaDevice := fun lba => some ((dev lba).getD fun _ => 0)

theorem ataReadSector_readable {dev : AtaDevice} {lba : UInt32} {data : Sector}
    (h : ataReadSector dev lba = some data) :
    ataReadSector (readableDevice dev) lba = some data := by
  rw [ataReadSector] at h ⊢
  rw [readableDevice, h]
  rfl

/-- **Which volumes the driver can handle.** For the disks on which a partition is mounted
    with this root, the driver divides and stays in its buffers for every cluster exactly
    when the geometry fits them. -/
theorem fat32Mount_safe_iff {devices : List AtaDevice} {kmallocFs kmallocRoot : Bool}
    {ataDev partition : Int} {root : Fat32Node}
    (hmount : fat32Mount devices kmallocFs kmallocRoot ataDev partition = some root) :
    (∀ (devices' : List AtaDevice) (dev : AtaDevice) (cluster : UInt32),
      fat32Mount devices' kmallocFs kmallocRoot ataDev partition = some root →
      devices'[ataDev.toNat]? = some dev → AccessSafe dev root.fs cluster) ↔ root.fs.Fits := by
  constructor
  · intro hsafe
    obtain ⟨hfs, hroot, hzero, dev, mbr, lbaStart, bpb, hdev, hmbr, hpart, hbpb, hnode⟩ :=
      fat32Mount_eq_some_iff.mp hmount
    have hdev' : (devices.map readableDevice)[ataDev.toNat]? = some (readableDevice dev) := by
      rw [List.getElem?_map, hdev, Option.map_some]
    have hmount' : fat32Mount (devices.map readableDevice) kmallocFs kmallocRoot ataDev partition =
        some root :=
      fat32Mount_eq_some_iff.mpr ⟨hfs, hroot, hzero, readableDevice dev, mbr, lbaStart, bpb, hdev',
        ataReadSector_readable hmbr, hpart, ataReadSector_readable hbpb, hnode⟩
    exact Fat32Fs.fits_of_accessSafe (fun _ => rfl) fun cluster => hsafe _ _ cluster hmount' hdev'
  · intro hfits devices' dev cluster _ _
    exact hfits.accessSafe

/-! ## Disks -/

/-- A sector with these bytes at these places. -/
def sectorOf (bytes : List (Nat × UInt8)) : Sector := fun j => (bytes.lookup j).getD 0

/-- The first partition is a FAT32 one from sector 1 on. -/
def partitionedMbr : Sector := sectorOf [(450, 0x0C), (454, 1), (510, 0x55), (511, 0xAA)]

/-- One reserved sector, one FAT of one sector, and the root directory in cluster 2. -/
def bootSector (bytesPerSector : Nat) (sectorsPerCluster : UInt8) : Sector :=
  sectorOf [(11, UInt8.ofNat bytesPerSector), (12, UInt8.ofNat (bytesPerSector / 256)),
    (13, sectorsPerCluster), (14, 1), (16, 1), (36, 1), (44, 2)]

def partitionedDisk (bpb : Sector) (volume : Nat → Sector) : AtaDevice := fun lba =>
  some (if lba = 0 then partitionedMbr else if lba = 1 then bpb else volume lba)

theorem fat32Mount_partitionedDisk (bpb : Sector) (volume : Nat → Sector) :
    fat32Mount [partitionedDisk bpb volume] true true 0 0 =
      some ⟨fat32Volume 1 bpb, wordAt bpb 44, true, 0⟩ :=
  fat32Mount_eq_some_iff.mpr ⟨rfl, rfl, by decide, _, partitionedMbr, 1, bpb, rfl, rfl, by decide, rfl,
    rfl⟩

theorem fat32Mount_safe_eight :
    fat32Mount [partitionedDisk (bootSector 512 8) fun _ _ => 0] true true 0 0 =
        some ⟨fat32Volume 1 (bootSector 512 8), 2, true, 0⟩ ∧
      AccessSafe (partitionedDisk (bootSector 512 8) fun _ _ => 0)
        (fat32Volume 1 (bootSector 512 8)) 2 := by
  have hmount := fat32Mount_partitionedDisk (bootSector 512 8) fun _ _ => 0
  refine ⟨hmount, (fat32Mount_safe_iff hmount).mpr ?_ _ _ 2 hmount rfl⟩
  exact ⟨by decide, by decide, by decide, by decide⟩

/-- A volume with clusters of 8 KiB: reading one stores behind the buffer. -/
theorem fat32Mount_overruns_buffer :
    ¬ ∀ (devices : List AtaDevice) (kmallocFs kmallocRoot : Bool) (ataDev partition : Int)
      (root : Fat32Node) (dev : AtaDevice) (cluster : UInt32),
      fat32Mount devices kmallocFs kmallocRoot ataDev partition = some root →
      devices[ataDev.toNat]? = some dev → AccessSafe dev root.fs cluster := by
  intro hall
  have hmount := fat32Mount_partitionedDisk (bootSector 512 16) fun _ _ => 0
  have hsafe := hall _ _ _ _ _ _ _ 2 hmount rfl
  have hwrite : 8 * ATA_SECTOR_SIZE ∈ readClusterWrites
      (partitionedDisk (bootSector 512 16) fun _ _ => 0) (fat32Volume 1 (bootSector 512 16)) 2 := by
    rw [mem_readClusterWrites_of_all fun i _ => rfl]
    decide
  exact absurd (hsafe.buffer _ hwrite) (Nat.lt_irrefl _)

end NemoOS
