import Mathlib
import NemoOS.Lib.Loops

/-!
# The FAT32 driver

The functions of `fs/fat32.cpp` that follow cluster chains and read files, over an
ATA device. Numbers are `UInt32` as in the source, with its wrapping arithmetic.

A device answers a sector read with the 512 bytes of the sector or an error. The
driver's loops follow the FAT, whatever it contains, so they are `Loops.loop`s and
may run for ever. A local buffer is a function from positions to bytes; `none` is a
byte that was never written, and reading it yields whatever the stack holds.
-/

namespace NemoOS

open Loops

def ATA_SECTOR_SIZE : Nat := 512

abbrev Sector := Nat → UInt8

/-- What a device answers to a read of a sector, by its 28-bit address. -/
abbrev AtaDevice := Nat → Option Sector

/-- `ata_read_sector`: the registers take the low 28 bits of the sector number. -/
def ataReadSector (dev : AtaDevice) (lba : UInt32) : Option Sector := dev (lba.toNat % 2 ^ 28)

def FAT32_EOC : UInt32 := 0x0FFFFFF8

structure Fat32Fs where
  partitionStart : UInt32
  bytesPerSector : UInt32
  sectorsPerCluster : UInt32
  reservedSectors : UInt32
  dataStart : UInt32
deriving DecidableEq

/-- A `fat32_node`, with `size` from the `vfs_node` it begins with. -/
structure Fat32Node where
  fs : Fat32Fs
  firstCluster : UInt32
  isDir : Bool
  size : UInt32
deriving DecidableEq

def fat32ReadSector (dev : AtaDevice) (fs : Fat32Fs) (lba : UInt32) : Option Sector :=
  ataReadSector dev (fs.partitionStart + lba)

/-- `*(uint32_t*)(buf + j)`. -/
def wordAt (buf : Nat → UInt8) (j : Nat) : UInt32 :=
  UInt32.ofNat ((buf j).toNat + 2 ^ 8 * (buf (j + 1)).toNat + 2 ^ 16 * (buf (j + 2)).toNat +
    2 ^ 24 * (buf (j + 3)).toNat)

def fat32NextCluster (dev : AtaDevice) (fs : Fat32Fs) (cluster : UInt32) : UInt32 :=
  let fatOffset := cluster * 4
  let fatSector := fs.reservedSectors + fatOffset / fs.bytesPerSector
  let fatByte := fatOffset % fs.bytesPerSector
  match fat32ReadSector dev fs fatSector with
  | none => FAT32_EOC
  | some buf => wordAt buf fatByte.toNat &&& 0x0FFFFFFF

/-- The first sector of a cluster. -/
def fat32ClusterToLba (fs : Fat32Fs) (cluster : UInt32) : UInt32 :=
  fs.dataStart + (cluster - 2) * fs.sectorsPerCluster

/-- One sector of `fat32_read_cluster`, stored at its place in the buffer. -/
def storeSector (dev : AtaDevice) (fs : Fat32Fs) (sector : UInt32)
    (buf : Nat → Option UInt8) (i : Nat) : Option (Nat → Option UInt8) :=
  (fat32ReadSector dev fs (sector + UInt32.ofNat i)).map fun data j =>
    if i * ATA_SECTOR_SIZE ≤ j ∧ j < (i + 1) * ATA_SECTOR_SIZE then
      some (data (j - i * ATA_SECTOR_SIZE))
    else buf j

/-- What `fat32_read_cluster` leaves in a fresh buffer; `none` if a sector cannot
    be read. The buffer has no end here. In the callers it is a `cluster_buf` of eight
    sectors, so this is their buffer for volumes with up to eight sectors per cluster;
    what is stored behind it otherwise is `readClusterWrites`. -/
def fat32ReadCluster (dev : AtaDevice) (fs : Fat32Fs) (cluster : UInt32) :
    Option (Nat → Option UInt8) :=
  (List.range fs.sectorsPerCluster.toNat).foldlM
    (storeSector dev fs (fat32ClusterToLba fs cluster)) fun _ => none

/-- The conversion of a `uint32_t` to the `int` that is returned. -/
def toInt32 (x : UInt32) : Int := if x.toNat < 2 ^ 31 then x.toNat else x.toNat - 2 ^ 32

/-! ## Reading a file -/

/-- The local variables of the loop of `fat32_read`, with the bytes stored so
    far. -/
structure ReadState where
  cluster : UInt32
  offset : UInt32
  read : UInt32
  out : List UInt8

def Fat32Fs.bytesPerCluster (fs : Fat32Fs) : UInt32 := fs.sectorsPerCluster * 512

def clusterStart (bytesPerCluster cluster : UInt32) : UInt32 := (cluster - 2) * bytesPerCluster

/-- `to_read`: what is left of the cluster, but not more than what is wanted. -/
def toRead (bytesPerCluster clusterOff wanted : UInt32) : UInt32 :=
  if bytesPerCluster - clusterOff > wanted then wanted else bytesPerCluster - clusterOff

/-- One round of the loop. `stack n j` is what the loop finds at `cluster_buf[j]`
    outside the bytes that were stored there, when it stores the `n`-th byte. -/
def readStep (dev : AtaDevice) (fs : Fat32Fs) (stack : Nat → Nat → UInt8) (size : UInt32)
    (s : ReadState) : ReadState ⊕ (Int × List UInt8) :=
  if s.cluster < FAT32_EOC ∧ s.read < size then
    let start := clusterStart fs.bytesPerCluster s.cluster
    if s.offset < start + fs.bytesPerCluster then
      let clusterOff := s.offset - start
      let n := toRead fs.bytesPerCluster clusterOff (size - s.read)
      match fat32ReadCluster dev fs s.cluster with
      | none => .inr (toInt32 s.read, s.out)
      | some buf =>
          .inl {
            cluster := fat32NextCluster dev fs s.cluster
            offset := s.offset + n
            read := s.read + n
            out := s.out ++ (List.range n.toNat).map fun i =>
              let j := (clusterOff + UInt32.ofNat i).toNat
              (buf j).getD (stack (s.read.toNat + i) j) }
    else .inl { s with cluster := fat32NextCluster dev fs s.cluster }
  else .inr (toInt32 s.read, s.out)

/-- The size after `if(offset + size > node->size) size = node->size - offset`. -/
def clippedSize (node : Fat32Node) (offset size : UInt32) : UInt32 :=
  if offset + size > node.size then node.size - offset else size

/-- `fat32_read` returns `r.1` and has stored the bytes `r.2`. -/
def Fat32ReadReturns (dev : AtaDevice) (stack : Nat → Nat → UInt8) (node : Fat32Node)
    (offset size : UInt32) (r : Int × List UInt8) : Prop :=
  if node.isDir then r = (-1, [])
  else if offset ≥ node.size then r = (0, [])
  else
    Halts (readStep dev node.fs stack (clippedSize node offset size))
      ⟨node.firstCluster, offset, 0, []⟩ r

end NemoOS
