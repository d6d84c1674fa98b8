import NemoOS.Fat32Volume
import NemoOS.Vfs

/-!
# Directories of a FAT32 volume

`fat32_finddir` and `fat32_readdir` walk the clusters of a directory with the same
filter and the same decoder of 8.3 names. `listEntries` is what the filter lets through
of one cluster, and `dirEntries` of a whole chain. The first function finds the first
entry with the name in this list (`finddir_halts`) and the second reads the list at the
index (`readdir_halts`): its counter has 32 bits, so the entries from the `2 ^ 32`-th on
are out of its reach.
-/

namespace NemoOS

open Loops

def ATTR_DIRECTORY : UInt8 := 0x10
def ATTR_LFN : UInt8 := 0x0F
def FS_FILE : UInt32 := 1
def FS_DIR : UInt32 := 2
def SPACE : UInt8 := 32

/-! ## Entries -/

/-- A `fat32_dirent`, with the fields the driver looks at. -/
structure Fat32Dirent where
  name : Nat → UInt8
  attr : UInt8
  clusterHigh : UInt32
  clusterLow : UInt32
  fileSize : UInt32

/-- `*(uint16_t*)(buf + j)`. -/
def halfAt (buf : Nat → UInt8) (j : Nat) : UInt32 :=
  UInt32.ofNat ((buf j).toNat + 2 ^ 8 * (buf (j + 1)).toNat)

/-- `(fat32_dirent*)(cluster_buf + off)`. -/
def direntAt (buf : Nat → UInt8) (off : Nat) : Fat32Dirent where
  name := fun j => buf (off + j)
  attr := buf (off + 11)
  clusterHigh := halfAt buf (off + 20)
  clusterLow := halfAt buf (off + 26)
  fileSize := wordAt buf (off + 28)

namespace Fat32Dirent

def isDirectory (e : Fat32Dirent) : Bool := e.attr &&& ATTR_DIRECTORY != 0

/-- Deleted entries and parts of long names are passed over. -/
def skipped (e : Fat32Dirent) : Bool := e.name 0 == 0xE5 || e.attr == ATTR_LFN

/-- The string in `entry_name`: the name up to a blank and, for files with an extension, a
    dot and the extension up to a blank. It ends where one of the bytes is zero. -/
def entryName (e : Fat32Dirent) : CString :=
  let base := ((List.range 8).map e.name).takeWhile (· ≠ SPACE)
  let extension :=
    if !e.isDirectory && e.name 8 != SPACE then
      DOT :: ((List.range' 8 3).map e.name).takeWhile (· ≠ SPACE)
    else []
  (base ++ extension).takeWhile (· ≠ 0)

end Fat32Dirent

/-- What both functions store in the `vfs_node` of an entry. -/
structure DirChild where
  name : CString
  flags : UInt32
  size : UInt32
  inode : UInt32
deriving DecidableEq

def dirChild (off : Nat) (e : Fat32Dirent) : DirChild where
  name := e.entryName
  flags := if e.isDirectory then FS_DIR else FS_FILE
  size := e.fileSize
  inode := UInt32.ofNat off

/-- The rest of the node that `fat32_finddir` makes. -/
def childNode (fs : Fat32Fs) (e : Fat32Dirent) : Fat32Node where
  fs := fs
  firstCluster := e.clusterHigh <<< 16 ||| e.clusterLow
  isDir := e.isDirectory
  size := e.fileSize

/-! ## The two functions -/

/-- `for(off = 0; off + sizeof(fat32_dirent) <= bytes_per_cluster; off += sizeof(fat32_dirent))`. -/
def direntOffsets (fs : Fat32Fs) : List Nat :=
  (List.range (fs.bytesPerCluster.toNat / 32)).map (32 * ·)

/-- The bytes of the cluster buffer. Those the loops look at have all been stored. -/
def stored (buf : Nat → Option UInt8) (j : Nat) : UInt8 := (buf j).getD 0

/-- The inner loop of `fat32_finddir`: the entry with the name and its offset. -/
def findEntry (buf : Nat → UInt8) (name : CString) : List Nat → Option (Nat × Fat32Dirent)
  | [] => none
  | off :: rest =>
      let e := direntAt buf off
      if e.name 0 = 0 then none
      else if e.skipped then findEntry buf name rest
      else if e.entryName ≠ name then findEntry buf name rest
      else some (off, e)

/-- One round of `fat32_finddir`, with the outcome of `kmalloc`; `none` for a null
    pointer. -/
def finddirStep (dev : AtaDevice) (fs : Fat32Fs) (kmalloc : Bool) (name : CString)
    (cluster : UInt32) : UInt32 ⊕ Option (DirChild × Fat32Node) :=
  if cluster < FAT32_EOC then
    match fat32ReadCluster dev fs cluster with
    | none => .inr none
    | some buf =>
        match findEntry (stored buf) name (direntOffsets fs) with
        | none => .inl (fat32NextCluster dev fs cluster)
        | some (off, e) => .inr (if kmalloc then some (dirChild off e, childNode fs e) else none)
  else .inr none

def Fat32FinddirReturns (dev : AtaDevice) (node : Fat32Node) (kmalloc : Bool) (name : CString)
    (r : Option (DirChild × Fat32Node)) : Prop :=
  if node.isDir then Halts (finddirStep dev node.fs kmalloc name) node.firstCluster r
  else r = none

/-- The inner loop of `fat32_readdir`: the entry at the index, or the new count. -/
def countEntries (buf : Nat → UInt8) (index : UInt32) :
    List Nat → UInt32 → UInt32 ⊕ (Nat × Fat32Dirent)
  | [], count => .inl count
  | off :: rest, count =>
      let e := direntAt buf off
      if e.name 0 = 0 then .inl count
      else if e.skipped then countEntries buf index rest count
      else if count = index then .inr (off, e)
      else countEntries buf index rest (count + 1)

/-- One round of `fat32_readdir`, on `cluster` and `count`; `none` for the result -1. -/
def readdirStep (dev : AtaDevice) (fs : Fat32Fs) (index : UInt32) (s : UInt32 × UInt32) :
    (UInt32 × UInt32) ⊕ Option DirChild :=
  if s.1 < FAT32_EOC then
    match fat32ReadCluster dev fs s.1 with
    | none => .inr none
    | some buf =>
        match countEntries (stored buf) index (direntOffsets fs) s.2 with
        | .inl count => .inl (fat32NextCluster dev fs s.1, count)
        | .inr (off, e) => .inr (some (dirChild off e))
  else .inr none

def Fat32ReaddirReturns (dev : AtaDevice) (node : Fat32Node) (index : UInt32)
    (r : Option DirChild) : Prop :=
  if node.isDir then Halts (readdirStep dev node.fs index) (node.firstCluster, 0) r
  else r = none

/-! ## The entries of a directory -/

/-- What the filter lets through: everything before the first entry that was never used. -/
def listEntries (buf : Nat → UInt8) : List Nat → List (Nat × Fat32Dirent)
  | [] => []
  | off :: rest =>
      let e := direntAt buf off
      if e.name 0 = 0 then []
      else if e.skipped then listEntries buf rest
      else (off, e) :: listEntries buf rest

/-- The entries of one cluster; none if it cannot be read. -/
def clusterEntries (dev : AtaDevice) (fs : Fat32Fs) (cluster : UInt32) :
    List (Nat × Fat32Dirent) :=
  match fat32ReadCluster dev fs cluster with
  | none => []
  | some buf => listEntries (stored buf) (direntOffsets fs)

def dirEntries (dev : AtaDevice) (fs : Fat32Fs) (chain : List UInt32) : List (Nat × Fat32Dirent) :=
  chain.flatMap (clusterEntries dev fs)

/-- A finite chain of clusters that can be read. -/
structure ReadableChain (dev : AtaDevice) (fs : Fat32Fs) (first : UInt32) (chain : List UInt32) :
    Prop where
  links : FatChain (fat32NextCluster dev fs) first chain
  lt_eoc : ∀ c ∈ chain, c < FAT32_EOC
  readable : ∀ c ∈ chain, (fat32ReadCluster dev fs c).isSome

/-- The same name. -/
def named (name : CString) (x : Nat × Fat32Dirent) : Bool := x.2.entryName = name

theorem findEntry_eq (buf : Nat → UInt8) (name : CString) (offsets : List Nat) :
    findEntry buf name offsets = (listEntries buf offsets).find? (named name) := by
  induction offsets with
  | nil => rfl
  | cons off rest ih =>
      simp only [findEntry, listEntries]
      split
      · rfl
      · split
        · exact ih
        · rw [List.find?_cons]
          by_cases hname : (direntAt buf off).entryName = name
          · simp [named, hname]
          · simp [named, hname, ih]

/-- How far the counter is from the index. -/
theorem toNat_sub_succ {index count : UInt32} (hne : count ≠ index) :
    (index - count).toNat = (index - (count + 1)).toNat + 1 := by
  have hne' : count.toNat ≠ index.toNat := fun heq => hne (UInt32.toNat_inj.mp heq)
  have h1 : (1 : UInt32).toNat = 1 := rfl
  have hcount := count.toNat_lt
  have hindex := index.toNat_lt
  rw [UInt32.toNat_sub, UInt32.toNat_sub, UInt32.toNat_add, h1]
  omega

/-- The counter wraps around, so that the entry it stops at is the one as far on as the
    index is from the counter. -/
theorem countEntries_eq (buf : Nat → UInt8) (index : UInt32) (offsets : List Nat)
    (count : UInt32) :
    countEntries buf index offsets count =
      match (listEntries buf offsets)[(index - count).toNat]? with
      | some x => .inr x
      | none => .inl (count + UInt32.ofNat (listEntries buf offsets).length) := by
  induction offsets generalizing count with
  | nil => simp [countEntries, listEntries]
  | cons off rest ih =>
      simp only [countEntries, listEntries]
      split
      · simp
      · split
        · exact ih count
        · split
          · next heq => simp [heq]
          · next hne =>
            rw [ih, toNat_sub_succ hne, List.getElem?_cons_succ, List.length_cons]
            cases (listEntries buf rest)[(index - (count + 1)).toNat]? with
            | some x => rfl
            | none =>
                simp only
                rw [UInt32.add_assoc, Nat.add_comm, UInt32.ofNat_add]
                rfl

section chain

variable {dev : AtaDevice} {fs : Fat32Fs} {first : UInt32} {chain : List UInt32}

/-- A chain ends at once or goes on from a cluster that has been read. -/
theorem ReadableChain.cases (h : ReadableChain dev fs first chain) :
    FAT32_EOC ≤ first ∧ chain = [] ∨
      first < FAT32_EOC ∧ ∃ buf rest, fat32ReadCluster dev fs first = some buf ∧
        chain = first :: rest ∧ ReadableChain dev fs (fat32NextCluster dev fs first) rest := by
  obtain ⟨hlinks, hlt, hreadable⟩ := h
  cases hlinks with
  | last heoc => exact Or.inl ⟨heoc, rfl⟩
  | more hrest =>
      obtain ⟨buf, hbuf⟩ := Option.isSome_iff_exists.mp (hreadable first List.mem_cons_self)
      exact Or.inr ⟨hlt first List.mem_cons_self, buf, _, hbuf, rfl, hrest,
        fun c hc => hlt c (List.mem_cons_of_mem _ hc),
        fun c hc => hreadable c (List.mem_cons_of_mem _ hc)⟩

theorem clusterEntries_eq {c : UInt32} {buf : Nat → Option UInt8}
    (hbuf : fat32ReadCluster dev fs c = some buf) :
    clusterEntries dev fs c = listEntries (stored buf) (direntOffsets fs) := by
  rw [clusterEntries, hbuf]

/-- `fat32_finddir` returns the first entry with the name. -/
theorem finddir_halts (h : ReadableChain dev fs first chain) (name : CString) :
    Halts (finddirStep dev fs true name) first
      (((dirEntries dev fs chain).find? (named name)).map fun x =>
        (dirChild x.1 x.2, childNode fs x.2)) := by
  induction chain generalizing first with
  | nil =>
      rcases h.cases with ⟨heoc, -⟩ | ⟨-, buf, rest, -, hchain, -⟩
      · exact halts_of_inr (by simp [finddirStep, UInt32.not_lt.mpr heoc, dirEntries])
      · exact absurd hchain (List.cons_ne_nil _ _).symm
  | cons c chain ih =>
      rcases h.cases with ⟨-, hchain⟩ | ⟨hlt, buf, rest, hbuf, hchain, hrest⟩
      · exact absurd hchain (List.cons_ne_nil _ _)
      · obtain ⟨rfl, rfl⟩ := List.cons.inj hchain
        rw [dirEntries, List.flatMap_cons, List.find?_append, clusterEntries_eq hbuf,
          ← findEntry_eq]
        cases hfind : findEntry (stored buf) name (direntOffsets fs) with
        | some x => exact halts_of_inr (by simp [finddirStep, hlt, hbuf, hfind])
        | none => exact halts_of_inl (by simp [finddirStep, hlt, hbuf, hfind]) (ih hrest)

/-- What the counter still has to go after a cluster. -/
theorem toNat_sub_add {index count : UInt32} {n : Nat} (hle : n ≤ (index - count).toNat) :
    (index - (count + UInt32.ofNat n)).toNat = (index - count).toNat - n := by
  have hn := (index - count).toNat_lt
  have hcount := count.toNat_lt
  have hindex := index.toNat_lt
  rw [UInt32.toNat_sub] at hle hn ⊢
  rw [UInt32.toNat_sub, UInt32.toNat_add, UInt32.toNat_ofNat']
  omega

/-- `fat32_readdir` returns the entry at the index. -/
theorem readdir_halts (h : ReadableChain dev fs first chain) (index count : UInt32) :
    Halts (readdirStep dev fs index) (first, count)
      ((dirEntries dev fs chain)[(index - count).toNat]?.map fun x => dirChild x.1 x.2) := by
  induction chain generalizing first count with
  | nil =>
      rcases h.cases with ⟨heoc, -⟩ | ⟨-, buf, rest, -, hchain, -⟩
      · exact halts_of_inr (by simp [readdirStep, UInt32.not_lt.mpr heoc, dirEntries])
      · exact absurd hchain (List.cons_ne_nil _ _).symm
  | cons c chain ih =>
      rcases h.cases with ⟨-, hchain⟩ | ⟨hlt, buf, rest, hbuf, hchain, hrest⟩
      · exact absurd hchain (List.cons_ne_nil _ _)
      · obtain ⟨rfl, rfl⟩ := List.cons.inj hchain
        have hcount := countEntries_eq (stored buf) index (direntOffsets fs) count
        rw [dirEntries, List.flatMap_cons, clusterEntries_eq hbuf]
        by_cases hhere : (index - count).toNat <
            (listEntries (stored buf) (direntOffsets fs)).length
        · rw [List.getElem?_append_left hhere]
          rw [List.getElem?_eq_getElem hhere] at hcount ⊢
          exact halts_of_inr (by simp [readdirStep, hlt, hbuf, hcount])
        · have hpast := Nat.le_of_not_lt hhere
          rw [List.getElem?_append_right hpast, ← toNat_sub_add hpast]
          rw [List.getElem?_eq_none hpast] at hcount
          exact halts_of_inl (by simp only [readdirStep, hlt, hbuf, hcount, if_true])
            (ih hrest _)

end chain

variable {dev : AtaDevice} {node : Fat32Node} {chain : List UInt32}

/-- The entry that `fat32_readdir` returns, as an entry of the list. -/
theorem readdirReturns_iff (hdir : node.isDir = true)
    (hchain : ReadableChain dev node.fs node.firstCluster chain) {i : UInt32}
    {r : Option DirChild} :
    Fat32ReaddirReturns dev node i r ↔
      (dirEntries dev node.fs chain)[i.toNat]?.map (fun x => dirChild x.1 x.2) = r := by
  have hhalts := readdir_halts hchain i 0
  rw [UInt32.sub_zero] at hhalts
  rw [Fat32ReaddirReturns, if_pos hdir]
  constructor
  · exact fun h => hhalts.unique h
  · rintro rfl
    exact hhalts

/-- The sectors that were stored one after the other, and where. -/
theorem foldlM_storeSector {sector : UInt32} {is : List Nat} {buf buf' : Nat → Option UInt8}
    (hfold : is.foldlM (storeSector dev fs sector) buf = some buf') :
    (∀ i ∈ is, (fat32ReadSector dev fs (sector + UInt32.ofNat i)).isSome) ∧
      ∀ j, (buf' j).isSome ↔ (buf j).isSome ∨ ∃ i ∈ is, j / ATA_SECTOR_SIZE = i := by
  induction is generalizing buf with
  | nil =>
      obtain rfl := Option.some.inj hfold
      exact ⟨fun i hi => absurd hi List.not_mem_nil, fun j => by simp⟩
  | cons i is ih =>
      rw [List.foldlM_cons] at hfold
      obtain ⟨next, hstore, hrest⟩ := Option.bind_eq_some_iff.mp hfold
      obtain ⟨data, hdata, rfl⟩ := Option.map_eq_some_iff.mp hstore
      obtain ⟨hread, hwritten⟩ := ih hrest
      have hsome : (fat32ReadSector dev fs (sector + UInt32.ofNat i)).isSome := by
        rw [hdata]
        rfl
      refine ⟨List.forall_mem_cons.mpr ⟨hsome, hread⟩, fun j => ?_⟩
      have hplace : i * ATA_SECTOR_SIZE ≤ j ∧ j < (i + 1) * ATA_SECTOR_SIZE ↔
          j / ATA_SECTOR_SIZE = i := by
        rw [ATA_SECTOR_SIZE]
        omega
      rw [hwritten, List.exists_mem_cons_iff]
      simp only [hplace]
      by_cases hhere : j / ATA_SECTOR_SIZE = i
      · simp [hhere]
      · simp [hhere]

/-- What has been stored is the sectors of the cluster. -/
theorem isSome_fat32ReadCluster {cluster : UInt32} {buf : Nat → Option UInt8}
    (hbuf : fat32ReadCluster dev fs cluster = some buf) {j : Nat} :
    (buf j).isSome ↔ j < fs.sectorsPerCluster.toNat * ATA_SECTOR_SIZE := by
  rw [(foldlM_storeSector hbuf).2]
  simp only [Option.isSome_none, Bool.false_eq_true, false_or, List.mem_range, exists_eq_right',
    ATA_SECTOR_SIZE]
  omega

/-- **The two functions agree.** For a volume with one to eight sectors per cluster, a
    directory with a finite chain of clusters that can be read and at most `2 ^ 32` entries,
    and every name: no cluster goes beyond the eight sectors of `cluster_buf`,
    `fat32_finddir` returns a node if and only if `fat32_readdir` reports the name at some
    index, and the node has the name, flags, size and inode reported at the least such
    index. -/
theorem finddir_agrees_readdir (hdir : node.isDir = true)
    (hsectors : node.fs.sectorsPerCluster.toNat ∈ Set.Icc 1 8)
    (hchain : ReadableChain dev node.fs node.firstCluster chain)
    (hfew : (dirEntries dev node.fs chain).length ≤ 2 ^ 32) (name : CString) :
    (∀ c ∈ chain, ∀ buf ∈ fat32ReadCluster dev node.fs c, ∀ j, (buf j).isSome →
      j < 8 * ATA_SECTOR_SIZE) ∧
    ∃ r, Fat32FinddirReturns dev node true name r ∧
      (r.isSome ↔ ∃ i child, Fat32ReaddirReturns dev node i (some child) ∧ child.name = name) ∧
      ∀ child ∈ r.map Prod.fst, ∃ i, Fat32ReaddirReturns dev node i (some child) ∧
        child.name = name ∧
        ∀ j < i, ∀ child', Fat32ReaddirReturns dev node j (some child') → child'.name ≠ name := by
  have hfits : ∀ c ∈ chain, ∀ buf ∈ fat32ReadCluster dev node.fs c, ∀ j, (buf j).isSome →
      j < 8 * ATA_SECTOR_SIZE := fun c _ buf hbuf j hj =>
    ((isSome_fat32ReadCluster hbuf).mp hj).trans_le (Nat.mul_le_mul_right _ hsectors.2)
  have hfind := finddir_halts hchain name
  refine ⟨hfits, _, by rwa [Fat32FinddirReturns, if_pos hdir], ?_⟩
  simp only [readdirReturns_iff hdir hchain, Option.map_eq_some_iff]
  generalize dirEntries dev node.fs chain = entries at hfew
  cases hfirst : entries.find? (named name) with
  | none =>
      rw [List.find?_eq_none] at hfirst
      refine ⟨iff_of_false (by simp) ?_, by simp⟩
      rintro ⟨i, child, ⟨x, hx, rfl⟩, hname⟩
      exact hfirst x (List.mem_of_getElem? hx) (by simpa [named, dirChild] using hname)
  | some x =>
      obtain ⟨hx, i, hi, hget, hbefore⟩ := List.find?_eq_some_iff_getElem.mp hfirst
      have hindex : (UInt32.ofNat i).toNat = i := by
        rw [UInt32.toNat_ofNat']
        omega
      have hname : (dirChild x.1 x.2).name = name := by simpa [named, dirChild] using hx
      have hat : entries[(UInt32.ofNat i).toNat]? = some x := by
        rw [hindex, List.getElem?_eq_getElem hi, hget]
      refine ⟨iff_of_true (by simp) ⟨_, _, ⟨x, hat, rfl⟩, hname⟩, ?_⟩
      intro child hchild
      obtain rfl : dirChild x.1 x.2 = child := by simpa using hchild
      refine ⟨_, ⟨x, hat, rfl⟩, hname, ?_⟩
      rintro j hj child' ⟨y, hy, rfl⟩ hname'
      rw [UInt32.lt_iff_toNat_lt, hindex] at hj
      obtain ⟨hj', hget'⟩ := List.getElem?_eq_some_iff.mp hy
      have hnot := hbefore j.toNat hj
      rw [hget'] at hnot
      simp [named, dirChild] at hnot hname'
      exact hnot hname'

/-! ## A directory with more than `2 ^ 32` entries

Sector numbers have 28 bits for the device, so that clusters `c` and `c + 2 ^ 25` with eight
sectors each are the same place on the disk. A chain that uses `2 ^ 22` places eight times
and then goes on to one more has `2 ^ 32` entries before the last cluster. -/

/-- Eight sectors a cluster, room for `2 ^ 28` FAT entries before the data area. -/
def hugeVolume : Fat32Fs where
  partitionStart := 1
  bytesPerSector := 512
  sectorsPerCluster := 8
  reservedSectors := 1
  dataStart := 2097153

/-- The next cluster: the same place again, or the next place. -/
def hugeNext (c : Nat) : Nat :=
  if c = 2 + 2 ^ 22 then 0x0FFFFFFF
  else if c < 2 + 7 * 2 ^ 25 then c + 2 ^ 25
  else c - 7 * 2 ^ 25 + 1

/-- A sector of files with a name of one letter. -/
def letterSector (letter : UInt8) : Sector := fun j =>
  if j % 32 = 0 then letter else if j % 32 < 11 then SPACE else 0

/-- The FAT, then `2 ^ 22` clusters of files `A`, then files `X`. -/
def hugeDevice : AtaDevice := fun lba =>
  some <|
    if lba < 2097154 then fun j => UInt8.ofNat (hugeNext (128 * (lba - 2) + j / 4) / 256 ^ (j % 4))
    else if lba < 2097154 + 2 ^ 25 then letterSector 65
    else letterSector 88

/-- The `k`-th cluster of the chain. -/
def hugeCluster (k : Nat) : UInt32 := UInt32.ofNat (2 + k / 8 + 2 ^ 25 * (k % 8))

def hugeDirectory (first : UInt32) : Fat32Node := ⟨hugeVolume, first, true, 0⟩

theorem hugeCluster_toNat {k : Nat} (hk : k ≤ 2 ^ 25) :
    (hugeCluster k).toNat = 2 + k / 8 + 2 ^ 25 * (k % 8) := by
  rw [hugeCluster, UInt32.toNat_ofNat']
  omega

theorem hugeNext_lt {c : Nat} (hc : c < 2 ^ 28) : hugeNext c < 2 ^ 32 := by
  unfold hugeNext
  split
  · omega
  · split
    · omega
    · omega

/-- The bytes of a word put together again. -/
theorem wordAt_bytes {f : Nat → Nat} {n j : Nat} (hj : j % 4 = 0) (hn : f (j / 4) = n)
    (hlt : n < 2 ^ 32) :
    wordAt (fun j => UInt8.ofNat (f (j / 4) / 256 ^ (j % 4))) j = UInt32.ofNat n := by
  have hdiv : ∀ i < 4, (j + i) / 4 = j / 4 ∧ (j + i) % 4 = i := by
    intro i hi
    omega
  simp only [wordAt, (hdiv 1 (by decide)).1, (hdiv 1 (by decide)).2, (hdiv 2 (by decide)).1,
    (hdiv 2 (by decide)).2, (hdiv 3 (by decide)).1, (hdiv 3 (by decide)).2, hj, hn,
    UInt8.toNat_ofNat']
  congr 1
  omega

theorem fat32NextCluster_huge {c : UInt32} (hc : c.toNat < 2 ^ 28) :
    fat32NextCluster hugeDevice hugeVolume c =
      UInt32.ofNat (hugeNext c.toNat) &&& 0x0FFFFFFF := by
  have h4 : (4 : UInt32).toNat = 4 := rfl
  have h512 : (512 : UInt32).toNat = 512 := rfl
  have h1 : (1 : UInt32).toNat = 1 := rfl
  have hoffset : (c * 4).toNat = 4 * c.toNat := by
    rw [UInt32.toNat_mul, h4]
    omega
  have hlba : (hugeVolume.partitionStart +
      (hugeVolume.reservedSectors + c * 4 / hugeVolume.bytesPerSector)).toNat % 2 ^ 28 =
      2 + c.toNat / 128 := by
    simp only [hugeVolume]
    rw [UInt32.toNat_add, UInt32.toNat_add, UInt32.toNat_div, hoffset, h512, h1]
    omega
  have hread : fat32ReadSector hugeDevice hugeVolume
      (hugeVolume.reservedSectors + c * 4 / hugeVolume.bytesPerSector) =
      some fun j => UInt8.ofNat (hugeNext (128 * (c.toNat / 128) + j / 4) / 256 ^ (j % 4)) := by
    rw [fat32ReadSector, ataReadSector, hlba, hugeDevice, if_pos (by omega), Nat.add_sub_cancel_left]
  have hbyte : (c * 4 % hugeVolume.bytesPerSector).toNat = 4 * (c.toNat % 128) := by
    simp only [hugeVolume]
    rw [UInt32.toNat_mod, hoffset, h512]
    omega
  have hentry : 128 * (c.toNat / 128) + 4 * (c.toNat % 128) / 4 = c.toNat := by omega
  have hlt := hugeNext_lt hc
  simp only [fat32NextCluster, hread, hbyte]
  rw [wordAt_bytes (f := fun q => hugeNext (128 * (c.toNat / 128) + q)) (by omega)
    (congrArg hugeNext hentry) hlt]

theorem mask_of_lt {n : Nat} (hn : n < 2 ^ 28) :
    UInt32.ofNat n &&& 0x0FFFFFFF = UInt32.ofNat n := by
  apply UInt32.toNat_inj.mp
  have hmask : (0x0FFFFFFF : UInt32).toNat = 2 ^ 28 - 1 := rfl
  rw [UInt32.toNat_and, hmask, Nat.and_two_pow_sub_one_eq_mod, UInt32.toNat_ofNat']
  omega

/-- The chain goes from each cluster to the next. -/
theorem fat32NextCluster_hugeCluster {k : Nat} (hk : k < 2 ^ 25) :
    fat32NextCluster hugeDevice hugeVolume (hugeCluster k) = hugeCluster (k + 1) := by
  have hcluster := hugeCluster_toNat (Nat.le_of_lt hk)
  have hnext : hugeNext (hugeCluster k).toNat = 2 + (k + 1) / 8 + 2 ^ 25 * ((k + 1) % 8) := by
    rw [hcluster, hugeNext, if_neg (by omega)]
    split
    · omega
    · omega
  rw [fat32NextCluster_huge (by omega), hnext, mask_of_lt (by omega), hugeCluster]

/-- The last cluster is the end of the chain. -/
theorem fat32NextCluster_huge_last :
    FAT32_EOC ≤ fat32NextCluster hugeDevice hugeVolume (hugeCluster (2 ^ 25)) := by
  have hcluster := hugeCluster_toNat (Nat.le_refl (2 ^ 25))
  have hnext : hugeNext (hugeCluster (2 ^ 25)).toNat = 0x0FFFFFFF := by
    rw [hcluster, hugeNext, if_pos (by omega)]
  rw [fat32NextCluster_huge (by omega), hnext]
  decide

theorem hugeCluster_lt {k : Nat} (hk : k ≤ 2 ^ 25) : hugeCluster k < FAT32_EOC := by
  have heoc : FAT32_EOC.toNat = 268435448 := rfl
  rw [UInt32.lt_iff_toNat_lt, hugeCluster_toNat hk, heoc]
  omega

/-- The letter of the files in the `k`-th cluster. -/
def hugeLetter (k : Nat) : UInt8 := if k < 2 ^ 25 then 65 else 88

theorem fat32ReadCluster_huge {k : Nat} (hk : k ≤ 2 ^ 25) :
    fat32ReadCluster hugeDevice hugeVolume (hugeCluster k) =
      some fun j => if j < 8 * ATA_SECTOR_SIZE then
        some (letterSector (hugeLetter k) (j % ATA_SECTOR_SIZE)) else none := by
  have hcluster := hugeCluster_toNat hk
  have h2 : (2 : UInt32) ≤ hugeCluster k := by
    have h2' : (2 : UInt32).toNat = 2 := rfl
    rw [UInt32.le_iff_toNat_le, hcluster, h2']
    omega
  apply fat32ReadCluster_of_sectors fun _ => letterSector (hugeLetter k)
  intro i hi
  have hi' : i < 8 := hi
  have hstart : (hugeVolume.partitionStart +
      (fat32ClusterToLba hugeVolume (hugeCluster k) + UInt32.ofNat i)).toNat % 2 ^ 28 =
      2097154 + 8 * (k / 8) + i := by
    simp only [hugeVolume, fat32ClusterToLba]
    rw [UInt32.toNat_add, UInt32.toNat_add, UInt32.toNat_add, UInt32.toNat_mul,
      UInt32.toNat_sub_of_le _ _ h2, hcluster, UInt32.toNat_ofNat']
    simp only [UInt32.reduceToNat]
    omega
  rw [fat32ReadSector, ataReadSector, hstart, hugeDevice, if_neg (by omega), hugeLetter]
  by_cases hlast : k < 2 ^ 25
  · rw [if_pos hlast, if_pos (by omega)]
  · rw [if_neg hlast, if_neg (by omega)]

theorem listEntries_of_listed {buf : Nat → UInt8} {offsets : List Nat}
    (h : ∀ off ∈ offsets, (direntAt buf off).name 0 ≠ 0 ∧ (direntAt buf off).skipped = false) :
    listEntries buf offsets = offsets.map fun off => (off, direntAt buf off) := by
  induction offsets with
  | nil => rfl
  | cons off rest ih =>
      obtain ⟨hused, hlisted⟩ := h off List.mem_cons_self
      simp only [listEntries]
      rw [if_neg hused, hlisted, if_neg (by decide), List.map_cons,
        ih fun off hoff => h off (List.mem_cons_of_mem _ hoff)]

/-- All entries of a cluster have the cluster's letter as their name. -/
theorem clusterEntries_huge {k : Nat} (hk : k ≤ 2 ^ 25) :
    (clusterEntries hugeDevice hugeVolume (hugeCluster k)).length = 128 ∧
      ∀ x ∈ clusterEntries hugeDevice hugeVolume (hugeCluster k),
        x.2.entryName = [hugeLetter k] := by
  have hletter : hugeLetter k = 65 ∨ hugeLetter k = 88 := by
    unfold hugeLetter
    split
    · exact Or.inl rfl
    · exact Or.inr rfl
  have hoffsets : direntOffsets hugeVolume = (List.range 128).map (32 * ·) := rfl
  rw [clusterEntries_eq (fat32ReadCluster_huge hk), hoffsets]
  generalize hugeLetter k = letter at hletter
  generalize hbuf : stored (fun j => if j < 8 * ATA_SECTOR_SIZE then
    some (letterSector letter (j % ATA_SECTOR_SIZE)) else none) = buf
  have hbyte : ∀ m < 128, ∀ j < 32, buf (32 * m + j) =
      if j = 0 then letter else if j < 11 then SPACE else 0 := by
    intro m hm j hj
    have hplace : (32 * m + j) % 512 % 32 = j := by omega
    rw [← hbuf, stored, ATA_SECTOR_SIZE, if_pos (by omega), Option.getD_some, letterSector, hplace]
  have hname : ∀ off ∈ (List.range 128).map (32 * ·), ∀ j < 11,
      (direntAt buf off).name j = if j = 0 then letter else SPACE := by
    intro off hoff j hj
    obtain ⟨m, hm, rfl⟩ := List.mem_map.mp hoff
    exact (hbyte m (List.mem_range.mp hm) j (by omega)).trans (by rw [if_pos hj])
  have hattr : ∀ off ∈ (List.range 128).map (32 * ·), (direntAt buf off).attr = 0 := by
    intro off hoff
    obtain ⟨m, hm, rfl⟩ := List.mem_map.mp hoff
    exact hbyte m (List.mem_range.mp hm) 11 (by decide)
  rw [listEntries_of_listed]
  · refine ⟨by rw [List.length_map, List.length_map, List.length_range], ?_⟩
    intro x hx
    obtain ⟨off, hoff, rfl⟩ := List.mem_map.mp hx
    have hbase : (List.range 8).map (direntAt buf off).name =
        letter :: List.replicate 7 SPACE := by
      rw [List.map_congr_left fun j hj => hname off hoff j (by
        have := List.mem_range.mp hj
        omega)]
      rfl
    have hextension : (direntAt buf off).name 8 = SPACE := hname off hoff 8 (by decide)
    simp only [Fat32Dirent.entryName, hbase, hextension]
    rcases hletter with rfl | rfl <;> simp [SPACE]
  · intro off hoff
    rw [hname off hoff 0 (by decide), if_pos rfl, Fat32Dirent.skipped, hattr off hoff,
      hname off hoff 0 (by decide), if_pos rfl]
    rcases hletter with rfl | rfl <;> decide

/-- The last `n + 1` clusters of the chain. -/
theorem hugeChain {n : Nat} (hn : n ≤ 2 ^ 25) :
    ReadableChain hugeDevice hugeVolume (hugeCluster (2 ^ 25 - n))
      ((List.range' (2 ^ 25 - n) (n + 1)).map hugeCluster) := by
  have hmem : ∀ c ∈ (List.range' (2 ^ 25 - n) (n + 1)).map hugeCluster,
      ∃ k ≤ 2 ^ 25, hugeCluster k = c := by
    intro c hc
    obtain ⟨k, hk, rfl⟩ := List.mem_map.mp hc
    rw [List.mem_range'_1] at hk
    exact ⟨k, by omega, rfl⟩
  refine ⟨?_, ?_, ?_⟩
  · clear hmem
    induction n with
    | zero => exact .more (.last fat32NextCluster_huge_last)
    | succ n ih =>
        rw [List.range'_succ, List.map_cons]
        refine .more ?_
        rw [fat32NextCluster_hugeCluster (by omega),
          show 2 ^ 25 - (n + 1) + 1 = 2 ^ 25 - n by omega]
        exact ih (by omega)
  · intro c hc
    obtain ⟨k, hk, rfl⟩ := hmem c hc
    exact hugeCluster_lt hk
  · intro c hc
    obtain ⟨k, hk, rfl⟩ := hmem c hc
    rw [fat32ReadCluster_huge hk]
    rfl

/-- The files `X` of the last cluster alone. -/
theorem finddir_agrees_readdir_last :
    (∀ c ∈ [hugeCluster (2 ^ 25)],
      ∀ buf ∈ fat32ReadCluster hugeDevice (hugeDirectory (hugeCluster (2 ^ 25))).fs c,
        ∀ j, (buf j).isSome → j < 8 * ATA_SECTOR_SIZE) ∧
    (∃ r, Fat32FinddirReturns hugeDevice (hugeDirectory (hugeCluster (2 ^ 25))) true [88] r ∧
      (r.isSome ↔ ∃ i child, Fat32ReaddirReturns hugeDevice (hugeDirectory (hugeCluster (2 ^ 25)))
        i (some child) ∧ child.name = [88]) ∧
      ∀ child ∈ r.map Prod.fst, ∃ i,
        Fat32ReaddirReturns hugeDevice (hugeDirectory (hugeCluster (2 ^ 25))) i (some child) ∧
        child.name = [88] ∧ ∀ j < i, ∀ child',
          Fat32ReaddirReturns hugeDevice (hugeDirectory (hugeCluster (2 ^ 25))) j (some child') →
          child'.name ≠ [88]) := by
  have hchain : ReadableChain hugeDevice hugeVolume (hugeCluster (2 ^ 25))
      [hugeCluster (2 ^ 25)] := by
    have hlast := hugeChain (Nat.zero_le (2 ^ 25))
    rwa [Nat.sub_zero, List.range'_one, List.map_singleton] at hlast
  refine finddir_agrees_readdir rfl ⟨by decide, by decide⟩ hchain ?_ [88]
  have hlength := (clusterEntries_huge (Nat.le_refl (2 ^ 25))).1
  rw [dirEntries, List.flatMap_singleton]
  exact hlength.le.trans (by decide)

theorem length_flatMap_eq {α β : Type*} {f : α → List β} {n : Nat} {l : List α}
    (h : ∀ a ∈ l, (f a).length = n) : (l.flatMap f).length = l.length * n := by
  rw [List.length_flatMap, List.map_congr_left h, List.map_const', List.sum_replicate_nat]

/-- The name `X` is found, but behind more entries than `fat32_readdir` can count. -/
theorem finddir_beyond_readdir :
    ¬ ∀ (dev : AtaDevice) (node : Fat32Node) (chain : List UInt32) (name : CString),
      1 ≤ node.fs.sectorsPerCluster.toNat → node.fs.sectorsPerCluster.toNat ≤ 8 →
      node.isDir = true → ReadableChain dev node.fs node.firstCluster chain →
      ∃ r, Fat32FinddirReturns dev node true name r ∧
        (r.isSome ↔
          ∃ i child, Fat32ReaddirReturns dev node i (some child) ∧ child.name = name) := by
  intro h
  have hchain := hugeChain (Nat.le_refl (2 ^ 25))
  rw [Nat.sub_self] at hchain
  obtain ⟨r, hr, hiff⟩ := h hugeDevice (hugeDirectory (hugeCluster 0)) _ [88] (by decide)
    (by decide) rfl hchain
  have hlast := clusterEntries_huge (Nat.le_refl (2 ^ 25))
  -- the entries before the last cluster and those in it
  have hentries : dirEntries hugeDevice hugeVolume ((List.range' 0 (2 ^ 25 + 1)).map hugeCluster) =
      dirEntries hugeDevice hugeVolume ((List.range' 0 (2 ^ 25)).map hugeCluster) ++
        clusterEntries hugeDevice hugeVolume (hugeCluster (2 ^ 25)) := by
    rw [List.range'_1_concat, Nat.zero_add, List.map_append, List.map_singleton, dirEntries,
      List.flatMap_append, List.flatMap_singleton, ← dirEntries]
  have hbefore : ∀ c ∈ (List.range' 0 (2 ^ 25)).map hugeCluster, ∃ k < 2 ^ 25,
      hugeCluster k = c := by
    intro c hc
    obtain ⟨k, hk, rfl⟩ := List.mem_map.mp hc
    rw [List.mem_range'_1] at hk
    exact ⟨k, by omega, rfl⟩
  have hlength : (dirEntries hugeDevice hugeVolume
      ((List.range' 0 (2 ^ 25)).map hugeCluster)).length = 2 ^ 32 := by
    have hfull : ∀ c ∈ (List.range' 0 (2 ^ 25)).map hugeCluster,
        (clusterEntries hugeDevice hugeVolume c).length = 128 := by
      intro c hc
      obtain ⟨k, hk, rfl⟩ := hbefore c hc
      exact (clusterEntries_huge hk.le).1
    rw [dirEntries, length_flatMap_eq hfull, List.length_map, List.length_range']
    norm_num
  have hfound : r.isSome := by
    have hhalts := finddir_halts hchain [88]
    have hr' : Halts (finddirStep hugeDevice hugeVolume true [88]) (hugeCluster 0) r := hr
    rw [← hhalts.unique hr', Option.isSome_map, List.find?_isSome]
    obtain ⟨x, hx⟩ := List.exists_mem_of_length_pos (hlast.1.symm ▸ (by decide : 0 < 128))
    refine ⟨x, ?_, decide_eq_true (hlast.2 x hx)⟩
    rw [hentries]
    exact List.mem_append_right _ hx
  obtain ⟨i, child, hread, hname⟩ := hiff.mp hfound
  obtain ⟨x, hx, rfl⟩ := Option.map_eq_some_iff.mp ((readdirReturns_iff rfl hchain).mp hread)
  simp only [hugeDirectory] at hx
  rw [hentries, List.getElem?_append_left (by rw [hlength]; exact i.toNat_lt)] at hx
  obtain ⟨c, hc, hx⟩ := List.mem_flatMap.mp (List.mem_of_getElem? hx)
  obtain ⟨k, hk, rfl⟩ := hbefore c hc
  have hname' : x.2.entryName = [65] := by
    rw [(clusterEntries_huge hk.le).2 x hx, hugeLetter, if_pos hk]
  exact absurd (hname'.symm.trans hname) (by decide)

end NemoOS
