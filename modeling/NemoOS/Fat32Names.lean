import NemoOS.Fat32Mount
import NemoOS.Fat32Volume

/-!
# The names of FAT32 entries

A short name has eight bytes and an extension of three, both padded with spaces.
`fat32_readdir` and `fat32_finddir` turn it into a string: the eight bytes up to the first
space and, for a file that has one, a dot and the extension. Which different short names have
one string is `Fat32Dirent.entryName_eq_iff_confused`: the extension of a directory is left
out, a zero byte ends the string, and a dot may be part of the name.

A directory is listed cluster after cluster, as long as the clusters can be read; the chain of
a damaged directory may never end. `distinguishable_iff` says in which directories the strings
keep the entries apart.
-/

namespace NemoOS

open Loops

namespace Fat32Dirent

/-! ## The parts of a name -/

/-- The eleven bytes. -/
def shortName (e : Fat32Dirent) : List UInt8 := (List.range 11).map e.name

def baseName (e : Fat32Dirent) : List UInt8 := ((List.range 8).map e.name).takeWhile (· ≠ SPACE)

def extension (e : Fat32Dirent) : List UInt8 :=
  ((List.range' 8 3).map e.name).takeWhile (· ≠ SPACE)

/-- The extension that is part of the string. -/
def shownExtension (e : Fat32Dirent) : List UInt8 := if e.isDirectory then [] else e.extension

/-- There are only spaces from the first space on, in both parts. -/
structure Padded (e : Fat32Dirent) : Prop where
  base : (List.range 8).map e.name = e.baseName ++ List.replicate (8 - e.baseName.length) SPACE
  extension : (List.range' 8 3).map e.name =
    e.extension ++ List.replicate (3 - e.extension.length) SPACE

/-- A directory with an extension has the string of another entry. -/
def Hides (e e' : Fat32Dirent) : Prop :=
  e.isDirectory = true ∧ e.extension ≠ [] ∧ e.baseName = e'.baseName ∧ e'.shownExtension = []

instance (e : Fat32Dirent) : Decidable e.Padded :=
  decidable_of_iff (_ ∧ _) ⟨fun ⟨hbase, hext⟩ => ⟨hbase, hext⟩, fun h => ⟨h.base, h.extension⟩⟩

/-- The base name as far as it is shown. A zero byte ends the string. -/
def shownBase (e : Fat32Dirent) : List UInt8 := e.baseName.takeWhile (· ≠ 0)

/-- What is shown behind the dot between the parts, if there is one. -/
def shownTail (e : Fat32Dirent) : Option (List UInt8) :=
  if 0 ∈ e.baseName ∨ e.shownExtension = [] then none
  else some (e.shownExtension.takeWhile (· ≠ 0))

/-- The dot and what is behind it. -/
def dotted : Option (List UInt8) → List UInt8
  | none => []
  | some tail => DOT :: tail

/-- A zero byte ends the string of one of the two, and up to there the parts are the same. -/
def EndsEarly (e e' : Fat32Dirent) : Prop :=
  (0 ∈ e.baseName ++ e.shownExtension ∨ 0 ∈ e'.baseName ++ e'.shownExtension) ∧
    e.shownBase = e'.shownBase ∧ e.shownTail = e'.shownTail

/-- The longer base name has a dot where the shorter one ends, and the extension of the shorter
    one is the rest of the longer one. -/
def Moved (base : List UInt8) (tail : Option (List UInt8)) (base' : List UInt8)
    (tail' : Option (List UInt8)) : Prop :=
  base' = base ++ DOT :: base'.drop (base.length + 1) ∧
    tail = some (base'.drop (base.length + 1) ++ dotted tail')

/-- The dot between the parts of one is a dot of the name of the other. -/
def DotMoved (e e' : Fat32Dirent) : Prop := Moved e.shownBase e.shownTail e'.shownBase e'.shownTail

/-- The ways in which two short names can have one string. -/
def Confused (e e' : Fat32Dirent) : Prop :=
  e.Hides e' ∨ e'.Hides e ∨ e.EndsEarly e' ∨ e.DotMoved e' ∨ e'.DotMoved e

instance (e e' : Fat32Dirent) : Decidable (e.Confused e') :=
  inferInstanceAs (Decidable ((_ ∧ _) ∨ (_ ∧ _) ∨ (_ ∧ _) ∨ (_ ∧ _) ∨ (_ ∧ _)))

variable {e e' : Fat32Dirent}

theorem shortName_eq (e : Fat32Dirent) :
    e.shortName = (List.range 8).map e.name ++ (List.range' 8 3).map e.name := rfl

/-- A padded name is the two parts. -/
theorem Padded.shortName_eq_of_parts (h : e.Padded) (h' : e'.Padded)
    (hbase : e.baseName = e'.baseName) (hext : e.extension = e'.extension) :
    e.shortName = e'.shortName := by
  rw [shortName_eq, shortName_eq, h.base, h.extension, h'.base, h'.extension, hbase, hext]

theorem shownExtension_of_directory (h : e.isDirectory = true) : e.shownExtension = [] := if_pos h

theorem shownExtension_of_file (h : e.isDirectory = false) : e.shownExtension = e.extension := by
  rw [shownExtension, h]
  rfl

/-! ## The string -/

theorem takeWhile_ne_zero_eq_self {l : List UInt8} (h : 0 ∉ l) : l.takeWhile (· ≠ 0) = l := by
  rw [List.takeWhile_eq_self_iff]
  intro c hc
  rw [decide_eq_true_eq]
  rintro rfl
  exact h hc

/-- The string is its shown parts. -/
theorem entryName_eq (e : Fat32Dirent) : e.entryName = e.shownBase ++ dotted e.shownTail := by
  have hext : (e.name 8 != SPACE) = decide (e.extension ≠ []) := by
    rw [extension, List.range'_succ, List.map_cons]
    by_cases hspace : e.name 8 = SPACE
    · simp [hspace]
    · simp [hspace]
  have hparts : (if (!e.isDirectory && e.name 8 != SPACE) = true then DOT :: e.extension else []) =
      if e.shownExtension = [] then [] else DOT :: e.shownExtension := by
    rw [hext, shownExtension]
    cases e.isDirectory with
    | true => rfl
    | false => by_cases hnil : e.extension = [] <;> simp [hnil]
  have hname : e.entryName = (e.baseName ++
      if (!e.isDirectory && e.name 8 != SPACE) = true then DOT :: e.extension else []).takeWhile
        (· ≠ 0) := rfl
  rw [hname, hparts, List.takeWhile_append]
  by_cases hzero : 0 ∈ e.baseName
  · have hcut : ¬ (e.baseName.takeWhile (· ≠ 0)).length = e.baseName.length := fun hlen => by
      rw [← (List.takeWhile_prefix _).eq_of_length hlen] at hzero
      simpa using List.mem_takeWhile_imp hzero
    rw [if_neg hcut, shownTail, if_pos (.inl hzero), dotted, List.append_nil, shownBase]
  · rw [shownBase, takeWhile_ne_zero_eq_self hzero, if_pos rfl, shownTail]
    by_cases hnil : e.shownExtension = []
    · rw [if_pos hnil, if_pos (.inr hnil)]
      rfl
    · rw [if_neg hnil, if_neg (not_or.mpr ⟨hzero, hnil⟩), dotted,
        List.takeWhile_cons_of_pos (by decide)]

theorem dotted_injective : Function.Injective dotted := by
  intro tail tail' h
  cases tail <;> cases tail' <;> simp_all [dotted]

/-- Where one of the base names is shorter, the dot behind it is in the other. -/
theorem moved_of_append {base base' more : List UInt8} {tail tail' : Option (List UInt8)}
    (hbase : base' = base ++ more) (htail : dotted tail = more ++ dotted tail') :
    base = base' ∧ tail = tail' ∨ Moved base tail base' tail' := by
  cases more with
  | nil =>
      rw [List.append_nil] at hbase
      exact .inl ⟨hbase.symm, dotted_injective htail⟩
  | cons c more =>
      cases tail with
      | none => exact absurd htail.symm (List.append_ne_nil_of_left_ne_nil (List.cons_ne_nil _ _) _)
      | some rest =>
          obtain ⟨rfl, rfl⟩ : DOT = c ∧ rest = more ++ dotted tail' := List.cons.inj htail
          have hdrop : base'.drop (base.length + 1) = more := by
            rw [hbase, ← List.drop_drop, List.drop_left]
            rfl
          exact .inr ⟨by rw [hdrop, hbase], by rw [hdrop]⟩

theorem Moved.append_eq {base base' : List UInt8} {tail tail' : Option (List UInt8)}
    (h : Moved base tail base' tail') : base ++ dotted tail = base' ++ dotted tail' := by
  obtain ⟨hbase, htail⟩ := h
  rw [htail, dotted]
  conv_rhs => rw [hbase]
  rw [List.append_assoc, List.cons_append]

theorem entryName_eq_iff (e e' : Fat32Dirent) :
    e.entryName = e'.entryName ↔ (e.shownBase = e'.shownBase ∧ e.shownTail = e'.shownTail) ∨
      e.DotMoved e' ∨ e'.DotMoved e := by
  rw [entryName_eq, entryName_eq, List.append_eq_append_iff]
  constructor
  · rintro (⟨more, hbase, htail⟩ | ⟨more, hbase, htail⟩)
    · exact (moved_of_append hbase htail).imp_right .inl
    · rcases moved_of_append hbase htail with ⟨hb, ht⟩ | hmoved
      · exact .inl ⟨hb.symm, ht.symm⟩
      · exact .inr (.inr hmoved)
  · rw [← List.append_eq_append_iff]
    rintro (⟨hbase, htail⟩ | hmoved | hmoved)
    · rw [hbase, htail]
    · exact hmoved.append_eq
    · exact hmoved.append_eq.symm

/-- Different padded short names whose shown parts are the same. -/
theorem hides_of_parts (hpad : e.Padded) (hpad' : e'.Padded) (hne : e.shortName ≠ e'.shortName)
    (hbase : e.baseName = e'.baseName) (hshown : e.shownExtension = e'.shownExtension) :
    e.Hides e' ∨ e'.Hides e := by
  have hext : e.extension ≠ e'.extension := fun heq =>
    hne (hpad.shortName_eq_of_parts hpad' hbase heq)
  cases hdir : e.isDirectory with
  | true =>
      rw [shownExtension_of_directory hdir] at hshown
      by_cases hnil : e.extension = []
      · refine .inr ⟨?_, fun hnil' => hext (hnil.trans hnil'.symm), hbase.symm,
          shownExtension_of_directory hdir⟩
        by_contra hfile
        rw [shownExtension_of_file (Bool.eq_false_iff.mpr hfile)] at hshown
        exact hext (hnil.trans hshown)
      · exact .inl ⟨hdir, hnil, hbase, hshown.symm⟩
  | false =>
      rw [shownExtension_of_file hdir] at hshown
      cases hdir' : e'.isDirectory with
      | true =>
          rw [shownExtension_of_directory hdir'] at hshown
          refine .inr ⟨hdir', fun hnil' => hext (hshown.trans hnil'.symm), hbase.symm, ?_⟩
          rw [shownExtension_of_file hdir, hshown]
      | false =>
          rw [shownExtension_of_file hdir'] at hshown
          exact absurd hshown hext

theorem Hides.parts_eq (h : e.Hides e') :
    e.shownBase = e'.shownBase ∧ e.shownTail = e'.shownTail := by
  obtain ⟨hdir, -, hbase, hshown⟩ := h
  rw [shownBase, shownBase, shownTail, shownTail, hbase,
    if_pos (.inr (shownExtension_of_directory hdir)), if_pos (.inr hshown)]
  exact ⟨rfl, rfl⟩

/-- Without a zero byte the shown parts are the parts. -/
theorem parts_of_shown (h : 0 ∉ e.baseName ++ e.shownExtension)
    (h' : 0 ∉ e'.baseName ++ e'.shownExtension) (hbase : e.shownBase = e'.shownBase)
    (htail : e.shownTail = e'.shownTail) :
    e.baseName = e'.baseName ∧ e.shownExtension = e'.shownExtension := by
  rw [List.mem_append, not_or] at h h'
  rw [shownBase, shownBase, takeWhile_ne_zero_eq_self h.1, takeWhile_ne_zero_eq_self h'.1] at hbase
  rw [shownTail, shownTail, takeWhile_ne_zero_eq_self h.2, takeWhile_ne_zero_eq_self h'.2] at htail
  refine ⟨hbase, ?_⟩
  by_cases hnil : e.shownExtension = [] <;> by_cases hnil' : e'.shownExtension = [] <;>
    simp_all

/-- Different short names have the same string only in one of the ways named. -/
theorem entryName_eq_iff_confused (hpad : e.Padded) (hpad' : e'.Padded)
    (hne : e.shortName ≠ e'.shortName) : e.entryName = e'.entryName ↔ e.Confused e' := by
  have hparts : (e.shownBase = e'.shownBase ∧ e.shownTail = e'.shownTail) ↔
      e.Hides e' ∨ e'.Hides e ∨ e.EndsEarly e' := by
    constructor
    · rintro ⟨hbase, htail⟩
      by_cases hzero : 0 ∈ e.baseName ++ e.shownExtension ∨ 0 ∈ e'.baseName ++ e'.shownExtension
      · exact .inr (.inr ⟨hzero, hbase, htail⟩)
      · obtain ⟨hz, hz'⟩ := not_or.mp hzero
        obtain ⟨hbase', hshown⟩ := parts_of_shown hz hz' hbase htail
        exact (hides_of_parts hpad hpad' hne hbase' hshown).imp_right .inl
    · rintro (hhides | hhides | ⟨-, hparts⟩)
      · exact hhides.parts_eq
      · exact ⟨hhides.parts_eq.1.symm, hhides.parts_eq.2.symm⟩
      · exact hparts
  rw [entryName_eq_iff, Confused, hparts, or_assoc, or_assoc]

end Fat32Dirent

/-! ## Directories -/

/-- The names that `fat32_readdir` reports are different, and `fat32_finddir` returns the entry
    that was reported under its name. -/
structure Distinguishable (dev : AtaDevice) (node : Fat32Node) : Prop where
  distinct : ∀ i j child child', Fat32ReaddirReturns dev node i (some child) →
    Fat32ReaddirReturns dev node j (some child') → child.name = child'.name → i = j
  found : ∀ i child, Fat32ReaddirReturns dev node i (some child) →
    ∃ fn, Fat32FinddirReturns dev node true child.name (some (child, fn))

/-- The first clusters that are read, at most `n`. -/
def clustersFrom (dev : AtaDevice) (fs : Fat32Fs) : Nat → UInt32 → List UInt32
  | 0, _ => []
  | n + 1, c =>
      if c < FAT32_EOC ∧ (fat32ReadCluster dev fs c).isSome then
        c :: clustersFrom dev fs n (fat32NextCluster dev fs c)
      else []

/-- Their entries, each with its cluster and its offset there. -/
def listing (dev : AtaDevice) (fs : Fat32Fs) (n : Nat) (first : UInt32) :
    List (UInt32 × Nat × Fat32Dirent) :=
  (clustersFrom dev fs n first).flatMap fun c => (clusterEntries dev fs c).map (c, ·)

/-- The entry is the one with the number `i`, in however many clusters. -/
def Listed (dev : AtaDevice) (node : Fat32Node) (i : Nat) (x : UInt32 × Nat × Fat32Dirent) : Prop :=
  ∃ n, (listing dev node.fs n node.firstCluster)[i]? = some x

/-- Where an entry is. -/
def place (x : UInt32 × Nat × Fat32Dirent) : UInt32 × Nat := (x.1, x.2.1)

section listing

variable {dev : AtaDevice} {fs : Fat32Fs} {first : UInt32}

theorem listing_of_read {buf : Nat → Option UInt8} (hlt : first < FAT32_EOC)
    (hbuf : fat32ReadCluster dev fs first = some buf) (n : Nat) :
    listing dev fs (n + 1) first =
      (listEntries (stored buf) (direntOffsets fs)).map (first, ·) ++
        listing dev fs n (fat32NextCluster dev fs first) := by
  rw [listing, clustersFrom, if_pos ⟨hlt, by rw [hbuf]; rfl⟩, List.flatMap_cons,
    clusterEntries_eq hbuf, ← listing]

theorem listing_of_not_read (n : Nat)
    (h : ¬ (first < FAT32_EOC ∧ (fat32ReadCluster dev fs first).isSome)) :
    listing dev fs n first = [] := by
  cases n with
  | zero => rfl
  | succ n => rw [listing, clustersFrom, if_neg h, List.flatMap_nil]

/-- `fat32_readdir` returns the entries that are listed, as far on as the index is from the
    counter. -/
theorem readdir_loop_iff {n : Nat} {index count : UInt32} {child : DirChild} :
    loop (readdirStep dev fs index) n (first, count) = some (some child) ↔
      ∃ x, (listing dev fs n first)[(index - count).toNat]? = some x ∧
        dirChild x.2.1 x.2.2 = child := by
  induction n generalizing first count with
  | zero => simp [loop, listing, clustersFrom]
  | succ n ih =>
      rw [loop, readdirStep]
      by_cases hlt : first < FAT32_EOC
      case neg => simp [hlt, listing_of_not_read]
      cases hbuf : fat32ReadCluster dev fs first with
      | none => simp [hlt, hbuf, listing_of_not_read]
      | some buf =>
          have hcount := countEntries_eq (stored buf) index (direntOffsets fs) count
          rw [listing_of_read hlt hbuf]
          by_cases hhere : (index - count).toNat <
              (listEntries (stored buf) (direntOffsets fs)).length
          · rw [List.getElem?_append_left (by simpa using hhere), List.getElem?_map,
              List.getElem?_eq_getElem hhere]
            rw [List.getElem?_eq_getElem hhere] at hcount
            simp [hlt, hcount]
          · have hpast := Nat.le_of_not_lt hhere
            rw [List.getElem?_append_right (by simpa using hpast), List.length_map,
              ← toNat_sub_add hpast, ← ih]
            rw [List.getElem?_eq_none hpast] at hcount
            simp [hlt, hcount]

/-- `fat32_finddir` returns the first entry with the name. -/
theorem finddir_of_listing {n : Nat} {name : CString} {x : UInt32 × Nat × Fat32Dirent}
    (h : (listing dev fs n first).find? (fun x => named name x.2) = some x) :
    loop (finddirStep dev fs true name) n first =
      some (some (dirChild x.2.1 x.2.2, childNode fs x.2.2)) := by
  induction n generalizing first with
  | zero => exact absurd h (by simp [listing, clustersFrom])
  | succ n ih =>
      rw [loop, finddirStep]
      by_cases hlt : first < FAT32_EOC
      case neg => simp [hlt, listing_of_not_read] at h
      cases hbuf : fat32ReadCluster dev fs first with
      | none => simp [hbuf, listing_of_not_read] at h
      | some buf =>
          have hmap : ((listEntries (stored buf) (direntOffsets fs)).map (first, ·)).find?
              (fun x => named name x.2) =
                (findEntry (stored buf) name (direntOffsets fs)).map (first, ·) := by
            rw [findEntry_eq, List.find?_map]
            rfl
          rw [listing_of_read hlt hbuf, List.find?_append, hmap] at h
          cases hfind : findEntry (stored buf) name (direntOffsets fs) with
          | some y =>
              rw [hfind] at h
              obtain rfl : (first, y) = x := Option.some.inj h
              simp [hlt, hfind]
          | none =>
              rw [hfind] at h
              simpa [hlt, hfind] using ih h

theorem entry_of_mem_listEntries {buf : Nat → UInt8} {offsets : List Nat} {x : Nat × Fat32Dirent}
    (h : x ∈ listEntries buf offsets) : x.2 = direntAt buf x.1 := by
  induction offsets with
  | nil => exact absurd h List.not_mem_nil
  | cons off rest ih =>
      simp only [listEntries] at h
      split at h
      · exact absurd h List.not_mem_nil
      · split at h
        · exact ih h
        · rcases List.mem_cons.mp h with rfl | hrest
          · rfl
          · exact ih hrest

/-- An entry is what its cluster has at its offset. -/
theorem entry_of_mem_listing {n : Nat} {x : UInt32 × Nat × Fat32Dirent}
    (h : x ∈ listing dev fs n first) : ∃ buf, fat32ReadCluster dev fs x.1 = some buf ∧
      x.2.2 = direntAt (stored buf) x.2.1 := by
  obtain ⟨c, -, hc⟩ := List.mem_flatMap.mp h
  obtain ⟨y, hy, rfl⟩ := List.mem_map.mp hc
  rw [clusterEntries] at hy
  split at hy
  · exact absurd hy List.not_mem_nil
  · next buf hbuf => exact ⟨buf, hbuf, entry_of_mem_listEntries hy⟩

theorem entry_of_place {node : Fat32Node} {i j : Nat} {x y : UInt32 × Nat × Fat32Dirent}
    (hx : Listed dev node i x) (hy : Listed dev node j y) (hplace : place x = place y) :
    x.2.2 = y.2.2 := by
  obtain ⟨n, hx⟩ := hx
  obtain ⟨k, hy⟩ := hy
  obtain ⟨buf, hbuf, hentry⟩ := entry_of_mem_listing (List.mem_of_getElem? hx)
  obtain ⟨buf', hbuf', hentry'⟩ := entry_of_mem_listing (List.mem_of_getElem? hy)
  obtain ⟨hcluster, hoffset⟩ : x.1 = y.1 ∧ x.2.1 = y.2.1 := Prod.ext_iff.mp hplace
  rw [hcluster, hbuf'] at hbuf
  rw [hentry, hentry', hoffset, Option.some.inj hbuf]

end listing

section directory

variable {dev : AtaDevice} {node : Fat32Node} (hdir : node.isDir = true)

include hdir

theorem readdirReturns_some_iff {i : UInt32} {child : DirChild} :
    Fat32ReaddirReturns dev node i (some child) ↔
      ∃ x, Listed dev node i.toNat x ∧ dirChild x.2.1 x.2.2 = child := by
  simp only [Fat32ReaddirReturns, if_pos hdir, Halts, readdir_loop_iff, UInt32.sub_zero, Listed]
  rw [exists_comm]
  simp only [exists_and_right]

/-- The directory is as it should be when no two of the entries with a 32-bit index have the
    same string. -/
theorem distinguishable_iff_entryName :
    Distinguishable dev node ↔ ∀ i j x y, i < j → j < 2 ^ 32 → Listed dev node i x →
      Listed dev node j y → x.2.2.entryName ≠ y.2.2.entryName := by
  constructor
  · intro h i j x y hij hj hx hy hname
    have hi : (UInt32.ofNat i).toNat = i := UInt32.toNat_ofNat_of_lt' (Nat.lt_trans hij hj)
    have hj : (UInt32.ofNat j).toNat = j := UInt32.toNat_ofNat_of_lt' hj
    have hsame := h.distinct (UInt32.ofNat i) (UInt32.ofNat j) _ _
      ((readdirReturns_some_iff hdir).mpr ⟨x, hi.symm ▸ hx, rfl⟩)
      ((readdirReturns_some_iff hdir).mpr ⟨y, hj.symm ▸ hy, rfl⟩) hname
    rw [← UInt32.toNat_inj, hi, hj] at hsame
    omega
  · intro h
    constructor
    · intro i j child child' hi hj hname
      obtain ⟨x, hx, rfl⟩ := (readdirReturns_some_iff hdir).mp hi
      obtain ⟨y, hy, rfl⟩ := (readdirReturns_some_iff hdir).mp hj
      rcases Nat.lt_trichotomy i.toNat j.toNat with hlt | heq | hlt
      · exact absurd hname (h _ _ x y hlt j.toNat_lt hx hy)
      · exact UInt32.toNat_inj.mp heq
      · exact absurd hname.symm (h _ _ y x hlt i.toNat_lt hy hx)
    · intro i child hi
      obtain ⟨x, ⟨n, hx⟩, rfl⟩ := (readdirReturns_some_iff hdir).mp hi
      refine ⟨childNode node.fs x.2.2, ?_⟩
      rw [Fat32FinddirReturns, if_pos hdir]
      refine ⟨n, finddir_of_listing ?_⟩
      obtain ⟨hlt, hget⟩ := List.getElem?_eq_some_iff.mp hx
      rw [List.find?_eq_some_iff_getElem]
      refine ⟨by simp [named, dirChild], i.toNat, hlt, hget, fun k hk => ?_⟩
      have hne := h k i.toNat _ x hk i.toNat_lt ⟨n, List.getElem?_eq_getElem (by omega)⟩ ⟨n, hx⟩
      rw [Bool.not_eq_true']
      exact decide_eq_false hne

/-- **When short names stay distinguishable.** In a directory whose entries have padded short
    names, different ones at different places, exactly where no entry is listed twice (the
    chain does not come back to a cluster with entries) and no two of the first `2 ^ 32` have
    the same string because of a directory with an extension, a zero byte or a dot in a
    name. -/
theorem distinguishable_iff (hpadded : ∀ i x, Listed dev node i x → x.2.2.Padded)
    (hdistinct : ∀ i j x y, Listed dev node i x → Listed dev node j y → place x ≠ place y →
      x.2.2.shortName ≠ y.2.2.shortName) :
    Distinguishable dev node ↔ ∀ i j x y, i < j → j < 2 ^ 32 → Listed dev node i x →
      Listed dev node j y → place x ≠ place y ∧ ¬ x.2.2.Confused y.2.2 := by
  rw [distinguishable_iff_entryName hdir]
  have hconfused : ∀ {i j x y}, Listed dev node i x → Listed dev node j y → place x ≠ place y →
      (x.2.2.entryName = y.2.2.entryName ↔ x.2.2.Confused y.2.2) := fun hx hy hplace =>
    Fat32Dirent.entryName_eq_iff_confused (hpadded _ _ hx) (hpadded _ _ hy)
      (hdistinct _ _ _ _ hx hy hplace)
  constructor
  · intro h i j x y hij hj hx hy
    have hname := h i j x y hij hj hx hy
    have hplace : place x ≠ place y := fun hsame =>
      hname (congrArg Fat32Dirent.entryName (entry_of_place hx hy hsame))
    exact ⟨hplace, fun hconf => hname ((hconfused hx hy hplace).mpr hconf)⟩
  · intro h i j x y hij hj hx hy hname
    obtain ⟨hplace, hnot⟩ := h i j x y hij hj hx hy
    exact hnot ((hconfused hx hy hplace).mp hname)

end directory

/-! ## Two directories -/

/-- A sector of directory entries, given by the bytes of their names up to the padding and
    their attributes. -/
def direntSector (entries : List (List UInt8 × UInt8)) : Sector := fun j =>
  match entries[j / 32]? with
  | none => 0
  | some (name, attr) =>
      if j % 32 < 11 then name.getD (j % 32) SPACE else if j % 32 = 11 then attr else 0

/-- A disk whose root directory is one sector. -/
def direntDisk (entries : List (List UInt8 × UInt8)) : AtaDevice :=
  partitionedDisk (bootSector 512 1) fun lba =>
    if lba = 2 then sectorOf [(8, 0xFF), (9, 0xFF), (10, 0xFF), (11, 0x0F)]
    else if lba = 3 then direntSector entries
    else fun _ => 0

def direntRoot : Fat32Node := ⟨fat32Volume 1 (bootSector 512 1), 2, true, 0⟩

theorem direntDisk_next (entries : List (List UInt8 × UInt8)) :
    FAT32_EOC ≤ fat32NextCluster (direntDisk entries) direntRoot.fs direntRoot.firstCluster := by
  have hsector : fat32ReadSector (direntDisk entries) direntRoot.fs
      (direntRoot.fs.reservedSectors + direntRoot.firstCluster * 4 / direntRoot.fs.bytesPerSector) =
        some (sectorOf [(8, 0xFF), (9, 0xFF), (10, 0xFF), (11, 0x0F)]) := rfl
  rw [fat32NextCluster, hsector]
  decide

theorem direntDisk_chain (entries : List (List UInt8 × UInt8)) :
    ReadableChain (direntDisk entries) direntRoot.fs direntRoot.firstCluster [2] := by
  have hlt : (2 : UInt32) < FAT32_EOC := by decide
  refine ⟨.more (.last (direntDisk_next entries)), List.forall_mem_singleton.mpr hlt, ?_⟩
  rw [List.forall_mem_singleton]
  rfl

/-- A directory `A`, with the extension `B`, and another one `A`. -/
def twoDirectoriesA : AtaDevice :=
  direntDisk [([65, 32, 32, 32, 32, 32, 32, 32, 66], ATTR_DIRECTORY), ([65], ATTR_DIRECTORY)]

/-- A directory `A` and a file `A.B`. -/
def directoryAndFile : AtaDevice :=
  direntDisk [([65], ATTR_DIRECTORY), ([65, 32, 32, 32, 32, 32, 32, 32, 66], 0x20)]

/-- The entries of such a disk are those of its one cluster. -/
theorem direntDisk_listed {entries : List (List UInt8 × UInt8)} {i : Nat}
    {x : UInt32 × Nat × Fat32Dirent} :
    Listed (direntDisk entries) direntRoot i x ↔
      (listing (direntDisk entries) direntRoot.fs 1 direntRoot.firstCluster)[i]? = some x := by
  refine ⟨?_, fun h => ⟨1, h⟩⟩
  rintro ⟨n, h⟩
  have hchain := direntDisk_chain entries
  obtain ⟨hlt, buf, rest, hbuf, -, hrest⟩ := hchain.cases.resolve_left fun hend =>
    absurd hend.2 (List.cons_ne_nil _ _)
  have hend : ¬ fat32NextCluster (direntDisk entries) direntRoot.fs direntRoot.firstCluster <
      FAT32_EOC := UInt32.not_lt.mpr (direntDisk_next entries)
  have hmore : ∀ n, listing (direntDisk entries) direntRoot.fs n
      (fat32NextCluster (direntDisk entries) direntRoot.fs direntRoot.firstCluster) = [] :=
    fun n => listing_of_not_read n fun hread => hend hread.1
  cases n with
  | zero => exact absurd h (by simp [listing, clustersFrom])
  | succ n =>
      rw [listing_of_read hlt hbuf, hmore] at h ⊢
      exact h

theorem distinguishable_directoryAndFile : Distinguishable directoryAndFile direntRoot := by
  have hlisted : ∀ {i x}, Listed directoryAndFile direntRoot i x ↔
      (listing directoryAndFile direntRoot.fs 1 direntRoot.firstCluster)[i]? = some x :=
    direntDisk_listed
  have hpadded : ∀ x ∈ listing directoryAndFile direntRoot.fs 1 direntRoot.firstCluster,
      x.2.2.Padded := by decide
  have hdistinct : ∀ x ∈ listing directoryAndFile direntRoot.fs 1 direntRoot.firstCluster,
      ∀ y ∈ listing directoryAndFile direntRoot.fs 1 direntRoot.firstCluster,
        place x ≠ place y → x.2.2.shortName ≠ y.2.2.shortName := by decide
  have hpairs : (listing directoryAndFile direntRoot.fs 1 direntRoot.firstCluster).Pairwise
      fun x y => place x ≠ place y ∧ ¬ x.2.2.Confused y.2.2 := by decide
  refine (distinguishable_iff rfl ?_ ?_).mpr ?_
  · exact fun i x hx => hpadded x (List.mem_of_getElem? (hlisted.mp hx))
  · exact fun i j x y hx hy => hdistinct x (List.mem_of_getElem? (hlisted.mp hx)) y
      (List.mem_of_getElem? (hlisted.mp hy))
  · intro i j x y hij _ hx hy
    obtain ⟨hi, rfl⟩ := List.getElem?_eq_some_iff.mp (hlisted.mp hx)
    obtain ⟨hj, rfl⟩ := List.getElem?_eq_some_iff.mp (hlisted.mp hy)
    exact List.pairwise_iff_getElem.mp hpairs i j hi hj hij

/-- Both directories are listed as `A`. -/
theorem distinguishable_fails :
    ¬ ∀ (dev : AtaDevice) (node : Fat32Node) (chain : List UInt32), node.isDir = true →
      ReadableChain dev node.fs node.firstCluster chain →
      (∀ x ∈ dirEntries dev node.fs chain, x.2.Padded) →
      ((dirEntries dev node.fs chain).Pairwise fun x y => x.2.shortName ≠ y.2.shortName) →
        Distinguishable dev node := by
  intro hall
  have hchain : ReadableChain twoDirectoriesA direntRoot.fs direntRoot.firstCluster [2] :=
    direntDisk_chain _
  have h := hall twoDirectoriesA direntRoot [2] rfl hchain (by decide) (by decide)
  have hpair : (listing twoDirectoriesA direntRoot.fs 1 direntRoot.firstCluster)[0]?.map
      (fun x => x.2.2.entryName) = some [65] ∧
      (listing twoDirectoriesA direntRoot.fs 1 direntRoot.firstCluster)[1]?.map
        (fun x => x.2.2.entryName) = some [65] := by decide
  obtain ⟨x, hx, hname⟩ := Option.map_eq_some_iff.mp hpair.1
  obtain ⟨y, hy, hname'⟩ := Option.map_eq_some_iff.mp hpair.2
  exact (distinguishable_iff_entryName rfl).mp h 0 1 x y (by decide) (by decide) ⟨1, hx⟩ ⟨1, hy⟩
    (hname.trans hname'.symm)

end NemoOS
