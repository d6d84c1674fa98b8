import NemoOS.Vfs

/-!
# Which mount a path selects

The intended meaning of the mount table is stated on components: a mount covers a
path when its components begin those of the path, and the path belongs to the
mount that covers it with the most components. `find_mount_root` compares bytes
instead. `selectsLongest_iff` says exactly when the two agree: the bytes of a
longest covering mount have to stand literally in front of the path, up to a `/`
or the end, and no remaining component may be longer than the resolver's buffer.

The mount `"/"` covers every absolute path but stands literally, up to a `/`, only
in front of `"/"` itself and of paths that begin with `"//"`.
-/

namespace NemoOS

open Paths

namespace MountTable

variable {ν : Type*}

/-! ## The intended selection -/

/-- The mount path, absolute or empty, is a component-wise prefix of the path. -/
def Covers (mount path : CString) : Prop :=
  (∀ c ∈ mount.head?, c = SLASH) ∧ components SLASH mount <+: components SLASH path

/-- The mount covers the path, and no used mount covers it with more components. -/
def Longest (t : MountTable ν) (path : CString) (m : Mount ν) : Prop :=
  Covers m.path.bytes path ∧ ∀ m' ∈ t.used, Covers m'.path.bytes path →
    (components SLASH m'.path.bytes).length ≤ (components SLASH m.path.bytes).length

/-- The selection is a longest covering mount, the rest of the path has exactly the
    remaining components, and whatever the nodes are, resolution walks these from
    the root of that mount. -/
def SelectsLongest (t : MountTable ν) (path : CString) : Prop :=
  ∃ m ∈ t.used, ∃ rel, t.findMountRoot path = some (m.root, rel) ∧ t.Longest path m ∧
    components SLASH path = components SLASH m.path.bytes ++ components SLASH rel ∧
    ∀ fs : FileSystem ν, vfsResolve fs t path = fs.walk m.root (components SLASH rel)

/-- The bytes of the mount path stand in front of the path, up to a `/` or its
    end. -/
def Spelled (mount path : CString) : Prop := ∃ rest, mount ++ rest = path ∧ AtBorder SLASH rest

/-! ## The byte comparison -/

theorem matchLen_le (mount path : CString) : matchLen mount path ≤ mount.length := by
  induction mount generalizing path with
  | nil => simp [matchLen]
  | cons a mount ih =>
      cases path with
      | nil => simp [matchLen]
      | cons b path =>
          simp only [matchLen]
          split
          · exact Nat.succ_le_succ (ih path)
          · exact Nat.zero_le _

theorem matchLen_eq_length_iff (mount path : CString) :
    matchLen mount path = mount.length ↔ mount <+: path := by
  induction mount generalizing path with
  | nil => simp [matchLen]
  | cons a mount ih =>
      cases path with
      | nil => simp [matchLen]
      | cons b path =>
          rw [List.cons_prefix_cons, ← ih path]
          by_cases hab : a = b
          · simp [matchLen, hab]
          · simp [matchLen, hab]

/-- The test of `find_mount_root` on one mount. -/
theorem matches_iff_spelled (mount path : CString) :
    (mount[matchLen mount path]? = none ∧
      (path[matchLen mount path]? = some SLASH ∨ path[matchLen mount path]? = none)) ↔
    Spelled mount path := by
  have hend : mount[matchLen mount path]? = none ↔ mount <+: path := by
    rw [List.getElem?_eq_none_iff, ← matchLen_eq_length_iff]
    have hle := matchLen_le mount path
    constructor
    · intro hge
      exact Nat.le_antisymm hle hge
    · intro heq
      exact heq.ge
  rw [hend]
  constructor
  · rintro ⟨⟨rest, rfl⟩, hafter⟩
    refine ⟨rest, rfl, ?_⟩
    rw [(matchLen_eq_length_iff _ _).mpr (List.prefix_append _ _)] at hafter
    cases rest with
    | nil => exact Or.inl rfl
    | cons c rest => exact Or.inr (by simpa using hafter)
  · rintro ⟨rest, rfl, hborder⟩
    refine ⟨List.prefix_append _ _, ?_⟩
    rw [(matchLen_eq_length_iff _ _).mpr (List.prefix_append _ _)]
    rcases hborder with rfl | hhead
    · right
      simp
    · left
      cases rest with
      | nil => simp at hhead
      | cons c rest => simpa using hhead

/-! ## The loop over the table -/

/-- What `best_len` and `best_root` hold after some mounts: the root of a longest
    spelled one of them. -/
def Best (path : CString) (seen : List (Mount ν)) (best : Int × Option ν) : Prop :=
  (best = (-1, none) ∧ ∀ m ∈ seen, ¬ Spelled m.path.bytes path) ∨
  ∃ m ∈ seen, Spelled m.path.bytes path ∧ best = ((m.path.bytes.length : Int), some m.root) ∧
    ∀ m' ∈ seen, Spelled m'.path.bytes path → m'.path.bytes.length ≤ m.path.bytes.length

theorem Spelled.matchLen_eq {mount path : CString} (h : Spelled mount path) :
    matchLen mount path = mount.length := by
  obtain ⟨rest, rfl, -⟩ := h
  exact (matchLen_eq_length_iff _ _).mpr (List.prefix_append _ _)

theorem considerMount_of_spelled {path : CString} {m : Mount ν}
    (h : Spelled m.path.bytes path) (best : Int × Option ν) :
    considerMount path best m =
      if (m.path.bytes.length : Int) > best.1 then ((m.path.bytes.length : Int), some m.root)
      else best := by
  have hmatch := (matches_iff_spelled m.path.bytes path).mpr h
  rw [h.matchLen_eq] at hmatch
  simp only [considerMount, h.matchLen_eq, hmatch, true_and]

theorem considerMount_of_not_spelled {path : CString} {m : Mount ν}
    (h : ¬ Spelled m.path.bytes path) (best : Int × Option ν) :
    considerMount path best m = best := by
  rw [← matches_iff_spelled] at h
  unfold considerMount
  exact if_neg fun hall => h ⟨hall.1, hall.2.1⟩

theorem Best.considerMount {path : CString} {seen : List (Mount ν)} {best : Int × Option ν}
    (h : Best path seen best) (m : Mount ν) :
    Best path (seen ++ [m]) (considerMount path best m) := by
  by_cases hspelled : Spelled m.path.bytes path
  · rw [considerMount_of_spelled hspelled]
    rcases h with ⟨rfl, hnone⟩ | ⟨m₀, hm₀, hspelled₀, rfl, hmax⟩
    · rw [if_pos (by omega)]
      refine Or.inr ⟨m, by simp, hspelled, rfl, ?_⟩
      intro m' hm' hspelled'
      rcases List.mem_append.mp hm' with hold | hnew
      · exact absurd hspelled' (hnone m' hold)
      · rw [List.mem_singleton.mp hnew]
    · right
      by_cases hlonger : m₀.path.bytes.length < m.path.bytes.length
      · rw [if_pos (by omega)]
        refine ⟨m, by simp, hspelled, rfl, ?_⟩
        intro m' hm' hspelled'
        rcases List.mem_append.mp hm' with hold | hnew
        · exact (hmax m' hold hspelled').trans hlonger.le
        · rw [List.mem_singleton.mp hnew]
      · rw [if_neg (by omega)]
        refine ⟨m₀, by simp [hm₀], hspelled₀, rfl, ?_⟩
        intro m' hm' hspelled'
        rcases List.mem_append.mp hm' with hold | hnew
        · exact hmax m' hold hspelled'
        · rw [List.mem_singleton.mp hnew]
          exact Nat.le_of_not_lt hlonger
  · rw [considerMount_of_not_spelled hspelled]
    rcases h with ⟨rfl, hnone⟩ | ⟨m₀, hm₀, hspelled₀, rfl, hmax⟩
    · refine Or.inl ⟨rfl, ?_⟩
      intro m' hm'
      rcases List.mem_append.mp hm' with hold | hnew
      · exact hnone m' hold
      · rwa [List.mem_singleton.mp hnew]
    · refine Or.inr ⟨m₀, by simp [hm₀], hspelled₀, rfl, ?_⟩
      intro m' hm' hspelled'
      rcases List.mem_append.mp hm' with hold | hnew
      · exact hmax m' hold hspelled'
      · rw [List.mem_singleton.mp hnew] at hspelled'
        exact absurd hspelled' hspelled

theorem best_foldl (path : CString) (mounts seen : List (Mount ν)) (best : Int × Option ν)
    (h : Best path seen best) :
    Best path (seen ++ mounts) (mounts.foldl (MountTable.considerMount path) best) := by
  induction mounts generalizing seen best with
  | nil => simpa using h
  | cons m mounts ih =>
      simpa using ih (seen ++ [m]) _ (h.considerMount m)

/-- `find_mount_root` selects a longest literal match, if there is any. -/
theorem findMountRoot_cases (t : MountTable ν) (path : CString) :
    (t.findMountRoot path = none ∧ ∀ m ∈ t.used, ¬ Spelled m.path.bytes path) ∨
    ∃ m ∈ t.used, ∃ rest, m.path.bytes ++ rest = path ∧ AtBorder SLASH rest ∧
      t.findMountRoot path = some (m.root, rest) ∧
      ∀ m' ∈ t.used, Spelled m'.path.bytes path →
        m'.path.bytes.length ≤ m.path.bytes.length := by
  have hbest := best_foldl path t.used [] (-1, none) (Or.inl ⟨rfl, by simp⟩)
  rw [List.nil_append] at hbest
  rcases hbest with ⟨heq, hnone⟩ | ⟨m, hm, ⟨rest, hpath, hborder⟩, heq, hmax⟩
  · exact Or.inl ⟨by simp [findMountRoot, heq], hnone⟩
  · refine Or.inr ⟨m, hm, rest, hpath, hborder, ?_, hmax⟩
    simp [findMountRoot, heq]
    rw [← hpath, List.drop_left]

end MountTable

/-! ## Components of at most 127 bytes are walked one by one -/

namespace FileSystem

variable {ν : Type*}

theorem components_eq_cons {rel : CString} (hname : skipSlashes rel ≠ []) :
    components SLASH rel = (skipSlashes rel).takeWhile (· ≠ SLASH) ::
      components SLASH ((skipSlashes rel).dropWhile (· ≠ SLASH)) := by
  have hsplit := List.takeWhile_append_dropWhile (p := (· ≠ SLASH)) (l := skipSlashes rel)
  rw [← components_dropWhile, ← skipSlashes]
  conv_lhs => rw [← hsplit]
  apply components_cons_name
  · intro hmem
    simpa using List.mem_takeWhile_imp hmem
  · have hpos := nextComponent_length_pos hname
    intro hempty
    rw [nextComponent, hempty] at hpos
    simp at hpos
  · have hhead := List.head?_dropWhile_not (· ≠ SLASH) (skipSlashes rel)
    cases hrest : (skipSlashes rel).dropWhile (· ≠ SLASH) with
    | nil => exact Or.inl rfl
    | cons c rest =>
        right
        rw [hrest] at hhead
        simpa using hhead

theorem nextComponent_of_short {rel : CString}
    (hshort : (rel.takeWhile (· ≠ SLASH)).length ≤ 127) :
    nextComponent rel = rel.takeWhile (· ≠ SLASH) :=
  List.take_of_length_le hshort

theorem drop_length_takeWhile (rel : CString) :
    rel.drop (rel.takeWhile (· ≠ SLASH)).length = rel.dropWhile (· ≠ SLASH) := by
  calc rel.drop (rel.takeWhile (· ≠ SLASH)).length
      = (rel.takeWhile (· ≠ SLASH) ++ rel.dropWhile (· ≠ SLASH)).drop
          (rel.takeWhile (· ≠ SLASH)).length := by rw [List.takeWhile_append_dropWhile]
    _ = rel.dropWhile (· ≠ SLASH) := List.drop_left

/-- The loop walks the components of the path if each of them fits the buffer. -/
theorem walkPath_eq_walk (fs : FileSystem ν) (current : ν) (rel : CString)
    (hshort : ∀ c ∈ components SLASH rel, c.length ≤ 127) :
    fs.walkPath current rel = fs.walk current (components SLASH rel) := by
  induction current, rel using walkPath.induct fs with
  | case1 current => simp [walkPath, walk]
  | case2 current rel hrel hname =>
      have hnone : components SLASH rel = [] := by
        rw [← components_dropWhile, ← skipSlashes, hname, components_nil]
      rw [walkPath, if_neg hrel, if_pos hname, hnone]
      rfl
  | case3 current rel hrel hname henter =>
      have hcons := components_eq_cons hname
      have hfirst := nextComponent_of_short (hshort _ (hcons ▸ List.mem_cons_self))
      rw [walkPath, if_neg hrel, if_neg hname, henter, hcons, walk, List.foldlM_cons, ← hfirst,
        henter]
      rfl
  | case4 current rel hrel hname next henter ih =>
      have hcons := components_eq_cons hname
      have hfirst := nextComponent_of_short (hshort _ (hcons ▸ List.mem_cons_self))
      have hrest : (skipSlashes rel).drop (nextComponent (skipSlashes rel)).length =
          (skipSlashes rel).dropWhile (· ≠ SLASH) := by
        rw [hfirst]
        exact drop_length_takeWhile _
      rw [hrest] at ih
      rw [walkPath, if_neg hrel, if_neg hname, henter, hcons, walk, List.foldlM_cons, ← hfirst,
        henter, hrest]
      exact ih fun c hc => hshort c (hcons ▸ List.mem_cons_of_mem _ hc)

/-- Nodes that find themselves under every name of at most 127 bytes and have no
    other entries. -/
def shortNames : FileSystem ν where
  parent := fun _ => none
  finddir := fun n => some fun name => if name.length ≤ 127 then some n else none

theorem enter_shortNames (n : ν) (name : CString) :
    shortNames.enter n name = if name.length ≤ 127 then some n else none := by
  unfold enter
  split
  · next h => simp [h]
  · split
    · next h => simp [h, shortNames]
    · rfl

theorem enter_shortNames_nextComponent (n : ν) (rel : CString) :
    shortNames.enter n (nextComponent rel) = some n := by
  have hfits : (nextComponent rel).length ≤ 127 := List.length_take_le 127 _
  rw [enter_shortNames, if_pos hfits]

/-- The names the loop looks up all fit the buffer. -/
theorem walkPath_shortNames (n : ν) (rel : CString) : shortNames.walkPath n rel = some n := by
  induction n, rel using walkPath.induct shortNames with
  | case1 n => simp [walkPath]
  | case2 n rel hrel hname => rw [walkPath, if_neg hrel, if_pos hname]
  | case3 n rel hrel hname henter =>
      simp [enter_shortNames_nextComponent] at henter
  | case4 n rel hrel hname next henter ih =>
      have hnext : next = n := by
        rw [enter_shortNames_nextComponent] at henter
        exact (Option.some.inj henter).symm
      rw [walkPath, if_neg hrel, if_neg hname, henter]
      exact hnext ▸ ih

theorem walk_shortNames (n : ν) {names : List CString} (hlong : ∃ c ∈ names, 127 < c.length) :
    shortNames.walk n names = none := by
  induction names with
  | nil => simp at hlong
  | cons name names ih =>
      rw [walk, List.foldlM_cons, enter_shortNames]
      by_cases hname : name.length ≤ 127
      · rw [if_pos hname]
        apply ih
        obtain ⟨c, hc, hlen⟩ := hlong
        rcases List.mem_cons.mp hc with rfl | hrest
        · omega
        · exact ⟨c, hrest, hlen⟩
      · rw [if_neg hname]
        rfl

end FileSystem

/-! ## When the selection is the intended one -/

namespace MountTable

variable {ν : Type*}

theorem Spelled.covers {mount path : CString} (h : Spelled mount path)
    (habsolute : path.head? = some SLASH) : Covers mount path := by
  obtain ⟨rest, rfl, hborder⟩ := h
  constructor
  · intro c hc
    cases mount with
    | nil => simp at hc
    | cons b mount =>
        obtain rfl : b = c := by simpa using hc
        simpa using habsolute
  · rw [components_append hborder]
    exact List.prefix_append _ _

/-- Of two mounts spelled in one path, the longer one has no fewer components. -/
theorem Spelled.components_le {mount mount' path : CString} (h : Spelled mount path)
    (h' : Spelled mount' path) (hle : mount.length ≤ mount'.length) :
    (components SLASH mount).length ≤ (components SLASH mount').length := by
  obtain ⟨rest, hpath, hborder⟩ := h
  obtain ⟨rest', hpath', -⟩ := h'
  obtain ⟨more, rfl⟩ : mount <+: mount' :=
    List.prefix_of_prefix_length_le ⟨rest, hpath⟩ ⟨rest', hpath'⟩ hle
  have hrest : more ++ rest' = rest := by
    rw [← hpath', List.append_assoc] at hpath
    exact (List.append_cancel_left hpath).symm
  have hmore : AtBorder SLASH more := by
    cases more with
    | nil => exact Or.inl rfl
    | cons c more =>
        rw [← hrest] at hborder
        simpa [AtBorder] using hborder
  rw [components_append hmore, List.length_append]
  exact Nat.le_add_right _ _

/-- **When mount selection is right.** For an absolute path, `find_mount_root`
    selects a longest covering mount and `vfs_resolve` walks exactly the remaining
    components if and only if some longest covering mount is spelled in the path
    and the components after it have at most 127 bytes. -/
theorem selectsLongest_iff (t : MountTable ν) {path : CString}
    (habsolute : path.head? = some SLASH) :
    t.SelectsLongest path ↔
      ∃ m ∈ t.used, t.Longest path m ∧ Spelled m.path.bytes path ∧
        ∀ c ∈ (components SLASH path).drop (components SLASH m.path.bytes).length,
          c.length ≤ 127 := by
  have hne : path ≠ [] := by
    intro hnil
    simp [hnil] at habsolute
  constructor
  · rintro ⟨m, hm, rel, hfind, hlongest, hrel, hwalk⟩
    rcases t.findMountRoot_cases path with ⟨hnone, -⟩ | ⟨s, hs, rest, hpath, hborder, heq, -⟩
    · simp [hnone] at hfind
    · obtain ⟨hroot, rfl⟩ : s.root = m.root ∧ rest = rel := by
        rw [heq] at hfind
        simpa using hfind
      -- the selected mount and `m` have the same components
      have hsame : components SLASH m.path.bytes = components SLASH s.path.bytes := by
        rw [← hpath, components_append hborder] at hrel
        exact (List.append_cancel_right hrel).symm
      have hspelled : Spelled s.path.bytes path := ⟨rest, hpath, hborder⟩
      refine ⟨s, hs, ⟨hspelled.covers habsolute, ?_⟩, hspelled, ?_⟩
      · intro m' hm' hcovers
        rw [← hsame]
        exact hlongest.2 m' hm' hcovers
      · rw [← hpath, components_append hborder, List.drop_left]
        intro c hc
        by_contra hlong
        have hresolve := hwalk FileSystem.shortNames
        rw [vfsResolve, if_neg hne, hfind,
          FileSystem.walk_shortNames _ ⟨c, hc, Nat.lt_of_not_le hlong⟩] at hresolve
        simp only [FileSystem.walkPath_shortNames] at hresolve
        exact absurd hresolve (by simp)
  · rintro ⟨m, hm, hlongest, hspelled, hshort⟩
    rcases t.findMountRoot_cases path with
      ⟨-, hnone⟩ | ⟨s, hs, rest, hpath, hborder, heq, hmax⟩
    · exact absurd hspelled (hnone m hm)
    · have hspelled' : Spelled s.path.bytes path := ⟨rest, hpath, hborder⟩
      have hcovers := hspelled'.covers habsolute
      have hcount : (components SLASH s.path.bytes).length =
          (components SLASH m.path.bytes).length :=
        Nat.le_antisymm (hlongest.2 s hs hcovers)
          (hspelled.components_le hspelled' (hmax m hm hspelled))
      have hsplit : components SLASH path =
          components SLASH s.path.bytes ++ components SLASH rest := by
        rw [← hpath, components_append hborder]
      refine ⟨s, hs, rest, heq, ⟨hcovers, ?_⟩, hsplit, ?_⟩
      · intro m' hm' hcovers'
        rw [hcount]
        exact hlongest.2 m' hm' hcovers'
      · intro fs
        rw [vfsResolve, if_neg hne, heq]
        apply fs.walkPath_eq_walk
        intro c hc
        apply hshort
        rw [hsplit, ← hcount, List.drop_left]
        exact hc

/-- The table after the kernel's two mounts, with node numbers for the roots:
    `"/"` and `"/mnt"`. -/
def bootMounts : MountTable Nat :=
  ((vfsInit.vfsMount (some ⟨[SLASH], by decide⟩) (some 1)).2.vfsMount
    (some ⟨[SLASH, 109, 110, 116], by decide⟩) (some 2)).2

theorem bootMounts_used : bootMounts.used =
    [⟨⟨[SLASH], by decide⟩, 1⟩, ⟨⟨[SLASH, 109, 110, 116], by decide⟩, 2⟩] := rfl

/-- The path `/mnt/a` is resolved from the root of `/mnt`. -/
theorem selectsLongest_mnt : bootMounts.SelectsLongest [SLASH, 109, 110, 116, SLASH, 97] := by
  refine (selectsLongest_iff bootMounts rfl).mpr
    ⟨⟨⟨[SLASH, 109, 110, 116], by decide⟩, 2⟩, by simp [bootMounts_used], ?_,
      ⟨[SLASH, 97], rfl, Or.inr rfl⟩, by decide⟩
  refine ⟨⟨fun c hc => (Option.some.inj hc).symm, by decide⟩, ?_⟩
  intro m hm _
  rcases List.mem_pair.mp (bootMounts_used ▸ hm) with rfl | rfl <;> decide

/-- With `"/"` mounted, no mount is found for `/bin`. -/
theorem findMountRoot_not_longest :
    ¬ ∀ (t : MountTable Nat) (path : CString), t.vfsGetRoot.isSome → path.head? = some SLASH →
      t.SelectsLongest path := by
  intro h
  obtain ⟨m, -, rel, hfind, -⟩ := h bootMounts [SLASH, 98, 105, 110] rfl rfl
  have hnone : bootMounts.findMountRoot [SLASH, 98, 105, 110] = none := by decide
  rw [hnone] at hfind
  simp at hfind

end MountTable

end NemoOS
