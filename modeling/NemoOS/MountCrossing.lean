import Mathlib
import NemoOS.MountSelection

/-!
# Relative and absolute resolution

`vfs_resolve_relative` walks from a directory and does not look at the mount table,
`vfs_resolve` selects a mount for the whole path first. For a directory `D` that `A`
resolves to, walking `r` from `D` and resolving `A/r` are the same walk, unless a mount
lies between the two: a mount whose path goes on behind `A` and is spelled in `A/r`.
The absolute path is resolved from the root of that mount then, and the relative one
goes on in the directory below the mount point. Which paths agree in every file system is
`resolveRelative_agrees_iff`: those that cross no mount, and those where the mount on the
way has the root and the names of the one before it.
-/

namespace NemoOS

open Paths

/-! ## Walks in two parts -/

namespace FileSystem

variable {ν : Type*}

theorem skipSlashes_append {rel : CString} (hname : skipSlashes rel ≠ []) (more : CString) :
    skipSlashes (rel ++ more) = skipSlashes rel ++ more := by
  rw [skipSlashes, List.dropWhile_append, if_neg]
  · rfl
  · simpa [skipSlashes] using hname

theorem skipSlashes_append_of_nil {rel : CString} (hname : skipSlashes rel = [])
    (more : CString) : skipSlashes (rel ++ SLASH :: more) = skipSlashes more := by
  rw [skipSlashes, List.dropWhile_append, if_pos]
  · rw [List.dropWhile_cons_of_pos (by simp)]
    rfl
  · simpa [skipSlashes] using hname

/-- A component ends at a `/`, whether or not the path goes on there. -/
theorem nextComponent_append (rel more : CString) :
    nextComponent (rel ++ SLASH :: more) = nextComponent rel := by
  rw [nextComponent, nextComponent, List.takeWhile_append]
  split
  · next hall =>
    rw [List.takeWhile_cons_of_neg (by simp), List.append_nil,
      (List.takeWhile_prefix _).eq_of_length hall]
  · rfl

theorem nextComponent_length_le (rel : CString) : (nextComponent rel).length ≤ rel.length := by
  have hle := (List.takeWhile_prefix (p := (· ≠ SLASH)) (l := rel)).length_le
  rw [nextComponent, List.length_take]
  omega

/-- The components the loop enters, in pieces of at most 127 bytes. -/
def steps (rel : CString) : List CString :=
  if skipSlashes rel = [] then []
  else
    nextComponent (skipSlashes rel) ::
      steps ((skipSlashes rel).drop (nextComponent (skipSlashes rel)).length)
termination_by rel.length
decreasing_by
  rename_i hname
  have hpos := nextComponent_length_pos hname
  have hle : (skipSlashes rel).length ≤ rel.length := List.length_dropWhile_le _ rel
  have hlen : 0 < (skipSlashes rel).length := List.length_pos_iff.mpr hname
  rw [List.length_drop]
  omega

/-- The components that lead on, `.` left out. -/
def moves (rel : CString) : List CString := (steps rel).filter (· ≠ [DOT])

/-- The components of `rel/more` are those of `rel` and those of `more`. -/
theorem steps_append (rel more : CString) :
    steps (rel ++ SLASH :: more) = steps rel ++ steps more := by
  induction rel using steps.induct with
  | case1 rel hname =>
      rw [steps, skipSlashes_append_of_nil hname, ← steps.eq_def more, steps.eq_def rel, if_pos hname,
        List.nil_append]
  | case2 rel hname ih =>
      rw [steps, skipSlashes_append hname, if_neg (by simp), nextComponent_append,
        List.drop_append_of_le_length (nextComponent_length_le _), ih, steps.eq_def rel, if_neg hname,
        List.cons_append]

theorem moves_append (rel more : CString) :
    moves (rel ++ SLASH :: more) = moves rel ++ moves more := by
  rw [moves, steps_append, List.filter_append, ← moves, ← moves]

theorem walkPath_eq_steps (fs : FileSystem ν) (current : ν) (rel : CString) :
    fs.walkPath current rel = fs.walk current (steps rel) := by
  induction current, rel using walkPath.induct fs with
  | case1 current =>
      rw [walkPath, if_pos rfl, steps, if_pos (show skipSlashes [] = [] from rfl)]
      rfl
  | case2 current rel hrel hname =>
      rw [walkPath, if_neg hrel, if_pos hname, steps, if_pos hname]
      rfl
  | case3 current rel hrel hname henter =>
      rw [walkPath, if_neg hrel, if_neg hname, steps, if_neg hname, walk, List.foldlM_cons, henter]
      rfl
  | case4 current rel hrel hname next henter ih =>
      rw [walkPath, if_neg hrel, if_neg hname, steps, if_neg hname, walk, List.foldlM_cons, henter]
      exact ih

theorem walk_filter (fs : FileSystem ν) (current : ν) (names : List CString) :
    fs.walk current (names.filter (· ≠ [DOT])) = fs.walk current names := by
  induction names generalizing current with
  | nil => rfl
  | cons name names ih =>
      by_cases hdot : name = [DOT]
      · rw [List.filter_cons_of_neg (by simpa using hdot), ih]
        simp [walk, enter, hdot]
      · rw [List.filter_cons_of_pos (by simpa using hdot), walk, walk, List.foldlM_cons,
          List.foldlM_cons]
        exact bind_congr fun next => ih next

/-- A walk depends on the moves of its path only. -/
theorem walkPath_eq_moves (fs : FileSystem ν) (current : ν) (rel : CString) :
    fs.walkPath current rel = fs.walk current (moves rel) := by
  rw [moves, walk_filter, walkPath_eq_steps]

/-! ## Two file systems -/

/-- Every name and `..` lead back to the same node. -/
def still : FileSystem ν where
  parent := fun _ => none
  finddir := fun n => some fun _ => some n

theorem walk_still (n : ν) (names : List CString) : still.walk n names = some n := by
  induction names with
  | nil => rfl
  | cons name names ih =>
      have henter : still.enter n name = some n := by simp [enter, still]
      rw [walk, List.foldlM_cons, henter]
      exact ih

/-- Every node is the list of the moves that lead to it, written down as a node by `e`. -/
noncomputable def history (e : List CString → ν) : FileSystem ν where
  parent := fun n => some (e (Function.invFun e n ++ [[DOT, DOT]]))
  finddir := fun n => some fun name => some (e (Function.invFun e n ++ [name]))

theorem walk_history {e : List CString → ν} (he : Function.Injective e) (before : List CString)
    {names : List CString} (hnames : [DOT] ∉ names) :
    (history e).walk (e before) names = some (e (before ++ names)) := by
  induction names generalizing before with
  | nil => simp [walk]
  | cons name names ih =>
      rw [List.mem_cons, not_or] at hnames
      have hback : Function.invFun e (e before) = before := Function.leftInverse_invFun he before
      have henter : (history e).enter (e before) name = some (e (before ++ [name])) := by
        rw [enter, if_neg (Ne.symm hnames.1)]
        split
        · next hdots => simp [history, hback, hdots]
        · simp [history, hback]
      rw [walk, List.foldlM_cons, henter]
      refine (ih (before ++ [name]) hnames.2).trans ?_
      rw [List.append_assoc, List.singleton_append]

/-- There are nodes enough for all lists of moves, with a given node for the empty one. -/
theorem exists_history [Infinite ν] (root : ν) :
    ∃ e : List CString → ν, Function.Injective e ∧ e [] = root := by
  have hbytes : Countable UInt8 := Function.Injective.countable fun _ _ => UInt8.toNat_inj.mp
  obtain ⟨code, hcode⟩ := exists_injective_nat (List CString)
  classical
  refine ⟨fun names => Equiv.swap (Infinite.natEmbedding ν (code [])) root
    (Infinite.natEmbedding ν (code names)), ?_, Equiv.swap_apply_left _ _⟩
  exact (Equiv.injective _).comp ((Infinite.natEmbedding ν).injective.comp hcode)

end FileSystem

/-! ## The mounts on the way -/

namespace MountTable

variable {ν : Type*}

/-- A mount lies between the directory `A` and the path `A/r`. -/
def Crosses (t : MountTable ν) (A r : CString) : Prop :=
  ∃ m ∈ t.used, A.length < m.path.bytes.length ∧ Spelled m.path.bytes (A ++ SLASH :: r)

/-- Up to the length of `A`, the same mounts are spelled in `A` and in `A/r`. -/
theorem spelled_append_iff {mount A r : CString} (hle : mount.length ≤ A.length) :
    Spelled mount (A ++ SLASH :: r) ↔ Spelled mount A := by
  constructor
  · rintro ⟨rest, hpath, hborder⟩
    obtain ⟨more, rfl⟩ : mount <+: A :=
      List.prefix_of_prefix_length_le ⟨rest, hpath⟩ (List.prefix_append _ _) hle
    refine ⟨more, rfl, ?_⟩
    rw [List.append_assoc] at hpath
    obtain rfl := List.append_cancel_left hpath
    cases more with
    | nil => exact Or.inl rfl
    | cons c more => simpa [AtBorder] using hborder
  · rintro ⟨rest, rfl, hborder⟩
    refine ⟨rest ++ SLASH :: r, (List.append_assoc _ _ _).symm, Or.inr ?_⟩
    rcases hborder with rfl | hhead
    · rfl
    · rw [List.head?_append, hhead]
      rfl

theorem foldl_considerMount_congr {path path' : CString} {mounts : List (Mount ν)}
    (h : ∀ m ∈ mounts, Spelled m.path.bytes path ↔ Spelled m.path.bytes path')
    (best : Int × Option ν) :
    mounts.foldl (considerMount path) best = mounts.foldl (considerMount path') best := by
  apply List.foldl_ext
  intro best m hm
  by_cases hspelled : Spelled m.path.bytes path
  · rw [considerMount_of_spelled hspelled, considerMount_of_spelled ((h m hm).mp hspelled)]
  · rw [considerMount_of_not_spelled hspelled,
      considerMount_of_not_spelled (mt (h m hm).mpr hspelled)]

/-- Without a mount on the way, the same mount is selected for `A` and for `A/r`. -/
theorem findMountRoot_append {t : MountTable ν} {A r : CString} (hcross : ¬ t.Crosses A r)
    {root : ν} {rest : CString} (h : t.findMountRoot A = some (root, rest)) :
    t.findMountRoot (A ++ SLASH :: r) = some (root, rest ++ SLASH :: r) := by
  have hsame : ∀ m ∈ t.used,
      Spelled m.path.bytes (A ++ SLASH :: r) ↔ Spelled m.path.bytes A := by
    intro m hm
    by_cases hle : m.path.bytes.length ≤ A.length
    · exact spelled_append_iff hle
    · apply iff_of_false
      · exact fun hspelled => hcross ⟨m, hm, Nat.lt_of_not_le hle, hspelled⟩
      · rintro ⟨rest, hpath, -⟩
        rw [← hpath, List.length_append] at hle
        omega
  have hbest := best_foldl A t.used [] (-1, none) (Or.inl ⟨rfl, by simp⟩)
  rw [List.nil_append] at hbest
  rw [findMountRoot] at h ⊢
  rw [foldl_considerMount_congr hsame]
  rcases hbest with ⟨heq, -⟩ | ⟨m, -, ⟨rest', rfl, -⟩, heq, -⟩
  · simp [heq] at h
  · simp only [heq, Option.map_some, Int.toNat_natCast, List.drop_left, Option.some.injEq,
      Prod.mk.injEq, List.append_assoc] at h ⊢
    obtain ⟨rfl, rfl⟩ := h
    exact ⟨rfl, rfl⟩

/-- A mount on the way is the one that is selected, or a longer one is. -/
theorem Crosses.findMountRoot {t : MountTable ν} {A r : CString} (hcross : t.Crosses A r) :
    ∃ root rest, t.findMountRoot (A ++ SLASH :: r) = some (root, rest) := by
  obtain ⟨m, hm, -, hspelled⟩ := hcross
  rcases t.findMountRoot_cases (A ++ SLASH :: r) with ⟨-, hnone⟩ | ⟨s, -, rest, -, -, heq, -⟩
  · exact absurd hspelled (hnone m hm)
  · exact ⟨s.root, rest, heq⟩

/-- The mount selected for `A/r` has the root of the one selected for `A`, and its path goes
    on by `.` and slashes only, such as `/mnt/.` behind `/mnt`: the same names are left. -/
def Respelled (t : MountTable ν) (A r : CString) : Prop :=
  ∃ root rest rest', t.findMountRoot A = some (root, rest) ∧
    t.findMountRoot (A ++ SLASH :: r) = some (root, rest') ∧
    FileSystem.moves rest' = FileSystem.moves rest ++ FileSystem.moves r

/-- No mount on the way is the simplest case of the same names being left. -/
theorem respelled_of_not_crosses {t : MountTable ν} {A r : CString} (hcross : ¬ t.Crosses A r)
    {root : ν} {rest : CString} (h : t.findMountRoot A = some (root, rest)) : t.Respelled A r :=
  ⟨root, rest, _, h, findMountRoot_append hcross h, FileSystem.moves_append rest r⟩

end MountTable

section Agreement

variable {ν : Type*} {t : MountTable ν} {A r : CString}

theorem vfsResolve_eq_some_iff {fs : FileSystem ν} {D : ν} :
    vfsResolve fs t A = some D ↔ A ≠ [] ∧ ∃ root rest, t.findMountRoot A = some (root, rest) ∧
      fs.walkPath root rest = some D := by
  rw [vfsResolve]
  by_cases hA : A = []
  · simp [hA]
  · rw [if_neg hA]
    cases hfind : t.findMountRoot A with
    | none => simp
    | some sel => obtain ⟨root, rest⟩ := sel; simp [hA]

/-- Behind the mount selected for `A/r`, its names are walked from the root of that mount. -/
theorem vfsResolve_append {fs : FileSystem ν} {root : ν} {rest : CString}
    (hfind : t.findMountRoot (A ++ SLASH :: r) = some (root, rest)) :
    vfsResolve fs t (A ++ SLASH :: r) = fs.walk root (FileSystem.moves rest) := by
  rw [vfsResolve, if_neg (by simp), hfind]
  exact fs.walkPath_eq_moves root rest

theorem vfsResolveRelative_of_respelled {fs : FileSystem ν} {D : ν}
    (hA : vfsResolve fs t A = some D) (hr : r.head? ≠ some SLASH) (hsame : t.Respelled A r) :
    vfsResolveRelative fs t D r = vfsResolve fs t (A ++ SLASH :: r) := by
  obtain ⟨root, rest, rest', hfind, hfind', hmoves⟩ := hsame
  obtain ⟨-, root₁, rest₁, hfind₁, hwalk⟩ := vfsResolve_eq_some_iff.mp hA
  obtain ⟨rfl, rfl⟩ : root = root₁ ∧ rest = rest₁ := by simpa [hfind] using hfind₁
  rw [fs.walkPath_eq_moves, FileSystem.walk] at hwalk
  rw [vfsResolveRelative, if_neg hr, vfsResolve_append hfind', hmoves, fs.walkPath_eq_moves,
    FileSystem.walk, FileSystem.walk, List.foldlM_append, hwalk]
  rfl

/-- **Relative and absolute resolution.** In every file system, and for the directory `D`
    that `A` resolves to there, walking a relative path `r` from `D` gives what `A/r`
    resolves to, if and only if no mount lies on the way or the mount on the way has the
    root of the one before it under a longer spelling of the same names. For any other
    path that crosses a mount there is a file system where the two differ. -/
theorem resolveRelative_agrees_iff [Infinite ν] {fs₀ : FileSystem ν} {D₀ : ν}
    (hA : vfsResolve fs₀ t A = some D₀) (hr : r.head? ≠ some SLASH) :
    (∀ (fs : FileSystem ν) (D : ν), vfsResolve fs t A = some D →
      vfsResolveRelative fs t D r = vfsResolve fs t (A ++ SLASH :: r)) ↔
      ¬ t.Crosses A r ∨ t.Respelled A r := by
  constructor
  · intro hagree
    rw [or_iff_not_imp_left, not_not]
    intro hcross
    obtain ⟨hne, root, rest, hfind, -⟩ := vfsResolve_eq_some_iff.mp hA
    obtain ⟨root', rest', hfind'⟩ := hcross.findMountRoot
    have hresolve : ∀ {fs : FileSystem ν} {D : ν}, fs.walk root (FileSystem.moves rest) = some D →
        fs.walk D (FileSystem.moves r) = fs.walk root' (FileSystem.moves rest') := by
      intro fs D hwalk
      have h := hagree fs D (vfsResolve_eq_some_iff.mpr
        ⟨hne, root, rest, hfind, (fs.walkPath_eq_moves root rest).trans hwalk⟩)
      rwa [vfsResolveRelative, if_neg hr, vfsResolve_append hfind', fs.walkPath_eq_moves] at h
    -- where nothing moves, the two walks end at the roots of the two mounts
    have hroot := hresolve (FileSystem.walk_still root _)
    rw [FileSystem.walk_still, FileSystem.walk_still] at hroot
    obtain rfl := Option.some.inj hroot
    -- where the nodes are histories, they end at the names that were walked
    obtain ⟨e, he, rfl⟩ := FileSystem.exists_history root
    have hdot : ∀ rel, [DOT] ∉ FileSystem.moves rel := fun rel => by simp [FileSystem.moves]
    have hmoves := hresolve (FileSystem.walk_history he [] (hdot rest))
    rw [FileSystem.walk_history he _ (hdot r), FileSystem.walk_history he _ (hdot rest')] at hmoves
    exact ⟨_, rest, rest', hfind, hfind', (he (Option.some.inj hmoves)).symm⟩
  · rintro (hcross | hsame) fs D hD
    · obtain ⟨-, root, rest, hfind, -⟩ := vfsResolve_eq_some_iff.mp hD
      exact vfsResolveRelative_of_respelled hD hr (MountTable.respelled_of_not_crosses hcross hfind)
    · exact vfsResolveRelative_of_respelled hD hr hsame

end Agreement

/-- Directory 2 has the entry `a`, and directory 1 the entry `usb`. -/
def twoDirectories : FileSystem Nat where
  parent := fun _ => none
  finddir := fun n => some fun name =>
    if n = 2 ∧ name = [97] then some 5 else if n = 1 ∧ name = [117, 115, 98] then some 3 else none

/-- With the kernel's mounts, `a` from the root of `/mnt` and `/mnt/a` are the same file. -/
theorem resolveRelative_agrees_mnt :
    vfsResolve twoDirectories MountTable.bootMounts [SLASH, 109, 110, 116] = some 2 ∧
      vfsResolveRelative twoDirectories MountTable.bootMounts 2 [97] = some 5 ∧
      vfsResolveRelative twoDirectories MountTable.bootMounts 2 [97] =
        vfsResolve twoDirectories MountTable.bootMounts
          ([SLASH, 109, 110, 116] ++ [SLASH, 97]) := by
  have hA : vfsResolve twoDirectories MountTable.bootMounts [SLASH, 109, 110, 116] = some 2 := by
    rw [vfsResolve, if_neg (by decide),
      show MountTable.bootMounts.findMountRoot [SLASH, 109, 110, 116] = some (2, []) by decide]
    simp [FileSystem.walkPath]
  refine ⟨hA, ?_, (resolveRelative_agrees_iff hA (by decide)).mpr (Or.inl ?_) _ _ hA⟩
  · rw [vfsResolveRelative, if_neg (by decide)]
    simp [FileSystem.walkPath, FileSystem.skipSlashes, FileSystem.nextComponent, FileSystem.enter,
      twoDirectories, SLASH, DOT]
  · rintro ⟨m, hm, hlong, -⟩
    rcases List.mem_pair.mp (MountTable.bootMounts_used ▸ hm) with rfl | rfl <;>
      exact absurd hlong (by decide)

theorem length_mnt_lt : [SLASH, 109, 110, 116].length < 256 := by decide

/-- The mounts `/mnt` and `/mnt/usb`. -/
def nestedMounts : MountTable Nat :=
  ((MountTable.vfsInit.vfsMount (some ⟨[SLASH, 109, 110, 116], length_mnt_lt⟩) (some 1)).2.vfsMount
    (some ⟨[SLASH, 109, 110, 116, SLASH, 117, 115, 98], by decide⟩) (some 2)).2

/-- From the root of `/mnt`, `usb` is the directory below the mount point and not the root
    mounted there. -/
theorem resolveRelative_misses_mount :
    ¬ ∀ (fs : FileSystem Nat) (t : MountTable Nat) (A r : CString) (D : Nat),
      A.head? = some SLASH → vfsResolve fs t A = some D → r.head? ≠ some SLASH →
      [DOT, DOT] ∉ components SLASH r →
      vfsResolveRelative fs t D r = vfsResolve fs t (A ++ SLASH :: r) := by
  intro h
  have hA : vfsResolve twoDirectories nestedMounts [SLASH, 109, 110, 116] = some 1 := by
    rw [vfsResolve, if_neg (by decide),
      show nestedMounts.findMountRoot [SLASH, 109, 110, 116] = some (1, []) by decide]
    simp [FileSystem.walkPath]
  have hagree := h twoDirectories nestedMounts [SLASH, 109, 110, 116] [117, 115, 98] 1 rfl hA
    (by decide) (by decide)
  rw [vfsResolveRelative, if_neg (by decide), vfsResolve, if_neg (by decide),
    show nestedMounts.findMountRoot ([SLASH, 109, 110, 116] ++ SLASH :: [117, 115, 98]) =
      some (2, []) by decide] at hagree
  simp [FileSystem.walkPath, FileSystem.skipSlashes, FileSystem.nextComponent, FileSystem.enter,
    twoDirectories, SLASH, DOT] at hagree

end NemoOS
