import NemoOS.MountSelection

/-!
# The names that a path walk takes

The loop of `vfs_resolve` and `vfs_resolve_relative` copies a component to a buffer of 128
bytes and stops at 127; what is left of a longer one is taken for the next component. Beside the
node that the walk ends at, this module has the places of the path at which it takes a name, and
`names_whole_iff` says for which paths every name is a component from one slash to the next.
-/

namespace NemoOS

open Paths FileSystem

variable {ν : Type*}

/-! ## Places -/

/-- What is left of the path each time the loop starts to copy a name. -/
def FileSystem.walkRests (fs : FileSystem ν) (current : ν) (rel : CString) : List CString :=
  if rel = [] then []
  else if skipSlashes rel = [] then []
  else
    skipSlashes rel ::
      match fs.enter current (nextComponent (skipSlashes rel)) with
      | none => []
      | some next =>
          fs.walkRests next ((skipSlashes rel).drop (nextComponent (skipSlashes rel)).length)
termination_by rel.length
decreasing_by
  rename_i _ hname
  have hpos := nextComponent_length_pos hname
  have hle : (skipSlashes rel).length ≤ rel.length := List.length_dropWhile_le _ rel
  have hlen : 0 < (skipSlashes rel).length := List.length_pos_iff.mpr hname
  rw [List.length_drop]
  omega

/-- `vfs_resolve`. -/
def resolveRests (fs : FileSystem ν) (t : MountTable ν) (path : CString) : List CString :=
  if path = [] then []
  else
    match t.findMountRoot path with
    | none => []
    | some (root, rel) => fs.walkRests root rel

/-- `vfs_resolve_relative`. -/
def resolveRelativeRests (fs : FileSystem ν) (t : MountTable ν) (base : ν) (path : CString) :
    List CString :=
  if path.head? = some SLASH then resolveRests fs t path else fs.walkRests base path

/-- The name that is taken at `rest` is a component of the path, with nothing of the component
    left on either side. -/
structure TakenWhole (path rest : CString) : Prop where
  ne_nil : nextComponent rest ≠ []
  no_slash : SLASH ∉ nextComponent rest
  starts : ∃ before, path = before ++ rest ∧ (before = [] ∨ before.getLast? = some SLASH)
  ends : AtBorder SLASH (rest.drop (nextComponent rest).length)

/-! ## Names and components -/

/-- A component can start at `rel`. -/
def StartsAt (before rel : CString) : Prop :=
  before = [] ∨ before.getLast? = some SLASH ∨ AtBorder SLASH rel

theorem StartsAt.of_nil (rel : CString) : StartsAt [] rel := .inl rfl

theorem atBorder_dropWhile (rel : CString) : AtBorder SLASH (rel.dropWhile (· ≠ SLASH)) := by
  rcases hhead : (rel.dropWhile (· ≠ SLASH)).head? with _ | c
  · exact .inl (List.head?_eq_none_iff.mp hhead)
  · have hnot := List.head?_dropWhile_not (· ≠ SLASH) rel
    rw [hhead] at hnot
    right
    rw [hhead]
    simpa using hnot

/-- In front of a name there is a slash, or nothing. -/
theorem starts_skipSlashes {before rel : CString} (h : StartsAt before rel)
    (hname : skipSlashes rel ≠ []) :
    ∃ before', before ++ rel = before' ++ skipSlashes rel ∧
      (before' = [] ∨ before'.getLast? = some SLASH) := by
  have hsplit := List.takeWhile_append_dropWhile (p := (· = SLASH)) (l := rel)
  refine ⟨before ++ rel.takeWhile (· = SLASH), by rw [skipSlashes, List.append_assoc, hsplit], ?_⟩
  rcases hlast : (rel.takeWhile (· = SLASH)).getLast? with _ | c
  · have hnone := List.getLast?_eq_none_iff.mp hlast
    rw [hnone, List.nil_append, ← skipSlashes] at hsplit
    rw [hnone, List.append_nil]
    rcases h with hempty | hslash | hrel | hhead
    · exact .inl hempty
    · exact .inr hslash
    · exact absurd (hsplit.trans hrel) hname
    · rw [← hsplit] at hhead
      exact absurd hhead (head?_skipSlashes rel)
  · have hc : c = SLASH := by simpa using List.mem_takeWhile_imp (List.mem_of_getLast? hlast)
    right
    rw [List.getLast?_append, hlast, hc]
    rfl

theorem no_slash_nextComponent (rel : CString) : SLASH ∉ nextComponent rel := by
  intro hmem
  have htaken := List.mem_takeWhile_imp (List.mem_of_mem_take hmem)
  simp at htaken

/-- A component of more than 127 bytes goes on behind the name. -/
theorem not_atBorder_of_long {rest : CString} (hlong : 127 < (rest.takeWhile (· ≠ SLASH)).length) :
    ¬ AtBorder SLASH (rest.drop (nextComponent rest).length) := by
  have hlength : (nextComponent rest).length = 127 := by
    rw [nextComponent, List.length_take]
    omega
  obtain ⟨c, left, hleft⟩ := List.exists_cons_of_length_pos
    (l := (rest.takeWhile (· ≠ SLASH)).drop 127) (by rw [List.length_drop]; omega)
  have hc : c ≠ SLASH := by
    have hmem : c ∈ rest.takeWhile (· ≠ SLASH) :=
      List.mem_of_mem_drop (hleft ▸ List.mem_cons_self)
    simpa using List.mem_takeWhile_imp hmem
  have hdrop : rest.drop 127 = c :: (left ++ rest.dropWhile (· ≠ SLASH)) := by
    conv_lhs => rw [← List.takeWhile_append_dropWhile (p := (· ≠ SLASH)) (l := rest)]
    rw [List.drop_append_of_le_length (by omega), hleft, List.cons_append]
  rw [hlength, hdrop]
  rintro (hnil | hhead)
  · cases hnil
  · exact hc (Option.some.inj hhead)

/-- A name is taken whole exactly if its component fits the buffer. -/
theorem takenWhole_iff {before rel : CString} (h : StartsAt before rel)
    (hname : skipSlashes rel ≠ []) :
    TakenWhole (before ++ rel) (skipSlashes rel) ↔
      ((skipSlashes rel).takeWhile (· ≠ SLASH)).length ≤ 127 := by
  constructor
  · intro hwhole
    by_contra hlong
    exact not_atBorder_of_long (by omega) hwhole.ends
  · intro hshort
    refine ⟨?_, no_slash_nextComponent _, starts_skipSlashes h hname, ?_⟩
    · exact List.ne_nil_of_length_pos (nextComponent_length_pos hname)
    · rw [nextComponent_of_short hshort, drop_length_takeWhile]
      exact atBorder_dropWhile _

/-! ## Walks -/

/-- The rest behind a short component, as a part of the path. -/
theorem exists_before_rest (before : CString) {rel : CString}
    (hshort : ((skipSlashes rel).takeWhile (· ≠ SLASH)).length ≤ 127) :
    ∃ before', before ++ rel = before' ++
        (skipSlashes rel).drop (nextComponent (skipSlashes rel)).length ∧
      StartsAt before' ((skipSlashes rel).drop (nextComponent (skipSlashes rel)).length) := by
  rw [nextComponent_of_short hshort, drop_length_takeWhile]
  refine ⟨before ++ rel.takeWhile (· = SLASH) ++ (skipSlashes rel).takeWhile (· ≠ SLASH), ?_,
    .inr (.inr (atBorder_dropWhile _))⟩
  rw [List.append_assoc, List.append_assoc, List.takeWhile_append_dropWhile, skipSlashes,
    List.takeWhile_append_dropWhile]

theorem walkRests_whole (fs : FileSystem ν) (current : ν) {before rel : CString}
    (h : StartsAt before rel) (hshort : ∀ c ∈ components SLASH rel, c.length ≤ 127) :
    ∀ rest ∈ fs.walkRests current rel, TakenWhole (before ++ rel) rest := by
  induction current, rel using walkPath.induct fs generalizing before with
  | case1 current => simp [walkRests]
  | case2 current rel hrel hname => simp [walkRests, hname]
  | case3 current rel hrel hname henter =>
      rw [components_eq_cons hname] at hshort
      rw [walkRests, if_neg hrel, if_neg hname, henter]
      intro rest hrest
      rw [List.mem_singleton.mp hrest]
      exact (takenWhole_iff h hname).mpr (hshort _ List.mem_cons_self)
  | case4 current rel hrel hname next henter ih =>
      rw [components_eq_cons hname] at hshort
      have hfirst := hshort _ List.mem_cons_self
      obtain ⟨before', hpath, hstarts⟩ := exists_before_rest before hfirst
      rw [walkRests, if_neg hrel, if_neg hname, henter]
      intro rest hrest
      rcases List.mem_cons.mp hrest with rfl | hrest
      · exact (takenWhole_iff h hname).mpr hfirst
      · rw [hpath]
        refine ih hstarts ?_ rest hrest
        rw [nextComponent_of_short hfirst, drop_length_takeWhile]
        exact fun c hc => hshort c (List.mem_cons_of_mem _ hc)

/-- The file system in which every walk goes on takes a part of the first long component. -/
theorem exists_not_whole (n : ν) {before rel : CString} (h : StartsAt before rel)
    (hlong : ∃ c ∈ components SLASH rel, 127 < c.length) :
    ∃ rest ∈ shortNames.walkRests n rel, ¬ TakenWhole (before ++ rel) rest := by
  induction n, rel using walkPath.induct shortNames generalizing before with
  | case1 n => simp at hlong
  | case2 n rel hrel hname =>
      rw [← components_dropWhile, ← skipSlashes, hname] at hlong
      simp at hlong
  | case3 n rel hrel hname henter => simp [enter_shortNames_nextComponent] at henter
  | case4 n rel hrel hname next henter ih =>
      rw [walkRests, if_neg hrel, if_neg hname, henter]
      by_cases hfirst : ((skipSlashes rel).takeWhile (· ≠ SLASH)).length ≤ 127
      · obtain ⟨before', hpath, hstarts⟩ := exists_before_rest before hfirst
        have hlong' : ∃ c ∈ components SLASH
            ((skipSlashes rel).drop (nextComponent (skipSlashes rel)).length), 127 < c.length := by
          obtain ⟨c, hc, hlen⟩ := hlong
          rw [components_eq_cons hname] at hc
          rw [nextComponent_of_short hfirst, drop_length_takeWhile]
          rcases List.mem_cons.mp hc with rfl | hc
          · omega
          · exact ⟨c, hc, hlen⟩
        obtain ⟨rest, hrest, hnot⟩ := ih hstarts hlong'
        exact ⟨rest, List.mem_cons_of_mem _ hrest, hpath ▸ hnot⟩
      · exact ⟨_, List.mem_cons_self, fun hwhole => hfirst ((takenWhole_iff h hname).mp hwhole)⟩

theorem walkRests_whole_iff (current : ν) {before rel : CString} (h : StartsAt before rel) :
    (∀ fs : FileSystem ν, ∀ rest ∈ fs.walkRests current rel, TakenWhole (before ++ rel) rest) ↔
      ∀ c ∈ components SLASH rel, c.length ≤ 127 := by
  constructor
  · intro hwhole
    by_contra hlong
    push Not at hlong
    obtain ⟨rest, hrest, hnot⟩ := exists_not_whole current h hlong
    exact hnot (hwhole _ rest hrest)
  · intro hshort fs
    exact walkRests_whole fs current h hshort

/-! ## Both functions -/

/-- The part of a path behind its mount point; nothing if no mount matches. -/
def MountTable.walkedPart (t : MountTable ν) (path : CString) : CString :=
  match t.findMountRoot path with
  | none => []
  | some (_, rel) => rel

theorem resolveRests_whole_iff (t : MountTable ν) (path : CString) :
    (∀ fs : FileSystem ν, ∀ rest ∈ resolveRests fs t path, TakenWhole path rest) ↔
      ∀ c ∈ components SLASH (t.walkedPart path), c.length ≤ 127 := by
  rcases t.findMountRoot_cases path with
    ⟨hnone, -⟩ | ⟨m, -, rest, hpath, hborder, hfind, -⟩
  · simp [resolveRests, MountTable.walkedPart, hnone]
  · have hwalked : t.walkedPart path = rest := by rw [MountTable.walkedPart, hfind]
    rw [hwalked]
    by_cases hempty : path = []
    · have hrest : rest = [] := (List.append_eq_nil_iff.mp (hpath.trans hempty)).2
      simp [resolveRests, hempty, hrest]
    · have hstarts : StartsAt m.path.bytes rest := .inr (.inr hborder)
      have hwalk := walkRests_whole_iff m.root hstarts
      rw [hpath] at hwalk
      simpa [resolveRests, hfind, hempty] using hwalk

/-- **Whole components.** Whatever the file systems are, every name that `vfs_resolve` takes
    from a path, and every name that `vfs_resolve_relative` takes, is a whole component of the
    path exactly if no component of the part that is walked has more than 127 bytes. -/
theorem names_whole_iff (t : MountTable ν) (path : CString) :
    ((∀ fs : FileSystem ν, ∀ rest ∈ resolveRests fs t path, TakenWhole path rest) ↔
        ∀ c ∈ components SLASH (t.walkedPart path), c.length ≤ 127) ∧
      ∀ base : ν,
        (∀ fs : FileSystem ν, ∀ rest ∈ resolveRelativeRests fs t base path,
            TakenWhole path rest) ↔
          ∀ c ∈ components SLASH (if path.head? = some SLASH then t.walkedPart path else path),
            c.length ≤ 127 := by
  refine ⟨resolveRests_whole_iff t path, fun base => ?_⟩
  simp only [resolveRelativeRests]
  by_cases habsolute : path.head? = some SLASH
  · simp only [if_pos habsolute]
    exact resolveRests_whole_iff t path
  · simp only [if_neg habsolute]
    exact walkRests_whole_iff base (StartsAt.of_nil path)

/-- A directory with a name of 127 bytes, and a node in it with a name of one. -/
def nestedNames : FileSystem Nat where
  parent := fun _ => none
  finddir := fun n => some fun name =>
    if n = 0 ∧ name = List.replicate 127 97 then some 1
    else if n = 1 ∧ name = [97] then some 2
    else none

def longName : CString := List.replicate 128 97

theorem skipSlashes_longName : skipSlashes longName = longName := by
  simp [skipSlashes, longName, SLASH]

theorem nextComponent_longName : nextComponent longName = List.replicate 127 97 := by
  simp [nextComponent, longName, SLASH]

theorem longName_ne_nil : longName ≠ [] := by simp [longName]

theorem walkPath_longName : nestedNames.walkPath 0 longName = some 2 := by
  have hfirst : nestedNames.enter 0 (List.replicate 127 97) = some 1 := by decide
  have hsecond : nestedNames.walkPath 1 [97] = some 2 := by
    rw [walkPath, if_neg (by decide), if_neg (by decide),
      (by decide : nestedNames.enter 1 (nextComponent (skipSlashes [97])) = some 2)]
    have hdone : nestedNames.walkPath 2 [] = some 2 := by rw [walkPath, if_pos rfl]
    exact hdone
  have hrest : longName.drop (List.replicate 127 (97 : UInt8)).length = [97] := by
    simp [longName]
  rw [walkPath, skipSlashes_longName, if_neg longName_ne_nil, if_neg longName_ne_nil,
    nextComponent_longName, hfirst, hrest]
  exact hsecond

/-- A name of 128 bytes is resolved as two nested ones. -/
theorem long_name_split :
    ∃ (fs : FileSystem Nat) (t : MountTable Nat) (path : CString),
      components SLASH path = [path] ∧ path.length = 128 ∧
      vfsResolveRelative fs t 0 path = some 2 ∧
      ∃ rest ∈ resolveRelativeRests fs t 0 path, ¬ TakenWhole path rest := by
  have hhead : longName.head? ≠ some SLASH := by simp [longName, SLASH]
  refine ⟨nestedNames, MountTable.vfsInit, longName, ?_, ?_, ?_, longName, ?_, ?_⟩
  · exact components_of_not_mem (by simp [longName, SLASH]) longName_ne_nil
  · simp [longName]
  · rw [vfsResolveRelative, if_neg hhead, walkPath_longName]
  · rw [resolveRelativeRests, if_neg hhead, walkRests, skipSlashes_longName,
      if_neg longName_ne_nil, if_neg longName_ne_nil]
    exact List.mem_cons_self
  · intro hwhole
    exact not_atBorder_of_long (by simp [longName, SLASH]) hwhole.ends

end NemoOS
