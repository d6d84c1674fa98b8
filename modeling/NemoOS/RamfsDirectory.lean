import NemoOS.RamfsChildren
import NemoOS.Shell

/-!
# Names and listings of RAMFS directories

With names that fit, a directory lists what was created in it, the most recent first, and a
lookup finds the most recent node of a name (`directory_lists`). A name that has been typed
need not fit: of 249 bytes the field holds 127, and a node with a longer name is found under
another one (`nameKept_iff`). And nothing keeps a name from being given twice, in which case
the older node is listed but no longer found (`entries_found_iff`).
-/

namespace NemoOS

open Words Bytes Loops Linked Transition

namespace Ramfs

/-! ## The name of a new node -/

/-- What is asked of a new node: it has the name, it is found under it, and its data is zero. -/
structure NameKept (m : Memory) (parent n : Nat) (name : CString) : Prop where
  stored : StringAt m n name
  found : FinddirReturns m parent name (some n)
  zero : ∀ i < MAX_DATA, m (n + DATA + i) = 0

/-- The names that are stored as they are: those that fit, and those with two more bytes of
    which the last is the one that `flags` puts there. -/
theorem storedName_eq_iff {dir : Bool} {name : CString} :
    storedName dir name = name ↔
      name.length ≤ 127 ∨ name.length = 129 ∧ name[128]? = some (UInt8.ofNat (flagsOf dir)) := by
  have hflag : (if dir then FS_DIR.toUInt8 else FS_FILE.toUInt8) = UInt8.ofNat (flagsOf dir) := by
    cases dir <;> rfl
  rw [storedName, hflag]
  by_cases hshort : name.length < 128
  · rw [if_pos hshort]
    exact iff_of_true rfl (.inl (Nat.le_of_lt_succ hshort))
  · have hlen : (name.take 128).length = 128 := by
      rw [List.length_take]
      omega
    rw [if_neg hshort]
    constructor
    · intro heq
      refine .inr ⟨?_, ?_⟩
      · rw [← heq, List.length_append, hlen, List.length_singleton]
      · rw [← heq, List.getElem?_append_right (by omega), hlen]
        rfl
    · rintro (hle | ⟨hlong, hlast⟩)
      · omega
      · have hdrop : name.drop 128 = [UInt8.ofNat (flagsOf dir)] := by
          rw [List.getElem?_eq_some_iff] at hlast
          obtain ⟨hlt, hget⟩ := hlast
          rw [List.drop_eq_getElem_cons hlt, hget, List.drop_eq_nil_of_le (by omega)]
        rw [← hdrop, List.take_append_drop]

section names

variable {owned : Nat → Prop} {s s' : RamfsState} {free held : List Block} {parent n : Nat}
  {name : CString} {cb : Callbacks} {dir : Bool} (h : HeapInv owned s.heap free held)
  (hparent : NodeIn held parent) (hdir : hasFlag s.mem FS_DIR parent = true)
  (hcreate : create cb dir s parent name = some (n, s')) (hne : n ≠ 0)

include h hparent hdir hcreate hne

/-- A name is kept if it is what is stored. -/
theorem nameKept_iff_storedName (hname : name.length < NODE_SIZE) (hnul : 0 ∉ name) :
    NameKept s'.mem parent n name ↔ storedName dir name = name := by
  obtain ⟨n', t, owned', free', held', hcall, -, hold, hresult⟩ :=
    create_nodes h hparent hdir hname hnul cb dir
  obtain ⟨rfl, rfl⟩ := Prod.mk.inj (Option.some.inj (hcreate.symm.trans hcall))
  rcases hresult with ⟨hzero, -⟩ | ⟨-, -, -, -, -, hnew, hlink⟩
  · exact absurd hzero hne
  · have hspace := hparent.in_space h
    constructor
    · exact fun hkept => hnew.string.unique hkept.stored
    · intro hstored
      have hstring := hnew.string
      have hlen := length_storedName dir name
      rw [hstored] at hstring hlen
      refine ⟨hstring, ?_, fun i hi => ?_⟩
      · have hflag : hasFlag s'.mem FS_DIR parent = true := by
          rw [hasFlag, (hold parent hparent).2.1.nodeField_eq hspace.2 (by decide)]
          exact hdir
        rw [FinddirReturns, if_neg (not_refused hspace.1 hflag), hlink]
        refine halts_of_inr ?_
        rw [searchStep, if_neg hne, (strcmp_eq_zero_iff hnul).mpr hstring]
        rfl
      · rw [hnew.data i hi, List.getD_eq_default _ _ (by rw [DATA]; omega)]

/-- **When a typed name is kept.** -/
theorem nameKept_iff (hname : Typed 6 name) :
    NameKept s'.mem parent n name ↔
      name.length ≤ 127 ∨ name.length = 129 ∧ name[128]? = some (UInt8.ofNat (flagsOf dir)) := by
  obtain ⟨hlen, hnul⟩ := hname
  have hlt : name.length < NODE_SIZE := by
    rw [NODE_SIZE]
    omega
  rw [nameKept_iff_storedName h hparent hdir hcreate hne hlt hnul, storedName_eq_iff]

end names

theorem nameKept_a :
    ∃ s', createFile sampleCallbacks rootRamfs 4112 [97] = some (4572, s') ∧
      NameKept s'.mem 4112 4572 [97] := by
  obtain ⟨owned, free, held, hinv, hroot, hdir⟩ := rootRamfs_ready
  obtain ⟨s', hcreate⟩ := create_rootRamfs false [97] (by decide) (by decide)
  exact ⟨s', hcreate, (nameKept_iff hinv hroot hdir hcreate (by decide)
    ⟨by decide, by decide⟩).mpr (.inl (by decide))⟩

/-- A file whose name is 200 times `a`: it has another name, a lookup does not find it, and there
    is an `a` in its data. -/
theorem create_long_name :
    Typed 6 (List.replicate 200 97) ∧
      ∃ s', createFile sampleCallbacks rootRamfs 4112 (List.replicate 200 97) = some (4572, s') ∧
        ¬ StringAt s'.mem 4572 (List.replicate 200 97) ∧
        FinddirReturns s'.mem 4112 (List.replicate 200 97) none ∧ s'.mem (4572 + DATA) = 97 := by
  have hlen : (List.replicate 200 (97 : UInt8)).length = 200 := List.length_replicate
  have hnul : (0 : UInt8) ∉ List.replicate 200 97 := fun hmem =>
    absurd (List.eq_of_mem_replicate hmem) (by decide)
  generalize hlast : (List.replicate 200 (97 : UInt8)) = name at hlen hnul ⊢
  have hlt : name.length < NODE_SIZE := by
    rw [hlen]
    decide
  have hstored : storedName false name ≠ name := by
    rw [Ne, storedName_eq_iff]
    omega
  obtain ⟨fs, hcreate, hstep⟩ := LoggedRamfs.step_rootRamfs false name hlt hnul
  have hlists := LoggedRamfs.boots_rootRamfs.lists.step hlt hstep
  obtain ⟨owned, free, held, hinv, hroot, hdir⟩ := rootRamfs_ready
  obtain ⟨n, s', owned', free', held', hcall, -, -, hresult⟩ :=
    create_nodes hinv hroot hdir hlt hnul sampleCallbacks false
  obtain ⟨hn, rfl⟩ := Prod.mk.inj (Option.some.inj (hcreate.symm.trans hcall))
  subst hn
  rcases hresult with ⟨hzero, -⟩ | ⟨-, -, -, -, -, hnew, -⟩
  · exact absurd hzero (by decide)
  · refine ⟨⟨by omega, hnul⟩, fs, hcreate, fun hname => hstored (hnew.string.unique hname), ?_, ?_⟩
    · refine (hlists.finddir_iff List.mem_cons_self hnul).mpr ?_
      simp [LoggedRamfs.children, Created.stored, hstored]
    · rw [← Nat.add_zero (4572 + DATA), hnew.data 0 (by decide), ← hlast]
      decide

/-! ## Listings -/

open LoggedRamfs

/-- **RAMFS directories list what was created in them.** After any calls with names that fit, a
    directory has its nodes at the first indices, the most recent first, and a lookup finds the
    most recent one of a name. One more call returns, and it changes no other listing. -/
theorem directory_lists {cb : Callbacks} {root : Nat} {fs : RamfsState} {calls : List CreateCall}
    {t : LoggedRamfs} (hboot : Boots cb root fs)
    (hrun : Run (Guarded (fun _ c => c.name.length ≤ 127) (Step cb root)) ⟨fs, []⟩ calls t) :
    (t.nodes root).Nodup ∧
      (∀ d ∈ t.directories root,
        (∀ index r, ReaddirReturns t.mem d index r ↔
          r = (t.children d)[index]?.map fun c => ⟨c.name, flagsOf c.dir, 0, c.node, 0⟩) ∧
        ∀ name, 0 ∉ name → ∀ r, FinddirReturns t.mem d name r ↔
          r = ((t.children d).find? fun c => c.name = name).map Created.node) ∧
      ∀ c : CreateCall, c.parent ∈ t.directories root → c.name.length ≤ 127 → 0 ∉ c.name →
        ∃ t', Step cb root t c t' ∧
          ∀ d ∈ t.directories root, d ≠ c.parent ∨ t'.log = t.log →
            ∀ index r, ReaddirReturns t'.mem d index r ↔ ReaddirReturns t.mem d index r := by
  have hshort : ∀ c : CreateCall, c.name.length ≤ 127 → c.name.length < NODE_SIZE := fun c h =>
    Nat.lt_of_le_of_lt h (by decide)
  have hlists := hboot.run_lists (fun _ c => hshort c) hrun
  have hstored : ∀ d, ∀ c ∈ t.children d, c.stored = c.name := fun d c hc =>
    storedName_eq_iff.mpr (.inl (run_names (P := fun name => name.length ≤ 127) hrun c
      (mem_children.mp hc).1))
  refine ⟨hlists.nodup, fun d hd => ⟨fun index r => ?_, fun name hnul r => ?_⟩, ?_⟩
  · rw [hlists.readdir_iff hd, Option.map_congr fun c hc => ?_]
    rw [Created.entry, hstored d c (List.mem_of_getElem? hc)]
  · rw [hlists.finddir_iff hd hnul, List.find?_congr fun c hc => ?_]
    rw [hstored d c hc]
  · intro c hparent hlen hnul
    obtain ⟨t', hstep, hlists'⟩ :=
      hlists.step_exists cb c (directories_subset hparent) (hshort c hlen) hnul
    refine ⟨t', hstep, fun d hd hother index r => ?_⟩
    rw [hlists'.readdir_iff (hstep.directories_subset hd), hlists.readdir_iff hd,
      hstep.children_eq hother]

/-- The node behind the one of a file or a directory `a`. -/
theorem allocNode_behind_a : ∀ dir : Bool,
    ((create sampleCallbacks dir rootRamfs 4112 [97]).bind fun r =>
      (allocNode r.2).map Prod.fst) = some 5032 := by
  decide

/-- A second call in the small file system: its node is behind the one of the first. -/
theorem steps_rootRamfs (dir : Bool) (c : CreateCall)
    (hparent : c.parent ∈ directories 4112 ⟨rootRamfs, [⟨4572, 4112, dir, [97]⟩]⟩)
    (hne : c.parent ≠ 0) (hname : c.name.length < NODE_SIZE) (hnul : 0 ∉ c.name) :
    ∃ fs t, Step sampleCallbacks 4112 ⟨rootRamfs, []⟩ ⟨dir, 4112, [97]⟩
        ⟨fs, [⟨4572, 4112, dir, [97]⟩]⟩ ∧
      Step sampleCallbacks 4112 ⟨fs, [⟨4572, 4112, dir, [97]⟩]⟩ c t ∧
      t.log = [⟨5032, c.parent, c.dir, c.name⟩, ⟨4572, 4112, dir, [97]⟩] := by
  have hfits : ([97] : CString).length < NODE_SIZE := by decide
  obtain ⟨fs, hcreate, hstep⟩ := step_rootRamfs dir [97] hfits (by decide)
  have hlists := boots_rootRamfs.lists.step hfits hstep
  obtain ⟨t, hsecond, -⟩ :=
    hlists.step_exists sampleCallbacks c (directories_subset hparent) hname hnul
  refine ⟨fs, t, hstep, hsecond, ?_⟩
  obtain ⟨-, -, n, hcreate', hlog⟩ := hsecond
  have hptr := allocNode_behind_a dir
  rw [hcreate, Option.bind_some, ← create_fst hne (hlists.hasFlag_dir hparent), hcreate',
    Option.map_some, Option.some.injEq] at hptr
  dsimp only at hptr
  rw [hlog, hptr, if_neg (by decide)]

/-- `mkdir a`, and `touch b` in the new directory. -/
theorem directory_lists_a :
    ∃ t, Run (Guarded (fun _ c => c.name.length ≤ 127) (Step sampleCallbacks 4112))
        ⟨rootRamfs, []⟩ [⟨true, 4112, [97]⟩, ⟨false, 4572, [98]⟩] t ∧
      ReaddirReturns t.mem 4112 0 (some ⟨[97], 2, 0, 4572, 0⟩) ∧
      ReaddirReturns t.mem 4112 1 none ∧ FinddirReturns t.mem 4112 [98] none ∧
      ReaddirReturns t.mem 4572 0 (some ⟨[98], 1, 0, 5032, 0⟩) ∧
      FinddirReturns t.mem 4572 [98] (some 5032) := by
  obtain ⟨fs, t, hstep, hstep', hlog⟩ := steps_rootRamfs true ⟨false, 4572, [98]⟩
    (List.mem_cons_of_mem _ List.mem_cons_self) (by decide) (by decide) (by decide)
  have hrun : Run (Guarded (fun _ c => c.name.length ≤ 127) (Step sampleCallbacks 4112))
      ⟨rootRamfs, []⟩ [⟨true, 4112, [97]⟩, ⟨false, 4572, [98]⟩] t :=
    .cons ⟨by decide, hstep⟩ (.cons ⟨(by decide : ([98] : CString).length ≤ 127), hstep'⟩ .nil)
  obtain ⟨-, hlists, -⟩ := directory_lists boots_rootRamfs hrun
  simp only [directories, children, hlog] at hlists
  obtain ⟨hroot, hroot'⟩ := hlists 4112 List.mem_cons_self
  obtain ⟨hdir, hdir'⟩ := hlists 4572 (List.mem_cons_of_mem _ List.mem_cons_self)
  exact ⟨t, hrun, (hroot 0 _).mpr rfl, (hroot 1 _).mpr rfl, (hroot' [98] (by decide) _).mpr rfl,
    (hdir 0 _).mpr rfl, (hdir' [98] (by decide) _).mpr rfl⟩

/-! ## Names given twice -/

/-- Every entry that is listed is found by its name. -/
def EntriesFound (root : Nat) (t : LoggedRamfs) : Prop :=
  ∀ d ∈ t.directories root, ∀ index entry, ReaddirReturns t.mem d index (some entry) →
    FinddirReturns t.mem d entry.name (some entry.inode)

/-- The names of the children of one directory are different. -/
def LoggedRamfs.NamedApart (t : LoggedRamfs) : Prop :=
  t.log.Pairwise fun c c' => c.parent = c'.parent → c.stored ≠ c'.stored

namespace LoggedRamfs.Lists

variable {root d : Nat} {t : LoggedRamfs} (h : Lists root t)

include h

theorem entriesFound_at_iff (hd : d ∈ t.directories root) :
    (∀ index entry, ReaddirReturns t.mem d index (some entry) →
        FinddirReturns t.mem d entry.name (some entry.inode)) ↔
      (t.children d).Pairwise fun c c' => c.stored ≠ c'.stored := by
  have hnodes : ((t.children d).map Created.node).Nodup :=
    (List.nodup_cons.mp h.nodup).2.sublist (List.filter_sublist.map _)
  rw [← find?_key_iff hnodes]
  have hfinddir : ∀ c ∈ t.children d, FinddirReturns t.mem d c.stored (some c.node) ↔
      ((t.children d).find? fun c' => c'.stored = c.stored).map Created.node = some c.node := by
    intro c hc
    have hnode := h.nodeIs c (mem_children.mp hc).1
    have hnul : 0 ∉ c.stored := (stringAt_iff.mp hnode.string).2.2
    rw [h.finddir_iff hd hnul]
    exact eq_comm
  constructor
  · intro hfound c hc
    obtain ⟨index, hindex⟩ := List.mem_iff_getElem?.mp hc
    refine (hfinddir c hc).mp (hfound index c.entry ?_)
    rw [h.readdir_iff hd, hindex, Option.map_some]
  · intro hfound index entry hreaddir
    rw [h.readdir_iff hd] at hreaddir
    obtain ⟨c, hindex, rfl⟩ := Option.map_eq_some_iff.mp hreaddir.symm
    have hc := List.mem_of_getElem? hindex
    exact (hfinddir c hc).mpr (hfound c hc)

theorem entriesFound_iff : EntriesFound root t ↔ t.NamedApart := by
  have hat : EntriesFound root t ↔ ∀ d ∈ t.directories root,
      (t.children d).Pairwise fun c c' => c.stored ≠ c'.stored :=
    forall₂_congr fun d hd => h.entriesFound_at_iff hd
  rw [hat, NamedApart]
  constructor
  · intro hpairwise
    rw [List.pairwise_iff_getElem]
    intro i j hi hj hij hparent
    have hdir := hpairwise _ (h.parents _ (List.getElem_mem hi))
    rw [children, List.pairwise_filter, List.pairwise_iff_getElem] at hdir
    exact hdir i j hi hj hij (decide_eq_true rfl) (decide_eq_true hparent.symm)
  · intro hpairwise d hd
    rw [children, List.pairwise_filter]
    refine hpairwise.imp fun hne hparent hparent' => hne ?_
    rw [of_decide_eq_true hparent, of_decide_eq_true hparent']

end LoggedRamfs.Lists

/-- **When all entries are found.** After any calls with typed names, exactly if no two children
    of a directory have the same name stored. -/
theorem entries_found_iff {cb : Callbacks} {root : Nat} {fs : RamfsState} {calls : List CreateCall}
    {t : LoggedRamfs} (hboot : Boots cb root fs)
    (hrun : Run (Guarded (fun _ c => Typed 6 c.name) (Step cb root)) ⟨fs, []⟩ calls t) :
    EntriesFound root t ↔ t.NamedApart := by
  have hlists := hboot.run_lists (fun _ c hname => ?_) hrun
  · exact hlists.entriesFound_iff
  · have hlen := hname.1
    rw [NODE_SIZE]
    omega

/-- `mkdir a` and `touch b`. -/
theorem entries_found_a :
    ∃ t, Run (Guarded (fun _ c => Typed 6 c.name) (Step sampleCallbacks 4112)) ⟨rootRamfs, []⟩
      [⟨true, 4112, [97]⟩, ⟨false, 4112, [98]⟩] t ∧ EntriesFound 4112 t := by
  obtain ⟨fs, t, hstep, hstep', hlog⟩ := steps_rootRamfs true ⟨false, 4112, [98]⟩
    List.mem_cons_self (by decide) (by decide) (by decide)
  have hrun : Run (Guarded (fun _ c => Typed 6 c.name) (Step sampleCallbacks 4112))
      ⟨rootRamfs, []⟩ [⟨true, 4112, [97]⟩, ⟨false, 4112, [98]⟩] t :=
    .cons ⟨⟨by decide, by decide⟩, hstep⟩ (.cons ⟨⟨by decide, by decide⟩, hstep'⟩ .nil)
  refine ⟨t, hrun, (entries_found_iff boots_rootRamfs hrun).mpr ?_⟩
  rw [NamedApart, hlog, List.pairwise_pair]
  exact fun _ => by decide

/-- `touch a` twice: the first of the two files is listed at index 1, and a lookup of its name
    finds the other one. -/
theorem touch_twice_hides :
    Boots sampleCallbacks 4112 rootRamfs ∧
      ∃ t, Run (Guarded (fun _ c => Typed 6 c.name) (Step sampleCallbacks 4112)) ⟨rootRamfs, []⟩
          [⟨false, 4112, [97]⟩, ⟨false, 4112, [97]⟩] t ∧
        ReaddirReturns t.mem 4112 1 (some ⟨[97], 1, 0, 4572, 0⟩) ∧
        FinddirReturns t.mem 4112 [97] (some 5032) ∧ ¬ EntriesFound 4112 t := by
  have htyped : Typed 6 [97] := ⟨by decide, by decide⟩
  obtain ⟨fs, t, hstep, hstep', hlog⟩ := steps_rootRamfs false ⟨false, 4112, [97]⟩
    List.mem_cons_self (by decide) (by decide) htyped.2
  have hlists := (boots_rootRamfs.lists.step (by decide) hstep).step (by decide) hstep'
  have hlisted : ReaddirReturns t.mem 4112 1 (some ⟨[97], 1, 0, 4572, 0⟩) := by
    rw [hlists.readdir_iff List.mem_cons_self, children, hlog]
    rfl
  have hfinddir : ∀ r, FinddirReturns t.mem 4112 [97] r ↔ r = some 5032 := by
    intro r
    rw [hlists.finddir_iff List.mem_cons_self htyped.2, children, hlog]
    rfl
  refine ⟨boots_rootRamfs, t, .cons ⟨htyped, hstep⟩ (.cons ⟨htyped, hstep'⟩ .nil), hlisted,
    (hfinddir _).mpr rfl, fun hfound => ?_⟩
  have hfirst := (hfinddir _).mp (hfound 4112 List.mem_cons_self 1 _ hlisted)
  exact absurd hfirst (by decide)

end Ramfs

end NemoOS
