import NemoOS.Shell

/-!
# RAMFS calls on FAT32 nodes

`ramfs_create_file` and `ramfs_create_dir` check that the parent is a directory and cast it
to a `ramfs_node`. `touch` and `mkdir` call them with the current directory, and after a
`cd` into a mounted volume that is a `fat32_node`: where the RAMFS has `first_child`, it
has its `first_cluster`. `Apart` says when a command leaves the FAT32 nodes alone, and
`step_keepsFat32_iff` that it does in no other case.
-/

namespace NemoOS

open Loops Transition

/-- `fs`, `first_cluster` and `is_dir` of a `fat32_node`. -/
def FsNode.fat32Fields (n : FsNode) : Nat × Nat × Bool :=
  (n.word168, n.word172, n.word176 % 256 != 0)

/-- The FAT32 nodes of the first memory are in the second one, with their fields. -/
def KeepsFat32 (nodes nodes' : NodeMemory) : Prop :=
  ∀ n node, nodes n = some node → node.kind = .fat32 →
    ∃ node', nodes' n = some node' ∧ node'.kind = .fat32 ∧ node'.fat32Fields = node.fat32Fields

theorem KeepsFat32.refl (nodes : NodeMemory) : KeepsFat32 nodes nodes :=
  fun _ node hnode hkind => ⟨node, hnode, hkind, rfl⟩

theorem KeepsFat32.trans {nodes nodes' nodes'' : NodeMemory} (h : KeepsFat32 nodes nodes')
    (h' : KeepsFat32 nodes' nodes'') : KeepsFat32 nodes nodes'' := by
  intro n node hnode hkind
  obtain ⟨node', hnode', hkind', hfields'⟩ := h n node hnode hkind
  obtain ⟨node'', hnode'', hkind'', hfields''⟩ := h' n node' hnode' hkind'
  exact ⟨node'', hnode'', hkind'', hfields''.trans hfields'⟩

namespace FsState

variable {disk : Fat32Disk} {s s' t u : FsState} {n : Nat} {r : Option Nat}

/-! ## Resolution adds nodes -/

/-- All nodes are still there, and so is the current directory. -/
structure Extends (s s' : FsState) : Prop where
  nodes : ∀ n node, s.nodes n = some node → s'.nodes n = some node
  cwd : s'.cwd = s.cwd

theorem Extends.refl (s : FsState) : Extends s s := ⟨fun _ _ h => h, rfl⟩

theorem Extends.trans {s'' : FsState} (h : Extends s s') (h' : Extends s' s'') : Extends s s'' :=
  ⟨fun n node hnode => h'.nodes n node (h.nodes n node hnode), h'.cwd.trans h.cwd⟩

theorem Extends.keepsFat32 (h : Extends s s') : KeepsFat32 s.nodes s'.nodes :=
  fun n node hnode hkind => ⟨node, h.nodes n node hnode, hkind, rfl⟩

/-- Without a block for the node, nothing is found. -/
theorem finddir_without_block {dev : AtaDevice} {node : Fat32Node} {name : CString}
    {r : Option (DirChild × Fat32Node)} (h : Fat32FinddirReturns dev node false name r) :
    r = none := by
  rw [Fat32FinddirReturns] at h
  split at h
  · refine h.result (P := (· = none)) fun cluster r' hexit => ?_
    rw [finddirStep] at hexit
    split at hexit
    · split at hexit
      · exact (Sum.inr.inj hexit).symm
      · split at hexit
        · cases hexit
        · exact (Sum.inr.inj hexit).symm
    · exact (Sum.inr.inj hexit).symm
  · exact h

theorem Finddir.extends {node : FsNode} {name : CString} (h : Finddir disk s n node name s' r) :
    Extends s s' := by
  cases h with
  | none => exact .refl s
  | ramfs => exact .refl s
  | missing => exact .refl s
  | @found block child fn _ havailable hfind =>
      have hblock : s.nodes block = .none := by
        refine havailable.resolve_left ?_
        rintro rfl
        cases finddir_without_block hfind
      refine ⟨fun m node' hm => ?_, rfl⟩
      exact (Function.update_of_ne (NodeMemory.ne_of_some hblock hm) _ _).trans hm

theorem Enters.extends {component : CString} (h : Enters disk s n component s' r) :
    Extends s s' := by
  obtain ⟨node, -, hcase⟩ := h
  split at hcase
  · exact hcase.1 ▸ .refl s
  · split at hcase
    · exact hcase.1 ▸ .refl s
    · exact hcase.extends

theorem Walks.extends {rel : CString} (h : Walks disk s n rel s' r) : Extends s s' := by
  induction h with
  | done => exact .refl _
  | stop _ henters => exact henters.extends
  | step _ henters _ ih => exact henters.extends.trans ih

theorem ResolvesRelative.extends {path : CString} (h : ResolvesRelative disk s n path s' r) :
    Extends s s' := by
  rw [ResolvesRelative] at h
  split at h
  · rw [Resolves] at h
    split at h
    · exact h.1 ▸ .refl s
    · split at h
      · exact h.1 ▸ .refl s
      · exact h.extends
  · exact h.extends

/-! ## Commands -/

/-- The current directory is a directory. -/
def InDirectory (s : FsState) : Prop := ∃ node, s.nodes s.cwd = some node ∧ node.dir = true

/-- `cd` goes to directories only. -/
theorem InDirectory.changeDir (h : InDirectory s) (r : Option Nat) : InDirectory (s.changeDir r) := by
  unfold FsState.changeDir
  split
  · exact h
  · split
    · exact h
    · next node hnode =>
      split
      · next hdir => exact ⟨node, hnode, hdir⟩
      · exact h

theorem nodes_changeDir (s : FsState) (r : Option Nat) : (s.changeDir r).nodes = s.nodes := by
  unfold changeDir
  split
  · rfl
  · split
    · rfl
    · split <;> rfl

theorem InDirectory.create (h : InDirectory s) {block : Nat} (havailable : s.Available block)
    (dir : Bool) (name : CString) : InDirectory (ramfsCreate dir s block s.cwd name).2 := by
  rcases ramfsCreate_cases dir s block s.cwd name with heq | ⟨pn, hcwd, hdir, -, hne, heq⟩
  · rw [heq]
    exact h
  · rw [heq]
    exact ⟨_, NodeMemory.addChild_of_some hcwd (havailable.resolve_left hne) hcwd, hdir⟩

theorem InDirectory.step (h : InDirectory s) {c : ShellCommand} (hstep : Step disk s c t) :
    InDirectory t := by
  cases c with
  | touch name block =>
      obtain ⟨-, havailable, rfl⟩ := hstep
      exact h.create havailable false name
  | mkdir name block =>
      obtain ⟨-, havailable, rfl⟩ := hstep
      exact h.create havailable true name
  | cd path =>
      obtain ⟨-, s', r, hresolves, rfl⟩ := hstep
      obtain ⟨node, hnode, hdir⟩ := h
      have hext := hresolves.extends
      exact InDirectory.changeDir ⟨node, hext.cwd ▸ hext.nodes _ node hnode, hdir⟩ r

/-- The call makes no node, or makes one below a RAMFS directory; or the first cluster of the
    FAT32 directory happens to be the address of the new node. -/
def CreatesApart (s : FsState) (block : Nat) : Prop :=
  s.poolCount ≥ POOL_SIZE ∨ block = 0 ∨
    ∀ node, s.nodes s.cwd = some node → node.kind = .ramfs ∨ node.word172 = block

/-- What `touch` and `mkdir` have to be called with. -/
def Apart (s : FsState) : ShellCommand → Prop
  | .touch _ block => s.CreatesApart block
  | .mkdir _ block => s.CreatesApart block
  | .cd _ => True

/-- A new node below a FAT32 directory changes its first cluster, and nothing else does. -/
theorem create_keepsFat32_iff (h : InDirectory s) {block : Nat} (havailable : s.Available block)
    (dir : Bool) (name : CString) :
    KeepsFat32 s.nodes (ramfsCreate dir s block s.cwd name).2.nodes ↔ s.CreatesApart block := by
  obtain ⟨pn, hcwd, hdir⟩ := h
  by_cases hfails : s.poolCount ≥ POOL_SIZE ∨ block = 0
  · have hsame : (ramfsCreate dir s block s.cwd name).2 = s := by
      rcases ramfsCreate_cases dir s block s.cwd name with heq | ⟨-, -, -, hpool, hne, -⟩
      · exact heq
      · rcases hfails with hfull | hnull
        · exact absurd hfull (Nat.not_le.mpr hpool)
        · exact absurd hnull hne
    rw [hsame]
    exact iff_of_true (.refl _) (or_assoc.mp (Or.inl hfails))
  · obtain ⟨hpool, hne⟩ := not_or.mp hfails
    have hold := fun m node (hm : s.nodes m = some node) =>
      NodeMemory.addChild_of_some (n := ramfsNode dir s.cwd pn name) hcwd
        (havailable.resolve_left hne) hm
    have hcreate : (ramfsCreate dir s block s.cwd name).2.nodes =
        s.nodes.addChild block (ramfsNode dir s.cwd pn name) s.cwd pn := by
      simp [ramfsCreate, hcwd, hdir, hpool, hne]
    rw [hcreate]
    constructor
    · intro hkeeps
      refine Or.inr (Or.inr fun node hnode => ?_)
      cases hkind : node.kind with
      | ramfs => exact Or.inl rfl
      | fat32 =>
          obtain ⟨node', hnode', -, hfields⟩ := hkeeps s.cwd node hnode hkind
          obtain rfl := Option.some.inj ((hold s.cwd node hnode).symm.trans hnode')
          simp only [FsNode.fat32Fields, if_true, Prod.mk.injEq] at hfields
          exact Or.inr hfields.2.1.symm
    · intro hapart m node hm hkind
      refine ⟨_, hold m node hm, hkind, ?_⟩
      split
      · next heq =>
        subst heq
        have hword : node.word172 = block := by
          rcases hapart with hfull | hnull | hcase
          · exact absurd hfull hpool
          · exact absurd hnull hne
          · rcases hcase node hm with hramfs | hword
            · rw [hkind] at hramfs
              cases hramfs
            · exact hword
        rw [← hword]
      · rfl

theorem InDirectory.keeps_iff (h : InDirectory t) {c : ShellCommand} (hstep : Step disk t c u) :
    KeepsFat32 t.nodes u.nodes ↔ t.Apart c := by
  cases c with
  | touch name block =>
      obtain ⟨-, havailable, rfl⟩ := hstep
      exact create_keepsFat32_iff h havailable false name
  | mkdir name block =>
      obtain ⟨-, havailable, rfl⟩ := hstep
      exact create_keepsFat32_iff h havailable true name
  | cd path =>
      obtain ⟨-, s', r, hresolves, rfl⟩ := hstep
      rw [nodes_changeDir]
      exact iff_of_true hresolves.extends.keepsFat32 trivial

/-- A run of commands that are all `Apart` leaves the fields of every FAT32 node as they are. -/
theorem run_keepsFat32 {commands : List ShellCommand} (hstart : InDirectory s)
    (hrun : Run (Guarded Apart (Step disk)) s commands t) : KeepsFat32 s.nodes t.nodes := by
  have hinv : InDirectory t ∧ KeepsFat32 s.nodes t.nodes := by
    refine hrun.invariant (fun t => InDirectory t ∧ KeepsFat32 s.nodes t.nodes)
      ⟨hstart, .refl _⟩ ?_
    rintro a l b ⟨hcwd, hkeeps⟩ ⟨hapart, hstep⟩
    exact ⟨hcwd.step hstep, hkeeps.trans ((hcwd.keeps_iff hstep).mpr hapart)⟩
  exact hinv.2

/-- **Commands and FAT32 nodes.** After any commands from a directory, the next command leaves
    the fields of every FAT32 node as they are if and only if it is `Apart`. -/
theorem step_keepsFat32_iff {commands : List ShellCommand} {c : ShellCommand}
    (hstart : InDirectory s) (hrun : Run (Step disk) s commands t) (hstep : Step disk t c u) :
    KeepsFat32 t.nodes u.nodes ↔ t.Apart c := by
  have hcwd : InDirectory t := hrun.invariant _ hstart fun a l b ha hab => ha.step hab
  exact hcwd.keeps_iff hstep

/-- The root of the RAMFS in block 1 and that of a FAT32 volume in block 2, mounted at `/`
    and at `/mnt`. -/
def mountedFs : FsState where
  nodes := fun n =>
    if n = 1 then some ⟨.ramfs, [SLASH], true, 1, 0, 0, 1⟩
    else if n = 2 then some ⟨.fat32, [SLASH], true, 0, 64, 2, 1⟩
    else none
  poolCount := 1
  mounts := MountTable.bootMounts
  cwd := 1

def unreadableDisk : Fat32Disk := ⟨fun _ => none, fun _ => ⟨0, 512, 1, 32, 64⟩⟩

/-- `touch a` in the root directory leaves the root of the volume alone. -/
theorem step_keepsFat32_root :
    mountedFs.Apart (.touch [97] 3) ∧
      KeepsFat32 mountedFs.nodes (ramfsCreateFile mountedFs 3 1 [97]).2.nodes := by
  have hstep : Step unreadableDisk mountedFs (.touch [97] 3)
      (ramfsCreateFile mountedFs 3 1 [97]).2 :=
    ⟨⟨by decide, by decide⟩, Or.inr rfl, rfl⟩
  have hapart : mountedFs.Apart (.touch [97] 3) :=
    Or.inr (Or.inr fun node hnode => Or.inl (by rw [← Option.some.inj hnode]))
  exact ⟨hapart, (step_keepsFat32_iff ⟨_, rfl, rfl⟩ .nil hstep).mpr hapart⟩

/-- After `cd /mnt`, `touch a` writes the address of the new node to the first cluster of the
    root of the volume. -/
theorem touch_changes_fat32 :
    ¬ ∀ (disk : Fat32Disk) (s t u : FsState) (commands : List ShellCommand) (c : ShellCommand),
      InDirectory s → (∃ m ∈ s.mounts.used, ∃ node, s.nodes m.root = some node ∧
        node.kind = .fat32) →
      Run (Step disk) s commands t → Step disk t c u → KeepsFat32 t.nodes u.nodes := by
  intro h
  have hcd : Step unreadableDisk mountedFs (.cd [SLASH, 109, 110, 116])
      { mountedFs with cwd := 2 } :=
    ⟨⟨by decide, by decide⟩, mountedFs, some 2, .done rfl, rfl⟩
  have htouch : Step unreadableDisk { mountedFs with cwd := 2 } (.touch [97] 3)
      (ramfsCreateFile { mountedFs with cwd := 2 } 3 2 [97]).2 :=
    ⟨⟨by decide, by decide⟩, Or.inr rfl, rfl⟩
  obtain ⟨node, hnode, -, hfields⟩ := h unreadableDisk mountedFs _ _ _ _ ⟨_, rfl, rfl⟩
    ⟨⟨⟨[SLASH, 109, 110, 116], by decide⟩, 2⟩, by simp [mountedFs, MountTable.bootMounts_used],
      _, rfl, rfl⟩ (Run.nil.snoc hcd) htouch 2 _ rfl rfl
  rw [← Option.some.inj hnode] at hfields
  exact absurd hfields (by decide)

end FsState

end NemoOS
