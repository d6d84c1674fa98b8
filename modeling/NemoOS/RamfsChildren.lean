import Mathlib
import NemoOS.RamfsNode
import NemoOS.Lib.Runs

/-!
# The children of RAMFS directories

Sequences of `ramfs_create_file` and `ramfs_create_dir`. Beside the state there is a log of
the nodes that the calls have returned, the most recent first. Each list of children is
threaded through the nodes, and `Lists` says of the bytes what the log says: every node has
the name and the kind it was created with, and the list that begins in `first_child` of a node
is the one of the nodes that were created below it, in the order of the log. With it the
results of `ramfs_readdir` and `ramfs_finddir` are functions of the log.
-/

namespace NemoOS

open Words Bytes Loops Linked Transition

namespace Ramfs

/-! ## What a call does to the nodes -/

section nodes

variable {owned : Nat → Prop} {s : RamfsState} {free held : List Block} {n n' : Nat}

theorem NodeIn.in_space (hn : NodeIn held n) (h : HeapInv owned s.heap free held) :
    n ≠ 0 ∧ n + NODE_SIZE ≤ 2 ^ 32 := by
  obtain ⟨b, hb, hblock⟩ := hn
  exact hblock.in_space (h.tidy.sound b (List.mem_append_left _ hb))

theorem NodeIn.apart (hn : NodeIn held n) (hn' : NodeIn held n') (hne : n ≠ n')
    (h : HeapInv owned s.heap free held) : Apart n n' := by
  obtain ⟨b, hb, hblock⟩ := hn
  obtain ⟨c, hc, hblock'⟩ := hn'
  have hbc : b ≠ c := by
    rintro rfl
    exact hne (hblock.1.trans hblock'.1.symm)
  exact hblock.apart hblock'
    (h.tidy.disjoint_of_ne (List.mem_append_left _ hb) (List.mem_append_left _ hc) hbc)

end nodes

/-- The bytes of the node are as they were, but for `first_child`. -/
def Kept (m m' : Memory) (n : Nat) : Prop :=
  ∀ x, n ≤ x → x < n + NODE_SIZE → x < n + 172 ∨ n + 176 ≤ x → m' x = m x

section Kept

variable {m m' : Memory} {n : Nat} (h : Kept m m' n) (hn : n + NODE_SIZE ≤ 2 ^ 32)

include h hn

theorem Kept.nodeField_eq {f : NodeField} (hf : f ≠ .firstChild) :
    nodeField m' f n = nodeField m f n := by
  have hbounds := f.offset_bounds
  have hother := NodeField.offset_apart hf
  have hfirst : NodeField.firstChild.offset = 172 := rfl
  have hdata : DATA ≤ NODE_SIZE := by decide
  exact nodeField_congr hn fun x hle hlt => h x (by omega) (by omega) (by omega)

theorem Kept.nodeIs {dir : Bool} {name : CString} (his : NodeIs m n dir name) :
    NodeIs m' n dir name := by
  have hsize : NODE_SIZE = 436 := rfl
  exact his.congr hn fun x hle hlt => h x hle (by omega) (by omega)

end Kept

/-- **A call, node by node.** The nodes there are stay as they were, but for the first child of
    the parent of a new one. -/
theorem create_nodes {owned : Nat → Prop} {s : RamfsState} {free held : List Block} {parent : Nat}
    {name : CString} (h : HeapInv owned s.heap free held) (hparent : NodeIn held parent)
    (hdir : hasFlag s.mem FS_DIR parent = true) (hname : name.length < NODE_SIZE) (hnul : 0 ∉ name)
    (cb : Callbacks) (dir : Bool) :
    ∃ n s' owned' free' held', create cb dir s parent name = some (n, s') ∧
      HeapInv owned' s'.heap free' held' ∧
      (∀ d, NodeIn held d → NodeIn held' d ∧ Kept s.mem s'.mem d ∧
        (n = 0 ∨ d ≠ parent → nodeField s'.mem .firstChild d = nodeField s.mem .firstChild d)) ∧
      (n = 0 ∧ s'.poolCount = s.poolCount ∨
        n ≠ 0 ∧ ¬ NodeIn held n ∧ NodeIn held' n ∧ s.poolCount < POOL_SIZE ∧
          s'.poolCount = s.poolCount + 1 ∧
          NewNode s'.mem n dir n parent (nodeField s.mem .firstChild parent) name ∧
          nodeField s'.mem .firstChild parent = n) := by
  have hsize : NODE_SIZE = 436 := rfl
  have hfirst : NodeField.firstChild.offset = 172 := rfl
  obtain ⟨n, s', owned', free', held', hcall, hinv, hresult⟩ :=
    create_spec h hparent hdir hname hnul cb dir
  refine ⟨n, s', owned', free', held', hcall, hinv, ?_⟩
  rcases hresult with ⟨rfl, rfl, hcount, hkeep⟩ |
    ⟨b, rfl, hblock, hpool, hcount, hnew, hlink, hkeep⟩
  · refine ⟨fun d hd => ⟨hd, ?_⟩, .inl ⟨rfl, hcount⟩⟩
    have hspace := (hd.in_space h).2
    obtain ⟨c, hc, hcblock⟩ := hd
    have hsame : ∀ x, d ≤ x → x < d + NODE_SIZE → s'.mem x = s.mem x := fun x hle hlt =>
      hkeep c hc x (hcblock.holds hle hlt).1
    exact ⟨fun x hle hlt _ => hsame x hle hlt,
      fun _ => nodeField_congr hspace fun x hle hlt => hsame x (by omega) (by omega)⟩
  · have hn : NodeIn (b :: held) n := ⟨b, List.mem_cons_self, hblock⟩
    have hold : ∀ d, NodeIn held d → NodeIn (b :: held) d := fun d ⟨c, hc, hcblock⟩ =>
      ⟨c, List.mem_cons_of_mem b hc, hcblock⟩
    refine ⟨fun d hd => ⟨hold d hd, ?_⟩,
      .inr ⟨(hn.in_space hinv).1, fun hmem => ?_, hn, hpool, hcount, hnew, hlink⟩⟩
    · have hspace := (hd.in_space h).2
      have happart : d ≠ parent → Apart d parent := fun hne => hd.apart hparent hne h
      obtain ⟨c, hc, hcblock⟩ := hd
      have hsame : ∀ x, d ≤ x → x < d + NODE_SIZE → d ≠ parent ∨ x < d + 172 ∨ d + 176 ≤ x →
          s'.mem x = s.mem x := by
        intro x hle hlt hx
        refine hkeep c hc x (hcblock.holds hle hlt).1 ?_
        by_cases hd : d = parent
        · subst hd
          exact hx.resolve_left fun hne => hne rfl
        · have hapart := happart hd
          rw [Apart] at hapart
          omega
      refine ⟨fun x hle hlt hx => hsame x hle hlt (.inr hx), ?_⟩
      rintro (hzero | hne)
      · exact absurd hzero (hn.in_space hinv).1
      · exact nodeField_congr hspace fun x hle hlt => hsame x (by omega) (by omega) (.inl hne)
    · -- the new block would be one of the old ones
      obtain ⟨c, hc, hcblock⟩ := hmem
      have hdisjoint := (List.pairwise_cons.mp hinv.tidy.disjoint).1 c (List.mem_append_left _ hc)
      have hapart := hblock.apart hcblock hdisjoint
      rw [Apart] at hapart
      omega

/-! ## The log -/

/-- A node, as it was created. -/
structure Created where
  node : Nat
  parent : Nat
  dir : Bool
  name : CString
deriving DecidableEq

namespace Created

/-- The name that is in the node. -/
def stored (c : Created) : CString := storedName c.dir c.name

/-- What `ramfs_readdir` says of the node. -/
def entry (c : Created) : DirEntry where
  name := c.stored
  flags := flagsOf c.dir
  size := 0
  inode := c.node
  impl := 0

end Created

/-- The state, and the nodes that were created since the root, the most recent first. -/
structure LoggedRamfs where
  fs : RamfsState
  log : List Created

structure CreateCall where
  dir : Bool
  parent : Nat
  name : CString

/-- A reported name is the stored one, also where it does not fit the field. -/
theorem nameField_storedName (dir : Bool) (name : CString) :
    nameField (flagsOf dir) (storedName dir name) = storedName dir name := by
  rw [storedName]
  by_cases hshort : name.length < 128
  · rw [if_pos hshort, nameField, if_pos hshort]
  · have hlen : (name.take 128).length = 128 := by
      rw [List.length_take]
      omega
    rw [if_neg hshort, nameField, if_neg (by simp [hlen]), List.take_left' hlen]
    cases dir <;> rfl

theorem NodeIs.dirEntry_eq {m : Memory} {c : Created} (h : NodeIs m c.node c.dir c.name) :
    dirEntry m c.node (storedName c.dir c.name) = c.entry := by
  rw [dirEntry, h.flags_eq, h.size_eq, h.impl_eq, nameField_storedName, Created.entry,
    Created.stored]

namespace LoggedRamfs

def mem (t : LoggedRamfs) : Memory := t.fs.mem

def nodes (root : Nat) (t : LoggedRamfs) : List Nat := root :: t.log.map Created.node

def directories (root : Nat) (t : LoggedRamfs) : List Nat :=
  root :: (t.log.filter Created.dir).map Created.node

/-- The nodes that were created below `d`. -/
def children (t : LoggedRamfs) (d : Nat) : List Created := t.log.filter fun c => c.parent = d

/-- A call on one of the nodes, and what it returned to the log. -/
def Step (cb : Callbacks) (root : Nat) (t : LoggedRamfs) (c : CreateCall) (t' : LoggedRamfs) :
    Prop :=
  c.parent ∈ t.nodes root ∧ 0 ∉ c.name ∧
    ∃ n, create cb c.dir t.fs c.parent c.name = some (n, t'.fs) ∧
      t'.log = if n = 0 then t.log else ⟨n, c.parent, c.dir, c.name⟩ :: t.log

theorem Step.unique {cb : Callbacks} {root : Nat} {t u u' : LoggedRamfs} {c : CreateCall}
    (h : Step cb root t c u) (h' : Step cb root t c u') : u = u' := by
  obtain ⟨fs, log⟩ := u
  obtain ⟨fs', log'⟩ := u'
  obtain ⟨-, -, n, hcall, hlog⟩ := h
  obtain ⟨-, -, n', hcall', hlog'⟩ := h'
  obtain ⟨rfl, hfs⟩ := Prod.mk.inj (Option.some.inj (hcall.symm.trans hcall'))
  rw [mk.injEq]
  exact ⟨hfs, hlog.trans hlog'.symm⟩

/-- The log says what is in memory. -/
structure Lists (root : Nat) (t : LoggedRamfs) : Prop where
  heap : ∃ owned free held, HeapInv owned t.fs.heap free held ∧ ∀ n ∈ t.nodes root, NodeIn held n
  nodup : (t.nodes root).Nodup
  rootIs : NodeIs t.mem root true [SLASH]
  nodeIs : ∀ c ∈ t.log, NodeIs t.mem c.node c.dir c.name
  parents : ∀ c ∈ t.log, c.parent ∈ t.directories root
  links : ∀ d ∈ t.nodes root,
    Links (nodeField t.mem .nextSibling) 0 (nodeField t.mem .firstChild d)
      ((t.children d).map Created.node)
  count : t.log.length ≤ t.fs.poolCount ∧ t.fs.poolCount ≤ POOL_SIZE

section lists

variable {root : Nat} {t : LoggedRamfs} {c : Created} {d : Nat}

theorem node_mem_nodes (hc : c ∈ t.log) : c.node ∈ t.nodes root :=
  List.mem_cons_of_mem root (List.mem_map_of_mem hc)

theorem mem_children : c ∈ t.children d ↔ c ∈ t.log ∧ c.parent = d := by
  rw [children, List.mem_filter, decide_eq_true_eq]

theorem directories_subset (hd : d ∈ t.directories root) : d ∈ t.nodes root := by
  rw [directories, List.mem_cons, List.mem_map] at hd
  rcases hd with rfl | ⟨c, hc, rfl⟩
  · exact List.mem_cons_self
  · exact node_mem_nodes (List.mem_filter.mp hc).1

theorem directories_cons {fs : RamfsState} (hd : d ∈ t.directories root) :
    d ∈ directories root ⟨fs, c :: t.log⟩ := by
  rw [directories, List.mem_cons] at hd ⊢
  exact hd.imp_right fun hd => (((List.sublist_cons_self c t.log).filter _).map _).subset hd

theorem Step.log_cases {cb : Callbacks} {call : CreateCall} {t' : LoggedRamfs}
    (h : Step cb root t call t') :
    t'.log = t.log ∨ ∃ n, t'.log = ⟨n, call.parent, call.dir, call.name⟩ :: t.log := by
  obtain ⟨-, -, n, -, hlog⟩ := h
  rw [hlog]
  split
  · exact .inl rfl
  · exact .inr ⟨n, rfl⟩

theorem Step.directories_subset {cb : Callbacks} {call : CreateCall} {t' : LoggedRamfs}
    (h : Step cb root t call t') (hd : d ∈ t.directories root) : d ∈ t'.directories root := by
  rcases h.log_cases with hlog | ⟨n, hlog⟩
  · rwa [directories, hlog]
  · have hcons : d ∈ directories root ⟨t'.fs, ⟨n, call.parent, call.dir, call.name⟩ :: t.log⟩ :=
      directories_cons hd
    rwa [← hlog] at hcons

/-- The children of no other directory change. -/
theorem Step.children_eq {cb : Callbacks} {call : CreateCall} {t' : LoggedRamfs}
    (h : Step cb root t call t') (hd : d ≠ call.parent ∨ t'.log = t.log) :
    t'.children d = t.children d := by
  rcases h.log_cases with hlog | ⟨n, hlog⟩
  · rw [children, children, hlog]
  · rcases hd with hne | hsame
    · rw [children, hlog, List.filter_cons_of_neg (by simpa using Ne.symm hne), children]
    · rw [children, children, hsame]

namespace Lists

theorem ne_zero (h : Lists root t) (hd : d ∈ t.nodes root) : d ≠ 0 := by
  obtain ⟨owned, free, held, hinv, hin⟩ := h.heap
  exact ((hin d hd).in_space hinv).1

theorem hasFlag_dir (h : Lists root t) (hd : d ∈ t.directories root) :
    hasFlag t.mem FS_DIR d = true := by
  rw [directories, List.mem_cons, List.mem_map] at hd
  rcases hd with rfl | ⟨c, hc, rfl⟩
  · rw [hasFlag, h.rootIs.flags_eq]
    decide
  · rw [List.mem_filter] at hc
    rw [hasFlag, (h.nodeIs c hc.1).flags_eq, hc.2]
    decide

/-- The nodes that pass for directories are those that were created as such. -/
theorem mem_directories (h : Lists root t) (hd : d ∈ t.nodes root)
    (hdir : hasFlag t.mem FS_DIR d = true) : d ∈ t.directories root := by
  rw [nodes, List.mem_cons, List.mem_map] at hd
  rcases hd with rfl | ⟨c, hc, rfl⟩
  · exact List.mem_cons_self
  · refine List.mem_cons_of_mem root (List.mem_map_of_mem (List.mem_filter.mpr ⟨hc, ?_⟩))
    rw [hasFlag, (h.nodeIs c hc).flags_eq] at hdir
    cases hc : c.dir with
    | true => rfl
    | false =>
        rw [hc] at hdir
        exact absurd hdir (by decide)

/-! ## What a step does to them -/

section kept

variable {fs : RamfsState} {owned : Nat → Prop} {free held : List Block} (h : Lists root t)
  (hinv : HeapInv owned fs.heap free held)
  (hkeep : ∀ d ∈ t.nodes root, NodeIn held d ∧ Kept t.mem fs.mem d)

include h hinv hkeep

theorem rootIs_kept : NodeIs fs.mem root true [SLASH] := by
  obtain ⟨hin, hkept⟩ := hkeep root List.mem_cons_self
  exact hkept.nodeIs (hin.in_space hinv).2 h.rootIs

theorem nodeIs_kept (hc : c ∈ t.log) : NodeIs fs.mem c.node c.dir c.name := by
  obtain ⟨hin, hkept⟩ := hkeep c.node (node_mem_nodes hc)
  exact hkept.nodeIs (hin.in_space hinv).2 (h.nodeIs c hc)

theorem links_kept (hd : d ∈ t.nodes root) :
    Links (nodeField fs.mem .nextSibling) 0 (nodeField t.mem .firstChild d)
      ((t.children d).map Created.node) := by
  refine (h.links d hd).congr fun n hn => ?_
  obtain ⟨c, hc, rfl⟩ := List.mem_map.mp hn
  obtain ⟨hin, hkept⟩ := hkeep c.node (node_mem_nodes (mem_children.mp hc).1)
  exact hkept.nodeField_eq (hin.in_space hinv).2 (by decide)

/-- A call that fails. -/
theorem of_kept (hfirst : ∀ d ∈ t.nodes root,
      nodeField fs.mem .firstChild d = nodeField t.mem .firstChild d)
    (hcount : fs.poolCount = t.fs.poolCount) : Lists root ⟨fs, t.log⟩ where
  heap := ⟨owned, free, held, hinv, fun d hd => (hkeep d hd).1⟩
  nodup := h.nodup
  rootIs := h.rootIs_kept hinv hkeep
  nodeIs := fun _ hc => h.nodeIs_kept hinv hkeep hc
  parents := h.parents
  links := fun d hd => by
    have hlinks := h.links_kept hinv hkeep hd
    rwa [← hfirst d hd] at hlinks
  count := by
    rw [hcount]
    exact h.count

/-- A call that adds a node. -/
theorem cons {n parent : Nat} {dir : Bool} {name : CString} (hparent : parent ∈ t.directories root)
    (hfresh : n ∉ t.nodes root) (hne : n ≠ 0) (hin : NodeIn held n)
    (hnew : NewNode fs.mem n dir n parent (nodeField t.mem .firstChild parent) name)
    (hlink : nodeField fs.mem .firstChild parent = n)
    (hfirst : ∀ d ∈ t.nodes root, d ≠ parent →
      nodeField fs.mem .firstChild d = nodeField t.mem .firstChild d)
    (hpool : t.fs.poolCount < POOL_SIZE) (hcount : fs.poolCount = t.fs.poolCount + 1) :
    Lists root ⟨fs, ⟨n, parent, dir, name⟩ :: t.log⟩ := by
  have hmem : ∀ d, d ∈ nodes root ⟨fs, ⟨n, parent, dir, name⟩ :: t.log⟩ ↔
      d = n ∨ d ∈ t.nodes root := by
    intro d
    rw [nodes, nodes, List.map_cons, List.mem_cons, List.mem_cons, List.mem_cons]
    exact or_left_comm
  refine ⟨⟨owned, free, held, hinv, fun d hd => ?_⟩, ?_, h.rootIs_kept hinv hkeep, fun c hc => ?_,
    fun c hc => ?_, fun d hd => ?_, ?_⟩
  · rcases (hmem d).mp hd with rfl | hd
    · exact hin
    · exact (hkeep d hd).1
  · rw [nodes, List.map_cons, (List.Perm.swap ..).nodup_iff, List.nodup_cons]
    exact ⟨hfresh, h.nodup⟩
  · rcases List.mem_cons.mp hc with rfl | hc
    · exact hnew.toNodeIs
    · exact h.nodeIs_kept hinv hkeep hc
  · rcases List.mem_cons.mp hc with rfl | hc
    · exact directories_cons hparent
    · exact directories_cons (h.parents c hc)
  · -- the new list of the parent, the lists there were, and the empty one of the new node
    have hold : d ∈ t.nodes root → Links (nodeField fs.mem .nextSibling) 0
        (nodeField t.mem .firstChild d) ((t.children d).map Created.node) :=
      h.links_kept hinv hkeep
    by_cases hd' : d = parent
    · subst hd'
      rw [children, List.filter_cons_of_pos (by simp), List.map_cons]
      change Links _ 0 (nodeField fs.mem .firstChild d) _
      rw [hlink]
      refine .cons hne ?_
      change Links _ 0 (nodeField fs.mem .nextSibling n) _
      rw [hnew.nextSibling_eq]
      exact hold (directories_subset hparent)
    · rw [children, List.filter_cons_of_neg (by simpa using Ne.symm hd')]
      change Links _ 0 (nodeField fs.mem .firstChild d) _
      rcases (hmem d).mp hd with rfl | hd
      · have hnone : t.log.filter (fun c => decide (c.parent = d)) = [] := by
          rw [List.filter_eq_nil_iff]
          intro c hc hparent
          exact hfresh (of_decide_eq_true hparent ▸ directories_subset (h.parents c hc))
        rw [hnew.firstChild_eq, hnone]
        exact .nil
      · rw [hfirst d hd hd']
        exact hold hd
  · have hle := h.count.1
    rw [hcount]
    exact ⟨Nat.succ_le_succ hle, hpool⟩

end kept

/-- **A call keeps the lists**, and it returns. -/
theorem step_exists (h : Lists root t) (cb : Callbacks) (call : CreateCall)
    (hparent : call.parent ∈ t.nodes root) (hname : call.name.length < NODE_SIZE)
    (hnul : 0 ∉ call.name) : ∃ t', Step cb root t call t' ∧ Lists root t' := by
  obtain ⟨owned, free, held, hinv, hin⟩ := h.heap
  by_cases hdir : hasFlag t.fs.mem FS_DIR call.parent = true
  · obtain ⟨n, fs, owned', free', held', hcall, hinv', hold, hresult⟩ :=
      create_nodes hinv (hin _ hparent) hdir hname hnul cb call.dir
    have hkeep : ∀ d ∈ t.nodes root, NodeIn held' d ∧ Kept t.mem fs.mem d := fun d hd =>
      ⟨(hold d (hin d hd)).1, (hold d (hin d hd)).2.1⟩
    have hfirst : ∀ d ∈ t.nodes root, n = 0 ∨ d ≠ call.parent →
        nodeField fs.mem .firstChild d = nodeField t.mem .firstChild d := fun d hd =>
      (hold d (hin d hd)).2.2
    rcases hresult with ⟨hzero, hcount⟩ | ⟨hne, hfresh, hn, hpool, hcount, hnew, hlink⟩
    · exact ⟨⟨fs, t.log⟩, ⟨hparent, hnul, n, hcall, (if_pos hzero).symm⟩,
        h.of_kept hinv' hkeep (fun d hd => hfirst d hd (.inl hzero)) hcount⟩
    · exact ⟨⟨fs, ⟨n, call.parent, call.dir, call.name⟩ :: t.log⟩,
        ⟨hparent, hnul, n, hcall, (if_neg hne).symm⟩,
        h.cons hinv' hkeep (h.mem_directories hparent hdir) (fun hmem => hfresh (hin n hmem)) hne
          hn hnew hlink (fun d hd hd' => hfirst d hd (.inr hd')) hpool hcount⟩
  · refine ⟨t, ⟨hparent, hnul, 0, ?_, (if_pos rfl).symm⟩, h⟩
    rw [create, if_pos (.inr (Bool.eq_false_iff.mpr hdir))]

theorem step (h : Lists root t) {cb : Callbacks} {call : CreateCall} {t' : LoggedRamfs}
    (hname : call.name.length < NODE_SIZE) (hstep : Step cb root t call t') : Lists root t' := by
  obtain ⟨u, hu, hlists⟩ := h.step_exists cb call hstep.1 hname hstep.2.1
  rwa [hstep.unique hu]

end Lists

/-! ## Runs -/

/-- The RAMFS that `ramfs_create_root` has made in some heap. -/
def Boots (cb : Callbacks) (root : Nat) (fs : RamfsState) : Prop :=
  root ≠ 0 ∧ ∃ owned s free held, HeapInv owned s.heap free held ∧ createRoot cb s = some (root, fs)

theorem Boots.lists {cb : Callbacks} {fs : RamfsState} (h : Boots cb root fs) :
    Lists root ⟨fs, []⟩ := by
  obtain ⟨hne, owned, s, free, held, hinv, hcreate⟩ := h
  obtain ⟨n, fs', owned', free', held', hcall, hinv', hresult⟩ := createRoot_spec hinv cb
  obtain ⟨rfl, rfl⟩ := Prod.mk.inj (Option.some.inj (hcreate.symm.trans hcall))
  rcases hresult with ⟨hzero, -⟩ | ⟨b, rfl, hblock, hpool, hcount, hnew⟩
  · exact absurd hzero hne
  · refine ⟨⟨owned', free', b :: held, hinv', fun n hn => ?_⟩, List.nodup_singleton root,
      hnew.toNodeIs, fun c hc => absurd hc List.not_mem_nil, fun c hc => absurd hc List.not_mem_nil,
      fun d hd => ?_, Nat.zero_le _, ?_⟩
    · obtain rfl := List.mem_singleton.mp hn
      exact ⟨b, List.mem_cons_self, hblock⟩
    · obtain rfl := List.mem_singleton.mp hd
      change Links _ 0 (nodeField fs.mem .firstChild d) []
      rw [hnew.firstChild_eq]
      exact .nil
    · change fs.poolCount ≤ POOL_SIZE
      rw [hcount]
      exact hpool

/-- **The lists after any run.** -/
theorem Boots.run_lists {cb : Callbacks} {fs : RamfsState} (h : Boots cb root fs)
    {ok : LoggedRamfs → CreateCall → Prop} (hok : ∀ t c, ok t c → c.name.length < NODE_SIZE)
    {calls : List CreateCall} (hrun : Run (Guarded ok (Step cb root)) ⟨fs, []⟩ calls t) :
    Lists root t :=
  hrun.invariant (Lists root) h.lists fun _ _ _ hlists hstep =>
    hlists.step (hok _ _ hstep.1) hstep.2

/-- The names in the log are those of the calls. -/
theorem run_names {cb : Callbacks} {fs : RamfsState} {P : CString → Prop} {calls : List CreateCall}
    (hrun : Run (Guarded (fun _ c => P c.name) (Step cb root)) ⟨fs, []⟩ calls t) :
    ∀ c ∈ t.log, P c.name := by
  refine hrun.invariant (fun t => ∀ c ∈ t.log, P c.name)
    (fun c hc => absurd hc List.not_mem_nil) ?_
  rintro t call t' hnames ⟨hname, -, -, n, -, hlog⟩
  rw [hlog]
  split
  · exact hnames
  · exact List.forall_mem_cons.mpr ⟨hname, hnames⟩

/-! ## Listing and looking up -/

namespace Lists

theorem length_children (t : LoggedRamfs) (d : Nat) : (t.children d).length ≤ t.log.length :=
  List.length_filter_le ..

theorem readdir_iff (h : Lists root t) (hd : d ∈ t.directories root) {index : Nat}
    {r : Option DirEntry} :
    ReaddirReturns t.mem d index r ↔ r = (t.children d)[index]?.map Created.entry := by
  have hnodes := directories_subset hd
  have hlen := length_children t d
  have hcount := h.count
  rw [POOL_SIZE] at hcount
  have hhalts := (h.links d hnodes).index_halts (Nat.zero_le index)
    (by rw [List.length_map]; omega)
  rw [Nat.sub_zero, List.getElem?_map] at hhalts
  rw [ReaddirReturns, if_neg (not_refused (h.ne_zero hnodes) (h.hasFlag_dir hd))]
  cases hc : (t.children d)[index]? with
  | none =>
      rw [hc, Option.map_none] at hhalts
      rw [Option.map_none]
      constructor
      · rintro ⟨found, hfound, hr⟩
        obtain rfl := hfound.unique hhalts
        exact hr
      · exact fun hr => ⟨none, hhalts, hr⟩
  | some c =>
      rw [hc, Option.map_some] at hhalts
      have hnode := h.nodeIs c (mem_children.mp (List.mem_of_getElem? hc)).1
      rw [Option.map_some, ← hnode.dirEntry_eq]
      constructor
      · rintro ⟨found, hfound, hr⟩
        obtain rfl := hfound.unique hhalts
        obtain ⟨name, hname, rfl⟩ := hr
        rw [hname.unique hnode.string]
      · exact fun hr => ⟨some c.node, hhalts, _, hnode.string, hr⟩

theorem finddir_iff (h : Lists root t) (hd : d ∈ t.directories root) {name : CString}
    (hnul : 0 ∉ name) {r : Option Nat} :
    FinddirReturns t.mem d name r ↔
      r = ((t.children d).find? fun c => c.stored = name).map Created.node := by
  have hnodes := directories_subset hd
  have hhalts := (h.links d hnodes).search_halts fun cur => strcmp t.mem cur name == 0
  have htest : ∀ c ∈ t.children d,
      ((fun cur => strcmp t.mem cur name == 0) ∘ Created.node) c = decide (c.stored = name) := by
    intro c hc
    exact (h.nodeIs c (mem_children.mp hc).1).string.strcmp_beq hnul
  rw [List.find?_map, List.find?_congr htest] at hhalts
  rw [FinddirReturns, if_neg (not_refused (h.ne_zero hnodes) (h.hasFlag_dir hd))]
  constructor
  · exact fun hr => hr.unique hhalts
  · rintro rfl
    exact hhalts

end Lists

end lists

/-! ## The small RAMFS -/

theorem boots_rootRamfs : Boots sampleCallbacks 4112 rootRamfs :=
  ⟨by decide, _, freshRamfs, _, _, freshRamfs_heapInv, rootRamfs_spec.1⟩

theorem step_rootRamfs (dir : Bool) (name : CString) (hname : name.length < NODE_SIZE)
    (hnul : 0 ∉ name) :
    ∃ fs, create sampleCallbacks dir rootRamfs 4112 name = some (4572, fs) ∧
      Step sampleCallbacks 4112 ⟨rootRamfs, []⟩ ⟨dir, 4112, name⟩
        ⟨fs, [⟨4572, 4112, dir, name⟩]⟩ := by
  obtain ⟨fs, hcreate⟩ := create_rootRamfs dir name hname hnul
  exact ⟨fs, hcreate, List.mem_cons_self, hnul, 4572, hcreate, (if_neg (by decide)).symm⟩

end LoggedRamfs

end Ramfs

end NemoOS
