import NemoOS.Shell

/-!
# `cd` and `pwd`

RAMFS does not look at the names it is given: two children of a directory may have the
same name, and a name may contain a `/`, be `.` or be longer than a component of a path. A
directory that `cd` has entered was found under its name, though, so that its name is a
component and it is the first of its parent's children with this name. `Chain` says so
for all nodes between the root and a node. `touch` and `mkdir` add to the children of the
current directory only, which is below all the parents in question, so the chain of
the current directory outlasts every command (`Inv.step`), and resolving what `pwd`
prints walks along it (`pwd_resolves_cwd`).
-/

namespace NemoOS

open Loops Paths Transition

/-! ## Trees of nodes -/

/-- The nodes linked by `next_sibling`, from `head` on. -/
inductive Siblings (nodes : NodeMemory) : Nat → List Nat → Prop where
  | nil : Siblings nodes 0 []
  | cons {n : Nat} {node : FsNode} {rest : List Nat} : n ≠ 0 → nodes n = some node →
      Siblings nodes node.nextSibling rest → Siblings nodes n (n :: rest)

/-- The node memory of a RAMFS alone: the root is its own parent, and the children of a
    directory are linked to a list. -/
structure RamfsTree (nodes : NodeMemory) (root : Nat) : Prop where
  null : nodes 0 = none
  kind : ∀ n node, nodes n = some node → node.kind = .ramfs
  root_mem : ∃ node, nodes root = some node
  parent_mem : ∀ n node, nodes n = some node → ∃ parent, nodes node.parent = some parent
  parent_self : ∀ n node, nodes n = some node → (node.parent = n ↔ n = root)
  children : ∀ n node, nodes n = some node → node.dir = true → ∃ ids,
    Siblings nodes node.firstChild ids ∧
      ∀ c ∈ ids, ∃ child, nodes c = some child ∧ child.parent = n ∧ c ≠ root

/-- The node has the name. -/
def hasName (nodes : NodeMemory) (name : CString) (n : Nat) : Bool :=
  (nodes n).any fun node => node.name = name

/-- `ramfs_finddir` returns the first child with the name. -/
theorem Siblings.halts {nodes : NodeMemory} {head : Nat} {ids : List Nat}
    (h : Siblings nodes head ids) (name : CString) :
    Halts (siblingStep nodes name) head (ids.find? (hasName nodes name)) := by
  induction h with
  | nil => exact halts_of_inr (by simp [siblingStep])
  | @cons n node rest hne hnode _ ih =>
      rw [List.find?_cons]
      by_cases hname : node.name = name
      · have hhas : hasName nodes name n = true := by simp [hasName, hnode, hname]
        rw [hhas]
        exact halts_of_inr (by simp [siblingStep, hne, hnode, hname])
      · have hhas : hasName nodes name n = false := by simp [hasName, hnode, hname]
        rw [hhas]
        exact halts_of_inl (by simp [siblingStep, hne, hnode, hname]) ih

/-- A node that `ramfs_finddir` returns is a child with the name. -/
theorem RamfsTree.finddir_child {nodes : NodeMemory} {root n c : Nat} {node : FsNode}
    {name : CString} (h : RamfsTree nodes root) (hnode : nodes n = some node)
    (hfind : RamfsFinddirReturns nodes node name (some c)) :
    node.dir = true ∧ ∃ child, nodes c = some child ∧ child.parent = n ∧ c ≠ root ∧
      child.name = name := by
  rw [RamfsFinddirReturns] at hfind
  split at hfind
  · next hdir =>
    obtain ⟨ids, hsiblings, hchildren⟩ := h.children n node hnode hdir
    have hfirst := (hsiblings.halts name).unique hfind
    obtain ⟨child, hchild, hparent, hne⟩ := hchildren c (List.mem_of_find?_eq_some hfirst)
    have hname := List.find?_some hfirst
    rw [hasName, hchild] at hname
    exact ⟨hdir, child, hchild, hparent, hne, by simpa using hname⟩
  · cases hfind

/-! ## Chains -/

/-- A name that can be a component of a path and is not `.` or `..`. -/
structure ComponentName (name : CString) : Prop where
  ne_nil : name ≠ []
  length_le : name.length ≤ 127
  slash_notMem : SLASH ∉ name
  ne_dot : name ≠ [DOT]
  ne_dotdot : name ≠ [DOT, DOT]

/-- The names of the nodes from below the root down to `n`. Each node is what its parent's
    `finddir` returns for its name. -/
inductive Chain (nodes : NodeMemory) (root : Nat) : List CString → Nat → Prop where
  | root : Chain nodes root [] root
  | child {names : List CString} {d c : Nat} {parent node : FsNode} {name : CString} :
      Chain nodes root names d → nodes d = some parent → nodes c = some node →
      node.parent = d → c ≠ root → node.name = name → ComponentName name →
      RamfsFinddirReturns nodes parent name (some c) →
      Chain nodes root (names ++ [name]) c

/-- A node has one chain. -/
theorem Chain.unique {nodes : NodeMemory} {root n : Nat} {names names' : List CString}
    (h : Chain nodes root names n) (h' : Chain nodes root names' n) : names = names' := by
  induction h generalizing names' with
  | root =>
      cases h' with
      | root => rfl
      | child _ _ _ _ hne => exact absurd rfl hne
  | child _ _ hnode hparent hne hname _ _ ih =>
      cases h' with
      | root => exact absurd rfl hne
      | child hchain _ hnode' hparent' _ hname' =>
          obtain rfl := Option.some.inj (hnode.symm.trans hnode')
          subst hparent hparent' hname hname'
          rw [ih hchain]

/-! ## Creating nodes -/

section

variable {nodes : NodeMemory} {root block parent : Nat} {n pn : FsNode}

/-- A list of siblings stays as it is. -/
theorem Siblings.addChild (hparent : nodes parent = some pn) (hblock : nodes block = none)
    {head : Nat} {ids : List Nat} (h : Siblings nodes head ids) :
    Siblings (nodes.addChild block n parent pn) head ids := by
  induction h with
  | nil => exact .nil
  | cons hne hnode _ ih =>
      exact .cons hne (NodeMemory.addChild_of_some hparent hblock hnode) ih

/-- A node keeps its name. -/
theorem hasName_addChild (hparent : nodes parent = some pn) (hblock : nodes block = none)
    (name : CString) {m : Nat} {node : FsNode} (hnode : nodes m = some node) :
    hasName (nodes.addChild block n parent pn) name m = hasName nodes name m := by
  rw [hasName, hasName, hnode, NodeMemory.addChild_of_some hparent hblock hnode]
  rfl

/-- In a directory other than the parent, `ramfs_finddir` returns what it did. -/
theorem RamfsTree.finddir_addChild (h : RamfsTree nodes root) (hparent : nodes parent = some pn)
    (hblock : nodes block = none) {d c : Nat} {node : FsNode} {name : CString}
    (hnode : nodes d = some node) (hfind : RamfsFinddirReturns nodes node name (some c)) :
    RamfsFinddirReturns (nodes.addChild block n parent pn) node name (some c) := by
  have hdir : node.dir = true := (h.finddir_child hnode hfind).1
  obtain ⟨ids, hsiblings, hchildren⟩ := h.children d node hnode hdir
  rw [RamfsFinddirReturns, if_pos hdir] at hfind ⊢
  have hfirst := (hsiblings.halts name).unique hfind
  have hsame : ids.find? (hasName (nodes.addChild block n parent pn) name) =
      ids.find? (hasName nodes name) := by
    rw [← List.head?_filter, ← List.head?_filter]
    refine congrArg List.head? (List.filter_congr fun m hm => ?_)
    obtain ⟨child, hchild, -⟩ := hchildren m hm
    exact hasName_addChild hparent hblock name hchild
  rw [← hfirst, ← hsame]
  exact (hsiblings.addChild hparent hblock).halts name

/-- A child stays a child. -/
theorem RamfsTree.child_addChild (hparent : nodes parent = some pn) (hblock : nodes block = none)
    {m c : Nat} (hc : ∃ child, nodes c = some child ∧ child.parent = m ∧ c ≠ root) :
    ∃ child, nodes.addChild block n parent pn c = some child ∧ child.parent = m ∧ c ≠ root := by
  obtain ⟨child, hchild, hcp, hcr⟩ := hc
  exact ⟨_, NodeMemory.addChild_of_some hparent hblock hchild, hcp, hcr⟩

/-- The children of an old node: those it had, and the new node in front if it is the parent. -/
theorem RamfsTree.children_addChild (h : RamfsTree nodes root) (hparent : nodes parent = some pn)
    (hblock : nodes block = none) (hne : block ≠ 0) (dir : Bool) (name : CString) {m : Nat}
    {node : FsNode} (hm : nodes m = some node) (hdir : node.dir = true) :
    ∃ ids, Siblings (nodes.addChild block (ramfsNode dir parent pn name) parent pn)
        (if m = parent then block else node.firstChild) ids ∧
      ∀ c ∈ ids, ∃ child, nodes.addChild block (ramfsNode dir parent pn name) parent pn c =
        some child ∧ child.parent = m ∧ c ≠ root := by
  obtain ⟨ids, hsiblings, hchildren⟩ := h.children m node hm hdir
  have hkept := fun c hc => child_addChild (n := ramfsNode dir parent pn name) hparent hblock
    (hchildren c hc)
  by_cases hmp : m = parent
  · subst hmp
    obtain rfl := Option.some.inj (hparent.symm.trans hm)
    have hnew := (NodeMemory.addChild_eq_some_iff (n := ramfsNode dir m pn name) hparent
      hblock).mpr (Or.inl ⟨rfl, rfl⟩)
    obtain ⟨rootNode, hroot⟩ := h.root_mem
    refine ⟨block :: ids, ?_, ?_⟩
    · rw [if_pos rfl]
      exact .cons hne hnew (hsiblings.addChild hparent hblock)
    · intro c hc
      rcases List.mem_cons.mp hc with rfl | hc
      · exact ⟨_, hnew, rfl, (NodeMemory.ne_of_some hblock hroot).symm⟩
      · exact hkept c hc
  · refine ⟨ids, ?_, hkept⟩
    rw [if_neg hmp]
    exact hsiblings.addChild hparent hblock

/-- The tree with a new node. -/
theorem RamfsTree.addChild (h : RamfsTree nodes root) (hparent : nodes parent = some pn)
    (hblock : nodes block = none) (hne : block ≠ 0) (dir : Bool) (name : CString) :
    RamfsTree (nodes.addChild block (ramfsNode dir parent pn name) parent pn) root := by
  have hiff := fun m x => NodeMemory.addChild_eq_some_iff (m := m) (x := x)
    (n := ramfsNode dir parent pn name) hparent hblock
  have hold := fun m node (hm : nodes m = some node) =>
    NodeMemory.addChild_of_some (n := ramfsNode dir parent pn name) hparent hblock hm
  obtain ⟨rootNode, hroot⟩ := h.root_mem
  refine ⟨?_, ?_, ⟨_, hold root rootNode hroot⟩, ?_, ?_, ?_⟩
  · rw [Option.eq_none_iff_forall_ne_some]
    intro x hx
    rcases (hiff 0 x).mp hx with ⟨h0, -⟩ | ⟨node, hnode, -⟩
    · exact hne h0.symm
    · rw [h.null] at hnode
      cases hnode
  · intro m x hx
    rcases (hiff m x).mp hx with ⟨-, rfl⟩ | ⟨node, hnode, rfl⟩
    · rfl
    · exact h.kind m node hnode
  · intro m x hx
    rcases (hiff m x).mp hx with ⟨-, rfl⟩ | ⟨node, hnode, rfl⟩
    · exact ⟨_, hold parent pn hparent⟩
    · obtain ⟨p, hp⟩ := h.parent_mem m node hnode
      exact ⟨_, hold _ p hp⟩
  · intro m x hx
    rcases (hiff m x).mp hx with ⟨rfl, rfl⟩ | ⟨node, hnode, rfl⟩
    · exact iff_of_false (NodeMemory.ne_of_some hblock hparent)
        (NodeMemory.ne_of_some hblock hroot).symm
    · exact h.parent_self m node hnode
  · intro m x hx hdir
    rcases (hiff m x).mp hx with ⟨rfl, rfl⟩ | ⟨node, hnode, rfl⟩
    · exact ⟨[], .nil, by simp⟩
    · exact h.children_addChild hparent hblock hne dir name hnode hdir

/-- The chain of a node that is not below the parent stays as it is. -/
theorem Chain.addChild (h : RamfsTree nodes root) (hparent : nodes parent = some pn)
    (hblock : nodes block = none) {names : List CString} {m : Nat}
    (hchain : Chain nodes root names m)
    (habove : ∀ names', Chain nodes root names' parent → names.length ≤ names'.length) :
    Chain (nodes.addChild block n parent pn) root names m := by
  induction hchain with
  | root => exact .root
  | @child names d c dn node name hchain hd hc hcp hcr hname hcomponent hfind ih =>
      rw [List.length_append, List.length_singleton] at habove
      have hdp : d ≠ parent := by
        rintro rfl
        exact absurd (habove names hchain) (by omega)
      have hd' := NodeMemory.addChild_of_some (n := n) hparent hblock hd
      have hc' := NodeMemory.addChild_of_some (n := n) hparent hblock hc
      rw [if_neg hdp] at hd'
      refine .child (ih fun names' h' => ?_) hd' hc' hcp hcr hname hcomponent
        (h.finddir_addChild hparent hblock hd hfind)
      exact Nat.le_of_succ_le (habove names' h')

end

/-! ## Walking -/

open FileSystem (skipSlashes nextComponent)

theorem componentName_nextComponent {rel : CString} (hrel : skipSlashes rel ≠ [])
    (hdot : nextComponent (skipSlashes rel) ≠ [DOT])
    (hdotdot : nextComponent (skipSlashes rel) ≠ [DOT, DOT]) :
    ComponentName (nextComponent (skipSlashes rel)) where
  ne_nil := List.length_pos_iff.mp (FileSystem.nextComponent_length_pos hrel)
  length_le := List.length_take_le 127 _
  slash_notMem := by
    intro hmem
    simpa using List.mem_takeWhile_imp (List.mem_of_mem_take hmem)
  ne_dot := hdot
  ne_dotdot := hdotdot

/-- A name in front of a border is the next component. -/
theorem ComponentName.skipSlashes_append {name : CString} (h : ComponentName name)
    (rest : CString) : skipSlashes (name ++ rest) = name ++ rest := by
  obtain ⟨c, name, rfl⟩ := List.exists_cons_of_ne_nil h.ne_nil
  have hc : c ≠ SLASH := by
    rintro rfl
    exact h.slash_notMem List.mem_cons_self
  simp [skipSlashes, hc]

theorem ComponentName.nextComponent_append {name rest : CString} (h : ComponentName name)
    (hborder : AtBorder SLASH rest) : nextComponent (name ++ rest) = name := by
  have hall : ∀ c ∈ name, decide (c ≠ SLASH) = true := by
    intro c hc
    rw [decide_eq_true_eq]
    rintro rfl
    exact h.slash_notMem hc
  have hrest : rest.takeWhile (· ≠ SLASH) = [] := by
    rcases hborder with rfl | hhead
    · rfl
    · obtain ⟨rest, rfl⟩ := List.head?_eq_some_iff.mp hhead
      exact List.takeWhile_cons_of_neg (by simp)
  rw [nextComponent, List.takeWhile_append_of_pos hall, hrest, List.append_nil,
    List.take_of_length_le h.length_le]

namespace FsState

variable {disk : Fat32Disk} {s s' : FsState} {n : Nat} {r : Option Nat}

/-- A walk begins by skipping slashes. -/
theorem Walks.of_skipSlashes {rel rel' : CString} (h : Walks disk s n rel s' r)
    (hskip : skipSlashes rel = skipSlashes rel') : Walks disk s n rel' s' r := by
  cases h with
  | done hrel => exact .done (hskip ▸ hrel)
  | stop hrel henters => exact .stop (hskip ▸ hrel) (hskip ▸ henters)
  | step hrel henters hrest => exact .step (hskip ▸ hrel) (hskip ▸ henters) (hskip ▸ hrest)

theorem walks_slash_iff {rel : CString} :
    Walks disk s n (SLASH :: rel) s' r ↔ Walks disk s n rel s' r := by
  have hskip : skipSlashes (SLASH :: rel) = skipSlashes rel := List.dropWhile_cons_of_pos (by simp)
  exact ⟨fun h => h.of_skipSlashes hskip, fun h => h.of_skipSlashes hskip.symm⟩

theorem walks_nil_iff : Walks disk s n [] s' r ↔ s' = s ∧ r = some n := by
  constructor
  · intro h
    cases h with
    | done => exact ⟨rfl, rfl⟩
    | stop hrel => exact absurd rfl hrel
    | step hrel => exact absurd rfl hrel
  · rintro ⟨rfl, rfl⟩
    exact .done rfl

/-- A walk along a name that leads to a node goes on from there. -/
theorem walks_name_iff {name rest : CString} (hname : ComponentName name)
    (hborder : AtBorder SLASH rest) {c : Nat}
    (henters : ∀ s' r, Enters disk s n name s' r ↔ s' = s ∧ r = some c) :
    Walks disk s n (name ++ rest) s' r ↔ Walks disk s c rest s' r := by
  have hskip := hname.skipSlashes_append rest
  have hnext := hname.nextComponent_append hborder
  have hne : name ++ rest ≠ [] := List.append_ne_nil_of_left_ne_nil hname.ne_nil rest
  constructor
  · intro h
    cases h with
    | done hrel =>
        rw [hskip] at hrel
        exact absurd hrel hne
    | stop hrel hstop =>
        rw [hskip, hnext, henters] at hstop
        cases hstop.2
    | step hrel hstep hrest =>
        rw [hskip, hnext, henters] at hstep
        obtain ⟨rfl, hc⟩ := hstep
        obtain rfl := Option.some.inj hc
        rw [hskip, hnext, List.drop_left] at hrest
        exact hrest
  · intro h
    have hstep : Enters disk s n (nextComponent (skipSlashes (name ++ rest))) s (some c) := by
      rw [hskip, hnext, henters]
      exact ⟨rfl, rfl⟩
    refine .step (by rwa [hskip]) hstep ?_
    rw [hskip, hnext, List.drop_left]
    exact h

end FsState

/-! ## The current directory -/

section

open FsState

variable {disk : Fat32Disk} {s s' t : FsState} {root n : Nat} {names : List CString} {r : Option Nat}

theorem RamfsTree.finddir_ne_fat32 (h : RamfsTree s.nodes root) {node : FsNode}
    (hnode : s.nodes n = some node) : node.finddir ≠ some .fat32 := by
  simp [FsNode.finddir, h.kind n node hnode]

theorem RamfsTree.parent_ne_zero (h : RamfsTree s.nodes root) {node : FsNode}
    (hnode : s.nodes n = some node) : node.parent ≠ 0 := by
  intro hzero
  obtain ⟨parent, hparent⟩ := h.parent_mem n node hnode
  rw [hzero, h.null] at hparent
  cases hparent

/-- The parent of a node with a chain has one. -/
theorem Chain.parent (hchain : Chain s.nodes root names n) (h : RamfsTree s.nodes root)
    {node : FsNode} (hnode : s.nodes n = some node) :
    ∃ names', Chain s.nodes root names' node.parent := by
  cases hchain with
  | root =>
      rw [(h.parent_self root node hnode).mpr rfl]
      exact ⟨[], .root⟩
  | child hd _ hnode' hparent =>
      obtain rfl := Option.some.inj (hnode.symm.trans hnode')
      exact ⟨_, hparent ▸ hd⟩

/-- A component changes nothing, and leads to a node with a chain. -/
theorem Chain.enters (hchain : Chain s.nodes root names n) (h : RamfsTree s.nodes root)
    {component : CString}
    (hcomponent : component ≠ [DOT] → component ≠ [DOT, DOT] → ComponentName component)
    (henters : Enters disk s n component s' r) :
    s' = s ∧ ∀ n', r = some n' → ∃ names', Chain s.nodes root names' n' := by
  obtain ⟨node, hnode, hcase⟩ := henters
  split at hcase
  · obtain ⟨rfl, rfl⟩ := hcase
    refine ⟨rfl, ?_⟩
    rintro n' ⟨⟩
    exact ⟨names, hchain⟩
  · next hdot =>
    split at hcase
    · obtain ⟨rfl, rfl⟩ := hcase
      refine ⟨rfl, ?_⟩
      rw [if_pos (h.parent_ne_zero hnode)]
      rintro n' ⟨⟩
      exact hchain.parent h hnode
    · next hdotdot =>
      cases hcase with
      | none => exact ⟨rfl, nofun⟩
      | ramfs _ hfind =>
          refine ⟨rfl, ?_⟩
          rintro n' rfl
          obtain ⟨-, child, hchild, hparent, hne, hname⟩ := h.finddir_child hnode hfind
          exact ⟨_, hchain.child hnode hchild hparent hne hname (hcomponent hdot hdotdot) hfind⟩
      | missing hfat32 => exact absurd hfat32 (h.finddir_ne_fat32 hnode)
      | found hfat32 => exact absurd hfat32 (h.finddir_ne_fat32 hnode)

/-- So does a walk. -/
theorem Chain.walks {rel : CString} (hwalks : Walks disk s n rel s' r)
    (hchain : Chain s.nodes root names n) (h : RamfsTree s.nodes root) :
    s' = s ∧ ∀ n', r = some n' → ∃ names', Chain s.nodes root names' n' := by
  induction hwalks generalizing names with
  | done =>
      refine ⟨rfl, ?_⟩
      rintro n' ⟨⟩
      exact ⟨names, hchain⟩
  | stop hrel henters => exact hchain.enters h (componentName_nextComponent hrel) henters
  | step hrel henters _ ih =>
      obtain ⟨rfl, hnext⟩ := hchain.enters h (componentName_nextComponent hrel) henters
      obtain ⟨names', hchain'⟩ := hnext _ rfl
      exact ih hchain' h

/-- What holds of the shell between two commands if all mounts have the RAMFS root. -/
structure CwdInv (root : Nat) (s : FsState) : Prop where
  tree : RamfsTree s.nodes root
  mounts : ∀ m ∈ s.mounts.used, m.root = root
  chain : ∃ names, Chain s.nodes root names s.cwd

namespace CwdInv

theorem resolvesRelative (h : CwdInv root s) {path : CString}
    (hresolves : ResolvesRelative disk s s.cwd path s' r) :
    s' = s ∧ ∀ n', r = some n' → ∃ names', Chain s.nodes root names' n' := by
  obtain ⟨names, hchain⟩ := h.chain
  rw [ResolvesRelative] at hresolves
  split at hresolves
  · rw [Resolves] at hresolves
    split at hresolves
    · obtain ⟨rfl, rfl⟩ := hresolves
      exact ⟨rfl, nofun⟩
    · rcases s.mounts.findMountRoot_cases path with ⟨hnone, -⟩ | ⟨m, hm, rest, -, -, hfind, -⟩
      · rw [hnone] at hresolves
        obtain ⟨rfl, rfl⟩ := hresolves
        exact ⟨rfl, nofun⟩
      · rw [hfind, h.mounts m hm] at hresolves
        exact Chain.root.walks hresolves h.tree
  · exact hchain.walks hresolves h.tree

/-- The new node is below the current directory, so that it is below no node of the chain
    but the last. -/
theorem create (h : CwdInv root s) {block : Nat} (havailable : s.Available block) (dir : Bool)
    (name : CString) : CwdInv root (ramfsCreate dir s block s.cwd name).2 := by
  rcases ramfsCreate_cases dir s block s.cwd name with heq | ⟨pn, hcwd, -, -, hne, heq⟩
  · rw [heq]
    exact h
  · have hblock : s.nodes block = none := havailable.resolve_left hne
    obtain ⟨names, hchain⟩ := h.chain
    rw [heq]
    exact ⟨h.tree.addChild hcwd hblock hne dir name, h.mounts, names,
      hchain.addChild h.tree hcwd hblock fun names' h' => (hchain.unique h' ▸ Nat.le_refl _)⟩

/-- A command keeps the invariant. -/
theorem step (h : CwdInv root s) {c : ShellCommand} (hstep : Step disk s c t) :
    CwdInv root t := by
  cases c with
  | touch name block =>
      obtain ⟨-, havailable, rfl⟩ := hstep
      exact h.create havailable false name
  | mkdir name block =>
      obtain ⟨-, havailable, rfl⟩ := hstep
      exact h.create havailable true name
  | cd path =>
      obtain ⟨-, s', r, hresolves, rfl⟩ := hstep
      obtain ⟨rfl, hnext⟩ := h.resolvesRelative hresolves
      unfold changeDir
      split
      · exact h
      · split
        · exact h
        · split
          · exact ⟨h.tree, h.mounts, hnext _ rfl⟩
          · exact h

end CwdInv

/-! ## The path that is printed -/

/-- The name at the end of a chain leads to its node. -/
theorem RamfsTree.enters_iff (h : RamfsTree s.nodes root) {d c : Nat} {node : FsNode}
    {name : CString} (hnode : s.nodes d = some node) (hname : ComponentName name)
    (hfind : RamfsFinddirReturns s.nodes node name (some c)) (s' : FsState) (r : Option Nat) :
    Enters disk s d name s' r ↔ s' = s ∧ r = some c := by
  have hdir : node.dir = true := (h.finddir_child hnode hfind).1
  have hfinddir : node.finddir = some .ramfs := by
    rw [FsNode.finddir, if_pos hdir, h.kind d node hnode]
  constructor
  · rintro ⟨node', hnode', hcase⟩
    obtain rfl := Option.some.inj (hnode.symm.trans hnode')
    rw [if_neg hname.ne_dot, if_neg hname.ne_dotdot] at hcase
    cases hcase with
    | none hnone =>
        rw [hfinddir] at hnone
        cases hnone
    | ramfs _ hfind' =>
        rw [RamfsFinddirReturns, if_pos hdir] at hfind hfind'
        exact ⟨rfl, hfind'.unique hfind⟩
    | missing hfat32 => exact absurd hfat32 (h.finddir_ne_fat32 hnode)
    | found hfat32 => exact absurd hfat32 (h.finddir_ne_fat32 hnode)
  · rintro ⟨rfl, rfl⟩
    refine ⟨node, hnode, ?_⟩
    rw [if_neg hname.ne_dot, if_neg hname.ne_dotdot]
    exact .ramfs hfinddir hfind

/-- Walking the names of a chain from the root leads to its node. -/
theorem Chain.walks_iff (hchain : Chain s.nodes root names n) (h : RamfsTree s.nodes root)
    {rest : CString} (hborder : AtBorder SLASH rest) :
    Walks disk s root (List.intercalate [SLASH] names ++ rest) s' r ↔
      Walks disk s n rest s' r := by
  -- the path behind the names grows while the induction goes up the chain
  induction hchain generalizing rest with
  | root => rfl
  | @child names d c parent node name hchain hd _ _ _ _ hname hfind ih =>
      have hlast : Walks disk s d (name ++ rest) s' r ↔ Walks disk s c rest s' r :=
        walks_name_iff hname hborder (h.enters_iff hd hname hfind)
      by_cases hnames : names = []
      · subst hnames
        obtain rfl : d = root := by
          generalize hnil : ([] : List CString) = names at hchain
          cases hchain with
          | root => rfl
          | child => simp at hnil
        simpa using hlast
      · rw [intercalate_concat hnames, List.append_assoc, List.cons_append,
          ih (Or.inr rfl), walks_slash_iff, hlast]

/-- `pwd` collects the names of the chain from its end, as many as there is room for. -/
theorem Chain.climb_names (hchain : Chain s.nodes root names n) (h : RamfsTree s.nodes root)
    (limit : Nat) : (climb s.nodes limit n).map s.nodeName = names.reverse.take limit := by
  induction hchain generalizing limit with
  | root =>
      cases limit with
      | zero => rfl
      | succ limit =>
          obtain ⟨node, hnode⟩ := h.root_mem
          simp [climb, hnode, (h.parent_self root node hnode).mpr rfl]
  | @child names d c parent node name _ _ hc hparent hne hname _ _ ih =>
      cases limit with
      | zero => rfl
      | succ limit =>
          have hself : node.parent ≠ c := mt (h.parent_self c node hc).mp hne
          have hfirst : s.nodeName c = name := by simp [nodeName, hc, hname]
          simp [climb, hc, hself, hparent ▸ ih limit, hfirst]

theorem Chain.componentName (hchain : Chain s.nodes root names n) :
    ∀ name ∈ names, ComponentName name := by
  induction hchain with
  | root => simp
  | child _ _ _ _ _ _ hname _ ih =>
      intro name hmem
      rcases List.mem_append.mp hmem with hmem | hmem
      · exact ih name hmem
      · exact List.mem_singleton.mp hmem ▸ hname

theorem Chain.head?_intercalate (hchain : Chain s.nodes root names n) :
    (List.intercalate [SLASH] names).head? ≠ some SLASH := by
  cases names with
  | nil => simp [List.intercalate]
  | cons name names =>
      have hname := hchain.componentName name List.mem_cons_self
      obtain ⟨rest, hrest⟩ : ∃ rest, List.intercalate [SLASH] (name :: names) = name ++ rest := by
        cases names with
        | nil => exact ⟨[], by simp [List.intercalate]⟩
        | cons => exact ⟨_, by rw [List.intercalate_cons_cons, List.append_assoc]⟩
      rw [hrest, ← hname.skipSlashes_append]
      exact FileSystem.head?_skipSlashes _

/-- **`cd` and `pwd`.** After any `touch`, `mkdir` and `cd` commands from the root of a RAMFS
    that is the only mount, what `pwd` prints leads from the root to the current directory
    and nowhere else. -/
theorem pwd_resolves_cwd {commands : List ShellCommand} {path : CString}
    (htree : RamfsTree s.nodes root) (hmounts : s.mounts.used = [⟨⟨[SLASH], by decide⟩, root⟩])
    (hroot : s.cwd = root) (hrun : Run (Step disk) s commands t) (hpwd : t.pwd = some path)
    (hdepth : t.pathNodes.length < 64) (t' : FsState) (r : Option Nat) :
    ResolvesRelative disk t root path.tail t' r ↔ t' = t ∧ r = some t.cwd := by
  have hstart : CwdInv root s := by
    refine ⟨htree, ?_, [], hroot ▸ .root⟩
    intro m hm
    rw [hmounts, List.mem_singleton] at hm
    rw [hm]
  have hinv : CwdInv root t := hrun.invariant _ hstart fun a l b ha hstep => ha.step hstep
  obtain ⟨names, hchain⟩ := hinv.chain
  have hclimb := hchain.climb_names hinv.tree 64
  have hall : names.length < 64 := by
    have hlength := congrArg List.length hclimb
    rw [pathNodes, List.length_reverse] at hdepth
    rw [List.length_map, List.length_take, List.length_reverse] at hlength
    omega
  have hnames : t.pathNodes.map t.nodeName = names := by
    rw [pathNodes, List.map_reverse, hclimb, List.take_of_length_le (by simp; omega),
      List.reverse_reverse]
  have htail : path.tail = List.intercalate [SLASH] names ++ [] := by
    simp only [pwd, hnames, Option.ite_none_right_eq_some, Option.some.injEq] at hpwd
    rw [← hpwd.2, List.tail_cons, List.append_nil]
  have hrelative : path.tail.head? ≠ some SLASH := by
    rw [htail, List.append_nil]
    exact hchain.head?_intercalate
  rw [ResolvesRelative, if_neg hrelative, htail, hchain.walks_iff hinv.tree (Or.inl rfl),
    walks_nil_iff]

end

/-- The nodes after `ramfs_create_root` are a tree. -/
theorem ramfsCreateRoot_tree {s t : FsState} {block root : Nat} (hnodes : s.nodes = fun _ => none)
    (hcreate : ramfsCreateRoot s block = (some root, t)) : RamfsTree t.nodes root := by
  rw [ramfsCreateRoot] at hcreate
  split at hcreate
  · cases hcreate
  · split at hcreate
    · cases hcreate
    · next hblock =>
      simp only [Prod.mk.injEq, Option.some.injEq] at hcreate
      obtain ⟨rfl, rfl⟩ := hcreate
      simp only [hnodes]
      refine ⟨Function.update_of_ne (Ne.symm hblock) _ _, ?_, ⟨_, Function.update_self _ _ _⟩,
        ?_, ?_, ?_⟩
      all_goals
        intro n node hn
        obtain ⟨rfl, rfl⟩ := NodeMemory.single_eq_some hn
      · rfl
      · exact ⟨_, Function.update_self _ _ _⟩
      · exact iff_of_true rfl rfl
      · exact fun _ => ⟨[], .nil, by simp⟩

theorem length_root_lt : [SLASH].length < 256 := by decide

/-- No nodes yet; block 16 is for the RAMFS root. -/
def emptyFs : FsState where
  nodes := fun _ => none
  poolCount := 0
  mounts := (MountTable.vfsInit.vfsMount (some ⟨[SLASH], length_root_lt⟩) (some 16)).2
  cwd := 16

def bootFs : FsState := (ramfsCreateRoot emptyFs 16).2

/-- After `mkdir a`, with the new node in block 32. -/
def madeFs : FsState := (ramfsCreateDir bootFs 32 16 [97]).2

/-- After `cd a`. -/
def enteredFs : FsState := { madeFs with cwd := 32 }

/-- In this directory `pwd` prints `/a`, and `a` leads to the directory. -/
theorem pwd_resolves_cwd_a :
    enteredFs.pwd = some [SLASH, 97] ∧
      ∀ disk t r, FsState.ResolvesRelative disk enteredFs 16 [97] t r ↔
        t = enteredFs ∧ r = some 32 := by
  have hpwd : enteredFs.pwd = some [SLASH, 97] := by decide
  refine ⟨hpwd, fun disk => ?_⟩
  have hboot : ramfsCreateRoot emptyFs 16 = (some 16, bootFs) := rfl
  have hmkdir : FsState.Step disk bootFs (.mkdir [97] 32) madeFs :=
    ⟨⟨by decide, by decide⟩, Or.inr (by decide), rfl⟩
  have hwalks : FsState.Walks disk madeFs 16 [97] madeFs (some 32) := by
    refine .step (by decide) ⟨_, rfl, ?_⟩ (.done (by decide))
    exact .ramfs rfl ⟨1, by decide⟩
  have hcd : FsState.Step disk madeFs (.cd [97]) enteredFs :=
    ⟨⟨by decide, by decide⟩, madeFs, some 32, hwalks, rfl⟩
  exact pwd_resolves_cwd (ramfsCreateRoot_tree rfl hboot) rfl rfl
    ((Run.nil.snoc hmkdir).snoc hcd) hpwd (by decide)

end NemoOS
