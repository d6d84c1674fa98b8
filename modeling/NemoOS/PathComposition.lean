import NemoOS.WorkingDirectory

/-!
# Resolving `p/q`

`vfs_resolve_relative` splits a path at its slashes while it walks, and a component that has
more than 127 bytes into pieces. A `/` ends a piece in any case, so that the walk along `p/q`
passes through the node where the walk along `p` ends (`walks_append_iff`). From a directory
of a RAMFS both walks come to an end and change nothing.
-/

namespace NemoOS

open Loops Paths

namespace FsState

open FileSystem

variable {disk : Fat32Disk} {s s' : FsState} {n : Nat} {r : Option Nat} {rel : CString}

/-! ## One component -/

theorem walks_iff_of_nil (hrel : skipSlashes rel = []) :
    Walks disk s n rel s' r ↔ s' = s ∧ r = some n := by
  constructor
  · intro h
    cases h with
    | done => exact ⟨rfl, rfl⟩
    | stop hne => exact absurd hrel hne
    | step hne => exact absurd hrel hne
  · rintro ⟨rfl, rfl⟩
    exact .done hrel

/-- Going on from a node, if there is one. -/
def Continues (next : FsState → Nat → FsState → Option Nat → Prop) :
    FsState → Option Nat → FsState → Option Nat → Prop
  | t, none, s', r => s' = t ∧ r = none
  | t, some n, s', r => next t n s' r

/-- A walk with a component left enters it, and ends there or goes on. -/
theorem walks_iff_of_ne_nil (hrel : skipSlashes rel ≠ []) :
    Walks disk s n rel s' r ↔
      ∃ t c, Enters disk s n (nextComponent (skipSlashes rel)) t c ∧
        Continues (fun t n' => Walks disk t n'
          ((skipSlashes rel).drop (nextComponent (skipSlashes rel)).length)) t c s' r := by
  constructor
  · intro h
    cases h with
    | done hnil => exact absurd hnil hrel
    | stop _ henters => exact ⟨s', none, henters, rfl, rfl⟩
    | step _ henters hrest => exact ⟨_, _, henters, hrest⟩
  · rintro ⟨t, c, henters, hrest⟩
    cases c with
    | none =>
        obtain ⟨rfl, rfl⟩ := hrest
        exact .stop hrel henters
    | some n' => exact .step hrel henters hrest

/-- What is left behind a component is shorter. -/
theorem length_drop_nextComponent (hrel : skipSlashes rel ≠ []) :
    ((skipSlashes rel).drop (nextComponent (skipSlashes rel)).length).length < rel.length := by
  have hle : (skipSlashes rel).length ≤ rel.length := List.length_dropWhile_le _ rel
  have hpos := nextComponent_length_pos hrel
  have hlen : 0 < (skipSlashes rel).length := List.length_pos_iff.mpr hrel
  rw [List.length_drop]
  omega

/-- The walk along `p/q` is the one along `p`, and the one along `q` from where that ends. -/
theorem walks_append_iff {p q : CString} :
    Walks disk s n (p ++ SLASH :: q) s' r ↔
      ∃ t m, Walks disk s n p t m ∧ Continues (fun t n' => Walks disk t n' q) t m s' r := by
  -- the path gets shorter with every component, while the node and the state change
  induction hlen : p.length using Nat.strong_induction_on generalizing s n p with
  | _ len ih =>
      subst hlen
      by_cases hp : skipSlashes p = []
      · have hskip := skipSlashes_append_of_nil hp q
        constructor
        · intro h
          exact ⟨s, some n, .done hp, h.of_skipSlashes hskip⟩
        · rintro ⟨t, m, hwalks, hrest⟩
          obtain ⟨rfl, rfl⟩ := (walks_iff_of_nil hp).mp hwalks
          exact Walks.of_skipSlashes hrest hskip.symm
      · have hskip := skipSlashes_append hp (SLASH :: q)
        have hne : skipSlashes (p ++ SLASH :: q) ≠ [] := by
          rw [hskip]
          exact List.append_ne_nil_of_left_ne_nil hp _
        have hnext := nextComponent_append (skipSlashes p) q
        have hdrop : (skipSlashes p ++ SLASH :: q).drop (nextComponent (skipSlashes p)).length =
            (skipSlashes p).drop (nextComponent (skipSlashes p)).length ++ SLASH :: q :=
          List.drop_append_of_le_length (nextComponent_length_le (skipSlashes p))
        have ih := fun t n' => ih _ (length_drop_nextComponent hp) (s := t) (n := n') rfl
        rw [walks_iff_of_ne_nil hne, hskip, hnext, hdrop]
        constructor
        · rintro ⟨t, c, henters, hrest⟩
          cases c with
          | none => exact ⟨t, none, .stop hp henters, hrest⟩
          | some n' =>
              obtain ⟨t', m, hwalks, hmore⟩ := (ih t n').mp hrest
              exact ⟨t', m, .step hp henters hwalks, hmore⟩
        · rintro ⟨t, m, hwalks, hmore⟩
          obtain ⟨t', c, henters, hrest⟩ := (walks_iff_of_ne_nil hp).mp hwalks
          cases c with
          | none =>
              obtain ⟨rfl, rfl⟩ := hrest
              exact ⟨t, none, henters, hmore⟩
          | some n' => exact ⟨t', some n', henters, (ih t' n').mpr ⟨t, m, hrest, hmore⟩⟩

/-- The call returns `r` and leaves the state as it is. -/
def Returns (s : FsState) (call : FsState → Option Nat → Prop) (r : Option Nat) : Prop :=
  ∀ s' r', call s' r' ↔ s' = s ∧ r' = r

/-- What follows a call that returns starts from its result. -/
theorem Returns.continues_iff {call : FsState → Option Nat → Prop} {m : Option Nat}
    (h : s.Returns call m) {next : FsState → Nat → FsState → Option Nat → Prop} :
    (∃ t c, call t c ∧ Continues next t c s' r) ↔ Continues next s m s' r := by
  constructor
  · rintro ⟨t, c, hcall, hnext⟩
    obtain ⟨rfl, rfl⟩ := (h t c).mp hcall
    exact hnext
  · intro hnext
    exact ⟨s, m, (h s m).mpr ⟨rfl, rfl⟩, hnext⟩

end FsState

/-! ## Walks in a RAMFS -/

/-- Nodes of a RAMFS, with all nodes that a walk can go to from them. -/
structure RamfsNodes (nodes : NodeMemory) (S : Set Nat) : Prop where
  kind : ∀ n ∈ S, ∃ node, nodes n = some node ∧ node.kind = .ramfs
  parent : ∀ n ∈ S, ∀ node, nodes n = some node → node.parent ≠ 0 → node.parent ∈ S
  children : ∀ n ∈ S, ∀ node, nodes n = some node → node.dir = true →
    ∃ ids, Siblings nodes node.firstChild ids ∧ ∀ c ∈ ids, c ∈ S

/-- The node memory of a RAMFS alone. -/
theorem RamfsTree.ramfsNodes {nodes : NodeMemory} {root : Nat} (h : RamfsTree nodes root) :
    RamfsNodes nodes {n | ∃ node, nodes n = some node} := by
  constructor
  · rintro n ⟨node, hnode⟩
    exact ⟨node, hnode, h.kind n node hnode⟩
  · intro n _ node hnode _
    exact h.parent_mem n node hnode
  · intro n _ node hnode hdir
    obtain ⟨ids, hsiblings, hchildren⟩ := h.children n node hnode hdir
    refine ⟨ids, hsiblings, fun c hc => ?_⟩
    obtain ⟨child, hchild, -⟩ := hchildren c hc
    exact ⟨child, hchild⟩

namespace RamfsNodes

open FsState FileSystem

variable (disk : Fat32Disk) {s : FsState} {S : Set Nat} {n : Nat}

/-- `finddir` of a node returns a child or nothing. -/
theorem finddir_returns (h : RamfsNodes s.nodes S) (hn : n ∈ S) {node : FsNode}
    (hnode : s.nodes n = some node) (name : CString) :
    ∃ r, s.Returns (Finddir disk s n node name) r ∧ ∀ c, r = some c → c ∈ S := by
  obtain ⟨_, hsame, hkind⟩ := h.kind n hn
  obtain rfl := Option.some.inj (hnode.symm.trans hsame)
  by_cases hdir : node.dir = true
  · have hfinddir : node.finddir = some .ramfs := by rw [FsNode.finddir, if_pos hdir, hkind]
    obtain ⟨ids, hsiblings, hchildren⟩ := h.children n hn node hnode hdir
    have hhalts := hsiblings.halts name
    refine ⟨ids.find? (hasName s.nodes name), fun s' r' => ⟨fun hcall => ?_, ?_⟩,
      fun c hc => hchildren c (List.mem_of_find?_eq_some hc)⟩
    · cases hcall with
      | none hnone => exact absurd (hfinddir.symm.trans hnone) (by decide)
      | ramfs _ hfind =>
          rw [RamfsFinddirReturns, if_pos hdir] at hfind
          exact ⟨rfl, hfind.unique hhalts⟩
      | missing hfat32 => exact absurd (hfinddir.symm.trans hfat32) (by decide)
      | found hfat32 => exact absurd (hfinddir.symm.trans hfat32) (by decide)
    · rintro ⟨rfl, rfl⟩
      refine .ramfs hfinddir ?_
      rw [RamfsFinddirReturns, if_pos hdir]
      exact hhalts
  · have hfinddir : node.finddir = none := if_neg hdir
    refine ⟨none, fun s' r' => ⟨fun hcall => ?_, ?_⟩, fun c hc => absurd hc (by simp)⟩
    · cases hcall with
      | none => exact ⟨rfl, rfl⟩
      | ramfs hramfs => exact absurd (hfinddir.symm.trans hramfs) (by decide)
      | missing hfat32 => exact absurd (hfinddir.symm.trans hfat32) (by decide)
      | found hfat32 => exact absurd (hfinddir.symm.trans hfat32) (by decide)
    · rintro ⟨rfl, rfl⟩
      exact .none hfinddir

theorem enters_returns (h : RamfsNodes s.nodes S) (hn : n ∈ S) (component : CString) :
    ∃ r, s.Returns (Enters disk s n component) r ∧ ∀ c, r = some c → c ∈ S := by
  obtain ⟨node, hnode, -⟩ := h.kind n hn
  have henters : ∀ s' r', Enters disk s n component s' r' ↔
      if component = [DOT] then s' = s ∧ r' = some n
      else if component = [DOT, DOT] then
        s' = s ∧ r' = some (if node.parent ≠ 0 then node.parent else n)
      else Finddir disk s n node component s' r' := by
    intro s' r'
    constructor
    · rintro ⟨node', hnode', hcase⟩
      obtain rfl := Option.some.inj (hnode.symm.trans hnode')
      exact hcase
    · intro hcase
      exact ⟨node, hnode, hcase⟩
  by_cases hdot : component = [DOT]
  · refine ⟨some n, fun s' r' => ?_, ?_⟩
    · rw [henters, if_pos hdot]
    · rintro c ⟨⟩
      exact hn
  · by_cases hdotdot : component = [DOT, DOT]
    · refine ⟨some (if node.parent ≠ 0 then node.parent else n), fun s' r' => ?_, ?_⟩
      · rw [henters, if_neg hdot, if_pos hdotdot]
      · rintro c ⟨⟩
        split
        · next hparent => exact h.parent n hn node hnode hparent
        · exact hn
    · obtain ⟨r, hreturns, hmem⟩ := h.finddir_returns disk hn hnode component
      refine ⟨r, fun s' r' => ?_, hmem⟩
      rw [henters, if_neg hdot, if_neg hdotdot]
      exact hreturns s' r'

/-- Every path leads to a node of the RAMFS or nowhere. -/
theorem walks_returns (h : RamfsNodes s.nodes S) (hn : n ∈ S) (rel : CString) :
    ∃ r, s.Returns (Walks disk s n rel) r ∧ ∀ c, r = some c → c ∈ S := by
  induction hlen : rel.length using Nat.strong_induction_on generalizing n rel with
  | _ len ih =>
      subst hlen
      by_cases hrel : skipSlashes rel = []
      · refine ⟨some n, fun s' r' => walks_iff_of_nil hrel, ?_⟩
        rintro c ⟨⟩
        exact hn
      · obtain ⟨c, henters, hmem⟩ := h.enters_returns disk hn
          (nextComponent (skipSlashes rel))
        cases c with
        | none =>
            refine ⟨none, fun s' r' => ?_, nofun⟩
            rw [walks_iff_of_ne_nil hrel, henters.continues_iff]
            rfl
        | some n' =>
            obtain ⟨r, hreturns, hmem'⟩ :=
              ih _ (length_drop_nextComponent hrel) (hmem n' rfl) _ rfl
            refine ⟨r, fun s' r' => ?_, hmem'⟩
            rw [walks_iff_of_ne_nil hrel, henters.continues_iff]
            exact hreturns s' r'

end RamfsNodes

namespace FsState

theorem resolvesRelative_of_relative {disk : Fat32Disk} {s : FsState} {b : Nat} {path : CString}
    (hpath : path.head? ≠ some SLASH) : ResolvesRelative disk s b path = Walks disk s b path := by
  funext s' r
  rw [ResolvesRelative, if_neg hpath]

/-- **`p/q` is `p` and then `q`.** From a RAMFS directory every resolution returns and changes
    nothing, and the result for `p/q` is the one for `q` from where `p` leads to. -/
theorem resolvesRelative_compose {disk : Fat32Disk} {s : FsState} {S : Set Nat}
    (h : RamfsNodes s.nodes S) {b : Nat} (hb : b ∈ S) {p q : CString} (hne : p ≠ [])
    (hp : p.head? ≠ some SLASH) (hq : q.head? ≠ some SLASH) :
    ∃ m r, s.Returns (ResolvesRelative disk s b p) m ∧
      s.Returns (ResolvesRelative disk s b (p ++ SLASH :: q)) r ∧
      match m with
      | none => r = none
      | some n => s.Returns (ResolvesRelative disk s n q) r := by
  have hpq : (p ++ SLASH :: q).head? ≠ some SLASH := by
    rw [List.head?_append_of_ne_nil _ hne]
    exact hp
  rw [resolvesRelative_of_relative hp, resolvesRelative_of_relative hpq]
  obtain ⟨m, hfirst, hmem⟩ := h.walks_returns disk hb p
  cases m with
  | none =>
      refine ⟨none, none, hfirst, fun s' r' => ?_, rfl⟩
      rw [walks_append_iff, hfirst.continues_iff]
      rfl
  | some n =>
      obtain ⟨r, hsecond, -⟩ := h.walks_returns disk (hmem n rfl) q
      refine ⟨some n, r, hfirst, fun s' r' => ?_, ?_⟩
      · rw [walks_append_iff, hfirst.continues_iff]
        exact hsecond s' r'
      · dsimp only
        rw [resolvesRelative_of_relative hq]
        exact hsecond

/-- `a/.` leads where `a` leads. -/
theorem resolvesRelative_compose_a :
    RamfsTree madeFs.nodes 16 ∧ ∀ disk,
      madeFs.Returns (ResolvesRelative disk madeFs 16 [97, SLASH, DOT]) (some 32) := by
  have hcreate : ramfsCreateRoot emptyFs 16 = (some 16, bootFs) := rfl
  have hboot : RamfsTree bootFs.nodes 16 := ramfsCreateRoot_tree rfl hcreate
  have htree : RamfsTree madeFs.nodes 16 :=
    hboot.addChild rfl (by decide : bootFs.nodes 32 = none) (by decide) true [97]
  refine ⟨htree, fun disk => ?_⟩
  obtain ⟨m, r, hfirst, hboth, hsecond⟩ := @resolvesRelative_compose disk _ _ htree.ramfsNodes _
    htree.root_mem [97] [DOT] (by decide) (by decide) (by decide)
  have hname : ResolvesRelative disk madeFs 16 [97] madeFs (some 32) := by
    refine .step (by decide) ⟨_, rfl, ?_⟩ (.done (by decide))
    exact .ramfs rfl ⟨1, by decide⟩
  have hdot : ResolvesRelative disk madeFs 32 [DOT] madeFs (some 32) :=
    .step (by decide) ⟨_, rfl, rfl, rfl⟩ (.done (by decide))
  obtain ⟨-, rfl⟩ := (hfirst _ _).mp hname
  obtain ⟨-, rfl⟩ := (hsecond _ _).mp hdot
  exact hboth

end FsState

end NemoOS
