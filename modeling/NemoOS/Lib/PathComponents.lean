import Mathlib

/-!
# Components of a path

A path is a list of symbols in which one symbol, the separator, marks the borders
of the components. Empty components do not count, so repeated, leading and
trailing separators change nothing.
-/

namespace Paths

variable {χ : Type*} [DecidableEq χ] {sep : χ}

/-- The components of a path, in order. -/
def components (sep : χ) (path : List χ) : List (List χ) :=
  (path.splitOn sep).filter (· ≠ [])

@[simp] theorem components_nil : components sep ([] : List χ) = [] := by
  simp [components]

/-- A separator cuts the components in two. -/
theorem components_append_cons (first second : List χ) :
    components sep (first ++ sep :: second) =
      components sep first ++ components sep second := by
  unfold components
  rw [List.splitOn_eq_splitOnP, List.splitOnP_append_cons first second (by simp),
    List.filter_append]
  rfl

@[simp] theorem components_cons_sep (path : List χ) :
    components sep (sep :: path) = components sep path := by
  have hcut : components sep ([] ++ sep :: path) = _ := components_append_cons [] path
  simpa using hcut

theorem components_of_not_mem {name : List χ} (hsep : sep ∉ name) (hne : name ≠ []) :
    components sep name = [name] := by
  have hsingle : name.splitOn sep = [name] := by
    rw [List.splitOn_eq_splitOnP, List.splitOnP_eq_singleton]
    intro x hx
    have hxsep : x ≠ sep := by
      intro heq
      exact hsep (heq ▸ hx)
    simpa using hxsep
  simp [components, hsingle, hne]

theorem components_dropWhile (path : List χ) :
    components sep (path.dropWhile (· = sep)) = components sep path := by
  induction path with
  | nil => rfl
  | cons c path ih =>
      by_cases hc : c = sep
      · subst hc
        simpa using ih
      · simp [hc]

/-- What is left of a path starts a new component, or nothing follows. -/
def AtBorder (sep : χ) (rest : List χ) : Prop := rest = [] ∨ rest.head? = some sep

theorem components_append {first rest : List χ} (hborder : AtBorder sep rest) :
    components sep (first ++ rest) = components sep first ++ components sep rest := by
  cases rest with
  | nil => simp
  | cons c rest =>
      obtain rfl : c = sep := by simpa [AtBorder] using hborder
      rw [components_append_cons, components_cons_sep]

theorem components_cons_name {name rest : List χ} (hsep : sep ∉ name) (hne : name ≠ [])
    (hborder : AtBorder sep rest) :
    components sep (name ++ rest) = name :: components sep rest := by
  rw [components_append hborder, components_of_not_mem hsep hne, List.singleton_append]

omit [DecidableEq χ] in
/-- One more name at the end of a path. -/
theorem intercalate_concat {names : List (List χ)} (hne : names ≠ []) (name : List χ) :
    List.intercalate [sep] (names ++ [name]) = List.intercalate [sep] names ++ sep :: name := by
  induction names with
  | nil => exact absurd rfl hne
  | cons first names ih =>
      cases names with
      | nil => simp [List.intercalate]
      | cons second names =>
          have hrest := ih (by simp)
          rw [List.cons_append] at hrest
          rw [List.cons_append, List.cons_append, List.intercalate_cons_cons, hrest,
            List.intercalate_cons_cons, List.append_assoc _ _ (sep :: name)]

end Paths
