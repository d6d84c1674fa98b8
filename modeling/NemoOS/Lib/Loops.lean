import Mathlib

/-!
# Loops that may not terminate

A loop is a function that either goes on with a new state or leaves with a
result. `loop` runs it for a number of rounds; `Halts step s r` says that the loop
entered in state `s` ends with result `r`, after however many rounds. A loop that
runs for ever halts with nothing.
-/

namespace Loops

variable {σ ρ : Type*} {step : σ → σ ⊕ ρ}

/-- At most `fuel` rounds of the loop; `none` if it has not ended by then. -/
def loop (step : σ → σ ⊕ ρ) : Nat → σ → Option ρ
  | 0, _ => none
  | fuel + 1, s =>
      match step s with
      | .inl s' => loop step fuel s'
      | .inr r => some r

/-- The loop entered in state `s` ends with result `r`. -/
def Halts (step : σ → σ ⊕ ρ) (s : σ) (r : ρ) : Prop := ∃ fuel, loop step fuel s = some r

theorem halts_of_inr {s : σ} {r : ρ} (hstep : step s = .inr r) : Halts step s r :=
  ⟨1, by simp [loop, hstep]⟩

theorem halts_of_inl {s s' : σ} {r : ρ} (hstep : step s = .inl s') (h : Halts step s' r) :
    Halts step s r := by
  obtain ⟨fuel, hfuel⟩ := h
  exact ⟨fuel + 1, by simp [loop, hstep, hfuel]⟩

/-- A loop that has ended does not change with more rounds. -/
theorem loop_mono {fuel fuel' : Nat} {s : σ} {r : ρ} (h : loop step fuel s = some r)
    (hle : fuel ≤ fuel') : loop step fuel' s = some r := by
  induction fuel generalizing fuel' s with
  | zero => simp [loop] at h
  | succ fuel ih =>
      obtain ⟨more, rfl⟩ : ∃ more, fuel' = more + 1 := ⟨fuel' - 1, by omega⟩
      rw [loop] at h ⊢
      cases hstep : step s with
      | inl s' =>
          rw [hstep] at h
          exact ih h (by omega)
      | inr r' =>
          rw [hstep] at h
          exact h

/-- A loop ends with at most one result. -/
theorem Halts.unique {s : σ} {r r' : ρ} (h : Halts step s r) (h' : Halts step s r') : r = r' := by
  obtain ⟨fuel, hfuel⟩ := h
  obtain ⟨fuel', hfuel'⟩ := h'
  have hmax := loop_mono hfuel (Nat.le_max_left fuel fuel')
  rw [loop_mono hfuel' (Nat.le_max_right fuel fuel')] at hmax
  exact (Option.some.inj hmax).symm

/-- What every exit of the loop satisfies holds of the result. -/
theorem Halts.result {P : ρ → Prop} {s : σ} {r : ρ} (h : Halts step s r)
    (hexit : ∀ t r', step t = .inr r' → P r') : P r := by
  obtain ⟨fuel, hfuel⟩ := h
  induction fuel generalizing s with
  | zero => cases hfuel
  | succ fuel ih =>
      rw [loop] at hfuel
      cases hs : step s with
      | inl s' =>
          rw [hs] at hfuel
          exact ih hfuel
      | inr r' =>
          rw [hs] at hfuel
          exact Option.some.inj hfuel ▸ hexit s r' hs

/-- A loop with a round after every state of an invariant runs for ever. -/
theorem not_halts_of_invariant {P : σ → Prop} (hstep : ∀ s, P s → ∃ s', step s = .inl s' ∧ P s')
    {s : σ} (h : P s) (r : ρ) : ¬ Halts step s r := by
  rintro ⟨fuel, hfuel⟩
  induction fuel generalizing s with
  | zero => cases hfuel
  | succ fuel ih =>
      obtain ⟨s', hs, h'⟩ := hstep s h
      rw [loop, hs] at hfuel
      exact ih h' hfuel

/-- The states the loop goes through in at most `fuel` rounds. -/
def visited (step : σ → σ ⊕ ρ) : Nat → σ → List σ
  | 0, _ => []
  | fuel + 1, s =>
      s ::
        match step s with
        | .inl s' => visited step fuel s'
        | .inr _ => []

/-- What the rounds preserve holds in every state the loop goes through. -/
theorem visited_invariant {P : σ → Prop} (hstep : ∀ s s', P s → step s = .inl s' → P s')
    {fuel : Nat} {s : σ} (h : P s) : ∀ t ∈ visited step fuel s, P t := by
  induction fuel generalizing s with
  | zero => exact fun t ht => absurd ht List.not_mem_nil
  | succ fuel ih =>
      intro t ht
      rw [visited, List.mem_cons] at ht
      rcases ht with rfl | ht
      · exact h
      · cases hs : step s with
        | inl s' =>
            rw [hs] at ht
            exact ih (hstep s s' h hs) t ht
        | inr r =>
            rw [hs] at ht
            exact absurd ht List.not_mem_nil

end Loops
