import Mathlib

/-!
# Runs of labelled transition systems

A component is a step relation `step s l t`: in state `s` the operation named by
the label `l` can end in `t`. A run is a finite sequence of steps, written with
the labels in the order in which they were taken. Safety results are statements
about the last state of every run; since every prefix of a run is a run, they
speak about every state the component passes through.

`Guarded` restricts a system to the steps whose label meets a condition in the
state before the step. It is how "in every run whose steps all meet `ok`" is
said.
-/

namespace Transition

variable {σ τ ι : Type*}

/-- Finite runs from `s`, with the labels of their steps. -/
inductive Run (step : σ → ι → σ → Prop) (s : σ) : List ι → σ → Prop where
  | nil : Run step s [] s
  | snoc {labels : List ι} {t u : σ} {l : ι} :
      Run step s labels t → step t l u → Run step s (labels ++ [l]) u

/-- The steps whose label meets `ok` in the state they start from. -/
def Guarded (ok : σ → ι → Prop) (step : σ → ι → σ → Prop) : σ → ι → σ → Prop :=
  fun s l t => ok s l ∧ step s l t

/-- The step relation of an operation that is a function of the state. -/
def Deterministic (exec : σ → ι → σ) : σ → ι → σ → Prop :=
  fun s l t => exec s l = t

/-- **The invariant rule.** What holds at the start and is kept by every step
    holds at the end of every run. -/
theorem Run.invariant {step : σ → ι → σ → Prop} {s t : σ} {labels : List ι}
    (hrun : Run step s labels t) (inv : σ → Prop) (hstart : inv s)
    (hstep : ∀ a l b, inv a → step a l b → inv b) : inv t := by
  induction hrun with
  | nil => exact hstart
  | snoc _ hlast ih => exact hstep _ _ _ ih hlast

/-- A step relation can be replaced by a weaker one along a whole run. -/
theorem Run.mono {step step' : σ → ι → σ → Prop} {s t : σ} {labels : List ι}
    (hrun : Run step s labels t) (hle : ∀ a l b, step a l b → step' a l b) :
    Run step' s labels t := by
  induction hrun with
  | nil => exact .nil
  | snoc _ hlast ih => exact ih.snoc (hle _ _ _ hlast)

theorem Run.trans {step : σ → ι → σ → Prop} {s t u : σ} {first second : List ι}
    (hfirst : Run step s first t) (hsecond : Run step t second u) :
    Run step s (first ++ second) u := by
  induction hsecond with
  | nil => simpa using hfirst
  | snoc _ hlast ih =>
      rw [← List.append_assoc]
      exact ih.snoc hlast

theorem Run.cons {step : σ → ι → σ → Prop} {s t u : σ} {l : ι} {labels : List ι}
    (hfirst : step s l t) (hrest : Run step t labels u) : Run step s (l :: labels) u :=
  (Run.nil.snoc hfirst).trans hrest

/-- The last step of a run. -/
theorem Run.last {step : σ → ι → σ → Prop} {s u : σ} {l : ι} {labels : List ι}
    (hrun : Run step s (labels ++ [l]) u) : ∃ t, Run step s labels t ∧ step t l u := by
  generalize hall : labels ++ [l] = all at hrun
  cases hrun with
  | nil => simp at hall
  | snoc hrest hlast =>
      obtain ⟨rfl, hsingle⟩ := List.append_inj' hall rfl
      obtain rfl : l = _ := List.head_eq_of_cons_eq hsingle
      exact ⟨_, hrest, hlast⟩

/-- A run can be cut anywhere. -/
theorem Run.cut {step : σ → ι → σ → Prop} {s u : σ} {first second : List ι}
    (hrun : Run step s (first ++ second) u) :
    ∃ t, Run step s first t ∧ Run step t second u := by
  induction second using List.reverseRecOn generalizing u with
  | nil => exact ⟨u, by simpa using hrun, .nil⟩
  | append_singleton second l ih =>
      rw [← List.append_assoc] at hrun
      obtain ⟨v, hrest, hlast⟩ := hrun.last
      obtain ⟨t, hfirst, hsecond⟩ := ih hrest
      exact ⟨t, hfirst, hsecond.snoc hlast⟩

/-- Executing a list of labels is a run of the deterministic system. -/
theorem run_foldl (exec : σ → ι → σ) (s : σ) (labels : List ι) :
    Run (Deterministic exec) s labels (labels.foldl exec s) := by
  induction labels using List.reverseRecOn with
  | nil => exact .nil
  | append_singleton labels l ih =>
      rw [List.foldl_append]
      exact ih.snoc rfl

/-! ## Calls with results -/

/-- The results of the calls, one after the other. -/
def outputs {ο : Type*} (exec : σ → ι → ο × σ) : σ → List ι → List ο
  | _, [] => []
  | s, c :: calls => (exec s c).1 :: outputs exec (exec s c).2 calls

/-- **The simulation rule.** Two components have the same results for calls that give the same
    result in related states and lead to related states again. -/
theorem outputs_eq {ο : Type*} {exec : σ → ι → ο × σ} {exec' : τ → ι → ο × τ}
    (R : σ → τ → Prop) {ok : ι → Prop}
    (hcall : ∀ s t c, R s t → ok c →
      (exec s c).1 = (exec' t c).1 ∧ R (exec s c).2 (exec' t c).2)
    {s : σ} {t : τ} (h : R s t) {calls : List ι} (hok : ∀ c ∈ calls, ok c) :
    outputs exec s calls = outputs exec' t calls := by
  induction calls generalizing s t with
  | nil => rfl
  | cons c calls ih =>
      obtain ⟨hresult, hnext⟩ := hcall s t c h (hok c List.mem_cons_self)
      rw [outputs, outputs, hresult, ih hnext fun d hd => hok d (List.mem_cons_of_mem c hd)]

/-- Without a state each call has its own result. -/
theorem outputs_stateless {ο : Type*} (result : ι → ο) (calls : List ι) :
    outputs (fun (_ : Unit) c => (result c, ())) () calls = calls.map result := by
  induction calls with
  | nil => rfl
  | cons c calls ih => rw [outputs, ih, List.map_cons]

/-- The state after the calls. -/
def stateAfter {ο : Type*} (exec : σ → ι → ο × σ) (s : σ) (calls : List ι) : σ :=
  calls.foldl (fun s c => (exec s c).2) s

@[simp] theorem stateAfter_nil {ο : Type*} (exec : σ → ι → ο × σ) (s : σ) :
    stateAfter exec s [] = s := rfl

theorem stateAfter_cons {ο : Type*} (exec : σ → ι → ο × σ) (s : σ) (c : ι) (calls : List ι) :
    stateAfter exec s (c :: calls) = stateAfter exec (exec s c).2 calls := rfl

/-- Calls that lead from related states to related states do so in any number. -/
theorem stateAfter_related {ο : Type*} {exec : σ → ι → ο × σ} {exec' : τ → ι → ο × τ}
    (R : σ → τ → Prop) (hcall : ∀ s t c, R s t → R (exec s c).2 (exec' t c).2) {s : σ} {t : τ}
    (h : R s t) (calls : List ι) : R (stateAfter exec s calls) (stateAfter exec' t calls) := by
  induction calls generalizing s t with
  | nil => exact h
  | cons c calls ih => exact ih (hcall s t c h)

end Transition
