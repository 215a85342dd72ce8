import Mathlib.Data.List.ReduceOption
import Mathlib.Tactic.NormNum

/-!
# Labelled runs

`Runs R s es t`: the labels `es`, in order, lead from `s` to `t` by steps of
`R`. A property that holds at the start and is kept by every step holds at the
end of every run.
-/

namespace Xv6.Lib

inductive Runs {σ ε : Type} (R : σ → ε → σ → Prop) : σ → List ε → σ → Prop
  | nil (s : σ) : Runs R s [] s
  | snoc {s t u : σ} {es : List ε} {e : ε} : Runs R s es t → R t e u → Runs R s (es ++ [e]) u

namespace Runs

variable {σ ε : Type} {R : σ → ε → σ → Prop} {s t : σ} {es : List ε}

theorem invariant {I : σ → Prop} (hstep : ∀ t e u, I t → R t e u → I u)
    (h : Runs R s es t) (h0 : I s) : I t := by
  induction h with
  | nil => exact h0
  | snoc _ hr ih => exact hstep _ _ _ ih hr

theorem cons {e : ε} {u : σ} (hr : R s e t) (h : Runs R t es u) : Runs R s (e :: es) u := by
  induction h with
  | nil => exact .snoc (.nil s) hr
  | snoc _ hstep ih => exact .snoc ih hstep

theorem trans {es' : List ε} {u : σ} (h : Runs R s es t) (h' : Runs R t es' u) :
    Runs R s (es ++ es') u := by
  induction h' with
  | nil =>
    rw [List.append_nil]
    exact h
  | snoc _ hr ih =>
    rw [← List.append_assoc]
    exact .snoc ih hr

/-- Steps without a label are matched by none, the others by a step with their label. -/
theorem refines {τ : Type} {R : σ → Option ε → σ → Prop} {S : τ → ε → τ → Prop}
    {I : σ → τ → Prop} {r : τ} {es : List (Option ε)}
    (hstep : ∀ s e t r, I s r → R s e t → ∃ r', Runs S r e.toList r' ∧ I t r')
    (h : Runs R s es t) (h0 : I s r) : ∃ r', Runs S r es.reduceOption r' ∧ I t r' := by
  induction h with
  | nil => exact ⟨r, .nil r, h0⟩
  | snoc _ hr ih =>
    obtain ⟨r₁, hrun, h₁⟩ := ih
    obtain ⟨r₂, hlast, h₂⟩ := hstep _ _ _ _ h₁ hr
    refine ⟨r₂, ?_, h₂⟩
    rw [List.reduceOption_append, List.reduceOption_singleton]
    exact hrun.trans hlast

end Runs

def replay {σ ε : Type} (next : σ → ε → Option σ) : σ → List ε → Option σ
  | s, [] => some s
  | s, e :: es => (next s e).bind fun t => replay next t es

theorem runs_of_replay {σ ε : Type} {R : σ → ε → σ → Prop} {next : σ → ε → Option σ}
    (hnext : ∀ s e t, next s e = some t → R s e t) {es : List ε} {s t : σ}
    (h : replay next s es = some t) : Runs R s es t := by
  induction es generalizing s with
  | nil =>
    rw [← Option.some.inj h]
    exact .nil s
  | cons e es ih =>
    obtain ⟨u, hu, hrest⟩ := Option.bind_eq_some_iff.mp h
    exact (ih hrest).cons (hnext s e u hu)

end Xv6.Lib
