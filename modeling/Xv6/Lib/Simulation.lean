import Xv6.Lib.Outcome

/-!
# Simulation of programs

`Sim f I ok g x y`: from every state `s` with `I s`, the program `x` does what `y` does from
`f s`. It panics or hangs where `y` does; where it returns `a`, `ok a` holds and `y` returns
`g a`.
-/

namespace Xv6.Lib.Prog

variable {σ τ α β γ δ : Type}

def Sim (f : σ → τ) (I : σ → Prop) (ok : α → Prop) (g : α → β) (x : Prog σ α) (y : Prog τ β) :
    Prop :=
  ∀ s, I s → match x s with
    | .ret (a, s') => ok a ∧ I s' ∧ y (f s) = .ret (g a, f s')
    | .panic m => y (f s) = .panic m
    | .hang => y (f s) = .hang

variable {f : σ → τ} {I : σ → Prop} {ok : α → Prop} {g : α → β} {x : Prog σ α} {y : Prog τ β}

namespace Sim

theorem pure {a : α} (h : ok a) : Sim f I ok g (Pure.pure a) (Pure.pure (g a)) :=
  fun _ hs => ⟨h, hs, rfl⟩

theorem panic (m : String) : Sim f I ok g (Prog.panic m) (Prog.panic m) := fun _ _ => rfl

theorem hang : Sim f I ok g Prog.hang Prog.hang := fun _ _ => rfl

theorem bind {ok' : γ → Prop} {g' : γ → δ} {k : α → Prog σ γ} {k' : β → Prog τ δ}
    (h : Sim f I ok g x y) (hk : ∀ a, ok a → Sim f I ok' g' (k a) (k' (g a))) :
    Sim f I ok' g' (x >>= k) (y >>= k') := by
  intro s hs
  have hx := h s hs
  rw [bind_apply, bind_apply]
  cases hxs : x s with
  | ret r =>
    rw [hxs] at hx
    obtain ⟨ha, hs', hy⟩ := hx
    rw [hy]
    exact hk r.1 ha r.2 hs'
  | panic m =>
    rw [hxs] at hx
    simp only [Outcome.panic_bind, hx]
  | hang =>
    rw [hxs] at hx
    simp only [Outcome.hang_bind, hx]

theorem ite {c : Prop} [Decidable c] {x' : Prog σ α} {y' : Prog τ β}
    (h : c → Sim f I ok g x y) (h' : ¬c → Sim f I ok g x' y') :
    Sim f I ok g (if c then x else x') (if c then y else y') := by
  split_ifs with hc
  · exact h hc
  · exact h' hc

theorem ret (h : Sim f I ok g x y) {s s' : σ} {a : α} (hs : I s) (hx : x s = .ret (a, s')) :
    ok a ∧ I s' ∧ y (f s) = .ret (g a, f s') := by
  have := h s hs
  rwa [hx] at this

end Sim

end Xv6.Lib.Prog
