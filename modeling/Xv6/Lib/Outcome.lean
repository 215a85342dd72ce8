import Mathlib.Tactic.NormNum

/-!
# Outcomes of sequential kernel code

A call returns, stops the machine with a panic message, or never returns: a
loop without an exit, a lock taken twice by the same caller, a fault that is
taken again and again. `Prog` threads a state through such calls.

`Post` is the weakest precondition of an outcome with a second postcondition
for the panic messages. It says nothing about a call that never returns;
`Returns` does.
-/

namespace Xv6.Lib

inductive Outcome (α : Type)
  | ret (value : α)
  | panic (message : String)
  | hang
  deriving DecidableEq

namespace Outcome

variable {α β : Type}

def bind (o : Outcome α) (f : α → Outcome β) : Outcome β :=
  match o with
  | ret a => f a
  | panic m => panic m
  | hang => hang

instance : Monad Outcome where
  pure := ret
  bind := bind

/-! The simp lemmas below hold by computation but are not proved by `rfl`: `simp` then
rewrites with them, where the kernel would otherwise compare programs by running them. -/

@[simp] theorem ret_bind (a : α) (f : α → Outcome β) : (ret a).bind f = f a :=
  (Eq.refl _).trans rfl
@[simp] theorem panic_bind (m : String) (f : α → Outcome β) : (panic m).bind f = panic m :=
  (Eq.refl _).trans rfl
@[simp] theorem hang_bind (f : α → Outcome β) : (hang : Outcome α).bind f = hang :=
  (Eq.refl _).trans rfl

theorem ret_inj {a b : α} {s t : β} (h : ret (a, s) = ret (b, t)) : a = b ∧ s = t :=
  Prod.mk.inj (ret.inj h)

theorem bind_eq_ret {o : Outcome α} {f : α → Outcome β} {b : β} :
    o.bind f = ret b ↔ ∃ a, o = ret a ∧ f a = ret b := by
  cases o <;> simp [bind]

theorem bind_eq_panic {o : Outcome α} {f : α → Outcome β} {m : String} :
    o.bind f = panic m ↔ o = panic m ∨ ∃ a, o = ret a ∧ f a = panic m := by
  cases o <;> simp [bind]

/-- The call ends: `Q` holds of a returned value and `E` of a panic message. -/
def Post (o : Outcome α) (Q : α → Prop) (E : String → Prop) : Prop :=
  match o with
  | ret a => Q a
  | panic m => E m
  | hang => False

theorem post_bind (o : Outcome α) (f : α → Outcome β) (Q : β → Prop) (E : String → Prop) :
    (o.bind f).Post Q E ↔ o.Post (fun a => (f a).Post Q E) E := by
  cases o <;> rfl

theorem Post.mono {o : Outcome α} {P Q : α → Prop} {E F : String → Prop}
    (h : o.Post P E) (hQ : ∀ a, P a → Q a) (hF : ∀ m, E m → F m) : o.Post Q F := by
  cases o with
  | ret a => exact hQ a h
  | panic m => exact hF m h
  | hang => exact h

end Outcome

def Prog (σ α : Type) := σ → Outcome (α × σ)

namespace Prog

variable {σ α β : Type}

instance : Monad (Prog σ) where
  pure a := fun s => .ret (a, s)
  bind x f := fun s => (x s).bind fun r => f r.1 r.2

def get : Prog σ σ := fun s => .ret (s, s)
def set (s : σ) : Prog σ Unit := fun _ => .ret ((), s)
def modify (f : σ → σ) : Prog σ Unit := fun s => .ret ((), f s)
def read (f : σ → α) : Prog σ α := fun s => .ret (f s, s)
def panic (m : String) : Prog σ α := fun _ => .panic m
def hang : Prog σ α := fun _ => .hang

@[simp] theorem pure_apply (a : α) (s : σ) : (pure a : Prog σ α) s = .ret (a, s) :=
  (Eq.refl _).trans rfl
@[simp] theorem bind_apply (x : Prog σ α) (f : α → Prog σ β) (s : σ) :
    (x >>= f) s = (x s).bind fun r => f r.1 r.2 :=
  (Eq.refl _).trans rfl
@[simp] theorem get_apply (s : σ) : (get : Prog σ σ) s = .ret (s, s) := (Eq.refl _).trans rfl
@[simp] theorem set_apply (s t : σ) : (set s : Prog σ Unit) t = .ret ((), s) :=
  (Eq.refl _).trans rfl
@[simp] theorem modify_apply (f : σ → σ) (s : σ) : modify f s = .ret ((), f s) :=
  (Eq.refl _).trans rfl
@[simp] theorem read_apply (f : σ → α) (s : σ) : read f s = .ret (f s, s) :=
  (Eq.refl _).trans rfl
@[simp] theorem panic_apply (m : String) (s : σ) : (panic m : Prog σ α) s = .panic m :=
  (Eq.refl _).trans rfl
@[simp] theorem hang_apply (s : σ) : (hang : Prog σ α) s = .hang := (Eq.refl _).trans rfl

theorem bind_ret {x : Prog σ α} {f : α → Prog σ β} {s : σ} {r : β × σ}
    (h : (x >>= f) s = .ret r) : ∃ a t, x s = .ret (a, t) ∧ f a t = .ret r := by
  rw [bind_apply, Outcome.bind_eq_ret] at h
  obtain ⟨⟨a, t⟩, hx, hf⟩ := h
  exact ⟨a, t, hx, hf⟩

theorem get_bind_ret {f : σ → Prog σ β} {s : σ} {r : β × σ} (h : (get >>= f) s = .ret r) :
    f s s = .ret r := by
  rwa [bind_apply, get_apply, Outcome.ret_bind] at h

theorem modify_bind_ret {f : σ → σ} {g : Unit → Prog σ β} {s : σ} {r : β × σ}
    (h : (modify f >>= g) s = .ret r) : g () (f s) = .ret r := by
  rwa [bind_apply, modify_apply, Outcome.ret_bind] at h

theorem get_bind (f : σ → Prog σ β) (s : σ) : (get >>= f) s = f s s := by
  rw [bind_apply, get_apply, Outcome.ret_bind]

theorem bind_of_ret {x : Prog σ α} {f : α → Prog σ β} {s t : σ} {a : α}
    (h : x s = .ret (a, t)) : (x >>= f) s = f a t := by
  rw [bind_apply, h]
  rfl

theorem bind_assoc {γ : Type} (x : Prog σ α) (f : α → Prog σ β) (g : β → Prog σ γ) :
    x >>= f >>= g = x >>= fun a => f a >>= g := by
  funext s
  rw [bind_apply, bind_apply, bind_apply]
  cases x s with
  | ret r => rfl
  | panic m => rfl
  | hang => rfl

theorem pure_ret {a : α} {s : σ} {r : α × σ} (h : (pure a : Prog σ α) s = .ret r) :
    r = (a, s) := by
  rw [pure_apply] at h
  exact (Outcome.ret.inj h).symm

theorem modify_ret {f : σ → σ} {s : σ} {r : Unit × σ} (h : modify f s = .ret r) :
    r = ((), f s) := by
  rw [modify_apply] at h
  exact (Outcome.ret.inj h).symm

theorem ite_apply (c : Prop) [Decidable c] (x y : Prog σ α) (s : σ) :
    (if c then x else y) s = if c then x s else y s := by
  split <;> rfl

def Wp (x : Prog σ α) (Q : α → σ → Prop) (E : String → Prop) (s : σ) : Prop :=
  (x s).Post (fun r => Q r.1 r.2) E

variable {Q : α → σ → Prop} {E : String → Prop} {s : σ}

theorem wp_bind {x : Prog σ α} {f : α → Prog σ β} {Q : β → σ → Prop} :
    Wp (x >>= f) Q E s ↔ Wp x (fun a => Wp (f a) Q E) E s :=
  Outcome.post_bind _ _ _ _

@[simp] theorem wp_modify {f : σ → σ} {Q : Unit → σ → Prop} :
    Wp (modify f) Q E s ↔ Q () (f s) := Iff.rfl
@[simp] theorem wp_read {f : σ → α} : Wp (read f) Q E s ↔ Q (f s) s := Iff.rfl

theorem Wp.mono {x : Prog σ α} {P Q : α → σ → Prop} {E F : String → Prop} {s : σ}
    (h : Wp x P E s) (hQ : ∀ a t, P a t → Q a t) (hF : ∀ m, E m → F m) : Wp x Q F s :=
  Outcome.Post.mono h (fun r => hQ r.1 r.2) hF

end Prog

end Xv6.Lib
