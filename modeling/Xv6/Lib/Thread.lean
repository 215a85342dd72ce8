import Xv6.Lib.Outcome
import Xv6.Lib.Trace

/-!
# Threads that share a state

A thread is a tree of atomic operations: `op o k` performs `o` and goes on with `k` of the
answer. The threads of a `Pool` take turns, one operation each time, in any order; a thread
that has returned may be given the next call. An operation may panic, or hang: then it is
not enabled.

A `Logic` gives every thread a share: what it knows and what it owes. `pre` says when a
thread may perform an operation and `post` how its share changes. If every operation keeps
an invariant of the state and all shares together (`Sound`), the invariant holds in every
interleaving, and each thread is checked alone, with `wp`.
-/

namespace Xv6.Lib

inductive Code (Op : Type) (Ans : Op → Type) (α : Type) : Type
  | ret (a : α)
  | op (o : Op) (k : Ans o → Code Op Ans α)

namespace Code

variable {Op : Type} {Ans : Op → Type} {α β γ : Type}

def bind : Code Op Ans α → (α → Code Op Ans β) → Code Op Ans β
  | .ret a, f => f a
  | .op o k, f => .op o fun a => (k a).bind f

instance : Monad (Code Op Ans) where
  pure := .ret
  bind := bind

def perform (o : Op) : Code Op Ans (Ans o) := .op o .ret

def when (c : Prop) [Decidable c] (x : Code Op Ans Unit) : Code Op Ans Unit :=
  if c then x else .ret ()

def next : Code Op Ans α → Option Op
  | .ret _ => none
  | .op o _ => some o

def alone {S : Type} (exec : (o : Op) → S → Outcome (Ans o × S)) :
    Code Op Ans α → S → Outcome (α × S)
  | .ret a, s => .ret (a, s)
  | .op o k, s => (exec o s).bind fun r => (k r.1).alone exec r.2

def Ends {S : Type} (exec : (o : Op) → S → Outcome (Ans o × S)) (c : Code Op Ans α) (s : S)
    (Q : α → S → Prop) : Prop :=
  ∃ a t, c.alone exec s = .ret (a, t) ∧ Q a t

section Ends

variable {S : Type} {exec : (o : Op) → S → Outcome (Ans o × S)} {s : S}

theorem alone_bind (c : Code Op Ans α) (f : α → Code Op Ans β) (s : S) :
    (c >>= f).alone exec s = (c.alone exec s).bind fun r => (f r.1).alone exec r.2 := by
  change (c.bind f).alone exec s = _
  induction c generalizing s with
  | ret a => rfl
  | op o k ih =>
    simp only [bind, alone]
    cases exec o s with
    | ret r => exact ih r.1 r.2
    | panic m => rfl
    | hang => rfl

theorem ends_pure {a : α} {Q : α → S → Prop} (h : Q a s) :
    Ends exec (pure a : Code Op Ans α) s Q :=
  ⟨a, s, rfl, h⟩

theorem Ends.bind {c : Code Op Ans α} {f : α → Code Op Ans β} {P : α → S → Prop}
    {Q : β → S → Prop} (h : Ends exec c s P) (hf : ∀ a t, P a t → Ends exec (f a) t Q) :
    Ends exec (c >>= f) s Q := by
  obtain ⟨a, t, hc, hP⟩ := h
  obtain ⟨b, u, hfa, hQ⟩ := hf a t hP
  refine ⟨b, u, ?_, hQ⟩
  rw [alone_bind, hc]
  exact hfa

theorem Ends.mono {c : Code Op Ans α} {P Q : α → S → Prop} (h : Ends exec c s P)
    (hQ : ∀ a t, P a t → Q a t) : Ends exec c s Q := by
  obtain ⟨a, t, hc, hP⟩ := h
  exact ⟨a, t, hc, hQ a t hP⟩

theorem ends_perform {o : Op} {a : Ans o} {t : S} {Q : Ans o → S → Prop}
    (he : exec o s = .ret (a, t)) (h : Q a t) : Ends exec (perform o) s Q := by
  refine ⟨a, t, ?_, h⟩
  simp only [perform, alone, he]
  rfl

theorem ends_op {o : Op} {a : Ans o} {t : S} {f : Ans o → Code Op Ans β} {Q : β → S → Prop}
    (he : exec o s = .ret (a, t)) (h : Ends exec (f a) t Q) :
    Ends exec (perform o >>= f) s Q :=
  (ends_perform (Q := fun b u => b = a ∧ u = t) he ⟨rfl, rfl⟩).bind fun _ _ hb => by
    rw [hb.1, hb.2]
    exact h

end Ends

end Code

/-- Threads `P` over states `S`. The number given to `exec` settles what the operation
leaves open. -/
structure Machine (P S Call Op : Type) (Ans : Op → Type) where
  exec : P → ℕ → (o : Op) → S → Outcome (Ans o × S)
  enabled : S → P → Call → Bool
  entry : Call → Code Op Ans Unit

structure Pool (P S Op : Type) (Ans : Op → Type) where
  shared : S
  code : P → Code Op Ans Unit

inductive Turn (P Call : Type)
  | call (p : P) (c : Call)
  | run (p : P) (n : ℕ)

variable {P S Call Op : Type} {Ans : Op → Type} [DecidableEq P]

namespace Machine

def step (M : Machine P S Call Op Ans) (g : Pool P S Op Ans) :
    Turn P Call → Outcome (Pool P S Op Ans)
  | .call p c =>
    match g.code p with
    | .ret _ =>
      if M.enabled g.shared p c then .ret ⟨g.shared, Function.update g.code p (M.entry c)⟩
      else .hang
    | .op _ _ => .hang
  | .run p n =>
    match g.code p with
    | .ret _ => .hang
    | .op o k => (M.exec p n o g.shared).bind fun r =>
        .ret ⟨r.2, Function.update g.code p (k r.1)⟩

abbrev Step (M : Machine P S Call Op Ans) (g : Pool P S Op Ans) (t : Turn P Call)
    (g' : Pool P S Op Ans) : Prop := M.step g t = .ret g'

def next (M : Machine P S Call Op Ans) (g : Pool P S Op Ans) (t : Turn P Call) :
    Option (Pool P S Op Ans) :=
  match M.step g t with
  | .ret g' => some g'
  | _ => none

variable {M : Machine P S Call Op Ans} {g g' : Pool P S Op Ans} {p : P} {n : ℕ} {c : Call}

theorem step_of_next {t : Turn P Call} (h : M.next g t = some g') : M.Step g t g' := by
  unfold next at h
  split at h
  · rename_i heq
    rw [← Option.some.inj h]
    exact heq
  · cases h

theorem exists_runs (M : Machine P S Call Op Ans) (g : Pool P S Op Ans) (ts : List (Turn P Call))
    (φ : Pool P S Op Ans → Bool) (h : (replay M.next g ts).any φ = true) :
    ∃ g', Runs M.Step g ts g' ∧ φ g' = true := by
  obtain ⟨g', h1, h2⟩ := (Option.any_eq_true _ _).mp h
  exact ⟨g', runs_of_replay (fun _ _ _ => step_of_next) h1, h2⟩

def StepIf (M : Machine P S Call Op Ans) (C : Pool P S Op Ans → Turn P Call → Prop)
    (g : Pool P S Op Ans) (t : Turn P Call) (g' : Pool P S Op Ans) : Prop := M.Step g t g' ∧ C g t

theorem exists_runsIf (M : Machine P S Call Op Ans) (C : Pool P S Op Ans → Turn P Call → Prop)
    [∀ g t, Decidable (C g t)] (g : Pool P S Op Ans) (ts : List (Turn P Call))
    (φ : Pool P S Op Ans → Bool)
    (h : (replay (fun g t => if C g t then M.next g t else none) g ts).any φ = true) :
    ∃ g', Runs (M.StepIf C) g ts g' ∧ φ g' = true := by
  obtain ⟨g', h1, h2⟩ := (Option.any_eq_true _ _).mp h
  refine ⟨g', runs_of_replay (fun g t u hu => ?_) h1, h2⟩
  split_ifs at hu with hc
  exact ⟨step_of_next hu, hc⟩

theorem step_call (h : M.Step g (.call p c) g') : (g.code p).next = none ∧
    M.enabled g.shared p c = true ∧ g' = ⟨g.shared, Function.update g.code p (M.entry c)⟩ := by
  simp only [Step, step] at h
  split at h
  · rename_i hc
    split_ifs at h with he
    exact ⟨by rw [hc]; rfl, he, (Outcome.ret.inj h).symm⟩
  · cases h

theorem step_run (h : M.Step g (.run p n) g') : ∃ o k a s', g.code p = .op o k ∧
    M.exec p n o g.shared = .ret (a, s') ∧ g' = ⟨s', Function.update g.code p (k a)⟩ := by
  simp only [Step, step] at h
  split at h
  · cases h
  · rename_i o k hc
    obtain ⟨⟨a, s'⟩, he, hr⟩ := Outcome.bind_eq_ret.mp h
    exact ⟨o, k, a, s', hc, he, (Outcome.ret.inj hr).symm⟩

end Machine

structure Logic (Op : Type) (Ans : Op → Type) where
  Share : Type
  pre : Op → Share → Prop
  post : (o : Op) → Share → Ans o → Share → Prop

namespace Logic

variable {L : Logic Op Ans} {α β : Type}

def wp (L : Logic Op Ans) : Code Op Ans α → L.Share → (α → L.Share → Prop) → Prop
  | .ret a, l, Q => Q a l
  | .op o k, l, Q => L.pre o l ∧ ∀ a l', L.post o l a l' → L.wp (k a) l' Q

theorem wp_bind {c : Code Op Ans α} {f : α → Code Op Ans β} {l : L.Share}
    {Q : β → L.Share → Prop} :
    L.wp (c >>= f) l Q ↔ L.wp c l fun a l' => L.wp (f a) l' Q := by
  induction c generalizing l with
  | ret a => exact Iff.rfl
  | op o k ih =>
    exact and_congr_right fun _ => forall_congr' fun a => forall_congr' fun l' =>
      imp_congr_right fun _ => ih a

theorem wp_when {c : Prop} [Decidable c] {x : Code Op Ans Unit} {l : L.Share}
    {Q : Unit → L.Share → Prop} :
    L.wp (Code.when c x) l Q ↔ (c → L.wp x l Q) ∧ (¬c → Q () l) := by
  unfold Code.when
  by_cases hc : c <;> simp [hc, wp]

/-- Calls and operations keep `I`. A thread between two calls has an `idle` share, and one
that begins a call has the share `enter`. -/
structure Sound (L : Logic Op Ans) (M : Machine P S Call Op Ans)
    (I : S → (P → L.Share) → Prop) (idle : L.Share → Prop) (enter : S → P → L.Share) :
    Prop where
  call : ∀ s ls p c, I s ls → idle (ls p) → M.enabled s p c = true →
    I s (Function.update ls p (enter s p)) ∧ L.wp (M.entry c) (enter s p) fun _ => idle
  op : ∀ s ls p n o a s', I s ls → L.pre o (ls p) → M.exec p n o s = .ret (a, s') →
    ∃ l, L.post o (ls p) a l ∧ I s' (Function.update ls p l)

structure Accounts (L : Logic Op Ans) (I : S → (P → L.Share) → Prop) (idle : L.Share → Prop)
    (g : Pool P S Op Ans) (ls : P → L.Share) : Prop where
  inv : I g.shared ls
  safe : ∀ p, L.wp (g.code p) (ls p) fun _ => idle

variable {M : Machine P S Call Op Ans} {I : S → (P → L.Share) → Prop} {idle : L.Share → Prop}
  {enter : S → P → L.Share} {g g' : Pool P S Op Ans} {ls : P → L.Share} {p : P} {n : ℕ}
  {c : Call} {es : List (Turn P Call)}

omit [DecidableEq P] in
theorem Accounts.pre (h : L.Accounts I idle g ls) {o : Op} {k : Ans o → Code Op Ans Unit}
    (hc : g.code p = .op o k) : L.pre o (ls p) := by
  have := h.safe p
  rw [hc] at this
  exact this.1

omit [DecidableEq P] in
theorem Accounts.idle_of_ret (h : L.Accounts I idle g ls) (hc : (g.code p).next = none) :
    idle (ls p) := by
  have := h.safe p
  cases hp : g.code p with
  | ret a => rwa [hp] at this
  | op o k =>
    rw [hp] at hc
    cases hc

theorem Accounts.run (hL : L.Sound M I idle enter) (h : L.Accounts I idle g ls)
    (hs : M.Step g (.run p n) g') :
    ∃ o k a l, g.code p = .op o k ∧ M.exec p n o g.shared = .ret (a, g'.shared) ∧
      L.post o (ls p) a l ∧ L.Accounts I idle g' (Function.update ls p l) := by
  obtain ⟨o, k, a, s', hc, he, rfl⟩ := Machine.step_run hs
  obtain ⟨l, hl, hi⟩ := hL.op _ _ _ _ _ _ _ h.inv (h.pre hc) he
  refine ⟨o, k, a, l, hc, he, hl, hi, fun q => ?_⟩
  by_cases hq : q = p
  · subst hq
    have hsafe := h.safe q
    rw [hc] at hsafe
    simpa using hsafe.2 a l hl
  · simpa [Function.update_of_ne hq] using h.safe q

theorem Accounts.call (hL : L.Sound M I idle enter) (h : L.Accounts I idle g ls)
    (hs : M.Step g (.call p c) g') : g'.shared = g.shared ∧ idle (ls p) ∧
      L.Accounts I idle g' (Function.update ls p (enter g.shared p)) := by
  obtain ⟨hc, he, rfl⟩ := Machine.step_call hs
  have hidle := h.idle_of_ret hc
  obtain ⟨hi, hl⟩ := hL.call _ _ _ _ h.inv hidle he
  refine ⟨rfl, hidle, hi, fun q => ?_⟩
  by_cases hq : q = p
  · subst hq
    simpa using hl
  · simpa [Function.update_of_ne hq] using h.safe q

structure Keeps (L : Logic Op Ans) (M : Machine P S Call Op Ans)
    (I : S → (P → L.Share) → Prop) (idle : L.Share → Prop) (enter : S → P → L.Share)
    (C : Pool P S Op Ans → Turn P Call → Prop) (E : S → (P → L.Share) → Prop) : Prop where
  call : ∀ s ls p, E s ls → idle (ls p) → E s (Function.update ls p (enter s p))
  op : ∀ g ls p n o k a s' l, L.Accounts I idle g ls → E g.shared ls → C g (.run p n) →
    g.code p = .op o k → M.exec p n o g.shared = .ret (a, s') → L.post o (ls p) a l →
    E s' (Function.update ls p l)

/-- In every interleaving of steps that meet `C` the shares account for the pool, and `E`
holds. -/
theorem Keeps.of_runs {C : Pool P S Op Ans → Turn P Call → Prop} {E : S → (P → L.Share) → Prop}
    (hE : L.Keeps M I idle enter C E) (hL : L.Sound M I idle enter)
    (h : ∃ ls, L.Accounts I idle g ls ∧ E g.shared ls) (hrun : Runs (M.StepIf C) g es g') :
    ∃ ls, L.Accounts I idle g' ls ∧ E g'.shared ls := by
  refine hrun.invariant (I := fun g => ∃ ls, L.Accounts I idle g ls ∧ E g.shared ls) ?_ h
  rintro g t g' ⟨ls, h, he⟩ ⟨hs, hC⟩
  cases t with
  | call p c =>
    obtain ⟨hg, hidle, h'⟩ := h.call hL hs
    refine ⟨_, h', ?_⟩
    rw [hg]
    exact hE.call _ _ _ he hidle
  | run p n =>
    obtain ⟨o, k, a, l, hc, hx, hpost, h'⟩ := h.run hL hs
    exact ⟨_, h', hE.op _ _ _ _ _ _ _ _ _ h he hC hc hx hpost⟩

theorem Accounts.of_runs (hL : L.Sound M I idle enter) (h : ∃ ls, L.Accounts I idle g ls)
    (hrun : Runs M.Step g es g') : ∃ ls, L.Accounts I idle g' ls := by
  refine hrun.invariant (I := fun g => ∃ ls, L.Accounts I idle g ls) ?_ h
  rintro g t g' ⟨ls, h⟩ hs
  cases t with
  | call p c => exact ⟨_, (h.call hL hs).2.2⟩
  | run p n =>
    obtain ⟨o, k, a, l, -, -, -, h'⟩ := h.run hL hs
    exact ⟨_, h'⟩

end Logic

end Xv6.Lib
