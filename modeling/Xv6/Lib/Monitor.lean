import Xv6.Lib.Trace

/-!
# Processes around one lock, with sleep and wakeup

A program is a control-flow graph: `code p l` is the instruction of process `p` at
the point `l`. Processes share a state and a lock `lk`. `sleep` and `wakeup` take a
second lock, that of the table of processes: a process goes to sleep by taking the
table, then giving up `lk`, then giving up the table, and only then can be woken.
Where `sleep` returns, the next instruction is the one that takes `lk` again.

A proof outline says where `lk` is held, what is known at each point and which
channels the holder of `lk` still has to wake. If every instruction respects the
outline and `lk` is never given up in debt, then whenever `lk` is free the condition
that a sleeper waits out still holds.
-/

namespace Xv6.Lib

inductive Instr (σ Loc Chan : Type)
  | acquire (next : Loc)
  | release (next : Loc)
  | wakeup (c : Chan) (next : Loc)
  | sleep (c : Chan) (next : Loc)
  | act (f : σ → σ × Loc)
  | choose (next : Loc → Prop)

structure Monitor (P σ Loc Chan : Type) where
  code : P → Loc → Instr σ Loc Chan
  /-- What killing a process does to the shared state. -/
  kill : P → σ → σ

inductive Phase (Loc Chan : Type)
  | run (l : Loc)
  /-- In `sleep`, with both locks. -/
  | drowsy (c : Chan) (l : Loc)
  /-- In `sleep`, with the table only. -/
  | dozing (c : Chan) (l : Loc)
  | asleep (c : Chan) (l : Loc)
  | ready (l : Loc)

structure Config (P σ Loc Chan : Type) where
  shared : σ
  lk : Option P
  table : Option P
  phase : P → Phase Loc Chan

inductive Signal (P : Type)
  | step (p : P)
  | kill (p : P)

namespace Monitor

variable {P σ Loc Chan : Type}

def Phase.rouse [DecidableEq Chan] (c : Chan) : Phase Loc Chan → Phase Loc Chan
  | .asleep c' l => if c' = c then .ready l else .asleep c' l
  | ph => ph

def Phase.interrupt : Phase Loc Chan → Phase Loc Chan
  | .asleep _ l => .ready l
  | ph => ph

def Phase.chan : Phase Loc Chan → Option Chan
  | .drowsy c _ | .dozing c _ | .asleep c _ => some c
  | _ => none

def Phase.loc : Phase Loc Chan → Loc
  | .run l | .drowsy _ l | .dozing _ l | .asleep _ l | .ready l => l

def Phase.hasTable : Phase Loc Chan → Prop
  | .drowsy _ _ | .dozing _ _ => True
  | _ => False

inductive Step [DecidableEq P] [DecidableEq Chan] (M : Monitor P σ Loc Chan) :
    Config P σ Loc Chan → Signal P → Config P σ Loc Chan → Prop
  | acquire {g : Config P σ Loc Chan} {p l l'} (hp : g.phase p = .run l)
      (hl : M.code p l = .acquire l') (hlk : g.lk = none) :
      Step M g (.step p) { g with lk := some p, phase := Function.update g.phase p (.run l') }
  | release {g : Config P σ Loc Chan} {p l l'} (hp : g.phase p = .run l)
      (hl : M.code p l = .release l') :
      Step M g (.step p) { g with lk := none, phase := Function.update g.phase p (.run l') }
  | wakeup {g : Config P σ Loc Chan} {p l c l'} (hp : g.phase p = .run l)
      (hl : M.code p l = .wakeup c l') (ht : g.table = none) :
      Step M g (.step p)
        { g with phase := Function.update (fun q => Phase.rouse c (g.phase q)) p (.run l') }
  | sleep {g : Config P σ Loc Chan} {p l c l'} (hp : g.phase p = .run l)
      (hl : M.code p l = .sleep c l') (ht : g.table = none) :
      Step M g (.step p)
        { g with table := some p, phase := Function.update g.phase p (.drowsy c l') }
  | unlock {g : Config P σ Loc Chan} {p c l} (hp : g.phase p = .drowsy c l) :
      Step M g (.step p) { g with lk := none, phase := Function.update g.phase p (.dozing c l) }
  | doze {g : Config P σ Loc Chan} {p c l} (hp : g.phase p = .dozing c l) :
      Step M g (.step p)
        { g with table := none, phase := Function.update g.phase p (.asleep c l) }
  | resume {g : Config P σ Loc Chan} {p l} (hp : g.phase p = .ready l) (ht : g.table = none) :
      Step M g (.step p) { g with phase := Function.update g.phase p (.run l) }
  | act {g : Config P σ Loc Chan} {p l f} (hp : g.phase p = .run l) (hl : M.code p l = .act f) :
      Step M g (.step p) { g with
        shared := (f g.shared).1
        phase := Function.update g.phase p (.run (f g.shared).2) }
  | choose {g : Config P σ Loc Chan} {p l next l'} (hp : g.phase p = .run l)
      (hl : M.code p l = .choose next) (hn : next l') :
      Step M g (.step p) { g with phase := Function.update g.phase p (.run l') }
  | kill {g : Config P σ Loc Chan} (p) (ht : g.table = none) :
      Step M g (.kill p) { g with
        shared := M.kill p g.shared
        phase := Function.update g.phase p (Phase.interrupt (g.phase p)) }

def Leads (s : σ) (l : Loc) : Instr σ Loc Chan → Prop
  | .acquire m | .release m | .wakeup _ m => m = l
  | .act f => (f s).2 = l
  | .choose next => next l
  | .sleep _ _ => False

def Phase.Beside (a b : Phase Loc Chan) : Prop :=
  b = a ∨ ∃ c l, a = .asleep c l ∧ b = .ready l

theorem Phase.beside_rouse [DecidableEq Chan] (c : Chan) (a : Phase Loc Chan) :
    Phase.Beside a (Phase.rouse c a) := by
  cases a with
  | asleep c' l =>
    by_cases h : c' = c
    · exact Or.inr ⟨c', l, rfl, if_pos h⟩
    · exact Or.inl (if_neg h)
  | _ => exact Or.inl rfl

theorem Phase.chan_rouse [DecidableEq Chan] {c : Chan} {a : Phase Loc Chan}
    (h : Phase.chan (Phase.rouse c a) = some c) : Phase.hasTable a := by
  cases a with
  | asleep c' l =>
    by_cases hc : c' = c
    · simp [Phase.rouse, hc, Phase.chan] at h
    · simp [Phase.rouse, hc, Phase.chan] at h
  | drowsy d l => trivial
  | dozing d l => trivial
  | run l => cases h
  | ready l => cases h

theorem Phase.beside_interrupt (a : Phase Loc Chan) : Phase.Beside a (Phase.interrupt a) := by
  cases a with
  | asleep c l => exact Or.inr ⟨c, l, rfl, rfl⟩
  | _ => exact Or.inl rfl

inductive Turn (M : Monitor P σ Loc Chan) (s : σ) (p : P) : Phase Loc Chan → Phase Loc Chan → Prop
  | run {m l : Loc} (h : Leads s l (M.code p m)) : Turn M s p (.run m) (.run l)
  | sleep {m l : Loc} {c : Chan} (h : M.code p m = .sleep c l) :
      Turn M s p (.run m) (.drowsy c l)
  | unlock (c : Chan) (l : Loc) : Turn M s p (.drowsy c l) (.dozing c l)
  | doze (c : Chan) (l : Loc) : Turn M s p (.dozing c l) (.asleep c l)
  | resume (l : Loc) : Turn M s p (.ready l) (.run l)

theorem Step.turn [DecidableEq P] [DecidableEq Chan] {M : Monitor P σ Loc Chan}
    {g g' : Config P σ Loc Chan} {e : Signal P} (hs : Step M g e g') :
    (∃ p, e = .step p ∧ Turn M g.shared p (g.phase p) (g'.phase p) ∧
      ∀ q, q ≠ p → Phase.Beside (g.phase q) (g'.phase q)) ∨
    ∀ q, Phase.Beside (g.phase q) (g'.phase q) := by
  have turn {p : P} {a b : Phase Loc Chan} (hp : g.phase p = a)
      (h : Turn M g.shared p a b) :
      Turn M g.shared p (g.phase p) (Function.update g.phase p b p) ∧
        ∀ q, q ≠ p → Phase.Beside (g.phase q) (Function.update g.phase p b q) := by
    rw [hp, Function.update_self]
    exact ⟨h, fun q hq => Or.inl (Function.update_of_ne hq ..)⟩
  cases hs with
  | acquire hp hl hlk => exact Or.inl ⟨_, rfl, turn hp (.run (by rw [hl]; rfl))⟩
  | release hp hl => exact Or.inl ⟨_, rfl, turn hp (.run (by rw [hl]; rfl))⟩
  | @wakeup p m c l hp hl ht =>
    refine Or.inl ⟨p, rfl, ?_, fun q hq => ?_⟩
    · simp only [hp, Function.update_self]
      exact .run (by rw [hl]; rfl)
    · simp only [Function.update_of_ne hq]
      exact Phase.beside_rouse c _
  | sleep hp hl ht => exact Or.inl ⟨_, rfl, turn hp (.sleep hl)⟩
  | unlock hp => exact Or.inl ⟨_, rfl, turn hp (.unlock _ _)⟩
  | doze hp => exact Or.inl ⟨_, rfl, turn hp (.doze _ _)⟩
  | resume hp ht => exact Or.inl ⟨_, rfl, turn hp (.resume _)⟩
  | act hp hl => exact Or.inl ⟨_, rfl, turn hp (.run (by rw [hl]; rfl))⟩
  | choose hp hl hn => exact Or.inl ⟨_, rfl, turn hp (.run (by rw [hl]; exact hn))⟩
  | kill p ht =>
    refine Or.inr fun q => ?_
    by_cases hq : q = p
    · subst hq
      simp only [Function.update_self]
      exact Phase.beside_interrupt _
    · exact Or.inl (Function.update_of_ne hq ..)

structure Outline (P σ Loc Chan : Type) where
  /-- The points at which the process holds `lk`. -/
  inside : Loc → Prop
  inv : σ → Prop
  know : P → Loc → σ → Prop
  /-- The channels the holder of `lk` still has to wake. -/
  owes : Loc → Chan → Prop
  /-- What a process asleep on the channel waits out. -/
  await : Chan → σ → Prop

variable (M : Monitor P σ Loc Chan) (O : Outline P σ Loc Chan)

def Outline.Covered (l : Loc) (s : σ) (c : Chan) : Prop :=
  O.await c s ∨ O.inside l ∧ O.owes l c

structure Outline.Valid : Prop where
  acquire {p l l'} : M.code p l = .acquire l' →
    ¬ O.inside l ∧ O.inside l' ∧ ∀ s, O.inv s → O.know p l s → O.know p l' s
  release {p l l'} : M.code p l = .release l' →
    O.inside l ∧ ¬ O.inside l' ∧ ∀ s, O.inv s → O.know p l s → O.know p l' s
  wakeup {p l c l'} : M.code p l = .wakeup c l' →
    (O.inside l ↔ O.inside l') ∧ (∀ s, O.inv s → O.know p l s → O.know p l' s) ∧
      ∀ c', c' ≠ c → O.owes l c' → O.owes l' c'
  sleep {p l c l'} : M.code p l = .sleep c l' →
    O.inside l ∧ ¬ O.inside l' ∧ (∀ c', ¬ O.owes l c') ∧
      ∀ s, O.inv s → O.know p l s → O.know p l' s ∧ O.await c s
  act {p l f s} : M.code p l = .act f → O.inv s → O.know p l s →
    (O.inside l ↔ O.inside (f s).2) ∧ O.inv (f s).1 ∧ O.know p (f s).2 (f s).1 ∧
      ∀ c, O.Covered l s c → O.Covered (f s).2 (f s).1 c
  choose {p l next l'} : M.code p l = .choose next → next l' →
    ¬ O.inside l ∧ ¬ O.inside l' ∧ ∀ s, O.inv s → O.know p l s → O.know p l' s
  stable {p q l m f s} : p ≠ q → M.code p l = .act f → ¬ (O.inside l ∧ O.inside m) →
    O.inv s → O.know p l s → O.know q m s → O.know q m (f s).1
  kill {p s} : O.inv s → O.inv (M.kill p s) ∧
    (∀ q m, O.know q m s → O.know q m (M.kill p s)) ∧ ∀ c, O.await c s → O.await c (M.kill p s)

def Outline.lax : Outline P σ Loc Chan :=
  { O with owes := fun _ _ => False, await := fun _ _ => True }

theorem Outline.Valid.lax {M : Monitor P σ Loc Chan} {O : Outline P σ Loc Chan} (h : O.Valid M) :
    O.lax.Valid M where
  acquire := h.acquire
  release := h.release
  wakeup hl := ⟨(h.wakeup hl).1, (h.wakeup hl).2.1, fun _ _ => id⟩
  sleep hl := ⟨(h.sleep hl).1, (h.sleep hl).2.1, fun _ => id,
    fun s hs hk => ⟨((h.sleep hl).2.2.2 s hs hk).1, trivial⟩⟩
  act hl hs hk := ⟨(h.act hl hs hk).1, (h.act hl hs hk).2.1, (h.act hl hs hk).2.2.1,
    fun _ _ => Or.inl trivial⟩
  choose := h.choose
  stable := h.stable
  kill hs := ⟨(h.kill hs).1, (h.kill hs).2.1, fun _ _ => trivial⟩

def Outline.Holds : Phase Loc Chan → Prop
  | .run l => O.inside l
  | .drowsy _ _ => True
  | _ => False

def Outline.Parked : Phase Loc Chan → Prop
  | .run _ => True
  | .drowsy _ l | .dozing _ l | .asleep _ l | .ready l => ¬ O.inside l

def Outline.Attended (g : Config P σ Loc Chan) (c : Chan) : Prop :=
  O.await c g.shared ∨ ∃ q l, g.phase q = .run l ∧ O.inside l ∧ O.owes l c

structure Outline.Inv (g : Config P σ Loc Chan) : Prop where
  lk : ∀ p, g.lk = some p ↔ O.Holds (g.phase p)
  table : ∀ p, g.table = some p ↔ Phase.hasTable (g.phase p)
  parked : ∀ p, O.Parked (g.phase p)
  inv : O.inv g.shared
  know : ∀ p, O.know p (Phase.loc (g.phase p)) g.shared
  wait : ∀ p c, Phase.chan (g.phase p) = some c → O.Attended g c

def Outline.Paid (g : Config P σ Loc Chan) (e : Signal P) : Prop :=
  ∀ p l l', e = .step p → g.phase p = .run l → M.code p l = .release l' →
    ∀ c, O.owes l c → ∀ q, Phase.chan (g.phase q) ≠ some c

namespace Phase.Beside

variable {O} {a b : Phase Loc Chan} (h : Phase.Beside a b)
include h

theorem holds : O.Holds b ↔ O.Holds a := by
  rcases h with rfl | ⟨c, l, rfl, rfl⟩ <;> exact Iff.rfl

theorem hasTable : Phase.hasTable b ↔ Phase.hasTable a := by
  rcases h with rfl | ⟨c, l, rfl, rfl⟩ <;> exact Iff.rfl

theorem parked (ha : O.Parked a) : O.Parked b := by
  rcases h with rfl | ⟨c, l, rfl, rfl⟩ <;> exact ha

theorem loc : Phase.loc b = Phase.loc a := by
  rcases h with rfl | ⟨c, l, rfl, rfl⟩ <;> rfl

theorem chan {c : Chan} (hb : Phase.chan b = some c) : Phase.chan a = some c := by
  rcases h with rfl | ⟨d, l, rfl, rfl⟩
  · exact hb
  · cases hb

theorem run {l : Loc} (ha : a = .run l) : b = .run l := by
  rcases h with rfl | ⟨c, m, rfl, rfl⟩
  · exact ha
  · cases ha

theorem of_run {l : Loc} (hb : b = .run l) : a = .run l := by
  rcases h with rfl | ⟨c, m, rfl, rfl⟩
  · exact hb
  · cases hb

end Phase.Beside

namespace Outline

variable {M O} {g g' : Config P σ Loc Chan} {e : Signal P} {p : P}

theorem not_inside {a : Phase Loc Chan} (hp : O.Parked a) (h : ¬ O.Holds a) :
    ¬ O.inside (Phase.loc a) := by
  cases a with
  | run l => exact h
  | _ => exact hp

theorem Inv.not_both (h : O.Inv g) {q : P} (hpq : p ≠ q) (hp : O.Holds (g.phase p)) :
    ¬ O.Holds (g.phase q) := by
  intro hq
  have := ((h.lk p).mpr hp).symm.trans ((h.lk q).mpr hq)
  exact hpq (Option.some.inj this)

theorem Inv.change (h : O.Inv g) (p : P)
    (hrest : ∀ q, q ≠ p → Phase.Beside (g.phase q) (g'.phase q))
    (hlk : ∀ q, q ≠ p → (g'.lk = some q ↔ g.lk = some q))
    (hlk' : g'.lk = some p ↔ O.Holds (g'.phase p))
    (htable : ∀ q, q ≠ p → (g'.table = some q ↔ g.table = some q))
    (htable' : g'.table = some p ↔ Phase.hasTable (g'.phase p))
    (hparked : O.Parked (g'.phase p)) (hinv : O.inv g'.shared)
    (hknow : O.know p (Phase.loc (g'.phase p)) g'.shared)
    (hstable : ∀ q, q ≠ p → O.know q (Phase.loc (g.phase q)) g'.shared)
    (hchan : ∀ c, Phase.chan (g'.phase p) = some c → O.Attended g' c)
    (hwait : ∀ q c, q ≠ p → Phase.chan (g'.phase q) = some c → O.Attended g c → O.Attended g' c) :
    O.Inv g' where
  lk := fun q => by
    by_cases hq : q = p
    · exact hq ▸ hlk'
    · exact (hlk q hq).trans ((h.lk q).trans (hrest q hq).holds.symm)
  table := fun q => by
    by_cases hq : q = p
    · exact hq ▸ htable'
    · exact (htable q hq).trans ((h.table q).trans (hrest q hq).hasTable.symm)
  parked := fun q => by
    by_cases hq : q = p
    · exact hq ▸ hparked
    · exact (hrest q hq).parked (h.parked q)
  inv := hinv
  know := fun q => by
    by_cases hq : q = p
    · exact hq ▸ hknow
    · rw [(hrest q hq).loc]
      exact hstable q hq
  wait := fun q c hc => by
    by_cases hq : q = p
    · exact hchan c (hq ▸ hc)
    · exact hwait q c hq hc (h.wait q c ((hrest q hq).chan hc))

theorem Attended.step {c : Chan} (h : O.Attended g c)
    (hrest : ∀ q, q ≠ p → Phase.Beside (g.phase q) (g'.phase q))
    (hawait : O.await c g.shared → O.Attended g' c)
    (hown : ∀ l, g.phase p = .run l → O.inside l → O.owes l c → O.Attended g' c) :
    O.Attended g' c := by
  rcases h with h | ⟨q, l, hq, hin, howes⟩
  · exact hawait h
  · by_cases hqp : q = p
    · exact hown l (hqp ▸ hq) hin howes
    · exact Or.inr ⟨q, l, (hrest q hqp).run hq, hin, howes⟩

theorem Inv.lax (h : O.Inv g) : O.lax.Inv g :=
  ⟨h.lk, h.table, h.parked, h.inv, h.know, fun _ _ _ => Or.inl trivial⟩

/-- No lost wakeup: while nobody holds `lk`, a sleeper's condition holds. -/
theorem Inv.await_of_asleep (h : O.Inv g) (hlk : g.lk = none) {c : Chan} {l : Loc}
    (hp : g.phase p = .asleep c l) : O.await c g.shared := by
  rcases h.wait p c (by rw [hp]; rfl) with ha | ⟨q, m, hq, hin, _⟩
  · exact ha
  · have := (h.lk q).mpr (by rwa [hq])
    rw [hlk] at this
    cases this

theorem take_free {q : P} (hq : q ≠ p) : some p = some q ↔ none = some q := by
  simp [hq.symm]

theorem give_up {o : Option P} {q : P} (ho : o = some p) (hq : q ≠ p) :
    none = some q ↔ o = some q := by
  simp [ho, hq.symm]

variable [DecidableEq P]

theorem Inv.move (h : O.Inv g) {a : Phase Loc Chan} {lk' table' : Option P}
    (hlk : ∀ q, q ≠ p → (lk' = some q ↔ g.lk = some q)) (hlk' : lk' = some p ↔ O.Holds a)
    (htable : ∀ q, q ≠ p → (table' = some q ↔ g.table = some q))
    (htable' : table' = some p ↔ Phase.hasTable a) (hparked : O.Parked a)
    (hknow : O.know p (Phase.loc (g.phase p)) g.shared → O.know p (Phase.loc a) g.shared)
    (hchan : ∀ c, Phase.chan a = some c → O.await c g.shared ∨ Phase.chan (g.phase p) = some c)
    (hpaid : ∀ l c q, g.phase p = .run l → O.inside l → O.owes l c →
      Phase.chan (g.phase q) ≠ some c) :
    O.Inv { g with lk := lk', table := table', phase := Function.update g.phase p a } := by
  have hrest (q : P) (hq : q ≠ p) :
      Phase.Beside (g.phase q) (Function.update g.phase p a q) :=
    Or.inl (Function.update_of_ne hq ..)
  have hatt (q : P) (c : Chan) (hq : Phase.chan (g.phase q) = some c) : O.Attended { g with
      lk := lk', table := table', phase := Function.update g.phase p a } c :=
    (h.wait q c hq).step hrest Or.inl fun l hl hin howes => absurd hq (hpaid l c q hl hin howes)
  refine h.change p hrest hlk ?_ htable ?_ ?_ h.inv ?_ (fun q _ => h.know q) (fun c hc => ?_)
    fun q c hq hc _ => hatt q c ((hrest q hq).chan hc)
  · simpa using hlk'
  · simpa using htable'
  · simpa using hparked
  · simpa using hknow (h.know p)
  · simp only [Function.update_self] at hc
    rcases hchan c hc with h1 | h1
    · exact Or.inl h1
    · exact hatt p c h1

theorem Inv.act (hV : O.Valid M) (h : O.Inv g) {l : Loc} {f : σ → σ × Loc}
    (hp : g.phase p = .run l) (hl : M.code p l = .act f) :
    O.Inv { g with
      shared := (f g.shared).1
      phase := Function.update g.phase p (.run (f g.shared).2) } := by
  have hknow : O.know p l g.shared := by
    simpa [hp, Phase.loc] using h.know p
  obtain ⟨hin, hinv, hk, hcov⟩ := hV.act hl h.inv hknow
  have hrest (q : P) (hq : q ≠ p) :
      Phase.Beside (g.phase q) (Function.update g.phase p (.run (f g.shared).2) q) :=
    Or.inl (Function.update_of_ne hq ..)
  have hnew (c : Chan) (hc : O.Covered l g.shared c) : O.Attended { g with
      shared := (f g.shared).1
      phase := Function.update g.phase p (.run (f g.shared).2) } c := by
    rcases hcov c hc with ha | ha
    · exact Or.inl ha
    · exact Or.inr ⟨p, _, Function.update_self .., ha⟩
  refine h.change p hrest (fun _ _ => Iff.rfl) ?_ (fun _ _ => Iff.rfl) ?_ ?_ hinv ?_
    (fun q hq => ?_) (fun c hc => ?_) fun q c _ _ hc => ?_
  · simpa [h.lk p, hp, Holds] using hin
  · simp [h.table p, hp, Phase.hasTable]
  · simp [Parked]
  · simpa [Phase.loc] using hk
  · refine hV.stable (Ne.symm hq) hl (fun hboth => ?_) h.inv hknow (h.know q)
    have hholds : O.Holds (g.phase p) := by
      rw [hp]
      exact hboth.1
    exact not_inside (h.parked q) (h.not_both (Ne.symm hq) hholds) hboth.2
  · simp [Phase.chan] at hc
  · refine hc.step hrest (fun ha => hnew c (Or.inl ha)) fun m hm hin' ho => ?_
    obtain rfl : l = m := Phase.run.inj (hp.symm.trans hm)
    exact hnew c (Or.inr ⟨hin', ho⟩)

theorem Inv.kill (hV : O.Valid M) (h : O.Inv g) (p : P) :
    O.Inv { g with
      shared := M.kill p g.shared
      phase := Function.update g.phase p (Phase.interrupt (g.phase p)) } := by
  obtain ⟨hinv, hk, ha⟩ := hV.kill (p := p) h.inv
  have hb := Phase.beside_interrupt (g.phase p)
  have hrest (q : P) (hq : q ≠ p) :
      Phase.Beside (g.phase q) (Function.update g.phase p (Phase.interrupt (g.phase p)) q) :=
    Or.inl (Function.update_of_ne hq ..)
  have hatt (c : Chan) (hc : O.Attended g c) : O.Attended { g with
      shared := M.kill p g.shared
      phase := Function.update g.phase p (Phase.interrupt (g.phase p)) } c := by
    refine hc.step hrest (fun h1 => Or.inl (ha c h1)) fun m hm hin ho => Or.inr ⟨p, m, ?_, hin, ho⟩
    simpa using hb.run hm
  refine h.change p hrest (fun _ _ => Iff.rfl) ?_ (fun _ _ => Iff.rfl) ?_ ?_ hinv ?_
    (fun q _ => hk q _ (h.know q)) (fun c hc => ?_) fun q c _ _ => hatt c
  · simpa using (h.lk p).trans hb.holds.symm
  · simpa using (h.table p).trans hb.hasTable.symm
  · simpa using hb.parked (h.parked p)
  · simpa [hb.loc] using hk p _ (h.know p)
  · simp only [Function.update_self] at hc
    exact hatt c (h.wait p c (hb.chan hc))

theorem Inv.wakeup [DecidableEq Chan] (hV : O.Valid M) (h : O.Inv g) {l l' : Loc} {c : Chan}
    (hp : g.phase p = .run l) (hl : M.code p l = .wakeup c l') (ht : g.table = none) :
    O.Inv { g with
      phase := Function.update (fun q => Phase.rouse c (g.phase q)) p (.run l') } := by
  have hknow : O.know p l g.shared := by
    simpa [hp, Phase.loc] using h.know p
  obtain ⟨hin, hk, howes⟩ := hV.wakeup hl
  have hrest (q : P) (hq : q ≠ p) : Phase.Beside (g.phase q)
      (Function.update (fun q => Phase.rouse c (g.phase q)) p (.run l') q) := by
    rw [Function.update_of_ne hq]
    exact Phase.beside_rouse c _
  refine h.change p hrest (fun _ _ => Iff.rfl) ?_ (fun _ _ => Iff.rfl) ?_ ?_ h.inv ?_
    (fun q _ => h.know q) (fun d hd => ?_) fun q d hq hd ha => ?_
  · simpa [h.lk p, hp, Holds] using hin
  · simp [h.table p, hp, Phase.hasTable]
  · simp [Parked]
  · simpa [Phase.loc] using hk _ h.inv hknow
  · simp [Phase.chan] at hd
  · simp only [Function.update_of_ne hq] at hd
    -- a process still on its way to sleep on `c` would have the table
    have hne : d ≠ c := by
      rintro rfl
      have := (h.table q).mpr (Phase.chan_rouse hd)
      rw [ht] at this
      cases this
    refine ha.step hrest Or.inl fun m hm hm' ho => ?_
    obtain rfl : l = m := Phase.run.inj (hp.symm.trans hm)
    exact Or.inr ⟨p, l', by simp, hin.mp hm', howes d hne ho⟩

/-- Every step of a program that respects the outline keeps the invariant, if the
process that gives up `lk` owes no sleeper a wakeup. -/
theorem Inv.step [DecidableEq Chan] (hV : O.Valid M) (h : O.Inv g) (hpaid : O.Paid M g e) (hs : Step M g e g') :
    O.Inv g' := by
  cases hs with
  | @acquire p l l' hp hl hlk =>
    obtain ⟨hout, hin, hk⟩ := hV.acquire hl
    refine h.move (fun q hq => hlk ▸ take_free hq) (iff_of_true rfl hin) (fun _ _ => Iff.rfl) ?_
      trivial (fun hknow => hk _ h.inv ?_) (fun c hc => absurd hc nofun) fun m c _ hm hm' => ?_
    · rw [h.table p, hp]
      exact Iff.rfl
    · rwa [hp] at hknow
    · obtain rfl : l = m := Phase.run.inj (hp.symm.trans hm)
      exact absurd hm' hout
  | @release p l l' hp hl =>
    obtain ⟨hin, hout, hk⟩ := hV.release hl
    have hlk : g.lk = some p := (h.lk p).mpr (by rwa [hp])
    refine h.move (fun q hq => give_up hlk hq) (iff_of_false nofun hout) (fun _ _ => Iff.rfl) ?_
      trivial (fun hknow => hk _ h.inv ?_) (fun c hc => absurd hc nofun) fun m c q hm _ ho => ?_
    · rw [h.table p, hp]
      exact Iff.rfl
    · rwa [hp] at hknow
    · obtain rfl : l = m := Phase.run.inj (hp.symm.trans hm)
      exact hpaid p l l' rfl hp hl c ho q
  | wakeup hp hl ht => exact h.wakeup hV hp hl ht
  | @sleep p l c l' hp hl ht =>
    obtain ⟨hin, hout, hpaid', hk⟩ := hV.sleep hl
    have hlk : g.lk = some p := (h.lk p).mpr (by rwa [hp])
    have hknow := h.know p
    rw [hp] at hknow
    refine h.move (fun _ _ => Iff.rfl) (iff_of_true hlk trivial) (fun q hq => ht ▸ take_free hq)
      (iff_of_true rfl trivial) hout (fun _ => (hk _ h.inv hknow).1) (fun d hd => ?_)
      fun m d _ hm _ ho => ?_
    · obtain rfl : c = d := Option.some.inj hd
      exact Or.inl (hk _ h.inv hknow).2
    · obtain rfl : l = m := Phase.run.inj (hp.symm.trans hm)
      exact absurd ho (hpaid' d)
  | @unlock p c l hp =>
    have hlk : g.lk = some p := (h.lk p).mpr (by rw [hp]; trivial)
    have htab : g.table = some p := (h.table p).mpr (by rw [hp]; trivial)
    have hpark := h.parked p
    rw [hp] at hpark
    refine h.move (fun q hq => give_up hlk hq) (iff_of_false nofun nofun) (fun _ _ => Iff.rfl)
      (iff_of_true htab trivial) hpark (fun hknow => ?_) (fun d hd => Or.inr ?_) fun m d _ hm => ?_
    · rwa [hp] at hknow
    · rw [hp]
      exact hd
    · cases hp.symm.trans hm
  | @doze p c l hp =>
    have hlk : ¬ g.lk = some p := fun hlk => by simpa [hp, Holds] using (h.lk p).mp hlk
    have htab : g.table = some p := (h.table p).mpr (by rw [hp]; trivial)
    have hpark := h.parked p
    rw [hp] at hpark
    refine h.move (fun _ _ => Iff.rfl) (iff_of_false hlk nofun) (fun q hq => give_up htab hq)
      (iff_of_false nofun nofun) hpark (fun hknow => ?_) (fun d hd => Or.inr ?_) fun m d _ hm => ?_
    · rwa [hp] at hknow
    · rw [hp]
      exact hd
    · cases hp.symm.trans hm
  | @resume p l hp ht =>
    have hlk : ¬ g.lk = some p := fun hlk => by simpa [hp, Holds] using (h.lk p).mp hlk
    have hpark := h.parked p
    rw [hp] at hpark
    refine h.move (fun _ _ => Iff.rfl) (iff_of_false hlk hpark) (fun _ _ => Iff.rfl) ?_
      trivial (fun hknow => ?_) (fun c hc => absurd hc nofun) fun m c _ hm => ?_
    · rw [h.table p, hp]
      exact Iff.rfl
    · rwa [hp] at hknow
    · cases hp.symm.trans hm
  | act hp hl => exact h.act hV hp hl
  | @choose p l next l' hp hl hn =>
    obtain ⟨hout, hout', hk⟩ := hV.choose hl hn
    refine h.move (fun _ _ => Iff.rfl) ?_ (fun _ _ => Iff.rfl) ?_ trivial
      (fun hknow => hk _ h.inv ?_) (fun c hc => absurd hc nofun) fun m c _ hm hm' => ?_
    · rw [h.lk p, hp]
      exact iff_of_false hout hout'
    · rw [h.table p, hp]
      exact Iff.rfl
    · rwa [hp] at hknow
    · obtain rfl : l = m := Phase.run.inj (hp.symm.trans hm)
      exact absurd hm' hout
  | kill p ht => exact h.kill hV p

end Outline

end Monitor

end Xv6.Lib
