import Xv6.Lib.Monitor

/-!
# Sleep locks

`acquiresleep`, `releasesleep` and `holdingsleep` of `sleeplock.c` around `lk->lk`, for any
processes `P`. A process gives back only a lock that it has. Between the calls it may wake
the sleepers on any other channel, of type `C`.
-/

namespace Xv6.Sleeplock
open Lib Monitor

inductive Chan (C : Type)
  | lk
  | other (c : C)
  deriving DecidableEq

structure Shared (P : Type) where
  locked : Bool
  pid : ℕ
  /-- The process that has set `locked`; no code reads it. -/
  owner : Option P

inductive Loc (C : Type)
  | out
  | enter
  | test
  | wait
  | back
  | take
  | taken
  | own
  | leave
  | clear
  | wake
  | cleared
  /-- `wakeup` on another channel, with or without the sleep lock. -/
  | elsewhere (owned : Bool) (c : C)
  | ask (owned : Bool)
  | look (owned : Bool)
  | looked (owned : Bool) (r : Bool)

variable {P C : Type}

def home : Bool → Loc C
  | true => .own
  | false => .out

def Free : Loc C → Prop
  | .enter | .elsewhere false _ | .ask false => True
  | _ => False

def Owning : Loc C → Prop
  | .leave | .elsewhere true _ | .ask true => True
  | _ => False

def code (pid : P → ℕ) (p : P) : Loc C → Instr (Shared P) (Loc C) (Chan C)
  | .out => .choose Free
  | .own => .choose Owning
  -- acquiresleep
  | .enter => .acquire .test
  | .test => .act fun s => if s.locked then (s, .wait) else (s, .take)
  | .wait => .sleep .lk .back
  | .back => .acquire .test
  | .take => .act fun _ => (⟨true, pid p, some p⟩, .taken)
  | .taken => .release .own
  -- releasesleep
  | .leave => .acquire .clear
  | .clear => .act fun _ => (⟨false, 0, none⟩, .wake)
  | .wake => .wakeup .lk .cleared
  | .cleared => .release .out
  -- holdingsleep
  | .ask b => .acquire (.look b)
  | .look b => .act fun s => (s, .looked b s.locked)
  | .looked b _ => .release (home b)
  | .elsewhere b c => .wakeup (.other c) (home b)

def monitor (pid : P → ℕ) : Monitor P (Shared P) (Loc C) (Chan C) where
  code := code pid
  kill := fun _ s => s

/-- A process has the sleep lock from where it sets `locked` to where it clears it. -/
def Loc.Owns : Loc C → Prop
  | .taken | .own | .leave | .clear | .elsewhere true _ | .ask true | .look true
  | .looked true _ => True
  | _ => False

def inside : Loc C → Prop
  | .test | .wait | .take | .taken | .clear | .wake | .cleared | .look _ | .looked _ _ => True
  | _ => False

def Shown : Loc C → Shared P → Prop
  | .wait, s => s.locked = true
  | .take, s => s.locked = false
  | .looked true r, _ => r = true
  | _, _ => True

def owes : Loc C → Chan C → Prop
  | .wake, c => c = .lk
  | _, _ => False

structure Fair (pid : P → ℕ) (s : Shared P) : Prop where
  locked : s.locked = s.owner.isSome
  pid : ∀ p, s.owner = some p → s.pid = pid p

def outline (pid : P → ℕ) : Outline P (Shared P) (Loc C) (Chan C) where
  inside := inside
  inv := Fair pid
  know p l s := (l.Owns ↔ s.owner = some p) ∧ Shown l s
  owes := owes
  await
    | .lk, s => s.locked = true
    | .other _, _ => True

variable {pid : P → ℕ} {p q : P} {s : Shared P} {l m : Loc C}

theorem home_outside (b : Bool) : ¬ inside (home b : Loc C) := by
  cases b <;> exact id

theorem Free.outside (h : Free l) (s : Shared P) : ¬ inside l ∧ ¬ l.Owns ∧ Shown l s := by
  cases l with
  | enter => exact ⟨id, id, trivial⟩
  | elsewhere b c =>
    cases b
    · exact ⟨id, id, trivial⟩
    · exact h.elim
  | ask b =>
    cases b
    · exact ⟨id, id, trivial⟩
    · exact h.elim
  | _ => exact h.elim

theorem Owning.outside (h : Owning l) (s : Shared P) : ¬ inside l ∧ l.Owns ∧ Shown l s := by
  cases l with
  | leave => exact ⟨id, trivial, trivial⟩
  | elsewhere b c =>
    cases b
    · exact h.elim
    · exact ⟨id, trivial, trivial⟩
  | ask b =>
    cases b
    · exact h.elim
    · exact ⟨id, trivial, trivial⟩
  | _ => exact h.elim

theorem act_sound {f : Shared P → Shared P × Loc C} (hl : code pid p l = .act f)
    (hs : Fair pid s) (hk : (outline pid).know p l s) :
    inside l ∧ inside (f s).2 ∧ Fair pid (f s).1 ∧ (outline pid).know p (f s).2 (f s).1 ∧
      ∀ c, (outline pid).await c s ∨ owes l c →
        (outline pid).await c (f s).1 ∨ owes (f s).2 c := by
  cases l with
  | test =>
    cases hl
    dsimp only
    cases hlocked : s.locked with
    | true => exact ⟨trivial, trivial, hs, ⟨hk.1, hlocked⟩, fun c => Or.imp_right False.elim⟩
    | false => exact ⟨trivial, trivial, hs, ⟨hk.1, hlocked⟩, fun c => Or.imp_right False.elim⟩
  | take =>
    cases hl
    refine ⟨trivial, trivial, ⟨rfl, fun q hq => ?_⟩, ⟨iff_of_true trivial rfl, trivial⟩,
      fun c _ => Or.inl ?_⟩
    · exact congrArg pid (Option.some.inj hq)
    · cases c
      · rfl
      · trivial
  | clear =>
    cases hl
    refine ⟨trivial, trivial, ⟨rfl, nofun⟩, ⟨iff_of_false id nofun, trivial⟩, fun c _ => ?_⟩
    cases c with
    | lk => exact Or.inr rfl
    | other c => exact Or.inl trivial
  | look b =>
    cases hl
    cases b with
    | false => exact ⟨trivial, trivial, hs, ⟨hk.1, trivial⟩, fun c => Or.imp_right False.elim⟩
    | true =>
      refine ⟨trivial, trivial, hs, ⟨hk.1, ?_⟩, fun c => Or.imp_right False.elim⟩
      change s.locked = true
      rw [hs.locked, hk.1.mp trivial]
      rfl
  | _ => cases hl

theorem act_stable {f : Shared P → Shared P × Loc C} (hpq : p ≠ q) (hl : code pid p l = .act f)
    (hout : ¬ inside m) (hs : Fair pid s) (hk : (outline pid).know p l s)
    (hm : (outline pid).know q m s) : (outline pid).know q m (f s).1 := by
  have hshown : ∀ t : Shared P, Shown m t := fun t => by
    cases m with
    | wait => exact absurd trivial hout
    | take => exact absurd trivial hout
    | looked b r => exact absurd trivial hout
    | _ => trivial
  have hne : some p ≠ some q := fun h => hpq (Option.some.inj h)
  refine ⟨?_, hshown _⟩
  cases l with
  | test =>
    cases hl
    dsimp only
    split_ifs <;> exact hm.1
  | take =>
    cases hl
    have hnone : s.owner = none := by
      have := hs.locked.symm.trans hk.2
      simpa using this
    refine iff_of_false (fun ho => ?_) hne
    cases hnone.symm.trans (hm.1.mp ho)
  | clear =>
    cases hl
    refine iff_of_false (fun ho => hne ?_) nofun
    exact (hk.1.mp trivial).symm.trans (hm.1.mp ho)
  | look b =>
    cases hl
    exact hm.1
  | _ => cases hl

theorem valid : (outline pid : Outline P _ (Loc C) (Chan C)).Valid (monitor pid) where
  acquire {p l l'} hl := by
    cases l with
    | enter =>
      cases hl
      exact ⟨id, trivial, fun _ _ => id⟩
    | back =>
      cases hl
      exact ⟨id, trivial, fun _ _ => id⟩
    | leave =>
      cases hl
      exact ⟨id, trivial, fun _ _ => id⟩
    | ask b =>
      cases hl
      refine ⟨id, trivial, fun s _ hk => ⟨?_, trivial⟩⟩
      cases b <;> exact hk.1
    | _ => cases hl
  release {p l l'} hl := by
    cases l with
    | taken =>
      cases hl
      exact ⟨trivial, id, fun _ _ => id⟩
    | cleared =>
      cases hl
      exact ⟨trivial, id, fun _ _ => id⟩
    | looked b r =>
      cases hl
      refine ⟨trivial, home_outside b, fun s _ hk => ?_⟩
      cases b <;> exact ⟨hk.1, trivial⟩
    | _ => cases hl
  wakeup {p l c l'} hl := by
    cases l with
    | wake =>
      cases hl
      exact ⟨Iff.rfl, fun _ _ => id, fun c hc ho => absurd ho hc⟩
    | elsewhere b c =>
      cases hl
      refine ⟨iff_of_false id (home_outside b), fun s _ hk => ?_, fun _ _ => False.elim⟩
      cases b <;> exact ⟨hk.1, trivial⟩
    | _ => cases hl
  sleep {p l c l'} hl := by
    cases l with
    | wait =>
      cases hl
      exact ⟨trivial, id, fun _ => id, fun s _ hk => ⟨⟨hk.1, trivial⟩, hk.2⟩⟩
    | _ => cases hl
  act {p l f s} hl hs hk := by
    obtain ⟨hin, hin', hs', hk', hcov⟩ := act_sound hl hs hk
    refine ⟨iff_of_true hin hin', hs', hk', fun c hc => ?_⟩
    exact (hcov c (hc.imp_right And.right)).imp_right fun ho => ⟨hin', ho⟩
  choose {p l next l'} hl hn := by
    cases l with
    | out =>
      cases hl
      refine ⟨id, fun hin => ?_, fun s _ hk => ?_⟩
      · exact (hn.outside (⟨false, 0, none⟩ : Shared P)).1 hin
      · obtain ⟨-, hout, hshown⟩ := hn.outside s
        exact ⟨iff_of_false hout (mt hk.1.mpr id), hshown⟩
    | own =>
      cases hl
      refine ⟨id, fun hin => ?_, fun s _ hk => ?_⟩
      · exact (hn.outside (⟨false, 0, none⟩ : Shared P)).1 hin
      · obtain ⟨-, hown, hshown⟩ := hn.outside s
        exact ⟨iff_of_true hown (hk.1.mp trivial), hshown⟩
    | _ => cases hl
  stable {p q l m f s} hpq hl hnot hs hk hm :=
    act_stable hpq hl (fun hin => hnot ⟨(act_sound hl hs hk).1, hin⟩) hs hk hm
  kill {p s} hs := ⟨hs, fun _ _ => id, fun _ => id⟩

abbrev Config (P C : Type) := Lib.Config P (Shared P) (Loc C) (Chan C)

structure Start (g : Config P C) : Prop where
  shared : g.shared = ⟨false, 0, none⟩
  lk : g.lk = none
  table : g.table = none
  phase : ∀ p, g.phase p = .run .out

abbrev Step [DecidableEq P] [DecidableEq C] (pid : P → ℕ) :
    Config P C → Signal P → Config P C → Prop := Monitor.Step (monitor pid)

theorem Start.inv {g : Config P C} (h : Start g) : (outline pid).Inv g := by
  refine ⟨fun p => ?_, fun p => ?_, fun p => ?_, ?_, fun p => ?_, fun p c hc => ?_⟩
  · rw [h.lk, h.phase p]
    exact iff_of_false nofun id
  · rw [h.table, h.phase p]
    exact iff_of_false nofun id
  · rw [h.phase p]
    trivial
  · rw [h.shared]
    exact ⟨rfl, nofun⟩
  · rw [h.phase p, h.shared]
    exact ⟨iff_of_false id nofun, trivial⟩
  · rw [h.phase p] at hc
    cases hc

def Has (a : Phase (Loc C) (Chan C)) : Prop := (Phase.loc a).Owns

theorem paid (g : Config P C) (e : Signal P) : (outline pid).Paid (monitor pid) g e := by
  intro p l l' _ _ hl c ho
  cases l with
  | wake => cases hl
  | _ => exact ho.elim

variable [DecidableEq P] [DecidableEq C] {g₀ g : Config P C} {es : List (Signal P)}

theorem Start.reach (h : Start g₀) (hrun : Runs (Step pid) g₀ es g) : (outline pid).Inv g :=
  hrun.invariant (fun g e _ hi hs => hi.step valid (paid g e) hs) h.inv

/-- One process at a time has the lock, with `locked` and `pid` set; and while `lk->lk` and
`ptable.lock` are free nobody sleeps on a lock that nobody has. -/
theorem sleeplock_exclusive (h : Start g₀) (hrun : Runs (Step pid) g₀ es g) :
    (∀ p q, Has (g.phase p) → Has (g.phase q) → p = q) ∧
      (∀ p, Has (g.phase p) → g.shared.locked = true ∧ g.shared.pid = pid p) ∧
      (g.lk = none → g.table = none → ∀ p l, g.phase p = .asleep .lk l →
        g.shared.locked = true) := by
  have hinv := h.reach hrun
  have hown : ∀ p, Has (g.phase p) → g.shared.owner = some p := fun p hp =>
    (hinv.know p).1.mp hp
  refine ⟨fun p q hp hq => ?_, fun p hp => ?_, fun hlk _ p l hp => hinv.await_of_asleep hlk hp⟩
  · exact Option.some.inj ((hown p hp).symm.trans (hown q hq))
  · refine ⟨?_, hinv.inv.pid p (hown p hp)⟩
    rw [hinv.inv.locked, hown p hp]
    rfl

def fresh : Config (Fin 2) Empty := ⟨⟨false, 0, none⟩, none, none, fun _ => .run .out⟩

/-- Process 1 sleeps on the lock that process 0 has. -/
theorem sleeplock_exclusive_two : ∃ g es, Runs (Step fun p : Fin 2 => p.val) fresh es g ∧
    Has (g.phase 0) ∧ g.phase 1 = .asleep .lk .back ∧ g.shared.locked = true := by
  have owner := ((((Runs.nil (R := Step fun p : Fin 2 => p.val) fresh).snoc
    (.choose (p := 0) rfl rfl (show Free .enter from trivial))).snoc
    (.acquire (p := 0) rfl rfl rfl)).snoc
    (.act (p := 0) rfl rfl)).snoc
    (.act (p := 0) rfl rfl)
  have sleeper := (((((((owner.snoc
    (.release (p := 0) rfl rfl)).snoc
    (.choose (p := 1) rfl rfl (show Free .enter from trivial))).snoc
    (.acquire (p := 1) rfl rfl rfl)).snoc
    (.act (p := 1) rfl rfl)).snoc
    (.sleep (p := 1) rfl rfl rfl)).snoc
    (.unlock (p := 1) rfl))).snoc
    (.doze (p := 1) rfl)
  exact ⟨_, _, sleeper, trivial, rfl,
    (sleeplock_exclusive ⟨rfl, rfl, rfl, fun _ => rfl⟩ sleeper).2.2 rfl rfl 1 .back rfl⟩

end Xv6.Sleeplock
