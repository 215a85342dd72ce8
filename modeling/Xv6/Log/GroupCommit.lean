import Mathlib.Data.Finset.Card
import Xv6.Lib.Monitor
import Xv6.Log.Header

/-!
# Group commit

`begin_op`, `log_write`, `end_op` and `commit` of `log.c` as programs around `log.lock`,
for any processes `P`, with the sleep and the wakeups on `&log`. The shared state also
names the processes inside an operation and the one that has a commit to run.
The tests of `log_write` and all of `commit` run without the lock.
-/

namespace Xv6.GroupCommit
open Lib
open Log (Header)

structure Shared (P : Type) where
  lh : Header
  outstanding : ℤ
  committing : Bool
  ops : Finset P
  committer : Option P

inductive Loc
  | idle
  | callBegin
  | beginOp
  | waitSpace
  | began
  | op
  | logTest (b : ℕ)
  | callAppend (b : ℕ)
  | append (b : ℕ)
  | appended
  | callEnd
  | endOp
  | wakeOthers
  | ended
  | doCommit
  | commit
  | writeLog
  | callDone
  | done
  | wakeAll
  | panicTooBig
  | panicOutside
  | panicCommitting

def NoSpace (n : ℕ) (outstanding : ℤ) : Prop := n + (outstanding + 1) * MAXOPBLOCKS > LOGSIZE

instance (n : ℕ) (outstanding : ℤ) : Decidable (NoSpace n outstanding) :=
  inferInstanceAs (Decidable (_ > _))

def InOp : Loc → Prop
  | .logTest _ | .callEnd => True
  | _ => False

variable {P : Type}

def code [DecidableEq P] (size : ℕ) (p : P) : Loc → Instr (Shared P) Loc Unit
  | .idle => .choose (· = .callBegin)
  -- begin_op
  | .callBegin => .acquire .beginOp
  | .beginOp => .act fun s =>
      if s.committing then (s, .waitSpace)
      else if NoSpace s.lh.n s.outstanding then (s, .waitSpace)
      else ({ s with outstanding := s.outstanding + 1, ops := insert p s.ops }, .began)
  | .waitSpace => .sleep () .callBegin
  | .began => .release .op
  | .op => .choose InOp
  -- log_write
  | .logTest b => .act fun s =>
      if s.lh.n ≥ LOGSIZE ∨ s.lh.n + 1 ≥ size then (s, .panicTooBig)
      else if s.outstanding < 1 then (s, .panicOutside)
      else (s, .callAppend b)
  | .callAppend b => .acquire (.append b)
  | .append b => .act fun s => ({ s with lh := s.lh.add b }, .appended)
  | .appended => .release .op
  -- end_op
  | .callEnd => .acquire .endOp
  | .endOp => .act fun s =>
      let s' := { s with outstanding := s.outstanding - 1, ops := s.ops.erase p }
      if s.committing then (s', .panicCommitting)
      else if s'.outstanding = 0 then
        ({ s' with committing := true, committer := some p }, .doCommit)
      else (s', .wakeOthers)
  | .wakeOthers => .wakeup () .ended
  | .ended => .release .idle
  | .doCommit => .release .commit
  -- commit
  | .commit => .act fun s => if s.lh.n > 0 then (s, .writeLog) else (s, .callDone)
  | .writeLog => .act fun s => ({ s with lh := s.lh.clear }, .callDone)
  -- end_op
  | .callDone => .acquire .done
  | .done => .act fun s => ({ s with committing := false, committer := none }, .wakeAll)
  | .wakeAll => .wakeup () .ended
  | .panicTooBig | .panicOutside | .panicCommitting => .choose fun _ => False

def monitor [DecidableEq P] (size : ℕ) : Monitor P (Shared P) Loc Unit where
  code := code size
  kill := fun _ s => s

def inside : Loc → Prop
  | .beginOp | .waitSpace | .began | .append _ | .appended | .endOp | .wakeOthers | .ended
  | .doCommit | .done | .wakeAll | .panicCommitting => True
  | _ => False

structure Inv (s : Shared P) : Prop where
  outstanding : s.outstanding = s.ops.card
  committer : s.committing ↔ s.committer.isSome
  alone : s.committing → s.ops = ∅
  empty : s.ops = ∅ → s.committing = false → s.lh.n = 0
  nodup : s.lh.blocks.Nodup

def active : Loc → Prop
  | .began | .op | .logTest _ | .callAppend _ | .append _ | .appended | .callEnd | .endOp
  | .panicTooBig | .panicOutside => True
  | _ => False

def fact (p : P) : Loc → Shared P → Prop
  | .doCommit, s | .commit, s | .writeLog, s => s.committer = some p
  | .callDone, s | .done, s => s.committer = some p ∧ s.lh.n = 0
  | .waitSpace, s => s.committing ∨ NoSpace s.lh.n s.outstanding
  | .panicCommitting, _ => False
  | _, _ => True

def know (p : P) (l : Loc) (s : Shared P) : Prop := (p ∈ s.ops ↔ active l) ∧ fact p l s

def owes : Loc → Prop
  | .wakeOthers | .wakeAll => True
  | _ => False

def outline : Monitor.Outline P (Shared P) Loc Unit where
  inside := inside
  inv := Inv
  know := know
  owes := fun l _ => owes l
  await := fun _ s => s.committing ∨ NoSpace s.lh.n s.outstanding

variable {p q : P} {s t : Shared P} {l m : Loc}

theorem Inv.not_committing (h : Inv s) (hp : p ∈ s.ops) : s.committing = false := by
  rw [Bool.eq_false_iff]
  intro hc
  rw [h.alone hc] at hp
  exact absurd hp (Finset.notMem_empty p)

theorem Inv.committing_of (h : Inv s) (hp : s.committer = some p) : s.committing = true :=
  h.committer.mpr (by rw [hp]; rfl)

theorem Inv.committer_ne (h : Inv s) (hc : s.committing = false) : s.committer ≠ some q :=
  fun hq => absurd ((h.committing_of hq).symm.trans hc) nofun

theorem NoSpace.mono {n k : ℕ} {a b : ℤ} (h : NoSpace n a) (hn : n ≤ k) (hab : a ≤ b) :
    NoSpace k b := by
  simp only [NoSpace, MAXOPBLOCKS, LOGSIZE] at h ⊢
  omega

structure Sound (p : P) (l : Loc) (s : Shared P) (r : Shared P × Loc) : Prop where
  side : inside l ↔ inside r.2
  inv : Inv r.1
  own : know p r.2 r.1
  attend : (s.committing ∨ NoSpace s.lh.n s.outstanding) →
    (r.1.committing ∨ NoSpace r.1.lh.n r.1.outstanding) ∨ inside r.2 ∧ owes r.2
  ops : ∀ q, q ≠ p → (q ∈ r.1.ops ↔ q ∈ s.ops)
  others : ∀ q m, q ≠ p → ¬ (inside l ∧ inside m) → fact q m s → fact q m r.1

theorem Sound.look (hs : Inv s) (hside : inside l ↔ inside m) (hk : know p m s) :
    Sound p l s (s, m) where
  side := hside
  inv := hs
  own := hk
  attend := Or.inl
  ops _ _ := Iff.rfl
  others _ _ _ _ := id

theorem fact_outside (hm : ¬ inside m) (hc : s.committer = some q → t.committer = some q)
    (hn : s.committer = some q → s.lh.n = 0 → t.lh.n = 0) (h : fact q m s) : fact q m t := by
  cases m with
  | commit => exact hc h
  | writeLog => exact hc h
  | callDone => exact ⟨hc h.1, hn h.1 h.2⟩
  | doCommit => exact absurd trivial hm
  | done => exact absurd trivial hm
  | waitSpace => exact absurd trivial hm
  | panicCommitting => exact h
  | _ => trivial

theorem append_sound (hs : Inv s) {b : ℕ} (hk : know p (.append b) s) :
    Sound p (.append b) s ({ s with lh := s.lh.add b }, .appended) := by
  have hp : p ∈ s.ops := hk.1.mpr trivial
  have hc := hs.not_committing hp
  have hle : s.lh.n ≤ (s.lh.add b).n := by
    rw [Header.add]
    dsimp only
    split_ifs <;> omega
  refine ⟨Iff.rfl, ⟨hs.outstanding, hs.committer, hs.alone, fun h => ?_, Header.add_nodup hs.nodup⟩,
    ⟨iff_of_true hp trivial, trivial⟩, fun h => Or.inl (h.imp_right (·.mono hle le_rfl)),
    fun _ _ => Iff.rfl, fun q m hq hnot => ?_⟩
  · exact absurd (h ▸ hp) (Finset.notMem_empty p)
  · exact fact_outside (fun hm => hnot ⟨trivial, hm⟩) id fun h => absurd h (hs.committer_ne hc)

theorem logTest_sound (hs : Inv s) {b size : ℕ} (hk : know p (.logTest b) s) :
    Sound p (.logTest b) s (if s.lh.n ≥ LOGSIZE ∨ s.lh.n + 1 ≥ size then (s, .panicTooBig)
      else if s.outstanding < 1 then (s, .panicOutside)
      else (s, .callAppend b)) := by
  have hp : p ∈ s.ops := hk.1.mpr trivial
  split_ifs <;> exact .look hs Iff.rfl ⟨iff_of_true hp trivial, trivial⟩

theorem commit_sound (hs : Inv s) (hk : know p .commit s) :
    Sound p .commit s (if s.lh.n > 0 then (s, .writeLog) else (s, .callDone)) := by
  by_cases hn : s.lh.n > 0
  · rw [if_pos hn]
    exact .look hs Iff.rfl ⟨hk.1, hk.2⟩
  · rw [if_neg hn]
    exact .look hs Iff.rfl ⟨hk.1, hk.2, Nat.eq_zero_of_not_pos hn⟩

theorem writeLog_sound (hs : Inv s) (hk : know p .writeLog s) :
    Sound p .writeLog s ({ s with lh := s.lh.clear }, .callDone) := by
  have hc := hs.committing_of hk.2
  refine ⟨Iff.rfl, ⟨hs.outstanding, hs.committer, hs.alone, fun _ _ => rfl, ?_⟩,
    ⟨hk.1, hk.2, rfl⟩, fun _ => Or.inl (Or.inl hc), fun _ _ => Iff.rfl, fun q m hq _ h => ?_⟩
  · rw [Header.blocks_nil (show s.lh.clear.n = 0 from rfl)]
    exact List.nodup_nil
  · cases m with
    | callDone => exact ⟨h.1, rfl⟩
    | done => exact ⟨h.1, rfl⟩
    | waitSpace => exact Or.inl hc
    | _ => exact h

theorem done_sound (hs : Inv s) (hk : know p .done s) :
    Sound p .done s ({ s with committing := false, committer := none }, .wakeAll) := by
  have hp : p ∉ s.ops := fun h => hk.1.mp h
  refine ⟨Iff.rfl, ⟨hs.outstanding, by simp, fun h => absurd h nofun, fun _ _ => hk.2.2, hs.nodup⟩,
    ⟨iff_of_false hp id, trivial⟩, fun _ => Or.inr ⟨trivial, trivial⟩, fun _ _ => Iff.rfl,
    fun q m hq hnot => fact_outside (fun hm => hnot ⟨trivial, hm⟩) (fun h => ?_) fun _ => id⟩
  exact absurd (Option.some.inj (h.symm.trans hk.2.1)) hq

variable [DecidableEq P]

theorem beginOp_sound (hs : Inv s) (hk : know p .beginOp s) :
    Sound p .beginOp s (if s.committing then (s, .waitSpace)
      else if NoSpace s.lh.n s.outstanding then (s, .waitSpace)
      else ({ s with outstanding := s.outstanding + 1, ops := insert p s.ops }, .began)) := by
  have hp : p ∉ s.ops := fun h => hk.1.mp h
  by_cases hc : s.committing
  · rw [if_pos hc]
    exact .look hs Iff.rfl ⟨iff_of_false hp id, Or.inl hc⟩
  · rw [if_neg hc]
    by_cases hn : NoSpace s.lh.n s.outstanding
    · rw [if_pos hn]
      exact .look hs Iff.rfl ⟨iff_of_false hp id, Or.inr hn⟩
    · rw [if_neg hn]
      refine ⟨Iff.rfl, ⟨?_, hs.committer, fun h => absurd h hc, fun h => ?_, hs.nodup⟩,
        ⟨iff_of_true (Finset.mem_insert_self ..) trivial, trivial⟩, fun h => ?_, fun q hq => ?_,
        fun q m hq hnot => fact_outside (fun hm => hnot ⟨trivial, hm⟩) id fun _ => id⟩
      · have := hs.outstanding
        have := Finset.card_insert_of_notMem hp
        dsimp only
        omega
      · exact absurd h (Finset.insert_ne_empty p s.ops)
      · exact h.elim (absurd · hc) (absurd · hn)
      · exact Finset.mem_insert.trans (or_iff_right hq)

theorem endOp_sound (hs : Inv s) (hk : know p .endOp s) :
    Sound p .endOp s
      (let s' := { s with outstanding := s.outstanding - 1, ops := s.ops.erase p }
      if s.committing then (s', .panicCommitting)
      else if s'.outstanding = 0 then
        ({ s' with committing := true, committer := some p }, .doCommit)
      else (s', .wakeOthers)) := by
  have hp : p ∈ s.ops := hk.1.mpr trivial
  have hc := hs.not_committing hp
  have hcard : (s.ops.erase p).card = s.outstanding - 1 := by
    have := hs.outstanding
    have := Finset.card_erase_add_one hp
    omega
  have hout : p ∉ s.ops.erase p := Finset.notMem_erase p _
  have hops (q : P) (hq : q ≠ p) : q ∈ s.ops.erase p ↔ q ∈ s.ops := by
    simp [hq]
  dsimp only
  rw [if_neg (by simp [hc])]
  by_cases hlast : s.outstanding - 1 = 0
  · rw [if_pos hlast]
    refine ⟨Iff.rfl, ⟨hcard.symm, by simp, fun _ => ?_, fun _ h => absurd h nofun, hs.nodup⟩,
      ⟨iff_of_false hout id, rfl⟩, fun _ => Or.inl (Or.inl rfl), hops, fun q m hq hnot => ?_⟩
    · exact Finset.card_eq_zero.mp (Int.natCast_eq_zero.mp (hcard.trans hlast))
    · exact fact_outside (fun hm => hnot ⟨trivial, hm⟩) (fun h => absurd h (hs.committer_ne hc))
        fun _ => id
  · rw [if_neg hlast]
    refine ⟨Iff.rfl, ⟨hcard.symm, hs.committer, fun h => absurd (h.symm.trans hc) nofun, fun h => ?_,
      hs.nodup⟩, ⟨iff_of_false hout id, trivial⟩, fun _ => Or.inr ⟨trivial, trivial⟩, hops,
      fun q m hq hnot => fact_outside (fun hm => hnot ⟨trivial, hm⟩) id fun _ => id⟩
    have h0 : (s.ops.erase p).card = 0 := Finset.card_eq_zero.mpr h
    omega

theorem act_sound {size : ℕ} {f : Shared P → Shared P × Loc} (hl : code size p l = .act f)
    (hs : Inv s) (hk : know p l s) : Sound p l s (f s) := by
  cases l with
  | beginOp =>
    cases hl
    exact beginOp_sound hs hk
  | logTest b =>
    cases hl
    exact logTest_sound hs hk
  | append b =>
    cases hl
    exact append_sound hs hk
  | endOp =>
    cases hl
    exact endOp_sound hs hk
  | commit =>
    cases hl
    exact commit_sound hs hk
  | writeLog =>
    cases hl
    exact writeLog_sound hs hk
  | done =>
    cases hl
    exact done_sound hs hk
  | _ => cases hl

theorem valid (size : ℕ) : (outline (P := P)).Valid (monitor size) where
  acquire {p l l'} hl := by
    cases l with
    | callBegin =>
      cases hl
      exact ⟨id, trivial, fun s _ hk => hk⟩
    | callAppend b =>
      cases hl
      exact ⟨id, trivial, fun s _ hk => hk⟩
    | callEnd =>
      cases hl
      exact ⟨id, trivial, fun s _ hk => hk⟩
    | callDone =>
      cases hl
      exact ⟨id, trivial, fun s _ hk => hk⟩
    | _ => cases hl
  release {p l l'} hl := by
    cases l with
    | began =>
      cases hl
      exact ⟨trivial, id, fun s _ hk => hk⟩
    | appended =>
      cases hl
      exact ⟨trivial, id, fun s _ hk => hk⟩
    | ended =>
      cases hl
      exact ⟨trivial, id, fun s _ hk => hk⟩
    | doCommit =>
      cases hl
      exact ⟨trivial, id, fun s _ hk => hk⟩
    | _ => cases hl
  wakeup {p l c l'} hl := by
    cases l with
    | wakeOthers =>
      cases hl
      exact ⟨Iff.rfl, fun s _ hk => hk, fun _ hc => absurd rfl hc⟩
    | wakeAll =>
      cases hl
      exact ⟨Iff.rfl, fun s _ hk => hk, fun _ hc => absurd rfl hc⟩
    | _ => cases hl
  sleep {p l c l'} hl := by
    cases l with
    | waitSpace =>
      cases hl
      exact ⟨trivial, id, fun _ => id, fun s _ hk => ⟨⟨hk.1, trivial⟩, hk.2⟩⟩
    | _ => cases hl
  act {p l f s} hl hs hk := by
    have h := act_sound hl hs hk
    refine ⟨h.side, h.inv, h.own, fun c hc => ?_⟩
    rcases hc with hc | ⟨hin, ho⟩
    · exact h.attend hc
    · cases l with
      | wakeOthers => cases hl
      | wakeAll => cases hl
      | _ => exact ho.elim
  choose {p l next l'} hl hn := by
    cases l with
    | idle =>
      cases hl
      cases hn
      exact ⟨id, id, fun s _ hk => hk⟩
    | op =>
      cases hl
      cases l' with
      | logTest b => exact ⟨id, id, fun s _ hk => hk⟩
      | callEnd => exact ⟨id, id, fun s _ hk => hk⟩
      | _ => exact hn.elim
    | panicTooBig =>
      cases hl
      exact hn.elim
    | panicOutside =>
      cases hl
      exact hn.elim
    | panicCommitting =>
      cases hl
      exact hn.elim
    | _ => cases hl
  stable {p q l m f s} hpq hl hnot hs hk hm := by
    have h := act_sound hl hs hk
    exact ⟨(h.ops q (Ne.symm hpq)).trans hm.1, h.others q m (Ne.symm hpq) hnot hm.2⟩
  kill hs := ⟨hs, fun _ _ => id, fun _ => id⟩

theorem paid {size : ℕ} {g : Config P (Shared P) Loc Unit} {e : Signal P} :
    outline.Paid (monitor size) g e := by
  intro p l l' _ _ hl c ho
  cases l with
  | wakeOthers => cases hl
  | wakeAll => cases hl
  | _ => exact ho.elim

def Start (g : Config P (Shared P) Loc Unit) : Prop :=
  g.shared.lh.n = 0 ∧ g.shared.outstanding = 0 ∧ g.shared.committing = false ∧
    g.shared.ops = ∅ ∧ g.shared.committer = none ∧ g.lk = none ∧ g.table = none ∧
    ∀ p, g.phase p = .run .idle

omit [DecidableEq P] in
theorem start_inv {g : Config P (Shared P) Loc Unit} (h : Start g) : outline.Inv g := by
  obtain ⟨hn, hout, hc, hops, hcm, hlk, ht, hidle⟩ := h
  refine ⟨fun p => ?_, fun p => ?_, fun p => ?_, ⟨?_, ?_, ?_, fun _ _ => hn, ?_⟩, fun p => ?_,
    fun p c hp => ?_⟩
  · rw [hlk, hidle p]
    exact iff_of_false nofun id
  · rw [ht, hidle p]
    exact iff_of_false nofun id
  · rw [hidle p]
    trivial
  · rw [hout, hops]
    rfl
  · rw [hc, hcm]
    exact iff_of_false nofun nofun
  · rw [hc]
    exact nofun
  · rw [Header.blocks_nil hn]
    exact List.nodup_nil
  · rw [hidle p]
    refine ⟨iff_of_false ?_ id, trivial⟩
    rw [hops]
    exact Finset.notMem_empty p
  · rw [hidle p] at hp
    cases hp

def Logging : Loc → Prop
  | .logTest _ | .callAppend _ | .append _ | .appended => True
  | _ => False

def Commits : Loc → Prop
  | .commit | .writeLog => True
  | _ => False

structure Protocol (g : Config P (Shared P) Loc Unit) : Prop where
  committing : g.shared.committing → g.shared.outstanding = 0
  empty : g.shared.outstanding = 0 → g.shared.committing = false → g.shared.lh.n = 0
  nodup : g.shared.lh.blocks.Nodup
  noPanic : ∀ p, g.phase p ≠ .run .panicCommitting
  apart : ∀ p q l m, g.phase p = .run l → Commits l → g.phase q = .run m → ¬ Logging m
  woken : g.lk = none → g.table = none → ∀ p l, g.phase p = .asleep () l →
    g.shared.committing ∨
      g.shared.lh.n + (g.shared.outstanding + 1) * MAXOPBLOCKS > LOGSIZE

omit [DecidableEq P] in
theorem protocol_of_inv {g : Config P (Shared P) Loc Unit} (h : outline.Inv g) : Protocol g := by
  have hs : Inv g.shared := h.inv
  have hknow {p : P} {l : Loc} (hp : g.phase p = .run l) : know p l g.shared := by
    have := h.know p
    rwa [hp] at this
  refine ⟨fun hc => ?_, fun h0 hc => hs.empty ?_ hc, hs.nodup, fun p hp => (hknow hp).2,
    fun p q l m hp hl hq hm => ?_, fun hlk _ p l hp => h.await_of_asleep hlk hp⟩
  · rw [hs.outstanding, hs.alone hc]
    rfl
  · have := hs.outstanding
    exact Finset.card_eq_zero.mp (by omega)
  · have hcommit : g.shared.committer = some p := by
      cases l with
      | commit => exact (hknow hp).2
      | writeLog => exact (hknow hp).2
      | _ => exact hl.elim
    have hop : q ∈ g.shared.ops := by
      refine (hknow hq).1.mpr ?_
      cases m with
      | logTest b => trivial
      | callAppend b => trivial
      | append b => trivial
      | appended => trivial
      | _ => exact hm.elim
    cases (hs.committing_of hcommit).symm.trans (hs.not_committing hop)

theorem group_commit {size : ℕ} {g₀ g : Config P (Shared P) Loc Unit} {es : List (Signal P)}
    (h0 : Start g₀) (hrun : Runs (Monitor.Step (monitor size)) g₀ es g) : Protocol g :=
  protocol_of_inv (hrun.invariant (fun _ _ _ hi hs => hi.step (valid size) paid hs) (start_inv h0))

def emptyLog : Config ℕ (Shared ℕ) Loc Unit where
  shared := ⟨⟨0, fun _ => 0⟩, 0, false, ∅, none⟩
  lk := none
  table := none
  phase := fun _ => .run .idle

/-- Process `0` has logged a block and commits while process `1` sleeps in `begin_op`. -/
theorem group_commit_sleeper : ∃ g es, Runs (Monitor.Step (monitor LOGSIZE)) emptyLog es g ∧
    g.phase 0 = .run .writeLog ∧ g.phase 1 = .asleep () .callBegin ∧ Protocol g := by
  have logged := ((((((((Runs.nil (R := Monitor.Step (monitor LOGSIZE)) emptyLog).snoc
    (.choose (p := 0) rfl rfl rfl)).snoc
    (.acquire (p := 0) rfl rfl rfl)).snoc
    (.act (p := 0) rfl rfl)).snoc
    (.release (p := 0) rfl rfl)).snoc
    (.choose (p := 0) rfl rfl (show InOp (.logTest 7) from trivial))).snoc
    (.act (p := 0) rfl rfl)).snoc
    (.acquire (p := 0) rfl rfl rfl)).snoc
    (.act (p := 0) rfl rfl)
  have commits := ((((((logged.snoc
    (.release (p := 0) rfl rfl)).snoc
    (.choose (p := 0) rfl rfl (show InOp .callEnd from trivial))).snoc
    (.acquire (p := 0) rfl rfl rfl)).snoc
    (.act (p := 0) rfl rfl)).snoc
    (.release (p := 0) rfl rfl)).snoc
    (.act (p := 0) rfl rfl))
  have sleeps := ((((((commits.snoc
    (.choose (p := 1) rfl rfl rfl)).snoc
    (.acquire (p := 1) rfl rfl rfl)).snoc
    (.act (p := 1) rfl rfl)).snoc
    (.sleep (p := 1) rfl rfl rfl)).snoc
    (.unlock (p := 1) rfl)).snoc
    (.doze (p := 1) rfl))
  exact ⟨_, _, sleeps, rfl, rfl,
    group_commit ⟨rfl, rfl, rfl, rfl, rfl, rfl, rfl, fun _ => rfl⟩ sleeps⟩

end Xv6.GroupCommit
