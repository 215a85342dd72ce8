import Xv6.Pipes.Fifo

/-!
# What a process knows inside the pipe calls

The proof outline of `pipewrite`, `piperead` and `pipeclose`. A writer inside its call
knows that the bytes it has stored so far are the first ones of its buffer; between
two rounds of its loop it may have slept, and other writers have stored theirs.
-/

namespace Xv6.Pipes
open Lib
open Vm (sub32)

variable {P : Type} [DecidableEq P]

namespace Shared

def since (s : Shared P) (p : P) (k : ℕ) : List UInt8 :=
  ((s.stored.drop k).filter (·.1 = p)).map Prod.snd

structure Mine (s : Shared P) (p : P) (w : Write) : Prop where
  start : w.since ≤ s.stored.length
  bytes : s.since p w.since = (List.range w.i).map w.addr
  le : w.i ≤ w.n.toNat

variable {s : Shared P} {p q : P} {w : Write}

theorem Mine.store (h : s.Mine p w) (hlt : w.i < w.n) :
    (s.store p (w.addr w.i)).Mine p { w with i := w.i + 1, fresh := true } where
  start := by
    have := h.start
    simp only [Shared.store, List.length_append]
    omega
  bytes := by
    have hb := h.bytes
    simp only [since] at hb
    simp [since, Shared.store, List.drop_append_of_le_length h.start, List.range_succ, hb]
  le := by
    change w.i + 1 ≤ w.n.toNat
    omega

theorem Mine.store_other (h : s.Mine p w) (hq : q ≠ p) (b : UInt8) : (s.store q b).Mine p w where
  start := by
    have := h.start
    simp only [Shared.store, List.length_append]
    omega
  bytes := by
    have hb := h.bytes
    simp only [since] at hb
    simp [since, Shared.store, List.drop_append_of_le_length h.start, hb, hq]
  le := h.le

theorem Mine.congr {t : Shared P} {v : Write} (h : s.Mine p w) (ht : t.stored = s.stored)
    (hi : v.i = w.i) (ha : v.addr = w.addr) (hn : v.n = w.n) (hs : v.since = w.since) :
    t.Mine p v where
  start := by
    rw [hs, ht]
    exact h.start
  bytes := by
    have hb := h.bytes
    simp only [since] at hb ⊢
    rw [ht, hs, hi, ha, hb]
  le := by
    rw [hi, hn]
    exact h.le

end Shared

def inside : Loc → Prop
  | .idle | .callWrite _ _ | .backWrite _ | .callRead _ | .backRead _ | .callClose _ => False
  | _ => True

def know (p : P) : Loc → Shared P → Prop
  | .write w, s | .backWrite w, s => s.Mine p w
  | .full w, s => s.Mine p w ∧ w.i < w.n ∧ s.isFull
  | .tell w, s | .waitRoom w, s => s.Mine p w ∧ s.isFull ∧ s.readopen
  | .written w, s => s.Mine p w ∧ w.n.toNat = w.i
  | .ret (.wrote w v), s => v = w.n → s.Mine p w ∧ w.n.toNat = w.i
  | .empty _, s | .waitData _, s => s.isEmpty ∧ s.writeopen
  | .copy r, s => r.got = [] → ¬ (s.isEmpty ∧ s.writeopen)
  | .copied r, s => r.got = [] → 0 < r.n → s.isEmpty ∧ s.writeopen = false
  | .ret (.read r v), s => v = 0 → 0 < r.n → s.isEmpty ∧ s.writeopen = false
  | _, _ => True

def owes : Loc → Chan → Prop
  | .write w, c | .full w, c | .tell w, c | .written w, c | .ret (.wrote w _), c =>
      w.fresh ∧ c = .nread
  | .copy r, c | .copied r, c => r.got ≠ [] ∧ c = .nwrite
  | .closeWake true, c => c = .nread
  | .closeWake false, c => c = .nwrite
  | _, _ => False

def await : Chan → Shared P → Prop
  | .nread, s => s.isEmpty ∧ s.writeopen
  | .nwrite, s => s.isFull ∧ s.readopen

def outline : Monitor.Outline P (Shared P) Loc Chan where
  inside := inside
  inv := Shared.Fifo
  know := know
  owes := owes
  await := await

def Sound (p : P) (l : Loc) (s : Shared P) (r : Shared P × Loc) : Prop :=
  inside r.2 ∧ r.1.Fifo ∧ know p r.2 r.1 ∧
    ∀ c, await c s ∨ owes l c → await c r.1 ∨ owes r.2 c

variable {p : P} {s : Shared P} {w : Write} {r : Read}

theorem Sound.look {l l' : Loc} (hs : s.Fifo) (hin : inside l') (hk : know p l' s)
    (ho : ∀ c, owes l c → owes l' c) : Sound p l s (s, l') :=
  ⟨hin, hs, hk, fun c => Or.imp_right (ho c)⟩

theorem write_sound (hs : s.Fifo) (hk : know p (.write w) s) :
    Sound p (.write w) s (if w.i < w.n then
      if s.isFull then (s, .full w)
      else (s.store p (w.addr w.i), .write { w with i := w.i + 1, fresh := true })
      else (s, .written w)) := by
  by_cases hlt : w.i < w.n
  · rw [if_pos hlt]
    by_cases hfull : s.isFull
    · rw [if_pos hfull]
      exact .look hs trivial ⟨hk, hlt, hfull⟩ fun _ => id
    · rw [if_neg hfull]
      refine ⟨trivial, hs.store hfull p _, Shared.Mine.store hk hlt, fun c hc => ?_⟩
      cases c with
      | nread => exact Or.inr ⟨rfl, rfl⟩
      | nwrite =>
        rcases hc with hc | hc
        · exact absurd hc.1 hfull
        · cases hc.2
  · rw [if_neg hlt]
    have := Shared.Mine.le hk
    exact .look hs trivial ⟨hk, by omega⟩ fun _ => id

theorem full_sound (hs : s.Fifo) (hk : know p (.full w) s) :
    Sound p (.full w) s (if s.readopen = false ∨ s.killed p then (s, .ret (.wrote w (-1)))
      else (s, .tell w)) := by
  obtain ⟨hmine, hlt, hfull⟩ := hk
  by_cases hdead : s.readopen = false ∨ s.killed p
  · rw [if_pos hdead]
    refine .look hs trivial (fun hv => ?_) fun _ => id
    -- the call returns its `n` only where there was nothing to store
    omega
  · rw [if_neg hdead]
    rw [not_or, Bool.not_eq_false] at hdead
    exact .look hs trivial ⟨hmine, hfull, hdead.1⟩ fun _ => id

theorem read_sound (hs : s.Fifo) :
    Sound p (.read r) s (if s.isEmpty ∧ s.writeopen then (s, .empty r) else (s, .copy r)) := by
  by_cases hempty : s.isEmpty ∧ s.writeopen
  · rw [if_pos hempty]
    exact .look hs trivial hempty fun _ => False.elim
  · rw [if_neg hempty]
    exact .look hs trivial (fun _ => hempty) fun _ => False.elim

theorem empty_sound (hs : s.Fifo) (hk : know p (.empty r) s) :
    Sound p (.empty r) s (if s.killed p then (s, .ret (.read r (-1))) else (s, .waitData r)) := by
  by_cases hdead : s.killed p
  · rw [if_pos hdead]
    exact .look hs trivial (fun hv => absurd hv (by decide)) fun _ => False.elim
  · rw [if_neg hdead]
    exact .look hs trivial hk fun _ => False.elim

theorem copy_sound (hs : s.Fifo) (hk : know p (.copy r) s) :
    Sound p (.copy r) s (if r.got.length < r.n then
      if s.isEmpty then (s, .copied r) else (s.hand, .copy { r with got := r.got ++ [s.next] })
      else (s, .copied r)) := by
  by_cases hlt : (r.got.length : ℤ) < r.n
  · rw [if_pos hlt]
    by_cases hempty : s.isEmpty
    · rw [if_pos hempty]
      refine .look hs trivial (fun hgot _ => ⟨hempty, ?_⟩) fun _ => id
      exact Bool.eq_false_iff.mpr fun hw => hk hgot ⟨hempty, hw⟩
    · rw [if_neg hempty]
      refine ⟨trivial, hs.hand hempty, fun hgot => absurd hgot (by simp), fun c hc => ?_⟩
      cases c with
      | nread =>
        rcases hc with hc | hc
        · exact absurd hc.1 hempty
        · cases hc.2
      | nwrite => exact Or.inr ⟨by simp, rfl⟩
  · rw [if_neg hlt]
    refine .look hs trivial (fun hgot hn => ?_) fun _ => id
    rw [hgot] at hlt
    exact absurd hn hlt

theorem close_sound (hs : s.Fifo) (writable : Bool) :
    Sound p (.close writable) s (s.close writable, .closeWake writable) := by
  refine ⟨trivial, hs.close writable, trivial, fun c hc => ?_⟩
  cases writable <;> cases c
  · exact Or.inl (hc.resolve_right id)
  · exact Or.inr rfl
  · exact Or.inr rfl
  · exact Or.inl (hc.resolve_right id)

theorem enterWrite_sound (hs : s.Fifo) (addr : ℕ → UInt8) (n : ℤ) :
    Sound p (.enterWrite addr n) s (s, .write ⟨addr, n, 0, s.stored.length, false⟩) := by
  refine .look hs trivial ⟨le_rfl, ?_, Nat.zero_le _⟩ fun _ => False.elim
  simp [Shared.since]

/-- Every action of the pipe calls is taken inside and respects the outline. -/
theorem act_sound {l : Loc} {f : Shared P → Shared P × Loc} (hl : code p l = .act f)
    (hs : s.Fifo) (hk : know p l s) : inside l ∧ Sound p l s (f s) := by
  cases l with
  | enterWrite addr n =>
    cases hl
    exact ⟨trivial, enterWrite_sound hs addr n⟩
  | write w =>
    cases hl
    exact ⟨trivial, write_sound hs hk⟩
  | full w =>
    cases hl
    exact ⟨trivial, full_sound hs hk⟩
  | read r =>
    cases hl
    exact ⟨trivial, read_sound hs⟩
  | empty r =>
    cases hl
    exact ⟨trivial, empty_sound hs hk⟩
  | copy r =>
    cases hl
    exact ⟨trivial, copy_sound hs hk⟩
  | close w =>
    cases hl
    exact ⟨trivial, close_sound hs w⟩
  | closeWake w => cases w <;> cases hl
  | _ => cases hl

omit [DecidableEq P] in
theorem act_stored {l : Loc} {f : Shared P → Shared P × Loc} (hl : code p l = .act f)
    (s : Shared P) : (f s).1.stored = s.stored ∨ ∃ b, (f s).1 = s.store p b := by
  cases l with
  | write w =>
    cases hl
    dsimp only
    split_ifs
    · exact Or.inl rfl
    · exact Or.inr ⟨_, rfl⟩
    · exact Or.inl rfl
  | close w =>
    cases hl
    cases w <;> exact Or.inl rfl
  | copy r =>
    cases hl
    dsimp only
    split_ifs <;> exact Or.inl rfl
  | closeWake w => cases w <;> cases hl
  | enterWrite addr n =>
    cases hl
    exact Or.inl rfl
  | full w =>
    cases hl
    dsimp only
    split_ifs <;> exact Or.inl rfl
  | read r =>
    cases hl
    dsimp only
    split_ifs <;> exact Or.inl rfl
  | empty r =>
    cases hl
    dsimp only
    split_ifs <;> exact Or.inl rfl
  | _ => cases hl

theorem know_outside {q : P} {m : Loc} (hm : ¬ inside m) {t : Shared P}
    (hmine : ∀ w, s.Mine q w → t.Mine q w) (hk : know q m s) : know q m t := by
  cases m with
  | backWrite w => exact hmine w hk
  | idle => trivial
  | callWrite addr n => trivial
  | callRead n => trivial
  | backRead r => trivial
  | callClose w => trivial
  | _ => exact absurd trivial hm

theorem know_act {q : P} {m : Loc} (hm : ¬ inside m) (hpq : p ≠ q) {l : Loc}
    {f : Shared P → Shared P × Loc} (hl : code p l = .act f) (hk : know q m s) :
    know q m (f s).1 := by
  refine know_outside hm (fun w hw => ?_) hk
  rcases act_stored hl s with hsame | ⟨b, hb⟩
  · exact hw.congr hsame rfl rfl rfl rfl
  · rw [hb]
    exact hw.store_other hpq b

theorem know_kill {q : P} {m : Loc} (hk : know q m s) : know q m (monitor.kill p s) := by
  cases m with
  | write w => exact Shared.Mine.congr hk rfl rfl rfl rfl rfl
  | backWrite w => exact Shared.Mine.congr hk rfl rfl rfl rfl rfl
  | full w => exact ⟨hk.1.congr rfl rfl rfl rfl rfl, hk.2⟩
  | tell w => exact ⟨hk.1.congr rfl rfl rfl rfl rfl, hk.2⟩
  | waitRoom w => exact ⟨hk.1.congr rfl rfl rfl rfl rfl, hk.2⟩
  | written w => exact ⟨hk.1.congr rfl rfl rfl rfl rfl, hk.2⟩
  | ret v =>
    cases v with
    | wrote w v => exact fun hv => ⟨(hk hv).1.congr rfl rfl rfl rfl rfl, (hk hv).2⟩
    | read r v => exact hk
    | closed => trivial
  | _ => exact hk

theorem valid : (outline (P := P)).Valid monitor where
  acquire {p l l'} hl := by
    cases l with
    | callWrite addr n =>
      cases hl
      exact ⟨id, trivial, fun _ _ _ => trivial⟩
    | backWrite w =>
      cases hl
      exact ⟨id, trivial, fun _ _ => id⟩
    | callRead n =>
      cases hl
      exact ⟨id, trivial, fun _ _ _ => trivial⟩
    | backRead r =>
      cases hl
      exact ⟨id, trivial, fun _ _ _ => trivial⟩
    | callClose w =>
      cases hl
      exact ⟨id, trivial, fun _ _ _ => trivial⟩
    | closeWake w => cases w <;> cases hl
    | _ => cases hl
  release {p l l'} hl := by
    cases l with
    | ret v =>
      cases hl
      exact ⟨trivial, id, fun _ _ _ => trivial⟩
    | closeWake w => cases w <;> cases hl
    | _ => cases hl
  wakeup {p l c l'} hl := by
    cases l with
    | tell w =>
      cases hl
      exact ⟨Iff.rfl, fun s _ hk => ⟨hk.1.congr rfl rfl rfl rfl rfl, hk.2⟩,
        fun c hc ho => absurd ho.2 hc⟩
    | written w =>
      cases hl
      exact ⟨Iff.rfl, fun s _ hk _ => ⟨hk.1.congr rfl rfl rfl rfl rfl, hk.2⟩,
        fun c hc ho => absurd ho.2 hc⟩
    | copied r =>
      cases hl
      refine ⟨Iff.rfl, fun s _ hk hv => hk ?_, fun c hc ho => absurd ho.2 hc⟩
      exact List.eq_nil_of_length_eq_zero (by exact_mod_cast hv)
    | closeWake w =>
      cases w <;> cases hl <;>
        exact ⟨Iff.rfl, fun _ _ _ => trivial, fun c hc ho => absurd ho hc⟩
    | _ => cases hl
  sleep {p l c l'} hl := by
    cases l with
    | waitRoom w =>
      cases hl
      exact ⟨trivial, id, fun _ => id, fun s _ hk => ⟨hk.1, hk.2⟩⟩
    | waitData r =>
      cases hl
      exact ⟨trivial, id, fun _ => id, fun s _ hk => ⟨trivial, hk⟩⟩
    | closeWake w => cases w <;> cases hl
    | _ => cases hl
  act {p l f s} hl hs hk := by
    obtain ⟨hin, hin', hs', hk', hcov⟩ := act_sound hl hs hk
    refine ⟨iff_of_true hin hin', hs', hk', fun c hc => ?_⟩
    exact (hcov c (hc.imp_right And.right)).imp_right fun ho => ⟨hin', ho⟩
  choose {p l next l'} hl hn := by
    cases l with
    | idle =>
      cases hl
      cases l' with
      | callWrite addr n => exact ⟨id, id, fun _ _ _ => trivial⟩
      | callRead n => exact ⟨id, id, fun _ _ _ => trivial⟩
      | callClose w => exact ⟨id, id, fun _ _ _ => trivial⟩
      | _ => exact hn.elim
    | closeWake w => cases w <;> cases hl
    | _ => cases hl
  stable {p q l m f s} hpq hl hnot hs hk hm :=
    know_act (fun hin => hnot ⟨(act_sound hl hs hk).1, hin⟩) hpq hl hm
  kill {p s} hs := by
    refine ⟨⟨hs.nread, hs.nwrite, hs.bytes, hs.room⟩, fun q m => know_kill, fun c hc => ?_⟩
    cases c <;> exact hc

theorem start_inv {g : Config P} (h : Start g) : outline.Inv g := by
  obtain ⟨hr, hw, _, _, hst, hha, hlk, ht, hidle⟩ := h
  refine ⟨fun p => ?_, fun p => ?_, fun p => ?_, ⟨?_, ?_, ?_, ?_⟩, fun p => ?_, fun p c hc => ?_⟩
  · rw [hlk, hidle p]
    exact iff_of_false (Option.some_ne_none p).symm id
  · rw [ht, hidle p]
    exact iff_of_false (Option.some_ne_none p).symm id
  · rw [hidle p]
    trivial
  · rw [hr, hha]
    rfl
  · rw [hw, hst]
    rfl
  · rw [hst, hha, Shared.buffered, hr, hw]
    rfl
  · rw [hst]
    exact Nat.zero_le _
  · rw [hidle p]
    trivial
  · rw [hidle p] at hc
    cases hc

/-- The order of the bytes of a pipe, and what the results of its calls say. -/
structure InOrder (g : Config P) : Prop where
  handed : g.shared.handed <+: g.shared.stored.map Prod.snd
  buffered : g.shared.stored.map Prod.snd = g.shared.handed ++ g.shared.buffered
  length : g.shared.buffered.length = sub32 g.shared.nwrite g.shared.nread
  room : sub32 g.shared.nwrite g.shared.nread ≤ PIPESIZE
  /-- A `pipewrite` that returns its `n` has stored all of its bytes. -/
  wrote : ∀ p w, g.phase p = .run (.ret (.wrote w w.n)) →
    g.shared.since p w.since = (List.range w.n.toNat).map w.addr
  /-- Only the end of the data makes a `piperead` of some bytes return `0`. -/
  ended : ∀ p r, g.phase p = .run (.ret (.read r 0)) → 0 < r.n →
    g.shared.isEmpty ∧ g.shared.writeopen = false

def newPipe : Config ℕ where
  shared := {
    data := fun _ => 0
    nread := 0
    nwrite := 0
    readopen := true
    writeopen := true
    killed := fun _ => false
    stored := []
    handed := [] }
  lk := none
  table := none
  phase := fun _ => .run .idle

theorem newPipe_start : Start newPipe := ⟨rfl, rfl, rfl, rfl, rfl, rfl, rfl, rfl, fun _ => rfl⟩

end Xv6.Pipes
