import Xv6.Console.Lines

/-!
# Reads of the console

The proof outline of `consoleintr` and `consoleread`: a reader knows that the bytes it has
are the ones it took in this call, that more may come only while the last one does not end
the read, and at its return why it stops.
-/

namespace Xv6.Console
open Lib
open Vm (add32 sub32)

variable {P : Type} [DecidableEq P]

def takenBy (p : P) (log : List (Event P)) : List UInt8 :=
  log.filterMap fun
    | .take q b => if q = p then some b else none
    | .key _ => none

namespace Shared

/-- The ring holds the line that the events make, and reads took it from the front. -/
structure Fits (s : Shared P) : Prop where
  ring : s.toInput.Ring (edited s.log)
  reads : consumed s.log = (edited s.log).committed.take (edited s.log).taken

def unread (s : Shared P) : List UInt8 :=
  (List.range (sub32 s.w s.r)).map fun k => s.buf ((s.r + k) % INPUT_BUF)

/-- The call `r` of `p` has what it took, and none of it ends the read. -/
structure Mine (s : Shared P) (p : P) (r : Read) : Prop where
  since : r.since ≤ s.log.length
  got : takenBy p (s.log.drop r.since) = r.got
  more : ∀ b ∈ r.got, b ≠ newline ∧ b ≠ ctrl 'D'
  le : r.got.length ≤ r.target.toNat

inductive Stops (s : Shared P) (p : P) (r : Read) : Prop
  | limit (hg : takenBy p (s.log.drop r.since) = r.got) (hn : r.got.length = r.target.toNat)
  | newline (hg : takenBy p (s.log.drop r.since) = r.got)
      (hl : ∃ bs, r.got = bs ++ [Console.newline])
  | beforeEof (hg : takenBy p (s.log.drop r.since) = r.got) (hne : r.got ≠ [])
      (hd : ∃ bs, s.unread = ctrl 'D' :: bs)
  | eof (hg : takenBy p (s.log.drop r.since) = [ctrl 'D']) (hnil : r.got = [])

structure Ends (s : Shared P) (p : P) (r : Read) (v : ℤ) : Prop where
  le : r.got.length ≤ r.target.toNat
  inner : ∀ b ∈ r.got.dropLast, b ≠ Console.newline
  data : ctrl 'D' ∉ r.got
  stops : v = -1 ∧ s.killed p = true ∨ v = r.got.length ∧ Stops s p r

variable {s : Shared P} {p q : P} {r : Read}

omit [DecidableEq P] in
theorem Fits.unread_eq (h : s.Fits) :
    s.unread = (edited s.log).committed.drop (edited s.log).taken := by
  have horder := h.ring.order
  have hroom := h.ring.room
  have hbytes := h.ring.bytes
  have hcount : sub32 s.w s.r = (edited s.log).committed.length - (edited s.log).taken := by
    rw [h.ring.w, h.ring.r]
    simp only [sub32, INPUT_BUF] at hroom ⊢
    omega
  refine List.ext_getElem ?_ fun i h1 h2 => ?_
  · rw [unread, List.length_map, List.length_range, hcount, List.length_drop]
  · have hcell : (s.r + i) % INPUT_BUF = ((edited s.log).taken + i) % INPUT_BUF := by
      rw [h.ring.r]
      simp only [INPUT_BUF]
      omega
    rw [List.length_drop] at h2
    simp only [unread, List.getElem_map, List.getElem_range, hcell]
    rw [hbytes i (by rw [List.length_drop, List.length_append]; omega), List.getElem_drop,
      List.getElem_append_left (by omega), List.getElem_drop]

omit [DecidableEq P] in
theorem Fits.key (h : s.Fits) (c : UInt8) : (s.key c).Fits := by
  have hedit : edited (s.key c).log = (edited s.log).key c := edited_snoc s.log (.key c)
  refine ⟨?_, ?_⟩
  · rw [hedit]
    exact h.ring.key c
  · have hpre : (edited s.log).committed <+: ((edited s.log).key c).committed :=
      (edited s.log).committed_event (.key c : Event P)
    have htaken : ((edited s.log).key c).taken = (edited s.log).taken := by
      unfold Line.key
      dsimp only
      split_ifs <;> rfl
    have hlog : consumed (s.key c).log = consumed s.log := by
      simp [consumed, Shared.key, List.filterMap_append]
    rw [hedit, hlog, h.reads, htaken]
    obtain ⟨bs, hbs⟩ := hpre
    rw [← hbs, List.take_append_of_le_length h.ring.order]

omit [DecidableEq P] in
theorem Fits.get (h : s.Fits) (hne : s.r ≠ s.w) (p : P) :
    Fits { s with toInput := s.get, log := s.log ++ [.take p s.next] } := by
  obtain ⟨bs, hbs⟩ := h.ring.next_eq hne
  refine ⟨?_, ?_⟩
  · rw [edited_snoc]
    exact h.ring.get hne
  · rw [edited_snoc]
    change consumed (s.log ++ [.take p s.next]) =
      (edited s.log).committed.take ((edited s.log).taken + 1)
    rw [List.take_add, hbs, ← h.reads]
    simp [consumed, List.filterMap_append]

theorem takenBy_snoc (log : List (Event P)) (p : P) (b : UInt8) {k : ℕ} (hk : k ≤ log.length) :
    takenBy p ((log ++ [Event.take p b]).drop k) = takenBy p (log.drop k) ++ [b] := by
  rw [List.drop_append_of_le_length hk, takenBy, List.filterMap_append]
  simp [takenBy]

theorem takenBy_other (log : List (Event P)) {x : Event P} (hx : ∀ b, x ≠ .take p b) {k : ℕ}
    (hk : k ≤ log.length) : takenBy p ((log ++ [x]).drop k) = takenBy p (log.drop k) := by
  rw [List.drop_append_of_le_length hk, takenBy, List.filterMap_append]
  cases x with
  | key c => simp [takenBy]
  | take q b =>
    have hq : q ≠ p := fun hq => hx b (hq ▸ rfl)
    simp [takenBy, hq]

theorem Mine.other (h : s.Mine p r) {t : Shared P} (ht : t.log = s.log ∨
    ∃ x, t.log = s.log ++ [x] ∧ ∀ b, x ≠ .take p b) : t.Mine p r := by
  rcases ht with ht | ⟨x, ht, hx⟩
  · exact ⟨ht ▸ h.since, ht ▸ h.got, h.more, h.le⟩
  · refine ⟨?_, ?_, h.more, h.le⟩
    · rw [ht, List.length_append]
      exact h.since.trans (Nat.le_add_right _ _)
    · rw [ht, takenBy_other _ hx h.since]
      exact h.got

theorem Mine.ends (h : s.Mine p r) {v : ℤ}
    (hv : v = -1 ∧ s.killed p = true ∨ v = r.got.length ∧ Stops s p r) : Ends s p r v :=
  ⟨h.le, fun b hb => (h.more b (List.dropLast_subset _ hb)).1, fun hin => (h.more _ hin).2 rfl, hv⟩

end Shared

def inside : Loc → Prop
  | .idle | .callIntr _ | .callRead _ | .back _ => False
  | _ => True

def know (p : P) : Loc → Shared P → Prop
  | .read r, s => s.Mine p r
  | .test r, s | .wait r, s | .back r, s => s.Mine p r ∧ r.got.length < r.target
  | .take r, s => s.Mine p r ∧ r.got.length < r.target ∧ s.r ≠ s.w
  | .ret r v, s => s.Ends p r v
  | _, _ => True

def outline : Monitor.Outline P (Shared P) Loc Unit where
  inside := inside
  inv := Shared.Fits
  know := know
  owes := fun _ _ => False
  await := fun _ _ => True

variable {s : Shared P} {p q : P} {r : Read}

theorem take_sound (hs : s.Fits) (hm : s.Mine p r) (hlt : r.got.length < r.target)
    (hne : s.r ≠ s.w) :
    inside (s.take p r).2 ∧ (s.take p r).1.Fits ∧ know p (s.take p r).2 (s.take p r).1 := by
  have hget := hs.get hne p
  obtain ⟨bs, hbs⟩ := hs.ring.next_eq hne
  have hback : { s with toInput := s.get.unget } = s := by
    rw [hs.ring.get_unget]
  unfold Shared.take
  dsimp only
  rw [hback]
  generalize s.next = c at hget hbs
  have hsnoc := Shared.takenBy_snoc s.log p c hm.since
  rw [hm.got] at hsnoc
  by_cases hD : c = ctrl 'D'
  · rw [if_pos hD]
    by_cases hgot : r.target - r.got.length < r.target
    · rw [if_pos hgot]
      refine ⟨trivial, hs, hm.ends (Or.inr ⟨rfl, .beforeEof hm.got (fun hnil => ?_) ⟨bs, ?_⟩⟩)⟩
      · rw [hnil] at hgot
        simp at hgot
      · rw [hs.unread_eq, hbs, hD]
    · rw [if_neg hgot]
      have hnil : r.got = [] := by
        by_contra hne
        have := List.length_pos_iff.mpr hne
        omega
      refine ⟨trivial, hget, hm.le, ?_, ?_, Or.inr ⟨rfl, .eof ?_ hnil⟩⟩
      · rw [hnil]
        exact nofun
      · rw [hnil]
        exact List.not_mem_nil
      · rw [hsnoc, hnil, hD]
        rfl
  · rw [if_neg hD]
    have hlen : (r.got ++ [c]).length ≤ r.target.toNat := by
      rw [List.length_append, List.length_singleton]
      omega
    by_cases hnl : c = newline
    · rw [if_pos hnl]
      refine ⟨trivial, hget, hlen, fun b hb => ?_, fun hin => ?_,
        Or.inr ⟨rfl, .newline hsnoc ⟨r.got, ?_⟩⟩⟩
      · change b ∈ (r.got ++ [c]).dropLast at hb
        rw [List.dropLast_concat] at hb
        exact (hm.more b hb).1
      · rcases List.mem_append.mp hin with hin | hin
        · exact (hm.more _ hin).2 rfl
        · exact hD (List.mem_singleton.mp hin).symm
      · rw [hnl]
    · rw [if_neg hnl]
      refine ⟨trivial, hget, ?_, hsnoc, fun b hb => ?_, hlen⟩
      · exact hm.since.trans (by simp)
      · rcases List.mem_append.mp hb with hb | hb
        · exact hm.more b hb
        · rw [List.mem_singleton.mp hb]
          exact ⟨hnl, hD⟩

theorem act_sound {l : Loc} {f : Shared P → Shared P × Loc} (hl : code p l = .act f)
    (hs : s.Fits) (hk : know p l s) :
    inside l ∧ inside (f s).2 ∧ (f s).1.Fits ∧ know p (f s).2 (f s).1 := by
  cases l with
  | getc cs =>
    cases cs with
    | nil =>
      cases hl
      exact ⟨trivial, trivial, hs, trivial⟩
    | cons c cs =>
      cases hl
      dsimp only
      split_ifs <;> exact ⟨trivial, trivial, hs.key c, trivial⟩
  | enterRead n =>
    cases hl
    refine ⟨trivial, trivial, hs, le_rfl, ?_, nofun, Nat.zero_le _⟩
    simp [takenBy]
  | read r =>
    cases hl
    dsimp only
    by_cases hlt : r.got.length < r.target
    · rw [if_pos hlt]
      exact ⟨trivial, trivial, hs, hk, hlt⟩
    · rw [if_neg hlt]
      have hk : s.Mine p r := hk
      have := hk.le
      exact ⟨trivial, trivial, hs, hk.ends (Or.inr ⟨rfl, .limit hk.got (by omega)⟩)⟩
  | test r =>
    cases hl
    dsimp only
    by_cases hempty : s.r = s.w
    · rw [if_pos hempty]
      cases hkill : s.killed p with
      | true => exact ⟨trivial, trivial, hs, hk.1.ends (Or.inl ⟨rfl, hkill⟩)⟩
      | false => exact ⟨trivial, trivial, hs, hk⟩
    · rw [if_neg hempty]
      exact ⟨trivial, trivial, hs, hk.1, hk.2, hempty⟩
  | take r =>
    cases hl
    exact ⟨trivial, take_sound hs hk.1 hk.2.1 hk.2.2⟩
  | _ => cases hl

omit [DecidableEq P] in
theorem take_log (s : Shared P) (p : P) (r : Read) : (s.take p r).1.log = s.log ∨
    (s.take p r).1.log = s.log ++ [.take p s.next] := by
  by_cases hD : s.next = ctrl 'D'
  · by_cases hgot : r.target - r.got.length < r.target
    · left
      simp only [Shared.take, if_pos hD, if_pos hgot]
    · right
      simp only [Shared.take, if_pos hD, if_neg hgot]
  · right
    by_cases hnl : s.next = newline
    · simp only [Shared.take, if_neg hD, if_pos hnl]
    · simp only [Shared.take, if_neg hD, if_neg hnl]

omit [DecidableEq P] in
theorem act_log {l : Loc} {f : Shared P → Shared P × Loc} (hl : code p l = .act f)
    (s : Shared P) : (f s).1.log = s.log ∨
      ∃ x, (f s).1.log = s.log ++ [x] ∧ ∀ q b, x = .take q b → q = p := by
  cases l with
  | getc cs =>
    cases cs with
    | nil =>
      cases hl
      exact Or.inl rfl
    | cons c cs =>
      cases hl
      exact Or.inr ⟨_, rfl, nofun⟩
  | enterRead n =>
    cases hl
    exact Or.inl rfl
  | read r =>
    cases hl
    dsimp only
    split_ifs <;> exact Or.inl rfl
  | test r =>
    cases hl
    dsimp only
    split_ifs <;> exact Or.inl rfl
  | take r =>
    cases hl
    rcases take_log s p r with hlog | hlog
    · exact Or.inl hlog
    · exact Or.inr ⟨_, hlog, fun q b hb => (Event.take.inj hb).1.symm⟩
  | _ => cases hl

theorem valid : (outline (P := P)).Valid monitor where
  acquire {p l l'} hl := by
    cases l with
    | callIntr cs =>
      cases hl
      exact ⟨id, trivial, fun _ _ _ => trivial⟩
    | callRead n =>
      cases hl
      exact ⟨id, trivial, fun _ _ _ => trivial⟩
    | back r =>
      cases hl
      exact ⟨id, trivial, fun _ _ => id⟩
    | getc cs => cases cs <;> cases hl
    | _ => cases hl
  release {p l l'} hl := by
    cases l with
    | handled =>
      cases hl
      exact ⟨trivial, id, fun _ _ _ => trivial⟩
    | ret r v =>
      cases hl
      exact ⟨trivial, id, fun _ _ _ => trivial⟩
    | getc cs => cases cs <;> cases hl
    | _ => cases hl
  wakeup {p l c l'} hl := by
    cases l with
    | tell cs =>
      cases hl
      exact ⟨Iff.rfl, fun _ _ _ => trivial, fun _ _ => id⟩
    | getc cs => cases cs <;> cases hl
    | _ => cases hl
  sleep {p l c l'} hl := by
    cases l with
    | wait r =>
      cases hl
      exact ⟨trivial, id, fun _ => id, fun _ _ hk => ⟨hk, trivial⟩⟩
    | getc cs => cases cs <;> cases hl
    | _ => cases hl
  act {p l f s} hl hs hk := by
    obtain ⟨hin, hin', hs', hk'⟩ := act_sound hl hs hk
    exact ⟨iff_of_true hin hin', hs', hk', fun _ _ => Or.inl trivial⟩
  choose {p l next l'} hl hn := by
    cases l with
    | idle =>
      cases hl
      cases l' with
      | callIntr cs => exact ⟨id, id, fun _ _ _ => trivial⟩
      | callRead n => exact ⟨id, id, fun _ _ _ => trivial⟩
      | _ => exact hn.elim
    | getc cs => cases cs <;> cases hl
    | _ => cases hl
  stable {p q l m f s} hpq hl hnot hs hk hm := by
    have hout : ¬ inside m := fun hin => hnot ⟨(act_sound hl hs hk).1, hin⟩
    cases m with
    | back r =>
      refine ⟨hm.1.other ((act_log hl s).imp id fun ⟨x, hx, hq⟩ => ⟨x, hx, fun b hb => ?_⟩), hm.2⟩
      exact hpq (hq q b hb).symm
    | idle => trivial
    | callIntr cs => trivial
    | callRead n => trivial
    | _ => exact absurd trivial hout
  kill {p s} hs := by
    refine ⟨⟨hs.ring, hs.reads⟩, fun q m hk => ?_, fun _ => id⟩
    cases m with
    | read r => exact hk.other (Or.inl rfl)
    | test r => exact ⟨hk.1.other (Or.inl rfl), hk.2⟩
    | wait r => exact ⟨hk.1.other (Or.inl rfl), hk.2⟩
    | back r => exact ⟨hk.1.other (Or.inl rfl), hk.2⟩
    | take r => exact ⟨hk.1.other (Or.inl rfl), hk.2⟩
    | ret r v =>
      refine ⟨hk.le, hk.inner, hk.data, hk.stops.imp (fun h => ⟨h.1, ?_⟩) fun h => ⟨h.1, ?_⟩⟩
      · change Function.update s.killed p true q = true
        by_cases hq : q = p
        · rw [hq, Function.update_self]
        · rw [Function.update_of_ne hq]
          exact h.2
      · cases h.2 with
        | limit hg hn => exact .limit hg hn
        | newline hg hl => exact .newline hg hl
        | beforeEof hg hne hd => exact .beforeEof hg hne hd
        | eof hg hnil => exact .eof hg hnil
    | _ => trivial

omit [DecidableEq P] in
theorem Start.fits {g : Config P} (h : Start g) : g.shared.Fits := by
  have hedit : edited g.shared.log = ⟨[], [], 0⟩ := by
    rw [h.log]
    rfl
  refine ⟨?_, ?_⟩
  · rw [hedit]
    refine ⟨⟨h.r, h.w, h.e, le_rfl, Nat.zero_le _, nofun⟩, fun _ => rfl, List.not_mem_nil⟩
  · rw [h.log]
    rfl

theorem Start.inv {g : Config P} (h : Start g) : outline.Inv g := by
  refine ⟨fun p => ?_, fun p => ?_, fun p => ?_, h.fits, fun p => ?_, fun p c hc => ?_⟩
  · rw [h.lk, h.phase p]
    exact iff_of_false nofun id
  · rw [h.table, h.phase p]
    exact iff_of_false nofun id
  · rw [h.phase p]
    trivial
  · rw [h.phase p]
    trivial
  · rw [h.phase p] at hc
    cases hc

variable {g₀ g g' : Config P} {es : List (Signal P)}

theorem Start.reach (h : Start g₀) (hrun : Runs Step g₀ es g) : outline.Inv g :=
  hrun.invariant (fun _ _ _ hi hs => hi.step valid (fun _ _ _ _ _ _ _ ho => ho.elim) hs) h.inv

theorem step_log {e : Signal P} (hs : Step g e g') : g'.shared.log = g.shared.log ∨
    ∃ x, g'.shared.log = g.shared.log ++ [x] := by
  cases hs with
  | act hp hl => exact (act_log hl g.shared).imp id fun ⟨x, hx, _⟩ => ⟨x, hx⟩
  | _ => exact Or.inl rfl

/-- The line discipline of the console, for the characters and reads recorded so far. -/
structure Disciplined (s : Shared P) : Prop where
  /-- `r ≤ w ≤ e ≤ r + INPUT_BUF`, as differences of counters. -/
  order : sub32 s.w s.r + sub32 s.e s.w = sub32 s.e s.r
  room : sub32 s.e s.r ≤ INPUT_BUF
  full : s.e = add32 s.r INPUT_BUF → s.w = s.e
  /-- Reads have consumed the committed characters in order, and the others are in the ring. -/
  bytes : (edited s.log).committed = consumed s.log ++ s.unread

omit [DecidableEq P] in
theorem Shared.Fits.disciplined (h : s.Fits) : Disciplined s := by
  have horder := h.ring.order
  have hroom := h.ring.room
  refine ⟨?_, ?_, fun hfull => ?_, ?_⟩
  · rw [h.ring.w, h.ring.r, h.ring.e]
    simp only [sub32, INPUT_BUF] at hroom ⊢
    omega
  · rw [h.ring.held_eq, Line.held]
    omega
  · have hheld := h.ring.full_iff.mp hfull
    rw [Line.held] at hheld
    exact (h.ring.e_eq_w.mpr (h.ring.full (by omega))).symm
  · rw [h.reads, h.unread_eq, List.take_append_drop]

/-- In every interleaving of keys and reads: the counters stay in order; what is committed is
consumed in order and never erased; and every read stops for one of the reasons it may. -/
theorem console_disciplined (h : Start g₀) (hrun : Runs Step g₀ es g) :
    Disciplined g.shared ∧
      (∀ e g', Step g e g' →
        (edited g.shared.log).committed <+: (edited g'.shared.log).committed) ∧
      ∀ p r v, g.phase p = .run (.ret r v) → g.shared.Ends p r v := by
  have hinv := h.reach hrun
  refine ⟨hinv.inv.disciplined, fun e g' hs => ?_, fun p r v hp => ?_⟩
  · rcases step_log hs with hlog | ⟨x, hlog⟩
    · rw [hlog]
    · rw [hlog, edited_snoc]
      exact Line.committed_event _ x
  · have := hinv.know p
    rwa [hp] at this

def fresh : Config (Fin 2) :=
  ⟨⟨⟨fun _ => 0, 0, 0, 0⟩, fun _ => false, []⟩, none, none, fun _ => .run .idle⟩

/-- A key `a`, a backspace, a key `b` and a carriage return arrive, and then a read of ten
bytes gets the line. -/
theorem console_disciplined_line : ∃ g es r, Runs Step fresh es g ∧
    g.phase 1 = .run (.ret r 2) ∧ r.got = [98, newline] ∧ g.shared.Ends 1 r 2 := by
  have keys := (((((Runs.nil (R := Step) fresh).snoc
    (.choose (p := 0) rfl rfl (show Call (.callIntr [97, 8, 98, 13]) from trivial))).snoc
    (.acquire (p := 0) rfl rfl rfl)).snoc
    (.act (p := 0) rfl rfl)).snoc
    (.act (p := 0) rfl rfl)).snoc
    (.act (p := 0) rfl rfl)
  have line := (((keys.snoc
    (.act (p := 0) rfl rfl)).snoc
    (.wakeup (p := 0) rfl rfl rfl)).snoc
    (.act (p := 0) rfl rfl)).snoc
    (.release (p := 0) rfl rfl)
  have read := ((((((((line.snoc
    (.choose (p := 1) rfl rfl (show Call (.callRead 10) from trivial))).snoc
    (.acquire (p := 1) rfl rfl rfl)).snoc
    (.act (p := 1) rfl rfl)).snoc
    (.act (p := 1) rfl rfl)).snoc
    (.act (p := 1) rfl rfl)).snoc
    (.act (p := 1) rfl rfl)).snoc
    (.act (p := 1) rfl rfl)).snoc
    (.act (p := 1) rfl rfl)).snoc
    (.act (p := 1) rfl rfl)
  exact ⟨_, _, _, read, rfl, rfl, (console_disciplined ⟨rfl, rfl, rfl, rfl, rfl, rfl,
    fun _ => rfl⟩ read).2.2 1 _ 2 rfl⟩

end Xv6.Console
