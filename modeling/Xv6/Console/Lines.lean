import Mathlib.Data.List.Infix
import Xv6.Console.Machine
import Xv6.Lib.Ring

/-!
# The line discipline

What the console is for: keys edit a line, the end of a line commits it, and reads take
committed characters from the front. `edited` says this of the recorded events, with lists;
the three counters of `input` and its ring follow it (`Ring`).
-/

namespace Xv6.Console
open Lib
open Vm (add32 sub32)

structure Line where
  committed : List UInt8
  pending : List UInt8
  taken : ℕ

namespace Line

def held (l : Line) : ℕ := l.committed.length + l.pending.length - l.taken

def commit (l : Line) : Line := ⟨l.committed ++ l.pending, [], l.taken⟩

def type (l : Line) (c : UInt8) : Line := { l with pending := l.pending ++ [c] }

def key (l : Line) (c : UInt8) : Line :=
  if c = ctrl 'P' then l
  else if c = ctrl 'U' then { l with pending := [] }
  else if c = ctrl 'H' ∨ c = delete then { l with pending := l.pending.dropLast }
  else if c ≠ 0 ∧ l.held < INPUT_BUF then
    let c := if c = carriageReturn then newline else c
    if c = newline ∨ c = ctrl 'D' ∨ (l.type c).held = INPUT_BUF then (l.type c).commit
    else l.type c
  else l

variable {P : Type}

def event (l : Line) : Event P → Line
  | .key c => l.key c
  | .take _ _ => { l with taken := l.taken + 1 }

end Line

variable {P : Type}

def edited (log : List (Event P)) : Line := log.foldl Line.event ⟨[], [], 0⟩

theorem edited_snoc (log : List (Event P)) (x : Event P) :
    edited (log ++ [x]) = (edited log).event x := by
  rw [edited, List.foldl_append]
  rfl

theorem Line.committed_event (l : Line) (x : Event P) :
    l.committed <+: (l.event x).committed := by
  cases x with
  | take p b => exact List.prefix_rfl
  | key c =>
    simp only [Line.event, Line.key]
    split_ifs
    all_goals first
      | exact List.prefix_rfl
      | exact List.prefix_append _ _

def consumed (log : List (Event P)) : List UInt8 :=
  log.filterMap fun
    | .take _ b => some b
    | .key _ => none

namespace Input

structure Holds (s : Input) (l : Line) : Prop where
  r : s.r = l.taken % 2 ^ 32
  w : s.w = l.committed.length % 2 ^ 32
  e : s.e = (l.committed.length + l.pending.length) % 2 ^ 32
  order : l.taken ≤ l.committed.length
  room : l.committed.length + l.pending.length ≤ l.taken + INPUT_BUF
  bytes : InRing INPUT_BUF s.buf l.taken ((l.committed ++ l.pending).drop l.taken)

structure Ring (s : Input) (l : Line) : Prop extends Holds s l where
  full : l.committed.length + l.pending.length = l.taken + INPUT_BUF → l.pending = []
  clean : newline ∉ l.pending

variable {s : Input} {l : Line}

theorem Holds.held_eq (h : Holds s l) : sub32 s.e s.r = l.held := by
  have h1 := h.order
  have h2 := h.room
  rw [h.e, h.r, Line.held]
  simp only [sub32, INPUT_BUF] at h2 ⊢
  omega

theorem Holds.full_iff (h : Holds s l) : s.e = add32 s.r INPUT_BUF ↔ l.held = INPUT_BUF := by
  have h1 := h.order
  have h2 := h.room
  rw [h.e, h.r, Line.held]
  simp only [add32, INPUT_BUF] at h2 ⊢
  omega

theorem Holds.e_eq_w (h : Holds s l) : s.e = s.w ↔ l.pending = [] := by
  have h1 := h.order
  have h2 := h.room
  rw [h.e, h.w, ← List.length_eq_zero_iff]
  simp only [INPUT_BUF] at h2
  omega

theorem Holds.r_eq_w (h : Holds s l) : s.r = s.w ↔ l.taken = l.committed.length := by
  have h1 := h.order
  have h2 := h.room
  rw [h.r, h.w]
  simp only [INPUT_BUF] at h2
  omega

theorem Holds.drop_append (h : Holds s l) (bs : List UInt8) :
    (l.committed ++ bs).drop l.taken = l.committed.drop l.taken ++ bs :=
  List.drop_append_of_le_length h.order

theorem Holds.length_drop (h : Holds s l) :
    (l.committed.drop l.taken ++ l.pending).length = l.held := by
  have := h.order
  rw [List.length_append, List.length_drop, Line.held]
  omega

theorem Holds.e_cell (h : Holds s l) : s.e % INPUT_BUF = (l.taken + l.held) % INPUT_BUF := by
  have := h.order
  rw [h.e, Line.held]
  simp only [INPUT_BUF]
  omega

theorem Holds.put (h : Holds s l) (hroom : l.held < INPUT_BUF) (c : UInt8) :
    Holds (s.put c) (l.type c) := by
  have hlen : (l.type c).pending.length = l.pending.length + 1 := by
    simp [Line.type]
  have horder := h.order
  refine ⟨h.r, h.w, ?_, h.order, ?_, ?_⟩
  · change add32 s.e 1 = (l.committed.length + (l.type c).pending.length) % 2 ^ 32
    rw [h.e, hlen, add32]
    omega
  · change l.committed.length + (l.type c).pending.length ≤ l.taken + INPUT_BUF
    rw [Line.held] at hroom
    omega
  · have hpush := h.bytes
    rw [h.drop_append] at hpush
    have hpush := hpush.push (by rwa [h.length_drop]) c
    rw [h.length_drop, ← h.e_cell, List.append_assoc] at hpush
    change InRing INPUT_BUF _ l.taken ((l.committed ++ (l.pending ++ [c])).drop l.taken)
    rwa [h.drop_append]

theorem Holds.commit (h : Holds s l) : Holds { s with w := s.e } l.commit := by
  have hlen : l.commit.committed.length = l.committed.length + l.pending.length :=
    List.length_append
  have horder := h.order
  refine ⟨h.r, ?_, ?_, ?_, ?_, ?_⟩
  · rw [hlen]
    exact h.e
  · rw [hlen]
    exact h.e
  · rw [hlen]
    exact horder.trans (Nat.le_add_right _ _)
  · rw [hlen]
    exact h.room
  · change InRing INPUT_BUF s.buf l.taken (((l.committed ++ l.pending) ++ []).drop l.taken)
    rw [List.append_nil]
    exact h.bytes

theorem Ring.erase (h : Ring s l) (hne : l.pending ≠ []) :
    Ring { s with e := sub32 s.e 1 } { l with pending := l.pending.dropLast } := by
  have hpos := List.length_pos_iff.mpr hne
  have hroom := h.room
  have horder := h.order
  have hlen : l.pending.dropLast.length = l.pending.length - 1 := List.length_dropLast
  refine ⟨⟨h.r, h.w, ?_, h.order, ?_, ?_⟩, fun hfull => ?_, fun hin => ?_⟩
  · change sub32 s.e 1 = (l.committed.length + l.pending.dropLast.length) % 2 ^ 32
    rw [h.e, hlen, sub32]
    omega
  · change l.committed.length + l.pending.dropLast.length ≤ l.taken + INPUT_BUF
    omega
  · have htake := h.bytes.take (l.held - 1)
    have heq : (l.committed.drop l.taken ++ l.pending).take (l.held - 1) =
        l.committed.drop l.taken ++ l.pending.dropLast := by
      rw [← List.dropLast_append_of_ne_nil hne, List.dropLast_eq_take, h.length_drop]
    rw [h.drop_append, heq] at htake
    change InRing INPUT_BUF s.buf l.taken ((l.committed ++ l.pending.dropLast).drop l.taken)
    rwa [h.drop_append]
  · change l.committed.length + l.pending.dropLast.length = l.taken + INPUT_BUF at hfull
    omega
  · exact h.clean (List.dropLast_subset _ hin)

theorem Holds.last_pending (h : Holds s l) (hne : l.pending ≠ []) :
    s.buf (sub32 s.e 1 % INPUT_BUF) = l.pending.getLast hne := by
  have hpos := List.length_pos_iff.mpr hne
  have hbytes := h.bytes
  have horder := h.order
  rw [h.drop_append, ← List.dropLast_append_getLast hne, ← List.append_assoc] at hbytes
  have hcell : sub32 s.e 1 % INPUT_BUF =
      (l.taken + (l.committed.drop l.taken ++ l.pending.dropLast).length) % INPUT_BUF := by
    rw [h.e, List.length_append, List.length_drop, List.length_dropLast]
    simp only [sub32, INPUT_BUF]
    omega
  rw [hcell]
  exact hbytes.last

/-- `^U` stops at the last committed character: no pending one is a newline. -/
theorem Ring.eraseLine (h : Ring s l) (fuel : ℕ) (hfuel : l.pending.length ≤ fuel) :
    Ring (s.eraseLine fuel) { l with pending := [] } := by
  induction fuel generalizing s l with
  | zero =>
    have hnil : l.pending = [] := List.length_eq_zero_iff.mp (Nat.le_zero.mp hfuel)
    rw [← hnil]
    exact h
  | succ fuel ih =>
    by_cases hnil : l.pending = []
    · rw [Input.eraseLine, if_neg fun hc => hc.1 (h.e_eq_w.mpr hnil), ← hnil]
      exact h
    · have hlast : s.buf (sub32 s.e 1 % INPUT_BUF) ≠ newline := by
        rw [h.last_pending hnil]
        intro heq
        exact h.clean (heq ▸ List.getLast_mem hnil)
      rw [Input.eraseLine, if_pos ⟨fun hc => hnil (h.e_eq_w.mp hc), hlast⟩]
      have hlen : l.pending.dropLast.length = l.pending.length - 1 := List.length_dropLast
      have hshort : l.pending.dropLast.length ≤ fuel := by omega
      have hrest := ih (h.erase hnil) hshort
      exact hrest

theorem Ring.key (h : Ring s l) (c : UInt8) : Ring (s.key c).1 (l.key c) := by
  unfold Input.key Line.key
  by_cases hP : c = ctrl 'P'
  · rw [if_pos hP, if_pos hP]
    exact h
  rw [if_neg hP, if_neg hP]
  by_cases hU : c = ctrl 'U'
  · rw [if_pos hU, if_pos hU]
    refine h.eraseLine _ ?_
    have h1 := h.order
    have h2 := h.room
    rw [h.e, h.w]
    simp only [sub32, INPUT_BUF] at h2 ⊢
    omega
  rw [if_neg hU, if_neg hU]
  by_cases hH : c = ctrl 'H' ∨ c = delete
  · rw [if_pos hH, if_pos hH]
    by_cases hnil : l.pending = []
    · rw [if_neg fun hne => hne (h.e_eq_w.mpr hnil), hnil]
      change Ring s { l with pending := [] }
      rw [← hnil]
      exact h
    · rw [if_pos fun heq => hnil (h.e_eq_w.mp heq)]
      exact h.erase hnil
  rw [if_neg hH, if_neg hH, h.held_eq]
  by_cases hroom : c ≠ 0 ∧ l.held < INPUT_BUF
  · rw [if_pos hroom, if_pos hroom]
    simp only
    generalize (if c = carriageReturn then newline else c) = d
    have hput := h.toHolds.put hroom.2 d
    have hiff := hput.full_iff
    by_cases hend : d = newline ∨ d = ctrl 'D' ∨ (l.type d).held = INPUT_BUF
    · rw [if_pos (by rwa [hiff]), if_pos hend]
      exact ⟨hput.commit, fun _ => rfl, List.not_mem_nil⟩
    · rw [if_neg (by rwa [hiff]), if_neg hend]
      refine ⟨hput, fun hfull => absurd (Or.inr (Or.inr ?_)) hend, fun hin => ?_⟩
      · change (l.type d).committed.length + (l.type d).pending.length - (l.type d).taken = _
        omega
      · rcases List.mem_append.mp hin with hin | hin
        · exact h.clean hin
        · exact hend (Or.inl (List.mem_singleton.mp hin).symm)
  · rw [if_neg hroom, if_neg hroom]
    exact h

theorem Holds.next_eq (h : Holds s l) (hne : s.r ≠ s.w) : ∃ bs,
    l.committed.drop l.taken = s.next :: bs := by
  have hlt : l.taken < l.committed.length := by
    have := h.order
    rw [Ne, h.r_eq_w] at hne
    omega
  have hbytes := h.bytes
  have hcell : s.r % INPUT_BUF = l.taken % INPUT_BUF := by
    rw [h.r]
    simp only [INPUT_BUF]
    omega
  rw [h.drop_append, List.drop_eq_getElem_cons hlt, List.cons_append] at hbytes
  rw [Input.next, hcell, hbytes.head, List.drop_eq_getElem_cons hlt]
  exact ⟨_, rfl⟩

theorem Holds.get_unget (h : Holds s l) : s.get.unget = s := by
  have hback : sub32 (add32 s.r 1) 1 = s.r := by
    rw [h.r]
    simp only [sub32, add32]
    omega
  simp only [Input.get, Input.unget, hback]

theorem Ring.get (h : Ring s l) (hne : s.r ≠ s.w) :
    Ring s.get { l with taken := l.taken + 1 } := by
  have hroom := h.room
  have hlt : l.taken < l.committed.length := by
    have := h.order
    rw [Ne, h.r_eq_w] at hne
    omega
  refine ⟨⟨?_, h.w, h.e, hlt, ?_, ?_⟩, fun hfull => ?_, h.clean⟩
  · change add32 s.r 1 = (l.taken + 1) % 2 ^ 32
    rw [h.r, add32]
    omega
  · change l.committed.length + l.pending.length ≤ l.taken + 1 + INPUT_BUF
    omega
  · have hbytes := h.bytes
    have hlt' : l.taken < (l.committed ++ l.pending).length := by
      rw [List.length_append]
      omega
    rw [List.drop_eq_getElem_cons hlt'] at hbytes
    exact hbytes.pop
  · change l.committed.length + l.pending.length = l.taken + 1 + INPUT_BUF at hfull
    omega

end Input

end Xv6.Console
