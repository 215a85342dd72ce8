import Xv6.Grep.Match
import Xv6.Memmove

/-!
# The lines that `grep` writes

`grep` reads into a buffer, looks at the lines that end there and keeps what is left for the next
read. It does so only when there was a line: a read that brings no newline is lost with all that
was kept. Addresses are counted from `buf`.
-/

namespace Xv6.Grep
open Lib

def newline : UInt8 := 10

def bufSize : ℕ := 1024

section Code

def cstr (b : Bytes) : ℕ → ℕ → List UInt8
  | 0, _ => []
  | fuel + 1, p => if b p = 0 then [] else b p :: cstr b fuel (p + 1)

def strchr (b : Bytes) (c : UInt8) : ℕ → ℕ → Option ℕ
  | 0, _ => none
  | fuel + 1, p =>
    if b p = 0 then none
    else if b p = c then some p
    else strchr b c fuel (p + 1)

/-- The inner loop: the buffer and `p` then, and what was written. -/
def scan (pattern : List UInt8) : ℕ → Bytes → ℕ → Bytes × ℕ × List (List UInt8)
  | 0, b, p => (b, p, [])
  | fuel + 1, b, p =>
    match strchr b newline bufSize p with
    | none => (b, p, [])
    | some q =>
      let b := Function.update b q 0
      if matchText pattern (cstr b bufSize p) then
        let b : Bytes := Function.update b q newline
        let (b', p', out) := scan pattern fuel b (q + 1)
        (b', p', b.slice p (q + 1 - p) :: out)
      else scan pattern fuel b (q + 1)

/-- What is done with the `n` bytes of one `read`: the buffer and `m` then, and what was
written. -/
def round (pattern : List UInt8) (c : List UInt8) (b : Bytes) (m : ℕ) :
    Bytes × ℕ × List (List UInt8) :=
  let b := b.copy m c
  let m := m + c.length
  let b := Function.update b m 0
  let (b, p, out) := scan pattern bufSize b 0
  let m := if p = 0 then 0 else m
  if 0 < m then ((Memmove.User.memmove 0 p (m - p : ℕ) b).2, m - p, out) else (b, m, out)

/-- The outer loop, with what `read` answers until the end of the file. -/
def grepFrom (pattern : List UInt8) : List (List UInt8) → Bytes → ℕ → List (List UInt8)
  | [], _, _ => []
  | c :: cs, b, m =>
    let (b, m, out) := round pattern c b m
    out ++ grepFrom pattern cs b m

def grep (pattern : List UInt8) (chunks : List (List UInt8)) (buf : Bytes) : List (List UInt8) :=
  grepFrom pattern chunks buf 0

end Code

section Cut

def cut : List UInt8 → List (List UInt8) × List UInt8
  | [] => ([], [])
  | x :: t =>
    if x = newline then ([] :: (cut t).1, (cut t).2)
    else
      match (cut t).1 with
      | [] => ([], x :: (cut t).2)
      | l :: ls => ((x :: l) :: ls, (cut t).2)

def ended (lines : List (List UInt8)) : List (List UInt8) := lines.map (· ++ [newline])

def matching (pattern : List UInt8) (lines : List (List UInt8)) : List (List UInt8) :=
  ended (lines.filter (matchText pattern))

def kept (t : List UInt8) : List UInt8 := if (cut t).1 = [] then [] else (cut t).2

/-- `read` answers with some bytes, as many as are asked for or fewer. -/
def Served : List UInt8 → List (List UInt8) → Prop
  | _, [] => True
  | r, c :: cs => 0 < c.length ∧ c.length ≤ bufSize - r.length - 1 ∧ Served (kept (r ++ c)) cs

variable {l r t u : List UInt8}

theorem cut_of_notMem (h : newline ∉ t) : cut t = ([], t) := by
  induction t with
  | nil => rfl
  | cons x t ih =>
    obtain ⟨hx, ht⟩ := not_or.1 (mt List.mem_cons.2 h)
    rw [cut, if_neg (Ne.symm hx), ih ht]

theorem cut_line (h : newline ∉ l) (t : List UInt8) :
    cut (l ++ newline :: t) = (l :: (cut t).1, (cut t).2) := by
  induction l with
  | nil => rw [List.nil_append, cut, if_pos rfl]
  | cons x l ih =>
    obtain ⟨hx, hl⟩ := not_or.1 (mt List.mem_cons.2 h)
    rw [List.cons_append, cut, if_neg (Ne.symm hx), ih hl]

theorem cut_flatten (t : List UInt8) : (ended (cut t).1).flatten ++ (cut t).2 = t := by
  induction t with
  | nil => rfl
  | cons x t ih =>
    rw [cut]
    by_cases hx : x = newline
    · rw [if_pos hx]
      change newline :: ((ended (cut t).1).flatten ++ (cut t).2) = x :: t
      rw [ih, hx]
    · rw [if_neg hx]
      cases hc : (cut t).1 with
      | nil =>
        rw [hc] at ih
        exact congrArg (x :: ·) ih
      | cons l ls =>
        rw [hc] at ih
        exact congrArg (x :: ·) ih

theorem newline_notMem_rest (t : List UInt8) : newline ∉ (cut t).2 := by
  induction t with
  | nil => exact List.not_mem_nil
  | cons x t ih =>
    rw [cut]
    by_cases hx : x = newline
    · rw [if_pos hx]
      exact ih
    · rw [if_neg hx]
      cases (cut t).1 with
      | nil =>
        intro hmem
        rcases List.mem_cons.1 hmem with he | hmem
        · exact hx he.symm
        · exact ih hmem
      | cons l ls => exact ih

theorem ended_flatten_pos {lines : List (List UInt8)} (h : lines ≠ []) :
    0 < (ended lines).flatten.length := by
  obtain ⟨l, ls, rfl⟩ := List.exists_cons_of_ne_nil h
  rw [ended, List.map_cons, List.flatten_cons, List.length_append, List.length_append,
    List.length_singleton]
  omega

theorem cut_lines_ne_nil (h : newline ∈ t) : (cut t).1 ≠ [] := by
  intro hnil
  have hflat := cut_flatten t
  rw [hnil] at hflat
  rw [← hflat] at h
  exact newline_notMem_rest t h

theorem cut_append (t u : List UInt8) : cut (t ++ u) =
    ((cut t).1 ++ (cut ((cut t).2 ++ u)).1, (cut ((cut t).2 ++ u)).2) := by
  induction t with
  | nil => rfl
  | cons x t ih =>
    rw [List.cons_append, cut, ih, cut]
    by_cases hx : x = newline
    · rw [if_pos hx, if_pos hx]
      rfl
    · rw [if_neg hx, if_neg hx]
      cases hc : (cut t).1 with
      | nil =>
        rw [List.nil_append, List.nil_append]
        exact (if_neg hx).symm
      | cons l ls => rfl

theorem cut_ended {lines : List (List UInt8)} (h : ∀ l ∈ lines, newline ∉ l) :
    cut (ended lines).flatten = (lines, []) := by
  induction lines with
  | nil => rfl
  | cons l lines ih =>
    have hl := h l List.mem_cons_self
    have hflat : (ended (l :: lines)).flatten = l ++ newline :: (ended lines).flatten := by
      rw [ended, List.map_cons, List.flatten_cons, List.append_assoc]
      rfl
    rw [hflat, cut_line hl, ih fun k hk => h k (List.mem_cons_of_mem l hk)]

end Cut

section Buffer

variable {b : Bytes} {p fuel : ℕ} {l t : List UInt8} {x : UInt8}

def Has (b : Bytes) : ℕ → List UInt8 → Prop
  | _, [] => True
  | p, x :: t => b p = x ∧ Has b (p + 1) t

theorem has_append {s : List UInt8} :
    Has b p (s ++ t) ↔ Has b p s ∧ Has b (p + s.length) t := by
  induction s generalizing p with
  | nil => exact (iff_of_eq (true_and _)).symm
  | cons x s ih =>
    rw [List.cons_append, Has, ih, Has, and_assoc, List.length_cons, Nat.add_right_comm p 1]
    rfl

theorem Has.congr {b' : Bytes} (h : Has b p t)
    (heq : ∀ a, p ≤ a → a < p + t.length → b' a = b a) : Has b' p t := by
  induction t generalizing p with
  | nil => trivial
  | cons x t ih =>
    rw [List.length_cons] at heq
    refine ⟨(heq p (Nat.le_refl p) (by omega)).trans h.1, ih h.2 fun a hlo hhi => ?_⟩
    exact heq a (by omega) (by omega)

theorem Has.slice (h : Has b p t) : b.slice p t.length = t := by
  induction t generalizing p with
  | nil => rfl
  | cons x t ih =>
    have hrest := ih h.2
    unfold Bytes.slice at hrest ⊢
    rw [List.length_cons, List.range_succ_eq_map, List.map_cons, List.map_map, Nat.add_zero, h.1]
    congr 1
    refine Eq.trans (List.map_congr_left fun k _ => ?_) hrest
    rw [Function.comp_apply, Nat.succ_eq_add_one, Nat.add_assoc, Nat.add_comm 1]

theorem has_iff : Has b p t ↔ ∀ k < t.length, b (p + k) = t.getD k 0 := by
  induction t generalizing p with
  | nil => exact iff_of_true trivial nofun
  | cons x t ih =>
    rw [Has, ih, List.length_cons]
    constructor
    · rintro ⟨h0, h⟩ k hk
      cases k with
      | zero => exact h0
      | succ k =>
        rw [← Nat.add_assoc, Nat.add_right_comm, h k (by omega)]
        rfl
    · intro h
      refine ⟨h 0 (by omega), fun k hk => ?_⟩
      have hbyte := h (k + 1) (by omega)
      rw [← Nat.add_assoc, Nat.add_right_comm] at hbyte
      exact hbyte

theorem cstr_eq (h : Has b p t) (hend : b (p + t.length) = 0) (hnul : 0 ∉ t)
    (hfuel : t.length < fuel) : cstr b fuel p = t := by
  induction t generalizing p fuel with
  | nil =>
    obtain ⟨fuel, rfl⟩ := Nat.exists_eq_succ_of_ne_zero (Nat.ne_of_gt hfuel)
    exact if_pos hend
  | cons x t ih =>
    obtain ⟨fuel, rfl⟩ := Nat.exists_eq_succ_of_ne_zero (Nat.ne_of_gt (Nat.zero_lt_of_lt hfuel))
    obtain ⟨hx, ht⟩ := not_or.1 (mt List.mem_cons.2 hnul)
    rw [List.length_cons] at hend hfuel
    rw [cstr, h.1, if_neg (Ne.symm hx), ih h.2 _ ht (by omega)]
    rw [Nat.add_right_comm]
    exact hend

theorem strchr_none (h : Has b p t) (hend : b (p + t.length) = 0) (hx : x ∉ t) :
    strchr b x fuel p = none := by
  induction fuel generalizing p t with
  | zero => rfl
  | succ fuel ih =>
    cases t with
    | nil => exact if_pos hend
    | cons y t =>
      obtain ⟨hy, ht⟩ := not_or.1 (mt List.mem_cons.2 hx)
      rw [strchr, h.1, if_neg (Ne.symm hy), ih h.2 _ ht]
      · exact ite_self _
      · rw [List.length_cons] at hend
        rw [Nat.add_right_comm]
        exact hend

theorem strchr_line (h : Has b p (l ++ x :: t)) (hl : x ∉ l) (hnul : 0 ∉ l ++ x :: t)
    (hfuel : l.length < fuel) : strchr b x fuel p = some (p + l.length) := by
  induction l generalizing p fuel with
  | nil =>
    obtain ⟨fuel, rfl⟩ := Nat.exists_eq_succ_of_ne_zero (Nat.ne_of_gt hfuel)
    rw [strchr, h.1, if_neg (Ne.symm (not_or.1 (mt List.mem_cons.2 hnul)).1), if_pos rfl]
    rfl
  | cons y l ih =>
    obtain ⟨fuel, rfl⟩ := Nat.exists_eq_succ_of_ne_zero (Nat.ne_of_gt (Nat.zero_lt_of_lt hfuel))
    obtain ⟨hy, hl⟩ := not_or.1 (mt List.mem_cons.2 hl)
    obtain ⟨hy0, hnul⟩ := not_or.1 (mt List.mem_cons.2 hnul)
    rw [List.length_cons] at hfuel ⊢
    rw [strchr, h.1, if_neg (Ne.symm hy0), if_neg (Ne.symm hy), ih h.2 hl hnul (by omega),
      Nat.add_right_comm, Nat.add_assoc]

end Buffer

section Refine

variable (pattern : List UInt8) {b : Bytes} {p fuel : ℕ} {c r t : List UInt8}

theorem scan_spec (h : Has b p t) (hend : b (p + t.length) = 0) (hnul : 0 ∉ t)
    (hlen : t.length < bufSize) (hfuel : t.length < fuel) :
    ∃ b', scan pattern fuel b p =
        (b', p + (ended (cut t).1).flatten.length, matching pattern (cut t).1) ∧
      Has b' (p + (ended (cut t).1).flatten.length) (cut t).2 := by
  induction fuel generalizing b p t with
  | zero => omega
  | succ fuel ih =>
    rw [scan]
    by_cases hnl : newline ∈ t
    · obtain ⟨l, t, rfl, hl⟩ := List.eq_append_cons_of_mem hnl
      rw [List.length_append, List.length_cons] at hend hlen hfuel
      obtain ⟨hl0, ht0⟩ := not_or.1 (mt List.mem_append.2 hnul)
      obtain ⟨hasl, hq, hast⟩ := has_append.1 h
      have hflat : (ended (l :: (cut t).1)).flatten.length =
          l.length + 1 + (ended (cut t).1).flatten.length := by
        rw [ended, List.map_cons, List.flatten_cons, List.length_append, List.length_append]
        rfl
      -- the other lines, in a buffer that differs in the newline only
      have hnext : ∀ b₂ : Bytes, (∀ a, a ≠ p + l.length → b₂ a = b a) →
          ∃ b', scan pattern fuel b₂ (p + l.length + 1) =
              (b', p + (ended (l :: (cut t).1)).flatten.length, matching pattern (cut t).1) ∧
            Has b' (p + (ended (l :: (cut t).1)).flatten.length) (cut t).2 := by
        intro b₂ hb₂
        rw [hflat, ← Nat.add_assoc, ← Nat.add_assoc]
        refine ih (hast.congr fun a hlo _ => hb₂ a (by omega)) ?_
          (fun hmem => ht0 (List.mem_cons_of_mem _ hmem)) (by omega) (by omega)
        rw [hb₂ _ (by omega), ← hend]
        congr 1
        omega
      have hcstr : cstr (Function.update b (p + l.length) 0) bufSize p = l := by
        refine cstr_eq (hasl.congr fun a _ hhi => ?_) (Function.update_self _ _ _) hl0 (by omega)
        exact Function.update_of_ne (Nat.ne_of_lt hhi) _ _
      rw [strchr_line h hl hnul (by omega), cut_line hl]
      simp only [hcstr]
      by_cases hm : matchText pattern l = true
      · obtain ⟨b', hscan, hhas⟩ := hnext
          (Function.update (Function.update b (p + l.length) 0) (p + l.length) newline)
          fun a ha => by rw [Function.update_of_ne ha, Function.update_of_ne ha]
        have hsame : Function.update (Function.update b (p + l.length) 0) (p + l.length) newline =
            b := by rw [Function.update_idem, ← hq, Function.update_eq_self]
        have hslice : b.slice p (p + l.length + 1 - p) = l ++ [newline] := by
          have hline : Has b p (l ++ [newline]) := has_append.2 ⟨hasl, hq, trivial⟩
          have hslice := hline.slice
          rwa [List.length_append, List.length_singleton,
            show l.length + 1 = p + l.length + 1 - p by omega] at hslice
        refine ⟨b', ?_, hhas⟩
        rw [if_pos hm, hscan, hsame, hslice, matching, matching, List.filter_cons_of_pos hm]
        rfl
      · obtain ⟨b', hscan, hhas⟩ := hnext (Function.update b (p + l.length) 0)
          fun a ha => Function.update_of_ne ha _ _
        refine ⟨b', ?_, hhas⟩
        rw [if_neg hm, hscan, matching, matching, List.filter_cons_of_neg hm]
    · rw [strchr_none h hend hnl, cut_of_notMem hnl]
      exact ⟨b, rfl, h⟩

theorem round_spec (h : Has b 0 r) (hnul : 0 ∉ r ++ c)
    (hlen : c.length ≤ bufSize - r.length - 1) (hpos : 0 < c.length) :
    ∃ b', round pattern c b r.length =
        (b', (kept (r ++ c)).length, matching pattern (cut (r ++ c)).1) ∧
      Has b' 0 (kept (r ++ c)) := by
  have hlt : (r ++ c).length < bufSize := by
    rw [List.length_append]
    omega
  have hhas : Has (Function.update (b.copy r.length c) (r.length + c.length) 0) 0 (r ++ c) := by
    refine has_append.2 ⟨h.congr fun a _ hhi => ?_, has_iff.2 fun k hk => ?_⟩
    · rw [Function.update_of_ne (by omega), Bytes.copy_outside _ (by omega)]
    · rw [Function.update_of_ne (by omega), Nat.zero_add, Bytes.copy_inside _ hk]
  obtain ⟨b₁, hscan, hrest⟩ := scan_spec pattern hhas
    (by rw [Nat.zero_add, List.length_append, Function.update_self]) hnul hlt hlt
  rw [Nat.zero_add] at hscan hrest
  have hflat := congrArg List.length (cut_flatten (r ++ c))
  rw [List.length_append, List.length_append] at hflat
  unfold round
  simp only [hscan]
  by_cases hnil : (cut (r ++ c)).1 = []
  · refine ⟨b₁, ?_, ?_⟩
    · rw [kept, if_pos hnil, hnil]
      rfl
    · rw [kept, if_pos hnil]
      trivial
  · have hp := ended_flatten_pos hnil
    rw [if_neg (Nat.ne_of_gt hp), if_pos (by omega), kept, if_neg hnil,
      show r.length + c.length - (ended (cut (r ++ c)).1).flatten.length =
        (cut (r ++ c)).2.length by omega]
    refine ⟨_, rfl, ?_⟩
    unfold Memmove.User.memmove
    have hsmall : bufSize ≤ 2 ^ 32 := by decide
    rw [List.length_append] at hlt
    rw [Int.toNat_natCast, Memmove.copyUp_below (by omega) (by omega) (Nat.zero_le _)]
    refine has_iff.2 fun k hk => ?_
    rw [Nat.zero_add]
    exact (if_pos (by omega)).trans (has_iff.1 hrest k hk)

def written (pattern : List UInt8) : List UInt8 → List (List UInt8) → List (List UInt8)
  | _, [] => []
  | r, c :: cs => matching pattern (cut (r ++ c)).1 ++ written pattern (kept (r ++ c)) cs

theorem mem_of_mem_kept {x : UInt8} (h : x ∈ kept t) : x ∈ t := by
  unfold kept at h
  split_ifs at h
  · cases h
  · rw [← cut_flatten t]
    exact List.mem_append_right _ h

theorem grepFrom_eq {chunks : List (List UInt8)} (h : Has b 0 r) (hr : 0 ∉ r)
    (hnul : 0 ∉ chunks.flatten) (hserved : Served r chunks) :
    grepFrom pattern chunks b r.length = written pattern r chunks := by
  induction chunks generalizing b r with
  | nil => rfl
  | cons c cs ih =>
    obtain ⟨hpos, hlen, hserved⟩ := hserved
    rw [List.flatten_cons] at hnul
    obtain ⟨hc, hcs⟩ := not_or.1 (mt List.mem_append.2 hnul)
    have hrc : 0 ∉ r ++ c := fun hmem => (List.mem_append.1 hmem).elim hr hc
    obtain ⟨b', hround, hhas⟩ := round_spec pattern h hrc hlen hpos
    rw [grepFrom, hround, written]
    simp only
    rw [ih hhas (fun hmem => hrc (mem_of_mem_kept hmem)) hcs hserved]

end Refine

section Lines

variable {pattern r : List UInt8} {chunks : List (List UInt8)}

theorem written_of_newlines (h : ∀ c ∈ chunks, newline ∈ c) (hr : newline ∉ r) :
    written pattern r chunks = matching pattern (cut (r ++ chunks.flatten)).1 := by
  induction chunks generalizing r with
  | nil =>
    rw [List.flatten_nil, List.append_nil, cut_of_notMem hr]
    rfl
  | cons c cs ih =>
    have hc : newline ∈ r ++ c := List.mem_append_right r (h c List.mem_cons_self)
    have hkept : kept (r ++ c) = (cut (r ++ c)).2 := if_neg (cut_lines_ne_nil hc)
    rw [written, hkept, ih (fun k hk => h k (List.mem_cons_of_mem c hk)) (newline_notMem_rest _),
      List.flatten_cons, ← List.append_assoc, cut_append (r ++ c)]
    simp only [matching, ended, List.filter_append, List.map_append]

theorem matching_nil (lines : List (List UInt8)) : matching [] lines = ended lines := by
  have hall : ∀ l, matchText [] l = true := by
    intro l
    rw [matchText_iff, if_neg nofun]
    exact ⟨[], [], l, rfl, Language.nil_mem_one, nofun⟩
  rw [matching, List.filter_eq_self.2 fun l _ => hall l]

theorem newline_notMem_kept (t : List UInt8) : newline ∉ kept t := by
  unfold kept
  split_ifs
  · exact List.not_mem_nil
  · exact newline_notMem_rest t

theorem written_length (hr : newline ∉ r) (hserved : Served r chunks) :
    (written [] r chunks).flatten.length ≤ (r ++ chunks.flatten).length ∧
      ((∃ c ∈ chunks, newline ∉ c) →
        (written [] r chunks).flatten.length < (r ++ chunks.flatten).length) := by
  induction chunks generalizing r with
  | nil =>
    refine ⟨Nat.zero_le _, ?_⟩
    rintro ⟨c, hc, -⟩
    cases hc
  | cons c cs ih =>
    obtain ⟨hpos, -, hserved⟩ := hserved
    obtain ⟨hle, hlt⟩ := ih (newline_notMem_kept _) hserved
    have hflat := congrArg List.length (cut_flatten (r ++ c))
    rw [written, matching_nil, List.flatten_append, List.flatten_cons]
    simp only [List.length_append] at hle hlt hflat ⊢
    by_cases hc : newline ∈ c
    · have hkept : kept (r ++ c) = (cut (r ++ c)).2 :=
        if_neg (cut_lines_ne_nil (List.mem_append_right r hc))
      rw [hkept] at hle hlt ⊢
      refine ⟨by omega, ?_⟩
      rintro ⟨k, hk, hnl⟩
      have := hlt ⟨k, (List.mem_cons.1 hk).resolve_left fun e => hnl (e ▸ hc), hnl⟩
      omega
    · have hcut : cut (r ++ c) = ([], r ++ c) :=
        cut_of_notMem fun hmem => (List.mem_append.1 hmem).elim hr hc
      have hkept : kept (r ++ c) = [] := by
        rw [kept, hcut]
        rfl
      rw [hkept, List.length_nil] at hle
      rw [hkept, hcut]
      exact ⟨by simp only [ended, List.map_nil, List.flatten_nil, List.length_nil]; omega,
        fun _ => by simp only [ended, List.map_nil, List.flatten_nil, List.length_nil]; omega⟩

/-- For every pattern the lines that match are written, each of them whole, if and only if
every read brings a newline. -/
theorem grep_lines_iff {lines : List (List UInt8)} (buf : Bytes) (hnul : 0 ∉ chunks.flatten)
    (hlines : ∀ l ∈ lines, newline ∉ l) (hstream : chunks.flatten = (ended lines).flatten)
    (hserved : Served [] chunks) :
    (∀ pattern, grep pattern chunks buf = matching pattern lines) ↔
      ∀ c ∈ chunks, newline ∈ c := by
  have hgrep : ∀ pattern, grep pattern chunks buf = written pattern [] chunks := fun pattern =>
    grepFrom_eq pattern (r := []) trivial List.not_mem_nil hnul hserved
  constructor
  · intro h c hc
    by_contra hnl
    have hless := (written_length List.not_mem_nil hserved).2 ⟨c, hc, hnl⟩
    rw [← hgrep, h, matching_nil, List.nil_append, hstream] at hless
    exact Nat.lt_irrefl _ hless
  · intro h pattern
    rw [hgrep, written_of_newlines h List.not_mem_nil, List.nil_append, hstream, cut_ended hlines]

/-- Two lines in two reads. -/
theorem grep_lines_two : grep [99] [[97, 10, 98], [99, 10]] Bytes.zero =
    matching [99] [[97], [98, 99]] := by
  have hserved : Served [] [[97, 10, 98], [99, 10]] :=
    ⟨by decide, by decide, by decide, by decide, trivial⟩
  have hlines : ∀ l ∈ [[97], [98, 99]], newline ∉ l := by decide
  have hstream : [[97, 10, 98], [99, 10]].flatten = (ended [[97], [98, 99]]).flatten := rfl
  exact (grep_lines_iff Bytes.zero (by decide) hlines hstream hserved).2 (by decide) [99]

/-- The line "ab" in two reads: the "a" is lost. -/
theorem grep_loses : Served [] [[97], [98, 10]] ∧
    grep [97] [[97], [98, 10]] Bytes.zero = [] ∧
    matching [97] [[97, 98]] = [[97, 98, 10]] := by
  have hserved : Served [] [[97], [98, 10]] :=
    ⟨by decide, by decide, by decide, by decide, trivial⟩
  have hmatch : matchText [97] [97, 98] = true := by
    simp [matchText, matchFrom, matchhere, caret, dollar]
  have hno : matchText [97] [98] = false := by
    simp [matchText, matchFrom, matchhere, caret, dollar, dot]
  refine ⟨hserved, ?_, ?_⟩
  · refine (grepFrom_eq (r := []) [97] trivial List.not_mem_nil (by decide) hserved).trans ?_
    have hfirst : cut [97] = ([], [97]) := rfl
    have hsecond : cut [98, 10] = ([[98]], []) := rfl
    simp [written, kept, matching, ended, hfirst, hsecond, hno]
  · rw [matching, List.filter_cons_of_pos hmatch]
    rfl

end Lines

end Xv6.Grep
