import Mathlib.Data.List.TakeWhile
import Xv6.Lib.Simulation
import Xv6.Sh.Machine

/-!
# Tokens

The tokens of a line, and the parser over them instead of characters. A cursor into the line
stands for the tokens of what is left there, and a pair of indices for the text between them.
-/

namespace Xv6.Sh
open Lib

inductive Tok
  | word (w : List UInt8)
  | bar
  | amp
  | semi
  | lpar
  | rpar
  | lt
  | gt
  | gtgt
  deriving DecidableEq

namespace Tok

def kind : Tok → UInt8
  | .word _ => letter
  | .bar => Sh.bar
  | .amp => Sh.amp
  | .semi => Sh.semi
  | .lpar => Sh.lpar
  | .rpar => Sh.rpar
  | .lt => Sh.lt
  | .gt => Sh.gt
  | .gtgt => plus

def text : Tok → List UInt8
  | .word w => w
  | .gtgt => [Sh.gt, Sh.gt]
  | t => [t.kind]

def symbol : Tok → Option UInt8
  | .word _ => none
  | .gtgt => some Sh.gt
  | t => some t.kind

def single (c : UInt8) : Option Tok :=
  if c = Sh.bar then some .bar
  else if c = Sh.amp then some .amp
  else if c = Sh.semi then some .semi
  else if c = Sh.lpar then some .lpar
  else if c = Sh.rpar then some .rpar
  else if c = Sh.lt then some .lt
  else none

end Tok

/-- White space separates tokens, symbols are tokens by themselves, and everything else makes
words as long as possible. -/
def tokens : List UInt8 → List Tok
  | [] => []
  | c :: cs =>
    if whitespace.contains c then tokens cs
    else match Tok.single c with
      | some t => t :: tokens cs
      | none =>
        if c = gt then
          if cs.head? = some gt then .gtgt :: tokens cs.tail else .gt :: tokens cs
        else .word (c :: cs.takeWhile isWord) :: tokens (cs.dropWhile isWord)
termination_by cs => cs.length
decreasing_by
  all_goals simp only [List.length_cons]
  · omega
  · omega
  · rw [List.length_tail]
    omega
  · omega
  · have := List.length_dropWhile_le isWord cs
    omega

def toks : Scanner (List Tok) (List UInt8) where
  gettoken
    | [] => .ret ((0, []), [])
    | t :: ts => .ret ((t.kind, t.text), ts)
  peek := fun ks ts => .ret ((ts.head?.bind Tok.symbol).any ks.contains, ts)

section Cursor

variable {buf : List UInt8} {p : UInt8 → Bool} {s : ℕ}

theorem skipFrom_eq (fuel : ℕ) (hs : s ≤ buf.length) (hf : buf.length ≤ s + fuel) :
    skipFrom buf p fuel s = s + ((buf.drop s).takeWhile p).length := by
  induction fuel generalizing s with
  | zero =>
    rw [List.drop_eq_nil_of_le (i := s) hf]
    rfl
  | succ fuel ih =>
    rw [skipFrom]
    by_cases hlt : s < buf.length
    · have hat : byteAt buf s = buf[s] := by
        rw [byteAt, List.getElem?_eq_getElem hlt]
        rfl
      rw [hat, List.drop_eq_getElem_cons hlt, List.takeWhile_cons]
      by_cases hp : p buf[s]
      · rw [if_pos ⟨hlt, hp⟩, if_pos hp, ih (by omega) (by omega), List.length_cons]
        omega
      · rw [if_neg fun h => hp h.2, if_neg hp]
        rfl
    · rw [if_neg fun h => hlt h.1, List.drop_eq_nil_of_le (by omega)]
      rfl

theorem skip_eq (hs : s ≤ buf.length) :
    skip buf p s = s + ((buf.drop s).takeWhile p).length :=
  skipFrom_eq _ hs (by omega)

theorem skip_le (hs : s ≤ buf.length) : skip buf p s ≤ buf.length := by
  have h1 := (List.takeWhile_prefix (l := buf.drop s) p).length_le
  rw [List.length_drop] at h1
  rw [skip_eq hs]
  omega

theorem drop_skip (hs : s ≤ buf.length) :
    buf.drop (skip buf p s) = (buf.drop s).dropWhile p := by
  rw [skip_eq hs, ← List.drop_drop]
  calc (buf.drop s).drop ((buf.drop s).takeWhile p).length
      = ((buf.drop s).takeWhile p ++ (buf.drop s).dropWhile p).drop
          ((buf.drop s).takeWhile p).length := by rw [List.takeWhile_append_dropWhile]
    _ = (buf.drop s).dropWhile p := List.drop_left

theorem byteAt_eq (s : ℕ) : byteAt buf s = ((buf.drop s).head?).getD 0 := by
  rw [byteAt, List.head?_drop]

theorem tokens_dropWhile (cs : List UInt8) :
    tokens (cs.dropWhile whitespace.contains) = tokens cs := by
  induction cs with
  | nil => rfl
  | cons c cs ih =>
    rw [List.dropWhile_cons]
    by_cases hc : whitespace.contains c
    · rw [if_pos hc, ih, tokens, if_pos hc]
    · rw [if_neg hc]

theorem tokens_skip (hs : s ≤ buf.length) :
    tokens (buf.drop (skip buf whitespace.contains s)) = tokens (buf.drop s) := by
  rw [drop_skip hs, tokens_dropWhile]

theorem not_whitespace_skip (hs : s ≤ buf.length) :
    ∀ c cs, buf.drop (skip buf whitespace.contains s) = c :: cs → ¬whitespace.contains c := by
  intro c cs h
  rw [drop_skip hs] at h
  have := List.head?_dropWhile_not whitespace.contains (buf.drop s)
  rw [h] at this
  simpa using this

end Cursor

section Words

def slice (buf : List UInt8) (w : Span) : List UInt8 := (buf.drop w.1).take (w.2 - w.1)

structure IsWord (buf : List UInt8) (w : Span) : Prop where
  lt : w.1 < w.2
  le : w.2 ≤ buf.length
  inside : ∀ c ∈ slice buf w, isWord c
  after : ∀ c ∈ buf[w.2]?, ¬isWord c

variable {buf : List UInt8} {s : ℕ}

theorem isWord_of_single {c : UInt8} (h : Tok.single c = none) (hg : c ≠ gt)
    (hw : ¬whitespace.contains c) : isWord c := by
  simp only [Tok.single] at h
  split_ifs at h
  simp_all [isWord, symbols]

theorem single_some {c : UInt8} {t : Tok} (h : Tok.single c = some t) :
    (c = bar ∨ c = lpar ∨ c = rpar ∨ c = semi ∨ c = amp ∨ c = lt) ∧ t.kind = c ∧
      t.text = [c] ∧ t.symbol = some c ∧ c ≠ letter := by
  simp only [Tok.single] at h
  split_ifs at h with h1 h2 h3 h4 h5 h6
  all_goals
    obtain rfl := Option.some.inj h
    subst c
    decide

theorem single_none {c : UInt8} (h : Tok.single c = none) :
    ¬(c = bar ∨ c = lpar ∨ c = rpar ∨ c = semi ∨ c = amp ∨ c = lt) := by
  simp only [Tok.single] at h
  split_ifs at h
  tauto

structure Scans (buf : List UInt8) (q : ℕ) (r : UInt8 × ℕ) : Prop where
  token : toks.gettoken (tokens (buf.drop q)) =
    .ret ((r.1, slice buf (q, r.2)), tokens (buf.drop r.2))
  le : r.2 ≤ buf.length
  word : r.1 = letter → IsWord buf (q, r.2)

variable {q : ℕ} {c : UInt8} {cs : List UInt8}

theorem slice_one (h : buf.drop q = c :: cs) : slice buf (q, q + 1) = [c] := by
  rw [slice, h, Nat.add_sub_cancel_left]
  rfl

theorem drop_succ (h : buf.drop q = c :: cs) : buf.drop (q + 1) = cs := by
  rw [← List.drop_drop, h]
  rfl

theorem succ_le (h : buf.drop q = c :: cs) : q + 1 ≤ buf.length := by
  have := congrArg List.length h
  rw [List.length_drop, List.length_cons] at this
  omega

theorem scans_nil (h : buf.drop q = []) (hq : q ≤ buf.length) : Scans buf q (0, q) where
  token := by
    rw [h, tokens, slice, h, List.take_nil]
    rfl
  le := hq
  word := nofun

theorem scans_single (h : buf.drop q = c :: cs) (hw : ¬whitespace.contains c) {t : Tok}
    (ht : Tok.single c = some t) : Scans buf q (c, q + 1) where
  token := by
    obtain ⟨-, hk, htext, -, -⟩ := single_some ht
    rw [h, tokens, if_neg hw, ht, slice_one h, drop_succ h]
    simp only [toks, hk, htext]
  le := succ_le h
  word he := absurd he (single_some ht).2.2.2.2

theorem scans_gtgt (h : buf.drop q = gt :: gt :: cs) : Scans buf q (plus, q + 2) where
  token := by
    have hd : buf.drop (q + 2) = cs := drop_succ (drop_succ h)
    rw [h, hd, tokens, if_neg (by decide), slice, h, Nat.add_sub_cancel_left]
    rfl
  le := succ_le (drop_succ h)
  word := nofun

theorem scans_gt (h : buf.drop q = gt :: cs) (hcs : cs.head? ≠ some gt) :
    Scans buf q (gt, q + 1) where
  token := by
    rw [h, tokens, if_neg (by decide), slice_one h, drop_succ h]
    simp only [show Tok.single gt = none from rfl, if_true, if_neg hcs]
    rfl
  le := succ_le h
  word := nofun

theorem scans_word (h : buf.drop q = c :: cs) (hw : ¬whitespace.contains c)
    (hs : Tok.single c = none) (hg : c ≠ gt) : Scans buf q (letter, skip buf isWord q) := by
  have hq : q ≤ buf.length := (Nat.le_succ q).trans (succ_le h)
  have hc : isWord c := isWord_of_single hs hg hw
  have htake : (buf.drop q).takeWhile isWord = c :: cs.takeWhile isWord := by
    rw [h, List.takeWhile_cons, if_pos hc]
  have hslice : slice buf (q, skip buf isWord q) = (buf.drop q).takeWhile isWord := by
    rw [slice, skip_eq hq, Nat.add_sub_cancel_left]
    exact (List.prefix_iff_eq_take.1 (List.takeWhile_prefix isWord)).symm
  have hdrop : buf.drop (skip buf isWord q) = cs.dropWhile isWord := by
    rw [drop_skip hq, h, List.dropWhile_cons, if_pos hc]
  refine ⟨?_, skip_le hq, fun _ => ⟨?_, skip_le hq, ?_, ?_⟩⟩
  · rw [hslice, htake, hdrop, h, tokens, if_neg hw]
    simp only [hs, if_neg hg]
    rfl
  · change q < skip buf isWord q
    rw [skip_eq hq, htake, List.length_cons]
    omega
  · intro d hd
    rw [hslice] at hd
    exact List.mem_takeWhile_imp hd
  · intro d hd
    have := List.head?_dropWhile_not isWord cs
    rw [← hdrop, List.head?_drop] at this
    rw [Option.mem_def.1 hd] at this
    simpa using this

theorem tokenAt_scans (h0 : 0 ∉ buf) (hq : q ≤ buf.length)
    (hw : ∀ c cs, buf.drop q = c :: cs → ¬whitespace.contains c) :
    Scans buf q (tokenAt buf q) := by
  simp only [tokenAt, byteAt_eq]
  cases h : buf.drop q with
  | nil => exact scans_nil h hq
  | cons c cs =>
    have hc : c ≠ 0 := fun hc0 =>
      h0 (hc0 ▸ List.mem_of_mem_drop (h ▸ List.mem_cons_self : c ∈ buf.drop q))
    simp only [List.head?_cons, Option.getD_some, if_neg hc, drop_succ h]
    cases hs : Tok.single c with
    | some t =>
      rw [if_pos (single_some hs).1]
      exact scans_single h (hw c cs h) hs
    | none =>
      rw [if_neg (single_none hs)]
      split_ifs with hg hgg
      · obtain rfl := hg
        cases cs with
        | nil => exact absurd hgg (by decide)
        | cons d ds =>
          obtain rfl : d = gt := hgg
          exact scans_gtgt h
      · obtain rfl := hg
        refine scans_gt h fun he => hgg ?_
        rw [he]
        rfl
      · exact scans_word h (hw c cs h) hs hg

end Words

section Simulation

variable {buf : List UInt8}

def remaining (buf : List UInt8) (ps : ℕ) : List Tok := tokens (buf.drop ps)

theorem gettoken_sim (h0 : 0 ∉ buf) :
    Prog.Sim (remaining buf) (· ≤ buf.length) (fun r => r.1 = letter → IsWord buf r.2)
      (Prod.map id (slice buf)) (chars buf).gettoken toks.gettoken := by
  intro s hs
  have hscan := tokenAt_scans h0 (skip_le hs) (not_whitespace_skip hs)
  refine ⟨hscan.word, skip_le hscan.le, ?_⟩
  rw [remaining, ← tokens_skip hs, hscan.token, remaining, tokens_skip hscan.le]
  rfl

theorem symbol_tokens {c : UInt8} {cs ks : List UInt8} (hw : ¬whitespace.contains c)
    (hks : ks ⊆ symbols) :
    ((tokens (c :: cs)).head?.bind Tok.symbol).any ks.contains = ks.contains c := by
  rw [tokens, if_neg hw]
  cases hs : Tok.single c with
  | some t =>
    change t.symbol.any ks.contains = _
    rw [(single_some hs).2.2.2.1]
    rfl
  | none =>
    by_cases hg : c = gt
    · subst hg
      simp only [if_true]
      split_ifs <;> rfl
    · simp only [if_neg hg]
      have hc := isWord_of_single hs hg hw
      simp only [isWord, Bool.and_eq_true, Bool.not_eq_true'] at hc
      have : ks.contains c = false := by
        rw [List.contains_eq_mem, decide_eq_false_iff_not]
        intro hmem
        have := List.elem_eq_true_of_mem (hks hmem)
        rw [List.elem_eq_contains, hc.2] at this
        cases this
      rw [this]
      rfl

theorem peek_sim (h0 : 0 ∉ buf) {ks : List UInt8} (hks : ks ⊆ symbols) :
    Prog.Sim (remaining buf) (· ≤ buf.length) (fun _ => True) id ((chars buf).peek ks)
      (toks.peek ks) := by
  intro s hs
  refine ⟨trivial, skip_le hs, ?_⟩
  have hpeek : ((remaining buf s).head?.bind Tok.symbol).any ks.contains =
      (peek buf ks s).1 := by
    rw [remaining, ← tokens_skip hs, peek, byteAt_eq]
    cases h : buf.drop (skip buf whitespace.contains s) with
    | nil =>
      rw [tokens]
      simp
    | cons c cs =>
      have hc : c ≠ 0 := fun hc0 =>
        h0 (hc0 ▸ List.mem_of_mem_drop (h ▸ List.mem_cons_self))
      rw [symbol_tokens (not_whitespace_skip hs c cs h) hks]
      simp [hc]
  change Outcome.ret (_, _) = _
  rw [hpeek]
  exact congrArg (fun ts => Outcome.ret (_, ts)) (tokens_skip hs).symm

end Simulation

end Xv6.Sh
