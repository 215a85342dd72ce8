import Xv6.Sh.Strings

/-!
# The grammar

    line  ::= pipe '&'* [';' line]
    pipe  ::= exec ['|' pipe]
    exec  ::= '(' line ')' redir* | redir* (word redir*)*
    redir ::= ('<' | '>' | '>>') word

What the parser over tokens reads derives from the grammar, with the tree it answers.
-/

namespace Xv6.Sh
open Lib

abbrev Tree := Cmd (List UInt8)

inductive Arrow
  | lt
  | gt
  | gtgt

def Arrow.tok : Arrow → Tok
  | .lt => .lt
  | .gt => .gt
  | .gtgt => .gtgt

structure Redir where
  arrow : Arrow
  file : List UInt8

namespace Redir

def toks (r : Redir) : List Tok := [r.arrow.tok, .word r.file]

def on (c : Tree) (r : Redir) : Tree :=
  match r.arrow with
  | .lt => .redir c r.file O_RDONLY 0
  | .gt | .gtgt => .redir c r.file (O_WRONLY ||| O_CREATE) 1

end Redir

structure Arg where
  word : List UInt8
  redirs : List Redir

def Arg.toks (a : Arg) : List Tok := .word a.word :: a.redirs.flatMap Redir.toks

inductive Phrase
  | line
  | pipe
  | exec

inductive Derives : Phrase → List Tok → Tree → Prop
  | block {ts c} (rs : List Redir) : Derives .line ts c →
      Derives .exec (.lpar :: ts ++ .rpar :: rs.flatMap Redir.toks) (rs.foldl Redir.on c)
  | exec (rs : List Redir) (args : List Arg) : args.length ≤ MAXARGS - 1 →
      Derives .exec (rs.flatMap Redir.toks ++ args.flatMap Arg.toks)
        ((rs ++ args.flatMap Arg.redirs).foldl Redir.on (.exec (args.map Arg.word)))
  | last {ts c} : Derives .exec ts c → Derives .pipe ts c
  | pipe {ts us l r} : Derives .exec ts l → Derives .pipe us r →
      Derives .pipe (ts ++ .bar :: us) (.pipe l r)
  | line {ts c} (n : ℕ) : Derives .pipe ts c →
      Derives .line (ts ++ List.replicate n .amp) (Cmd.back^[n] c)
  | list {ts us c r} (n : ℕ) : Derives .pipe ts c → Derives .line us r →
      Derives .line (ts ++ List.replicate n .amp ++ .semi :: us) (.list (Cmd.back^[n] c) r)

section Input

variable {α : Type} {ks : List UInt8} {ts us : List Tok} {t : Tok}

def starts (ks : List UInt8) (ts : List Tok) : Bool :=
  (ts.head?.bind Tok.symbol).any ks.contains

theorem peek_bind (k : Bool → Prog (List Tok) α) :
    (toks.peek ks >>= k) ts = k (starts ks ts) ts := rfl

theorem gettoken_bind (k : UInt8 × List UInt8 → Prog (List Tok) α) :
    (toks.gettoken >>= k) (t :: ts) = k (t.kind, t.text) ts := rfl

theorem gettoken_word (w : List UInt8) (k : UInt8 × List UInt8 → Prog (List Tok) α) :
    (toks.gettoken >>= k) (.word w :: ts) = k (letter, w) ts := rfl

theorem starts_kind (ht : t ∈ [Tok.bar, .amp, .semi, .lpar, .rpar]) :
    starts [t.kind] ts = true ↔ ∃ us, ts = t :: us := by
  rcases ts with _ | ⟨u, ts⟩
  · simp [starts]
  · simp only [List.mem_cons, List.not_mem_nil, or_false] at ht
    rcases ht with rfl | rfl | rfl | rfl | rfl <;> cases u <;>
      simp [starts, Tok.symbol, Tok.kind] <;> decide

theorem starts_arrow : starts [lt, gt] ts = true ↔ ∃ (a : Arrow) (us : _), ts = a.tok :: us := by
  constructor
  · intro h
    rcases ts with _ | ⟨u, ts⟩
    · cases h
    · cases u with
      | lt => exact ⟨.lt, ts, rfl⟩
      | gt => exact ⟨.gt, ts, rfl⟩
      | gtgt => exact ⟨.gtgt, ts, rfl⟩
      | _ => cases h
  · rintro ⟨a, us, rfl⟩
    cases a <;> rfl

theorem kind_eq_letter : t.kind = letter ↔ ∃ w, t = .word w := by
  cases t <;> simp [Tok.kind] <;> decide

theorem kind_ne_zero : t.kind ≠ 0 := by
  cases t <;> simp only [Tok.kind] <;> decide

end Input

section Trees

theorem redircmd_arrow (c : Tree) (a : Arrow) (w : List UInt8) :
    redircmd c a.tok.kind w = Redir.on c ⟨a, w⟩ := by
  cases a <;> rfl

theorem Redir.addArg_on (c : Tree) (r : Redir) (w : List UInt8) :
    (Redir.on c r).addArg w = Redir.on (c.addArg w) r := by
  cases r with
  | mk arrow file => cases arrow <;> rfl

theorem addArg_foldl (rs : List Redir) (c : Tree) (w : List UInt8) :
    (rs.foldl Redir.on c).addArg w = rs.foldl Redir.on (c.addArg w) := by
  induction rs generalizing c with
  | nil => rfl
  | cons r rs ih => rw [List.foldl_cons, ih, Redir.addArg_on, List.foldl_cons]

end Trees

section Sound

def Reads (P : List Tok → Tree → Prop) (x : Prog (List Tok) Tree) (ts : List Tok) : Prop :=
  match x ts with
  | .ret (c, rest) => ∃ us, ts = us ++ rest ∧ P us c
  | .panic _ => True
  | .hang => False

variable {P Q : List Tok → Tree → Prop} {x : Prog (List Tok) Tree} {ts : List Tok} {c : Tree}

theorem reads_pure (h : P [] c) : Reads P (pure c) ts := ⟨[], rfl, h⟩

theorem reads_panic (m : String) : Reads P (Prog.panic m) ts := trivial

theorem Reads.bind {k : Tree → Prog (List Tok) Tree} (h : Reads P x ts)
    (hk : ∀ us c rest, ts = us ++ rest → P us c → Reads (fun vs => Q (us ++ vs)) (k c) rest) :
    Reads Q (x >>= k) ts := by
  unfold Reads at h ⊢
  rw [Prog.bind_apply]
  cases hx : x ts with
  | ret r =>
    rw [hx] at h
    obtain ⟨us, hts, hP⟩ := h
    have hr := hk us r.1 r.2 hts hP
    unfold Reads at hr
    change match k r.1 r.2 with
      | .ret (c, rest) => ∃ us, ts = us ++ rest ∧ Q us c
      | .panic _ => True
      | .hang => False
    cases hkr : k r.1 r.2 with
    | ret q =>
      rw [hkr] at hr
      obtain ⟨vs, hrest, hQ⟩ := hr
      exact ⟨us ++ vs, by rw [hts, hrest, List.append_assoc], hQ⟩
    | panic m => trivial
    | hang =>
      rw [hkr] at hr
      exact hr
  | panic m => trivial
  | hang =>
    rw [hx] at h
    exact h

theorem reads_token {t : Tok} {k : UInt8 × List UInt8 → Prog (List Tok) Tree}
    (h : Reads (fun us => Q (t :: us)) (k (t.kind, t.text)) ts) :
    Reads Q (toks.gettoken >>= k) (t :: ts) := by
  unfold Reads at h ⊢
  rw [gettoken_bind]
  cases hk : k (t.kind, t.text) ts with
  | ret q =>
    rw [hk] at h
    obtain ⟨us, hts, hQ⟩ := h
    exact ⟨t :: us, by rw [hts]; rfl, hQ⟩
  | panic m => trivial
  | hang =>
    rw [hk] at h
    exact h

theorem Reads.mono (h : Reads P x ts) (hPQ : ∀ us c, P us c → Q us c) : Reads Q x ts := by
  unfold Reads at h ⊢
  cases hx : x ts with
  | ret q =>
    rw [hx] at h
    obtain ⟨us, hts, hP⟩ := h
    exact ⟨us, hts, hPQ _ _ hP⟩
  | panic m => trivial
  | hang =>
    rw [hx] at h
    exact h

theorem parseredirs_reads (fuel : ℕ) (hf : ts.length < fuel) (c : Tree) :
    Reads (fun us c' => ∃ rs : List Redir, us = rs.flatMap Redir.toks ∧ c' = rs.foldl Redir.on c)
      (parseredirs toks fuel c) ts := by
  induction fuel generalizing ts c with
  | zero => exact absurd hf (Nat.not_lt_zero _)
  | succ fuel ih =>
    rw [parseredirs]
    change Reads _ (if starts [lt, gt] ts then _ else _) ts
    split_ifs with hs
    · obtain ⟨a, us, rfl⟩ := starts_arrow.1 hs
      refine reads_token ?_
      cases us with
      | nil => exact trivial
      | cons t us =>
        refine reads_token ?_
        split_ifs with hl
        · exact reads_panic _
        · obtain ⟨w, rfl⟩ := kind_eq_letter.1 (not_not.1 hl)
          simp only [List.length_cons] at hf
          refine (ih (by omega) _).mono ?_
          rintro us c' ⟨rs, rfl, rfl⟩
          refine ⟨⟨a, w⟩ :: rs, rfl, ?_⟩
          rw [List.foldl_cons, ← redircmd_arrow]
          rfl
    · exact reads_pure ⟨[], rfl, rfl⟩

theorem parseargs_reads (fuel : ℕ) (hf : ts.length < fuel) (ws : List (List UInt8))
    (rs : List Redir) (hws : ws.length ≤ MAXARGS - 1) :
    Reads (fun us c => ∃ args : List Arg, us = args.flatMap Arg.toks ∧
        (ws ++ args.map Arg.word).length ≤ MAXARGS - 1 ∧
        c = (rs ++ args.flatMap Arg.redirs).foldl Redir.on (.exec (ws ++ args.map Arg.word)))
      (parseargs toks fuel ws.length (rs.foldl Redir.on (.exec ws))) ts := by
  induction fuel generalizing ts ws rs with
  | zero => exact absurd hf (Nat.not_lt_zero _)
  | succ fuel ih =>
    rw [parseargs]
    have hstop : ∀ us, Reads (fun us c => ∃ args : List Arg, us = args.flatMap Arg.toks ∧
        (ws ++ args.map Arg.word).length ≤ MAXARGS - 1 ∧
        c = (rs ++ args.flatMap Arg.redirs).foldl Redir.on (.exec (ws ++ args.map Arg.word)))
        (pure (rs.foldl Redir.on (.exec ws))) us := fun us =>
      reads_pure ⟨[], rfl, by simpa using hws, by simp⟩
    change Reads _ (if starts [bar, rpar, amp, semi] ts then _ else _) ts
    by_cases hs : starts [bar, rpar, amp, semi] ts
    · rw [if_pos hs]
      exact hstop ts
    · rw [if_neg hs]
      cases ts with
      | nil => exact hstop []
      | cons t ts =>
        refine reads_token ?_
        rw [if_neg kind_ne_zero]
        split_ifs with hl hmax
        · exact reads_panic _
        · exact reads_panic _
        · have hmax' := Nat.lt_of_not_le hmax
          obtain ⟨w, rfl⟩ := kind_eq_letter.1 (not_not.1 hl)
          simp only [List.length_cons] at hf
          rw [addArg_foldl]
          refine (parseredirs_reads fuel (by omega) _).bind ?_
          rintro us c rest rfl ⟨rs', rfl, rfl⟩
          rw [← List.foldl_append]
          have hlen : (ws ++ [w]).length = ws.length + 1 := List.length_append
          rw [List.length_append] at hf
          have hrec := @ih rest (by omega) (ws ++ [w]) (rs ++ rs') (by omega)
          rw [hlen] at hrec
          refine hrec.mono ?_
          rintro us c ⟨args, rfl, hn, rfl⟩
          refine ⟨⟨w, rs'⟩ :: args, ?_, ?_, ?_⟩
          · simp [Arg.toks]
          · simpa [List.append_assoc] using hn
          · simp [List.append_assoc]

theorem parsebacks_reads (fuel : ℕ) (hf : ts.length < fuel) (c : Tree) :
    Reads (fun us c' => ∃ n, us = List.replicate n .amp ∧ c' = Cmd.back^[n] c)
      (parsebacks toks fuel c) ts := by
  induction fuel generalizing ts c with
  | zero => exact absurd hf (Nat.not_lt_zero _)
  | succ fuel ih =>
    rw [parsebacks]
    change Reads _ (if starts [amp] ts then _ else _) ts
    split_ifs with hs
    · obtain ⟨us, rfl⟩ := (starts_kind (t := .amp) (by decide)).1 hs
      refine reads_token ((ih (Nat.lt_of_succ_lt_succ hf) _).mono ?_)
      rintro us c' ⟨n, rfl, rfl⟩
      exact ⟨n + 1, rfl, rfl⟩
    · exact reads_pure ⟨0, rfl, rfl⟩

/-- All four at once, as they call each other. Each call of one on the same input has less
fuel to need. -/
theorem parse_reads (fuel : ℕ) :
    (∀ ts, 4 * ts.length + 4 ≤ fuel → Reads (Derives .line) (parseline toks fuel) ts) ∧
    (∀ ts, 4 * ts.length + 3 ≤ fuel → Reads (Derives .pipe) (parsepipe toks fuel) ts) ∧
    (∀ ts, 4 * ts.length + 2 ≤ fuel → Reads (Derives .exec) (parseexec toks fuel) ts) ∧
    (∀ ts, 4 * ts.length + 1 ≤ fuel → Reads (Derives .exec) (parseblock toks fuel) ts) := by
  induction fuel with
  | zero => exact ⟨fun ts h => by omega, fun ts h => by omega, fun ts h => by omega,
      fun ts h => by omega⟩
  | succ fuel ih =>
    obtain ⟨hline, hpipe, hexec, hblock⟩ := ih
    refine ⟨fun ts hf => ?_, fun ts hf => ?_, fun ts hf => ?_, fun ts hf => ?_⟩
    · rw [parseline]
      refine (hpipe ts (by omega)).bind ?_
      rintro us c rest rfl hc
      rw [List.length_append] at hf
      refine (parsebacks_reads fuel (by omega) c).bind ?_
      rintro vs c' rest' rfl ⟨n, rfl, rfl⟩
      change Reads _ (if starts [semi] rest' then _ else _) rest'
      split_ifs with hs
      · obtain ⟨ws, rfl⟩ := (starts_kind (t := .semi) (by decide)).1 hs
        simp only [List.length_append, List.length_cons] at hf
        refine reads_token ((hline ws (by omega)).bind ?_)
        rintro vs r rest rfl hr
        refine reads_pure ?_
        rw [List.append_nil, ← List.append_assoc]
        exact .list n hc hr
      · refine reads_pure ?_
        rw [List.append_nil]
        exact .line n hc
    · rw [parsepipe]
      refine (hexec ts (by omega)).bind ?_
      rintro us c rest rfl hc
      rw [List.length_append] at hf
      change Reads _ (if starts [bar] rest then _ else _) rest
      split_ifs with hs
      · obtain ⟨ws, rfl⟩ := (starts_kind (t := .bar) (by decide)).1 hs
        rw [List.length_cons] at hf
        refine reads_token ((hpipe ws (by omega)).bind ?_)
        rintro vs r rest rfl hr
        refine reads_pure ?_
        rw [List.append_nil]
        exact .pipe hc hr
      · refine reads_pure ?_
        rw [List.append_nil]
        exact .last hc
    · rw [parseexec]
      change Reads _ (if starts [lpar] ts then _ else _) ts
      split_ifs with hs
      · exact hblock ts (by omega)
      · refine (parseredirs_reads fuel (by omega) _).bind ?_
        rintro us c rest rfl ⟨rs, rfl, rfl⟩
        rw [List.length_append] at hf
        have hlt : rest.length < fuel := by omega
        refine (parseargs_reads fuel hlt [] rs (Nat.zero_le _)).mono ?_
        rintro us c ⟨args, rfl, hn, rfl⟩
        rw [List.nil_append, List.length_map] at hn
        exact .exec rs args hn
    · rw [parseblock]
      change Reads _ (if starts [lpar] ts = false then _ else _) ts
      split_ifs with hs
      · exact reads_panic _
      · obtain ⟨us, rfl⟩ := (starts_kind (t := .lpar) (by decide)).1 (Bool.not_eq_false _ ▸ hs)
        rw [List.length_cons] at hf
        refine reads_token ((hline us (by omega)).bind ?_)
        rintro vs c rest rfl hc
        rw [List.length_append] at hf
        change Reads _ (if starts [rpar] rest = false then _ else _) rest
        split_ifs with hs'
        · exact reads_panic _
        · obtain ⟨ws, rfl⟩ := (starts_kind (t := .rpar) (by decide)).1
            (Bool.not_eq_false _ ▸ hs')
          rw [List.length_cons] at hf
          refine reads_token ((parseredirs_reads fuel (by omega) c).mono ?_)
          rintro us c' ⟨rs, rfl, rfl⟩
          exact .block rs hc

end Sound

end Xv6.Sh
