import Xv6.Sh.Grammar

/-!
# Every phrase is read

Before a token that can follow it, the parser reads a phrase to its end. It answers a tree
for the lines of the grammar and for no others.
-/

namespace Xv6.Sh
open Lib

section Complete

variable {ts rest : List Tok} {c : Tree}

def Follow : Phrase → List Tok → Prop
  | .exec, ts => ts = [] ∨ starts [bar, rpar, amp, semi] ts
  | .pipe, ts => ts = [] ∨ starts [rpar, amp, semi] ts
  | .line, ts => ts = [] ∨ starts [rpar] ts

theorem starts_mono {ks ks' : List UInt8} (hks : ks ⊆ ks') (h : starts ks ts) :
    starts ks' ts := by
  simp only [starts, Option.any_eq_true] at h ⊢
  obtain ⟨k, hk, hmem⟩ := h
  exact ⟨k, hk, List.elem_iff.2 (hks (List.elem_iff.1 hmem))⟩

theorem follow_word {ks ks' : List UInt8} (hks : ks.any ks'.contains = false)
    (h : ts = [] ∨ starts ks ts) : starts ks' ts = false := by
  rcases h with rfl | h
  · rfl
  · cases ts with
    | nil => rfl
    | cons t ts =>
      simp only [starts, List.head?_cons, Option.bind_some] at h ⊢
      cases hs : t.symbol with
      | none => rfl
      | some k =>
        rw [hs] at h
        exact Bool.eq_false_iff.2 (List.any_eq_false.1 hks k (List.elem_iff.1 h))

theorem parseredirs_complete (rs : List Redir) (fuel : ℕ)
    (hf : (rs.flatMap Redir.toks ++ rest).length < fuel) (hrest : starts [lt, gt] rest = false)
    (c : Tree) :
    parseredirs toks fuel c (rs.flatMap Redir.toks ++ rest) = .ret (rs.foldl Redir.on c, rest) := by
  induction rs generalizing fuel c with
  | nil =>
    cases fuel with
    | zero => exact absurd hf (Nat.not_lt_zero _)
    | succ fuel =>
      change (if starts [lt, gt] rest then _ else pure c : Prog (List Tok) Tree) rest = _
      rw [hrest]
      rfl
  | cons r rs ih =>
    cases fuel with
    | zero => exact absurd hf (Nat.not_lt_zero _)
    | succ fuel =>
      simp only [List.flatMap_cons, Redir.toks, List.cons_append, List.nil_append,
        List.length_cons] at hf ⊢
      rw [parseredirs, peek_bind, if_pos (starts_arrow.2 ⟨_, _, rfl⟩), gettoken_bind,
        gettoken_word]
      simp only [ne_eq, not_true_eq_false, if_false]
      rw [redircmd_arrow]
      exact ih fuel (by omega) _

theorem parseargs_complete (args : List Arg) (fuel : ℕ)
    (hf : (args.flatMap Arg.toks ++ rest).length < fuel) (hrest : Follow .exec rest)
    (ws : List (List UInt8)) (rs : List Redir) (hn : ws.length + args.length ≤ MAXARGS - 1) :
    parseargs toks fuel ws.length (rs.foldl Redir.on (.exec ws)) (args.flatMap Arg.toks ++ rest) =
      .ret ((rs ++ args.flatMap Arg.redirs).foldl Redir.on (.exec (ws ++ args.map Arg.word)),
        rest) := by
  induction args generalizing fuel ws rs with
  | nil =>
    cases fuel with
    | zero => exact absurd hf (Nat.not_lt_zero _)
    | succ fuel =>
      simp only [List.flatMap_nil, List.nil_append, List.append_nil, List.map_nil]
      rw [parseargs, peek_bind]
      rcases hrest with rfl | hs
      · rfl
      · rw [if_pos hs]
        rfl
  | cons a args ih =>
    cases fuel with
    | zero => exact absurd hf (Nat.not_lt_zero _)
    | succ fuel =>
      have hstop : starts [lt, gt] (args.flatMap Arg.toks ++ rest) = false := by
        cases args with
        | nil => exact follow_word (by decide) hrest
        | cons b args => rfl
      simp only [List.flatMap_cons, Arg.toks, List.cons_append, List.length_cons,
        List.append_assoc] at hf hn ⊢
      have hmax : ¬MAXARGS ≤ ws.length + 1 := by
        rw [MAXARGS] at hn ⊢
        omega
      rw [parseargs, peek_bind, if_neg (by simp [starts, Tok.symbol]), gettoken_word]
      simp only [show letter ≠ 0 by decide, ne_eq, not_true_eq_false, if_false, hmax]
      rw [addArg_foldl, Prog.bind_apply, parseredirs_complete a.redirs fuel (by omega) hstop]
      simp only [List.length_append] at hf
      have hrec := ih fuel (by rw [List.length_append]; omega) (ws ++ [a.word]) (rs ++ a.redirs)
        (by rw [List.length_append, List.length_singleton]; omega)
      rw [List.length_append, List.foldl_append] at hrec
      simpa [List.append_assoc, Cmd.addArg] using hrec

theorem parsebacks_complete (n fuel : ℕ) (hf : n < fuel) (hrest : starts [amp] rest = false)
    (c : Tree) :
    parsebacks toks fuel c (List.replicate n .amp ++ rest) = .ret (Cmd.back^[n] c, rest) := by
  induction n generalizing fuel c with
  | zero =>
    cases fuel with
    | zero => exact absurd hf (Nat.not_lt_zero _)
    | succ fuel =>
      change (if starts [amp] rest then _ else pure c : Prog (List Tok) Tree) rest = _
      rw [hrest]
      rfl
  | succ n ih =>
    cases fuel with
    | zero => exact absurd hf (Nat.not_lt_zero _)
    | succ fuel => exact ih fuel (by omega) (.back c)

def parser : Phrase → ℕ → Prog (List Tok) Tree
  | .line => parseline toks
  | .pipe => parsepipe toks
  | .exec => parseexec toks

def fuelFor : Phrase → ℕ → ℕ
  | .line, n => 4 * n + 4
  | .pipe, n => 4 * n + 3
  | .exec, n => 4 * n + 2

theorem Derives.complete {N : Phrase} (h : Derives N ts c) (fuel : ℕ) (hrest : Follow N rest)
    (hf : fuelFor N (ts ++ rest).length ≤ fuel) :
    parser N fuel (ts ++ rest) = .ret (c, rest) := by
  induction h generalizing rest fuel with
  | @block ts c rs h ih =>
    simp only [fuelFor, List.cons_append, List.append_assoc, List.length_cons] at hf ⊢
    obtain ⟨fuel, rfl⟩ : ∃ f, fuel = f + 2 := ⟨fuel - 2, by omega⟩
    have hopen : ∀ us, starts [lpar] (.lpar :: us) = true := fun us => rfl
    have hin : parseline toks fuel _ = _ :=
      @ih (.rpar :: (rs.flatMap Redir.toks ++ rest)) fuel (.inr rfl) (by
        simp only [fuelFor]
        omega)
    simp only [List.length_append, List.length_cons] at hf
    rw [parser, parseexec, peek_bind, if_pos (hopen _), parseblock, peek_bind, hopen,
      if_neg Bool.false_ne_true.symm, gettoken_bind, Prog.bind_of_ret hin]
    refine parseredirs_complete rs fuel ?_ (follow_word (by decide) hrest) c
    rw [List.length_append]
    omega
  | exec rs args hn =>
    rw [fuelFor, List.append_assoc] at hf
    obtain ⟨fuel, rfl⟩ : ∃ f, fuel = f + 1 := ⟨fuel - 1, by omega⟩
    -- neither a redirection nor a word is a parenthesis, and none can follow
    have hopen : starts [lpar] (rs.flatMap Redir.toks ++ (args.flatMap Arg.toks ++ rest)) =
        false := by
      cases rs with
      | cons r rs => cases r with | mk arrow file => cases arrow <;> rfl
      | nil =>
        cases args with
        | cons a args => rfl
        | nil => exact follow_word (by decide) hrest
    have hstop : starts [lt, gt] (args.flatMap Arg.toks ++ rest) = false := by
      cases args with
      | nil => exact follow_word (by decide) hrest
      | cons a args => rfl
    rw [List.append_assoc, parser, parseexec, peek_bind, hopen, if_neg Bool.false_ne_true,
      Prog.bind_of_ret (parseredirs_complete rs fuel (by omega) hstop _)]
    rw [List.length_append] at hf
    refine parseargs_complete args fuel (by omega) hrest [] rs ?_
    rwa [List.length_nil, Nat.zero_add]
  | last h ih =>
    rw [fuelFor] at hf
    obtain ⟨fuel, rfl⟩ : ∃ f, fuel = f + 1 := ⟨fuel - 1, by omega⟩
    have hexec : parseexec toks fuel _ = _ :=
      ih fuel (hrest.imp_right (starts_mono (by decide))) (by rw [fuelFor]; omega)
    rw [parser, parsepipe, Prog.bind_of_ret hexec, peek_bind, follow_word (by decide) hrest]
    rfl
  | @pipe ts us l r h h' ih ih' =>
    simp only [fuelFor, List.append_assoc, List.cons_append] at hf ⊢
    obtain ⟨fuel, rfl⟩ : ∃ f, fuel = f + 1 := ⟨fuel - 1, by omega⟩
    have hexec : parseexec toks fuel _ = _ :=
      @ih (.bar :: (us ++ rest)) fuel (.inr rfl) (by rw [fuelFor]; omega)
    rw [List.length_append, List.length_cons] at hf
    have hpipe : parsepipe toks fuel _ = _ := ih' fuel hrest (by rw [fuelFor]; omega)
    rw [parser, parsepipe, Prog.bind_of_ret hexec, peek_bind, if_pos (by rfl), gettoken_bind,
      Prog.bind_of_ret hpipe]
    rfl
  | line n h ih =>
    simp only [fuelFor, List.append_assoc] at hf ⊢
    obtain ⟨fuel, rfl⟩ : ∃ f, fuel = f + 1 := ⟨fuel - 1, by omega⟩
    have hfollow : Follow .pipe (List.replicate n .amp ++ rest) := by
      cases n with
      | zero => exact hrest.imp_right (starts_mono (by decide))
      | succ n => exact .inr rfl
    have hpipe : parsepipe toks fuel _ = _ := ih fuel hfollow (by rw [fuelFor]; omega)
    simp only [List.length_append, List.length_replicate] at hf
    rw [parser, parseline, Prog.bind_of_ret hpipe, Prog.bind_of_ret
      (parsebacks_complete n fuel (by omega) (follow_word (by decide) hrest) _), peek_bind,
      follow_word (by decide) hrest]
    rfl
  | @list ts us c r n h h' ih ih' =>
    simp only [fuelFor, List.append_assoc, List.cons_append] at hf ⊢
    obtain ⟨fuel, rfl⟩ : ∃ f, fuel = f + 1 := ⟨fuel - 1, by omega⟩
    have hfollow : Follow .pipe (List.replicate n .amp ++ .semi :: (us ++ rest)) := by
      cases n with
      | zero => exact .inr rfl
      | succ n => exact .inr rfl
    have hpipe : parsepipe toks fuel _ = _ := ih fuel hfollow (by rw [fuelFor]; omega)
    simp only [List.length_append, List.length_cons, List.length_replicate] at hf
    have hline : parseline toks fuel _ = _ := ih' fuel hrest (by
      rw [fuelFor, List.length_append]
      omega)
    rw [parser, parseline, Prog.bind_of_ret hpipe,
      Prog.bind_of_ret (parsebacks_complete n fuel (by omega) rfl _), peek_bind,
      if_pos (by rfl), gettoken_bind, Prog.bind_of_ret hline]
    rfl

end Complete

section Lines

variable {ts : List Tok} {c : Tree} {fuel : ℕ}

theorem parsetokens_ret (hf : fuelFor .line ts.length ≤ fuel) :
    parsetokens fuel ts = .ret c ↔ Derives .line ts c := by
  constructor
  · intro h
    have hreads := (parse_reads fuel).1 ts hf
    obtain ⟨r, hr, hend⟩ := Outcome.bind_eq_ret.1 h
    unfold Reads at hreads
    rw [hr] at hreads
    obtain ⟨us, hts, hc⟩ := hreads
    split_ifs at hend with hnil
    obtain rfl := Outcome.ret.inj hend
    rw [hnil, List.append_nil] at hts
    exact hts ▸ hc
  · intro h
    have hline : parseline toks fuel (ts ++ []) = _ :=
      h.complete fuel (.inl rfl) (by rwa [List.append_nil])
    rw [List.append_nil] at hline
    rw [parsetokens, hline]
    rfl

theorem parsetokens_panic (hf : fuelFor .line ts.length ≤ fuel) (h : ¬∃ c, Derives .line ts c) :
    ∃ m, parsetokens fuel ts = .panic m := by
  cases hp : parsetokens fuel ts with
  | ret c => exact absurd ⟨c, (parsetokens_ret hf).1 hp⟩ h
  | panic m => exact ⟨m, rfl⟩
  | hang =>
    have hreads := (parse_reads fuel).1 ts hf
    unfold Reads at hreads
    rw [parsetokens] at hp
    cases hl : parseline toks fuel ts with
    | hang =>
      rw [hl] at hreads
      exact hreads.elim
    | panic m =>
      rw [hl] at hp
      cases hp
    | ret r =>
      rw [hl, Outcome.ret_bind] at hp
      split_ifs at hp

theorem length_tokens (cs : List UInt8) : (tokens cs).length ≤ cs.length := by
  fun_induction tokens cs with
  | case1 => exact le_rfl
  | case2 c cs hw ih => exact ih.trans (Nat.le_succ _)
  | case3 c cs hw t ht ih => exact Nat.succ_le_succ ih
  | case4 cs hw ht hgg ih =>
    rw [List.length_tail] at ih
    simp only [List.length_cons]
    omega
  | case5 cs hw ht hgg ih => exact Nat.succ_le_succ ih
  | case6 c cs hw ht hg ih =>
    have := List.length_dropWhile_le isWord cs
    simp only [List.length_cons]
    omega

end Lines

end Xv6.Sh
