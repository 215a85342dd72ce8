import Xv6.Sh.Print

/-!
# The words of a line

What `nulterminate` leaves at the pointers of the tree: the words that `gettoken` has found in
the line.
-/

namespace Xv6.Sh
open Lib

def Found (buf : List UInt8) (w : Span) : Prop := ∃ ps, (gettoken buf ps).1 = (letter, w)

def Parsed (s : List UInt8) (c : Cmd Span) : Prop :=
  ∃ ps, parseline (chars (buf s)) (enough (buf s).length) 0 = .ret (c, ps) ∧
    (peek (buf s) [] ps).2 = (buf s).length

namespace Cmd

variable {α β : Type}

def Argvs (p : List α → Prop) : Cmd α → Prop
  | .exec argv => p argv
  | .redir c _ _ _ => c.Argvs p
  | .pipe l r => l.Argvs p ∧ r.Argvs p
  | .list l r => l.Argvs p ∧ r.Argvs p
  | .back c => c.Argvs p

def Terminated (argv : List α) : Prop := argv.length < MAXARGS

theorem Wf.terminated {c : Tree} (h : c.Wf) : c.Argvs Terminated := by
  induction c with
  | exec argv => exact Nat.lt_of_le_of_lt h.1 (by decide)
  | redir c file mode fd ih => exact ih h.1
  | pipe l r ihl ihr => exact ⟨ihl h.1, ihr h.2⟩
  | list l r ihl ihr => exact ⟨ihl h.1, ihr h.2⟩
  | back c ih => exact ih h

theorem terminated_of_map {f : α → β} {c : Cmd α} (h : (c.map f).Argvs Terminated) :
    c.Argvs Terminated := by
  induction c with
  | exec argv =>
    unfold map Argvs Terminated at h
    rwa [List.length_map] at h
  | redir c file mode fd ih => exact ih h
  | pipe l r ihl ihr => exact ⟨ihl h.1, ihr h.2⟩
  | list l r ihl ihr => exact ⟨ihl h.1, ihr h.2⟩
  | back c ih => exact ih h

end Cmd

section Line

variable {s : List UInt8}

theorem found_sim {buf : List UInt8} (h0 : 0 ∉ buf) :
    (chars buf).Sim toks (remaining buf) (· ≤ buf.length) (fun w => IsWord buf w ∧ Found buf w)
      (slice buf) where
  gettoken := by
    intro ps hps
    obtain ⟨hword, hle, htoks⟩ := gettoken_sim h0 ps hps
    refine ⟨fun hl => ⟨hword hl, ps, ?_⟩, hle, htoks⟩
    exact Prod.ext hl rfl
  peek _ hks := peek_sim h0 hks

theorem parsed_of_ret {t : Tree} (h : parsecmd s = .ret t) :
    ∃ c, Parsed s c ∧ t = c.map fun w => cstring (nulterminate (buf s) c) w.1 := by
  unfold parsecmd at h
  change (parseline (chars (buf s)) (enough (buf s).length) 0).bind _ = _ at h
  cases hp : parseline (chars (buf s)) (enough (buf s).length) 0 with
  | panic m =>
    rw [hp] at h
    cases h
  | hang =>
    rw [hp] at h
    cases h
  | ret r =>
    rw [hp] at h
    change (if (peek (buf s) [] r.2).2 ≠ (buf s).length then _ else _) = _ at h
    by_cases hend : (peek (buf s) [] r.2).2 = (buf s).length
    · rw [if_neg (not_not.2 hend)] at h
      exact ⟨r.1, ⟨r.2, hp, hend⟩, (Outcome.ret.inj h).symm⟩
    · rw [if_pos hend] at h
      cases h

theorem Parsed.words {c : Cmd Span} (h : Parsed s c) :
    c.All fun w => IsWord (buf s) w ∧ Found (buf s) w := by
  obtain ⟨ps, hp, -⟩ := h
  exact (((found_sim (line_ne_zero s)).parse _).1.ret (Nat.zero_le _) hp).1

/-- Every argument and every file name of the tree, as a string of the buffer that
`nulterminate` leaves, is the word that was found for it in the line, and the arguments of every
command end in a NULL inside their array. -/
theorem nulterminate_keeps_words {t : Tree} (h : parsecmd s = .ret t) :
    ∃ c, Parsed s c ∧ t = c.map (fun w => cstring (nulterminate (buf s) c) w.1) ∧
      c.All (fun w => Found (buf s) w ∧
        cstring (nulterminate (buf s) c) w.1 = slice (buf s) w) ∧
      c.Argvs Cmd.Terminated := by
  obtain ⟨c, hc, rfl⟩ := parsed_of_ret h
  have hwords := Cmd.all_iff_words.1 hc.words
  have hwf : (c.map fun w => cstring (nulterminate (buf s) c) w.1).Wf :=
    (parsecmd_ret.1 h).wf (tokens_valid (line_ne_zero s))
  refine ⟨c, hc, rfl, Cmd.all_iff_words.2 fun w hw => ⟨(hwords w hw).2, ?_⟩,
    Cmd.terminated_of_map hwf.terminated⟩
  exact cstring_nulterminate (line_ne_zero s) (hc.words.imp fun _ hw => hw.1) hw

/-- The line "ls>f": the words abut the symbol. -/
theorem nulterminate_keeps_words_ls : ∃ c, Parsed [108, 115, 62, 102] c ∧
    c.map (fun w => cstring (nulterminate (buf [108, 115, 62, 102]) c) w.1) =
      .redir (.exec [[108, 115]]) [102] (O_WRONLY ||| O_CREATE) 1 := by
  have h : parsecmd [108, 115, 62, 102] =
      .ret (.redir (.exec [[108, 115]]) [102] (O_WRONLY ||| O_CREATE) 1) := by
    decide +kernel
  obtain ⟨c, hc, ht, -⟩ := nulterminate_keeps_words h
  exact ⟨c, hc, ht.symm⟩

end Line

end Xv6.Sh
