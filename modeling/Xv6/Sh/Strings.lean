import Xv6.Sh.Tokens

/-!
# The parser over tokens

Two scanners that agree are read by the parser to the same tree. So `parsecmd` is the parser
over tokens, with the texts of the words for the C strings that `nulterminate` leaves.
-/

namespace Xv6.Sh
open Lib

namespace Cmd

variable {α β : Type}

def All (p : α → Prop) : Cmd α → Prop
  | .exec argv => ∀ w ∈ argv, p w
  | .redir c file _ _ => c.All p ∧ p file
  | .pipe l r => l.All p ∧ r.All p
  | .list l r => l.All p ∧ r.All p
  | .back c => c.All p

def words : Cmd α → List α
  | .exec argv => argv
  | .redir c file _ _ => c.words ++ [file]
  | .pipe l r => l.words ++ r.words
  | .list l r => l.words ++ r.words
  | .back c => c.words

theorem all_iff_words {p : α → Prop} {c : Cmd α} : c.All p ↔ ∀ w ∈ c.words, p w := by
  induction c with
  | exec argv => rfl
  | redir c file mode fd ih => simp [All, words, ih, or_imp, forall_and]
  | pipe l r ihl ihr => simp only [All, words, ihl, ihr, List.mem_append, or_imp, forall_and]
  | list l r ihl ihr => simp only [All, words, ihl, ihr, List.mem_append, or_imp, forall_and]
  | back c ih => exact ih

theorem All.addArg {p : α → Prop} {w : α} {c : Cmd α} (hc : c.All p) (hw : p w) :
    (c.addArg w).All p := by
  induction c with
  | exec argv =>
    intro v hv
    rcases List.mem_append.1 hv with hv | hv
    · exact hc v hv
    · exact List.mem_singleton.1 hv ▸ hw
  | redir c file mode fd ih => exact ⟨ih hc.1, hc.2⟩
  | pipe | list | back => exact hc

theorem map_addArg (g : α → β) (w : α) (c : Cmd α) :
    (c.addArg w).map g = (c.map g).addArg (g w) := by
  induction c with
  | exec argv => simp only [Cmd.addArg, map, List.map_append, List.map_cons, List.map_nil]
  | redir c file mode fd ih => simp only [Cmd.addArg, map, ih]
  | pipe | list | back => rfl

theorem map_congr {g g' : α → β} {c : Cmd α} (h : c.All fun w => g w = g' w) :
    c.map g = c.map g' := by
  induction c with
  | exec argv => exact congrArg exec (List.map_congr_left h)
  | redir c file mode fd ih => simp only [map, ih h.1, h.2]
  | pipe l r ihl ihr => simp only [map, ihl h.1, ihr h.2]
  | list l r ihl ihr => simp only [map, ihl h.1, ihr h.2]
  | back c ih => simp only [map, ih h]

theorem All.imp {p p' : α → Prop} (hp : ∀ w, p w → p' w) {c : Cmd α} (h : c.All p) :
    c.All p' := by
  induction c with
  | exec argv => exact fun w hw => hp w (h w hw)
  | redir c file mode fd ih => exact ⟨ih h.1, hp _ h.2⟩
  | pipe l r ihl ihr => exact ⟨ihl h.1, ihr h.2⟩
  | list l r ihl ihr => exact ⟨ihl h.1, ihr h.2⟩
  | back c ih => exact ih h

end Cmd

section Scanners

variable {σ τ α β : Type}

structure Scanner.Sim (S : Scanner σ α) (T : Scanner τ β) (f : σ → τ) (I : σ → Prop)
    (ok : α → Prop) (g : α → β) : Prop where
  gettoken : Prog.Sim f I (fun r => r.1 = letter → ok r.2) (Prod.map id g) S.gettoken T.gettoken
  peek : ∀ ks ⊆ symbols, Prog.Sim f I (fun _ => True) id (S.peek ks) (T.peek ks)

variable {S : Scanner σ α} {T : Scanner τ β} {f : σ → τ} {I : σ → Prop} {ok : α → Prop}
  {g : α → β}

theorem map_redircmd (cmd : Cmd α) (tok : UInt8) (file : α) :
    (redircmd cmd tok file).map g = redircmd (cmd.map g) tok (g file) := by
  simp only [redircmd]
  split_ifs <;> rfl

theorem all_redircmd {cmd : Cmd α} (hc : cmd.All ok) (tok : UInt8) {file : α} (hf : ok file) :
    (redircmd cmd tok file).All ok := by
  simp only [redircmd]
  split_ifs
  · exact ⟨hc, hf⟩
  · exact ⟨hc, hf⟩
  · exact ⟨hc, hf⟩
  · exact hc

namespace Scanner.Sim

variable (h : S.Sim T f I ok g)

include h

theorem parseredirs (fuel : ℕ) {cmd : Cmd α} (hc : cmd.All ok) :
    Prog.Sim f I (Cmd.All ok) (Cmd.map g) (parseredirs S fuel cmd)
      (parseredirs T fuel (cmd.map g)) := by
  induction fuel generalizing cmd with
  | zero => exact Prog.Sim.hang
  | succ fuel ih =>
    refine (h.peek _ (by decide)).bind fun more _ => .ite (fun _ => ?_) fun _ => .pure hc
    refine h.gettoken.bind fun tok _ => h.gettoken.bind fun file hf => ?_
    refine .ite (fun _ => .panic _) fun hl => ?_
    have := ih (all_redircmd hc tok.1 (hf (not_not.1 hl)))
    rwa [map_redircmd] at this

theorem parseargs (fuel argc : ℕ) {ret : Cmd α} (hc : ret.All ok) :
    Prog.Sim f I (Cmd.All ok) (Cmd.map g) (parseargs S fuel argc ret)
      (parseargs T fuel argc (ret.map g)) := by
  induction fuel generalizing argc ret with
  | zero => exact Prog.Sim.hang
  | succ fuel ih =>
    refine (h.peek _ (by decide)).bind fun stop _ => .ite (fun _ => .pure hc) fun _ => ?_
    refine h.gettoken.bind fun tok htok => .ite (fun _ => .pure hc) fun _ => ?_
    refine .ite (fun _ => .panic _) fun hl => .ite (fun _ => .panic _) fun _ => ?_
    have hredirs := h.parseredirs fuel (hc.addArg (htok (not_not.1 hl)))
    rw [Cmd.map_addArg] at hredirs
    exact hredirs.bind fun ret' hret' => ih (argc + 1) hret'

theorem parsebacks (fuel : ℕ) {cmd : Cmd α} (hc : cmd.All ok) :
    Prog.Sim f I (Cmd.All ok) (Cmd.map g) (parsebacks S fuel cmd)
      (parsebacks T fuel (cmd.map g)) := by
  induction fuel generalizing cmd with
  | zero => exact Prog.Sim.hang
  | succ fuel ih =>
    refine (h.peek _ (by decide)).bind fun more _ => .ite (fun _ => ?_) fun _ => .pure hc
    have hback : (Cmd.back cmd).All ok := hc
    exact h.gettoken.bind fun _ _ => ih hback

theorem parse (fuel : ℕ) :
    Prog.Sim f I (Cmd.All ok) (Cmd.map g) (parseline S fuel) (parseline T fuel) ∧
    Prog.Sim f I (Cmd.All ok) (Cmd.map g) (parsepipe S fuel) (parsepipe T fuel) ∧
    Prog.Sim f I (Cmd.All ok) (Cmd.map g) (parseexec S fuel) (parseexec T fuel) ∧
    Prog.Sim f I (Cmd.All ok) (Cmd.map g) (parseblock S fuel) (parseblock T fuel) := by
  induction fuel with
  | zero => exact ⟨Prog.Sim.hang, Prog.Sim.hang, Prog.Sim.hang, Prog.Sim.hang⟩
  | succ fuel ih =>
    obtain ⟨hline, hpipe, hexec, hblock⟩ := ih
    refine ⟨?_, ?_, ?_, ?_⟩
    · rw [parseline, parseline]
      refine hpipe.bind fun cmd hc => (h.parsebacks fuel hc).bind fun cmd' hc' => ?_
      refine (h.peek _ (by decide)).bind fun more _ => .ite (fun _ => ?_) fun _ => .pure hc'
      exact h.gettoken.bind fun _ _ => hline.bind fun right hr => .pure ⟨hc', hr⟩
    · rw [parsepipe, parsepipe]
      refine hexec.bind fun cmd hc => ?_
      refine (h.peek _ (by decide)).bind fun more _ => .ite (fun _ => ?_) fun _ => .pure hc
      exact h.gettoken.bind fun _ _ => hpipe.bind fun right hr => .pure ⟨hc, hr⟩
    · rw [parseexec, parseexec]
      refine (h.peek _ (by decide)).bind fun block _ => .ite (fun _ => hblock) fun _ => ?_
      have hnone : (Cmd.exec ([] : List α)).All ok := nofun
      exact (h.parseredirs fuel hnone).bind fun ret hr => h.parseargs fuel 0 hr
    · rw [parseblock, parseblock]
      refine (h.peek _ (by decide)).bind fun block _ => .ite (fun _ => .panic _) fun _ => ?_
      refine h.gettoken.bind fun _ _ => hline.bind fun cmd hc => ?_
      refine (h.peek _ (by decide)).bind fun close _ => .ite (fun _ => .panic _) fun _ => ?_
      exact h.gettoken.bind fun _ _ => h.parseredirs fuel hc

end Scanner.Sim

end Scanners

section Terminate

variable {buf : List UInt8}

theorem nulterminate_eq (c : Cmd Span) :
    nulterminate buf c = c.words.foldl (fun m w => m.set w.2 0) buf := by
  induction c generalizing buf with
  | exec argv => rfl
  | redir c file mode fd ih => simp only [nulterminate, Cmd.words, List.foldl_append, ih]; rfl
  | pipe l r ihl ihr => simp only [nulterminate, Cmd.words, List.foldl_append, ihl, ihr]
  | list l r ihl ihr => simp only [nulterminate, Cmd.words, List.foldl_append, ihl, ihr]
  | back c ih => exact ih

theorem foldl_set (ws : List Span) (i : ℕ) :
    (ws.foldl (fun m w => m.set w.2 0) buf)[i]? =
      if i ∈ ws.map Prod.snd then buf[i]?.map fun _ => 0 else buf[i]? := by
  induction ws generalizing buf with
  | nil => rfl
  | cons w ws ih =>
    rw [List.foldl_cons, ih, List.getElem?_set', List.map_cons]
    by_cases hi : i = w.2
    · subst hi
      simp only [if_true, List.mem_cons_self]
      split_ifs
      · rw [Option.map_eq_map, Option.map_map]
        rfl
      · rfl
    · simp only [if_neg (Ne.symm hi), List.mem_cons, hi, false_or]

theorem cstring_nulterminate (h0 : 0 ∉ buf) {c : Cmd Span} (hc : c.All (IsWord buf)) {w : Span}
    (hw : w ∈ c.words) : cstring (nulterminate buf c) w.1 = slice buf w := by
  have hwords := Cmd.all_iff_words.1 hc
  obtain ⟨hlt, hle, hinside, hafter⟩ := hwords w hw
  have hget : ∀ i, (c.words.foldl (fun m w => m.set w.2 0) buf)[i]? = _ := foldl_set c.words
  rw [← nulterminate_eq] at hget
  have hkeep : ((nulterminate buf c).drop w.1).take (w.2 - w.1) = slice buf w := by
    refine List.ext_getElem? fun i => ?_
    rw [slice, List.getElem?_take, List.getElem?_take]
    split_ifs with hi
    · rw [List.getElem?_drop, List.getElem?_drop, hget, if_neg]
      intro hmem
      obtain ⟨v, hv, he⟩ := List.mem_map.1 hmem
      have hlen : w.1 + i < buf.length := by omega
      have hin : buf[w.1 + i] ∈ slice buf w := by
        refine List.mem_of_getElem? (i := i) ?_
        rw [slice, List.getElem?_take, if_pos hi, List.getElem?_drop,
          List.getElem?_eq_getElem hlen]
      refine (hwords v hv).after _ ?_ (hinside _ hin)
      rw [he, List.getElem?_eq_getElem hlen]
      rfl
    · rfl
  have hend : ((nulterminate buf c).drop w.2).takeWhile (· ≠ 0) = [] := by
    cases hd : (nulterminate buf c).drop w.2 with
    | nil => rfl
    | cons d ds =>
      have hz : (nulterminate buf c)[w.2]? = some d := by
        rw [← List.head?_drop, hd]
        rfl
      rw [hget, if_pos (List.mem_map_of_mem hw), Option.map_eq_some_iff] at hz
      obtain ⟨-, -, rfl⟩ := hz
      rfl
  have hnz : ∀ b ∈ slice buf w, decide (b ≠ 0) = true := fun b hb =>
    decide_eq_true fun hb0 => h0 (hb0 ▸ List.mem_of_mem_drop (List.mem_of_mem_take hb))
  have hsplit : (nulterminate buf c).drop w.1 =
      slice buf w ++ (nulterminate buf c).drop w.2 := by
    rw [← hkeep]
    conv_lhs => rw [← List.take_append_drop (w.2 - w.1) ((nulterminate buf c).drop w.1)]
    rw [List.drop_drop, Nat.add_sub_cancel' hlt.le]
  rw [cstring, hsplit, List.takeWhile_append_of_pos hnz, hend, List.append_nil]

end Terminate

section Line

def parsetokens (fuel : ℕ) (ts : List Tok) : Outcome (Cmd (List UInt8)) :=
  (parseline toks fuel ts).bind fun r =>
    if r.2 = [] then .ret r.1 else .panic "syntax"

variable {buf : List UInt8}

theorem chars_sim (h0 : 0 ∉ buf) :
    (chars buf).Sim toks (remaining buf) (· ≤ buf.length) (IsWord buf) (slice buf) where
  gettoken := gettoken_sim h0
  peek _ hks := peek_sim h0 hks

theorem peek_eq_length_iff {s : ℕ} (hs : s ≤ buf.length) :
    (peek buf [] s).2 = buf.length ↔ remaining buf s = [] := by
  rw [remaining, ← tokens_skip hs]
  change skip buf whitespace.contains s = _ ↔ _
  have hle := skip_le (p := whitespace.contains) hs
  cases h : buf.drop (skip buf whitespace.contains s) with
  | nil =>
    have := List.drop_eq_nil_iff.1 h
    simp only [tokens, iff_true]
    omega
  | cons c cs =>
    have := succ_le h
    have hne : tokens (c :: cs) ≠ [] := by
      rw [tokens, if_neg (not_whitespace_skip hs c cs h)]
      split
      · exact List.cons_ne_nil _ _
      · split_ifs <;> exact List.cons_ne_nil _ _
    simp only [hne, iff_false]
    omega

theorem parsecmd_eq (s : List UInt8) :
    parsecmd s = parsetokens (enough (s.takeWhile (· ≠ 0)).length)
      (tokens (s.takeWhile (· ≠ 0))) := by
  have h0 : 0 ∉ s.takeWhile (· ≠ 0) := fun h => by
    have := List.mem_takeWhile_imp h
    simp at this
  rw [parsecmd, parsetokens]
  generalize s.takeWhile (· ≠ 0) = buf at h0 ⊢
  have hsim := ((chars_sim h0).parse (enough buf.length)).1 0 (Nat.zero_le _)
  rw [show tokens buf = remaining buf 0 by rw [remaining, List.drop_zero]]
  cases hp : parseline (chars buf) (enough buf.length) 0 with
  | panic m =>
    rw [hp] at hsim
    rw [hsim]
    rfl
  | hang =>
    rw [hp] at hsim
    rw [hsim]
    rfl
  | ret r =>
    rw [hp] at hsim
    obtain ⟨hwords, hle, htoks⟩ := hsim
    rw [htoks]
    change (if (peek buf [] r.2).2 ≠ buf.length then _ else _) =
      if remaining buf r.2 = [] then _ else _
    by_cases hend : remaining buf r.2 = []
    · rw [if_pos hend, if_neg (not_not.2 ((peek_eq_length_iff hle).2 hend))]
      refine congrArg Outcome.ret (Cmd.map_congr (Cmd.all_iff_words.2 fun w hw => ?_))
      exact cstring_nulterminate h0 hwords hw
    · rw [if_neg hend, if_pos fun he => hend ((peek_eq_length_iff hle).1 he)]

end Line

end Xv6.Sh
