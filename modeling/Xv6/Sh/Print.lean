import Xv6.Sh.Complete

/-!
# Printing

A tree is printed with blanks between its tokens, and in parentheses where the grammar has
no place for it. A tree of the parser is read back from its text.
-/

namespace Xv6.Sh
open Lib

section Words

def Readable (w : List UInt8) : Prop := w ≠ [] ∧ ∀ c ∈ w, isWord c ∧ c ≠ 0

def Tok.Valid : Tok → Prop
  | .word w => Readable w
  | _ => True

theorem single_valid {c : UInt8} {t : Tok} (h : Tok.single c = some t) : t.Valid := by
  simp only [Tok.single] at h
  split_ifs at h
  all_goals
    obtain rfl := Option.some.inj h
    trivial

theorem tokens_valid {cs : List UInt8} (h0 : 0 ∉ cs) : ∀ t ∈ tokens cs, t.Valid := by
  fun_induction tokens cs with
  | case1 => exact List.forall_mem_nil _
  | case2 c cs hw ih => exact ih fun h => h0 (List.mem_cons_of_mem _ h)
  | case3 c cs hw t ht ih =>
    refine List.forall_mem_cons.2 ⟨single_valid ht, ih fun h => h0 (List.mem_cons_of_mem _ h)⟩
  | case4 cs hw ht hgg ih =>
    exact List.forall_mem_cons.2 ⟨trivial, ih fun h =>
      h0 (List.mem_cons_of_mem _ (List.mem_of_mem_tail h))⟩
  | case5 cs hw ht hgg ih =>
    exact List.forall_mem_cons.2 ⟨trivial, ih fun h => h0 (List.mem_cons_of_mem _ h)⟩
  | case6 c cs hw ht hg ih =>
    refine List.forall_mem_cons.2 ⟨⟨List.cons_ne_nil _ _, ?_⟩, ih fun h =>
      h0 (List.mem_cons_of_mem _ ((List.dropWhile_suffix _).subset h))⟩
    refine List.forall_mem_cons.2 ⟨⟨isWord_of_single ht hg hw, fun h => h0 ?_⟩, fun d hd =>
      ⟨List.mem_takeWhile_imp hd, fun h => h0 ?_⟩⟩
    · exact h ▸ List.mem_cons_self
    · exact h ▸ List.mem_cons_of_mem _ ((List.takeWhile_prefix _).subset hd)

def blank : UInt8 := 32

theorem tokens_text_append {t : Tok} (ht : t.Valid) {rest : List UInt8}
    (hrest : ∀ c ∈ rest.head?, c = blank) : tokens (t.text ++ rest) = t :: tokens rest := by
  have hone : ∀ {c : UInt8} {t : Tok}, Tok.single c = some t → ¬whitespace.contains c →
      tokens (c :: rest) = t :: tokens rest := by
    intro c t hs hw
    rw [tokens, if_neg hw, hs]
  cases t with
  | word w =>
    obtain ⟨hne, hw⟩ := ht
    obtain ⟨c, cs, rfl⟩ := List.exists_cons_of_ne_nil hne
    have hc := (hw c List.mem_cons_self).1
    have htake : (cs ++ rest).takeWhile isWord = cs ∧ (cs ++ rest).dropWhile isWord = rest := by
      have hcs : ∀ d ∈ cs, isWord d = true := fun d hd => (hw d (List.mem_cons_of_mem _ hd)).1
      rw [List.takeWhile_append_of_pos hcs, List.dropWhile_append_of_pos hcs]
      cases rest with
      | nil => exact ⟨List.append_nil cs, rfl⟩
      | cons d ds =>
        obtain rfl := hrest d rfl
        exact ⟨List.append_nil cs, rfl⟩
    have hsymbol : whitespace.contains c = false ∧ symbols.contains c = false := by
      simpa [isWord] using hc
    have hsingle : Tok.single c = none := by
      cases hs : Tok.single c with
      | none => rfl
      | some t =>
        obtain ⟨hcase, -⟩ := single_some hs
        rcases hcase with rfl | rfl | rfl | rfl | rfl | rfl <;> exact absurd hsymbol.2 (by decide)
    have hgt : c ≠ gt := fun h => absurd hsymbol.2 (by rw [h]; decide)
    change tokens (c :: (cs ++ rest)) = _
    rw [tokens, if_neg (by rw [hsymbol.1]; exact Bool.false_ne_true), hsingle]
    simp only [if_neg hgt, htake]
  | bar => exact hone rfl (by decide)
  | amp => exact hone rfl (by decide)
  | semi => exact hone rfl (by decide)
  | lpar => exact hone rfl (by decide)
  | rpar => exact hone rfl (by decide)
  | lt => exact hone rfl (by decide)
  | gt =>
    change tokens (gt :: rest) = _
    have hne : rest.head? ≠ some gt := fun h => absurd (hrest gt h) (by decide)
    rw [tokens, if_neg (by decide)]
    simp only [show Tok.single gt = none from rfl, if_true, if_neg hne]
  | gtgt =>
    change tokens (gt :: gt :: rest) = _
    rw [tokens, if_neg (by decide)]
    rfl

def unlex (ts : List Tok) : List UInt8 := List.intercalate [blank] (ts.map Tok.text)

theorem unlex_singleton (t : Tok) : unlex [t] = t.text := by
  simp [unlex]

theorem unlex_cons_cons (t u : Tok) (us : List Tok) :
    unlex (t :: u :: us) = t.text ++ blank :: unlex (u :: us) := by
  simp [unlex, List.intercalate]

theorem tokens_unlex {ts : List Tok} (h : ∀ t ∈ ts, t.Valid) : tokens (unlex ts) = ts := by
  induction ts with
  | nil => exact tokens.eq_1
  | cons t ts ih =>
    obtain ⟨ht, hts⟩ := List.forall_mem_cons.1 h
    cases ts with
    | nil => rw [unlex_singleton, ← List.append_nil t.text, tokens_text_append ht (by simp), tokens]
    | cons u us =>
      rw [unlex_cons_cons, tokens_text_append ht (by simp), tokens, if_pos (by decide), ih hts]

theorem text_ne_zero {t : Tok} (ht : t.Valid) : 0 ∉ t.text := by
  cases t with
  | word w => exact fun h => (ht.2 0 h).2 rfl
  | _ => decide

theorem unlex_ne_zero {ts : List Tok} (h : ∀ t ∈ ts, t.Valid) : 0 ∉ unlex ts := by
  induction ts with
  | nil => exact nofun
  | cons t ts ih =>
    obtain ⟨ht, hts⟩ := List.forall_mem_cons.1 h
    cases ts with
    | nil =>
      rw [unlex_singleton]
      exact text_ne_zero ht
    | cons u us =>
      rw [unlex_cons_cons]
      intro h0
      rcases List.mem_append.1 h0 with h0 | h0
      · exact text_ne_zero ht h0
      · rcases List.mem_cons.1 h0 with h0 | h0
        · exact absurd h0 (by decide)
        · exact ih hts h0

end Words

section Trees

inductive Place
  | line
  | back
  | pipe
  | exec
  deriving DecidableEq

def paren (p : Bool) (ts : List Tok) : List Tok := if p then .lpar :: ts ++ [.rpar] else ts

def Cmd.toks : Tree → Place → List Tok
  | .exec argv, _ => argv.map .word
  | .redir c file mode _, _ =>
    c.toks .exec ++ [if mode = O_RDONLY then .lt else .gt, .word file]
  | .pipe l r, p => paren (p = .exec) (l.toks .exec ++ .bar :: r.toks .pipe)
  | .back c, p => paren (p = .pipe ∨ p = .exec) (c.toks .back ++ [.amp])
  | .list l r, p => paren (p ≠ .line) (l.toks .back ++ .semi :: r.toks .line)

def print (c : Tree) : List UInt8 := unlex (c.toks .line)

def Cmd.Wf : Tree → Prop
  | .exec argv => argv.length ≤ MAXARGS - 1 ∧ ∀ w ∈ argv, Readable w
  | .redir c file mode fd =>
    c.Wf ∧ Readable file ∧
      ((mode, fd) = (O_RDONLY, 0) ∨ (mode, fd) = (O_WRONLY ||| O_CREATE, 1))
  | .pipe l r => l.Wf ∧ r.Wf
  | .list l r => l.Wf ∧ r.Wf
  | .back c => c.Wf

theorem paren_exec {ts : List Tok} {c : Tree} (h : Derives .line ts c) :
    Derives .exec (paren true ts) c := .block [] h

theorem Derives.redir {ts : List Tok} {c : Tree} (h : Derives .exec ts c) (r : Redir) :
    Derives .exec (ts ++ r.toks) (Redir.on c r) := by
  cases h with
  | @block ts c rs h =>
    have := Derives.block (rs ++ [r]) h
    simpa [List.flatMap_append, List.foldl_append] using this
  | exec rs args hn =>
    rcases List.eq_nil_or_concat args with rfl | ⟨init, a, rfl⟩
    · have := Derives.exec (rs ++ [r]) [] (Nat.zero_le _)
      simpa [List.flatMap_append, List.foldl_append] using this
    · have := Derives.exec rs (init ++ [⟨a.word, a.redirs ++ [r]⟩]) (by simpa using hn)
      simpa [List.flatMap_append, List.foldl_append, Arg.toks] using this

theorem Derives.pipe_line {ts : List Tok} {c : Tree} (h : Derives .pipe ts c) :
    Derives .line ts c := by
  simpa using Derives.line 0 h

def Fits (p : Place) (ts : List Tok) (c : Tree) : Prop :=
  match p with
  | .exec => Derives .exec ts c
  | .pipe => Derives .pipe ts c
  | .back => ∃ us n d, ts = us ++ List.replicate n .amp ∧ c = Cmd.back^[n] d ∧ Derives .pipe us d
  | .line => Derives .line ts c

theorem Fits.of_exec {ts : List Tok} {c : Tree} (h : Derives .exec ts c) (p : Place) :
    Fits p ts c := by
  cases p with
  | exec => exact h
  | pipe => exact .last h
  | back => exact ⟨ts, 0, c, (List.append_nil ts).symm, rfl, .last h⟩
  | line => exact (Derives.last h).pipe_line

theorem Fits.paren {ts : List Tok} {c : Tree} (h : Derives .line ts c) (p : Place) :
    Fits p (paren true ts) c := .of_exec (paren_exec h) p

theorem Cmd.Wf.fits {c : Tree} (h : c.Wf) (p : Place) : Fits p (c.toks p) c := by
  induction c generalizing p with
  | exec argv =>
    have hexec := Derives.exec [] (argv.map fun w => ⟨w, []⟩) (by simpa using h.1)
    have hredirs : argv.flatMap (fun _ => ([] : List Redir)) = [] :=
      List.flatMap_eq_nil_iff.2 fun _ _ => rfl
    refine .of_exec ?_ p
    rw [Cmd.toks, List.map_eq_flatMap]
    simpa [List.flatMap_map, Arg.toks, Function.comp_def, hredirs] using hexec
  | redir c file mode fd ih =>
    refine .of_exec ?_ p
    have hc : Derives .exec _ c := ih h.1 .exec
    rcases h.2.2 with hm | hm
    · obtain ⟨rfl, rfl⟩ := Prod.mk.inj hm
      exact hc.redir ⟨.lt, file⟩
    · obtain ⟨rfl, rfl⟩ := Prod.mk.inj hm
      exact hc.redir ⟨.gt, file⟩
  | pipe l r ihl ihr =>
    have hpipe : Derives .pipe (l.toks .exec ++ .bar :: r.toks .pipe) (.pipe l r) :=
      .pipe (ihl h.1 .exec) (ihr h.2 .pipe)
    cases p with
    | exec => exact .paren hpipe.pipe_line .exec
    | pipe => exact hpipe
    | back => exact ⟨_, 0, _, (List.append_nil _).symm, rfl, hpipe⟩
    | line => exact hpipe.pipe_line
  | back c ih =>
    obtain ⟨us, n, d, hts, hd, hpipe⟩ := ih h .back
    have hts' : c.toks .back ++ [.amp] = us ++ List.replicate (n + 1) .amp := by
      rw [hts, List.append_assoc, ← List.replicate_succ']
    have hc' : Cmd.back c = Cmd.back^[n + 1] d := by
      rw [hd, Function.iterate_succ_apply']
    have hline : Derives .line (c.toks .back ++ [.amp]) (.back c) := by
      rw [hts', hc']
      exact .line (n + 1) hpipe
    cases p with
    | exec => exact .paren hline .exec
    | pipe => exact .paren hline .pipe
    | back => exact ⟨us, n + 1, d, hts', hc', hpipe⟩
    | line => exact hline
  | list l r ihl ihr =>
    obtain ⟨us, n, d, hts, hd, hpipe⟩ := ihl h.1 .back
    have hline : Derives .line (l.toks .back ++ .semi :: r.toks .line) (.list l r) := by
      rw [hts, hd]
      exact .list n hpipe (ihr h.2 .line)
    cases p with
    | exec => exact .paren hline .exec
    | pipe => exact .paren hline .pipe
    | back => exact .paren hline .back
    | line => exact hline

theorem paren_valid {p : Bool} {ts : List Tok} (h : ∀ t ∈ ts, t.Valid) :
    ∀ t ∈ paren p ts, t.Valid := by
  cases p with
  | false => exact h
  | true =>
    intro t ht
    simp only [paren, if_true, List.cons_append, List.mem_cons, List.mem_append,
      List.not_mem_nil, or_false] at ht
    rcases ht with rfl | ht | rfl
    · trivial
    · exact h t ht
    · trivial

theorem Cmd.Wf.valid {c : Tree} (h : c.Wf) (p : Place) : ∀ t ∈ c.toks p, t.Valid := by
  induction c generalizing p with
  | exec argv =>
    intro t ht
    obtain ⟨w, hw, rfl⟩ := List.mem_map.1 ht
    exact h.2 w hw
  | redir c file mode fd ih =>
    refine List.forall_mem_append.2 ⟨ih h.1 .exec, List.forall_mem_cons.2 ⟨?_, ?_⟩⟩
    · split_ifs <;> trivial
    · exact List.forall_mem_singleton.2 h.2.1
  | pipe l r ihl ihr =>
    exact paren_valid (List.forall_mem_append.2 ⟨ihl h.1 .exec,
      List.forall_mem_cons.2 ⟨trivial, ihr h.2 .pipe⟩⟩)
  | back c ih =>
    exact paren_valid (List.forall_mem_append.2 ⟨ih h .back, List.forall_mem_singleton.2 trivial⟩)
  | list l r ihl ihr =>
    exact paren_valid (List.forall_mem_append.2 ⟨ihl h.1 .back,
      List.forall_mem_cons.2 ⟨trivial, ihr h.2 .line⟩⟩)

theorem Redir.on_wf {c : Tree} (hc : c.Wf) {r : Redir} (hr : Readable r.file) :
    (Redir.on c r).Wf := by
  cases r with
  | mk arrow file =>
    cases arrow with
    | lt => exact ⟨hc, hr, .inl rfl⟩
    | gt => exact ⟨hc, hr, .inr rfl⟩
    | gtgt => exact ⟨hc, hr, .inr rfl⟩

theorem foldl_on_wf (rs : List Redir) {c : Tree} (hc : c.Wf) (hrs : ∀ r ∈ rs, Readable r.file) :
    (rs.foldl Redir.on c).Wf := by
  induction rs generalizing c with
  | nil => exact hc
  | cons r rs ih =>
    obtain ⟨hr, hrs⟩ := List.forall_mem_cons.1 hrs
    exact ih (Redir.on_wf hc hr) hrs

theorem iterate_back_wf (n : ℕ) {c : Tree} (hc : c.Wf) : (Cmd.back^[n] c).Wf := by
  induction n with
  | zero => exact hc
  | succ n ih =>
    rw [Function.iterate_succ_apply']
    exact ih

theorem redirs_readable {rs : List Redir} (h : ∀ t ∈ rs.flatMap Redir.toks, t.Valid) :
    ∀ r ∈ rs, Readable r.file := fun r hr =>
  h (.word r.file) (List.mem_flatMap.2 ⟨r, hr, by simp [Redir.toks]⟩)

theorem Derives.wf {N : Phrase} {ts : List Tok} {c : Tree} (h : Derives N ts c)
    (hts : ∀ t ∈ ts, t.Valid) : c.Wf := by
  induction h with
  | block rs h ih =>
    obtain ⟨hin, hout⟩ := List.forall_mem_append.1 hts
    exact foldl_on_wf rs (ih (List.forall_mem_cons.1 hin).2)
      (redirs_readable (List.forall_mem_cons.1 hout).2)
  | exec rs args hn =>
    obtain ⟨hrs, hargs⟩ := List.forall_mem_append.1 hts
    have harg : ∀ a ∈ args, ∀ t ∈ a.toks, t.Valid := fun a ha t ht =>
      hargs t (List.mem_flatMap.2 ⟨a, ha, ht⟩)
    refine foldl_on_wf _ ⟨by simpa using hn, fun w hw => ?_⟩
      (List.forall_mem_append.2 ⟨redirs_readable hrs, fun r hr => ?_⟩)
    · obtain ⟨a, ha, rfl⟩ := List.mem_map.1 hw
      exact (List.forall_mem_cons.1 (harg a ha)).1
    · obtain ⟨a, ha, hr⟩ := List.mem_flatMap.1 hr
      exact redirs_readable (List.forall_mem_cons.1 (harg a ha)).2 r hr
  | last h ih => exact ih hts
  | pipe h h' ih ih' =>
    obtain ⟨hl, hr⟩ := List.forall_mem_append.1 hts
    exact ⟨ih hl, ih' (List.forall_mem_cons.1 hr).2⟩
  | line n h ih => exact iterate_back_wf n (ih (List.forall_mem_append.1 hts).1)
  | list n h h' ih ih' =>
    obtain ⟨hl, hr⟩ := List.forall_mem_append.1 hts
    exact ⟨iterate_back_wf n (ih (List.forall_mem_append.1 hl).1),
      ih' (List.forall_mem_cons.1 hr).2⟩

end Trees

section Lines

def buf (s : List UInt8) : List UInt8 := s.takeWhile (· ≠ 0)

theorem line_ne_zero (s : List UInt8) : 0 ∉ buf s := fun h => by
  have := List.mem_takeWhile_imp h
  simp at this

theorem line_of_ne_zero {s : List UInt8} (h : 0 ∉ s) : buf s = s :=
  List.takeWhile_eq_self_iff.2 fun _ hc => decide_eq_true fun h0 => h (h0 ▸ hc)

theorem enough_fuel (cs : List UInt8) :
    fuelFor .line (tokens cs).length ≤ enough cs.length := by
  have := length_tokens cs
  simp only [fuelFor, enough]
  omega

theorem parsecmd_ret {s : List UInt8} {c : Tree} :
    parsecmd s = .ret c ↔ Derives .line (tokens (buf s)) c := by
  rw [parsecmd_eq]
  exact parsetokens_ret (enough_fuel _)

theorem parsecmd_print {s : List UInt8} {c : Tree} (h : parsecmd s = .ret c) :
    parsecmd (print c) = .ret c := by
  have hwf : c.Wf := (parsecmd_ret.1 h).wf (tokens_valid (line_ne_zero s))
  have hvalid := hwf.valid .line
  rw [parsecmd_ret, print, line_of_ne_zero (unlex_ne_zero hvalid), tokens_unlex hvalid]
  exact hwf.fits .line

/-- The parser accepts the lines of the grammar, with the tree of their derivation, and every
other line ends in a panic. A tree of it is read back from its text. -/
theorem parsecmd_exact (s : List UInt8) :
    (∀ c, parsecmd s = .ret c ↔ Derives .line (tokens (buf s)) c) ∧
    ((¬∃ c, Derives .line (tokens (buf s)) c) → ∃ m, parsecmd s = .panic m) ∧
    ∀ c, parsecmd s = .ret c → parsecmd (print c) = .ret c := by
  refine ⟨fun _ => parsecmd_ret, fun h => ?_, fun _ => parsecmd_print⟩
  rw [parsecmd_eq]
  exact parsetokens_panic (enough_fuel _) h

end Lines

end Xv6.Sh
