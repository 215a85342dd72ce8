import Mathlib.Computability.Language
import Mathlib.Tactic.NormNum

/-!
# The matcher of `grep`

A string is the list of its bytes before the NUL. `language` is what a pattern stands for, as a
concatenation of items; `match` finds out whether a part of the text is in it.
-/

namespace Xv6.Grep

def caret : UInt8 := 94
def dollar : UInt8 := 36
def dot : UInt8 := 46
def asterisk : UInt8 := 42

section Code

mutual

/-- Search for `re` at the beginning of `text`. -/
def matchhere (re text : List UInt8) : Bool :=
  match re with
  | [] => true
  | c :: re' =>
    if re'.head? = some asterisk then matchstar c re'.tail text
    else if c = dollar ∧ re' = [] then text.isEmpty
    else
      match text with
      | [] => false
      | t :: text' => if c = dot ∨ c = t then matchhere re' text' else false
termination_by (2 * re.length, text.length)
decreasing_by
  · rw [List.length_tail]
    apply Prod.Lex.left
    rw [List.length_cons]
    omega
  · apply Prod.Lex.left
    rw [List.length_cons]
    omega

/-- Search for `c*re` at the beginning of `text`. -/
def matchstar (c : UInt8) (re text : List UInt8) : Bool :=
  if matchhere re text then true
  else
    match text with
    | [] => false
    | t :: text' => if t = c ∨ c = dot then matchstar c re text' else false
termination_by (2 * re.length + 1, text.length)

end

def matchFrom (re : List UInt8) : List UInt8 → Bool
  | [] => matchhere re []
  | t :: text => if matchhere re (t :: text) then true else matchFrom re text

def matchText (re text : List UInt8) : Bool :=
  if re.head? = some caret then matchhere re.tail text else matchFrom re text

end Code

section Meaning

def Fits (c x : UInt8) : Prop := c = dot ∨ c = x

inductive Item
  | one (c : UInt8)
  | star (c : UInt8)

def Item.language : Item → Language UInt8
  | .one c => {w | ∃ x, Fits c x ∧ w = [x]}
  | .star c => KStar.kstar ({w | ∃ x, Fits c x ∧ w = [x]} : Language UInt8)

def items : List UInt8 → List Item
  | [] => []
  | [c] => if c = dollar then [] else [.one c]
  | c :: c' :: re => if c' = asterisk then .star c :: items re else .one c :: items (c' :: re)

def atEnd : List UInt8 → Bool
  | [] => false
  | [c] => c = dollar
  | _ :: c' :: re => if c' = asterisk then atEnd re else atEnd (c' :: re)

/-- The language of a pattern without a `^` at its beginning. -/
def language (re : List UInt8) : Language UInt8 := ((items re).map Item.language).prod

def Begins (re text : List UInt8) : Prop :=
  ∃ w rest, text = w ++ rest ∧ w ∈ language re ∧ (atEnd re = true → rest = [])

variable {c t : UInt8} {re text w : List UInt8}

theorem begins_nil (text : List UInt8) : Begins [] text :=
  ⟨[], text, rfl, Language.nil_mem_one, nofun⟩

theorem begins_dollar : Begins [dollar] text ↔ text = [] := by
  constructor
  · rintro ⟨w, rest, rfl, hw, hrest⟩
    cases (Language.mem_one w).1 hw
    exact hrest rfl
  · rintro rfl
    exact ⟨[], [], rfl, Language.nil_mem_one, fun _ => rfl⟩

theorem items_one (hstar : re.head? ≠ some asterisk) (hend : ¬(c = dollar ∧ re = [])) :
    items (c :: re) = .one c :: items re ∧ atEnd (c :: re) = atEnd re := by
  cases re with
  | nil =>
    have hc : c ≠ dollar := fun e => hend ⟨e, rfl⟩
    exact ⟨if_neg hc, decide_eq_false hc⟩
  | cons c' re =>
    have hc' : c' ≠ asterisk := fun e => hstar (congrArg some e)
    rw [items, if_neg hc', atEnd, if_neg hc']
    exact ⟨rfl, rfl⟩

theorem items_star (c : UInt8) (re : List UInt8) :
    items (c :: asterisk :: re) = .star c :: items re ∧
      atEnd (c :: asterisk :: re) = atEnd re := by
  rw [items, if_pos rfl, atEnd, if_pos rfl]
  exact ⟨rfl, rfl⟩

theorem mem_one_mul {l : Language UInt8} :
    w ∈ (Item.one c).language * l ↔ ∃ t v, w = t :: v ∧ Fits c t ∧ v ∈ l := by
  rw [Language.mem_mul]
  constructor
  · rintro ⟨a, ⟨t, ht, rfl⟩, v, hv, rfl⟩
    exact ⟨t, v, rfl, ht, hv⟩
  · rintro ⟨t, v, rfl, ht, hv⟩
    exact ⟨[t], ⟨t, ht, rfl⟩, v, hv, rfl⟩

theorem begins_one (hstar : re.head? ≠ some asterisk) (hend : ¬(c = dollar ∧ re = [])) :
    Begins (c :: re) text ↔ ∃ t text', text = t :: text' ∧ Fits c t ∧ Begins re text' := by
  obtain ⟨hitems, hatEnd⟩ := items_one hstar hend
  unfold Begins language
  rw [hitems, hatEnd, List.map_cons, List.prod_cons]
  constructor
  · rintro ⟨w, rest, rfl, hw, hrest⟩
    obtain ⟨t, v, rfl, ht, hv⟩ := mem_one_mul.1 hw
    exact ⟨t, v ++ rest, rfl, ht, v, rest, rfl, hv, hrest⟩
  · rintro ⟨t, _, rfl, ht, v, rest, rfl, hv, hrest⟩
    exact ⟨t :: v, rest, rfl, mem_one_mul.2 ⟨t, v, rfl, ht, hv⟩, hrest⟩

theorem begins_star : Begins (c :: asterisk :: re) text ↔ Begins re text ∨
    ∃ t text', text = t :: text' ∧ Fits c t ∧ Begins (c :: asterisk :: re) text' := by
  obtain ⟨hitems, hatEnd⟩ := items_star c re
  -- one round of the star
  have hround : ∀ w, w ∈ (Item.star c).language * language re ↔ w ∈ language re ∨
      ∃ t v, w = t :: v ∧ Fits c t ∧ v ∈ (Item.star c).language * language re := by
    intro w
    have hkstar := Language.one_add_self_mul_kstar_eq_kstar (Item.one c).language
    change 1 + (Item.one c).language * (Item.star c).language = (Item.star c).language at hkstar
    rw [← mem_one_mul, ← mul_assoc, ← Language.mem_add]
    nth_rewrite 1 [← hkstar]
    rw [add_mul, one_mul]
  unfold Begins language
  rw [hitems, hatEnd, List.map_cons, List.prod_cons]
  constructor
  · rintro ⟨w, rest, rfl, hw, hrest⟩
    rcases (hround w).1 hw with hw | ⟨t, v, rfl, ht, hv⟩
    · exact .inl ⟨w, rest, rfl, hw, hrest⟩
    · exact .inr ⟨t, v ++ rest, rfl, ht, v, rest, rfl, hv, hrest⟩
  · rintro (⟨w, rest, rfl, hw, hrest⟩ | ⟨t, _, rfl, ht, v, rest, rfl, hv, hrest⟩)
    · exact ⟨w, rest, rfl, (hround w).2 (.inl hw), hrest⟩
    · exact ⟨t :: v, rest, rfl, (hround _).2 (.inr ⟨t, v, rfl, ht, hv⟩), hrest⟩

end Meaning

section Correct

variable {c : UInt8} {re : List UInt8}

theorem matchstar_iff (hre : ∀ text, matchhere re text = true ↔ Begins re text)
    (text : List UInt8) :
    matchstar c re text = true ↔ Begins (c :: asterisk :: re) text := by
  induction text with
  | nil =>
    rw [matchstar, begins_star, ← hre]
    by_cases h : matchhere re [] = true
    · rw [if_pos h]
      exact iff_of_true rfl (.inl h)
    · rw [if_neg h]
      refine iff_of_false nofun ?_
      rintro (h' | ⟨t, text', he, -⟩)
      · exact h h'
      · cases he
  | cons t text ih =>
    rw [matchstar, begins_star, ← hre]
    by_cases h : matchhere re (t :: text) = true
    · rw [if_pos h]
      exact iff_of_true rfl (.inl h)
    · rw [if_neg h]
      have hrest : (∃ u text', t :: text = u :: text' ∧ Fits c u ∧
          Begins (c :: asterisk :: re) text') ↔
            Fits c t ∧ Begins (c :: asterisk :: re) text := by
        constructor
        · rintro ⟨u, text', he, hfit, hbegins⟩
          cases he
          exact ⟨hfit, hbegins⟩
        · intro hh
          exact ⟨t, text, rfl, hh⟩
      rw [or_iff_right h, hrest, ← ih]
      by_cases hfit : t = c ∨ c = dot
      · simp only [if_pos hfit]
        exact ⟨fun hm => ⟨hfit.symm.imp_right Eq.symm, hm⟩, And.right⟩
      · simp only [if_neg hfit]
        refine iff_of_false nofun ?_
        rintro ⟨h', -⟩
        exact hfit (h'.symm.imp_left Eq.symm)

theorem matchhere_iff (re text : List UInt8) : matchhere re text = true ↔ Begins re text := by
  -- `matchstar` goes on with a shorter pattern, and so does `matchhere`
  induction hn : re.length using Nat.strong_induction_on generalizing re text with
  | _ n ih =>
  subst hn
  cases re with
  | nil =>
    rw [matchhere]
    exact iff_of_true rfl (begins_nil text)
  | cons c re =>
    have hshort : re.length < (c :: re).length := Nat.lt_succ_self _
    rw [matchhere.eq_def]
    simp only
    by_cases hstar : re.head? = some asterisk
    · obtain ⟨re', rfl⟩ : ∃ re', re = asterisk :: re' := List.head?_eq_some_iff.1 hstar
      rw [if_pos hstar, List.tail_cons]
      refine matchstar_iff (fun text => ih re'.length ?_ re' text rfl) text
      rw [List.length_cons] at hshort
      omega
    rw [if_neg hstar]
    by_cases hend : c = dollar ∧ re = []
    · obtain ⟨rfl, rfl⟩ := hend
      rw [if_pos ⟨rfl, rfl⟩, begins_dollar, List.isEmpty_iff]
    rw [if_neg hend, begins_one hstar hend]
    cases text with
    | nil =>
      refine iff_of_false nofun ?_
      rintro ⟨t, text', he, -⟩
      cases he
    | cons t text =>
      have hih := ih re.length hshort re text rfl
      by_cases hfit : c = dot ∨ c = t
      · simp only [if_pos hfit]
        rw [hih]
        constructor
        · intro hb
          exact ⟨t, text, rfl, hfit, hb⟩
        · rintro ⟨u, text', he, -, hb⟩
          cases he
          exact hb
      · simp only [if_neg hfit]
        refine iff_of_false nofun ?_
        rintro ⟨u, text', he, hu, -⟩
        cases he
        exact hfit hu

theorem matchFrom_iff (re text : List UInt8) :
    matchFrom re text = true ↔ ∃ before rest, text = before ++ rest ∧ Begins re rest := by
  induction text with
  | nil =>
    rw [matchFrom, matchhere_iff]
    constructor
    · intro h
      exact ⟨[], [], rfl, h⟩
    · rintro ⟨before, rest, he, h⟩
      rw [(List.append_eq_nil_iff.1 he.symm).2] at h
      exact h
  | cons t text ih =>
    rw [matchFrom]
    by_cases h : matchhere re (t :: text) = true
    · rw [if_pos h]
      exact iff_of_true rfl ⟨[], t :: text, rfl, (matchhere_iff _ _).1 h⟩
    · rw [if_neg h, ih]
      constructor
      · rintro ⟨before, rest, rfl, hb⟩
        exact ⟨t :: before, rest, rfl, hb⟩
      · rintro ⟨before, rest, he, hb⟩
        cases before with
        | nil =>
          rw [List.nil_append] at he
          exact absurd ((matchhere_iff _ _).2 (he ▸ hb)) h
        | cons u before =>
          cases he
          exact ⟨before, rest, rfl, hb⟩

/-- A text matches when a part of it is in the language of the pattern: from the beginning of
the text with a `^`, and up to its end with a `$`. -/
theorem matchText_iff (re text : List UInt8) :
    matchText re text = true ↔
      if re.head? = some caret then
        ∃ w after, text = w ++ after ∧ w ∈ language re.tail ∧ (atEnd re.tail = true → after = [])
      else
        ∃ before w after, text = before ++ w ++ after ∧ w ∈ language re ∧
          (atEnd re = true → after = []) := by
  unfold matchText
  by_cases hcaret : re.head? = some caret
  · rw [if_pos hcaret, if_pos hcaret]
    exact matchhere_iff re.tail text
  · rw [if_neg hcaret, if_neg hcaret, matchFrom_iff]
    constructor
    · rintro ⟨before, _, rfl, w, after, rfl, hw, hafter⟩
      exact ⟨before, w, after, (List.append_assoc _ _ _).symm, hw, hafter⟩
    · rintro ⟨before, w, after, rfl, hw, hafter⟩
      exact ⟨before, w ++ after, List.append_assoc _ _ _, w, after, rfl, hw, hafter⟩

end Correct

end Xv6.Grep
