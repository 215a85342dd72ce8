import Mathlib.Data.List.Nodup
import Xv6.Lib.Splice

/-!
# A map in slots

A sequence of slots, each empty or with a key and its value, is a finite map when no key is in
two slots. A search finds the first slot with a key; a new key goes into an empty slot or behind
the last one.
-/

namespace Xv6.Lib.SlotMap

variable {κ ν : Type} {t : List (Option (κ × ν))} {x y : κ} {v : ν} {i k : ℕ}

def Distinct (t : List (Option (κ × ν))) : Prop :=
  ∀ (i k : ℕ) (p q : κ × ν), t[i]? = some (some p) → t[k]? = some (some q) → p.1 = q.1 → i = k

def emptyFrom : ℕ → List (Option (κ × ν)) → ℕ
  | i, [] => i
  | i, none :: _ => i
  | i, some _ :: t => emptyFrom (i + 1) t

theorem emptyFrom_spec (i : ℕ) (t : List (Option (κ × ν))) :
    ∃ k, emptyFrom i t = i + k ∧ (k = t.length ∧ none ∉ t ∨ t[k]? = some none) := by
  induction t generalizing i with
  | nil => exact ⟨0, rfl, .inl ⟨rfl, List.not_mem_nil⟩⟩
  | cons s t ih =>
    cases s with
    | none => exact ⟨0, rfl, .inr rfl⟩
    | some p =>
      obtain ⟨k, hk, hslot⟩ := ih (i + 1)
      refine ⟨k + 1, by rw [emptyFrom, hk]; omega, hslot.imp (fun h => ⟨?_, ?_⟩) fun h => ?_⟩
      · rw [h.1, List.length_cons]
      · exact fun hmem => (List.mem_cons.1 hmem).elim nofun h.2
      · rw [List.getElem?_cons_succ, h]

section Search

variable [DecidableEq κ]

def findFrom (x : κ) : ℕ → List (Option (κ × ν)) → Option (ν × ℕ)
  | _, [] => none
  | i, none :: t => findFrom x (i + 1) t
  | i, some (y, v) :: t => if y = x then some (v, i) else findFrom x (i + 1) t

def get (t : List (Option (κ × ν))) (x : κ) : Option ν := (findFrom x 0 t).map Prod.fst

theorem findFrom_some (h : findFrom x i t = some (v, k)) :
    i ≤ k ∧ t[k - i]? = some (some (x, v)) := by
  induction t generalizing i with
  | nil => cases h
  | cons s t ih =>
    have hnext : findFrom x (i + 1) t = some (v, k) →
        i ≤ k ∧ (s :: t)[k - i]? = some (some (x, v)) := by
      intro hf
      obtain ⟨hle, hget⟩ := ih hf
      refine ⟨by omega, ?_⟩
      rw [show k - i = k - (i + 1) + 1 by omega, List.getElem?_cons_succ, hget]
    match s with
    | none => exact hnext h
    | some (y, w) =>
      rw [findFrom] at h
      split_ifs at h with hy
      · cases h
        rw [Nat.sub_self, List.getElem?_cons_zero, hy]
        exact ⟨Nat.le_refl _, rfl⟩
      · exact hnext h

theorem findFrom_none (h : findFrom x i t = none) :
    ∀ (k : ℕ) (v : ν), t[k]? ≠ some (some (x, v)) := by
  induction t generalizing i with
  | nil => exact fun k v hk => by cases hk
  | cons s t ih =>
    intro k v hk
    match s with
    | none =>
      cases k with
      | zero => cases hk
      | succ k => exact ih h k v hk
    | some (y, w) =>
      rw [findFrom] at h
      split_ifs at h with hy
      cases k with
      | zero =>
        cases hk
        exact hy rfl
      | succ k => exact ih h k v hk

theorem findFrom_eq_none (h : ∀ (k : ℕ) (v : ν), t[k]? ≠ some (some (x, v))) (i : ℕ) :
    findFrom x i t = none := by
  cases hf : findFrom x i t with
  | none => rfl
  | some r => exact absurd (findFrom_some hf).2 (h _ _)

theorem findFrom_of_getElem? (h : Distinct t) (hk : t[k]? = some (some (x, v))) :
    findFrom x 0 t = some (v, k) := by
  cases hf : findFrom x 0 t with
  | none => exact absurd hk (findFrom_none hf k v)
  | some r =>
    obtain ⟨w, i⟩ := r
    have hi := (findFrom_some hf).2
    cases h _ _ _ _ hi hk rfl
    rw [hk] at hi
    cases hi
    rfl

theorem get_eq_some_iff (h : Distinct t) : get t x = some v ↔
    ∃ k : ℕ, t[k]? = some (some (x, v)) := by
  unfold get
  constructor
  · intro hget
    obtain ⟨⟨w, k⟩, hf, rfl⟩ := Option.map_eq_some_iff.1 hget
    exact ⟨k, (findFrom_some hf).2⟩
  · rintro ⟨k, hk⟩
    rw [findFrom_of_getElem? h hk]
    rfl

theorem get_ext {m : κ → Option ν} (h : Distinct t)
    (hm : ∀ x v, m x = some v ↔ ∃ k : ℕ, t[k]? = some (some (x, v))) : get t = m := by
  funext x
  apply Option.ext
  intro v
  rw [get_eq_some_iff h, hm]

end Search

section Filled

variable {l : List (κ × ν)} {n : ℕ} {p : κ × ν}

theorem getElem?_filled : (l.map some ++ List.replicate n none)[k]? = some (some p) ↔
    l[k]? = some p := by
  rw [List.getElem?_append, List.length_map]
  by_cases hk : k < l.length
  · rw [if_pos hk, List.getElem?_map]
    simp
  · rw [if_neg hk, List.getElem?_replicate, List.getElem?_eq_none (Nat.le_of_not_lt hk)]
    split_ifs <;> simp

theorem distinct_filled (h : (l.map Prod.fst).Nodup) (n : ℕ) :
    Distinct (l.map some ++ List.replicate n none) := by
  intro i k p q hi hk he
  rw [getElem?_filled] at hi hk
  obtain ⟨hi, rfl⟩ := List.getElem?_eq_some_iff.1 hi
  obtain ⟨hk, rfl⟩ := List.getElem?_eq_some_iff.1 hk
  have hi' : i < (l.map Prod.fst).length := by rwa [List.length_map]
  have hk' : k < (l.map Prod.fst).length := by rwa [List.length_map]
  have hkeys : (l.map Prod.fst)[i] = (l.map Prod.fst)[k] := by
    rw [List.getElem_map, List.getElem_map, he]
  exact h.getElem_inj_iff.1 hkeys

end Filled

section Put

theorem countP_put (hslot : k = t.length ∨ t[k]? = some none) (p : κ × ν) :
    (splice t k [some p]).countP Option.isSome = t.countP Option.isSome + 1 := by
  rcases hslot with rfl | hslot
  · rw [splice, List.take_length, List.length_singleton, List.drop_of_length_le (Nat.le_succ _)]
    simp
  · obtain ⟨hlt, hnone⟩ := List.getElem?_eq_some_iff.1 hslot
    have hsplit : t = t.take k ++ none :: t.drop (k + 1) := by
      rw [← hnone, List.getElem_cons_drop, List.take_append_drop]
    have hcount := congrArg (List.countP Option.isSome) hsplit
    rw [List.countP_append, List.countP_cons_of_neg (by simp)] at hcount
    rw [splice, List.countP_append, List.countP_append, List.length_singleton, hcount,
      List.countP_singleton]
    simp only [Option.isSome_some, if_true]
    omega

theorem getElem?_put (hle : k ≤ t.length) (s : Option (κ × ν)) (p : κ × ν) :
    (splice t k [s])[i]? = some (some p) ↔ i = k ∧ s = some p ∨ i ≠ k ∧ t[i]? = some (some p) := by
  rw [getElem?_splice hle, List.length_singleton]
  by_cases hik : i = k
  · rw [if_pos (by omega), hik, Nat.sub_self]
    simp
  · rw [if_neg (by omega)]
    simp [hik]

variable [DecidableEq κ]

theorem put_new (h : Distinct t) (hslot : k = t.length ∨ t[k]? = some none)
    (hx : get t x = none) (v : ν) :
    Distinct (splice t k [some (x, v)]) ∧
      get (splice t k [some (x, v)]) = Function.update (get t) x (some v) := by
  have hle : k ≤ t.length := by
    rcases hslot with rfl | hslot
    · exact Nat.le_refl _
    · exact Nat.le_of_lt (List.getElem?_eq_some_iff.1 hslot).1
  have hempty : ∀ p, t[k]? ≠ some (some p) := by
    intro p hp
    rcases hslot with rfl | hslot
    · rw [List.getElem?_eq_none (Nat.le_refl _)] at hp
      cases hp
    · rw [hslot] at hp
      cases hp
  have hnot : ∀ (i : ℕ) (p : κ × ν), t[i]? = some (some p) → p.1 ≠ x := by
    rintro i ⟨y, w⟩ hi rfl
    rw [(get_eq_some_iff h).2 ⟨i, hi⟩] at hx
    cases hx
  have hd : Distinct (splice t k [some (x, v)]) := by
    intro i j p q hi hj he
    rcases (getElem?_put hle _ p).1 hi with ⟨rfl, hp⟩ | ⟨-, hp⟩ <;>
      rcases (getElem?_put hle _ q).1 hj with ⟨rfl, hq⟩ | ⟨-, hq⟩
    · rfl
    · cases hp
      exact absurd he.symm (hnot j q hq)
    · cases hq
      exact absurd he (hnot i p hp)
    · exact h i j p q hp hq he
  refine ⟨hd, get_ext hd fun y w => ?_⟩
  simp only [getElem?_put hle]
  by_cases hy : y = x
  · subst hy
    rw [Function.update_self]
    constructor
    · rintro ⟨⟩
      exact ⟨k, .inl ⟨rfl, rfl⟩⟩
    · rintro ⟨i, ⟨-, hi⟩ | ⟨-, hi⟩⟩
      · cases hi
        rfl
      · exact absurd rfl (hnot i _ hi)
  · rw [Function.update_of_ne hy, get_eq_some_iff h]
    constructor
    · rintro ⟨i, hi⟩
      exact ⟨i, .inr ⟨fun hik => hempty _ (hik ▸ hi), hi⟩⟩
    · rintro ⟨i, ⟨-, hi⟩ | ⟨-, hi⟩⟩
      · cases hi
        exact absurd rfl hy
      · exact ⟨i, hi⟩

theorem put_none (h : Distinct t) (hk : t[k]? = some (some (x, v))) :
    Distinct (splice t k [none]) ∧ get (splice t k [none]) = Function.update (get t) x none := by
  have hle : k ≤ t.length := Nat.le_of_lt (List.getElem?_eq_some_iff.1 hk).1
  have hold : ∀ (i : ℕ) (p : κ × ν), (splice t k [none])[i]? = some (some p) ↔
      i ≠ k ∧ t[i]? = some (some p) := by
    intro i p
    rw [getElem?_put hle]
    simp
  have hd : Distinct (splice t k [none]) := fun i j p q hi hj he =>
    h i j p q ((hold i p).1 hi).2 ((hold j q).1 hj).2 he
  refine ⟨hd, get_ext hd fun y w => ?_⟩
  simp only [hold]
  by_cases hy : y = x
  · subst hy
    rw [Function.update_self]
    refine iff_of_false nofun ?_
    rintro ⟨i, hne, hi⟩
    exact hne (h i k _ _ hi hk rfl)
  · rw [Function.update_of_ne hy, get_eq_some_iff h]
    constructor
    · rintro ⟨i, hi⟩
      refine ⟨i, ?_, hi⟩
      rintro rfl
      rw [hk] at hi
      cases hi
      exact hy rfl
    · rintro ⟨i, -, hi⟩
      exact ⟨i, hi⟩

end Put

end Xv6.Lib.SlotMap
