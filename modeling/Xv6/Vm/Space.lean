import Xv6.Vm.Kalloc

/-!
# Page directories as trees of pages

`tab m d i` is the page table behind entry `i` of the directory in frame `d` and
`pte m d v` the entry for virtual page `v`. The pages of a directory are the
directory itself, its page tables and the frames behind its user entries. In a `Tree`
they are distinct pages of the allocator, none of them free.
-/

namespace Xv6.Vm
open Lib

section Walk

variable (m : Pages) (d : ℕ)

def tab (i : ℕ) : Option ℕ :=
  if present (m.word d i) then some (m.word d i / 4096) else none

def pte (v : ℕ) : ℕ :=
  match tab m d (v / 1024) with
  | some t => m.word t (v % 1024)
  | none => 0

def frm (v : ℕ) : Option ℕ := if present (pte m d v) then some (pte m d v / 4096) else none

end Walk

inductive Part
  | dir
  | table (i : ℕ)
  | frame (v : ℕ)

def holds (m : Pages) (d : ℕ) : Part → ℕ → Prop
  | .dir, p => p = d
  | .table i, p => i < 1024 ∧ tab m d i = some p
  | .frame v, p => v < UPAGES ∧ frm m d v = some p

def Own (m : Pages) (d p : ℕ) : Prop := ∃ u, holds m d u p

variable {L : Link} {m m' : Pages} {d i t v p w : ℕ}

theorem pte_of_tab (h : tab m d (v / 1024) = some t) : pte m d v = m.word t (v % 1024) := by
  simp [pte, h]

theorem pte_of_tab_none (h : tab m d (v / 1024) = none) : pte m d v = 0 := by
  simp [pte, h]

theorem exists_tab (h : present (pte m d v) = true) : ∃ t, tab m d (v / 1024) = some t := by
  rw [← Option.ne_none_iff_exists']
  intro hnone
  rw [pte_of_tab_none hnone] at h
  cases h

theorem frm_of_tab_none (h : tab m d (v / 1024) = none) : frm m d v = none := by
  simp [frm, pte_of_tab_none h]

theorem frm_eq_some : frm m d v = some p ↔ present (pte m d v) = true ∧ pte m d v / 4096 = p := by
  simp [frm]

theorem frm_eq_none : frm m d v = none ↔ present (pte m d v) = false := by
  simp [frm]

theorem tab_congr (h : m' d = m d) : tab m' d i = tab m d i := by
  simp [tab, Pages.word_congr h]

theorem pte_congr (hd : m' d = m d)
    (ht : ∀ t, tab m d (v / 1024) = some t → m' t = m t) : pte m' d v = pte m d v := by
  simp only [pte, tab_congr hd]
  split
  · next t h => exact Pages.word_congr (ht t h)
  · rfl

def Inner (m : Pages) (d p : ℕ) : Prop := p = d ∨ ∃ i < 1024, tab m d i = some p

theorem Inner.own (h : Inner m d p) : Own m d p := by
  rcases h with h | ⟨i, hi, ht⟩
  · exact ⟨.dir, h⟩
  · exact ⟨.table i, hi, ht⟩

/-- The directory and its page tables are distinct pages of the allocator, whatever the
entries map. -/
structure Dir (L : Link) (m : Pages) (d : ℕ) : Prop where
  tab_ne_dir : ∀ {i t}, i < 1024 → tab m d i = some t → t ≠ d
  tab_inj : ∀ {i j t}, i < 1024 → j < 1024 → tab m d i = some t → tab m d j = some t → i = j
  page : ∀ p, Inner m d p → L.Page p

namespace Dir

theorem dir_lt (h : Dir L m d) : d < 2 ^ 19 := by
  have := (h.page d (Or.inl rfl)).lt
  omega

theorem tab_lt (h : Dir L m d) (hi : i < 1024) (ht : tab m d i = some t) : t < 2 ^ 19 := by
  have := (h.page t (Or.inr ⟨i, hi, ht⟩)).lt
  omega

end Dir

/-- The frames of the user pages are pages of the allocator too, and no page has two uses. -/
structure Bare (L : Link) (m : Pages) (d : ℕ) : Prop where
  exclusive : Exclusive (holds m d)
  page : ∀ p, Own m d p → L.Page p

structure Tree (L : Link) (m : Pages) (d : ℕ) : Prop extends Bare L m d where
  user : ∀ v < UPAGES, present (pte m d v) = true → user (pte m d v) = true

theorem Tree.tab_own (hi : i < 1024) (ht : tab m d i = some t) : Own m d t := ⟨.table i, hi, ht⟩

theorem Tree.frm_own (hv : v < UPAGES) (hf : frm m d v = some p) : Own m d p := ⟨.frame v, hv, hf⟩

namespace Bare

theorem dir (h : Bare L m d) : Dir L m d where
  tab_ne_dir {i t} hi ht := by
    rintro rfl
    have := h.exclusive (a := .table i) (b := .dir) (p := t) ⟨hi, ht⟩ rfl
    simp at this
  tab_inj {i j t} hi hj ht ht' := by
    have := h.exclusive (a := .table i) (b := .table j) (p := t) ⟨hi, ht⟩ ⟨hj, ht'⟩
    simpa using this
  page p hp := h.page p hp.own

theorem frm_inj (h : Bare L m d) {u : ℕ} (hu : u < UPAGES) (hv : v < UPAGES)
    (hf : frm m d u = some p) (hf' : frm m d v = some p) : u = v := by
  have := h.exclusive (a := .frame u) (b := .frame v) (p := p) ⟨hu, hf⟩ ⟨hv, hf'⟩
  simpa using this

theorem frm_ne_tab (h : Bare L m d) (hv : v < UPAGES) (hi : i < 1024) (hf : frm m d v = some p)
    (ht : tab m d i = some t) : p ≠ t := by
  rintro rfl
  have := h.exclusive (a := .frame v) (b := .table i) (p := p) ⟨hv, hf⟩ ⟨hi, ht⟩
  simp at this

theorem frm_ne_dir (h : Bare L m d) (hv : v < UPAGES) (hf : frm m d v = some p) : p ≠ d := by
  rintro rfl
  have := h.exclusive (a := .frame v) (b := .dir) (p := p) ⟨hv, hf⟩ rfl
  simp at this

theorem of_same (h : Bare L m d) (ht : ∀ i < 1024, tab m' d i = tab m d i)
    (hp : ∀ v < UPAGES, pte m' d v = pte m d v) : Bare L m' d := by
  have hh : ∀ u p, holds m' d u p → holds m d u p := by
    intro u p hu
    cases u with
    | dir => exact hu
    | table i => exact ⟨hu.1, (ht i hu.1).symm.trans hu.2⟩
    | frame v =>
      refine ⟨hu.1, ?_⟩
      have := hu.2
      rw [frm, hp v hu.1] at this
      exact this
  exact
    { exclusive := fun r r' p hr hr' => h.exclusive (hh r p hr) (hh r' p hr')
      page := fun p ⟨u, hu⟩ => h.page p ⟨u, hh u p hu⟩ }

theorem frm_not_inner (h : Bare L m d) (hv : v < UPAGES) (hp : frm m d v = some p) :
    ¬Inner m d p := by
  rintro (rfl | ⟨i, hi, ht⟩)
  · exact h.frm_ne_dir hv hp rfl
  · exact h.frm_ne_tab hv hi hp ht rfl

end Bare

theorem Tree.of_same (h : Tree L m d) (ht : ∀ i < 1024, tab m' d i = tab m d i)
    (hp : ∀ v < UPAGES, pte m' d v = pte m d v) : Tree L m' d where
  toBare := h.toBare.of_same ht hp
  user v hv := by
    rw [hp v hv]
    exact h.user v hv

theorem tab_setPte (h : Dir L m d) (ht : tab m d (v / 1024) = some t) (hv : v < 2 ^ 20) :
    tab (m.setWord t (v % 1024) w) d i = tab m d i := by
  refine tab_congr (Pages.setWord_of_ne _ ?_)
  exact (h.tab_ne_dir (by omega) ht).symm

theorem pte_setPte (h : Dir L m d) (ht : tab m d (v / 1024) = some t) (hv : v < 2 ^ 20)
    (hw : w < 2 ^ 32) {u : ℕ} (hu : u < 2 ^ 20) :
    pte (m.setWord t (v % 1024) w) d u = if u = v then w else pte m d u := by
  have htab := tab_setPte (i := u / 1024) (w := w) h ht hv
  split_ifs with huv
  · subst huv
    rw [pte_of_tab (htab.trans ht)]
    exact Pages.word_setWord_self _ hw
  · simp only [pte, htab]
    split
    · next t' ht' =>
      refine Pages.word_setWord_of_ne _ ?_
      by_cases htt : t' = t
      · right
        subst htt
        have hi := h.tab_inj (show u / 1024 < 1024 by omega) (show v / 1024 < 1024 by omega) ht' ht
        omega
      · exact Or.inl htt
    · rfl

theorem tab_setPde (hnew : ¬Inner m d t) {j : ℕ} (hw : w < 2 ^ 32) :
    tab ((m.fill t 0).setWord d i w) d j =
      if j = i then (if present w then some (w / 4096) else none) else tab m d j := by
  have hdt : d ≠ t := fun heq => hnew (Or.inl heq.symm)
  split_ifs with hji hp
  · subst hji
    simp [tab, Pages.word_setWord_self _ hw, hp]
  · subst hji
    simp [tab, Pages.word_setWord_self _ hw, hp]
  · unfold tab
    rw [Pages.word_setWord_of_ne _ (Or.inr hji), Pages.word_congr (Pages.fill_of_ne _ hdt)]

theorem pte_setPde (h : Dir L m d) (hnew : ¬Inner m d t) (hw : w < 2 ^ 32)
    (hwp : present w = true) (hwt : w / 4096 = t) (hnone : tab m d i = none) {u : ℕ}
    (hu : u < 2 ^ 20) : pte ((m.fill t 0).setWord d i w) d u = pte m d u := by
  have hdt : d ≠ t := fun heq => hnew (Or.inl heq.symm)
  have htab := tab_setPde (i := i) (j := u / 1024) hnew hw
  by_cases hui : u / 1024 = i
  · rw [if_pos hui, if_pos hwp, hwt] at htab
    rw [pte_of_tab htab, pte_of_tab_none (hui ▸ hnone),
      Pages.word_setWord_of_ne _ (Or.inl hdt.symm)]
    exact Pages.word_fill_zero _
  · rw [if_neg hui] at htab
    simp only [pte, htab]
    split
    · next t' ht' =>
      have htd := h.tab_ne_dir (show u / 1024 < 1024 by omega) ht'
      have htt : t' ≠ t := fun heq => hnew (Or.inr ⟨u / 1024, by omega, heq ▸ ht'⟩)
      rw [Pages.word_setWord_of_ne _ (Or.inl htd)]
      exact Pages.word_congr (Pages.fill_of_ne _ htt)
    · rfl

theorem own_iff : Own m d p ↔ p = d ∨ (∃ i < 1024, tab m d i = some p) ∨
    ∃ v < UPAGES, frm m d v = some p := by
  constructor
  · rintro ⟨u, hu⟩
    cases u with
    | dir => exact Or.inl hu
    | table i => exact Or.inr (Or.inl ⟨i, hu⟩)
    | frame v => exact Or.inr (Or.inr ⟨v, hu⟩)
  · rintro (h | ⟨i, h⟩ | ⟨v, h⟩)
    · exact ⟨.dir, h⟩
    · exact ⟨.table i, h⟩
    · exact ⟨.frame v, h⟩

theorem UPAGES_lt : UPAGES < 2 ^ 20 := by decide

theorem Bare.clearPte (h : Bare L m d) (ht : tab m d (v / 1024) = some t) (hv : v < UPAGES)
    (hp : frm m d v = some p) :
    Bare L (m.setWord t (v % 1024) 0) d ∧
      ∀ q, Own (m.setWord t (v % 1024) 0) d q ↔ Own m d q ∧ q ≠ p := by
  have hv20 : v < 2 ^ 20 := by have := UPAGES_lt; omega
  have htab := fun i => tab_setPte (i := i) (w := 0) h.dir ht hv20
  have hpte : ∀ u < UPAGES, pte (m.setWord t (v % 1024) 0) d u = if u = v then 0 else pte m d u :=
    fun u hu => pte_setPte h.dir ht hv20 (by decide) (by have := UPAGES_lt; omega)
  have hfrm : ∀ u < UPAGES, frm (m.setWord t (v % 1024) 0) d u =
      if u = v then none else frm m d u := by
    intro u hu
    simp only [frm, hpte u hu]
    split_ifs <;> simp_all
  have hold : ∀ u q, holds (m.setWord t (v % 1024) 0) d u q ↔ holds m d u q ∧ u ≠ .frame v := by
    intro u q
    cases u with
    | dir => simp [holds]
    | table i => simp [holds, htab]
    | frame u =>
      simp only [holds, ne_eq, Part.frame.injEq]
      constructor
      · rintro ⟨hu, hq⟩
        rw [hfrm u hu] at hq
        split_ifs at hq with huv
        exact ⟨⟨hu, hq⟩, huv⟩
      · rintro ⟨⟨hu, hq⟩, huv⟩
        exact ⟨hu, by rw [hfrm u hu, if_neg huv]; exact hq⟩
  refine ⟨⟨fun r r' q hr hr' => ?_, fun q ⟨u, hu⟩ => ?_⟩, fun q => ?_⟩
  · exact h.exclusive ((hold r q).mp hr).1 ((hold r' q).mp hr').1
  · exact h.page q ⟨u, ((hold u q).mp hu).1⟩
  · constructor
    · rintro ⟨u, hu⟩
      obtain ⟨h1, h2⟩ := (hold u q).mp hu
      refine ⟨⟨u, h1⟩, ?_⟩
      rintro rfl
      exact h2 (h.exclusive h1 (b := .frame v) ⟨hv, hp⟩)
    · rintro ⟨⟨u, hu⟩, hqp⟩
      refine ⟨u, (hold u q).mpr ⟨hu, ?_⟩⟩
      rintro rfl
      exact hqp (Option.some.inj (hu.2.symm.trans hp))

namespace Tree

variable (h : Tree L m d)
include h

theorem setPte (ht : tab m d (v / 1024) = some t) (hv : v < UPAGES)
    (habs : present (pte m d v) = false) (hw : w < 2 ^ 32) (hwp : present w = true)
    (hwu : Vm.user w = true) (hpage : L.Page (w / 4096)) (hnew : ¬Own m d (w / 4096)) :
    Tree L (m.setWord t (v % 1024) w) d ∧
      ∀ q, Own (m.setWord t (v % 1024) w) d q ↔ Own m d q ∨ q = w / 4096 := by
  have hv20 : v < 2 ^ 20 := by have := UPAGES_lt; omega
  have htab := fun i => tab_setPte (i := i) (w := w) h.dir ht hv20
  have hpte : ∀ u < UPAGES, pte (m.setWord t (v % 1024) w) d u = if u = v then w else pte m d u :=
    fun u hu => pte_setPte h.dir ht hv20 hw (by have := UPAGES_lt; omega)
  have hfrm : ∀ u < UPAGES, frm (m.setWord t (v % 1024) w) d u =
      if u = v then some (w / 4096) else frm m d u := by
    intro u hu
    simp only [frm, hpte u hu]
    split_ifs <;> simp_all
  have hold : ∀ u q, holds (m.setWord t (v % 1024) w) d u q →
      holds m d u q ∨ u = .frame v ∧ q = w / 4096 := by
    intro u q hu
    cases u with
    | dir => exact Or.inl hu
    | table i => exact Or.inl ⟨hu.1, (htab i).symm.trans hu.2⟩
    | frame u =>
      have h2 := hu.2
      rw [hfrm u hu.1] at h2
      split_ifs at h2 with huv
      · exact Or.inr ⟨by rw [huv], (Option.some.inj h2).symm⟩
      · exact Or.inl ⟨hu.1, h2⟩
  have hown : ∀ q, Own (m.setWord t (v % 1024) w) d q ↔ Own m d q ∨ q = w / 4096 := by
    intro q
    constructor
    · rintro ⟨u, hu⟩
      rcases hold u q hu with h' | ⟨-, h'⟩
      · exact Or.inl ⟨u, h'⟩
      · exact Or.inr h'
    · rintro (⟨u, hu⟩ | rfl)
      · cases u with
        | dir => exact ⟨.dir, hu⟩
        | table i => exact ⟨.table i, hu.1, (htab i).trans hu.2⟩
        | frame u =>
          refine ⟨.frame u, hu.1, ?_⟩
          have huv : u ≠ v := by
            rintro rfl
            have := (frm_eq_some.mp hu.2).1
            simp [habs] at this
          rw [hfrm u hu.1, if_neg huv]
          exact hu.2
      · exact ⟨.frame v, hv, by rw [hfrm v hv, if_pos rfl]⟩
  refine ⟨⟨⟨fun r r' q hr hr' => ?_, fun q hq => ?_⟩, fun u hu => ?_⟩, hown⟩
  · rcases hold r q hr with h1 | ⟨rfl, rfl⟩ <;> rcases hold r' _ hr' with h2 | ⟨rfl, h2⟩
    · exact h.exclusive h1 h2
    · exact absurd ⟨r, h2 ▸ h1⟩ hnew
    · exact absurd ⟨r', h2⟩ hnew
    · rfl
  · rcases (hown q).mp hq with hq | rfl
    · exact h.page q hq
    · exact hpage
  · rw [hpte u hu]
    split_ifs
    · exact fun _ => hwu
    · exact h.user u hu

theorem setKernelPte (ht : tab m d (v / 1024) = some t) (hv : UPAGES ≤ v) (hv20 : v < 2 ^ 20)
    (hw : w < 2 ^ 32) :
    Tree L (m.setWord t (v % 1024) w) d ∧
      ∀ q, Own (m.setWord t (v % 1024) w) d q ↔ Own m d q := by
  have htab := fun i => tab_setPte (i := i) (w := w) h.dir ht hv20
  have hpte : ∀ u < UPAGES, pte (m.setWord t (v % 1024) w) d u = pte m d u := by
    intro u hu
    rw [pte_setPte h.dir ht hv20 hw (by have := UPAGES_lt; omega), if_neg (by omega)]
  refine ⟨h.of_same (fun i _ => htab i) hpte, fun q => ?_⟩
  simp only [own_iff, htab]
  refine or_congr_right (or_congr_right ⟨?_, ?_⟩) <;> rintro ⟨u, hu, hq⟩ <;> refine ⟨u, hu, ?_⟩
  · rwa [frm, hpte u hu] at hq
  · rwa [frm, hpte u hu]

theorem setPde (hnew : ¬Own m d t) (hpage : L.Page t) (hi : i < 1024) (hw : w < 2 ^ 32)
    (hwp : present w = true) (hwt : w / 4096 = t) (hnone : tab m d i = none) :
    Tree L ((m.fill t 0).setWord d i w) d ∧
      ∀ q, Own ((m.fill t 0).setWord d i w) d q ↔ Own m d q ∨ q = t := by
  have hnew' : ¬Inner m d t := fun hin => hnew hin.own
  have htab := fun j => tab_setPde (i := i) (j := j) hnew' hw
  have hpte : ∀ u < UPAGES, pte ((m.fill t 0).setWord d i w) d u = pte m d u :=
    fun u hu => pte_setPde h.dir hnew' hw hwp hwt hnone (by have := UPAGES_lt; omega)
  have hold : ∀ u q, holds ((m.fill t 0).setWord d i w) d u q ↔
      holds m d u q ∨ u = .table i ∧ q = t := by
    intro u q
    cases u with
    | dir => simp [holds]
    | table j =>
      simp only [holds, htab j, hwp, hwt, if_true, Part.table.injEq]
      by_cases hji : j = i
      · subst hji
        simp [hi, hnone, eq_comm]
      · simp [hji]
    | frame u =>
      simp only [holds, reduceCtorEq, false_and, or_false]
      refine and_congr_right fun hu => ?_
      rw [frm, hpte u hu, ← frm]
  have hown : ∀ q, Own ((m.fill t 0).setWord d i w) d q ↔ Own m d q ∨ q = t := by
    intro q
    simp only [Own, hold, exists_or]
    exact or_congr_right ⟨fun ⟨_, _, hq⟩ => hq, fun hq => ⟨.table i, rfl, hq⟩⟩
  refine ⟨⟨⟨fun r r' q hr hr' => ?_, fun q hq => ?_⟩, fun u hu => ?_⟩, hown⟩
  · rcases (hold r q).mp hr with h1 | ⟨rfl, rfl⟩ <;>
      rcases (hold r' _).mp hr' with h2 | ⟨rfl, h2⟩
    · exact h.exclusive h1 h2
    · exact absurd ⟨r, h2 ▸ h1⟩ hnew
    · exact absurd ⟨r', h2⟩ hnew
    · rfl
  · rcases (hown q).mp hq with hq | rfl
    · exact h.page q hq
    · exact hpage
  · rw [hpte u hu]
    exact h.user u hu

end Tree

end Xv6.Vm
