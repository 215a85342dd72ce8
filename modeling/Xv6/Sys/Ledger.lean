import Xv6.Vm.Copy
import Xv6.Vm.Boot

/-!
# Who holds which page

A ledger names the free pages, the page directories by their owner, and the pages that
are held whole: stacks and pipes. In a `Sound` ledger no page has two roles. Three rules
keep it sound: a directory trades pages with the free list, a page moves between the
free list and a whole-page role, and a directory changes its owner.
-/

namespace Xv6.Sys
open Lib Vm

inductive Owner
  | kernel
  | proc (i : ℕ)
  | fresh
  deriving DecidableEq

inductive Whole
  | apstack (i : ℕ)
  | kstack (i : ℕ)
  | pipe
  deriving DecidableEq

inductive Role
  | free
  | whole (x : Whole)
  | space (o : Owner) (u : Part)

structure Ledger where
  free : List ℕ
  dir : Owner → Option ℕ
  page : Whole → ℕ → Prop

def Ledger.holds (l : Ledger) (m : Pages) : Role → ℕ → Prop
  | .free, p => p ∈ l.free
  | .whole x, p => l.page x p
  | .space o u, p => ∃ d, l.dir o = some d ∧ Vm.holds m d u p

structure Sound (L : Link) (s : Kmem) (l : Ledger) : Prop where
  pool : Pool L s l.free
  exclusive : Exclusive (l.holds s.mem)
  page : ∀ r p, l.holds s.mem r p → L.Page p
  user : ∀ o d, l.dir o = some d → ∀ v < UPAGES, present (pte s.mem d v) = true →
    user (pte s.mem d v) = true
  kern : ∀ o d, l.dir o = some d → Kern L s.mem d

variable {L : Link} {s s' : Kmem} {l l' : Ledger} {o o' : Owner} {x : Whole} {d p f : ℕ}
  {free' : List ℕ}

namespace Sound

theorem tree (h : Sound L s l) (hd : l.dir o = some d) : Tree L s.mem d where
  exclusive u u' p hu hu' := by
    have := h.exclusive (a := .space o u) (b := .space o u') ⟨d, hd, hu⟩ ⟨d, hd, hu'⟩
    simpa using this
  page p hp := by
    obtain ⟨u, hu⟩ := hp
    exact h.page (.space o u) p ⟨d, hd, hu⟩
  user := h.user o d hd

theorem apart (h : Sound L s l) (hd : l.dir o = some d) (hp : Own s.mem d p) : p ∉ l.free := by
  intro hin
  obtain ⟨u, hu⟩ := hp
  have := h.exclusive (a := .free) (b := .space o u) hin ⟨d, hd, hu⟩
  simp at this

theorem wf (h : Sound L s l) (hd : l.dir o = some d) : Wf L s l.free d :=
  ⟨h.pool, h.tree hd, fun _ hp ho => h.apart hd ho hp⟩

theorem own_disjoint (h : Sound L s l) (hd : l.dir o = some d) {q : Owner} {d' : ℕ}
    (hd' : l.dir q = some d') (hne : o ≠ q) (hp : Own s.mem d p) : ¬Own s.mem d' p := by
  rintro ⟨u', hu'⟩
  obtain ⟨u, hu⟩ := hp
  have := h.exclusive (a := .space o u) (b := .space q u') ⟨d, hd, hu⟩ ⟨d', hd', hu'⟩
  simp only [Role.space.injEq] at this
  exact hne this.1

theorem whole_inj (h : Sound L s l) {y : Whole} (hx : l.page x p) (hy : l.page y p) : x = y := by
  have := h.exclusive (a := .whole x) (b := .whole y) hx hy
  simpa using this

theorem whole_not_free (h : Sound L s l) (hx : l.page x p) : p ∉ l.free := by
  intro hin
  have := h.exclusive (a := .free) (b := .whole x) hin hx
  simp at this

theorem whole_not_own (h : Sound L s l) (hx : l.page x p) (hd : l.dir o = some d) :
    ¬Own s.mem d p := by
  rintro ⟨u, hu⟩
  have := h.exclusive (a := .whole x) (b := .space o u) hx ⟨d, hd, hu⟩
  simp at this

theorem keep (h : Sound L s l) (hd : l.dir o = some d)
    (hm : ∀ p, Inner s.mem d p → s'.mem p = s.mem p) :
    (∀ u p, Vm.holds s'.mem d u p → Vm.holds s.mem d u p) ∧
      (∀ v < 2 ^ 20, pte s'.mem d v = pte s.mem d v) := by
  obtain ⟨htab, hpte, -, -⟩ := (h.tree hd).keep hm
  refine ⟨fun u p hu => ?_, hpte⟩
  cases u with
  | dir => exact hu
  | table i => exact ⟨hu.1, (htab i).symm.trans hu.2⟩
  | frame v =>
    refine ⟨hu.1, ?_⟩
    rw [← frm_congr (hpte v (hu.1.trans UPAGES_lt))]
    exact hu.2

theorem space (h : Sound L s l) (d' : Option ℕ) (hpool : Pool L s' free')
    (hnew : ∀ d, d' = some d → Wf L s' free' d ∧ Kern L s'.mem d)
    (hback : ∀ p, (p ∈ free' ∨ ∃ d, d' = some d ∧ Own s'.mem d p) →
      p ∈ l.free ∨ ∃ d, l.dir o = some d ∧ Own s.mem d p)
    (hother : ∀ p, p ∉ l.free → (∀ d, l.dir o = some d → ¬Own s.mem d p) → s'.mem p = s.mem p) :
    Sound L s' { l with free := free', dir := Function.update l.dir o d' } := by
  have hinner : ∀ {o' d}, o' ≠ o → l.dir o' = some d →
      ∀ p, Inner s.mem d p → s'.mem p = s.mem p := fun hne hd p hp =>
    hother p (h.apart hd hp.own) fun _ hd₀ => h.own_disjoint hd hd₀ hne hp.own
  have hsame : ∀ r p, ¬(r = .free ∨ ∃ u, r = .space o u) →
      Ledger.holds { l with free := free', dir := Function.update l.dir o d' } s'.mem r p →
      l.holds s.mem r p := by
    intro r p hr hp
    match r, hr, hp with
    | .free, hr, _ => exact absurd (Or.inl rfl) hr
    | .whole x, _, hp => exact hp
    | .space o' u, hr, ⟨d, hd, hu⟩ =>
      have hne : o' ≠ o := fun heq => hr (Or.inr ⟨u, by rw [heq]⟩)
      simp only [Function.update_of_ne hne] at hd
      exact ⟨d, hd, (h.keep hd (hinner hne hd)).1 u p hu⟩
  have hmoved : ∀ r p, (r = .free ∨ ∃ u, r = .space o u) →
      Ledger.holds { l with free := free', dir := Function.update l.dir o d' } s'.mem r p →
      ∃ r₀, (r₀ = .free ∨ ∃ u, r₀ = .space o u) ∧ l.holds s.mem r₀ p := by
    intro r p hr hp
    have hor : p ∈ l.free ∨ ∃ d, l.dir o = some d ∧ Own s.mem d p := by
      refine hback p ?_
      rcases hr with rfl | ⟨u, rfl⟩
      · exact Or.inl hp
      · obtain ⟨d, hd, hu⟩ := hp
        simp only [Function.update_self] at hd
        exact Or.inr ⟨d, hd, u, hu⟩
    rcases hor with hin | ⟨d, hd, u, hu⟩
    · exact ⟨.free, Or.inl rfl, hin⟩
    · exact ⟨.space o u, Or.inr ⟨u, rfl⟩, d, hd, hu⟩
  refine ⟨hpool, ?_, ?_, ?_, ?_⟩
  · refine h.exclusive.transfer (fun r => r = .free ∨ ∃ u, r = .space o u) ?_ hsame hmoved
    rintro r r' p (rfl | ⟨u, rfl⟩) (rfl | ⟨u', rfl⟩) hr hr'
    · rfl
    · obtain ⟨d, hd, hu⟩ := hr'
      simp only [Function.update_self] at hd
      exact absurd ⟨u', hu⟩ ((hnew d hd).1.apart p hr)
    · obtain ⟨d, hd, hu⟩ := hr
      simp only [Function.update_self] at hd
      exact absurd ⟨u, hu⟩ ((hnew d hd).1.apart p hr')
    · obtain ⟨d, hd, hu⟩ := hr
      obtain ⟨d₁, hd₁, hu'⟩ := hr'
      simp only [Function.update_self] at hd hd₁
      obtain rfl : d = d₁ := Option.some.inj (hd.symm.trans hd₁)
      rw [(hnew d hd).1.tree.exclusive hu hu']
  · intro r p hr
    by_cases hA : r = .free ∨ ∃ u, r = .space o u
    · obtain ⟨r₀, -, hr₀⟩ := hmoved r p hA hr
      exact h.page r₀ p hr₀
    · exact h.page r p (hsame r p hA hr)
  · intro o' d hd v hv
    by_cases hne : o' = o
    · rw [hne] at hd
      simp only [Function.update_self] at hd
      exact (hnew d hd).1.tree.user v hv
    · simp only [Function.update_of_ne hne] at hd
      rw [(h.keep hd (hinner hne hd)).2 v (hv.trans UPAGES_lt)]
      exact h.user o' d hd v hv
  · intro o' d hd v hv hv20
    by_cases hne : o' = o
    · rw [hne] at hd
      simp only [Function.update_self] at hd
      exact (hnew d hd).2 v hv hv20
    · simp only [Function.update_of_ne hne] at hd
      rw [(h.keep hd (hinner hne hd)).2 v hv20]
      exact h.kern o' d hd v hv hv20

theorem moved (h : Sound L s l) (hd : l.dir o = some d) (hw : Wf L s' free' d)
    (hk : Kern L s'.mem d) (hm : Within d s l.free s' free') :
    Sound L s' { l with free := free' } := by
  have := h.space (o := o) (some d) hw.pool (fun d' hd' => Option.some.inj hd' ▸ ⟨hw, hk⟩)
    (fun p hp => ?_) fun p hp ho => hm.other p hp (ho d hd)
  · rwa [← hd, Function.update_eq_self] at this
  · simp only [Option.some.injEq, exists_eq_left'] at hp
    exact (hm.back p hp).imp_right fun ho => ⟨d, hd, ho⟩

theorem attach (h : Sound L s l) (hw : Wf L s' free' d)
    (hk : Kern L s'.mem d) (hback : ∀ p, p ∈ free' ∨ Own s'.mem d p → p ∈ l.free)
    (hm : ∀ p, p ∉ l.free → s'.mem p = s.mem p) :
    Sound L s' { l with free := free', dir := Function.update l.dir o (some d) } := by
  refine h.space (some d) hw.pool (fun d' hd' => Option.some.inj hd' ▸ ⟨hw, hk⟩)
    (fun p hp => ?_) fun p hp _ => hm p hp
  simp only [Option.some.injEq, exists_eq_left'] at hp
  exact Or.inl (hback p hp)

theorem detach (h : Sound L s l) (hd : l.dir o = some d) (hpool : Pool L s' free')
    (hback : ∀ p ∈ free', p ∈ l.free ∨ Own s.mem d p)
    (hm : ∀ p, p ∉ l.free → ¬Own s.mem d p → s'.mem p = s.mem p) :
    Sound L s' { l with free := free', dir := Function.update l.dir o none } := by
  refine h.space none hpool (fun _ hd' => by simp at hd') (fun p hp => ?_)
    fun p hp ho => hm p hp (ho d hd)
  simp only [reduceCtorEq, false_and, exists_false, or_false] at hp
  exact (hback p hp).imp_right fun ho => ⟨d, hd, ho⟩

theorem lose (h : Sound L s l) (hpool : Pool L s' free') (hback : ∀ p ∈ free', p ∈ l.free)
    (hm : ∀ p, p ∉ l.free → s'.mem p = s.mem p) (hd : l.dir o = none) :
    Sound L s' { l with free := free' } := by
  have := h.space (o := o) none hpool (fun _ hd' => by simp at hd')
    (fun p hp => Or.inl (hback p ?_)) fun p hp _ => hm p hp
  · rwa [← hd, Function.update_eq_self] at this
  · simpa using hp

theorem pte_eq (h : Sound L s l) (hd : l.dir o = some d) (hfrom : f ∈ l.free ∨ ∃ x, l.page x f)
    (hm : ∀ p, p ≠ f → s'.mem p = s.mem p) :
    (∀ u p, Vm.holds s'.mem d u p → Vm.holds s.mem d u p) ∧
      ∀ v < 2 ^ 20, pte s'.mem d v = pte s.mem d v := by
  refine h.keep hd fun p hp => hm p fun heq => ?_
  rcases hfrom with hin | ⟨x, hx⟩
  · exact h.apart hd (heq ▸ hp.own) hin
  · exact h.whole_not_own hx hd (heq ▸ hp.own)

theorem whole (h : Sound L s l) {page' : Whole → ℕ → Prop} (hpool : Pool L s' free')
    (hfrom : f ∈ l.free ∨ ∃ x, l.page x f) (hm : ∀ p, p ≠ f → s'.mem p = s.mem p)
    (hfree : ∀ p ∈ free', p ∈ l.free ∨ p = f) (hpage : ∀ x p, page' x p → l.page x p ∨ p = f)
    (hone : (f ∈ free' → ∀ x, ¬page' x f) ∧ ∀ x y, page' x f → page' y f → x = y) :
    Sound L s' { l with free := free', page := page' } := by
  have hno : ∀ {o d}, l.dir o = some d → ¬Own s.mem d f := by
    intro o d hd ho
    rcases hfrom with hin | ⟨x, hx⟩
    · exact h.apart hd ho hin
    · exact h.whole_not_own hx hd ho
  have hkeep := fun {o d} (hd : l.dir o = some d) => h.pte_eq hd hfrom hm
  have hsame : ∀ r p, p ≠ f →
      Ledger.holds { l with free := free', page := page' } s'.mem r p → l.holds s.mem r p := by
    intro r p hp hr
    match r, hr with
    | .free, hr => exact (hfree p hr).resolve_right hp
    | .whole x, hr => exact (hpage x p hr).resolve_right hp
    | .space o u, ⟨d, hd, hu⟩ => exact ⟨d, hd, (hkeep hd).1 u p hu⟩
  have hspace : ∀ o u, ¬Ledger.holds { l with free := free', page := page' } s'.mem
      (.space o u) f := fun o u ⟨d, hd, hu⟩ => hno hd ⟨u, (hkeep hd).1 u f hu⟩
  have hpage : ∀ r p, Ledger.holds { l with free := free', page := page' } s'.mem r p →
      L.Page p := by
    intro r p hr
    by_cases hp : p = f
    · rw [hp]
      rcases hfrom with hin | ⟨x, hx⟩
      · exact h.pool.page f hin
      · exact h.page (.whole x) f hx
    · exact h.page r p (hsame r p hp hr)
  refine ⟨hpool, fun r r' p hr hr' => ?_, hpage, fun o d hd v hv => ?_, fun o d hd v hv hv20 => ?_⟩
  · by_cases hp : p = f
    · subst hp
      match r, r', hr, hr' with
      | .free, .free, _, _ => rfl
      | .free, .whole x, hr, hr' => exact absurd hr' (hone.1 hr x)
      | .whole x, .free, hr, hr' => exact absurd hr (hone.1 hr' x)
      | .whole x, .whole y, hr, hr' => rw [hone.2 x y hr hr']
      | .space o u, _, hr, _ => exact absurd hr (hspace o u)
      | _, .space o u, _, hr' => exact absurd hr' (hspace o u)
    · exact h.exclusive (hsame r p hp hr) (hsame r' p hp hr')
  · rw [(hkeep hd).2 v (hv.trans UPAGES_lt)]
    exact h.user o d hd v hv
  · rw [(hkeep hd).2 v hv20]
    exact h.kern o d hd v hv hv20

theorem rename (h : Sound L s l) (hne : o' ≠ o) (hd : l.dir o = some d)
    {dir' : Owner → Option ℕ} (hdir : ∀ q, dir' q = if q = o' then some d else
      if q = o then none else l.dir q) : Sound L s { l with dir := dir' } := by
  -- each directory of the new ledger had one owner in the old one
  have hold : ∀ q e, dir' q = some e → l.dir (if q = o' then o else q) = some e := by
    intro q e he
    rw [hdir] at he
    split_ifs at he ⊢ with h₁ h₂
    · exact hd.trans he
    · exact he
  have hback : ∀ r p, Ledger.holds { l with dir := dir' } s.mem r p →
      l.holds s.mem (match r with | .space q u => .space (if q = o' then o else q) u | r => r) p := by
    intro r p hr
    match r, hr with
    | .free, hr => exact hr
    | .whole x, hr => exact hr
    | .space q u, ⟨e, he, hu⟩ => exact ⟨e, hold q e he, hu⟩
  have hno : ∀ u p, ¬Ledger.holds { l with dir := dir' } s.mem (.space o u) p := by
    rintro u p ⟨e, he, -⟩
    have he : dir' o = some e := he
    rw [hdir, if_neg hne.symm, if_pos rfl] at he
    simp at he
  refine ⟨h.pool, fun r r' p hr hr' => ?_, fun r p hr => h.page _ p (hback r p hr),
    fun q e he => h.user _ e (hold q e he), fun q e he => h.kern _ e (hold q e he)⟩
  have heq := h.exclusive (hback r p hr) (hback r' p hr')
  match r, r', hr, hr', heq with
  | .free, .free, _, _, _ => rfl
  | .whole x, .whole y, _, _, heq => exact heq
  | .space q u, .space q' u', hr, hr', heq =>
    simp only [Role.space.injEq] at heq ⊢
    refine ⟨?_, heq.2⟩
    have hq : q ≠ o := fun hqo => hno u p (hqo ▸ hr)
    have hq' : q' ≠ o := fun hqo => hno u' p (hqo ▸ hr')
    have := heq.1
    split_ifs at this <;> simp_all

end Sound

end Xv6.Sys
