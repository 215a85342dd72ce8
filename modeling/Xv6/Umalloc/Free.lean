import Xv6.Umalloc.Blocks

/-!
# `free`

The search ends at the last node below the block, wherever it starts. There the block is put
into the list, as one block with its neighbours where they meet.
-/

namespace Xv6.Umalloc
open Lib

section Search

variable {base : ℕ} {s : Heap} {l m : List ℕ} {bp p q r : ℕ}

theorem search_stop (fuel : ℕ)
    (h : p < bp ∧ bp < s.ptr p ∨ s.ptr p ≤ p ∧ (p < bp ∨ bp < s.ptr p)) :
    search bp (fuel + 1) p s = .ret (p, s) := by
  change (if p < bp ∧ bp < s.ptr p then pure p
    else if s.ptr p ≤ p ∧ (p < bp ∨ bp < s.ptr p) then pure p
    else search bp fuel (s.ptr p) : M ℕ) s = _
  split_ifs with h1 h2
  · rfl
  · rfl
  · exact absurd h (not_or.2 ⟨h1, h2⟩)

theorem search_next (fuel : ℕ) (h1 : ¬(p < bp ∧ bp < s.ptr p))
    (h2 : ¬(s.ptr p ≤ p ∧ (p < bp ∨ bp < s.ptr p))) :
    search bp (fuel + 1) p s = search bp fuel (s.ptr p) s := by
  change (if p < bp ∧ bp < s.ptr p then pure p
    else if s.ptr p ≤ p ∧ (p < bp ∨ bp < s.ptr p) then pure p
    else search bp fuel (s.ptr p) : M ℕ) s = _
  rw [if_neg h1, if_neg h2]

theorem search_up (hs : Seg s.ptr p (m ++ [q]) r) (hsorted : (m ++ [q]).Pairwise (· < ·))
    (hlt : ∀ b ∈ m ++ [q], b < bp) (hr : bp < r ∨ r ≤ q) (fuel : ℕ) (hf : m.length < fuel) :
    search bp fuel p s = .ret (q, s) := by
  induction m generalizing p fuel with
  | nil =>
    obtain ⟨fuel, rfl⟩ := Nat.exists_eq_succ_of_ne_zero (Nat.ne_of_gt hf)
    obtain ⟨rfl, hq⟩ := hs
    obtain rfl : s.ptr p = r := hq
    have := hlt p (by simp)
    exact search_stop fuel (by omega)
  | cons y m ih =>
    obtain ⟨fuel, rfl⟩ := Nat.exists_eq_succ_of_ne_zero (Nat.ne_of_gt (Nat.zero_lt_of_lt hf))
    obtain ⟨rfl, hs⟩ := hs
    obtain ⟨hp, hsorted⟩ := List.pairwise_cons.1 hsorted
    have hnext : s.ptr p ∈ m ++ [q] := by
      cases m with
      | nil => exact hs.1 ▸ List.mem_cons_self
      | cons z m => exact hs.1 ▸ List.mem_cons_self
    have h1 := hp _ hnext
    have h2 := hlt _ (List.mem_cons_of_mem _ hnext)
    rw [search_next fuel (by omega) (by omega)]
    exact ih hs hsorted (fun b hb => hlt b (List.mem_cons_of_mem _ hb)) fuel
      (Nat.lt_of_succ_lt_succ hf)

theorem search_wrap (hs : Seg s.ptr p m base) (hsorted : m.Pairwise (· < ·))
    (hgt : ∀ b ∈ m, bp < b) (hbase : base < bp) (fuel : ℕ) :
    search bp (fuel + m.length) p s = search bp fuel base s := by
  induction m generalizing p with
  | nil =>
    obtain rfl : p = base := hs
    rfl
  | cons y m ih =>
    obtain ⟨rfl, hs⟩ := hs
    obtain ⟨hp, hsorted⟩ := List.pairwise_cons.1 hsorted
    have hpgt := hgt p List.mem_cons_self
    have hnext : s.ptr p = base ∨ p < s.ptr p := by
      cases m with
      | nil => exact .inl hs
      | cons z m => exact .inr (hs.1 ▸ hp z List.mem_cons_self)
    rw [List.length_cons, ← Nat.add_assoc, search_next _ (by omega) (by omega)]
    exact ih hs hsorted fun b hb => hgt b (List.mem_cons_of_mem _ hb)

theorem search_spec {k : List ℕ} (hs : Seg s.ptr base (m ++ q :: k) base)
    (hbase : ∀ b ∈ m ++ [q], base ≤ b) (hsorted : (m ++ q :: k).Pairwise (· < ·))
    (hlt : ∀ b ∈ m ++ [q], b < bp) (hgt : ∀ b ∈ k, bp < b) (hp : p ∈ m ++ q :: k) (fuel : ℕ)
    (hf : 2 * (m ++ q :: k).length < fuel) : search bp fuel p s = .ret (q, s) := by
  obtain ⟨hm, hk⟩ := Seg.append_cons.1 hs
  have hlow : ∀ (m₁ m₂ : List ℕ), m = m₁ ++ m₂ → ∀ p, Seg s.ptr p m₂ q →
      ∀ fuel, m.length < fuel → search bp fuel p s = .ret (q, s) := by
    intro m₁ m₂ he p hseg fuel hf
    have hsub : (m₂ ++ [q]).Sublist (m ++ q :: k) := by
      rw [he, List.append_assoc, ← List.singleton_append (l := k), ← List.append_assoc m₂]
      exact (List.sublist_append_left _ _).trans (List.sublist_append_right _ _)
    have hr : bp < s.ptr q ∨ s.ptr q ≤ q := by
      cases k with
      | nil => exact .inr (hk ▸ hbase q (by simp))
      | cons z k => exact .inl (hk.1 ▸ hgt z List.mem_cons_self)
    refine search_up (Seg.append_cons.2 ⟨hseg, rfl⟩) (hsorted.sublist hsub) (fun b hb => ?_) hr fuel
      (by rw [he, List.length_append] at hf; omega)
    refine hlt b ?_
    rw [he, List.append_assoc]
    exact List.mem_append_right _ hb
  rw [List.length_append, List.length_cons] at hf
  rcases List.mem_append.1 hp with hp | hp
  · obtain ⟨m₁, m₂, he⟩ := List.append_of_mem hp
    rw [he] at hm
    exact hlow m₁ (p :: m₂) he p ⟨rfl, (Seg.append_cons.1 hm).2⟩ fuel (by omega)
  · rcases List.mem_cons.1 hp with rfl | hp
    · exact hlow m [] (List.append_nil m).symm p rfl fuel (by omega)
    · obtain ⟨k₁, k₂, he⟩ := List.append_of_mem hp
      rw [he] at hk
      obtain ⟨fuel, rfl⟩ : ∃ f, fuel = f + (p :: k₂).length :=
        ⟨fuel - (p :: k₂).length, by
          have := congrArg List.length he
          simp only [List.length_append, List.length_cons] at this ⊢
          omega⟩
      have hsub : (p :: k₂).Sublist (m ++ q :: k) := by
        rw [he]
        exact (List.sublist_append_right k₁ _).trans
          ((List.sublist_cons_self _ _).trans (List.sublist_append_right _ _))
      rw [search_wrap (m := p :: k₂) ⟨rfl, (Seg.append_cons.1 hk).2⟩ (hsorted.sublist hsub)
        (fun b hb => hgt b (he ▸ List.mem_append_right _ hb))
        ((hbase q (by simp)).trans_lt (hlt q (by simp)))]
      refine hlow [] m rfl base hm fuel ?_
      have := congrArg List.length he
      simp only [List.length_append, List.length_cons] at this hf
      omega

end Search

structure Mid (base : ℕ) (s : Heap) (m : List ℕ) (q a : ℕ) (k live : List ℕ) : Prop where
  head : ∃ l, m ++ [q] = base :: l
  low : Seg s.ptr base m q
  high : Seg s.ptr (s.ptr a) k base
  base_size : s.size base = 0
  apart : (m ++ q :: k).Pairwise fun b c => b + headerSize * s.size b < c
  below : ∀ b ∈ m, b + headerSize * s.size b < a
  last : q + headerSize * s.size q ≤ a
  above : ∀ b ∈ k, a + headerSize * s.size a < b
  user : a + headerSize * s.size a ≤ KERNBASE
  fresh : a ∉ m ++ q :: k ++ live
  nodes : ∀ b ∈ m ++ q :: a :: k, b ≠ base → 0 < s.size b
  lives : ∀ b ∈ live, 0 < s.size b
  parts : ∀ x, cover s.size (m ++ q :: a :: k) x + cover s.size live x = regions s.got x
  got_apart : s.got.Pairwise fun r r' => r'.1 + r'.2 ≤ r.1
  got_bounds : ∀ r ∈ s.got, base + headerSize ≤ r.1 ∧ r.1 + r.2 ≤ KERNBASE

section Join

variable {base : ℕ} {s : Heap} {m l k live : List ℕ} {q a : ℕ}

theorem Inv.split (h : Inv base s l (a :: live)) :
    ∃ m q k, base :: l = m ++ q :: k ∧ (∀ b ∈ m ++ [q], b + headerSize * s.size b ≤ a) ∧
      ∀ b ∈ k, a + headerSize * s.size a ≤ b := by
  have hbase : base < a := by
    have := (h.bounds (a := a) (by simp)).1
    rw [headerSize] at this
    omega
  have happ := List.takeWhile_append_dropWhile (p := (· < a)) (l := base :: l)
  obtain ⟨m, q, hmq⟩ : ∃ m q, (base :: l).takeWhile (· < a) = m ++ [q] := by
    rcases List.eq_nil_or_concat ((base :: l).takeWhile (· < a)) with hnil | ⟨m, q, hmq⟩
    · rw [List.takeWhile_cons, if_pos (decide_eq_true hbase)] at hnil
      cases hnil
    · exact ⟨m, q, hmq.trans List.concat_eq_append⟩
  refine ⟨m, q, (base :: l).dropWhile (· < a), ?_, fun b hb => ?_, fun b hb => ?_⟩
  · rw [← List.singleton_append (l := (base :: l).dropWhile (· < a)), ← List.append_assoc,
      ← hmq, happ]
  · rw [← hmq] at hb
    have hlt : b < a := by simpa using List.mem_takeWhile_imp hb
    rcases List.mem_cons.1 ((List.takeWhile_prefix _).subset hb) with rfl | hbl
    · rw [h.base_size]
      omega
    · have := h.disjoint (List.mem_append_left live hbl)
      omega
  · have hge : a ≤ b := by
      have hsorted := h.apart.sublist (List.dropWhile_suffix (· < a)).sublist
      have hhead := List.head?_dropWhile_not (· < a) (base :: l)
      cases hk : (base :: l).dropWhile (· < a) with
      | nil =>
        rw [hk] at hb
        exact absurd hb List.not_mem_nil
      | cons c k =>
        rw [hk] at hb hsorted hhead
        have hc : a ≤ c := by simpa using hhead
        rcases List.mem_cons.1 hb with rfl | hb
        · exact hc
        · have := (List.pairwise_cons.1 hsorted).1 b hb
          omega
    rcases List.mem_cons.1 ((List.dropWhile_suffix _).subset hb) with rfl | hbl
    · omega
    · have := h.blocks b (List.mem_append_left _ hbl)
      have := h.disjoint (List.mem_append_left live hbl)
      rw [headerSize] at *
      omega

theorem sorted_of_apart {size : ℕ → ℕ}
    (h : l.Pairwise fun b c => b + headerSize * size b < c) : l.Pairwise (· < ·) :=
  h.imp fun hbc => (Nat.le_add_right _ _).trans_lt hbc

theorem update_size (size : ℕ → ℕ) (n : ℕ) {u : List ℕ} (ha : a ∉ u) :
    ∀ b ∈ u, Function.update size a n b = size b := fun b hb =>
  Function.update_of_ne (fun e : b = a => ha (e ▸ hb)) _ _

theorem Inv.mid (h : Inv base s l (a :: live)) (hL : base :: l = m ++ q :: k)
    (hlow : ∀ b ∈ m ++ [q], b + headerSize * s.size b ≤ a) {s' : Heap} {r n : ℕ} {k' : List ℕ}
    (hptr : s'.ptr = Function.update s.ptr a r) (hsize : s'.size = Function.update s.size a n)
    (hgot : s'.got = s.got) (hk : k'.Sublist k) (hseg : Seg s.ptr r k' base)
    (habove : ∀ b ∈ k', a + headerSize * n < b) (huser : a + headerSize * n ≤ KERNBASE)
    (hn : 0 < n)
    (hcover : ∀ x, covers a n x + cover s.size k' x = covers a (s.size a) x + cover s.size k x) :
    Mid base s' m q a k' live := by
  have hna := h.not_mem
  rw [hL] at hna
  have hsub : (m ++ q :: k' ++ live).Sublist (m ++ q :: k ++ live) :=
    ((hk.cons_cons q).append_left m).append_right live
  have hna' : a ∉ m ++ q :: k' ++ live := fun ha => hna (hsub.subset ha)
  have hsz : ∀ b ∈ m ++ q :: k' ++ live, s'.size b = s.size b := by
    rw [hsize]
    exact update_size _ _ hna'
  have hlink : ∀ b ∈ m ++ q :: k' ++ live, s'.ptr b = s.ptr b := by
    rw [hptr]
    exact update_size _ _ hna'
  have hself : s'.size a = n := by
    rw [hsize, Function.update_self]
  have hring := h.ring
  rw [hL] at hring
  have hapart := h.apart
  rw [hL] at hapart
  have hmem : ∀ b, b ∈ m ++ q :: k' ++ live ↔ b ∈ m ∨ b = q ∨ b ∈ k' ∨ b ∈ live := by simp
  have hbase : base ∈ m ++ [q] := by
    cases m with
    | nil => exact (List.cons.inj hL).1 ▸ List.mem_cons_self
    | cons c m => exact (List.cons.inj hL).1 ▸ List.mem_cons_self
  refine
    { head := ?_
      low := ?_
      high := ?_
      base_size := ?_
      apart := ?_
      below := fun b hb => ?_
      last := ?_
      above := fun b hb => ?_
      user := ?_
      fresh := hna'
      nodes := fun b hb hne => ?_
      lives := fun b hb => ?_
      parts := fun x => ?_
      got_apart := hgot ▸ h.got_apart
      got_bounds := hgot ▸ h.got_bounds }
  · cases m with
    | nil => exact ⟨[], by rw [(List.cons.inj hL).1]; rfl⟩
    | cons c m => exact ⟨m ++ [q], by rw [(List.cons.inj hL).1]; rfl⟩
  · exact (Seg.append_cons.1 hring).1.congr fun b hb => hlink b ((hmem b).2 (.inl hb))
  · rw [hptr, Function.update_self, ← hptr]
    exact hseg.congr fun b hb => hlink b ((hmem b).2 (.inr (.inr (.inl hb))))
  · rw [hsz base (by simp only [hmem, List.mem_append, List.mem_singleton] at hbase ⊢; tauto)]
    exact h.base_size
  · refine (hapart.sublist ((hk.cons_cons q).append_left m)).imp_of_mem fun hb _ hbc => ?_
    rwa [hsz _ (List.mem_append_left _ hb)]
  · have h1 := (List.pairwise_append.1 hapart).2.2 b hb q List.mem_cons_self
    have h2 := hlow q (by simp)
    rw [hsz b ((hmem b).2 (.inl hb))]
    omega
  · rw [hsz q ((hmem q).2 (.inr (.inl rfl)))]
    exact hlow q (by simp)
  · rw [hself]
    exact habove b hb
  · rw [hself]
    exact huser
  · have hb' : b = a ∨ b ∈ m ++ q :: k' := by
      simp only [List.mem_append, List.mem_cons] at hb ⊢
      tauto
    rcases hb' with rfl | hb'
    · exact hself ▸ hn
    · rw [hsz b (List.mem_append_left _ hb')]
      have hold : b ∈ base :: l := hL ▸ ((hk.cons_cons q).append_left m).subset hb'
      rcases List.mem_cons.1 hold with rfl | hold
      · exact absurd rfl hne
      · exact h.blocks b (List.mem_append_left _ hold)
  · rw [hsz b (List.mem_append_right _ hb)]
    exact h.blocks b (by simp [hb])
  · have hcong : ∀ u : List ℕ, (∀ b ∈ u, b ∈ m ++ q :: k' ++ live) →
        cover s'.size u x = cover s.size u x := fun u hu =>
      cover_congr fun b hb => hsz b (hu b hb)
    have hp := h.parts x
    have hzero : covers base (s.size base) x = 0 := by
      rw [h.base_size, covers, if_neg (by omega)]
    have hLx := congrArg (fun u => cover s.size u x) hL
    have hc := hcover x
    simp only [cover_cons, cover_append] at hLx hp ⊢
    rw [hgot, hself, hcong m fun b hb => (hmem b).2 (.inl hb),
      hcong k' fun b hb => (hmem b).2 (.inr (.inr (.inl hb))),
      hcong live fun b hb => (hmem b).2 (.inr (.inr (.inr hb))),
      hsz q ((hmem q).2 (.inr (.inl rfl)))]
    omega

theorem Inv.joinUp (h : Inv base s l (a :: live)) (hL : base :: l = m ++ q :: k)
    (hlow : ∀ b ∈ m ++ [q], b + headerSize * s.size b ≤ a)
    (hhigh : ∀ b ∈ k, a + headerSize * s.size a ≤ b) :
    ∃ k', Mid base (joinUp s q a) m q a k' live ∧ s.size a ≤ (joinUp s q a).size a := by
  have hring := h.ring
  rw [hL] at hring
  have hseg := (Seg.append_cons.1 hring).2
  have hapart := h.apart
  rw [hL] at hapart
  have hbounds := h.bounds (a := a) (by simp)
  have hpos := h.blocks a (by simp)
  by_cases hz : a + headerSize * s.size a = s.ptr q
  · cases k with
    | nil =>
      have hb : s.ptr q = base := hseg
      rw [headerSize] at hbounds
      omega
    | cons z k =>
      obtain ⟨hzq, hseg⟩ := hseg
      have hzl : z ∈ l := by
        have hmem : z ∈ base :: l := hL ▸ List.mem_append_right _ (by simp)
        rcases List.mem_cons.1 hmem with rfl | hmem
        · rw [headerSize] at hbounds
          omega
        · exact hmem
      have hzb := h.bounds (List.mem_append_left _ hzl)
      have hsum : a + headerSize * (s.size a + s.size z) = z + headerSize * s.size z := by
        rw [Nat.mul_add]
        omega
      have hmod : (s.size a + s.size z) % UINT = s.size a + s.size z := by
        refine Nat.mod_eq_of_lt ?_
        rw [headerSize, KERNBASE] at *
        rw [UINT]
        omega
      have hs' : Umalloc.joinUp s q a =
          (s.setSize a (s.size a + s.size z)).setPtr a (s.ptr z) := by
        simp only [Umalloc.joinUp, advance_eq hbounds.2, if_pos hz]
        rw [hzq, hmod]
      rw [hs']
      refine ⟨k, h.mid hL hlow (r := s.ptr z) (n := s.size a + s.size z) (by simp) (by simp) rfl
        (List.sublist_cons_self _ _) hseg (fun b hb => ?_) (hsum ▸ hzb.2) (by omega)
        fun x => ?_, by simp⟩
      · rw [hsum]
        exact (List.pairwise_cons.1 (List.pairwise_cons.1
          (List.pairwise_append.1 hapart).2.1).2).1 b hb
      · rw [cover_cons, ← Nat.add_assoc, covers_join (hz.trans hzq)]
  · have hs' : Umalloc.joinUp s q a = s.setPtr a (s.ptr q) := by
      simp only [Umalloc.joinUp, advance_eq hbounds.2, if_neg hz]
    rw [hs']
    refine ⟨k, h.mid hL hlow (r := s.ptr q) (n := s.size a) (by simp) (by simp) rfl
      (List.Sublist.refl _) hseg (fun b hb => ?_) hbounds.2 hpos fun _ => rfl, by simp⟩
    cases k with
    | nil => exact absurd hb List.not_mem_nil
    | cons z k =>
      have hzlt : a + headerSize * s.size a < z :=
        (hhigh z List.mem_cons_self).lt_of_ne fun e => hz (e.trans hseg.1.symm)
      rcases List.mem_cons.1 hb with rfl | hb
      · exact hzlt
      · have := (List.pairwise_cons.1 (List.pairwise_cons.1
          (List.pairwise_append.1 hapart).2.1).2).1 b hb
        omega

namespace Mid

theorem not_mem_nodes (h : Mid base s m q a k live) : q ∉ m ∧ q ∉ k := by
  obtain ⟨-, hk, hm⟩ := List.pairwise_append.1 h.apart
  refine ⟨fun hq => ?_, fun hq => ?_⟩
  · have := hm q hq q List.mem_cons_self
    omega
  · have := (List.pairwise_cons.1 hk).1 q hq
    omega

theorem not_mem_live (h : Mid base s m q a k live) : q ∉ live := by
  intro hq
  have hpos := h.lives q hq
  have h1 := h.parts q
  have h2 := covers_le_cover s.size q hq
  have h3 := regions_le_one (x := q) h.got_apart
  simp only [cover_append, cover_cons, covers_start hpos] at h1 h2
  omega

theorem cons (h : Mid base s m q a k live) (k' : List ℕ) : ∃ l, m ++ q :: k' = base :: l := by
  obtain ⟨l, hl⟩ := h.head
  refine ⟨l ++ k', ?_⟩
  rw [← List.singleton_append, ← List.append_assoc, hl]
  rfl

theorem inv (h : Mid base s m q a k live) (s' : Heap) (k' : List ℕ)
    (hk : k' ⊆ a :: k) (hring : Seg s'.ptr base (m ++ q :: k') base)
    (hbase : s'.size base = 0)
    (hapart : (m ++ q :: k').Pairwise fun b c => b + headerSize * s'.size b < c)
    (hsize : ∀ b ∈ m ++ q :: k' ++ live, s.size b ≤ s'.size b)
    (hparts : ∀ x, cover s'.size (m ++ q :: k') x + cover s'.size live x = regions s.got x)
    (hfreep : s'.freep = q) (hgot : s'.got = s.got) :
    ∃ l, m ++ q :: k' = base :: l ∧ Inv base s' l live := by
  obtain ⟨l, hl⟩ := h.cons k'
  rw [hl] at hring hapart hparts hsize
  refine ⟨l, hl, ?_⟩
  refine
    { ring := hring
      freep := hl ▸ by simp [hfreep]
      base_size := hbase
      apart := hapart
      blocks := fun b hb => ?_
      parts := fun x => ?_
      got_apart := hgot ▸ h.got_apart
      got_bounds := hgot ▸ h.got_bounds }
  · have hold : 0 < s.size b := by
      rcases List.mem_append.1 hb with hb | hb
      · have hlt := (List.pairwise_cons.1 hapart).1 b hb
        refine h.nodes b ?_ (by omega)
        have hmem : b ∈ m ++ q :: k' := hl ▸ List.mem_cons_of_mem _ hb
        rcases List.mem_append.1 hmem with hb | hb
        · exact List.mem_append_left _ hb
        · exact List.mem_append_right _ (List.cons_subset_cons q hk hb)
      · exact h.lives b hb
    exact hold.trans_le (hsize b (List.mem_cons_of_mem _ hb))
  · have := hparts x
    rw [cover_cons, hbase, covers, if_neg (by omega), Nat.zero_add] at this
    rw [this, hgot]

theorem ne_base (h : Mid base s m q a k live) : a ≠ base := by
  rintro rfl
  obtain ⟨l, hl⟩ := h.cons k
  exact h.fresh (List.mem_append_left _ (hl ▸ List.mem_cons_self))

theorem link (h : Mid base s m q a k live) (hne : q + headerSize * s.size q ≠ a) :
    ∃ l, a ∈ l ∧ Inv base { s.setPtr q a with freep := q } l live := by
  obtain ⟨hm, hk⟩ := h.not_mem_nodes
  have hptr : ({ s.setPtr q a with freep := q } : Heap).ptr = Function.update s.ptr q a :=
    ptr_setPtr s q a
  have hsize : ({ s.setPtr q a with freep := q } : Heap).size = s.size := size_setPtr s q a
  have hring : Seg (Function.update s.ptr q a) base (m ++ q :: a :: k) base := by
    have haq : a ≠ q := fun e => h.fresh (by simp [e])
    refine Seg.append_cons.2 ⟨h.low.congr (update_size _ _ hm), ?_⟩
    rw [Function.update_self]
    refine ⟨rfl, ?_⟩
    rw [Function.update_of_ne haq]
    exact h.high.congr (update_size _ _ hk)
  have hapart : (m ++ q :: a :: k).Pairwise fun b c => b + headerSize * s.size b < c := by
    obtain ⟨hmm, hqk, hcross⟩ := List.pairwise_append.1 h.apart
    obtain ⟨hq, hkk⟩ := List.pairwise_cons.1 hqk
    refine List.pairwise_append.2 ⟨hmm, List.pairwise_cons.2 ⟨fun c hc => ?_,
      List.pairwise_cons.2 ⟨h.above, hkk⟩⟩, fun b hb c hc => ?_⟩
    · rcases List.mem_cons.1 hc with rfl | hc
      · exact h.last.lt_of_ne hne
      · exact hq c hc
    · rcases List.mem_cons.1 hc with rfl | hc
      · exact hcross b hb c List.mem_cons_self
      · rcases List.mem_cons.1 hc with rfl | hc
        · exact h.below b hb
        · exact hcross b hb c (List.mem_cons_of_mem _ hc)
  obtain ⟨l, hl, hinv⟩ := h.inv { s.setPtr q a with freep := q } (a :: k)
    (List.Subset.refl _) (hptr ▸ hring) (hsize ▸ h.base_size) (hsize ▸ hapart)
    (fun b _ => by rw [hsize]) (fun x => by rw [hsize]; exact h.parts x) rfl rfl
  refine ⟨l, ?_, hinv⟩
  have hmem : a ∈ base :: l := hl ▸ by simp
  exact (List.mem_cons.1 hmem).resolve_left h.ne_base

theorem absorb (h : Mid base s m q a k live) (he : q + headerSize * s.size q = a) :
    ∃ l, q ∈ l ∧ Inv base
      { (s.setSize q (s.size q + s.size a)).setPtr q (s.ptr a) with freep := q } l live := by
  obtain ⟨hm, hk⟩ := h.not_mem_nodes
  generalize hs' : ({ (s.setSize q (s.size q + s.size a)).setPtr q (s.ptr a) with
    freep := q } : Heap) = s'
  have hptr : s'.ptr = Function.update s.ptr q (s.ptr a) := by
    rw [← hs']
    exact (ptr_setPtr _ q _).trans (by rw [ptr_setSize])
  have hsize : s'.size = Function.update s.size q (s.size q + s.size a) := by
    rw [← hs']
    exact (size_setPtr _ q _).trans (size_setSize ..)
  have hqb : q ≠ base := by
    rintro rfl
    rw [h.base_size] at he
    exact h.ne_base (by omega)
  have hself : s'.size q = s.size q + s.size a := by
    rw [hsize, Function.update_self]
  have hsz : ∀ u : List ℕ, q ∉ u → ∀ b ∈ u, s'.size b = s.size b := fun u hu => by
    rw [hsize]
    exact update_size _ _ hu
  have hring : Seg s'.ptr base (m ++ q :: k) base := by
    rw [hptr]
    refine Seg.append_cons.2 ⟨h.low.congr (update_size _ _ hm), ?_⟩
    rw [Function.update_self]
    exact h.high.congr (update_size _ _ hk)
  have hapart : (m ++ q :: k).Pairwise fun b c => b + headerSize * s'.size b < c := by
    obtain ⟨hmm, hqk, hcross⟩ := List.pairwise_append.1 h.apart
    obtain ⟨-, hkk⟩ := List.pairwise_cons.1 hqk
    refine List.pairwise_append.2 ⟨hmm.imp_of_mem fun hb _ hbc => ?_,
      List.pairwise_cons.2 ⟨fun c hc => ?_, hkk.imp_of_mem fun hb _ hbc => ?_⟩,
      fun b hb c hc => ?_⟩
    · rwa [hsz m hm _ hb]
    · have := h.above c hc
      rw [hself, Nat.mul_add]
      omega
    · rwa [hsz k hk _ hb]
    · rw [hsz m hm b hb]
      exact hcross b hb c hc
  have hparts : ∀ x, cover s'.size (m ++ q :: k) x + cover s'.size live x = regions s.got x := by
    intro x
    have hp := h.parts x
    have hj := covers_join (m := s.size a) he x
    simp only [cover_append, cover_cons] at hp ⊢
    rw [cover_congr (hsz m hm), cover_congr (hsz k hk), cover_congr (hsz live h.not_mem_live),
      hself]
    omega
  obtain ⟨l, hl, hinv⟩ := h.inv _ _ (List.subset_cons_self a k) hring
    (by rw [hsize, Function.update_of_ne hqb.symm, h.base_size]) hapart (fun b _ => by
      rw [hsize, Function.update_apply]
      split_ifs with hb
      · rw [hb]
        omega
      · exact le_rfl) hparts (by rw [← hs']) (by rw [← hs']; rfl)
  refine ⟨l, ?_, hinv⟩
  have hmem : q ∈ base :: l := hl ▸ by simp
  exact (List.mem_cons.1 hmem).resolve_left hqb

theorem joinDown (h : Mid base s m q a k live) :
    ∃ l, Inv base { joinDown s q a with freep := q } l live ∧
      ∃ b ∈ l, s.size a ≤ (joinDown s q a).size b := by
  have hadv : advance q (s.size q) = q + headerSize * s.size q :=
    advance_eq (h.last.trans ((Nat.le_add_right _ _).trans h.user))
  by_cases he : q + headerSize * s.size q = a
  · have hmod : (s.size q + s.size a) % UINT = s.size q + s.size a := by
      refine Nat.mod_eq_of_lt ?_
      have := h.user
      rw [headerSize, KERNBASE] at *
      rw [UINT]
      omega
    have hs' : Umalloc.joinDown s q a =
        (s.setSize q (s.size q + s.size a)).setPtr q (s.ptr a) := by
      simp only [Umalloc.joinDown, hadv, if_pos he, hmod]
    obtain ⟨l, hq, hinv⟩ := h.absorb he
    rw [hs']
    exact ⟨l, hinv, q, hq, by simp⟩
  · have hs' : Umalloc.joinDown s q a = s.setPtr q a := by
      simp only [Umalloc.joinDown, hadv, if_neg he]
    obtain ⟨l, ha, hinv⟩ := h.link he
    rw [hs']
    exact ⟨l, hinv, a, ha, by simp⟩

end Mid

end Join

section Free

variable {base : ℕ} {s : Heap} {l live : List ℕ} {p a b : ℕ}

theorem size_joinUp (hb : b ≠ a) : (joinUp s p a).size b = s.size b := by
  simp only [joinUp]
  split_ifs <;> simp [hb]

theorem size_joinDown (hb : b ≠ p) : (joinDown s p a).size b = s.size b := by
  simp only [joinDown]
  split_ifs <;> simp [hb]

theorem joinUp_got : (joinUp s p a).got = s.got := by
  simp only [joinUp]
  split_ifs <;> rfl

theorem joinDown_got : (joinDown s p a).got = s.got := by
  simp only [joinDown]
  split_ifs <;> rfl

theorem free_spec (h : Inv base s l (a :: live)) :
    ∃ s' l', free (a + headerSize) s = .ret ((), s') ∧ Inv base s' l' live ∧
      s'.got = s.got ∧ (∀ b ∈ live, s'.size b = s.size b) ∧ ∃ b ∈ l', s.size a ≤ s'.size b := by
  obtain ⟨m, q, k, hL, hlow, hhigh⟩ := h.split
  obtain ⟨k', hmid, hsize⟩ := h.joinUp hL hlow hhigh
  obtain ⟨l', hinv, b, hb, hle⟩ := hmid.joinDown
  have hbounds := h.bounds (a := a) (by simp)
  have hpos := h.blocks a (by simp)
  have hbp : (a + headerSize + UINT - headerSize) % UINT = a := by
    rw [headerSize, KERNBASE] at *
    rw [UINT]
    omega
  have hap : (m ++ q :: k).Pairwise fun b c => b + headerSize * s.size b < c := hL ▸ h.apart
  have hsearch : search a enough s.freep s = .ret (q, s) := by
    have hring := h.ring
    have hlen := h.length_lt
    have hfreep := h.freep
    rw [hL] at hring hlen hfreep
    refine search_spec hring (fun b hb => ?_) (sorted_of_apart hap) (fun b hb => ?_)
      (fun b hb => ?_) hfreep enough hlen
    · have hmem : b ∈ base :: l := hL ▸ by
        rw [← List.singleton_append (l := k), ← List.append_assoc]
        exact List.mem_append_left _ hb
      rcases List.mem_cons.1 hmem with rfl | hmem
      · exact le_rfl
      · exact (h.base_lt hmem).le
    · have hle := hlow b hb
      refine (Nat.le_of_add_right_le hle).lt_of_ne fun e => h.not_mem (List.mem_append_left _ ?_)
      rw [hL, ← List.singleton_append (l := k), ← List.append_assoc, ← e]
      exact List.mem_append_left _ hb
    · have := hhigh b hb
      rw [headerSize] at this
      omega
  refine ⟨_, l', ?_, hinv, ?_, fun c hc => ?_, b, hb, hsize.trans hle⟩
  · unfold free
    rw [hbp, Prog.bind_of_ret (Prog.read_apply _ s), Prog.bind_of_ret hsearch]
    rfl
  · exact joinDown_got.trans joinUp_got
  · refine (size_joinDown fun e : c = q => hmid.not_mem_live (e ▸ hc)).trans
      (size_joinUp fun e : c = a => ?_)
    exact hmid.fresh (List.mem_append_right _ (e ▸ hc))

end Free

end Xv6.Umalloc
