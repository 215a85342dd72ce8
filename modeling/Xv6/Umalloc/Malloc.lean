import Xv6.Umalloc.Free

/-!
# `malloc`

The search takes the first block that is large enough, or its tail. When it has seen all the
nodes it asks for more memory, and then it finds a block before it has seen all again.
-/

namespace Xv6.Umalloc
open Lib

section Take

variable {base : ℕ} {s : Heap} {l live : List ℕ} {nunits prevp p : ℕ}

structure Taken (base : ℕ) (s : Heap) (live : List ℕ) (nunits r : ℕ) (s' : Heap) : Prop where
  inv : ∃ l b, r = b + headerSize ∧ Inv base s' l (b :: live) ∧ s'.size b = nunits
  sizes : ∀ b ∈ live, s'.size b = s.size b

theorem Inv.ne_base (h : Inv base s l live) (hp : 0 < s.size p) : p ≠ base := fun e => by
  rw [e, h.base_size] at hp
  exact Nat.lt_irrefl 0 hp

theorem Inv.consecutive (h : Inv base s l live) (hprev : prevp ∈ base :: l)
    (hp : p ≠ base) (hptr : s.ptr prevp = p) :
    ∃ m k, base :: l = m ++ prevp :: p :: k := by
  obtain ⟨m, k, hL⟩ := List.append_of_mem hprev
  have hring := h.ring
  rw [hL] at hring
  have hk := (Seg.append_cons.1 hring).2
  rw [hptr] at hk
  cases k with
  | nil => exact absurd hk hp
  | cons z k => exact ⟨m, k, hL.trans (by rw [hk.1])⟩

theorem take_whole (h : Inv base s l live) (hprev : prevp ∈ base :: l) (hptr : s.ptr prevp = p)
    (hn : 0 < nunits) (hsize : s.size p = nunits) :
    ∃ r s', take nunits prevp p s = .ret (r, s') ∧ Taken base s live nunits r s' := by
  obtain ⟨m, k, hL⟩ := h.consecutive hprev (h.ne_base (hsize ▸ hn)) hptr
  have hring := h.ring
  rw [hL] at hring
  obtain ⟨hm, hk⟩ := Seg.append_cons.1 hring
  have hap := h.apart
  rw [hL] at hap
  have hsub : (m ++ prevp :: k).Sublist (base :: l) :=
    hL ▸ (((List.sublist_cons_self p k).cons_cons prevp).append_left m)
  have hnm : prevp ∉ m ∧ prevp ∉ k := by
    obtain ⟨-, hk, hm⟩ := List.pairwise_append.1 hap
    refine ⟨fun hq => ?_, fun hq => ?_⟩
    · have := hm prevp hq prevp List.mem_cons_self
      omega
    · have := (List.pairwise_cons.1 hk).1 prevp (List.mem_cons_of_mem _ hq)
      omega
  obtain ⟨l', hl'⟩ : ∃ l', m ++ prevp :: k = base :: l' := by
    cases m with
    | nil => exact ⟨k, by rw [(List.cons.inj hL).1]; rfl⟩
    | cons c m => exact ⟨m ++ prevp :: k, by rw [(List.cons.inj hL).1]; rfl⟩
  have hpl : p ∈ l := by
    have hmem : p ∈ base :: l := hL ▸ by simp
    exact (List.mem_cons.1 hmem).resolve_left (h.ne_base (hsize ▸ hn))
  have hadv : advance p 1 = p + headerSize := by
    have := (h.bounds (List.mem_append_left live hpl)).2
    rw [advance_eq] <;> rw [headerSize] at *
    omega
  have hptr' : ({ s.setPtr prevp (s.ptr p) with freep := prevp } : Heap).ptr =
    Function.update s.ptr prevp (s.ptr p) := ptr_setPtr ..
  have hsize' : ({ s.setPtr prevp (s.ptr p) with freep := prevp } : Heap).size = s.size :=
    size_setPtr ..
  refine ⟨_, _, if_pos hsize, ⟨l', p, hadv, ?_, hsize'.symm ▸ hsize⟩, fun b _ => by rw [hsize']⟩
  refine
    { ring := ?_
      freep := hl' ▸ by simp
      base_size := hsize' ▸ h.base_size
      apart := hsize' ▸ hl' ▸ h.apart.sublist hsub
      blocks := fun b hb => ?_
      parts := fun x => ?_
      got_apart := h.got_apart
      got_bounds := h.got_bounds }
  · rw [hptr', ← hl']
    refine Seg.append_cons.2 ⟨hm.congr (update_size _ _ hnm.1), ?_⟩
    rw [Function.update_self]
    exact hk.2.congr (update_size _ _ hnm.2)
  · rw [hsize']
    refine h.blocks b ?_
    rcases List.mem_append.1 hb with hb | hb
    · have hlt := (List.pairwise_cons.1 (hl' ▸ h.apart.sublist hsub)).1 b hb
      have hmem := hsub.subset (hl' ▸ List.mem_cons_of_mem base hb)
      refine List.mem_append_left _ ((List.mem_cons.1 hmem).resolve_left ?_)
      omega
    · rcases List.mem_cons.1 hb with rfl | hb
      · exact List.mem_append_left _ hpl
      · exact List.mem_append_right _ hb
  · have hp := h.parts x
    have h1 := congrArg (fun u => cover s.size u x) hL
    have h2 := congrArg (fun u => cover s.size u x) hl'
    rw [hsize']
    simp only [cover_append, cover_cons] at h1 h2 ⊢
    change _ = regions s.got x
    omega

theorem Inv.disjoint_live (h : Inv base s l live) {b : ℕ} (hp : p ∈ l) (hb : b ∈ live) :
    p + headerSize * s.size p ≤ b ∨ b + headerSize * s.size b ≤ p :=
  (h.perm (List.perm_cons_erase hb)).disjoint (List.mem_append_left _ hp)

theorem Inv.inside (h : Inv base s l live) {d : ℕ} (hp : p ∈ l) (hd : 0 < d)
    (hlt : d < s.size p) : p + headerSize * d ∉ base :: l ++ live := by
  obtain ⟨u, v, hl⟩ := List.append_of_mem hp
  have hap := (List.pairwise_cons.1 h.apart).2
  rw [hl] at hap
  obtain ⟨-, hpv, hup⟩ := List.pairwise_append.1 hap
  have hbase := h.base_lt hp
  intro hmem
  rcases List.mem_cons.1 hmem with he | hmem
  · omega
  · rcases List.mem_append.1 hmem with hmem | hmem
    · rw [hl] at hmem
      rcases List.mem_append.1 hmem with hmem | hmem
      · have := hup _ hmem p List.mem_cons_self
        omega
      · rcases List.mem_cons.1 hmem with he | hmem
        · rw [headerSize] at he
          omega
        · have := (List.pairwise_cons.1 hpv).1 _ hmem
          rw [headerSize] at this
          omega
    · have hpos := h.blocks _ (List.mem_append_right l hmem)
      have := h.disjoint_live hp hmem
      rw [headerSize] at *
      omega

theorem take_tail (h : Inv base s l live) (hprev : prevp ∈ base :: l) (hpl : p ∈ l)
    (hn : 0 < nunits) (hlt : nunits < s.size p) :
    ∃ r s', take nunits prevp p s = .ret (r, s') ∧ Taken base s live nunits r s' := by
  obtain ⟨d, hd⟩ : ∃ d, s.size p = d + nunits := ⟨s.size p - nunits, by omega⟩
  have hbounds := (h.bounds (List.mem_append_left live hpl)).2
  have hin := h.inside (d := d) hpl (by omega) (by omega)
  have hbase := h.base_lt hpl
  generalize hb : p + headerSize * d = b at hin
  have hadv : advance p d = b := by
    rw [← hb, advance_eq]
    rw [headerSize] at *
    omega
  have hadv' : advance b 1 = b + headerSize := by
    rw [advance_eq] <;> rw [headerSize] at *
    omega
  have htake : take nunits prevp p s =
      .ret (advance b 1, { (s.setSize p d).setSize b nunits with freep := prevp }) := by
    have hsub : s.size p - nunits = d := by omega
    unfold take
    rw [if_neg hlt.ne', hsub]
    simp only [size_setSize, Function.update_self, hadv]
  generalize hs' : ({ (s.setSize p d).setSize b nunits with freep := prevp } : Heap) = s'
    at htake
  have hptr : s'.ptr = s.ptr := by
    rw [← hs']
    exact (ptr_setSize ..).trans (ptr_setSize ..)
  have hsize : s'.size = Function.update (Function.update s.size p d) b nunits := by
    rw [← hs']
    exact (size_setSize ..).trans (by rw [size_setSize])
  have hne : p ≠ b := fun e => hin (e ▸ List.mem_append_left _ (List.mem_cons_of_mem _ hpl))
  have hsb : s'.size b = nunits := by rw [hsize, Function.update_self]
  have hsp : s'.size p = d := by
    rw [hsize, Function.update_of_ne hne, Function.update_self]
  have hsz : ∀ c ∈ base :: l ++ live, c ≠ p → s'.size c = s.size c := fun c hc hcp => by
    rw [hsize, Function.update_of_ne (fun e : c = b => hin (e ▸ hc)), Function.update_of_ne hcp]
  have hlive : ∀ c ∈ live, s'.size c = s.size c := fun c hc => by
    refine hsz c (List.mem_append_right _ hc) fun e => ?_
    have hpos := h.blocks c (List.mem_append_right l hc)
    have := h.disjoint_live hpl hc
    rw [headerSize] at *
    subst e
    omega
  have hle : ∀ c ∈ base :: l, s'.size c ≤ s.size c := fun c hc => by
    by_cases hcp : c = p
    · subst hcp
      omega
    · exact (hsz c (List.mem_append_left _ hc) hcp).le
  refine ⟨_, _, htake, ⟨l, b, hadv', ?_, hsb⟩, hlive⟩
  refine
    { ring := hptr ▸ h.ring
      freep := hs' ▸ hprev
      base_size := Nat.le_zero.1 (h.base_size ▸ hle base List.mem_cons_self)
      apart := h.apart.imp_of_mem fun hb _ hbc =>
        (Nat.add_le_add_left (Nat.mul_le_mul_left _ (hle _ hb)) _).trans_lt hbc
      blocks := fun c hc => ?_
      parts := fun x => ?_
      got_apart := hs' ▸ h.got_apart
      got_bounds := hs' ▸ h.got_bounds }
  · rcases List.mem_append.1 hc with hc | hc
    · have hold := h.blocks c (List.mem_append_left _ hc)
      by_cases hcp : c = p
      · subst hcp
        omega
      · rw [hsz c (List.mem_append_left _ (List.mem_cons_of_mem _ hc)) hcp]
        exact hold
    · rcases List.mem_cons.1 hc with rfl | hc
      · omega
      · rw [hlive c hc]
        exact h.blocks c (List.mem_append_right _ hc)
  · obtain ⟨u, v, hl⟩ := List.append_of_mem hpl
    have hap := (List.pairwise_cons.1 h.apart).2
    rw [hl] at hap
    obtain ⟨-, hpv, hup⟩ := List.pairwise_append.1 hap
    have hu : cover s'.size u x = cover s.size u x := cover_congr fun c hc => by
      refine hsz c (by simp [hl, hc]) fun e => ?_
      have := hup c hc p List.mem_cons_self
      omega
    have hv : cover s'.size v x = cover s.size v x := cover_congr fun c hc => by
      refine hsz c (by simp [hl, hc]) fun e => ?_
      have := (List.pairwise_cons.1 hpv).1 c hc
      omega
    have hp := h.parts x
    have hj := covers_join (m := nunits) hb x
    have hgot : s'.got = s.got := hs' ▸ rfl
    rw [hl] at hp ⊢
    simp only [cover_append, cover_cons] at hp ⊢
    rw [hu, hv, hsp, hsb, cover_congr hlive, hgot, ← hp, hd]
    omega

theorem take_spec (h : Inv base s l live) (hprev : prevp ∈ base :: l) (hptr : s.ptr prevp = p)
    (hn : 0 < nunits) (hsize : nunits ≤ s.size p) :
    ∃ r s', take nunits prevp p s = .ret (r, s') ∧ Taken base s live nunits r s' := by
  rcases hsize.eq_or_lt with he | hlt
  · exact take_whole h hprev hptr hn he.symm
  · obtain ⟨m, k, hL⟩ := h.consecutive hprev (h.ne_base (hn.trans hlt)) hptr
    have hmem : p ∈ base :: l := hL ▸ by simp
    exact take_tail h hprev ((List.mem_cons.1 hmem).resolve_left (h.ne_base (hn.trans hlt))) hn hlt

end Take

section Grow

variable {base : ℕ} {S : Sbrk base} {s : Heap} {l live : List ℕ} {n p : ℕ}

theorem Inv.sbrk (h : Inv base s l live) (hn : 0 < n)
    (hp : Fresh base s.got (n * headerSize) p) :
    Inv base (({ s with calls := s.calls + 1, got := (p, n * headerSize) :: s.got } : Heap).setSize
      p n) l (p :: live) := by
  have hout : ∀ b ∈ base :: l ++ live, b < p := fun b hb => by
    rcases List.mem_cons.1 hb with rfl | hb
    · have := hp.above_base
      rw [headerSize] at this
      omega
    · have hpos := h.blocks b hb
      have hone : 0 < regions s.got b := by
        have hle := covers_le_cover s.size b hb
        rw [covers_start hpos] at hle
        rwa [← h.parts b, ← cover_append]
      obtain ⟨r, hr, hx⟩ := regions_pos.1 hone
      have := hp.above r hr
      omega
  have hnot : p ∉ base :: l ++ live := fun hmem => Nat.lt_irrefl p (hout p hmem)
  have hsize : (({ s with calls := s.calls + 1, got := (p, n * headerSize) :: s.got } :
      Heap).setSize p n).size = Function.update s.size p n := size_setSize ..
  have hptr : (({ s with calls := s.calls + 1, got := (p, n * headerSize) :: s.got } :
      Heap).setSize p n).ptr = s.ptr := ptr_setSize ..
  have hsz := update_size s.size n hnot
  refine
    { ring := hptr ▸ h.ring
      freep := h.freep
      base_size := ?_
      apart := ?_
      blocks := fun b hb => ?_
      parts := fun x => ?_
      got_apart := List.pairwise_cons.2 ⟨hp.above, h.got_apart⟩
      got_bounds := List.forall_mem_cons.2 ⟨⟨hp.above_base, hp.user⟩, h.got_bounds⟩ }
  · rw [hsize, hsz base (by simp), h.base_size]
  · rw [hsize]
    refine h.apart.imp_of_mem fun hb _ hbc => ?_
    rwa [hsz _ (List.mem_append_left _ hb)]
  · rw [hsize]
    by_cases hbp : b = p
    · subst hbp
      rw [Function.update_self]
      exact hn
    · rw [Function.update_of_ne hbp]
      refine h.blocks b ?_
      simp only [List.mem_append, List.mem_cons] at hb ⊢
      tauto
  · have hpx := h.parts x
    have h1 : cover (Function.update s.size p n) l x = cover s.size l x :=
      cover_congr fun b hb => hsz b (by simp [hb])
    have h2 : cover (Function.update s.size p n) live x = cover s.size live x :=
      cover_congr fun b hb => hsz b (by simp [hb])
    rw [hsize, cover_cons, Function.update_self, h1, h2]
    change _ = regions ((p, n * headerSize) :: s.got) x
    have hr : regions ((p, n * headerSize) :: s.got) x = covers p n x + regions s.got x := by
      rw [covers, Nat.mul_comm headerSize]
      exact List.sum_cons
    rw [hr]
    omega

theorem morecore_spec (h : Inv base s l live) (hb : 0 < base) (hn : n * headerSize < 2 ^ 31) :
    (∃ s', morecore S n s = .ret (0, s') ∧ Inv base s' l live ∧ s'.size = s.size) ∨
    ∃ s' l', morecore S n s = .ret (s'.freep, s') ∧ s'.freep ≠ 0 ∧ Inv base s' l' live ∧
      (∀ b ∈ live, s'.size b = s.size b) ∧ ∃ b ∈ l', n ≤ s'.size b := by
  generalize hnu : (if n < 4096 then 4096 else n) = nu
  have hnu' : n ≤ nu ∧ 0 < nu ∧ nu * headerSize < UINT := by
    rw [headerSize, UINT] at *
    split_ifs at hnu <;> omega
  have hmod : nu * headerSize % UINT = nu * headerSize := Nat.mod_eq_of_lt hnu'.2.2
  cases hask : S.ask s.calls s.got (nu * headerSize) with
  | none =>
    left
    refine ⟨{ s with calls := s.calls + 1 }, ?_, { h with }, rfl⟩
    have hs : sbrk S (nu * headerSize) s = .ret (UINT - 1, { s with calls := s.calls + 1 }) := by
      simp only [sbrk, hask]
    simp only [morecore, hnu, hmod]
    rw [Prog.bind_of_ret hs, if_pos rfl]
    rfl
  | some p =>
    right
    have hfresh := S.fresh _ _ _ _ hask
    have hinv := h.sbrk hnu'.2.1 hfresh
    obtain ⟨s', l', hfree, hinv', -, hsizes, b, hbl, hle⟩ := free_spec hinv
    have hp1 : p ≠ UINT - 1 := by
      have := hfresh.user
      rw [headerSize, KERNBASE] at *
      rw [UINT]
      omega
    have hadv : advance p 1 = p + headerSize := by
      have := hfresh.user
      rw [advance_eq] <;> rw [headerSize] at *
      omega
    have hs : sbrk S (nu * headerSize) s = .ret (p,
        { s with calls := s.calls + 1, got := (p, nu * headerSize) :: s.got }) := by
      simp only [sbrk, hask]
    have hfreep : s'.freep ≠ 0 := by
      rcases List.mem_cons.1 hinv'.freep with he | hmem
      · omega
      · have := hinv'.base_lt hmem
        omega
    refine ⟨s', l', ?_, hfreep, hinv', fun c hc => ?_, b, hbl, ?_⟩
    · simp only [morecore, hnu, hmod]
      rw [Prog.bind_of_ret hs, if_neg hp1, Prog.bind_of_ret (Prog.modify_apply _ _), hadv,
        Prog.bind_of_ret hfree]
      rfl
    · rw [hsizes c hc, size_setSize]
      refine Function.update_of_ne (fun e : c = p => ?_) _ _
      exact hinv.not_mem (List.mem_append_right _ (e ▸ hc))
    · rw [size_setSize, Function.update_self] at hle
      exact hnu'.1.trans hle

end Grow

section Scan

variable {base : ℕ} {S : Sbrk base} {s : Heap} {l live u : List ℕ} {nunits prevp p : ℕ}

def grow (S : Sbrk base) (nunits fuel : ℕ) : M ℕ := do
  let p ← morecore S nunits
  if p = 0 then return 0
  else do
    let q ← .read (·.ptr p)
    scan S nunits fuel p q

theorem scan_take (fuel : ℕ) (h : nunits ≤ s.size p) :
    scan S nunits (fuel + 1) prevp p s = take nunits prevp p s := by
  rw [scan, Prog.bind_of_ret (Prog.read_apply _ s), if_pos h]

theorem scan_grow (fuel : ℕ) (h : ¬nunits ≤ s.size p) (hp : p = s.freep) :
    scan S nunits (fuel + 1) prevp p s = grow S nunits fuel s := by
  rw [scan, Prog.bind_of_ret (Prog.read_apply _ s), if_neg h,
    Prog.bind_of_ret (Prog.read_apply _ s), if_pos hp]
  rfl

theorem scan_next (fuel : ℕ) (h : ¬nunits ≤ s.size p) (hp : p ≠ s.freep) :
    scan S nunits (fuel + 1) prevp p s = scan S nunits fuel p (s.ptr p) s := by
  rw [scan, Prog.bind_of_ret (Prog.read_apply _ s), if_neg h,
    Prog.bind_of_ret (Prog.read_apply _ s), if_neg hp, Prog.bind_of_ret (Prog.read_apply _ s)]

theorem scan_round (S : Sbrk base) (nunits : ℕ) (hs : Seg s.ptr p (u ++ [s.freep]) q) (hu : s.freep ∉ u)
    (hptr : s.ptr prevp = p) :
    (∃ prevp' ∈ prevp :: u, nunits ≤ s.size (s.ptr prevp') ∧
      ∀ fuel, scan S nunits (fuel + u.length + 1) prevp p s =
        take nunits prevp' (s.ptr prevp') s) ∨
    (∀ b ∈ u ++ [s.freep], s.size b < nunits) ∧
      ∀ fuel, scan S nunits (fuel + u.length + 1) prevp p s = grow S nunits fuel s := by
  induction u generalizing prevp p with
  | nil =>
    obtain rfl : p = s.freep := hs.1
    by_cases h : nunits ≤ s.size s.freep
    · refine .inl ⟨prevp, List.mem_cons_self, hptr.symm ▸ h, fun fuel => ?_⟩
      rw [hptr]
      exact scan_take fuel h
    · exact .inr ⟨by simpa using h, fun fuel => scan_grow fuel h rfl⟩
  | cons y u ih =>
    obtain ⟨rfl, hs⟩ := hs
    obtain ⟨hne, hu⟩ := not_or.1 (fun e => hu (List.mem_cons.2 e))
    by_cases h : nunits ≤ s.size p
    · refine .inl ⟨prevp, List.mem_cons_self, hptr.symm ▸ h, fun fuel => ?_⟩
      rw [hptr]
      exact scan_take _ h
    · have hnext : ∀ fuel, scan S nunits (fuel + (p :: u).length + 1) prevp p s =
          scan S nunits (fuel + u.length + 1) p (s.ptr p) s := fun fuel =>
        scan_next _ h (Ne.symm hne)
      rcases ih hs hu rfl with ⟨prevp', hmem, hle, htake⟩ | ⟨hall, hgrow⟩
      · exact .inl ⟨prevp', List.mem_cons_of_mem _ hmem, hle, fun fuel =>
          (hnext fuel).trans (htake fuel)⟩
      · refine .inr ⟨List.forall_mem_cons.2 ⟨Nat.lt_of_not_le h, hall⟩, fun fuel =>
          (hnext fuel).trans (hgrow fuel)⟩

theorem Inv.around (h : Inv base s l live) :
    ∃ u, Seg s.ptr (s.ptr s.freep) (u ++ [s.freep]) (s.ptr s.freep) ∧ s.freep ∉ u ∧
      (u ++ [s.freep]).Perm (base :: l) := by
  obtain ⟨m, k, hL⟩ := List.append_of_mem h.freep
  have hring := h.ring
  rw [hL] at hring
  have hrot := Seg.rotate hring
  have hnodup : (base :: l).Nodup := (sorted_of_apart h.apart).imp fun h => h.ne
  have hperm : (s.freep :: k ++ m).Perm (base :: l) := by
    rw [hL]
    exact List.perm_append_comm
  refine ⟨k ++ m, ?_, ?_, ?_⟩
  · exact Seg.append_cons.2 ⟨hrot.2, rfl⟩
  · exact (List.nodup_cons.1 (hperm.nodup_iff.2 hnodup)).1
  · exact (List.perm_append_comm : (k ++ m ++ [s.freep]).Perm ([s.freep] ++ (k ++ m))).trans hperm

theorem scan_once (h : Inv base s l live) (hn : 0 < nunits) :
    (∃ r s', (∀ fuel, scan S nunits (fuel + (base :: l).length) s.freep (s.ptr s.freep) s =
      .ret (r, s')) ∧ Taken base s live nunits r s') ∨
    (∀ b ∈ l, s.size b < nunits) ∧
      ∀ fuel, scan S nunits (fuel + (base :: l).length) s.freep (s.ptr s.freep) s =
        grow S nunits fuel s := by
  obtain ⟨u, hseg, hu, hperm⟩ := h.around
  have hlen : (base :: l).length = u.length + 1 := by
    rw [← hperm.length_eq, List.length_append, List.length_singleton]
  rw [hlen]
  rcases scan_round S nunits hseg hu rfl with
    ⟨prevp, hmem, hle, hscan⟩ | ⟨hall, hscan⟩
  · have hprev : prevp ∈ base :: l := by
      rcases List.mem_cons.1 hmem with rfl | hmem
      · exact h.freep
      · exact hperm.subset (List.mem_append_left _ hmem)
    obtain ⟨r, s', htake, htaken⟩ := take_spec h hprev rfl hn hle
    exact .inl ⟨r, s', fun fuel => (hscan fuel).trans htake, htaken⟩
  · exact .inr ⟨fun b hb => hall b (hperm.symm.subset (List.mem_cons_of_mem _ hb)), hscan⟩

theorem scan_spec (h : Inv base s l live) (hb : 0 < base) (hn : 0 < nunits)
    (hsmall : nunits * headerSize < 2 ^ 31) :
    ∃ r s', scan S nunits enough s.freep (s.ptr s.freep) s = .ret (r, s') ∧
      ((r = 0 ∧ (∃ l', Inv base s' l' live) ∧ ∀ b ∈ live, s'.size b = s.size b) ∨
        Taken base s live nunits r s') := by
  have hlen := h.length_lt
  obtain ⟨fuel, hfuel⟩ : ∃ fuel, enough = fuel + (base :: l).length :=
    ⟨enough - (base :: l).length, by omega⟩
  rw [hfuel]
  rcases scan_once (S := S) h hn with ⟨r, s', hscan, htaken⟩ | ⟨-, hscan⟩
  · exact ⟨r, s', hscan fuel, .inr htaken⟩
  · rw [hscan, grow]
    rcases morecore_spec (S := S) h hb hsmall with
      ⟨s₁, hmore, hinv, hsize⟩ | ⟨s₁, l₁, hmore, hne, hinv, hsizes, b, hbl, hle⟩
    · rw [Prog.bind_of_ret hmore]
      exact ⟨0, s₁, rfl, .inl ⟨rfl, ⟨l, hinv⟩, fun b _ => by rw [hsize]⟩⟩
    · rw [Prog.bind_of_ret hmore, if_neg hne, Prog.bind_of_ret (Prog.read_apply _ s₁)]
      have hlen₁ := hinv.length_lt
      obtain ⟨fuel₁, rfl⟩ : ∃ f, fuel = f + (base :: l₁).length :=
        ⟨fuel - (base :: l₁).length, by omega⟩
      -- now one of the nodes is large enough
      rcases scan_once (S := S) hinv hn with ⟨r, s', hscan, htaken⟩ | ⟨hall, -⟩
      · exact ⟨r, s', hscan fuel₁, .inr ⟨htaken.inv, fun b hb =>
          (htaken.sizes b hb).trans (hsizes b hb)⟩⟩
      · exact absurd hle (Nat.not_le.2 (hall b hbl))

end Scan

end Xv6.Umalloc
