import Xv6.Lib.Trace
import Xv6.Umalloc.Malloc

/-!
# Every run of the allocator

What holds between the calls of a program that frees only blocks it has, each once, and
writes only behind their headers.
-/

namespace Xv6.Umalloc
open Lib

/-- The heap is in order: `l` are the free blocks other than `base`. -/
structure Ordered (base : ℕ) (w : World) (l : List ℕ) : Prop where
  /-- There is no list before the first call. From then on it is circular, from `base`
  through the free blocks with rising addresses and back. -/
  list : w.heap.freep = 0 ∧ l = [] ∨
    Seg w.heap.ptr base (base :: l) base ∧ w.heap.freep ∈ base :: l ∧ w.heap.size base = 0
  sorted : (base :: l).Pairwise (· < ·)
  /-- Between two free blocks is a gap. -/
  coalesced : l.Pairwise fun a b => a + headerSize * w.heap.size a < b
  /-- No address is in two blocks. -/
  disjoint : (l ++ w.live.map Prod.fst).Pairwise fun a b =>
    a + headerSize * w.heap.size a ≤ b ∨ b + headerSize * w.heap.size b ≤ a
  /-- The blocks are the memory that `sbrk` answered. -/
  partition : ∀ x, (∃ a ∈ l ++ w.live.map Prod.fst, a ≤ x ∧ x < a + headerSize * w.heap.size a) ↔
    ∃ r ∈ w.heap.got, r.1 ≤ x ∧ x < r.1 + r.2
  /-- Behind its header a block of the program has the bytes asked for. -/
  room : ∀ g ∈ w.live, headerSize + g.2 ≤ headerSize * w.heap.size g.1

def Good (base : ℕ) (w : World) : Prop :=
  (w.heap.freep = 0 ∧ w.heap.got = [] ∧ w.live = []) ∨
    ∃ l, Inv base w.heap l (w.live.map Prod.fst) ∧
      ∀ g ∈ w.live, headerSize + g.2 ≤ headerSize * w.heap.size g.1

section Malloc

variable {base : ℕ} {S : Sbrk base} {w : World} {n : ℕ}

theorem unitsFor_spec (h : Request n) :
    0 < unitsFor n ∧ unitsFor n * headerSize < 2 ^ 31 ∧
      headerSize + n ≤ headerSize * unitsFor n := by
  unfold Request at h
  unfold unitsFor
  rw [headerSize, UINT] at *
  omega

theorem Inv.first {s : Heap} (hgot : s.got = []) :
    Inv base { (s.setPtr base base).setSize base 0 with freep := base } [] [] := by
  have hptr : ({ (s.setPtr base base).setSize base 0 with freep := base } : Heap).ptr =
      Function.update s.ptr base base := (ptr_setSize ..).trans (ptr_setPtr ..)
  have hsize : ({ (s.setPtr base base).setSize base 0 with freep := base } : Heap).size =
      Function.update s.size base 0 := (size_setSize ..).trans (by rw [size_setPtr])
  have hgot' : ({ (s.setPtr base base).setSize base 0 with freep := base } : Heap).got = [] := hgot
  refine
    { ring := ⟨rfl, by rw [hptr, Function.update_self]; rfl⟩
      freep := List.mem_cons_self
      base_size := by rw [hsize, Function.update_self]
      apart := List.pairwise_singleton _ _
      blocks := nofun
      parts := fun x => by rw [hgot']; rfl
      got_apart := hgot' ▸ .nil
      got_bounds := by rw [hgot']; exact nofun }

theorem malloc_spec (hb : 0 < base) (hw : Good base w) (hn : Request n) :
    ∃ r s, malloc S n w.heap = .ret (r, s) ∧
      ((r = 0 ∧ (∃ l, Inv base s l (w.live.map Prod.fst)) ∧
        ∀ g ∈ w.live, s.size g.1 = w.heap.size g.1) ∨
      ∃ l b, r = b + headerSize ∧ Inv base s l (b :: w.live.map Prod.fst) ∧
        s.size b = unitsFor n ∧ ∀ g ∈ w.live, s.size g.1 = w.heap.size g.1) := by
  obtain ⟨hpos, hsmall, -⟩ := unitsFor_spec hn
  obtain ⟨s₀, l, hs₀, hinv, hsz⟩ : ∃ s₀ l,
      (if w.heap.freep = 0 then
        { (w.heap.setPtr base base).setSize base 0 with freep := base } else w.heap) = s₀ ∧
      Inv base s₀ l (w.live.map Prod.fst) ∧ ∀ g ∈ w.live, s₀.size g.1 = w.heap.size g.1 := by
    rcases hw with ⟨hfreep, hgot, hlive⟩ | ⟨l, hinv, -⟩
    · refine ⟨_, [], if_pos hfreep, ?_, ?_⟩
      · rw [hlive]
        exact Inv.first hgot
      · rw [hlive]
        exact nofun
    · refine ⟨_, l, if_neg fun h0 => ?_, hinv, fun _ _ => rfl⟩
      rcases List.mem_cons.1 (h0 ▸ hinv.freep) with he | hmem
      · omega
      · exact absurd (hinv.base_lt hmem) (Nat.not_lt_zero _)
  obtain ⟨r, s, hscan, hres⟩ := scan_spec (S := S) hinv hb hpos hsmall
  refine ⟨r, s, ?_, ?_⟩
  · rw [malloc, Prog.bind_of_ret (Prog.modify_apply _ _), hs₀,
      Prog.bind_of_ret (Prog.read_apply _ s₀), Prog.bind_of_ret (Prog.read_apply _ s₀), hscan]
  · have hlive : ∀ g ∈ w.live, g.1 ∈ w.live.map Prod.fst := fun g hg => List.mem_map_of_mem hg
    rcases hres with ⟨hr, hinv', hsizes⟩ | ⟨⟨l', b, hr, hinv', hsize⟩, hsizes⟩
    · exact .inl ⟨hr, hinv', fun g hg => (hsizes _ (hlive g hg)).trans (hsz g hg)⟩
    · exact .inr ⟨l', b, hr, hinv', hsize, fun g hg =>
        (hsizes _ (hlive g hg)).trans (hsz g hg)⟩

end Malloc

section Store

variable {base : ℕ} {s s' : Heap} {l live : List ℕ} {a k : ℕ}

theorem Inv.congr (h : Inv base s l live) (hmem : ∀ b ∈ base :: l ++ live, s'.mem b = s.mem b)
    (hfreep : s'.freep = s.freep) (hgot : s'.got = s.got) : Inv base s' l live := by
  have hsize : ∀ b ∈ base :: l ++ live, s'.size b = s.size b := fun b hb =>
    congrArg Header.size (hmem b hb)
  refine
    { ring := h.ring.congr fun b hb => congrArg Header.ptr (hmem b (List.mem_append_left _ hb))
      freep := hfreep ▸ h.freep
      base_size := (hsize base (by simp)).trans h.base_size
      apart := h.apart.imp_of_mem fun hb _ hbc => by
        rwa [hsize _ (List.mem_append_left _ hb)]
      blocks := fun b hb => by
        rw [hsize b (List.mem_cons_of_mem _ hb)]
        exact h.blocks b hb
      parts := fun x => ?_
      got_apart := hgot ▸ h.got_apart
      got_bounds := hgot ▸ h.got_bounds }
  rw [cover_congr fun b hb => hsize b (by simp [hb]),
    cover_congr fun b hb => hsize b (by simp [hb]), hgot, h.parts x]

theorem Inv.inside_live (h : Inv base s l live) (ha : a ∈ live) (hk : 0 < k)
    (hlt : k < s.size a) : a + headerSize * k ∉ base :: l ++ live := by
  have h' := h.perm (List.perm_cons_erase ha)
  have hbase := (h'.bounds (a := a) (by simp)).1
  intro hmem
  have hc : a + headerSize * k ∈ l ++ live.erase a := by
    rcases List.mem_cons.1 hmem with he | hmem
    · rw [headerSize] at *
      omega
    · rcases List.mem_append.1 hmem with hmem | hmem
      · exact List.mem_append_left _ hmem
      · refine List.mem_append_right _ ((List.mem_erase_of_ne fun e => ?_).2 hmem)
        rw [headerSize] at e
        omega
  have hpos := h'.blocks (a + headerSize * k)
    (((List.sublist_cons_self a _).append_left l).subset hc)
  have := h'.disjoint hc
  rw [headerSize] at *
  omega

end Store

section Runs

variable {base : ℕ} {S : Sbrk base} {w w' : World} {e : Event} {mem : ℕ → Header}
  {es : List Event}

theorem Good.step (hb : 0 < base) (hw : Good base w) (h : Step S w e w') : Good base w' := by
  cases h with
  | @fail n s hn hm =>
    obtain ⟨r, s', hm', hres⟩ := malloc_spec (S := S) hb hw hn
    obtain ⟨rfl, rfl⟩ := Outcome.ret_inj (hm.symm.trans hm')
    rcases hres with ⟨-, ⟨l, hinv⟩, hsz⟩ | ⟨l, b, hr, -⟩
    · refine .inr ⟨l, hinv, fun g hg => ?_⟩
      rcases hw with ⟨-, -, hlive⟩ | ⟨-, -, hroom⟩
      · exact absurd (hlive ▸ hg) List.not_mem_nil
      · exact (hsz g hg).symm ▸ hroom g hg
    · rw [headerSize] at hr
      omega
  | @malloc n r s hn hm hr =>
    obtain ⟨r', s', hm', hres⟩ := malloc_spec (S := S) hb hw hn
    obtain ⟨rfl, rfl⟩ := Outcome.ret_inj (hm.symm.trans hm')
    rcases hres with ⟨hr0, -⟩ | ⟨l, b, rfl, hinv, hsize, hsz⟩
    · exact absurd hr0 hr
    · refine .inr ⟨l, ?_, List.forall_mem_cons.2 ⟨?_, fun g hg => ?_⟩⟩
      · rwa [List.map_cons, Nat.add_sub_cancel]
      · change headerSize + n ≤ headerSize * s.size (b + headerSize - headerSize)
        rw [Nat.add_sub_cancel, hsize]
        exact (unitsFor_spec hn).2.2
      · rcases hw with ⟨-, -, hlive⟩ | ⟨-, -, hroom⟩
        · exact absurd (hlive ▸ hg) List.not_mem_nil
        · exact (hsz g hg).symm ▸ hroom g hg
  | @free g s hg hf =>
    rcases hw with ⟨-, -, hlive⟩ | ⟨l, hinv, hroom⟩
    · exact absurd (hlive ▸ hg) List.not_mem_nil
    · obtain ⟨s', l', hf', hinv', -, hsz, -⟩ :=
        free_spec (hinv.perm ((List.perm_cons_erase hg).map Prod.fst))
      obtain ⟨-, rfl⟩ := Outcome.ret_inj (hf.symm.trans hf')
      refine .inr ⟨l', hinv', fun c hc => ?_⟩
      rw [hsz c.1 (List.mem_map_of_mem hc)]
      exact hroom c (List.mem_of_mem_erase hc)
  | @store g k h hg hk hlt =>
    rcases hw with ⟨-, -, hlive⟩ | ⟨l, hinv, hroom⟩
    · exact absurd (hlive ▸ hg) List.not_mem_nil
    · have hin := hinv.inside_live (List.mem_map_of_mem hg) hk hlt
      have hkeep : ∀ b ∈ base :: l ++ w.live.map Prod.fst,
          Function.update w.heap.mem (g.1 + headerSize * k) h b = w.heap.mem b := fun b hb =>
        Function.update_of_ne (fun e : b = g.1 + headerSize * k => hin (e ▸ hb)) _ _
      refine .inr ⟨l, hinv.congr hkeep rfl rfl, fun c hc => ?_⟩
      have hsize := congrArg Header.size (hkeep c.1 (by simp [List.mem_map_of_mem hc]))
      change headerSize + c.2 ≤ headerSize *
        (Function.update w.heap.mem (g.1 + headerSize * k) h c.1).size
      rw [hsize]
      exact hroom c hc

theorem Good.run (hb : 0 < base) (h : Runs (Step S) (boot mem) es w) : Good base w :=
  h.invariant (fun _ _ _ hw hs => hw.step hb hs) (.inl ⟨rfl, rfl, rfl⟩)

theorem Good.ordered (h : Good base w) : ∃ l, Ordered base w l := by
  rcases h with ⟨hfreep, hgot, hlive⟩ | ⟨l, hinv, hroom⟩
  · refine ⟨[], .inl ⟨hfreep, rfl⟩, List.pairwise_singleton _ _, .nil, ?_, fun x => ?_, ?_⟩
    · rw [hlive]
      exact .nil
    · simp [hlive, hgot]
    · rw [hlive]
      exact nofun
  · have hcover : ∀ x, cover w.heap.size (l ++ w.live.map Prod.fst) x = regions w.heap.got x :=
      fun x => cover_append.trans (hinv.parts x)
    refine ⟨l, .inr ⟨hinv.ring, hinv.freep, hinv.base_size⟩, sorted_of_apart hinv.apart,
      (List.pairwise_cons.1 hinv.apart).2, ?_, fun x => ?_, hroom⟩
    · exact pairwise_of_cover hinv.blocks fun x =>
        (hcover x).trans_le (regions_le_one hinv.got_apart)
    · rw [← cover_pos, hcover, regions_pos]

/-- In every run the heap stays in order, and the loops end. -/
theorem heap_ordered (hb : 0 < base) (h : Runs (Step S) (boot mem) es w) :
    (∃ l, Ordered base w l) ∧
    (∀ n, Request n → ∃ r s, malloc S n w.heap = .ret (r, s)) ∧
    ∀ g ∈ w.live, ∃ s, free (g.1 + headerSize) w.heap = .ret ((), s) := by
  have hw := Good.run hb h
  refine ⟨hw.ordered, fun n hn => ?_, fun g hg => ?_⟩
  · obtain ⟨r, s, hm, -⟩ := malloc_spec (S := S) hb hw hn
    exact ⟨r, s, hm⟩
  · rcases hw with ⟨-, -, hlive⟩ | ⟨l, hinv, -⟩
    · exact absurd (hlive ▸ hg) List.not_mem_nil
    · obtain ⟨s, -, hf, -⟩ := free_spec (hinv.perm ((List.perm_cons_erase hg).map Prod.fst))
      exact ⟨s, hf⟩

theorem fresh_first {got : List Region} {n p : ℕ}
    (h : (if got = [] ∧ n ≤ 0x8000 then some 0x1000 else none) = some p) :
    Fresh 0x100 got n p := by
  split_ifs at h with hc
  obtain rfl := Option.some.inj h
  refine ⟨by decide, by simp [hc.1], ?_⟩
  rw [KERNBASE]
  omega

def growOnce : Sbrk 0x100 where
  ask _ got n := if got = [] ∧ n ≤ 0x8000 then some 0x1000 else none
  fresh _ _ _ _ := fresh_first

theorem heap_ordered_growOnce :
    ∃ w, Runs (Step growOnce) (boot fun _ => ⟨0, 0⟩) [.malloc 100 36760, .free 36760] w ∧
      ∃ l, Ordered 0x100 w l := by
  have hmalloc : Runs (Step growOnce) (boot fun _ => ⟨0, 0⟩) [.malloc 100 36760] _ :=
    .snoc (.nil _) (.malloc (n := 100) (r := 36760) (by unfold Request; decide) rfl (by decide))
  obtain ⟨s, hs⟩ := (heap_ordered (by decide) hmalloc).2.2 (36752, 100) List.mem_cons_self
  have hfree := Runs.snoc hmalloc (.free List.mem_cons_self hs)
  exact ⟨_, hfree, (heap_ordered (by decide) hfree).1⟩

end Runs

end Xv6.Umalloc
