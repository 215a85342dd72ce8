import Mathlib.Algebra.Order.BigOperators.Group.List
import Mathlib.Data.List.Pairwise
import Mathlib.Data.List.TakeWhile
import Xv6.Lib.Segment
import Xv6.Umalloc.Machine

/-!
# Blocks

The free blocks are a circular list from `base` on with rising addresses and a gap between
each two. Every address is in as many blocks, free or not, as regions that `sbrk` answered.
-/

namespace Xv6.Umalloc
open Lib

section Cover

def covers (a n x : ℕ) : ℕ := if a ≤ x ∧ x < a + headerSize * n then 1 else 0

def cover (size : ℕ → ℕ) (l : List ℕ) (x : ℕ) : ℕ := (l.map fun a => covers a (size a) x).sum

def regions (got : List Region) (x : ℕ) : ℕ :=
  (got.map fun r => if r.1 ≤ x ∧ x < r.1 + r.2 then 1 else 0).sum

variable {size size' : ℕ → ℕ} {l l' : List ℕ} {a x : ℕ}

@[simp] theorem cover_cons : cover size (a :: l) x = covers a (size a) x + cover size l x :=
  List.sum_cons

@[simp] theorem cover_append : cover size (l ++ l') x = cover size l x + cover size l' x := by
  simp only [cover, List.map_append, List.sum_append]

theorem cover_congr (h : ∀ a ∈ l, size' a = size a) : cover size' l x = cover size l x := by
  unfold cover
  rw [List.map_congr_left fun a ha => by rw [h a ha]]

theorem cover_perm (h : l.Perm l') : cover size l x = cover size l' x :=
  (h.map _).sum_eq

theorem covers_le_cover (size : ℕ → ℕ) (x : ℕ) (h : a ∈ l) : covers a (size a) x ≤ cover size l x :=
  List.single_le_sum (fun _ _ => Nat.zero_le _) _ (List.mem_map_of_mem h)

theorem covers_start {n : ℕ} (hn : 0 < n) : covers a n a = 1 := by
  rw [covers, headerSize, if_pos]
  omega

theorem disjoint_of_covers {b n m : ℕ} (hn : 0 < n) (hm : 0 < m)
    (h : ∀ x, covers a n x + covers b m x ≤ 1) :
    b + headerSize * m ≤ a ∨ a + headerSize * n ≤ b := by
  have hx := h (max a b)
  unfold covers headerSize at *
  split_ifs at hx <;> omega

theorem pairwise_of_cover (hpos : ∀ a ∈ l, 0 < size a) (h : ∀ x, cover size l x ≤ 1) :
    l.Pairwise fun a b => a + headerSize * size a ≤ b ∨ b + headerSize * size b ≤ a := by
  induction l with
  | nil => exact .nil
  | cons a l ih =>
    obtain ⟨ha, hl⟩ := List.forall_mem_cons.1 hpos
    simp only [cover_cons] at h
    refine List.pairwise_cons.2 ⟨fun b hb => ?_, ih hl fun x => (Nat.le_add_left _ _).trans (h x)⟩
    refine (disjoint_of_covers ha (hl b hb) fun x => ?_).symm
    exact (Nat.add_le_add_left (covers_le_cover _ _ hb) _).trans (h x)

theorem cover_pos : 0 < cover size l x ↔ ∃ a ∈ l, a ≤ x ∧ x < a + headerSize * size a := by
  simp only [cover, covers, List.sum_pos_iff_exists_pos_nat, List.mem_map, exists_exists_and_eq_and]
  refine exists_congr fun a => and_congr_right fun _ => ?_
  split_ifs with hx <;> simp [hx]

theorem covers_join {n m : ℕ} (hb : a + headerSize * n = x) (y : ℕ) :
    covers a n y + covers x m y = covers a (n + m) y := by
  unfold covers headerSize at *
  split_ifs <;> omega

end Cover

structure Inv (base : ℕ) (s : Heap) (l live : List ℕ) : Prop where
  ring : Seg s.ptr base (base :: l) base
  freep : s.freep ∈ base :: l
  base_size : s.size base = 0
  apart : (base :: l).Pairwise fun a b => a + headerSize * s.size a < b
  blocks : ∀ a ∈ l ++ live, 0 < s.size a
  parts : ∀ x, cover s.size l x + cover s.size live x = regions s.got x
  got_apart : s.got.Pairwise fun r r' => r'.1 + r'.2 ≤ r.1
  got_bounds : ∀ r ∈ s.got, base + headerSize ≤ r.1 ∧ r.1 + r.2 ≤ KERNBASE

section Regions

variable {base : ℕ} {got : List Region} {x : ℕ}

theorem regions_le_one (h : got.Pairwise fun r r' => r'.1 + r'.2 ≤ r.1) : regions got x ≤ 1 := by
  induction got with
  | nil => exact Nat.zero_le _
  | cons r got ih =>
    obtain ⟨hr, h⟩ := List.pairwise_cons.1 h
    have hrest := ih h
    rw [regions, List.map_cons, List.sum_cons]
    change _ + regions got x ≤ 1
    split_ifs with hx
    · suffices regions got x = 0 by omega
      refine List.sum_eq_zero fun y hy => ?_
      obtain ⟨r', hr', rfl⟩ := List.mem_map.1 hy
      have := hr r' hr'
      exact if_neg (by omega)
    · omega

theorem regions_pos : 0 < regions got x ↔ ∃ r ∈ got, r.1 ≤ x ∧ x < r.1 + r.2 := by
  simp only [regions, List.sum_pos_iff_exists_pos_nat, List.mem_map, exists_exists_and_eq_and]
  refine exists_congr fun r => and_congr_right fun _ => ?_
  split_ifs with hx <;> simp [hx]

end Regions

namespace Inv

variable {base : ℕ} {s : Heap} {l live : List ℕ} {a b : ℕ}

theorem perm {live' : List ℕ} (h : Inv base s l live) (hp : live.Perm live') :
    Inv base s l live' :=
  { h with
    blocks := fun a ha => h.blocks a ((hp.append_left l).mem_iff.2 ha)
    parts := fun x => by rw [← cover_perm hp, h.parts x] }

theorem bounds (h : Inv base s l live) (ha : a ∈ l ++ live) :
    base + headerSize ≤ a ∧ a + headerSize * s.size a ≤ KERNBASE := by
  have hpos := h.blocks a ha
  have hin : ∀ x, covers a (s.size a) x ≤ regions s.got x := fun x => by
    rw [← h.parts x, ← cover_append]
    exact covers_le_cover _ _ ha
  constructor
  · have hstart := hin a
    rw [covers_start hpos] at hstart
    obtain ⟨r, hr, hx⟩ := regions_pos.1 hstart
    exact (h.got_bounds r hr).1.trans hx.1
  · have hend := hin (a + headerSize * s.size a - 1)
    have hone : covers a (s.size a) (a + headerSize * s.size a - 1) = 1 := by
      rw [covers, headerSize, if_pos]
      omega
    rw [hone] at hend
    obtain ⟨r, hr, hx⟩ := regions_pos.1 hend
    have := (h.got_bounds r hr).2
    omega

theorem disjoint (h : Inv base s l (a :: live)) (hb : b ∈ l ++ live) :
    b + headerSize * s.size b ≤ a ∨ a + headerSize * s.size a ≤ b := by
  have hcover : ∀ x, covers a (s.size a) x + covers b (s.size b) x ≤ 1 := fun x => by
    have hp := h.parts x
    have hb := covers_le_cover s.size x hb
    have hone := regions_le_one (x := x) h.got_apart
    rw [cover_append] at hb
    rw [cover_cons] at hp
    omega
  have hb' := ((List.sublist_cons_self a live).append_left l).subset hb
  exact disjoint_of_covers (h.blocks a (by simp)) (h.blocks b hb') hcover

theorem base_lt (h : Inv base s l live) {b : ℕ} (hb : b ∈ l) : base < b := by
  have := (List.pairwise_cons.1 h.apart).1 b hb
  omega

theorem not_mem (h : Inv base s l (a :: live)) : a ∉ base :: l ++ live := by
  intro ha
  have hpos := h.blocks a (by simp)
  have hbase := (h.bounds (a := a) (by simp)).1
  rw [headerSize] at hbase
  rcases List.mem_cons.1 ha with rfl | ha
  · omega
  · have := h.disjoint ha
    rw [headerSize] at this
    omega

theorem length_lt (h : Inv base s l live) : 2 * (base :: l).length < enough := by
  have hlen : ∀ (u : List ℕ) (c : ℕ), u ⊆ l → (u.Pairwise fun a b => a + headerSize * s.size a < b) →
      (∀ a ∈ u, c ≤ a) → c ≤ KERNBASE → c + headerSize * u.length ≤ KERNBASE := by
    intro u
    induction u with
    | nil => exact fun c _ _ _ hc => hc
    | cons a u ih =>
      intro c hu hap hle _
      obtain ⟨ha, hap⟩ := List.pairwise_cons.1 hap
      have hal : a ∈ l ++ live := List.mem_append_left _ (hu List.mem_cons_self)
      have hb := (h.bounds hal).2
      have hpos := h.blocks a hal
      have hrec := ih (a + headerSize * s.size a) (fun b hb => hu (List.mem_cons_of_mem _ hb)) hap
        (fun b hb => (ha b hb).le) hb
      have hca := hle a List.mem_cons_self
      rw [headerSize] at *
      rw [List.length_cons]
      omega
  have := hlen l 0 (List.Subset.refl l) (List.pairwise_cons.1 h.apart).2 (fun _ _ => Nat.zero_le _)
    (Nat.zero_le _)
  rw [headerSize, KERNBASE] at this
  rw [List.length_cons, enough]
  omega

end Inv

section Headers

variable (s : Heap) (p q n : ℕ)

@[simp] theorem ptr_setPtr : (s.setPtr p q).ptr = Function.update s.ptr p q := by
  funext x
  by_cases hx : x = p
  · subst hx
    simp [Heap.ptr, Heap.setPtr]
  · simp [Heap.ptr, Heap.setPtr, hx]

@[simp] theorem size_setPtr : (s.setPtr p q).size = s.size := by
  funext x
  by_cases hx : x = p
  · subst hx
    simp [Heap.size, Heap.setPtr]
  · simp [Heap.size, Heap.setPtr, hx]

@[simp] theorem ptr_setSize : (s.setSize p n).ptr = s.ptr := by
  funext x
  by_cases hx : x = p
  · subst hx
    simp [Heap.ptr, Heap.setSize]
  · simp [Heap.ptr, Heap.setSize, hx]

@[simp] theorem size_setSize : (s.setSize p n).size = Function.update s.size p n := by
  funext x
  by_cases hx : x = p
  · subst hx
    simp [Heap.size, Heap.setSize]
  · simp [Heap.size, Heap.setSize, hx]

theorem advance_eq {p n : ℕ} (h : p + headerSize * n ≤ KERNBASE) :
    advance p n = p + headerSize * n := by
  unfold advance
  refine Nat.mod_eq_of_lt (h.trans_lt ?_)
  decide

end Headers

end Xv6.Umalloc
