import Xv6.Sys.Overrun

/-!
# The arguments of `exec`

What `main` finds on its stack, and a caller that gets its arguments past the stack page. Its
string is one page table entry over and over, the entry of the page table it is copied to: the
first page of it makes every page up to the stack page present, and all of them this page table.
-/

namespace Xv6.Sys
open Lib Vm

variable {L : Link} {k k' : Kernel} {free : List ℕ} {p d g f : ℕ} {ip : Inode}
  {argv : List (List UInt8)}

section Alias

def entries (n : ℕ) : List UInt8 := (List.replicate n (userEntry victim)).flatMap wordBytes

theorem length_entries (n : ℕ) : (entries n).length = 4 * n := by
  rw [entries, length_words, List.length_replicate]

theorem entries_add (m n : ℕ) : entries (m + n) = entries m ++ entries n := by
  unfold entries
  rw [← List.replicate_append_replicate, List.flatMap_append]

theorem entries_ne_zero (n : ℕ) : ∀ b ∈ entries n, b ≠ 0 := by
  intro b hb
  obtain ⟨w, hw, hb⟩ := List.mem_flatMap.1 hb
  cases List.eq_of_mem_replicate hw
  have hall : (wordBytes (userEntry victim)).all (· != 0) = true := by decide
  exact bne_iff_ne.1 (List.all_eq_true.1 hall b hb)

theorem entries_byte {n i j : ℕ} (hi : i < n) (hj : j < 4) :
    (entries n).getD (4 * i + j) 0 = (wordBytes (userEntry victim)).getD j 0 := by
  obtain ⟨m, rfl⟩ := Nat.exists_eq_add_of_lt hi
  have hsplit : entries (i + m + 1) = entries i ++ (wordBytes (userEntry victim) ++ entries m) := by
    rw [show i + m + 1 = i + (1 + m) by omega, entries_add, entries_add]
    rfl
  rw [hsplit, List.getD_append_right _ _ _ _ (by rw [length_entries]; omega), length_entries,
    Nat.add_sub_cancel_left, List.getD_append _ _ _ _ hj]

theorem word_patch (m : Pages) {q a n i : ℕ} (hi : i < n) :
    (patch m q (4 * a) (entries n)).word q (a + i) = userEntry victim := by
  have hbyte : ∀ j < 4, patch m q (4 * a) (entries n) q (4 * (a + i) + j) =
      (wordBytes (userEntry victim)).getD j 0 := by
    intro j hj
    rw [patch_byte, length_entries, if_pos (by omega),
      show 4 * (a + i) + j - 4 * a = 4 * i + j by omega, entries_byte hi hj]
  unfold Pages.word Bytes.read32
  rw [← Nat.add_zero (4 * (a + i)), hbyte 0 (by decide), hbyte 1 (by decide), hbyte 2 (by decide),
    hbyte 3 (by decide)]
  decide

theorem word_entries (m : Pages) {i : ℕ} (hi : i < 1024) :
    (patch m victim 0 (entries 1024)).word victim i = userEntry victim := by
  have hword := word_patch m (q := victim) (a := 0) hi
  rwa [Nat.mul_zero, Nat.zero_add] at hword

/-- The kernel inside `exec`: `d` is the new directory, and the caller has put the entry of its
last page table at address 0. -/
structure Hijacked (L : Link) (k : Kernel) (p d g f : ℕ) : Prop where
  pgdir : (k.proc p).pgdir = kva g
  tree : Tree L k.kmem.mem g
  kern : Kern L k.kmem.mem g
  apart : ¬Own k.kmem.mem g victim
  page : frm k.kmem.mem g 0 = some f
  word : k.kmem.mem.word f 0 = userEntry victim
  dir_lt : d < 2 ^ 19
  dir_ne : d ≠ victim
  frame : L.Page victim
  table : tab k.kmem.mem d 511 = some victim
  below : tab k.kmem.mem d 510 = none

theorem Hijacked.write (h : Hijacked L k p d g f) (o : ℕ) (bytes : List UInt8) :
    Hijacked L (written k victim o bytes) p d g f := by
  have hmem : ∀ q, q ≠ victim → (written k victim o bytes).kmem.mem q = k.kmem.mem q :=
    fun q hq => written_mem hq
  have hinner : ∀ q, Inner k.kmem.mem g q → (written k victim o bytes).kmem.mem q = k.kmem.mem q :=
    fun q hq => hmem q fun heq => h.apart (heq ▸ hq.own)
  obtain ⟨-, hpte, htree, hown⟩ := h.tree.keep hinner
  have hdir := hmem d h.dir_ne
  refine { h with
    tree := htree
    kern := fun v hge hlt => (hpte v hlt).trans (h.kern v hge hlt)
    apart := fun ho => h.apart ((hown victim).1 ho)
    page := (frm_congr (hpte 0 (by decide))).trans h.page
    word := ?_
    table := (tab_congr hdir).trans h.table
    below := (tab_congr hdir).trans h.below }
  have hne : f ≠ victim := fun heq => h.apart (heq ▸ Tree.frm_own (by decide) h.page)
  rw [Pages.word_congr (hmem f hne)]
  exact h.word

theorem Hijacked.cur (h : Hijacked L k p d g f) :
    V2P (k.proc p).pgdir / PGSIZE = g := by
  rw [h.pgdir]
  exact V2P_kva_div h.tree.dir.dir_lt

theorem Hijacked.round (h : Hijacked L k p d g f) {v fuel : ℕ} {src : List UInt8}
    (hword : k.kmem.mem.word victim (v % 1024) = userEntry victim)
    (hv : v / 1024 = 511) (hsrc : src ≠ []) :
    copyoutFrom L p (kva d) (fuel + 1) (4096 * v) src k =
      copyoutFrom L p (kva d) fuel (4096 * (v + 1)) (src.drop 4096)
        (written k victim 0 (src.take 4096)) := by
  have hdiv : 4096 * v / 4096 = v := Nat.mul_div_cancel_left v (by decide)
  have hmod : 4096 * v % 4096 = 0 := Nat.mul_mod_right 4096 v
  have htab : tab k.kmem.mem d (v / 1024) = some victim := by
    rw [hv]
    exact h.table
  have hka : uva2ka L p (kva d) (4096 * (4096 * v / 4096)) k = .ret (kva victim, k) := by
    rw [hdiv]
    exact uva2ka_entry h.dir_lt (by omega) htab (page_lt h.frame) (page_lt h.frame)
      ((pte_of_tab htab).trans hword)
  have hnext : copyoutFrom L p (kva d) (fuel + 1) (4096 * v) src k =
      copyoutFrom L p (kva d) fuel (4096 * (4096 * v / 4096 + 1))
        (src.drop (4096 - 4096 * v % 4096))
        (written k victim (4096 * v % 4096) (src.take (4096 - 4096 * v % 4096))) :=
    copyoutFrom_next (by rw [h.cur]; exact h.kern) h.frame hsrc (by omega) hka
  rw [hdiv, hmod] at hnext
  exact hnext

theorem take_entries (n : ℕ) : (entries (1024 + n) ++ [0]).take 4096 = entries 1024 := by
  rw [entries_add, List.append_assoc]
  exact List.take_left' (length_entries 1024)

theorem drop_entries (n : ℕ) : (entries (1024 + n) ++ [0]).drop 4096 = entries n ++ [0] := by
  rw [entries_add, List.append_assoc]
  exact List.drop_left' (length_entries 1024)

theorem entries_append_ne_nil (n : ℕ) : entries n ++ [0] ≠ [] :=
  List.append_ne_nil_of_right_ne_nil _ (List.cons_ne_nil _ _)

theorem Hijacked.rest (j : ℕ) : ∀ {k : Kernel} {fuel : ℕ}, Hijacked L k p d g f →
    (∀ i < 1024, k.kmem.mem.word victim i = userEntry victim) → j < 1024 → j < fuel →
    ∃ m, copyoutFrom L p (kva d) fuel (4096 * (0x7ffff - j)) (entries (1024 * j + 1022) ++ [0]) k =
        .ret (0, { k with kmem := { k.kmem with mem := m } }) ∧
      Hijacked L { k with kmem := { k.kmem with mem := m } } p d g f := by
  induction j with
  | zero =>
    intro k fuel h hword _ hfuel
    obtain ⟨n, rfl⟩ := Nat.exists_eq_add_of_lt hfuel
    have hdrop : (entries (1024 * 0 + 1022) ++ [0]).drop 4096 = [] := by
      rw [List.drop_eq_nil_iff, List.length_append, length_entries]
      decide
    rw [Nat.zero_add, h.round (hword _ (by decide)) (by decide) (entries_append_ne_nil _), hdrop]
    exact ⟨_, by rw [copyoutFrom]; rfl, h.write 0 _⟩
  | succ j ih =>
    intro k fuel h hword hj hfuel
    obtain ⟨n, rfl⟩ := Nat.exists_eq_add_of_lt hfuel
    have hsplit : 1024 * (j + 1) + 1022 = 1024 + (1024 * j + 1022) := by omega
    have hnext : 0x7ffff - (j + 1) + 1 = 0x7ffff - j := by omega
    rw [h.round (hword _ (Nat.mod_lt _ (by decide))) (by omega) (entries_append_ne_nil _), hsplit,
      take_entries, drop_entries, hnext]
    exact ih (h.write 0 _) (fun i hi => word_entries _ hi) (by omega) (by omega)

end Alias

end Xv6.Sys
