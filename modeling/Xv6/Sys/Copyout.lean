import Xv6.Sys.Invariant
import Xv6.Vm.Build

/-!
# What `copyout` copies

`copyout` goes through the pages of its range in order and stops at the first one that is not
there. `uva2ka` does not look whether there is a page table: it reads the entry through the null
pointer. `copyoutWith null` is `copyout` with `null` for this read.
-/

namespace Xv6.Sys
open Lib Vm

variable {L : Link} {k k' : Kernel} {p d v f va : ℕ} {null : Prog Kernel ℕ} {src : List UInt8}

def uva2kaWith (null : Prog Kernel ℕ) (pgdir uva : ℕ) : Prog Kernel ℕ := do
  let pte ← onMem (walkpgdir pgdir uva false)
  let w ← (if pte = 0 then null else onMem (load pte) : Prog Kernel ℕ)
  if present w = false then return 0
  else if user w = false then return 0
  else return P2V (PTE_ADDR w)

def copyoutWith (L : Link) (null : Prog Kernel ℕ) (p pgdir : ℕ) :
    ℕ → ℕ → List UInt8 → Prog Kernel ℤ
  | _, _, [] => return 0
  | 0, _, _ :: _ => .hang
  | fuel + 1, va, b :: bs => do
    let va0 := PGROUNDDOWN va
    let pa0 ← uva2kaWith null pgdir va0
    if pa0 = 0 then return -1
    else do
      let n := PGSIZE - (va - va0)
      writeBytes L p (pa0 + (va - va0)) ((b :: bs).take n)
      copyoutWith L null p pgdir fuel (add32 va0 PGSIZE) ((b :: bs).drop n)

theorem copyoutFrom_eq (p pgdir fuel va : ℕ) (src : List UInt8) :
    copyoutFrom L p pgdir fuel va src = copyoutWith L (readWord L p 0) p pgdir fuel va src := by
  induction fuel generalizing va src with
  | zero => cases src <;> rfl
  | succ fuel ih =>
    cases src with
    | nil => rfl
    | cons b bs =>
      simp only [copyoutFrom, copyoutWith, ih]
      rfl

def Good (m : Pages) (d v : ℕ) : Prop := present (pte m d v) = true ∧ user (pte m d v) = true

def Overlaps (va len v : ℕ) : Prop := 0 < len ∧ 4096 * v < va + len ∧ va < 4096 * (v + 1)

def GoodTo (m : Pages) (d va len v : ℕ) : Prop := ∀ u ≤ v, Overlaps va len u → Good m d u

/-- The memory behind `d` after the bytes for the good pages at the start of the range have been
copied. -/
def Replaced (m : Pages) (d va : ℕ) (src : List UInt8) (m' : Pages) : Prop :=
  (∀ v o, o < 4096 → Overlaps va src.length v → GoodTo m d va src.length v →
    ∀ f, frm m d v = some f → m' f o =
      if va ≤ 4096 * v + o ∧ 4096 * v + o < va + src.length then src.getD (4096 * v + o - va) 0
      else m f o) ∧
  ∀ f, (∀ v, Overlaps va src.length v → GoodTo m d va src.length v → frm m d v ≠ some f) →
    m' f = m f

structure Reach (L : Link) (k : Kernel) (p d : ℕ) : Prop where
  tree : Tree L k.kmem.mem d
  kern : Kern L k.kmem.mem d
  cur : Kern L k.kmem.mem (V2P (k.proc p).pgdir / PGSIZE)
  apart : ∀ v < UPAGES, ∀ f, frm k.kmem.mem d v = some f →
    ¬Inner k.kmem.mem (V2P (k.proc p).pgdir / PGSIZE) f

section Page

theorem Good.lt {m : Pages} (hk : Kern L m d) (hv : v < 2 ^ 20) (h : Good m d v) :
    v < UPAGES := by
  by_contra hge
  have hu := h.2
  rw [hk v (Nat.not_lt.1 hge) hv, kpte_not_user] at hu
  cases hu

theorem Good.frm {m : Pages} (h : Good m d v) : frm m d v = some (pte m d v / 4096) :=
  frm_eq_some.2 ⟨h.1, rfl⟩

theorem page_lt {f : ℕ} (h : L.Page f) : f < 2 ^ 19 := Nat.lt_trans h.lt (by decide)

open Classical in
theorem uva2ka_table (null : Prog Kernel ℕ) (htree : Tree L k.kmem.mem d)
    (hkern : Kern L k.kmem.mem d) (hv : v < 2 ^ 20) {t : ℕ}
    (ht : tab k.kmem.mem d (v / 1024) = some t) :
    uva2kaWith null (kva d) (4096 * v) k =
      .ret (if Good k.kmem.mem d v then kva (pte k.kmem.mem d v / 4096) else 0, k) := by
  have hdiv : 4096 * v / 4096 = v := Nat.mul_div_cancel_left v (by decide)
  have hwalk := walkpgdir_tab htree.dir (show 4096 * v < 2 ^ 32 by omega)
    (by rw [hdiv]; exact ht) false
  rw [hdiv] at hwalk
  have hlt : t < 2 ^ 19 := htree.dir.tab_lt (by omega) ht
  have hload : load (kva t + 4 * (v % 1024)) k.kmem = .ret (pte k.kmem.mem d v, k.kmem) := by
    rw [load_kva hlt (Nat.mod_lt v (by decide)), pte_of_tab ht]
  have hne : kva t + 4 * (v % 1024) ≠ 0 := by
    have := kva_ne_zero t
    omega
  unfold uva2kaWith
  rw [Prog.bind_of_ret (onMem_of_ret hwalk), if_neg hne, Prog.bind_of_ret (onMem_of_ret hload)]
  by_cases hp : present (pte k.kmem.mem d v) = true
  · by_cases hu : user (pte k.kmem.mem d v) = true
    · have hgood : Good k.kmem.mem d v := ⟨hp, hu⟩
      have hpage := htree.page _ (Tree.frm_own (hgood.lt hkern hv) hgood.frm)
      rw [if_neg (by simp [hp]), if_neg (by simp [hu]), if_pos hgood, P2V_PTE_ADDR (page_lt hpage)]
      rfl
    · rw [if_neg (by simp [hp]), if_pos (Bool.eq_false_iff.2 hu), if_neg fun hg => hu hg.2]
      rfl
  · rw [if_pos (Bool.eq_false_iff.2 hp), if_neg fun hg => hp hg.1]
    rfl

theorem uva2ka_no_table (h : Reach L k p d) (hv : v < 2 ^ 20)
    (ht : tab k.kmem.mem d (v / 1024) = none) {m : String} :
    uva2kaWith (.panic m) (kva d) (4096 * v) k = .panic m := by
  have hdiv : 4096 * v / 4096 = v := Nat.mul_div_cancel_left v (by decide)
  have hwalk := walkpgdir_none h.tree.dir (show 4096 * v < 2 ^ 32 by omega) (by rw [hdiv]; exact ht)
  unfold uva2kaWith
  rw [Prog.bind_of_ret (onMem_of_ret hwalk)]
  rfl

theorem writable_entry : writable (4096 * f ||| PTE_W ||| PTE_P) = true := by
  have h := Nat.and_two_pow (4096 * f ||| PTE_W ||| PTE_P) 1
  have hbit : (4096 * f ||| PTE_W ||| PTE_P).testBit 1 = true := by
    rw [Nat.testBit_or, Nat.testBit_or]
    simp [PTE_W, show Nat.testBit 2 1 = true by decide]
  rw [hbit] at h
  have hand : (4096 * f ||| PTE_W ||| PTE_P) &&& PTE_W = 2 := h
  unfold writable
  rw [hand]
  rfl

theorem touch_page (h : Kern L k.kmem.mem (V2P (k.proc p).pgdir / PGSIZE)) (hf : L.Page f) {o : ℕ}
    (ho : o < 4096) : touch L p (kva f + o) true k = .ret (f, k) := by
  have hlt := hf.lt
  have hend := hf.1
  have hdata := L.data_lt
  have hU : UPAGES = 524288 := rfl
  have hpage : (kva f + o) / PGSIZE = UPAGES + f := by
    unfold kva KERNBASE PGSIZE
    omega
  have hpte : pte k.kmem.mem (V2P (k.proc p).pgdir / PGSIZE) ((kva f + o) / PGSIZE) =
      (4096 * f ||| PTE_W ||| PTE_P) := by
    rw [hpage, h _ (Nat.le_add_right _ _) (by omega), kpte, kpteAt,
      if_pos (show UPAGES + f < UPAGES + PHYSTOP / PGSIZE from Nat.add_lt_add_left hlt UPAGES),
      if_neg, Nat.add_sub_cancel_left]
    unfold kva KERNBASE at hend
    unfold PGSIZE at *
    omega
  have htr : translate k p (kva f + o) true = some f := by
    unfold translate
    rw [hpte, if_pos ⟨entry_present, fun _ => writable_entry⟩]
    exact congrArg some (entry_frame (by decide))
  unfold touch
  rw [Prog.get_bind]
  simp only [htr]
  rfl

def patch (m : Pages) (f o : ℕ) (bytes : List UInt8) : Pages :=
  Function.update m f fun a => if o ≤ a then (bytes[a - o]?).getD (m f a) else m f a

theorem writeBytes_page (h : Kern L k.kmem.mem (V2P (k.proc p).pgdir / PGSIZE)) (hf : L.Page f)
    {o : ℕ} (ho : o < 4096) (bytes : List UInt8) :
    writeBytes L p (kva f + o) bytes k =
      .ret ((), { k with kmem := { k.kmem with mem := patch k.kmem.mem f o bytes } }) := by
  have hmod : (kva f + o) % PGSIZE = o := by
    unfold kva KERNBASE PGSIZE
    omega
  unfold writeBytes
  rw [Prog.bind_of_ret (touch_page h hf ho), hmod]
  rfl

end Page

/-- No page of the range is looked up in a page table that is not there. -/
def Walked (m : Pages) (d va len : ℕ) : Prop :=
  ∀ v, Overlaps va len v → (∀ u < v, Overlaps va len u → Good m d u) → tab m d (v / 1024) ≠ none

section Round

theorem overlaps_iff {len : ℕ} (hlen : 0 < len) : Overlaps va len v ↔
    v = va / 4096 ∨ Overlaps (4096 * (va / 4096 + 1)) (len - (4096 - va % 4096)) v := by
  unfold Overlaps
  omega

theorem not_overlaps_next {len : ℕ} : ¬Overlaps (4096 * (va / 4096 + 1)) len (va / 4096) := by
  unfold Overlaps
  omega

theorem overlaps_next_le {len : ℕ} (h : Overlaps (4096 * (va / 4096 + 1)) len v) :
    va / 4096 < v := by
  unfold Overlaps at h
  omega

def copiedPage (k : Kernel) (d va : ℕ) (src : List UInt8) : Kernel :=
  let f := pte k.kmem.mem d (va / 4096) / 4096
  { k with kmem := { k.kmem with
    mem := patch k.kmem.mem f (va % 4096) (src.take (4096 - va % 4096)) } }

theorem copiedPage_mem (hf : f ≠ pte k.kmem.mem d (va / 4096) / 4096) :
    (copiedPage k d va src).kmem.mem f = k.kmem.mem f := Function.update_of_ne hf _ _

theorem Reach.inner_copiedPage (h : Reach L k p d) (hv : va / 4096 < 2 ^ 20)
    (hg : Good k.kmem.mem d (va / 4096)) {g : ℕ}
    (hg' : g = d ∨ g = V2P (k.proc p).pgdir / PGSIZE) (hi : Inner k.kmem.mem g f) :
    (copiedPage k d va src).kmem.mem f = k.kmem.mem f := by
  apply copiedPage_mem
  rintro rfl
  have hlt := hg.lt h.kern hv
  cases hg' with
  | inl hd =>
    subst hd
    exact h.tree.frm_not_inner hlt hg.frm hi
  | inr hcur =>
    subst hcur
    exact h.apart _ hlt _ hg.frm hi

theorem Reach.pte_copiedPage (h : Reach L k p d) (hv : va / 4096 < 2 ^ 20)
    (hg : Good k.kmem.mem d (va / 4096)) (hu : v < 2 ^ 20) {g : ℕ}
    (hg' : g = d ∨ g = V2P (k.proc p).pgdir / PGSIZE) :
    pte (copiedPage k d va src).kmem.mem g v = pte k.kmem.mem g v :=
  pte_congr (h.inner_copiedPage hv hg hg' (Or.inl rfl))
    fun t ht => h.inner_copiedPage hv hg hg' (Or.inr ⟨v / 1024, by omega, ht⟩)

theorem Reach.tab_copiedPage (h : Reach L k p d) (hv : va / 4096 < 2 ^ 20)
    (hg : Good k.kmem.mem d (va / 4096)) {i g : ℕ}
    (hg' : g = d ∨ g = V2P (k.proc p).pgdir / PGSIZE) :
    tab (copiedPage k d va src).kmem.mem g i = tab k.kmem.mem g i :=
  tab_congr (h.inner_copiedPage hv hg hg' (Or.inl rfl))

theorem Reach.copiedPage (h : Reach L k p d) (hv : va / 4096 < 2 ^ 20)
    (hg : Good k.kmem.mem d (va / 4096)) : Reach L (copiedPage k d va src) p d where
  tree := by
    have hkeep : ∀ q, Inner k.kmem.mem d q →
        (Sys.copiedPage k d va src).kmem.mem q = k.kmem.mem q :=
      fun _ hi => h.inner_copiedPage hv hg (Or.inl rfl) hi
    exact (h.tree.keep hkeep).2.2.1
  kern v hge hlt := by
    rw [h.pte_copiedPage hv hg hlt (Or.inl rfl)]
    exact h.kern v hge hlt
  cur v hge hlt := by
    refine Eq.trans (h.pte_copiedPage hv hg hlt (Or.inr rfl)) ?_
    exact h.cur v hge hlt
  apart v hlt f hf hi := by
    rw [frm_congr (h.pte_copiedPage hv hg (hlt.trans UPAGES_lt) (Or.inl rfl))] at hf
    refine h.apart v hlt f hf (hi.imp id ?_)
    rintro ⟨i, hi, ht⟩
    exact ⟨i, hi, (h.tab_copiedPage hv hg (Or.inr rfl)).symm.trans ht⟩

theorem good_copiedPage (h : Reach L k p d) (hv : va / 4096 < 2 ^ 20)
    (hg : Good k.kmem.mem d (va / 4096)) (hu : v < 2 ^ 20) :
    Good (copiedPage k d va src).kmem.mem d v ↔ Good k.kmem.mem d v := by
  unfold Good
  rw [h.pte_copiedPage hv hg hu (Or.inl rfl)]

variable {fuel : ℕ}

theorem rounddown_eq : PGROUNDDOWN va = 4096 * (va / 4096) := Nat.mul_comm _ _

theorem copyoutWith_good (h : Reach L k p d) (hv : va / 4096 < 2 ^ 20) (hsrc : src ≠ [])
    (hg : Good k.kmem.mem d (va / 4096)) :
    copyoutWith L null p (kva d) (fuel + 1) va src k =
      copyoutWith L null p (kva d) fuel (4096 * (va / 4096 + 1))
        (src.drop (4096 - va % 4096)) (copiedPage k d va src) := by
  obtain ⟨b, bs, rfl⟩ := List.exists_cons_of_ne_nil hsrc
  have hlt := hg.lt h.kern hv
  have hpage := h.tree.page _ (Tree.frm_own hlt hg.frm)
  have hoff : va - 4096 * (va / 4096) = va % 4096 := by omega
  obtain ⟨t, ht⟩ := exists_tab hg.1
  have hka := uva2ka_table null h.tree h.kern hv ht
  rw [if_pos hg] at hka
  rw [copyoutWith, rounddown_eq, Prog.bind_of_ret hka, if_neg (kva_ne_zero _), hoff,
    Prog.bind_of_ret (writeBytes_page h.cur hpage (Nat.mod_lt va (by decide)) _),
    add32_page (show va / 4096 < 2 ^ 19 from hlt)]
  rfl

theorem copyoutWith_bad (h : Reach L k p d) (hv : va / 4096 < 2 ^ 20) (hsrc : src ≠ [])
    (hg : ¬Good k.kmem.mem d (va / 4096)) (ht : tab k.kmem.mem d (va / 4096 / 1024) ≠ none) :
    copyoutWith L null p (kva d) (fuel + 1) va src k = .ret (-1, k) := by
  obtain ⟨b, bs, rfl⟩ := List.exists_cons_of_ne_nil hsrc
  obtain ⟨t, ht⟩ := Option.ne_none_iff_exists'.1 ht
  have hka := uva2ka_table null h.tree h.kern hv ht
  rw [if_neg hg] at hka
  rw [copyoutWith, rounddown_eq, Prog.bind_of_ret hka]
  rfl

theorem copyoutWith_no_table (h : Reach L k p d) (hv : va / 4096 < 2 ^ 20) (hsrc : src ≠ [])
    (ht : tab k.kmem.mem d (va / 4096 / 1024) = none) {m : String} :
    copyoutWith L (.panic m) p (kva d) (fuel + 1) va src k = .panic m := by
  obtain ⟨b, bs, rfl⟩ := List.exists_cons_of_ne_nil hsrc
  rw [copyoutWith, rounddown_eq, Prog.bind_apply, uva2ka_no_table h hv ht]
  rfl

end Round

section Spec

variable {m' : Pages}

theorem Overlaps.lt {len : ℕ} (h : Overlaps va len v) (hlen : va + len ≤ 2 ^ 32) : v < 2 ^ 20 := by
  unfold Overlaps at h
  omega

theorem goodTo_copiedPage (h : Reach L k p d) (hlen : va + src.length ≤ 2 ^ 32) (hsrc : src ≠ [])
    (hg : Good k.kmem.mem d (va / 4096)) :
    GoodTo (copiedPage k d va src).kmem.mem d (4096 * (va / 4096 + 1))
      (src.drop (4096 - va % 4096)).length v ↔ GoodTo k.kmem.mem d va src.length v := by
  have hpos := List.length_pos_iff.2 hsrc
  have hv : va / 4096 < 2 ^ 20 := by omega
  rw [List.length_drop]
  constructor
  · intro hto u hu hover
    rcases (overlaps_iff hpos).1 hover with rfl | hnext
    · exact hg
    · exact (good_copiedPage h hv hg (hover.lt hlen)).1 (hto u hu hnext)
  · intro hto u hu hnext
    have hover := (overlaps_iff hpos).2 (Or.inr hnext)
    exact (good_copiedPage h hv hg (hover.lt hlen)).2 (hto u hu hover)

theorem patch_byte {m : Pages} {o a : ℕ} (bytes : List UInt8) :
    patch m f o bytes f a =
      if o ≤ a ∧ a < o + bytes.length then bytes.getD (a - o) 0 else m f a := by
  unfold patch
  rw [Function.update_self]
  by_cases hle : o ≤ a
  · by_cases hlt : a < o + bytes.length
    · have hin : a - o < bytes.length := by omega
      rw [if_pos hle, if_pos ⟨hle, hlt⟩, List.getD_eq_getElem?_getD, List.getElem?_eq_getElem hin]
      rfl
    · rw [if_pos hle, if_neg fun h => hlt h.2, List.getElem?_eq_none (by omega)]
      rfl
  · rw [if_neg hle, if_neg fun h => hle h.1]

theorem copiedPage_byte {o : ℕ} (ho : o < 4096) :
    (copiedPage k d va src).kmem.mem (pte k.kmem.mem d (va / 4096) / 4096) o =
      if va ≤ 4096 * (va / 4096) + o ∧ 4096 * (va / 4096) + o < va + src.length then
        src.getD (4096 * (va / 4096) + o - va) 0
      else k.kmem.mem (pte k.kmem.mem d (va / 4096) / 4096) o := by
  have hidx : 4096 * (va / 4096) + o - va = o - va % 4096 := by omega
  rw [hidx]
  refine (patch_byte _).trans ?_
  rw [List.length_take]
  refine if_congr (by omega) ?_ rfl
  rw [List.getD_eq_getElem?_getD, List.getD_eq_getElem?_getD, List.getElem?_take_of_lt (by omega)]

theorem Replaced.cons (h : Reach L k p d) (hlen : va + src.length ≤ 2 ^ 32) (hsrc : src ≠ [])
    (hg : Good k.kmem.mem d (va / 4096))
    (hr : Replaced (copiedPage k d va src).kmem.mem d (4096 * (va / 4096 + 1))
      (src.drop (4096 - va % 4096)) m') : Replaced k.kmem.mem d va src m' := by
  have hpos := List.length_pos_iff.2 hsrc
  have hv : va / 4096 < 2 ^ 20 := by omega
  have hfirst := hg.lt h.kern hv
  have hdrop : (src.drop (4096 - va % 4096)).length = src.length - (4096 - va % 4096) :=
    List.length_drop
  have hfrm : ∀ u, Overlaps va src.length u →
      frm (copiedPage k d va src).kmem.mem d u = frm k.kmem.mem d u :=
    fun u hu => frm_congr (h.pte_copiedPage hv hg (hu.lt hlen) (Or.inl rfl))
  have hsame : ∀ u, Overlaps va src.length u → Good k.kmem.mem d u →
      frm k.kmem.mem d u = some (pte k.kmem.mem d (va / 4096) / 4096) → u = va / 4096 :=
    fun u hu hgu hf => h.tree.frm_inj (hgu.lt h.kern (hu.lt hlen)) hfirst hf hg.frm
  constructor
  · intro v o ho hover hto f hf
    rcases (overlaps_iff hpos).1 hover with rfl | hnext
    · rw [hg.frm, Option.some.injEq] at hf
      subst hf
      rw [hr.2 _ fun u hu hgu hfu => ?_, copiedPage_byte ho]
      rw [hdrop] at hu
      have hou := (overlaps_iff hpos).2 (Or.inr hu)
      rw [hfrm u hou] at hfu
      have hgood := (goodTo_copiedPage h hlen hsrc hg).1 hgu u (Nat.le_refl u) hou
      exact not_overlaps_next (hsame u hou hgood hfu ▸ hu)
    · have hne : f ≠ pte k.kmem.mem d (va / 4096) / 4096 := by
        rintro rfl
        have heq := hsame v hover (hto v (Nat.le_refl v) hover) hf
        have := overlaps_next_le hnext
        omega
      have hlt := overlaps_next_le hnext
      rw [hr.1 v o ho (hdrop ▸ hnext) ((goodTo_copiedPage h hlen hsrc hg).2 hto) f
        ((hfrm v hover).trans hf), copiedPage_mem hne, hdrop]
      refine if_congr (by unfold Overlaps at hnext hover; omega) ?_ rfl
      rw [List.getD_eq_getElem?_getD, List.getD_eq_getElem?_getD, List.getElem?_drop]
      rw [show 4096 - va % 4096 + (4096 * v + o - 4096 * (va / 4096 + 1)) = 4096 * v + o - va by
        omega]
  · intro f hf
    have hne : f ≠ pte k.kmem.mem d (va / 4096) / 4096 := by
      rintro rfl
      refine hf (va / 4096) ((overlaps_iff hpos).2 (Or.inl rfl)) (fun u hu hou => ?_) hg.frm
      rcases (overlaps_iff hpos).1 hou with rfl | hnext
      · exact hg
      · have := overlaps_next_le hnext
        omega
    rw [hr.2 f fun u hu hgu hfu => ?_, copiedPage_mem hne]
    rw [hdrop] at hu
    have hou := (overlaps_iff hpos).2 (Or.inr hu)
    exact hf u hou ((goodTo_copiedPage h hlen hsrc hg).1 hgu) ((hfrm u hou).symm.trans hfu)

theorem Replaced.nil {m : Pages} : Replaced m d va [] m := by
  have hno : ∀ u, ¬Overlaps va ([] : List UInt8).length u := by
    intro u hu
    exact Nat.lt_irrefl 0 hu.1
  exact ⟨fun v o _ hv => absurd hv (hno v), fun f _ => rfl⟩

theorem Replaced.stop {m : Pages} (hg : ¬Good m d (va / 4096)) (hsrc : src ≠ []) :
    Replaced m d va src m := by
  have hpos := List.length_pos_iff.2 hsrc
  have hno : ∀ u, Overlaps va src.length u → ¬GoodTo m d va src.length u := by
    intro u hu hto
    refine hg (hto (va / 4096) ?_ ((overlaps_iff hpos).2 (Or.inl rfl)))
    rcases (overlaps_iff hpos).1 hu with rfl | hnext
    · exact Nat.le_refl _
    · exact Nat.le_of_lt (overlaps_next_le hnext)
  exact ⟨fun v o _ hv hto => absurd hto (hno v hv), fun f _ => rfl⟩

end Spec

/-- `copyout` ends, and would end so whatever the entry of a missing page table were; it answers 0
exactly when every page of the range is good, and copies up to the first that is not. -/
def CopiesOut (L : Link) (k : Kernel) (p d va : ℕ) (src : List UInt8) : Prop :=
  ∃ r m', copyout L p (kva d) va src k =
      .ret (r, { k with kmem := { k.kmem with mem := m' } }) ∧
    (∀ null, copyoutWith L null p (kva d) src.length va src k = copyout L p (kva d) va src k) ∧
    (r = 0 ∨ r = -1) ∧ (r = 0 ↔ ∀ v, Overlaps va src.length v → Good k.kmem.mem d v) ∧
    Replaced k.kmem.mem d va src m'

section Loop

variable {fuel : ℕ}

theorem walked_copiedPage (h : Reach L k p d) (hlen : va + src.length ≤ 2 ^ 32) (hsrc : src ≠ [])
    (hg : Good k.kmem.mem d (va / 4096)) :
    Walked (copiedPage k d va src).kmem.mem d (4096 * (va / 4096 + 1))
      (src.drop (4096 - va % 4096)).length ↔ Walked k.kmem.mem d va src.length := by
  have hpos := List.length_pos_iff.2 hsrc
  have hv : va / 4096 < 2 ^ 20 := by omega
  rw [List.length_drop]
  constructor
  · intro hw v hover hbefore
    rcases (overlaps_iff hpos).1 hover with rfl | hnext
    · intro hnone
      have hp := hg.1
      rw [pte_of_tab_none hnone] at hp
      cases hp
    · have htab : tab (copiedPage k d va src).kmem.mem d (v / 1024) = tab k.kmem.mem d (v / 1024) :=
        h.tab_copiedPage hv hg (Or.inl rfl)
      rw [← htab]
      refine hw v hnext fun u hu hou => ?_
      have hou' := (overlaps_iff hpos).2 (Or.inr hou)
      exact (good_copiedPage h hv hg (hou'.lt hlen)).2 (hbefore u hu hou')
  · intro hw v hnext hbefore
    rw [h.tab_copiedPage hv hg (Or.inl rfl)]
    refine hw v ((overlaps_iff hpos).2 (Or.inr hnext)) fun u hu hou => ?_
    rcases (overlaps_iff hpos).1 hou with rfl | hou'
    · exact hg
    · exact (good_copiedPage h hv hg (hou.lt hlen)).1 (hbefore u hu hou')

theorem copyoutWith_spec (h : Reach L k p d) (hlen : va + src.length ≤ 2 ^ 32)
    (hw : Walked k.kmem.mem d va src.length) (hfuel : src.length ≤ fuel) :
    ∃ r m', (∀ null, copyoutWith L null p (kva d) fuel va src k =
        .ret (r, { k with kmem := { k.kmem with mem := m' } })) ∧
      (r = 0 ∨ r = -1) ∧ (r = 0 ↔ ∀ v, Overlaps va src.length v → Good k.kmem.mem d v) ∧
      Replaced k.kmem.mem d va src m' := by
  induction fuel generalizing k va src with
  | zero =>
    obtain rfl := List.length_eq_zero_iff.1 (Nat.le_zero.1 hfuel)
    exact ⟨0, k.kmem.mem, fun null => rfl, Or.inl rfl,
      ⟨fun _ v hv => absurd hv.1 (Nat.lt_irrefl 0), fun _ => rfl⟩, Replaced.nil⟩
  | succ fuel ih =>
    by_cases hsrc : src = []
    · subst hsrc
      exact ⟨0, k.kmem.mem, fun null => rfl, Or.inl rfl,
        ⟨fun _ v hv => absurd hv.1 (Nat.lt_irrefl 0), fun _ => rfl⟩, Replaced.nil⟩
    have hpos := List.length_pos_iff.2 hsrc
    have hv : va / 4096 < 2 ^ 20 := by omega
    have hfirst : Overlaps va src.length (va / 4096) := (overlaps_iff hpos).2 (Or.inl rfl)
    by_cases hg : Good k.kmem.mem d (va / 4096)
    · have hlen' : 4096 * (va / 4096 + 1) + (src.drop (4096 - va % 4096)).length ≤ 2 ^ 32 := by
        have hlt := hg.lt h.kern hv
        have hU : UPAGES = 524288 := rfl
        rw [List.length_drop]
        omega
      obtain ⟨r, m', hrun, hr, hzero, hrep⟩ := ih (h.copiedPage hv hg) hlen'
        ((walked_copiedPage h hlen hsrc hg).2 hw) (by rw [List.length_drop]; omega)
      refine ⟨r, m', fun null => ?_, hr, hzero.trans ?_, hrep.cons h hlen hsrc hg⟩
      · rw [copyoutWith_good h hv hsrc hg, hrun null]
        rfl
      · rw [List.length_drop]
        constructor
        · intro hall v hover
          rcases (overlaps_iff hpos).1 hover with rfl | hnext
          · exact hg
          · exact (good_copiedPage h hv hg (hover.lt hlen)).1 (hall v hnext)
        · intro hall v hnext
          have hover := (overlaps_iff hpos).2 (Or.inr hnext)
          exact (good_copiedPage h hv hg (hover.lt hlen)).2 (hall v hover)
    · refine ⟨-1, k.kmem.mem, fun null => ?_, Or.inr rfl, ⟨fun h0 => ?_, fun hall => ?_⟩,
        Replaced.stop hg hsrc⟩
      · refine copyoutWith_bad h hv hsrc hg (hw _ hfirst fun u hu hou => ?_)
        rcases (overlaps_iff hpos).1 hou with rfl | hnext
        · exact absurd hu (Nat.lt_irrefl _)
        · exact absurd (overlaps_next_le hnext) (by omega)
      · exact absurd h0 (by decide)
      · exact absurd (hall _ hfirst) hg

theorem copyoutWith_follows (h : Reach L k p d) (hlen : va + src.length ≤ 2 ^ 32)
    (hw : ¬Walked k.kmem.mem d va src.length) (hfuel : src.length ≤ fuel) {m : String} :
    copyoutWith L (.panic m) p (kva d) fuel va src k = .panic m := by
  have hsrc : src ≠ [] := by
    rintro rfl
    exact hw fun v hv => absurd hv.1 (Nat.lt_irrefl 0)
  have hpos := List.length_pos_iff.2 hsrc
  have hv : va / 4096 < 2 ^ 20 := by omega
  induction fuel generalizing k va src with
  | zero => omega
  | succ fuel ih =>
    by_cases htab : tab k.kmem.mem d (va / 4096 / 1024) = none
    · exact copyoutWith_no_table h hv hsrc htab
    · have hg : Good k.kmem.mem d (va / 4096) := by
        by_contra hg
        refine hw fun v hover hbefore => ?_
        rcases (overlaps_iff hpos).1 hover with rfl | hnext
        · exact htab
        · refine absurd (hbefore _ (overlaps_next_le hnext) ?_) hg
          exact (overlaps_iff hpos).2 (Or.inl rfl)
      have hw' := fun hw' => hw ((walked_copiedPage h hlen hsrc hg).1 hw')
      have hlt := hg.lt h.kern hv
      have hU : UPAGES = 524288 := rfl
      have hsrc' : src.drop (4096 - va % 4096) ≠ [] := by
        intro hnil
        refine hw' fun v hv => ?_
        rw [hnil] at hv
        exact absurd hv.1 (Nat.lt_irrefl 0)
      rw [copyoutWith_good h hv hsrc hg]
      refine ih (h.copiedPage hv hg) ?_ hw' ?_ hsrc' (List.length_pos_iff.2 hsrc') (by omega)
      · rw [List.length_drop]
        omega
      · rw [List.length_drop]
        omega

end Loop

theorem copyout_of_walked (h : Reach L k p d) (hlen : va + src.length ≤ 2 ^ 32)
    (hw : Walked k.kmem.mem d va src.length) : CopiesOut L k p d va src := by
  obtain ⟨r, m', hrun, hspec⟩ := copyoutWith_spec h hlen hw (Nat.le_refl _)
  have hcopy := (congrFun (copyoutFrom_eq p (kva d) src.length va src) k).trans (hrun _)
  exact ⟨r, m', hcopy, fun null => (hrun null).trans hcopy.symm, hspec⟩

end Xv6.Sys
