import Xv6.Sys.Copyout

/-!
# What `uva2ka` reads through the null pointer

For a missing page table `walkpgdir` answers the null pointer, and the entry `uva2ka` reads there
is the first word of the caller's memory. The caller can put the number of any page into it.
-/

namespace Xv6.Sys
open Lib Vm

variable {L : Link} {k : Kernel} {p d v f q va : ℕ} {src : List UInt8}

section Null

theorem touch_mapped (h : frm k.kmem.mem (V2P (k.proc p).pgdir / PGSIZE) (va / PGSIZE) = some f) :
    touch L p va false k = .ret (f, k) := by
  obtain ⟨hp, rfl⟩ := frm_eq_some.1 h
  have htr : translate k p va false =
      some (pte k.kmem.mem (V2P (k.proc p).pgdir / PGSIZE) (va / PGSIZE) / 4096) := by
    unfold translate
    rw [if_pos ⟨hp, fun hw => absurd hw Bool.false_ne_true⟩]
    rfl
  unfold touch
  rw [Prog.get_bind]
  simp only [htr]
  rfl

theorem readByte_mapped (h : frm k.kmem.mem (V2P (k.proc p).pgdir / PGSIZE) (va / PGSIZE) = some f) :
    readByte L p va k = .ret (k.kmem.mem f (va % PGSIZE), k) := by
  unfold readByte
  rw [Prog.bind_of_ret (touch_mapped h)]
  rfl

theorem readWord_null (h : frm k.kmem.mem (V2P (k.proc p).pgdir / PGSIZE) 0 = some f) :
    readWord L p 0 k = .ret (k.kmem.mem.word f 0, k) := by
  have hbyte : ∀ a < 4096, readByte L p a k = .ret (k.kmem.mem f a, k) := by
    intro a ha
    have hpage : a / PGSIZE = 0 := Nat.div_eq_of_lt ha
    have hoff : a % PGSIZE = a := Nat.mod_eq_of_lt ha
    have hread : readByte L p a k = .ret (k.kmem.mem f (a % PGSIZE), k) :=
      readByte_mapped (by rw [hpage]; exact h)
    rwa [hoff] at hread
  unfold readWord
  rw [Prog.bind_of_ret (hbyte 0 (by decide)), Prog.bind_of_ret (hbyte (0 + 1) (by decide)),
    Prog.bind_of_ret (hbyte (0 + 2) (by decide)), Prog.bind_of_ret (hbyte (0 + 3) (by decide))]
  rfl

def userEntry (q : ℕ) : ℕ := 4096 * q ||| (PTE_W ||| PTE_U) ||| PTE_P

theorem userEntry_lt (hq : q < 2 ^ 19) : userEntry q < 2 ^ 32 :=
  Nat.or_lt_two_pow (Nat.or_lt_two_pow (by omega) (by decide)) (by decide)

theorem P2V_userEntry (hq : q < 2 ^ 19) : P2V (PTE_ADDR (userEntry q)) = kva q := by
  have hframe : userEntry q / 4096 = q := entry_frame (by decide)
  rw [P2V_PTE_ADDR (by rw [hframe]; exact hq), hframe]

theorem uva2ka_word {w : ℕ} (hq : q < 2 ^ 19) (hw : w = userEntry q) :
    (if present w = false then pure 0 else if user w = false then pure 0
      else pure (P2V (PTE_ADDR w)) : Prog Kernel ℕ) k = .ret (kva q, k) := by
  subst hw
  have hp : present (userEntry q) = true := entry_present
  have hu : user (userEntry q) = true := entry_user (by decide)
  rw [if_neg (by rw [hp]; decide), if_neg (by rw [hu]; decide), P2V_userEntry hq]
  rfl

theorem uva2ka_null (hd : d < 2 ^ 19) (hv : v < 2 ^ 20)
    (ht : tab k.kmem.mem d (v / 1024) = none)
    (hf : frm k.kmem.mem (V2P (k.proc p).pgdir / PGSIZE) 0 = some f) (hq : q < 2 ^ 19)
    (hword : k.kmem.mem.word f 0 = userEntry q) :
    uva2ka L p (kva d) (4096 * v) k = .ret (kva q, k) := by
  have hdiv : 4096 * v / 4096 = v := Nat.mul_div_cancel_left v (by decide)
  have hwalk := walkpgdir_absent hd (show 4096 * v < 2 ^ 32 by omega) (by rw [hdiv]; exact ht)
  unfold uva2ka
  rw [Prog.bind_of_ret (onMem_of_ret hwalk), if_pos rfl, Prog.bind_of_ret (readWord_null hf)]
  exact uva2ka_word hq hword

theorem uva2ka_entry (hd : d < 2 ^ 19) (hv : v < 2 ^ 20) {t : ℕ}
    (ht : tab k.kmem.mem d (v / 1024) = some t) (htlt : t < 2 ^ 19) (hq : q < 2 ^ 19)
    (hpte : pte k.kmem.mem d v = userEntry q) :
    uva2ka L p (kva d) (4096 * v) k = .ret (kva q, k) := by
  have hdiv : 4096 * v / 4096 = v := Nat.mul_div_cancel_left v (by decide)
  have hwalk := walkpgdir_present hd htlt (show 4096 * v < 2 ^ 32 by omega)
    (by rw [hdiv]; exact ht) false
  rw [hdiv] at hwalk
  have hload : load (kva t + 4 * (v % 1024)) k.kmem = .ret (pte k.kmem.mem d v, k.kmem) := by
    rw [load_kva htlt (Nat.mod_lt v (by decide)), pte_of_tab ht]
  have hne : kva t + 4 * (v % 1024) ≠ 0 := by
    have := kva_ne_zero t
    omega
  unfold uva2ka
  rw [Prog.bind_of_ret (onMem_of_ret hwalk), if_neg hne, Prog.bind_of_ret (onMem_of_ret hload)]
  exact uva2ka_word hq hpte

theorem copyoutFrom_next {fuel : ℕ}
    (hcur : Kern L k.kmem.mem (V2P (k.proc p).pgdir / PGSIZE)) (hpage : L.Page q)
    (hsrc : src ≠ []) (hva : va / 4096 < 2 ^ 19)
    (hka : uva2ka L p (kva d) (4096 * (va / 4096)) k = .ret (kva q, k)) :
    copyoutFrom L p (kva d) (fuel + 1) va src k =
      copyoutFrom L p (kva d) fuel (4096 * (va / 4096 + 1)) (src.drop (4096 - va % 4096))
        { k with kmem := { k.kmem with
          mem := patch k.kmem.mem q (va % 4096) (src.take (4096 - va % 4096)) } } := by
  obtain ⟨b, bs, rfl⟩ := List.exists_cons_of_ne_nil hsrc
  have hoff : va - 4096 * (va / 4096) = va % 4096 := by omega
  rw [copyoutFrom, rounddown_eq, Prog.bind_of_ret hka, if_neg (kva_ne_zero _), hoff,
    Prog.bind_of_ret (writeBytes_page hcur hpage (Nat.mod_lt va (by decide)) _), add32_page hva]
  rfl

theorem exists_null (L : Link) : ∃ k d f, Reach L k 0 d ∧ L.Page f ∧
    (∀ i < UPAGES / 1024, tab k.kmem.mem d i = none) ∧
    frm k.kmem.mem (V2P (k.proc 0).pgdir / PGSIZE) 0 = some f ∧
    k.kmem.mem.word f 0 = userEntry f := by
  obtain ⟨s, free, g, hw, hk, hmap, hlen⟩ := exists_space L (by decide : pages 4096 ≤ 40000)
  generalize hrun : setupkvm L s = o
  have hsetup := setupkvm_spec hw.pool
  rw [hrun] at hsetup
  cases hsetup with
  | failed _ _ _ hlen' => omega
  | @built d s' free' hw' hk' hu' hc hm _ =>
    have htab := setupkvm_tables hw.pool hrun
    have hU : (0 : ℕ) < UPAGES := by decide
    obtain ⟨f, hf⟩ : ∃ f, frm s.mem g 0 = some f :=
      ⟨_, frm_eq_some.2 ⟨(hmap 0 hU).2 (Or.inl (by decide)), rfl⟩⟩
    have hown : Own s.mem g f := Tree.frm_own hU hf
    have hpage := hw.tree.page f hown
    have hnot : ¬Own s'.mem d f := fun ho =>
      hw.apart f ((hc f).1 (Or.inr ho)) hown
    let k : Kernel := { loaded s.mem with
      kmem := { s' with mem := s'.mem.setWord f 0 (userEntry f) }
      proc := fun _ => { noProc with pgdir := kva g } }
    have hcur : V2P (k.proc 0).pgdir / PGSIZE = g := V2P_kva_div hw.tree.dir.dir_lt
    have hg : ∀ q, Inner s.mem g q → k.kmem.mem q = s.mem q := by
      intro q hq
      refine (Pages.setWord_of_ne _ ?_).trans (hm q fun hin => hw.apart q hin hq.own)
      rintro rfl
      exact hw.tree.frm_not_inner hU hf hq
    have hd : ∀ q, Inner s'.mem d q → k.kmem.mem q = s'.mem q := by
      intro q hq
      refine Pages.setWord_of_ne _ ?_
      rintro rfl
      exact hnot hq.own
    obtain ⟨-, hpg, -, -⟩ := hw.tree.keep hg
    obtain ⟨htd, hpd, htree, -⟩ := hw'.tree.keep hd
    refine ⟨k, d, f, ⟨htree, ?_, ?_, ?_⟩, hpage, fun i hi => (htd i).trans (htab i hi), ?_, ?_⟩
    · intro v hge hlt
      exact (hpd v hlt).trans (hk' v hge hlt)
    · rw [hcur]
      intro v hge hlt
      exact (hpg v hlt).trans (hk v hge hlt)
    · intro v hv q hq
      rw [frm_congr (hpd v (hv.trans UPAGES_lt)), frm_eq_none.2 (hu' v hv)] at hq
      cases hq
    · rw [hcur, frm_congr (hpg 0 (by decide))]
      exact hf
    · exact Pages.word_setWord_self _ (userEntry_lt (page_lt hpage))

end Null

/-- `copyout` is total and exact where it follows no missing page table, and only there. -/
theorem copyout_exact_iff (h : Reach L k p d) (hlen : va + src.length ≤ 2 ^ 32) :
    CopiesOut L k p d va src ↔ Walked k.kmem.mem d va src.length := by
  constructor
  · rintro ⟨r, m', hrun, hnull, -⟩
    by_contra hw
    have hpanic := copyoutWith_follows (m := "null") h hlen hw (Nat.le_refl _)
    rw [hnull, hrun] at hpanic
    cases hpanic
  · exact copyout_of_walked h hlen

theorem copyout_exact_iff_null : ∃ k d,
    (CopiesOut Link.sample k 0 d 0 [1] ↔ Walked k.kmem.mem d 0 ([1] : List UInt8).length) := by
  obtain ⟨k, d, f, h, -⟩ := exists_null Link.sample
  exact ⟨k, d, copyout_exact_iff h (by decide)⟩

/-- The new directory has no page at all, and `copyout` answers 0: it has written the caller's
first page. -/
theorem copyout_to_missing_page : ∃ k d f k', Reach Link.sample k 0 d ∧
    frm k.kmem.mem d 0 = none ∧ frm k.kmem.mem (V2P (k.proc 0).pgdir / PGSIZE) 0 = some f ∧
    copyout Link.sample 0 (kva d) 0 [1] k = .ret (0, k') ∧ k'.kmem.mem f 0 = 1 ∧
    ¬CopiesOut Link.sample k 0 d 0 [1] := by
  obtain ⟨k, d, f, h, hpage, htab, hf, hword⟩ := exists_null Link.sample
  have hnone : tab k.kmem.mem d (0 / 1024) = none := htab 0 (by decide)
  have hfrm := frm_of_tab_none hnone
  have hka : uva2ka Link.sample 0 (kva d) (4096 * 0) k = .ret (kva f, k) :=
    uva2ka_null h.tree.dir.dir_lt (by decide) hnone hf (page_lt hpage) hword
  have hrun : copyout Link.sample 0 (kva d) 0 [1] k =
      .ret (0, { k with kmem := { k.kmem with mem := patch k.kmem.mem f 0 [1] } }) :=
    copyoutFrom_next h.cur hpage (by decide) (by decide) hka
  refine ⟨k, d, f, _, h, hfrm, hf, hrun, ?_, fun hc => ?_⟩
  · exact (patch_byte _).trans (if_pos (by decide))
  · obtain ⟨r, m', hrun', -, -, hzero, -⟩ := hc
    rw [hrun] at hrun'
    injection hrun' with hpair
    have hr : r = 0 := (congrArg Prod.fst hpair).symm
    have hgood := hzero.1 hr 0 ⟨by decide, by decide, by decide⟩
    rw [hgood.frm] at hfrm
    cases hfrm

end Xv6.Sys
