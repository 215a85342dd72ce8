import Xv6.Sys.ExecArgs
import Xv6.Sys.ExecFailure
import Xv6.Sys.Reach

/-!
# Who holds which page, over whole runs

No page has two roles in any state of a run, as long as `exec` looks no argument up in a missing
page table. A process that makes it do so can write entries of its own page table.
-/

namespace Xv6.Sys
open Lib Vm

variable {L : Link} {k k₀ k' : Kernel} {free free' : List ℕ} {p d g t f q v : ℕ} {es : List Event}
  {c : ℕ → UInt8}

section Roles

variable (L) in
/-- The pages of the kernel have one role each, and the user can reach no page of the kernel. -/
structure OneRole (k : Kernel) (free : List ℕ) : Prop where
  pool : Pool L k.kmem free
  exclusive : Exclusive ((ledger k free).holds k.kmem.mem)
  kernel : ∀ o d, dirOf k o = some d → ∀ v < 2 ^ 20, UPAGES ≤ v →
    user (pte k.kmem.mem d v) = false

theorem Inv.oneRole (h : Inv L k free) : OneRole L k free where
  pool := h.sound.pool
  exclusive := h.sound.exclusive
  kernel o d hd v hlt hge := by
    rw [h.sound.kern o d hd v hge hlt]
    exact kpte_not_user L v

/-- `kinit1` and `kinit2` put each page on the free list once, and in every state of a run each page
has one role at most. -/
theorem pages_have_one_role (m : Pages) :
    (∃ s free, (kinit1 L ⟨m, 0⟩).bind (fun r => kinit2 L r.2) = .ret ((), s) ∧ Pool L s free ∧
      ∀ q, q ∈ free ↔ L.Page q) ∧
    ∀ k₀ es k, Booted L k₀ → Runs (TabledStep L) k₀ es k → ∃ free, OneRole L k free := by
  refine ⟨kinit_spec m, fun k₀ es k hb hrun => ?_⟩
  obtain ⟨free, h⟩ := hb.inv hrun
  exact ⟨free, h.oneRole⟩

/-- A run of the first process: it asks for more memory. -/
theorem pages_have_one_role_sbrk : ∃ k₀ k free, Booted Link.sample k₀ ∧
    Runs (TabledStep Link.sample) k₀ [.sbrk 0 10000] k ∧ OneRole Link.sample k free := by
  obtain ⟨k₀, h⟩ := exists_booted Link.sample
  obtain ⟨k, -, hs, -⟩ := h.sbrk (n := 10000) (by decide) (by decide)
  have hrun : Runs (TabledStep Link.sample) k₀ [.sbrk 0 10000] k := .snoc (.nil k₀) ⟨trivial, hs⟩
  obtain ⟨free, hone⟩ := (pages_have_one_role (L := Link.sample) fun _ => Bytes.zero).2 k₀ _ k h hrun
  exact ⟨k₀, k, free, h, hrun, hone⟩

end Roles

section Fill

def filled (m : Pages) (g n : ℕ) (c : ℕ → UInt8) : Pages := fun q =>
  match (List.range n).find? fun v => frm m g v = some q with
  | some v => fun a => c (4096 * v + a)
  | none => m q

variable {m : Pages} {n : ℕ}

theorem filled_at (hinj : ∀ u < n, ∀ v < n, frm m g u = some q → frm m g v = some q → u = v)
    (hv : v < n) (hq : frm m g v = some q) (a : ℕ) : filled m g n c q a = c (4096 * v + a) := by
  unfold filled
  cases hfind : (List.range n).find? fun v => frm m g v = some q with
  | none =>
    rw [List.find?_eq_none] at hfind
    exact absurd (decide_eq_true hq) (hfind v (List.mem_range.2 hv))
  | some u =>
    have hu : frm m g u = some q := by simpa using List.find?_some hfind
    have hlt := List.mem_range.1 (List.mem_of_find?_eq_some hfind)
    rw [hinj u hlt v hv hu hq]

theorem filled_of_ne (h : ∀ v < n, frm m g v ≠ some q) : filled m g n c q = m q := by
  unfold filled
  have hnone : ((List.range n).find? fun v => frm m g v = some q) = none := by
    rw [List.find?_eq_none]
    intro v hv
    simpa using h v (List.mem_range.1 hv)
  rw [hnone]

theorem Inv.fill (h : Inv L k free) (ha : Active k p) (hdir : dirOf k (.proc p) = some g)
    (hcur : V2P (k.proc p).pgdir / PGSIZE = g) (hn : n ≤ UPAGES) (c : ℕ → UInt8) :
    Step L k (.user p (filled k.kmem.mem g n c))
        { k with kmem := { k.kmem with mem := filled k.kmem.mem g n c } } ∧
      ∀ v < n, ∀ q, frm k.kmem.mem g v = some q →
        ∀ a, filled k.kmem.mem g n c q a = c (4096 * v + a) := by
  have htree := h.sound.tree (o := .proc p) hdir
  refine ⟨⟨⟨ha, fun q hq => filled_of_ne fun v hv hf => ?_⟩, rfl⟩, fun v hv q hf a => ?_⟩
  · have hU : UPAGES = 524288 := rfl
    have hpage : 4096 * v / PGSIZE = v := Nat.mul_div_cancel_left v (by decide)
    have hpres := (frm_eq_some.1 hf).1
    refine hq (4096 * v) (by omega) ((userFrame_eq_some hcur).2 ?_)
    rw [hpage]
    exact ⟨⟨hpres, htree.user v (by omega) hpres⟩, hf⟩
  · refine filled_at (fun u hu w hw hfu hfw => ?_) hv hf a
    exact htree.frm_inj (by omega) (by omega) hfu hfw

end Fill

section Attack

def entryArg : List UInt8 := entries 1048578

theorem length_entryArg : entryArg.length = 0x400008 := length_entries _

def attack (t a : ℕ) : UInt8 :=
  if a < 4096 then Bytes.zero.write32 0 (userEntry t) a else (entryArg ++ [0]).getD (a - 4096) 0

structure Attacker (L : Link) (k : Kernel) (free : List ℕ) (g f t : ℕ) : Prop where
  inv : Inv L k free
  active : Active k 0
  dir : dirOf k (.proc 0) = some g
  rogue : Rogue L k free 0 g f t
  table : tab k.kmem.mem g 0 = some t
  string : StringAt k 0 4096 entryArg
  room : 67 ≤ free.length

theorem word_attack (m : Pages) (ht : t < 2 ^ 19) (hf : ∀ a, m f a = attack t (4096 * 0 + a)) :
    m.word f 0 = userEntry t := by
  have hread : m.word f 0 = (Bytes.zero.write32 0 (userEntry t)).read32 0 := by
    refine Bytes.read32_congr fun a _ ha => ?_
    rw [hf a, attack, if_pos (by omega), Nat.mul_zero, Nat.zero_add]
  rw [hread, Bytes.read32_write32, Nat.mod_eq_of_lt (userEntry_lt ht)]

theorem stringAt_of_bytes {str : List UInt8} {n : ℕ} (hv : V2P (k.proc p).pgdir / PGSIZE = g)
    (hn : 4096 * n < STACK_TOP) (hlen : 4096 + str.length < 4096 * n)
    (hfrm : ∀ v < n, ∃ q, Good k.kmem.mem g v ∧ frm k.kmem.mem g v = some q ∧
      ∀ a, k.kmem.mem q a = c (4096 * v + a))
    (hc : ∀ i ≤ str.length, c (4096 + i) = (str ++ [0]).getD i 0) : StringAt k p 4096 str := by
  refine ⟨by omega, fun i hi => ?_⟩
  obtain ⟨q, hgood, hq, hbyte⟩ := hfrm ((4096 + i) / PGSIZE) (by simp only [PGSIZE]; omega)
  refine ⟨q, (userFrame_eq_some hv).2 ⟨hgood, hq⟩, ?_⟩
  rw [hbyte, show PGSIZE = 4096 from rfl, Nat.div_add_mod, hc i hi]

theorem Booted.attacker (h : Booted L k₀) : ∃ es k free g f t, Runs (Step L) k₀ es k ∧
    Attacker L k free g f t := by
  obtain ⟨k₁, free, hs₁, h₁, ha₁, hspace₁, hlen⟩ := h.sbrk (n := 0x7ff000) (by decide) (by decide)
  obtain ⟨g, -, hpg, hdir, hv⟩ := h₁.dir ha₁.1 ha₁.hasSpace
  have hpages : pages (PGSIZE + 0x7ff000) = 2048 := rfl
  have hU : UPAGES = 524288 := rfl
  have hpres₁ : ∀ v < 2048, present (pte k₁.kmem.mem g v) = true := by
    intro v hlt
    have hin : v ∈ (spaceOf k₁ 0).mapped := by
      rw [hspace₁, hpages]
      exact hlt
    exact ((mem_mapped hv).1 hin).2
  obtain ⟨t, ht⟩ := exists_tab (hpres₁ 0 (by decide))
  have htree := h₁.sound.tree (o := .proc 0) hdir
  have htlt : t < 2 ^ 19 := page_lt (htree.page t (Inner.own (Or.inr ⟨0, by decide, ht⟩)))
  obtain ⟨hs₂, hbyte⟩ := h₁.fill ha₁ hdir hv (show 2048 ≤ UPAGES by decide) (attack t)
  generalize filled k₁.kmem.mem g 2048 (attack t) = m at hs₂ hbyte
  obtain ⟨h₂, -⟩ := h₁.user ha₁.1 ha₁.hasSpace hs₂.valid.2
  have honly := h₁.userOnly hdir hv hs₂.valid.2
  obtain ⟨-, -, hpte⟩ := honly.wf (h₁.sound.wf (o := .proc 0) hdir)
  obtain ⟨g', hc, hdir'⟩ := h₂.caller ha₁.1 ha₁.hasSpace
  obtain rfl : g = g' := Option.some.inj (hdir.symm.trans hdir')
  have hfrm : ∀ v < 2048, ∃ q, Good m g v ∧ frm m g v = some q ∧
      ∀ a, m q a = attack t (4096 * v + a) := by
    intro v hlt
    have hq := frm_eq_some.2 ⟨hpres₁ v hlt, rfl⟩
    have hsame : pte m g v = pte k₁.kmem.mem g v := hpte v (by omega)
    refine ⟨_, ?_, (frm_congr hsame).trans hq, hbyte v hlt _ hq⟩
    rw [Good, hsame]
    exact ⟨hpres₁ v hlt, htree.user v (by omega) (hpres₁ v hlt)⟩
  have hroot : m g = k₁.kmem.mem g :=
    honly.other g fun v hlt hf => htree.frm_not_inner hlt hf (Or.inl rfl)
  obtain ⟨f, -, hf, hfbyte⟩ := hfrm 0 (by decide)
  refine ⟨_, _, free, g, f, t, .snoc (.snoc (.nil k₀) hs₁) hs₂, h₂, ha₁, hdir',
    ⟨hc, hf, word_attack m htlt hfbyte, fun v hlt => ?_⟩, (tab_congr hroot).trans ht, ?_, by omega⟩
  · obtain ⟨q, hgood, -⟩ := hfrm v hlt
    exact hgood.1
  · refine stringAt_of_bytes hv (n := 2048) (by decide) (by rw [length_entryArg]; decide) hfrm
      fun i _ => ?_
    rw [attack, if_neg (by omega), Nat.add_sub_cancel_left]

theorem Attacker.exec (h : Attacker L k free g f t) : ∃ k', Step L k (.exec 0 bare [entryArg]) k' ∧
    dirOf k' (.proc 0) = some g ∧ ∀ i < 4, pte k'.kmem.mem g (1020 + i) = userEntry victim := by
  have hroom := h.room
  obtain ⟨front, y, u, rest, hfront, rfl⟩ : ∃ front y u rest,
      front.length = 65 ∧ free = front ++ y :: u :: rest := by
    obtain ⟨y, l, hl⟩ := List.exists_cons_of_length_pos (l := free.drop 65) (by
      rw [List.length_drop]
      omega)
    obtain ⟨u, rest, hrest⟩ := List.exists_cons_of_length_pos (l := l) (by
      have := congrArg List.length hl
      rw [List.length_drop, List.length_cons] at this
      omega)
    refine ⟨free.take 65, y, u, rest, by rw [List.length_take]; omega, ?_⟩
    rw [← hrest, ← hl, List.take_append_drop]
  have hsp : argSp STACK_TOP entryArg = 0x7fbffff0 := by
    rw [argSp, length_entryArg]
    decide
  obtain ⟨d, s₁, s₂, k₂, s₃, hsetup, halloc, hpush, hfree, hk₂, hpte⟩ :=
    pushAll_overwrites h.rogue h.table hfront hsp (by rw [length_entryArg]; decide)
  have hexec : Sys.exec L 0 bare [entryArg] k = .ret (-1, { k₂ with kmem := s₃ }) := by
    rw [exec_eq, Prog.bind_of_ret (onMem_of_ret (loadImage_bare hsetup halloc))]
    simp only
    rw [execArgs_eq, Prog.bind_of_ret hpush]
    simp only [execBad]
    rw [Prog.bind_of_ret (onMem_of_ret hfree)]
    rfl
  have htake : (entryArg ++ [0]).take 16 = entries 4 := by
    rw [entryArg, show 1048578 = 4 + 1048574 from rfl, entries_add, List.append_assoc]
    exact List.take_left' (length_entries 4)
  refine ⟨{ k₂ with kmem := s₃ }, ⟨⟨h.active, ?_⟩, ?_⟩, ?_, fun i hi => ?_⟩
  · intro str hstr
    rw [List.mem_singleton] at hstr
    subst hstr
    exact ⟨fun hz => entries_ne_zero _ 0 hz rfl, 4096, h.string⟩
  · simp only [Event.run]
    rw [Prog.bind_of_ret hexec]
    rfl
  · rw [hk₂]
    exact h.dir
  · rw [hpte _ (by omega), htake]
    exact word_patch s₂.mem (a := 1020) hi

/-- After a failed `exec` two pages of the process are in one frame. -/
theorem exec_shares_frame : ∃ k₀ es k g, Booted Link.sample k₀ ∧ Runs (Step Link.sample) k₀ es k ∧
    dirOf k (.proc 0) = some g ∧ frm k.kmem.mem g 1020 = some victim ∧
    frm k.kmem.mem g 1021 = some victim ∧ ∀ free, ¬OneRole Link.sample k free := by
  obtain ⟨k₀, h⟩ := exists_booted Link.sample
  obtain ⟨es, k, free, g, f, t, hrun, hattack⟩ := h.attacker
  obtain ⟨k', hstep, hdir, hpte⟩ := hattack.exec
  have hfrm : ∀ i < 4, frm k'.kmem.mem g (1020 + i) = some victim := by
    intro i hi
    refine frm_eq_some.2 ?_
    rw [hpte i hi]
    exact ⟨entry_present, entry_frame (by decide)⟩
  refine ⟨k₀, _, k', g, h, .snoc hrun hstep, hdir, hfrm 0 (by decide), hfrm 1 (by decide),
    fun free hone => ?_⟩
  have heq := hone.exclusive (a := .space (.proc 0) (.frame 1020)) (b := .space (.proc 0) (.frame 1021))
    (p := victim) ⟨g, hdir, by decide, hfrm 0 (by decide)⟩ ⟨g, hdir, by decide, hfrm 1 (by decide)⟩
  simp at heq

end Attack

end Xv6.Sys
