import Xv6.Sys.Copyout
import Xv6.Vm.Duplicate

/-!
# Loading a program

The header fields are arbitrary 32-bit numbers. Every page `loaduvm` is asked to fill has been
mapped by the `allocuvm` before it, a page is never mapped twice since what is mapped is always
`[0, sz)`, and there are too few pages for `sz` to reach the stack.
-/

namespace Xv6.Sys
open Lib Vm

variable {L : Link} {ip : Inode} {s s' s'' s₀ : Kmem} {free free' free₀ : List ℕ} {d v f a sz : ℕ}

def byteAt (m : Pages) (d a : ℕ) : Option UInt8 :=
  (frm m d (a / 4096)).map fun f => m f (a % 4096)

section Segments

def Proghdr.Covers (ph : Proghdr) (a : ℕ) : Prop := ph.vaddr ≤ a ∧ a < ph.vaddr + ph.filesz

instance (ph : Proghdr) (a : ℕ) : Decidable (ph.Covers a) := inferInstanceAs (Decidable (_ ∧ _))

def headers (ip : Inode) : ℕ → ℕ → List Proghdr
  | 0, _ => []
  | n + 1, off => proghdr ip off :: headers ip n (add32 off PROGHDR_SIZE)

def loads (phs : List Proghdr) : List Proghdr := phs.filter fun ph => ph.type = ELF_PROG_LOAD

def segments (ip : Inode) : List Proghdr :=
  loads (headers ip (elfhdr ip).phnum (elfhdr ip).phoff)

def top (phs : List Proghdr) : ℕ := phs.foldl (fun n ph => max n (ph.vaddr + ph.memsz)) 0

/-- The byte of the file that belongs at `a`: the last segment that covers `a` counts. -/
def image (ip : Inode) (phs : List Proghdr) (a : ℕ) : UInt8 :=
  match phs.reverse.find? fun ph => ph.Covers a with
  | some ph => ip.data (ph.off + (a - ph.vaddr))
  | none => 0

variable {phs : List Proghdr} {ph : Proghdr}

theorem top_append : top (phs ++ [ph]) = max (top phs) (ph.vaddr + ph.memsz) := by
  simp [top]

theorem le_top (h : ph ∈ phs) : ph.vaddr + ph.memsz ≤ top phs := by
  induction phs using List.reverseRecOn with
  | nil => cases h
  | append_singleton phs q ih =>
    rw [top_append]
    rcases List.mem_append.1 h with h | h
    · exact Nat.le_trans (ih h) (Nat.le_max_left _ _)
    · rw [List.mem_singleton.1 h]
      exact Nat.le_max_right _ _

theorem image_append : image ip (phs ++ [ph]) a =
    if ph.Covers a then ip.data (ph.off + (a - ph.vaddr)) else image ip phs a := by
  unfold image
  rw [List.reverse_append, List.reverse_singleton, List.singleton_append, List.find?_cons]
  by_cases hc : ph.Covers a
  · simp [hc]
  · simp [hc]

theorem image_eq_zero (h : ∀ ph ∈ phs, ¬ph.Covers a) : image ip phs a = 0 := by
  have hnone : phs.reverse.find? (fun ph => ph.Covers a) = none := by
    rw [List.find?_eq_none]
    intro ph hph
    simpa using h ph (List.mem_reverse.1 hph)
  rw [image, hnone]

end Segments

section Loaduvm

def startPut (s : Kmem) (f n : ℕ) (src : Bytes) : Kmem :=
  { s with mem := Function.update s.mem f fun a => if a < n then src a else s.mem f a }

theorem startPut_of_ne {n p : ℕ} {src : Bytes} (h : p ≠ f) :
    (startPut s f n src).mem p = s.mem p := Function.update_of_ne h _ _

theorem startPut_byte {n o : ℕ} {src : Bytes} :
    (startPut s f n src).mem f o = if o < n then src o else s.mem f o :=
  congrFun (Function.update_self f _ s.mem) o

theorem putBytes_page {n : ℕ} {src : Bytes} (hf : f < 2 ^ 19) :
    putBytes (kva f) n src s = .ret ((), startPut s f n src) := by
  have hmod : V2P (kva f) % PGSIZE = 0 := by
    rw [V2P_kva_zero hf]
    exact Nat.mul_mod_right 4096 f
  unfold putBytes
  rw [Prog.modify_apply, V2P_kva_div hf, hmod]
  simp [startPut]

structure UserOnly (d : ℕ) (s s' : Kmem) : Prop where
  freelist : s'.freelist = s.freelist
  other : ∀ p, (∀ v < UPAGES, frm s.mem d v ≠ some p) → s'.mem p = s.mem p

theorem UserOnly.refl : UserOnly d s s := ⟨rfl, fun _ _ => rfl⟩

theorem UserOnly.wf (h : UserOnly d s s') (hw : Wf L s free d) :
    Wf L s' free d ∧ Moved Set.univ d s free s' free ∧
      ∀ v < 2 ^ 20, pte s'.mem d v = pte s.mem d v :=
  hw.data h.freelist fun p hp => h.other p fun v hv => hp v hv trivial

theorem UserOnly.trans (hw : Wf L s free d) (h : UserOnly d s s') (h' : UserOnly d s' s'') :
    UserOnly d s s'' where
  freelist := h'.freelist.trans h.freelist
  other p hp := by
    refine (h'.other p fun v hv => ?_).trans (h.other p hp)
    rw [frm_congr ((h.wf hw).2.2 v (hv.trans UPAGES_lt))]
    exact hp v hv

def Filled (d a b : ℕ) (g : ℕ → UInt8) (m m' : Pages) : Prop :=
  ∀ v < UPAGES, ∀ f, frm m d v = some f → ∀ o < 4096, m' f o =
    if a ≤ 4096 * v + o ∧ 4096 * v + o < b then g (4096 * v + o) else m f o

theorem Filled.byteAt {b : ℕ} {g : ℕ → UInt8} {m m' : Pages} (h : Filled d a b g m m')
    {c : ℕ} (hc : c / 4096 < UPAGES) (hfrm : frm m' d (c / 4096) = frm m d (c / 4096)) :
    byteAt m' d c = (byteAt m d c).map fun x => if a ≤ c ∧ c < b then g c else x := by
  have hsplit : 4096 * (c / 4096) + c % 4096 = c := Nat.div_add_mod c 4096
  unfold Sys.byteAt
  rw [hfrm]
  cases hf : frm m d (c / 4096) with
  | none => rfl
  | some f =>
    have hbyte := h (c / 4096) hc f hf (c % 4096) (Nat.mod_lt _ (by decide))
    rw [hsplit] at hbyte
    exact congrArg some hbyte

variable {v₀ offset filesz : ℕ}

theorem readi_some {off n c : ℕ} (h : readi ip off n = some c) :
    off ≤ ip.size ∧ c = min n (ip.size - off) := by
  unfold readi at h
  split_ifs at h with hc
  exact ⟨Nat.not_lt.1 fun hlt => hc (Or.inl hlt), (Option.some.inj h).symm⟩

theorem loaduvmFrom_page {j t fuel : ℕ} (h : Wf L s free d) (hv : v₀ + j < UPAGES)
    (hj : 4096 * j < filesz) (ht : tab s.mem d ((v₀ + j) / 1024) = some t)
    (hlt : pte s.mem d (v₀ + j) / 4096 < 2 ^ 19) :
    loaduvmFrom (kva d) (4096 * v₀) ip offset filesz (fuel + 1) (4096 * j) s =
      match readi ip (add32 offset (4096 * j)) (min (filesz - 4096 * j) 4096) with
      | none => .ret (-1, s)
      | some c =>
        let s₁ := startPut s (pte s.mem d (v₀ + j) / 4096) c
          fun a => ip.data (add32 offset (4096 * j) + a)
        if c ≠ min (filesz - 4096 * j) 4096 then .ret (-1, s₁)
        else loaduvmFrom (kva d) (4096 * v₀) ip offset filesz fuel (4096 * (j + 1)) s₁ := by
  have hU : UPAGES = 524288 := rfl
  have haddr : add32 (4096 * v₀) (4096 * j) = 4096 * (v₀ + j) := by
    unfold add32
    omega
  have hdiv : 4096 * (v₀ + j) / 4096 = v₀ + j := Nat.mul_div_cancel_left _ (by decide)
  have hnext : add32 (4096 * j) PGSIZE = 4096 * (j + 1) := add32_page (by omega)
  have hwalk := walkpgdir_tab h.tree.dir (show 4096 * (v₀ + j) < 2 ^ 32 by omega)
    (by rw [hdiv]; exact ht) false
  rw [hdiv] at hwalk
  have hload : load (kva t + 4 * ((v₀ + j) % 1024)) s = .ret (pte s.mem d (v₀ + j), s) := by
    rw [load_kva (h.tree.dir.tab_lt (by omega) ht) (Nat.mod_lt _ (by decide)), pte_of_tab ht]
  have hne : kva t + 4 * ((v₀ + j) % 1024) ≠ 0 := by
    have := kva_ne_zero t
    omega
  have hmin : (if filesz - 4096 * j < PGSIZE then filesz - 4096 * j else PGSIZE) =
      min (filesz - 4096 * j) 4096 := by
    have hP : PGSIZE = 4096 := rfl
    split_ifs <;> omega
  rw [loaduvmFrom, if_pos hj, haddr, Prog.bind_of_ret hwalk, if_neg hne, Prog.bind_of_ret hload,
    hmin]
  cases readi ip (add32 offset (4096 * j)) (min (filesz - 4096 * j) 4096) with
  | none => rfl
  | some c =>
    simp only
    rw [P2V_PTE_ADDR hlt, Prog.bind_of_ret (putBytes_page hlt), hnext, Prog.ite_apply]
    rfl

theorem UserOnly.startPut {n : ℕ} {src : Bytes} (hv : v < UPAGES) (hf : frm s.mem d v = some f) :
    UserOnly d s (startPut s f n src) where
  freelist := rfl
  other _ hp := startPut_of_ne fun heq => hp v hv (heq ▸ hf)

theorem loaduvmFrom_spec {j fuel : ℕ} (h : Wf L s free d) (hsize : ip.size < 2 ^ 32)
    (hoff : offset < 2 ^ 32) (hend : 4096 * v₀ + filesz < KERNBASE)
    (hp : ∀ u, v₀ ≤ u → 4096 * u < 4096 * v₀ + filesz → present (pte s.mem d u) = true)
    (hread : 0 < j → 4096 * j < filesz → offset + 4096 * j ≤ ip.size) (hj : j ≤ pages filesz)
    (hfuel : pages filesz < j + fuel) :
    ∃ r s', loaduvmFrom (kva d) (4096 * v₀) ip offset filesz fuel (4096 * j) s = .ret (r, s') ∧
      UserOnly d s s' ∧ (r = 0 ∨ r = -1) ∧
      (r = 0 → Filled d (4096 * (v₀ + j)) (4096 * v₀ + filesz)
        (fun a => ip.data (offset + (a - 4096 * v₀))) s.mem s'.mem) := by
  have hK : KERNBASE = 2147483648 := rfl
  have hU : UPAGES = 524288 := rfl
  induction fuel generalizing j s with
  | zero => omega
  | succ fuel ih =>
    by_cases hlt : 4096 * j < filesz
    · have hv : v₀ + j < UPAGES := by omega
      have hpj := hp (v₀ + j) (Nat.le_add_right _ _) (by omega)
      have hfrm := frm_eq_some.2 ⟨hpj, rfl⟩
      obtain ⟨t, ht⟩ := exists_tab hpj
      have hlow : pte s.mem d (v₀ + j) / 4096 < 2 ^ 19 :=
        Nat.lt_trans (h.tree.page _ (Tree.frm_own hv hfrm)).lt (by decide)
      have hadd : add32 offset (4096 * j) = offset + 4096 * j := by
        unfold add32
        rcases Nat.eq_zero_or_pos j with rfl | hpos
        · exact Nat.mod_eq_of_lt hoff
        · exact Nat.mod_eq_of_lt (Nat.lt_of_le_of_lt (hread hpos hlt) hsize)
      rw [loaduvmFrom_page h hv hlt ht hlow, hadd]
      cases hc : readi ip (offset + 4096 * j) (min (filesz - 4096 * j) 4096) with
      | none => exact ⟨-1, s, rfl, UserOnly.refl, Or.inr rfl, fun h0 => absurd h0 (by decide)⟩
      | some c =>
        obtain ⟨hle, hmin⟩ := readi_some hc
        have honly : UserOnly d s (startPut s (pte s.mem d (v₀ + j) / 4096) c
          fun a => ip.data (offset + 4096 * j + a)) := .startPut hv hfrm
        generalize hs₁ : startPut s (pte s.mem d (v₀ + j) / 4096) c
          (fun a => ip.data (offset + 4096 * j + a)) = s₁ at honly
        simp only [hs₁]
        by_cases hshort : c ≠ min (filesz - 4096 * j) 4096
        · rw [if_pos hshort]
          exact ⟨-1, s₁, rfl, honly, Or.inr rfl, fun h0 => absurd h0 (by decide)⟩
        rw [if_neg hshort]
        have hfull : c = min (filesz - 4096 * j) 4096 := not_not.1 hshort
        obtain ⟨hw₁, -, hpte₁⟩ := honly.wf h
        obtain ⟨r, s', hrun, hrest, hr, hfill⟩ := ih (j := j + 1) hw₁
          (fun u hu hlt => by rw [hpte₁ u (by omega)]; exact hp u hu hlt)
          (fun _ _ => by omega) (by unfold pages; omega) (by omega)
        refine ⟨r, s', hrun, honly.trans h hrest, hr, fun h0 v hv f hf o ho => ?_⟩
        have hlater := hfill h0 v hv f (by rw [frm_congr (hpte₁ v (by omega))]; exact hf) o ho
        rw [hlater]
        by_cases heq : v = v₀ + j
        · subst heq
          rw [hfrm, Option.some.injEq] at hf
          subst hf
          rw [if_neg (by omega), ← hs₁, startPut_byte]
          refine if_congr (by omega) ?_ rfl
          rw [show offset + 4096 * j + o = offset + (4096 * (v₀ + j) + o - 4096 * v₀) by omega]
        · have hne : f ≠ pte s.mem d (v₀ + j) / 4096 := by
            rintro rfl
            exact heq (h.tree.frm_inj hv (by omega) hf hfrm)
          rw [← hs₁, startPut_of_ne hne]
          exact if_congr (by omega) rfl rfl
    · refine ⟨0, s, ?_, UserOnly.refl, Or.inl rfl, fun _ v hv f hf o ho => ?_⟩
      · rw [loaduvmFrom, if_neg hlt]
        rfl
      · rw [if_neg (by omega)]

theorem loaduvm_spec (h : Wf L s free d) (hsize : ip.size < 2 ^ 32) (hoff : offset < 2 ^ 32)
    (hend : 4096 * v₀ + filesz < KERNBASE)
    (hp : ∀ u, v₀ ≤ u → 4096 * u < 4096 * v₀ + filesz → present (pte s.mem d u) = true) :
    ∃ r s', loaduvm (kva d) (4096 * v₀) ip offset filesz s = .ret (r, s') ∧ UserOnly d s s' ∧
      (r = 0 ∨ r = -1) ∧ (r = 0 → Filled d (4096 * v₀) (4096 * v₀ + filesz)
        (fun a => ip.data (offset + (a - 4096 * v₀))) s.mem s'.mem) := by
  have haligned : 4096 * v₀ % PGSIZE = 0 := Nat.mul_mod_right _ _
  unfold loaduvm
  rw [if_neg (not_not.2 haligned)]
  have hfuel : pages filesz < 0 + allPages := by
    have hK : KERNBASE = 2147483648 := rfl
    unfold pages allPages
    omega
  exact loaduvmFrom_spec h hsize hoff hend hp (fun h0 => absurd h0 (Nat.lt_irrefl 0))
    (Nat.zero_le _) hfuel

end Loaduvm

section Loading

structure Fresh (L : Link) (s₀ : Kmem) (free₀ : List ℕ) (d : ℕ) (s : Kmem) (free : List ℕ) :
    Prop where
  wf : Wf L s free d
  kern : Kern L s.mem d
  conserve : ∀ p, (p ∈ free ∨ Own s.mem d p) ↔ p ∈ free₀
  other : ∀ p, p ∉ free₀ → s.mem p = s₀.mem p

theorem Fresh.moved {R : Set ℕ} (h : Fresh L s₀ free₀ d s free) (hw : Wf L s' free' d)
    (hm : Moved R d s free s' free') (hR : ∀ v ∈ R, v < UPAGES) :
    Fresh L s₀ free₀ d s' free' where
  wf := hw
  kern := h.kern.moved hm hR
  conserve p := (hm.conserve p).trans (h.conserve p)
  other p hp := by
    have hnot := fun hor => hp ((h.conserve p).1 hor)
    exact (hm.other (fun hin => hnot (Or.inl hin)) fun ho => hnot (Or.inr ho)).trans (h.other p hp)

theorem Fresh.userOnly (h : Fresh L s₀ free₀ d s free) (ho : UserOnly d s s') :
    Fresh L s₀ free₀ d s' free := by
  obtain ⟨hw, hm, hpte⟩ := ho.wf h.wf
  exact
    { wf := hw
      kern := fun v hge hlt => (hpte v hlt).trans (h.kern v hge hlt)
      conserve := fun p => (hm.conserve p).trans (h.conserve p)
      other := fun p hp => by
        have hnot := fun hor => hp ((h.conserve p).1 hor)
        exact (hm.other (fun hin => hnot (Or.inl hin)) fun ho => hnot (Or.inr ho)).trans
          (h.other p hp) }

structure Loading (L : Link) (ip : Inode) (s₀ : Kmem) (free₀ : List ℕ) (d : ℕ)
    (phs : List Proghdr) (s : Kmem) (free : List ℕ) : Prop where
  fresh : Fresh L s₀ free₀ d s free
  bound : top phs < KERNBASE
  fits : ∀ ph ∈ phs, ph.filesz ≤ ph.memsz
  mapped : ∀ v < UPAGES, present (pte s.mem d v) = true ↔ v < pages (top phs)
  byte : ∀ a < 4096 * pages (top phs), byteAt s.mem d a = some (image ip phs a)

variable {phs : List Proghdr} {ph : Proghdr}

theorem Loading.start (hw : Wf L s free d) (hk : Kern L s.mem d)
    (hu : ∀ v < UPAGES, present (pte s.mem d v) = false)
    (hc : ∀ p, (p ∈ free ∨ Own s.mem d p) ↔ p ∈ free₀)
    (hm : ∀ p, p ∉ free₀ → s.mem p = s₀.mem p) : Loading L ip s₀ free₀ d [] s free := by
  refine ⟨⟨hw, hk, hc, hm⟩, by decide, ?_, fun v hv => ?_, fun a ha => ?_⟩
  · intro ph hph
    cases hph
  · rw [hu v hv]
    exact iff_of_false Bool.false_ne_true (Nat.not_lt_zero v)
  · exact absurd ha (Nat.not_lt_zero a)

theorem Loading.image_zero (h : Loading L ip s₀ free₀ d phs s free)
    (ha : 4096 * pages (top phs) ≤ a) : image ip phs a = 0 := by
  refine image_eq_zero fun ph hph hc => ?_
  have hle := le_top hph
  have hfit := h.fits ph hph
  have hlt := hc.2
  unfold pages at ha
  omega

theorem byteAt_moved {R : Set ℕ} (hw : Wf L s free d) (hm : Moved R d s free s' free')
    (hv : a / 4096 < UPAGES) (hR : a / 4096 ∉ R) : byteAt s'.mem d a = byteAt s.mem d a := by
  unfold byteAt
  rw [frm_congr (hm.outside _ (hv.trans UPAGES_lt) hR)]
  cases hf : frm s.mem d (a / 4096) with
  | none => rfl
  | some f =>
    have hsame : s'.mem f = s.mem f :=
      hm.frame f (fun hin => hw.apart f hin (Tree.frm_own hv hf)) (hw.tree.frm_not_inner hv hf)
        fun u hu huR hfu => hR (hw.tree.frm_inj hu hv hfu hf ▸ huR)
    simp [hsame]

theorem byteAt_zeroed {m : Pages} (h : Zeroed m d (a / 4096)) : byteAt m d a = some 0 := by
  obtain ⟨f, hf, hz⟩ := h.frm
  unfold byteAt
  rw [hf, Option.map_some, hz]
  rfl

theorem Loading.alloc (h : Loading L ip s₀ free₀ d phs s free) (newsz : ℕ) :
    ∃ r s' free', allocuvm L (kva d) (top phs) newsz s = .ret (r, s') ∧
      Fresh L s₀ free₀ d s' free' ∧ (r ≠ 0 → r = max (top phs) newsz ∧ r < KERNBASE ∧
        (∀ v < UPAGES, present (pte s'.mem d v) = true ↔ v < pages r) ∧
        ∀ a < 4096 * pages r, byteAt s'.mem d a = some (image ip phs a)) := by
  have hK : KERNBASE = 2147483648 := rfl
  have hU : UPAGES = 524288 := rfl
  by_cases hbig : KERNBASE ≤ newsz
  · refine ⟨0, s, free, ?_, h.fresh, fun h0 => absurd rfl h0⟩
    rw [allocuvm, if_pos hbig]
    rfl
  have hbig : newsz < KERNBASE := Nat.not_le.1 hbig
  by_cases hless : newsz < top phs
  · refine ⟨top phs, s, free, ?_, h.fresh, fun _ => ⟨?_, h.bound, h.mapped, h.byte⟩⟩
    · rw [allocuvm, if_neg (Nat.not_le.2 hbig), if_pos hless]
      rfl
    · exact (Nat.max_eq_left hless.le).symm
  have hle : top phs ≤ newsz := Nat.not_lt.1 hless
  have hpages : pages newsz ≤ UPAGES := pages_le hbig.le
  have hR : ∀ v ∈ Set.Ico (pages (top phs)) (pages newsz), v < UPAGES :=
    fun v hv => Nat.lt_of_lt_of_le hv.2 hpages
  have hspec := allocuvm_spec h.fresh.wf hbig hle
  generalize hrun : allocuvm L (kva d) (top phs) newsz s = o at hspec
  cases hspec with
  | remap hu hp => exact absurd ((h.mapped _ (hR _ hu)).1 hp) (Nat.not_lt.2 hu.1)
  | failed hw hm habs hneed =>
    exact ⟨0, _, _, rfl, h.fresh.moved hw hm hR, fun h0 => absurd rfl h0⟩
  | @mapped s' free' hw hm hold hnew hneed =>
    have hmono : pages (top phs) ≤ pages newsz := by
      unfold pages
      omega
    refine ⟨newsz, s', free', rfl, h.fresh.moved hw hm hR, fun _ =>
      ⟨(Nat.max_eq_right hle).symm, hbig, fun v hv => ?_, fun a ha => ?_⟩⟩
    · by_cases hin : v ∈ Set.Ico (pages (top phs)) (pages newsz)
      · exact iff_of_true (hnew v hin).present hin.2
      · rw [hm.outside v (hv.trans UPAGES_lt) hin, h.mapped v hv]
        have hnot : ¬(pages (top phs) ≤ v ∧ v < pages newsz) := hin
        omega
    · by_cases hin : a / 4096 ∈ Set.Ico (pages (top phs)) (pages newsz)
      · have hge := hin.1
        rw [byteAt_zeroed (hnew _ hin), h.image_zero (by omega)]
      · have hnot : ¬(pages (top phs) ≤ a / 4096 ∧ a / 4096 < pages newsz) := hin
        rw [byteAt_moved h.fresh.wf hm (by omega) hin]
        exact h.byte a (by omega)

theorem Loading.load (hf : Fresh L s₀ free₀ d s free) (hbound : top phs < KERNBASE)
    (hfits : ∀ q ∈ phs, q.filesz ≤ q.memsz) (hfit : ph.filesz ≤ ph.memsz)
    (hend : ph.vaddr + ph.memsz < KERNBASE) (haligned : ph.vaddr % PGSIZE = 0)
    (hsize : ip.size < 2 ^ 32) (hoff : ph.off < 2 ^ 32)
    (hmapped : ∀ v < UPAGES, present (pte s.mem d v) = true ↔ v < pages (top (phs ++ [ph])))
    (hbyte : ∀ a < 4096 * pages (top (phs ++ [ph])), byteAt s.mem d a = some (image ip phs a)) :
    ∃ r s', loaduvm (kva d) ph.vaddr ip ph.off ph.filesz s = .ret (r, s') ∧
      Fresh L s₀ free₀ d s' free ∧ (r < 0 ∨ Loading L ip s₀ free₀ d (phs ++ [ph]) s' free) := by
  have hK : KERNBASE = 2147483648 := rfl
  have hU : UPAGES = 524288 := rfl
  obtain ⟨v₀, hv₀⟩ : ∃ v₀, ph.vaddr = 4096 * v₀ := Nat.dvd_of_mod_eq_zero haligned
  have htop : ph.vaddr + ph.memsz ≤ top (phs ++ [ph]) := le_top (by simp)
  have hbound' : top (phs ++ [ph]) < KERNBASE := by
    rw [top_append]
    omega
  have hpages : pages (top (phs ++ [ph])) ≤ UPAGES := pages_le hbound'.le
  have hpresent : ∀ u, v₀ ≤ u → 4096 * u < 4096 * v₀ + ph.filesz →
      present (pte s.mem d u) = true := by
    intro u _ hu
    rw [hmapped u (by omega)]
    unfold pages
    omega
  obtain ⟨r, s', hrun, honly, hr, hfill⟩ := loaduvm_spec hf.wf hsize hoff (by omega) hpresent
  rw [← hv₀] at hrun
  refine ⟨r, s', hrun, hf.userOnly honly, ?_⟩
  rcases hr with rfl | rfl
  · refine Or.inr ⟨hf.userOnly honly, hbound', fun q hq => ?_, fun v hv => ?_, fun a ha => ?_⟩
    · rcases List.mem_append.1 hq with hq | hq
      · exact hfits q hq
      · rw [List.mem_singleton.1 hq]
        exact hfit
    · rw [(honly.wf hf.wf).2.2 v (hv.trans UPAGES_lt)]
      exact hmapped v hv
    · have hlt : a / 4096 < UPAGES := by omega
      rw [(hfill rfl).byteAt hlt (frm_congr ((honly.wf hf.wf).2.2 _ (hlt.trans UPAGES_lt))),
        hbyte a ha, image_append, ← hv₀]
      rfl
  · exact Or.inl (by decide)

theorem proghdr_lt (ip : Inode) (off : ℕ) : (proghdr ip off).off < 2 ^ 32 ∧
    (proghdr ip off).vaddr < 2 ^ 32 ∧ (proghdr ip off).memsz < 2 ^ 32 :=
  ⟨Bytes.read32_lt _ _, Bytes.read32_lt _ _, Bytes.read32_lt _ _⟩

theorem loads_cons : loads (ph :: phs) =
    if ph.type = ELF_PROG_LOAD then ph :: loads phs else loads phs := by
  unfold loads
  rw [List.filter_cons]
  simp

theorem loadSegments_spec (hsize : ip.size < 2 ^ 32) (n off : ℕ)
    (h : Loading L ip s₀ free₀ d phs s free) :
    ∃ r s' free', loadSegments L (kva d) ip n off (top phs) s = .ret (r, s') ∧
      Fresh L s₀ free₀ d s' free' ∧ ∀ sz, r = some sz → sz = top (phs ++ loads (headers ip n off)) ∧
        Loading L ip s₀ free₀ d (phs ++ loads (headers ip n off)) s' free' := by
  have hstop : ∀ s' free', Fresh L s₀ free₀ d s' free' → ∀ phs',
      ∃ r s'' free'', (pure none : Prog Kmem (Option ℕ)) s' = .ret (r, s'') ∧
        Fresh L s₀ free₀ d s'' free'' ∧
        ∀ sz, r = some sz → sz = top phs' ∧ Loading L ip s₀ free₀ d phs' s'' free'' :=
    fun s' free' hf phs' => ⟨none, s', free', rfl, hf, fun sz hsz => by cases hsz⟩
  induction n generalizing off phs s free with
  | zero =>
    rw [headers, loads, List.filter_nil, List.append_nil]
    exact ⟨some (top phs), s, free, rfl, h.fresh, fun sz hsz => ⟨(Option.some.inj hsz).symm, h⟩⟩
  | succ n ih =>
    obtain ⟨hoff, hvaddr, hmemsz⟩ := proghdr_lt ip off
    rw [headers, loads_cons, loadSegments]
    by_cases hread : readi ip off PROGHDR_SIZE ≠ some PROGHDR_SIZE
    · rw [if_pos hread]
      exact hstop s free h.fresh _
    rw [if_neg hread]
    by_cases htype : (proghdr ip off).type ≠ ELF_PROG_LOAD
    · rw [if_pos htype, if_neg htype]
      exact ih _ h
    rw [if_neg htype, if_pos (not_not.1 htype)]
    by_cases hfit : (proghdr ip off).memsz < (proghdr ip off).filesz
    · rw [if_pos hfit]
      exact hstop s free h.fresh _
    rw [if_neg hfit]
    by_cases hwrap : add32 (proghdr ip off).vaddr (proghdr ip off).memsz < (proghdr ip off).vaddr
    · rw [if_pos hwrap]
      exact hstop s free h.fresh _
    rw [if_neg hwrap]
    have hend : add32 (proghdr ip off).vaddr (proghdr ip off).memsz =
        (proghdr ip off).vaddr + (proghdr ip off).memsz := by
      unfold add32 at hwrap ⊢
      omega
    obtain ⟨r, s₁, free₁, halloc, hf₁, hdone⟩ := h.alloc
      ((proghdr ip off).vaddr + (proghdr ip off).memsz)
    rw [hend, Prog.bind_of_ret halloc]
    by_cases hr : r = 0
    · rw [if_pos hr]
      exact hstop s₁ free₁ hf₁ _
    obtain ⟨hmax, hbound, hmapped, hbyte⟩ := hdone hr
    rw [← top_append] at hmax
    subst hmax
    rw [if_neg hr]
    by_cases haligned : (proghdr ip off).vaddr % PGSIZE ≠ 0
    · rw [if_pos haligned]
      exact hstop s₁ free₁ hf₁ _
    have hend' : (proghdr ip off).vaddr + (proghdr ip off).memsz < KERNBASE :=
      Nat.lt_of_le_of_lt (le_top (by simp)) hbound
    obtain ⟨q, s₂, hload, hf₂, hq⟩ := Loading.load hf₁ h.bound h.fits (Nat.not_lt.1 hfit) hend'
      (not_not.1 haligned) hsize hoff hmapped hbyte
    rw [if_neg haligned, Prog.bind_of_ret hload]
    by_cases hneg : q < 0
    · rw [if_pos hneg]
      exact hstop s₂ free₁ hf₂ _
    have hsplit : phs ++ proghdr ip off :: loads (headers ip n (add32 off PROGHDR_SIZE)) =
        (phs ++ [proghdr ip off]) ++ loads (headers ip n (add32 off PROGHDR_SIZE)) := by simp
    rw [if_neg hneg, hsplit]
    exact ih _ (hq.resolve_left hneg)

end Loading

section Image

variable (L)

/-- `exec` up to the arguments: the directory and the size, `none` for -1. -/
def loadImage (ip : Inode) : Prog Kmem (Option (ℕ × ℕ)) :=
  let elf := elfhdr ip
  if readi ip 0 ELFHDR_SIZE ≠ some ELFHDR_SIZE then return none
  else if elf.magic ≠ ELF_MAGIC then return none
  else do
    let pgdir ← setupkvm L
    if pgdir = 0 then return none
    else
      match ← loadSegments L pgdir ip elf.phnum elf.phoff 0 with
      | none => do
        freevm L pgdir
        return none
      | some sz => do
        let r ← allocuvm L pgdir (sub32 STACK_TOP PGSIZE) STACK_TOP
        if r = 0 then do
          freevm L pgdir
          return none
        else return some (pgdir, PGROUNDUP sz)

def execArgs (p : ℕ) (ip : Inode) (argv : List (List UInt8)) (pgdir sz : ℕ) : Prog Kernel ℤ := do
  match ← pushArgs L p pgdir argv STACK_TOP [] with
  | none => execBad L pgdir
  | some (sp, args) => do
    let argc := args.length
    let ustack := [0xffffffff, argc, sub32 sp ((argc + 1) * 4)] ++ args ++ [0]
    let sp := sub32 sp ((3 + argc + 1) * 4)
    let r ← copyout L p pgdir sp (ustack.flatMap wordBytes)
    if r < 0 then execBad L pgdir
    else execCommit L p pgdir sz (elfhdr ip).entry sp

theorem onMem_bind {α β : Type} (x : Prog Kmem α) (f : α → Prog Kmem β) :
    onMem (x >>= f) = onMem x >>= fun r => onMem (f r) := by
  funext k
  rw [onMem, Prog.bind_apply, Prog.bind_apply, onMem]
  cases x k.kmem with
  | ret r => rfl
  | panic m => rfl
  | hang => rfl

theorem exec_eq (p : ℕ) (ip : Inode) (argv : List (List UInt8)) :
    exec L p ip argv = onMem (loadImage L ip) >>= fun image =>
      match image with
      | none => pure (-1)
      | some (pgdir, sz) => execArgs L p ip argv pgdir sz := by
  unfold exec loadImage
  by_cases hread : readi ip 0 ELFHDR_SIZE ≠ some ELFHDR_SIZE
  · rw [if_pos hread, if_pos hread]
    rfl
  rw [if_neg hread, if_neg hread]
  by_cases hmagic : (elfhdr ip).magic ≠ ELF_MAGIC
  · rw [if_pos hmagic, if_pos hmagic]
    rfl
  rw [if_neg hmagic, if_neg hmagic, onMem_bind, Prog.bind_assoc]
  congr 1
  funext pgdir
  by_cases hpgdir : pgdir = 0
  · rw [if_pos hpgdir, if_pos hpgdir]
    rfl
  rw [if_neg hpgdir, if_neg hpgdir, onMem_bind, Prog.bind_assoc]
  congr 1
  funext loaded
  cases loaded with
  | none =>
    simp only
    rw [onMem_bind, Prog.bind_assoc]
    rfl
  | some sz =>
    simp only
    rw [onMem_bind, Prog.bind_assoc]
    congr 1
    funext r
    by_cases hr : r = 0
    · rw [if_pos hr, if_pos hr, onMem_bind, Prog.bind_assoc]
      rfl
    · rw [if_neg hr, if_neg hr]
      rfl

variable {L}

structure Image (L : Link) (ip : Inode) (s₀ : Kmem) (free₀ : List ℕ) (d sz : ℕ) (s : Kmem)
    (free : List ℕ) : Prop where
  fresh : Fresh L s₀ free₀ d s free
  size : sz = 4096 * pages (top (segments ip))
  room : pages sz < UPAGES - 1
  mapped : Mapped s.mem d sz 1
  byte : ∀ a < sz, byteAt s.mem d a = some (image ip (segments ip) a)
  stack : ∀ a, a / 4096 = UPAGES - 1 → byteAt s.mem d a = some 0

def Untouched (L : Link) (s : Kmem) (free : List ℕ) (s' : Kmem) : Prop :=
  ∃ free', Pool L s' free' ∧ (∀ p, p ∈ free' ↔ p ∈ free) ∧ ∀ p, p ∉ free → s'.mem p = s.mem p

theorem Fresh.freevm (h : Fresh L s₀ free₀ d s free) :
    ∃ s', freevm L (kva d) s = .ret ((), s') ∧ Untouched L s₀ free₀ s' := by
  obtain ⟨s', free', hrun, hp, hmem, hother⟩ := freevm_spec h.wf
  refine ⟨s', hrun, free', hp, fun p => (hmem p).trans (h.conserve p), fun p hp => ?_⟩
  have hnot := fun hor => hp ((h.conserve p).1 hor)
  exact (hother p (fun hin => hnot (Or.inl hin)) fun ho => hnot (Or.inr ho)).trans (h.other p hp)

theorem Loading.room {phs : List Proghdr} (h : Loading L ip s₀ free₀ d phs s free) :
    pages (top phs) ≤ 57344 := by
  have hle := pages_le h.bound.le
  have hcard := h.fresh.wf.tree.card_le (A := Finset.range (pages (top phs)))
    (fun v hv => Nat.lt_of_lt_of_le (Finset.mem_range.1 hv) hle)
    fun v hv => (h.mapped v (Nat.lt_of_lt_of_le (Finset.mem_range.1 hv) hle)).2
      (Finset.mem_range.1 hv)
  rwa [Finset.card_range] at hcard

theorem Loading.stack (h : Loading L ip s₀ free₀ d (segments ip) s free) :
    ∃ r s' free', allocuvm L (kva d) (sub32 STACK_TOP PGSIZE) STACK_TOP s = .ret (r, s') ∧
      Fresh L s₀ free₀ d s' free' ∧
      (r ≠ 0 → Image L ip s₀ free₀ d (PGROUNDUP (top (segments ip))) s' free') := by
  have hold : pages (sub32 STACK_TOP PGSIZE) = UPAGES - 1 := by decide
  have hnew : pages STACK_TOP = UPAGES := by decide
  have hU : UPAGES = 524288 := rfl
  have hroom := h.room
  have hR : ∀ v ∈ Set.Ico (UPAGES - 1) UPAGES, v < UPAGES := fun v hv => hv.2
  have hspec := allocuvm_spec h.fresh.wf (show STACK_TOP < KERNBASE by decide)
    (show sub32 STACK_TOP PGSIZE ≤ STACK_TOP by decide)
  generalize hrun : allocuvm L (kva d) (sub32 STACK_TOP PGSIZE) STACK_TOP s = o at hspec
  rw [hold, hnew] at hspec
  cases hspec with
  | @remap u hu hp =>
    have hlt := (h.mapped u hu.2).1 hp
    have hge := hu.1
    omega
  | failed hw hm _ _ => exact ⟨0, _, _, rfl, h.fresh.moved hw hm hR, fun h0 => absurd rfl h0⟩
  | @mapped s' free' hw hm _ hz _ =>
    have hsize : PGROUNDUP (top (segments ip)) = 4096 * pages (top (segments ip)) :=
      PGROUNDUP_eq h.bound
    have hpages : pages (4096 * pages (top (segments ip))) = pages (top (segments ip)) := by
      unfold pages
      omega
    refine ⟨_, s', free', rfl, h.fresh.moved hw hm hR, fun _ => ?_⟩
    rw [hsize]
    refine ⟨h.fresh.moved hw hm hR, rfl, by omega, fun v hv => ?_, fun a ha => ?_, fun a ha => ?_⟩
    · rw [hpages]
      by_cases hin : UPAGES - 1 ≤ v
      · exact iff_of_true (hz v ⟨hin, hv⟩).present (Or.inr hin)
      · rw [hm.outside v (hv.trans UPAGES_lt) fun hmem => hin hmem.1, h.mapped v hv]
        exact (or_iff_left hin).symm
    · rw [byteAt_moved h.fresh.wf hm (by omega) fun hmem => ?_]
      · exact h.byte a ha
      · have hge := hmem.1
        omega
    · exact byteAt_zeroed (hz _ ⟨ha.ge, by omega⟩)

theorem loadImage_spec (h : Pool L s free) (hsize : ip.size < 2 ^ 32) :
    ∃ r s', loadImage L ip s = .ret (r, s') ∧
      (r = none → Untouched L s free s') ∧
      ∀ pgdir sz, r = some (pgdir, sz) → ∃ d free', pgdir = kva d ∧
        Image L ip s free d sz s' free' := by
  have hnone : ∀ s', Untouched L s free s' → ∃ r s'',
      (pure none : Prog Kmem (Option (ℕ × ℕ))) s' = .ret (r, s'') ∧
        (r = none → Untouched L s free s'') ∧
        ∀ pgdir sz, r = some (pgdir, sz) → ∃ d free', pgdir = kva d ∧
          Image L ip s free d sz s'' free' :=
    fun s' hs' => ⟨none, s', rfl, fun _ => hs', fun _ _ hsome => by cases hsome⟩
  have hsame : Untouched L s free s := ⟨free, h, fun _ => Iff.rfl, fun _ _ => rfl⟩
  have hbad : ∀ {d s₁ free₁}, Fresh L s free d s₁ free₁ → ∃ r s'',
      (do freevm L (kva d); pure none : Prog Kmem (Option (ℕ × ℕ))) s₁ = .ret (r, s'') ∧
        (r = none → Untouched L s free s'') ∧
        ∀ pgdir sz, r = some (pgdir, sz) → ∃ d free', pgdir = kva d ∧
          Image L ip s free d sz s'' free' := by
    intro d s₁ free₁ hf
    obtain ⟨s'', hrun, hs''⟩ := hf.freevm
    rw [Prog.bind_of_ret hrun]
    exact hnone s'' hs''
  unfold loadImage
  by_cases hread : readi ip 0 ELFHDR_SIZE ≠ some ELFHDR_SIZE
  · rw [if_pos hread]
    exact hnone s hsame
  rw [if_neg hread]
  by_cases hmagic : (elfhdr ip).magic ≠ ELF_MAGIC
  · rw [if_pos hmagic]
    exact hnone s hsame
  rw [if_neg hmagic]
  generalize hsetup : setupkvm L s = o
  have hspec := setupkvm_spec h
  rw [hsetup] at hspec
  cases hspec with
  | @failed s₁ free₁ hp hc hm _ =>
    rw [Prog.bind_of_ret hsetup, if_pos rfl]
    exact hnone s₁ ⟨free₁, hp, hc, hm⟩
  | @built d s₁ free₁ hw hk hu hc hm _ =>
    rw [Prog.bind_of_ret hsetup, if_neg (kva_ne_zero d)]
    have hstart : Loading L ip s free d [] s₁ free₁ := .start hw hk hu hc hm
    obtain ⟨r, s₂, free₂, hload, hf₂, hr⟩ :=
      loadSegments_spec hsize (elfhdr ip).phnum (elfhdr ip).phoff hstart
    rw [show top [] = 0 from rfl] at hload
    rw [Prog.bind_of_ret hload]
    cases r with
    | none => exact hbad hf₂
    | some sz =>
      obtain ⟨hsz, hl⟩ := hr sz rfl
      rw [List.nil_append] at hsz hl
      obtain ⟨q, s₃, free₃, halloc, hf₃, hq⟩ := Loading.stack hl
      simp only
      rw [Prog.bind_of_ret halloc]
      by_cases hq0 : q = 0
      · rw [if_pos hq0]
        exact hbad hf₃
      · rw [if_neg hq0]
        refine ⟨_, s₃, rfl, (fun h0 => by cases h0), fun pgdir sz' hsome => ?_⟩
        cases hsome
        exact ⟨d, free₃, rfl, hsz ▸ hq hq0⟩

theorem Image.good_iff (h : Image L ip s₀ free₀ d sz s free) (hv : v < 2 ^ 20) :
    Good s.mem d v ↔ v < pages sz ∨ v = UPAGES - 1 := by
  have hroom := h.room
  by_cases hlt : v < UPAGES
  · have hmap := h.mapped v hlt
    rw [show v = UPAGES - 1 ↔ UPAGES - 1 ≤ v by omega, ← hmap]
    exact ⟨fun hg => hg.1, fun hp => ⟨hp, h.fresh.wf.tree.user v hlt hp⟩⟩
  · refine iff_of_false (fun hg => ?_) (by omega)
    have hu := hg.2
    rw [h.fresh.kern v (Nat.not_lt.1 hlt) hv, kpte_not_user] at hu
    cases hu

/-- Loading never panics and always ends; what it leaves is the image of the file. -/
theorem exec_loads (h : Pool L s free) (hsize : ip.size < 2 ^ 32) :
    (∀ p argv, exec L p ip argv = onMem (loadImage L ip) >>= fun image =>
      match image with
      | none => pure (-1)
      | some (pgdir, sz) => execArgs L p ip argv pgdir sz) ∧
    ∃ r s', loadImage L ip s = .ret (r, s') ∧ ∀ pgdir sz, r = some (pgdir, sz) →
      ∃ d, pgdir = kva d ∧ sz = 4096 * pages (top (segments ip)) ∧
        (∀ v < 2 ^ 20, Good s'.mem d v ↔ v < pages sz ∨ v = UPAGES - 1) ∧
        ∀ a < sz, byteAt s'.mem d a = some (image ip (segments ip) a) := by
  refine ⟨fun p argv => exec_eq L p ip argv, ?_⟩
  obtain ⟨r, s', hrun, -, hsome⟩ := loadImage_spec h hsize
  refine ⟨r, s', hrun, fun pgdir sz hr => ?_⟩
  obtain ⟨d, free', hd, himage⟩ := hsome pgdir sz hr
  exact ⟨d, hd, himage.size, fun v hv => himage.good_iff hv, himage.byte⟩

def fourBytes : Inode where
  size := 88
  data := (((((((Bytes.zero.write32 0 ELF_MAGIC).write32 28 52).write16 44 1).write32 52 1).write32
    56 84).write32 68 4).write32 72 5000).write32 84 0x1234

theorem exec_loads_fourBytes : top (segments fourBytes) = 5000 ∧ ∃ s r s',
    loadImage Link.sample fourBytes s = .ret (r, s') ∧ ∀ pgdir sz, r = some (pgdir, sz) →
      ∃ d, pgdir = kva d ∧ sz = 8192 := by
  have htop : top (segments fourBytes) = 5000 := by decide
  obtain ⟨s, free, g, hw, -, -, -⟩ := exists_space Link.sample (by decide : pages 0 ≤ 40000)
  obtain ⟨-, r, s', hrun, hsome⟩ := exec_loads hw.pool (show fourBytes.size < 2 ^ 32 by decide)
  refine ⟨htop, s, r, s', hrun, fun pgdir sz hr => ?_⟩
  obtain ⟨d, hd, hsz, -⟩ := hsome pgdir sz hr
  rw [htop] at hsz
  exact ⟨d, hd, hsz⟩

end Image

end Xv6.Sys
