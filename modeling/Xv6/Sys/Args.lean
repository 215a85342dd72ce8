import Xv6.Sys.Loader

/-!
# The arguments of `exec`

The strings and the block of pointers go to the stack page, downwards from `STACK_TOP`. Nothing
checks that they fit: the copy that leaves the page finds a page that is not there.
-/

namespace Xv6.Sys
open Lib Vm

variable {L : Link} {ip : Inode} {k k' : Kernel} {s s₀ : Kmem} {free free₀ : List ℕ}
  {p d g v a va sp P : ℕ} {src : List UInt8} {argv : List (List UInt8)}

section Copy

theorem Fresh.beside (h : Fresh L s₀ free₀ d s free) (hg : Wf L s₀ free₀ g) :
    ∀ q, Own s₀.mem g q → s.mem q = s₀.mem q :=
  fun q hq => h.other q fun hin => hg.apart q hin hq

theorem Fresh.reach (h : Fresh L s₀ free₀ d k.kmem free) (hg : Wf L s₀ free₀ g)
    (hkern : Kern L s₀.mem g) (hp : (k.proc p).pgdir = kva g) : Reach L k p d := by
  have hcur : V2P (k.proc p).pgdir / PGSIZE = g := by
    rw [hp]
    exact V2P_kva_div hg.dir_lt
  obtain ⟨-, hpte, -, hown⟩ := hg.tree.keep fun q hq => h.beside hg q hq.own
  refine ⟨h.wf.tree, h.kern, ?_, ?_⟩
  · rw [hcur]
    intro v hge hlt
    exact (hpte v hlt).trans (hkern v hge hlt)
  · rw [hcur]
    intro v hv f hf hi
    have hin : f ∈ free₀ := (h.conserve f).1 (Or.inr (Tree.frm_own hv hf))
    exact hg.apart f hin ((hown f).1 hi.own)

theorem Replaced.userOnly (h : Reach L k p d) (hlen : va + src.length ≤ 2 ^ 32) {m' : Pages}
    (hr : Replaced k.kmem.mem d va src m') : UserOnly d k.kmem { k.kmem with mem := m' } where
  freelist := rfl
  other f hf := by
    refine hr.2 f fun v hover hto => hf v ?_
    exact (hto v (Nat.le_refl v) hover).lt h.kern (hover.lt hlen)

theorem overlaps_of_mem {len : ℕ} (h : va ≤ a ∧ a < va + len) : Overlaps va len (a / 4096) := by
  unfold Overlaps
  omega

theorem Replaced.byteAt (h : Reach L k p d) (hlen : va + src.length ≤ 2 ^ 32) {m' : Pages}
    (hr : Replaced k.kmem.mem d va src m')
    (hall : ∀ v, Overlaps va src.length v → Good k.kmem.mem d v) (ha : a / 4096 < UPAGES)
    {free : List ℕ} (hw : Wf L k.kmem free d) :
    byteAt m' d a =
      if va ≤ a ∧ a < va + src.length then src[a - va]? else byteAt k.kmem.mem d a := by
  have hpte : pte m' d (a / 4096) = pte k.kmem.mem d (a / 4096) :=
    ((Replaced.userOnly h hlen hr).wf hw).2.2 _ (ha.trans UPAGES_lt)
  have hsplit : 4096 * (a / 4096) + a % 4096 = a := Nat.div_add_mod a 4096
  have hmod : a % 4096 < 4096 := Nat.mod_lt a (by decide)
  unfold Sys.byteAt
  rw [frm_congr hpte]
  by_cases hover : Overlaps va src.length (a / 4096)
  · have hbyte := hr.1 _ _ hmod hover (fun u _ hu => hall u hu) _ (hall _ hover).frm
    rw [hsplit] at hbyte
    rw [(hall _ hover).frm, Option.map_some, Option.map_some, hbyte]
    by_cases hin : va ≤ a ∧ a < va + src.length
    · rw [if_pos hin, if_pos hin, List.getD_eq_getElem?_getD, List.getElem?_eq_getElem (by omega)]
      rfl
    · rw [if_neg hin, if_neg hin]
  · rw [if_neg fun hin => hover (overlaps_of_mem hin)]
    cases hf : frm k.kmem.mem d (a / 4096) with
    | none => rfl
    | some f =>
      have hsame : m' f = k.kmem.mem f := by
        refine hr.2 f fun u hu hto hfu => ?_
        have hlt := (hall u hu).lt h.kern (hu.lt hlen)
        exact hover (h.tree.frm_inj hlt ha hfu hf ▸ hu)
      rw [Option.map_some, Option.map_some, hsame]

end Copy

section Page

def stackBase : ℕ := 4096 * (UPAGES - 1)

structure Ready (L : Link) (s₀ : Kmem) (free₀ : List ℕ) (d P : ℕ) (s : Kmem) (free : List ℕ) :
    Prop where
  fresh : Fresh L s₀ free₀ d s free
  good : ∀ v < 2 ^ 20, Good s.mem d v ↔ v < P ∨ v = UPAGES - 1
  room : P < UPAGES - 1

/-- With `v` for the first page of `[va, stackBase)` that is not there, `v` has a page table. -/
def Tabled (P va : ℕ) : Prop :=
  511 * 1024 ≤ max (va / 4096) P ∨ max (va / 4096) P / 1024 * 1024 < P

variable (hready : Ready L s₀ free₀ d P k.kmem free) (hreach : Reach L k p d)
include hready hreach

theorem Ready.replaced {m' : Pages} (hlen : va + src.length ≤ 2 ^ 32)
    (hr : Replaced k.kmem.mem d va src m') :
    Ready L s₀ free₀ d P { k.kmem with mem := m' } free where
  fresh := hready.fresh.userOnly (hr.userOnly hreach hlen)
  good v hv := by
    have hpte := ((hr.userOnly hreach hlen).wf hready.fresh.wf).2.2 v hv
    rw [← hready.good v hv]
    unfold Good
    rw [hpte]
  room := hready.room

omit hreach in
theorem Ready.table {u : ℕ} (hu : u < 2 ^ 20) (hgood : u < P ∨ u = UPAGES - 1)
    (heq : u / 1024 = v / 1024) : tab k.kmem.mem d (v / 1024) ≠ none := by
  intro hnone
  have hp := ((hready.good u hu).2 hgood).1
  rw [pte_of_tab_none (heq ▸ hnone)] at hp
  cases hp

theorem Ready.copy_inside (hlo : stackBase ≤ va) (hhi : va + src.length ≤ KERNBASE) :
    ∃ m', copyout L p (kva d) va src k = .ret (0, { k with kmem := { k.kmem with mem := m' } }) ∧
      Ready L s₀ free₀ d P { k.kmem with mem := m' } free ∧
      ∀ a, a / 4096 < UPAGES → byteAt m' d a =
        if va ≤ a ∧ a < va + src.length then src[a - va]? else byteAt k.kmem.mem d a := by
  have hK : KERNBASE = 2147483648 := rfl
  have hU : UPAGES = 524288 := rfl
  have hlen : va + src.length ≤ 2 ^ 32 := by omega
  have hall : ∀ v, Overlaps va src.length v → Good k.kmem.mem d v := by
    intro v hv
    refine (hready.good v (hv.lt hlen)).2 (Or.inr ?_)
    unfold Overlaps at hv
    unfold stackBase at hlo
    omega
  have hw : Walked k.kmem.mem d va src.length := fun v hv _ =>
    hready.table (hv.lt hlen) ((hready.good v (hv.lt hlen)).1 (hall v hv)) rfl
  obtain ⟨r, m', hrun, -, -, hzero, hr⟩ := copyout_of_walked hreach hlen hw
  obtain rfl := hzero.2 hall
  exact ⟨m', hrun, hready.replaced hreach hlen hr, fun a ha =>
    hr.byteAt hreach hlen hall ha hready.fresh.wf⟩

theorem Ready.copy_outside (hlo : va < stackBase) (hpos : 0 < src.length)
    (hend : stackBase ≤ va + src.length + 3) (hhi : va + src.length ≤ KERNBASE)
    (htab : Tabled P va) :
    ∃ m', copyout L p (kva d) va src k = .ret (-1, { k with kmem := { k.kmem with mem := m' } }) ∧
      Ready L s₀ free₀ d P { k.kmem with mem := m' } free := by
  have hK : KERNBASE = 2147483648 := rfl
  have hU : UPAGES = 524288 := rfl
  have hroom := hready.room
  unfold stackBase at hlo hend
  have hlen : va + src.length ≤ 2 ^ 32 := by omega
  -- the first page of the range that is not there
  have hmissing : Overlaps va src.length (max (va / 4096) P) := by
    unfold Overlaps
    omega
  have hbad : ¬Good k.kmem.mem d (max (va / 4096) P) := by
    rw [hready.good _ (hmissing.lt hlen)]
    omega
  have hw : Walked k.kmem.mem d va src.length := by
    intro v hv hbefore
    by_cases hgood : v < P ∨ v = UPAGES - 1
    · exact hready.table (hv.lt hlen) hgood rfl
    have hle : v ≤ max (va / 4096) P := by
      by_contra hgt
      exact hbad (hbefore _ (by omega) hmissing)
    have hfirst : va / 4096 ≤ v := by
      unfold Overlaps at hv
      omega
    have heq : v = max (va / 4096) P := by omega
    rcases htab with hstack | hheap
    · have hlast : UPAGES - 1 < 2 ^ 20 := by omega
      exact hready.table hlast (Or.inr rfl) (by omega)
    · rw [← heq] at hheap
      have hlt : v / 1024 * 1024 < 2 ^ 20 := by omega
      exact hready.table hlt (Or.inl hheap) (by omega)
  obtain ⟨r, m', hrun, -, hr, hzero, hrep⟩ := copyout_of_walked hreach hlen hw
  have hne : r ≠ 0 := fun h0 => hbad (hzero.1 h0 _ hmissing)
  obtain rfl := hr.resolve_left hne
  exact ⟨m', hrun, hready.replaced hreach hlen hrep⟩

end Page

section Push

def Holds (m : Pages) (d a : ℕ) (bytes : List UInt8) : Prop :=
  ∀ j < bytes.length, byteAt m d (a + j) = bytes[j]?

structure Pushed (m : Pages) (d sp : ℕ) (xs : List (List UInt8 × ℕ)) : Prop where
  low : stackBase ≤ sp
  high : sp ≤ STACK_TOP
  aligned : sp % 4 = 0
  holds : ∀ x ∈ xs, Holds m d x.2 (x.1 ++ [0])
  inside : ∀ x ∈ xs, sp ≤ x.2 ∧ x.2 + x.1.length + 1 ≤ STACK_TOP
  apart : xs.Pairwise fun x y => y.2 + y.1.length + 1 ≤ x.2

def argSp (sp : ℕ) (str : List UInt8) : ℕ := sub32 sp ((str.length + 1) % 2 ^ 32) / 4 * 4

def ArgsTabled (P : ℕ) : ℕ → List (List UInt8) → Prop
  | _, [] => True
  | sp, str :: argv =>
    if stackBase ≤ argSp sp str then ArgsTabled P (argSp sp str) argv else Tabled P (argSp sp str)

variable {m m' : Pages} {xs : List (List UInt8 × ℕ)} {str : List UInt8}

theorem argSp_eq (hlo : stackBase ≤ sp) (hhi : sp ≤ STACK_TOP) (hstr : str.length < PHYSTOP) :
    argSp sp str = (sp - (str.length + 1)) / 4 * 4 ∧ str.length + 1 < sp := by
  have hP : PHYSTOP = 234881024 := rfl
  have hT : STACK_TOP = 2147483644 := rfl
  have hB : stackBase = 2147479552 := by decide
  unfold argSp sub32
  omega

theorem Holds.kept {bytes : List UInt8} (h : Holds m d a bytes)
    (hsame : ∀ b, a ≤ b → b < a + bytes.length → byteAt m' d b = byteAt m d b) :
    Holds m' d a bytes := fun j hj =>
  (hsame (a + j) (Nat.le_add_right a j) (Nat.add_lt_add_left hj a)).trans (h j hj)

theorem Pushed.snoc (h : Pushed m d sp xs) (hstr : str.length < PHYSTOP)
    (hlow : stackBase ≤ argSp sp str)
    (hbyte : ∀ a, a / 4096 < UPAGES → byteAt m' d a =
      if argSp sp str ≤ a ∧ a < argSp sp str + (str ++ [0]).length then
        (str ++ [0])[a - argSp sp str]? else byteAt m d a) :
    Pushed m' d (argSp sp str) (xs ++ [(str, argSp sp str)]) := by
  obtain ⟨heq, -⟩ := argSp_eq h.low h.high hstr
  have hT : STACK_TOP = 2147483644 := rfl
  have hU : UPAGES = 524288 := rfl
  have hhigh := h.high
  have hlen : (str ++ [0]).length = str.length + 1 := by simp
  have hle : argSp sp str + (str.length + 1) ≤ sp := by
    rw [heq] at hlow ⊢
    have hB : stackBase = 2147479552 := by decide
    omega
  refine ⟨hlow, by omega, ?_, fun x hx => ?_, fun x hx => ?_, ?_⟩
  · rw [heq]
    exact Nat.mul_mod_left _ 4
  · rcases List.mem_append.1 hx with hx | hx
    · refine (h.holds x hx).kept fun b hb hlt => ?_
      obtain ⟨hsp, htop⟩ := h.inside x hx
      rw [List.length_append, List.length_singleton] at hlt
      rw [hbyte b (by omega), if_neg (by omega)]
    · rw [List.mem_singleton.1 hx]
      intro j hj
      rw [hlen] at hj
      rw [hbyte _ (by omega), if_pos (by omega), Nat.add_sub_cancel_left]
  · rcases List.mem_append.1 hx with hx | hx
    · obtain ⟨hsp, htop⟩ := h.inside x hx
      exact ⟨by omega, htop⟩
    · rw [List.mem_singleton.1 hx]
      exact ⟨Nat.le_refl _, show argSp sp str + str.length + 1 ≤ STACK_TOP by omega⟩
  · rw [List.pairwise_append]
    refine ⟨h.apart, List.pairwise_singleton _ _, fun x hx y hy => ?_⟩
    rw [List.mem_singleton.1 hy]
    exact Nat.le_trans hle (h.inside x hx).1

theorem pushArgs_spec (hg : Wf L s₀ free₀ g) (hkern : Kern L s₀.mem g)
    (hpgdir : (k.proc p).pgdir = kva g) (hready : Ready L s₀ free₀ d P k.kmem free)
    (hpushed : Pushed k.kmem.mem d sp xs) (hstr : ∀ str ∈ argv, str.length < PHYSTOP)
    (htab : ArgsTabled P sp (argv.take (MAXARG - xs.length))) (hxs : xs.length ≤ MAXARG) :
    ∃ r m', pushArgs L p (kva d) argv sp (xs.map Prod.snd) k =
        .ret (r, { k with kmem := { k.kmem with mem := m' } }) ∧
      Ready L s₀ free₀ d P { k.kmem with mem := m' } free ∧
      ∀ sp' args, r = some (sp', args) → ∃ ys, ys.map Prod.fst = argv ∧
        args = (xs ++ ys).map Prod.snd ∧ (xs ++ ys).length ≤ MAXARG ∧
        Pushed m' d sp' (xs ++ ys) := by
  induction argv generalizing k sp xs with
  | nil =>
    refine ⟨_, k.kmem.mem, rfl, hready, fun sp' args hsome => ⟨[], rfl, ?_⟩⟩
    cases hsome
    rw [List.append_nil]
    exact ⟨rfl, hxs, hpushed⟩
  | cons str argv ih =>
    have hreach := hready.fresh.reach hg hkern hpgdir
    rw [pushArgs]
    by_cases hmax : MAXARG ≤ (xs.map Prod.snd).length
    · rw [if_pos hmax]
      exact ⟨none, k.kmem.mem, rfl, hready, fun _ _ hsome => by cases hsome⟩
    rw [if_neg hmax]
    rw [List.length_map] at hmax
    have hlen := hstr str List.mem_cons_self
    obtain ⟨heq, hroom⟩ := argSp_eq hpushed.low hpushed.high hlen
    have hT : STACK_TOP = 2147483644 := rfl
    have hB : stackBase = 2147479552 := by decide
    have hK : KERNBASE = 2147483648 := rfl
    have hhigh := hpushed.high
    have hlow := hpushed.low
    have hbytes : (str ++ [0]).length = str.length + 1 := by simp
    have hend : argSp sp str + (str ++ [0]).length ≤ KERNBASE := by omega
    rw [show MAXARG - xs.length = (MAXARG - (xs.length + 1)) + 1 by omega, List.take_succ_cons,
      ArgsTabled] at htab
    by_cases hfits : stackBase ≤ argSp sp str
    · rw [if_pos hfits] at htab
      obtain ⟨m₁, hrun, hready₁, hbyte⟩ := hready.copy_inside hreach hfits hend
      have hpushed₁ := hpushed.snoc hlen hfits hbyte
      obtain ⟨r, m', hrest, hready', hdone⟩ := ih (k := { k with kmem := { k.kmem with mem := m₁ } })
        hpgdir hready₁ hpushed₁
        (fun q hq => hstr q (List.mem_cons_of_mem _ hq)) (by simpa using htab) (by simp; omega)
      refine ⟨r, m', ?_, hready', fun sp' args hsome => ?_⟩
      · rw [show sub32 sp ((str.length + 1) % 2 ^ 32) / 4 * 4 = argSp sp str from rfl,
          Prog.bind_of_ret hrun, if_neg (by decide)]
        rw [List.map_append] at hrest
        exact hrest
      · obtain ⟨ys, hys, hargs, hle, hpushed'⟩ := hdone sp' args hsome
        rw [List.append_assoc] at hargs hle hpushed'
        exact ⟨(str, argSp sp str) :: ys, by rw [List.map_cons, hys], hargs, hle, hpushed'⟩
    · rw [if_neg hfits] at htab
      obtain ⟨m₁, hrun, hready₁⟩ := hready.copy_outside hreach (Nat.not_le.1 hfits) (by omega)
        (by omega) hend htab
      refine ⟨none, m₁, ?_, hready₁, fun _ _ hsome => by cases hsome⟩
      rw [show sub32 sp ((str.length + 1) % 2 ^ 32) / 4 * 4 = argSp sp str from rfl,
        Prog.bind_of_ret hrun]
      rfl

end Push

section Block

variable {m m' : Pages} {xs : List (List UInt8 × ℕ)}

/-- The words below the strings: a return address, `argc`, `argv` and the pointers. -/
def ustack (sp : ℕ) (args : List ℕ) : List ℕ :=
  [0xffffffff, args.length, sub32 sp ((args.length + 1) * 4)] ++ args ++ [0]

theorem length_words (ws : List ℕ) : (ws.flatMap wordBytes).length = 4 * ws.length := by
  induction ws with
  | nil => rfl
  | cons w ws ih =>
    rw [List.flatMap_cons, List.length_append, ih]
    simp [wordBytes]
    omega

theorem length_ustack (sp : ℕ) (args : List ℕ) :
    ((ustack sp args).flatMap wordBytes).length = 4 * (args.length + 4) := by
  rw [length_words]
  simp [ustack]

/-- What `main` finds at `esp`, with the strings and their addresses in `xs`. -/
structure Passed (m : Pages) (d esp : ℕ) (argv : List (List UInt8)) (xs : List (List UInt8 × ℕ)) :
    Prop where
  strings : xs.map Prod.fst = argv
  count : argv.length ≤ MAXARG
  low : stackBase ≤ esp
  aligned : esp % 4 = 0
  block : Holds m d esp
    (([0xffffffff, argv.length, esp + 12] ++ xs.map Prod.snd ++ [0]).flatMap wordBytes)
  high : esp + 4 * (argv.length + 4) ≤ STACK_TOP
  holds : ∀ x ∈ xs, Holds m d x.2 (x.1 ++ [0])
  inside : ∀ x ∈ xs, esp + 4 * (argv.length + 4) ≤ x.2 ∧ x.2 + x.1.length + 1 ≤ STACK_TOP
  apart : xs.Pairwise fun x y => y.2 + y.1.length + 1 ≤ x.2

theorem Passed.kept {esp : ℕ} (h : Passed m d esp argv xs)
    (hsame : ∀ a, a / 4096 < UPAGES → byteAt m' d a = byteAt m d a) :
    Passed m' d esp argv xs := by
  have hT : STACK_TOP = 2147483644 := rfl
  have hU : UPAGES = 524288 := rfl
  have hhigh := h.high
  refine { h with block := ?_, holds := fun x hx => ?_ }
  · refine h.block.kept fun b hb hlt => hsame b ?_
    have hcount : xs.length = argv.length := by rw [← h.strings, List.length_map]
    rw [length_words] at hlt
    simp only [List.length_append, List.length_cons, List.length_map, List.length_nil] at hlt
    omega
  · refine (h.holds x hx).kept fun b hb hlt => hsame b ?_
    obtain ⟨-, htop⟩ := h.inside x hx
    rw [List.length_append, List.length_singleton] at hlt
    omega

/-- A process that may call `exec`. -/
structure Caller (L : Link) (k : Kernel) (free : List ℕ) (p g : ℕ) : Prop where
  pgdir : (k.proc p).pgdir = kva g
  kstack : (k.proc p).kstack ≠ 0
  wf : Wf L k.kmem free g
  kern : Kern L k.kmem.mem g

theorem Fresh.other_wf (h : Fresh L s₀ free₀ d s free) (hg : Wf L s₀ free₀ g) :
    Wf L s free g ∧ ∀ q, Own s.mem g q ↔ Own s₀.mem g q := by
  obtain ⟨-, -, htree, hown⟩ := hg.tree.keep fun q hq => h.beside hg q hq.own
  refine ⟨⟨h.wf.pool, htree, fun q hq ho => ?_⟩, hown⟩
  exact hg.apart q ((h.conserve q).1 (Or.inl hq)) ((hown q).1 ho)

theorem byteAt_congr (hinner : ∀ q, Inner m d q → m' q = m q)
    (hframe : ∀ f, frm m d (a / 4096) = some f → m' f = m f) (ha : a / 4096 < UPAGES) :
    byteAt m' d a = byteAt m d a := by
  have hpte : pte m' d (a / 4096) = pte m d (a / 4096) :=
    pte_congr (hinner d (Or.inl rfl)) fun t ht => hinner t (Or.inr ⟨_, by
      have hU : UPAGES = 524288 := rfl
      omega, ht⟩)
  unfold byteAt
  rw [frm_congr hpte]
  cases hf : frm m d (a / 4096) with
  | none => rfl
  | some f => rw [Option.map_some, Option.map_some, hframe f hf]

theorem Fresh.commit (h : Fresh L s₀ free₀ d s free) (hg : Wf L s₀ free₀ g) :
    ∃ s', Vm.freevm L (kva g) s = .ret ((), s') ∧
      ∀ a, a / 4096 < UPAGES → byteAt s'.mem d a = byteAt s.mem d a := by
  obtain ⟨hw, hown⟩ := h.other_wf hg
  obtain ⟨s', free', hrun, -, -, hother⟩ := freevm_spec hw
  have hsame : ∀ q, Own s.mem d q → s'.mem q = s.mem q := by
    intro q hq
    refine hother q (fun hin => h.wf.apart q hin hq) fun ho => ?_
    exact hg.apart q ((h.conserve q).1 (Or.inr hq)) ((hown q).1 ho)
  exact ⟨s', hrun, fun a ha => byteAt_congr (fun q hq => hsame q hq.own)
    (fun f hf => hsame f (Tree.frm_own ha hf)) ha⟩

theorem Pushed.block (h : Pushed m d sp xs) {esp : ℕ} (hesp : esp + 4 * (xs.length + 4) = sp)
    (hbyte : ∀ a, a / 4096 < UPAGES → byteAt m' d a =
      if esp ≤ a ∧ a < esp + ((ustack sp (xs.map Prod.snd)).flatMap wordBytes).length then
        ((ustack sp (xs.map Prod.snd)).flatMap wordBytes)[a - esp]? else byteAt m d a) :
    Holds m' d esp (([0xffffffff, xs.length, esp + 12] ++ xs.map Prod.snd ++ [0]).flatMap
      wordBytes) ∧ ∀ x ∈ xs, Holds m' d x.2 (x.1 ++ [0]) := by
  have hT : STACK_TOP = 2147483644 := rfl
  have hU : UPAGES = 524288 := rfl
  have hhigh := h.high
  have hlen := length_ustack sp (xs.map Prod.snd)
  have hwords : ustack sp (xs.map Prod.snd) =
      [0xffffffff, xs.length, esp + 12] ++ xs.map Prod.snd ++ [0] := by
    have hargv : sub32 sp ((xs.length + 1) * 4) = esp + 12 := by
      unfold sub32
      omega
    rw [ustack, List.length_map, hargv]
  rw [List.length_map] at hlen
  rw [← hwords]
  constructor
  · intro j hj
    rw [hbyte _ (by omega), if_pos (by omega), Nat.add_sub_cancel_left]
  · intro x hx
    refine (h.holds x hx).kept fun b hb hlt => ?_
    obtain ⟨hsp, htop⟩ := h.inside x hx
    rw [List.length_append, List.length_singleton] at hlt
    rw [hbyte b (by omega), if_neg (by omega)]

theorem execBad_spec (h : Ready L s₀ free₀ d P k.kmem free) :
    ∃ s', execBad L (kva d) k = .ret (-1, { k with kmem := s' }) ∧ Untouched L s₀ free₀ s' := by
  obtain ⟨s', hrun, hs'⟩ := h.fresh.freevm
  refine ⟨s', ?_, hs'⟩
  unfold execBad
  rw [Prog.bind_of_ret (onMem_of_ret hrun)]
  rfl

def committed (k : Kernel) (p pgdir sz entry esp : ℕ) (s : Kmem) : Kernel :=
  { k with
    kmem := s
    proc := Function.update k.proc p
      { k.proc p with
        pgdir := pgdir, sz := sz, tf := { (k.proc p).tf with eip := entry, esp := esp }
        stacktop := STACK_TOP, stackSize := 1 } }

theorem execCommit_eq {s' : Kmem} (hpgdir : (k.proc p).pgdir = kva g)
    (hkstack : (k.proc p).kstack ≠ 0) (hfree : freevm L (kva g) k.kmem = .ret ((), s'))
    (sz entry esp : ℕ) : execCommit L p (kva d) sz entry esp k =
      .ret (0, committed k p (kva d) sz entry esp s') := by
  have hproc : (committed k p (kva d) sz entry esp k.kmem).proc p = _ := Function.update_self _ _ _
  have hset : setProc p (fun x => { x with
      pgdir := kva d, sz := sz, tf := { x.tf with eip := entry, esp := esp }
      stacktop := STACK_TOP, stackSize := 1 }) k =
      .ret ((), committed k p (kva d) sz entry esp k.kmem) := rfl
  have hswitch : switchuvm p (committed k p (kva d) sz entry esp k.kmem) =
      .ret ((), committed k p (kva d) sz entry esp k.kmem) := by
    unfold switchuvm
    rw [Prog.get_bind, if_neg, if_neg]
    · rfl
    · rw [hproc]
      exact kva_ne_zero d
    · rw [hproc]
      exact hkstack
  have hrun : onMem (freevm L (kva g)) (committed k p (kva d) sz entry esp k.kmem) =
      .ret ((), committed k p (kva d) sz entry esp s') := onMem_of_ret hfree
  unfold execCommit
  rw [Prog.get_bind, Prog.bind_of_ret hset,
    Prog.bind_of_ret hswitch, hpgdir, Prog.bind_of_ret hrun]
  rfl

variable (L) in
/-- The strings and the block below them: the new stack pointer, `none` where the source jumps to
`bad`. -/
def pushAll (p pgdir : ℕ) (argv : List (List UInt8)) : Prog Kernel (Option ℕ) := do
  match ← pushArgs L p pgdir argv STACK_TOP [] with
  | none => return none
  | some (sp, args) => do
    let esp := sub32 sp ((3 + args.length + 1) * 4)
    let r ← copyout L p pgdir esp ((ustack sp args).flatMap wordBytes)
    if r < 0 then return none else return some esp

theorem execArgs_eq (p : ℕ) (ip : Inode) (argv : List (List UInt8)) (pgdir sz : ℕ) :
    execArgs L p ip argv pgdir sz = pushAll L p pgdir argv >>= fun pushed =>
      match pushed with
      | none => execBad L pgdir
      | some esp => execCommit L p pgdir sz (elfhdr ip).entry esp := by
  unfold execArgs pushAll
  rw [Prog.bind_assoc]
  congr 1
  funext pushed
  match pushed with
  | none => rfl
  | some (sp, args) =>
    simp only
    rw [Prog.bind_assoc]
    congr 1
    funext r
    by_cases hr : r < 0
    · rw [if_pos hr, if_pos hr]
      rfl
    · rw [if_neg hr, if_neg hr]
      rfl

theorem pushAll_spec (hg : Wf L s₀ free₀ g) (hkern : Kern L s₀.mem g)
    (hpgdir : (k.proc p).pgdir = kva g) (hready : Ready L s₀ free₀ d P k.kmem free)
    (hstr : ∀ str ∈ argv, str.length < PHYSTOP)
    (htab : ArgsTabled P STACK_TOP (argv.take MAXARG)) :
    ∃ r m', pushAll L p (kva d) argv k =
        .ret (r, { k with kmem := { k.kmem with mem := m' } }) ∧
      Ready L s₀ free₀ d P { k.kmem with mem := m' } free ∧
      ∀ esp, r = some esp → ∃ xs, Passed m' d esp argv xs := by
  have hT : STACK_TOP = 2147483644 := rfl
  have hB : stackBase = 2147479552 := by decide
  have hK : KERNBASE = 2147483648 := rfl
  have hM : MAXARG = 32 := rfl
  have hstart : Pushed k.kmem.mem d STACK_TOP [] :=
    ⟨by omega, Nat.le_refl _, rfl, fun x hx => absurd hx List.not_mem_nil,
      fun x hx => absurd hx List.not_mem_nil, List.Pairwise.nil⟩
  obtain ⟨r, m₁, hpush, hready₁, hdone⟩ := pushArgs_spec hg hkern hpgdir hready hstart hstr
    (by simpa using htab) (Nat.zero_le _)
  rw [List.map_nil] at hpush
  unfold pushAll
  rw [Prog.bind_of_ret hpush]
  match r with
  | none => exact ⟨none, m₁, rfl, hready₁, fun _ hsome => by cases hsome⟩
  | some (sp, args) =>
    obtain ⟨xs, hxs, hargs, hle, hpushed⟩ := hdone sp args rfl
    rw [List.nil_append] at hargs hle hpushed
    subst hargs
    have hlow := hpushed.low
    have hhigh := hpushed.high
    have haligned := hpushed.aligned
    have hlen := length_ustack sp (xs.map Prod.snd)
    have hcount : xs.length = argv.length := by rw [← hxs, List.length_map]
    rw [List.length_map] at hlen
    obtain ⟨esp, hesp⟩ : ∃ esp, esp + 4 * (xs.length + 4) = sp := ⟨sp - 4 * (xs.length + 4), by omega⟩
    have hsp : sub32 sp ((3 + (xs.map Prod.snd).length + 1) * 4) = esp := by
      rw [List.length_map]
      unfold sub32
      omega
    have hreach : Reach L { k with kmem := { k.kmem with mem := m₁ } } p d :=
      hready₁.fresh.reach hg hkern hpgdir
    have hend : esp + ((ustack sp (xs.map Prod.snd)).flatMap wordBytes).length ≤ KERNBASE := by
      omega
    simp only [hsp]
    by_cases hfits : stackBase ≤ esp
    · obtain ⟨m₂, hcopy, hready₂, hbyte⟩ :=
        Ready.copy_inside (k := { k with kmem := { k.kmem with mem := m₁ } }) hready₁ hreach hfits hend
      obtain ⟨hwords, hholds⟩ := hpushed.block hesp hbyte
      rw [Prog.bind_of_ret hcopy, if_neg (by decide)]
      refine ⟨_, m₂, rfl, hready₂, fun esp' hsome => ⟨xs, ?_⟩⟩
      cases hsome
      rw [hcount] at hesp hwords
      refine ⟨hxs, hcount ▸ hle, hfits, by omega, hwords, by omega, hholds, fun x hx => ?_,
        hpushed.apart⟩
      obtain ⟨hspx, htop⟩ := hpushed.inside x hx
      exact ⟨by omega, htop⟩
    · obtain ⟨m₂, hcopy, hready₂⟩ :=
        Ready.copy_outside (k := { k with kmem := { k.kmem with mem := m₁ } }) hready₁ hreach
          (Nat.not_le.1 hfits) (by omega) (by omega) hend (Or.inl (by omega))
      rw [Prog.bind_of_ret hcopy, if_pos (by decide)]
      exact ⟨none, m₂, rfl, hready₂, fun _ hsome => by cases hsome⟩

end Block

theorem Image.ready {sz : ℕ} {s : Kmem} (h : Image L ip s₀ free₀ d sz s free) :
    Ready L s₀ free₀ d (pages (top (segments ip))) s free := by
  have hpages : pages sz = pages (top (segments ip)) := by
    rw [h.size]
    unfold pages
    omega
  exact ⟨h.fresh, fun v hv => hpages ▸ h.good_iff hv, hpages ▸ h.room⟩

end Xv6.Sys
