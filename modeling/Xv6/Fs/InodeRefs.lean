import Xv6.Fs.FileRefs
import Xv6.Fs.Leak

/-!
# Reference counts of inodes

Between calls the count of a cached inode is what open files and working directories hold.
An inode that one of them needs stays allocated with its contents. An inode that nobody
needs and no entry names is free, unless two processes put its last references at once.
-/

namespace Xv6.Fs
open Lib

variable {P : Type} [DecidableEq P] [Fintype P] {s s' : State P} {ls : P → Share P} {p : P}
  {l' : Share P} {ip : Slot} {n : ℕ}

omit [DecidableEq P] in
theorem Inv.cached_of_loaded (h : Inv s ls) (hl : ip ∈ (ls p).loaded) :
    (s.inode ip).copy = s.disk (s.inode ip).inum ∧ s.Alloc ip := by
  obtain ⟨-, hv, hH⟩ := (h.fits p).loaded ip hl
  exact h.tables.cached ip (h.ref_pos hH) hv

section Operations

variable {o : Op P} {a : Ans o}

theorem Kept.exec (h : Inv s ls) (hk : Kept s ls) (hpre : (logic P).pre o (ls p))
    (he : exec p n o s = .ret (a, s')) (hpost : post o (ls p) a l')
    (hcalm : ∀ ip, o = .lastRef ip → (s.inode ip).valid = true → (s.inode ip).copy.nlink = 0 →
      ∀ q ≠ p, (ls q).lame ≠ some ip) : Kept s' (Function.update ls p l') := by
  obtain ⟨hb, hlame, hpre⟩ := hpre
  have hnone : (∀ ip, o ≠ .releasesleep ip) → (∀ ip, o ≠ .unref ip) → (ls p).lame = none := by
    intro h1 h2
    refine Option.eq_none_iff_forall_not_mem.mpr fun ip hip => ?_
    rcases hlame ip hip with h3 | h3
    · exact h1 ip h3
    · exact h2 ip h3
  have hloaded : ∀ {ip}, ip ∈ (ls p).loaded → (s.inode ip).copy.type ≠ .free := fun hl => by
    obtain ⟨h1, h2⟩ := h.cached_of_loaded hl
    exact h1 ▸ h2
  by_cases hact : o.active = true
  swap
  · have hq : o.active = false := by simpa using hact
    obtain ⟨h1, -, h3⟩ := exec_quiet hq he
    obtain ⟨h4, h5⟩ := post_quiet hq ⟨hb, hlame, hpre⟩ hpost
    refine hk.slots h1 h5 h4 fun ip _ hv => ?_
    rw [h3]
    exact ⟨rfl, hv, le_rfl⟩
  cases o with
  | iget i =>
    obtain rfl := hpost
    refine hk.iget ?_ ?_ he <;> split_ifs <;> rfl
  | idup jp =>
    obtain ⟨-, rfl⟩ := Outcome.ret_inj he
    obtain rfl := hpost
    exact hk.setInode rfl rfl ⟨fun _ => rfl, fun _ => id⟩ (Nat.le_succ _)
  | acquiresleep jp =>
    simp only [Fs.exec] at he
    split_ifs at he
    obtain ⟨-, rfl⟩ := Outcome.ret_inj he
    obtain ⟨-, rfl⟩ := hpost
    exact hk.setInode rfl rfl ⟨fun _ => rfl, fun _ => id⟩ le_rfl
  | releasesleep jp =>
    obtain ⟨-, rfl⟩ := Outcome.ret_inj he
    obtain rfl := hpost
    exact hk.setInode rfl rfl ⟨fun _ => rfl, fun _ => id⟩ le_rfl
  | load jp =>
    obtain rfl := hpost
    simp only [Fs.exec, State.load] at he
    split_ifs at he
    · obtain ⟨-, rfl⟩ := Outcome.ret_inj he
      exact hk.slots rfl rfl rfl fun _ _ hv => ⟨rfl, hv, le_rfl⟩
    · obtain ⟨-, rfl⟩ := Outcome.ret_inj he
      exact hk.setInode rfl rfl ⟨fun _ => rfl, fun _ _ => rfl⟩ le_rfl
  | lastRef jp =>
    obtain ⟨hlast, rfl⟩ := Outcome.ret_inj he
    obtain ⟨-, rfl⟩ := hpost
    have hlame := hnone (fun ip he => by cases he) fun ip he => by cases he
    exact hk.lastRef h hlame hlast.symm (hcalm jp rfl)
  | ifree jp =>
    obtain ⟨-, rfl⟩ := Outcome.ret_inj he
    obtain rfl := hpost
    exact hk.ifree rfl fun kp hne hl => absurd (Option.some.inj hl).symm hne
  | unref jp =>
    obtain ⟨-, rfl⟩ := Outcome.ret_inj he
    obtain rfl := hpost
    exact hk.unref rfl hpre.2.2.1 rfl
  | ialloc type =>
    obtain rfl := hpost
    exact hk.ialloc hpre.1 hpre.2.2 rfl rfl he
  | setup jp major minor =>
    obtain ⟨-, rfl⟩ := Outcome.ret_inj he
    obtain rfl := hpost
    refine hk.update rfl (hloaded hpre.1) (fun i hi => Or.inr ⟨?_, one_ne_zero⟩)
      fun h0 => absurd h0 one_ne_zero
    exact Option.some.inj (hi.symm.trans ((h.fits p).new jp hpre.2.1).1)
  | addLink jp k =>
    obtain ⟨-, rfl⟩ := Outcome.ret_inj he
    obtain rfl : l' = ls p := hpost
    refine hk.update rfl (hloaded hpre.1) (fun i hi => Or.inl hi) fun _ =>
      Or.inr ⟨((h.fits p).loaded jp hpre.1).2.1, h.lames_lt hpre.2.1 ?_⟩
    rw [hnone (fun ip he => by cases he) fun ip he => by cases he]
    exact (Option.some_ne_none _).symm
  | dirlookup dp name =>
    rcases dirlookup_cases he with ⟨rfl, rfl⟩ | ⟨jp, off, i, rfl, hget⟩
    · obtain rfl : l' = ls p := hpost
      rwa [Function.update_eq_self]
    · obtain rfl := hpost
      refine hk.iget ?_ ?_ hget <;> unfold Share.find <;> split_ifs <;> rfl
  | writeData jp off src =>
    obtain rfl : l' = ls p := hpost
    rw [Function.update_eq_self]
    have hdata : ∀ m, Kept { s with data := m } ls := fun m => ⟨hk.held, hk.empty⟩
    simp only [Fs.exec, State.writeData] at he
    split_ifs at he
    all_goals obtain ⟨-, rfl⟩ := Outcome.ret_inj he
    · exact hk
    · obtain ⟨h1, h2⟩ := h.cached_of_loaded hpre.1
      exact (hdata _).resize p _ h1 h2
    · exact hdata _
  | _ => cases hact

structure Stays (s s' : State P) (ip : Slot) (o : Op P) : Prop where
  inum : (s'.inode ip).inum = (s.inode ip).inum
  type : (s'.disk (s.inode ip).inum).type = (s.disk (s.inode ip).inum).type
  contents : (∀ jp off src, o = .writeData jp off src → jp ≠ ip) →
    s'.data (s.inode ip).inum = s.data (s.inode ip).inum ∧
      (s'.disk (s.inode ip).inum).size = (s.disk (s.inode ip).inum).size

omit [DecidableEq P] [Fintype P] in
theorem Stays.of_disk (hd : s'.disk = s.disk) (hm : s'.data = s.data)
    (hi : (s'.inode ip).inum = (s.inode ip).inum) : Stays s s' ip o where
  inum := hi
  type := by rw [hd]
  contents _ := by rw [hd, hm]; exact ⟨rfl, rfl⟩

omit [DecidableEq P] [Fintype P] in
theorem Stays.slot {jp : Slot} {g : Inode P → Inode P}
    (hg : jp = ip → (g (s.inode jp)).inum = (s.inode jp).inum) :
    Stays s (s.setInode jp g) ip o := by
  refine .of_disk rfl rfl ?_
  by_cases hj : ip = jp
  · subst hj
    rw [State.setInode_self]
    exact hg rfl
  · rw [State.setInode_ne s g hj]

omit [DecidableEq P] [Fintype P] in
theorem Stays.iget {i : ℕ} {jp : Slot} (hr : 0 < (s.inode ip).ref)
    (he : s.iget i = .ret (jp, s')) : Stays s s' ip o := by
  rcases iget_cases he with ⟨-, -, rfl⟩ | ⟨h0, -, rfl⟩
  · exact .slot fun _ => rfl
  · exact .slot fun hj => absurd (hj ▸ h0) hr.ne'

omit [DecidableEq P] in
theorem Inv.stays_update (h : Inv s ls) {jp : Slot} (hl : jp ∈ (ls p).loaded)
    {g : Dinode → Dinode} (hg : ∀ d, (g d).type = d.type ∧ (g d).size = d.size) :
    Stays s (s.update jp g) ip o := by
  have hd : ((s.update jp g).disk (s.inode ip).inum).type = (s.disk (s.inode ip).inum).type ∧
      ((s.update jp g).disk (s.inode ip).inum).size = (s.disk (s.inode ip).inum).size := by
    by_cases hj : (s.inode ip).inum = (s.inode jp).inum
    · rw [hj, update_disk_self, ← (h.cached_of_loaded hl).1]
      exact hg _
    · rw [update_disk_ne hj]
      exact ⟨rfl, rfl⟩
  exact ⟨(update_inode s jp ip g).1, hd.1, fun _ => ⟨rfl, hd.2⟩⟩

omit [DecidableEq P] in
theorem Inv.stays_writeData (h : Inv s ls) {jp : Slot} (hl : jp ∈ (ls p).loaded)
    (hr : 0 < (s.inode ip).ref) (off : ℕ) (src : List UInt8) :
    Stays s (s.writeData jp off src).2 ip (.writeData jp off src : Op P) := by
  have hjr : 0 < (s.inode jp).ref := h.ref_pos ((h.fits p).loaded jp hl).2.2
  have hne : jp ≠ ip → (s.inode ip).inum ≠ (s.inode jp).inum := fun hj he =>
    hj (h.tables.unique jp ip hjr hr he.symm)
  simp only [State.writeData]
  split_ifs with h1 h2
  · exact .of_disk rfl rfl rfl
  · dsimp only
    refine ⟨(update_inode _ jp ip _).1, ?_, fun hw => ?_⟩
    · by_cases hj : (s.inode ip).inum = (s.inode jp).inum
      · rw [hj, ← (h.cached_of_loaded hl).1]
        refine (congrArg Dinode.type (update_disk_self _ jp _)).trans ?_
        rfl
      · exact congrArg Dinode.type (update_disk_ne hj)
    · have hj := hne (hw jp off src rfl)
      exact ⟨Function.update_of_ne hj .., congrArg Dinode.size (update_disk_ne hj)⟩
  · exact ⟨rfl, rfl, fun hw => ⟨Function.update_of_ne (hne (hw jp off src rfl)) .., rfl⟩⟩

theorem Inv.stays (h : Inv s ls) (hpre : (logic P).pre o (ls p))
    (he : Fs.exec p n o s = .ret (a, s')) (hr : 0 < (s.inode ip).ref) (ha : s.Alloc ip)
    (hs : (ls p).sole ≠ some ip) : Stays s s' ip o := by
  have hpre := hpre.2.2
  by_cases hact : o.active = true
  swap
  · obtain ⟨h1, h2, h3⟩ := exec_quiet (by simpa using hact) he
    exact .of_disk h1 h2 (by rw [h3])
  cases o with
  | iget i => exact .iget hr he
  | idup jp | releasesleep jp | unref jp =>
    obtain ⟨-, rfl⟩ := Outcome.ret_inj he
    exact .slot fun _ => rfl
  | acquiresleep jp =>
    simp only [Fs.exec] at he
    split_ifs at he
    obtain ⟨-, rfl⟩ := Outcome.ret_inj he
    exact .slot fun _ => rfl
  | load jp =>
    simp only [Fs.exec, State.load] at he
    split_ifs at he
    · obtain ⟨-, rfl⟩ := Outcome.ret_inj he
      exact .of_disk rfl rfl rfl
    · obtain ⟨-, rfl⟩ := Outcome.ret_inj he
      exact .slot fun _ => rfl
  | lastRef jp =>
    obtain ⟨-, rfl⟩ := Outcome.ret_inj he
    exact .of_disk rfl rfl rfl
  | ifree jp =>
    obtain ⟨-, rfl⟩ := Outcome.ret_inj he
    have hj : jp ≠ ip := fun hj => hs (hj ▸ hpre.1)
    have hjr : 0 < (s.inode jp).ref := h.ref_pos (.of_has ((h.fits p).sole jp hpre.1).2.1)
    have hne : (s.inode ip).inum ≠ (s.inode jp).inum := fun he =>
      hj (h.tables.unique jp ip hjr hr he.symm)
    have hd := ifree_disk hne
    exact ⟨(ifree_inode s jp ip).1, by rw [hd], fun _ => ⟨rfl, by rw [hd]⟩⟩
  | ialloc type =>
    simp only [Fs.exec, State.ialloc] at he
    split_ifs at he with hno hn
    obtain ⟨-, rfl⟩ := Outcome.ret_inj he
    have hne : (s.inode ip).inum ≠ n := fun he => ha (he ▸ hn.2.2)
    have hd : Function.update s.disk n (⟨type, 0, 0, 0, 0⟩ : Dinode) (s.inode ip).inum =
        s.disk (s.inode ip).inum := Function.update_of_ne hne ..
    exact ⟨rfl, congrArg Dinode.type hd, fun _ => ⟨rfl, congrArg Dinode.size hd⟩⟩
  | setup jp major minor =>
    obtain ⟨-, rfl⟩ := Outcome.ret_inj he
    exact h.stays_update hpre.1 fun _ => ⟨rfl, rfl⟩
  | addLink jp k =>
    obtain ⟨-, rfl⟩ := Outcome.ret_inj he
    exact h.stays_update hpre.1 fun _ => ⟨rfl, rfl⟩
  | dirlookup dp name =>
    rcases dirlookup_cases he with ⟨-, rfl⟩ | ⟨jp, off, i, -, hget⟩
    · exact .of_disk rfl rfl rfl
    · exact .iget hr hget
  | writeData jp off src =>
    have := h.stays_writeData hpre.1 hr off src
    rwa [Outcome.ret.inj he] at this
  | _ => cases hact

end Operations

section Runs

/-- An open file or a process between two calls needs the inode in `ip`. -/
def Pinned (g : World P) (ip : Slot) : Prop :=
  (∃ f, (g.shared.file f).holds (.inode ip)) ∨
    ∃ q, (g.code q).next = none ∧ (g.shared.proc q).cwd = some ip

/-- No process looks at the count of an inode without links while another is about to
lower it. -/
def Unhurried (g : World P) : Turn P (Call P) → Prop
  | .call _ _ => True
  | .run p _ => ∀ ip, (g.code p).next = some (.lastRef ip) →
      (g.shared.inode ip).valid = true → (g.shared.inode ip).copy.nlink = 0 →
        ∀ q, q ≠ p → (g.code q).next ≠ some (.unref ip)

/-- Every allocated inode of an image has a link, and free ones are empty. -/
structure Clean (s : State P) : Prop where
  linked : ∀ i, (s.disk i).type ≠ .free → (s.disk i).nlink ≠ 0
  empty : ∀ i, (s.disk i).type = .free → (s.disk i).size = 0

/-- No inode is cached twice, every count is exact, and what nobody needs is free. -/
structure InodesExact (s : State P) : Prop where
  unique : ∀ ip jp, 0 < (s.inode ip).ref → 0 < (s.inode jp).ref →
    (s.inode ip).inum = (s.inode jp).inum → ip = jp
  ref : ∀ ip, (s.inode ip).ref =
    (Finset.univ.filter fun f => (s.file f).holds (.inode ip)).card +
      (Finset.univ.filter fun q => (s.proc q).cwd = some ip).card
  freed : ∀ i, (s.disk i).nlink = 0 → (∀ ip, (s.inode ip).inum = i → (s.inode ip).ref = 0) →
    (s.disk i).type = .free ∧ (s.disk i).size = 0

variable {g₀ g g' : World P} {es : List (Turn P (Call P))}

theorem Pinned.alloc (hp : Pinned g ip) (h : Accounted g ls) :
    g.shared.Alloc ip ∧ 0 < (g.shared.inode ip).ref := by
  rcases hp with ⟨f, hf⟩ | ⟨q, hq, hc⟩
  · have h1 := h.inv.tables.opened f hf.1
    have h2 := h.inv.ref_pos_of_file hf.1
    rw [hf.2] at h1 h2
    exact ⟨h1, h2⟩
  · cases hb : (ls q).busy with
    | false => exact ⟨h.inv.pairs.home q ip hb hc, h.inv.ref_pos_of_cwd hb hc⟩
    | true =>
      have hi := h.idle_of_ret hq
      have hown : (ls q).own.cwd = some ip := by
        rw [((h.inv.fits q).own hb).1]
        exact hc
      obtain ⟨h1, h2⟩ := (h.inv.fits q).seen ip (hi.cwd ip hown)
      exact ⟨h2, h.inv.ref_pos h1⟩

theorem Pinned.not_sole (hp : Pinned g ip) (h : Accounted g ls) {o : Op P}
    (hc : (g.code p).next = some o) : (ls p).sole ≠ some ip := by
  intro hs
  rcases hp with ⟨f, hf⟩ | ⟨q, hq, hcwd⟩
  · have h1 := files_pos hf
    have h2 := ((h.inv.fits p).sole ip hs).2.2
    omega
  · have hne : q ≠ p := by
      rintro rfl
      cases hq.symm.trans hc
    obtain ⟨h1, h2⟩ := h.inv.pairs.sole p q ip hne hs
    cases hb : (ls q).busy with
    | false => exact h2 hb hcwd
    | true =>
      refine h1 ((h.idle_of_ret hq).cwd ip ?_)
      rw [((h.inv.fits q).own hb).1]
      exact hcwd

theorem lame_next (h : Accounted g ls) (hl : (ls p).lame = some ip) :
    (g.code p).next = some (.releasesleep ip) ∨ (g.code p).next = some (.unref ip) := by
  cases hc : g.code p with
  | ret a =>
    have := (h.idle_of_ret (p := p) (by rw [hc]; rfl)).lame
    cases this.symm.trans hl
  | op o k =>
    rcases (h.pre hc).2.1 ip hl with rfl | rfl
    · exact Or.inl rfl
    · exact Or.inr rfl

theorem kept_keeps : (logic P).Keeps (machine P) Inv Share.Idle (fun s p => .enter (s.proc p))
    Unhurried Kept where
  call s ls p hk hi := by
    refine hk.step (fun i => Or.inl) (fun i hf => ?_) (fun ip hv hr _ => ?_) hk.empty
    · cases hi.fresh.symm.trans hf
    · have hl : lames (Function.update ls p (Share.enter (s.proc p))) = lames ls :=
        lames_congr hi.lame.symm
      exact ⟨rfl, hv, hl ▸ hr⟩
  op g ls p n o k a s' l h hk hcalm hc he hpost := by
    refine Kept.exec h.inv hk (h.pre hc) he hpost ?_
    rintro ip rfl hv hnl q hq hlame
    have hnext : (g.code p).next = some (.lastRef ip) := by rw [hc]; rfl
    rcases lame_next h hlame with hrel | hun
    · -- the lock that `q` is about to release is held by `p`
      obtain ⟨k', hk'⟩ : ∃ k', g.code q = .op (.releasesleep ip) k' := by
        cases hcq : g.code q with
        | ret a => rw [hcq] at hrel; cases hrel
        | op o' k' =>
          rw [hcq] at hrel
          obtain rfl := Option.some.inj hrel
          exact ⟨k', rfl⟩
      have h1 := ((h.inv.fits q).held ip).mpr (h.pre hk').2.2.1
      have h2 := ((h.inv.fits p).held ip).mpr (h.pre hc).2.2.1
      exact hq (Option.some.inj (h1.symm.trans h2))
    · exact hcalm ip hnext hv hnl q hq hun

theorem Start.kept (h : Start g₀) (hclean : Clean g₀.shared)
    (hrun : Runs ((machine P).StepIf Unhurried) g₀ es g) :
    ∃ ls, Accounted g ls ∧ Kept g.shared ls :=
  kept_keeps.of_runs sound
    ⟨_, h.accounted, fun i hi => absurd hi.2 (hclean.linked i hi.1), hclean.empty⟩ hrun

theorem Accounted.inodesExact (h : Accounted g ls) (hk : Kept g.shared ls) (hr : AtRest g) :
    InodesExact g.shared := by
  have hidle := fun q => h.idle_of_ret (hr q)
  refine ⟨h.inv.tables.unique, (h.inv.exact fun q => (hidle q).bal).inode, fun i hnl hno => ?_⟩
  have hfree : (g.shared.disk i).type = .free := by
    by_contra hne
    rcases hk.held i ⟨hne, hnl⟩ with ⟨q, hq⟩ | ⟨ip, rfl, -, hlt⟩
    · cases (hidle q).fresh.symm.trans hq
    · have := lames_nonneg ls ip
      have := hno ip rfl
      omega
  exact ⟨hfree, hk.empty i hfree⟩

theorem Pinned.step {n : ℕ} (hp : Pinned g ip) (h : Accounted g ls)
    (hs : (machine P).Step g (.run p n) g') :
    g.shared.Alloc ip ∧ ∃ o, (g.code p).next = some o ∧ Stays g.shared g'.shared ip o ∧
      ∀ type, o = .ialloc type → n ≠ (g.shared.inode ip).inum := by
  obtain ⟨o, k, a, l, hc, he, -, -⟩ := h.run sound hs
  have hnext : (g.code p).next = some o := by rw [hc]; rfl
  obtain ⟨ha, hr⟩ := hp.alloc h
  refine ⟨ha, o, hnext, h.inv.stays (h.pre hc) he hr ha (hp.not_sole h hnext), ?_⟩
  rintro type rfl rfl
  simp only [machine, Fs.exec, State.ialloc] at he
  split_ifs at he with hno hn
  exact ha hn.2.2

/-- Inodes are counted right in every run in which no process looks at the count of an inode
without links while another is about to lower it. -/
theorem inodes_counted (h : Start g₀) (hclean : Clean g₀.shared)
    (hrun : Runs ((machine P).StepIf Unhurried) g₀ es g) :
    (AtRest g → InodesExact g.shared) ∧
      ∀ ip, Pinned g ip → g.shared.Alloc ip ∧
        ∀ p n g', (machine P).Step g (.run p n) g' → ∃ o, (g.code p).next = some o ∧
          Stays g.shared g'.shared ip o ∧
          ∀ type, o = .ialloc type → n ≠ (g.shared.inode ip).inum := by
  obtain ⟨ls, ha, hk⟩ := h.kept hclean hrun
  exact ⟨ha.inodesExact hk, fun ip hp => ⟨(hp.alloc ha).1, fun p n g' hs => (hp.step ha hs).2⟩⟩

end Runs

section Sample

theorem sample_clean : Clean sample.shared where
  linked i := by
    simp only [sample]
    split_ifs <;> simp
  empty i := by
    simp only [sample]
    split_ifs <;> simp

instance (g : World (Fin 2)) (t : Turn (Fin 2) (Call (Fin 2))) : Decidable (Unhurried g t) := by
  cases t with
  | call p c => exact isTrue trivial
  | run p n => unfold Unhurried; infer_instance

def unlinkTurns : List (Turn (Fin 2) (Call (Fin 2))) :=
  .call proc0 (.unlink (some [102])) :: List.replicate 39 (.run proc0 0)

theorem inodes_counted_unlink :
    ∃ g, Runs ((machine (Fin 2)).StepIf Unhurried) sample unlinkTurns g ∧ AtRest g ∧
      (g.shared.disk 2).nlink = 0 ∧ InodesExact g.shared := by
  obtain ⟨g, hrun, hg⟩ := (machine (Fin 2)).exists_runsIf Unhurried sample unlinkTurns
    (fun g => (g.code 0).next.isNone && (g.code 1).next.isNone &&
      decide ((g.shared.disk 2).nlink = 0)) (by decide +kernel)
  simp only [Bool.and_eq_true, Option.isNone_iff_eq_none, decide_eq_true_eq] at hg
  have hrest : AtRest g := Fin.forall_fin_two.mpr hg.1
  exact ⟨g, hrun, hrest, hg.2, (inodes_counted sample_start sample_clean hrun).1 hrest⟩

/-- Process 1 calls `chdir` on the file, which is not a directory, and stops in `iput` before
it lowers the count; process 0 removes the file. Both find the count at two. -/
def leakTurns : List (Turn (Fin 2) (Call (Fin 2))) :=
  .call proc1 (.chdir (some [102])) :: List.replicate 25 (.run proc1 0) ++
    .call proc0 (.unlink (some [102])) :: List.replicate 38 (.run proc0 0) ++
    List.replicate 2 (.run proc1 0)

theorem inode_leaks : Start sample ∧ Clean sample.shared ∧
    ∃ g, Runs (machine (Fin 2)).Step sample leakTurns g ∧ AtRest g ∧
      (g.shared.disk 2).nlink = 0 ∧ (∀ ip, (g.shared.inode ip).inum = 2 →
        (g.shared.inode ip).ref = 0) ∧ (g.shared.disk 2).type = .file := by
  obtain ⟨g, hrun, hg⟩ := (machine (Fin 2)).exists_runs sample leakTurns
    (fun g => ((g.code 0).next.isNone && (g.code 1).next.isNone) &&
      decide ((g.shared.disk 2).nlink = 0 ∧ (∀ ip, (g.shared.inode ip).inum = 2 →
        (g.shared.inode ip).ref = 0) ∧ (g.shared.disk 2).type = .file)) (by decide +kernel)
  simp only [Bool.and_eq_true, Option.isNone_iff_eq_none, decide_eq_true_eq] at hg
  exact ⟨sample_start, sample_clean, g, hrun, Fin.forall_fin_two.mpr hg.1, hg.2⟩

end Sample

end Xv6.Fs
