import Xv6.Fs.Paths

/-!
# Calls that make and remove entries, by the rules

`create`, `link` and `unlink` lock a directory and then an inode found or made in it. Two
locks are held only in this order, or with the directory locked again by its own `iput`.
-/

namespace Xv6.Fs
open Lib Lib.Logic

variable {P : Type} [DecidableEq P] {l b : Share P} {dp ip : Slot} {S : Finset Slot}

namespace Share

def made (l : Share P) (ip : Slot) : Share P :=
  { l.add (.inode ip) 1 with kid := some (ip, true) }

def workIn (l : Share P) (dp : Slot) : Share P := { l with work := some dp, kid := none }

def leave (l : Share P) : Share P := { l with work := none, kid := none }

end Share

structure Works (l : Share P) (dp : Slot) : Prop where
  busy : l.busy = true
  tx : l.tx = true
  lame : l.lame = none
  sole : l.sole = none
  fresh : l.fresh = none
  new : l.new = none
  work : l.work = some dp
  kid : l.kid = none
  held : l.held = {dp}
  loaded : l.loaded = {dp}
  seen : dp ∈ l.seen
  nonneg : ∀ k, 0 ≤ l.has k
  has : 1 ≤ l.has (.inode dp)

omit [DecidableEq P] in
theorem Works.open (h : Works l dp) : Open l dp := by
  refine ⟨h.busy, h.lame, h.sole, by simp [h.held], by simp [h.loaded], h.seen, Or.inl h.has,
    Or.inr (Or.inl ?_)⟩
  simp only [Share.unlock, h.held]
  exact Finset.erase_singleton dp

section Create

structure Both (l : Share P) (dp ip : Slot) : Prop where
  busy : l.busy = true
  tx : l.tx = true
  lame : l.lame = none
  sole : l.sole = none
  new : l.new = none
  work : l.work = some dp
  kid : ∃ b, l.kid = some (ip, b)
  ne : ip ≠ dp
  held : l.held = {ip, dp}
  loaded : l.loaded = {ip, dp}
  dirSeen : dp ∈ l.seen
  seen : ip ∈ l.seen
  nonneg : ∀ k, 0 ≤ l.has k
  dirHas : 1 ≤ l.has (.inode dp)
  has : 1 ≤ l.has (.inode ip)

omit [DecidableEq P] in
theorem Both.open (h : Both l dp ip) : Open l ip := by
  obtain ⟨b, hk⟩ := h.kid
  refine ⟨h.busy, h.lame, h.sole, by simp [h.held], by simp [h.loaded], h.seen, Or.inl h.has,
    Or.inr (Or.inr (Or.inl ⟨dp, b, ?_, h.work, hk⟩))⟩
  simp only [Share.unlock, h.held]
  exact Finset.erase_insert (by simpa using h.ne)

omit [DecidableEq P] in
theorem Both.openDir (h : Both l dp ip) : Open l dp := by
  obtain ⟨b, hk⟩ := h.kid
  refine ⟨h.busy, h.lame, h.sole, by simp [h.held], by simp [h.loaded], h.dirSeen, Or.inl h.dirHas,
    Or.inr (Or.inr (Or.inr ⟨ip, b, ?_, hk, h.work⟩))⟩
  simp only [Share.unlock, h.held]
  rw [Finset.pair_comm]
  exact Finset.erase_insert (by simpa using h.ne.symm)

omit [DecidableEq P] in
theorem Both.odd (h : Both l dp ip) {jp kp : Slot} {name : Name} :
    (l.find kp name jp).Ordered jp := by
  obtain ⟨b, hk⟩ := h.kid
  refine Or.inl ?_
  simp [Share.find, h.work, hk]

theorem Both.dirlink (h : Both l dp ip) {kp : Slot} {name : Name} {inum : ℕ}
    {Q : ℤ → Share P → Prop} (ho : Open l kp) (h0 : Q 0 l)
    (h1 : ∀ l', l'.busy = true → l'.lame = none → Q (-1) l') :
    Safe (dirlink kp name inum) l Q :=
  safe_dirlink ho h.tx h.new h.nonneg (fun _ => h.odd) h0 fun jp _ =>
    h1 _ ((l.find_rest kp name jp).1.trans h.busy) rfl

theorem Both.createDots (h : Both l dp ip) {dinum inum : ℕ} {Q : Unit → Share P → Prop}
    (hQ : Q () l) : Safe (createDots dp ip dinum inum) l Q := by
  refine safe_look h.busy h.lame ⟨h.openDir.loaded, h.dirHas, h.tx⟩ (fun _ _ => id) fun _ => ?_
  refine safe_bind (h.dirlink h.open ?_ fun l' hb hl => ?_)
  · rw [if_neg (by decide)]
    refine safe_bind (h.dirlink h.open ?_ fun l' hb hl => ?_)
    · rw [if_neg (by decide)]
      exact hQ
    · rw [if_pos (by decide)]
      exact safe_panic hb hl
  · rw [if_pos (by decide)]
    exact safe_panic hb hl

omit [DecidableEq P] in
theorem Works.made (h : Works l dp) (hne : ip ≠ dp) : Both ((l.made ip).lock ip) dp ip where
  busy := h.busy
  tx := h.tx
  lame := h.lame
  sole := h.sole
  new := h.new
  work := h.work
  kid := ⟨true, rfl⟩
  ne := hne
  held := by simp [Share.lock, Share.made, Share.add, h.held]
  loaded := by simp [Share.lock, Share.made, Share.add, h.loaded]
  dirSeen := Finset.mem_insert_of_mem h.seen
  seen := Finset.mem_insert_self _ _
  nonneg k := (h.nonneg k).trans (Share.has_add_ge (by decide) l _ k)
  dirHas := h.has.trans (Share.has_add_ge (by decide) l _ _)
  has := by
    have h1 := l.has_add_self (.inode ip) 1
    have h2 := h.nonneg (.inode ip)
    change 1 ≤ (l.add (.inode ip) 1).has (.inode ip)
    omega

theorem Works.createIn (h : Works l dp) {name : Name} {type : IType} {major minor : ℤ}
    {Q : Slot → Share P → Prop} (ht : type ≠ .free)
    (hQ : ∀ ip, ip ≠ dp → Q ip ((((l.made ip).lock ip).unlock dp).put dp)) :
    Safe (createIn dp name type major minor) l Q := by
  refine safe_look h.busy h.lame trivial (fun _ _ => id) fun dinum => ?_
  refine safe_bind (safe_op h.busy h.lame ⟨ht, h.tx, h.fresh⟩ ?_)
  rintro i _ rfl
  refine safe_last h.busy h.lame trivial ?_
  rintro ip _ rfl
  rw [if_pos rfl]
  refine safe_bind (safe_ilock h.busy h.lame (Or.inl ?_)
    (Or.inr (Or.inr (Or.inl ⟨dp, true, h.held, h.work, rfl⟩))) fun hnot => ?_)
  · have h1 := l.has_add_self (.inode ip) 1
    have h2 := h.nonneg (.inode ip)
    change 1 ≤ (l.add (.inode ip) 1).has (.inode ip)
    omega
  · have hne : ip ≠ dp := by
      have : ip ∉ l.held := hnot
      simpa [h.held] using this
    have hboth := h.made hne
    refine safe_op h.busy h.lame ⟨hboth.open.loaded, rfl, h.tx⟩ ?_
    rintro _ _ rfl
    have hshare : { Share.lock { Share.add { l with fresh := some i } (.inode ip) 1 with
        new := some ip, kid := some (ip, true) } ip with fresh := none, new := none } =
        (l.made ip).lock ip := by
      simp only [Share.lock, Share.made, Share.add, h.fresh, h.new]
    rw [hshare]
    refine safe_look h.busy h.lame trivial (fun _ _ => id) fun inum => ?_
    have rest : Safe (do
        let r ← dirlink dp name inum
        if r < 0 then panic "create: dirlink"
        else do
          iunlockput dp
          return ip) ((l.made ip).lock ip) Q := by
      refine safe_bind (hboth.dirlink hboth.openDir ?_ fun l' hb hl => ?_)
      · rw [if_neg (by decide)]
        exact safe_bind (safe_iunlockput h.busy h.lame h.sole h.new h.tx hboth.dirHas
          hboth.openDir.held hboth.openDir.again (hQ ip hne))
      · rw [if_pos (by decide)]
        exact safe_panic hb hl
    refine safe_bind (wp_when.mpr ⟨fun _ => hboth.createDots rest, fun _ => rest⟩)

end Create

section Work

variable {c : Share P} {k : Option (Slot × Bool)}

def Share.inDir (c : Share P) (dp : Slot) (S : Finset Slot) (k : Option (Slot × Bool)) : Share P :=
  { (c.add (.inode dp) 1).see S with
    held := {dp}, loaded := {dp}, work := some dp, kid := k }

omit [DecidableEq P] in
theorem Free.lock_dir (h : Free c) : (((c.add (.inode dp) 1).see S).workIn dp).lock dp =
    c.inDir dp (insert dp S) none := by
  simp only [Share.lock, Share.workIn, Share.inDir, Share.see, Share.add, h.held, h.loaded,
    insert_empty_eq]

omit [DecidableEq P] in
theorem Free.works (h : Free c) (hd : dp ∈ S) : Works (c.inDir dp S none) dp where
  busy := h.busy
  tx := h.tx
  lame := h.lame
  sole := h.sole
  fresh := h.fresh
  new := h.new
  work := rfl
  kid := rfl
  held := rfl
  loaded := rfl
  seen := hd
  nonneg k := (h.nonneg k).trans (Share.has_add_ge (by decide) c _ k)
  has := h.one_le

omit [DecidableEq P] in
theorem Share.add_inDir (c : Share P) (n : ℤ) : (c.inDir dp S k).add (.inode ip) n =
    (c.add (.inode ip) n).inDir dp S k := by
  simp only [Share.inDir, Share.see, Share.add, add_right_comm]

omit [DecidableEq P] in
theorem Share.find_inDir (c : Share P) (name : Name) : (c.inDir dp S none).find dp name ip =
    (c.add (.inode ip) 1).inDir dp S (some (ip, decide (name ≠ dot ∧ name ≠ dotdot))) := by
  have h1 : (c.inDir dp S none).work = some dp := rfl
  have h2 : (c.inDir dp S none).kid = none := rfl
  rw [Share.find, if_neg (by rw [h1]; nofun), if_pos ⟨h1, h2⟩, Share.add_inDir]
  rfl

omit [DecidableEq P] in
theorem Share.made_inDir (c : Share P) : (c.inDir dp S none).made ip =
    (c.add (.inode ip) 1).inDir dp S (some (ip, true)) := by
  rw [Share.made, Share.add_inDir]
  rfl

omit [DecidableEq P] in
theorem Share.put_inDir (hl : c.lame = none) (hne : ip ≠ dp) :
    ∃ S', ((c.add (.inode ip) 1).inDir dp S k).put ip = c.inDir dp S' k ∧
      ∀ jp ∈ S, jp ≠ ip ∨ 1 ≤ (c.add (.inode dp) 1).has (.inode jp) → jp ∈ S' := by
  obtain ⟨S', h1, h2⟩ := (c.inDir dp S k).put_add S hl
    (show ip ∉ {dp} by simpa using hne)
  rw [Share.add_inDir] at h1
  exact ⟨S', h1, h2⟩

omit [DecidableEq P] in
theorem Share.put_leave (c : Share P) (dp : Slot) (S : Finset Slot) (w : Option Slot)
    (k : Option (Slot × Bool)) (hl : c.lame = none) (hload : dp ∉ c.loaded)
    (hw : c.work = none) (hk : c.kid = none) :
    ∃ S', (Share.put { (c.add (.inode dp) 1).see S with work := w, kid := k } dp).leave =
      c.see S' ∧ ∀ jp ∈ S, jp ≠ dp ∨ 1 ≤ c.has (.inode jp) → jp ∈ S' := by
  obtain ⟨S', h1, h2⟩ := Share.put_add { c with work := w, kid := k } S hl hload
  refine ⟨S', ?_, h2⟩
  have h1 : Share.put { (c.add (.inode dp) 1).see S with work := w, kid := k } dp =
      Share.see { c with work := w, kid := k } S' := h1
  rw [h1]
  simp only [Share.leave, Share.see, hw, hk]

omit [DecidableEq P] in
theorem Free.leave_dir (h : Free c) (dp : Slot) (S : Finset Slot) (k : Option (Slot × Bool)) :
    ∃ S', (((c.inDir dp S k).unlock dp).put dp).leave =
    c.see S' ∧ ∀ jp ∈ S, jp ≠ dp ∨ 1 ≤ c.has (.inode jp) → jp ∈ S' := by
  have : (c.inDir dp S k).unlock dp =
      { (c.add (.inode dp) 1).see S with work := some dp, kid := k } := by
    simp only [Share.unlock, Share.inDir, Share.see, Share.add, h.held, h.loaded,
      Finset.erase_singleton]
  rw [this]
  exact c.put_leave dp S _ k h.lame (h.loaded ▸ Finset.notMem_empty dp) h.work h.kid

omit [DecidableEq P] in
theorem Free.leave_both (h : Free c) (hne : ip ≠ dp) :
    ∃ S', ((((((c.add (.inode ip) 1).inDir dp S k).lock ip).unlock dp).put dp).leave) =
      ((c.add (.inode ip) 1).see S').lock ip ∧
      ∀ jp ∈ S, jp ≠ dp ∨ 1 ≤ c.has (.inode jp) → jp ∈ S' := by
  have herase : (insert ip ({dp} : Finset Slot)).erase dp = {ip} := by
    rw [Finset.pair_comm]
    exact Finset.erase_insert (by simpa using hne.symm)
  have hun : (((c.add (.inode ip) 1).inDir dp S k).lock ip).unlock dp =
      { Share.see (Share.add { c.add (.inode ip) 1 with held := {ip}, loaded := {ip} }
          (.inode dp) 1) (insert ip S) with work := some dp, kid := k } := by
    simp only [Share.unlock, Share.lock, Share.inDir, Share.see, Share.add, herase]
  obtain ⟨S', h2, h3⟩ := Share.put_leave
    { c.add (.inode ip) 1 with held := {ip}, loaded := {ip} } dp (insert ip S) (some dp) k h.lame (by simpa using hne.symm) h.work h.kid
  have hip : ip ∈ S' := h3 ip (Finset.mem_insert_self _ _) (Or.inl hne)
  refine ⟨S', ?_, fun jp hj hhas => h3 jp (Finset.mem_insert_of_mem hj) (hhas.imp_right fun h =>
    h.trans (Share.has_add_ge (by decide) c _ _))⟩
  rw [hun, h2]
  simp only [Share.lock, Share.see, Share.add, h.held, h.loaded, Finset.insert_eq_of_mem hip,
    insert_empty_eq]

variable {α : Type} {R : α → Share P → Prop} {cont : Thread P α}

theorem Free.leaveDir (hc : Free c) (hle : ∀ jp, b.has (.inode jp) ≤ c.has (.inode jp)) (hS : Keeps b S)
    (h : ∀ S', Keeps b S' → Safe cont (c.see S') R) :
    Safe (do iunlockput dp; perform .leaveDir; cont) (c.inDir dp S k) R := by
  obtain ⟨S', h1, h2⟩ := hc.leave_dir dp S k
  refine safe_bind (safe_iunlockput hc.busy hc.lame hc.sole hc.new hc.tx hc.one_le
    (Finset.mem_singleton_self dp) (Or.inr (Or.inl (Finset.erase_singleton dp))) ?_)
  refine safe_op hc.busy rfl trivial ?_
  rintro _ _ rfl
  change Safe cont ((((c.inDir dp S k).unlock dp).put dp).leave) R
  rw [h1]
  exact h S' fun jp hj hhas => h2 jp (hS jp hj hhas) (Or.inr (hhas.trans (hle _)))

omit [DecidableEq P] in
theorem Free.both (hc : Free c) {d : Bool} (hd : dp ∈ S) (hne : ip ≠ dp) :
    Both (((c.add (.inode ip) 1).inDir dp S (some (ip, d))).lock ip) dp ip where
  busy := hc.busy
  tx := hc.tx
  lame := hc.lame
  sole := hc.sole
  new := hc.new
  work := rfl
  kid := ⟨d, rfl⟩
  ne := hne
  held := rfl
  loaded := rfl
  dirSeen := Finset.mem_insert_of_mem hd
  seen := Finset.mem_insert_self _ _
  nonneg := ((hc.add (by decide)).add (by decide)).nonneg
  dirHas := (hc.add (by decide)).one_le
  has := hc.one_le.trans (Share.has_add_ge (by decide) _ _ _)

theorem Free.leaveBoth (hc : Free c) {d : Bool} (hle : ∀ jp, b.has (.inode jp) ≤ c.has (.inode jp)) (hS : Keeps b S)
    (hd : dp ∈ S) (hne : ip ≠ dp)
    (h : ∀ S', Keeps b S' → Safe cont (((c.add (.inode ip) 1).see S').lock ip) R) :
    Safe (do iunlockput dp; perform .leaveDir; cont)
      (((c.add (.inode ip) 1).inDir dp S (some (ip, d))).lock ip) R := by
  obtain ⟨S', h1, h2⟩ := hc.leave_both (S := S) (k := some (ip, d)) hne
  have hb := hc.both (d := d) hd hne
  refine safe_bind (safe_iunlockput hb.busy hb.lame hb.sole hb.new hb.tx hb.dirHas
    hb.openDir.held hb.openDir.again ?_)
  refine safe_op hc.busy rfl trivial ?_
  rintro _ _ rfl
  change Safe cont (((((c.add (.inode ip) 1).inDir dp S (some (ip, d))).lock ip).unlock dp).put
    dp).leave R
  rw [h1]
  exact h S' fun jp hj hhas => h2 jp (hS jp hj hhas) (Or.inr (hhas.trans (hle _)))

theorem Free.putFound (hc : Free c) {d : Bool} {Q : Unit → Share P → Prop}
    (hle : ∀ jp, b.has (.inode jp) ≤ c.has (.inode jp)) (hS : Keeps b S) (hd : dp ∈ S) (hne : ip ≠ dp)
    (h : ∀ S', Keeps b S' → Q () (c.inDir dp S' (some (ip, d)))) :
    Safe (iunlockput ip) (((c.add (.inode ip) 1).inDir dp S (some (ip, d))).lock ip) Q := by
  have hb := hc.both (d := d) hd hne
  obtain ⟨S', h1, h2⟩ := Share.put_inDir (c := c) (S := insert ip S) (k := some (ip, d)) hc.lame hne
  refine safe_iunlockput hb.busy hb.lame hb.sole hb.new hb.tx hb.has hb.open.held hb.open.again ?_
  have hun : (((c.add (.inode ip) 1).inDir dp S (some (ip, d))).lock ip).unlock ip =
      (c.add (.inode ip) 1).inDir dp (insert ip S) (some (ip, d)) := by
    have : ip ∉ ({dp} : Finset Slot) := by simpa using hne
    simp only [Share.unlock, Share.lock, Share.inDir, Share.see, Finset.erase_insert this]
  rw [hun, h1]
  exact h S' fun jp hj hhas => h2 jp (Finset.mem_insert_of_mem (hS jp hj hhas))
    (Or.inr ((hhas.trans (hle _)).trans (Share.has_add_ge (by decide) c _ _)))

theorem Free.enterDir (hc : Free c) (h : Safe cont (c.inDir dp (insert dp S) none) R) :
    Safe (do perform (.enterDir dp); Fs.ilock dp; cont) ((c.add (.inode dp) 1).see S) R := by
  refine safe_op hc.busy hc.lame ⟨hc.work, hc.held⟩ ?_
  rintro _ _ rfl
  refine safe_bind (safe_ilock hc.busy hc.lame (Or.inl hc.one_le) (Or.inr (Or.inl hc.held))
    fun _ => ?_)
  change Safe cont ((((c.add (.inode dp) 1).see S).workIn dp).lock dp) R
  rw [hc.lock_dir]
  exact h

end Work

section Calls

theorem safe_create {Q : Option Slot → Share P → Prop} (hb : Free b) {path : List UInt8}
    {type : IType} {major minor : ℤ} (ht : type ≠ .free)
    (hcwd : ∀ ip, b.own.cwd = some ip → 1 ≤ b.has (.inode ip))
    (h0 : ∀ S, Keeps b S → Q none (b.see S))
    (h1 : ∀ S ip, Keeps b S → Q (some ip) (((b.add (.inode ip) 1).see S).lock ip)) :
    Safe (create path type major minor) b Q := by
  refine safe_bind (safe_namex hb hcwd h0 fun S dp name hS _ => hb.enterDir ?_)
  have hd := Finset.mem_insert_self dp S
  have hw := hb.works hd
  refine safe_op hw.busy hw.lame hw.open.loaded ?_
  rintro (_ | ⟨ip, off⟩) _ rfl
  · refine safe_bind (hw.createIn ht fun ip hne => ?_)
    refine safe_op hw.busy rfl trivial ?_
    rintro _ _ rfl
    obtain ⟨S', h2, h3⟩ := hb.leave_both (S := insert dp S) (k := some (ip, true)) hne
    have h4 := h1 S' ip fun jp hj hhas => h3 jp (hS.insert jp hj hhas) (Or.inr hhas)
    rw [← h2, ← Share.made_inDir] at h4
    exact h4
  · rw [Share.find_inDir]
    refine (hb.add (by decide)).leaveDir (fun _ => Share.has_add_ge (by decide) b _ _) hS.insert
      fun S' hS' => safe_bind (hb.ilock ?_)
    refine safe_look hb.busy hb.lame trivial (fun _ _ => id) fun d => ?_
    split_ifs
    · exact h1 S' ip hS'
    · exact safe_bind (hb.unlockput (fun _ => le_rfl) hS' h0)

structure Begun (b : Share P) : Prop extends Free b where
  bal : b.bal = 0
  blank : b.blank = ∅
  via : b.via = none
  child : b.child = none
  cwd : ∀ ip, b.own.cwd = some ip → ip ∈ b.seen

omit [DecidableEq P] in
theorem Begun.has_cwd (h : Begun b) (hc : b.own.cwd = some ip) : 1 ≤ b.has (.inode ip) := by
  simp [Share.has, h.bal, Proc.assets, hc]

omit [DecidableEq P] in
theorem Begun.idle (h : Begun b) (hS : Keeps b S) : Share.Idle { b.see S with tx := false } where
  bal := h.bal
  tx := rfl
  held := h.held
  sole := h.sole
  lame := h.lame
  blank := h.blank
  child := h.child
  fresh := h.fresh
  work := h.work
  cwd ip hc := hS ip (h.cwd ip hc) (h.has_cwd hc)

variable {r : ℤ}

theorem Begun.done (h : Begun b) (hS : Keeps b S) :
    Safe (do perform .endOp; return r) (b.see S) fun _ l => l.Idle := by
  refine safe_op h.busy h.lame h.tx ?_
  rintro _ _ rfl
  exact h.idle hS

theorem Begun.linkBad (h : Begun b) (hS : Keeps b S) :
    Safe (linkBad ip) ((b.add (.inode ip) 1).see S) fun _ l => l.Idle := by
  refine safe_bind (h.ilock ?_)
  refine safe_look h.busy h.lame ⟨Finset.mem_insert_self _ _, h.one_le, h.tx⟩ (fun _ _ => id)
    fun _ => ?_
  exact safe_bind (h.unlockput (fun _ => le_rfl) hS fun S' hS' => h.done hS')

theorem Begun.sysLink {old new : List UInt8} {l : Share P} (h : Begun { l with tx := true })
    (htx : l.tx = false) : Safe (sysLink old new) l fun _ l => l.Idle := by
  refine safe_op h.busy h.lame htx ?_
  rintro _ _ rfl
  refine safe_bind (safe_namei h.toFree (fun ip => h.has_cwd) (fun S hS => h.done hS)
    fun S ip hS => safe_bind (h.ilock ?_))
  refine safe_look h.busy h.lame trivial (fun _ _ => id) fun d => ?_
  split_ifs
  · exact safe_bind (h.unlockput (fun _ => le_rfl) hS fun S' hS' => h.done hS')
  · refine safe_look h.busy h.lame ⟨Finset.mem_insert_self _ _, h.one_le, h.tx⟩ (fun _ _ => id)
      fun _ => safe_bind (h.iunlock ?_)
    -- the second walk, with a reference to the inode in hand
    have hc := (h.toFree.add (k := .inode ip) (n := 1) (by decide)).see (S := insert ip S)
    have hle : ∀ jp, Share.has { l with tx := true } (.inode jp) ≤
        ((Share.add { l with tx := true } (.inode ip) 1).see (insert ip S)).has (.inode jp) :=
      fun _ => Share.has_add_ge (by decide) { l with tx := true } _ _
    have hsub : S ⊆ insert ip S := Finset.subset_insert ip S
    refine safe_bind (safe_namex hc (fun jp hj => (h.has_cwd hj).trans (hle _))
      (fun S' hS' => h.linkBad (hS.trans hle hsub hS')) fun S' dp name hS' _ => hc.enterDir ?_)
    have hw := hc.works (Finset.mem_insert_self dp S')
    have hkeep := hS.trans hle hsub hS'
    refine safe_look hw.busy hw.lame trivial (fun _ _ => id) fun inum => ?_
    refine safe_bind (safe_dirlink hw.open hw.tx hw.new hw.nonneg (fun jp => ?_) ?_
      fun jp hj => ?_)
    · rw [Share.find_inDir]
      exact Or.inr (Or.inr (Or.inl ⟨dp, _, rfl, rfl, rfl⟩))
    · rw [if_neg (by decide)]
      exact hc.leaveDir hle hkeep.insert fun S₂ hS₂ =>
        safe_bind (h.iput (fun _ => le_rfl) hS₂ fun S₃ hS₃ => h.done hS₃)
    · obtain ⟨S₁, h1, h2⟩ := Share.put_inDir (S := insert dp S') (k := some (jp, decide
        (name ≠ dot ∧ name ≠ dotdot))) hc.lame (show jp ≠ dp by simpa [Share.inDir] using hj)
      rw [if_pos (by decide), Share.find_inDir, h1]
      refine hc.leaveDir hle (fun kp hk hhas => ?_) fun S₂ hS₂ => h.linkBad hS₂
      exact h2 kp (hkeep.insert kp hk hhas)
        (Or.inr ((hhas.trans (hle _)).trans (Share.has_add_ge (by decide) _ _ _)))

theorem Begun.unlinkBad (h : Begun b) {k : Option (Slot × Bool)} (hS : Keeps b S) :
    Safe (unlinkBad dp) (b.inDir dp S k) fun _ l => l.Idle :=
  h.leaveDir (fun _ => le_rfl) hS fun _ hS' => h.done hS'

theorem Begun.unlinkEntry (h : Begun b) {d : Bool} {off : ℕ} {type : IType} (hS : Keeps b S)
    (hd : dp ∈ S) (hne : ip ≠ dp) : Safe (unlinkEntry dp ip off type)
      (((b.add (.inode ip) 1).inDir dp S (some (ip, d))).lock ip) fun _ l => l.Idle := by
  have hb := h.both (d := d) hd hne
  refine safe_bind (safe_writei hb.openDir hb.tx fun r => ?_)
  split_ifs
  · exact safe_panic hb.busy hb.lame
  · have rest : Safe (do
        iunlockput dp
        perform .leaveDir
        perform (.addLink ip (-1))
        iunlockput ip
        perform .endOp
        return (0 : ℤ)) (((b.add (.inode ip) 1).inDir dp S (some (ip, d))).lock ip)
        fun _ l => l.Idle :=
      h.leaveBoth (fun _ => le_rfl) hS hd hne fun S' hS' =>
        safe_look h.busy h.lame ⟨Finset.mem_insert_self _ _, h.one_le, h.tx⟩ (fun _ _ => id)
          fun _ => safe_bind (h.unlockput (fun _ => le_rfl) hS' fun _ hS₂ => h.done hS₂)
    refine safe_bind (wp_when.mpr ⟨fun _ => ?_, fun _ => rest⟩)
    refine safe_last hb.busy hb.lame ⟨hb.openDir.loaded, hb.dirHas, hb.tx⟩ ?_
    rintro _ _ rfl
    exact rest

theorem Begun.sysUnlink {path : List UInt8} {l : Share P} (h : Begun { l with tx := true })
    (htx : l.tx = false) : Safe (sysUnlink path) l fun _ l => l.Idle := by
  refine safe_op h.busy h.lame htx ?_
  rintro _ _ rfl
  refine safe_bind (safe_namex h.toFree (fun ip => h.has_cwd) (fun S hS => h.done hS)
    fun S dp name hS _ => h.enterDir ?_)
  have hd := Finset.mem_insert_self dp S
  have hw := h.works hd
  split_ifs
  · exact h.unlinkBad hS.insert
  · refine safe_op hw.busy hw.lame hw.open.loaded ?_
    rintro (_ | ⟨ip, off⟩) _ rfl
    · exact h.unlinkBad hS.insert
    · rw [Share.find_inDir]
      refine safe_bind (safe_ilock hw.busy hw.lame (Or.inl ?_)
        (Or.inr (Or.inr (Or.inl ⟨dp, _, rfl, rfl, rfl⟩))) fun hne => ?_)
      · exact h.one_le.trans (Share.has_add_ge (by decide) _ _ _)
      have hne : ip ≠ dp := by simpa [Share.inDir] using hne
      have hb := h.both (d := decide (name ≠ dot ∧ name ≠ dotdot)) hd hne
      refine safe_look hb.busy hb.lame trivial (fun _ _ => id) fun d => ?_
      split_ifs
      · exact safe_panic hb.busy hb.lame
      · refine safe_look hb.busy hb.lame hb.open.loaded (fun _ _ => id) fun empty => ?_
        split_ifs
        · exact h.unlinkEntry hS.insert hd hne
        · exact safe_bind (h.putFound (fun _ => le_rfl) hS.insert hd hne
            fun S' hS' => h.unlinkBad hS')
      · exact h.unlinkEntry hS.insert hd hne

end Calls

end Xv6.Fs
