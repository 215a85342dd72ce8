import Xv6.Fs.Share

/-!
# Inodes and paths by the rules

`ilock`, `iunlock`, `iput`, the reads and writes of an inode and the walk along a path keep
to the rules of the shares, from any share that has what they need.
-/

namespace Xv6.Fs
open Lib Lib.Logic

variable {P : Type} [DecidableEq P] {α β : Type} {l : Share P} {ip : Slot}

abbrev Safe (c : Thread P α) (l : Share P) (Q : α → Share P → Prop) : Prop :=
  (logic P).wp c l Q

section Rules

variable {Q : β → Share P → Prop}

theorem safe_bind {c : Thread P α} {f : α → Thread P β}
    (h : Safe c l fun a l' => Safe (f a) l' Q) : Safe (c >>= f) l Q := wp_bind.mpr h

theorem safe_op {o : Op P} {f : Ans o → Thread P β} (hb : l.busy = true) (hl : l.lame = none)
    (hpre : pre o l) (h : ∀ a l', post o l a l' → Safe (f a) l' Q) :
    Safe (perform o >>= f) l Q :=
  safe_bind ⟨⟨hb, fun _ hi => absurd (hl.symm.trans hi) nofun, hpre⟩, h⟩

theorem safe_look {o : Op P} {f : Ans o → Thread P β} (hb : l.busy = true) (hl : l.lame = none)
    (hpre : pre o l) (hsame : ∀ a l', post o l a l' → l' = l) (h : ∀ a, Safe (f a) l Q) :
    Safe (perform o >>= f) l Q :=
  safe_op hb hl hpre fun a l' hp => hsame a l' hp ▸ h a

theorem safe_ask {o : Op P} {f : Ans o → Thread P β} {φ : Ans o → Prop} (hb : l.busy = true)
    (hl : l.lame = none) (hpre : pre o l) (hpost : ∀ a l', post o l a l' → φ a ∧ l' = l)
    (h : ∀ a, φ a → Safe (f a) l Q) : Safe (perform o >>= f) l Q :=
  safe_op hb hl hpre fun a l' hp => (hpost a l' hp).2 ▸ h a (hpost a l' hp).1

theorem safe_last {o : Op P} {Q : Ans o → Share P → Prop} (hb : l.busy = true)
    (hl : l.lame = none) (hpre : pre o l) (h : ∀ a l', post o l a l' → Q a l') :
    Safe (perform o) l Q :=
  ⟨⟨hb, fun _ hi => absurd (hl.symm.trans hi) nofun, hpre⟩, h⟩

theorem safe_panic {m : String} (hb : l.busy = true) (hl : l.lame = none) :
    Safe (panic m) l Q :=
  ⟨⟨hb, fun _ hi => absurd (hl.symm.trans hi) nofun, trivial⟩, fun _ _ h => h.elim⟩

end Rules

namespace Share

def lock (l : Share P) (ip : Slot) : Share P :=
  { l with held := insert ip l.held, loaded := insert ip l.loaded, seen := insert ip l.seen }

def unlock (l : Share P) (ip : Slot) : Share P :=
  { l with held := l.held.erase ip, loaded := l.loaded.erase ip }

def put (l : Share P) (ip : Slot) : Share P :=
  { l.drop ip with loaded := l.loaded.erase ip }

omit [DecidableEq P] in
theorem mem_put_seen {jp : Slot} (hj : jp ∈ l.seen) (h : jp ≠ ip ∨ 2 ≤ l.has (.inode jp)) :
    jp ∈ (l.put ip).seen := by
  change jp ∈ if 2 ≤ l.has (.inode ip) then l.seen else l.seen.erase ip
  split_ifs with h2
  · exact hj
  · refine Finset.mem_erase.mpr ⟨?_, hj⟩
    rintro rfl
    exact h.elim (fun h => h rfl) h2

end Share

section Inodes

variable {Q : Unit → Share P → Prop}

theorem safe_ilock (hb : l.busy = true) (hl : l.lame = none) (hH : l.Holds ip)
    (ho : l.Ordered ip) (h : ip ∉ l.held → Q () (l.lock ip)) : Safe (ilock ip) l Q := by
  refine safe_look hb hl trivial (fun _ _ => id) fun r => ?_
  split_ifs
  · exact safe_panic hb hl
  · refine safe_op hb hl ⟨hH, ho⟩ ?_
    rintro _ _ ⟨hnot, rfl⟩
    refine safe_last hb hl ⟨Finset.mem_insert_self _ _, hH⟩ ?_
    rintro _ _ rfl
    exact h hnot

theorem safe_iunlock (hb : l.busy = true) (hl : l.lame = none) (hi : ip ∈ l.held)
    (hs : l.sole = none) (h : Q () (l.unlock ip)) : Safe (iunlock ip) l Q := by
  refine safe_look hb hl trivial (fun _ _ => id) fun held => ?_
  refine safe_look hb hl trivial (fun _ _ => id) fun r => ?_
  split_ifs
  · exact safe_panic hb hl
  · refine safe_last hb hl ⟨hi, hs⟩ ?_
    rintro _ _ rfl
    exact h

theorem safe_iput (hb : l.busy = true) (hl : l.lame = none) (hs : l.sole = none)
    (hn : l.new = none) (htx : l.tx = true) (hH : 1 ≤ l.has (.inode ip)) (ho : l.Ordered ip)
    (h : ip ∉ l.held → Q () (l.put ip)) : Safe (iput ip) l Q := by
  refine safe_op hb hl ⟨Or.inl hH, ho⟩ ?_
  rintro _ _ ⟨hnot, rfl⟩
  have hmem : ip ∈ insert ip l.held := Finset.mem_insert_self _ _
  have herase : (insert ip l.held).erase ip = l.held := Finset.erase_insert hnot
  refine safe_op hb hl ⟨hmem, hH, hs⟩ ?_
  rintro last _ ⟨hone, rfl⟩
  refine safe_bind (wp_when.mpr ⟨fun hlast => ?_, fun hlast => ?_⟩)
  · -- the inode is freed, and nobody has it any more
    have hno : ¬ 2 ≤ l.has (.inode ip) := by
      have : l.has (.inode ip) ≤ 1 := hone hlast
      omega
    rw [if_pos hlast]
    refine safe_last hb hl ⟨rfl, htx⟩ ?_
    rintro _ _ rfl
    refine safe_bind ⟨⟨hb, fun _ hi => Or.inl (by rw [Option.some.inj hi]), hmem, rfl⟩, ?_⟩
    rintro _ _ rfl
    refine ⟨⟨hb, fun _ hi => Or.inr (by rw [Option.some.inj hi]), hH,
      Finset.notMem_erase ip _, rfl, hn⟩, ?_⟩
    rintro _ _ rfl
    have hput := h hnot
    simp only [Share.put, Share.drop, Share.add, if_neg hno, hs] at hput
    simp only [Share.drop, Share.add, Share.has, herase, Finset.erase_idem, ite_self]
    exact hput
  · rw [if_neg hlast]
    refine ⟨⟨hb, fun _ hi => Or.inl (by rw [Option.some.inj hi]), hmem, hs⟩, ?_⟩
    rintro _ _ rfl
    refine ⟨⟨hb, fun _ hi => Or.inr (by rw [Option.some.inj hi]), hH,
      Finset.notMem_erase ip _, rfl, hn⟩, ?_⟩
    rintro _ _ rfl
    simp only [Share.drop, Share.add, herase]
    exact h hnot

theorem safe_iunlockput (hb : l.busy = true) (hl : l.lame = none) (hs : l.sole = none)
    (hn : l.new = none) (htx : l.tx = true) (hH : 1 ≤ l.has (.inode ip)) (hi : ip ∈ l.held)
    (ho : (l.unlock ip).Ordered ip) (h : Q () ((l.unlock ip).put ip)) :
    Safe (iunlockput ip) l Q :=
  safe_bind (safe_iunlock hb hl hi hs (safe_iput hb hl hs hn htx hH ho fun _ => h))

end Inodes

structure Open (l : Share P) (ip : Slot) : Prop where
  busy : l.busy = true
  lame : l.lame = none
  sole : l.sole = none
  held : ip ∈ l.held
  loaded : ip ∈ l.loaded
  seen : ip ∈ l.seen
  holds : l.Holds ip
  again : (l.unlock ip).Ordered ip

section Contents

variable {Q : ℤ → Share P → Prop}

omit [DecidableEq P] in
theorem Open.relock (h : Open l ip) : (l.unlock ip).lock ip = l := by
  simp only [Share.unlock, Share.lock, Finset.insert_erase h.held, Finset.insert_erase h.loaded,
    Finset.insert_eq_of_mem h.seen]

theorem safe_device {io : Thread P ℤ} (ho : Open l ip)
    (hio : ∀ R, (∀ r, R r (l.unlock ip)) → Safe io (l.unlock ip) R) (h : ∀ r, Q r l) :
    Safe (device ip io) l Q := by
  refine safe_bind (safe_iunlock ho.busy ho.lame ho.held ho.sole ?_)
  refine safe_bind (hio _ fun r => safe_bind ?_)
  refine safe_ilock ho.busy ho.lame ho.holds ho.again fun _ => ?_
  rw [ho.relock]
  exact h r

theorem safe_readi {off n : ℕ} (ho : Open l ip) (h : ∀ r, Q r l) : Safe (readi ip off n) l Q := by
  refine safe_look ho.busy ho.lame trivial (fun _ _ => id) fun d => ?_
  split_ifs
  · exact h _
  · refine safe_device ho (fun R hR => safe_last ho.busy ho.lame trivial ?_) h
    rintro r _ rfl
    exact hR r
  · exact safe_look ho.busy ho.lame ho.loaded (fun _ _ => id) fun r => h _

theorem safe_writei {off : ℕ} {src : List UInt8} (ho : Open l ip) (htx : l.tx = true)
    (h : ∀ r, Q r l) : Safe (writei ip off src) l Q := by
  refine safe_look ho.busy ho.lame trivial (fun _ _ => id) fun d => ?_
  split_ifs
  · exact h _
  · exact safe_device ho (fun R hR => hR _) h
  · refine safe_last ho.busy ho.lame ⟨ho.loaded, htx⟩ ?_
    rintro r _ rfl
    exact h _

omit [DecidableEq P] in
theorem Share.has_find (l : Share P) (dp : Slot) (name : Name) (jp : Slot) (k : Key) :
    (l.find dp name jp).has k = l.has k + if k = .inode jp then 1 else 0 := by
  rw [← Share.has_add]
  unfold Share.find
  split_ifs <;> rfl

omit [DecidableEq P] in
theorem Share.find_rest (l : Share P) (dp : Slot) (name : Name) (jp : Slot) :
    (l.find dp name jp).busy = l.busy ∧ (l.find dp name jp).lame = l.lame ∧
      (l.find dp name jp).sole = l.sole ∧ (l.find dp name jp).new = l.new ∧
      (l.find dp name jp).tx = l.tx ∧ (l.find dp name jp).held = l.held := by
  unfold Share.find
  split_ifs <;> exact ⟨rfl, rfl, rfl, rfl, rfl, rfl⟩

theorem safe_dirlink {name : Name} {inum : ℕ} (ho : Open l ip) (htx : l.tx = true)
    (hn : l.new = none) (hpos : ∀ k, 0 ≤ l.has k)
    (hf : ∀ jp, (l.find ip name jp).Ordered jp) (h0 : Q 0 l)
    (h1 : ∀ jp, jp ∉ l.held → Q (-1) ((l.find ip name jp).put jp)) :
    Safe (dirlink ip name inum) l Q := by
  refine safe_op ho.busy ho.lame ho.loaded ?_
  rintro (_ | ⟨jp, off⟩) _ rfl
  · refine safe_look ho.busy ho.lame ho.loaded (fun _ _ => id) fun off => ?_
    refine safe_bind (safe_writei ho htx fun r => ?_)
    split_ifs
    · exact safe_panic ho.busy ho.lame
    · exact h0
  · obtain ⟨f1, f2, f3, f4, f5, f6⟩ := l.find_rest ip name jp
    refine safe_bind (safe_iput (f1.trans ho.busy) (f2.trans ho.lame) (f3.trans ho.sole)
      (f4.trans hn) (f5.trans htx) ?_ (hf jp) fun hj => h1 jp (f6 ▸ hj))
    rw [Share.has_find, if_pos rfl]
    have := hpos (.inode jp)
    omega

end Contents

section Walk

structure Calm (b : Share P) : Prop where
  busy : b.busy = true
  tx : b.tx = true
  lame : b.lame = none
  sole : b.sole = none
  fresh : b.fresh = none
  new : b.new = none
  work : b.work = none
  kid : b.kid = none
  nonneg : ∀ k, 0 ≤ b.has k

structure Free (b : Share P) : Prop extends Calm b where
  held : b.held = ∅
  loaded : b.loaded = ∅

def Keeps (b : Share P) (S : Finset Slot) : Prop :=
  ∀ jp ∈ b.seen, 1 ≤ b.has (.inode jp) → jp ∈ S

def Share.see (l : Share P) (S : Finset Slot) : Share P := { l with seen := S }

variable {b : Share P} {S : Finset Slot}

omit [DecidableEq P] in
theorem Free.add {k : Key} {n : ℤ} (h : Free b) (hn : 0 ≤ n) : Free (b.add k n) :=
  { h with nonneg := fun k' => (h.nonneg k').trans (Share.has_add_ge hn b k k') }

omit [DecidableEq P] in
theorem Free.see (h : Free b) : Free (b.see S) := { h with }

omit [DecidableEq P] in
theorem Free.ordered (h : Free b) : b.Ordered ip := Or.inr (Or.inl h.held)

omit [DecidableEq P] in
theorem Free.one_le (h : Free b) : 1 ≤ (b.add (.inode ip) 1).has (.inode ip) := by
  have := h.nonneg (.inode ip)
  have hhas := b.has_add_self (.inode ip) 1
  omega

omit [DecidableEq P] in
theorem Share.lock_unlock (hh : b.held = ∅) (hl : b.loaded = ∅) :
    (b.lock ip).unlock ip = b.see (insert ip b.seen) := by
  have : ip ∉ (∅ : Finset Slot) := Finset.notMem_empty ip
  simp only [Share.lock, Share.unlock, Share.see, hh, hl, Finset.erase_insert this]

omit [DecidableEq P] in
theorem Free.lock_unlock (h : Free b) : (b.lock ip).unlock ip = b.see (insert ip b.seen) :=
  Share.lock_unlock h.held h.loaded

omit [DecidableEq P] in
theorem Share.put_add (b : Share P) (S : Finset Slot) (hl : b.lame = none) (hload : ip ∉ b.loaded) :
    ∃ S', ((b.add (.inode ip) 1).see S).put ip = b.see S' ∧
      ∀ jp ∈ S, jp ≠ ip ∨ 1 ≤ b.has (.inode jp) → jp ∈ S' := by
  refine ⟨(((b.add (.inode ip) 1).see S).put ip).seen, ?_, fun jp hj hjp => ?_⟩
  · have hbal : b.bal + Pi.single (.inode ip) 1 + Pi.single (.inode ip) (-1) = b.bal := by
      rw [Pi.single_neg, add_neg_cancel_right]
    have hload' : b.loaded.erase ip = b.loaded := Finset.erase_eq_of_notMem hload
    simp only [Share.put, Share.drop, Share.see, Share.add, hbal, hload', hl]
  · by_cases hji : jp = ip
    · subst hji
      refine Share.mem_put_seen hj (Or.inr ?_)
      change 2 ≤ (b.add (.inode jp) 1).has (.inode jp)
      have h1 := hjp.resolve_left (· rfl)
      have h2 := b.has_add_self (.inode jp) 1
      omega
    · exact Share.mem_put_seen hj (Or.inl hji)

omit [DecidableEq P] in
theorem Keeps.insert (h : Keeps b S) : Keeps b (insert ip S) := fun jp hj h1 =>
  Finset.mem_insert_of_mem (h jp hj h1)

omit [DecidableEq P] in
theorem Keeps.trans {c : Share P} {S' : Finset Slot} (h : Keeps b S)
    (hle : ∀ jp, b.has (.inode jp) ≤ c.has (.inode jp)) (hsub : S ⊆ c.seen) (h' : Keeps c S') : Keeps b S' :=
  fun jp hj h1 => h' jp (hsub (h jp hj h1)) (h1.trans (hle _))

omit [DecidableEq P] in
theorem Free.put {c : Share P} (hc : Free c) (ip : Slot)
    (hle : ∀ jp, b.has (.inode jp) ≤ c.has (.inode jp)) (hS : Keeps b S) :
    ∃ S', ((c.add (.inode ip) 1).see S).put ip = c.see S' ∧ Keeps b S' := by
  obtain ⟨S', h1, h2⟩ := c.put_add S hc.lame (hc.loaded ▸ Finset.notMem_empty ip)
  exact ⟨S', h1, fun jp hj hhas => h2 jp (hS jp hj hhas) (Or.inr (hhas.trans (hle _)))⟩

section Last

variable {Q : Unit → Share P → Prop} {c : Share P}

theorem Free.iput (hc : Free c) (hle : ∀ jp, b.has (.inode jp) ≤ c.has (.inode jp)) (hS : Keeps b S)
    (h : ∀ S, Keeps b S → Q () (c.see S)) :
    Safe (Fs.iput ip) ((c.add (.inode ip) 1).see S) Q := by
  obtain ⟨S', h1, h2⟩ := hc.put ip hle hS
  have hf := (hc.add (k := .inode ip) (n := 1) (by decide)).see (S := S)
  refine safe_iput hf.busy hf.lame hf.sole hf.new hf.tx hc.one_le hf.ordered fun _ => ?_
  rw [h1]
  exact h S' h2

theorem Free.ilock (hb : Free b) (h : Q () (((b.add (.inode ip) 1).see S).lock ip)) :
    Safe (Fs.ilock ip) ((b.add (.inode ip) 1).see S) Q := by
  have hf := (hb.add (k := .inode ip) (n := 1) (by decide)).see (S := S)
  exact safe_ilock hf.busy hf.lame (Or.inl hb.one_le) hf.ordered fun _ => h

theorem Free.iunlock (hb : Free b) (h : Q () ((b.add (.inode ip) 1).see (insert ip S))) :
    Safe (Fs.iunlock ip) (((b.add (.inode ip) 1).see S).lock ip) Q := by
  have hf := (hb.add (k := .inode ip) (n := 1) (by decide)).see (S := S)
  refine safe_iunlock hf.busy hf.lame (Finset.mem_insert_self _ _) hf.sole ?_
  rw [hf.lock_unlock]
  exact h

theorem Free.unlockput (hc : Free c) (hle : ∀ jp, b.has (.inode jp) ≤ c.has (.inode jp)) (hS : Keeps b S)
    (h : ∀ S, Keeps b S → Q () (c.see S)) :
    Safe (iunlockput ip) (((c.add (.inode ip) 1).see S).lock ip) Q :=
  safe_bind (hc.iunlock (hc.iput hle hS.insert h))

end Last

variable {Q : Option (Slot × Name) → Share P → Prop} {np : Bool}

theorem safe_namexFrom (hb : Free b) (path : List Name) (hS : Keeps b S)
    (h0 : ∀ S, Keeps b S → Q none (b.see S))
    (h1 : ∀ S jp name, Keeps b S → (np = true → jp ∈ S) →
      Q (some (jp, name)) ((b.add (.inode jp) 1).see S)) :
    Safe (namexFrom np path ip) ((b.add (.inode ip) 1).see S) Q := by
  induction path generalizing ip S with
  | nil =>
    unfold namexFrom
    split_ifs with hnp
    · exact safe_bind (hb.iput (fun _ => le_rfl) hS h0)
    · exact h1 S ip [] hS fun h => absurd h hnp
  | cons name path ih =>
    have hf := (hb.add (k := .inode ip) (n := 1) (by decide)).see (S := S)
    have out : Safe (do iunlockput ip; return none) (((b.add (.inode ip) 1).see S).lock ip) Q :=
      safe_bind (hb.unlockput (fun _ => le_rfl) hS h0)
    unfold namexFrom
    refine safe_bind (hb.ilock ?_)
    refine safe_look hf.busy hf.lame trivial (fun _ _ => id) fun d => ?_
    split_ifs with ht hnp
    · exact out
    · exact safe_bind (hb.iunlock (h1 _ ip name hS.insert fun _ => Finset.mem_insert_self _ _))
    · refine safe_op hf.busy hf.lame (Finset.mem_insert_self _ _) ?_
      rintro (_ | ⟨next, off⟩) _ rfl
      · exact out
      · -- `iput` of the inode that the walk leaves, with the next one in hand
        have hnext := hb.add (k := .inode next) (n := 1) (by decide)
        have hfind : (((b.add (.inode ip) 1).see S).lock ip).find ip name next =
            (((b.add (.inode next) 1).add (.inode ip) 1).see S).lock ip := by
          rw [Share.add_comm]
          exact if_pos hf.work
        rw [hfind]
        exact safe_bind (hnext.unlockput (fun _ => Share.has_add_ge (by decide) b _ _) hS
          fun S' hS' => ih hS')

theorem safe_namex (hb : Free b) {path : List UInt8}
    (hcwd : ∀ ip, b.own.cwd = some ip → 1 ≤ b.has (.inode ip))
    (h0 : ∀ S, Keeps b S → Q none (b.see S))
    (h1 : ∀ S jp name, Keeps b S → (np = true → jp ∈ S) →
      Q (some (jp, name)) ((b.add (.inode jp) 1).see S)) : Safe (namex path np) b Q := by
  have hS : Keeps b b.seen := fun _ hj _ => hj
  unfold namex
  split_ifs
  · refine safe_op hb.busy hb.lame trivial ?_
    rintro ip _ rfl
    have : (if b.fresh = some ROOTINO then
        { b.add (.inode ip) 1 with new := some ip, kid := some (ip, true) }
        else b.add (.inode ip) 1) = (b.add (.inode ip) 1).see b.seen := by
      rw [hb.fresh, if_neg nofun]
      rfl
    rw [this]
    exact safe_namexFrom hb _ hS h0 h1
  · refine safe_op hb.busy hb.lame trivial ?_
    rintro ip _ ⟨hc, rfl⟩
    refine safe_op hb.busy hb.lame (Or.inl (hcwd ip hc)) ?_
    rintro _ _ rfl
    exact safe_namexFrom hb _ hS h0 h1

theorem safe_namei {Q : Option Slot → Share P → Prop} (hb : Free b) {path : List UInt8}
    (hcwd : ∀ ip, b.own.cwd = some ip → 1 ≤ b.has (.inode ip))
    (h0 : ∀ S, Keeps b S → Q none (b.see S))
    (h1 : ∀ S jp, Keeps b S → Q (some jp) ((b.add (.inode jp) 1).see S)) :
    Safe (namei path) b Q :=
  safe_bind (safe_namex hb hcwd h0 fun S jp _ hS _ => h1 S jp hS)

end Walk

end Xv6.Fs
