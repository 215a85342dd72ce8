import Xv6.Bio.Machine

/-!
# The buffer cache is coherent

`Coherent s a` relates the cache to the plain blocks `a`: a valid buffer has the data of its
block, and a block that differs on the disk is in a dirty buffer.
-/

namespace Xv6.Bio
open Function Lib Ide

variable {P B : Type}

namespace Ring

variable {r : Ring B} {l : List B}

theorem nodup_nodes (h : l.Nodup) : ((none : Option B) :: l.map some).Nodup :=
  List.nodup_cons.mpr ⟨by simp, h.map (Option.some_injective B)⟩

variable [DecidableEq B]

theorem Holds.touch (h : r.Holds l) (b : B) : ((r.unlink b).push b).Holds (b :: l.erase b) := by
  have hperm := List.perm_cons_erase (h.all b)
  have hnodup : (b :: l.erase b).Nodup := hperm.nodup_iff.mp h.nodup
  refine ⟨?_, hnodup, fun c => hperm.mem_iff.mp (h.all c)⟩
  obtain ⟨l₁, l₂, -, hl, herase⟩ := List.exists_erase_eq (h.all b)
  have hlinked := h.linked
  have hnodes := nodup_nodes h.nodup
  rw [hl, List.map_append, List.map_cons] at hlinked hnodes
  have hunlinked := hlinked.unlink hnodes
  rw [← List.map_append, ← herase] at hunlinked
  refine hunlinked.push (nodup_nodes hnodup.of_cons) ?_
  simpa using (List.nodup_cons.mp hnodup).1

theorem linked_binit {bs : List B} (h : Linked r.next r.prev (none :: (l.map some ++ [none])))
    (hnodup : (bs.reverse ++ l).Nodup) :
    Linked (bs.foldl push r).next (bs.foldl push r).prev
      (none :: ((bs.reverse ++ l).map some ++ [none])) := by
  induction bs generalizing r l with
  | nil => exact h
  | cons b bs ih =>
    rw [List.reverse_cons, List.append_assoc, List.singleton_append] at hnodup ⊢
    have hbl := (List.nodup_append.mp hnodup).2.1
    exact ih (h.push (nodup_nodes hbl.of_cons) (by simpa using (List.nodup_cons.mp hbl).1)) hnodup

end Ring

/-- `bget` finds the buffer of the block, or takes one that is free and clean. -/
inductive Gets [DecidableEq B] (s : Bcache P B) (dev k : ℕ) : Outcome (B × Bcache P B) → Prop
  | hit {b} : (s.buf b).dev = dev → (s.buf b).blockno = k →
      Gets s dev k (.ret (b, { s with refcnt := update s.refcnt b (s.refcnt b + 1) }))
  | recycle {b} : (∀ c, (s.buf c).dev = dev → (s.buf c).blockno ≠ k) → s.refcnt b = 0 →
      (s.buf b).dirty = false →
      Gets s dev k (.ret (b, { s with
        buf := update s.buf b
          { s.buf b with dev := dev, blockno := k, valid := false, dirty := false }
        refcnt := update s.refcnt b 1 }))
  | full : (∀ c, (s.buf c).dev = dev → (s.buf c).blockno ≠ k) →
      (∀ b, s.refcnt b = 0 → (s.buf b).dirty = true) → Gets s dev k (.panic "bget: no buffers")

theorem gets_bget [DecidableEq B] [Fintype B] (s : Bcache P B) {l : List B} (hl : s.ring.Holds l)
    (dev k : ℕ) : Gets s dev k (s.bget dev k) := by
  have hrev : Linked s.ring.prev s.ring.next (none :: (l.reverse.map some ++ [none])) := by
    simpa using hl.linked.reverse
  rw [Bcache.bget, seek_eq hl.linked hl.nodup.length_le_card, Outcome.ret_bind]
  cases hfind : l.find? fun b => (s.buf b).dev = dev ∧ (s.buf b).blockno = k with
  | some b =>
    have hb := List.find?_some hfind
    simp only [decide_eq_true_eq] at hb
    exact .hit hb.1 hb.2
  | none =>
    have hno : ∀ c, (s.buf c).dev = dev → (s.buf c).blockno ≠ k := fun c hc hck => by
      simpa [hc, hck] using List.find?_eq_none.mp hfind c (hl.all c)
    dsimp only
    rw [seek_eq hrev (l.length_reverse.le.trans hl.nodup.length_le_card), Outcome.ret_bind]
    cases hfree : l.reverse.find? fun b => s.refcnt b = 0 ∧ (s.buf b).dirty = false with
    | some b =>
      have hb := List.find?_some hfree
      simp only [decide_eq_true_eq] at hb
      exact .recycle hno hb.1 hb.2
    | none =>
      refine .full hno fun b hb => ?_
      simpa [hb] using List.find?_eq_none.mp hfree b (by simpa using hl.all b)

def Use.holds (u : Use B) : Option ℕ := if u.stage = .held then some u.blockno else none

structure Knows (x : Buf P) (p : P) (u : Use B) : Prop where
  dev : x.dev = 1
  blockno : x.blockno = u.blockno
  range : u.blockno < FSSIZE
  held : u.stage = .held → x.lock = some p ∧ x.valid = true

structure Locked (buf : B → Buf P) (uses : P → Option (Use B)) : Prop where
  knows : ∀ p u, uses p = some u → Knows (buf u.b) p u
  owner : ∀ b p, (buf b).lock = some p → ∃ k, uses p = some ⟨b, k, .held⟩

/-- A buffer for a block with the data `v`, of which the disk has `d`. -/
structure Caches (x : Buf P) (d v : Bytes) : Prop where
  data : x.valid = true → x.data = v
  disk : d = v ∨ x.valid = true ∧ x.dirty = true
  dirty : x.dirty = true → x.valid = true

structure Stored (buf : B → Buf P) (disk data : ℕ → Bytes) : Prop where
  unique : ∀ b c, (buf b).dev = 1 → (buf c).dev = 1 → (buf b).blockno = (buf c).blockno → b = c
  caches : ∀ b, (buf b).dev = 1 → Caches (buf b) (disk (buf b).blockno) (data (buf b).blockno)
  absent : ∀ k, (∀ b, (buf b).dev = 1 → (buf b).blockno ≠ k) → disk k = data k

/-- The uses of a buffer. -/
def users [Fintype P] [DecidableEq B] (uses : P → Option (Use B)) (b : B) : Finset P :=
  Finset.univ.filter fun p => (Option.map Use.b ∘ uses) p = some b

structure Coherent [Fintype P] [DecidableEq B] (s : Bcache P B) (a : Blocks P) : Prop where
  ring : ∃ l, s.ring.Holds l
  count : ∀ b, s.refcnt b = (users s.uses b).card
  locked : Locked s.buf s.uses
  stored : Stored s.buf s.disk a.data
  holder : a.holder = (Option.bind · Use.holds) ∘ s.uses

theorem Stored.set [DecidableEq B] {buf : B → Buf P} {disk data d v : ℕ → Bytes} {x : Buf P} {b : B}
    {k : ℕ} (h : Stored buf disk data) (hx : x.dev = 1 ∧ x.blockno = k)
    (hother : ∀ c, c ≠ b → (buf c).dev = 1 → (buf c).blockno ≠ k)
    (hcache : Caches x (d k) (v k)) (hsame : ∀ j, j ≠ k → d j = disk j ∧ v j = data j)
    (hleave : (buf b).dev = 1 → (buf b).blockno ≠ k → (buf b).dirty = false) :
    Stored (update buf b x) d v := by
  refine ⟨fun c e hc he heq => ?_, fun c hc => ?_, fun j hj => ?_⟩
  · have := h.unique c e
    grind [update_apply]
  · have := h.caches c
    grind [update_apply]
  · have hjk : j ≠ k := fun heq => hj b (by simp [hx.1]) (by simp [hx.2, heq])
    rw [(hsame j hjk).1, (hsame j hjk).2]
    by_cases hb : (buf b).dev = 1 ∧ (buf b).blockno = j
    · have := (h.caches b hb.1).disk
      grind
    · refine h.absent j fun c hc => ?_
      have := hj c
      grind [update_apply]

variable [Fintype P] [DecidableEq B] {s : Bcache P B} {a : Blocks P} {p : P} {b : B} {k : ℕ}
  {f g : Stage}

namespace Coherent

theorem holder_of (h : Coherent s a) {u : Use B} (hp : s.uses p = some u) :
    a.holder p = u.holds := by
  rw [h.holder, comp_apply, hp]
  rfl

theorem lock_of_holder (h : Coherent s a) (hdev : (s.buf b).dev = 1)
    (hno : (s.buf b).blockno = k) (hp : a.holder p = some k) : (s.buf b).lock = some p := by
  rw [h.holder] at hp
  obtain ⟨u, hu, huk⟩ := Option.bind_eq_some_iff.mp hp
  have hk := h.locked.knows p u hu
  grind [Use.holds, h.stored.unique u.b b hk.dev hdev, hk.blockno, hk.held]

theorem recycle (h : Coherent s a) (hno : ∀ c, (s.buf c).dev = 1 → (s.buf c).blockno ≠ k)
    (hfree : s.refcnt b = 0) (hclean : (s.buf b).dirty = false) :
    Coherent { s with
      buf := update s.buf b
        { s.buf b with dev := 1, blockno := k, valid := false, dirty := false } } a := by
  have hunused : ∀ q u, s.uses q = some u → u.b ≠ b := fun q u hq hu => by
    have hin : q ∈ users s.uses b := by simp [users, hq, hu]
    have := Finset.card_pos.mpr ⟨q, hin⟩
    rw [← h.count, hfree] at this
    exact absurd this (lt_irrefl 0)
  refine { h with
    locked := ⟨fun q u hq => ?_, fun c q hc => h.locked.owner c q ?_⟩
    stored := h.stored.set ⟨rfl, rfl⟩ (fun c _ => hno c)
      ⟨nofun, .inl (h.stored.absent k hno), nofun⟩ (fun _ _ => ⟨rfl, rfl⟩) fun _ _ => hclean }
  · grind [update_apply, hunused q u hq, h.locked.knows q u hq]
  · grind [update_apply]

theorem bwrite (h : Coherent s a) (hp : s.uses p = some ⟨b, k, .held⟩) (data : Bytes) :
    Bio.bwrite { s.buf b with data := data } s.disk =
      .ret ({ s.buf b with data := data, dirty := false, valid := true },
        update s.disk k data) := by
  have hk := h.locked.knows p _ hp
  simp [Bio.bwrite, Buf.iderw, Buf.Done, (hk.held rfl).1, hk.dev, hk.blockno,
    Nat.not_le.mpr hk.range]

variable [DecidableEq P]

theorem act (h : Coherent s a) {x : Buf P} {d v : ℕ → Bytes} (hp : s.uses p = some ⟨b, k, f⟩)
    (hl : (s.buf b).lock = none ∨ (s.buf b).lock = some p)
    (hx : Knows x p (⟨b, k, g⟩ : Use B)) (hlock : ∀ q, x.lock = some q → q = p ∧ g = .held)
    (hcache : Caches x (d k) (v k)) (hother : ∀ j, j ≠ k → d j = s.disk j ∧ v j = a.data j)
    {w : P → Option ℕ} (hw : w = update a.holder p (Use.holds ⟨b, k, g⟩)) :
    Coherent (s.act p ⟨b, k, g⟩ x d) ⟨v, w⟩ := by
  unfold Bcache.act
  have hk := h.locked.knows p _ hp
  refine ⟨h.ring, fun c => ?_, ⟨fun q u hq => ?_, fun c q hc => ?_⟩,
    h.stored.set ⟨hx.dev, hx.blockno⟩ (fun c hcb hc heq => ?_) hcache hother
      fun _ hne => absurd hk.blockno hne, ?_⟩
  · have hon : Option.map Use.b ∘ update s.uses p (some ⟨b, k, g⟩) = Option.map Use.b ∘ s.uses := by
      rw [comp_update]
      exact update_eq_self_iff.mpr (by rw [comp_apply, hp]; rfl)
    rw [users, hon]
    exact h.count c
  · have := h.locked.knows q u
    grind [update_apply, Knows]
  · have := h.locked.owner c q
    grind [update_apply]
  · exact hcb (h.stored.unique c b hc hk.dev (heq.trans hk.blockno.symm))
  · rw [comp_update, ← h.holder]
    exact hw

theorem reuse (h : Coherent s a) {o : Option (Use B)} {n : B → ℕ} {r : Ring B}
    (hold : ∀ u, s.uses p = some u → u.stage ≠ .held)
    (hnew : ∀ u, o = some u → u.stage ≠ .held ∧ Knows (s.buf u.b) p u)
    (hring : ∃ l, r.Holds l) (hcount : ∀ c, n c = (users (update s.uses p o) c).card) :
    Coherent { s with refcnt := n, ring := r, uses := update s.uses p o } a := by
  have hnone : ∀ o : Option (Use B), (∀ u, o = some u → u.stage ≠ .held) →
      o.bind Use.holds = none :=
    fun o ho => Option.bind_eq_none_iff.2 fun u hu => if_neg (ho u hu)
  refine ⟨hring, hcount, ⟨fun q u hq => ?_, fun c q hc => ?_⟩, h.stored, ?_⟩
  · grind [update_apply, h.locked.knows q u]
  · grind [update_apply, h.locked.owner c q hc]
  · rw [comp_update, hnone o fun u hu => (hnew u hu).1, h.holder]
    exact (update_eq_self_iff.mpr (hnone _ hold).symm).symm

end Coherent

theorem card_users [DecidableEq P] (uses : P → Option (Use B)) (u : Use B) (c : B)
    (hp : uses p = none) :
    (users (update uses p (some u)) c).card = (users uses c).card + if c = u.b then 1 else 0 := by
  have hset : users (update uses p (some u)) c =
      if c = u.b then insert p (users uses c) else users uses c := by
    ext q
    grind [users, update_apply]
  have hne : p ∉ users uses c := by simp [users, hp]
  grind [Finset.card_insert_of_notMem]

variable [DecidableEq P]

namespace Coherent

theorem take (h : Coherent s a) (hp : s.uses p = none) (hdev : (s.buf b).dev = 1)
    (hno : (s.buf b).blockno = k) (hk : k < FSSIZE) :
    Coherent { s with
      refcnt := update s.refcnt b (s.refcnt b + 1)
      uses := update s.uses p (some ⟨b, k, .wait⟩) } a := by
  refine h.reuse (fun u hu => ?_) ?_ h.ring fun c => ?_
  · cases hp.symm.trans hu
  · rintro u ⟨⟩
    exact ⟨nofun, hdev, hno, hk, nofun⟩
  · grind [update_apply, card_users _ ⟨b, k, .wait⟩ c hp, h.count c]

theorem put (h : Coherent s a) (hp : s.uses p = some ⟨b, k, .leave⟩) :
    Coherent { s.put b with uses := update s.uses p none } a := by
  obtain ⟨l, hl⟩ := h.ring
  refine h.reuse (fun u hu => ?_) nofun ?_ fun c => ?_
  · obtain rfl := Option.some.inj (hp.symm.trans hu)
    nofun
  · dsimp only [Bcache.put]
    split_ifs
    · exact ⟨_, hl.touch b⟩
    · exact ⟨l, hl⟩
  · have hcard := card_users (update s.uses p none) ⟨b, k, .leave⟩ c (update_self _ _ _)
    rw [update_idem, ← hp, update_eq_self, ← h.count] at hcard
    dsimp only [Bcache.put] at hcard ⊢
    grind [update_apply]

theorem bread (h : Coherent s a) (hp : s.uses p = some ⟨b, k, .wait⟩) (hl : (s.buf b).lock = none) :
    ∃ x d a', Bio.bread { s.buf b with lock := some p } s.disk = .ret (x, d) ∧
      Blocks.Step a (.bread p k x.data) a' ∧ Coherent (s.act p ⟨b, k, .held⟩ x d) a' := by
  have hk := h.locked.knows p _ hp
  have hc := h.stored.caches b hk.dev
  rw [hk.blockno] at hc
  have hret : Bio.bread { s.buf b with lock := some p } s.disk =
      .ret ({ s.buf b with lock := some p, valid := true, data := a.data k }, s.disk) := by
    cases hv : (s.buf b).valid with
    | true => simp [Bio.bread, ← hc.data hv, hv]
    | false =>
      have hdisk : s.disk k = a.data k := hc.disk.resolve_right fun hor => by simp [hv] at hor
      have hclean : (s.buf b).dirty = false := by simpa [hv] using mt hc.dirty
      simp [Bio.bread, hv, Buf.iderw, Buf.Done, hk.dev, hk.blockno, Nat.not_le.mpr hk.range, hclean,
        hdisk]
  have hfree : ∀ q, a.holder q ≠ some k := fun q hq => by
    cases hl.symm.trans (h.lock_of_holder hk.dev hk.blockno hq)
  exact ⟨_, _, _, hret, .bread (h.holder_of hp) hfree, h.act (g := .held) hp (.inl hl)
    (x := { s.buf b with lock := some p, valid := true, data := a.data k })
    ⟨hk.dev, hk.blockno, hk.range, fun _ => ⟨rfl, rfl⟩⟩ (by simp)
    ⟨fun _ => rfl, hc.disk.imp_right fun hor => ⟨rfl, hor.2⟩, fun _ => rfl⟩
    (fun _ _ => ⟨rfl, rfl⟩) rfl⟩

theorem store (h : Coherent s a) (hp : s.uses p = some ⟨b, k, .held⟩) {x : Buf P} {d : ℕ → Bytes}
    {data : Bytes} (hx : Knows x p (⟨b, k, .held⟩ : Use B)) (hdata : x.data = data)
    (hd : d k = data ∨ x.dirty = true) (hother : ∀ j, j ≠ k → d j = s.disk j) :
    ∃ a', Blocks.Step a (.store p k data) a' ∧ Coherent (s.act p ⟨b, k, .held⟩ x d) a' := by
  have hholder : a.holder p = some k := h.holder_of hp
  refine ⟨_, .store data hholder, h.act hp (.inr ((h.locked.knows p _ hp).held rfl).1) hx
    (by simp [(hx.held rfl).1]) ⟨fun _ => ?_, ?_, fun _ => (hx.held rfl).2⟩ (fun j hj => ?_) ?_⟩
  · rw [update_self, hdata]
  · rw [update_self]
    exact hd.imp_right fun hdirty => ⟨(hx.held rfl).2, hdirty⟩
  · exact ⟨hother j hj, update_of_ne hj _ _⟩
  · exact (update_eq_self_iff.mpr hholder.symm).symm

theorem brelse (h : Coherent s a) (hp : s.uses p = some ⟨b, k, .held⟩) :
    Bio.brelse (s.buf b) = .ret { s.buf b with lock := none } ∧
      ∃ a', Blocks.Step a (.brelse p k) a' ∧
        Coherent (s.act p ⟨b, k, .leave⟩ { s.buf b with lock := none } s.disk) a' := by
  have hk := h.locked.knows p _ hp
  have hc := h.stored.caches b hk.dev
  rw [hk.blockno] at hc
  exact ⟨by simp [Bio.brelse, (hk.held rfl).1], _, .brelse (h.holder_of hp),
    h.act (g := .leave) (x := { s.buf b with lock := none }) hp (.inr (hk.held rfl).1)
      ⟨hk.dev, hk.blockno, hk.range, nofun⟩ nofun ⟨hc.data, hc.disk, hc.dirty⟩
      (fun _ _ => ⟨rfl, rfl⟩) rfl⟩

variable [Fintype B]

theorem bget {t : Bcache P B} (h : Coherent s a) (hp : s.uses p = none) (hk : k < FSSIZE)
    (hret : s.bget 1 k = .ret (b, t)) :
    Coherent { t with uses := update s.uses p (some ⟨b, k, .wait⟩) } a := by
  obtain ⟨l, hl⟩ := h.ring
  have hgets := gets_bget s hl 1 k
  rw [hret] at hgets
  cases hgets with
  | hit hdev hno => exact h.take hp hdev hno hk
  | recycle hno hfree hclean =>
    have := (h.recycle hno hfree hclean).take (b := b) hp (by simp) (by simp) hk
    simpa [hfree] using this

theorem step {t : Bcache P B} {e : Option (Event P)} (h : Coherent s a)
    (hs : Bcache.Step s e t) : ∃ a', Runs Blocks.Step a e.toList a' ∧ Coherent t a' := by
  cases hs with
  | bget hp hk hret => exact ⟨a, .nil a, h.bget hp hk hret⟩
  | bread hp hl hret =>
    obtain ⟨x, d, a', hx, hstep, ha⟩ := h.bread hp hl
    cases hret.symm.trans hx
    exact ⟨a', .snoc (.nil a) hstep, ha⟩
  | @log_write p b k data hp =>
    have hk := h.locked.knows p _ hp
    obtain ⟨a', hstep, ha⟩ := h.store hp (x := { s.buf b with data := data, dirty := true })
      ⟨hk.dev, hk.blockno, hk.range, hk.held⟩ rfl (.inr rfl) fun _ _ => rfl
    exact ⟨a', .snoc (.nil a) hstep, ha⟩
  | @bwrite p b k x d data hp hret =>
    have hk := h.locked.knows p _ hp
    cases hret.symm.trans (h.bwrite hp data)
    obtain ⟨a', hstep, ha⟩ := h.store hp
      (x := { s.buf b with data := data, dirty := false, valid := true })
      ⟨hk.dev, hk.blockno, hk.range, fun _ => ⟨(hk.held rfl).1, rfl⟩⟩ rfl
      (.inl (update_self _ _ _)) fun j hj => update_of_ne hj _ _
    exact ⟨a', .snoc (.nil a) hstep, ha⟩
  | brelse hp hret =>
    obtain ⟨hx, a', hstep, ha⟩ := h.brelse hp
    cases hret.symm.trans hx
    exact ⟨a', .snoc (.nil a) hstep, ha⟩
  | put hp => exact ⟨a, .nil a, h.put hp⟩

end Coherent

structure Start (disk : ℕ → Bytes) (s : Bcache P B) : Prop where
  ring : ∃ bs : List B, bs.Nodup ∧ (∀ b, b ∈ bs) ∧ s.ring = .binit bs
  refcnt : ∀ b, s.refcnt b = 0
  buf : ∀ b, (s.buf b).dev ≠ 1 ∧ (s.buf b).lock = none
  disk : s.disk = disk
  uses : ∀ p, s.uses p = none

variable [Fintype B] {s₀ : Bcache P B} {disk : ℕ → Bytes} {es : List (Option (Event P))}

theorem Start.coherent (h : Start disk s₀) (hrun : Runs Bcache.Step s₀ es s) :
    ∃ a, Runs Blocks.Step ⟨disk, fun _ => none⟩ es.reduceOption a ∧ Coherent s a := by
  refine hrun.refines (fun s e t a => Coherent.step) ⟨?_, fun b => ?_,
    ⟨fun p u hu => ?_, fun b p hb => ?_⟩, ⟨fun b c hb => absurd hb (h.buf b).1,
    fun b hb => absurd hb (h.buf b).1, fun k _ => congrFun h.disk k⟩, funext fun p => ?_⟩
  · obtain ⟨bs, hnodup, hall, hring⟩ := h.ring
    refine ⟨bs.reverse, ?_, List.nodup_reverse.mpr hnodup, fun b => by simpa using hall b⟩
    rw [hring, Ring.binit]
    simpa using Ring.linked_binit (l := []) (List.isChain_pair.2 ⟨rfl, rfl⟩) (by simpa using hnodup)
  · simp [h.refcnt b, users, h.uses]
  · cases (h.uses p).symm.trans hu
  · cases (h.buf b).2.symm.trans hb
  · rw [comp_apply, h.uses p]
    rfl

/-- Whatever the uses of buffers do at the same time, each `bread` returns the data last stored in
the block, whether the block is cached, was written back or was never written, and a block has one
user from `bread` to `brelse`. What the disk lacks is in a dirty buffer. -/
theorem cache_refines_blocks (h : Start disk s₀) (hrun : Runs Bcache.Step s₀ es s) :
    ∃ a, Runs Blocks.Step ⟨disk, fun _ => none⟩ es.reduceOption a ∧
      ∀ k, s.disk k = a.data k ∨ ∃ b, (s.buf b).dev = 1 ∧ (s.buf b).blockno = k ∧
        (s.buf b).dirty = true ∧ (s.buf b).data = a.data k := by
  obtain ⟨a, ha, hc⟩ := h.coherent hrun
  refine ⟨a, ha, fun k => ?_⟩
  by_cases hk : ∃ b, (s.buf b).dev = 1 ∧ (s.buf b).blockno = k
  · obtain ⟨b, hdev, rfl⟩ := hk
    have hb := hc.stored.caches b hdev
    exact hb.disk.imp_right fun ⟨hv, hd⟩ => ⟨b, hdev, rfl, hd, hb.data hv⟩
  · push Not at hk
    exact .inl (hc.stored.absent k hk)

def fresh : Bcache (Fin 1) (Fin 1) where
  buf _ := ⟨false, false, 0, 0, none, Bytes.zero⟩
  refcnt _ := 0
  ring := .binit [0]
  disk k _ := UInt8.ofNat k
  uses _ := none

theorem fresh_start : Start fresh.disk fresh :=
  ⟨⟨[0], by decide, by decide, rfl⟩, fun _ => rfl, fun _ => ⟨nofun, rfl⟩, rfl, fun _ => rfl⟩

/-- Block 7 is read and written, and stays in its buffer. -/
theorem cache_refines_blocks_seven : ∃ es s, ∃ a : Blocks (Fin 1),
    Runs Bcache.Step fresh es s ∧
    Runs Blocks.Step ⟨fresh.disk, fun _ => none⟩
      [.bread 0 7 fun _ => 7, .store 0 7 Bytes.zero, .brelse 0 7] a ∧
    (s.disk 7 = a.data 7 ∨ ∃ b, (s.buf b).dev = 1 ∧ (s.buf b).blockno = 7 ∧
      (s.buf b).dirty = true ∧ (s.buf b).data = a.data 7) := by
  have hrun := (((((Runs.nil (R := Bcache.Step) fresh).snoc
    (.bget (p := 0) (k := 7) rfl (by decide) rfl)).snoc (.bread (p := 0) rfl rfl rfl)).snoc
    (.log_write (p := 0) Bytes.zero rfl)).snoc (.brelse (p := 0) rfl rfl)).snoc
    (.put (p := 0) rfl)
  obtain ⟨a, ha, hdisk⟩ := cache_refines_blocks fresh_start hrun
  exact ⟨_, _, a, hrun, ha, hdisk 7⟩

/-- The links go through every buffer once, `refcnt` counts the uses, a block has one buffer, and
`bget` fails only when the block has none and all buffers are in use or dirty. -/
theorem cache_well_formed (h : Start disk s₀) (hrun : Runs Bcache.Step s₀ es s) :
    (∃ l, s.ring.Holds l) ∧ (∀ b, s.refcnt b = (users s.uses b).card) ∧
      (∀ b c, (s.buf b).dev = 1 → (s.buf c).dev = 1 →
        (s.buf b).blockno = (s.buf c).blockno → b = c) ∧
      (∀ k, (∃ b t, s.bget 1 k = .ret (b, t)) ∨ s.bget 1 k = .panic "bget: no buffers" ∧
        (∀ b, (s.buf b).dev = 1 → (s.buf b).blockno ≠ k) ∧
        ∀ b, (users s.uses b).Nonempty ∨ (s.buf b).dirty = true) ∧
      ∀ p b k data, s.uses p = some ⟨b, k, .held⟩ →
        (∃ r, bwrite { s.buf b with data := data } s.disk = .ret r) ∧
        ∃ x, brelse (s.buf b) = .ret x := by
  obtain ⟨a, -, hc⟩ := h.coherent hrun
  obtain ⟨l, hl⟩ := hc.ring
  refine ⟨⟨l, hl⟩, hc.count, hc.stored.unique, fun k => ?_, fun p b k data hp =>
    ⟨⟨_, hc.bwrite hp data⟩, ⟨_, (hc.brelse hp).1⟩⟩⟩
  have hgets := gets_bget s hl 1 k
  generalize s.bget 1 k = o at hgets ⊢
  cases hgets with
  | hit _ _ => exact .inl ⟨_, _, rfl⟩
  | recycle _ _ _ => exact .inl ⟨_, _, rfl⟩
  | full hno hfull =>
    refine .inr ⟨rfl, hno, fun b => (Finset.eq_empty_or_nonempty _).symm.imp_right fun he => ?_⟩
    exact hfull b (by rw [hc.count, he, Finset.card_empty])

/-- The only buffer is held for block 7, so that no other block can be read. -/
theorem cache_well_formed_seven : ∃ es s, Runs Bcache.Step fresh es s ∧
    s.refcnt 0 = (users s.uses 0).card ∧ s.bget 1 8 = .panic "bget: no buffers" ∧
    ∃ x, brelse (s.buf 0) = .ret x := by
  have hrun := ((Runs.nil (R := Bcache.Step) fresh).snoc
    (.bget (p := 0) (k := 7) rfl (by decide) rfl)).snoc (.bread (p := 0) rfl rfl rfl)
  obtain ⟨-, hcount, -, -, hheld⟩ := cache_well_formed fresh_start hrun
  exact ⟨_, _, hrun, hcount 0, rfl, (hheld 0 0 7 Bytes.zero rfl).2⟩

end Xv6.Bio
