import Mathlib.Algebra.Order.BigOperators.Group.Finset
import Xv6.Log.Invariant

/-!
# The space `begin_op` reserves

`begin_op` admits an operation when the blocks already logged and
`MAXOPBLOCKS` for every operation that is running fit `LOGSIZE`. As long as no
operation logs more than its share, a transaction never exceeds `LOGSIZE`
blocks. `log_write` asks for more: it refuses every call, also one that would be
absorbed, from `log.size - 1` blocks on, and on the disk `mkfs` builds
`log.size` is `LOGSIZE`.
-/

namespace Xv6.Log
open Lib

/-- What the operations have logged: by each process in its current operation,
by all of them since the last one that left alone, and the block a process is in
the middle of a `log_write` of. -/
structure Ops where
  mine : ℕ → Finset ℕ
  tx : Finset ℕ
  calling : ℕ → Option ℕ

def Ops.start : Ops := ⟨fun _ => ∅, ∅, fun _ => none⟩

def Ops.after (o : Ops) (s : State) : Event → Ops
  | .logWrite p b => { o with calling := Function.update o.calling p (some b) }
  | .logAppend p b =>
    { mine := Function.update o.mine p (insert b (o.mine p))
      tx := insert b o.tx
      calling := Function.update o.calling p none }
  | .endOp p =>
    { o with
      mine := Function.update o.mine p ∅
      tx := if s.outstanding - 1 = 0 then ∅ else o.tx }
  | .crash => .start
  | _ => o

/-- A process logs inside an operation, at most `MAXOPBLOCKS` distinct blocks,
and does nothing else while a `log_write` is going on. -/
def Keeps (s : State) (o : Ops) : Event → Prop
  | .logWrite p b =>
    s.phase p = .inside ∧ o.calling p = none ∧ (insert b (o.mine p)).card ≤ MAXOPBLOCKS
  | .brelse p _ => o.calling p = none
  | .endOp p => o.calling p = none
  | _ => True

instance (s : State) (o : Ops) (e : Event) : Decidable (Keeps s o e) := by
  cases e <;> unfold Keeps <;> infer_instance

def OpStep (c : Config) (x : State × Ops) (e : Event) (y : State × Ops) : Prop :=
  Keeps x.1 x.2 e ∧ step c x.1 e = .ret y.1 ∧ y.2 = x.2.after x.1 e

def Ops.promised (o : Ops) (I : Finset ℕ) : ℕ := ∑ p ∈ I, (MAXOPBLOCKS - (o.mine p).card)

structure Reserved (s : State) (o : Ops) : Prop where
  space : ∃ I : Finset ℕ, (∀ p, p ∈ I ↔ s.phase p = .inside) ∧ I.card = s.outstanding ∧
    (s.pc = .idle → s.lh.n + o.promised I ≤ LOGSIZE)
  busy : s.pc ≠ .idle → (s.committing = true ∨ s.recovering = true) ∧ s.outstanding = 0
  listed : s.pc = .idle → s.lh.blocks.Nodup ∧ ∀ b, b ∈ s.lh.blocks ↔ b ∈ o.tx
  cleared : s.pc = .clear ∨ s.pc = .done → s.lh.n = 0
  empty : s.outstanding = 0 → o.tx = ∅
  mine_subset : ∀ p, o.mine p ⊆ o.tx
  mine_outside : ∀ p, s.phase p ≠ .inside → o.mine p = ∅
  checked : ∀ b hd, s.held b = some hd → hd.checked = true → o.calling hd.owner = some b
  calling : ∀ p b, o.calling p = some b →
    s.phase p = .inside ∧ (insert b (o.mine p)).card ≤ MAXOPBLOCKS

namespace Reserved

variable {c : Config} {s s' : State} {o : Ops}

theorem idle_of_inside (hr : Reserved s o) {p : ℕ} (hp : s.phase p = .inside) : s.pc = .idle := by
  obtain ⟨I, hI, hcard, -⟩ := hr.space
  by_contra hne
  have h0 := (hr.busy hne).2
  rw [← hcard, Finset.card_eq_zero] at h0
  simpa [h0] using (hI p).mpr hp

theorem count (hr : Reserved s o) (hidle : s.pc = .idle) : s.lh.n = o.tx.card := by
  obtain ⟨hnd, hmem⟩ := hr.listed hidle
  have htx : o.tx = s.lh.blocks.toFinset := by
    ext b
    simp [hmem b]
  rw [htx, List.toFinset_card_of_nodup hnd]
  simp [Header.blocks]

theorem of_same (hr : Reserved s o) (hlh : s'.lh = s.lh) (hout : s'.outstanding = s.outstanding)
    (hcom : s'.committing = s.committing) (hphase : s'.phase = s.phase) (hpc : s'.pc = s.pc)
    (hrec : s'.recovering = s.recovering)
    (hheld : ∀ b hd, s'.held b = some hd → hd.checked = true → o.calling hd.owner = some b) :
    Reserved s' o where
  space := by rw [hlh, hout, hphase, hpc]; exact hr.space
  busy := by rw [hout, hcom, hpc, hrec]; exact hr.busy
  listed := by rw [hlh, hpc]; exact hr.listed
  cleared := by rw [hlh, hpc]; exact hr.cleared
  empty := by rw [hout]; exact hr.empty
  mine_subset := hr.mine_subset
  mine_outside := by rw [hphase]; exact hr.mine_outside
  checked := hheld
  calling := by rw [hphase]; exact hr.calling

theorem sleep (hr : Reserved s o) {p : ℕ} (hp : s.phase p = .outside ∨ s.phase p = .ready) :
    Reserved (s.setPhase p .asleep) o := by
  have hinside : ∀ q, (s.setPhase p .asleep).phase q = .inside ↔ s.phase q = .inside := by
    intro q
    by_cases hqp : q = p
    · subst hqp
      rcases hp with hp | hp <;> simp [State.setPhase, hp]
    · simp [State.setPhase, hqp]
  obtain ⟨I, hI, hcard, hspace⟩ := hr.space
  exact
    { space := ⟨I, fun q => (hI q).trans (hinside q).symm, hcard, hspace⟩
      busy := hr.busy
      listed := hr.listed
      cleared := hr.cleared
      empty := hr.empty
      mine_subset := hr.mine_subset
      mine_outside := fun q hq => hr.mine_outside q fun h => hq ((hinside q).mpr h)
      checked := hr.checked
      calling := fun q b hq => ⟨(hinside q).mpr (hr.calling q b hq).1, (hr.calling q b hq).2⟩ }

theorem beginOp (hr : Reserved s o) (hrec : s.recovering = false) {p : ℕ}
    (he : Log.beginOp s p = .ret s') : Reserved s' o := by
  unfold Log.beginOp at he
  split_ifs at he with hp hcom hfull
  all_goals rw [← Outcome.ret.inj he]
  all_goals clear he
  · exact hr.sleep hp
  · exact hr.sleep hp
  · have hpi : s.phase p ≠ .inside := by rcases hp with hp | hp <;> simp [hp]
    have hidle : s.pc = .idle := by
      by_contra hne
      rcases (hr.busy hne).1 with h | h <;> simp_all
    obtain ⟨I, hI, hcard, -⟩ := hr.space
    have hpI : p ∉ I := fun h => hpi ((hI p).mp h)
    have hshare : o.promised I ≤ I.card * MAXOPBLOCKS :=
      Finset.sum_le_card_nsmul _ _ _ fun q _ => Nat.sub_le _ _
    refine
      { space := ⟨insert p I, fun q => ?_, by simp [hpI, hcard], fun _ => ?_⟩
        busy := fun hne => absurd hidle hne
        listed := hr.listed
        cleared := hr.cleared
        empty := by simp
        mine_subset := hr.mine_subset
        mine_outside := fun q hq => ?_
        checked := hr.checked
        calling := fun q b hq => ⟨?_, (hr.calling q b hq).2⟩ }
    · by_cases hqp : q = p <;> simp [State.setPhase, hqp, hI]
    · have hsum : o.promised (insert p I) = (MAXOPBLOCKS - (o.mine p).card) + o.promised I :=
        Finset.sum_insert hpI
      rw [hsum, hr.mine_outside p hpi]
      rw [hcard] at hshare
      simp only [Finset.card_empty, State.setPhase]
      simp only [LOGSIZE, MAXOPBLOCKS] at *
      omega
    · by_cases hqp : q = p
      · rw [hqp]; exact hr.mine_outside p hpi
      · exact hr.mine_outside q (by simpa [State.setPhase, hqp] using hq)
    · by_cases hqp : q = p
      · simp [State.setPhase, hqp]
      · simpa [State.setPhase, hqp] using (hr.calling q b hq).1

theorem bread (hr : Reserved s o) {p b : ℕ} (he : Log.bread s p b = .ret s') :
    Reserved s' o := by
  unfold Log.bread at he
  split at he
  · simp at he
  rw [← Outcome.ret.inj he]
  refine hr.of_same (by simp) (by simp) (by simp) (by simp) (by simp) (by simp) fun x hd hx hc => ?_
  by_cases hxb : x = b
  · subst hxb
    simp only [Function.update_self, Option.some.injEq] at hx
    simp [← hx] at hc
  · exact hr.checked x hd (by simpa [hxb] using hx) hc

theorem modify (hr : Reserved s o) {p b : ℕ} {data : Bytes}
    (he : Log.modify s p b data = .ret s') : Reserved s' o := by
  unfold Log.modify at he
  split at he
  swap
  · simp at he
  next hd₀ buf hheld hcache =>
    split_ifs at he
    rw [← Outcome.ret.inj he]
    refine hr.of_same rfl rfl rfl rfl rfl rfl fun x hd hx hc => ?_
    by_cases hxb : x = b
    · subst hxb
      simp only [Function.update_self, Option.some.injEq] at hx
      subst hx
      exact hr.checked x hd₀ hheld hc
    · exact hr.checked x hd (by simpa [hxb] using hx) hc

theorem brelse (hr : Reserved s o) {p b : ℕ} (he : Log.brelse s p b = .ret s') :
    Reserved s' o := by
  unfold Log.brelse at he
  split at he
  swap
  · simp at he
  split_ifs at he
  rw [← Outcome.ret.inj he]
  refine hr.of_same rfl rfl rfl rfl rfl rfl fun x hd hx hc => ?_
  by_cases hxb : x = b
  · simp [hxb] at hx
  · exact hr.checked x hd (by simpa [hxb] using hx) hc

theorem evict (hr : Reserved s o) {b : ℕ} (he : Log.evict s b = .ret s') : Reserved s' o := by
  unfold Log.evict at he
  split at he
  swap
  · simp at he
  split_ifs at he
  rw [← Outcome.ret.inj he]
  exact hr.of_same rfl rfl rfl rfl rfl rfl hr.checked

theorem logWrite (hr : Reserved s o) {p b : ℕ} (hk : Keeps s o (.logWrite p b))
    (he : Log.logWrite c s p b = .ret s') : Reserved s' (o.after s (.logWrite p b)) := by
  obtain ⟨hin, hnone, hcard⟩ := hk
  unfold Log.logWrite at he
  split at he
  swap
  · simp at he
  next hd₀ hheld =>
    split_ifs at he with howner
    rw [← Outcome.ret.inj he]
    refine
      { space := hr.space
        busy := hr.busy
        listed := hr.listed
        cleared := hr.cleared
        empty := hr.empty
        mine_subset := hr.mine_subset
        mine_outside := hr.mine_outside
        checked := fun x hd hx hc => ?_
        calling := fun q x hq => ?_ }
    · by_cases hxb : x = b
      · subst hxb
        simp only [Function.update_self, Option.some.injEq] at hx
        subst hx
        simp [Ops.after, howner]
      · have hcall := hr.checked x hd (by simpa [hxb] using hx) hc
        have hne : hd.owner ≠ p := fun heq => by simp [heq, hnone] at hcall
        simpa [Ops.after, hne] using hcall
    · by_cases hqp : q = p
      · subst hqp
        simp only [Ops.after, Function.update_self, Option.some.injEq] at hq
        subst hq
        exact ⟨hin, hcard⟩
      · exact hr.calling q x (by simpa [Ops.after, hqp] using hq)

theorem promised_insert {I : Finset ℕ} {p : ℕ} (hp : p ∈ I) {m : Finset ℕ}
    (hlt : (o.mine p).card < m.card) (hle : m.card ≤ MAXOPBLOCKS) :
    ({ o with mine := Function.update o.mine p m } : Ops).promised I + 1 ≤ o.promised I := by
  refine Nat.succ_le_of_lt (Finset.sum_lt_sum (fun q _ => ?_) ⟨p, hp, ?_⟩)
  · by_cases hqp : q = p
    · subst hqp
      simp only [Function.update_self]
      omega
    · simp [hqp]
  · simp only [Function.update_self]
    omega

theorem logAppend (hr : Reserved s o) {p b : ℕ} (he : Log.logAppend s p b = .ret s') :
    Reserved s' (o.after s (.logAppend p b)) := by
  unfold Log.logAppend at he
  split at he
  swap
  · simp at he
  next hd₀ buf hheld hcache =>
    split_ifs at he with hchk
    rw [← Outcome.ret.inj he]
    have hcall : o.calling p = some b := by rw [← hchk.1]; exact hr.checked b hd₀ hheld hchk.2
    obtain ⟨hin, hcard⟩ := hr.calling p b hcall
    have hidle := hr.idle_of_inside hin
    obtain ⟨hnd, hmem⟩ := hr.listed hidle
    obtain ⟨I, hI, hIcard, hspace⟩ := hr.space
    have hpos : s.outstanding ≠ 0 := by
      rw [← hIcard]
      exact Finset.card_ne_zero_of_mem ((hI p).mpr hin)
    refine
      { space := ⟨I, hI, hIcard, fun _ => ?_⟩
        busy := hr.busy
        listed := fun _ => ⟨Header.add_nodup hnd, fun x => ?_⟩
        cleared := fun h => by simp [hidle] at h
        empty := fun h => absurd h hpos
        mine_subset := fun q => ?_
        mine_outside := fun q hq => ?_
        checked := fun x hd hx hc => ?_
        calling := fun q x hq => ?_ }
    · have hle := hspace hidle
      by_cases hb : b ∈ s.lh.blocks
      · -- absorbed: the share of `p` can only shrink
        have hshare : (o.after s (.logAppend p b)).promised I ≤ o.promised I := by
          refine Finset.sum_le_sum fun q _ => ?_
          by_cases hqp : q = p
          · subst hqp
            have := Finset.card_le_card (Finset.subset_insert b (o.mine q))
            simp only [Ops.after, Function.update_self]
            omega
          · simp [Ops.after, hqp]
        simp only [Header.add_of_mem hb]
        omega
      · have hnew : b ∉ o.mine p := fun h => hb ((hmem b).mpr (hr.mine_subset p h))
        have hshare := promised_insert (o := o) ((hI p).mpr hin)
          (m := insert b (o.mine p)) (by simp [hnew]) hcard
        simp only [Header.add_n_of_not_mem hb]
        have hsame : (o.after s (.logAppend p b)).promised I =
          ({ o with mine := Function.update o.mine p (insert b (o.mine p)) } : Ops).promised I := rfl
        omega
    · rw [Header.mem_add_blocks, hmem x]
      simp [Ops.after, or_comm]
    · by_cases hqp : q = p
      · subst hqp
        simpa [Ops.after] using Finset.insert_subset_insert b (hr.mine_subset q)
      · simpa [Ops.after, hqp] using (hr.mine_subset q).trans (Finset.subset_insert b o.tx)
    · have hqp : q ≠ p := fun heq => hq (heq ▸ hin)
      simpa [Ops.after, hqp] using hr.mine_outside q hq
    · by_cases hxb : x = b
      · subst hxb
        simp only [Function.update_self, Option.some.injEq] at hx
        simp [← hx] at hc
      · have hcall' := hr.checked x hd (by simpa [hxb] using hx) hc
        have hne : hd.owner ≠ p := fun heq => by
          rw [heq, hcall] at hcall'
          exact hxb (Option.some.inj hcall').symm
        simpa [Ops.after, hne] using hcall'
    · have hqp : q ≠ p := fun heq => by simp [Ops.after, heq] at hq
      simpa [Ops.after, hqp] using hr.calling q x (by simpa [Ops.after, hqp] using hq)

theorem endOp (hr : Reserved s o) {p : ℕ} (hk : Keeps s o (.endOp p))
    (he : Log.endOp s p = .ret s') : Reserved s' (o.after s (.endOp p)) := by
  have hnone : o.calling p = none := hk
  have hin : s.phase p = .inside := by
    by_contra h
    simp [Log.endOp, h] at he
  have hidle := hr.idle_of_inside hin
  obtain ⟨I, hI, hIcard, hspace⟩ := hr.space
  have hpI := (hI p).mpr hin
  have hcaller : ∀ q x, o.calling q = some x → q ≠ p := by
    rintro q x hq rfl
    simp [hnone] at hq
  unfold Log.endOp at he
  split_ifs at he with hcom hlast
  all_goals rw [← Outcome.ret.inj he]
  · have hone : I = {p} := by
      have hc1 : I.card = 1 := by
        have := Finset.card_pos.mpr ⟨p, hpI⟩
        omega
      obtain ⟨a, ha⟩ := Finset.card_eq_one.mp hc1
      rw [ha] at hpI ⊢
      rw [Finset.mem_singleton.mp hpI]
    have hout : ∀ q, q ≠ p → s.phase q ≠ .inside := fun q hq h => by
      simpa [hone, hq] using (hI q).mpr h
    have hpc : commitPc s.lh ≠ .idle := by unfold commitPc; split_ifs <;> simp
    refine
      { space := ⟨∅, fun q => ?_, by simp, fun h => absurd h hpc⟩
        busy := fun _ => ⟨Or.inl rfl, rfl⟩
        listed := fun h => absurd h hpc
        cleared := ?_
        empty := fun _ => by simp [Ops.after, hlast]
        mine_subset := fun q => ?_
        mine_outside := fun q _ => ?_
        checked := hr.checked
        calling := fun q x hq => ?_ }
    · by_cases hqp : q = p <;> simp [State.setPhase, hqp, hout]
    · unfold commitPc State.setPhase
      split_ifs
      · simp
      · simp; omega
    · by_cases hqp : q = p <;> simp [Ops.after, hqp, hr.mine_outside q, hout]
    · by_cases hqp : q = p <;> simp [Ops.after, hqp, hr.mine_outside q, hout]
    · exact absurd (hr.calling q x hq).1 (hout q (hcaller q x hq))
  · have hphase : ∀ q, q ≠ p → ((s.setPhase p .outside).wakeup.phase q = .inside ↔
        s.phase q = .inside) := by
      intro q hqp
      by_cases ha : s.phase q = .asleep <;> simp [State.wakeup, State.setPhase, hqp, ha]
    have hself : (s.setPhase p .outside).wakeup.phase p ≠ .inside := by
      simp [State.wakeup, State.setPhase]
    have hsub : (o.after s (.endOp p)).promised (I.erase p) ≤ o.promised I := by
      refine (Finset.sum_le_sum fun q hq => ?_).trans
        (Finset.sum_le_sum_of_subset (Finset.erase_subset p I))
      simp [Ops.after, Finset.ne_of_mem_erase hq]
    refine
      { space := ⟨I.erase p, fun q => ?_, ?_, fun h => ?_⟩
        busy := fun h => absurd hidle h
        listed := fun h => by
          simpa [Ops.after, hlast, State.wakeup, State.setPhase] using hr.listed h
        cleared := hr.cleared
        empty := fun h => absurd h hlast
        mine_subset := fun q => ?_
        mine_outside := fun q hq => ?_
        checked := hr.checked
        calling := fun q x hq => ?_ }
    · by_cases hqp : q = p
      · subst hqp; simp [hself]
      · simp [hqp, hI, hphase]
    · simp only
      rw [Finset.card_erase_of_mem hpI, hIcard]
    · have := hspace h
      simp only [State.wakeup, State.setPhase]
      omega
    · by_cases hqp : q = p
      · simp [Ops.after, hqp]
      · simpa [Ops.after, hqp, hlast] using hr.mine_subset q
    · by_cases hqp : q = p
      · simp [Ops.after, hqp]
      · simpa [Ops.after, hqp] using hr.mine_outside q fun h => hq ((hphase q hqp).mpr h)
    · have hqp := hcaller q x hq
      exact ⟨(hphase q hqp).mpr (hr.calling q x hq).1, by
        simpa [Ops.after, hqp] using (hr.calling q x hq).2⟩

theorem of_busy (hr : Reserved s o) (hne : s.pc ≠ .idle) (hout : s'.outstanding = s.outstanding)
    (hphase : ∀ p, s'.phase p = .inside ↔ s.phase p = .inside) (hheld : s'.held = s.held)
    (hbusy : s'.pc ≠ .idle → s'.committing = true ∨ s'.recovering = true)
    (hn : s'.pc = .idle ∨ s'.pc = .clear ∨ s'.pc = .done → s'.lh.n = 0) : Reserved s' o := by
  obtain ⟨I, hI, hIcard, -⟩ := hr.space
  have h0 := (hr.busy hne).2
  have hempty : I = ∅ := Finset.card_eq_zero.mp (hIcard.trans h0)
  refine
    { space := ⟨I, fun p => (hI p).trans (hphase p).symm, hIcard.trans hout.symm, fun h => ?_⟩
      busy := fun h => ⟨hbusy h, hout.trans h0⟩
      listed := fun h => ?_
      cleared := fun h => hn (Or.inr h)
      empty := fun _ => hr.empty h0
      mine_subset := hr.mine_subset
      mine_outside := fun p hp => hr.mine_outside p fun h => hp ((hphase p).mpr h)
      checked := by rw [hheld]; exact hr.checked
      calling := fun p b hp => ⟨(hphase p).mpr (hr.calling p b hp).1, (hr.calling p b hp).2⟩ }
  · simp [hempty, Ops.promised, hn (Or.inl h)]
  · simp [Header.blocks_nil (hn (Or.inl h)), hr.empty h0]

theorem io (hr : Reserved s o) (he : Log.io c s = .ret s') : Reserved s' o := by
  have hne : s.pc ≠ .idle := fun h => by simp [Log.io, h] at he
  have hb := (hr.busy hne).1
  have hwrote : ∀ {t : State} {b : ℕ} {data : Bytes} {pc : Pc}, Wrote s t b data →
      pc ≠ .idle → (pc = .clear ∨ pc = .done → s.lh.n = 0) → Reserved { t with pc := pc } o := by
    intro t b data pc hw hpc hn
    exact hr.of_busy hne hw.outstanding (fun p => by rw [hw.phase]) hw.held
      (fun _ => by rw [hw.committing, hw.recovering]; exact hb)
      (fun h => by rw [hw.lh]; exact hn (h.resolve_left hpc))
  unfold Log.io at he
  cases hpc : s.pc with
  | idle => exact absurd hpc hne
  | writeLog tail =>
    simp only [hpc] at he
    split_ifs at he
    · obtain ⟨t, hcopy, hret⟩ := Outcome.bind_eq_ret.mp he
      rw [← Outcome.ret.inj hret]
      exact hwrote (copyBlock_wrote hcopy) (by simp) (by simp)
    · rw [← Outcome.ret.inj he]
      exact hr.of_busy hne rfl (fun _ => Iff.rfl) rfl (fun _ => hb) (by simp)
  | writeHead =>
    simp only [hpc] at he
    obtain ⟨t, hwh, hret⟩ := Outcome.bind_eq_ret.mp he
    rw [← Outcome.ret.inj hret]
    exact hwrote (writeHead_wrote hwh) (by simp) (by simp)
  | install tail =>
    simp only [hpc] at he
    split_ifs at he
    · obtain ⟨t, hcopy, hret⟩ := Outcome.bind_eq_ret.mp he
      rw [← Outcome.ret.inj hret]
      exact hwrote (copyBlock_wrote hcopy) (by simp) (by simp)
    · rw [← Outcome.ret.inj he]
      exact hr.of_busy hne rfl (fun _ => Iff.rfl) rfl (fun _ => hb) fun _ => rfl
  | clear =>
    simp only [hpc] at he
    obtain ⟨t, hwh, hret⟩ := Outcome.bind_eq_ret.mp he
    rw [← Outcome.ret.inj hret]
    have hw := writeHead_wrote hwh
    refine hr.of_busy hne hw.outstanding (fun p => by rw [hw.phase]) hw.held (fun h => ?_)
      fun _ => by rw [hw.lh]; exact hr.cleared (Or.inl hpc)
    left
    rw [hw.committing]
    exact hb.resolve_right fun hrec => by simp [hrec] at h
  | done =>
    simp only [hpc] at he
    rw [← Outcome.ret.inj he]
    refine hr.of_busy hne rfl (fun p => ?_) rfl (by simp) fun _ => hr.cleared (Or.inr hpc)
    cases hp : s.phase p <;> simp [State.wakeup, hp]
  | readHead =>
    simp only [hpc] at he
    split_ifs at he
    rw [← Outcome.ret.inj he]
    exact hr.of_busy hne (by simp) (by simp) (by simp) (fun _ => by simpa using hb) (by simp)

theorem boot (disk : ℕ → Bytes) : Reserved (Log.boot disk) .start where
  space := ⟨∅, by simp [Log.boot], rfl, by simp [Log.boot]⟩
  busy _ := ⟨Or.inr rfl, rfl⟩
  listed h := by simp [Log.boot] at h
  cleared h := by simp [Log.boot] at h
  empty _ := rfl
  mine_subset _ := Finset.Subset.refl _
  mine_outside _ _ := rfl
  checked _ _ h := by simp [Log.boot] at h
  calling _ _ h := by simp [Ops.start] at h

theorem step {x y : State × Ops} {e : Event} (hr : Reserved x.1 x.2) (hs : OpStep c x e y) :
    Reserved y.1 y.2 := by
  obtain ⟨hk, hst, hy⟩ := hs
  rw [hy]
  cases e with
  | beginOp p =>
    simp only [Log.step] at hst
    split_ifs at hst with hrec
    exact hr.beginOp (by simpa using hrec) hst
  | bread p b =>
    simp only [Log.step] at hst
    split_ifs at hst
    exact hr.bread hst
  | modify p b data => exact hr.modify hst
  | logWrite p b => exact hr.logWrite hk hst
  | logAppend p b => exact hr.logAppend hst
  | brelse p b => exact hr.brelse hst
  | endOp p => exact hr.endOp hk hst
  | evict b => exact hr.evict hst
  | io => exact hr.io hst
  | crash =>
    rw [← Outcome.ret.inj hst]
    exact Reserved.boot _

theorem run {disk : ℕ → Bytes} {es : List Event} {x : State × Ops}
    (hrun : Runs (OpStep c) (Log.boot disk, .start) es x) : Reserved x.1 x.2 :=
  hrun.invariant (I := fun x => Reserved x.1 x.2) (fun _ _ _ => Reserved.step) (.boot disk)

/-- What the reservation is worth: a transaction fits `LOGSIZE`. -/
theorem tx_le (hr : Reserved s o) : o.tx.card ≤ LOGSIZE := by
  by_cases h0 : s.outstanding = 0
  · simp [hr.empty h0]
  · have hidle : s.pc = .idle := by
      by_contra hne
      exact h0 (hr.busy hne).2
    obtain ⟨I, -, -, hspace⟩ := hr.space
    have := hspace hidle
    rw [← hr.count hidle]
    omega

end Reserved

def next (c : Config) (x : State × Ops) (e : Event) : Option (State × Ops) :=
  if Keeps x.1 x.2 e then
    match step c x.1 e with
    | .ret s => some (s, x.2.after x.1 e)
    | _ => none
  else none

theorem next_opStep {c : Config} (x : State × Ops) (e : Event) (y : State × Ops)
    (h : next c x e = some y) : OpStep c x e y := by
  unfold next at h
  split_ifs at h with hk
  split at h
  · next s hs =>
    rw [← Option.some.inj h]
    exact ⟨hk, hs, rfl⟩
  · simp at h

def threeOps : List Event :=
  [.io, .io, .io, .beginOp 0, .beginOp 1, .beginOp 2] ++
    (List.range 29).flatMap (fun i =>
      [.bread (i / 10) (100 + i), .logWrite (i / 10) (100 + i), .logAppend (i / 10) (100 + i),
        .brelse (i / 10) (100 + i)]) ++ [.bread 2 129]

theorem threeOps_runs : ∃ x hd, Runs (OpStep mkfsLog) (boot fun _ _ => 0, .start) threeOps x ∧
    x.1.held 129 = some hd ∧ hd.owner = 2 ∧ Keeps x.1 x.2 (.logWrite 2 129) ∧ x.1.lh.n = 29 := by
  have hend : ∃ x, replay (next mkfsLog) (boot fun _ _ => 0, .start) threeOps = some x ∧
      (x.1.held 129).any (fun hd => hd.owner == 2) ∧ Keeps x.1 x.2 (.logWrite 2 129) ∧
      x.1.lh.n = 29 := by
    have hsome : (replay (next mkfsLog) (boot fun _ _ => 0, .start) threeOps).any (fun x =>
        (x.1.held 129).any (fun hd => hd.owner == 2) && decide (Keeps x.1 x.2 (.logWrite 2 129)) &&
          decide (x.1.lh.n = 29)) = true := by
      decide +kernel
    simpa [Option.any_eq_true, and_assoc] using hsome
  obtain ⟨x, hx, hheld, hk, hn⟩ := hend
  obtain ⟨hd, hsome, howner⟩ := Option.any_eq_true _ _ |>.mp hheld
  exact ⟨x, hd, runs_of_replay next_opStep hx, hsome, by simpa using howner, hk, hn⟩

theorem three_full_ops_too_big : ∃ x, Runs (OpStep mkfsLog) (boot fun _ _ => 0, .start) threeOps x ∧
    Keeps x.1 x.2 (.logWrite 2 129) ∧
    step mkfsLog x.1 (.logWrite 2 129) = .panic "too big a transaction" := by
  obtain ⟨x, hd, hrun, hheld, howner, hk, hn⟩ := threeOps_runs
  exact ⟨x, hrun, hk, by simp [step, logWrite, hheld, howner, hn, mkfsLog, LOGSIZE, MAXOPBLOCKS]⟩

/-- On the disk `mkfs` builds, a `log_write` inside an operation that keeps to its
share panics exactly when `LOGSIZE - 1` distinct blocks have been logged by then, although
operations that keep to their shares may log `LOGSIZE` of them. -/
theorem logWrite_too_big_iff (disk : ℕ → Bytes) (es : List Event) (x : State × Ops)
    (hrun : Runs (OpStep mkfsLog) (boot disk, .start) es x) (p b : ℕ) (hd : Hold)
    (hheld : x.1.held b = some hd) (howner : hd.owner = p) (hk : Keeps x.1 x.2 (.logWrite p b)) :
    x.2.tx.card ≤ LOGSIZE ∧
    (step mkfsLog x.1 (.logWrite p b) = .panic "too big a transaction" ↔
      LOGSIZE - 1 ≤ x.2.tx.card) := by
  have hr := Reserved.run hrun
  have hcount := hr.count (hr.idle_of_inside hk.1)
  refine ⟨hr.tx_le, ?_⟩
  simp only [step, logWrite, hheld, howner, if_true, hcount, mkfsLog]
  constructor
  · intro hpanic
    by_contra hlt
    rw [if_neg (by simp only [LOGSIZE, MAXOPBLOCKS] at *; omega)] at hpanic
    split_ifs at hpanic
    simp at hpanic
  · intro hle
    rw [if_pos (by simp only [LOGSIZE, MAXOPBLOCKS] at *; omega)]

theorem logWrite_too_big_iff_threeOps :
    ∃ x, Runs (OpStep mkfsLog) (boot fun _ _ => 0, .start) threeOps x ∧ x.2.tx.card ≤ LOGSIZE ∧
      (step mkfsLog x.1 (.logWrite 2 129) = .panic "too big a transaction" ↔
        LOGSIZE - 1 ≤ x.2.tx.card) := by
  obtain ⟨x, hd, hrun, hheld, howner, hk, -⟩ := threeOps_runs
  exact ⟨x, hrun, logWrite_too_big_iff _ threeOps x hrun 2 129 hd hheld howner hk⟩

end Xv6.Log
