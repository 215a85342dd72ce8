import Xv6.Ide.Machine
import Xv6.Lib.Segment
import Xv6.Lib.Trace

/-!
# The queued driver refines the disk in memory

`Matches s r` relates `ide.c` to `memide.c` behind a queue. The disk in memory serves a request
when the interrupt handler takes it from the queue.
-/

namespace Xv6.Ide
open Function Lib

variable {P B : Type}

@[grind]
def Proc.waits : Proc B → Option B
  | .user => none
  | .asleep b | .awake b => some b

structure Waiting (buf : B → Buf P) (q : List B) (proc : P → Proc B) : Prop where
  nodup : q.Nodup
  ready : ∀ b ∈ q, ∃ p, (buf b).Ready p ∧ (proc p).waits = some b
  lock : ∀ p b, (proc p).waits = some b → (buf b).lock = some p
  done : ∀ p b, (proc p).waits = some b → b ∈ q ∨ proc p = .awake b ∧ (buf b).Done

/-- What the drive is at for the request at the head of the queue, when `d` is the disk before. -/
inductive Serving (v : Drive) (d : ℕ → Bytes) : Option (Buf P) → Prop
  | idle : v.busy = none → v.irq = false → v.disk 1 = d → Serving v d none
  | busy {x : Buf P} : v.busy = some (command x) → v.irq = false → v.disk 1 = d →
      Serving v d (some x)
  | raised {x : Buf P} : v.busy = none → v.irq = true →
      x.iderw FSSIZE d = .ret (x.finish v.port, v.disk 1) → Serving v d (some x)

def link (qnext : B → Option B) (o : Option B) : Option B := o.bind qnext

structure Matches (s : Driver P B) (r : Ram P B) : Prop where
  buf : r.buf = s.buf
  proc : r.proc = Proc.waits ∘ s.proc
  disk1 : s.havedisk1 = true
  linked : Seg (link s.qnext) s.idequeue (r.queue.map some) none
  waiting : Waiting s.buf r.queue s.proc
  serving : Serving s.drive r.memdisk (r.queue.head?.map s.buf)

namespace Waiting

variable {buf : B → Buf P} {q bs : List B} {proc : P → Proc B} {p : P} {b : B} {x : Buf P}

theorem notMem (h : Waiting buf q proc) (hp : proc p = .user) (hx : (buf b).Open p) : b ∉ q := by
  intro hin
  obtain ⟨r, hr, hw⟩ := h.ready b hin
  have := hr.lock
  grind [Buf.Open]

theorem set [DecidableEq P] {l : Proc B} (h : Waiting buf q proc)
    (hq : ∀ b ∈ q, (proc p).waits = some b → l.waits = some b)
    (hl : ∀ b, l.waits = some b → (proc p).waits = some b ∧ (b ∈ q ∨ l = .awake b)) :
    Waiting buf q (update proc p l) where
  nodup := h.nodup
  ready c hc := by grind [update_apply, h.ready c hc]
  lock r c := by grind [update_apply, h.lock r c]
  done r c := by grind [update_apply, h.done r c]

theorem request [DecidableEq P] (h : Waiting buf q proc) (hp : proc p = .user)
    (hx : (buf b).Ready p) : Waiting buf (q ++ [b]) (update proc p (.asleep b)) where
  nodup := by simpa using h.nodup.concat (h.notMem hp (.inr hx.lock))
  ready c hc := by
    rcases List.mem_append.mp hc with hc | hc
    · obtain ⟨r, hr, hw⟩ := h.ready c hc
      exact ⟨r, hr, by grind [update_apply]⟩
    · exact ⟨p, by grind, by grind [update_apply]⟩
  lock r c := by grind [update_apply, h.lock r c, hx.lock]
  done r c := by grind [update_apply, h.done r c]

variable [DecidableEq B]

theorem use (h : Waiting buf q proc) (hp : proc p = .user) (hx : (buf b).Open p) :
    Waiting (update buf b x) q proc where
  nodup := h.nodup
  ready c hc := by grind [update_apply, h.ready c hc, h.notMem hp hx]
  lock r c hr := by grind [update_apply, h.lock r c hr, Buf.Open]
  done r c hr := by grind [update_apply, h.done r c hr, h.lock r c hr, Buf.Open]

theorem waits_wakeup (l : Proc B) : (l.wakeup b).waits = l.waits := by
  cases l <;> grind [Proc.wakeup]

theorem serve (h : Waiting buf (b :: bs) proc) (port : Bytes) :
    Waiting (update buf b ((buf b).finish port)) bs fun r => (proc r).wakeup b where
  nodup := h.nodup.of_cons
  ready c hc := by
    grind [update_apply, h.ready c (.tail _ hc), h.nodup, waits_wakeup]
  lock r c := by grind [update_apply, h.lock r c, Buf.finish, waits_wakeup]
  done r c := by
    have := h.done r c
    cases hr : proc r <;> grind [update_apply, Proc.wakeup, Buf.finish, Buf.Done]

end Waiting

variable {s t : Driver P B} {r : Ram P B} {p : P} {b : B}

theorem Buf.Ready.performed {x : Buf P} (h : x.Ready p) (v : Drive) :
    x.iderw FSSIZE (v.disk 1) =
      .ret (x.finish (v.perform (command x)).port, (v.perform (command x)).disk 1) := by
  have hsector : x.blockno % 268435456 = x.blockno := by
    have := h.blockno
    have : FSSIZE = 1000 := rfl
    omega
  cases hd : x.dirty <;>
    simp [Buf.iderw, command, Drive.perform, Buf.finish, hd, h.lock, h.undone, h.dev, hsector,
      Nat.not_le.mpr h.blockno]

theorem walk_eq {qnext : B → Option B} {q : List B} {n : ℕ} {o : Option B}
    (pp : Option B) (h : Seg (link qnext) o (q.map some) none) (hn : q.length ≤ n) :
    walk qnext n pp o = .ret (q.getLast?.or pp) := by
  induction q generalizing n o pp with
  | nil =>
    obtain rfl : o = none := h
    cases n <;> rfl
  | cons c q ih =>
    obtain ⟨rfl, h⟩ := h
    obtain ⟨n, rfl⟩ : ∃ m, n = m + 1 := ⟨n - 1, by simp at hn; omega⟩
    have hrest : walk qnext n (some c) (qnext c) = _ := ih _ h (by simpa using hn)
    rw [walk, hrest, List.getLast?_cons]
    cases q.getLast? <;> rfl

theorem link_update [DecidableEq B] {qnext : B → Option B} {q : List B} {o v e : Option B}
    (h : Seg (link qnext) o (q.map some) e) (hb : b ∉ q) :
    Seg (link (update qnext b v)) o (q.map some) e := by
  refine h.congr fun y hy => ?_
  obtain ⟨c, hc, rfl⟩ := List.mem_map.mp hy
  exact update_of_ne (ne_of_mem_of_not_mem hc hb) _ _

theorem store_linked [DecidableEq B] {q : List B} (hnext : s.qnext b = none)
    (h : Seg (link s.qnext) s.idequeue (q.map some) none) (hq : q.Nodup) (hb : b ∉ q) :
    Seg (link (s.store b q.getLast?).qnext) (s.store b q.getLast?).idequeue
      ((q ++ [b]).map some) none := by
  rcases List.eq_nil_or_concat q with rfl | ⟨q, c, rfl⟩
  · exact ⟨rfl, hnext⟩
  · rw [List.concat_eq_append] at *
    rw [List.getLast?_append, List.getLast?_singleton, Option.some_or]
    rw [List.map_append] at h
    have hc : c ∉ q := fun hin => (List.nodup_append.mp hq).2.2 c hin c (by simp) rfl
    have hne : b ≠ c := fun heq => hb (by simp [heq])
    rw [List.append_assoc, List.map_append]
    refine Seg.append_cons.2 ⟨link_update (Seg.append_cons.1 h).1 hc, ?_⟩
    change Seg _ (update s.qnext c (some b) c) [some b] none
    rw [update_self]
    exact ⟨rfl, (update_of_ne hne _ _).trans hnext⟩

theorem head_update [DecidableEq B] {buf : B → Buf P} {q : List B} {x : Buf P} (hb : b ∉ q) :
    q.head?.map (update buf b x) = q.head?.map buf :=
  Option.map_congr fun _ hc =>
    update_of_ne (ne_of_mem_of_not_mem (List.mem_of_mem_head? hc) hb) _ _

namespace Matches

theorem proc_eq (h : Matches s r) {l : Proc B} (hp : s.proc p = l) : r.proc p = l.waits :=
  (congrFun h.proc p).trans (congrArg Proc.waits hp)

theorem perform (h : Matches s r) {c : Cmd} (hc : s.drive.busy = some c) :
    Matches { s with drive := s.drive.perform c } r := by
  refine { h with serving := ?_ }
  have hs := h.serving
  generalize ho : r.queue.head?.map s.buf = o at hs ⊢
  cases hs with
  | idle h1 _ _ => cases h1.symm.trans hc
  | raised h1 _ _ => cases h1.symm.trans hc
  | busy h1 _ hd =>
    obtain rfl := Option.some.inj (h1.symm.trans hc)
    obtain ⟨b, hb, rfl⟩ := Option.map_eq_some_iff.mp ho
    obtain ⟨p, hready, -⟩ := h.waiting.ready b (List.mem_of_mem_head? hb)
    have hidle : (s.drive.perform (command (s.buf b))).busy = none ∧
        (s.drive.perform (command (s.buf b))).irq = true := by
      cases command (s.buf b) <;> exact ⟨rfl, rfl⟩
    exact .raised hidle.1 hidle.2 (hd ▸ hready.performed s.drive)

theorem use [DecidableEq B] (h : Matches s r) {x : Buf P} (hp : s.proc p = .user)
    (hx : (s.buf b).Open p) : Matches { s with buf := update s.buf b x }
      { r with buf := update r.buf b x } :=
  { h with
    buf := by rw [h.buf]
    waiting := h.waiting.use hp hx
    serving := (head_update (h.waiting.notMem hp hx)).symm ▸ h.serving }

theorem served [DecidableEq B] (h : Matches s r) {bs : List B} (hq : r.queue = b :: bs)
    {d : ℕ → Bytes} {v : Drive} (hserve : Serving v d (bs.head?.map s.buf)) :
    Matches { s with
        idequeue := s.qnext b
        buf := update s.buf b ((s.buf b).finish s.drive.port)
        proc := fun p => (s.proc p).wakeup b
        drive := v }
      { r with
        buf := update r.buf b ((s.buf b).finish s.drive.port)
        memdisk := d
        queue := bs } := by
  have hwaiting := h.waiting
  have hlink := h.linked
  rw [hq] at hwaiting hlink
  exact ⟨by rw [h.buf], h.proc.trans (funext fun _ => (Waiting.waits_wakeup _).symm), h.disk1,
    hlink.2, hwaiting.serve s.drive.port,
    (head_update (List.nodup_cons.mp hwaiting.nodup).1).symm ▸ hserve⟩

variable [DecidableEq P]

theorem setProc (h : Matches s r) {l : Proc B} {w : P → Option B} (hw : w = update r.proc p l.waits)
    (hq : ∀ b ∈ r.queue, (s.proc p).waits = some b → l.waits = some b)
    (hl : ∀ b, l.waits = some b → (s.proc p).waits = some b ∧ (b ∈ r.queue ∨ l = .awake b)) :
    Matches { s with proc := update s.proc p l } { r with proc := w } :=
  { h with
    proc := by rw [hw, comp_update, h.proc]
    waiting := h.waiting.set hq hl }

theorem queued (h : Matches s r) (hp : s.proc p = .user) (hx : (s.buf b).Ready p)
    {n : B → Option B} {o : Option B} {v : Drive}
    (hlink : Seg (link n) o ((r.queue ++ [b]).map some) none)
    (hserve : Serving v r.memdisk ((r.queue ++ [b]).head?.map s.buf)) :
    Matches ({ s with qnext := n, idequeue := o, drive := v }.check p b)
      { r with queue := r.queue ++ [b], proc := update r.proc p (some b) } := by
  rw [Driver.check, if_neg hx.undone]
  refine ⟨h.buf, ?_, h.disk1, hlink, h.waiting.request hp hx, hserve⟩
  rw [comp_update, ← h.proc]
  rfl

variable [DecidableEq B]

theorem request [Fintype B] (h : Matches s r) (hp : s.proc p = .user) (hx : (s.buf b).Ready p) :
    ∃ t, s.iderw p b = .ret t ∧ Matches t
      { r with queue := r.queue ++ [b], proc := update r.proc p (some b) } := by
  have hb := h.waiting.notMem hp (.inr hx.lock)
  have hlink := link_update (v := none) h.linked hb
  have hstored := store_linked (s := { s with qnext := update s.qnext b none })
    (update_self _ _ _) hlink h.waiting.nodup hb
  have hwalk := walk_eq none hlink h.waiting.nodup.length_le_card
  have hs := h.serving
  rw [Option.or_none] at hwalk
  simp only [Driver.iderw, hx.lock, hx.undone, h.disk1, reduceCtorEq, and_false, if_false, hwalk,
    Outcome.ret_bind]
  cases hq : r.queue.getLast? with
  | none =>
    have hnil := List.getLast?_eq_none_iff.mp hq
    rw [hnil] at hs
    cases hs with
    | idle h1 h2 h3 =>
      rw [hq] at hstored
      refine ⟨_, ?_, h.queued hp hx hstored
        (v := { s.drive with busy := some (command (s.buf b)) }) ?_⟩
      · simp [Driver.store, Driver.idestart, Nat.not_le.mpr hx.blockno, h1, h.disk1]
      · rw [hnil]
        exact .busy rfl h2 h3
  | some c =>
    obtain ⟨d, ds, hd⟩ := List.exists_cons_of_ne_nil (l := r.queue) fun hnil => by
      simp [hnil] at hq
    have hne : s.idequeue ≠ some b := by
      have hhead := h.linked
      rw [hd] at hhead
      exact fun heq => hb (by simp [hd, Option.some.inj (heq.symm.trans hhead.1)])
    rw [hq] at hstored
    refine ⟨_, ?_, h.queued hp hx hstored (v := s.drive) ?_⟩
    · simp [Driver.store, hne, h.disk1]
    · rw [hd] at hs ⊢
      exact hs

theorem interrupt (h : Matches s r) (hirq : s.drive.irq = true) :
    ∃ t r', { s with drive := { s.drive with irq := false } }.ideintr = .ret t ∧
      Ram.Step r .complete r' ∧ Matches t r' := by
  have hs := h.serving
  generalize ho : r.queue.head?.map s.buf = o at hs
  cases hs with
  | idle _ h2 _ => cases h2.symm.trans hirq
  | busy _ h2 _ => cases h2.symm.trans hirq
  | raised hbusy _ hram =>
    obtain ⟨b, hb, rfl⟩ := Option.map_eq_some_iff.mp ho
    obtain ⟨bs, hq⟩ := List.head?_eq_some_iff.mp hb
    have hlink := h.linked
    rw [hq] at hlink
    have hstep := Ram.Step.complete hq (x := (s.buf b).finish s.drive.port)
      (d := s.drive.disk 1) (by rw [h.buf, hram])
    simp only [Driver.ideintr, show s.idequeue = some b from hlink.1, hbusy, Option.isSome_none,
      Bool.false_eq_true, and_false, if_false]
    cases bs with
    | nil =>
      have hnext : s.qnext b = none := hlink.2
      exact ⟨_, _, if_pos hnext, hstep, h.served hq (.idle rfl rfl rfl)⟩
    | cons c cs =>
      have hnext : s.qnext b = some c := hlink.2.1
      have hcb : c ≠ b := fun heq =>
        (List.nodup_cons.mp (hq ▸ h.waiting.nodup)).1 (by simp [heq])
      obtain ⟨p, hready, -⟩ := h.waiting.ready c (by simp [hq])
      refine ⟨_, _, ?_, hstep, h.served hq (.busy rfl rfl rfl)
        (v := ⟨some (command (s.buf c)), false, s.drive.port, s.drive.disk⟩)⟩
      simp [hnext, Driver.idestart, update_of_ne hcb, Nat.not_le.mpr hready.blockno]

theorem step [Fintype B] {e : Option (Event P B)} (h : Matches s r) (hs : Driver.Step s e t) :
    ∃ r', Runs Ram.Step r e.toList r' ∧ Matches t r' := by
  cases hs with
  | use hp hx hx' =>
    exact ⟨_, .snoc (.nil r) (.use (h.proc_eq hp) (h.buf.symm ▸ hx) hx'), h.use hp hx⟩
  | request hp hx hret =>
    obtain ⟨t', ht', hm⟩ := h.request hp hx
    obtain rfl := Outcome.ret.inj (hret.symm.trans ht')
    exact ⟨_, .snoc (.nil r) (.request (h.proc_eq hp) (h.buf.symm ▸ hx)
      (h.waiting.notMem hp (.inr hx.lock))), hm⟩
  | drive hc => exact ⟨r, .nil r, h.perform hc⟩
  | interrupt hirq hret =>
    obtain ⟨t', r', ht', hstep, hm⟩ := h.interrupt hirq
    obtain rfl := Outcome.ret.inj (hret.symm.trans ht')
    exact ⟨r', .snoc (.nil r) hstep, hm⟩
  | @done p b hp hdone =>
    have hb : b ∉ r.queue := fun hin =>
      have ⟨_, hready, _⟩ := h.waiting.ready b hin
      hready.undone hdone
    refine ⟨_, .snoc (.nil r) (.done (h.proc_eq hp) hb (h.buf.symm ▸ hdone)), ?_⟩
    rw [Driver.check, if_pos hdone]
    exact h.setProc rfl (by grind) nofun
  | @again p b hp hundone =>
    refine ⟨r, .nil r, ?_⟩
    rw [Driver.check, if_neg hundone]
    exact h.setProc (update_eq_self_iff.2 (h.proc_eq hp).symm).symm (by grind)
      (by grind [h.waiting.done p b])
  | kill hp =>
    exact ⟨r, .nil r, h.setProc (update_eq_self_iff.2 (h.proc_eq hp).symm).symm
      (by grind) (by grind)⟩

end Matches

structure Start (disk : ℕ → Bytes) (s : Driver P B) : Prop where
  idequeue : s.idequeue = none
  havedisk1 : s.havedisk1 = true
  busy : s.drive.busy = none
  irq : s.drive.irq = false
  disk : s.drive.disk 1 = disk
  proc : ∀ p, s.proc p = .user

variable [DecidableEq P] [DecidableEq B] [Fintype B] {s₀ : Driver P B} {disk : ℕ → Bytes}
  {es : List (Option (Event P B))}

theorem Start.matches (h : Start disk s₀) (hrun : Runs Driver.Step s₀ es s) :
    ∃ r, Runs Ram.Step ⟨s₀.buf, disk, [], fun _ => none⟩ es.reduceOption r ∧ Matches s r := by
  refine hrun.refines (fun s e t r => Matches.step) ⟨rfl, funext fun p => ?_, h.havedisk1,
    h.idequeue, ⟨.nil, nofun, fun p b hp => ?_, fun p b hp => ?_⟩,
    .idle h.busy h.irq h.disk⟩
  · rw [comp_apply, h.proc p]
    rfl
  all_goals
    rw [h.proc p] at hp
    cases hp

/-- Whatever processes, interrupts and the drive do, the buffers are those that the disk in
memory leaves when it serves the same requests in the order in which they were made. A process
returns only after its request was served, and the disk differs from the one in memory by the
request at the head of the queue at most. -/
theorem driver_refines_ram (h : Start disk s₀) (hrun : Runs Driver.Step s₀ es s) :
    ∃ r, Runs Ram.Step ⟨s₀.buf, disk, [], fun _ => none⟩ es.reduceOption r ∧ r.buf = s.buf ∧
      r.proc = Proc.waits ∘ s.proc ∧
      Serving s.drive r.memdisk (r.queue.head?.map s.buf) := by
  obtain ⟨r, hr, hm⟩ := h.matches hrun
  exact ⟨r, hr, hm.buf, hm.proc, hm.serving⟩

def fresh : Driver Unit Unit where
  buf _ := ⟨false, false, 1, 7, some (), Bytes.zero⟩
  qnext _ := none
  idequeue := none
  havedisk1 := true
  drive := ⟨none, false, Bytes.zero, fun _ k _ => UInt8.ofNat k⟩
  proc _ := .user

theorem fresh_start : Start (fresh.drive.disk 1) fresh := ⟨rfl, rfl, rfl, rfl, rfl, fun _ => rfl⟩

theorem driver_refines_ram_read : ∃ es s r, Runs Driver.Step fresh es s ∧
    Runs Ram.Step ⟨fresh.buf, fresh.drive.disk 1, [], fun _ => none⟩
      [.request () (), .complete, .done () ()] r ∧ r.buf = s.buf ∧ (s.buf ()).data = fun _ => 7 := by
  have hrun := ((((Runs.nil (R := Driver.Step) fresh).snoc
    (.request (p := ()) (b := ()) rfl ⟨rfl, by decide, rfl, by decide⟩ rfl)).snoc
    (.drive rfl)).snoc (.interrupt rfl rfl)).snoc (.done (p := ()) (b := ()) rfl ⟨rfl, rfl⟩)
  obtain ⟨r, hr, hbuf, -⟩ := driver_refines_ram fresh_start hrun
  exact ⟨_, _, r, hrun, hr, hbuf, rfl⟩

/-- Every request and every interrupt is taken without a panic and without spinning on the drive,
and while a process sleeps the drive has a command or has raised its interrupt. -/
theorem driver_never_stuck (h : Start disk s₀) (hrun : Runs Driver.Step s₀ es s) :
    (∀ p b, s.proc p = .user → (s.buf b).Ready p → ∃ t, s.iderw p b = .ret t) ∧
      (s.drive.irq = true →
        ∃ t, { s with drive := { s.drive with irq := false } }.ideintr = .ret t) ∧
      ∀ p b, s.proc p = .asleep b →
        ¬(s.buf b).Done ∧ (s.drive.busy.isSome ∨ s.drive.irq = true) := by
  obtain ⟨r, -, hm⟩ := h.matches hrun
  refine ⟨fun p b hp hx => ?_, fun hirq => ?_, fun p b hp => ?_⟩
  · obtain ⟨t, ht, -⟩ := hm.request hp hx
    exact ⟨t, ht⟩
  · obtain ⟨t, -, ht, -⟩ := hm.interrupt hirq
    exact ⟨t, ht⟩
  · have hin : b ∈ r.queue := by grind [hm.waiting.done p b]
    obtain ⟨_, hready, -⟩ := hm.waiting.ready b hin
    refine ⟨hready.undone, ?_⟩
    have hs := hm.serving
    generalize ho : r.queue.head?.map s.buf = o at hs
    cases hs with
    | idle => simp [List.ne_nil_of_mem hin] at ho
    | busy h1 _ _ => exact .inl (by rw [h1]; rfl)
    | raised _ h2 _ => exact .inr h2

theorem driver_never_stuck_read : ∃ es s, Runs Driver.Step fresh es s ∧ s.proc () = .asleep () ∧
    ¬(s.buf ()).Done ∧ (s.drive.busy.isSome ∨ s.drive.irq = true) := by
  have hrun := (Runs.nil (R := Driver.Step) fresh).snoc
    (.request (p := ()) (b := ()) rfl ⟨rfl, by decide, rfl, by decide⟩ rfl)
  exact ⟨_, _, hrun, rfl, (driver_never_stuck fresh_start hrun).2.2 () () rfl⟩

end Xv6.Ide
