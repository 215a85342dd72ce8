import Mathlib.Algebra.BigOperators.Ring.Finset
import Xv6.Fs.Share

/-!
# The invariant of the shares

`count s k` is what the kernel has written down for `k`. It is what the open files, the
tables of the processes and the hands of the processes hold together (`Inv.balance`).
`Fits s q l`: the share `l` is right about process `q`; nothing in it depends on what other
processes do as long as they keep to `Frame`.
-/

namespace Xv6.Fs
open Lib

section Cards

variable {ι β : Type} [Fintype ι] [DecidableEq ι] (m : ι → β) (i : ι) (v : β) (r : β → Prop)
  [DecidablePred r]

theorem card_filter_update :
    ((Finset.univ.filter fun j => r (Function.update m i v j)).card : ℤ) =
      (Finset.univ.filter fun j => r (m j)).card - (if r (m i) then 1 else 0) +
        if r v then 1 else 0 := by
  have hsum : ∀ m : ι → β, ((Finset.univ.filter fun j => r (m j)).card : ℤ) =
      ∑ j, if r (m j) then (1 : ℤ) else 0 := fun m => Finset.natCast_card_filter _ _
  have : ∑ j, ((if r (Function.update m i v j) then (1 : ℤ) else 0) -
      if r (m j) then 1 else 0) = (if r v then 1 else 0) - if r (m i) then 1 else 0 := by
    rw [Finset.sum_eq_single i]
    · rw [Function.update_self]
    · intro j _ hne
      rw [Function.update_of_ne hne, sub_self]
    · exact fun hn => absurd (Finset.mem_univ i) hn
  rw [Finset.sum_sub_distrib] at this
  rw [hsum, hsum]
  omega

end Cards

section Assets

variable {x : Proc} {fd : Fd} {f f' : FileId}

theorem Proc.assets_ofile (h : x.ofile fd = none) :
    (x.setFd fd (some f)).assets = x.assets + Pi.single (.file f) 1 := by
  funext k
  cases k with
  | file f' =>
    have := card_filter_update x.ofile fd (some f) fun o => o = some f'
    simp only [h, reduceCtorEq, if_false, Option.some.injEq, sub_zero] at this
    simp only [Pi.add_apply, Pi.single_apply, Key.file.injEq, eq_comm (a := f')]
    exact this
  | inode ip => exact (add_zero _).symm
  | pipeEnd a w => exact (add_zero _).symm
  | page a => exact (add_zero _).symm

theorem Proc.assets_close (h : x.ofile fd = some f) :
    (x.setFd fd none).assets = x.assets + Pi.single (.file f) (-1) := by
  funext k
  cases k with
  | file f' =>
    have := card_filter_update x.ofile fd none fun o => o = some f'
    simp only [h, reduceCtorEq, if_false, Option.some.injEq, add_zero] at this
    simp only [Pi.add_apply, Pi.single_apply, Key.file.injEq, eq_comm (a := f')]
    refine Eq.trans this ?_
    simp only [Proc.assets]
    split_ifs <;> omega
  | inode ip => exact (add_zero _).symm
  | pipeEnd a w => exact (add_zero _).symm
  | page a => exact (add_zero _).symm

theorem Proc.assets_cwd {ip : Slot} (h : x.cwd = none) :
    Proc.assets { x with cwd := some ip } = x.assets + Pi.single (.inode ip) 1 := by
  funext k
  cases k with
  | inode jp => simp [Proc.assets, Pi.single_apply, h, eq_comm]
  | file f => exact (add_zero _).symm
  | pipeEnd a w => exact (add_zero _).symm
  | page a => exact (add_zero _).symm

theorem Proc.assets_leave {ip : Slot} (h : x.cwd = some ip) :
    Proc.assets { x with cwd := none } = x.assets + Pi.single (.inode ip) (-1) := by
  have hback : x = { { x with cwd := none } with cwd := some ip } := by rw [← h]
  have : Proc.assets { { x with cwd := none } with cwd := some ip } =
      Proc.assets { x with cwd := none } + Pi.single (.inode ip) 1 := Proc.assets_cwd rfl
  rw [← hback] at this
  rw [this, Pi.single_neg, add_neg_cancel_right]

end Assets

variable {P : Type}

namespace State

def count (s : State P) : Key → ℤ
  | .inode ip => (s.inode ip).ref
  | .file f => (s.file f).ref
  | .pipeEnd a true => if (s.pipe a).writeopen then 1 else 0
  | .pipeEnd a false => if (s.pipe a).readopen then 1 else 0
  | .page a => (s.pipe a).kallocs - (s.pipe a).kfrees -
      if (s.pipe a).readopen ∨ (s.pipe a).writeopen then 1 else 0

end State

def File.holds (x : File) : Key → Prop
  | .inode ip => x.type = .inode ∧ x.ip = ip
  | .pipeEnd a w => x.type = .pipe ∧ x.pipe = a ∧ x.writable = w
  | _ => False

instance (x : File) (k : Key) : Decidable (x.holds k) := by
  cases k <;> simp only [File.holds] <;> infer_instance

namespace State

def files (s : State P) (k : Key) : ℤ := (Finset.univ.filter fun f => (s.file f).holds k).card

def Alloc (s : State P) (ip : Slot) : Prop := (s.disk (s.inode ip).inum).type ≠ .free

end State

structure Fits (s : State P) (q : P) (l : Share P) : Prop where
  own : l.busy = true → l.own = s.proc q ∧ (s.proc q).state = .live
  rest : l.busy = false → l = .empty
  nonneg : ∀ k, 0 ≤ (s.proc q).assets k + l.bal k
  held : ∀ ip, (s.inode ip).lock = some q ↔ ip ∈ l.held
  loaded : ∀ ip ∈ l.loaded, ip ∈ l.held ∧ (s.inode ip).valid = true ∧ l.Holds ip
  seen : ∀ ip ∈ l.seen, l.Holds ip ∧ s.Alloc ip
  lame : ∀ ip, l.lame = some ip → 1 ≤ l.has (.inode ip)
  sole : ∀ ip, l.sole = some ip →
    ip ∈ l.held ∧ 1 ≤ l.has (.inode ip) ∧ s.files (.inode ip) = 0
  blank : ∀ f ∈ l.blank, (s.file f).type = .none ∧ (s.file f).ref = 1 ∧ 1 ≤ l.has (.file f)
  via : ∀ f ip, l.via = some (f, ip) → (s.file f).holds (.inode ip) ∧ 1 ≤ l.has (.file f)
  child : ∀ c, l.child = some c → (s.proc c).state = .embryo ∧
    (∀ fd, some fd ∉ l.filled → (s.proc c).ofile fd = none) ∧
    (none ∉ l.filled → (s.proc c).cwd = none)
  new : ∀ ip, l.new = some ip →
    l.fresh = some (s.inode ip).inum ∧ 1 ≤ l.has (.inode ip)
  work : s.dir q = l.work

structure Frame (s s' : State P) (q : P) (l : Share P) : Prop where
  proc : l.busy = true → s'.proc q = s.proc q
  assets : ∀ k, (s.proc q).assets k ≤ (s'.proc q).assets k
  child : ∀ c, l.child = some c → s'.proc c = s.proc c
  lock : ∀ ip, (s'.inode ip).lock = some q ↔ (s.inode ip).lock = some q
  inum : ∀ ip, l.Holds ip → (s'.inode ip).inum = (s.inode ip).inum
  valid : ∀ ip ∈ l.held, l.Holds ip → (s.inode ip).valid = true → (s'.inode ip).valid = true
  alloc : ∀ ip ∈ l.seen, s.Alloc ip → s'.Alloc ip
  file : ∀ f, 1 ≤ l.has (.file f) →
    (s'.file f).type = (s.file f).type ∧ (s'.file f).ip = (s.file f).ip
  blank : ∀ f ∈ l.blank, (s'.file f).ref = (s.file f).ref
  files : ∀ ip, l.sole = some ip → s.files (.inode ip) = 0 → s'.files (.inode ip) = 0
  dir : s'.dir q = s.dir q

variable {s s' : State P} {p q : P} {l l' : Share P} {ip jp : Slot} {f : FileId} {k : Key}

theorem fits_empty (hn : ∀ k, 0 ≤ (s.proc q).assets k) (hl : ∀ ip, (s.inode ip).lock ≠ some q)
    (hw : s.dir q = none) : Fits s q .empty where
  own hb := by cases hb
  rest _ := rfl
  nonneg k := (hn k).trans_eq (add_zero _).symm
  held ip := iff_of_false (hl ip) (Finset.notMem_empty ip)
  loaded ip hi := absurd hi (Finset.notMem_empty ip)
  seen ip hi := absurd hi (Finset.notMem_empty ip)
  lame ip hi := by cases hi
  sole ip hi := by cases hi
  blank f hf := absurd hf (Finset.notMem_empty f)
  via f ip hv := by cases hv
  child c hc := by cases hc
  new ip hi := by cases hi
  work := hw

theorem Share.Holds.of_has (h : 1 ≤ l.has (.inode ip)) : l.Holds ip := Or.inl h

theorem Fits.frame (h : Fits s q l) (hf : Frame s s' q l) : Fits s' q l where
  own hb := by
    rw [hf.proc hb]
    exact h.own hb
  rest := h.rest
  nonneg k := (h.nonneg k).trans (Int.add_le_add_right (hf.assets k) _)
  held ip := (hf.lock ip).trans (h.held ip)
  loaded ip hip := by
    obtain ⟨h1, h2, h3⟩ := h.loaded ip hip
    exact ⟨h1, hf.valid ip h1 h3 h2, h3⟩
  seen ip hip := ⟨(h.seen ip hip).1, hf.alloc ip hip (h.seen ip hip).2⟩
  lame := h.lame
  sole ip hip := by
    obtain ⟨h1, h2, h3⟩ := h.sole ip hip
    exact ⟨h1, h2, hf.files ip hip h3⟩
  blank f hb := by
    obtain ⟨h1, h2, h3⟩ := h.blank f hb
    exact ⟨(hf.file f h3).1.trans h1, (hf.blank f hb).trans h2, h3⟩
  via f ip hv := by
    obtain ⟨⟨h1, h2⟩, h3⟩ := h.via f ip hv
    exact ⟨⟨(hf.file f h3).1.trans h1, (hf.file f h3).2.trans h2⟩, h3⟩
  child c hc := by
    rw [hf.child c hc]
    exact h.child c hc
  new ip hn := by
    obtain ⟨h1, h2⟩ := h.new ip hn
    rw [hf.inum ip (.of_has h2)]
    exact ⟨h1, h2⟩
  work := hf.dir.trans h.work

structure Tables (s : State P) : Prop where
  unique : ∀ i j, 0 < (s.inode i).ref → 0 < (s.inode j).ref →
    (s.inode i).inum = (s.inode j).inum → i = j
  cached : ∀ ip, 0 < (s.inode ip).ref → (s.inode ip).valid = true →
    (s.inode ip).copy = s.disk (s.inode ip).inum ∧ s.Alloc ip
  closed : ∀ f, (s.file f).ref = 0 → (s.file f).type = .none
  opened : ∀ f, (s.file f).type = .inode → s.Alloc (s.file f).ip
  unused : ∀ q, (s.proc q).state = .unused → (s.proc q).cwd = none ∧
    ∀ fd, (s.proc q).ofile fd = none
  paged : ∀ a, (s.pipe a).kallocs ≤ (s.pipe a).kfrees + 1

structure Pairs (s : State P) (ls : P → Share P) : Prop where
  sole : ∀ q q' ip, q' ≠ q → (ls q).sole = some ip →
    ip ∉ (ls q').seen ∧ ((ls q').busy = false → (s.proc q').cwd ≠ some ip)
  blank : ∀ q q' f, f ∈ (ls q).blank → f ∈ (ls q').blank → q = q'
  child : ∀ q q' c, (ls q).child = some c → (ls q').child = some c → q = q'
  home : ∀ q ip, (ls q).busy = false → (s.proc q).cwd = some ip → s.Alloc ip

theorem files_nonneg (s : State P) (k : Key) : 0 ≤ s.files k := Int.natCast_nonneg _

theorem files_pos (h : (s.file f).holds k) : 1 ≤ s.files k := by
  have : 0 < (Finset.univ.filter fun f => (s.file f).holds k).card :=
    Finset.card_pos.mpr ⟨f, by simpa using h⟩
  simp only [State.files]
  omega

theorem Fits.has_eq (h : Fits s q l) (hb : l.busy = true) (k : Key) :
    l.has k = (s.proc q).assets k + l.bal k := by
  rw [Share.has, (h.own hb).1]

theorem Fits.busy_of_has (h : Fits s q l) (hk : 1 ≤ l.has k) : l.busy = true := by
  by_contra hb
  rw [h.rest (by simpa using hb)] at hk
  cases k <;> simp [Share.has, Share.empty, Proc.assets] at hk

variable [Fintype P] {ls : P → Share P}

def due (s : State P) (ls : P → Share P) (k : Key) : ℤ :=
  ∑ q, ((s.proc q).assets k + (ls q).bal k)

structure Inv (s : State P) (ls : P → Share P) : Prop where
  fits : ∀ q, Fits s q (ls q)
  balance : ∀ k, s.count k = s.files k + due s ls k
  tables : Tables s
  pairs : Pairs s ls

section Counting

theorem Inv.due_ge (h : Inv s ls) (q : P) : (s.proc q).assets k + (ls q).bal k ≤ due s ls k :=
  Finset.single_le_sum (f := fun q => (s.proc q).assets k + (ls q).bal k)
    (fun q _ => (h.fits q).nonneg k) (Finset.mem_univ q)

theorem Inv.due_ge_two [DecidableEq P] (h : Inv s ls) (hne : p ≠ q) :
    (s.proc p).assets k + (ls p).bal k + ((s.proc q).assets k + (ls q).bal k) ≤ due s ls k := by
  have hsub : ({p, q} : Finset P) ⊆ Finset.univ := Finset.subset_univ _
  have := Finset.sum_le_sum_of_subset_of_nonneg hsub
    (f := fun q => (s.proc q).assets k + (ls q).bal k) fun q _ _ => (h.fits q).nonneg k
  rwa [Finset.sum_pair hne] at this

theorem Inv.count_ge (h : Inv s ls) (q : P) (hk : 1 ≤ (ls q).has k) :
    s.files k + (ls q).has k ≤ s.count k := by
  rw [h.balance, (h.fits q).has_eq ((h.fits q).busy_of_has hk)]
  exact Int.add_le_add_left (h.due_ge q) _

theorem Inv.ref_pos (h : Inv s ls) (hh : (ls q).Holds ip) : 0 < (s.inode ip).ref := by
  have hfiles := files_nonneg s (.inode ip)
  rcases hh with hh | ⟨f, hv⟩
  · have := h.count_ge q hh
    simp only [State.count] at this
    omega
  · have h1 := files_pos ((h.fits q).via f ip hv).1
    have h2 := h.balance (.inode ip)
    have h3 := (h.due_ge (k := .inode ip) q).trans' ((h.fits q).nonneg _)
    simp only [State.count] at h2
    omega

theorem Inv.file_ref_pos (h : Inv s ls) (hh : 1 ≤ (ls q).has (.file f)) :
    0 < (s.file f).ref := by
  have h1 := files_nonneg s (.file f)
  have h2 := h.count_ge q hh
  simp only [State.count] at h2
  omega

theorem due_change {ls' : P → Share P} {d : ℤ}
    (hq : ∀ q ≠ p, (s'.proc q).assets k + (ls' q).bal k = (s.proc q).assets k + (ls q).bal k)
    (hp : (s'.proc p).assets k + (ls' p).bal k = (s.proc p).assets k + (ls p).bal k + d) :
    due s' ls' k = due s ls k + d := by
  have : ∑ q, ((s'.proc q).assets k + (ls' q).bal k - ((s.proc q).assets k + (ls q).bal k)) = d := by
    rw [Finset.sum_eq_single p]
    · omega
    · intro q _ hne
      have := hq q hne
      omega
    · exact fun hn => absurd (Finset.mem_univ p) hn
  rw [Finset.sum_sub_distrib] at this
  simp only [due]
  omega

end Counting

end Xv6.Fs
