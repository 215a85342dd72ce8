import Xv6.Fs.Run

/-!
# Reference counts of open files

Between calls every count is what the tables hold: descriptors for a file, open files and
working directories for an inode, one file for each open end of a pipe.
-/

namespace Xv6.Fs
open Lib

variable {P : Type} [Fintype P] {s : State P} {ls : P → Share P}

structure Exact (s : State P) : Prop where
  file : ∀ f, (s.file f).ref =
    ∑ q, (Finset.univ.filter fun fd => (s.proc q).ofile fd = some f).card
  closed : ∀ f, (s.file f).ref = 0 → (s.file f).type = .none
  inode : ∀ ip, (s.inode ip).ref =
    (Finset.univ.filter fun f => (s.file f).holds (.inode ip)).card +
      (Finset.univ.filter fun q => (s.proc q).cwd = some ip).card
  readEnd : ∀ a, (Finset.univ.filter fun f => (s.file f).holds (.pipeEnd a false)).card =
    if (s.pipe a).readopen then 1 else 0
  writeEnd : ∀ a, (Finset.univ.filter fun f => (s.file f).holds (.pipeEnd a true)).card =
    if (s.pipe a).writeopen then 1 else 0
  page : ∀ a, (s.pipe a).kallocs =
    (s.pipe a).kfrees + if (s.pipe a).readopen ∨ (s.pipe a).writeopen then 1 else 0

theorem due_of_idle (hi : ∀ q, (ls q).bal = 0) (k : Key) :
    due s ls k = ∑ q, (s.proc q).assets k := by
  refine Finset.sum_congr rfl fun q _ => ?_
  rw [hi q, Pi.zero_apply, add_zero]

theorem Inv.exact (h : Inv s ls) (hi : ∀ q, (ls q).bal = 0) : Exact s := by
  have hb : ∀ k, s.count k = s.files k + ∑ q, (s.proc q).assets k := fun k => by
    rw [h.balance, due_of_idle hi]
  have hend : ∀ a w, s.count (.pipeEnd a w) = s.files (.pipeEnd a w) := fun a w => by
    rw [hb]
    simp [Proc.assets]
  refine ⟨fun f => ?_, h.tables.closed, fun ip => ?_, fun a => ?_, fun a => ?_, fun a => ?_⟩
  · have h1 := hb (.file f)
    have h2 : s.files (.file f) = 0 := by simp [State.files, File.holds]
    rw [h2, zero_add] at h1
    simp only [State.count, Proc.assets] at h1
    exact_mod_cast h1
  · have h1 := hb (.inode ip)
    have h2 : ∑ q, (s.proc q).assets (.inode ip) =
        ((Finset.univ.filter fun q => (s.proc q).cwd = some ip).card : ℤ) :=
      (Finset.natCast_card_filter _ _).symm
    rw [h2] at h1
    simp only [State.count, State.files] at h1
    exact_mod_cast h1
  · have h1 := hend a false
    simp only [State.count, State.files] at h1
    exact_mod_cast h1.symm
  · have h1 := hend a true
    simp only [State.count, State.files] at h1
    exact_mod_cast h1.symm
  · have h1 := hb (.page a)
    have h2 : s.files (.page a) = 0 := by simp [State.files, File.holds]
    have h3 : ∑ q, (s.proc q).assets (.page a) = 0 := by simp [Proc.assets]
    rw [h2, h3] at h1
    simp only [State.count] at h1
    split_ifs at h1 ⊢ <;> omega

section Operations

variable {p : P} {f : FileId} {a n : ℕ}

theorem Inv.filedup_ret (h : Inv s ls) (hH : 1 ≤ (ls p).has (.file f)) :
    ∃ s', s.filedup f = .ret ((), s') := by
  have := h.file_ref_pos hH
  exact ⟨_, if_neg (by omega)⟩

theorem Inv.filedrop_ret (h : Inv s ls) (hH : 1 ≤ (ls p).has (.file f)) :
    ∃ r s', s.filedrop f = .ret (r, s') := by
  have := h.file_ref_pos hH
  unfold State.filedrop
  rw [if_neg (by omega)]
  split_ifs <;> exact ⟨_, _, rfl⟩

theorem Inv.page_closed (h : Inv s ls) (hH : 1 ≤ (ls p).has (.page a)) :
    (s.pipe a).readopen = false ∧ (s.pipe a).writeopen = false ∧
      (s.pipe a).kallocs = (s.pipe a).kfrees + 1 := by
  have h1 := h.count_ge p hH
  have h2 := files_nonneg s (.page a)
  have h3 := h.tables.paged a
  simp only [State.count] at h1
  split_ifs at h1 with hopen
  · omega
  · simp only [not_or, Bool.not_eq_true] at hopen
    exact ⟨hopen.1, hopen.2, by omega⟩

end Operations

variable [DecidableEq P] {g₀ g : World P} {es : List (Turn P (Call P))}

/-- Open files are counted right, whatever calls fail: with no call in progress every count is
exact; no process ever duplicates or closes a file that is not open; and the page of a pipe is
freed with both ends closed, once for each time it was allocated. -/
theorem open_files_counted (h : Start g₀) (hrun : Runs (machine P).Step g₀ es g) :
    (AtRest g → Exact g.shared) ∧
      (∀ p n f k, g.code p = .op (.filedup f) k →
        ∃ s', exec p n (.filedup f) g.shared = .ret ((), s')) ∧
      (∀ p n f k, g.code p = .op (.filedrop f) k →
        ∃ r s', exec p n (.filedrop f) g.shared = .ret (r, s')) ∧
      ∀ p a k, g.code p = .op (.kfree a) k → (g.shared.pipe a).readopen = false ∧
        (g.shared.pipe a).writeopen = false ∧
        (g.shared.pipe a).kallocs = (g.shared.pipe a).kfrees + 1 := by
  obtain ⟨ls, ha⟩ := h.reach hrun
  refine ⟨fun hr => ha.inv.exact fun q => (ha.idle_of_ret (hr q)).bal, fun p n f k hc => ?_,
    fun p n f k hc => ?_, fun p a k hc => ?_⟩
  · exact ha.inv.filedup_ret (ha.pre hc).2.2.1
  · exact ha.inv.filedrop_ret (ha.pre hc).2.2.1
  · exact ha.inv.page_closed (ha.pre hc).2.2

def pipeTurns : List (Turn (Fin 2) (Call (Fin 2))) :=
  .call proc0 .pipe :: List.replicate 7 (.run proc0 5) ++
    .call proc0 (.dup (some ⟨0, by decide⟩)) :: List.replicate 3 (.run proc0 0) ++
    .call proc0 (.close (some ⟨1, by decide⟩)) :: List.replicate 4 (.run proc0 0)

theorem open_files_counted_pipe : ∃ g, Runs (machine (Fin 2)).Step sample pipeTurns g ∧
    AtRest g ∧ (g.shared.pipe 5).readopen = true ∧ Exact g.shared := by
  obtain ⟨g, hrun, hg⟩ := (machine (Fin 2)).exists_runs sample pipeTurns
    (fun g => (g.code 0).next.isNone && (g.code 1).next.isNone && (g.shared.pipe 5).readopen)
    (by decide +kernel)
  simp only [Bool.and_eq_true, Option.isNone_iff_eq_none] at hg
  have hrest : AtRest g := Fin.forall_fin_two.mpr hg.1
  exact ⟨g, hrun, hrest, hg.2, (open_files_counted sample_start hrun).1 hrest⟩

end Xv6.Fs
