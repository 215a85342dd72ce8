import Mathlib.Data.List.ModifyLast
import Xv6.Disk.OpenFile

/-!
# Callers that share an offset

Any number of callers read and write through one `struct file`, and their operations come in any
order. Each starts where the one before it has left the offset, so the parts of the file that
they read and write follow each other, and no chunk is written over.
-/

namespace Xv6.Disk
open Lib

variable {P : Type}

def Follows : ℕ → List (Move P) → ℕ → Prop
  | a, [], b => a = b
  | a, m :: ms, b => m.off = a ∧ Follows (a + m.bytes.length) ms b

section Follows

variable {a b : ℕ} {m : Move P} {ms : List (Move P)}

theorem Follows.snoc (h : Follows a ms m.off) : Follows a (ms ++ [m]) (m.off + m.bytes.length) := by
  induction ms generalizing a with
  | nil =>
    obtain rfl : a = m.off := h
    exact ⟨rfl, rfl⟩
  | cons x ms ih => exact ⟨h.1, ih h.2⟩

theorem Follows.le (h : Follows a ms b) : a ≤ b := by
  induction ms generalizing a with
  | nil => exact Nat.le_of_eq h
  | cons x ms ih => exact (Nat.le_add_right _ _).trans (ih h.2)

theorem Follows.end_le (h : Follows a ms b) (hm : m ∈ ms) : m.off + m.bytes.length ≤ b := by
  induction ms generalizing a with
  | nil => exact absurd hm List.not_mem_nil
  | cons x ms ih =>
    rcases List.mem_cons.1 hm with rfl | hm
    · rw [h.1]
      exact h.2.le
    · exact ih h.2 hm

end Follows

inductive FileCall
  | read (n : ℕ)
  | write (src : List UInt8)

def FileCall.valid : FileCall → Bool
  | .read n => n < 2 ^ 31
  | .write src => src.length < 2 ^ 31

section Machine

variable [DecidableEq P] (sb : Superblock) (devread : ℕ → Option (ℕ → List UInt8))
  (devwrite : ℕ → Option (List UInt8 → ℕ)) (inum : ℕ) (readable writable : Bool)

end Machine

inductive Doing
  | idle
  | sending (src rest : List UInt8)

section Callers

variable {src rest : List UInt8} {fuel n : ℕ}

end Callers

/-- The bytes that a call has written are the first of those it was given, and all of them when
it returns their number. -/
def Attempt.Sound (c : Attempt) : Prop :=
  c.sent <+: c.src ∧ ∀ n, c.result = some (some n) → c.sent = c.src ∧ n = c.src.length

def Doing.In : Doing → List Attempt → Prop
  | .idle, _ => True
  | .sending src rest, cs => ∃ past sent, cs = past ++ [⟨src, sent, none⟩] ∧ sent ++ rest = src

section Sharing

variable [DecidableEq P]

def sentBy (p : P) (ms : List (Move P)) : List UInt8 :=
  ((ms.filter fun m => m.write = true ∧ m.caller = p).map Move.bytes).flatten

theorem sentBy_snoc (p : P) (ms : List (Move P)) (m : Move P) : sentBy p (ms ++ [m]) =
    sentBy p ms ++ if m.write = true ∧ m.caller = p then m.bytes else [] := by
  unfold sentBy
  rw [List.filter_append, List.map_append, List.flatten_append]
  by_cases hm : m.write = true ∧ m.caller = p
  · rw [if_pos hm, List.filter_cons_of_pos (by simpa using hm)]
    simp
  · rw [if_neg hm, List.filter_cons_of_neg (by simpa using hm)]
    simp

variable (sb : Superblock) (inum : ℕ)

/-- What holds of a file that callers share, from the time when it was `f₀`. -/
structure InOrder (f₀ f : OpenFile P) : Prop where
  follows : Follows f₀.off f.moves f.off
  stored : ∀ m ∈ f.moves, m.write = true →
    ((content f.disk (inodeOf sb f.disk inum)).drop m.off).take m.bytes.length = m.bytes
  callers : ∀ p, sentBy p f.moves = ((f.calls p).map Attempt.sent).flatten
  attempts : ∀ p, ∀ c ∈ f.calls p, c.Sound

structure Sharing (f₀ f : OpenFile P) (ls : P → Doing) : Prop where
  regular : Regular sb inum f
  inOrder : InOrder sb inum f₀ f
  doing : ∀ p, (ls p).In (f.calls p)

variable {sb inum} {f₀ f : OpenFile P} {ls : P → Doing} {p : P} {src a b : List UInt8}
  {d : Sectors} {n : ℕ}

theorem InOrder.step {ms : List (Move P)} {cs : List Attempt} {off : ℕ}
    (h : InOrder sb inum f₀ f) (hfollows : Follows f₀.off ms off)
    (hstored : ∀ m ∈ ms, m.write = true →
      ((content d (inodeOf sb d inum)).drop m.off).take m.bytes.length = m.bytes)
    (hself : sentBy p ms = (cs.map Attempt.sent).flatten)
    (hothers : ∀ q, q ≠ p → sentBy q ms = sentBy q f.moves) (hcs : ∀ c ∈ cs, c.Sound) :
    InOrder sb inum f₀ ⟨d, off, ms, Function.update f.calls p cs⟩ := by
  refine ⟨hfollows, hstored, ?_, ?_⟩
  · refine (Function.forall_update_iff f.calls fun q xs =>
      sentBy q ms = (xs.map Attempt.sent).flatten).2 ⟨hself, fun q hq => ?_⟩
    rw [hothers q hq]
    exact h.callers q
  · exact (Function.forall_update_iff f.calls fun _ xs => ∀ c ∈ xs, c.Sound).2
      ⟨hcs, fun q _ => h.attempts q⟩

theorem Sharing.doing_step {cs : List Attempt} {l : Doing} (h : Sharing sb inum f₀ f ls)
    (hl : l.In cs) (q : P) :
    (Function.update ls p l q).In (Function.update f.calls p cs q) := by
  by_cases hq : q = p
  · subst hq
    rw [Function.update_self, Function.update_self]
    exact hl
  · rw [Function.update_of_ne hq, Function.update_of_ne hq]
    exact h.doing q

theorem Sharing.wrote (h : Sharing sb inum f₀ f ls) (hl : ls p = .sending src (a ++ b))
    (hne : a ≠ []) (hfits : Fits sb inum f.disk f.off a.length)
    (hw : Written sb inum f.disk f.off a d) :
    Sharing sb inum f₀ (f.wrote p a a.length d) (Function.update ls p (.sending src b)) := by
  have hM : MAXFILE * BSIZE = 71680 := rfl
  have hend := hfits.1
  have hreg := h.regular.wrote (p := p) hne hfits hw
  have hdoing := h.doing p
  rw [hl] at hdoing
  obtain ⟨past, sent, hcalls, hsent⟩ := hdoing
  have hlen : f.off ≤ (content f.disk (inodeOf sb f.disk inum)).length := by
    rw [length_content]
    exact h.regular.off
  rw [OpenFile.wrote_all hne (by omega), hcalls, List.modifyLast_concat] at hreg ⊢
  refine ⟨hreg, h.inOrder.step h.inOrder.follows.snoc (fun m hm hwrite => ?_) ?_ (fun q hq => ?_)
    fun c hc => ?_, h.doing_step ⟨past, sent ++ a, rfl, by rw [List.append_assoc, hsent]⟩⟩
  · rw [hw.bytes]
    rcases List.mem_append.1 hm with hm | hm
    · rw [take_drop_splice_of_le hlen _ (h.inOrder.follows.end_le hm)]
      exact h.inOrder.stored m hm hwrite
    · rw [List.mem_singleton.1 hm]
      exact take_drop_splice hlen a
  · rw [sentBy_snoc, h.inOrder.callers p, if_pos ⟨rfl, rfl⟩, hcalls]
    simp
  · rw [sentBy_snoc, if_neg fun hm => hq hm.2.symm, List.append_nil]
  · rcases List.mem_append.1 hc with hc | hc
    · exact h.inOrder.attempts p c (hcalls ▸ List.mem_append_left _ hc)
    · rw [List.mem_singleton.1 hc]
      exact ⟨⟨b, by rw [List.append_assoc, hsent]⟩, nofun⟩

theorem Sharing.got (h : Sharing sb inum f₀ f ls) :
    Sharing sb inum f₀
      (f.got p (((content f.disk (inodeOf sb f.disk inum)).drop f.off).take n) f.disk) ls := by
  unfold OpenFile.got
  split_ifs with hpos
  · have hM : MAXFILE * BSIZE = 71680 := rfl
    have hoff := h.regular.off_le
    have hinside := h.regular.off
    have hsize := h.regular.inv.size_le h.regular.lt h.regular.live
    generalize hb : ((content f.disk (inodeOf sb f.disk inum)).drop f.off).take n = bytes
    have hlen : f.off + bytes.length ≤ (inodeOf sb f.disk inum).size := by
      rw [← hb, List.length_take, List.length_drop, length_content]
      omega
    rw [Nat.mod_eq_of_lt (by omega)]
    refine ⟨⟨h.regular.inv, h.regular.lt, h.regular.type, hlen⟩,
      ⟨h.inOrder.follows.snoc, fun m hm hwrite => ?_, fun q => ?_, h.inOrder.attempts⟩, h.doing⟩
    · rcases List.mem_append.1 hm with hm | hm
      · exact h.inOrder.stored m hm hwrite
      · rw [List.mem_singleton.1 hm] at hwrite
        cases hwrite
    · change sentBy q (f.moves ++ _) = _
      rw [sentBy_snoc, if_neg fun hm => absurd hm.1 nofun, List.append_nil]
      exact h.inOrder.callers q
  · exact h

theorem Sharing.enter (h : Sharing sb inum f₀ f ls) (src : List UInt8) :
    Sharing sb inum f₀
      { f with calls := Function.update f.calls p (f.calls p ++ [⟨src, [], none⟩]) }
      (Function.update ls p (.sending src src)) := by
  refine ⟨⟨h.regular.inv, h.regular.lt, h.regular.type, h.regular.off⟩,
    h.inOrder.step h.inOrder.follows h.inOrder.stored ?_ (fun _ _ => rfl) fun c hc => ?_,
    h.doing_step ⟨f.calls p, [], rfl, rfl⟩⟩
  · rw [h.inOrder.callers p]
    simp
  · rcases List.mem_append.1 hc with hc | hc
    · exact h.inOrder.attempts p c hc
    · rw [List.mem_singleton.1 hc]
      exact ⟨List.nil_prefix, nofun⟩

theorem Sharing.leave {rest : List UInt8} {r : Option ℕ} (h : Sharing sb inum f₀ f ls)
    (hl : ls p = .sending src rest) (hr : ∀ n, r = some n → rest = [] ∧ n = src.length) :
    Sharing sb inum f₀
      { f with calls := Function.update f.calls p
                 ((f.calls p).modifyLast fun c => { c with result := some r }) }
      (Function.update ls p .idle) := by
  have hdoing := h.doing p
  rw [hl] at hdoing
  obtain ⟨past, sent, hcalls, hsent⟩ := hdoing
  rw [hcalls, List.modifyLast_concat]
  refine ⟨⟨h.regular.inv, h.regular.lt, h.regular.type, h.regular.off⟩,
    h.inOrder.step h.inOrder.follows h.inOrder.stored ?_ (fun _ _ => rfl) fun c hc => ?_,
    h.doing_step trivial⟩
  · rw [h.inOrder.callers p, hcalls]
    simp
  · rcases List.mem_append.1 hc with hc | hc
    · exact h.inOrder.attempts p c (hcalls ▸ List.mem_append_left _ hc)
    · rw [List.mem_singleton.1 hc]
      refine ⟨⟨rest, hsent⟩, fun n hn => ?_⟩
      obtain ⟨rfl, hlen⟩ := hr n (Option.some.inj hn)
      rw [List.append_nil] at hsent
      exact ⟨hsent, hlen⟩

variable {devread : ℕ → Option (ℕ → List UInt8)} {devwrite : ℕ → Option (List UInt8 → ℕ)}
  {readable writable : Bool}

end Sharing

section Chunks

variable [DecidableEq P] {sb : Superblock} {inum : ℕ} {f : OpenFile P}

section Gap

variable (devread : ℕ → Option (ℕ → List UInt8)) (devwrite : ℕ → Option (List UInt8 → ℕ)) (p : P)

end Gap

end Chunks

end Xv6.Disk
