import Mathlib.Data.List.TakeWhile
import Xv6.Disk.Files
import Xv6.Lib.SlotMap

/-!
# Directories

The bytes of a directory are entries of a number and a name. What counts of a name is its first
`DIRSIZ` bytes up to a NUL, as `namecmp` compares and `strncpy` copies. The entries with a number
are the slots of a map from names to inodes.
-/

namespace Xv6.Disk
open Lib

section Names

def key (name : List UInt8) : List UInt8 := (name.take DIRSIZ).takeWhile (· ≠ 0)

theorem strncmp_eq_zero_iff (n : ℕ) (p q : List UInt8) : strncmp n p q = 0 ↔
    (p.take n).takeWhile (· ≠ 0) = (q.take n).takeWhile (· ≠ 0) := by
  induction n generalizing p q with
  | zero => simp [strncmp]
  | succ n ih =>
    have hzero : ∀ l : List UInt8, l.headD 0 = 0 → (l.take (n + 1)).takeWhile (· ≠ 0) = [] := by
      intro l hl
      cases l with
      | nil => rfl
      | cons b l =>
        cases hl
        rfl
    have hcons : ∀ l : List UInt8, l.headD 0 ≠ 0 → (l.take (n + 1)).takeWhile (· ≠ 0) =
        l.headD 0 :: (l.tail.take n).takeWhile (· ≠ 0) := by
      intro l hl
      cases l with
      | nil => exact absurd rfl hl
      | cons b l =>
        rw [List.headD_cons] at hl
        simp [hl]
    rw [strncmp]
    by_cases hp : p.headD 0 = 0
    · rw [if_neg fun h => h.1 hp, hzero p hp, hp]
      by_cases hq : q.headD 0 = 0
      · rw [hzero q hq, hq]
        simp
      · rw [hcons q hq]
        refine iff_of_false (fun h => hq ?_) nofun
        have : (q.headD 0).toNat = 0 := by
          rw [UInt8.toNat_zero] at h
          omega
        exact UInt8.toNat_inj.1 this
    · rw [hcons p hp]
      by_cases he : p.headD 0 = q.headD 0
      · rw [if_pos ⟨hp, he⟩, ih, hcons q (he ▸ hp), he, List.cons_inj_right]
      · rw [if_neg fun h => he h.2]
        refine iff_of_false (fun h => he (UInt8.toNat_inj.1 (by omega))) fun h => he ?_
        by_cases hq : q.headD 0 = 0
        · rw [hzero q hq] at h
          cases h
        · rw [hcons q hq] at h
          exact (List.cons.inj h).1

theorem namecmp_eq_zero_iff (s t : List UInt8) : namecmp s t = 0 ↔ key s = key t :=
  strncmp_eq_zero_iff DIRSIZ s t

theorem key_dirent (inum : ℕ) (name : List UInt8) :
    key ((direntBytes inum (name.takeWhile (· ≠ 0))).drop 2) = key name := by
  have hdrop : (direntBytes inum (name.takeWhile (· ≠ 0))).drop 2 =
      (name.takeWhile (· ≠ 0) ++ List.replicate DIRSIZ 0).take DIRSIZ := rfl
  have hall : ∀ b ∈ name.takeWhile (· ≠ 0), decide (b ≠ 0) = true :=
    fun b hb => List.mem_takeWhile_imp (p := fun b => decide (b ≠ 0)) hb
  rw [hdrop, key, key, List.take_take, Nat.min_self, ← List.take_takeWhile, ← List.take_takeWhile,
    List.takeWhile_append_of_pos hall]
  simp

end Names

section Entries

def entryAt (c : List UInt8) (k : ℕ) : List UInt8 := (c.drop (direntSize * k)).take direntSize

def entryNum (de : List UInt8) : ℕ := (de.getD 0 0).toNat + 256 * (de.getD 1 0).toNat

def slotOf (de : List UInt8) : Option (List UInt8 × ℕ) :=
  if entryNum de = 0 then none else some (key (de.drop 2), entryNum de)

theorem slotOf_dirent {inum : ℕ} (hpos : 1 ≤ inum) (hle : inum ≤ 65535) (name : List UInt8) :
    slotOf (direntBytes inum (name.takeWhile (· ≠ 0))) = some (key name, inum) := by
  have hnum : entryNum (direntBytes inum (name.takeWhile (· ≠ 0))) = inum := by
    change (UInt8.ofNat inum).toNat + 256 * (UInt8.ofNat (inum / 256)).toNat = inum
    rw [UInt8.toNat_ofNat', UInt8.toNat_ofNat']
    omega
  rw [slotOf, hnum, if_neg (by omega), key_dirent]

def entries (c : List UInt8) : List (Option (List UInt8 × ℕ)) :=
  (List.range (c.length / direntSize)).map fun k => slotOf (entryAt c k)

variable {c de : List UInt8} {k : ℕ}

theorem length_entries (c : List UInt8) : (entries c).length = c.length / direntSize := by
  rw [entries, List.length_map, List.length_range]

theorem getElem?_entries (hk : k < c.length / direntSize) :
    (entries c)[k]? = some (slotOf (entryAt c k)) := by
  rw [entries, List.getElem?_map, List.getElem?_range hk]
  rfl

theorem drop_entries (hk : k < c.length / direntSize) :
    (entries c).drop k = slotOf (entryAt c k) :: (entries c).drop (k + 1) := by
  have hlt : k < (entries c).length := by rwa [length_entries]
  have hget := getElem?_entries hk
  rw [List.getElem?_eq_getElem hlt] at hget
  rw [List.drop_eq_getElem_cons hlt, Option.some.inj hget]

theorem length_entryAt (hk : k < c.length / direntSize) : (entryAt c k).length = direntSize := by
  rw [entryAt, List.length_take, List.length_drop]
  rw [direntSize] at *
  omega

theorem entryAt_splice (hk : direntSize * k ≤ c.length) (hde : de.length = direntSize) (i : ℕ) :
    entryAt (splice c (direntSize * k) de) i = if i = k then de else entryAt c i := by
  apply List.ext_getElem?
  intro j
  unfold entryAt
  rw [List.getElem?_take, List.getElem?_drop, getElem?_splice hk, hde]
  by_cases hj : j < direntSize
  · rw [if_pos hj]
    by_cases hik : i = k
    · rw [if_pos (by rw [hik]; omega), if_pos hik, hik, Nat.add_sub_cancel_left]
    · have hout : ¬(direntSize * k ≤ direntSize * i + j ∧
          direntSize * i + j < direntSize * k + direntSize) := by
        rw [direntSize] at *
        omega
      rw [if_neg hout, if_neg hik, List.getElem?_take, if_pos hj, List.getElem?_drop]
  · rw [if_neg hj]
    split_ifs
    · exact (List.getElem?_eq_none (by omega)).symm
    · rw [List.getElem?_take, if_neg hj]

theorem entries_splice (hc : c.length % direntSize = 0) (hk : direntSize * k ≤ c.length)
    (hde : de.length = direntSize) :
    entries (splice c (direntSize * k) de) = splice (entries c) k [slotOf de] := by
  have hcount : (splice c (direntSize * k) de).length / direntSize =
      max (c.length / direntSize) (k + 1) := by
    rw [length_splice hk, hde]
    rw [direntSize] at *
    omega
  have hk' : k ≤ (entries c).length := by
    rw [length_entries]
    rw [direntSize] at *
    omega
  have hle := length_entries c
  apply List.ext_getElem?
  intro i
  rw [getElem?_splice hk', List.length_singleton]
  by_cases hik : i = k
  · rw [getElem?_entries (by omega), entryAt_splice hk hde, if_pos hik, if_pos (by omega), hik,
      Nat.sub_self]
    rfl
  · rw [if_neg (by omega)]
    by_cases hi : i < c.length / direntSize
    · rw [getElem?_entries (by omega), entryAt_splice hk hde, if_neg hik, getElem?_entries hi]
    · rw [List.getElem?_eq_none (l := entries c) (by omega),
        List.getElem?_eq_none (by rw [length_entries, hcount]; omega)]

theorem entries_append {b : List UInt8} (hc : c.length % direntSize = 0) :
    entries (c ++ b) = entries c ++ entries b := by
  have hcount : (c ++ b).length / direntSize = c.length / direntSize + b.length / direntSize := by
    rw [List.length_append]
    rw [direntSize] at *
    omega
  unfold entries
  rw [hcount, List.range_add, List.map_append, List.map_map]
  congr 1
  · apply List.map_congr_left
    intro k hk
    have hk := List.mem_range.1 hk
    have hle : direntSize ≤ (c.drop (direntSize * k)).length := by
      rw [List.length_drop]
      rw [direntSize] at *
      omega
    rw [entryAt, entryAt, List.drop_append_of_le_length (by rw [direntSize] at *; omega),
      List.take_append_of_le_length hle]
  · apply List.map_congr_left
    intro k _
    have hdrop : direntSize * (c.length / direntSize + k) = c.length + direntSize * k := by
      rw [direntSize] at *
      omega
    rw [Function.comp_apply, entryAt, entryAt, hdrop, List.drop_append,
      Nat.add_sub_cancel_left, List.drop_eq_nil_of_le (Nat.le_add_right _ _), List.nil_append]

theorem entries_zero (n : ℕ) :
    entries (List.replicate (direntSize * n) 0) = List.replicate n none := by
  have hslot : ∀ k < n, slotOf (entryAt (List.replicate (direntSize * n) 0) k) = none := by
    intro k hk
    have hle : direntSize ≤ direntSize * n - direntSize * k := by
      rw [direntSize]
      omega
    rw [entryAt, List.drop_replicate, List.take_replicate, Nat.min_eq_left hle]
    rfl
  have hlen : direntSize * n / direntSize = n := Nat.mul_div_cancel_left n (by decide)
  rw [entries, List.length_replicate, hlen]
  apply List.ext_getElem?
  intro k
  rw [List.getElem?_map, List.getElem?_replicate]
  by_cases hk : k < n
  · rw [if_pos hk, List.getElem?_range hk, Option.map_some, hslot k hk]
  · rw [if_neg hk, List.getElem?_eq_none (by rw [List.length_range]; omega)]
    rfl

end Entries

section Lookup

variable {sb : Superblock} {devsw : ℕ → Option (ℕ → List UInt8)} {d : Sectors} {dp : Dinode}
  {fuel k m : ℕ}

structure DirAt (d : Sectors) (dp : Dinode) (m : ℕ) : Prop where
  type : dp.type = T_DIR
  le : direntSize * m ≤ dp.size
  small : dp.size ≤ MAXFILE * BSIZE
  mapped : ∀ a < direntSize * m, block d dp (.data (a / BSIZE)) ≠ 0

theorem DirAt.lt_length (h : DirAt d dp m) (hk : k < m) :
    k < (content d dp).length / direntSize := by
  have := h.le
  rw [length_content]
  rw [direntSize] at *
  omega

theorem DirAt.readi (h : DirAt d dp m) (hk : k < m) :
    readi sb devsw dp (direntSize * k) direntSize d =
      .ret ((dp, some (entryAt (content d dp) k)), d) := by
  have hle := h.le
  have hsize := h.small
  have hend : direntSize * k + direntSize ≤ direntSize * m := by
    rw [direntSize]
    omega
  have hsmall : MAXFILE * BSIZE < 2 ^ 32 := by decide
  rw [readi_spec (fun a _ _ ha => h.mapped a (by omega)) (by rw [h.type]; decide) (by omega)
    (by omega), if_neg (by omega)]
  rfl

theorem lookupLoop_upto (h : DirAt d dp m) (name : List UInt8) (hk : k ≤ m)
    (hfuel : m ≤ fuel + k) :
    lookupLoop sb devsw name fuel dp (direntSize * k) d =
      match SlotMap.findFrom (key name) k (((entries (content d dp)).take m).drop k) with
      | some r => .ret ((dp, some (r.1, direntSize * r.2)), d)
      | none => lookupLoop sb devsw name (fuel + k - m) dp (direntSize * m) d := by
  have hle := h.le
  have hlen : ((entries (content d dp)).take m).length = m := by
    rw [List.length_take, length_entries, length_content]
    rw [direntSize] at *
    omega
  induction fuel generalizing k with
  | zero =>
    obtain rfl : k = m := by omega
    rw [List.drop_eq_nil_of_le (Nat.le_of_eq hlen), Nat.zero_add, Nat.sub_self]
    rfl
  | succ fuel ih =>
    by_cases hlt : k < m
    · have hlt' := h.lt_length hlt
      have hentry : (entryAt (content d dp) k).length = direntSize := length_entryAt hlt'
      have hnext := ih (k := k + 1) hlt (by omega)
      rw [show fuel + (k + 1) = fuel + 1 + k by omega] at hnext
      have hdrop : ((entries (content d dp)).take m).drop k =
          slotOf (entryAt (content d dp) k) :: ((entries (content d dp)).take m).drop (k + 1) := by
        rw [List.drop_take, List.drop_take, drop_entries hlt',
          show m - k = m - (k + 1) + 1 by omega, List.take_succ_cons]
      rw [lookupLoop, if_pos (by rw [direntSize] at *; omega), Prog.bind_of_ret (h.readi hlt)]
      simp only [Option.getD_some]
      rw [if_neg (not_not.2 hentry), hdrop]
      generalize entryAt (content d dp) k = de at *
      change (if entryNum de ≠ 0 ∧ namecmp name (de.drop 2) = 0 then _ else _ : K _) d = _
      have hcmp := namecmp_eq_zero_iff name (de.drop 2)
      unfold slotOf
      by_cases hnum : entryNum de = 0
      · rw [if_neg fun hh => hh.1 hnum, if_pos hnum]
        exact hnext
      · rw [if_neg hnum, SlotMap.findFrom]
        by_cases hkey : key name = key (de.drop 2)
        · rw [if_pos ⟨hnum, hcmp.2 hkey⟩, if_pos hkey.symm]
          rfl
        · rw [if_neg fun hh => hkey (hcmp.1 hh.2), if_neg fun e => hkey e.symm]
          exact hnext
    · obtain rfl : k = m := by omega
      rw [List.drop_eq_nil_of_le (Nat.le_of_eq hlen), Nat.add_sub_cancel]
      rfl

theorem dirlookup_upto (h : DirAt d dp m) (name : List UInt8) :
    dirlookup sb devsw dp name d =
      match SlotMap.findFrom (key name) 0 ((entries (content d dp)).take m) with
      | some r => .ret ((dp, some (r.1, direntSize * r.2)), d)
      | none => lookupLoop sb devsw name (dp.size + 1 - m) dp (direntSize * m) d := by
  have hle := h.le
  unfold dirlookup
  rw [if_neg (not_not.2 h.type)]
  exact lookupLoop_upto (k := 0) h name (Nat.zero_le _) (by rw [direntSize] at hle; omega)

theorem lookupLoop_spec (h : DirAt d dp m) (hm : dp.size = direntSize * m) (name : List UInt8)
    (hk : k ≤ m) (hfuel : m < fuel + k) :
    lookupLoop sb devsw name fuel dp (direntSize * k) d = .ret ((dp,
      (SlotMap.findFrom (key name) k ((entries (content d dp)).drop k)).map fun r =>
        (r.1, direntSize * r.2)), d) := by
  have hlen : (entries (content d dp)).length ≤ m := by
    rw [length_entries, length_content, hm]
    rw [direntSize]
    omega
  rw [lookupLoop_upto h name hk (Nat.le_of_lt hfuel), List.take_of_length_le hlen]
  cases SlotMap.findFrom (key name) k ((entries (content d dp)).drop k) with
  | some r => rfl
  | none =>
    obtain ⟨f, hf⟩ : ∃ f, fuel + k - m = f + 1 := ⟨fuel + k - m - 1, by omega⟩
    simp only
    rw [hf, lookupLoop, if_neg (by omega)]
    rfl

theorem dirlookup_spec (h : DirAt d dp m) (hm : dp.size = direntSize * m) (name : List UInt8) :
    dirlookup sb devsw dp name d = .ret ((dp,
      (SlotMap.findFrom (key name) 0 (entries (content d dp))).map fun r =>
        (r.1, direntSize * r.2)), d) := by
  unfold dirlookup
  rw [if_neg (not_not.2 h.type)]
  exact lookupLoop_spec (k := 0) h hm name (Nat.zero_le _) (by rw [hm, direntSize]; omega)

theorem emptyLoop_spec (h : DirAt d dp m) (hm : dp.size = direntSize * m) (hk : k ≤ m)
    (hfuel : m < fuel + k) :
    emptyLoop sb devsw fuel dp (direntSize * k) d = .ret ((dp,
      direntSize * SlotMap.emptyFrom k ((entries (content d dp)).drop k)), d) := by
  induction fuel generalizing k with
  | zero => omega
  | succ fuel ih =>
    rw [emptyLoop]
    by_cases hlt : k < m
    · have hlt' := h.lt_length hlt
      have hentry : (entryAt (content d dp) k).length = direntSize := length_entryAt hlt'
      have hnext := ih (k := k + 1) hlt (by omega)
      rw [if_pos (by rw [direntSize] at *; omega), Prog.bind_of_ret (h.readi hlt)]
      simp only [Option.getD_some]
      rw [if_neg (not_not.2 hentry), drop_entries hlt']
      generalize entryAt (content d dp) k = de at *
      change (if entryNum de = 0 then _ else _ : K _) d = _
      unfold slotOf
      by_cases hnum : entryNum de = 0
      · rw [if_pos hnum, if_pos hnum]
        rfl
      · rw [if_neg hnum, if_neg hnum]
        exact hnext
    · obtain rfl : k = m := by omega
      rw [if_neg (by omega), List.drop_eq_nil_of_le]
      · rfl
      · rw [length_entries, length_content, hm, direntSize]
        omega

end Lookup

end Xv6.Disk
