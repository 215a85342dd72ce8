import Xv6.Disk.Bmap
import Xv6.Lib.Splice

/-!
# The bytes of a file
-/

namespace Xv6.Disk
open Lib

def slots (off n : ℕ) : Finset Slot :=
  (Finset.Ico off (off + n)).biUnion fun a => slotsOf (a / BSIZE)

def byteAt (d : Sectors) (ip : Dinode) (a : ℕ) : UInt8 :=
  d (block d ip (.data (a / BSIZE))) (a % BSIZE)

def content (d : Sectors) (ip : Dinode) : List UInt8 := (List.range ip.size).map (byteAt d ip)

structure Wrote (d : Sectors) (ip : Dinode) (off : ℕ) (src : List UInt8) (d' : Sectors)
    (ip' : Dinode) : Prop where
  inside : ∀ k < src.length, byteAt d' ip' (off + k) = src.getD k 0
  outside : ∀ a, a < off ∨ off + src.length ≤ a → block d ip (.data (a / BSIZE)) ≠ 0 →
    byteAt d' ip' a = byteAt d ip a

inductive Writes (sb : Superblock) (T : ℕ → Dinode) (inum : ℕ) (d : Sectors) (ip : Dinode)
    (off : ℕ) (src : List UInt8) : Outcome (Dinode × Sectors) → Prop
  | done {d' : Sectors} {ip' : Dinode} (h : Extends sb T inum d ip (slots off src.length) d' ip')
      (hw : Wrote d ip off src d' ip') : Writes sb T inum d ip off src (.ret (ip', d'))
  | full (h : (freeBlocks sb d).card < missing (block d ip) (slots off src.length)) :
      Writes sb T inum d ip off src (.panic "balloc: out of blocks")

variable {sb : Superblock} {d d' d'' : Sectors} {T : ℕ → Dinode} {ip ip' ip'' : Dinode}
  {inum off n a bn fuel : ℕ} {src src' : List UInt8}

section Slots

theorem data_mem_slotsOf (bn : ℕ) : Slot.data bn ∈ slotsOf bn := by
  unfold slotsOf
  split_ifs
  · exact Finset.mem_singleton_self _
  · exact Finset.mem_union_right _ (Finset.mem_singleton_self _)

theorem slots_add (off m n : ℕ) : slots off (m + n) = slots off m ∪ slots (off + m) n := by
  unfold slots
  rw [← Finset.union_biUnion, Finset.Ico_union_Ico_eq_Ico (Nat.le_add_right off m)
    (Nat.le_add_right (off + m) n), Nat.add_assoc]

theorem slots_zero (off : ℕ) : slots off 0 = ∅ := by
  rw [slots, Nat.add_zero, Finset.Ico_self, Finset.biUnion_empty]

theorem slots_block (hn : 0 < n) (hle : off % BSIZE + n ≤ BSIZE) :
    slots off n = slotsOf (off / BSIZE) := by
  ext sl
  unfold slots
  rw [Finset.mem_biUnion]
  rw [BSIZE] at hle ⊢
  constructor
  · rintro ⟨a, ha, hsl⟩
    rw [Finset.mem_Ico] at ha
    rwa [show a / 512 = off / 512 by omega] at hsl
  · intro hsl
    exact ⟨off, Finset.mem_Ico.2 (by omega), hsl⟩

theorem data_mem_slots (hlo : off ≤ a) (hhi : a < off + n) : Slot.data (a / BSIZE) ∈ slots off n :=
  Finset.mem_biUnion.2 ⟨a, Finset.mem_Ico.2 ⟨hlo, hhi⟩, data_mem_slotsOf _⟩

end Slots

theorem byteAt_add {k : ℕ} (h : off % BSIZE + k < BSIZE) :
    byteAt d ip (off + k) = d (block d ip (.data (off / BSIZE))) (off % BSIZE + k) := by
  have hdiv : (off + k) / BSIZE = off / BSIZE := by
    rw [BSIZE] at *
    omega
  have hmod : (off + k) % BSIZE = off % BSIZE + k := by
    rw [BSIZE] at *
    omega
  rw [byteAt, hdiv, hmod]

section Write

theorem Extends.ne_zero {N : Finset Slot} {sl : Slot} (h : Extends sb T inum d ip N d' ip')
    (hsl : sl ∈ N) : block d' ip' sl ≠ 0 := fun h0 => ((h.filled.empty sl).1 h0).2 hsl

theorem wrote_block (hext : Extends sb T inum d ip (slotsOf (off / BSIZE)) d' ip')
    (hdata : DataKept d ip d') (hle : off % BSIZE + src.length ≤ BSIZE) :
    Wrote d ip off src (Function.update d' (block d' ip' (.data (off / BSIZE)))
      ((d' (block d' ip' (.data (off / BSIZE)))).copy (off % BSIZE) src)) ip' := by
  have hne := hext.ne_zero (data_mem_slotsOf (off / BSIZE))
  have hblock := (Extends.write hext.held hne
    ((d' (block d' ip' (.data (off / BSIZE)))).copy (off % BSIZE) src)).filled.kept
  refine ⟨fun k hk => ?_, fun a ha hold => ?_⟩
  · rw [byteAt_add (by omega), hblock _ hne, Function.update_self, Bytes.copy_inside _ hk]
  · have hkept := hext.filled.kept _ hold
    rw [byteAt, hblock _ (by rwa [hkept])]
    by_cases hsame : a / BSIZE = off / BSIZE
    · rw [hsame, Function.update_self, Bytes.copy_outside _ (by rw [BSIZE] at *; omega), byteAt,
        hsame]
      rw [hsame] at hkept hold
      rw [hkept, hdata _ hold]
    · have hne' : block d' ip' (.data (a / BSIZE)) ≠ block d' ip' (.data (off / BSIZE)) := fun e =>
        hsame (Slot.data.inj (hext.held.injective (by rwa [hkept]) e))
      rw [Function.update_of_ne hne', byteAt, hkept, hdata _ hold]

theorem round_spec (h : Held sb T inum d ip) (hsrc : src ≠ []) (hoff : off / BSIZE < MAXFILE)
    (hle : off % BSIZE + src.length ≤ BSIZE) :
    Writes sb T inum d ip off src ((do
      let (ip, b) ← bmap sb ip (off / BSIZE)
      .modify fun d => Function.update d b ((d b).copy (off % BSIZE) src)
      return ip : K Dinode) d) := by
  have hslots := slots_block (List.length_pos_iff.2 hsrc) hle
  have hspec := bmap_spec h hoff
  rw [Prog.bind_apply]
  generalize bmap sb ip (off / BSIZE) d = o at hspec
  cases hspec with
  | full hfull => exact .full (hslots ▸ hfull)
  | @mapped d₁ ip₁ hext hdata =>
    have hboth := hext.trans (Extends.write hext.held
      (hext.ne_zero (data_mem_slotsOf (off / BSIZE)))
      ((d₁ (block d₁ ip₁ (.data (off / BSIZE)))).copy (off % BSIZE) src))
    rw [Finset.union_empty, ← hslots] at hboth
    exact .done hboth (wrote_block hext hdata hle)

theorem Wrote.trans (h : Wrote d ip off src d' ip')
    (hext : Extends sb T inum d ip (slots off src.length) d' ip')
    (h' : Wrote d' ip' (off + src.length) src' d'' ip'') :
    Wrote d ip off (src ++ src') d'' ip'' := by
  refine ⟨fun k hk => ?_, fun a ha hne => ?_⟩
  · rw [List.length_append] at hk
    by_cases hlt : k < src.length
    · have hslot := hext.ne_zero (data_mem_slots (Nat.le_add_right off k) (by omega))
      rw [h'.outside (off + k) (by omega) hslot, h.inside k hlt, List.getD_append _ _ _ _ hlt]
    · have := h'.inside (k - src.length) (by omega)
      rw [List.getD_append_right _ _ _ _ (by omega), ← this]
      congr 1
      omega
  · rw [List.length_append] at ha
    have hkept := hext.filled.kept _ hne
    rw [h'.outside a (by omega) (by rwa [hkept]), h.outside a (by omega) hne]

theorem Writes.after {o : Outcome (Dinode × Sectors)}
    (hext : Extends sb T inum d ip (slots off src.length) d' ip')
    (hw : Wrote d ip off src d' ip') (h : Writes sb T inum d' ip' (off + src.length) src' o) :
    Writes sb T inum d ip off (src ++ src') o := by
  have hslots := slots_add off src.length src'.length
  cases h with
  | done hext' hw' =>
    refine .done ?_ (hw.trans hext hw')
    rw [List.length_append, hslots]
    exact hext.trans hext'
  | full hfull =>
    refine .full ?_
    have hcount := hext.filled.count
    rw [List.length_append, hslots, missing_union hext.filled.empty]
    omega

theorem writeLoop_succ (hsrc : src ≠ []) (d : Sectors) :
    writeLoop sb (fuel + 1) ip off src d = ((do
      let (ip, b) ← bmap sb ip (off / BSIZE)
      .modify fun d => Function.update d b ((d b).copy (off % BSIZE)
        (src.take (min src.length (BSIZE - off % BSIZE))))
      return ip : K Dinode) d).bind fun r =>
        writeLoop sb fuel r.1 (off + min src.length (BSIZE - off % BSIZE))
          (src.drop (min src.length (BSIZE - off % BSIZE))) r.2 := by
  rw [writeLoop, if_neg hsrc, Prog.bind_apply, Prog.bind_apply]
  cases bmap sb ip (off / BSIZE) d with
  | ret r => rfl
  | panic m => rfl
  | hang => rfl

theorem writeLoop_nil (h : Held sb T inum d ip) :
    Writes sb T inum d ip off [] (writeLoop sb fuel ip off [] d) := by
  have hrun : writeLoop sb fuel ip off [] d = .ret (ip, d) := by
    cases fuel <;> rfl
  rw [hrun]
  refine .done (.refl h fun sl hsl => ?_) ⟨fun k hk => absurd hk (Nat.not_lt_zero k),
    fun _ _ _ => rfl⟩
  rw [List.length_nil, slots_zero] at hsl
  exact absurd hsl (Finset.notMem_empty sl)

theorem writeLoop_spec (h : Held sb T inum d ip) (hfuel : src.length ≤ fuel)
    (hend : off + src.length ≤ MAXFILE * BSIZE) :
    Writes sb T inum d ip off src (writeLoop sb fuel ip off src d) := by
  induction fuel generalizing d ip off src with
  | zero =>
    cases List.eq_nil_of_length_eq_zero (Nat.le_zero.1 hfuel)
    exact writeLoop_nil h
  | succ fuel ih =>
    by_cases hsrc : src = []
    · subst hsrc
      exact writeLoop_nil h
    have hpos := List.length_pos_iff.2 hsrc
    have hmod : off % BSIZE < BSIZE := Nat.mod_lt _ (by decide)
    have hdiv : off / BSIZE < MAXFILE := Nat.div_lt_of_lt_mul (by rw [Nat.mul_comm]; omega)
    rw [writeLoop_succ hsrc]
    generalize hm : min src.length (BSIZE - off % BSIZE) = m
    have htake : (src.take m).length = m := by
      rw [List.length_take]
      omega
    have hdrop : (src.drop m).length = src.length - m := List.length_drop
    have hne : src.take m ≠ [] := fun e => by
      rw [e, List.length_nil] at htake
      omega
    have hround := round_spec h hne hdiv (by omega)
    generalize ((do
      let (ip, b) ← bmap sb ip (off / BSIZE)
      .modify fun d => Function.update d b ((d b).copy (off % BSIZE) (src.take m))
      return ip : K Dinode) d) = o at hround
    have hsplit := List.take_append_drop m src
    cases hround with
    | full hfull =>
      have hlen : src.length = (src.take m).length + (src.drop m).length := by
        rw [← List.length_append, hsplit]
      refine .full (Nat.lt_of_lt_of_le hfull (missing_mono ?_))
      rw [hlen, slots_add]
      exact Finset.subset_union_left
    | @done d₁ ip₁ hext hw =>
      have hrest : Writes sb T inum d₁ ip₁ (off + m) (src.drop m)
          (writeLoop sb fuel ip₁ (off + m) (src.drop m) d₁) := ih hext.held (by omega) (by omega)
      rw [← htake] at hrest
      have hall := Writes.after hext hw hrest
      rwa [htake, hsplit] at hall

end Write

section Read

theorem bmap_mapped (h : block d ip (.data bn) ≠ 0) :
    bmap sb ip bn d = .ret ((ip, block d ip (.data bn)), d) := by
  have hbn : bn < MAXFILE := valid_of_block h
  by_cases hdirect : bn < NDIRECT
  · rw [block_direct hdirect] at h ⊢
    rw [bmap, if_pos hdirect, if_neg h]
    rfl
  · have hind : ip.addrs NDIRECT ≠ 0 := by
      intro h0
      rw [block_data hbn, addr, if_neg hdirect, if_pos h0] at h
      exact h rfl
    rw [block_data hbn, addr, if_neg hdirect, if_neg hind] at h ⊢
    rw [bmap_indirect (Nat.le_of_not_lt hdirect) hbn, if_neg hind, Prog.bind_of_ret rfl, bmapEntry,
      Prog.bind_apply, Prog.read_apply, Outcome.ret_bind, if_neg h]
    rfl

theorem readLoop_spec (hfuel : n ≤ fuel)
    (h : ∀ a, off ≤ a → a < off + n → block d ip (.data (a / BSIZE)) ≠ 0) :
    readLoop sb fuel ip off n d = .ret ((ip, (List.range n).map fun k => byteAt d ip (off + k)), d) := by
  induction fuel generalizing off n with
  | zero =>
    cases Nat.le_zero.1 hfuel
    rfl
  | succ fuel ih =>
    rw [readLoop]
    by_cases hn : n = 0
    · subst hn
      rw [if_pos rfl]
      rfl
    have hmod : off % BSIZE < BSIZE := Nat.mod_lt _ (by decide)
    rw [if_neg hn, Prog.bind_of_ret (bmap_mapped (h off (Nat.le_refl off) (by omega)))]
    simp only
    rw [Prog.bind_apply, Prog.read_apply, Outcome.ret_bind]
    generalize hm : min n (BSIZE - off % BSIZE) = m
    have hrest : readLoop sb fuel ip (off + m) (n - m) d =
        .ret ((ip, (List.range (n - m)).map fun k => byteAt d ip (off + m + k)), d) :=
      ih (by omega) fun a hlo hhi => h a (by omega) (by omega)
    have hslice : (d (block d ip (.data (off / BSIZE)))).slice (off % BSIZE) m =
        (List.range m).map fun k => byteAt d ip (off + k) := by
      refine List.map_congr_left fun k hk => ?_
      have hk := List.mem_range.1 hk
      rw [byteAt_add (by omega)]
    have hsplit : (List.range n).map (fun k => byteAt d ip (off + k)) =
        (List.range m).map (fun k => byteAt d ip (off + k)) ++
          (List.range (n - m)).map fun k => byteAt d ip (off + m + k) := by
      rw [show n = m + (n - m) by omega, List.range_add, List.map_append, List.map_map,
        Nat.add_sub_cancel_left]
      simp only [Function.comp_def, Nat.add_assoc]
    rw [Prog.bind_of_ret hrest, hslice, hsplit]
    rfl

end Read

end Xv6.Disk
