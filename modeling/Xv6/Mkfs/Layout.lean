import Xv6.Disk.Slots
import Xv6.Mkfs.Machine

/-!
# Where the blocks of the files are

A file has its blocks in slots: those of its inode, and those of its indirect block. `own` says
of every block behind the metadata, up to the next free one, which slot of which file it is in.
So no two slots have the same block, and no block is lost.
-/

namespace Xv6.Mkfs
open Lib Disk

structure Layout (d : Sectors) (dins : ℕ → Dinode) (free : ℕ) (used : ℕ → Slot → Prop)
    (own : ℕ → ℕ × Slot) (cs : ℕ → List UInt8) : Prop where
  meta_le : nmeta ≤ free
  valid : ∀ i sl, used i sl → sl.Valid
  ind : ∀ i j, used i (.data j) → NDIRECT ≤ j → used i .ind
  unused : ∀ i sl, sl.Valid → ¬used i sl → addr d (dins i) sl = 0
  range : ∀ i sl, used i sl → nmeta ≤ addr d (dins i) sl ∧ addr d (dins i) sl < free ∧
    own (addr d (dins i) sl) = (i, sl)
  owned : ∀ b, nmeta ≤ b → b < free →
    used (own b).1 (own b).2 ∧ addr d (dins (own b).1) (own b).2 = b
  blank : ∀ b, free ≤ b → d b = Bytes.zero
  content : ∀ i j, used i (.data j) → ∀ o < BSIZE,
    d (addr d (dins i) (.data j)) o = (cs i).getD (BSIZE * j + o) 0

namespace Layout

variable {d d' : Sectors} {dins dins' : ℕ → Dinode} {free : ℕ} {used : ℕ → Slot → Prop}
  {own : ℕ → ℕ × Slot} {cs : ℕ → List UInt8} {i j : ℕ} {sl : Slot}

theorem ne_zero (h : Layout d dins free used own cs) (hu : used i sl) :
    addr d (dins i) sl ≠ 0 := by
  have := (h.range i sl hu).1
  have : 0 < nmeta := by decide
  omega

theorem used_of_ne (h : Layout d dins free used own cs) (hv : sl.Valid)
    (hne : addr d (dins i) sl ≠ 0) : used i sl := by
  by_contra hu
  exact hne (h.unused i sl hv hu)

theorem used_ind (h : Layout d dins free used own cs) (hne : (dins i).addrs NDIRECT ≠ 0) :
    used i .ind := by
  by_contra hu
  exact hne (h.unused i .ind trivial hu)

theorem injective (h : Layout d dins free used own cs) {i' : ℕ} {sl' : Slot} (hu : used i sl)
    (hu' : used i' sl') (he : addr d (dins i) sl = addr d (dins i') sl') : i = i' ∧ sl = sl' := by
  have := (h.range i sl hu).2.2
  rw [he, (h.range i' sl' hu').2.2] at this
  exact ⟨(Prod.mk.inj this).1.symm, (Prod.mk.inj this).2.symm⟩

theorem alloc (h : Layout d dins free used own cs) (hv : sl.Valid) (hu : ¬used i sl)
    (hind : ∀ j, sl = .data j → NDIRECT ≤ j → used i .ind)
    (hnew : addr d' (dins' i) sl = free)
    (hold : ∀ i' sl', sl'.Valid → (i', sl') ≠ (i, sl) →
      addr d' (dins' i') sl' = addr d (dins i') sl')
    (hblank : ∀ b, free ≤ b → d' b = d b)
    (hdata : ∀ i' j', used i' (.data j') →
      d' (addr d (dins i') (.data j')) = d (addr d (dins i') (.data j')))
    (hcs : ∀ j, sl = .data j → (cs i).length ≤ BSIZE * j) :
    Layout d' dins' (free + 1) (fun i' sl' => used i' sl' ∨ (i', sl') = (i, sl))
      (Function.update own free (i, sl)) cs := by
  have haddr : ∀ i' sl', used i' sl' → addr d' (dins' i') sl' = addr d (dins i') sl' :=
    fun i' sl' hu' => hold i' sl' (h.valid i' sl' hu') fun he => by
      obtain ⟨rfl, rfl⟩ := Prod.mk.inj he
      exact hu hu'
  refine
    { meta_le := Nat.le_succ_of_le h.meta_le
      valid := fun i' sl' hu' => ?_
      ind := fun i' j' hu' hj => ?_
      unused := fun i' sl' hv' hu' => ?_
      range := fun i' sl' hu' => ?_
      owned := fun b hb hlt => ?_
      blank := fun b hb => ?_
      content := fun i' j' hu' o ho => ?_ }
  · rcases hu' with hu' | he
    · exact h.valid i' sl' hu'
    · obtain ⟨rfl, rfl⟩ := Prod.mk.inj he
      exact hv
  · rcases hu' with hu' | he
    · exact .inl (h.ind i' j' hu' hj)
    · obtain ⟨rfl, hsl⟩ := Prod.mk.inj he
      exact .inl (hind j' hsl.symm hj)
  · obtain ⟨hu₁, hu₂⟩ := not_or.1 hu'
    rw [hold i' sl' hv' hu₂]
    exact h.unused i' sl' hv' hu₁
  · rcases hu' with hu' | he
    · obtain ⟨h1, h2, h3⟩ := h.range i' sl' hu'
      rw [haddr i' sl' hu', Function.update_of_ne (by omega)]
      exact ⟨h1, by omega, h3⟩
    · obtain ⟨rfl, rfl⟩ := Prod.mk.inj he
      rw [hnew, Function.update_self]
      exact ⟨h.meta_le, by omega, rfl⟩
  · by_cases hbf : b = free
    · subst hbf
      rw [Function.update_self]
      exact ⟨.inr rfl, hnew⟩
    · rw [Function.update_of_ne hbf]
      obtain ⟨h1, h2⟩ := h.owned b hb (by omega)
      exact ⟨.inl h1, (haddr _ _ h1).trans h2⟩
  · rw [hblank b (by omega)]
    exact h.blank b (by omega)
  · rcases hu' with hu' | he
    · rw [haddr i' _ hu', hdata i' j' hu']
      exact h.content i' j' hu' o ho
    · obtain ⟨rfl, rfl⟩ := Prod.mk.inj he
      have := hcs j' rfl
      rw [hnew, hblank free le_rfl, h.blank free le_rfl,
        List.getD_eq_default _ _ (by omega)]
      rfl

@[simp] theorem setAddr_self (din : Dinode) (k b : ℕ) : (setAddr din k b).addrs k = b := by
  simp [setAddr]

theorem setAddr_ne (din : Dinode) {k k' : ℕ} (b : ℕ) (h : k' ≠ k) :
    (setAddr din k b).addrs k' = din.addrs k' := by
  simp [setAddr, h]

theorem addr_setAddr_direct (din : Dinode) {j : ℕ} (b : ℕ) (hj : j < NDIRECT) (hsl : sl ≠ .data j) :
    addr d (setAddr din j b) sl = addr d din sl := by
  cases sl with
  | ind => exact setAddr_ne din b (Nat.ne_of_gt hj)
  | data k =>
    have hk : k ≠ j := fun e => hsl (e ▸ rfl)
    simp only [addr, setAddr_ne din b (Nat.ne_of_gt hj), setAddr_ne din b hk]

theorem alloc_direct (h : Layout d dins free used own cs) (hj : j < NDIRECT)
    (hu : ¬used i (.data j)) (hcs : (cs i).length ≤ BSIZE * j) :
    Layout d (Function.update dins i (setAddr (dins i) j free)) (free + 1)
      (fun i' sl' => used i' sl' ∨ (i', sl') = (i, .data j))
      (Function.update own free (i, .data j)) cs := by
  refine h.alloc (Nat.lt_of_lt_of_le hj (by decide)) hu
    (fun k hk hle => ?_) ?_ (fun i' sl' _ hne => ?_) (fun _ _ => rfl) (fun _ _ _ => rfl)
    fun k hk => ?_
  · obtain rfl := Slot.data.inj hk
    omega
  · rw [Function.update_self, addr, if_pos hj, setAddr_self]
  · by_cases hi : i' = i
    · subst hi
      rw [Function.update_self]
      exact addr_setAddr_direct _ _ hj fun e => hne (by rw [e])
    · rw [Function.update_of_ne hi]
  · obtain rfl := Slot.data.inj hk
    exact hcs

theorem alloc_ind (h : Layout d dins free used own cs) (hu : ¬used i .ind) :
    Layout d (Function.update dins i (setAddr (dins i) NDIRECT free)) (free + 1)
      (fun i' sl' => used i' sl' ∨ (i', sl') = (i, .ind))
      (Function.update own free (i, .ind)) cs := by
  have h0 : (dins i).addrs NDIRECT = 0 := h.unused i .ind trivial hu
  refine h.alloc trivial hu nofun ?_ (fun i' sl' _ hne => ?_) (fun _ _ => rfl)
    (fun _ _ _ => rfl) nofun
  · rw [Function.update_self]
    exact setAddr_self _ _ _
  · by_cases hi : i' = i
    · subst hi
      rw [Function.update_self]
      cases sl' with
      | ind => exact absurd rfl hne
      | data k =>
        -- the new indirect block has no entries
        simp only [addr, setAddr_self, h0, if_true, h.blank free le_rfl]
        by_cases hk : k < NDIRECT
        · rw [if_pos hk, if_pos hk]
          exact setAddr_ne _ _ (Nat.ne_of_lt hk)
        · rw [if_neg hk, if_neg hk]
          split_ifs <;> rfl
    · rw [Function.update_of_ne hi]

theorem alloc_entry (h : Layout d dins free used own cs) (hle : NDIRECT ≤ j) (hj : j < MAXFILE)
    (hind : used i .ind) (hu : ¬used i (.data j)) (hcs : (cs i).length ≤ BSIZE * j)
    (hfree : free < 2 ^ 32) :
    Layout (Function.update d ((dins i).addrs NDIRECT)
        ((d ((dins i).addrs NDIRECT)).write32 (4 * (j - NDIRECT)) free)) dins (free + 1)
      (fun i' sl' => used i' sl' ∨ (i', sl') = (i, .data j))
      (Function.update own free (i, .data j)) cs := by
  obtain ⟨hlo, hhi, -⟩ := h.range i .ind hind
  have hne0 : (dins i).addrs NDIRECT ≠ 0 := h.ne_zero hind
  refine h.alloc hj hu (fun _ _ _ => hind) ?_ (fun i' sl' hv hne => ?_) (fun b hb => ?_)
    (fun i' j' hu' => ?_) fun k hk => ?_
  · rw [addr, if_neg (by omega), if_neg hne0, Function.update_self, Bytes.read32_write32,
      Nat.mod_eq_of_lt hfree]
  · cases sl' with
    | ind => rfl
    | data k =>
      simp only [addr]
      split_ifs with hk hk0
      · rfl
      · rfl
      · by_cases hi : (dins i').addrs NDIRECT = (dins i).addrs NDIRECT
        · -- another entry of the same indirect block
          have hi' : i' = i := (h.injective (h.used_ind hk0) hind hi).1
          subst hi'
          have hkj : k ≠ j := fun e => hne (e ▸ rfl)
          rw [Function.update_self, Bytes.read32_write32_of_disjoint _ _ (by omega)]
        · rw [Function.update_of_ne hi]
  · refine Function.update_of_ne (fun e => ?_) _ _
    have : (dins i).addrs NDIRECT < free := hhi
    omega
  · refine Function.update_of_ne (fun e => ?_) _ _
    exact absurd (h.injective hu' hind e).2 nofun
  · obtain rfl := Slot.data.inj hk
    exact hcs

theorem write (h : Layout d dins free used own cs) (hu : used i (.data j)) (buf : Bytes)
    (c : List UInt8) (hbuf : ∀ o < BSIZE, buf o = c.getD (BSIZE * j + o) 0)
    (hother : ∀ k, used i (.data k) → k ≠ j → ∀ o < BSIZE,
      c.getD (BSIZE * k + o) 0 = (cs i).getD (BSIZE * k + o) 0) :
    Layout (Function.update d (addr d (dins i) (.data j)) buf) dins free used own
      (Function.update cs i c) := by
  obtain ⟨hlo, hhi, -⟩ := h.range i (.data j) hu
  -- the block is not an indirect one
  have hne : ∀ i', (dins i').addrs NDIRECT ≠ 0 →
      (dins i').addrs NDIRECT ≠ addr d (dins i) (.data j) := fun i' h0 e =>
    absurd (h.injective (h.used_ind h0) hu e).2 nofun
  have haddr : ∀ i' sl', sl'.Valid → addr (Function.update d (addr d (dins i) (.data j)) buf)
      (dins i') sl' = addr d (dins i') sl' := by
    intro i' sl' hv
    cases sl' with
    | ind => rfl
    | data k =>
      have hread : (dins i').addrs NDIRECT ≠ 0 →
          Function.update d (addr d (dins i) (.data j)) buf ((dins i').addrs NDIRECT) =
            d ((dins i').addrs NDIRECT) := fun h0 => Function.update_of_ne (hne i' h0) _ _
      generalize Function.update d (addr d (dins i) (.data j)) buf = d' at hread
      simp only [addr]
      split_ifs with hk hk0
      · rfl
      · rfl
      · rw [hread hk0]
  refine
    { meta_le := h.meta_le
      valid := h.valid
      ind := h.ind
      unused := fun i' sl' hv hu' => (haddr i' sl' hv).trans (h.unused i' sl' hv hu')
      range := fun i' sl' hu' => by
        rw [haddr i' sl' (h.valid i' sl' hu')]
        exact h.range i' sl' hu'
      owned := fun b hb hlt => by
        obtain ⟨h1, h2⟩ := h.owned b hb hlt
        exact ⟨h1, (haddr _ _ (h.valid _ _ h1)).trans h2⟩
      blank := fun b hb => by
        rw [Function.update_of_ne (by omega)]
        exact h.blank b hb
      content := fun i' k hu' o ho => ?_ }
  rw [haddr i' _ (h.valid _ _ hu')]
  by_cases hik : i' = i
  · subst hik
    rw [Function.update_self]
    by_cases hkj : k = j
    · subst hkj
      rw [Function.update_self]
      exact hbuf o ho
    · rw [Function.update_of_ne fun e => hkj (Slot.data.inj (h.injective hu' hu e).2),
        h.content i' k hu' o ho, hother k hu' hkj o ho]
  · rw [Function.update_of_ne fun e => hik (h.injective hu' hu e).1, Function.update_of_ne hik]
    exact h.content i' k hu' o ho

end Layout

end Xv6.Mkfs
