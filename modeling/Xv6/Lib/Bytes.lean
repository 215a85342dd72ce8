import Mathlib.Tactic.NormNum

/-!
# Byte regions with little-endian fields

A region is a total function from offsets to bytes, so a store is a pointwise
update and two stores at different offsets never interfere. Fields wider than
a byte are stored least significant byte first and wrap at their width.
-/

namespace Xv6.Lib

abbrev Bytes := ℕ → UInt8

namespace Bytes

def zero : Bytes := fun _ => 0

def read16 (m : Bytes) (o : ℕ) : ℕ := (m o).toNat + 256 * (m (o + 1)).toNat

def read32 (m : Bytes) (o : ℕ) : ℕ :=
  (m o).toNat + 256 * (m (o + 1)).toNat + 65536 * (m (o + 2)).toNat +
    16777216 * (m (o + 3)).toNat

def write16 (m : Bytes) (o v : ℕ) : Bytes := fun a =>
  if a = o then UInt8.ofNat v
  else if a = o + 1 then UInt8.ofNat (v / 256)
  else m a

def write32 (m : Bytes) (o v : ℕ) : Bytes := fun a =>
  if a = o then UInt8.ofNat v
  else if a = o + 1 then UInt8.ofNat (v / 256)
  else if a = o + 2 then UInt8.ofNat (v / 65536)
  else if a = o + 3 then UInt8.ofNat (v / 16777216)
  else m a

def writeWords (m : Bytes) (o n : ℕ) (v : ℕ → ℕ) : Bytes :=
  (List.range n).foldl (fun b i => b.write32 (o + 4 * i) (v i)) m

def copy (m : Bytes) (o : ℕ) (l : List UInt8) : Bytes := fun a =>
  if o ≤ a ∧ a < o + l.length then l.getD (a - o) 0 else m a

def slice (m : Bytes) (o n : ℕ) : List UInt8 := (List.range n).map fun k => m (o + k)

theorem read16_lt (m : Bytes) (o : ℕ) : m.read16 o < 2 ^ 16 := by
  have h0 := (m o).toNat_lt
  have h1 := (m (o + 1)).toNat_lt
  simp only [read16]
  omega

theorem read32_lt (m : Bytes) (o : ℕ) : m.read32 o < 2 ^ 32 := by
  have h0 := (m o).toNat_lt
  have h1 := (m (o + 1)).toNat_lt
  have h2 := (m (o + 2)).toNat_lt
  have h3 := (m (o + 3)).toNat_lt
  simp only [read32]
  omega

theorem read32_write32 (m : Bytes) (o v : ℕ) : (m.write32 o v).read32 o = v % 2 ^ 32 := by
  simp [read32, write32]
  omega

theorem read16_write16 (m : Bytes) (o v : ℕ) : (m.write16 o v).read16 o = v % 2 ^ 16 := by
  simp [read16, write16]
  omega

theorem read16_congr {m m' : Bytes} {o : ℕ} (h : ∀ a, o ≤ a → a < o + 2 → m a = m' a) :
    m.read16 o = m'.read16 o := by
  rw [read16, read16, h o (by omega) (by omega), h (o + 1) (by omega) (by omega)]

theorem read32_congr {m m' : Bytes} {o : ℕ} (h : ∀ a, o ≤ a → a < o + 4 → m a = m' a) :
    m.read32 o = m'.read32 o := by
  rw [read32, read32, h o (by omega) (by omega), h (o + 1) (by omega) (by omega),
    h (o + 2) (by omega) (by omega), h (o + 3) (by omega) (by omega)]

theorem write16_outside (m : Bytes) {o a : ℕ} (v : ℕ) (h : a < o ∨ o + 2 ≤ a) :
    m.write16 o v a = m a := by
  simp only [write16]
  split_ifs <;> first | omega | rfl

theorem write32_outside (m : Bytes) {o a : ℕ} (v : ℕ) (h : a < o ∨ o + 4 ≤ a) :
    m.write32 o v a = m a := by
  simp only [write32]
  split_ifs <;> first | omega | rfl

theorem read32_write32_of_disjoint (m : Bytes) {o o' : ℕ} (v : ℕ)
    (h : o' + 4 ≤ o ∨ o + 4 ≤ o') : (m.write32 o v).read32 o' = m.read32 o' :=
  read32_congr fun _ h1 h2 => write32_outside m v (by omega)

theorem writeWords_succ (m : Bytes) (o n : ℕ) (v : ℕ → ℕ) :
    m.writeWords o (n + 1) v = (m.writeWords o n v).write32 (o + 4 * n) (v n) := by
  simp only [writeWords, List.range_succ, List.foldl_append, List.foldl_cons, List.foldl_nil]

theorem writeWords_outside (m : Bytes) {o n a : ℕ} (v : ℕ → ℕ) (h : a < o ∨ o + 4 * n ≤ a) :
    m.writeWords o n v a = m a := by
  induction n with
  | zero => rfl
  | succ n ih =>
    rw [writeWords_succ, write32_outside _ _ (by omega)]
    exact ih (by omega)

theorem read32_writeWords (m : Bytes) {o n i : ℕ} (v : ℕ → ℕ) (hi : i < n) :
    (m.writeWords o n v).read32 (o + 4 * i) = v i % 2 ^ 32 := by
  induction n with
  | zero => exact absurd hi (Nat.not_lt_zero i)
  | succ n ih =>
    rw [writeWords_succ]
    by_cases hin : i = n
    · rw [hin, read32_write32]
    · rw [read32_write32_of_disjoint _ _ (by omega)]
      exact ih (by omega)

theorem copy_inside (m : Bytes) {o k : ℕ} {l : List UInt8} (h : k < l.length) :
    m.copy o l (o + k) = l.getD k 0 := by
  rw [copy, if_pos (by omega), Nat.add_sub_cancel_left]

theorem copy_outside (m : Bytes) {o a : ℕ} {l : List UInt8} (h : a < o ∨ o + l.length ≤ a) :
    m.copy o l a = m a :=
  if_neg (by omega)

theorem or_and (a b m : UInt8) : (a ||| b) &&& m = (a &&& m) ||| (b &&& m) := by
  rw [← UInt8.toBitVec_inj]
  ext i hi
  simp [Bool.and_or_distrib_right]

theorem mask_and_mask : ∀ i < 8, ∀ j < 8,
    ((1 <<< UInt8.ofNat i &&& 1 <<< UInt8.ofNat j : UInt8) = 0 ↔ i ≠ j) := by
  decide

end Bytes

end Xv6.Lib
