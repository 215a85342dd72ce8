import Xv6.Lib.Bytes

/-!
# `memmove`

The kernel's `memmove` and the one of the user library, over a memory of bytes with 32-bit
addresses. The kernel's copies down when the destination begins inside the source. The other
one always copies up: then a destination inside the source gets the bytes before it again and
again.
-/

namespace Xv6.Memmove
open Lib

/-- `while(n-- > 0) *d++ = *s++` -/
def copyUp : ℕ → ℕ → ℕ → Bytes → Bytes
  | 0, _, _, m => m
  | n + 1, d, s, m => copyUp n ((d + 1) % 2 ^ 32) ((s + 1) % 2 ^ 32) (Function.update m d (m s))

/-- `while(n-- > 0) *--d = *--s` -/
def copyDown : ℕ → ℕ → ℕ → Bytes → Bytes
  | 0, _, _, m => m
  | n + 1, d, s, m =>
    let d := (d + 2 ^ 32 - 1) % 2 ^ 32
    let s := (s + 2 ^ 32 - 1) % 2 ^ 32
    copyDown n d s (Function.update m d (m s))

def Kernel.memmove (dst src n : ℕ) (m : Bytes) : ℕ × Bytes :=
  if src < dst ∧ dst < (src + n) % 2 ^ 32 then
    (dst, copyDown n ((dst + n) % 2 ^ 32) ((src + n) % 2 ^ 32) m)
  else (dst, copyUp n dst src m)

/-- `ulib.c`, where `n` is an `int` -/
def User.memmove (dst src : ℕ) (n : ℤ) (m : Bytes) : ℕ × Bytes := (dst, copyUp n.toNat dst src m)

def moved (dst src n : ℕ) (m : Bytes) : Bytes :=
  fun a => if dst ≤ a ∧ a < dst + n then m (src + (a - dst)) else m a

section Up

variable {d s n : ℕ}

theorem copyUp_succ (hd : d + (n + 1) ≤ 2 ^ 32) (hs : s + (n + 1) ≤ 2 ^ 32) (m : Bytes) :
    copyUp (n + 1) d s m = copyUp n (d + 1) (s + 1) (Function.update m d (m s)) := by
  rw [copyUp]
  cases n with
  | zero => rfl
  | succ n => rw [Nat.mod_eq_of_lt (by omega), Nat.mod_eq_of_lt (by omega)]

theorem copyUp_below (hd : d + n ≤ 2 ^ 32) (hs : s + n ≤ 2 ^ 32) (hle : d ≤ s) (m : Bytes) :
    copyUp n d s m = moved d s n m := by
  induction n generalizing d s m with
  | zero =>
    funext a
    rw [copyUp, moved, if_neg (by omega)]
  | succ n ih =>
    rw [copyUp_succ hd hs, ih (by omega) (by omega) (by omega)]
    funext a
    unfold moved
    by_cases ha : a = d
    · subst ha
      rw [if_neg (by omega), if_pos (by omega), Function.update_self, Nat.sub_self, Nat.add_zero]
    by_cases hin : d + 1 ≤ a ∧ a < d + 1 + n
    · rw [if_pos hin, if_pos (by omega), Function.update_of_ne (by omega),
        show s + 1 + (a - (d + 1)) = s + (a - d) by omega]
    · rw [if_neg hin, if_neg (by omega), Function.update_of_ne ha]

theorem succ_mod_of_eq {i k : ℕ} (h : i % k + 1 = k) : (i + 1) % k = 0 := by
  have hdiv := Nat.div_add_mod i k
  rw [show i + 1 = k * (i / k) + (i % k + 1) by omega, h]
  exact Nat.mod_eq_zero_of_dvd ⟨i / k + 1, (Nat.mul_succ k (i / k)).symm⟩

theorem succ_mod_of_lt {i k : ℕ} (h : i % k + 1 < k) : (i + 1) % k = i % k + 1 := by
  have hdiv := Nat.div_add_mod i k
  rw [show i + 1 = k * (i / k) + (i % k + 1) by omega, Nat.mul_add_mod, Nat.mod_eq_of_lt h]

theorem copyUp_above (hd : d + n ≤ 2 ^ 32) (hs : s + n ≤ 2 ^ 32) (hlt : s < d) (m : Bytes) :
    copyUp n d s m =
      fun a => if d ≤ a ∧ a < d + n then m (s + (a - d) % (d - s)) else m a := by
  induction n generalizing d s m with
  | zero =>
    funext a
    rw [copyUp, if_neg (by omega)]
  | succ n ih =>
    rw [copyUp_succ hd hs, ih (by omega) (by omega) (by omega), Nat.add_sub_add_right]
    funext a
    by_cases ha : a = d
    · subst ha
      rw [if_neg (by omega), if_pos (by omega), Function.update_self, Nat.sub_self, Nat.zero_mod,
        Nat.add_zero]
    by_cases hin : d + 1 ≤ a ∧ a < d + 1 + n
    · have hmod := Nat.mod_lt (a - (d + 1)) (Nat.sub_pos_of_lt hlt)
      rw [if_pos hin, if_pos (by omega), show a - d = a - (d + 1) + 1 by omega]
      -- the byte that was copied first comes again behind the last one before `d`
      by_cases hwrap : (a - (d + 1)) % (d - s) + 1 = d - s
      · rw [succ_mod_of_eq hwrap, show s + 1 + (a - (d + 1)) % (d - s) = d by omega,
          Function.update_self, Nat.add_zero]
      · rw [succ_mod_of_lt (by omega), Function.update_of_ne (by omega), Nat.add_assoc,
          Nat.add_comm 1]
    · rw [if_neg hin, if_neg (by omega), Function.update_of_ne ha]

end Up

section Down

variable {d s n : ℕ}

theorem copyDown_succ (hd : d + (n + 1) ≤ 2 ^ 32) (hs : s + (n + 1) ≤ 2 ^ 32) (m : Bytes) :
    copyDown (n + 1) ((d + (n + 1)) % 2 ^ 32) ((s + (n + 1)) % 2 ^ 32) m =
      copyDown n ((d + n) % 2 ^ 32) ((s + n) % 2 ^ 32)
        (Function.update m (d + n) (m (s + n))) := by
  have hback : ∀ x, x + 1 ≤ 2 ^ 32 → ((x + 1) % 2 ^ 32 + 2 ^ 32 - 1) % 2 ^ 32 = x := by
    intro x hx
    omega
  rw [copyDown, ← Nat.add_assoc, ← Nat.add_assoc, hback (d + n) hd, hback (s + n) hs,
    Nat.mod_eq_of_lt (by omega), Nat.mod_eq_of_lt (by omega)]

theorem copyDown_above (hd : d + n ≤ 2 ^ 32) (hs : s + n ≤ 2 ^ 32) (hlt : s < d) (m : Bytes) :
    copyDown n ((d + n) % 2 ^ 32) ((s + n) % 2 ^ 32) m = moved d s n m := by
  induction n generalizing m with
  | zero =>
    funext a
    rw [copyDown, moved, if_neg (by omega)]
  | succ n ih =>
    rw [copyDown_succ hd hs, ih (by omega) (by omega)]
    funext a
    unfold moved
    by_cases ha : a = d + n
    · subst ha
      rw [if_neg (by omega), if_pos (by omega), Function.update_self, Nat.add_sub_cancel_left]
    by_cases hin : d ≤ a ∧ a < d + n
    · rw [if_pos hin, if_pos (by omega), Function.update_of_ne (by omega)]
    · rw [if_neg hin, if_neg (by omega), Function.update_of_ne ha]

end Down

section Law

variable {dst src n : ℕ}

theorem kernel_memmove (hd : dst + n ≤ 2 ^ 32) (hs : src + n ≤ 2 ^ 32) (m : Bytes) :
    Kernel.memmove dst src n m = (dst, moved dst src n m) := by
  unfold Kernel.memmove
  by_cases hlt : src < dst
  · by_cases hin : dst < (src + n) % 2 ^ 32
    · rw [if_pos ⟨hlt, hin⟩, copyDown_above hd hs hlt]
    · rw [if_neg fun h => hin h.2, copyUp_above hd hs hlt]
      -- the source ends before the destination, as its end does not wrap
      congr 1
      funext a
      unfold moved
      split_ifs with ha
      · rw [Nat.mod_eq_of_lt (by omega)]
      · rfl
  · rw [if_neg fun h => hlt h.1, copyUp_below hd hs (Nat.le_of_not_lt hlt)]

theorem user_memmove_iff (hd : dst + n ≤ 2 ^ 32) (hs : src + n ≤ 2 ^ 32) (m : Bytes) :
    User.memmove dst src n m = (dst, moved dst src n m) ↔
      dst ≤ src ∨ ∀ i < n, m (src + i) = m (src + i % (dst - src)) := by
  unfold User.memmove
  rw [Int.toNat_natCast, Prod.mk.injEq, eq_self, true_and]
  by_cases hle : dst ≤ src
  · exact iff_of_true (copyUp_below hd hs hle m) (.inl hle)
  rw [copyUp_above hd hs (Nat.lt_of_not_le hle), or_iff_right hle]
  constructor
  · intro h i hi
    have hbyte := congrFun h (dst + i)
    unfold moved at hbyte
    rw [if_pos (by omega), if_pos (by omega), Nat.add_sub_cancel_left] at hbyte
    exact hbyte.symm
  · intro h
    funext a
    unfold moved
    split_ifs with ha
    · rw [h (a - dst) (by omega)]
    · rfl

/-- The kernel's `memmove` moves the bytes. The other one does so when the destination does not
begin inside the source, or the bytes of the source repeat those before the destination. -/
theorem memmove_moves_iff (dst src n : ℕ) (hd : dst + n ≤ 2 ^ 32) (hs : src + n ≤ 2 ^ 32) (m : Bytes) :
    Kernel.memmove dst src n m = (dst, moved dst src n m) ∧
    (User.memmove dst src n m = (dst, moved dst src n m) ↔
      dst ≤ src ∨ src + n ≤ dst ∨ ∀ i < n, m (src + i) = m (src + i % (dst - src))) := by
  refine ⟨kernel_memmove hd hs m, ?_⟩
  rw [user_memmove_iff hd hs]
  constructor
  · rintro (hle | h)
    · exact .inl hle
    · exact .inr (.inr h)
  · rintro (hle | hend | h)
    · exact .inl hle
    · refine .inr fun i hi => ?_
      rw [Nat.mod_eq_of_lt (by omega)]
    · exact .inr h

/-- Two bytes are moved down by one. -/
theorem memmove_moves_down :
    User.memmove 8 9 2 (fun a => UInt8.ofNat a) = (8, moved 8 9 2 fun a => UInt8.ofNat a) :=
  (memmove_moves_iff 8 9 2 (by decide) (by decide) _).2.2 (.inl (by decide))

/-- Two bytes are to be moved up by one: the first of them comes twice. -/
theorem user_memmove_overlap :
    (User.memmove 9 8 2 fun a => UInt8.ofNat a).2 10 = 8 ∧
      moved 9 8 2 (fun a => UInt8.ofNat a) 10 = 9 := by
  decide

end Law

end Xv6.Memmove
