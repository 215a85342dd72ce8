import Xv6.Lib.Outcome
import Xv6.Param

/-!
# The table of processors

`mp.c`: at boot the kernel looks for the MP floating pointer, which leads to the configuration
table, and goes through the entries of the table. Addresses are 32 bits wide and wrap around.

The `break` of the `default` case leaves the `switch` and not the loop. At an entry of a type that
the kernel does not know the loop stays where it is: it ends exactly when the table is a sequence
of entries of the types it knows.
-/

namespace Xv6.Mp
open Lib

abbrev Mem := UInt32 → UInt8

def P2V (a : UInt32) : UInt32 := a + 0x80000000

def word16 (m : Mem) (a : UInt32) : UInt32 := (m a).toUInt32 + 256 * (m (a + 1)).toUInt32

def word32 (m : Mem) (a : UInt32) : UInt32 := word16 m a + 65536 * word16 m (a + 2)

def same (m : Mem) : UInt32 → List UInt8 → Bool
  | _, [] => true
  | p, c :: cs => m p = c && same m (p + 1) cs

def sum (m : Mem) : UInt32 → ℕ → UInt8
  | _, 0 => 0
  | addr, len + 1 => m addr + sum m (addr + 1) len

section Search

def mpSize : ℕ := 16

def confSize : UInt32 := 44

variable (m : Mem)

def searchLoop (e : UInt32) : ℕ → UInt32 → Option UInt32
  | 0, _ => none
  | fuel + 1, p =>
    if p < e then
      if same m p [95, 77, 80, 95] ∧ sum m p mpSize = 0 then some p
      else searchLoop e fuel (p + 16)
    else none

/-- The areas that are searched do not wrap around. -/
def mpsearch1 (a len : UInt32) : Option UInt32 :=
  searchLoop m (P2V a + len) (len.toNat / mpSize) (P2V a)

def mpsearch : Option UInt32 :=
  let bda := P2V 0x400
  let p := ((m (bda + 0x0F)).toUInt32 <<< 8 ||| (m (bda + 0x0E)).toUInt32) <<< 4
  let first :=
    if p ≠ 0 then mpsearch1 m p 1024
    else
      let p := ((m (bda + 0x14)).toUInt32 <<< 8 ||| (m (bda + 0x13)).toUInt32) * 1024
      mpsearch1 m (p - 1024) 1024
  first.or (mpsearch1 m 0xF0000 0x10000)

def mpconfig : Option (UInt32 × UInt32) :=
  match mpsearch m with
  | none => none
  | some mp =>
    if word32 m (mp + 4) = 0 then none
    else
      let conf := P2V (word32 m (mp + 4))
      if same m conf [80, 67, 77, 80] = false then none
      else if m (conf + 6) ≠ 1 ∧ m (conf + 6) ≠ 4 then none
      else if sum m conf (word16 m (conf + 4)).toNat ≠ 0 then none
      else some (mp, conf)

end Search

section Scan

def MPPROC : UInt8 := 0x00
def MPBUS : UInt8 := 0x01
def MPIOAPIC : UInt8 := 0x02
def MPIOINTR : UInt8 := 0x03
def MPLINTR : UInt8 := 0x04

/-- The global variables that the loop fills: `apicid k` is that of `cpus[k]`. -/
structure Found where
  ncpu : ℕ
  apicid : ℕ → UInt8
  ioapicid : UInt8

structure Scan where
  p : UInt32
  ismp : Bool
  found : Found

variable (m : Mem)

def visit (s : Scan) : Scan :=
  if m s.p = MPPROC then
    { s with
      p := s.p + 20
      found :=
        if s.found.ncpu < NCPU then
          { s.found with
            apicid := Function.update s.found.apicid s.found.ncpu (m (s.p + 1))
            ncpu := s.found.ncpu + 1 }
        else s.found }
  else if m s.p = MPIOAPIC then
    { s with p := s.p + 8, found := { s.found with ioapicid := m (s.p + 1) } }
  else if m s.p = MPBUS ∨ m s.p = MPIOINTR ∨ m s.p = MPLINTR then { s with p := s.p + 8 }
  -- `break` ends the `switch`
  else { s with ismp := false }

def scan (e : UInt32) : ℕ → Scan → Option Scan
  | 0, _ => none
  | fuel + 1, s => if s.p < e then scan e fuel (visit m s) else some s

def firstEntry (conf : UInt32) : UInt32 := conf + confSize

def tableEnd (conf : UInt32) : UInt32 := conf + word16 m (conf + 4)

/-- What `mpinit` leaves: the address of the local APIC, the state of the loop and the bytes sent
to ports. -/
structure Smp where
  lapic : UInt32
  scan : Scan
  outs : List (UInt16 × UInt8)

/-- `hang` when the loop has not ended with the fuel. -/
def mpinit (inb : UInt16 → UInt8) (fuel : ℕ) : Outcome Smp :=
  match mpconfig m with
  | none => .panic "Expect to run on an SMP"
  | some (mp, conf) =>
    match scan m (tableEnd m conf) fuel ⟨firstEntry conf, true, ⟨0, fun _ => 0, 0⟩⟩ with
    | none => .hang
    | some s =>
      if s.ismp = false then .panic "Didn't find a suitable machine"
      else .ret ⟨word32 m (conf + 36), s,
        if m (mp + 12) ≠ 0 then [(0x22, 0x70), (0x23, inb 0x23 ||| 1)] else []⟩

end Scan

section Entries

inductive Entry
  | proc (apicid : UInt8)
  | ioapic (apicno : UInt8)
  | other
  deriving DecidableEq

def Entry.size : Entry → UInt32
  | .proc _ => 20
  | .ioapic _ => 8
  | .other => 8

def Found.record (f : Found) : Entry → Found
  | .proc id =>
    if f.ncpu < NCPU then
      { f with apicid := Function.update f.apicid f.ncpu id, ncpu := f.ncpu + 1 }
    else f
  | .ioapic no => { f with ioapicid := no }
  | .other => f

variable (m : Mem)

def entryAt (p : UInt32) : Option Entry :=
  if m p = MPPROC then some (.proc (m (p + 1)))
  else if m p = MPIOAPIC then some (.ioapic (m (p + 1)))
  else if m p = MPBUS ∨ m p = MPIOINTR ∨ m p = MPLINTR then some .other
  else none

/-- From an address on, the memory up to `e` is a sequence of entries of known types. The last one
may reach beyond `e`. -/
inductive Entries (e : UInt32) : UInt32 → List Entry → Prop
  | nil {p : UInt32} (h : ¬p < e) : Entries e p []
  | cons {p : UInt32} {x : Entry} {xs : List Entry} (h : p < e) (hx : entryAt m p = some x)
      (hxs : Entries e (p + x.size) xs) : Entries e p (x :: xs)

variable {m} {e : UInt32} {s s' : Scan} {x : Entry} {xs : List Entry} {fuel : ℕ}

theorem visit_entry (h : entryAt m s.p = some x) :
    visit m s = { s with p := s.p + x.size, found := s.found.record x } := by
  unfold entryAt at h
  unfold visit
  by_cases hproc : m s.p = MPPROC
  · rw [if_pos hproc] at h ⊢
    obtain rfl := Option.some.inj h
    rfl
  rw [if_neg hproc] at h ⊢
  by_cases hio : m s.p = MPIOAPIC
  · rw [if_pos hio] at h ⊢
    obtain rfl := Option.some.inj h
    rfl
  rw [if_neg hio] at h ⊢
  by_cases hother : m s.p = MPBUS ∨ m s.p = MPIOINTR ∨ m s.p = MPLINTR
  · rw [if_pos hother] at h ⊢
    obtain rfl := Option.some.inj h
    rfl
  · rw [if_neg hother] at h
    cases h

theorem visit_unknown (h : entryAt m s.p = none) : visit m s = { s with ismp := false } := by
  unfold entryAt at h
  unfold visit
  split_ifs at h ⊢
  rfl

theorem scan_entries (h : Entries m e s.p xs) : ∃ q, ¬q < e ∧
    scan m e (xs.length + 1) s =
      some { s with p := q, found := xs.foldl Found.record s.found } := by
  induction xs generalizing s with
  | nil =>
    cases h with
    | nil h => exact ⟨s.p, h, if_neg h⟩
  | cons x xs ih =>
    cases h with
    | cons h hx hxs =>
      obtain ⟨q, hq, hrun⟩ := ih (s := visit m s) (by rw [visit_entry hx]; exact hxs)
      refine ⟨q, hq, ?_⟩
      rw [List.length_cons, scan, if_pos h, hrun, visit_entry hx]
      rfl

theorem entries_of_scan (h : scan m e fuel s = some s') : ∃ xs, Entries m e s.p xs := by
  induction fuel generalizing s with
  | zero => cases h
  | succ fuel ih =>
    rw [scan] at h
    by_cases hlt : s.p < e
    · rw [if_pos hlt] at h
      obtain ⟨xs, hxs⟩ := ih h
      cases hx : entryAt m s.p with
      | none =>
        -- the position has not changed
        rw [visit_unknown hx] at hxs
        exact ⟨xs, hxs⟩
      | some x =>
        rw [visit_entry hx] at hxs
        exact ⟨x :: xs, .cons hlt hx hxs⟩
    · exact ⟨[], .nil hlt⟩

theorem record_ncpu_le {f : Found} (h : f.ncpu ≤ NCPU) (x : Entry) : (f.record x).ncpu ≤ NCPU := by
  cases x with
  | proc id =>
    unfold Found.record
    split_ifs with hlt
    · exact hlt
    · exact h
  | ioapic no => exact h
  | other => exact h

theorem foldl_ncpu_le {f : Found} (h : f.ncpu ≤ NCPU) :
    (xs.foldl Found.record f).ncpu ≤ NCPU := by
  induction xs generalizing f with
  | nil => exact h
  | cons x xs ih => exact ih (record_ncpu_le h x)

end Entries

section Known

variable (m : Mem) (e : UInt32)

inductive Reached (p : UInt32) : UInt32 → Prop
  | start : Reached p p
  | next {q : UInt32} {x : Entry} (h : Reached p q) (hlt : q < e) (hx : entryAt m q = some x) :
      Reached p (q + x.size)

variable {m e} {p q : UInt32} {x : Entry} {xs : List Entry}

theorem Reached.head (hlt : p < e) (hx : entryAt m p = some x)
    (h : Reached m e (p + x.size) q) : Reached m e p q := by
  induction h with
  | start => exact .next .start hlt hx
  | next _ hlt hx ih => exact .next ih hlt hx

theorem Entries.known (h : Entries m e p xs) (hq : Reached m e p q) : ∃ ys, Entries m e q ys := by
  induction hq with
  | start => exact ⟨xs, h⟩
  | next _ hlt hx ih =>
    obtain ⟨ys, hys⟩ := ih
    cases hys with
    | nil hge => exact absurd hlt hge
    | cons _ hx' hys =>
      obtain rfl := Option.some.inj (hx.symm.trans hx')
      exact ⟨_, hys⟩

theorem Entry.size_toNat (x : Entry) : 0 < x.size.toNat ∧ x.size.toNat ≤ 20 := by
  cases x with
  | proc id => exact (by decide : 0 < (20 : UInt32).toNat ∧ (20 : UInt32).toNat ≤ 20)
  | ioapic no => exact (by decide : 0 < (8 : UInt32).toNat ∧ (8 : UInt32).toNat ≤ 20)
  | other => decide

theorem entries_iff_known (hwrap : e.toNat + 20 ≤ 2 ^ 32) :
    (∃ xs, Entries m e p xs) ↔ ∀ q, Reached m e p q → q < e → entryAt m q ≠ none := by
  constructor
  · rintro ⟨xs, h⟩ q hq hlt hnone
    obtain ⟨ys, hys⟩ := h.known hq
    cases hys with
    | nil hge => exact hge hlt
    | cons _ hx _ =>
      rw [hnone] at hx
      cases hx
  · intro h
    -- by induction on the bytes that are left
    induction hn : e.toNat - p.toNat using Nat.strong_induction_on generalizing p with
    | _ n ih =>
      by_cases hlt : p < e
      · obtain ⟨x, hx⟩ := Option.ne_none_iff_exists'.1 (h p .start hlt)
        have hsize := x.size_toNat
        have hp : p.toNat < e.toNat := UInt32.lt_iff_toNat_lt.1 hlt
        have hadd : (p + x.size).toNat = p.toNat + x.size.toNat := by
          rw [UInt32.toNat_add, Nat.mod_eq_of_lt (by omega)]
        obtain ⟨xs, hxs⟩ := ih (e.toNat - (p + x.size).toNat) (by omega)
          (fun q hq => h q (hq.head hlt hx)) rfl
        exact ⟨x :: xs, .cons hlt hx hxs⟩
      · exact ⟨[], .nil hlt⟩

end Known

section Boot

variable {m : Mem} {mp conf : UInt32} {inb : UInt16 → UInt8}

/-- The loop of `mpinit` ends: it is at the end of the table and has counted at most `NCPU`
processors, or the kernel panics because of what it has met. -/
def Ends (m : Mem) (inb : UInt16 → UInt8) (conf : UInt32) : Prop :=
  ∃ fuel, (∃ r, mpinit m inb fuel = .ret r ∧ ¬r.scan.p < tableEnd m conf ∧
      r.scan.found.ncpu ≤ NCPU) ∨
    mpinit m inb fuel = .panic "Didn't find a suitable machine"

theorem mpinit_of_scan {fuel : ℕ} (h : mpconfig m = some (mp, conf)) :
    mpinit m inb fuel =
      match scan m (tableEnd m conf) fuel ⟨firstEntry conf, true, ⟨0, fun _ => 0, 0⟩⟩ with
      | none => .hang
      | some s =>
        if s.ismp = false then .panic "Didn't find a suitable machine"
        else .ret ⟨word32 m (conf + 36), s,
          if m (mp + 12) ≠ 0 then [(0x22, 0x70), (0x23, inb 0x23 ||| 1)] else []⟩ := by
  unfold mpinit
  rw [h]

theorem mpinit_hangs (h : mpconfig m = some (mp, conf))
    (hno : ¬∃ xs, Entries m (tableEnd m conf) (firstEntry conf) xs) (fuel : ℕ) :
    mpinit m inb fuel = .hang := by
  rw [mpinit_of_scan h]
  generalize hs : scan m (tableEnd m conf) fuel ⟨firstEntry conf, true, ⟨0, fun _ => 0, 0⟩⟩ = o
  cases o with
  | none => rfl
  | some s => exact absurd (entries_of_scan hs) hno

/-- The loop ends exactly when the table is a sequence of entries of known types. -/
theorem mpinit_ends_iff (h : mpconfig m = some (mp, conf)) :
    Ends m inb conf ↔ ∃ xs, Entries m (tableEnd m conf) (firstEntry conf) xs := by
  constructor
  · rintro ⟨fuel, hend⟩
    by_contra hno
    rw [mpinit_hangs h hno] at hend
    rcases hend with ⟨r, hr, -⟩ | hpanic
    · cases hr
    · cases hpanic
  · rintro ⟨xs, hxs⟩
    obtain ⟨q, hq, hrun⟩ := scan_entries
      (s := ⟨firstEntry conf, true, ⟨0, fun _ => 0, 0⟩⟩) hxs
    have hcount : (xs.foldl Found.record ⟨0, fun _ => 0, 0⟩).ncpu ≤ NCPU :=
      foldl_ncpu_le (Nat.zero_le NCPU)
    obtain ⟨r, hret, hscan⟩ : ∃ r, mpinit m inb (xs.length + 1) = .ret r ∧
        r.scan = ⟨q, true, xs.foldl Found.record ⟨0, fun _ => 0, 0⟩⟩ := by
      rw [mpinit_of_scan h, hrun]
      exact ⟨_, rfl, rfl⟩
    refine ⟨xs.length + 1, .inl ⟨r, hret, ?_, ?_⟩⟩
    · rw [hscan]
      exact hq
    · rw [hscan]
      exact hcount

/-- The floating pointer at `0x9FC00`, where the BIOS data area points to, and a table behind it. -/
def firmware (table : List UInt8) : Mem := fun a =>
  if a = P2V 0x40E then 0xC0
  else if a = P2V 0x40F then 0x9F
  else ([95, 77, 80, 95, 0x10, 0xFC, 0x09, 0x00, 1, 4, 139, 0, 0, 0, 0, 0] ++ table).getD
    (a - P2V 0x9FC00).toNat 0

def header (len checksum : UInt8) : List UInt8 :=
  [80, 67, 77, 80, len, 0, 4, checksum] ++ List.replicate 26 0 ++
    [1, 0, 0x00, 0x00, 0xE0, 0xFE, 0, 0, 0, 0]

/-- A table of one processor. -/
theorem mpinit_ends_one : ∃ m mp conf, mpconfig m = some (mp, conf) ∧ Ends m (fun _ => 0) conf := by
  let m := firmware (header 64 150 ++ [0, 0, 0x14, 3] ++ List.replicate 16 0)
  have hconf : mpconfig m = some (0x8009FC00, 0x8009FC10) := by decide +kernel
  have hentry : Entries m (tableEnd m 0x8009FC10) (firstEntry 0x8009FC10) [.proc 0] :=
    .cons (by decide +kernel) (by decide +kernel) (.nil (by decide +kernel))
  exact ⟨m, _, _, hconf, (mpinit_ends_iff hconf).2 ⟨_, hentry⟩⟩

/-- The only entry is of type 5. -/
theorem mpinit_loops : ∃ m mp conf, mpconfig m = some (mp, conf) ∧
    ∀ inb fuel, mpinit m inb fuel = .hang := by
  let m := firmware (header 45 187 ++ [5])
  have hconf : mpconfig m = some (0x8009FC00, 0x8009FC10) := by decide +kernel
  have hlt : firstEntry 0x8009FC10 < tableEnd m 0x8009FC10 := by decide +kernel
  have hnone : entryAt m (firstEntry 0x8009FC10) = none := by decide +kernel
  refine ⟨m, _, _, hconf, fun inb fuel => mpinit_hangs hconf ?_ fuel⟩
  rintro ⟨xs, hxs⟩
  cases hxs with
  | nil hge => exact hge hlt
  | cons _ hx _ =>
    rw [hnone] at hx
    cases hx

end Boot

end Xv6.Mp
