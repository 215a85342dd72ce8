import Mathlib.Algebra.BigOperators.Fin
import Mathlib.Data.List.TakeWhile
import Xv6.Fs.Cache

/-!
# Path resolution

`skipelem` cuts a path at its slashes. `namei` is the fold of directory lookup over the
elements, and `nameiparent` the fold over all but the last one: one process walks along the
path while no other runs, and every way out gives back the references and locks of the way.

The walk holds the inode it is at while it gets the next one, so the inode cache must have
two slots to spare.
-/

namespace Xv6.Fs
open Lib

section Elements

def components (path : List UInt8) : List (List UInt8) :=
  (path.splitOn slash).filter (· ≠ [])

theorem components_slash (path : List UInt8) :
    components (slash :: path) = components path := by
  have h : (slash :: path).splitOnP (· == slash) = [[]] ++ path.splitOnP (· == slash) :=
    List.splitOnP_append_cons [] path (by decide)
  simp only [components, List.splitOn, h, List.filter_append]
  rfl

theorem components_dropWhile (path : List UInt8) :
    components (path.dropWhile (· = slash)) = components path := by
  induction path with
  | nil => rfl
  | cons b path ih =>
    by_cases hb : b = slash
    · rw [List.dropWhile_cons_of_pos (by simpa using hb), ih, hb, components_slash]
    · rw [List.dropWhile_cons_of_neg (by simpa using hb)]

theorem components_append {w rest : List UInt8} (hw : w ≠ []) (hs : ∀ b ∈ w, b ≠ slash)
    (hrest : rest = [] ∨ rest.head? = some slash) :
    components (w ++ rest) = w :: components rest := by
  have hno : ∀ b ∈ w, (b == slash) = false := fun b hb => beq_eq_false_iff_ne.mpr (hs b hb)
  rcases rest with _ | ⟨b, rest⟩
  · simp [components, List.splitOn, List.splitOnP_eq_singleton hno, hw]
  · have hb : b = slash := by simpa using hrest
    subst hb
    rw [components_slash]
    simp [components, List.splitOn,
      List.splitOnP_append_cons_of_forall_mem hno slash (by decide), hw]

structure Skipped (path : List UInt8) (name : Name) (rest : List UInt8) : Prop where
  cut : ∃ w, name = w.take DIRSIZ ∧ components path = w :: components rest
  shorter : rest.length < path.length
  bare : ∀ b ∈ rest.head?, b ≠ slash

theorem head_dropWhile_slash (path : List UInt8) :
    ∀ b ∈ (path.dropWhile (· = slash)).head?, b ≠ slash := by
  intro b hb
  have h := List.head?_dropWhile_not (· = slash) path
  rw [hb] at h
  simpa using h

theorem skipelem_none {path : List UInt8} (h : skipelem path = none) : components path = [] := by
  simp only [skipelem] at h
  split_ifs at h with hnil
  rw [← components_dropWhile, hnil]
  rfl

theorem skipelem_some {path rest : List UInt8} {name : Name}
    (h : skipelem path = some (name, rest)) : Skipped path name rest := by
  simp only [skipelem] at h
  split_ifs at h with hnil
  obtain ⟨rfl, rfl⟩ := Prod.mk.inj (Option.some.inj h)
  have hlen := List.length_dropWhile_le (· = slash) path
  have hhead := head_dropWhile_slash path
  have hparts := components_dropWhile path
  generalize path.dropWhile (· = slash) = q at hnil hlen hhead hparts ⊢
  have hsplit := List.takeWhile_append_dropWhile (p := (· ≠ slash)) (l := q)
  have hend := List.head?_dropWhile_not (· ≠ slash) q
  have hbytes : ∀ b ∈ q.takeWhile (· ≠ slash), b ≠ slash := fun b hb => by
    simpa using List.mem_takeWhile_imp hb
  have hw : q.takeWhile (· ≠ slash) ≠ [] := by
    rcases q with _ | ⟨b, q⟩
    · exact absurd rfl hnil
    · simp [hhead b rfl]
  generalize q.takeWhile (· ≠ slash) = w, q.dropWhile (· ≠ slash) = r at *
  subst hsplit
  rw [List.drop_left]
  have hsum : (w ++ r).length = w.length + r.length := List.length_append
  have hpos := List.length_pos_iff.mpr hw
  have hle := List.length_dropWhile_le (· = slash) r
  refine ⟨⟨w, rfl, ?_⟩, by omega, head_dropWhile_slash r⟩
  rw [← hparts, components_dropWhile, components_append hw hbytes]
  rcases r with _ | ⟨b, r⟩
  · exact Or.inl rfl
  · exact Or.inr (by simpa using hend)

theorem elemsFrom_eq {fuel : ℕ} {path : List UInt8} (hf : path.length ≤ fuel) :
    elemsFrom fuel path = (components path).map (List.take DIRSIZ) := by
  induction fuel generalizing path with
  | zero =>
    obtain rfl : path = [] := List.length_eq_zero_iff.mp (by omega)
    rfl
  | succ fuel ih =>
    simp only [elemsFrom]
    split
    · rename_i name rest h
      have hs := skipelem_some h
      obtain ⟨w, rfl, hw⟩ := hs.cut
      rw [hw, ih (by have := hs.shorter; omega)]
      rfl
    · rename_i h
      rw [skipelem_none h]
      rfl

theorem elems_eq (path : List UInt8) :
    elems path = (components (path.takeWhile (· ≠ 0))).map (List.take DIRSIZ) :=
  elemsFrom_eq (List.takeWhile_prefix _).length_le

end Elements

section Lookup

variable {P : Type}

def entry (m : Bytes) (i : ℕ) : Dirent := dirent m (i * DIRENT)

theorem scan_eq (q : Dirent → Bool) (message : String) (m : Bytes) {i k fuel : ℕ}
    (hf : k ≤ i + fuel) :
    scan q message m (k * DIRENT) fuel (i * DIRENT) =
      .ret (((List.range' i (k - i)).find? fun j => q (entry m j)).map (· * DIRENT)) := by
  induction fuel generalizing i with
  | zero =>
    rw [Nat.sub_eq_zero_of_le (by omega)]
    rfl
  | succ fuel ih =>
    by_cases hi : i < k
    · have hroom : ¬ k * DIRENT < i * DIRENT + DIRENT := by
        simp only [DIRENT]
        omega
      have hrange : List.range' i (k - i) = i :: List.range' (i + 1) (k - (i + 1)) := by
        rw [show k - i = k - (i + 1) + 1 by omega]
        rfl
      rw [scan, if_pos (Nat.mul_lt_mul_of_pos_right hi (by decide)), if_neg hroom, hrange,
        List.find?_cons, ← Nat.succ_mul, ih (by omega)]
      cases hq : q (entry m i) with
      | true =>
        rw [if_pos (by exact hq)]
        rfl
      | false => rw [if_neg (by rw [show dirent m (i * DIRENT) = entry m i from rfl, hq]; simp)]
    · have hno : ¬ i * DIRENT < k * DIRENT := by
        simp only [DIRENT]
        omega
      rw [scan, if_neg hno, Nat.sub_eq_zero_of_le (by omega)]
      rfl

def lookup (s : State P) (d : ℕ) (name : Name) : Option ℕ :=
  if (s.disk d).type = .dir then
    (((List.range ((s.disk d).size / DIRENT)).map (entry (s.data d))).find?
      fun de => de.inum ≠ 0 ∧ de.name = name).map (·.inum)
  else none

def resolve (s : State P) (start : ℕ) (names : List Name) : Option ℕ :=
  names.foldlM (lookup s) start

def resolveParent (s : State P) (start : ℕ) (names : List Name) : Option (ℕ × Name) :=
  (resolve s start names.dropLast).bind fun d =>
    if (s.disk d).type = .dir then names.getLast?.map (d, ·) else none

/-- Directories consist of whole entries, which name inodes that are in use. -/
structure Formatted (s : State P) : Prop where
  root : (s.disk ROOTINO).type ≠ .free ∧ (s.disk ROOTINO).nlink ≠ 0
  whole : ∀ d, (s.disk d).type = .dir → DIRENT ∣ (s.disk d).size
  entries : ∀ d, (s.disk d).type = .dir → ∀ i < (s.disk d).size / DIRENT,
    (entry (s.data d) i).inum ≠ 0 →
      (s.disk (entry (s.data d) i).inum).type ≠ .free ∧
        (s.disk (entry (s.data d) i).inum).nlink ≠ 0

theorem Formatted.lookup {s : State P} (h : Formatted s) {d n : ℕ} {name : Name}
    (hl : lookup s d name = some n) : (s.disk n).type ≠ .free ∧ (s.disk n).nlink ≠ 0 := by
  unfold Fs.lookup at hl
  split_ifs at hl with hd
  obtain ⟨de, hfind, rfl⟩ := Option.map_eq_some_iff.mp hl
  obtain ⟨i, hi, rfl⟩ := List.mem_map.mp (List.mem_of_find?_eq_some hfind)
  have hgood := List.find?_some hfind
  exact h.entries d hd i (List.mem_range.mp hi) (of_decide_eq_true hgood).1

theorem dirlookup_eq {s : State P} {dp : Slot} (name : Name)
    (hcopy : (s.inode dp).copy = s.disk (s.inode dp).inum)
    (hd : (s.disk (s.inode dp).inum).type = .dir)
    (hw : DIRENT ∣ (s.disk (s.inode dp).inum).size) :
    match lookup s (s.inode dp).inum name with
    | none => s.dirlookup dp name = .ret (none, s)
    | some n => ∃ off, s.dirlookup dp name =
        (s.iget n).bind fun r => .ret (some (r.1, off), r.2) := by
  obtain ⟨k, hk⟩ := hw
  have hsize : (s.disk (s.inode dp).inum).size = k * DIRENT := by rw [hk, Nat.mul_comm]
  have hfuel : k ≤ 0 + k * DIRENT := by
    simp only [DIRENT]
    omega
  have hscan := scan_eq (fun de => de.inum ≠ 0 ∧ de.name = name) "dirlookup read"
    (s.data (s.inode dp).inum) hfuel
  rw [Nat.zero_mul, Nat.sub_zero, ← List.range_eq_range'] at hscan
  simp only [lookup, if_pos hd, State.dirlookup, hcopy, hsize, hscan, List.find?_map,
    Nat.mul_div_cancel k (show 0 < DIRENT by decide), if_neg (not_not_intro hd),
    Outcome.ret_bind, Function.comp_def]
  cases (List.range k).find? fun i => decide ((entry (s.data (s.inode dp).inum) i).inum ≠ 0 ∧
      (entry (s.data (s.inode dp).inum) i).name = name) with
  | none => rfl
  | some i => exact ⟨i * DIRENT, rfl⟩

end Lookup

section Walk

variable {P : Type}

namespace State

def refsTo (s : State P) (n : ℕ) : ℕ :=
  ∑ i, if (s.inode i).inum = n then (s.inode i).ref else 0

def freeSlots (s : State P) : ℕ := (Finset.univ.filter fun i => (s.inode i).ref = 0).card

theorem refsTo_setInode (s : State P) (ip : Slot) (f : Inode P → Inode P) (n : ℕ) :
    (s.setInode ip f).refsTo n + (if (s.inode ip).inum = n then (s.inode ip).ref else 0) =
      s.refsTo n + if (f (s.inode ip)).inum = n then (f (s.inode ip)).ref else 0 := by
  have hold := Finset.add_sum_erase Finset.univ
    (fun i => if (s.inode i).inum = n then (s.inode i).ref else 0) (Finset.mem_univ ip)
  have hnew := Finset.add_sum_erase Finset.univ
    (fun i => if ((s.setInode ip f).inode i).inum = n then ((s.setInode ip f).inode i).ref else 0)
    (Finset.mem_univ ip)
  have hrest : ∑ i ∈ Finset.univ.erase ip, (if ((s.setInode ip f).inode i).inum = n then
      ((s.setInode ip f).inode i).ref else 0) =
      ∑ i ∈ Finset.univ.erase ip, if (s.inode i).inum = n then (s.inode i).ref else 0 := by
    refine Finset.sum_congr rfl fun i hi => ?_
    rw [setInode_ne s f (Finset.ne_of_mem_erase hi)]
  simp only [setInode_self] at hnew
  rw [hrest] at hnew
  unfold refsTo
  omega

end State

/-- The inode cache agrees with the disk. -/
structure Consistent (s : State P) : Prop where
  unique : ∀ i j, 0 < (s.inode i).ref → 0 < (s.inode j).ref →
    (s.inode i).inum = (s.inode j).inum → i = j
  cached : ∀ i, 0 < (s.inode i).ref → (s.inode i).valid = true →
    (s.inode i).copy = s.disk (s.inode i).inum
  used : ∀ i, 0 < (s.inode i).ref → (s.disk (s.inode i).inum).type ≠ .free

/-- A file system at rest: no inode is locked. -/
structure Tidy (s : State P) : Prop extends Formatted s, Consistent s where
  unlocked : ∀ i, (s.inode i).lock = none

variable {s s₀ : State P} {p : P} {ip : Slot} {held : List ℕ} {locked : Option Slot}

theorem Consistent.refsTo_eq (h : Consistent s) (hr : 0 < (s.inode ip).ref) :
    s.refsTo (s.inode ip).inum = (s.inode ip).ref := by
  unfold State.refsTo
  rw [Finset.sum_eq_single_of_mem ip (Finset.mem_univ ip), if_pos rfl]
  intro j _ hj
  split_ifs with hn
  · by_contra h0
    exact hj (h.unique j ip (Nat.pos_of_ne_zero h0) hr hn)
  · rfl

/-- From `s₀` process `p` has come to `s`, where it has references to the inodes `held` and
the lock of `locked`. Only the inode cache has changed. -/
structure Walk (s₀ : State P) (p : P) (held : List ℕ) (locked : Option Slot) (s : State P) :
    Prop extends Consistent s where
  frame : s = { s₀ with inode := s.inode }
  locks : ∀ i, (s.inode i).lock = if locked = some i then some p else none
  refs : ∀ n, s.refsTo n = s₀.refsTo n + held.count n

namespace Walk

theorem start (h : Tidy s) : Walk s p [] none s :=
  ⟨h.toConsistent, rfl, fun i => by rw [h.unlocked i, if_neg nofun], fun n => by simp⟩

theorem disk (h : Walk s₀ p held locked s) : s.disk = s₀.disk := by rw [h.frame]

theorem data (h : Walk s₀ p held locked s) : s.data = s₀.data := by rw [h.frame]

theorem lookup (h : Walk s₀ p held locked s) : lookup s = lookup s₀ := by
  funext d name
  unfold Fs.lookup
  rw [h.disk, h.data]

theorem slot (h : Walk s₀ p held locked s) {held' : List ℕ} {locked' : Option Slot}
    (f : Inode P → Inode P)
    (hunique : 0 < (f (s.inode ip)).ref → ∀ j ≠ ip, 0 < (s.inode j).ref →
      (s.inode j).inum ≠ (f (s.inode ip)).inum)
    (hcached : 0 < (f (s.inode ip)).ref → (f (s.inode ip)).valid = true →
      (f (s.inode ip)).copy = s.disk (f (s.inode ip)).inum)
    (hused : 0 < (f (s.inode ip)).ref → (s.disk (f (s.inode ip)).inum).type ≠ .free)
    (hlock : (f (s.inode ip)).lock = if locked' = some ip then some p else none)
    (hothers : ∀ j ≠ ip, (locked' = some j ↔ locked = some j))
    (hrefs : ∀ n, held'.count n + (if (s.inode ip).inum = n then (s.inode ip).ref else 0) =
      held.count n + if (f (s.inode ip)).inum = n then (f (s.inode ip)).ref else 0) :
    Walk s₀ p held' locked' (s.setInode ip f) where
  unique i j hi hj hij := by
    by_cases h1 : i = ip <;> by_cases h2 : j = ip
    · rw [h1, h2]
    · subst h1
      rw [State.setInode_self] at hi hij
      rw [State.setInode_ne s f h2] at hj hij
      exact absurd hij.symm (hunique hi j h2 hj)
    · subst h2
      rw [State.setInode_self] at hj hij
      rw [State.setInode_ne s f h1] at hi hij
      exact absurd hij (hunique hj i h1 hi)
    · rw [State.setInode_ne s f h1] at hi hij
      rw [State.setInode_ne s f h2] at hj hij
      exact h.unique i j hi hj hij
  cached i hi hv := by
    by_cases h1 : i = ip
    · subst h1
      rw [State.setInode_self] at hi hv ⊢
      exact hcached hi hv
    · rw [State.setInode_ne s f h1] at hi hv ⊢
      exact h.cached i hi hv
  used i hi := by
    by_cases h1 : i = ip
    · subst h1
      rw [State.setInode_self] at hi ⊢
      exact hused hi
    · rw [State.setInode_ne s f h1] at hi ⊢
      exact h.used i hi
  frame := by
    have hf := h.frame
    generalize s.inode = g at hf ⊢
    rw [hf]
    rfl
  locks i := by
    by_cases h1 : i = ip
    · subst h1
      rw [State.setInode_self, hlock]
    · rw [State.setInode_ne s f h1, h.locks i]
      simp only [hothers i h1]
  refs n := by
    have h1 := s.refsTo_setInode ip f n
    have h2 := hrefs n
    have h3 := h.refs n
    omega

theorem addRef (h : Walk s₀ p held locked s) (hr : 0 < (s.inode ip).ref) :
    Walk s₀ p ((s.inode ip).inum :: held) locked
      (s.setInode ip fun x => { x with ref := x.ref + 1 }) := by
  refine h.slot _ (fun _ j hj hj0 hij => hj (h.unique j ip hj0 hr hij))
    (fun _ hv => h.cached ip hr hv) (fun _ => h.used ip hr) (h.locks ip) (fun _ _ => Iff.rfl) ?_
  intro n
  rw [List.count_cons]
  simp only [beq_iff_eq]
  split_ifs <;> omega

theorem iget (h : Walk s₀ p held locked s) {n : ℕ} (hn : (s₀.disk n).type ≠ .free)
    (hfree : ∃ i, (s.inode i).ref = 0) :
    ∃ jp t, s.iget n = .ret (jp, t) ∧ Walk s₀ p (n :: held) locked t ∧
      (t.inode jp).inum = n ∧ 0 < (t.inode jp).ref ∧
      ∀ i, 0 < (s.inode i).ref → 0 < (t.inode i).ref ∧ (t.inode i).inum = (s.inode i).inum := by
  obtain ⟨jp, t, ht⟩ : ∃ jp t, s.iget n = .ret (jp, t) := by
    unfold State.iget
    split
    · exact ⟨_, _, rfl⟩
    · split
      · exact ⟨_, _, rfl⟩
      · rename_i hnone
        obtain ⟨i, hi⟩ := hfree
        exact absurd (decide_eq_true hi) (first_none hnone i)
  refine ⟨jp, t, ht, ?_⟩
  rcases iget_cases ht with ⟨hr, rfl, rfl⟩ | ⟨hr, hno, rfl⟩
  · rw [State.setInode_self]
    refine ⟨h.addRef hr, rfl, Nat.succ_pos _, fun i hi => ?_⟩
    by_cases hij : i = jp
    · subst hij
      rw [State.setInode_self]
      exact ⟨Nat.succ_pos _, rfl⟩
    · rw [State.setInode_ne s _ hij]
      exact ⟨hi, rfl⟩
  · rw [State.setInode_self]
    refine ⟨h.slot _ (fun _ j _ hj0 hij => hno j hj0 hij) (fun _ hv => absurd hv nofun)
      (fun _ => by rw [h.disk]; exact hn) (h.locks jp) (fun _ _ => Iff.rfl) fun m => ?_, rfl,
      Nat.one_pos, fun i hi => ?_⟩
    · rw [List.count_cons, hr]
      simp only [beq_iff_eq]
      split_ifs <;> omega
    · rw [State.setInode_ne s _ (by rintro rfl; omega)]
      exact ⟨hi, rfl⟩

theorem exists_free (h : Walk s₀ p held locked s) (hh : held.length < 2)
    (hfree : 2 ≤ s₀.freeSlots) : ∃ i, (s.inode i).ref = 0 := by
  by_contra hno
  push Not at hno
  have hpos : ∀ i, 0 < (s.inode i).ref := fun i => Nat.pos_of_ne_zero (hno i)
  let used := Finset.univ.filter fun i => (s₀.inode i).ref ≠ 0
  -- every inode in the cache was there before or is held
  have hsub : Finset.univ.image (fun i => (s.inode i).inum) ⊆
      used.image (fun i => (s₀.inode i).inum) ∪ held.toFinset := by
    intro n hn
    obtain ⟨i, -, rfl⟩ := Finset.mem_image.mp hn
    by_cases hmem : (s.inode i).inum ∈ held
    · exact Finset.mem_union_right _ (List.mem_toFinset.mpr hmem)
    · have hrefs := h.refs (s.inode i).inum
      rw [h.toConsistent.refsTo_eq (hpos i), List.count_eq_zero.mpr hmem] at hrefs
      have hne : s₀.refsTo (s.inode i).inum ≠ 0 := by
        have := hpos i
        omega
      obtain ⟨j, -, hj⟩ := Finset.exists_ne_zero_of_sum_ne_zero hne
      refine Finset.mem_union_left _ (Finset.mem_image.mpr ⟨j, ?_, ?_⟩)
      · exact Finset.mem_filter.mpr ⟨Finset.mem_univ j, fun h0 => hj (by rw [h0, ite_self])⟩
      · by_contra hjn
        exact hj (if_neg hjn)
  have hcard := Finset.card_le_card hsub
  rw [Finset.card_image_of_injective _ fun i j hij => h.unique i j (hpos i) (hpos j) hij,
    Finset.card_univ, Fintype.card_fin] at hcard
  have hunion := Finset.card_union_le (used.image fun i => (s₀.inode i).inum) held.toFinset
  have himage : (used.image fun i => (s₀.inode i).inum).card ≤ used.card := Finset.card_image_le
  have hlist := held.toFinset_card_le
  have hsplit : s₀.freeSlots + used.card = NINODE := by
    have := Finset.card_filter_add_card_filter_not (s := Finset.univ)
      fun i => (s₀.inode i).ref = 0
    rw [Finset.card_univ, Fintype.card_fin] at this
    exact this
  omega

end Walk

section Calls

variable [DecidableEq P] {n : ℕ} (choice : ℕ)

theorem Walk.ilock (h : Walk s₀ p held none s) (hr : 0 < (s.inode ip).ref) :
    Code.Ends (exec p choice) (ilock ip) s fun _ t => Walk s₀ p held (some ip) t ∧
      (t.inode ip).inum = (s.inode ip).inum ∧ 0 < (t.inode ip).ref ∧
      (t.inode ip).copy = s₀.disk (s.inode ip).inum := by
  have hlock : (s.inode ip).lock = none := by rw [h.locks ip, if_neg nofun]
  refine Code.ends_op (a := (s.inode ip).ref) (t := s) rfl ?_
  rw [if_neg (Nat.not_lt.mpr hr)]
  have hw : Walk s₀ p held (some ip) (s.setInode ip fun x => { x with lock := some p }) := by
    refine h.slot _ (fun _ j hj hj0 hij => hj (h.unique j ip hj0 hr hij))
      (fun _ hv => h.cached ip hr hv) (fun _ => h.used ip hr) (if_pos rfl).symm
      (fun j hj => ?_) fun _ => rfl
    simp [Ne.symm hj]
  refine Code.ends_op (a := ()) (t := s.setInode ip fun x => { x with lock := some p })
    (by simp only [exec]; rw [if_pos hlock]) ?_
  generalize hu : s.setInode ip (fun x => { x with lock := some p }) = u at hw ⊢
  have hslot : u.inode ip = { s.inode ip with lock := some p } := by rw [← hu, State.setInode_self]
  have hru : 0 < (u.inode ip).ref := by rw [hslot]; exact hr
  have hnu : (u.inode ip).inum = (s.inode ip).inum := by rw [hslot]
  by_cases hv : (u.inode ip).valid = true
  · refine Code.ends_perform (a := ()) (t := u) (by exact if_pos hv) ⟨hw, hnu, hru, ?_⟩
    rw [hw.cached ip hru hv, hw.disk, hnu]
  · have hload : u.load ip = .ret ((), u.setInode ip fun x =>
        { x with copy := u.disk (u.inode ip).inum, valid := true }) := by
      simp only [State.load]
      rw [if_neg hv, if_neg (hw.used ip hru)]
    refine Code.ends_perform (a := ()) (by exact hload) ⟨?_, ?_⟩
    · exact hw.slot _ (fun _ j hj hj0 hij => hj (hw.unique j ip hj0 hru hij)) (fun _ _ => rfl)
        (fun _ => hw.used ip hru) (hw.locks ip) (fun _ _ => Iff.rfl) fun _ => rfl
    · rw [State.setInode_self]
      exact ⟨hnu, hru, by rw [hw.disk, hnu]⟩

theorem Walk.iunlock (h : Walk s₀ p held (some ip) s) (hr : 0 < (s.inode ip).ref) :
    Code.Ends (exec p choice) (iunlock ip) s fun _ t => Walk s₀ p held none t ∧
      ∀ j, (t.inode j).inum = (s.inode j).inum ∧ (t.inode j).ref = (s.inode j).ref := by
  have hlock : (s.inode ip).lock = some p := by rw [h.locks ip, if_pos rfl]
  refine Code.ends_op (a := true) (t := s) (by simp only [exec, hlock]; rfl) ?_
  refine Code.ends_op (a := (s.inode ip).ref) (t := s) rfl ?_
  rw [if_neg (not_or.mpr ⟨nofun, Nat.not_lt.mpr hr⟩)]
  refine Code.ends_perform (a := ()) rfl ⟨?_, fun j => ?_⟩
  · refine h.slot _ (fun _ j hj hj0 hij => hj (h.unique j ip hj0 hr hij))
      (fun _ hv => h.cached ip hr hv) (fun _ => h.used ip hr) (if_neg nofun).symm
      (fun j hj => ?_) fun _ => rfl
    simp [Ne.symm hj]
  · by_cases hj : j = ip
    · subst hj
      rw [State.setInode_self]
      exact ⟨rfl, rfl⟩
    · rw [State.setInode_ne s _ hj]
      exact ⟨rfl, rfl⟩

def Anchored (s : State P) (n : ℕ) : Prop := (s.disk n).nlink ≠ 0 ∨ 0 < s.refsTo n

omit [DecidableEq P] in
theorem Walk.lastRef (h : Walk s₀ p held locked s) (hr : 0 < (s.inode ip).ref)
    (hmem : (s.inode ip).inum ∈ held) (hk : Anchored s₀ (s.inode ip).inum) :
    ((s.inode ip).valid && decide ((s.inode ip).copy.nlink = 0) &&
      decide ((s.inode ip).ref = 1)) = false := by
  rcases hk with hlink | hrefs
  · cases hv : (s.inode ip).valid with
    | false => rfl
    | true =>
      rw [h.cached ip hr hv, h.disk, decide_eq_false hlink]
      rfl
  · have hone := List.count_pos_iff.mpr hmem
    have hall := h.refs (s.inode ip).inum
    rw [h.toConsistent.refsTo_eq hr] at hall
    rw [decide_eq_false (p := (s.inode ip).ref = 1) (by omega), Bool.and_false]

theorem Walk.iput {held' : List ℕ} (h : Walk s₀ p held none s) (hr : 0 < (s.inode ip).ref)
    (hheld : held.Perm ((s.inode ip).inum :: held')) (hk : Anchored s₀ (s.inode ip).inum) :
    Code.Ends (exec p choice) (iput ip) s fun _ t => Walk s₀ p held' none t ∧
      ∀ j, (t.inode j).inum = (s.inode j).inum ∧
        (t.inode j).ref = if j = ip then (s.inode j).ref - 1 else (s.inode j).ref := by
  have hlock : (s.inode ip).lock = none := by rw [h.locks ip, if_neg nofun]
  have hlast := h.lastRef hr (hheld.symm.subset List.mem_cons_self) hk
  refine Code.ends_op (a := ()) (t := s.setInode ip fun x => { x with lock := some p })
    (by simp only [exec]; rw [if_pos hlock]) ?_
  refine Code.ends_op (a := false) (t := s.setInode ip fun x => { x with lock := some p })
    (by simp only [exec, State.setInode_self]; rw [hlast]) ?_
  refine (Code.ends_pure (Q := fun _ t => t = s.setInode ip fun x => { x with lock := some p })
    rfl).bind fun _ t ht => ?_
  subst ht
  refine Code.ends_op (a := ()) rfl (Code.ends_perform (a := ()) rfl ?_)
  have hslot : (((s.setInode ip fun x => { x with lock := some p }).setInode ip
      fun x => { x with lock := none }).setInode ip fun x => { x with ref := x.ref - 1 }) =
      s.setInode ip fun x => { x with ref := x.ref - 1 } := by
    simp only [State.setInode, Function.update_self, Function.update_idem, hlock]
  rw [hslot]
  refine ⟨h.slot _ (fun _ j hj hj0 hij => hj (h.unique j ip hj0 hr hij))
    (fun _ hv => h.cached ip hr hv) (fun _ => h.used ip hr) (h.locks ip) (fun _ _ => Iff.rfl)
    fun n => ?_, fun j => ?_⟩
  · rw [hheld.count_eq, List.count_cons]
    simp only [beq_iff_eq]
    split_ifs <;> omega
  · by_cases hj : j = ip
    · subst hj
      rw [State.setInode_self, if_pos rfl]
      exact ⟨rfl, rfl⟩
    · rw [State.setInode_ne s _ hj, if_neg hj]
      exact ⟨rfl, rfl⟩

theorem Walk.iunlockput {held' : List ℕ} (h : Walk s₀ p held (some ip) s)
    (hr : 0 < (s.inode ip).ref) (hheld : held.Perm ((s.inode ip).inum :: held'))
    (hk : Anchored s₀ (s.inode ip).inum) :
    Code.Ends (exec p choice) (iunlockput ip) s fun _ t => Walk s₀ p held' none t ∧
      ∀ j, (t.inode j).inum = (s.inode j).inum ∧
        (t.inode j).ref = if j = ip then (s.inode j).ref - 1 else (s.inode j).ref := by
  refine (h.iunlock choice hr).bind fun _ u hu => ?_
  obtain ⟨hw, hsame⟩ := hu
  rw [← (hsame ip).1] at hheld hk
  rw [← (hsame ip).2] at hr
  refine (hw.iput choice hr hheld hk).mono fun _ t ht => ⟨ht.1, fun j => ?_⟩
  rw [← (hsame j).1, ← (hsame j).2]
  exact ht.2 j

structure Named (s : State P) (p : P) (found : Option (ℕ × Name)) (r : Option (Slot × Name))
    (t : State P) : Prop where
  walk : Walk s p (found.map (·.1)).toList none t
  found : r.map (fun x => ((t.inode x.1).inum, x.2)) = found

def answer (s : State P) (nameiparent : Bool) (start : ℕ) (names : List Name) :
    Option (ℕ × Name) :=
  if nameiparent then resolveParent s start names else (resolve s start names).map (·, [])

omit [DecidableEq P] in
theorem answer_step {nameiparent : Bool} {name : Name} {path : List Name}
    (h : ¬(nameiparent = true ∧ path = [])) : answer s nameiparent n (name :: path) =
      (lookup s n name).bind fun m => answer s nameiparent m path := by
  cases nameiparent with
  | false =>
    simp only [answer, resolve, List.foldlM_cons, Bool.false_eq_true, if_false]
    cases lookup s n name with
    | none => rfl
    | some m => rfl
  | true =>
    obtain ⟨c, cs, rfl⟩ := List.exists_cons_of_ne_nil fun h0 => h ⟨rfl, h0⟩
    simp only [answer, resolveParent, resolve, List.dropLast_cons_cons, List.foldlM_cons,
      List.getLast?_cons_cons, if_true]
    cases lookup s n name with
    | none => rfl
    | some m => rfl

omit [DecidableEq P] in
theorem answer_last {name : Name} : answer s true n [name] =
    if (s.disk n).type = .dir then some (n, name) else none := rfl

omit [DecidableEq P] in
theorem answer_notDir {nameiparent : Bool} {name : Name} {path : List Name}
    (hd : (s.disk n).type ≠ .dir) : answer s nameiparent n (name :: path) = none := by
  by_cases h : nameiparent = true ∧ path = []
  · rw [h.1, h.2, answer_last, if_neg hd]
  · rw [answer_step h, lookup, if_neg hd]
    rfl

omit [DecidableEq P] in
theorem Walk.dirlookup (h : Walk s₀ p held locked s) (hf : Formatted s₀)
    (hfree : 2 ≤ s₀.freeSlots) (hh : held.length < 2)
    (hcopy : (s.inode ip).copy = s₀.disk (s.inode ip).inum)
    (hd : (s₀.disk (s.inode ip).inum).type = .dir) (name : Name) :
    match Fs.lookup s₀ (s.inode ip).inum name with
    | none => s.dirlookup ip name = .ret (none, s)
    | some m => ∃ jp off t, s.dirlookup ip name = .ret (some (jp, off), t) ∧
        Walk s₀ p (m :: held) locked t ∧ (t.inode jp).inum = m ∧ 0 < (t.inode jp).ref ∧
        ∀ i, 0 < (s.inode i).ref → 0 < (t.inode i).ref ∧ (t.inode i).inum = (s.inode i).inum := by
  have hwhole := hf.whole _ hd
  rw [← h.disk] at hcopy hd hwhole
  have hrun := dirlookup_eq name hcopy hd hwhole
  rw [h.lookup] at hrun
  cases hl : Fs.lookup s₀ (s.inode ip).inum name with
  | none =>
    rw [hl] at hrun
    exact hrun
  | some m =>
    rw [hl] at hrun
    obtain ⟨off, hoff⟩ := hrun
    obtain ⟨jp, t, hget, hwt⟩ := h.iget (hf.lookup hl).1 (h.exists_free hh hfree)
    rw [hget, Outcome.ret_bind] at hoff
    exact ⟨jp, off, t, hoff, hwt⟩

omit [DecidableEq P] in
theorem Walk.still {t v : State P} {jp : Slot} {m : ℕ}
    (h : Walk s₀ p [m, (t.inode ip).inum] locked t) (hr : 0 < (t.inode jp).ref)
    (hn : (t.inode jp).inum = m)
    (hv : ∀ j, (v.inode j).inum = (t.inode j).inum ∧
      (v.inode j).ref = if j = ip then (t.inode j).ref - 1 else (t.inode j).ref) :
    0 < (v.inode jp).ref := by
  rw [(hv jp).2]
  split_ifs with hj
  · have hall := h.refs m
    have hself := h.toConsistent.refsTo_eq hr
    rw [hn] at hself
    rw [hself, ← hj, hn, List.count_cons_self, List.count_cons_self] at hall
    omega
  · exact hr

theorem Walk.namexFrom (hf : Formatted s₀) (hfree : 2 ≤ s₀.freeSlots) {nameiparent : Bool}
    {names : List Name} (h : Walk s₀ p [n] none s) (hn : (s.inode ip).inum = n)
    (hr : 0 < (s.inode ip).ref) (hk : Anchored s₀ n) :
    Code.Ends (exec p choice) (namexFrom nameiparent names ip) s
      (Named s₀ p (answer s₀ nameiparent n names)) := by
  induction names generalizing s ip n with
  | nil =>
    subst hn
    cases nameiparent with
    | false => exact Code.ends_pure ⟨h, rfl⟩
    | true =>
      have hnone : answer s₀ true (s.inode ip).inum [] = none := ite_self _
      refine (h.iput choice hr (List.Perm.refl _) hk).bind fun _ t ht => Code.ends_pure ?_
      rw [hnone]
      exact ⟨ht.1, rfl⟩
  | cons name path ih =>
    subst hn
    refine (h.ilock choice hr).bind fun _ u hu => ?_
    obtain ⟨hw, hnu, hru, hcopy⟩ := hu
    rw [← hnu] at hw hk hcopy ⊢
    refine Code.ends_op (a := (u.inode ip).copy) (t := u) rfl ?_
    have hput := hw.iunlockput choice hru (List.Perm.refl _) hk
    have hfail : answer s₀ nameiparent (u.inode ip).inum (name :: path) = none →
        Code.Ends (exec p choice) (do Fs.iunlockput ip; return none) u
          (Named s₀ p (answer s₀ nameiparent (u.inode ip).inum (name :: path))) := by
      intro hnone
      refine hput.bind fun _ t ht => Code.ends_pure ?_
      rw [hnone]
      exact ⟨ht.1, rfl⟩
    by_cases hd : (s₀.disk (u.inode ip).inum).type = .dir
    · rw [if_neg (by rw [hcopy]; exact not_not_intro hd)]
      by_cases hlast : nameiparent = true ∧ path = []
      · rw [if_pos hlast, hlast.1, hlast.2, answer_last, if_pos hd]
        refine (hw.iunlock choice hru).bind fun _ t ht => Code.ends_pure ⟨ht.1, ?_⟩
        rw [Option.map_some, (ht.2 ip).1]
      · rw [if_neg hlast]
        have hlook := hw.dirlookup hf hfree (Nat.lt_succ_self 1) hcopy hd name
        cases hl : Fs.lookup s₀ (u.inode ip).inum name with
        | none =>
          rw [hl] at hlook
          refine Code.ends_op (a := none) (t := u) (by exact hlook) ?_
          exact hfail (by rw [answer_step hlast, hl]; rfl)
        | some m =>
          rw [hl] at hlook
          obtain ⟨jp, off, t, hrun, hwt, hjn, hjr, hkeep⟩ := hlook
          obtain ⟨hrt, hnt⟩ := hkeep ip hru
          rw [← hnt] at hwt hk
          refine Code.ends_op (a := some (jp, off)) (t := t) (by exact hrun) ?_
          refine (hwt.iunlockput choice hrt (List.Perm.swap _ _ _) hk).bind fun _ v hv => ?_
          rw [answer_step hlast, hl]
          exact ih hv.1 ((hv.2 jp).1.trans hjn) (hwt.still hjr hjn hv.2)
            (Or.inl (hf.lookup hl).2)
    · rw [if_pos (by rw [hcopy]; exact hd)]
      exact hfail (answer_notDir hd)

def startOf (s : State P) (cwd : Slot) (path : List UInt8) : ℕ :=
  if absolute path then ROOTINO else (s.inode cwd).inum

theorem Tidy.namex (hs : Tidy s) {cwd : Slot} (hcwd : (s.proc p).cwd = some cwd)
    (hr : 0 < (s.inode cwd).ref) (hfree : 2 ≤ s.freeSlots) (path : List UInt8)
    (nameiparent : Bool) :
    Code.Ends (exec p choice) (namex path nameiparent) s
      (Named s p (answer s nameiparent (startOf s cwd path) (elems path))) := by
  have h : Walk s p [] none s := Walk.start hs
  unfold Fs.namex startOf
  by_cases ha : absolute path = true
  · rw [if_pos ha, if_pos ha]
    obtain ⟨jp, t, hget, hw, hn, hjr, -⟩ :=
      h.iget hs.root.1 (h.exists_free Nat.two_pos hfree)
    exact Code.ends_op (by exact hget)
      (hw.namexFrom choice hs.toFormatted hfree hn hjr (Or.inl hs.root.2))
  · rw [if_neg ha, if_neg ha]
    have hget : exec p choice .cwd s = .ret (cwd, s) := by simp only [exec, hcwd]
    refine Code.ends_op hget (Code.ends_op (a := ()) rfl ?_)
    refine (h.addRef hr).namexFrom choice hs.toFormatted hfree ?_ ?_ (Or.inr ?_)
    · rw [State.setInode_self]
    · rw [State.setInode_self]
      exact Nat.succ_pos _
    · rw [hs.toConsistent.refsTo_eq hr]
      exact hr

structure Resolved (s : State P) (found : Option ℕ) (t : State P) : Prop extends Tidy t where
  refs : ∀ n, t.refsTo n = s.refsTo n + if found = some n then 1 else 0
  frame : t = { s with inode := t.inode }

omit [DecidableEq P] in
theorem Walk.resolved {found : Option ℕ} (hs : Tidy s₀) (h : Walk s₀ p found.toList none s) :
    Resolved s₀ found s where
  root := by rw [h.disk]; exact hs.root
  whole := by rw [h.disk]; exact hs.whole
  entries := by rw [h.disk, h.data]; exact hs.entries
  unique := h.unique
  cached := h.cached
  used := h.used
  unlocked i := by rw [h.locks i, if_neg nofun]
  frame := h.frame
  refs n := by
    rw [h.refs n]
    cases found with
    | none => simp
    | some m =>
      rw [Option.toList_some, List.count_singleton]
      simp only [beq_iff_eq, Option.some.injEq]

def homeSlot : Slot := ⟨0, by decide⟩

def tree (k : ℕ) : State Unit where
  disk n := if n = ROOTINO ∨ n = 2 then ⟨.dir, 0, 0, 1, 16⟩ else ⟨.file, 0, 0, 1, 0⟩
  data n o := (if n = ROOTINO then Dirent.bytes ⟨2, [97]⟩ else Dirent.bytes ⟨3, [98]⟩).getD o 0
  inode i := ⟨if i.val = 0 then ROOTINO else i.val + 3, if i.val < k then 1 else 0, none, false,
    ⟨.free, 0, 0, 0, 0⟩⟩
  file _ := ⟨.none, 0, false, false, 0, homeSlot, 0⟩
  pipe _ := ⟨false, false, 0, 0⟩
  proc _ := ⟨.live, some homeSlot, fun _ => none⟩
  dir _ := none

theorem tree_tidy (k : ℕ) : Tidy (tree k) where
  root := by simp [tree]
  whole d hd := by
    simp only [tree] at hd ⊢
    split_ifs at hd ⊢ with h
    decide
  entries d hd i hi _ := by
    simp only [tree] at hd hi ⊢
    split_ifs <;> decide
  unique i j _ _ hij := by
    simp only [tree, ROOTINO] at hij
    apply Fin.ext
    split_ifs at hij <;> omega
  cached i _ hv := absurd hv nofun
  used i _ := by
    simp only [tree]
    split_ifs <;> decide
  unlocked _ := rfl

def twoDeep : List UInt8 := [47, 97, 47, 98]

theorem path_resolution (s : State P) (hs : Tidy s) (p : P) (cwd : Slot)
    (hcwd : (s.proc p).cwd = some cwd) (hr : 0 < (s.inode cwd).ref) (hfree : 2 ≤ s.freeSlots)
    (path : List UInt8) (choice : ℕ) :
    elems path = (components (path.takeWhile (· ≠ 0))).map (List.take DIRSIZ) ∧
    (∃ r t, (namei path).alone (exec p choice) s = .ret (r, t) ∧
      r.map (fun ip => (t.inode ip).inum) = resolve s (startOf s cwd path) (elems path) ∧
      Resolved s (resolve s (startOf s cwd path) (elems path)) t) ∧
    ∃ r t, (nameiparent path).alone (exec p choice) s = .ret (r, t) ∧
      r.map (fun x => ((t.inode x.1).inum, x.2)) =
        resolveParent s (startOf s cwd path) (elems path) ∧
      Resolved s ((resolveParent s (startOf s cwd path) (elems path)).map (·.1)) t := by
  refine ⟨elems_eq path, ?_, ?_⟩
  · obtain ⟨r, t, hrun, h⟩ := hs.namex choice hcwd hr hfree path false
    have hw := h.walk
    have hfound := congrArg (Option.map (·.1)) h.found
    simp only [answer, Bool.false_eq_true, if_false, Option.map_map, Function.comp_def,
      Option.map_id'] at hw hfound
    refine ⟨r.map (·.1), t, ?_, ?_, hw.resolved hs⟩
    · unfold namei
      rw [Code.alone_bind, hrun]
      rfl
    · rw [← hfound, Option.map_map]
      rfl
  · obtain ⟨r, t, hrun, h⟩ := hs.namex choice hcwd hr hfree path true
    exact ⟨r, t, hrun, h.found, h.walk.resolved hs⟩

theorem path_resolution_tree : 2 ≤ (tree 48).freeSlots ∧
    ∃ r t, (namei twoDeep).alone (exec () 0) (tree 48) = .ret (r, t) ∧
      r.map (fun ip => (t.inode ip).inum) = some 3 ∧ Resolved (tree 48) (some 3) t := by
  have hfree : 2 ≤ (tree 48).freeSlots := by decide +kernel
  have hfound : resolve (tree 48) (startOf (tree 48) homeSlot twoDeep) (elems twoDeep) =
      some 3 := by
    decide +kernel
  have h := (path_resolution (tree 48) (tree_tidy 48) () homeSlot rfl (by decide) hfree
    twoDeep 0).2.1
  rw [hfound] at h
  exact ⟨hfree, h⟩

/-- One free slot is not enough: `/a` is held while `/a/b` is looked up. -/
theorem namei_out_of_slots : Tidy (tree 49) ∧ (tree 49).freeSlots = 1 ∧
    resolve (tree 49) ROOTINO (elems twoDeep) = some 3 ∧
    (namei twoDeep).alone (exec () 0) (tree 49) = .panic "iget: no inodes" := by
  refine ⟨tree_tidy 49, by decide +kernel, by decide +kernel, by rfl⟩

end Calls

end Walk

end Xv6.Fs
