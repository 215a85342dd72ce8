import Xv6.Log.Header
import Xv6.Log.History

/-!
# The invariant of the log

`Recoverable` is the part that survives a crash: blocks that the on-disk
header does not list hold the committed contents, and for every listed block
its copy in the log does. `Stage` says how far a commit or a recovery has got,
and `Running` relates the cache to the disk and to the logical contents while
system calls may run.
-/

namespace Xv6.Log
open Lib

def Changed (s : State) (b : ℕ) : Prop := ∃ hd, s.held b = some hd ∧ hd.changed = true

def Dirty (s : State) (b : ℕ) : Prop := ∃ buf, s.cache b = some buf ∧ buf.dirty = true

def Unwritten (s : State) (b : ℕ) : Prop :=
  ∃ i < s.lh.n, s.lh.block i = b ∧ ∀ t, s.pc = .install t → t ≤ i

structure Listed (c : Config) (lh : Header) : Prop where
  fits : lh.n + 1 ≤ c.size
  home : ∀ b ∈ lh.blocks, Home c b
  nodup : lh.blocks.Nodup

structure Recoverable (c : Config) (disk committed : ℕ → Bytes) : Prop where
  listed : Listed c (Header.decode (disk c.start))
  copied : ∀ i < (Header.decode (disk c.start)).n,
    disk (c.start + i + 1) = committed ((Header.decode (disk c.start)).block i)
  rest : ∀ b, Home c b → b ∉ (Header.decode (disk c.start)).blocks → disk b = committed b

def Settled (c : Config) (h : Hist) : Prop := ∀ b, Home c b → h.logical b = h.committed b

def Stage (c : Config) (s : State) (h : Hist) : Pc → Prop
  | .idle => (Header.decode (s.disk c.start)).n = 0
  | .writeLog t => (Header.decode (s.disk c.start)).n = 0 ∧ 0 < s.lh.n ∧ t ≤ s.lh.n ∧
      ∀ i < t, s.disk (c.start + i + 1) = h.logical (s.lh.block i)
  | .writeHead => (Header.decode (s.disk c.start)).n = 0 ∧ 0 < s.lh.n ∧
      ∀ i < s.lh.n, s.disk (c.start + i + 1) = h.logical (s.lh.block i)
  | .install t => Settled c h ∧ t ≤ s.lh.n ∧
      (Header.decode (s.disk c.start)).n = s.lh.n ∧
      (∀ i < s.lh.n, (Header.decode (s.disk c.start)).block i = s.lh.block i) ∧
      ∀ i < t, s.disk (s.lh.block i) = h.committed (s.lh.block i)
  | .clear => Settled c h ∧ s.lh.n = 0 ∧ ∀ b, Home c b → s.disk b = h.committed b
  | .done => (Header.decode (s.disk c.start)).n = 0 ∧ s.lh.n = 0
  | .readHead => Settled c h

def Coherent (s : State) : Prop :=
  ∀ b buf, s.cache b = some buf → buf.dirty = false → ¬Changed s b → buf.data = s.disk b

/-- What the processes hold: `outstanding` counts the operations in progress,
changed buffers belong to them, and a commit excludes them. -/
structure Procs (c : Config) (s : State) : Prop where
  count : ∃ l : List ℕ, l.Nodup ∧ l.length = s.outstanding ∧ ∀ p, s.phase p = .inside ↔ p ∈ l
  changed : ∀ b hd, s.held b = some hd → hd.changed = true →
    Home c b ∧ s.phase hd.owner = .inside
  cached : ∀ b, s.held b ≠ none → s.cache b ≠ none
  committing : s.committing = true ↔ s.pc ≠ .idle
  exclusive : s.committing = true → s.outstanding = 0

structure Running (c : Config) (s : State) (h : Hist) : Prop where
  coherent : Coherent s
  procs : Procs c s
  view : ∀ b, Home c b → ¬Changed s b → s.view b = h.logical b
  unlogged : ∀ b, Home c b → b ∉ s.lh.blocks → h.logical b = s.disk b
  dirty : ∀ b, Dirty s b ↔ Unwritten s b
  pc : s.pc ≠ .readHead

structure Recovering (s : State) : Prop where
  clean : ∀ b buf, s.cache b = some buf → buf = ⟨s.disk b, false⟩
  free : ∀ b, s.held b = none
  outside : ∀ p, s.phase p = .outside
  outstanding : s.outstanding = 0
  committing : s.committing = false
  pc : s.pc = .readHead ∨ (∃ t, s.pc = .install t) ∨ s.pc = .clear

structure Inv (c : Config) (s : State) (h : Hist) : Prop where
  recov : Recoverable c s.disk h.committed
  listed : s.pc ≠ .readHead → Listed c s.lh
  stage : Stage c s h s.pc
  running : s.recovering = false → Running c s h
  recovering : s.recovering = true → Recovering s

/-! ## The cache -/

section Cache

variable {s : State} {b x : ℕ}

@[simp] theorem fetch_disk : (s.fetch b).disk = s.disk := by
  unfold State.fetch; split <;> rfl
@[simp] theorem fetch_lh : (s.fetch b).lh = s.lh := by
  unfold State.fetch; split <;> rfl
@[simp] theorem fetch_outstanding : (s.fetch b).outstanding = s.outstanding := by
  unfold State.fetch; split <;> rfl
@[simp] theorem fetch_committing : (s.fetch b).committing = s.committing := by
  unfold State.fetch; split <;> rfl
@[simp] theorem fetch_phase : (s.fetch b).phase = s.phase := by
  unfold State.fetch; split <;> rfl
@[simp] theorem fetch_held : (s.fetch b).held = s.held := by
  unfold State.fetch; split <;> rfl
@[simp] theorem fetch_pc : (s.fetch b).pc = s.pc := by
  unfold State.fetch; split <;> rfl
@[simp] theorem fetch_recovering : (s.fetch b).recovering = s.recovering := by
  unfold State.fetch; split <;> rfl

theorem fetch_cache : (s.fetch b).cache x =
    if x = b ∧ s.cache b = none then some ⟨s.disk b, false⟩ else s.cache x := by
  unfold State.fetch
  cases hb : s.cache b with
  | some buf => simp
  | none =>
    by_cases hx : x = b
    · subst hx; simp
    · simp [hx]

@[simp] theorem fetch_view : (s.fetch b).view x = s.view x := by
  simp only [State.view, fetch_cache, fetch_disk]
  by_cases hx : x = b ∧ s.cache b = none
  · obtain ⟨rfl, hn⟩ := hx
    simp [hn]
  · simp [hx]

theorem fetch_dirty : Dirty (s.fetch b) x ↔ Dirty s x := by
  simp only [Dirty, fetch_cache]
  by_cases hx : x = b ∧ s.cache b = none
  · obtain ⟨rfl, hn⟩ := hx
    simp [hn]
  · simp [hx]

theorem changed_congr {s' : State} (hh : s'.held = s.held) : Changed s' x ↔ Changed s x := by
  simp only [Changed, hh]

theorem Coherent.fetch (h : Coherent s) : Coherent (s.fetch b) := by
  intro x buf hx hd hc
  rw [fetch_cache] at hx
  split_ifs at hx with hxb
  · simp only [Option.some.injEq] at hx
    rw [← hx, hxb.1, fetch_disk]
  · rw [fetch_disk]
    exact h x buf hx hd (by rwa [changed_congr fetch_held] at hc)

theorem Coherent.view_eq (h : Coherent s) (hd : ¬Dirty s b) (hc : ¬Changed s b) :
    s.view b = s.disk b := by
  simp only [State.view]
  cases hb : s.cache b with
  | none => rfl
  | some buf =>
    have hclean : buf.dirty = false := by
      by_contra hne
      exact hd ⟨buf, hb, by simpa using hne⟩
    exact h b buf hb hclean hc

variable {data : Bytes}

theorem bwrite_cache : (s.bwrite b data).cache x =
    if x = b then some ⟨data, false⟩ else s.cache x := by
  by_cases hx : x = b
  · subst hx; simp [State.bwrite]
  · simp [State.bwrite, hx]

theorem bwrite_disk : (s.bwrite b data).disk x = if x = b then data else s.disk x := by
  by_cases hx : x = b
  · subst hx; simp [State.bwrite]
  · simp [State.bwrite, hx]

theorem bwrite_view : (s.bwrite b data).view x = if x = b then data else s.view x := by
  simp only [State.view, bwrite_cache, bwrite_disk]
  split_ifs <;> rfl

theorem bwrite_dirty : Dirty (s.bwrite b data) x ↔ x ≠ b ∧ Dirty s x := by
  simp only [Dirty, bwrite_cache]
  by_cases hx : x = b <;> simp [hx]

theorem Coherent.bwrite (h : Coherent s) : Coherent (s.bwrite b data) := by
  intro x buf hx hd hc
  rw [bwrite_cache] at hx
  rw [bwrite_disk]
  split_ifs at hx ⊢ with hxb
  · simp only [Option.some.injEq] at hx
    rw [← hx]
  · exact h x buf hx hd hc

end Cache

/-! ## Block writes -/

structure Wrote (s s' : State) (b : ℕ) (data : Bytes) : Prop where
  disk : ∀ x, s'.disk x = if x = b then data else s.disk x
  view : ∀ x, s'.view x = if x = b then data else s.view x
  dirty : ∀ x, Dirty s' x ↔ x ≠ b ∧ Dirty s x
  coherent : Coherent s → Coherent s'
  clean : (∀ x buf, s.cache x = some buf → buf = ⟨s.disk x, false⟩) →
    ∀ x buf, s'.cache x = some buf → buf = ⟨s'.disk x, false⟩
  cached : ∀ x, s.cache x ≠ none → s'.cache x ≠ none
  lh : s'.lh = s.lh
  outstanding : s'.outstanding = s.outstanding
  committing : s'.committing = s.committing
  phase : s'.phase = s.phase
  held : s'.held = s.held
  recovering : s'.recovering = s.recovering

theorem wrote_bwrite (s : State) (b : ℕ) (data : Bytes) : Wrote s (s.bwrite b data) b data where
  disk _ := bwrite_disk
  view _ := bwrite_view
  dirty _ := bwrite_dirty
  coherent := Coherent.bwrite
  clean h x buf hx := by
    rw [bwrite_cache] at hx
    rw [bwrite_disk]
    split_ifs at hx ⊢ with hxb
    · simpa using hx.symm
    · exact h x buf hx
  cached x hx := by
    rw [bwrite_cache]
    split_ifs
    · simp
    · exact hx
  lh := rfl
  outstanding := rfl
  committing := rfl
  phase := rfl
  held := rfl
  recovering := rfl

theorem Wrote.of_fetch {s s' : State} {a b : ℕ} {data : Bytes} (h : Wrote (s.fetch a) s' b data) :
    Wrote s s' b data where
  disk x := by rw [h.disk, fetch_disk]
  view x := by rw [h.view, fetch_view]
  dirty x := by rw [h.dirty, fetch_dirty]
  coherent hc := h.coherent hc.fetch
  clean hc := by
    apply h.clean
    intro x buf hx
    rw [fetch_cache] at hx
    rw [fetch_disk]
    split_ifs at hx with hxa
    · rw [hxa.1]; simpa using hx.symm
    · exact hc x buf hx
  cached x hx := by
    apply h.cached
    rw [fetch_cache]
    split_ifs
    · simp
    · exact hx
  lh := by rw [h.lh, fetch_lh]
  outstanding := by rw [h.outstanding, fetch_outstanding]
  committing := by rw [h.committing, fetch_committing]
  phase := by rw [h.phase, fetch_phase]
  held := by rw [h.held, fetch_held]
  recovering := by rw [h.recovering, fetch_recovering]

theorem copyBlock_wrote {s s' : State} {src dst : ℕ} (h : copyBlock s src dst = .ret s') :
    Wrote s s' dst (s.view src) := by
  unfold copyBlock at h
  split_ifs at h
  simp only [Outcome.ret.injEq, fetch_view] at h
  subst h
  exact (wrote_bwrite _ _ _).of_fetch.of_fetch

theorem writeHead_wrote {c : Config} {s s' : State} (h : writeHead c s = .ret s') :
    Wrote s s' c.start (s.lh.encode (s.view c.start)) := by
  unfold writeHead at h
  split_ifs at h
  simp only [Outcome.ret.injEq, fetch_view] at h
  subst h
  exact (wrote_bwrite _ _ _).of_fetch

end Xv6.Log
