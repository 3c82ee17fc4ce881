/-
# ZeroKv.Regbuf.Pool — the pool of registered buffers.

`register` cuts one slab into `count` buffers and puts all indices on a free list.  `acquire` pops an index
under the lock and makes a handle for it; dropping the handle pushes the index back.  A handle may be sent to
another thread, so any thread may drop any handle.  Everything but the access to the free list is local to the
calling thread, and so a step here is one critical section, or a handle changing hands.

The free list and the handles share the indices out: each is at one of the two places, once.  That the
regions of two handles do not meet is then a matter of multiplication.  The last section has `register` with
the request it makes for the slab, and what `drop` gives back.
-/
import Mathlib.Data.List.Perm.Basic
import Mathlib.Data.List.Range
import ZeroKv.Lib.Alloc
import ZeroKv.Lib.Machine

namespace ZeroKv.Regbuf

/-! ## The code -/

/-- `PAGE`. -/
def page : ℕ := 4096

/-- `Layout::from_size_align` accepts a size that stays below `isize::MAX` when rounded up. -/
def layoutOk (size align : ℕ) : Bool := size ≤ 2 ^ 63 - align

/-- `RegisteredBuffers`.  `free` is the vector behind the mutex, with its top at the end. -/
structure Pool where
  base : ℕ
  bufLen : ℕ
  count : ℕ
  free : List ℕ

/-- `FixedBuf`. -/
structure FixedBuf where
  index : ℕ
  ptr : ℕ
  len : ℕ

/-- `register`, for the address that the system allocator gives.  An error is a panic.  `registerIn` is the
whole call. -/
def register (base count bufLen : ℕ) : Except String Pool :=
  if 0 < count ∧ count ≤ 2 ^ 16 - 1 then
    let bufLen := alignUp 64 (max bufLen 1) page
    match checkedMul 64 count bufLen with
    | none => .error "slab size overflow"
    | some total =>
        if layoutOk total page then
          .ok { base := base, bufLen := bufLen, count := count, free := List.range (count % 2 ^ 16) }
        else .error "layout: LayoutError"
  else .error "count out of range"

namespace Pool

/-- The handle of a buffer. -/
def fixedBuf (p : Pool) (index : ℕ) : FixedBuf where
  index := index
  ptr := p.base + wrappingMul 64 index p.bufLen
  len := p.bufLen

/-- `acquire`. -/
def acquire (p : Pool) : Pool × Option FixedBuf :=
  match p.free.getLast? with
  | none => (p, none)
  | some index => ({ p with free := p.free.dropLast }, some (p.fixedBuf index))

/-- `release`. -/
def release (p : Pool) (index : ℕ) : Pool := { p with free := p.free ++ [index] }

/-- `available`. -/
def available (p : Pool) : ℕ := p.free.length

end Pool

/-- The pool and the handles that were not dropped, each with the thread that has it. -/
structure State (τ : Type) where
  pool : Pool
  live : List (τ × FixedBuf)

/-- What the threads can do: take a buffer, hand one over, or drop one. -/
inductive Act (τ : Type)
  | acquire (t : τ)
  | send (k : ℕ) (t : τ)
  | drop (k : ℕ)

variable {τ : Type}

def step (s : State τ) : Act τ → Option (State τ)
  | .acquire t =>
      match s.pool.acquire with
      | (_, none) => some s
      | (pool, some buf) => some { pool := pool, live := s.live ++ [(t, buf)] }
  | .send k t =>
      match s.live[k]? with
      | none => none
      | some h => some { s with live := s.live.set k (t, h.2) }
  | .drop k =>
      match s.live[k]? with
      | none => none
      | some h => some { pool := s.pool.release h.2.index, live := s.live.eraseIdx k }

/-- Any number of threads over the pool `p`. -/
def machine (τ : Type) (p : Pool) : Machine (State τ) (Act τ) := .ofFn { pool := p, live := [] } step

/-! ## The indices are shared out -/

/-- The indices of the handles that were not dropped. -/
def State.indices (s : State τ) : List ℕ := s.live.map fun h => h.2.index

/-- Every state of a pool that started as `p`. -/
structure Shared (p : Pool) (s : State τ) : Prop where
  base_eq : s.pool.base = p.base
  bufLen_eq : s.pool.bufLen = p.bufLen
  count_eq : s.pool.count = p.count
  handles : ∀ h ∈ s.live, h.2 = p.fixedBuf h.2.index
  perm : (s.pool.free ++ s.indices).Perm (List.range p.count)

namespace Shared

variable {p : Pool} {s : State τ}

theorem acquire (h : Shared p s) {index : ℕ} (hlast : s.pool.free.getLast? = some index) (t : τ) :
    Shared p { pool := { s.pool with free := s.pool.free.dropLast },
               live := s.live ++ [(t, s.pool.fixedBuf index)] } := by
  have hfree : s.pool.free = s.pool.free.dropLast ++ [index] :=
    (List.dropLast_append_getLast? index hlast).symm
  refine ⟨h.base_eq, h.bufLen_eq, h.count_eq, ?_, ?_⟩
  · intro x hx
    rcases List.mem_append.mp hx with hx | hx
    · exact h.handles x hx
    · obtain rfl := List.mem_singleton.mp hx
      simp only [Pool.fixedBuf, h.base_eq, h.bufLen_eq]
  · have hperm := h.perm
    rw [hfree, List.append_assoc] at hperm
    refine List.Perm.trans (List.Perm.append_left _ ?_) hperm
    rw [State.indices, List.map_append]
    exact List.perm_append_comm

theorem send (h : Shared p s) {k : ℕ} {x : τ × FixedBuf} (hk : s.live[k]? = some x) (t : τ) :
    Shared p { s with live := s.live.set k (t, x.2) } := by
  have hsame : State.indices { s with live := s.live.set k (t, x.2) } = s.indices := by
    obtain ⟨hlt, rfl⟩ := List.getElem?_eq_some_iff.mp hk
    refine List.ext_getElem (by simp [State.indices]) fun i hi _ => ?_
    simp only [State.indices, List.getElem_map, List.getElem_set]
    split
    · subst i
      rfl
    · rfl
  refine ⟨h.base_eq, h.bufLen_eq, h.count_eq, ?_, hsame ▸ h.perm⟩
  intro y hy
  rcases List.mem_or_eq_of_mem_set hy with hy | rfl
  · exact h.handles y hy
  · exact h.handles x (List.mem_of_getElem? hk)

theorem drop (h : Shared p s) {k : ℕ} {x : τ × FixedBuf} (hk : s.live[k]? = some x) :
    Shared p { pool := s.pool.release x.2.index, live := s.live.eraseIdx k } := by
  refine ⟨h.base_eq, h.bufLen_eq, h.count_eq, ?_, ?_⟩
  · exact fun y hy => h.handles y (List.mem_of_mem_eraseIdx hy)
  · obtain ⟨hlt, rfl⟩ := List.getElem?_eq_some_iff.mp hk
    have hback : (s.live[k].2.index :: (s.live.eraseIdx k).map fun y => y.2.index).Perm s.indices :=
      (List.getElem_cons_eraseIdx_perm hlt).map fun y : τ × FixedBuf => y.2.index
    refine List.Perm.trans ?_ h.perm
    rw [Pool.release, List.append_assoc]
    exact List.Perm.append_left _ hback

/-- Each step of each thread keeps the sharing. -/
theorem step (h : Shared p s) {a : Act τ} {s₁ : State τ} (hs : Regbuf.step s a = some s₁) :
    Shared p s₁ := by
  cases a with
  | acquire t =>
      cases hlast : s.pool.free.getLast? with
      | none =>
          simp only [Regbuf.step, Pool.acquire, hlast, Option.some.injEq] at hs
          exact hs ▸ h
      | some index =>
          simp only [Regbuf.step, Pool.acquire, hlast, Option.some.injEq] at hs
          exact hs ▸ h.acquire hlast t
  | send k t =>
      cases hk : s.live[k]? with
      | none => simp [Regbuf.step, hk] at hs
      | some x =>
          simp only [Regbuf.step, hk, Option.some.injEq] at hs
          exact hs ▸ h.send hk t
  | drop k =>
      cases hk : s.live[k]? with
      | none => simp [Regbuf.step, hk] at hs
      | some x =>
          simp only [Regbuf.step, hk, Option.some.injEq] at hs
          exact hs ▸ h.drop hk

theorem available (h : Shared p s) : s.pool.available + s.live.length = p.count := by
  have hlen := h.perm.length_eq
  simpa [State.indices, Pool.available] using hlen

theorem acquire_none_iff (h : Shared p s) : s.pool.acquire.2 = none ↔ s.live.length = p.count := by
  have hcount := h.available
  have hnone : s.pool.acquire.2 = none ↔ s.pool.free = [] := by
    rw [← List.getLast?_eq_none_iff, Pool.acquire]
    split <;> simp [*]
  rw [hnone, ← List.length_eq_zero_iff]
  rw [Pool.available] at hcount
  omega

theorem indices_nodup (h : Shared p s) : s.indices.Nodup :=
  (List.nodup_append.mp (h.perm.nodup_iff.mpr List.nodup_range)).2.1

theorem index_lt (h : Shared p s) {x : τ × FixedBuf} (hx : x ∈ s.live) : x.2.index < p.count := by
  have hmem : x.2.index ∈ s.indices := List.mem_map_of_mem hx
  exact List.mem_range.mp (h.perm.subset (List.mem_append_right _ hmem))

end Shared

/-! ## The slab -/

/-- What a successful `register` gives. -/
structure Registered (base count bufLen : ℕ) (p : Pool) : Prop where
  base_eq : p.base = base
  count_eq : p.count = count
  bufLen_eq : p.bufLen = alignUp 64 (max bufLen 1) page
  count_pos : 0 < count
  count_le : count ≤ 2 ^ 16 - 1
  /-- The size of the slab is a word. -/
  slab_lt : p.count * p.bufLen < 2 ^ 64
  free_eq : p.free = List.range p.count

theorem registered_of_register {base count bufLen : ℕ} {p : Pool}
    (h : register base count bufLen = .ok p) : Registered base count bufLen p := by
  unfold register at h
  split at h
  case isFalse => cases h
  case isTrue hcount =>
    dsimp only at h
    split at h
    case h_1 => cases h
    case h_2 total htotal =>
      rw [checkedMul, Option.ite_none_right_eq_some] at htotal
      split at h
      case isFalse => cases h
      case isTrue =>
        have hp := Except.ok.inj h
        have hmod : count % 2 ^ 16 = count := Nat.mod_eq_of_lt (by omega)
        rw [← hp, hmod]
        exact ⟨rfl, rfl, rfl, hcount.1, hcount.2, htotal.1, rfl⟩

/-- The bytes of a handle start at its index times the length of a buffer: the product does not wrap. -/
theorem Registered.fixedBuf {base count bufLen : ℕ} {p : Pool} (h : Registered base count bufLen p)
    {index : ℕ} (hindex : index < count) :
    p.fixedBuf index = { index := index, ptr := base + index * p.bufLen, len := p.bufLen } := by
  have hle : index * p.bufLen ≤ p.count * p.bufLen :=
    Nat.mul_le_mul_right _ (h.count_eq ▸ Nat.le_of_lt hindex)
  have hlt : index * p.bufLen < 2 ^ 64 := lt_of_le_of_lt hle h.slab_lt
  simp only [Pool.fixedBuf, h.base_eq, wrappingMul, Nat.mod_eq_of_lt hlt]

/-- Two regions of one slab with different indices do not meet. -/
theorem regions_disjoint {i j : ℕ} (hij : i ≠ j) (len : ℕ) :
    (i + 1) * len ≤ j * len ∨ (j + 1) * len ≤ i * len := by
  rcases Nat.lt_or_gt_of_ne hij with hlt | hlt
  · exact .inl (Nat.mul_le_mul_right len hlt)
  · exact .inr (Nat.mul_le_mul_right len hlt)

theorem Registered.shared {base count bufLen : ℕ} {p : Pool} (h : Registered base count bufLen p) :
    Shared p ({ pool := p, live := [] } : State τ) :=
  ⟨rfl, rfl, rfl, fun _ hx => absurd hx List.not_mem_nil, by simp [State.indices, h.free_eq]⟩

/-- However threads acquire, hand over and drop buffers of a registered pool, each index is on the free list
or at one handle, and at one place only.  What is available is what is not handed out, `acquire` finds nothing
exactly when everything is, and the handles' regions do not meet and lie in the slab. -/
theorem pool_run {base count bufLen : ℕ} {p : Pool} (hreg : register base count bufLen = .ok p)
    {s : State τ} (hs : (machine τ p).Reachable s) :
    (s.pool.free ++ s.live.map fun h => h.2.index).Perm (List.range count) ∧
      s.pool.available = count - s.live.length ∧
      (s.pool.acquire.2 = none ↔ s.live.length = count) ∧
      (∀ h ∈ s.live, h.2.len = p.bufLen ∧ h.2.ptr = base + h.2.index * p.bufLen ∧
        (h.2.index + 1) * p.bufLen ≤ count * p.bufLen) ∧
      s.live.Pairwise fun h g => (h.2.index + 1) * p.bufLen ≤ g.2.index * p.bufLen ∨
        (g.2.index + 1) * p.bufLen ≤ h.2.index * p.bufLen := by
  have hp := registered_of_register hreg
  have hcount := hp.count_eq
  have hsh : Shared p s :=
    hs.invariant (fun _ hinit => hinit ▸ hp.shared) fun _ _ _ _ h hstep => h.step hstep
  refine ⟨hcount ▸ hsh.perm, ?_, hcount ▸ hsh.acquire_none_iff, ?_, ?_⟩
  · have := hsh.available
    omega
  · intro x hx
    have hlt : x.2.index < count := hcount ▸ hsh.index_lt hx
    have hbuf := (hsh.handles x hx).trans (hp.fixedBuf hlt)
    refine ⟨?_, ?_, Nat.mul_le_mul_right _ hlt⟩
    · rw [hbuf]
    · rw [hbuf]
  · have hne := List.pairwise_map.mp hsh.indices_nodup
    exact hne.imp fun hij => regions_disjoint hij p.bufLen

/-- Two buffers are taken, and one is handed over and dropped by the other thread. -/
def handOver : List (Act Bool) := [.acquire true, .acquire true, .send 0 false, .drop 0]

theorem pool_run_handOver : ∃ (p : Pool) (s : State Bool), register 8192 2 100 = .ok p ∧
    Machine.runFn step { pool := p, live := [] } handOver = some s ∧ s.pool.available = 2 - 1 := by
  obtain ⟨p, hp⟩ : ∃ p, register 8192 2 100 = .ok p := ⟨_, rfl⟩
  obtain ⟨s, hs⟩ : ∃ s, Machine.runFn step { pool := p, live := [] } handOver = some s := by
    cases hp
    exact ⟨_, rfl⟩
  have hlive : s.live.length = 1 := by
    cases hp
    cases hs
    rfl
  exact ⟨p, s, hp, hs, hlive ▸ (pool_run hp (Machine.reachable_of_runFn hs)).2.1⟩

/-! ## The allocation of the slab -/

/-- The slab for `count` buffers of a rounded length, and the pool over it. -/
def slab (heap : Allocator) (count bufLen : ℕ) : Traced Pool := do
  let total ← Traced.expect "slab size overflow" (checkedMul 64 count bufLen)
  let base ← Traced.region heap "layout" total page
  pure { base := base, bufLen := bufLen, count := count, free := List.range (count % 2 ^ 16) }

/-- `register` with its allocation. -/
def registerIn (heap : Allocator) (count bufLen : ℕ) : Traced Pool :=
  if 0 < count ∧ count ≤ 2 ^ 16 - 1 then slab heap count (alignUp 64 (max bufLen 1) page)
  else Traced.panic "count out of range"

/-- The layout that `drop` hands to `dealloc`. -/
def Pool.dropLayout (p : Pool) : Option Layout :=
  Layout.fromSizeAlign (wrappingMul 64 p.count p.bufLen) page

section RegisterIn

variable {heap : Allocator} {count bufLen : ℕ} {p : Pool} {L : Layout}

theorem checkedMul_eq_some {w a b c : ℕ} : checkedMul w a b = some c ↔ a * b < 2 ^ w ∧ a * b = c := by
  simp [checkedMul]

theorem mem_requests_slab :
    L ∈ (slab heap count bufLen).requests ↔ L.size = count * bufLen ∧ L.align = page := by
  simp only [slab, Traced.mem_requests_bind, Traced.requests_expect, Traced.result_expect_eq_ok,
    checkedMul_eq_some, Traced.mem_requests_region, Traced.requests_pure, List.not_mem_nil, and_false,
    exists_false, or_false, false_or]
  constructor
  · rintro ⟨total, ⟨-, rfl⟩, hL⟩
    exact hL
  · -- a product that has a layout does not overflow
    rintro ⟨hsize, halign⟩
    have hle := L.size_le
    exact ⟨L.size, ⟨by omega, hsize.symm⟩, rfl, halign⟩

theorem mem_requests_registerIn :
    L ∈ (registerIn heap count bufLen).requests ↔
      (0 < count ∧ count ≤ 2 ^ 16 - 1) ∧
        L.size = count * alignUp 64 (max bufLen 1) page ∧ L.align = page := by
  by_cases hcount : 0 < count ∧ count ≤ 2 ^ 16 - 1
  · rw [registerIn, if_pos hcount, mem_requests_slab]
    exact (and_iff_right hcount).symm
  · rw [registerIn, if_neg hcount, Traced.requests_panic]
    exact ⟨fun hL => absurd hL List.not_mem_nil, fun h => absurd h.1 hcount⟩

theorem layoutOk_of_layout (h : L.align = page) : layoutOk L.size page = true := by
  have := L.size_le
  rw [h] at this
  simpa [layoutOk] using this

/-- Every pool that is registered is one that `register` describes. -/
theorem register_of_registerIn (h : (registerIn heap count bufLen).result = .ok p) :
    register p.base count bufLen = .ok p := by
  by_cases hcount : 0 < count ∧ count ≤ 2 ^ 16 - 1
  · rw [registerIn, if_pos hcount, slab] at h
    obtain ⟨total, htotal, hrest⟩ := Traced.result_bind_eq_ok.mp h
    obtain ⟨base, hbase, hpool⟩ := Traced.result_bind_eq_ok.mp hrest
    obtain ⟨L, ⟨hsize, halign⟩, -⟩ := Traced.result_region_eq_ok.mp hbase
    rw [Traced.result_expect_eq_ok] at htotal
    have hok : layoutOk total page = true := hsize ▸ layoutOk_of_layout halign
    cases hpool
    simp only [register, if_pos hcount, htotal, if_pos hok]
  · rw [registerIn, if_neg hcount] at h
    cases h

/-- However the buffers were handed out, `drop` gives back the layout that `register` asked for. -/
theorem dropLayout_run (h : (registerIn heap count bufLen).result = .ok p) {s : State τ}
    (hs : (machine τ p).Reachable s) (hL : L ∈ (registerIn heap count bufLen).requests) :
    s.pool.dropLayout = some L := by
  have hp := registered_of_register (register_of_registerIn h)
  have hsh : Shared p s :=
    hs.invariant (fun _ hinit => hinit ▸ hp.shared) fun _ _ _ _ h hstep => h.step hstep
  obtain ⟨-, hsize, halign⟩ := mem_requests_registerIn.mp hL
  rw [Pool.dropLayout, hsh.count_eq, hsh.bufLen_eq, Layout.fromSizeAlign_eq_some, wrappingMul,
    Nat.mod_eq_of_lt hp.slab_lt, hp.count_eq, hp.bufLen_eq]
  exact ⟨hsize, halign⟩

end RegisterIn

end ZeroKv.Regbuf
