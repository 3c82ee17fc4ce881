/-
# ZeroKv.Lib.Alloc — what a program asks of the allocator.

A request is a `Layout`, a size with an alignment that rounding up does not push over `isize::MAX`.  The
allocator answers with an address or refuses, and what it does with a request of size zero is not defined; so
a statement about a call has to be about the requests it makes, whether or not it returns.  `Traced` pairs the
result of a call with its requests.

How the two go through a sequence of calls is said once, by `mem_requests_bind` and `result_bind_eq_ok`.  The
last section is about a request whose size was rounded up in machine words.
-/
import ZeroKv.Lib.Word

namespace ZeroKv

/-- A size and an alignment that can be asked for, on a target of 64 bits. -/
structure Layout where
  size : ℕ
  align : ℕ
  align_pow : ∃ k < 64, align = 2 ^ k
  size_le : size ≤ 2 ^ 63 - align
deriving DecidableEq

namespace Layout

/-- `Layout::from_size_align`. -/
def fromSizeAlign (size align : ℕ) : Option Layout :=
  if h : (∃ k < 64, align = 2 ^ k) ∧ size ≤ 2 ^ 63 - align then some ⟨size, align, h.1, h.2⟩ else none

theorem fromSizeAlign_eq_some {size align : ℕ} {layout : Layout} :
    fromSizeAlign size align = some layout ↔ layout.size = size ∧ layout.align = align := by
  obtain ⟨size', align', hpow, hle⟩ := layout
  unfold fromSizeAlign
  constructor
  · intro h
    split at h
    · cases h
      exact ⟨rfl, rfl⟩
    · cases h
  · rintro ⟨rfl, rfl⟩
    rw [dif_pos ⟨hpow, hle⟩]

/-- The layout of no bytes at all, which `from_size_align` does not refuse. -/
def empty (k : ℕ) (hk : k < 64) : Layout := ⟨0, 2 ^ k, ⟨k, hk, rfl⟩, Nat.zero_le _⟩

end Layout

/-- How a call can end without a result: a panic, or the abort when the allocator refuses. -/
inductive Failure
  | panic (message : String)
  | allocError (layout : Layout)
deriving DecidableEq

/-- A call with the requests it made. -/
structure Traced (α : Type) where
  requests : List Layout
  result : Except Failure α

/-- The allocator: the address it gives for a request, if any. -/
abbrev Allocator := Layout → Option ℕ

namespace Traced

variable {α β : Type}

protected def pure (a : α) : Traced α := ⟨[], .ok a⟩

protected def bind (x : Traced α) (f : α → Traced β) : Traced β :=
  match x.result with
  | .error e => ⟨x.requests, .error e⟩
  | .ok a => ⟨x.requests ++ (f a).requests, (f a).result⟩

instance : Monad Traced where
  pure := Traced.pure
  bind := Traced.bind

/-- A panic. -/
def panic (message : String) : Traced α := ⟨[], .error (.panic message)⟩

/-- `Option::expect`. -/
def expect (message : String) : Option α → Traced α
  | none => panic message
  | some a => pure a

/-- `alloc_zeroed`, with `handle_alloc_error` for an allocator that refuses. -/
def allocZeroed (heap : Allocator) (layout : Layout) : Traced ℕ :=
  ⟨[layout], match heap layout with
    | none => .error (.allocError layout)
    | some ptr => .ok ptr⟩

/-- The layout of a region and its allocation.  Without a layout the call panics; `Result::expect` puts the
error behind `message`. -/
def region (heap : Allocator) (message : String) (size align : ℕ) : Traced ℕ := do
  let layout ← expect (message ++ ": LayoutError") (Layout.fromSizeAlign size align)
  allocZeroed heap layout

/-! ## Requests and results -/

section Lemmas

variable {x : Traced α} {f : α → Traced β} {a : α} {b : β} {heap : Allocator} {layout L : Layout} {ptr : ℕ}
  {message : String} {o : Option α}

@[simp] theorem requests_pure : (pure a : Traced α).requests = [] := rfl

@[simp] theorem result_pure : (pure a : Traced α).result = .ok a := rfl

@[simp] theorem requests_panic : (panic message : Traced α).requests = [] := rfl

@[simp] theorem result_panic : (panic message : Traced α).result = .error (.panic message) := rfl

theorem mem_requests_bind :
    L ∈ (x >>= f).requests ↔ L ∈ x.requests ∨ ∃ a, x.result = .ok a ∧ L ∈ (f a).requests := by
  show L ∈ (Traced.bind x f).requests ↔ _
  unfold Traced.bind
  split
  · next e he => simp [he]
  · next a ha => simp [ha]

theorem result_bind_eq_ok :
    (x >>= f).result = .ok b ↔ ∃ a, x.result = .ok a ∧ (f a).result = .ok b := by
  show (Traced.bind x f).result = _ ↔ _
  unfold Traced.bind
  split
  · next e he => simp [he]
  · next a ha => simp [ha]

@[simp] theorem requests_expect : (expect message o).requests = [] := by
  cases o <;> rfl

@[simp] theorem result_expect_eq_ok : (expect message o).result = .ok a ↔ o = some a := by
  cases o <;> simp [expect]

@[simp] theorem requests_allocZeroed : (allocZeroed heap layout).requests = [layout] := rfl

@[simp] theorem result_allocZeroed_eq_ok :
    (allocZeroed heap layout).result = .ok ptr ↔ heap layout = some ptr := by
  unfold allocZeroed
  cases heap layout <;> simp

/-- A region is asked for exactly if there is a layout for it. -/
theorem mem_requests_region {size align : ℕ} :
    L ∈ (region heap message size align).requests ↔ L.size = size ∧ L.align = align := by
  simp [region, mem_requests_bind, Layout.fromSizeAlign_eq_some]

theorem result_region_eq_ok {size align : ℕ} :
    (region heap message size align).result = .ok ptr ↔
      ∃ L : Layout, (L.size = size ∧ L.align = align) ∧ heap L = some ptr := by
  simp [region, result_bind_eq_ok, Layout.fromSizeAlign_eq_some]

end Lemmas

/-! ## Requests of a rounded size -/

/-- A call that rounds a word up and asks for that many bytes, `n` times over: the layouts cover what was
wanted exactly if rounding up does not fail.  When it fails the size is zero, and the request is made. -/
theorem forall_covers_iff {x : Traced α} {k n request : ℕ} (hk : k < 64) (hn : 0 < n)
    (hlt : request < 2 ^ 64)
    (hx : ∀ L, L ∈ x.requests ↔ L.size = n * alignUp 64 request (2 ^ k) ∧ L.align = 2 ^ k) :
    (∀ L ∈ x.requests, ∃ size, L.size = n * size ∧ Covers (2 ^ k) request size) ↔
      0 < request ∧ request + 2 ^ k ≤ 2 ^ 64 := by
  constructor
  · intro h
    by_contra hends
    have hzero := alignUp_eq_zero hk.le hlt hends
    obtain ⟨size, hsize, hcovers⟩ := h (.empty k hk) ((hx _).mpr ⟨by rw [hzero]; rfl, rfl⟩)
    have hprod : 0 = n * size := hsize
    exact absurd (Nat.mul_pos hn hcovers.pos) (by omega)
  · rintro ⟨hpos, hsum⟩ L hL
    exact ⟨_, ((hx L).mp hL).1, covers_alignUp hk.le hpos hsum⟩

/-- The same for a call that asks for one region. -/
theorem forall_covers_iff_one {x : Traced α} {k request : ℕ} (hk : k < 64) (hlt : request < 2 ^ 64)
    (hx : ∀ L, L ∈ x.requests ↔ L.size = alignUp 64 request (2 ^ k) ∧ L.align = 2 ^ k) :
    (∀ L ∈ x.requests, Covers (2 ^ k) request L.size) ↔ 0 < request ∧ request + 2 ^ k ≤ 2 ^ 64 := by
  simpa using forall_covers_iff hk Nat.one_pos hlt (by simpa using hx)

end Traced

end ZeroKv
