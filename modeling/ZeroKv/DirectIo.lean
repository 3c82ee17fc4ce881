/-
# ZeroKv.DirectIo — the page-aligned buffer, and the read that fills it.

`DirectIoRead` allocates a buffer for its source, wakes its task in the first poll, and in the second copies
the source to the start of the buffer and moves the buffer out.  A fresh page takes its place, so that a future
that is polled once more than it should be still has a buffer.

The copy goes through a slice of the buffer and panics if the source is longer.  Whether that can happen is a
matter of the rounding in `AlignedBuf::new`.  What the polls deliver does not depend on it: in every run, each
buffer handed out holds the source and zeros after it.
-/
import ZeroKv.Lib.Alloc
import ZeroKv.Lib.Machine

namespace ZeroKv.DirectIo

/-! ## The code -/

/-- `Vec<u8>`, which is at most `isize::MAX` bytes long. -/
abbrev ByteVec := { bytes : List UInt8 // bytes.length < 2 ^ 63 }

/-- `AlignedBuf`: an address and the bytes there, `len` many. -/
structure AlignedBuf where
  ptr : ℕ
  bytes : List UInt8

namespace AlignedBuf

/-- `ALIGN`. -/
def align : ℕ := 4096

def len (buf : AlignedBuf) : ℕ := buf.bytes.length

def new (heap : Allocator) (len : ℕ) : Traced AlignedBuf := do
  let ptr ← Traced.region heap "layout" (alignUp 64 len align) align
  pure { ptr := ptr, bytes := List.replicate (alignUp 64 len align) 0 }

/-- The buffer with `source` at its start. -/
def filled (buf : AlignedBuf) (source : List UInt8) : AlignedBuf :=
  { buf with bytes := source ++ buf.bytes.drop source.length }

/-- `as_mut_slice()[..n].copy_from_slice(source)`, where `n` is the length of the source. -/
def copyFromSlice (buf : AlignedBuf) (source : List UInt8) : Traced AlignedBuf :=
  if source.length ≤ buf.len then pure (buf.filled source)
  else Traced.panic ("range end index " ++ toString source.length ++ " out of range for slice of length "
    ++ toString buf.len)

/-- The layout that `drop` hands to `dealloc`. -/
def dropLayout (buf : AlignedBuf) : Option Layout := Layout.fromSizeAlign buf.len align

end AlignedBuf

/-- `DirectIoRead`. -/
structure DirectIoRead where
  buf : AlignedBuf
  source : ByteVec
  submitted : Bool

/-- What a poll leaves and answers: the future, whether the waker was called, and the buffer of `Ready`. -/
structure Polled where
  read : DirectIoRead
  woken : Bool
  ready : Option AlignedBuf

namespace DirectIoRead

/-- `ALIGN_OUT`. -/
def alignOut : ℕ := 4096

def new (heap : Allocator) (source : ByteVec) (bufLen : ℕ) : Traced DirectIoRead := do
  let buf ← AlignedBuf.new heap (max bufLen source.1.length)
  pure { buf := buf, source := source, submitted := false }

def poll (heap : Allocator) (read : DirectIoRead) : Traced Polled :=
  if read.submitted then do
    -- completion: the filled buffer moves out, and a fresh page keeps the future valid
    let out ← read.buf.copyFromSlice read.source.1
    let fresh ← AlignedBuf.new heap alignOut
    pure { read := { read with buf := fresh }, woken := false, ready := some out }
  else
    -- submission: nothing is read, the future wakes itself
    pure { read := { read with submitted := true }, woken := true, ready := none }

end DirectIoRead

/-! ## The buffer -/

section Buffer

variable {heap : Allocator} {len bufLen : ℕ} {buf : AlignedBuf} {source : ByteVec} {read : DirectIoRead}
  {L : Layout}

theorem mem_requests_newBuf :
    L ∈ (AlignedBuf.new heap len).requests ↔
      L.size = alignUp 64 len AlignedBuf.align ∧ L.align = AlignedBuf.align := by
  simp [AlignedBuf.new, Traced.mem_requests_bind, Traced.mem_requests_region]

theorem result_newBuf (h : (AlignedBuf.new heap len).result = .ok buf) :
    buf.bytes = List.replicate (alignUp 64 len AlignedBuf.align) 0 := by
  obtain ⟨ptr, -, hbuf⟩ := Traced.result_bind_eq_ok.mp h
  cases hbuf
  rfl

theorem len_newBuf (h : (AlignedBuf.new heap len).result = .ok buf) :
    buf.len = alignUp 64 len AlignedBuf.align := by
  rw [AlignedBuf.len, result_newBuf h, List.length_replicate]

theorem mem_requests_newRead :
    L ∈ (DirectIoRead.new heap source bufLen).requests ↔
      L ∈ (AlignedBuf.new heap (max bufLen source.1.length)).requests := by
  simp [DirectIoRead.new, Traced.mem_requests_bind]

theorem result_newRead :
    (DirectIoRead.new heap source bufLen).result = .ok read ↔
      ∃ buf, (AlignedBuf.new heap (max bufLen source.1.length)).result = .ok buf ∧
        read = { buf := buf, source := source, submitted := false } := by
  simp [DirectIoRead.new, Traced.result_bind_eq_ok, eq_comm (a := read)]

/-- A buffer is given back with the layout it was asked for with. -/
theorem dropLayout_newBuf (h : (AlignedBuf.new heap len).result = .ok buf)
    (hL : L ∈ (AlignedBuf.new heap len).requests) : buf.dropLayout = some L := by
  rw [AlignedBuf.dropLayout, len_newBuf h, Layout.fromSizeAlign_eq_some]
  exact mem_requests_newBuf.mp hL

end Buffer

/-! ## Polling -/

section Poll

variable {heap : Allocator} {bufLen : ℕ} {buf out : AlignedBuf} {source : ByteVec} {read : DirectIoRead}
  {q : Polled}

theorem len_filled {bytes : List UInt8} (h : bytes.length ≤ buf.len) : (buf.filled bytes).len = buf.len := by
  rw [AlignedBuf.len, AlignedBuf.filled, List.length_append, List.length_drop]
  exact Nat.add_sub_of_le h

/-- Filling a buffer that holds only zeros. -/
theorem bytes_filled {bytes : List UInt8} {n : ℕ} (h : buf.bytes = List.replicate n 0) :
    (buf.filled bytes).bytes = bytes ++ List.replicate (buf.len - bytes.length) 0 := by
  rw [AlignedBuf.filled, AlignedBuf.len, h, List.drop_replicate, List.length_replicate]

theorem result_copyFromSlice {bytes : List UInt8} :
    (buf.copyFromSlice bytes).result = .ok out ↔
      bytes.length ≤ buf.len ∧ out = buf.filled bytes := by
  unfold AlignedBuf.copyFromSlice
  split
  · next h => simp [h, eq_comm]
  · next h => simp [h]

/-- The first poll. -/
theorem poll_fresh (h : read.submitted = false) :
    read.poll heap = pure { read := { read with submitted := true }, woken := true, ready := none } := by
  simp [DirectIoRead.poll, h]

/-- The polls after it. -/
theorem result_poll (h : read.submitted = true) :
    (read.poll heap).result = .ok q ↔
      ∃ out fresh, (read.buf.copyFromSlice read.source.1).result = .ok out ∧
        (AlignedBuf.new heap DirectIoRead.alignOut).result = .ok fresh ∧
          q = { read := { read with buf := fresh }, woken := false, ready := some out } := by
  simp [DirectIoRead.poll, h, Traced.result_bind_eq_ok, eq_comm (a := q)]

/-- A future for `source` between polls: its buffer is in whole pages, and nothing was written to it. -/
structure Intact (source : ByteVec) (read : DirectIoRead) : Prop where
  source_eq : read.source = source
  dvd : AlignedBuf.align ∣ read.buf.len
  zeroed : ∃ n, read.buf.bytes = List.replicate n 0

/-- An answer of a poll: `Pending` with a wake, or `Ready` with the source and zeros after it. -/
def Delivers (source : ByteVec) (q : Polled) : Prop :=
  match q.ready with
  | none => q.woken = true
  | some out => AlignedBuf.align ∣ out.len ∧ source.1.length ≤ out.len ∧
      out.bytes = source.1 ++ List.replicate (out.len - source.1.length) 0

theorem Intact.of_newBuf {len : ℕ} (hlen : len < 2 ^ 64) (h : (AlignedBuf.new heap len).result = .ok buf)
    {submitted : Bool} : Intact source { buf := buf, source := source, submitted := submitted } where
  source_eq := rfl
  dvd := by
    rw [len_newBuf h]
    exact dvd_alignUp (k := 12) (by omega) hlen
  zeroed := ⟨_, result_newBuf h⟩

/-- One poll keeps the future intact, and answers as it should. -/
theorem Intact.poll (h : Intact source read) (hq : (read.poll heap).result = .ok q) :
    Intact source q.read ∧ Delivers source q := by
  obtain ⟨rfl, hdvd, n, hzero⟩ := h
  cases hsub : read.submitted with
  | false =>
      rw [poll_fresh hsub] at hq
      cases hq
      exact ⟨⟨rfl, hdvd, n, hzero⟩, rfl⟩
  | true =>
      obtain ⟨out, fresh, hout, hfresh, rfl⟩ := (result_poll hsub).mp hq
      obtain ⟨hfits, rfl⟩ := result_copyFromSlice.mp hout
      have hlen := len_filled hfits
      -- the page left behind is zeroed as well, so a poll after `Ready` finds what the first one found
      refine ⟨Intact.of_newBuf (by decide) hfresh, hlen ▸ hdvd, hlen ▸ hfits, ?_⟩
      rw [hlen]
      exact bytes_filled hzero

end Poll

/-- The polls of one future, each under an allocator of its own. -/
def machine (source : ByteVec) (bufLen : ℕ) : Machine DirectIoRead Allocator where
  init read := ∃ heap, (DirectIoRead.new heap source bufLen).result = .ok read
  step read heap read' := ∃ q, (read.poll heap).result = .ok q ∧ q.read = read'

/-- However often a read is polled, before and after it is ready: a poll that returns answers `Pending` with a
wake, or delivers whole pages that hold the source and zeros after it. -/
theorem polls_deliver {source : ByteVec} {bufLen : ℕ} (hlen : bufLen < 2 ^ 64) {read : DirectIoRead}
    (hr : (machine source bufLen).Reachable read) {heap : Allocator} {q : Polled}
    (hq : (read.poll heap).result = .ok q) : Delivers source q := by
  have hintact : Intact source read := by
    refine hr.invariant ?_ ?_
    · rintro read ⟨heap, hnew⟩
      obtain ⟨buf, hbuf, rfl⟩ := result_newRead.mp hnew
      have hsource := source.2
      exact Intact.of_newBuf (by omega) hbuf
    · rintro read heap read' - h ⟨q, hq, rfl⟩
      exact (h.poll hq).1
  exact (hintact.poll hq).2

/-- A read for a length that is rounded up correctly is ready in its second poll, if the allocator has a page
left for the future. -/
theorem read_completes {heap heap₁ heap₂ : Allocator} {source : ByteVec} {bufLen : ℕ} {read : DirectIoRead}
    {page : AlignedBuf} (hsum : bufLen + AlignedBuf.align ≤ 2 ^ 64)
    (hnew : (DirectIoRead.new heap source bufLen).result = .ok read)
    (hpage : (AlignedBuf.new heap₂ DirectIoRead.alignOut).result = .ok page) :
    ∃ q₁ q₂, (read.poll heap₁).result = .ok q₁ ∧ q₁.ready = none ∧ q₁.woken = true ∧
      (q₁.read.poll heap₂).result = .ok q₂ ∧
        q₂.ready = some { ptr := read.buf.ptr,
                          bytes := source.1 ++ List.replicate (read.buf.len - source.1.length) 0 } := by
  obtain ⟨buf, hbuf, rfl⟩ := result_newRead.mp hnew
  have hsource := source.2
  have halign : AlignedBuf.align = 4096 := rfl
  have hfits : source.1.length ≤ buf.len := by
    rw [len_newBuf hbuf]
    exact (le_max_right _ _).trans (alignUp_spec (k := 12) (by omega) (by omega)).2.1
  let last : Polled := { read := { buf := page, source := source, submitted := true }, woken := false,
                         ready := some (buf.filled source.1) }
  refine ⟨_, last, by rw [poll_fresh rfl]; rfl, rfl, rfl, ?_, ?_⟩
  · exact (result_poll rfl).mpr ⟨_, _, result_copyFromSlice.mpr ⟨hfits, rfl⟩, hpage, rfl⟩
  · have hbytes := @bytes_filled buf source.1 _ (result_newBuf hbuf)
    exact congrArg some (by rw [← hbytes]; rfl)

end ZeroKv.DirectIo
