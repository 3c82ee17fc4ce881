/-
# ZeroKv.Pages — rounding up to pages, at the three places where a buffer is allocated.

`MappedLog::open`, `AlignedBuf::new` and `RegisteredBuffers::register` round a length up with one bit trick and
hand the result to the allocator, whose contract excludes a size of zero.  Each has a comment that says the size
is positive.

The trick fails at both ends of the range.  Zero is a multiple of the page already, and only `register` raises
its argument to one before it rounds.  A length within a page of `2 ^ 64` wraps, and what comes out is zero
again.  Neither is refused later: zero bytes have a layout, and zero times `count` does not overflow.  Between
the ends the rounding is right, and these are all the cases.
-/
import ZeroKv.DirectIo
import ZeroKv.Regbuf.Pool
import ZeroKv.Store.MappedLog

namespace ZeroKv.Pages

open DirectIo Regbuf Store

variable {heap : Allocator}

/-! ## The three places -/

theorem openIn_legal_iff {cap : ℕ} (hcap : cap < 2 ^ 64) (io : Except ℕ (List UInt8)) :
    ((∀ L ∈ (MappedLog.openIn heap io cap).requests, Covers Store.page cap L.size) ∧
        ∀ log, (MappedLog.openIn heap io cap).result = .ok (.ok log) → cap ≤ log.cap) ↔
      0 < cap ∧ cap + Store.page ≤ 2 ^ 64 := by
  have hrequests := Traced.forall_covers_iff_one (k := 12) (by omega) hcap
    fun L => @MappedLog.mem_requests_openIn heap io cap L
  refine (and_iff_left_of_imp fun hcovers log hlog => ?_).trans hrequests
  obtain ⟨hpos, hsum⟩ := hrequests.mp hcovers
  obtain ⟨file, -, rfl, -⟩ := MappedLog.result_openIn hlog
  rw [MappedLog.cap_loaded]
  exact (covers_alignUp (k := 12) (by omega) hpos hsum).le

theorem newBuf_legal_iff {len : ℕ} (hlen : len < 2 ^ 64) :
    ((∀ L ∈ (AlignedBuf.new heap len).requests, Covers AlignedBuf.align len L.size) ∧
        ∀ buf, (AlignedBuf.new heap len).result = .ok buf → len ≤ buf.len) ↔
      0 < len ∧ len + AlignedBuf.align ≤ 2 ^ 64 := by
  have hrequests := Traced.forall_covers_iff_one (k := 12) (by omega) hlen
    fun L => @mem_requests_newBuf heap len L
  refine (and_iff_left_of_imp fun hcovers buf hbuf => ?_).trans hrequests
  obtain ⟨hpos, hsum⟩ := hrequests.mp hcovers
  rw [len_newBuf hbuf]
  exact (covers_alignUp (k := 12) (by omega) hpos hsum).le

/-- The length of a read is the longer of its two arguments.  A vector is never within a page of `2 ^ 64`. -/
theorem newRead_legal_iff (source : ByteVec) {bufLen : ℕ} (hlen : bufLen < 2 ^ 64) :
    ((∀ L ∈ (DirectIoRead.new heap source bufLen).requests,
          Covers AlignedBuf.align (max bufLen source.1.length) L.size) ∧
        ∀ read, (DirectIoRead.new heap source bufLen).result = .ok read →
          bufLen ≤ read.buf.len ∧ source.1.length ≤ read.buf.len) ↔
      (0 < bufLen ∨ source.1 ≠ []) ∧ bufLen + AlignedBuf.align ≤ 2 ^ 64 := by
  have hsource := source.2
  have halign : AlignedBuf.align = 4096 := rfl
  -- a vector is shorter than `2 ^ 63`, so only `bufLen` can reach the upper end
  have hends : (0 < bufLen ∨ source.1 ≠ []) ∧ bufLen + AlignedBuf.align ≤ 2 ^ 64 ↔
      0 < max bufLen source.1.length ∧ max bufLen source.1.length + AlignedBuf.align ≤ 2 ^ 64 := by
    rw [← List.length_pos_iff, lt_max_iff]
    omega
  rw [hends, ← @newBuf_legal_iff heap _ (by omega)]
  refine and_congr (forall_congr' fun L => by rw [mem_requests_newRead]) ?_
  constructor
  · intro h buf hbuf
    exact max_le_iff.mpr (h _ (result_newRead.mpr ⟨buf, hbuf, rfl⟩))
  · intro h read hread
    obtain ⟨buf, hbuf, rfl⟩ := result_newRead.mp hread
    exact max_le_iff.mp (h buf hbuf)

theorem registerIn_legal_iff {count bufLen : ℕ} (hlen : bufLen < 2 ^ 64) :
    ((∀ L ∈ (registerIn heap count bufLen).requests,
          ∃ size, L.size = count * size ∧ Covers Regbuf.page bufLen size ∧
            Covers Regbuf.page (count * bufLen) L.size) ∧
        ∀ p, (registerIn heap count bufLen).result = .ok p → bufLen ≤ p.bufLen) ↔
      (0 < count ∧ count ≤ 2 ^ 16 - 1 → bufLen + Regbuf.page ≤ 2 ^ 64) := by
  by_cases hcount : 0 < count ∧ count ≤ 2 ^ 16 - 1
  · -- what is rounded is `max bufLen 1`, which leaves only the upper end
    have hends : bufLen + Regbuf.page ≤ 2 ^ 64 ↔
        0 < max bufLen 1 ∧ max bufLen 1 + Regbuf.page ≤ 2 ^ 64 := by
      have hpage : Regbuf.page = 4096 := rfl
      omega
    have hrequests : (∀ L ∈ (registerIn heap count bufLen).requests,
          ∃ size, L.size = count * size ∧ Covers Regbuf.page (max bufLen 1) size) ↔
        0 < max bufLen 1 ∧ max bufLen 1 + Regbuf.page ≤ 2 ^ 64 :=
      Traced.forall_covers_iff (k := 12) (by omega) hcount.1 (by omega)
        fun L => (@mem_requests_registerIn heap count bufLen L).trans (and_iff_right hcount)
    rw [imp_iff_right hcount, hends, ← hrequests]
    constructor
    · rintro ⟨hcovers, -⟩ L hL
      obtain ⟨size, hsize, hcover, -⟩ := hcovers L hL
      exact ⟨size, hsize, covers_max_one.mpr hcover⟩
    · intro hcovers
      refine ⟨fun L hL => ?_, fun p hp => ?_⟩
      · obtain ⟨size, hsize, hcover⟩ := hcovers L hL
        rw [covers_max_one] at hcover
        exact ⟨size, hsize, hcover, hsize ▸ hcover.mul hcount.1⟩
      · obtain ⟨hpos, hsum⟩ := hrequests.mp hcovers
        rw [(registered_of_register (register_of_registerIn hp)).bufLen_eq]
        exact (covers_max_one.mp (covers_alignUp (k := 12) (by omega) hpos hsum)).le
  · -- a count that is refused makes no request and returns no pool
    refine iff_of_true ⟨fun L hL => ?_, fun p hp => ?_⟩ fun h => absurd h hcount
    · exact absurd (mem_requests_registerIn.mp hL).1 hcount
    · have hreg := registered_of_register (register_of_registerIn hp)
      exact absurd ⟨hreg.count_pos, hreg.count_le⟩ hcount

/-! ## All of them -/

/-- Whatever the allocator answers, every region that is asked for is made of whole pages, is not empty and has
room for the request, and so has the buffer that is returned, exactly between the ends of the range: for `open`
and for a buffer above zero and not within a page of `2 ^ 64`; for a read if one of its two lengths is above
zero and the buffer's is not within a page of `2 ^ 64`; for `register`, when it takes the count, if the length
is not within a page of `2 ^ 64`. -/
theorem rounding_legal_iff (heap : Allocator) :
    (∀ cap < 2 ^ 64, ∀ io : Except ℕ (List UInt8),
      ((∀ L ∈ (MappedLog.openIn heap io cap).requests, Covers Store.page cap L.size) ∧
          ∀ log, (MappedLog.openIn heap io cap).result = .ok (.ok log) → cap ≤ log.cap) ↔
        0 < cap ∧ cap + Store.page ≤ 2 ^ 64) ∧
    (∀ len < 2 ^ 64,
      ((∀ L ∈ (AlignedBuf.new heap len).requests, Covers AlignedBuf.align len L.size) ∧
          ∀ buf, (AlignedBuf.new heap len).result = .ok buf → len ≤ buf.len) ↔
        0 < len ∧ len + AlignedBuf.align ≤ 2 ^ 64) ∧
    (∀ source : ByteVec, ∀ bufLen < 2 ^ 64,
      ((∀ L ∈ (DirectIoRead.new heap source bufLen).requests,
            Covers AlignedBuf.align (max bufLen source.1.length) L.size) ∧
          ∀ read, (DirectIoRead.new heap source bufLen).result = .ok read →
            bufLen ≤ read.buf.len ∧ source.1.length ≤ read.buf.len) ↔
        (0 < bufLen ∨ source.1 ≠ []) ∧ bufLen + AlignedBuf.align ≤ 2 ^ 64) ∧
    ∀ count, ∀ bufLen < 2 ^ 64,
      ((∀ L ∈ (registerIn heap count bufLen).requests,
            ∃ size, L.size = count * size ∧ Covers Regbuf.page bufLen size ∧
              Covers Regbuf.page (count * bufLen) L.size) ∧
          ∀ p, (registerIn heap count bufLen).result = .ok p → bufLen ≤ p.bufLen) ↔
        (0 < count ∧ count ≤ 2 ^ 16 - 1 → bufLen + Regbuf.page ≤ 2 ^ 64) :=
  ⟨fun _ hcap io => openIn_legal_iff hcap io, fun _ hlen => newBuf_legal_iff hlen,
    fun source _ hlen => newRead_legal_iff source hlen, fun _ _ hlen => registerIn_legal_iff hlen⟩

/-- An allocator that never refuses. -/
def granting : Allocator := fun _ => some 8192

theorem rounding_legal_iff_page :
    (MappedLog.openIn granting (.ok []) 100).requests.map Layout.size = [4096] ∧
      (∀ L ∈ (MappedLog.openIn granting (.ok []) 100).requests, Covers Store.page 100 L.size) ∧
      (∀ buf, (AlignedBuf.new granting 5000).result = .ok buf → 5000 ≤ buf.len) ∧
      (∀ read, (DirectIoRead.new granting ⟨[7], by decide⟩ 0).result = .ok read → 1 ≤ read.buf.len) ∧
      (registerIn granting 3 100).requests.map Layout.size = [12288] ∧
      ∀ p, (registerIn granting 3 100).result = .ok p → 100 ≤ p.bufLen := by
  obtain ⟨hopen, hnew, hread, hregister⟩ := rounding_legal_iff granting
  refine ⟨by decide, ?_, ?_, ?_, by decide, ?_⟩
  · exact ((hopen 100 (by decide) (.ok [])).mpr (by decide)).1
  · exact ((hnew 5000 (by decide)).mpr (by decide)).2
  · exact fun read h => (((hread _ 0 (by decide)).mpr (by decide)).2 read h).2
  · exact ((hregister 3 100 (by decide)).mpr fun _ => by decide).2

/-- The layout of no bytes, on a page boundary. -/
def nothing : Layout := .empty 12 (by decide)

/-- Requests for no bytes at all: at zero, except for `register`, and at the other end of the range, where the
read then panics because its buffer has no room for its source. -/
theorem rounding_asks_for_nothing :
    (∀ request, ¬ Covers Store.page request nothing.size) ∧
      (MappedLog.openIn granting (.ok []) 0).requests = [nothing] ∧
      (MappedLog.openIn granting (.ok []) (2 ^ 64 - 1)).requests = [nothing] ∧
      (AlignedBuf.new granting 0).requests = [nothing] ∧
      (AlignedBuf.new granting (2 ^ 64 - 1)).requests = [nothing] ∧
      (DirectIoRead.new granting ⟨[], by decide⟩ 0).requests = [nothing] ∧
      (registerIn granting 1 (2 ^ 64 - 1)).requests = [nothing] ∧
      ∃ read q, (DirectIoRead.new granting ⟨[7], by decide⟩ (2 ^ 64 - 1)).result = .ok read ∧
        (read.poll granting).result = .ok q ∧
          (q.read.poll granting).result =
            .error (.panic "range end index 1 out of range for slice of length 0") := by
  refine ⟨fun request h => absurd h.pos (by decide), by decide, by decide, by decide, by decide, by decide,
    by decide, ?_⟩
  have hread : (DirectIoRead.new granting ⟨[7], by decide⟩ (2 ^ 64 - 1)).result =
      .ok { buf := { ptr := 8192, bytes := [] }, source := ⟨[7], by decide⟩, submitted := false } := rfl
  exact ⟨_, _, hread, rfl, rfl⟩

end ZeroKv.Pages
