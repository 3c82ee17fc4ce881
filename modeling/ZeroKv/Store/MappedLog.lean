/-
# ZeroKv.Store.MappedLog — the write-ahead log, a buffer with a table of the records in it.

`mmap_log.rs` keeps one buffer of `cap` bytes, an append cursor and the spans of the records that were
appended since the log was opened.  A span is a pointer into the buffer; here it is an offset.  The
buffer never moves, so an offset and a pointer say the same.

What the rest of the development needs are two views of the buffer: `data`, the populated prefix, which
is what `flush` writes, and `records`, what the spans point at.  An append that fits adds its bytes to
both; an append that does not fit changes nothing and says so with `none`.

`open` is the log for a capacity that can be allocated, in unbounded numbers.  The last section has the call as
it is, with the rounding in machine words and the allocation, and shows that it returns no other logs.
-/
import Mathlib.Data.List.Basic
import ZeroKv.Lib.Alloc

namespace ZeroKv.Store

abbrev Bytes := List UInt8

/-- `PAGE`. -/
def page : ℕ := 4096

/-- The capacity that `open` gives, a multiple of the page size. -/
def roundUp (cap : ℕ) : ℕ := (cap + page - 1) / page * page

theorem le_roundUp (cap : ℕ) : cap ≤ roundUp cap := by
  unfold roundUp page
  omega

theorem roundUp_mono {cap cap' : ℕ} (h : cap ≤ cap') : roundUp cap ≤ roundUp cap' := by
  unfold roundUp page
  omega

/-- `MappedLog`.  `base` is the buffer, `spans` the offset and length of every record, `file` the
contents of the backing file. -/
structure MappedLog where
  base : Bytes
  len : ℕ
  spans : List (ℕ × ℕ)
  file : Bytes
  len_le : len ≤ base.length
  spans_le : ∀ s ∈ spans, s.1 + s.2 ≤ len

namespace MappedLog

/-- `capacity`. -/
def cap (log : MappedLog) : ℕ := log.base.length

/-- The log over a region of `cap` bytes: the old contents of the file, as far as they fit, and zeros. -/
def loaded (file : Bytes) (cap : ℕ) : MappedLog where
  base := file.take cap ++ List.replicate (cap - file.length) 0
  len := min file.length cap
  spans := []
  file := file
  len_le := by
    simp only [List.length_append, List.length_take, List.length_replicate]
    omega
  spans_le := nofun

/-- `open`, for a capacity that can be allocated.  `openIn` is the whole call. -/
def «open» (file : Bytes) (cap : ℕ) : MappedLog := loaded file (roundUp cap)

/-- The log after `bytes` were copied to the cursor. -/
def push (log : MappedLog) (bytes : Bytes) : MappedLog where
  base := log.base.take log.len ++ bytes ++ log.base.drop (log.len + bytes.length)
  len := log.len + bytes.length
  spans := log.spans ++ [(log.len, bytes.length)]
  file := log.file
  len_le := by
    have := log.len_le
    simp only [List.length_append, List.length_take, List.length_drop]
    omega
  spans_le := by
    intro s hs
    rcases List.mem_append.mp hs with hs | hs
    · exact (log.spans_le s hs).trans (Nat.le_add_right _ _)
    · rw [List.mem_singleton.mp hs]

/-- `append`: the index of the new record, `none` when the region is full. -/
def append (log : MappedLog) (bytes : Bytes) : MappedLog × Option ℕ :=
  if log.len + bytes.length ≤ log.cap then (log.push bytes, some log.spans.length)
  else (log, none)

/-- The bytes a span points at. -/
def slice (log : MappedLog) (s : ℕ × ℕ) : Bytes := (log.base.drop s.1).take s.2

/-- `record`. -/
def record (log : MappedLog) (index : ℕ) : Option Bytes := log.spans[index]?.map log.slice

/-- `flush`: write the populated prefix at the start of the file.  With `some n` the write stops with an
error after `n` bytes. -/
def flush (log : MappedLog) (fails : Option ℕ) : MappedLog × Bool :=
  let written := match fails with
    | none => log.len
    | some n => min n log.len
  ({ log with file := log.base.take written ++ log.file.drop written }, fails.isNone)

/-! ## What the log holds -/

/-- The populated prefix. -/
def data (log : MappedLog) : Bytes := log.base.take log.len

/-- Every record, in the order of the appends. -/
def records (log : MappedLog) : List Bytes := log.spans.map log.slice

theorem record_eq (log : MappedLog) (index : ℕ) : log.record index = log.records[index]? := by
  rw [record, records, List.getElem?_map]

theorem length_data (log : MappedLog) : log.data.length = log.len := by
  rw [data, List.length_take, min_eq_left log.len_le]

/-- A record lies in the populated prefix, so later appends do not touch it. -/
theorem slice_eq (log : MappedLog) {s : ℕ × ℕ} (hs : s.1 + s.2 ≤ log.len) :
    log.slice s = (log.data.drop s.1).take s.2 := by
  rw [slice, data, List.drop_take, List.take_take, min_eq_left (by omega)]

section Open

variable (file : Bytes) (size : ℕ)

theorem cap_loaded : (loaded file size).cap = size := by
  simp only [loaded, cap, List.length_append, List.length_take, List.length_replicate]
  omega

@[simp] theorem cap_open : («open» file size).cap = roundUp size := cap_loaded file (roundUp size)

@[simp] theorem records_open : («open» file size).records = [] := rfl

theorem data_open : («open» file size).data = file.take (roundUp size) := by
  show List.take (min file.length (roundUp size)) (_ ++ _) = _
  rw [List.take_append_of_le_length (by simp [min_comm]), List.take_take]
  rcases le_total file.length (roundUp size) with h | h
  · rw [min_eq_left h, min_eq_left h, List.take_of_length_le h, List.take_length]
  · rw [min_eq_right h, min_self]

end Open

section Append

variable {log : MappedLog} {bytes : Bytes}

theorem append_of_le (h : log.len + bytes.length ≤ log.cap) :
    log.append bytes = (log.push bytes, some log.spans.length) := if_pos h

theorem append_of_lt (h : log.cap < log.len + bytes.length) : log.append bytes = (log, none) :=
  if_neg (Nat.not_le.mpr h)

@[simp] theorem cap_push (h : log.len + bytes.length ≤ log.cap) : (log.push bytes).cap = log.cap := by
  have hcap : log.base.length = log.cap := rfl
  have := log.len_le
  simp only [push, cap, List.length_append, List.length_take, List.length_drop] at h ⊢
  omega

theorem data_push : (log.push bytes).data = log.data ++ bytes := by
  have hlen : (log.base.take log.len ++ bytes).length = log.len + bytes.length := by
    rw [List.length_append, List.length_take, min_eq_left log.len_le]
  show List.take (log.len + bytes.length) (_ ++ _) = _
  rw [← hlen, List.take_left]
  rfl

theorem records_push : (log.push bytes).records = log.records ++ [bytes] := by
  have hold : log.spans.map (log.push bytes).slice = log.spans.map log.slice := by
    refine List.map_congr_left fun s hs => ?_
    have hs := log.spans_le s hs
    rw [slice_eq _ (hs.trans (Nat.le_add_right _ _)), slice_eq _ hs, data_push,
      List.drop_append_of_le_length (by rw [length_data]; omega),
      List.take_append_of_le_length (by rw [List.length_drop, length_data]; omega)]
  have hnew : (log.push bytes).slice (log.len, bytes.length) = bytes := by
    rw [slice_eq _ (le_refl _), data_push]
    show ((log.data ++ bytes).drop log.len).take bytes.length = bytes
    rw [← log.length_data, List.drop_left, List.take_length]
  show (log.spans ++ [_]).map (log.push bytes).slice = _
  rw [List.map_append, hold, List.map_singleton, hnew]
  rfl

@[simp] theorem cap_append : (log.append bytes).1.cap = log.cap := by
  unfold append
  split
  · next h => exact cap_push h
  · rfl

end Append

/-! ## Flushing and opening again -/

@[simp] theorem data_flush (log : MappedLog) (fails : Option ℕ) : (log.flush fails).1.data = log.data := rfl

/-- A flush that succeeds leaves the populated prefix at the start of the file. -/
theorem file_flush (log : MappedLog) : (log.flush none).1.file = log.data ++ log.file.drop log.len := rfl

/-- What was flushed over a file that is not longer is there again when the file is opened with as much
room. -/
theorem data_reopen {log : MappedLog} {size : ℕ} (hfile : log.file.length ≤ log.len)
    (hsize : log.cap ≤ roundUp size) :
    («open» (log.flush none).1.file size).data = log.data := by
  have hle : log.len ≤ log.cap := log.len_le
  rw [data_open, file_flush, List.drop_of_length_le hfile, List.append_nil,
    List.take_of_length_le (by rw [length_data]; omega)]

/-! ## The file along a session

A flush writes the populated prefix over the start of the file and cuts nothing off.  Both the prefix
and the file are beginnings of one byte string, the old contents followed by what was appended, so the
write can only make the file a longer beginning of it.  An oversized file is the one case where the
populated prefix is not all of that string; then the buffer is full from the start, nothing but an empty
record fits, and every flush writes bytes the file already has. -/

/-- The calls that change a log.  `flush (some n)` is a flush that fails after `n` bytes, which is also
what the file looks like in the middle of any flush. -/
inductive Call
  | append (bytes : Bytes)
  | flush (fails : Option ℕ)

/-- The log after a call. -/
def Call.run (log : MappedLog) : Call → MappedLog
  | .append bytes => (log.append bytes).1
  | .flush fails => (log.flush fails).1

/-- What a call appended: its record when `append` gave an index, nothing otherwise. -/
def Call.added (log : MappedLog) : Call → Bytes
  | .append bytes => if (log.append bytes).2.isSome then bytes else []
  | .flush _ => []

/-- The log after a session. -/
def run (log : MappedLog) (calls : List Call) : MappedLog := calls.foldl Call.run log

/-- The concatenation of the records that a session appended. -/
def appended : MappedLog → List Call → Bytes
  | _, [] => []
  | log, c :: calls => c.added log ++ appended (c.run log) calls

/-- Writing one beginning of a string over another leaves the longer of the two. -/
theorem overwrite_prefix {p y x : Bytes} (hp : p <+: x) (hy : y <+: x) :
    p ++ y.drop p.length = p ∧ y <+: p ∨ p ++ y.drop p.length = y ∧ p <+: y := by
  rcases List.prefix_or_prefix_of_prefix hp hy with h | h
  · refine Or.inr ⟨?_, h⟩
    obtain ⟨t, rfl⟩ := h
    rw [List.drop_left]
  · refine Or.inl ⟨?_, h⟩
    rw [List.drop_of_length_le h.length_le, List.append_nil]

/-- The log after `added` was appended to the contents `old` of the file. -/
structure Extends (old : Bytes) (log : MappedLog) (added : Bytes) : Prop where
  old_le : old <+: log.file
  file_le : log.file <+: old ++ added
  data_le : log.data <+: old ++ added
  full : log.data = old ++ added ∨ added = [] ∧ log.len = log.cap

namespace Extends

variable {old added : Bytes} {log : MappedLog}

theorem start (old : Bytes) (size : ℕ) : Extends old («open» old size) [] := by
  refine ⟨List.prefix_rfl, ?_, ?_, ?_⟩
  · exact List.prefix_append old []
  · rw [data_open, List.append_nil]
    exact List.take_prefix _ _
  · rw [data_open, List.append_nil]
    rcases le_total old.length (roundUp size) with h | h
    · exact Or.inl (List.take_of_length_le h)
    · refine Or.inr ⟨rfl, ?_⟩
      rw [cap_open]
      exact min_eq_right h

theorem push (h : Extends old log added) {bytes : Bytes}
    (hfit : log.len + bytes.length ≤ log.cap) :
    Extends old (log.push bytes) (added ++ bytes) := by
  have hfile : log.file <+: old ++ (added ++ bytes) := by
    rw [← List.append_assoc]
    exact h.file_le.trans (List.prefix_append _ _)
  rcases h.full with hdata | ⟨hnone, hcap⟩
  · have hnew : (log.push bytes).data = old ++ (added ++ bytes) := by
      rw [data_push, hdata, List.append_assoc]
    exact ⟨h.old_le, hfile, hnew ▸ List.prefix_rfl, Or.inl hnew⟩
  · -- the buffer is full, so the record is empty
    obtain rfl : bytes = [] := List.eq_nil_of_length_eq_zero (by omega)
    have hsame : (log.push []).data = log.data := by rw [data_push, List.append_nil]
    rw [List.append_nil] at hfile ⊢
    refine ⟨h.old_le, hfile, hsame ▸ h.data_le, Or.inr ⟨hnone, ?_⟩⟩
    rw [cap_push hfit]
    exact hcap

/-- The file after a write of the first `written` bytes of the buffer. -/
theorem write (h : Extends old log added) {written : ℕ} (hw : written ≤ log.len) :
    old <+: log.base.take written ++ log.file.drop written ∧
      log.base.take written ++ log.file.drop written <+: old ++ added := by
  have hle : written ≤ log.base.length := hw.trans log.len_le
  have hp : log.base.take written <+: old ++ added :=
    (List.take_prefix_take_left hw).trans h.data_le
  have hlen : (log.base.take written).length = written := by
    rw [List.length_take, min_eq_left hle]
  have := overwrite_prefix hp h.file_le
  rw [hlen] at this
  rcases this with ⟨heq, hlong⟩ | ⟨heq, _⟩
  · rw [heq]
    exact ⟨h.old_le.trans hlong, hp⟩
  · rw [heq]
    exact ⟨h.old_le, h.file_le⟩

theorem flush (h : Extends old log added) (fails : Option ℕ) :
    Extends old (log.flush fails).1 added := by
  have hw : (match fails with | none => log.len | some n => min n log.len) ≤ log.len := by
    cases fails with
    | none => exact le_refl _
    | some n => exact min_le_right _ _
  obtain ⟨hold, hfile⟩ := h.write hw
  exact ⟨hold, hfile, h.data_le, h.full⟩

/-- A flush that succeeds completes the file. -/
theorem file_flush_none (h : Extends old log added) :
    (log.flush none).1.file = old ++ added := by
  rcases h.full with hdata | ⟨rfl, _⟩
  · have : log.file.drop log.len = [] := by
      refine List.drop_of_length_le ?_
      rw [← log.length_data, hdata]
      exact h.file_le.length_le
    rw [file_flush, this, List.append_nil, hdata]
  · have hle := (h.flush none).file_le
    rw [List.append_nil] at hle ⊢
    exact hle.eq_of_length_le (h.flush none).old_le.length_le

/-- One call of a session. -/
theorem call (h : Extends old log added) (c : Call) :
    Extends old (c.run log) (added ++ c.added log) := by
  cases c with
  | flush fails =>
      rw [Call.added, List.append_nil]
      exact h.flush fails
  | append bytes =>
      rcases Nat.lt_or_ge log.cap (log.len + bytes.length) with hbig | hfit
      · simpa [Call.run, Call.added, append_of_lt hbig] using h
      · simpa [Call.run, Call.added, append_of_le hfit] using h.push hfit

theorem session (h : Extends old log added) (calls : List Call) :
    Extends old (run log calls) (added ++ appended log calls) := by
  induction calls generalizing log added with
  | nil => simpa [run, appended] using h
  | cons c calls ih =>
      have := ih (h.call c)
      rwa [List.append_assoc] at this

end Extends

/-- The file is never clobbered: whatever was appended and however many flushes failed on the way, it is
the old contents followed by a beginning of what was appended, and by all of it after a flush that
succeeds. -/
theorem file_run (old : Bytes) (size : ℕ) (calls : List Call) :
    let log := run («open» old size) calls
    let added := appended («open» old size) calls
    (∃ written, written <+: added ∧ log.file = old ++ written) ∧
      (log.flush none).1.file = old ++ added := by
  have h : Extends old (run («open» old size) calls) (appended («open» old size) calls) := by
    simpa using (Extends.start old size).session calls
  refine ⟨?_, h.file_flush_none⟩
  obtain ⟨written, hwritten⟩ := h.old_le
  refine ⟨written, ?_, hwritten.symm⟩
  have hle := h.file_le
  rw [← hwritten] at hle
  exact (List.prefix_append_right_inj old).mp hle

/-! ## The records along a session

The index holds spans of one buffer that later appends keep writing to.  They never write below the
cursor, and every span ends at or below it: the spans tile the stretch between the loaded contents and the
cursor. -/

/-- The record a call appended, when `append` gave an index. -/
def Call.accepted (log : MappedLog) : Call → List Bytes
  | .append bytes => if (log.append bytes).2.isSome then [bytes] else []
  | .flush _ => []

/-- The records that a session appended, in order. -/
def accepted : MappedLog → List Call → List Bytes
  | _, [] => []
  | log, c :: calls => c.accepted log ++ accepted (c.run log) calls

/-- Spans that follow one another without a gap, from `start` to `stop`. -/
def Tiles (start : ℕ) : List (ℕ × ℕ) → ℕ → Prop
  | [], stop => start = stop
  | s :: spans, stop => s.1 = start ∧ Tiles (s.1 + s.2) spans stop

namespace Tiles

variable {start stop n : ℕ} {spans : List (ℕ × ℕ)} {s : ℕ × ℕ}

theorem le (h : Tiles start spans stop) : start ≤ stop := by
  induction spans generalizing start with
  | nil => exact le_of_eq h
  | cons s spans ih =>
      obtain ⟨rfl, h⟩ := h
      exact (Nat.le_add_right _ _).trans (ih h)

theorem concat (h : Tiles start spans stop) : Tiles start (spans ++ [(stop, n)]) (stop + n) := by
  induction spans generalizing start with
  | nil =>
      obtain rfl : start = stop := h
      exact ⟨rfl, rfl⟩
  | cons s spans ih => exact ⟨h.1, ih h.2⟩

/-- Every span lies between the two ends. -/
theorem within (h : Tiles start spans stop) (hs : s ∈ spans) : start ≤ s.1 ∧ s.1 + s.2 ≤ stop := by
  induction spans generalizing start with
  | nil => cases hs
  | cons s' spans ih =>
      obtain ⟨rfl, h⟩ := h
      rcases List.mem_cons.mp hs with rfl | hs
      · exact ⟨le_refl _, h.le⟩
      · obtain ⟨hlo, hhi⟩ := ih h hs
        exact ⟨(Nat.le_add_right _ _).trans hlo, hhi⟩

/-- Spans do not overlap, and they stand in the order of the appends. -/
theorem pairwise (h : Tiles start spans stop) : spans.Pairwise fun s t => s.1 + s.2 ≤ t.1 := by
  induction spans generalizing start with
  | nil => exact List.Pairwise.nil
  | cons s spans ih =>
      obtain ⟨-, h⟩ := h
      exact List.pairwise_cons.mpr ⟨fun t ht => (h.within ht).1, ih h⟩

end Tiles

/-- A log of room `cap` that has accepted `records` behind the first `start` bytes. -/
structure Logged (start cap : ℕ) (log : MappedLog) (records : List Bytes) : Prop where
  cap_eq : log.cap = cap
  tiles : Tiles start log.spans log.len
  records_eq : log.records = records

namespace Logged

variable {start cap : ℕ} {log : MappedLog} {records : List Bytes}

theorem opened (file : Bytes) (size : ℕ) :
    Logged (min file.length (roundUp size)) (roundUp size) («open» file size) [] :=
  ⟨cap_open file size, rfl, records_open file size⟩

theorem push (h : Logged start cap log records) {bytes : Bytes}
    (hfit : log.len + bytes.length ≤ log.cap) :
    Logged start cap (log.push bytes) (records ++ [bytes]) where
  cap_eq := (cap_push hfit).trans h.cap_eq
  tiles := h.tiles.concat
  records_eq := by rw [records_push, h.records_eq]

theorem length_spans (h : Logged start cap log records) : log.spans.length = records.length := by
  rw [← h.records_eq, MappedLog.records, List.length_map]

theorem record (h : Logged start cap log records) (i : ℕ) : log.record i = records[i]? := by
  rw [record_eq, h.records_eq]

/-- One call of a session.  A flush touches the file only. -/
theorem call (h : Logged start cap log records) (c : Call) :
    Logged start cap (c.run log) (records ++ c.accepted log) := by
  cases c with
  | flush fails =>
      rw [Call.accepted, List.append_nil]
      exact ⟨h.cap_eq, h.tiles, h.records_eq⟩
  | append bytes =>
      rcases Nat.lt_or_ge log.cap (log.len + bytes.length) with hbig | hfit
      · simpa [Call.run, Call.accepted, append_of_lt hbig] using h
      · simpa [Call.run, Call.accepted, append_of_le hfit] using h.push hfit

theorem session (h : Logged start cap log records) (calls : List Call) :
    Logged start cap (run log calls) (records ++ accepted log calls) := by
  induction calls generalizing log records with
  | nil => simpa [run, accepted] using h
  | cons c calls ih =>
      have hrest := ih (h.call c)
      rwa [List.append_assoc] at hrest

end Logged

/-- Records are stable.  After any session `append` gives the next index exactly if the bytes still fit,
and changes nothing otherwise; the spans tile the stretch from the loaded contents to the cursor, inside
the region; and `record` gives, now and after whatever comes later, the bytes of the append that got the
index. -/
theorem records_run (file : Bytes) (size : ℕ) (calls : List Call) :
    let log := run («open» file size) calls
    let records := accepted («open» file size) calls
    (∀ bytes, (log.append bytes).2 = some records.length ↔ log.len + bytes.length ≤ log.cap) ∧
      (∀ bytes, log.cap < log.len + bytes.length → log.append bytes = (log, none)) ∧
      log.len ≤ log.cap ∧ log.cap = roundUp size ∧
      Tiles (min file.length log.cap) log.spans log.len ∧
      log.spans.Pairwise (fun s t => s.1 + s.2 ≤ t.1) ∧
      (∀ s ∈ log.spans, min file.length log.cap ≤ s.1 ∧ s.1 + s.2 ≤ log.cap) ∧
      (∀ i, log.record i = records[i]?) ∧
      ∀ later i, i < records.length → (run log later).record i = records[i]? := by
  intro log records
  have h : Logged (min file.length (roundUp size)) (roundUp size) log records := by
    simpa using (Logged.opened file size).session calls
  have hle : log.len ≤ log.cap := log.len_le
  rw [h.cap_eq] at hle ⊢
  refine ⟨?_, ?_, hle, rfl, h.tiles, h.tiles.pairwise, ?_, h.record, ?_⟩
  · intro bytes
    constructor
    · intro hindex
      by_contra hbig
      rw [append_of_lt (h.cap_eq.symm ▸ Nat.not_le.mp hbig)] at hindex
      cases hindex
    · intro hfit
      rw [append_of_le (h.cap_eq.symm ▸ hfit), h.length_spans]
  · exact fun bytes hbig => append_of_lt (h.cap_eq.symm ▸ hbig)
  · intro s hs
    exact ⟨(h.tiles.within hs).1, (h.tiles.within hs).2.trans hle⟩
  · intro later i hi
    rw [(h.session later).record, List.getElem?_append_left hi]

/-! ## The region

`open` rounds the capacity up in machine words and allocates before it looks at the file.  A capacity above
`isize::MAX` is refused, except at the very end of the range, where the sum wraps and a region of no bytes is
asked for. -/

/-- `open` with its allocation.  `io` is how opening, reading and seeking end: the contents of the file, or an
error. -/
def openIn (heap : Allocator) (io : Except ℕ Bytes) (cap : ℕ) : Traced (Except ℕ MappedLog) := do
  let cap := alignUp 64 cap page
  let _ ← Traced.region heap "layout" cap page
  pure (io.map fun file => loaded file cap)

/-- The layout that `drop` hands to `dealloc`. -/
def dropLayout (log : MappedLog) : Option Layout := Layout.fromSizeAlign log.cap page

section OpenIn

variable {heap : Allocator} {io : Except ℕ Bytes} {size : ℕ} {log : MappedLog} {L : Layout}

theorem mem_requests_openIn :
    L ∈ (openIn heap io size).requests ↔ L.size = alignUp 64 size page ∧ L.align = page := by
  simp [openIn, Traced.mem_requests_bind, Traced.mem_requests_region]

/-- What `openIn` returns lies in the region it asked for. -/
theorem result_openIn (h : (openIn heap io size).result = .ok (.ok log)) :
    ∃ file, io = .ok file ∧ log = loaded file (alignUp 64 size page) ∧
      ∃ L : Layout, L.size = alignUp 64 size page ∧ L.align = page := by
  obtain ⟨ptr, hptr, hlog⟩ := Traced.result_bind_eq_ok.mp h
  obtain ⟨L, hL, -⟩ := Traced.result_region_eq_ok.mp hptr
  cases io with
  | error e => cases hlog
  | ok file =>
      cases hlog
      exact ⟨file, rfl, rfl, L, hL⟩

theorem alignUp_page (h : size + page ≤ 2 ^ 64) : alignUp 64 size page = roundUp size := by
  have hround := alignUp_of_le (k := 12) (by omega) h
  rw [show page = 2 ^ 12 from rfl, hround, Nat.mul_comm]
  rfl

/-- Every log that is opened is one that `open` describes: for the capacity that was asked for, or, when the
sum wraps, for none. -/
theorem open_of_openIn (hsize : size < 2 ^ 64) (h : (openIn heap io size).result = .ok (.ok log)) :
    ∃ file, io = .ok file ∧ (size ≤ 2 ^ 63 - page ∧ log = «open» file size ∨
      2 ^ 64 < size + page ∧ log = «open» file 0) := by
  obtain ⟨file, hio, rfl, L, hL, halign⟩ := result_openIn h
  refine ⟨file, hio, ?_⟩
  have hle := L.size_le
  rw [hL, halign] at hle
  rcases Nat.lt_or_ge (2 ^ 64) (size + page) with hbig | hsum
  · have hzero : alignUp 64 size page = 0 := alignUp_of_lt (k := 12) (by omega) hsize hbig
    rw [hzero]
    exact .inr ⟨hbig, rfl⟩
  · rw [alignUp_page hsum] at hle ⊢
    exact .inl ⟨(le_roundUp size).trans hle, rfl⟩

theorem cap_run (calls : List Call) : (run log calls).cap = log.cap := by
  induction calls generalizing log with
  | nil => rfl
  | cons c calls ih =>
      refine ih.trans ?_
      cases c with
      | append bytes => exact cap_append
      | flush fails => rfl

/-- However the log was used, `drop` gives back the layout that `open` asked for. -/
theorem dropLayout_run (h : (openIn heap io size).result = .ok (.ok log)) (calls : List Call)
    (hL : L ∈ (openIn heap io size).requests) : (run log calls).dropLayout = some L := by
  obtain ⟨file, -, rfl, -⟩ := result_openIn h
  rw [dropLayout, cap_run, cap_loaded, Layout.fromSizeAlign_eq_some]
  exact mem_requests_openIn.mp hL

end OpenIn

end MappedLog

end ZeroKv.Store
