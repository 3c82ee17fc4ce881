/-
# ZeroKv.Regbuf.Backend — the vectored write of the portable backend.

`write_vectored` goes through the slices and hands each to `write_all_at`, which calls the system's
`write_at` until nothing of the slice is left.  A call may write less than it was given, may write nothing,
or may fail; how the `k`-th call turns out is the choice `os k` of the environment.  Positions and totals
are 64-bit words.

`write_at` is the system's: on success it has written a beginning of its argument at the offset, on an
error nothing.  Whatever the choices are, the loops come to an end, and the file has then changed in one
range only, which holds a beginning of the concatenated slices, all of it when the result is `Ok`.  That is
what the Batcher's write step takes for granted.
-/
import ZeroKv.GroupCommit.Wal
import ZeroKv.Lib.File
import ZeroKv.Lib.Word

namespace ZeroKv.Regbuf

abbrev Bytes := List UInt8

/-! ## The code -/

/-- How a `write_at` call turns out: so many bytes at most, or an error of the system. -/
inductive Outcome
  | wrote (n : ℕ)
  | failed (code : ℕ)

/-- `io::Error`, of the system or made here. -/
inductive IoError
  | os (code : ℕ)
  | writeZero (message : String)
deriving DecidableEq

/-- The file, and how often `write_at` was called. -/
structure Disk where
  file : Bytes
  calls : ℕ

variable (os : ℕ → Outcome)

/-- `FileExt::write_at`.  It never says that it wrote more than it was given. -/
def writeAt (d : Disk) (data : Bytes) (offset : ℕ) : Disk × Except IoError ℕ :=
  match os d.calls with
  | .wrote n =>
      ({ file := pwrite d.file offset (data.take n), calls := d.calls + 1 }, .ok (data.take n).length)
  | .failed code => ({ d with calls := d.calls + 1 }, .error (.os code))

/-- The loop of `write_all_at`; `none` when the fuel is used up. -/
def writeAllLoop : ℕ → Disk → Bytes → ℕ → Option (Disk × Except IoError Unit)
  | 0, _, _, _ => none
  | fuel + 1, d, data, offset =>
      if data = [] then some (d, .ok ())
      else
        match writeAt os d data offset with
        | (d, .error e) => some (d, .error e)
        | (d, .ok n) =>
            if n = 0 then some (d, .error (.writeZero "write_all_at: zero-length write"))
            else writeAllLoop fuel d (data.drop n) (wrappingAdd 64 offset n)

/-- `write_all_at`: the length of the slice, once all of it is written. -/
def writeAllAt (fuel : ℕ) (d : Disk) (data : Bytes) (offset : ℕ) :
    Option (Disk × Except IoError ℕ) :=
  (writeAllLoop os fuel d data offset).map fun (d, r) => (d, r.map fun _ => data.length)

/-- The loop of `write_vectored` over the slices. -/
def vectoredLoop (fuel : ℕ) : List Bytes → Disk → ℕ → ℕ → Option (Disk × Except IoError ℕ)
  | [], d, _, total => some (d, .ok total)
  | slice :: bufs, d, pos, total =>
      match writeAllAt os fuel d slice pos with
      | none => none
      | some (d, .error e) => some (d, .error e)
      | some (d, .ok n) => vectoredLoop fuel bufs d (wrappingAdd 64 pos n) (wrappingAdd 64 total n)

/-- `PortableBackend::write_vectored`. -/
def writeVectored (fuel : ℕ) (d : Disk) (offset : ℕ) (bufs : List Bytes) :
    Option (Disk × Except IoError ℕ) :=
  vectoredLoop os fuel bufs d offset 0

/-! ## What is in the file afterwards -/

/-- The file after a write of `data` that ended with `r`: all of it is there, or a beginning. -/
def Leaves {ε : Type} (file : Bytes) (offset : ℕ) (data : Bytes) (r : Except IoError ε)
    (file' : Bytes) : Prop :=
  match r with
  | .ok _ => file' = pwrite file offset data
  | .error _ => ∃ m ≤ data.length, file' = pwrite file offset (data.take m)

section Leaves

variable {ε : Type} {file file' : Bytes} {offset : ℕ} {data : Bytes} {r : Except IoError ε}

theorem leaves_error (e : IoError) :
    Leaves file offset data (.error e : Except IoError ε) file :=
  ⟨0, Nat.zero_le _, by rw [List.take_zero, pwrite_nil]⟩

/-- A write goes on where another one has ended. -/
theorem Leaves.after {front : Bytes}
    (h : Leaves (pwrite file offset front) (offset + front.length) data r file') :
    Leaves file offset (front ++ data) r file' := by
  cases r with
  | ok v =>
      obtain rfl : file' = _ := h
      exact pwrite_append file offset front data
  | error e =>
      obtain ⟨m, hm, rfl⟩ := h
      refine ⟨front.length + m, ?_, ?_⟩
      · rw [List.length_append]
        omega
      · rw [List.take_length_add_append, pwrite_append]

/-- An error in the front leaves a beginning of the whole. -/
theorem Leaves.stop {front : Bytes} {e : IoError}
    (h : Leaves file offset front (.error e : Except IoError ε) file') (data : Bytes) :
    Leaves file offset (front ++ data) (.error e : Except IoError ε) file' := by
  obtain ⟨m, hm, rfl⟩ := h
  refine ⟨m, ?_, by rw [List.take_append_of_le_length hm]⟩
  rw [List.length_append]
  omega

end Leaves

/-! ## One slice -/

/-- The loop ends as soon as the fuel exceeds the bytes that are left: a turn that goes on has written at
least one. -/
theorem writeAllLoop_spec (d : Disk) (data : Bytes) (offset : ℕ)
    (hfit : offset + data.length < 2 ^ 64) :
    ∃ d' r, (∀ fuel > data.length, writeAllLoop os fuel d data offset = some (d', r)) ∧
      Leaves d.file offset data r d'.file := by
  generalize hn : data.length = n
  induction n using Nat.strong_induction_on generalizing d data offset with
  | _ n ih =>
      have hfuel : ∀ {fuel}, n < fuel → ∃ k, fuel = k + 1 := fun h =>
        Nat.exists_eq_succ_of_ne_zero (Nat.ne_zero_of_lt h)
      by_cases hd : data = []
      · refine ⟨d, .ok (), fun fuel h => ?_, ?_⟩
        · obtain ⟨k, rfl⟩ := hfuel h
          rw [writeAllLoop, if_pos hd]
        · rw [hd]
          exact (pwrite_nil d.file offset).symm
      -- what the next call of the system does
      cases ho : os d.calls with
      | failed code =>
          refine ⟨{ d with calls := d.calls + 1 }, .error (.os code), fun fuel h => ?_, leaves_error _⟩
          obtain ⟨k, rfl⟩ := hfuel h
          simp only [writeAllLoop, if_neg hd, writeAt, ho]
      | wrote w =>
          obtain ⟨d₁, hd₁⟩ : ∃ d₁ : Disk, d₁ =
              { file := pwrite d.file offset (data.take w), calls := d.calls + 1 } := ⟨_, rfl⟩
          have hcall : writeAt os d data offset = (d₁, .ok (data.take w).length) := by
            rw [writeAt, ho, hd₁]
          by_cases hz : (data.take w).length = 0
          · refine ⟨d₁, .error (.writeZero "write_all_at: zero-length write"), fun fuel h => ?_, ?_⟩
            · obtain ⟨k, rfl⟩ := hfuel h
              simp only [writeAllLoop, if_neg hd, hcall, if_pos hz]
            · rw [hd₁, List.eq_nil_of_length_eq_zero hz, pwrite_nil]
              exact leaves_error _
          · have hdrop : data.drop (data.take w).length = data.drop w := by
              rw [List.length_take]
              rcases le_total w data.length with h | h
              · rw [min_eq_left h]
              · rw [min_eq_right h, List.drop_length, List.drop_of_length_le h]
            have hsplit : (data.take w).length + (data.drop w).length = data.length := by
              rw [← List.length_append, List.take_append_drop]
            have hpos : wrappingAdd 64 offset (data.take w).length =
                offset + (data.take w).length := Nat.mod_eq_of_lt (by omega)
            obtain ⟨d', r, hrun, hleaves⟩ := ih (data.drop w).length (by omega) d₁ (data.drop w)
              (offset + (data.take w).length) (by omega) rfl
            refine ⟨d', r, fun fuel h => ?_, ?_⟩
            · obtain ⟨k, rfl⟩ := hfuel h
              simp only [writeAllLoop, if_neg hd, hcall, if_neg hz, hdrop, hpos]
              exact hrun k (by omega)
            · rw [hd₁] at hleaves
              have := hleaves.after
              rwa [List.take_append_drop] at this

theorem writeAllAt_spec (d : Disk) (data : Bytes) (offset : ℕ)
    (hfit : offset + data.length < 2 ^ 64) :
    ∃ d' r, (∀ fuel > data.length, writeAllAt os fuel d data offset = some (d', r)) ∧
      (∀ n, r = .ok n → n = data.length) ∧ Leaves d.file offset data r d'.file := by
  obtain ⟨d', r, hrun, hleaves⟩ := writeAllLoop_spec os d data offset hfit
  refine ⟨d', r.map fun _ => data.length, fun fuel h => ?_, ?_, ?_⟩
  · rw [writeAllAt, hrun fuel h]
    rfl
  · cases r with
    | ok v => exact fun n hn => (Except.ok.inj hn).symm
    | error e => nofun
  · cases r with
    | ok v => exact hleaves
    | error e => exact hleaves

/-! ## All slices -/

theorem vectoredLoop_spec (bufs : List Bytes) (d : Disk) (pos total : ℕ)
    (hpos : pos + bufs.flatten.length < 2 ^ 64) (htotal : total + bufs.flatten.length < 2 ^ 64) :
    ∃ d' r, (∀ fuel > bufs.flatten.length, vectoredLoop os fuel bufs d pos total = some (d', r)) ∧
      (∀ t, r = .ok t → t = total + bufs.flatten.length) ∧
      Leaves d.file pos bufs.flatten r d'.file := by
  induction bufs generalizing d pos total with
  | nil => exact ⟨d, .ok total, fun _ _ => rfl, fun t ht => (Except.ok.inj ht).symm, (pwrite_nil ..).symm⟩
  | cons slice bufs ih =>
      have hlen : (slice :: bufs).flatten.length = slice.length + bufs.flatten.length := by
        rw [List.flatten_cons, List.length_append]
      obtain ⟨d₁, r₁, hrun₁, hok₁, hleaves₁⟩ := writeAllAt_spec os d slice pos (by omega)
      cases r₁ with
      | error e =>
          refine ⟨d₁, .error e, fun fuel h => ?_, nofun, hleaves₁.stop _⟩
          rw [vectoredLoop, hrun₁ fuel (by omega)]
      | ok n =>
          obtain rfl := hok₁ n rfl
          have hp : wrappingAdd 64 pos slice.length = pos + slice.length := Nat.mod_eq_of_lt (by omega)
          have ht : wrappingAdd 64 total slice.length = total + slice.length :=
            Nat.mod_eq_of_lt (by omega)
          obtain ⟨d', r, hrun, hok, hleaves⟩ :=
            ih d₁ (pos + slice.length) (total + slice.length) (by omega) (by omega)
          refine ⟨d', r, fun fuel h => ?_, fun t hr => ?_, ?_⟩
          · rw [vectoredLoop, hrun₁ fuel (by omega)]
            simp only [hp, ht]
            exact hrun fuel (by omega)
          · rw [hok t hr, hlen, Nat.add_assoc]
          · rw [show d₁.file = pwrite d.file pos slice from hleaves₁] at hleaves
            exact hleaves.after

/-- The vectored write is exact under short writes.  Whatever the system does, `write_vectored` comes to an
end.  If it returns `Ok(t)`, then `t` is the sum of the lengths, and the slices stand in the file one after
the other from the offset on, with everything else as it was; after an error the same is so for a beginning
of the slices. -/
theorem writeVectored_exact (os : ℕ → Outcome) (d : Disk) (offset : ℕ) (bufs : List Bytes)
    (hfit : offset + (bufs.map List.length).sum < 2 ^ 64) :
    ∃ d' r, (∃ n, ∀ fuel ≥ n, writeVectored os fuel d offset bufs = some (d', r)) ∧
      match r with
      | .ok t => t = (bufs.map List.length).sum ∧ Written d.file offset bufs.flatten d'.file
      | .error _ => ∃ m ≤ (bufs.map List.length).sum,
          Written d.file offset (bufs.flatten.take m) d'.file := by
  rw [← List.length_flatten] at hfit ⊢
  obtain ⟨d', r, hrun, hok, hleaves⟩ := vectoredLoop_spec os bufs d offset 0 hfit
    (show 0 + bufs.flatten.length < 2 ^ 64 by omega)
  refine ⟨d', r, ⟨bufs.flatten.length + 1, fun fuel hf => hrun fuel hf⟩, ?_⟩
  cases r with
  | ok t =>
      obtain rfl : t = 0 + bufs.flatten.length := hok t rfl
      refine ⟨Nat.zero_add _, ?_⟩
      rw [show d'.file = pwrite d.file offset bufs.flatten from hleaves]
      exact written_pwrite d.file offset bufs.flatten
  | error e =>
      obtain ⟨m, hm, hfile⟩ := hleaves
      refine ⟨m, hm, ?_⟩
      rw [hfile]
      exact written_pwrite d.file offset (bufs.flatten.take m)

/-- Two bytes, then one, then whatever is left. -/
def hesitant : ℕ → Outcome
  | 0 => .wrote 2
  | 1 => .wrote 1
  | _ => .wrote 9

theorem writeVectored_exact_hesitant :
    writeVectored hesitant 9 ⟨[9, 9, 9, 9, 9, 9, 9], 0⟩ 1 [[1, 2, 3], [], [4, 5]] =
        some (⟨[9, 1, 2, 3, 4, 5, 9], 3⟩, .ok 5) ∧
      ∃ d' r, (∃ n, ∀ fuel ≥ n, writeVectored hesitant fuel ⟨[9, 9, 9, 9, 9, 9, 9], 0⟩ 1
          [[1, 2, 3], [], [4, 5]] = some (d', r)) ∧
        match r with
        | .ok t => t = 5 ∧ Written [9, 9, 9, 9, 9, 9, 9] 1 [1, 2, 3, 4, 5] d'.file
        | .error _ => ∃ m ≤ 5, Written [9, 9, 9, 9, 9, 9, 9] 1 ([1, 2, 3, 4, 5].take m) d'.file :=
  ⟨rfl, writeVectored_exact hesitant ⟨[9, 9, 9, 9, 9, 9, 9], 0⟩ 1 [[1, 2, 3], [], [4, 5]] (by decide)⟩

/-- However the backend fares, the Batcher's write step allows for it. -/
theorem writeVectored_written (os : ℕ → Outcome) (d : Disk) (offset : ℕ) (bufs : List Bytes)
    (hfit : offset + bufs.flatten.length < 2 ^ 64) :
    ∃ d' r a, (∃ n, ∀ fuel ≥ n, writeVectored os fuel d offset bufs = some (d', r)) ∧
      d'.file = pwrite d.file offset (GroupCommit.written a bufs.flatten) := by
  obtain ⟨d', r, hrun, -, hleaves⟩ := vectoredLoop_spec os bufs d offset 0 hfit
    (show 0 + bufs.flatten.length < 2 ^ 64 by omega)
  have hends : ∃ n, ∀ fuel ≥ n, writeVectored os fuel d offset bufs = some (d', r) :=
    ⟨bufs.flatten.length + 1, fun fuel hf => hrun fuel hf⟩
  cases r with
  | ok t => exact ⟨d', .ok t, .run, hends, hleaves⟩
  | error e =>
      obtain ⟨m, -, hfile⟩ := hleaves
      exact ⟨d', .error e, .fail m, hends, hfile⟩

end ZeroKv.Regbuf
