/-
# ZeroKv.Arena — the bump allocator, for any number of threads.

`alloc_raw` loads the cursor once and then goes round a loop: compute where an aligned chunk would start,
check that it fits, and try to move the cursor over it.  The arithmetic is that of 64-bit words.  A failed
attempt, which for the weak exchange may happen without a reason, hands back the cursor for the next turn.

`allocs` is a history variable: the chunks the exchange reserved, in order.  They lie one after the other
between the start of the block and the cursor, which is all there is to disjointness.

What the padding costs in words is settled in `Lib.Word`: the one sum that can reach `2 ^ 64` is the start
of the chunk plus the alignment, both `2 ^ 63`, for a block that ends exactly there.  It wraps to zero, the
next subtraction wraps back, and the call is refused because nothing is left behind the cursor.
-/
import ZeroKv.Lib.Threads
import ZeroKv.Lib.Word

namespace ZeroKv.Bump

/-! ## The allocator -/

/-- The arguments of `alloc_raw`: two words, the second a power of two. -/
structure Request where
  size : ℕ
  align : ℕ
  size_lt : size < 2 ^ 64
  align_pow : ∃ k < 64, align = 2 ^ k

/-- What `push_bytes` asks for. -/
def pushBytes (bytes : List UInt8) (h : bytes.length < 2 ^ 64) : Request where
  size := bytes.length
  align := 1
  size_lt := h
  align_pow := ⟨0, by omega, rfl⟩

/-- A chunk that was handed out. -/
structure Alloc where
  ptr : ℕ
  request : Request

/-- `Arena`, with the history of its reservations. -/
structure Arena where
  base : ℕ
  cap : ℕ
  head : ℕ
  allocs : List Alloc

/-- `with_capacity`, for the address the system allocator gave. -/
def withCapacity (base cap : ℕ) : Arena where
  base := base
  cap := cap
  head := 0
  allocs := []

/-- Program points of `alloc_raw`; `ret` holds the result about to be returned. -/
inductive Pc
  | idle
  | loadHead (r : Request)
  | reserve (r : Request) (cur : ℕ)
  | ret (r : Request) (result : Option ℕ)

/-- What a step does: start a call, or go on with it.  `spurious` lets the weak exchange fail. -/
inductive Act
  | call (r : Request)
  | go (spurious : Bool)

/-- Where the chunk of a turn would start. -/
def aligned (base : ℕ) (r : Request) (cur : ℕ) : ℕ := alignUp 64 (wrappingAdd 64 base cur) r.align

/-- `cur.checked_add(pad)?.checked_add(size)?`. -/
def newHead (base : ℕ) (r : Request) (cur : ℕ) : Option ℕ := do
  let padded ← checkedAdd 64 cur (wrappingSub 64 (aligned base r cur) (wrappingAdd 64 base cur))
  checkedAdd 64 padded r.size

/-- The rest of a turn, for the chunk at `ptr` and the cursor behind it, `none` if that overflowed. -/
def commit (m : Arena) (r : Request) (cur ptr : ℕ) (spurious : Bool) : Option ℕ → Arena × Pc
  | none => (m, .ret r none)
  | some head =>
      if m.cap < head then (m, .ret r none)
      else if m.head = cur ∧ spurious = false then
        ({ m with head := head, allocs := m.allocs ++ [⟨ptr, r⟩] }, .ret r (some ptr))
      else (m, .reserve r m.head)

/-- One turn of the loop. -/
def turn (m : Arena) (r : Request) (cur : ℕ) (spurious : Bool) : Arena × Pc :=
  commit m r cur (aligned m.base r cur) spurious (newHead m.base r cur)

/-- One step of a thread that calls `alloc_raw` over and over. -/
def step (m : Arena) : Pc → Act → Option (Arena × Pc)
  | .idle, .call r => some (m, if r.size = 0 then .ret r (some m.base) else .loadHead r)
  | .loadHead r, .go _ => some (m, .reserve r m.head)
  | .reserve r cur, .go spurious => some (turn m r cur spurious)
  | .ret _ _, .go _ => some (m, .idle)
  | _, _ => none

/-- The allocator over the block of `cap` bytes at `base`. -/
def threads (base cap : ℕ) : Threads Arena Pc Act where
  mem := withCapacity base cap
  loc := .idle
  step := step

/-! ## The arithmetic of one turn -/

section Turn

variable {base cap cur head : ℕ} {r : Request}

/-- No sum of a turn but one can wrap, and that one only for the largest alignment at the very end of a
block that reaches `2 ^ 63`. -/
theorem sums_lt (hblock : base + cap ≤ 2 ^ 63) (hcur : cur ≤ cap) :
    base + cur < 2 ^ 64 ∧
      (base + cur + r.align < 2 ^ 64 ∨ r.align = 2 ^ 63 ∧ cur = cap ∧ base + cap = 2 ^ 63) := by
  obtain ⟨k, hk, hpow⟩ := r.align_pow
  have hle : r.align ≤ 2 ^ 63 := hpow ▸ Nat.pow_le_pow_right (by omega) (by omega)
  omega

theorem aligned_spec (hblock : base + cap ≤ 2 ^ 63) (hcur : cur ≤ cap) :
    r.align ∣ aligned base r cur ∧ base + cur ≤ aligned base r cur ∧
      aligned base r cur < 2 ^ 64 := by
  obtain ⟨k, hk, hpow⟩ := r.align_pow
  have hle : 2 ^ k ≤ 2 ^ 63 := Nat.pow_le_pow_right (by omega) (by omega)
  have hstart : wrappingAdd 64 base cur = base + cur := Nat.mod_eq_of_lt (by omega)
  have := alignUp_spec (w := 64) hk.le (show base + cur + 2 ^ k ≤ 2 ^ 64 by omega)
  rw [aligned, hstart, hpow]
  exact ⟨this.1, this.2.1, by omega⟩

/-- The new cursor is the end of the chunk. -/
theorem newHead_eq (hblock : base + cap ≤ 2 ^ 63) (hcur : cur ≤ cap)
    (h : newHead base r cur = some head) : base + head = aligned base r cur + r.size := by
  obtain ⟨-, hge, hlt⟩ := aligned_spec (r := r) hblock hcur
  have hpad : wrappingSub 64 (aligned base r cur) (wrappingAdd 64 base cur) =
      aligned base r cur - (base + cur) := by
    have := wrappingSub_mod (w := 64) hge (by omega)
    rwa [Nat.mod_eq_of_lt hlt] at this
  obtain ⟨padded, hpadded, hhead⟩ := Option.bind_eq_some_iff.mp h
  rw [hpad] at hpadded
  simp only [checkedAdd, Option.ite_none_right_eq_some, Option.some.injEq] at hpadded hhead
  omega

section PushBytes

variable {bytes : List UInt8} {h : bytes.length < 2 ^ 64}

/-- Bytes need no padding. -/
theorem aligned_pushBytes : aligned base (pushBytes bytes h) cur = wrappingAdd 64 base cur := by
  have hlt : wrappingAdd 64 base cur < 2 ^ 64 := Nat.mod_lt _ (Nat.two_pow_pos 64)
  have hspec := alignUp_spec (w := 64) (k := 0) (Nat.zero_le _)
    (show wrappingAdd 64 base cur + 2 ^ 0 ≤ 2 ^ 64 by omega)
  have hdef : aligned base (pushBytes bytes h) cur = alignUp 64 (wrappingAdd 64 base cur) (2 ^ 0) := by
    rw [aligned, pushBytes, Nat.pow_zero]
  omega

theorem newHead_pushBytes (hcur : cur < 2 ^ 64) :
    newHead base (pushBytes bytes h) cur = checkedAdd 64 cur bytes.length := by
  have hpad : wrappingSub 64 (wrappingAdd 64 base cur) (wrappingAdd 64 base cur) = 0 := by
    have := wrappingSub_mod (w := 64) (le_refl (base + cur)) (by omega)
    simpa [wrappingAdd] using this
  have hsame : checkedAdd 64 cur 0 = some cur := if_pos hcur
  rw [newHead, aligned_pushBytes, hpad, hsame]
  rfl

end PushBytes

end Turn

/-! ## Every chunk lies below the cursor -/

/-- The chunks of two calls do not overlap. -/
def Alloc.Disjoint (a b : Alloc) : Prop :=
  a.ptr + a.request.size ≤ b.ptr ∨ b.ptr + b.request.size ≤ a.ptr

/-- A chunk of the block `[base, limit)`, aligned as asked. -/
structure Alloc.Fits (base limit : ℕ) (a : Alloc) : Prop where
  aligned : a.ptr % a.request.align = 0
  base_le : base ≤ a.ptr
  le_limit : a.ptr + a.request.size ≤ limit

theorem Alloc.Fits.mono {base limit limit' : ℕ} {a : Alloc} (h : a.Fits base limit)
    (hle : limit ≤ limit') : a.Fits base limit' :=
  ⟨h.aligned, h.base_le, h.le_limit.trans hle⟩

/-- The arena over a given block. -/
structure Ok (base cap : ℕ) (m : Arena) : Prop where
  base_eq : m.base = base
  cap_eq : m.cap = cap
  head_le : m.head ≤ cap
  fits : ∀ a ∈ m.allocs, a.Fits base (base + m.head)
  apart : m.allocs.Pairwise Alloc.Disjoint

/-- What a thread knows: a request that gets as far as the cursor is not empty, the cursor it goes on from
was one of this block, and the chunk it is about to return is in the history. -/
def Pc.Ok (cap : ℕ) (m : Arena) : Pc → Prop
  | .loadHead r => 0 < r.size
  | .reserve r cur => 0 < r.size ∧ cur ≤ cap
  | .ret r (some p) => 0 < r.size → ⟨p, r⟩ ∈ m.allocs
  | _ => True

theorem Pc.Ok.mono {cap : ℕ} {m m' : Arena} {pc : Pc} (h : pc.Ok cap m)
    (hsub : ∀ a ∈ m.allocs, a ∈ m'.allocs) : pc.Ok cap m' := by
  cases pc with
  | ret r result =>
      cases result with
      | none => trivial
      | some p => exact fun hpos => hsub _ (h hpos)
  | _ => exact h

/-- Where a step that leaves the arena alone can go. -/
inductive Quiet (m : Arena) : Pc → Pc → Prop
  | empty (r : Request) (p : ℕ) : r.size = 0 → Quiet m .idle (.ret r (some p))
  | call (r : Request) : 0 < r.size → Quiet m .idle (.loadHead r)
  | load (r : Request) : Quiet m (.loadHead r) (.reserve r m.head)
  | retry (r : Request) (cur : ℕ) : Quiet m (.reserve r cur) (.reserve r m.head)
  | refuse (r : Request) (cur : ℕ) : Quiet m (.reserve r cur) (.ret r none)
  | done (r : Request) (result : Option ℕ) : Quiet m (.ret r result) .idle

theorem commit_spec {m m' : Arena} {pc' : Pc} {r : Request} {cur ptr : ℕ} {spurious : Bool}
    {head? : Option ℕ} (h : commit m r cur ptr spurious head? = (m', pc')) :
    m' = m ∧ Quiet m (.reserve r cur) pc' ∨
      ∃ head, head? = some head ∧ cur = m.head ∧ head ≤ m.cap ∧
        m' = { m with head := head, allocs := m.allocs ++ [⟨ptr, r⟩] } ∧
        pc' = .ret r (some ptr) := by
  unfold commit at h
  split at h
  · cases h
    exact Or.inl ⟨rfl, .refuse r cur⟩
  · next head =>
      split at h
      · cases h
        exact Or.inl ⟨rfl, .refuse r cur⟩
      · next hle =>
          split at h
          · next hcas =>
              cases h
              exact Or.inr ⟨head, rfl, hcas.1.symm, Nat.not_lt.mp hle, rfl, rfl⟩
          · cases h
            exact Or.inl ⟨rfl, .retry r cur⟩

theorem commit_refuse {m : Arena} {r : Request} {cur ptr : ℕ} {spurious : Bool} {head? : Option ℕ}
    (h : ∀ head, head? = some head → m.cap < head) :
    commit m r cur ptr spurious head? = (m, .ret r none) := by
  cases head? with
  | none => rfl
  | some head => exact if_pos (h head rfl)

/-- A step either leaves the arena alone, or reserves a chunk from the cursor on and returns it. -/
theorem step_spec {m m' : Arena} {pc pc' : Pc} {a : Act} (hst : step m pc a = some (m', pc')) :
    m' = m ∧ Quiet m pc pc' ∨
      ∃ r head, pc = .reserve r m.head ∧ newHead m.base r m.head = some head ∧ head ≤ m.cap ∧
        m' = { m with head := head, allocs := m.allocs ++ [⟨aligned m.base r m.head, r⟩] } ∧
        pc' = .ret r (some (aligned m.base r m.head)) := by
  cases pc with
  | idle =>
      cases a with
      | go _ => cases hst
      | call r =>
          rcases Nat.eq_zero_or_pos r.size with hr | hr
          · simp only [step, if_pos hr, Option.some.injEq, Prod.mk.injEq] at hst
            obtain ⟨rfl, rfl⟩ := hst
            exact Or.inl ⟨rfl, .empty r _ hr⟩
          · simp only [step, if_neg hr.ne', Option.some.injEq, Prod.mk.injEq] at hst
            obtain ⟨rfl, rfl⟩ := hst
            exact Or.inl ⟨rfl, .call r hr⟩
  | loadHead r =>
      cases a with
      | call _ => cases hst
      | go _ => cases hst; exact Or.inl ⟨rfl, .load r⟩
  | ret r result =>
      cases a with
      | call _ => cases hst
      | go _ => cases hst; exact Or.inl ⟨rfl, .done r result⟩
  | reserve r cur =>
      cases a with
      | call _ => cases hst
      | go spurious =>
          rcases commit_spec (Option.some.inj hst) with hquiet | ⟨head, hhead, rfl, hle, hm, hpc⟩
          · exact Or.inl hquiet
          · exact Or.inr ⟨r, head, rfl, hhead, hle, hm, hpc⟩

/-- The chunk of a turn that goes through starts at or behind the old cursor and ends at the new one. -/
theorem Ok.reserve {base cap head : ℕ} {m : Arena} {r : Request} (hblock : base + cap ≤ 2 ^ 63)
    (h : Ok base cap m) (hhead : newHead m.base r m.head = some head) (hle : head ≤ m.cap) :
    Ok base cap
      { m with head := head, allocs := m.allocs ++ [⟨aligned m.base r m.head, r⟩] } := by
  have hbase := h.base_eq
  have hcap := h.cap_eq
  have hin : m.base + cap ≤ 2 ^ 63 := hbase ▸ hblock
  obtain ⟨hdvd, hge, -⟩ := aligned_spec (r := r) hin h.head_le
  have hend := newHead_eq hin h.head_le hhead
  refine ⟨hbase, hcap, hcap ▸ hle, ?_, ?_⟩
  · intro a ha
    rcases List.mem_append.mp ha with ha | ha
    · exact (h.fits a ha).mono (by simp only; omega)
    · obtain rfl := List.mem_singleton.mp ha
      exact ⟨Nat.mod_eq_zero_of_dvd hdvd, by simp only; omega, by simp only; omega⟩
  · refine List.pairwise_append.mpr ⟨h.apart, List.pairwise_singleton _ _, ?_⟩
    intro a ha b hb
    obtain rfl := List.mem_singleton.mp hb
    have := (h.fits a ha).le_limit
    exact Or.inl (by simp only; omega)

/-- The invariant of the allocator. -/
def invariant (base cap : ℕ) (hblock : base + cap ≤ 2 ^ 63) :
    (threads base cap).Invariant where
  shared := Ok base cap
  own := Pc.Ok cap
  apart _ _ := True
  init_shared := ⟨rfl, rfl, Nat.zero_le _, nofun, List.Pairwise.nil⟩
  init_own := trivial
  init_apart := trivial
  keep {m pc a m' pc'} hm hpc hst := by
    rcases step_spec hst with ⟨rfl, hquiet⟩ | ⟨r, head, rfl, hhead, hle, rfl, rfl⟩
    · refine ⟨hm, ?_⟩
      cases hquiet with
      | empty r p hr => exact fun hpos => absurd hr hpos.ne'
      | call r hr => exact hr
      | load r => exact ⟨hpc, hm.head_le⟩
      | retry r cur => exact ⟨hpc.1, hm.head_le⟩
      | refuse r cur => trivial
      | done r result => trivial
    · exact ⟨hm.reserve hblock hhead hle, fun _ => List.mem_append_right _ List.mem_cons_self⟩
  bystander {m pc a m' pc' b} hm hpc hb _ _ hst := by
    refine ⟨hb.mono ?_, trivial, trivial⟩
    rcases step_spec hst with ⟨rfl, -⟩ | ⟨r, head, -, -, -, rfl, -⟩
    · exact fun _ ha => ha
    · exact fun _ ha => List.mem_append_left _ ha

/-- The request a thread is working on. -/
def Pc.request : Pc → Option Request
  | .idle => none
  | .loadHead r | .reserve r _ | .ret r _ => some r

/-- A thread works on what it was called with. -/
theorem step_request {m m' : Arena} {pc pc' : Pc} {a : Act} {r : Request}
    (hst : step m pc a = some (m', pc')) (hr : pc'.request = some r) :
    a = .call r ∨ pc.request = some r := by
  cases a with
  | call q =>
      cases pc with
      | idle =>
          -- both outcomes of the check for an empty request carry the request itself
          simp only [step, Option.some.injEq, Prod.mk.injEq] at hst
          obtain ⟨-, rfl⟩ := hst
          split at hr <;> exact Or.inl (congrArg Act.call (Option.some.inj hr))
      | _ => cases hst
  | go spurious =>
      rcases step_spec hst with ⟨-, hquiet⟩ | ⟨q, head, rfl, -, -, -, rfl⟩
      · cases hquiet with
        | empty | call => cases hst
        | done => cases hr
        | load | retry | refuse => exact Or.inr hr
      · exact Or.inr hr

/-- A step that returns a chunk has just reserved it, and no other step reserves anything. -/
theorem step_allocs {m m' : Arena} {pc pc' : Pc} {a : Act} (hst : step m pc a = some (m', pc')) :
    (∀ r p, pc' = .ret r (some p) → 0 < r.size → m'.allocs = m.allocs ++ [⟨p, r⟩]) ∧
      (m' ≠ m → ∃ r p, pc' = .ret r (some p)) := by
  rcases step_spec hst with ⟨rfl, hquiet⟩ | ⟨q, head, -, -, -, rfl, rfl⟩
  · refine ⟨?_, fun hne => absurd rfl hne⟩
    rintro r p rfl hpos
    cases hquiet with
    | empty _ _ hzero => exact absurd hzero hpos.ne'
  · refine ⟨?_, fun _ => ⟨q, _, rfl⟩⟩
    intro r p hret _
    cases hret
    rfl

/-! ## A call that nobody disturbs -/

/-- `alloc_raw` as one function: what a call comes to while no other thread allocates. -/
def allocRaw (m : Arena) (r : Request) : Arena × Option ℕ :=
  if r.size = 0 then (m, some m.base)
  else match newHead m.base r m.head with
    | none => (m, none)
    | some head =>
        if m.cap < head then (m, none)
        else
          let ptr := aligned m.base r m.head
          ({ m with head := head, allocs := m.allocs ++ [⟨ptr, r⟩] }, some ptr)

/-- The states of a call of `alloc_raw r` that started with the arena `m` and that nobody disturbed. -/
inductive Undisturbed (m : Arena) (r : Request) : Arena → Pc → Prop
  | idle : Undisturbed m r m .idle
  | loadHead : 0 < r.size → Undisturbed m r m (.loadHead r)
  | reserve : 0 < r.size → Undisturbed m r m (.reserve r m.head)
  | ret : Undisturbed m r (allocRaw m r).1 (.ret r (allocRaw m r).2)

theorem turn_alone (m : Arena) {r : Request} (hpos : 0 < r.size) :
    turn m r m.head false = ((allocRaw m r).1, .ret r (allocRaw m r).2) := by
  unfold turn allocRaw
  rw [if_neg hpos.ne']
  generalize aligned m.base r m.head = ptr
  cases newHead m.base r m.head with
  | none => rfl
  | some head => by_cases hcap : m.cap < head <;> simp [commit, hcap]

theorem turn_spurious (m : Arena) (r : Request) :
    turn m r m.head true = (m, .reserve r m.head) ∨ turn m r m.head true = turn m r m.head false := by
  unfold turn
  generalize aligned m.base r m.head = ptr
  cases newHead m.base r m.head with
  | none => exact .inr rfl
  | some head => by_cases hcap : m.cap < head <;> simp [commit, hcap]

/-- The next step of a call: the first one hands over the request. -/
def callStep (m : Arena) (r : Request) (pc : Pc) (spurious : Bool) : Option (Arena × Pc) :=
  match pc with
  | .idle => step m .idle (.call r)
  | pc => step m pc (.go spurious)

/-- However often the weak exchange fails for no reason, an undisturbed call comes to `allocRaw`. -/
theorem Undisturbed.step {m m₁ m₂ : Arena} {r : Request} {pc pc₂ : Pc} {spurious : Bool}
    (h : Undisturbed m r m₁ pc) (hret : ∀ p, pc ≠ .ret r p)
    (hst : callStep m₁ r pc spurious = some (m₂, pc₂)) : Undisturbed m r m₂ pc₂ := by
  cases h with
  | idle =>
      rcases Nat.eq_zero_or_pos r.size with hr | hr
      · simp only [callStep, Bump.step, if_pos hr, Option.some.injEq, Prod.mk.injEq] at hst
        obtain ⟨rfl, rfl⟩ := hst
        have hall : allocRaw m r = (m, some m.base) := if_pos hr
        simpa only [hall] using Undisturbed.ret (m := m) (r := r)
      · simp only [callStep, Bump.step, if_neg hr.ne', Option.some.injEq, Prod.mk.injEq] at hst
        obtain ⟨rfl, rfl⟩ := hst
        exact .loadHead hr
  | loadHead hr =>
      cases hst
      exact .reserve hr
  | reserve hr =>
      have hturn : turn m r m.head spurious = (m₂, pc₂) := Option.some.inj hst
      have hagain : (m₂, pc₂) = (m, .reserve r m.head) ∨ (m₂, pc₂) = turn m r m.head false := by
        cases spurious with
        | false => exact .inr hturn.symm
        | true => exact (turn_spurious m r).imp hturn.symm.trans hturn.symm.trans
      rcases hagain with heq | heq
      · cases heq
        exact .reserve hr
      · rw [turn_alone m hr] at heq
        cases heq
        exact .ret
  | ret => exact absurd rfl (hret _)

theorem Undisturbed.ret_eq {m m₁ : Arena} {r r' : Request} {p : Option ℕ}
    (h : Undisturbed m r m₁ (.ret r' p)) : allocRaw m r = (m₁, p) := by
  cases h
  rfl

/-- Steps that are left of a call whose exchange does not fail. -/
def Pc.left : Pc → ℕ
  | .idle => 3
  | .loadHead _ => 2
  | .reserve _ _ => 1
  | .ret _ _ => 0

theorem Undisturbed.progress {m m₁ : Arena} {r : Request} {pc : Pc} (h : Undisturbed m r m₁ pc)
    (hret : ∀ p, pc ≠ .ret r p) :
    ∃ m₂ pc₂, callStep m₁ r pc false = some (m₂, pc₂) ∧ pc₂.left < pc.left := by
  cases h with
  | idle =>
      refine ⟨_, _, rfl, ?_⟩
      split <;> simp [Pc.left]
  | loadHead _ => exact ⟨_, _, rfl, by simp [Pc.left]⟩
  | reserve hr => exact ⟨_, _, congrArg some (turn_alone m hr), by simp [Pc.left]⟩
  | ret => exact absurd rfl (hret _)

/-- A call for bytes gives the next bytes of the block, or nothing when too few are left. -/
theorem allocRaw_pushBytes {m : Arena} {bytes : List UInt8} (h : bytes.length < 2 ^ 64)
    (hcap : m.cap < 2 ^ 64) (hblock : m.base + m.cap ≤ 2 ^ 64) (hhead : m.head ≤ m.cap)
    (hne : bytes ≠ []) :
    allocRaw m (pushBytes bytes h) =
      if m.cap < m.head + bytes.length then (m, none)
      else ({ m with head := m.head + bytes.length,
                     allocs := m.allocs ++ [⟨m.base + m.head, pushBytes bytes h⟩] },
        some (m.base + m.head)) := by
  have hpos := List.length_pos_iff.mpr hne
  have hsize : (pushBytes bytes h).size ≠ 0 := hpos.ne'
  unfold allocRaw
  rw [if_neg hsize, newHead_pushBytes (by omega), aligned_pushBytes, checkedAdd]
  by_cases hfull : m.cap < m.head + bytes.length
  · rw [if_pos hfull]
    split
    · rfl
    · next head hsum =>
        cases (Option.ite_none_right_eq_some.mp hsum).2
        exact if_pos hfull
  · have hptr : wrappingAdd 64 m.base m.head = m.base + m.head := Nat.mod_eq_of_lt (by omega)
    rw [if_neg hfull, if_pos (by omega), hptr]
    exact if_neg hfull

/-! ## What the callers get -/

section Callers

variable {τ : Type} [DecidableEq τ]

/-- In every interleaving of calls on a block that lies below `2 ^ 63` the cursor stays in the block; the
chunks are aligned, in bounds and pairwise disjoint, and a call returns one of them; no addition wraps,
but for the largest alignment at the end of a block that ends at `2 ^ 63`, where the call is about to
return `None`; a step that returns a chunk for the request of its call adds just that chunk to the history,
so two calls never share an entry; and a step that changes the arena is one that returns a chunk. -/
theorem allocRaw_safe {base cap : ℕ} (hblock : base + cap ≤ 2 ^ 63)
    {s : Config τ Arena Pc} (hs : ((threads base cap).machine τ).Reachable s) :
    s.mem.head ≤ cap ∧
      (∀ t r p, s.loc t = .ret r (some p) → 0 < r.size → ⟨p, r⟩ ∈ s.mem.allocs) ∧
      (∀ a ∈ s.mem.allocs, a.Fits base (base + cap)) ∧
      s.mem.allocs.Pairwise Alloc.Disjoint ∧
      (∀ t r cur, s.loc t = .reserve r cur → base + cur < 2 ^ 64 ∧
        (base + cur + r.align < 2 ^ 64 ∨
          r.align = 2 ^ 63 ∧ base + cur = 2 ^ 63 ∧
            ∀ spurious, turn s.mem r cur spurious = (s.mem, .ret r none))) ∧
      ∀ t a s', (threads base cap).stepOf s (t, a) = some s' →
        (∀ r, (s'.loc t).request = some r → a = .call r ∨ (s.loc t).request = some r) ∧
        (∀ r p, s'.loc t = .ret r (some p) → 0 < r.size → s'.mem.allocs = s.mem.allocs ++ [⟨p, r⟩]) ∧
        (s'.mem ≠ s.mem → ∃ r p, s'.loc t = .ret r (some p)) := by
  have hi := (invariant base cap hblock).holds hs
  have hm : Ok base cap s.mem := hi.shared
  refine ⟨hm.head_le, ?_, ?_, hm.apart, ?_, ?_⟩
  · intro t r p ht hpos
    have := hi.own t
    rw [ht] at this
    exact this hpos
  · exact fun a ha => (hm.fits a ha).mono (Nat.add_le_add_left hm.head_le base)
  · intro t r cur ht
    obtain ⟨hpos, hcur⟩ : 0 < r.size ∧ cur ≤ cap := by
      have := hi.own t
      rwa [ht] at this
    obtain ⟨hstart, hsum | ⟨halign, hend, htop⟩⟩ := sums_lt (r := r) hblock hcur
    · exact ⟨hstart, Or.inl hsum⟩
    · refine ⟨hstart, Or.inr ⟨halign, by rw [hend, htop], ?_⟩⟩
      -- nothing is left behind the cursor, so the check refuses whatever it computes
      intro spurious
      refine commit_refuse fun head hhead => ?_
      rw [hm.base_eq] at hhead
      have hge := (aligned_spec (r := r) hblock hcur).2.1
      have := newHead_eq hblock hcur hhead
      rw [hm.cap_eq]
      omega
  · intro t a s' hst
    obtain ⟨m', pc', hact, rfl⟩ := Threads.stepOf_eq_some.mp hst
    simp only [Function.update_self]
    exact ⟨fun r => step_request hact, step_allocs hact⟩

end Callers

/-- Two threads race for the first chunk, and the second one has to go round again and pads.  Then the
first thread comes back with the request it had before. -/
def racing : List (Bool × Act) :=
  let first : Request := ⟨24, 8, by omega, 3, by omega, rfl⟩
  let second : Request := ⟨10, 16, by omega, 4, by omega, rfl⟩
  [(false, .call first), (false, .go false), (true, .call second), (true, .go false),
    (false, .go false), (true, .go false), (true, .go false),
    (false, .go false), (false, .call first), (false, .go false)]

theorem allocRaw_safe_racing :
    ∃ s s', Machine.runFn (threads 4096 96).stepOf ⟨withCapacity 4096 96, fun _ => Pc.idle⟩ racing
        = some s ∧ (threads 4096 96).stepOf s (false, .go false) = some s' ∧
      s.mem.allocs.map Alloc.ptr = [4096, 4128] ∧ s'.mem.allocs.map Alloc.ptr = [4096, 4128, 4144] ∧
      s.mem.head ≤ 96 ∧ s.mem.allocs.Pairwise Alloc.Disjoint ∧
      ∀ r p, s'.loc false = .ret r (some p) → 0 < r.size → s'.mem.allocs = s.mem.allocs ++ [⟨p, r⟩] := by
  obtain ⟨s, hs⟩ : ∃ s, Machine.runFn (threads 4096 96).stepOf
      ⟨withCapacity 4096 96, fun _ => Pc.idle⟩ racing = some s := ⟨_, rfl⟩
  obtain ⟨s', hs'⟩ : ∃ s', (threads 4096 96).stepOf s (false, .go false) = some s' := by
    cases hs
    exact ⟨_, rfl⟩
  have hr : ((threads 4096 96).machine Bool).Reachable s := Machine.reachable_of_runFn hs
  obtain ⟨hhead, -, -, hapart, -, hstep⟩ := allocRaw_safe (show 4096 + 96 ≤ 2 ^ 63 by omega) hr
  refine ⟨s, s', hs, hs', ?_, ?_, hhead, hapart, (hstep false _ s' hs').2.1⟩
  · cases hs
    rfl
  · cases hs
    cases hs'
    rfl

/-- One thread that fills the block and asks for one byte more, with the largest alignment. -/
def filling : List (Unit × Act) :=
  let all : Request := ⟨16, 1, by omega, 0, by omega, rfl⟩
  let more : Request := ⟨1, 2 ^ 63, by omega, 63, by omega, rfl⟩
  [((), .call all), ((), .go false), ((), .go false), ((), .go false),
    ((), .call more), ((), .go false)]

/-- On a block that ends at `2 ^ 63` the sum of start and alignment does wrap. -/
theorem addition_wraps :
    2 ^ 63 - 16 + 16 ≤ 2 ^ 63 ∧
      ∃ s, ((threads (2 ^ 63 - 16) 16).machine Unit).Reachable s ∧
        ∃ r cur, s.loc () = .reserve r cur ∧ 0 < r.size ∧
          ¬ (2 ^ 63 - 16 + cur + r.align < 2 ^ 64) := by
  obtain ⟨s, hs⟩ : ∃ s, Machine.runFn (threads (2 ^ 63 - 16) 16).stepOf
      ⟨withCapacity (2 ^ 63 - 16) 16, fun _ => Pc.idle⟩ filling = some s := ⟨_, rfl⟩
  refine ⟨by omega, s, Machine.reachable_of_runFn hs, ?_⟩
  cases hs
  exact ⟨_, _, rfl, by decide, by decide⟩

end ZeroKv.Bump
