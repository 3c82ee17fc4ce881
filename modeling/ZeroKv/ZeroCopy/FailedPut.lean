/-
# ZeroKv.ZeroCopy.FailedPut — what a put that fails leaves behind.

A `put` whose value does not fit has already allocated its key, and these bytes are gone.  The state in which
it finds the store may be the work of many threads, so the puts of any number of them are modelled here step
by step, and the failing one is then run on its own.  `During` connects the two: a thread that nobody disturbs
comes to what `Store.put` says, however often the weak exchange fails for no reason.
-/
import Mathlib
import ZeroKv.ZeroCopy.ArenaKv

namespace ZeroKv.ArenaKv

/-! ## Threads that put -/

/-- Program points of `put`; the two allocations are calls of the allocator. -/
inductive Pc
  | idle
  | allocKey (key val : Slice) (pc : Bump.Pc)
  | copyKey (key val : Slice) (k : ℕ)
  | allocVal (key val : Slice) (k : ℕ) (pc : Bump.Pc)
  | copyVal (key val : Slice) (k v : ℕ)
  | push (key val : Slice) (k v : ℕ)
  | ret (result : Bool)

inductive Act
  | put (key val : Slice)
  | go (spurious : Bool)

/-- A step of the allocator inside `put`, for what comes next when it returns. -/
def allocStep (s : Store) (bytes : Slice) (spurious : Bool) (inside : Bump.Pc → Pc) (done : ℕ → Pc) :
    Bump.Pc → Option (Store × Pc)
  | .ret _ none => some (s, .ret false)
  | .ret _ (some p) => some (s, done p)
  | pc => (Bump.callStep s.arena (request bytes) pc spurious).map fun r =>
      ({ s with arena := r.1 }, inside r.2)

def step (s : Store) : Pc → Act → Option (Store × Pc)
  | .idle, .put key val => some (s, .allocKey key val .idle)
  | .allocKey key val pc, .go spurious =>
      allocStep s key spurious (.allocKey key val) (.copyKey key val) pc
  | .copyKey key val k, .go _ =>
      some ({ s with mem := s.mem.copy k key.1 }, .allocVal key val k .idle)
  | .allocVal key val k pc, .go spurious =>
      allocStep s val spurious (.allocVal key val k) (.copyVal key val k) pc
  | .copyVal key val k v, .go _ => some ({ s with mem := s.mem.copy v val.1 }, .push key val k v)
  | .push key val k v, .go _ =>
      some ({ s with entries := s.entries ++ [⟨k, key.1.length, v, val.1.length⟩] }, .ret true)
  | .ret _, .go _ => some (s, .idle)
  | _, _ => none

def threads (b : Block) (mem : ByteMem) : Threads Store Pc Act where
  mem := new b mem
  loc := .idle
  step := step

/-! ## What the threads keep -/

section Threads

variable {b : Block} {s s₁ : Store} {bytes : Slice}

/-- The store between the steps of many threads: the spans of the entries are in use. -/
structure Sound (b : Block) (s : Store) : Prop extends Ok b s where
  within : ∀ e ∈ s.entries, Within b s e.keyPtr e.keyLen ∧ Within b s e.valPtr e.valLen

/-- What a thread knows inside the allocator. -/
def AllocOk (b : Block) (s : Store) (bytes : Slice) : Bump.Pc → Prop
  | .loadHead r => r = request bytes ∧ bytes.1 ≠ []
  | .reserve r _ => r = request bytes ∧ bytes.1 ≠ []
  | .ret _ (some p) => Within b s p bytes.1.length
  | _ => True

/-- What a thread knows inside `put`. -/
def Pc.Ok (b : Block) (s : Store) : Pc → Prop
  | .allocKey key _ pc => AllocOk b s key pc
  | .copyKey key _ k => Within b s k key.1.length
  | .allocVal key val k pc => Within b s k key.1.length ∧ AllocOk b s val pc
  | .copyVal key val k v => Within b s k key.1.length ∧ Within b s v val.1.length
  | .push key val k v => Within b s k key.1.length ∧ Within b s v val.1.length
  | _ => True

theorem AllocOk.mono {pc : Bump.Pc} (h : AllocOk b s bytes pc) (hle : s.used ≤ s₁.used) :
    AllocOk b s₁ bytes pc := by
  unfold AllocOk at *
  split
  · exact h
  · exact h
  · exact Within.mono h hle
  · trivial

theorem Pc.Ok.mono {pc : Pc} (h : pc.Ok b s) (hle : s.used ≤ s₁.used) : pc.Ok b s₁ := by
  cases pc with
  | allocKey key val pc => exact AllocOk.mono h hle
  | copyKey key val k => exact Within.mono h hle
  | allocVal key val k pc => exact ⟨h.1.mono hle, h.2.mono hle⟩
  | copyVal key val k v => exact ⟨h.1.mono hle, h.2.mono hle⟩
  | push key val k v => exact ⟨h.1.mono hle, h.2.mono hle⟩
  | _ => trivial

theorem Sound.mono (h : Sound b s) (hok : Ok b s₁) (hentries : s₁.entries = s.entries)
    (hle : s.used ≤ s₁.used) : Sound b s₁ where
  toOk := hok
  within e he := by
    obtain ⟨hk, hv⟩ := h.within e (hentries ▸ he)
    exact ⟨hk.mono hle, hv.mono hle⟩

/-- A step of the allocator keeps the block in order; the chunk it returns is in use. -/
theorem callStep_ok {pc pc₁ : Bump.Pc} {m : Bump.Arena} {spurious : Bool} (h : Ok b s)
    (hpc : AllocOk b s bytes pc) (hret : ∀ r p, pc ≠ .ret r p)
    (hst : Bump.callStep s.arena (request bytes) pc spurious = some (m, pc₁)) :
    Ok b { s with arena := m } ∧ AllocOk b { s with arena := m } bytes pc₁ ∧
      s.used ≤ Store.used { s with arena := m } := by
  cases pc with
  | idle =>
      by_cases hnil : bytes.1 = []
      · have hsize : (request bytes).size = 0 := congrArg List.length hnil
        simp only [Bump.callStep, Bump.step, if_pos hsize, Option.some.injEq, Prod.mk.injEq] at hst
        obtain ⟨rfl, rfl⟩ := hst
        exact ⟨h, .inl (congrArg List.length hnil), le_rfl⟩
      · have hsize : (request bytes).size ≠ 0 := mt List.length_eq_zero_iff.mp hnil
        simp only [Bump.callStep, Bump.step, if_neg hsize, Option.some.injEq, Prod.mk.injEq] at hst
        obtain ⟨rfl, rfl⟩ := hst
        exact ⟨h, ⟨rfl, hnil⟩, le_rfl⟩
  | loadHead r =>
      cases hst
      exact ⟨h, hpc, le_rfl⟩
  | reserve r cur =>
      obtain ⟨rfl, hne⟩ := hpc
      have hturn : Bump.turn s.arena (request bytes) cur spurious = (m, pc₁) := Option.some.inj hst
      rcases Bump.commit_spec hturn with ⟨rfl, hquiet⟩ | ⟨head, hhead, rfl, hle, rfl, rfl⟩
      · refine ⟨h, ?_, le_rfl⟩
        cases hquiet with
        | retry => exact ⟨rfl, hne⟩
        | refuse => trivial
      · have hbase := h.base_eq
        have hcap := h.cap_eq
        have hused : s.arena.head ≤ b.cap := h.used_le
        have hfits := b.fits
        have hpos := b.base_pos
        have hlen := List.length_pos_iff.mpr hne
        rw [request, Bump.newHead_pushBytes (by omega), checkedAdd] at hhead
        cases (Option.ite_none_right_eq_some.mp hhead).2
        -- bytes have alignment one, so the chunk starts at the cursor
        have hptr : Bump.aligned s.arena.base (request bytes) s.arena.head = b.base + s.used := by
          rw [request, Bump.aligned_pushBytes, hbase]
          exact Nat.mod_eq_of_lt (by omega)
        refine ⟨⟨hbase, hcap, hcap ▸ hle⟩, .inr ?_, Nat.le_add_right _ _⟩
        rw [hptr]
        exact ⟨Nat.le_add_right _ _, (Nat.add_assoc ..).le⟩
  | ret r p => exact absurd rfl (hret r p)

/-- One step inside the allocator, for either of the two allocations of `put`. -/
theorem allocStep_ok {pc : Bump.Pc} {pc₁ : Pc} {spurious : Bool} {inside : Bump.Pc → Pc}
    {done : ℕ → Pc} (h : Sound b s) (hpc : AllocOk b s bytes pc)
    (hst : allocStep s bytes spurious inside done pc = some (s₁, pc₁)) :
    Sound b s₁ ∧ s.used ≤ s₁.used ∧
      (pc₁ = .ret false ∨ (∃ p, pc₁ = done p ∧ Within b s₁ p bytes.1.length) ∨
        ∃ pc₂, pc₁ = inside pc₂ ∧ AllocOk b s₁ bytes pc₂) := by
  unfold allocStep at hst
  split at hst
  · cases hst
    exact ⟨h, le_rfl, .inl rfl⟩
  · next p =>
      cases hst
      exact ⟨h, le_rfl, .inr (.inl ⟨p, rfl, hpc⟩)⟩
  · next hnone hsome =>
      obtain ⟨⟨m, pc₂⟩, hcall, hr⟩ := Option.map_eq_some_iff.mp hst
      cases hr
      have hret : ∀ r p, pc ≠ .ret r p := by
        rintro r (_ | p) rfl
        · exact hnone r rfl
        · exact hsome r p rfl
      obtain ⟨hok, hpc₂, hle⟩ := callStep_ok h.toOk hpc hret hcall
      exact ⟨h.mono hok rfl hle, hle, .inr (.inr ⟨pc₂, rfl, hpc₂⟩)⟩

theorem step_ok {pc pc₁ : Pc} {a : Act} (h : Sound b s) (hpc : pc.Ok b s)
    (hst : step s pc a = some (s₁, pc₁)) : Sound b s₁ ∧ pc₁.Ok b s₁ ∧ s.used ≤ s₁.used := by
  unfold step at hst
  split at hst
  · cases hst
    exact ⟨h, trivial, le_rfl⟩
  · obtain ⟨hs, hle, hnext⟩ := allocStep_ok h hpc hst
    refine ⟨hs, ?_, hle⟩
    rcases hnext with rfl | ⟨p, rfl, hp⟩ | ⟨pc₂, rfl, hpc₂⟩
    · trivial
    · exact hp
    · exact hpc₂
  · cases hst
    exact ⟨h.mono (h.toOk.of_arena rfl) rfl le_rfl, ⟨hpc, trivial⟩, le_rfl⟩
  · obtain ⟨hs, hle, hnext⟩ := allocStep_ok h hpc.2 hst
    have hkey := hpc.1.mono hle
    refine ⟨hs, ?_, hle⟩
    rcases hnext with rfl | ⟨p, rfl, hp⟩ | ⟨pc₂, rfl, hpc₂⟩
    · trivial
    · exact ⟨hkey, hp⟩
    · exact ⟨hkey, hpc₂⟩
  · cases hst
    exact ⟨h.mono (h.toOk.of_arena rfl) rfl le_rfl, hpc, le_rfl⟩
  · cases hst
    refine ⟨⟨h.toOk.of_arena rfl, fun e he => ?_⟩, trivial, le_rfl⟩
    rcases List.mem_append.mp he with he | he
    · exact h.within e he
    · cases List.mem_singleton.mp he
      exact hpc
  · cases hst
    exact ⟨h, trivial, le_rfl⟩
  · cases hst

/-- The puts of any number of threads keep the store sound. -/
def invariant (b : Block) (mem : ByteMem) : (threads b mem).Invariant where
  shared := Sound b
  own := Pc.Ok b
  apart _ _ := True
  init_shared := ⟨ok_new b mem, fun _ he => absurd he List.not_mem_nil⟩
  init_own := trivial
  init_apart := trivial
  keep hs hpc hst := ⟨(step_ok hs hpc hst).1, (step_ok hs hpc hst).2.1⟩
  bystander hs hpc hb _ _ hst := ⟨Pc.Ok.mono hb (step_ok hs hpc hst).2.2, trivial, trivial⟩

end Threads

/-! ## A thread that nobody disturbs -/

/-- The states of a `put` that started with the store `s` and that nobody disturbed. -/
inductive During (s : Store) (key val : Slice) : Store → Pc → Prop
  | allocKey {m : Bump.Arena} {pc : Bump.Pc} :
      Bump.Undisturbed s.arena (request key) m pc →
      During s key val { s with arena := m } (.allocKey key val pc)
  | copyKey {m : Bump.Arena} {k : ℕ} : Bump.allocRaw s.arena (request key) = (m, some k) →
      During s key val { s with arena := m } (.copyKey key val k)
  | allocVal {s₁ : Store} {k : ℕ} {m : Bump.Arena} {pc : Bump.Pc} :
      s.pushBytes key = (s₁, some k) → Bump.Undisturbed s₁.arena (request val) m pc →
      During s key val { s₁ with arena := m } (.allocVal key val k pc)
  | copyVal {s₁ : Store} {k v : ℕ} {m : Bump.Arena} :
      s.pushBytes key = (s₁, some k) → Bump.allocRaw s₁.arena (request val) = (m, some v) →
      During s key val { s₁ with arena := m } (.copyVal key val k v)
  | push {s₁ s₂ : Store} {k v : ℕ} : s.pushBytes key = (s₁, some k) →
      s₁.pushBytes val = (s₂, some v) → During s key val s₂ (.push key val k v)
  | ret : During s key val (s.put key val).1 (.ret (s.put key val).2)

section Alone

variable {s s₁ s₂ : Store} {key val : Slice}

theorem put_of_key_none {m : Bump.Arena} (h : Bump.allocRaw s.arena (request key) = (m, none)) :
    s.put key val = ({ s with arena := m }, false) := by
  rw [Store.put, Store.pushBytes, h]

theorem put_of_val_none {k : ℕ} {m : Bump.Arena} (hkey : s.pushBytes key = (s₁, some k))
    (h : Bump.allocRaw s₁.arena (request val) = (m, none)) :
    s.put key val = ({ s₁ with arena := m }, false) := by
  rw [Store.put, hkey]
  dsimp only
  rw [Store.pushBytes, h]

theorem put_of_some {k v : ℕ} (hkey : s.pushBytes key = (s₁, some k))
    (hval : s₁.pushBytes val = (s₂, some v)) :
    s.put key val =
      ({ s₂ with entries := s₂.entries ++ [⟨k, key.1.length, v, val.1.length⟩] }, true) := by
  rw [Store.put, hkey]
  dsimp only
  rw [hval]

theorem pushBytes_of_some {bytes : Slice} {p : ℕ} {m : Bump.Arena}
    (h : Bump.allocRaw s.arena (request bytes) = (m, some p)) :
    s.pushBytes bytes = ({ s with arena := m, mem := s.mem.copy p bytes.1 }, some p) := by
  rw [Store.pushBytes, h]

/-- A step of one of the two allocations, when nobody disturbs it. -/
theorem allocStep_alone {bytes : Slice} {m : Bump.Arena} {pc : Bump.Pc} {pc₁ : Pc} {spurious : Bool}
    {inside : Bump.Pc → Pc} {done : ℕ → Pc} (h : Bump.Undisturbed s.arena (request bytes) m pc)
    (hst : allocStep { s with arena := m } bytes spurious inside done pc = some (s₁, pc₁)) :
    ∃ m₁, s₁ = { s with arena := m₁ } ∧
      (Bump.allocRaw s.arena (request bytes) = (m₁, none) ∧ pc₁ = .ret false ∨
        (∃ p, Bump.allocRaw s.arena (request bytes) = (m₁, some p) ∧ pc₁ = done p) ∨
        ∃ pc₂, Bump.Undisturbed s.arena (request bytes) m₁ pc₂ ∧ pc₁ = inside pc₂) := by
  unfold allocStep at hst
  split at hst
  · cases hst
    exact ⟨m, rfl, .inl ⟨h.ret_eq, rfl⟩⟩
  · next p =>
      cases hst
      exact ⟨m, rfl, .inr (.inl ⟨p, h.ret_eq, rfl⟩)⟩
  · next hnone hsome =>
      obtain ⟨⟨m₁, pc₂⟩, hcall, hr⟩ := Option.map_eq_some_iff.mp hst
      cases hr
      have hret : ∀ p, pc ≠ .ret (request bytes) p := by
        rintro (_ | p) rfl
        · exact hnone _ rfl
        · exact hsome _ p rfl
      exact ⟨m₁, rfl, .inr (.inr ⟨pc₂, h.step hret hcall, rfl⟩)⟩

/-- An undisturbed thread stays on its way to what `put` returns. -/
theorem During.step {pc pc₂ : Pc} {spurious : Bool} (h : During s key val s₁ pc)
    (hret : ∀ r, pc ≠ .ret r) (hst : ArenaKv.step s₁ pc (.go spurious) = some (s₂, pc₂)) :
    During s key val s₂ pc₂ := by
  cases h with
  | allocKey hund =>
      obtain ⟨m, rfl, ⟨hnone, rfl⟩ | ⟨k, hsome, rfl⟩ | ⟨pc, hnext, rfl⟩⟩ := allocStep_alone hund hst
      · simpa only [put_of_key_none hnone] using @During.ret s key val
      · exact .copyKey hsome
      · exact .allocKey hnext
  | copyKey hsome =>
      cases hst
      exact .allocVal (pushBytes_of_some hsome) .idle
  | allocVal hkey hund =>
      obtain ⟨m, rfl, ⟨hnone, rfl⟩ | ⟨v, hsome, rfl⟩ | ⟨pc, hnext, rfl⟩⟩ := allocStep_alone hund hst
      · simpa only [put_of_val_none hkey hnone] using @During.ret s key val
      · exact .copyVal hkey hsome
      · exact .allocVal hkey hnext
  | copyVal hkey hsome =>
      cases hst
      exact .push hkey (pushBytes_of_some hsome)
  | push hkey hval =>
      cases hst
      simpa only [put_of_some hkey hval] using @During.ret s key val
  | ret => exact absurd rfl (hret _)

/-- Steps that are left of a `put`, at most, when no exchange fails. -/
def Pc.left : Pc → ℕ
  | .idle => 0
  | .allocKey _ _ pc => 8 + pc.left
  | .copyKey _ _ _ => 7
  | .allocVal _ _ _ pc => 3 + pc.left
  | .copyVal _ _ _ _ => 2
  | .push _ _ _ _ => 1
  | .ret _ => 0

theorem allocStep_progress {bytes : Slice} {m : Bump.Arena} {pc : Bump.Pc}
    (h : Bump.Undisturbed s.arena (request bytes) m pc) (inside : Bump.Pc → Pc) (done : ℕ → Pc) :
    ∃ s₁ pc₁, allocStep { s with arena := m } bytes false inside done pc = some (s₁, pc₁) ∧
      (pc₁ = .ret false ∨ (∃ p, pc₁ = done p) ∨ ∃ pc₂, pc₁ = inside pc₂ ∧ pc₂.left < pc.left) := by
  by_cases hret : ∃ p, pc = .ret (request bytes) p
  · obtain ⟨p, rfl⟩ := hret
    cases p with
    | none => exact ⟨_, _, rfl, .inl rfl⟩
    | some p => exact ⟨_, _, rfl, .inr (.inl ⟨p, rfl⟩)⟩
  · obtain ⟨m₂, pc₂, hcall, hlt⟩ := h.progress fun p hp => hret ⟨p, hp⟩
    refine ⟨{ s with arena := m₂ }, inside pc₂, ?_, .inr (.inr ⟨pc₂, rfl, hlt⟩)⟩
    cases h with
    | ret => exact absurd ⟨_, rfl⟩ hret
    | _ => simp only [allocStep, hcall, Option.map_some]

theorem During.progress {pc : Pc} (h : During s key val s₁ pc) (hret : ∀ r, pc ≠ .ret r) :
    ∃ s₂ pc₂, ArenaKv.step s₁ pc (.go false) = some (s₂, pc₂) ∧ pc₂.left < pc.left := by
  cases h with
  | allocKey hund =>
      obtain ⟨s₂, pc₂, hst, hnext⟩ := allocStep_progress hund (.allocKey key val) (.copyKey key val)
      refine ⟨s₂, pc₂, hst, ?_⟩
      rcases hnext with rfl | ⟨p, rfl⟩ | ⟨pc₃, rfl, hlt⟩
      all_goals
        simp only [Pc.left]
        omega
  | copyKey _ => exact ⟨_, _, rfl, by simp [Pc.left, Bump.Pc.left]⟩
  | @allocVal _ k _ _ _ hund =>
      obtain ⟨s₂, pc₂, hst, hnext⟩ :=
        allocStep_progress hund (.allocVal key val k) (.copyVal key val k)
      refine ⟨s₂, pc₂, hst, ?_⟩
      rcases hnext with rfl | ⟨p, rfl⟩ | ⟨pc₃, rfl, hlt⟩
      all_goals
        simp only [Pc.left]
        omega
  | copyVal _ _ => exact ⟨_, _, rfl, by simp [Pc.left]⟩
  | push _ _ => exact ⟨_, _, rfl, by simp [Pc.left]⟩
  | ret => exact absurd rfl (hret _)

/-- One thread, with nobody else. -/
def solo (c : Store × Pc) (a : Act) : Option (Store × Pc) := ArenaKv.step c.1 c.2 a

theorem During.returns {pc : Pc} (h : During s key val s₁ pc) :
    ∃ acts, Machine.runFn solo (s₁, pc) acts =
      some ((s.put key val).1, .ret (s.put key val).2) := by
  induction hn : pc.left using Nat.strong_induction_on generalizing s₁ pc with
  | _ n ih =>
      by_cases hret : ∃ r, pc = .ret r
      · obtain ⟨r, rfl⟩ := hret
        cases h
        exact ⟨[], rfl⟩
      · have hne : ∀ r, pc ≠ .ret r := fun r hr => hret ⟨r, hr⟩
        obtain ⟨s₂, pc₂, hst, hlt⟩ := h.progress hne
        obtain ⟨acts, hacts⟩ := ih _ (hn ▸ hlt) (h.step hne hst) rfl
        refine ⟨.go false :: acts, ?_⟩
        rw [Machine.runFn, solo, hst]
        exact hacts

/-- A thread that calls `put` and that nobody disturbs returns, with the store and the result of `put`. -/
theorem put_returns (s : Store) (key val : Slice) :
    ∃ acts, Machine.runFn solo (s, .idle) (.put key val :: acts) =
      some ((s.put key val).1, .ret (s.put key val).2) :=
  During.returns (s := s) (.allocKey .idle)

end Alone

/-! ## A put that fails -/

/-- The store is as it was, as far as a caller can tell: the entries, what every `get` returns, the bytes in
use, and which puts still fit. -/
structure AsBefore (s s₁ : Store) : Prop where
  entries_eq : s₁.entries = s.entries
  get_eq : ∀ key, s₁.get key = s.get key
  used_eq : s₁.used = s.used
  still_fits : ∀ key val, (s.put key val).2 = true → (s₁.put key val).2 = true

section Failed

variable {b : Block} {s s₁ : Store} {key val : Slice}

/-- Growing changes no `get`, as the entries' spans were in use. -/
theorem Sound.get_eq (h : Sound b s) (hgrow : Grows b s s₁) (hentries : s₁.entries = s.entries)
    (key : Slice) : s₁.get key = s.get key := by
  unfold Store.get
  rw [hentries, List.find?_congr fun e he => by rw [(h.within e he).1.read hgrow]]
  refine Option.map_congr fun e he => ?_
  exact (h.within e (List.mem_of_find?_eq_some he)).2.read hgrow

/-- A put that fails changes neither the entries nor what any `get` returns. -/
theorem Sound.put_false (h : Sound b s) {r : Store × Bool} (hput : PutTo b s key val r)
    (hfalse : r.2 = false) : r.1.entries = s.entries ∧ ∀ key, r.1.get key = s.get key := by
  have hgrow := hput.grows
  cases hput with
  | refused _ => exact ⟨rfl, fun _ => rfl⟩
  | leaked hk _ => exact ⟨hk.entries_eq, h.get_eq hgrow hk.entries_eq⟩
  | accepted _ _ _ => cases hfalse

/-- With the same bytes in use the same puts fit. -/
theorem Ok.still_fits (h : Ok b s) (h₁ : Ok b s₁) (hused : s₁.used = s.used)
    (hput : (s.put key val).2 = true) : (s₁.put key val).2 = true := by
  rw [(put_spec h key val).accepted_iff] at hput
  rwa [(put_spec h₁ key val).accepted_iff, hused]

end Failed

/-- Whatever the threads did before: a `put` that fails leaves the entries and the result of every `get` as
they were.  It leaves the store as it was, with the same bytes in use, exactly if the key is empty or does not
fit either, and for puts that succeed there is nothing to show.  Otherwise the bytes of the key are lost. -/
theorem failed_put_iff {τ : Type} [DecidableEq τ] {b : Block} {mem : ByteMem} {c : Config τ Store Pc}
    (hc : ((threads b mem).machine τ).Reachable c) (key val : Slice) :
    ((c.mem.put key val).2 = false →
        (c.mem.put key val).1.entries = c.mem.entries ∧
          ∀ key', (c.mem.put key val).1.get key' = c.mem.get key') ∧
      (((c.mem.put key val).2 = false → AsBefore c.mem (c.mem.put key val).1) ↔
        key.1 = [] ∨ b.cap < c.mem.used + key.1.length ∨
          c.mem.used + key.1.length + val.1.length ≤ b.cap) := by
  have h : Sound b c.mem := ((invariant b mem).holds hc).shared
  have hput := put_spec h.toOk key val
  have hok := hput.ok h.toOk
  refine ⟨h.put_false hput, ?_, ?_⟩
  · intro hsame
    generalize c.mem.put key val = r at hput hsame
    cases hput with
    | refused hfull => exact .inr (.inl hfull)
    -- the key was stored and the value was not: its bytes stay in use
    | leaked hk _ =>
        have hused := (hsame rfl).used_eq
        rw [hk.used_eq] at hused
        exact .inl (List.length_eq_zero_iff.mp (by omega))
    | accepted _ _ hfits => exact .inr (.inr hfits)
  · intro hcond hfalse
    obtain ⟨hentries, hget⟩ := h.put_false hput hfalse
    have hused : (c.mem.put key val).1.used = c.mem.used := by
      generalize c.mem.put key val = r at hput hfalse
      cases hput with
      | refused _ => rfl
      | leaked hk hfull =>
          have hle := hk.ok.used_le
          rw [hk.used_eq] at hle ⊢
          rcases hcond with hnil | hfull' | hfits
          · rw [hnil]
            rfl
          · omega
          · omega
      | accepted _ _ _ => cases hfalse
    exact ⟨hentries, hget, hused, fun _ _ => Ok.still_fits h.toOk hok hused⟩

/-- A block of four bytes. -/
def tiny : Block := ⟨4096, 4, small.base_pos, by decide, by decide⟩

/-- A put of one byte of key and one of value, from the call to the return. -/
def onePut : List (Unit × Act) :=
  ((), .put ⟨[7], by simp⟩ ⟨[8], by simp⟩) :: List.replicate 12 ((), .go false)

theorem failed_put_iff_tiny :
    ∃ c : Config Unit Store Pc, Machine.runFn (threads tiny fun _ => 0).stepOf
        ⟨new tiny fun _ => 0, fun _ => .idle⟩ onePut = some c ∧
      (c.mem.used = 2 ∧ c.mem.get ⟨[7], by simp⟩ = some [8]) ∧
      (c.mem.put ⟨[1, 2, 3], by simp⟩ ⟨[6], by simp⟩).2 = false ∧
      AsBefore c.mem (c.mem.put ⟨[1, 2, 3], by simp⟩ ⟨[6], by simp⟩).1 := by
  have hrun : (Machine.runFn (threads tiny fun _ => 0).stepOf
      ⟨new tiny fun _ => 0, fun _ : Unit => .idle⟩ onePut).any (fun c =>
        (c.mem.used = 2 ∧ c.mem.get ⟨[7], by simp⟩ = some [8]) ∧
          (c.mem.put ⟨[1, 2, 3], by simp⟩ ⟨[6], by simp⟩).2 = false) = true := by
    decide +kernel
  obtain ⟨c, hc, hend⟩ := (Option.any_eq_true _ _).mp hrun
  obtain ⟨⟨hused, hget⟩, hfalse⟩ := of_decide_eq_true hend
  have hr : ((threads tiny fun _ => 0).machine Unit).Reachable c := Machine.reachable_of_runFn hc
  have hfull : tiny.cap < c.mem.used + 3 := by
    rw [hused]
    decide
  exact ⟨c, hc, ⟨hused, hget⟩, hfalse, (failed_put_iff hr _ _).2.mpr (.inr (.inl hfull)) hfalse⟩

/-- Three bytes of key are lost with a value that does not fit, and then a put of four bytes in all fails that
would have fitted before. -/
theorem failed_put_loses_key :
    ((threads tiny fun _ => 0).machine Unit).Reachable ⟨new tiny fun _ => 0, fun _ => .idle⟩ ∧
      let failed := (new tiny fun _ => 0).put ⟨[1, 2, 3], by simp⟩ ⟨[4, 5], by simp⟩
      failed.2 = false ∧ (new tiny fun _ => 0).used = 0 ∧ failed.1.used = 3 ∧
        ((new tiny fun _ => 0).put ⟨[1], by simp⟩ ⟨[2, 3, 4], by simp⟩).2 = true ∧
        (failed.1.put ⟨[1], by simp⟩ ⟨[2, 3, 4], by simp⟩).2 = false := by
  refine ⟨.start rfl, ?_⟩
  decide +kernel

end ZeroKv.ArenaKv
