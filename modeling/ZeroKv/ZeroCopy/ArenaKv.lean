/-
# ZeroKv.ZeroCopy.ArenaKv — the store that lends out bytes of its arena.

`put` copies the key and then the value into the arena and appends the two spans to the entries; `get` scans
the entries from the front.  Nothing is ever written twice: an allocation lies behind all earlier ones, so
that a span keeps its bytes.

The scan finds the oldest entry of a key, so a second accepted `put` of a key is never seen.  What `get`
returns is therefore the first accepted value, and the last one only where they agree.
-/
import ZeroKv.Arena
import ZeroKv.Lib.ByteMem

namespace ZeroKv.ArenaKv

/-! ## The store -/

/-- A slice of bytes: its length is a word. -/
abbrev Slice := { bytes : List UInt8 // bytes.length < 2 ^ 64 }

/-- The block that `with_capacity` got from the system allocator. -/
structure Block where
  base : ℕ
  cap : ℕ
  base_pos : 0 < base
  cap_pos : 0 < cap
  fits : base + cap ≤ 2 ^ 64

/-- The spans of a key and a value. -/
structure Entry where
  keyPtr : ℕ
  keyLen : ℕ
  valPtr : ℕ
  valLen : ℕ

/-- `ArenaKv`, with the memory its arena is in. -/
structure Store where
  arena : Bump.Arena
  mem : ByteMem
  entries : List Entry

/-- `new`, for a block with arbitrary bytes in it. -/
def new (b : Block) (mem : ByteMem) : Store where
  arena := Bump.withCapacity b.base b.cap
  mem := mem
  entries := []

def request (bytes : Slice) : Bump.Request := Bump.pushBytes bytes.1 bytes.2

namespace Store

/-- `Arena::used`. -/
def used (s : Store) : ℕ := s.arena.head

/-- `Arena::push_bytes`: the address of the copy. -/
def pushBytes (s : Store) (bytes : Slice) : Store × Option ℕ :=
  match Bump.allocRaw s.arena (request bytes) with
  | (arena, none) => ({ s with arena := arena }, none)
  | (arena, some dst) => ({ s with arena := arena, mem := s.mem.copy dst bytes.1 }, some dst)

/-- `ArenaKv::put`. -/
def put (s : Store) (key val : Slice) : Store × Bool :=
  match s.pushBytes key with
  | (s₁, none) => (s₁, false)
  | (s₁, some k) =>
      match s₁.pushBytes val with
      | (s₂, none) => (s₂, false)
      | (s₂, some v) =>
          ({ s₂ with entries := s₂.entries ++ [⟨k, key.1.length, v, val.1.length⟩] }, true)

/-- `ArenaKv::get`. -/
def get (s : Store) (key : Slice) : Option (List UInt8) :=
  (s.entries.find? fun e => s.mem.read e.keyPtr e.keyLen == key.1).map fun e =>
    s.mem.read e.valPtr e.valLen

end Store

/-! ## One allocation -/

/-- A store over a given block. -/
structure Ok (b : Block) (s : Store) : Prop where
  base_eq : s.arena.base = b.base
  cap_eq : s.arena.cap = b.cap
  used_le : s.used ≤ b.cap

theorem Ok.of_arena {b : Block} {s s₁ : Store} (h : Ok b s) (harena : s₁.arena = s.arena) : Ok b s₁ :=
  ⟨harena ▸ h.base_eq, harena ▸ h.cap_eq, (congrArg Bump.Arena.head harena).trans_le h.used_le⟩

theorem ok_new (b : Block) (mem : ByteMem) : Ok b (new b mem) := ⟨rfl, rfl, Nat.zero_le _⟩

/-- The bytes of the used part of the block stay what they are. -/
structure Grows (b : Block) (s s' : Store) : Prop where
  used_le : s.used ≤ s'.used
  bytes : ∀ a < b.base + s.used, s'.mem a = s.mem a

/-- A span of the used part of the block; an empty one may be anywhere. -/
def Within (b : Block) (s : Store) (ptr len : ℕ) : Prop :=
  len = 0 ∨ b.base ≤ ptr ∧ ptr + len ≤ b.base + s.used

section Spans

variable {b : Block} {s s₁ s₂ : Store} {ptr len : ℕ}

theorem Grows.refl (b : Block) (s : Store) : Grows b s s := ⟨le_rfl, fun _ _ => rfl⟩

theorem Grows.trans (h₁ : Grows b s s₁) (h₂ : Grows b s₁ s₂) : Grows b s s₂ where
  used_le := h₁.used_le.trans h₂.used_le
  bytes a ha := by
    have := h₁.used_le
    rw [h₂.bytes a (by omega), h₁.bytes a ha]

theorem Within.mono (h : Within b s ptr len) (hle : s.used ≤ s₁.used) : Within b s₁ ptr len := by
  unfold Within at *
  omega

theorem Within.read (h : Within b s ptr len) (hgrow : Grows b s s₁) :
    s₁.mem.read ptr len = s.mem.read ptr len := by
  rcases h with rfl | ⟨-, hle⟩
  · rfl
  · exact ByteMem.read_congr fun a _ ha => hgrow.bytes a (by omega)

end Spans

/-- What a call of `push_bytes` that found room did. -/
structure Pushed (b : Block) (s : Store) (bytes : Slice) (s' : Store) (dst : ℕ) : Prop where
  ok : Ok b s'
  used_eq : s'.used = s.used + bytes.1.length
  entries_eq : s'.entries = s.entries
  mem_eq : s'.mem = s.mem.copy dst bytes.1
  /-- The copy is behind everything that was used. -/
  dst_eq : bytes.1 = [] ∨ dst = b.base + s.used

section Push

variable {b : Block} {s s₁ : Store} {bytes : Slice} {dst : ℕ}

theorem Pushed.grows (h : Pushed b s bytes s₁ dst) : Grows b s s₁ := by
  refine ⟨by rw [h.used_eq]; omega, fun a ha => ?_⟩
  rw [h.mem_eq]
  rcases h.dst_eq with hnil | hdst
  · rw [hnil, ByteMem.copy_nil]
  · exact ByteMem.copy_of_outside (.inl (by omega))

theorem Pushed.within (h : Pushed b s bytes s₁ dst) : Within b s₁ dst bytes.1.length := by
  rcases h.dst_eq with hnil | hdst
  · exact .inl (by rw [hnil]; rfl)
  · have := h.used_eq
    exact .inr (by omega)

theorem Pushed.read (h : Pushed b s bytes s₁ dst) : s₁.mem.read dst bytes.1.length = bytes.1 := by
  rw [h.mem_eq]
  exact ByteMem.read_copy ..

theorem allocRaw_request (h : Ok b s) (hne : bytes.1 ≠ []) :
    Bump.allocRaw s.arena (request bytes) =
      if b.cap < s.used + bytes.1.length then (s.arena, none)
      else ({ s.arena with head := s.used + bytes.1.length,
                           allocs := s.arena.allocs ++ [⟨b.base + s.used, request bytes⟩] },
        some (b.base + s.used)) := by
  have hbase := h.base_eq
  have hcap := h.cap_eq
  have hused : s.arena.head ≤ b.cap := h.used_le
  have hfits := b.fits
  have hpos := b.base_pos
  rw [← hbase, ← hcap]
  exact Bump.allocRaw_pushBytes bytes.2 (by omega) (by omega) (by omega) hne

theorem allocRaw_empty (h : Ok b s) (hnil : bytes.1 = []) :
    Bump.allocRaw s.arena (request bytes) = (s.arena, some b.base) := by
  have hsize : (request bytes).size = 0 := congrArg List.length hnil
  rw [Bump.allocRaw, if_pos hsize, h.base_eq]

theorem pushBytes_full (h : Ok b s) (hfull : b.cap < s.used + bytes.1.length) :
    s.pushBytes bytes = (s, none) := by
  have hne : bytes.1 ≠ [] := by
    intro hnil
    have := h.used_le
    simp only [hnil, List.length_nil] at hfull
    omega
  rw [Store.pushBytes, allocRaw_request h hne, if_pos hfull]

theorem pushBytes_fits (h : Ok b s) (hfits : s.used + bytes.1.length ≤ b.cap) :
    ∃ s₁ dst, s.pushBytes bytes = (s₁, some dst) ∧ Pushed b s bytes s₁ dst := by
  by_cases hnil : bytes.1 = []
  · refine ⟨_, _, by rw [Store.pushBytes, allocRaw_empty h hnil], ?_⟩
    exact ⟨h.of_arena rfl, by rw [hnil]; rfl, rfl, rfl, .inl hnil⟩
  · refine ⟨_, _, by rw [Store.pushBytes, allocRaw_request h hnil, if_neg (by omega)], ?_⟩
    exact ⟨⟨h.base_eq, h.cap_eq, hfits⟩, rfl, rfl, rfl, .inr rfl⟩

end Push

/-! ## One put -/

/-- What `put` does, by the room that is left. -/
inductive PutTo (b : Block) (s : Store) (key val : Slice) : Store × Bool → Prop
  | refused : b.cap < s.used + key.1.length → PutTo b s key val (s, false)
  /-- The key is allocated and the value does not fit. -/
  | leaked {s₁ : Store} {k : ℕ} : Pushed b s key s₁ k →
      b.cap < s.used + key.1.length + val.1.length → PutTo b s key val (s₁, false)
  | accepted {s₁ s₂ : Store} {k v : ℕ} : Pushed b s key s₁ k → Pushed b s₁ val s₂ v →
      s.used + key.1.length + val.1.length ≤ b.cap →
      PutTo b s key val
        ({ s₂ with entries := s.entries ++ [⟨k, key.1.length, v, val.1.length⟩] }, true)

section Put

variable {b : Block} {s : Store}

theorem put_spec (h : Ok b s) (key val : Slice) : PutTo b s key val (s.put key val) := by
  rcases Nat.lt_or_ge b.cap (s.used + key.1.length) with hfull | hfits
  · rw [Store.put, pushBytes_full h hfull]
    exact .refused hfull
  obtain ⟨s₁, k, hkey, hk⟩ := pushBytes_fits h hfits
  have hused := hk.used_eq
  rcases Nat.lt_or_ge b.cap (s.used + key.1.length + val.1.length) with hfull | hfits
  · rw [Store.put, hkey]
    dsimp only
    rw [pushBytes_full hk.ok (by omega)]
    exact .leaked hk hfull
  · obtain ⟨s₂, v, hval, hv⟩ := pushBytes_fits hk.ok (show s₁.used + val.1.length ≤ b.cap by omega)
    rw [Store.put, hkey]
    dsimp only
    rw [hval]
    dsimp only
    rw [hv.entries_eq, hk.entries_eq]
    exact .accepted hk hv hfits

theorem PutTo.ok {key val : Slice} {r : Store × Bool} (h : Ok b s) (hput : PutTo b s key val r) :
    Ok b r.1 := by
  cases hput with
  | refused _ => exact h
  | leaked hk _ => exact hk.ok
  | accepted _ hv _ => exact hv.ok.of_arena rfl

theorem PutTo.grows {key val : Slice} {r : Store × Bool} (hput : PutTo b s key val r) :
    Grows b s r.1 := by
  cases hput with
  | refused _ => exact .refl b s
  | leaked hk _ => exact hk.grows
  | accepted hk hv _ =>
      have hgrow := hk.grows.trans hv.grows
      exact ⟨hgrow.used_le, hgrow.bytes⟩

/-- A `put` returns `true` when the key and the value fit. -/
theorem PutTo.accepted_iff {key val : Slice} {r : Store × Bool} (hput : PutTo b s key val r) :
    r.2 = true ↔ s.used + key.1.length + val.1.length ≤ b.cap := by
  cases hput with
  | refused hfull => exact ⟨nofun, fun _ => by omega⟩
  | leaked _ hfull => exact ⟨nofun, fun _ => by omega⟩
  | accepted _ _ hfits => exact ⟨fun _ => hfits, fun _ => rfl⟩

end Put

/-! ## Sequences of puts -/

/-- A sequence of calls of `put`, with their keys and values. -/
abbrev Puts := List (Slice × Slice)

def run (s : Store) : Puts → Store
  | [] => s
  | kv :: rest => run (s.put kv.1 kv.2).1 rest

/-- The puts that returned `true`. -/
def accepted (s : Store) : Puts → Puts
  | [] => []
  | kv :: rest =>
      if (s.put kv.1 kv.2).2 then kv :: accepted (s.put kv.1 kv.2).1 rest
      else accepted (s.put kv.1 kv.2).1 rest

/-- The same puts, computed from the capacity and the lengths: of a put whose value does not fit the key
stays behind. -/
def admitted (cap used : ℕ) : Puts → Puts
  | [] => []
  | kv :: rest =>
      if used + kv.1.1.length + kv.2.1.length ≤ cap then
        kv :: admitted cap (used + kv.1.1.length + kv.2.1.length) rest
      else if used + kv.1.1.length ≤ cap then admitted cap (used + kv.1.1.length) rest
      else admitted cap used rest

/-- The value of the first put of a key. -/
def earliest (puts : Puts) (key : Slice) : Option (List UInt8) :=
  (puts.find? fun kv => kv.1 == key).map fun kv => kv.2.1

/-- The value of the last put of a key. -/
def latest (puts : Puts) (key : Slice) : Option (List UInt8) := earliest puts.reverse key

section Sequences

variable {b : Block}

theorem accepted_eq_admitted {s : Store} (h : Ok b s) (puts : Puts) :
    accepted s puts = admitted b.cap s.used puts := by
  induction puts generalizing s with
  | nil => rfl
  | cons kv rest ih =>
      have hput := put_spec h kv.1 kv.2
      unfold accepted admitted
      rw [ih (hput.ok h)]
      generalize s.put kv.1 kv.2 = r at hput
      cases hput with
      | refused hfull =>
          rw [if_neg Bool.false_ne_true, if_neg (by omega), if_neg (by omega)]
      | leaked hk hfull =>
          have hused := hk.used_eq
          have hle := hk.ok.used_le
          rw [if_neg Bool.false_ne_true, if_neg (by omega), if_pos (by omega), hused]
      | accepted hk hv hfits =>
          rw [if_pos rfl, if_pos hfits, ← hk.used_eq, ← hv.used_eq]
          rfl

theorem accepted_append (s : Store) (p q : Puts) :
    accepted s (p ++ q) = accepted s p ++ accepted (run s p) q := by
  induction p generalizing s with
  | nil => rfl
  | cons kv rest ih =>
      simp only [List.cons_append, accepted, run, ih]
      split <;> rfl

/-! ### The entries show the accepted puts -/

/-- An entry and the put it is from. -/
structure Shows (b : Block) (s : Store) (e : Entry) (kv : Slice × Slice) : Prop where
  key_within : Within b s e.keyPtr e.keyLen
  val_within : Within b s e.valPtr e.valLen
  key_eq : s.mem.read e.keyPtr e.keyLen = kv.1.1
  val_eq : s.mem.read e.valPtr e.valLen = kv.2.1

theorem Shows.grows {s s₁ : Store} {e : Entry} {kv : Slice × Slice} (h : Shows b s e kv)
    (hgrow : Grows b s s₁) : Shows b s₁ e kv where
  key_within := h.key_within.mono hgrow.used_le
  val_within := h.val_within.mono hgrow.used_le
  key_eq := (h.key_within.read hgrow).trans h.key_eq
  val_eq := (h.val_within.read hgrow).trans h.val_eq

/-- The entries are those of the puts in `log`, in their order. -/
def Stores (b : Block) (s : Store) (log : Puts) : Prop := List.Forall₂ (Shows b s) s.entries log

theorem Stores.grows {s s₁ : Store} {log : Puts} (h : Stores b s log) (hgrow : Grows b s s₁)
    (hentries : s₁.entries = s.entries) : Stores b s₁ log := by
  unfold Stores
  rw [hentries]
  exact h.imp fun _ _ hshow => hshow.grows hgrow

theorem Stores.put {s : Store} {log : Puts} (h : Stores b s log) {key val : Slice}
    {r : Store × Bool} (hput : PutTo b s key val r) :
    Stores b r.1 (log ++ if r.2 then [(key, val)] else []) := by
  have hgrow := hput.grows
  cases hput with
  | refused _ => simpa using h
  | leaked hk _ => simpa using h.grows hgrow hk.entries_eq
  | accepted hk hv _ =>
      refine List.rel_append (h.imp fun _ _ hshow => hshow.grows hgrow) ?_
      refine .cons ⟨?_, ?_, ?_, ?_⟩ .nil
      · exact hk.within.mono hv.grows.used_le
      · exact hv.within
      · exact (hk.within.read hv.grows).trans hk.read
      · exact hv.read

theorem Stores.run {s : Store} {log : Puts} (hok : Ok b s) (h : Stores b s log) (puts : Puts) :
    Stores b (run s puts) (log ++ accepted s puts) := by
  induction puts generalizing s log with
  | nil => simpa [accepted, ArenaKv.run] using h
  | cons kv rest ih =>
      have hput := put_spec hok kv.1 kv.2
      have hnext := ih (hput.ok hok) (h.put hput)
      unfold accepted ArenaKv.run
      split at hnext
      · next htrue => simpa [if_pos htrue] using hnext
      · next hfalse => simpa [if_neg hfalse] using hnext

theorem find_shows {s : Store} {entries : List Entry} {log : Puts}
    (h : List.Forall₂ (Shows b s) entries log) (key : Slice) :
    ((entries.find? fun e => s.mem.read e.keyPtr e.keyLen == key.1).map fun e =>
      s.mem.read e.valPtr e.valLen) = earliest log key := by
  unfold earliest
  induction h with
  | nil => rfl
  | @cons e kv _ _ hshow _ ih =>
      have hsame : (s.mem.read e.keyPtr e.keyLen == key.1) = (kv.1 == key) := by
        rw [hshow.key_eq, Bool.eq_iff_iff, beq_iff_eq, beq_iff_eq, Subtype.ext_iff]
      rw [List.find?_cons, List.find?_cons, hsame]
      cases kv.1 == key with
      | true => exact congrArg some hshow.val_eq
      | false => exact ih

theorem Stores.get {s : Store} {log : Puts} (h : Stores b s log) (key : Slice) :
    s.get key = earliest log key := find_shows h key

/-- `get` finds the first accepted put of its key. -/
theorem get_run (b : Block) (mem : ByteMem) (puts : Puts) (key : Slice) :
    (ArenaKv.run (new b mem) puts).get key = earliest (accepted (new b mem) puts) key := by
  have h : Stores b (new b mem) [] := .nil
  simpa using (h.run (ok_new b mem) puts).get key

end Sequences

/-! ### The first and the last put of a key -/

theorem earliest_eq_none_iff {puts : Puts} {key : Slice} :
    earliest puts key = none ↔ ∀ v, (key, v) ∉ puts := by
  simp only [earliest, Option.map_eq_none_iff, List.find?_eq_none, beq_iff_eq]
  exact ⟨fun h v hmem => h _ hmem rfl, fun h kv hmem heq => h kv.2 (heq ▸ hmem)⟩

theorem exists_of_earliest {puts : Puts} {key : Slice} {bytes : List UInt8}
    (h : earliest puts key = some bytes) : ∃ v : Slice, (key, v) ∈ puts ∧ v.1 = bytes := by
  obtain ⟨kv, hfind, hval⟩ := Option.map_eq_some_iff.mp h
  have hfound := List.find?_some hfind
  have hkey : kv.1 = key := beq_iff_eq.mp hfound
  exact ⟨kv.2, hkey ▸ List.mem_of_find?_eq_some hfind, hval⟩

theorem earliest_append {p : Puts} {key : Slice} {bytes : List UInt8}
    (h : earliest p key = some bytes) (q : Puts) : earliest (p ++ q) key = some bytes := by
  obtain ⟨kv, hfind, hval⟩ := Option.map_eq_some_iff.mp h
  rw [earliest, List.find?_append, hfind]
  exact congrArg some hval

/-- All puts of one key carry the same value. -/
def Agree (puts : Puts) : Prop := ∀ kv ∈ puts, ∀ kv' ∈ puts, kv.1 = kv'.1 → kv.2 = kv'.2

theorem Agree.earliest_eq_latest {puts : Puts} (h : Agree puts) (key : Slice) :
    earliest puts key = latest puts key := by
  cases hlast : latest puts key with
  | none =>
      refine earliest_eq_none_iff.mpr fun v hmem => ?_
      exact earliest_eq_none_iff.mp hlast v (List.mem_reverse.mpr hmem)
  | some bytes =>
      obtain ⟨v, hmem, rfl⟩ := exists_of_earliest hlast
      have hv := List.mem_reverse.mp hmem
      cases hfirst : earliest puts key with
      | none => exact absurd hv (earliest_eq_none_iff.mp hfirst v)
      | some bytes =>
          obtain ⟨w, hw, rfl⟩ := exists_of_earliest hfirst
          have hsame : w = v := h _ hw _ hv rfl
          rw [hsame]

/-! ## Reading one's writes -/

/-- At every moment of the sequence `get` returns the value of the last accepted put of its key, and nothing
when there was none. -/
def ReadsWrites (s : Store) (puts : Puts) : Prop :=
  ∀ p, p <+: puts → ∀ key, (run s p).get key = latest (accepted s p) key

/-- Where the first and the last put agree at each moment, every accepted put is the first of its key. -/
theorem earliest_of_accepted {s : Store} {puts : Puts}
    (h : ∀ p, p <+: puts → ∀ key, earliest (accepted s p) key = latest (accepted s p) key)
    {kv : Slice × Slice} (hkv : kv ∈ accepted s puts) :
    earliest (accepted s puts) kv.1 = some kv.2.1 := by
  -- from the back: only the put that was made last is new
  induction puts using List.reverseRecOn with
  | nil => exact absurd hkv List.not_mem_nil
  | append_singleton p x ih =>
      have hsplit := accepted_append s p [x]
      rw [hsplit] at hkv
      rcases List.mem_append.mp hkv with hold | hnew
      · rw [hsplit]
        exact earliest_append (ih (fun q hq => h q (hq.trans (List.prefix_append p [x]))) hold) _
      · have hlast : accepted (run s p) [x] = [x] ∧ kv = x := by
          unfold accepted at hnew ⊢
          split at hnew <;> simp_all [accepted]
        rw [h _ List.prefix_rfl, hsplit, hlast.1, hlast.2]
        simp [latest, earliest]

/-- For every block and every sequence of puts: `get` returns nothing exactly for the keys without an accepted
put, and it returns what was last accepted at every moment exactly if all puts that fit and have the same key
carry the same value.  A second value for a key is accepted and never seen. -/
theorem readsWrites_iff (b : Block) (mem : ByteMem) (puts : Puts) :
    (∀ key, (run (new b mem) puts).get key = none ↔ ∀ v, (key, v) ∉ accepted (new b mem) puts) ∧
      (ReadsWrites (new b mem) puts ↔ Agree (admitted b.cap 0 puts)) := by
  have hadmit : accepted (new b mem) puts = admitted b.cap 0 puts :=
    accepted_eq_admitted (ok_new b mem) puts
  refine ⟨fun key => by rw [get_run, earliest_eq_none_iff], ?_, ?_⟩
  · intro h
    rw [← hadmit]
    have hagree : ∀ p, p <+: puts → ∀ key,
        earliest (accepted (new b mem) p) key = latest (accepted (new b mem) p) key :=
      fun p hp key => (get_run b mem p key).symm.trans (h p hp key)
    intro kv hkv kv' hkv' hkey
    have h₁ := earliest_of_accepted hagree hkv
    have h₂ := earliest_of_accepted hagree hkv'
    rw [hkey, h₂] at h₁
    exact Subtype.ext (Option.some.inj h₁).symm
  · rintro h p ⟨q, rfl⟩ key
    rw [get_run]
    refine Agree.earliest_eq_latest (fun kv hkv kv' hkv' => ?_) key
    rw [← hadmit, accepted_append] at h
    exact h kv (List.mem_append_left _ hkv) kv' (List.mem_append_left _ hkv')

/-- A block of sixteen bytes. -/
def small : Block := ⟨4096, 16, by omega, by omega, by omega⟩

/-- A key and two values for it. -/
def twice : Puts :=
  let key : Slice := ⟨[97], by simp⟩
  [(key, ⟨[1], by simp⟩), (key, ⟨[2], by simp⟩)]

/-- The second value is accepted, and the first one is read. -/
theorem second_value_not_seen :
    accepted (new small fun _ => 0) twice = twice ∧ ¬ ReadsWrites (new small fun _ => 0) twice := by
  have haccepted : accepted (new small fun _ => 0) twice = twice := by decide +kernel
  refine ⟨haccepted, fun h => ?_⟩
  have hread := h twice List.prefix_rfl ⟨[97], by simp⟩
  rw [get_run, haccepted] at hread
  revert hread
  decide +kernel

end ZeroKv.ArenaKv
