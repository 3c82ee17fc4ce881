/-
# ZeroKv.Borrow — how long the cell behind a zero-copy slice lives.

`ShardedIndex::get` returns a slice into a value cell, valid while the caller's guard is held.  All guards
of a thread share one cached participant slot, and dropping any of them stores `UNPINNED` there.  The
guards that `insert`, `remove` and `get_owned` pin for themselves are no exception: after such a call the
thread counts as unpinned, although the caller's guard still lives.

A single-threaded program is a list of commands over the public interface.  What it does to the domain
depends only on the number of guards dropped: every 128th drop collects, every collection finds the slot
unpinned and advances the epoch, and the second collection after a cell was displaced frees it.  So a slice
outlives its cell exactly when two collections fall between the call that displaces the value and the drop
of the guard.  `Ledger` does this bookkeeping on the text of the program.
-/
import ZeroKv.Ebr.Alone
import ZeroKv.Shard
import ZeroKv.SkipList.Cells

namespace ZeroKv.Borrow

open SkipList Shard

/-! ## Programs of one thread -/

/-- A statement of a single-threaded program.  Guards are numbered in the order they are pinned; an insert
comes with the height drawn for its tower. -/
inductive Cmd
  | pin
  | drop (guard : ℕ)
  | get (key : Bytes) (guard : ℕ)
  | insert (key val : Bytes) (topLevel : ℕ)
  | remove (key : Bytes)
  | getOwned (key : Bytes)
deriving DecidableEq

/-- A slice returned by `get`: the guard it borrows and the cell it points into. -/
structure Slice where
  guard : ℕ
  shard : ℕ
  cell : ℕ
deriving DecidableEq

/-- What is retired: garbage of one of the shards. -/
abbrev Scrap := ℕ × Garbage

/-- The state of the program: the index, the reclamation domain with the thread-locals, the guards and
the slices that live. -/
structure World where
  idx : ShardedIndex
  dom : Ebr.Domain Scrap
  loc : Ebr.Local Scrap
  guards : List ℕ
  pinned : ℕ
  slices : List Slice

def World.new (idx : ShardedIndex) : World where
  idx := idx
  dom := .new Scrap
  loc := .new Scrap
  guards := []
  pinned := 0
  slices := []

/-- A call on the key's shard: the index after it, what the call left, and what it retired. -/
def onShard (idx : ShardedIndex) (fuel : ℕ) (op : Op) (topLevel : ℕ) :
    Option (ShardedIndex × Outcome × List Scrap) := do
  let m ← idx.shards[idx.shard op.key]?
  let out ← call idx.maxLevel fuel m op topLevel
  some ({ idx with shards := idx.shards.set (idx.shard op.key) out.mem }, out,
    (out.mem.retired.drop m.retired.length).map fun g => (idx.shard op.key, g))

/-- `guard.retire(..)` for each piece of garbage. -/
def retireAll (fuel : ℕ) : Ebr.Domain Scrap → Ebr.Local Scrap → List Scrap →
    Option (Ebr.Domain Scrap × Ebr.Local Scrap)
  | d, l, [] => some (d, l)
  | d, l, g :: gs => (Ebr.call fuel d l (.retire g)).bind fun x => retireAll fuel x.1 x.2 gs

namespace World

/-- `let guard = pin(); self.shard(key).op(key, .., &guard)`, with the drop of the guard at the end. -/
def guarded (fuel : ℕ) (w : World) (op : Op) (topLevel : ℕ) : Option World := do
  let (d₁, l₁) ← Ebr.call fuel w.dom w.loc .pin
  let (idx, _, gs) ← onShard w.idx fuel op topLevel
  let (d₂, l₂) ← retireAll fuel d₁ l₁ gs
  let (d₃, l₃) ← Ebr.call fuel d₂ l₂ .unpin
  some { w with idx := idx, dom := d₃, loc := l₃ }

/-- One statement.  A guard that is used must live. -/
def step (fuel : ℕ) (w : World) : Cmd → Option World
  | .pin => do
      let (d, l) ← Ebr.call fuel w.dom w.loc .pin
      some { w with dom := d, loc := l, guards := w.guards ++ [w.pinned], pinned := w.pinned + 1 }
  | .drop g =>
      if g ∈ w.guards then do
        let (d, l) ← Ebr.call fuel w.dom w.loc .unpin
        some
          { w with
            dom := d
            loc := l
            guards := w.guards.erase g
            slices := w.slices.filter (·.guard ≠ g) }
      else none
  | .get key g =>
      if g ∈ w.guards then do
        let (idx, out, _) ← onShard w.idx fuel (.get key) 0
        some
          { w with
            idx := idx
            slices := w.slices ++ (out.borrow.map fun c => ⟨g, w.idx.shard key, c⟩).toList }
      else none
  | .insert key val topLevel => w.guarded fuel (.insert key val) topLevel
  | .remove key => w.guarded fuel (.remove key) 0
  | .getOwned key => w.guarded fuel (.get key) 0

/-- A whole program. -/
def run (fuel : ℕ) : World → List Cmd → Option World
  | w, [] => some w
  | w, c :: cs => (w.step fuel c).bind fun w' => run fuel w' cs

/-- The cells freed so far, each with its shard. -/
def freed (w : World) : List (ℕ × ℕ) :=
  w.dom.dropped.filterMap fun r => do
    let (i, g) ← w.dom.garbageOf r
    let m ← w.idx.shards[i]?
    let c ← g.frees m
    some (i, c)

/-- No slice that still lives points into a freed cell. -/
def Sound (w : World) : Prop := ∀ b ∈ w.slices, (b.shard, b.cell) ∉ w.freed

end World

/-! ## The text of a program -/

/-- The program only uses guards that live, and draws no tower above `max_level`. -/
def WellFormed (maxLevel : ℕ) : List ℕ → ℕ → List Cmd → Prop
  | _, _, [] => True
  | guards, pinned, .pin :: cs => WellFormed maxLevel (guards ++ [pinned]) (pinned + 1) cs
  | guards, pinned, .drop g :: cs => g ∈ guards ∧ WellFormed maxLevel (guards.erase g) pinned cs
  | guards, pinned, .get _ g :: cs => g ∈ guards ∧ WellFormed maxLevel guards pinned cs
  | guards, pinned, .insert _ _ topLevel :: cs =>
      topLevel ≤ maxLevel ∧ WellFormed maxLevel guards pinned cs
  | guards, pinned, .remove _ :: cs => WellFormed maxLevel guards pinned cs
  | guards, pinned, .getOwned _ :: cs => WellFormed maxLevel guards pinned cs

/-- A slice that the program holds: its guard and key, and, once the key has been overwritten or removed,
the number of guards dropped before that call. -/
structure Note where
  guard : ℕ
  key : Bytes
  displaced : Option ℕ
deriving DecidableEq

/-- The account of a program: the keys present, the guards dropped, the slices held. -/
structure Ledger where
  keys : List Bytes
  drops : ℕ
  notes : List Note
deriving DecidableEq

def Ledger.empty : Ledger := { keys := [], drops := 0, notes := [] }

/-- The slices into the value of `key` are displaced now. -/
def Note.displace (key : Bytes) (drops : ℕ) (n : Note) : Note :=
  if n.key = key ∧ n.displaced = none then { n with displaced := some drops } else n

namespace Ledger

/-- The account after one more statement. -/
def step (L : Ledger) : Cmd → Ledger
  | .pin => L
  | .drop g => { L with drops := L.drops + 1, notes := L.notes.filter (·.guard ≠ g) }
  | .get key g => if key ∈ L.keys then { L with notes := L.notes ++ [⟨g, key, none⟩] } else L
  | .insert key _ _ =>
      { keys := key :: L.keys
        drops := L.drops + 1
        notes := L.notes.map (Note.displace key L.drops) }
  | .remove key =>
      { keys := L.keys.filter (· ≠ key)
        drops := L.drops + 1
        notes := L.notes.map (Note.displace key L.drops) }
  | .getOwned _ => { L with drops := L.drops + 1 }

/-- The number of collections after `drops` guard drops. -/
def collections (drops : ℕ) : ℕ := drops / Ebr.collectInterval

/-- Two collections have happened since (one is enough when the epoch is at the end of its range). -/
def overdue (since now : ℕ) : Prop :=
  collections since < collections now ∧ min (collections since + 2) (2 ^ 64 - 1) ≤ collections now

instance (since now : ℕ) : Decidable (overdue since now) := inferInstanceAs (Decidable (_ ∧ _))

/-- No slice is held for two collections after the call that displaced its value. -/
def Timely (L : Ledger) : Prop := ∀ n ∈ L.notes, ∀ d, n.displaced = some d → ¬ overdue d L.drops

end Ledger

/-- At no point of the program a slice is held for two collections after the call that displaced its
value. -/
def Timely (prog : List Cmd) : Prop :=
  ∀ pre, pre <+: prog → (pre.foldl Ledger.step .empty).Timely

/-! ## The table of cells -/

/-- The value of `key` is in cell `c` of its shard; `A` has the nodes of every shard in key order. -/
def Holds (idx : ShardedIndex) (A : ℕ → List ℕ) (key : Bytes) (c : ℕ) : Prop :=
  ∃ m, idx.shards[idx.shard key]? = some m ∧ InCell m (A (idx.shard key)) key c

/-- Cell `c` is freed with the garbage. -/
def Frees (idx : ShardedIndex) (x : Scrap) (c : ℕ) : Prop :=
  ∃ m, idx.shards[x.1]? = some m ∧ x.2.frees m = some c

/-- The cell that is freed with the garbage of shard `i` is in no key's hands, and a retired node is
out of the list. -/
def Spent (idx : ShardedIndex) (A : ℕ → List ℕ) (i : ℕ) (x : Garbage) : Prop :=
  ∃ m c, idx.shards[i]? = some m ∧ x.frees m = some c ∧ c < m.cells.length ∧
    (∀ key, idx.shard key = i → ¬ Holds idx A key c) ∧ ∀ p, x = .node p → p ∉ A i

/-- Every cell has one owner, a key or a piece of garbage; `G` is what has been retired. -/
structure Table (idx : ShardedIndex) (A : ℕ → List ℕ) (G : ℕ → Option Scrap) : Prop where
  range : ∀ key, idx.shard key < idx.shards.length
  rep : ∀ i m, idx.shards[i]? = some m → ∃ μ, Rep idx.maxLevel m (A i) μ
  scrap : ∀ r i g, G r = some (i, g) → Spent idx A i g
  unique : ∀ r r' i g g' c, G r = some (i, g) → G r' = some (i, g') → Frees idx (i, g) c →
    Frees idx (i, g') c → r = r'
  once : ∀ k k' c, idx.shard k = idx.shard k' → Holds idx A k c → Holds idx A k' c → k = k'

/-- A call on the shard of its key, which has memory `m` before it and `m'` after it. -/
structure OnShard (idx idx' : ShardedIndex) (A A' : ℕ → List ℕ) (op : Op) (g : Option Garbage)
    (m m' : Mem) : Prop where
  before : idx.shards[idx.shard op.key]? = some m
  after : idx'.shards[idx.shard op.key]? = some m'
  others : ∀ i, i ≠ idx.shard op.key → idx'.shards[i]? = idx.shards[i]? ∧ A' i = A i
  length : idx'.shards.length = idx.shards.length
  mask : idx'.mask = idx.mask
  maxLevel : idx'.maxLevel = idx.maxLevel
  rep : ∃ μ, Rep idx.maxLevel m' (A' (idx.shard op.key)) μ
  effect : CellEffect m m' (A (idx.shard op.key)) (A' (idx.shard op.key)) op g

section Table

variable {idx idx' : ShardedIndex} {A A' : ℕ → List ℕ} {G : ℕ → Option Scrap} {op : Op}
  {g : Option Garbage} {m m' : Mem} {topLevel c : ℕ} {key : Bytes}

/-- A piece of garbage frees one cell. -/
theorem Frees.unique {x : Scrap} {c' : ℕ} (h : Frees idx x c) (h' : Frees idx x c') : c = c' := by
  obtain ⟨m, hm, hc⟩ := h
  obtain ⟨m', hm', hc'⟩ := h'
  obtain rfl : m = m' := Option.some.inj (hm.symm.trans hm')
  exact Option.some.inj (hc.symm.trans hc')

/-- Every call returns. -/
theorem Table.call (hT : Table idx A G) (op : Op) (htop : topLevel ≤ idx.maxLevel) :
    ∃ idx' out A' g m, (∃ n, ∀ fuel ≥ n, onShard idx fuel op topLevel =
        some (idx', out, (g.map fun x => (idx.shard op.key, x)).toList)) ∧
      OnShard idx idx' A A' op g m out.mem ∧
      ∀ key, op = .get key → ∀ c, out.borrow = some c ↔ Holds idx A key c := by
  obtain ⟨i, hi⟩ : ∃ i, i = idx.shard op.key := ⟨_, rfl⟩
  obtain ⟨m, hm⟩ : ∃ m, idx.shards[i]? = some m :=
    ⟨_, List.getElem?_eq_getElem (hi ▸ hT.range op.key)⟩
  obtain ⟨μ, hrep⟩ := hT.rep i m hm
  obtain ⟨out, ⟨n, hn⟩, hcalled⟩ := hrep.called op htop
  obtain ⟨g, heff, hborrow⟩ := hrep.cells hcalled
  obtain ⟨-, hrep'⟩ := hrep.of_called htop hcalled
  refine ⟨{ idx with shards := idx.shards.set i out.mem }, out,
    Function.update A i (nodesAfter m (A i) op out), g, m, ⟨n, fun fuel hf => ?_⟩, ?_, ?_⟩
  · rw [onShard, ← hi, hm]
    simp only [Option.bind_eq_bind, Option.bind_some, hn fuel hf]
    rw [heff.retired, List.drop_left, Option.toList_map]
  · have hlt : i < idx.shards.length := (List.getElem?_eq_some_iff.mp hm).1
    refine ⟨hi ▸ hm, ?_, ?_, by simp, rfl, rfl, ?_, ?_⟩
    · rw [← hi]
      exact List.getElem?_set_self hlt
    · intro j hj
      rw [← hi] at hj
      exact ⟨List.getElem?_set_ne (Ne.symm hj), Function.update_of_ne hj _ _⟩
    · rw [← hi, Function.update_self]
      exact ⟨_, hrep'⟩
    · rw [← hi, Function.update_self]
      exact heff
  · rintro key rfl c
    rw [hborrow key rfl c]
    have hi : i = idx.shard key := hi
    constructor
    · intro hin
      exact ⟨m, hi ▸ hm, hi ▸ hin⟩
    · rintro ⟨m₁, hm₁, hin⟩
      rw [← hi] at hm₁ hin
      rwa [Option.some.inj (hm.symm.trans hm₁)]

namespace OnShard

theorem shard_eq (hs : OnShard idx idx' A A' op g m m') (key : Bytes) :
    idx'.shard key = idx.shard key := by
  rw [ShardedIndex.shard, ShardedIndex.shard, hs.mask]

theorem mem_before (hs : OnShard idx idx' A A' op g m m') {m₁ : Mem}
    (hm₁ : idx.shards[idx.shard op.key]? = some m₁) : m = m₁ :=
  Option.some.inj (hs.before.symm.trans hm₁)

theorem mem_after (hs : OnShard idx idx' A A' op g m m') {m₁ : Mem}
    (hm₁ : idx'.shards[idx.shard op.key]? = some m₁) : m' = m₁ :=
  Option.some.inj (hs.after.symm.trans hm₁)

/-- Other keys keep their cells. -/
theorem holds_of_ne (hs : OnShard idx idx' A A' op g m m') (hk : key ≠ op.key) :
    Holds idx' A' key c ↔ Holds idx A key c := by
  simp only [Holds, hs.shard_eq]
  by_cases hi : idx.shard key = idx.shard op.key
  · rw [hi, hs.before, hs.after]
    simpa using hs.effect.kept key c hk
  · rw [(hs.others _ hi).1, (hs.others _ hi).2]

/-- The cell of the key of the call. -/
theorem holds_self (hs : OnShard idx idx' A A' op g m m') :
    Holds idx' A' op.key c ↔
      match op with
      | .get _ => Holds idx A op.key c
      | .insert _ _ => c = m.cells.length
      | .remove _ => False := by
  have hself : Holds idx' A' op.key c ↔ InCell m' (A' (idx.shard op.key)) op.key c := by
    simp [Holds, hs.shard_eq, hs.after]
  have hold : Holds idx A op.key c ↔ InCell m (A (idx.shard op.key)) op.key c := by
    simp [Holds, hs.before]
  rw [hself, hs.effect.stored]
  cases op with
  | get key => exact hold.symm
  | insert key val => exact Iff.rfl
  | remove key => exact Iff.rfl

/-- A fresh cell is not the old cell of any key. -/
theorem fresh_of_holds (hs : OnShard idx idx' A A' op g m m') (hT : Table idx A G)
    (hk : idx.shard key = idx.shard op.key) (hc : Holds idx A key c) : c < m.cells.length := by
  obtain ⟨m₁, hm₁, hin⟩ := hc
  rw [hk] at hm₁ hin
  obtain rfl := hs.mem_before hm₁
  obtain ⟨μ, hrep⟩ := hT.rep _ m hs.before
  exact hrep.inCell_lt hin

/-- A retired node keeps its cell. -/
theorem frees_after (hs : OnShard idx idx' A A' op g m m') {x : Garbage} (hx : x.frees m = some c)
    (hnode : ∀ p, x = .node p → p ∉ A (idx.shard op.key)) : x.frees m' = some c := by
  cases x with
  | cell c => exact hx
  | node p => exact (hs.effect.frozen p c (hnode p rfl) hx).2

/-- What was retired before still frees the cell it freed. -/
theorem frees_iff (hs : OnShard idx idx' A A' op g m m') (hT : Table idx A G) {r i : ℕ} {x : Garbage}
    (hr : G r = some (i, x)) : Frees idx' (i, x) c ↔ Frees idx (i, x) c := by
  by_cases hi : i = idx.shard op.key
  · obtain ⟨m₁, c₁, hm₁, hx, -, -, hnode⟩ := hT.scrap r i x hr
    subst hi
    obtain rfl := hs.mem_before hm₁
    have hx' := hs.frees_after hx hnode
    simp [Frees, hs.before, hs.after, hx, hx']
  · simp [Frees, (hs.others i hi).1]

/-- The garbage of a call frees the cell of its key. -/
theorem garbage_frees (hs : OnShard idx idx' A A' op g m m') {x : Garbage} (hx : g = some x) :
    op.writes = true ∧ ∃ c, Holds idx A op.key c ∧ Frees idx' (idx.shard op.key, x) c := by
  obtain ⟨hw, -, c, hin, hfree⟩ := hs.effect.garbage x hx
  exact ⟨hw, c, ⟨m, hs.before, hin⟩, m', hs.after, hfree⟩

/-- A displaced cell goes into the garbage. -/
theorem displaced (hs : OnShard idx idx' A A' op g m m') (hw : op.writes = true)
    (hc : Holds idx A op.key c) : ∃ x, g = some x ∧ Frees idx' (idx.shard op.key, x) c := by
  obtain ⟨m₁, hm₁, hin⟩ := hc
  obtain rfl := hs.mem_before hm₁
  obtain ⟨x, hx, hfree⟩ := hs.effect.displaced c hin hw
  exact ⟨x, hx, m', hs.after, hfree⟩

/-- A displaced cell is no longer held by its key. -/
theorem not_holds_self (hs : OnShard idx idx' A A' op g m m')
    (hw : op.writes = true) (hc : c < m.cells.length) : ¬ Holds idx' A' op.key c := by
  rw [hs.holds_self]
  cases op with
  | get key => cases hw
  | insert key val => exact hc.ne
  | remove key => exact id

/-- A key of the shard of the call that holds a cell after it held the cell before, or the cell is
fresh. -/
theorem not_holds (hs : OnShard idx idx' A A' op g m m') (hk : idx.shard key = idx.shard op.key)
    (hc : c < m.cells.length) (hout : ¬ Holds idx A key c) : ¬ Holds idx' A' key c := by
  intro hc'
  by_cases hkey : key = op.key
  · subst hkey
    rw [hs.holds_self] at hc'
    cases op with
    | get key => exact hout hc'
    | insert key val => exact hc.ne hc'
    | remove key => exact hc'
  · exact hout ((hs.holds_of_ne hkey).mp hc')

/-- The key of the call does not get the cell of another key. -/
theorem not_holds_of_ne (hs : OnShard idx idx' A A' op g m m') (hT : Table idx A G)
    (hk : key ≠ op.key) (hshard : idx.shard key = idx.shard op.key) (hc : Holds idx A key c) :
    ¬ Holds idx' A' op.key c := by
  refine hs.not_holds rfl (hs.fresh_of_holds hT hshard hc) ?_
  intro hc'
  exact hk (hT.once key op.key c hshard hc hc')

/-- Two keys of a shard do not get one cell. -/
theorem once (hs : OnShard idx idx' A A' op g m m') (hT : Table idx A G) {k k' : Bytes}
    (hshard : idx.shard k = idx.shard k') (hc : Holds idx' A' k c) (hc' : Holds idx' A' k' c) :
    k = k' := by
  by_cases hk : k = op.key <;> by_cases hk' : k' = op.key
  · exact hk.trans hk'.symm
  · subst hk
    exact absurd hc (hs.not_holds_of_ne hT hk' hshard.symm ((hs.holds_of_ne hk').mp hc'))
  · subst hk'
    exact absurd hc' (hs.not_holds_of_ne hT hk hshard ((hs.holds_of_ne hk).mp hc))
  · exact hT.once k k' c hshard ((hs.holds_of_ne hk).mp hc) ((hs.holds_of_ne hk').mp hc')

/-- What was retired before the call stays out of every key's hands. -/
theorem spent_of_spent (hs : OnShard idx idx' A A' op g m m') {i : ℕ} {x : Garbage}
    (hx : Spent idx A i x) : Spent idx' A' i x := by
  obtain ⟨m₁, c, hm₁, hfree, hlt, hout, hnode⟩ := hx
  by_cases hi : i = idx.shard op.key
  · subst hi
    obtain rfl := hs.mem_before hm₁
    have hfree' := hs.frees_after hfree hnode
    refine ⟨m', c, hs.after, hfree', hlt.trans_le hs.effect.cells_le, ?_, ?_⟩
    · intro key hkey
      rw [hs.shard_eq] at hkey
      exact hs.not_holds hkey hlt (hout key hkey)
    · rintro p rfl
      exact (hs.effect.frozen p c (hnode p rfl) hfree).1
  · refine ⟨m₁, c, (hs.others i hi).1.trans hm₁, hfree, hlt, ?_, ?_⟩
    · intro key hkey
      rw [hs.shard_eq] at hkey
      have hk : key ≠ op.key := by
        rintro rfl
        exact hi hkey.symm
      rw [hs.holds_of_ne hk]
      exact hout key hkey
    · rw [(hs.others i hi).2]
      exact hnode

/-- What the call retires is out of every key's hands. -/
theorem spent_garbage (hs : OnShard idx idx' A A' op g m m') (hT : Table idx A G) {x : Garbage}
    (hx : g = some x) : Spent idx' A' (idx.shard op.key) x := by
  obtain ⟨hw, hnode, c, hin, hfree⟩ := hs.effect.garbage x hx
  have hc : Holds idx A op.key c := ⟨m, hs.before, hin⟩
  have hlt := hs.fresh_of_holds hT rfl hc
  refine ⟨m', c, hs.after, hfree, hlt.trans_le hs.effect.cells_le, ?_, hnode⟩
  intro key hkey hc'
  rw [hs.shard_eq] at hkey
  by_cases hk : key = op.key
  · subst hk
    exact hs.not_holds_self hw hlt hc'
  · exact hk (hT.once key op.key c hkey ((hs.holds_of_ne hk).mp hc') hc)

/-- The garbage of the call frees a cell that a key held, which no older garbage frees. -/
theorem not_frees_garbage (hs : OnShard idx idx' A A' op g m m') (hT : Table idx A G) {r : ℕ}
    {x x' : Garbage} (hr : G r = some (idx.shard op.key, x)) (hx' : g = some x')
    (hc : Frees idx' (idx.shard op.key, x) c) : ¬ Frees idx' (idx.shard op.key, x') c := by
  intro hc'
  obtain ⟨-, c₁, hold, hfree⟩ := hs.garbage_frees hx'
  obtain rfl : c = c₁ := hc'.unique hfree
  obtain ⟨m₂, c₂, hm₂, hfree₂, -, hout, -⟩ := hT.scrap r _ x hr
  obtain rfl : c₂ = c := Frees.unique ⟨m₂, hm₂, hfree₂⟩ ((hs.frees_iff hT hr).mp hc)
  exact hout op.key rfl hold

/-- The memory of every shard is a skip list after the call. -/
theorem rep_after (hs : OnShard idx idx' A A' op g m m') (hT : Table idx A G) {i : ℕ} {m₁ : Mem}
    (hm₁ : idx'.shards[i]? = some m₁) : ∃ μ, Rep idx.maxLevel m₁ (A' i) μ := by
  by_cases hi : i = idx.shard op.key
  · subst hi
    obtain rfl := hs.mem_after hm₁
    exact hs.rep
  · rw [(hs.others i hi).1] at hm₁
    rw [(hs.others i hi).2]
    exact hT.rep i m₁ hm₁

/-- After the call every cell still has one owner; the garbage of the call is record `n`. -/
theorem table (hs : OnShard idx idx' A A' op g m m') (hT : Table idx A G) {G' : ℕ → Option Scrap}
    {n : ℕ} (hG : ∀ r, r ≠ n → G' r = G r)
    (hGn : G' n = g.map fun x => (idx.shard op.key, x)) : Table idx' A' G' := by
  have hsome : ∀ r i x, G' r = some (i, x) →
      G r = some (i, x) ∨ (r = n ∧ i = idx.shard op.key ∧ g = some x) := by
    intro r i x hr
    by_cases hrn : r = n
    · subst hrn
      rw [hGn] at hr
      obtain ⟨y, hy, he⟩ := Option.map_eq_some_iff.mp hr
      cases he
      exact .inr ⟨rfl, rfl, hy⟩
    · exact .inl (hG r hrn ▸ hr)
  refine ⟨?_, ?_, ?_, ?_, ?_⟩
  · intro key
    rw [hs.shard_eq, hs.length]
    exact hT.range key
  · intro i m₁ hm₁
    rw [hs.maxLevel]
    exact hs.rep_after hT hm₁
  · intro r i x hr
    rcases hsome r i x hr with hr | ⟨-, rfl, hx⟩
    · exact hs.spent_of_spent (hT.scrap r i x hr)
    · exact hs.spent_garbage hT hx
  · intro r r' i x x' c hr hr' hc hc'
    rcases hsome r i x hr with hr | ⟨hrn, hi, hx⟩ <;>
      rcases hsome r' i x' hr' with hr' | ⟨hrn', hi', hx'⟩
    · exact hT.unique r r' i x x' c hr hr' ((hs.frees_iff hT hr).mp hc) ((hs.frees_iff hT hr').mp hc')
    · subst hi'
      exact absurd hc' (hs.not_frees_garbage hT hr hx' hc)
    · subst hi
      exact absurd hc (hs.not_frees_garbage hT hr' hx hc')
    · exact hrn.trans hrn'.symm
  · intro k k' c hshard hc hc'
    rw [hs.shard_eq, hs.shard_eq] at hshard
    exact hs.once hT hshard hc hc'

end OnShard

end Table

/-! ## The account is right -/

/-- A slice and its note. -/
structure NoteOk (w : World) (A : ℕ → List ℕ) (b : Slice) (n : Note) : Prop where
  guard : b.guard = n.guard
  shard : b.shard = w.idx.shard n.key
  held : n.displaced = none → Holds w.idx A n.key b.cell
  gone : ∀ d, n.displaced = some d → ∃ r x, w.dom.garbageOf r = some (b.shard, x) ∧
    Frees w.idx (b.shard, x) b.cell ∧ w.dom.tagOf r = Ledger.collections d

/-- The state of a program and its account. -/
structure Matches (w : World) (A : ℕ → List ℕ) (L : Ledger) : Prop where
  alone : Ebr.Alone w.dom w.loc
  guards : w.loc.guards = w.guards.length
  slot : 0 < w.loc.guards → w.loc.slot = some 0
  epoch : w.dom.epoch = Ledger.collections L.drops
  tick : w.loc.tick = L.drops % 2 ^ 32
  table : Table w.idx A w.dom.garbageOf
  keys : ∀ key, key ∈ L.keys ↔ ∃ c, Holds w.idx A key c
  notes : List.Forall₂ (NoteOk w A) w.slices L.notes

section Account

variable {w : World} {A : ℕ → List ℕ} {L : Ledger} {b : Slice} {n : Note}

theorem garbageOf_eq_none {d : Ebr.Domain Scrap} {r : ℕ} (hr : d.recs.length ≤ r) :
    d.garbageOf r = none := by
  rw [Ebr.Domain.garbageOf, List.getElem?_eq_none hr]
  rfl

theorem lt_of_garbageOf {d : Ebr.Domain Scrap} {r : ℕ} {x : Scrap} (hr : d.garbageOf r = some x) :
    r < d.recs.length := by
  by_contra hge
  rw [garbageOf_eq_none (Nat.le_of_not_lt hge)] at hr
  cases hr

theorem mem_freed {i c : ℕ} :
    (i, c) ∈ w.freed ↔
      ∃ r ∈ w.dom.dropped, ∃ x, w.dom.garbageOf r = some (i, x) ∧ Frees w.idx (i, x) c := by
  rw [World.freed, List.mem_filterMap]
  refine exists_congr fun r => and_congr_right fun _ => ?_
  constructor
  · intro h
    obtain ⟨⟨i', x⟩, hx, h⟩ := Option.bind_eq_some_iff.mp h
    obtain ⟨m, hm, h⟩ := Option.bind_eq_some_iff.mp h
    obtain ⟨c', hc, h⟩ := Option.bind_eq_some_iff.mp h
    cases h
    exact ⟨x, hx, m, hm, hc⟩
  · rintro ⟨x, hx, m, hm, hc⟩
    have hm : w.idx.shards[i]? = some m := hm
    have hc : x.frees m = some c := hc
    simp [hx, hm, hc]

/-- The cell behind a slice is freed when its note is overdue, and only then. -/
theorem Matches.freed_iff (hM : Matches w A L) (hn : NoteOk w A b n) :
    (b.shard, b.cell) ∈ w.freed ↔ ∃ d, n.displaced = some d ∧ Ledger.overdue d L.drops := by
  rw [mem_freed]
  cases hd : n.displaced with
  | none =>
      -- a cell that a key holds is in no piece of garbage
      refine iff_of_false ?_ (by simp)
      rintro ⟨r, -, x, hx, m, hm, hc⟩
      obtain ⟨m', c', hm', hc', -, hout, -⟩ := hM.table.scrap r b.shard x hx
      obtain rfl : m = m' := Option.some.inj (hm.symm.trans hm')
      obtain rfl : b.cell = c' := Option.some.inj (hc.symm.trans hc')
      exact hout n.key hn.shard.symm (hn.held hd)
  | some d =>
      obtain ⟨r, x, hx, hfree, htag⟩ := hn.gone d hd
      have hdrop : r ∈ w.dom.dropped ↔ Ledger.overdue d L.drops := by
        rw [hM.alone.dropped r (lt_of_garbageOf hx), Ebr.Domain.eligible, htag, hM.epoch]
        rfl
      constructor
      · rintro ⟨r', hr', x', hx', hfree'⟩
        obtain rfl := hM.table.unique r' r b.shard x' x b.cell hx' hx hfree' hfree
        exact ⟨d, rfl, hdrop.mp hr'⟩
      · rintro ⟨d', hd', hover⟩
        cases hd'
        exact ⟨r, hdrop.mpr hover, x, hx, hfree⟩

theorem forall₂_iff {α β : Type} {R : α → β → Prop} {P : α → Prop} {Q : β → Prop} {xs : List α}
    {ys : List β} (h : List.Forall₂ R xs ys) (hPQ : ∀ x y, R x y → (P x ↔ Q y)) :
    (∀ x ∈ xs, P x) ↔ ∀ y ∈ ys, Q y := by
  induction h with
  | nil => simp
  | cons hxy _ ih => simp [hPQ _ _ hxy, ih]

/-- **The program is sound so far exactly when its account is timely.** -/
theorem Matches.sound_iff (hM : Matches w A L) : w.Sound ↔ L.Timely := by
  refine forall₂_iff hM.notes fun b n hn => ?_
  rw [hM.freed_iff hn]
  push Not
  rfl

theorem collections_succ (d : ℕ) : Ledger.collections (d + 1) =
    Ledger.collections d + if (d + 1) % 2 ^ 32 % Ebr.collectInterval = 0 then 1 else 0 := by
  unfold Ledger.collections Ebr.collectInterval
  by_cases h : (d + 1) % 2 ^ 32 % 128 = 0
  · rw [if_pos h]
    omega
  · rw [if_neg h]
    omega

end Account

/-! ## One statement -/

/-- `d'` has one more record than `d` when there is garbage. -/
structure Retires (d d' : Ebr.Domain Scrap) (g : Option Scrap) : Prop where
  old : ∀ r, r ≠ d.recs.length → d'.garbageOf r = d.garbageOf r
  tag : ∀ r < d.recs.length, d'.tagOf r = d.tagOf r
  new : d'.garbageOf d.recs.length = g
  newTag : ∀ x, g = some x → d'.tagOf d.recs.length = d.epoch

theorem Retires.refl (d : Ebr.Domain Scrap) : Retires d d none :=
  ⟨fun _ _ => rfl, fun _ _ => rfl, garbageOf_eq_none le_rfl, nofun⟩

/-- Retiring what a call left. -/
theorem retireAll_spec {d : Ebr.Domain Scrap} {l : Ebr.Local Scrap} (h : Ebr.Alone d l)
    (hslot : l.slot = some 0) (g : Option Scrap) :
    ∃ d', (∃ n, ∀ fuel ≥ n, retireAll fuel d l g.toList = some (d', l)) ∧ Ebr.Alone d' l ∧
      d'.epoch = d.epoch ∧ Retires d d' g := by
  cases g with
  | none => exact ⟨d, ⟨0, fun _ _ => rfl⟩, h, rfl, .refl d⟩
  | some x =>
      obtain ⟨d', ⟨n, hn⟩, h', hlen, hep, hold, hnew, htag⟩ := h.retire hslot x
      refine ⟨d', ⟨n, fun fuel hf => ?_⟩, h', hep, ?_, fun r hr => (hold r hr).2, hnew, fun _ _ => htag⟩
      · simp [retireAll, hn fuel hf]
      · intro r hr
        rcases Nat.lt_or_gt_of_ne hr with hr | hr
        · exact (hold r hr).1
        · rw [garbageOf_eq_none hr.le, garbageOf_eq_none (by omega)]

/-- The account after a call on a shard. -/
def Ledger.after (L : Ledger) (op : Op) : Ledger where
  keys :=
    match op with
    | .get _ => L.keys
    | .insert key _ => key :: L.keys
    | .remove key => L.keys.filter (· ≠ key)
  drops := L.drops + 1
  notes := L.notes.map fun n => if op.writes then n.displace op.key L.drops else n

section Step

variable {w w' : World} {A A' : ℕ → List ℕ} {L : Ledger} {b : Slice} {n : Note} {op : Op}
  {g : Option Garbage} {m m' : Mem} {topLevel : ℕ}

theorem NoteOk.congr (hn : NoteOk w A b n) (hidx : w'.idx = w.idx)
    (hg : ∀ r, w'.dom.garbageOf r = w.dom.garbageOf r) (ht : ∀ r, w'.dom.tagOf r = w.dom.tagOf r) :
    NoteOk w' A b n := by
  refine ⟨hn.guard, hidx ▸ hn.shard, hidx ▸ hn.held, ?_⟩
  simp only [hidx, hg, ht]
  exact hn.gone

/-- A note after a call: it is displaced when the call writes its key. -/
theorem NoteOk.after (hn : NoteOk w A b n) (hT : Table w.idx A w.dom.garbageOf)
    (hs : OnShard w.idx w'.idx A A' op g m m')
    (hR : Retires w.dom w'.dom (g.map fun x => (w.idx.shard op.key, x)))
    {drops : ℕ} (hep : w.dom.epoch = Ledger.collections drops) :
    NoteOk w' A' b (if op.writes then n.displace op.key drops else n) := by
  have hshard : ∀ key, w'.idx.shard key = w.idx.shard key := hs.shard_eq
  by_cases hw : op.writes = true ∧ n.key = op.key ∧ n.displaced = none
  · -- the call puts the cell into its garbage, which is the new record
    rw [if_pos hw.1, Note.displace, if_pos hw.2]
    have hheld := hn.held hw.2.2
    have hb := hn.shard
    rw [hw.2.1] at hheld hb
    obtain ⟨x, hx, hfree⟩ := hs.displaced hw.1 hheld
    refine ⟨hn.guard, (hshard _).symm ▸ hn.shard, nofun, ?_⟩
    rintro d hd
    cases hd
    refine ⟨_, x, hR.new.trans (by rw [hx, hb]; rfl), hb ▸ hfree, ?_⟩
    rw [hR.newTag (w.idx.shard op.key, x) (by rw [hx]; rfl), hep]
  · have hsame : (if op.writes then n.displace op.key drops else n) = n := by
      split
      · next h => exact if_neg fun h' => hw ⟨h, h'⟩
      · rfl
    rw [hsame]
    refine ⟨hn.guard, (hshard _).symm ▸ hn.shard, ?_, ?_⟩
    · intro hd
      by_cases hk : n.key = op.key
      · have hget : ¬ op.writes = true := fun h => hw ⟨h, hk, hd⟩
        have hheld := hn.held hd
        rw [hk] at hheld ⊢
        rw [hs.holds_self]
        cases op with
        | get key => exact hheld
        | insert key val => exact absurd rfl hget
        | remove key => exact absurd rfl hget
      · exact (hs.holds_of_ne hk).mpr (hn.held hd)
    · intro d hd
      obtain ⟨r, x, hx, hfree, htag⟩ := hn.gone d hd
      have hr := lt_of_garbageOf hx
      exact ⟨r, x, (hR.old r hr.ne).trans hx, (hs.frees_iff hT hx).mpr hfree, (hR.tag r hr).trans htag⟩

/-- The keys present after a call. -/
theorem Matches.keys_after (hM : Matches w A L) {idx' : ShardedIndex}
    (hs : OnShard w.idx idx' A A' op g m m') (key : Bytes) :
    key ∈ (L.after op).keys ↔ ∃ c, Holds idx' A' key c := by
  by_cases hk : key = op.key
  · subst hk
    simp only [hs.holds_self]
    cases op with
    | get k => exact hM.keys k
    | insert k val => simp [Ledger.after, Op.key]
    | remove k => simp [Ledger.after, Op.key]
  · simp only [hs.holds_of_ne hk, ← hM.keys]
    cases op with
    | get k => exact Iff.rfl
    | insert k val =>
        have hk : key ≠ k := hk
        simp [Ledger.after, hk]
    | remove k =>
        have hk : key ≠ k := hk
        simp [Ledger.after, hk]

/-- `insert`, `remove` and `get_owned`: a call inside a guard of its own. -/
theorem Matches.guarded (hM : Matches w A L) (op : Op) (htop : topLevel ≤ w.idx.maxLevel) :
    ∃ w' A', (∃ n, ∀ fuel ≥ n, w.guarded fuel op topLevel = some w') ∧ Matches w' A' (L.after op) ∧
      w'.idx.maxLevel = w.idx.maxLevel ∧ w'.guards = w.guards ∧ w'.pinned = w.pinned := by
  obtain ⟨d₁, l₁, ⟨n₁, hpin⟩, h₁, hrecs, hep₁, htick₁, hg₁, hslot₁⟩ := hM.alone.pin
  obtain ⟨idx', out, A', g, m, ⟨n₂, hcall⟩, hs, -⟩ := hM.table.call op htop
  obtain ⟨d₂, ⟨n₃, hret⟩, h₂, hep₂, hR⟩ :=
    retireAll_spec h₁ hslot₁ (g.map fun x => (w.idx.shard op.key, x))
  obtain ⟨d₃, l₃, ⟨n₄, hunpin⟩, h₃, hkept, hep₃, htick₃, hg₃, hslot₃⟩ :=
    h₂.unpin hslot₁ (by omega)
  have hR : Retires w.dom d₃ (g.map fun x => (w.idx.shard op.key, x)) := by
    refine ⟨fun r hr => ?_, fun r hr => ?_, ?_, fun x hx => ?_⟩
    · rw [hkept.garbage, hR.old r (hrecs ▸ hr), Ebr.Domain.garbageOf, hrecs]
      rfl
    · rw [hkept.tag, hR.tag r (hrecs ▸ hr), Ebr.Domain.tagOf, hrecs]
      rfl
    · rw [hkept.garbage, ← hrecs, hR.new]
    · rw [hkept.tag, ← hrecs, hR.newTag x hx, hep₁]
  refine ⟨{ w with idx := idx', dom := d₃, loc := l₃ }, A', ⟨n₁ + n₂ + n₃ + n₄, fun fuel hf => ?_⟩, ?_,
    hs.maxLevel, rfl, rfl⟩
  · simp only [World.guarded, hpin fuel (by omega), hcall fuel (by omega), hret fuel (by omega),
      hunpin fuel (by omega), Option.bind_eq_bind, Option.bind_some]
  · refine ⟨h₃, ?_, fun _ => hslot₃, ?_, ?_, ?_, ?_, ?_⟩
    · show l₃.guards = w.guards.length
      rw [hg₃, hg₁, hM.guards]
      rfl
    · show d₃.epoch = Ledger.collections (L.drops + 1)
      rw [hep₃, hep₂, hep₁, htick₁, hM.tick, hM.epoch, collections_succ, Nat.mod_add_mod]
    · show l₃.tick = (L.drops + 1) % 2 ^ 32
      rw [htick₃, htick₁, hM.tick, Nat.mod_add_mod]
    · exact hs.table hM.table hR.old hR.new
    · exact hM.keys_after hs
    · refine List.forall₂_map_right_iff.mpr (hM.notes.imp fun b n hn => ?_)
      exact hn.after hM.table hs hR hM.epoch

theorem Matches.pin (hM : Matches w A L) :
    ∃ w', (∃ n, ∀ fuel ≥ n, w.step fuel .pin = some w') ∧ Matches w' A L ∧ w'.idx = w.idx ∧
      w'.guards = w.guards ++ [w.pinned] ∧ w'.pinned = w.pinned + 1 := by
  obtain ⟨d, l, ⟨n, hpin⟩, h, hrecs, hep, htick, hg, hslot⟩ := hM.alone.pin
  have hgarb : d.garbageOf = w.dom.garbageOf := by
    funext r
    rw [Ebr.Domain.garbageOf, hrecs]
    rfl
  have htag : d.tagOf = w.dom.tagOf := by
    funext r
    rw [Ebr.Domain.tagOf, hrecs]
    rfl
  refine ⟨{ w with dom := d, loc := l, guards := w.guards ++ [w.pinned], pinned := w.pinned + 1 },
    ⟨n, fun fuel hf => ?_⟩, ?_, rfl, rfl, rfl⟩
  · simp only [World.step, hpin fuel hf, Option.bind_eq_bind, Option.bind_some]
  · refine ⟨h, by simp [hg, hM.guards], fun _ => hslot, hep.trans hM.epoch, htick.trans hM.tick, ?_,
      hM.keys, hM.notes.imp fun b n hn => hn.congr rfl (congrFun hgarb) (congrFun htag)⟩
    show Table w.idx A d.garbageOf
    rw [hgarb]
    exact hM.table

/-- Dropping a guard ends its slices. -/
theorem Matches.drop (hM : Matches w A L) {gd : ℕ} (hgd : gd ∈ w.guards) :
    ∃ w', (∃ n, ∀ fuel ≥ n, w.step fuel (.drop gd) = some w') ∧ Matches w' A (L.step (.drop gd)) ∧
      w'.idx = w.idx ∧ w'.guards = w.guards.erase gd ∧ w'.pinned = w.pinned := by
  have hpos : 0 < w.loc.guards := by
    rw [hM.guards]
    exact List.length_pos_of_mem hgd
  obtain ⟨d, l, ⟨n, hunpin⟩, h, hkept, hep, htick, hg, hslot⟩ := hM.alone.unpin (hM.slot hpos) hpos
  refine ⟨{ w with
      dom := d
      loc := l
      guards := w.guards.erase gd
      slices := w.slices.filter (·.guard ≠ gd) }, ⟨n, fun fuel hf => ?_⟩, ?_, rfl, rfl, rfl⟩
  · simp only [World.step, if_pos hgd, hunpin fuel hf, Option.bind_eq_bind, Option.bind_some]
  · refine ⟨h, ?_, fun _ => hslot, ?_, ?_, ?_, hM.keys, ?_⟩
    · show l.guards = (w.guards.erase gd).length
      rw [hg, hM.guards, List.length_erase_of_mem hgd]
    · show d.epoch = Ledger.collections (L.drops + 1)
      rw [hep, hM.tick, hM.epoch, collections_succ, Nat.mod_add_mod]
    · show l.tick = (L.drops + 1) % 2 ^ 32
      rw [htick, hM.tick, Nat.mod_add_mod]
    · show Table w.idx A d.garbageOf
      rw [funext hkept.garbage]
      exact hM.table
    · refine List.rel_filter (fun b n hn => ?_)
        (hM.notes.imp fun b n hn => hn.congr rfl hkept.garbage hkept.tag)
      simp [hn.guard]

/-- A `get` adds a slice when the key is present. -/
theorem Matches.get (hM : Matches w A L) {gd : ℕ} (hgd : gd ∈ w.guards) (key : Bytes) :
    ∃ w' A', (∃ n, ∀ fuel ≥ n, w.step fuel (.get key gd) = some w') ∧
      Matches w' A' (L.step (.get key gd)) ∧ w'.idx.maxLevel = w.idx.maxLevel ∧
      w'.guards = w.guards ∧ w'.pinned = w.pinned := by
  obtain ⟨idx', out, A', g, m, ⟨n, hcall⟩, hs, hborrow⟩ := hM.table.call (.get key) (Nat.zero_le _)
  have hgnone : g = none := by
    rcases g with _ | x
    · rfl
    · exact absurd (hs.garbage_frees rfl).1 Bool.false_ne_true
  subst hgnone
  refine ⟨{ w with
      idx := idx'
      slices := w.slices ++ (out.borrow.map fun c => ⟨gd, w.idx.shard key, c⟩).toList }, A',
    ⟨n, fun fuel hf => ?_⟩, ?_, hs.maxLevel, rfl, rfl⟩
  · simp only [World.step, if_pos hgd, hcall fuel hf, Option.bind_eq_bind, Option.bind_some]
  · have htable : Table idx' A' w.dom.garbageOf :=
      hs.table hM.table (fun _ _ => rfl) (garbageOf_eq_none le_rfl)
    have hkeys : ∀ k, k ∈ L.keys ↔ ∃ c, Holds idx' A' k c := hM.keys_after hs
    have hold : ∀ slices,
        List.Forall₂ (NoteOk { w with idx := idx', slices := slices } A') w.slices L.notes := by
      intro slices
      refine hM.notes.imp fun b n hn => ?_
      show NoteOk _ A' b (if (Op.get key).writes then n.displace key L.drops else n)
      exact hn.after hM.table hs (.refl w.dom) hM.epoch
    by_cases hk : key ∈ L.keys
    · obtain ⟨c, hc⟩ := (hM.keys key).mp hk
      rw [(hborrow key rfl c).mpr hc, Ledger.step, if_pos hk]
      refine ⟨hM.alone, hM.guards, hM.slot, hM.epoch, hM.tick, htable, hkeys, ?_⟩
      refine List.rel_append (hold _) (List.Forall₂.cons ?_ .nil)
      exact ⟨rfl, (hs.shard_eq key).symm, fun _ => hs.holds_self.mpr hc, nofun⟩
    · have hnone : out.borrow = none := by
        rw [Option.eq_none_iff_forall_ne_some]
        intro c hc
        exact hk ((hM.keys key).mpr ⟨c, (hborrow key rfl c).mp hc⟩)
      rw [hnone, Ledger.step, if_neg hk]
      refine ⟨hM.alone, hM.guards, hM.slot, hM.epoch, hM.tick, htable, hkeys, ?_⟩
      simpa using hold _

/-- **A statement and its entry in the account.** -/
theorem Matches.step (hM : Matches w A L) {c : Cmd} {cs : List Cmd}
    (hwf : WellFormed w.idx.maxLevel w.guards w.pinned (c :: cs)) :
    ∃ w' A', (∃ n, ∀ fuel ≥ n, w.step fuel c = some w') ∧ Matches w' A' (L.step c) ∧
      WellFormed w'.idx.maxLevel w'.guards w'.pinned cs := by
  cases c with
  | pin =>
      obtain ⟨w', hstep, hM', hidx, hg, hp⟩ := hM.pin
      exact ⟨w', A, hstep, hM', by rw [hidx, hg, hp]; exact hwf⟩
  | drop gd =>
      obtain ⟨w', hstep, hM', hidx, hg, hp⟩ := hM.drop hwf.1
      exact ⟨w', A, hstep, hM', by rw [hidx, hg, hp]; exact hwf.2⟩
  | get key gd =>
      obtain ⟨w', A', hstep, hM', hlvl, hg, hp⟩ := hM.get hwf.1 key
      exact ⟨w', A', hstep, hM', by rw [hlvl, hg, hp]; exact hwf.2⟩
  | insert key val topLevel =>
      obtain ⟨w', A', hstep, hM', hlvl, hg, hp⟩ := hM.guarded (.insert key val) hwf.1
      exact ⟨w', A', hstep, hM', by rw [hlvl, hg, hp]; exact hwf.2⟩
  | remove key =>
      obtain ⟨w', A', hstep, hM', hlvl, hg, hp⟩ := hM.guarded (.remove key) (Nat.zero_le _)
      exact ⟨w', A', hstep, hM', by rw [hlvl, hg, hp]; exact hwf⟩
  | getOwned key =>
      obtain ⟨w', A', hstep, hM', hlvl, hg, hp⟩ := hM.guarded (.get key) (Nat.zero_le _)
      refine ⟨w', A', hstep, ?_, by rw [hlvl, hg, hp]; exact hwf⟩
      simpa [Ledger.after, Ledger.step, Op.writes] using hM'

end Step

/-! ## Whole programs -/

/-- Every prefix of a program runs, and its account is right. -/
theorem Matches.run (prog : List Cmd) : ∀ {w : World} {A : ℕ → List ℕ} {L : Ledger}, Matches w A L →
    WellFormed w.idx.maxLevel w.guards w.pinned prog → ∃ n, ∀ pre, pre <+: prog →
      ∃ w' A', (∀ fuel ≥ n, w.run fuel pre = some w') ∧ Matches w' A' (pre.foldl Ledger.step L) := by
  induction prog with
  | nil =>
      intro w A L hM _
      refine ⟨0, fun pre hpre => ?_⟩
      obtain rfl := List.prefix_nil.mp hpre
      exact ⟨w, A, fun _ _ => rfl, hM⟩
  | cons c cs ih =>
      intro w A L hM hwf
      obtain ⟨w₁, A₁, ⟨n₁, hstep⟩, hM₁, hwf₁⟩ := hM.step hwf
      obtain ⟨n₂, hrun⟩ := ih hM₁ hwf₁
      refine ⟨n₁ + n₂, fun pre hpre => ?_⟩
      rcases List.prefix_cons_iff.mp hpre with rfl | ⟨pre', rfl, hpre'⟩
      · exact ⟨w, A, fun _ _ => rfl, hM⟩
      · obtain ⟨w', A', hw', hM'⟩ := hrun pre' hpre'
        refine ⟨w', A', fun fuel hf => ?_, hM'⟩
        rw [World.run, hstep fuel (by omega)]
        exact hw' fuel (by omega)

/-- The account of a new index is empty. -/
theorem matches_new {lvl : ℕ → ℕ} {numShards capacityHint : ℕ} {idx : ShardedIndex}
    (hnew : ShardedIndex.new lvl numShards capacityHint = some idx) :
    Matches (.new idx) (fun _ => [head, tail]) .empty := by
  have hrange := (indexRep_new hnew).shard_lt
  have hshard : ∀ (i : ℕ) (m : Mem), idx.shards[i]? = some m →
      m = .withMaxLevel ∧ Rep idx.maxLevel m [head, tail] ∅ := by
    obtain ⟨-, rfl⟩ : _ ∧ _ := by simpa [ShardedIndex.new] using hnew
    intro i m hm
    obtain rfl := List.eq_of_mem_replicate (List.mem_of_getElem? hm)
    exact ⟨rfl, rep_withMaxLevel (withCapacityHint_le ..)⟩
  have hempty : ∀ key c, ¬ Holds idx (fun _ => [head, tail]) key c := by
    rintro key c ⟨m, hm, p, hp, hk, -⟩
    obtain ⟨rfl, -⟩ := hshard _ m hm
    rcases List.mem_pair.mp hp with rfl | rfl <;> cases hk
  have hnone : ∀ r x, (World.new idx).dom.garbageOf r ≠ some x :=
    fun r x hx => absurd (lt_of_garbageOf hx) (Nat.not_lt_zero r)
  refine ⟨Ebr.alone_new, rfl, fun h => absurd h (Nat.lt_irrefl 0), rfl, rfl,
    ⟨hrange, ?_, fun r i g hr => absurd hr (hnone r _), fun r _ _ _ _ _ hr => absurd hr (hnone r _), ?_⟩,
    fun key => ?_, .nil⟩
  · exact fun i m hm => ⟨∅, (hshard i m hm).2⟩
  · exact fun k k' c _ hc => absurd hc (hempty k c)
  · refine iff_of_false List.not_mem_nil ?_
    rintro ⟨c, hc⟩
    exact hempty key c hc

/-- **How long a slice is valid.**  For every program of one thread on a fresh index: no slice outlives its
cell at any point of the program, exactly when at no point a slice is held for two collections after the
call that displaced its value. -/
theorem slices_valid_iff {lvl : ℕ → ℕ} {numShards capacityHint : ℕ} {idx : ShardedIndex}
    (hnew : ShardedIndex.new lvl numShards capacityHint = some idx) {prog : List Cmd}
    (hprog : WellFormed idx.maxLevel [] 0 prog) :
    ∃ n, ∀ fuel ≥ n,
      (∀ pre, pre <+: prog → ∃ w, (World.new idx).run fuel pre = some w ∧ w.Sound) ↔ Timely prog := by
  obtain ⟨n, hn⟩ := (matches_new hnew).run prog hprog
  refine ⟨n, fun fuel hf => ?_⟩
  refine forall_congr' fun pre => forall_congr' fun hpre => ?_
  obtain ⟨w, A, hrun, hM⟩ := hn pre hpre
  rw [hrun fuel hf, ← hM.sound_iff]
  simp

/-- A slice is held while its key is overwritten, and dropped with its guard. -/
def updatedUnder : List Cmd :=
  [.insert [5] [1] 0, .pin, .get [5] 0, .insert [5] [2] 0, .drop 0, .remove [5]]

theorem timely_updatedUnder : Timely updatedUnder := by
  intro pre hpre n hn d hd
  rw [← List.mem_inits, updatedUnder] at hpre
  simp only [List.inits, List.map_cons, List.map_nil, List.mem_cons, List.not_mem_nil, or_false] at hpre
  -- only two prefixes hold a slice: before the update, and between it and the drop
  rcases hpre with rfl | rfl | rfl | rfl | rfl | rfl | rfl <;>
    simp [Ledger.step, Ledger.empty, Note.displace] at hn
  · subst hn
    cases hd
  · subst hn
    cases hd
    decide

theorem slices_valid_iff_sample :
    ∃ idx, ShardedIndex.new (fun _ => 2) 4 100 = some idx ∧ ∃ n, ∀ fuel ≥ n,
      ∀ pre, pre <+: updatedUnder → ∃ w, (World.new idx).run fuel pre = some w ∧ w.Sound := by
  obtain ⟨idx, hidx⟩ := Option.isSome_iff_exists.mp
    (ShardedIndex.new_isSome (fun _ => 2) 100 (show 4 ≤ 2 ^ 63 by decide))
  obtain ⟨n, hn⟩ := slices_valid_iff hidx
    (show WellFormed idx.maxLevel [] 0 updatedUnder by simp [WellFormed, updatedUnder])
  exact ⟨idx, hidx, n, fun fuel hf => (hn fuel hf).mpr timely_updatedUnder⟩

/-- A slice is held while its key is overwritten and 254 values are copied out. -/
def overlapping : List Cmd :=
  [.insert [5] [1] 0, .pin, .get [5] 0, .insert [5] [2] 0] ++ List.replicate 254 (.getOwned [5])

theorem wellFormed_getOwned (maxLevel : ℕ) (guards : List ℕ) (pinned : ℕ) (key : Bytes) (n : ℕ) :
    WellFormed maxLevel guards pinned (List.replicate n (.getOwned key)) := by
  induction n with
  | zero => trivial
  | succ n ih => exact ih

/-- The program never drops its guard, and the cell behind the slice is freed. -/
theorem overlapping_frees :
    ∃ idx, ShardedIndex.new (fun _ => 2) 4 100 = some idx ∧ WellFormed idx.maxLevel [] 0 overlapping ∧
      ∃ n, ∀ fuel ≥ n, ∃ w, (World.new idx).run fuel overlapping = some w ∧
        ∃ b ∈ w.slices, (b.shard, b.cell) ∈ w.freed := by
  obtain ⟨idx, hidx⟩ := Option.isSome_iff_exists.mp
    (ShardedIndex.new_isSome (fun _ => 2) 100 (show 4 ≤ 2 ^ 63 by decide))
  have hwf : WellFormed idx.maxLevel [] 0 overlapping :=
    ⟨Nat.zero_le _, List.mem_singleton_self 0, Nat.zero_le _, wellFormed_getOwned ..⟩
  obtain ⟨n, hn⟩ := (matches_new hidx).run overlapping hwf
  obtain ⟨w, A, hrun, hM⟩ := hn overlapping List.prefix_rfl
  refine ⟨idx, hidx, hwf, n, fun fuel hf => ⟨w, hrun fuel hf, ?_⟩⟩
  -- the value was displaced before the second drop, and the 256th has happened
  have hledger : overlapping.foldl Ledger.step .empty =
      { keys := [[5], [5]], drops := 256, notes := [⟨0, [5], some 1⟩] } := by decide +kernel
  have hlate : ¬ w.Sound := by
    rw [hM.sound_iff, hledger]
    intro h
    exact h ⟨0, [5], some 1⟩ (List.mem_singleton_self _) 1 rfl (by decide)
  simpa [World.Sound] using hlate

end ZeroKv.Borrow
