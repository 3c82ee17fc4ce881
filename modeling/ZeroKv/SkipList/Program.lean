/-
# ZeroKv.SkipList.Program — what one thread does, atomic step by atomic step.

A thread that runs `insert`, `get` or `remove` is at a program point; every atomic load, store, swap and
compare-exchange of the source is one step.  Work on memory that no other thread can see (boxing a value,
allocating a node) is done together with the step before or after it, and the prefetch hints, whose
loads have no effect, are left out.

A step that would follow a null reference, or read above the top of a tower, does not exist.
-/
import ZeroKv.Lib.Threads
import ZeroKv.Lib.Word
import ZeroKv.SkipList.Memory

namespace ZeroKv.SkipList

/-- The locals of a call.  The two arrays start out as null; `find` fills the entries `0..=max_level`
before anybody reads one, so the value that stands for null here does not matter.  `borrow` is the cell
that the slice returned by `get` points into. -/
structure Regs where
  id : ℕ
  op : Op
  key : Bytes
  val : Bytes
  topLevel : ℕ
  preds : ℕ → ℕ
  succs : ℕ → ℕ
  borrow : Option ℕ

/-- Which call of `find` is running: the search of `insert` or `remove`, the renewed search of `insert`
after a lost race at an upper level, or the cleanup of `remove`. -/
inductive After
  | insert
  | relink (node level : ℕ)
  | remove
  | clean (node : ℕ)
deriving DecidableEq

/-- Program points. -/
inductive Pc
  /-- `curr = (*pred).link(level).reference()` -/
  | findRef (a : After) (level pred : ℕ)
  /-- `(succ, marked) = (*curr).link(level).get()` -/
  | findGet (a : After) (level pred curr : ℕ)
  /-- `(*pred).link(level).cas(curr, succ, false, false)` -/
  | findSplice (a : After) (level pred curr succ : ℕ)
  /-- box the value, `Node::new` -/
  | insAlloc
  /-- `(*node).link(level).store(succs[level], false)`, before publication -/
  | insInit (node level : ℕ)
  /-- `(*pred).link(0).cas(succ, node, false, false)` -/
  | insPub (node : ℕ)
  /-- `(*node).link(level).store(succ, false)`, after publication -/
  | insStore (node level : ℕ)
  /-- `(*pred).link(level).cas(succ, node, false, false)` -/
  | insLink (node level : ℕ)
  /-- `self.len.fetch_add(1)` -/
  | insLen
  /-- `(*node).value.swap(newv)` -/
  | insSwap (node : ℕ)
  /-- `guard.retire(old, drop_value)` -/
  | insRetire (old : ℕ)
  /-- `curr = (*pred).link(level).reference()` in `get` -/
  | getRef (level pred : ℕ)
  /-- `(succ, marked) = (*curr).link(level).get()` in `get` -/
  | getGet (level pred curr : ℕ)
  /-- `(_, marked) = (*curr).link(0).get()` -/
  | getMark (curr : ℕ)
  /-- `(*curr).value.load()` -/
  | getVal (curr : ℕ)
  /-- `(succ, marked) = (*node).link(level).get()` in `remove` -/
  | rmGet (node level : ℕ)
  /-- `(*node).link(level).attempt_mark(succ, true)` -/
  | rmMark (node level : ℕ) (succ : Option ℕ)
  /-- `(succ, _) = (*node).link(0).get()` -/
  | rmGet0 (node : ℕ)
  /-- `(*node).link(0).cas(succ, succ, false, true)` -/
  | rmCas0 (node : ℕ) (succ : Option ℕ)
  /-- `g = (*node).link(0).get()` -/
  | rmChk (node : ℕ) (iMarked : Bool)
  /-- `self.len.fetch_sub(1)` -/
  | rmLen (node : ℕ)
  /-- `guard.retire(node, drop_node)` -/
  | rmRetire (node : ℕ)
  | ret (v : Ret)
deriving DecidableEq

/-- A thread is between calls or inside one. -/
inductive Thread
  | idle
  | busy (r : Regs) (pc : Pc)

/-- What a thread does next.  A call comes with the tower height `random_level` will draw for it. -/
inductive Choice
  | call (op : Op) (topLevel : ℕ)
  | run
deriving DecidableEq

def Op.key : Op → Bytes
  | .insert key _ | .get key | .remove key => key

def Op.val : Op → Bytes
  | .insert _ val => val
  | _ => []

/-- The locals at the start of call `id`. -/
def Regs.start (id : ℕ) (op : Op) (topLevel : ℕ) : Regs where
  id := id
  op := op
  key := op.key
  val := op.val
  topLevel := topLevel
  preds := fun _ => 0
  succs := fun _ => 0
  borrow := none

/-- The first program point of a call. -/
def Pc.start (maxLevel : ℕ) : Op → Pc
  | .insert _ _ => .findRef .insert maxLevel head
  | .get _ => .getRef maxLevel head
  | .remove _ => .findRef .remove maxLevel head

/-- The loop of `remove` over the upper levels, top-down, is at `level`. -/
def Pc.rmDown (node level : ℕ) : Pc := if level = 0 then .rmGet0 node else .rmGet node level

/-- The loop of `insert` over the upper levels is at `level`. -/
def Pc.insUp (topLevel node level : ℕ) : Pc :=
  if level ≤ topLevel then .insStore node level else .insLen

/-- Where the caller of `find` goes on, after `find` has left `curr` in `succs[0]`. -/
def Pc.found (m : Mem) (r : Regs) (curr : ℕ) : After → Pc
  | .insert => if (m.nodes.keyOf curr).keyEq r.key then .insSwap curr else .insAlloc
  | .relink node level => .insStore node level
  | .remove => if (m.nodes.keyOf curr).keyEq r.key then .rmDown curr (m.nodes.topOf curr) else .ret (.flag false)
  | .clean node => .rmLen node

/-- The search is done with `level`: `preds[level] = pred; succs[level] = curr`. -/
def Regs.atLevel (r : Regs) (level pred curr : ℕ) : Regs :=
  { r with
    preds := Function.update r.preds level pred
    succs := Function.update r.succs level curr }

/-- The counter `len` is a 64-bit `AtomicUsize`. -/
def lenMod : ℕ := 2 ^ 64

namespace Mem

/-- A write to link `l` of node `p`. -/
def store (m : Mem) (p l : ℕ) (lk : Link) : Mem := { m with nodes := m.nodes.setLink p l lk }

/-- Node `p` is now linked at `n` levels. -/
def linkedAt (m : Mem) (p n : ℕ) : Mem := { m with nodes := m.nodes.setLinked p n }

/-- `Box::into_raw(Box::new(ValueRecord { bytes }))`. -/
def boxValue (m : Mem) (bytes : Bytes) : Mem := { m with cells := m.cells ++ [bytes] }

/-- The allocation of a node. -/
def allocNode (m : Mem) (nd : Node) : Mem := { m with nodes := m.nodes.alloc nd }

/-- The write of `value.swap(..)`. -/
def swapValue (m : Mem) (p c : ℕ) : Mem := { m with nodes := m.nodes.setValue p (some c) }

/-- `compare_exchange` on link `l` of node `p`. -/
def cas (m : Mem) (p l : ℕ) (old new : Link) : Option (Mem × Bool) :=
  (m.nodes.link p l).map fun lk =>
    if lk = old then (m.store p l new, true) else (m, false)

/-- `self.len.fetch_add(1)`. -/
def incLen (m : Mem) : Mem := { m with len := (m.len + 1) % lenMod }

/-- `self.len.fetch_sub(1)`. -/
def decLen (m : Mem) : Mem := { m with len := (m.len + (lenMod - 1)) % lenMod }

@[simp] theorem nodes_incLen (m : Mem) : m.incLen.nodes = m.nodes := by
  cases m
  rfl

@[simp] theorem nodes_decLen (m : Mem) : m.decLen.nodes = m.nodes := by
  cases m
  rfl

/-- Counting changes nothing but the counter. -/
theorem incLen_eq (m : Mem) : ∃ n, m.incLen = { m with len := n } := by
  cases m
  exact ⟨_, rfl⟩

theorem decLen_eq (m : Mem) : ∃ n, m.decLen = { m with len := n } := by
  cases m
  exact ⟨_, rfl⟩

/-- `guard.retire(..)`. -/
def retire (m : Mem) (g : Garbage) : Mem := { m with retired := m.retired ++ [g] }

/-- `free_node(node)` of a node that was never published. -/
def freeNode (m : Mem) (p : ℕ) : Mem := { m with freed := m.freed ++ [p] }

/-- A call is made. -/
def invoke (m : Mem) (op : Op) : Mem :=
  { m with calls := m.calls + 1, hist := m.hist ++ [.inv m.calls op] }

/-- A call returns. -/
def respond (m : Mem) (id : ℕ) (v : Ret) : Mem := { m with hist := m.hist ++ [.res id v] }

end Mem

/-- The step of a thread that is inside a call. -/
def exec (maxLevel : ℕ) (m : Mem) (r : Regs) : Pc → Option (Mem × Thread)
  | .findRef a level pred => do
      let lk ← m.nodes.link pred level
      let curr ← lk.ref
      some (m, .busy r (.findGet a level pred curr))
  | .findGet a level pred curr => do
      let lk ← m.nodes.link curr level
      if lk.mark then
        let succ ← lk.ref
        some (m, .busy r (.findSplice a level pred curr succ))
      else if (m.nodes.keyOf curr).keyLt r.key then
        let succ ← lk.ref
        some (m, .busy r (.findGet a level curr succ))
      else
        let r' := r.atLevel level pred curr
        match level with
        | 0 => some (m, .busy r' (.found m r' curr a))
        | level + 1 => some (m, .busy r' (.findRef a level pred))
  | .findSplice a level pred curr succ => do
      let (m', ok) ← m.cas pred level ⟨some curr, false⟩ ⟨some succ, false⟩
      if ok then some (m', .busy r (.findGet a level pred succ))
      -- `continue 'retry`: a lost race restarts the search at the head
      else some (m, .busy r (.findRef a maxLevel head))
  | .insAlloc =>
      let node := Node.new (.fin (.new r.key)) (some m.cells.length) r.topLevel
      some ((m.boxValue r.val).allocNode node, .busy r (.insInit m.nodes.length 0))
  | .insInit node level => do
      let _ ← m.nodes.link node level
      let m' := m.store node level ⟨some (r.succs level), false⟩
      if level < r.topLevel then some (m', .busy r (.insInit node (level + 1)))
      else some (m', .busy r (.insPub node))
  | .insPub node => do
      let (m', ok) ← m.cas (r.preds 0) 0 ⟨some (r.succs 0), false⟩ ⟨some node, false⟩
      if ok then some (m'.linkedAt node 1, .busy r (.insUp r.topLevel node 1))
      -- the node was never visible, so it is freed at once
      else some (m.freeNode node, .busy r (.findRef .insert maxLevel head))
  | .insStore node level => do
      let _ ← m.nodes.link node level
      -- a plain store: a mark that a remover has set here in the meantime is lost
      some (m.store node level ⟨some (r.succs level), false⟩, .busy r (.insLink node level))
  | .insLink node level => do
      let (m', ok) ← m.cas (r.preds level) level ⟨some (r.succs level), false⟩ ⟨some node, false⟩
      if ok then some (m'.linkedAt node (level + 1), .busy r (.insUp r.topLevel node (level + 1)))
      else some (m, .busy r (.findRef (.relink node level) maxLevel head))
  | .insLen => some (m.incLen, .busy r (.ret (.flag true)))
  | .insSwap node =>
      let m' := (m.boxValue r.val).swapValue node m.cells.length
      match m.nodes.valueOf node with
      | some old => some (m', .busy r (.insRetire old))
      | none => some (m', .busy r (.ret (.flag false)))
  | .insRetire old => some (m.retire (.cell old), .busy r (.ret (.flag false)))
  | .getRef level pred => do
      let lk ← m.nodes.link pred level
      let curr ← lk.ref
      some (m, .busy r (.getGet level pred curr))
  | .getGet level pred curr => do
      let lk ← m.nodes.link curr level
      if lk.mark then
        let succ ← lk.ref
        -- `get` steps over a marked node and leaves it linked
        some (m, .busy r (.getGet level pred succ))
      else if (m.nodes.keyOf curr).keyLt r.key then
        let succ ← lk.ref
        some (m, .busy r (.getGet level curr succ))
      else
        match level with
        | 0 =>
            if (m.nodes.keyOf curr).keyEq r.key then some (m, .busy r (.getMark curr))
            else some (m, .busy r (.ret (.value none)))
        | level + 1 => some (m, .busy r (.getRef level pred))
  | .getMark curr => do
      let lk ← m.nodes.link curr 0
      if lk.mark then some (m, .busy r (.ret (.value none)))
      else some (m, .busy r (.getVal curr))
  | .getVal curr =>
      match m.nodes.valueOf curr with
      | none => some (m, .busy r (.ret (.value none)))
      | some c => some (m, .busy { r with borrow := some c } (.ret (.value (some (m.cells.getD c [])))))
  | .rmGet node level => do
      let lk ← m.nodes.link node level
      if lk.mark then some (m, .busy r (.rmDown node (level - 1)))
      else some (m, .busy r (.rmMark node level lk.ref))
  | .rmMark node level succ => do
      let (m', _) ← m.cas node level ⟨succ, false⟩ ⟨succ, true⟩
      -- the answer of `attempt_mark` is not looked at; the link is read again
      some (m', .busy r (.rmGet node level))
  | .rmGet0 node => do
      let lk ← m.nodes.link node 0
      some (m, .busy r (.rmCas0 node lk.ref))
  | .rmCas0 node succ => do
      let (m', iMarked) ← m.cas node 0 ⟨succ, false⟩ ⟨succ, true⟩
      some (m', .busy r (.rmChk node iMarked))
  | .rmChk node iMarked => do
      let lk ← m.nodes.link node 0
      -- the link is read before the answer of the CAS is tested
      if iMarked then some (m, .busy r (.findRef (.clean node) maxLevel head))
      else if lk.mark then some (m, .busy r (.ret (.flag false)))
      else some (m, .busy r (.rmCas0 node lk.ref))
  | .rmLen node => some (m.decLen, .busy r (.rmRetire node))
  | .rmRetire node => some (m.retire (.node node), .busy r (.ret (.flag true)))
  | .ret v => some (m.respond r.id v, .idle)

/-- One step of a thread; a drawn height is at most `max_level`. -/
def step (maxLevel : ℕ) (m : Mem) : Thread → Choice → Option (Mem × Thread)
  | .idle, .call op topLevel =>
      if topLevel ≤ maxLevel then
        some (m.invoke op, .busy (.start m.calls op topLevel) (.start maxLevel op))
      else none
  | .busy r pc, .run => exec maxLevel m r pc
  | _, _ => none

/-- The threads that share one skiplist. -/
def threads (maxLevel : ℕ) : Threads Mem Thread Choice where
  mem := .withMaxLevel
  loc := .idle
  step := step maxLevel

/-! ## What a step can do -/

/-- The step of a thread inside a call, one constructor for each branch with the condition on the memory
under which it is taken. -/
inductive Move (maxLevel : ℕ) (m : Mem) (r : Regs) : Pc → Mem → Thread → Prop
  | findRef {a level pred curr b} (hl : m.nodes.link pred level = some ⟨some curr, b⟩) :
      Move maxLevel m r (.findRef a level pred) m (.busy r (.findGet a level pred curr))
  | findMarked {a level pred curr succ} (hl : m.nodes.link curr level = some ⟨some succ, true⟩) :
      Move maxLevel m r (.findGet a level pred curr) m
        (.busy r (.findSplice a level pred curr succ))
  | findNext {a level pred curr succ} (hl : m.nodes.link curr level = some ⟨some succ, false⟩)
      (hk : m.nodes.bound curr < target r.key) :
      Move maxLevel m r (.findGet a level pred curr) m (.busy r (.findGet a level curr succ))
  | findDown {a level pred curr o} (hl : m.nodes.link curr (level + 1) = some ⟨o, false⟩)
      (hk : target r.key ≤ m.nodes.bound curr) :
      Move maxLevel m r (.findGet a (level + 1) pred curr) m
        (.busy (r.atLevel (level + 1) pred curr) (.findRef a level pred))
  | findDone {a pred curr o} (hl : m.nodes.link curr 0 = some ⟨o, false⟩)
      (hk : target r.key ≤ m.nodes.bound curr) :
      Move maxLevel m r (.findGet a 0 pred curr) m
        (.busy (r.atLevel 0 pred curr) (.found m (r.atLevel 0 pred curr) curr a))
  | spliced {a level pred curr succ} (hl : m.nodes.link pred level = some ⟨some curr, false⟩) :
      Move maxLevel m r (.findSplice a level pred curr succ) (m.store pred level ⟨some succ, false⟩)
        (.busy r (.findGet a level pred succ))
  | spliceLost {a level pred curr succ lk} (hl : m.nodes.link pred level = some lk)
      (hne : lk ≠ ⟨some curr, false⟩) :
      Move maxLevel m r (.findSplice a level pred curr succ) m (.busy r (.findRef a maxLevel head))
  | insAlloc :
      Move maxLevel m r .insAlloc
        ((m.boxValue r.val).allocNode (.new (.fin (.new r.key)) (some m.cells.length) r.topLevel))
        (.busy r (.insInit m.nodes.length 0))
  | insInit {node level lk} (hl : m.nodes.link node level = some lk) (ht : level < r.topLevel) :
      Move maxLevel m r (.insInit node level) (m.store node level ⟨some (r.succs level), false⟩)
        (.busy r (.insInit node (level + 1)))
  | insInitLast {node level lk} (hl : m.nodes.link node level = some lk) (ht : r.topLevel ≤ level) :
      Move maxLevel m r (.insInit node level) (m.store node level ⟨some (r.succs level), false⟩)
        (.busy r (.insPub node))
  | published {node} (hl : m.nodes.link (r.preds 0) 0 = some ⟨some (r.succs 0), false⟩) :
      Move maxLevel m r (.insPub node) ((m.store (r.preds 0) 0 ⟨some node, false⟩).linkedAt node 1)
        (.busy r (.insUp r.topLevel node 1))
  | publishLost {node lk} (hl : m.nodes.link (r.preds 0) 0 = some lk)
      (hne : lk ≠ ⟨some (r.succs 0), false⟩) :
      Move maxLevel m r (.insPub node) (m.freeNode node) (.busy r (.findRef .insert maxLevel head))
  | insStore {node level lk} (hl : m.nodes.link node level = some lk) :
      Move maxLevel m r (.insStore node level) (m.store node level ⟨some (r.succs level), false⟩)
        (.busy r (.insLink node level))
  | linked {node level}
      (hl : m.nodes.link (r.preds level) level = some ⟨some (r.succs level), false⟩) :
      Move maxLevel m r (.insLink node level)
        ((m.store (r.preds level) level ⟨some node, false⟩).linkedAt node (level + 1))
        (.busy r (.insUp r.topLevel node (level + 1)))
  | linkLost {node level lk} (hl : m.nodes.link (r.preds level) level = some lk)
      (hne : lk ≠ ⟨some (r.succs level), false⟩) :
      Move maxLevel m r (.insLink node level) m
        (.busy r (.findRef (.relink node level) maxLevel head))
  | insLen : Move maxLevel m r .insLen m.incLen (.busy r (.ret (.flag true)))
  | swapped {node old} (hv : m.nodes.valueOf node = some old) :
      Move maxLevel m r (.insSwap node) ((m.boxValue r.val).swapValue node m.cells.length)
        (.busy r (.insRetire old))
  | swappedNull {node} (hv : m.nodes.valueOf node = none) :
      Move maxLevel m r (.insSwap node) ((m.boxValue r.val).swapValue node m.cells.length)
        (.busy r (.ret (.flag false)))
  | insRetire {old} :
      Move maxLevel m r (.insRetire old) (m.retire (.cell old)) (.busy r (.ret (.flag false)))
  | getRef {level pred curr b} (hl : m.nodes.link pred level = some ⟨some curr, b⟩) :
      Move maxLevel m r (.getRef level pred) m (.busy r (.getGet level pred curr))
  | getMarked {level pred curr succ} (hl : m.nodes.link curr level = some ⟨some succ, true⟩) :
      Move maxLevel m r (.getGet level pred curr) m (.busy r (.getGet level pred succ))
  | getNext {level pred curr succ} (hl : m.nodes.link curr level = some ⟨some succ, false⟩)
      (hk : m.nodes.bound curr < target r.key) :
      Move maxLevel m r (.getGet level pred curr) m (.busy r (.getGet level curr succ))
  | getDown {level pred curr o} (hl : m.nodes.link curr (level + 1) = some ⟨o, false⟩)
      (hk : target r.key ≤ m.nodes.bound curr) :
      Move maxLevel m r (.getGet (level + 1) pred curr) m (.busy r (.getRef level pred))
  | getHit {pred curr o} (hl : m.nodes.link curr 0 = some ⟨o, false⟩)
      (hk : m.nodes.bound curr = target r.key) :
      Move maxLevel m r (.getGet 0 pred curr) m (.busy r (.getMark curr))
  | getMiss {pred curr o} (hl : m.nodes.link curr 0 = some ⟨o, false⟩)
      (hk : target r.key < m.nodes.bound curr) :
      Move maxLevel m r (.getGet 0 pred curr) m (.busy r (.ret (.value none)))
  | getGone {curr o} (hl : m.nodes.link curr 0 = some ⟨o, true⟩) :
      Move maxLevel m r (.getMark curr) m (.busy r (.ret (.value none)))
  | getLive {curr o} (hl : m.nodes.link curr 0 = some ⟨o, false⟩) :
      Move maxLevel m r (.getMark curr) m (.busy r (.getVal curr))
  | getVal {curr c} (hv : m.nodes.valueOf curr = some c) :
      Move maxLevel m r (.getVal curr) m
        (.busy { r with borrow := some c } (.ret (.value (some (m.cells.getD c [])))))
  | getNull {curr} (hv : m.nodes.valueOf curr = none) :
      Move maxLevel m r (.getVal curr) m (.busy r (.ret (.value none)))
  | rmPassed {node level o} (hl : m.nodes.link node level = some ⟨o, true⟩) :
      Move maxLevel m r (.rmGet node level) m (.busy r (.rmDown node (level - 1)))
  | rmGet {node level o} (hl : m.nodes.link node level = some ⟨o, false⟩) :
      Move maxLevel m r (.rmGet node level) m (.busy r (.rmMark node level o))
  | rmMarked {node level succ} (hl : m.nodes.link node level = some ⟨succ, false⟩) :
      Move maxLevel m r (.rmMark node level succ) (m.store node level ⟨succ, true⟩)
        (.busy r (.rmGet node level))
  | rmMarkLost {node level succ lk} (hl : m.nodes.link node level = some lk)
      (hne : lk ≠ ⟨succ, false⟩) :
      Move maxLevel m r (.rmMark node level succ) m (.busy r (.rmGet node level))
  | rmGet0 {node o b} (hl : m.nodes.link node 0 = some ⟨o, b⟩) :
      Move maxLevel m r (.rmGet0 node) m (.busy r (.rmCas0 node o))
  | removed {node succ} (hl : m.nodes.link node 0 = some ⟨succ, false⟩) :
      Move maxLevel m r (.rmCas0 node succ) (m.store node 0 ⟨succ, true⟩)
        (.busy r (.rmChk node true))
  | removeLost {node succ lk} (hl : m.nodes.link node 0 = some lk) (hne : lk ≠ ⟨succ, false⟩) :
      Move maxLevel m r (.rmCas0 node succ) m (.busy r (.rmChk node false))
  | rmClean {node lk} (hl : m.nodes.link node 0 = some lk) :
      Move maxLevel m r (.rmChk node true) m (.busy r (.findRef (.clean node) maxLevel head))
  | rmBeaten {node o} (hl : m.nodes.link node 0 = some ⟨o, true⟩) :
      Move maxLevel m r (.rmChk node false) m (.busy r (.ret (.flag false)))
  | rmRetry {node o} (hl : m.nodes.link node 0 = some ⟨o, false⟩) :
      Move maxLevel m r (.rmChk node false) m (.busy r (.rmCas0 node o))
  | rmLen {node} : Move maxLevel m r (.rmLen node) m.decLen (.busy r (.rmRetire node))
  | rmRetire {node} :
      Move maxLevel m r (.rmRetire node) (m.retire (.node node)) (.busy r (.ret (.flag true)))
  | ret {v} : Move maxLevel m r (.ret v) (m.respond r.id v) .idle

section

variable {maxLevel : ℕ} {m m' : Mem} {r : Regs} {pc : Pc} {th : Thread}

theorem Mem.cas_eq_some {p l : ℕ} {old new : Link} {x : Mem × Bool} :
    m.cas p l old new = some x ↔
      (m.nodes.link p l = some old ∧ x = (m.store p l new, true)) ∨
        ∃ lk, m.nodes.link p l = some lk ∧ lk ≠ old ∧ x = (m, false) := by
  rw [Mem.cas, Option.map_eq_some_iff]
  constructor
  · rintro ⟨lk, hl, rfl⟩
    by_cases he : lk = old
    · exact .inl ⟨he ▸ hl, by simp [he]⟩
    · exact .inr ⟨lk, hl, he, by simp [he]⟩
  · rintro (⟨hl, rfl⟩ | ⟨lk, hl, he, rfl⟩)
    · exact ⟨old, hl, by simp⟩
    · exact ⟨lk, hl, by simp [he]⟩

theorem keyLt_eq_false_iff {b : BoundKey} {key : Bytes} :
    b.keyLt key = false ↔ target key ≤ b.bound := by
  rw [← Bool.not_eq_true, BoundKey.keyLt_iff, not_lt]

/-- Every move is a step. -/
theorem Move.exec (hm : Move maxLevel m r pc m' th) : exec maxLevel m r pc = some (m', th) := by
  cases hm with
  | findRef hl | getRef hl => simp [SkipList.exec, hl]
  | findMarked hl | getMarked hl => simp [SkipList.exec, hl]
  | findNext hl hk | getNext hl hk => simp [SkipList.exec, hl, BoundKey.keyLt_iff.mpr hk]
  | findDown hl hk | findDone hl hk | getDown hl hk =>
      simp [SkipList.exec, hl, keyLt_eq_false_iff.mpr hk]
  | getHit hl hk =>
      simp [SkipList.exec, hl, keyLt_eq_false_iff.mpr hk.ge, BoundKey.keyEq_iff.mpr hk]
  | @getMiss pred curr o hl hk =>
      have hne : (m.nodes.keyOf curr).keyEq r.key = false := by
        rw [← Bool.not_eq_true, BoundKey.keyEq_iff]
        exact hk.ne'
      simp [SkipList.exec, hl, keyLt_eq_false_iff.mpr hk.le, hne]
  | spliced hl | published hl | linked hl | rmMarked hl | removed hl =>
      simp [SkipList.exec, Mem.cas, hl]
  | spliceLost hl hne | publishLost hl hne | linkLost hl hne | rmMarkLost hl hne
  | removeLost hl hne => simp [SkipList.exec, Mem.cas, hl, hne]
  | insInit hl ht => simp [SkipList.exec, hl, ht]
  | insInitLast hl ht => simp [SkipList.exec, hl, Nat.not_lt.mpr ht]
  | swapped hv | swappedNull hv | getVal hv | getNull hv => simp [SkipList.exec, hv]
  | insStore hl | getGone hl | getLive hl | rmPassed hl | rmGet hl | rmGet0 hl | rmClean hl
  | rmBeaten hl | rmRetry hl => simp [SkipList.exec, hl]
  | insAlloc | insLen | insRetire | rmLen | rmRetire | ret => rfl

/-- A link that is read is there, with a reference or null. -/
theorem bind_link_eq_some {β : Type} {p l : ℕ} {f : Link → Option β} {b : β}
    (h : (m.nodes.link p l).bind f = some b) :
    ∃ o mk, m.nodes.link p l = some ⟨o, mk⟩ ∧ f ⟨o, mk⟩ = some b := by
  obtain ⟨⟨o, mk⟩, hl, hf⟩ := Option.bind_eq_some_iff.mp h
  exact ⟨o, mk, hl, hf⟩

theorem bind_cas_eq_some {β : Type} {p l : ℕ} {old new : Link} {f : Mem × Bool → Option β} {b : β}
    (h : (m.cas p l old new).bind f = some b) :
    (m.nodes.link p l = some old ∧ f (m.store p l new, true) = some b) ∨
      ∃ lk, m.nodes.link p l = some lk ∧ lk ≠ old ∧ f (m, false) = some b := by
  obtain ⟨x, hx, hf⟩ := Option.bind_eq_some_iff.mp h
  rcases Mem.cas_eq_some.mp hx with ⟨hl, rfl⟩ | ⟨lk, hl, hne, rfl⟩
  · exact .inl ⟨hl, hf⟩
  · exact .inr ⟨lk, hl, hne, hf⟩

/-- Every step is a move. -/
theorem move_of_exec (he : exec maxLevel m r pc = some (m', th)) : Move maxLevel m r pc m' th := by
  -- one case a program point; a compare-exchange gives two moves, won and lost
  cases pc with
  | findRef a level pred =>
      obtain ⟨o, mk, hl, he⟩ := bind_link_eq_some he
      obtain ⟨curr, rfl, he⟩ := Option.bind_eq_some_iff.mp he
      cases he
      exact .findRef hl
  | findGet a level pred curr =>
      obtain ⟨o, mk, hl, he⟩ := bind_link_eq_some he
      cases mk with
      | true =>
          obtain ⟨succ, rfl, he⟩ := Option.bind_eq_some_iff.mp he
          cases he
          exact .findMarked hl
      | false =>
          simp only [Bool.false_eq_true, if_false] at he
          split at he
          · next hk =>
            obtain ⟨succ, rfl, he⟩ := Option.bind_eq_some_iff.mp he
            cases he
            exact .findNext hl (BoundKey.keyLt_iff.mp hk)
          · next hk =>
            have hk := keyLt_eq_false_iff.mp (Bool.not_eq_true _ ▸ hk)
            cases level with
            | zero =>
                cases he
                exact .findDone hl hk
            | succ level =>
                cases he
                exact .findDown hl hk
  | findSplice a level pred curr succ =>
      rcases bind_cas_eq_some he with ⟨hl, he⟩ | ⟨lk, hl, hne, he⟩ <;> cases he
      · exact .spliced hl
      · exact .spliceLost hl hne
  | insAlloc =>
      cases he
      exact .insAlloc
  | insInit node level =>
      obtain ⟨o, mk, hl, he⟩ := bind_link_eq_some he
      simp only at he
      split at he <;> cases he
      · next ht => exact .insInit hl ht
      · next ht => exact .insInitLast hl (Nat.not_lt.mp ht)
  | insPub node =>
      rcases bind_cas_eq_some he with ⟨hl, he⟩ | ⟨lk, hl, hne, he⟩ <;> cases he
      · exact .published hl
      · exact .publishLost hl hne
  | insStore node level =>
      obtain ⟨o, mk, hl, he⟩ := bind_link_eq_some he
      cases he
      exact .insStore hl
  | insLink node level =>
      rcases bind_cas_eq_some he with ⟨hl, he⟩ | ⟨lk, hl, hne, he⟩ <;> cases he
      · exact .linked hl
      · exact .linkLost hl hne
  | insLen =>
      cases he
      exact .insLen
  | insSwap node =>
      simp only [exec] at he
      split at he <;> cases he
      · next hv => exact .swapped hv
      · next hv => exact .swappedNull hv
  | insRetire old =>
      cases he
      exact .insRetire
  | getRef level pred =>
      obtain ⟨o, mk, hl, he⟩ := bind_link_eq_some he
      obtain ⟨curr, rfl, he⟩ := Option.bind_eq_some_iff.mp he
      cases he
      exact .getRef hl
  | getGet level pred curr =>
      obtain ⟨o, mk, hl, he⟩ := bind_link_eq_some he
      cases mk with
      | true =>
          obtain ⟨succ, rfl, he⟩ := Option.bind_eq_some_iff.mp he
          cases he
          exact .getMarked hl
      | false =>
          simp only [Bool.false_eq_true, if_false] at he
          split at he
          · next hk =>
            obtain ⟨succ, rfl, he⟩ := Option.bind_eq_some_iff.mp he
            cases he
            exact .getNext hl (BoundKey.keyLt_iff.mp hk)
          · next hk =>
            have hk := keyLt_eq_false_iff.mp (Bool.not_eq_true _ ▸ hk)
            cases level with
            | zero =>
                simp only at he
                split at he <;> cases he
                · next heq => exact .getHit hl (BoundKey.keyEq_iff.mp heq)
                · next heq =>
                  exact .getMiss hl (lt_of_le_of_ne hk fun e => heq (BoundKey.keyEq_iff.mpr e.symm))
            | succ level =>
                cases he
                exact .getDown hl hk
  | getMark curr =>
      obtain ⟨o, mk, hl, he⟩ := bind_link_eq_some he
      cases mk <;> cases he
      · exact .getLive hl
      · exact .getGone hl
  | getVal curr =>
      simp only [exec] at he
      split at he <;> cases he
      · next hv => exact .getNull hv
      · next hv => exact .getVal hv
  | rmGet node level =>
      obtain ⟨o, mk, hl, he⟩ := bind_link_eq_some he
      cases mk <;> cases he
      · exact .rmGet hl
      · exact .rmPassed hl
  | rmMark node level succ =>
      rcases bind_cas_eq_some he with ⟨hl, he⟩ | ⟨lk, hl, hne, he⟩ <;> cases he
      · exact .rmMarked hl
      · exact .rmMarkLost hl hne
  | rmGet0 node =>
      obtain ⟨o, mk, hl, he⟩ := bind_link_eq_some he
      cases he
      exact .rmGet0 hl
  | rmCas0 node succ =>
      rcases bind_cas_eq_some he with ⟨hl, he⟩ | ⟨lk, hl, hne, he⟩ <;> cases he
      · exact .removed hl
      · exact .removeLost hl hne
  | rmChk node iMarked =>
      obtain ⟨o, mk, hl, he⟩ := bind_link_eq_some he
      cases iMarked with
      | true =>
          cases he
          exact .rmClean hl
      | false =>
          cases mk <;> cases he
          · exact .rmRetry hl
          · exact .rmBeaten hl
  | rmLen node =>
      cases he
      exact .rmLen
  | rmRetire node =>
      cases he
      exact .rmRetire
  | ret v =>
      cases he
      exact .ret

end

end ZeroKv.SkipList
