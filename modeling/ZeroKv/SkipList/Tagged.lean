/-
# ZeroKv.SkipList.Tagged — the skiplist over tagged words and memory that is used again.

In `Program` a node has a number of its own for ever and a link is a pair, so a compare-exchange compares
which node is meant.  The source has neither: a link is one machine word with the mark in the low bit of an
address, the compare-exchange compares words, and the memory of a freed node goes to the next allocation that
asks for it.  Here is the program with addresses.  Its calls go through the same program points, with
addresses in place of numbers; a block that is not in the heap can be neither read nor written.

`exec_refines` says when the two agree on one access: every node the call has a pointer to is in the heap, and
two words are equal only if they stand for the same link.  The second is the question of the address that
comes back, and is not settled here: it needs to know when nodes are freed.

The value cells keep their numbers: nothing compares the addresses of cells.
-/
import ZeroKv.Lib.Reuse
import ZeroKv.SkipList.Lifetimes

namespace ZeroKv.SkipList

/-! ## Tagged words -/

/-- `Link::pack`. -/
def pack (ptr : ℕ) (mark : Bool) : ℕ := ptr ||| mark.toNat

/-- `Link::ptr_of`. -/
def ptrOf (v : ℕ) : ℕ := v &&& wordNot 64 1

/-- `Link::mark_of`. -/
def markOf (v : ℕ) : Bool := v &&& 1 == 1

/-- `Link::get`, with `none` for the null pointer. -/
def Link.ofWord (v : ℕ) : Link where
  ref := if ptrOf v = 0 then none else some (ptrOf v)
  mark := markOf v

/-- The word that stands for a reference and a mark. -/
def Link.word (lk : Link) : ℕ := pack (lk.ref.getD 0) lk.mark

/-- What `Node::new` can get from the allocator: not null, and aligned like a `Node`. -/
structure IsAddress (a : ℕ) : Prop where
  pos : 0 < a
  lt : a < 2 ^ 64
  aligned : 8 ∣ a

section Words

variable {a : ℕ} {b : Bool}

theorem pack_of_even {k : ℕ} : pack (2 * k) b = 2 * k + b.toNat :=
  (Nat.two_pow_add_eq_or_of_lt (i := 1) (by cases b <;> decide) k).symm

theorem ptrOf_pack {k : ℕ} (hk : 2 * k < 2 ^ 64) : ptrOf (pack (2 * k) b) = 2 * k := by
  have hb : b.toNat ≤ 1 := by cases b <;> decide
  rw [pack_of_even, ptrOf, show (1 : ℕ) = 2 ^ 1 - 1 from rfl, land_wordNot (by decide) (by omega)]
  omega

theorem markOf_pack {k : ℕ} : markOf (pack (2 * k) b) = b := by
  have hmod : (2 * k + b.toNat) &&& 1 = b.toNat := by
    have hb : b.toNat ≤ 1 := by cases b <;> decide
    rw [Nat.and_one_is_mod]
    omega
  rw [markOf, pack_of_even, hmod]
  cases b <;> rfl

/-- **Tagging loses nothing**: alignment leaves the low bit of an address free. -/
theorem Link.ofWord_word {lk : Link} (h : ∀ a ∈ lk.ref, IsAddress a) : Link.ofWord lk.word = lk := by
  obtain ⟨o, mk⟩ := lk
  have hword : ∀ k, 2 * k < 2 ^ 64 →
      Link.ofWord (pack (2 * k) mk) = ⟨if 2 * k = 0 then none else some (2 * k), mk⟩ := by
    intro k hk
    rw [Link.ofWord, ptrOf_pack hk, markOf_pack]
  cases o with
  | none => exact hword 0 (by decide)
  | some a =>
      obtain ⟨hpos, hlt, hdvd⟩ := h a rfl
      obtain ⟨k, rfl⟩ : ∃ k, a = 2 * k := ⟨a / 2, by omega⟩
      exact (hword k hlt).trans (by rw [if_neg hpos.ne'])

end Words

/-! ## The heap -/

namespace Tagged

/-- `Node`, with the words of its links. -/
structure Block where
  key : BoundKey
  value : Option ℕ
  topLevel : ℕ
  tower : List ℕ

/-- What a skiplist has besides its nodes.  `allocs` and `calls` count its nodes and its calls; no step looks
at them. -/
structure Own where
  head : ℕ
  cells : List Bytes
  len : ℕ
  calls : ℕ
  allocs : ℕ

/-- The memory as one skiplist uses it.  The heap is that of the process. -/
structure Ram where
  heap : ℕ → Option Block
  own : Own

namespace Ram

/-- A load of link `l` of the node at `p`, taken apart. -/
def link (m : Ram) (p l : ℕ) : Option Link := (m.heap p).bind fun b => (b.tower[l]?).map Link.ofWord

/-- A write to the block at `p`. -/
def modify (m : Ram) (p : ℕ) (g : Block → Block) : Ram :=
  { m with heap := Function.update m.heap p ((m.heap p).map g) }

/-- `Link::store`. -/
def store (m : Ram) (p l : ℕ) (lk : Link) : Ram :=
  m.modify p fun b => { b with tower := b.tower.set l lk.word }

/-- `Link::cas` and `Link::attempt_mark`: the words are compared. -/
def cas (m : Ram) (p l : ℕ) (old new : Link) : Option (Ram × Bool) :=
  (m.heap p).bind fun b => (b.tower[l]?).map fun w =>
    if w = old.word then (m.store p l new, true) else (m, false)

/-- `Box::into_raw(Box::new(ValueRecord { bytes }))`. -/
def boxValue (m : Ram) (bytes : Bytes) : Ram := { m with own.cells := m.own.cells ++ [bytes] }

/-- `Node::new`, at the address that the allocator gives. -/
def allocNode (m : Ram) (a : ℕ) (key : Bytes) (value topLevel : ℕ) : Ram where
  heap := Function.update m.heap a (some
    { key := .fin (.new key), value := some value, topLevel := topLevel
      tower := List.replicate (topLevel + 1) Link.null.word })
  own := { m.own with allocs := m.own.allocs + 1 }

/-- `free_node`. -/
def freeNode (m : Ram) (p : ℕ) : Ram := { m with heap := Function.update m.heap p none }

/-- The key of the node at `p`. -/
def keyOf (m : Ram) (p : ℕ) : BoundKey := ((m.heap p).map Block.key).getD .posInf

end Ram

/-- Where the caller of `find` goes on, after `find` has left `curr` in `succs[0]`; the block is that of
`curr`. -/
def found (b : Block) (r : Regs) (curr : ℕ) : After → Pc
  | .insert => if b.key.keyEq r.key then .insSwap curr else .insAlloc
  | .relink node level => .insStore node level
  | .remove => if b.key.keyEq r.key then .rmDown curr b.topLevel else .ret (.flag false)
  | .clean node => .rmLen node

/-- The step of a thread that is inside a call.  `a` is where the allocator would put a node now; an address
that is in use is not given away. -/
def exec (maxLevel a : ℕ) (m : Ram) (r : Regs) : Pc → Option (Ram × Thread)
  | .findRef k level pred => do
      let lk ← m.link pred level
      let curr ← lk.ref
      some (m, .busy r (.findGet k level pred curr))
  | .findGet k level pred curr => do
      let b ← m.heap curr
      let lk ← m.link curr level
      if lk.mark then
        let succ ← lk.ref
        some (m, .busy r (.findSplice k level pred curr succ))
      else if b.key.keyLt r.key then
        let succ ← lk.ref
        some (m, .busy r (.findGet k level curr succ))
      else
        let r' := r.atLevel level pred curr
        match level with
        | 0 => some (m, .busy r' (found b r' curr k))
        | level + 1 => some (m, .busy r' (.findRef k level pred))
  | .findSplice k level pred curr succ => do
      let (m', ok) ← m.cas pred level ⟨some curr, false⟩ ⟨some succ, false⟩
      if ok then some (m', .busy r (.findGet k level pred succ))
      else some (m, .busy r (.findRef k maxLevel m.own.head))
  | .insAlloc =>
      match m.heap a with
      | some _ => none
      | none =>
          some ((m.boxValue r.val).allocNode a r.key m.own.cells.length r.topLevel,
            .busy r (.insInit a 0))
  | .insInit node level => do
      let _ ← m.link node level
      let m' := m.store node level ⟨some (r.succs level), false⟩
      if level < r.topLevel then some (m', .busy r (.insInit node (level + 1)))
      else some (m', .busy r (.insPub node))
  | .insPub node => do
      let (m', ok) ← m.cas (r.preds 0) 0 ⟨some (r.succs 0), false⟩ ⟨some node, false⟩
      if ok then some (m', .busy r (.insUp r.topLevel node 1))
      else some (m.freeNode node, .busy r (.findRef .insert maxLevel m.own.head))
  | .insStore node level => do
      let _ ← m.link node level
      some (m.store node level ⟨some (r.succs level), false⟩, .busy r (.insLink node level))
  | .insLink node level => do
      let (m', ok) ← m.cas (r.preds level) level ⟨some (r.succs level), false⟩ ⟨some node, false⟩
      if ok then some (m', .busy r (.insUp r.topLevel node (level + 1)))
      else some (m, .busy r (.findRef (.relink node level) maxLevel m.own.head))
  | .insLen => some ({ m with own.len := (m.own.len + 1) % lenMod }, .busy r (.ret (.flag true)))
  | .insSwap node => do
      let b ← m.heap node
      let m' := (m.boxValue r.val).modify node fun b => { b with value := some m.own.cells.length }
      match b.value with
      | some old => some (m', .busy r (.insRetire old))
      | none => some (m', .busy r (.ret (.flag false)))
  | .insRetire _ => some (m, .busy r (.ret (.flag false)))
  | .getRef level pred => do
      let lk ← m.link pred level
      let curr ← lk.ref
      some (m, .busy r (.getGet level pred curr))
  | .getGet level pred curr => do
      let b ← m.heap curr
      let lk ← m.link curr level
      if lk.mark then
        let succ ← lk.ref
        some (m, .busy r (.getGet level pred succ))
      else if b.key.keyLt r.key then
        let succ ← lk.ref
        some (m, .busy r (.getGet level curr succ))
      else
        match level with
        | 0 =>
            if b.key.keyEq r.key then some (m, .busy r (.getMark curr))
            else some (m, .busy r (.ret (.value none)))
        | level + 1 => some (m, .busy r (.getRef level pred))
  | .getMark curr => do
      let lk ← m.link curr 0
      if lk.mark then some (m, .busy r (.ret (.value none)))
      else some (m, .busy r (.getVal curr))
  | .getVal curr => do
      let b ← m.heap curr
      match b.value with
      | none => some (m, .busy r (.ret (.value none)))
      | some c =>
          some (m, .busy { r with borrow := some c } (.ret (.value (some (m.own.cells.getD c [])))))
  | .rmGet node level => do
      let lk ← m.link node level
      if lk.mark then some (m, .busy r (.rmDown node (level - 1)))
      else some (m, .busy r (.rmMark node level lk.ref))
  | .rmMark node level succ => do
      let (m', _) ← m.cas node level ⟨succ, false⟩ ⟨succ, true⟩
      some (m', .busy r (.rmGet node level))
  | .rmGet0 node => do
      let lk ← m.link node 0
      some (m, .busy r (.rmCas0 node lk.ref))
  | .rmCas0 node succ => do
      let (m', iMarked) ← m.cas node 0 ⟨succ, false⟩ ⟨succ, true⟩
      some (m', .busy r (.rmChk node iMarked))
  | .rmChk node iMarked => do
      let lk ← m.link node 0
      if iMarked then some (m, .busy r (.findRef (.clean node) maxLevel m.own.head))
      else if lk.mark then some (m, .busy r (.ret (.flag false)))
      else some (m, .busy r (.rmCas0 node lk.ref))
  | .rmLen node =>
      some ({ m with own.len := (m.own.len + (lenMod - 1)) % lenMod }, .busy r (.rmRetire node))
  | .rmRetire _ => some (m, .busy r (.ret (.flag true)))
  | .ret _ => some (m, .idle)

/-- The condition on the steps of `insert` above level 0. -/
def keepsLevels (m : Ram) : Thread → Bool
  | .busy _ (.insStore node level) => (m.link node level).all (!·.mark)
  | .busy r (.insLink node level) =>
      m.link (r.preds level) level ≠ some ⟨some (r.succs level), false⟩ ||
        ((m.link node level).all (!·.mark) && !(m.keyOf (r.succs level)).keyEq r.key)
  | _ => true

end Tagged

/-! ## From numbers to addresses -/

section Map

variable (f : ℕ → ℕ)

def Link.map (lk : Link) : Link := ⟨lk.ref.map f, lk.mark⟩

def After.map : After → After
  | .insert => .insert
  | .relink node level => .relink (f node) level
  | .remove => .remove
  | .clean node => .clean (f node)

def Pc.map : Pc → Pc
  | .findRef a level pred => .findRef (a.map f) level (f pred)
  | .findGet a level pred curr => .findGet (a.map f) level (f pred) (f curr)
  | .findSplice a level pred curr succ => .findSplice (a.map f) level (f pred) (f curr) (f succ)
  | .insAlloc => .insAlloc
  | .insInit node level => .insInit (f node) level
  | .insPub node => .insPub (f node)
  | .insStore node level => .insStore (f node) level
  | .insLink node level => .insLink (f node) level
  | .insLen => .insLen
  | .insSwap node => .insSwap (f node)
  | .insRetire old => .insRetire old
  | .getRef level pred => .getRef level (f pred)
  | .getGet level pred curr => .getGet level (f pred) (f curr)
  | .getMark curr => .getMark (f curr)
  | .getVal curr => .getVal (f curr)
  | .rmGet node level => .rmGet (f node) level
  | .rmMark node level succ => .rmMark (f node) level (succ.map f)
  | .rmGet0 node => .rmGet0 (f node)
  | .rmCas0 node succ => .rmCas0 (f node) (succ.map f)
  | .rmChk node iMarked => .rmChk (f node) iMarked
  | .rmLen node => .rmLen (f node)
  | .rmRetire node => .rmRetire (f node)
  | .ret v => .ret v

def Regs.map (r : Regs) : Regs := { r with preds := f ∘ r.preds, succs := f ∘ r.succs }

def Thread.map : Thread → Thread
  | .idle => .idle
  | .busy r pc => .busy (r.map f) (pc.map f)

/-- A node in memory. -/
def Node.block (nd : Node) : Tagged.Block where
  key := nd.key
  value := nd.value
  topLevel := nd.topLevel
  tower := nd.tower.map fun lk => (lk.map f).word

/-- What a skiplist has besides its nodes. -/
def Mem.own (m : Mem) : Tagged.Own where
  head := f head
  cells := m.cells
  len := m.len
  calls := m.calls
  allocs := m.nodes.length

variable {f} {r : Regs} {node level pred curr : ℕ}

@[simp] theorem Regs.key_map : (r.map f).key = r.key := rfl
@[simp] theorem Regs.val_map : (r.map f).val = r.val := rfl
@[simp] theorem Regs.topLevel_map : (r.map f).topLevel = r.topLevel := rfl

theorem Regs.map_atLevel :
    (r.atLevel level pred curr).map f = (r.map f).atLevel level (f pred) (f curr) := by
  simp only [Regs.map, Regs.atLevel, Function.comp_update]

theorem Pc.map_rmDown : (Pc.rmDown node level).map f = .rmDown (f node) level := by
  rw [Pc.rmDown, Pc.rmDown]
  split <;> rfl

theorem Pc.map_insUp {top : ℕ} : (Pc.insUp top node level).map f = .insUp top (f node) level := by
  rw [Pc.insUp, Pc.insUp]
  split <;> rfl

theorem Pc.map_found {m : Mem} {b : Tagged.Block} {k : After} (hkey : b.key = m.nodes.keyOf curr)
    (htop : b.topLevel = m.nodes.topOf curr) :
    (Pc.found m r curr k).map f = Tagged.found b (r.map f) (f curr) (k.map f) := by
  cases k with
  | insert =>
      simp only [Pc.found, Tagged.found, After.map, hkey, Regs.key_map]
      split <;> rfl
  | remove =>
      simp only [Pc.found, Tagged.found, After.map, hkey, htop, Regs.key_map]
      split
      · exact Pc.map_rmDown
      · rfl
  | relink node level | clean node => rfl

theorem Pc.nodes_map {pc : Pc} : (pc.map f).nodes = pc.nodes.map f := by
  cases pc with
  | findRef a | findGet a | findSplice a => cases a <;> rfl
  | _ => rfl

/-- The pointers of a call, in memory. -/
theorem Thread.exists_of_holds_map {th : Thread} {a : ℕ} (h : (th.map f).Holds a) :
    ∃ q, th.Holds q ∧ f q = a := by
  cases th with
  | idle => exact h.elim
  | busy r pc =>
      rcases h with ⟨l, rfl | rfl⟩ | h
      · exact ⟨_, .inl ⟨l, .inl rfl⟩, rfl⟩
      · exact ⟨_, .inl ⟨l, .inr rfl⟩, rfl⟩
      · rw [Pc.nodes_map] at h
        obtain ⟨q, hq, rfl⟩ := List.mem_map.mp h
        exact ⟨q, .inr hq, rfl⟩

end Map

/-! ## One access -/

/-- The link that a compare-exchange is about, and what it expects to find there. -/
def Pc.compares (r : Regs) : Pc → Option (ℕ × ℕ × Link)
  | .findSplice _ level pred curr _ => some (pred, level, ⟨some curr, false⟩)
  | .insPub _ => some (r.preds 0, 0, ⟨some (r.succs 0), false⟩)
  | .insLink _ level => some (r.preds level, level, ⟨some (r.succs level), false⟩)
  | .rmMark node level succ => some (node, level, ⟨succ, false⟩)
  | .rmCas0 node succ => some (node, 0, ⟨succ, false⟩)
  | _ => none

/-- If the compare-exchange finds the word it expects, it finds the link it expects. -/
def Pc.Tells (f : ℕ → ℕ) (m : Mem) (r : Regs) (pc : Pc) : Prop :=
  ∀ p l old lk, pc.compares r = some (p, l, old) → m.nodes.link p l = some lk →
    lk.map f = old.map f → lk = old

namespace Tagged

section Access

variable {f : ℕ → ℕ} {m : Mem} {x : Ram} {p l : ℕ}

/-- Node `p` is in the heap. -/
def At (f : ℕ → ℕ) (m : Mem) (x : Ram) (p : ℕ) : Prop :=
  ∃ nd, m.nodes[p]? = some nd ∧ x.heap (f p) = some (nd.block f)

theorem ofWord_map (hf : ∀ p, IsAddress (f p)) (lk : Link) : Link.ofWord (lk.map f).word = lk.map f := by
  refine Link.ofWord_word fun a ha => ?_
  obtain ⟨p, -, rfl⟩ := Option.map_eq_some_iff.mp ha
  exact hf p

/-- Equal words stand for equal addresses and marks. -/
theorem word_map_inj (hf : ∀ p, IsAddress (f p)) {lk lk' : Link} :
    (lk.map f).word = (lk'.map f).word ↔ lk.map f = lk'.map f := by
  refine ⟨fun h => ?_, fun h => by rw [h]⟩
  rw [← ofWord_map hf lk, ← ofWord_map hf lk', h]

theorem At.link (hf : ∀ p, IsAddress (f p)) (h : At f m x p) :
    x.link (f p) l = (m.nodes.link p l).map (Link.map f) := by
  obtain ⟨nd, hnd, hb⟩ := h
  have hlink : m.nodes.link p l = nd.tower[l]? := by simp [Heap.link, readField, hnd]
  rw [Ram.link, hb, Option.bind_some, Node.block, List.getElem?_map, hlink]
  cases nd.tower[l]? with
  | none => rfl
  | some lk => exact congrArg some (ofWord_map hf lk)

section Bind

variable {β : Type} {y : β}

/-- A load from a node that is in the heap. -/
theorem At.bind_link (hf : ∀ p, IsAddress (f p)) (h : At f m x p) {g : Link → Option β}
    (hst : (x.link (f p) l).bind g = some y) :
    ∃ o mk, m.nodes.link p l = some ⟨o, mk⟩ ∧ g ⟨o.map f, mk⟩ = some y := by
  rw [h.link hf] at hst
  obtain ⟨a, ha, hst⟩ := Option.bind_eq_some_iff.mp hst
  obtain ⟨⟨o, mk⟩, hl, rfl⟩ := Option.map_eq_some_iff.mp ha
  exact ⟨o, mk, hl, hst⟩

/-- The fields of a node that is in the heap. -/
theorem At.bind_heap (h : At f m x p) {g : Block → Option β} (hst : (x.heap (f p)).bind g = some y) :
    ∃ b, b.key = m.nodes.keyOf p ∧ b.value = m.nodes.valueOf p ∧ b.topLevel = m.nodes.topOf p ∧
      g b = some y := by
  obtain ⟨nd, hnd, hb⟩ := h
  rw [hb, Option.bind_some] at hst
  refine ⟨_, ?_, ?_, ?_, hst⟩ <;> simp [Node.block, Heap.keyOf, Heap.valueOf, Heap.topOf, readField, hnd]

/-- A reference that is followed is not null. -/
theorem bind_ref {o : Option ℕ} {g : ℕ → Option β} (hst : (o.map f).bind g = some y) :
    ∃ q, o = some q ∧ g (f q) = some y := by
  obtain ⟨a, ha, hst⟩ := Option.bind_eq_some_iff.mp hst
  obtain ⟨q, rfl, rfl⟩ := Option.map_eq_some_iff.mp ha
  exact ⟨q, rfl, hst⟩

/-- A compare-exchange on words does what the one on links does, if no two links that are compared look the
same. -/
theorem At.bind_cas (hf : ∀ p, IsAddress (f p)) (h : At f m x p) (old new : Link) {g : Ram × Bool → Option β}
    (hsame : ∀ lk, m.nodes.link p l = some lk → lk.map f = old.map f → lk = old)
    (hst : (x.cas (f p) l (old.map f) (new.map f)).bind g = some y) :
    (m.nodes.link p l = some old ∧ g (x.store (f p) l (new.map f), true) = some y) ∨
      ∃ lk, m.nodes.link p l = some lk ∧ lk ≠ old ∧ g (x, false) = some y := by
  obtain ⟨nd, hnd, hb⟩ := h
  have hlink : m.nodes.link p l = nd.tower[l]? := by simp [Heap.link, readField, hnd]
  rw [hlink] at hsame ⊢
  rw [Ram.cas, hb, Option.bind_some, Node.block, List.getElem?_map] at hst
  cases htow : nd.tower[l]? with
  | none =>
      rw [htow] at hst
      cases hst
  | some lk =>
      rw [htow, Option.map_some, Option.map_some, Option.bind_some] at hst
      by_cases he : lk = old
      · rw [he, if_pos rfl] at hst
        exact .inl ⟨congrArg some he, hst⟩
      · have hne : (lk.map f).word ≠ (old.map f).word := fun hw =>
          he (hsame lk htow ((word_map_inj hf).mp hw))
        rw [if_neg hne] at hst
        exact .inr ⟨lk, rfl, he, hst⟩

end Bind

theorem At.keyOf (h : At f m x p) : x.keyOf (f p) = m.nodes.keyOf p := by
  obtain ⟨nd, hnd, hb⟩ := h
  simp [Ram.keyOf, hb, Heap.keyOf, readField, hnd, Node.block]

/-- The condition on the upper levels is the same condition. -/
theorem keepsLevels_map (hf : ∀ p, IsAddress (f p)) {r : Regs} {pc : Pc}
    (hheld : ∀ q, (Thread.busy r pc).Holds q → At f m x q) (htells : pc.Tells f m r) :
    keepsLevels x ((Thread.busy r pc).map f) = SkipList.keepsLevels m (.busy r pc) .run := by
  cases pc with
  | insStore node level =>
      have hn := hheld node (.inr (List.mem_singleton.mpr rfl))
      simp only [Thread.map, Pc.map, keepsLevels, SkipList.keepsLevels, keepsMarks, linksLive, hn.link hf,
        Bool.and_true]
      cases m.nodes.link node level <;> rfl
  | insLink node level =>
      have hn := hheld node (.inr (List.mem_singleton.mpr rfl))
      have hp := hheld (r.preds level) (.inl ⟨level, .inl rfl⟩)
      have hs := hheld (r.succs level) (.inl ⟨level, .inr rfl⟩)
      have hsame : x.link (f (r.preds level)) level = some ⟨some (f (r.succs level)), false⟩ ↔
          m.nodes.link (r.preds level) level = some ⟨some (r.succs level), false⟩ := by
        rw [hp.link hf, Option.map_eq_some_iff]
        constructor
        · rintro ⟨lk, hl, he⟩
          rw [hl, htells _ _ _ lk rfl hl he]
        · exact fun hl => ⟨_, hl, rfl⟩
      have hmark : (x.link (f node) level).all (!·.mark) = (m.nodes.link node level).all (!·.mark) := by
        rw [hn.link hf]
        cases m.nodes.link node level <;> rfl
      simp only [Thread.map, Pc.map, keepsLevels, SkipList.keepsLevels, keepsMarks, linksLive, Regs.map,
        Function.comp_apply, hmark, hs.keyOf, Bool.true_and, ne_eq, hsame]
  | _ => rfl

end Access

open Classical in
/-- The block of node `p`, while the node is there. -/
noncomputable def objOf (f : ℕ → ℕ) (dead : ℕ → Prop) (m : Mem) (p : ℕ) : Option Block :=
  if dead p ∨ p ∈ m.freed then none else (m.nodes[p]?).map (Node.block f)

/-- The memory of a skiplist that uses addresses shows the one with numbers; `objs` are the nodes of the other
skiplists of the process. -/
structure Shadow {ι : Type} [DecidableEq ι] (place : ι → ℕ → ℕ) (objs : ι → ℕ → Option Block) (i : ι)
    (dead : ℕ → Prop) (m : Mem) (x : Ram) : Prop where
  own : x.own = m.own (place i)
  mirrors : Mirrors (Function.uncurry place)
    (Function.uncurry (Function.update objs i (objOf (place i) dead m))) x.heap

section Shadow

variable {ι : Type} [DecidableEq ι] {place : ι → ℕ → ℕ} {objs : ι → ℕ → Option Block} {i : ι}
  {dead : ℕ → Prop} {m m' : Mem} {x x' : Ram} {p : ℕ}

theorem objOf_eq_some {f : ℕ → ℕ} {b : Block} :
    objOf f dead m p = some b ↔ ¬ (dead p ∨ p ∈ m.freed) ∧ ∃ nd, m.nodes[p]? = some nd ∧ nd.block f = b := by
  rw [objOf]
  split
  · next h => simp [h]
  · next h => simp [h]

theorem objOf_of_dead {f : ℕ → ℕ} (hp : dead p) : objOf f dead m p = none := if_pos (.inl hp)

theorem objOf_congr_dead {f : ℕ → ℕ} {dead' : ℕ → Prop} (hp : dead' p ↔ dead p) :
    objOf f dead' m p = objOf f dead m p := by
  rw [objOf, objOf, propext hp]

theorem Shadow.at (h : Shadow place objs i dead m x) (hp : ∃ b, objOf (place i) dead m p = some b) :
    At (place i) m x p := by
  obtain ⟨b, hb⟩ := hp
  obtain ⟨-, nd, hnd, rfl⟩ := objOf_eq_some.mp hb
  refine ⟨nd, hnd, h.mirrors.here (i, p) _ ?_⟩
  rw [Function.uncurry_apply_pair, Function.update_self, hb]

theorem objOf_congr {f : ℕ → ℕ} (hnodes : m'.nodes = m.nodes) (hfreed : m'.freed = m.freed) :
    objOf f dead m' = objOf f dead m := by
  funext p
  rw [objOf, objOf, hnodes, hfreed]

/-- A step that leaves the nodes as they are. -/
theorem Shadow.quiet (h : Shadow place objs i dead m x) (hnodes : m'.nodes = m.nodes)
    (hfreed : m'.freed = m.freed) (hheap : x'.heap = x.heap) (hown : x'.own = m'.own (place i)) :
    Shadow place objs i dead m' x' := by
  refine ⟨hown, ?_⟩
  rw [objOf_congr hnodes hfreed, hheap]
  exact h.mirrors

/-- One node changes: in memory its address does. -/
theorem Shadow.update (h : Shadow place objs i dead m x) {o : Option Block}
    (hsole : ∀ k b, Function.uncurry (Function.update objs i (objOf (place i) dead m)) k = some b →
      Function.uncurry place k = place i p → k = (i, p))
    (hobj : objOf (place i) dead m' = Function.update (objOf (place i) dead m) p o)
    (hheap : x'.heap = Function.update x.heap (place i p) o) (hown : x'.own = m'.own (place i)) :
    Shadow place objs i dead m' x' := by
  refine ⟨hown, ?_⟩
  have hnew := h.mirrors.update (k := (i, p)) hsole o
  rw [← uncurry_update, Function.update_self, Function.update_idem, ← hobj] at hnew
  rw [hheap]
  exact hnew

theorem Shadow.sole (h : Shadow place objs i dead m x) (hp : ∃ b, objOf (place i) dead m p = some b) :
    ∀ k b, Function.uncurry (Function.update objs i (objOf (place i) dead m)) k = some b →
      Function.uncurry place k = place i p → k = (i, p) := by
  obtain ⟨b, hb⟩ := hp
  exact h.mirrors.sole (k := (i, p)) (b := b) (by rw [Function.uncurry_apply_pair, Function.update_self, hb])

/-- A write to a node. -/
theorem Shadow.modify (h : Shadow place objs i dead m x) (hp : ∃ b, objOf (place i) dead m p = some b)
    {g : Node → Node} {g' : Block → Block} (hg : ∀ nd, (g nd).block (place i) = g' (nd.block (place i)))
    (hnodes : m'.nodes = m.nodes.modify p g) (hfreed : m'.freed = m.freed)
    (hheap : x'.heap = (x.modify (place i p) g').heap) (hown : x'.own = m'.own (place i)) :
    Shadow place objs i dead m' x' := by
  have hat := h.at hp
  obtain ⟨b, hb⟩ := hp
  obtain ⟨hlive, nd, hnd, rfl⟩ := objOf_eq_some.mp hb
  refine h.update (h.sole ⟨_, hb⟩) (p := p) (o := some (g' (nd.block (place i)))) ?_ ?_ hown
  · funext q
    by_cases hq : q = p
    · subst hq
      rw [Function.update_self, objOf, if_neg (hfreed ▸ hlive), hnodes]
      simp [hnd, hg]
    · rw [Function.update_of_ne hq, objOf, objOf, hfreed, hnodes, List.getElem?_modify_ne _ _ (Ne.symm hq)]
  · obtain ⟨nd', hnd', hx⟩ := hat
    obtain rfl := Option.some.inj (hnd.symm.trans hnd')
    rw [hheap, Ram.modify, hx]
    rfl

/-- `Link::store` on both sides. -/
theorem Shadow.store (h : Shadow place objs i dead m x) (hp : ∃ b, objOf (place i) dead m p = some b)
    (l : ℕ) (lk : Link) :
    Shadow place objs i dead (m.store p l lk) (x.store (place i p) l (lk.map (place i))) := by
  refine h.modify hp (g := fun nd => { nd with tower := nd.tower.set l lk }) ?_ rfl rfl rfl ?_
  · intro nd
    simp [Node.block, List.map_set]
  · rw [show (x.store _ _ _).own = x.own from rfl, h.own]
    simp [Mem.own, Mem.store]

/-- A node is linked at one more level, which no thread can see. -/
theorem Shadow.linkedAt (h : Shadow place objs i dead m x) (node k : ℕ) :
    Shadow place objs i dead (m.linkedAt node k) x := by
  refine ⟨?_, ?_⟩
  · rw [h.own]
    simp [Mem.own, Mem.linkedAt]
  · have hobj : objOf (place i) dead (m.linkedAt node k) = objOf (place i) dead m := by
      funext q
      rw [objOf, objOf, show (m.linkedAt node k).freed = m.freed from rfl, Mem.linkedAt, Heap.setLinked,
        List.getElem?_modify]
      cases m.nodes[q]? with
      | none => rfl
      | some nd => by_cases hq : node = q <;> simp [hq, Node.block]
    rw [hobj]
    exact h.mirrors

theorem Shadow.allocNode (h : Shadow place objs i dead m x) {r : Regs}
    (hnew : ¬ (dead m.nodes.length ∨ m.nodes.length ∈ m.freed)) (hfree : x.heap (place i m.nodes.length) = none) :
    Shadow place objs i dead
      ((m.boxValue r.val).allocNode (.new (.fin (.new r.key)) (some m.cells.length) r.topLevel))
      ((x.boxValue r.val).allocNode (place i m.nodes.length) r.key m.cells.length r.topLevel) := by
  refine h.update (p := m.nodes.length) (h.mirrors.vacant (k := (i, _)) hfree) ?_ rfl ?_
  · funext q
    by_cases hq : q = m.nodes.length
    · subst hq
      rw [Function.update_self]
      refine (if_neg hnew).trans ?_
      simp [Mem.allocNode, Mem.boxValue, Heap.alloc, Node.block, Node.new, Link.map, Link.null]
    · rw [Function.update_of_ne hq, objOf, objOf]
      have hold : (m.nodes ++ [Node.new (.fin (.new r.key)) (some m.cells.length) r.topLevel])[q]? =
          m.nodes[q]? := by
        rcases Nat.lt_or_gt_of_ne hq with hlt | hgt
        · exact List.getElem?_append_left hlt
        · rw [List.getElem?_eq_none (by simpa using hgt), List.getElem?_eq_none hgt.le]
      simp only [Mem.allocNode, Mem.boxValue, Heap.alloc, hold]
      rfl
  · show { x.own with cells := x.own.cells ++ [r.val], allocs := x.own.allocs + 1 } = _
    rw [h.own]
    simp [Mem.own, Mem.allocNode, Mem.boxValue, Heap.alloc]

theorem Shadow.freeNode (h : Shadow place objs i dead m x) (hp : ∃ b, objOf (place i) dead m p = some b) :
    Shadow place objs i dead (m.freeNode p) (x.freeNode (place i p)) := by
  refine h.update (p := p) (h.sole hp) ?_ rfl h.own
  funext q
  by_cases hq : q = p
  · subst hq
    simp [objOf, Mem.freeNode]
  · have hmem : q ∈ (m.freeNode p).freed ↔ q ∈ m.freed := by simp [Mem.freeNode, hq]
    rw [Function.update_of_ne hq, objOf, objOf]
    by_cases hd : dead q ∨ q ∈ m.freed
    · rw [if_pos hd, if_pos (hd.imp_right hmem.mpr)]
    · rw [if_neg hd, if_neg fun hd' => hd (hd'.imp_right hmem.mp)]
      rfl

end Shadow

/-- **One access over addresses is one access over numbers**, as long as the call has no pointer to a freed
node and its compare-exchange tells links apart. -/
theorem exec_refines {ι : Type} [DecidableEq ι] {place : ι → ℕ → ℕ} {objs : ι → ℕ → Option Block} {i : ι}
    {dead : ℕ → Prop} {maxLevel : ℕ} {m : Mem} {x x' : Ram} {r : Regs} {pc : Pc} {th' : Thread}
    (hf : ∀ p, IsAddress (place i p)) (h : Shadow place objs i dead m x)
    (hheld : ∀ q, (Thread.busy r pc).Holds q → ∃ b, objOf (place i) dead m q = some b)
    (htells : pc.Tells (place i) m r) (hnew : ¬ (dead m.nodes.length ∨ m.nodes.length ∈ m.freed))
    (hst : exec maxLevel (place i x.own.allocs) x (r.map (place i)) (pc.map (place i)) = some (x', th')) :
    ∃ m' th, Move maxLevel m r pc m' th ∧ th' = th.map (place i) ∧ Shadow place objs i dead m' x' := by
  have hhead : x.own.head = place i head := by
    rw [h.own]
    rfl
  have hpc : ∀ q ∈ pc.nodes, At (place i) m x q := fun q hq => h.at (hheld q (.inr hq))
  -- a load and nothing else
  have hload : ∀ {th}, Move maxLevel m r pc m th → th' = th.map (place i) → x' = x →
      ∃ m' th, Move maxLevel m r pc m' th ∧ th' = th.map (place i) ∧ Shadow place objs i dead m' x' :=
    fun hmv hth hx => ⟨m, _, hmv, hth, hx ▸ h⟩
  cases pc with
  | findRef k level pred =>
      obtain ⟨o, mk, hl, hst⟩ := (hpc pred List.mem_cons_self).bind_link hf hst
      obtain ⟨curr, rfl, hst⟩ := bind_ref hst
      cases hst
      exact hload (.findRef hl) rfl rfl
  | findGet k level pred curr =>
      have hcurr := hpc curr (List.mem_cons_of_mem _ List.mem_cons_self)
      obtain ⟨b, hkey, -, htop, hst⟩ := hcurr.bind_heap hst
      obtain ⟨o, mk, hl, hst⟩ := hcurr.bind_link hf hst
      cases mk with
      | true =>
          obtain ⟨succ, rfl, hst⟩ := bind_ref hst
          cases hst
          exact hload (.findMarked hl) rfl rfl
      | false =>
          simp only [Bool.false_eq_true, if_false, hkey] at hst
          split at hst
          · next hk =>
            obtain ⟨succ, rfl, hst⟩ := bind_ref hst
            cases hst
            exact hload (.findNext hl (BoundKey.keyLt_iff.mp hk)) rfl rfl
          · next hk =>
            have hk := keyLt_eq_false_iff.mp (Bool.not_eq_true _ ▸ hk)
            cases level with
            | zero =>
                cases hst
                refine hload (.findDone hl hk) ?_ rfl
                rw [Thread.map, Regs.map_atLevel, Pc.map_found hkey htop, Regs.map_atLevel]
            | succ level =>
                cases hst
                refine hload (.findDown hl hk) ?_ rfl
                rw [Thread.map, Regs.map_atLevel]
                rfl
  | findSplice k level pred curr succ =>
      have hp := hheld pred (.inr List.mem_cons_self)
      rcases (h.at hp).bind_cas hf ⟨some curr, false⟩ ⟨some succ, false⟩
        (fun lk hl => htells _ _ _ lk rfl hl) hst with ⟨hl, hst⟩ | ⟨lk, hl, hne, hst⟩ <;> cases hst
      · exact ⟨_, _, .spliced hl, rfl, h.store hp level ⟨some succ, false⟩⟩
      · exact hload (.spliceLost hl hne) (by rw [hhead]; rfl) rfl
  | insAlloc =>
      rw [Pc.map, exec] at hst
      split at hst
      · cases hst
      · next hfree =>
        have hallocs : x.own.allocs = m.nodes.length := by
          rw [h.own]
          rfl
        have hcells : x.own.cells = m.cells := by
          rw [h.own]
          rfl
        rw [hallocs] at hfree
        rw [hallocs, hcells] at hst
        cases hst
        exact ⟨_, _, .insAlloc, rfl, h.allocNode hnew hfree⟩
  | insInit node level =>
      have hn := hheld node (.inr (List.mem_singleton.mpr rfl))
      obtain ⟨o, mk, hl, hst⟩ := (h.at hn).bind_link hf hst
      have hstore := h.store hn level ⟨some (r.succs level), false⟩
      simp only at hst
      split at hst <;> cases hst
      · next ht => exact ⟨_, _, .insInit hl ht, rfl, hstore⟩
      · next ht => exact ⟨_, _, .insInitLast hl (Nat.not_lt.mp ht), rfl, hstore⟩
  | insPub node =>
      have hn := hheld node (.inr (List.mem_singleton.mpr rfl))
      have hp := hheld (r.preds 0) (.inl ⟨0, .inl rfl⟩)
      rcases (h.at hp).bind_cas hf ⟨some (r.succs 0), false⟩ ⟨some node, false⟩
        (fun lk hl => htells _ _ _ lk rfl hl) hst with ⟨hl, hst⟩ | ⟨lk, hl, hne, hst⟩ <;> cases hst
      · refine ⟨_, _, .published hl, ?_, (h.store hp 0 ⟨some node, false⟩).linkedAt node 1⟩
        rw [Thread.map, Pc.map_insUp]
        rfl
      · exact ⟨_, _, .publishLost hl hne, by rw [hhead]; rfl, h.freeNode hn⟩
  | insStore node level =>
      have hn := hheld node (.inr (List.mem_singleton.mpr rfl))
      obtain ⟨o, mk, hl, hst⟩ := (h.at hn).bind_link hf hst
      cases hst
      exact ⟨_, _, .insStore hl, rfl, h.store hn level ⟨some (r.succs level), false⟩⟩
  | insLink node level =>
      have hp := hheld (r.preds level) (.inl ⟨level, .inl rfl⟩)
      rcases (h.at hp).bind_cas hf ⟨some (r.succs level), false⟩ ⟨some node, false⟩
        (fun lk hl => htells _ _ _ lk rfl hl) hst with ⟨hl, hst⟩ | ⟨lk, hl, hne, hst⟩ <;> cases hst
      · refine ⟨_, _, .linked hl, ?_, (h.store hp level ⟨some node, false⟩).linkedAt node (level + 1)⟩
        rw [Thread.map, Pc.map_insUp]
        rfl
      · exact hload (.linkLost hl hne) (by rw [hhead]; rfl) rfl
  | insLen =>
      cases hst
      refine ⟨_, _, .insLen, rfl, h.quiet m.nodes_incLen (by cases m; rfl) rfl ?_⟩
      rw [h.own]
      cases m
      rfl
  | insSwap node =>
      have hn := hheld node (.inr (List.mem_singleton.mpr rfl))
      obtain ⟨b, -, hval, -, hst⟩ := (h.at hn).bind_heap hst
      have hswap : Shadow place objs i dead ((m.boxValue r.val).swapValue node m.cells.length)
          ((x.boxValue r.val).modify (place i node) fun b => { b with value := some x.own.cells.length }) := by
        refine h.modify hn (g := fun nd => { nd with value := some m.cells.length }) ?_ rfl rfl rfl ?_
        · intro nd
          rw [h.own]
          rfl
        · show { x.own with cells := x.own.cells ++ [r.val] } = _
          rw [h.own]
          simp [Mem.own, Mem.swapValue, Mem.boxValue]
      simp only [hval] at hst
      split at hst <;> cases hst
      · next hv => exact ⟨_, _, .swapped hv, rfl, hswap⟩
      · next hv => exact ⟨_, _, .swappedNull hv, rfl, hswap⟩
  | insRetire old =>
      cases hst
      exact ⟨_, _, .insRetire, rfl, h.quiet rfl rfl rfl h.own⟩
  | getRef level pred =>
      obtain ⟨o, mk, hl, hst⟩ := (hpc pred List.mem_cons_self).bind_link hf hst
      obtain ⟨curr, rfl, hst⟩ := bind_ref hst
      cases hst
      exact hload (.getRef hl) rfl rfl
  | getGet level pred curr =>
      have hcurr := hpc curr (List.mem_cons_of_mem _ List.mem_cons_self)
      obtain ⟨b, hkey, -, -, hst⟩ := hcurr.bind_heap hst
      obtain ⟨o, mk, hl, hst⟩ := hcurr.bind_link hf hst
      cases mk with
      | true =>
          obtain ⟨succ, rfl, hst⟩ := bind_ref hst
          cases hst
          exact hload (.getMarked hl) rfl rfl
      | false =>
          simp only [Bool.false_eq_true, if_false, hkey] at hst
          split at hst
          · next hk =>
            obtain ⟨succ, rfl, hst⟩ := bind_ref hst
            cases hst
            exact hload (.getNext hl (BoundKey.keyLt_iff.mp hk)) rfl rfl
          · next hk =>
            have hk := keyLt_eq_false_iff.mp (Bool.not_eq_true _ ▸ hk)
            cases level with
            | zero =>
                by_cases heq : (m.nodes.keyOf curr).keyEq r.key = true
                · rw [Regs.key_map, if_pos heq] at hst
                  cases hst
                  exact hload (.getHit hl (BoundKey.keyEq_iff.mp heq)) rfl rfl
                · rw [Regs.key_map, if_neg heq] at hst
                  cases hst
                  exact hload (.getMiss hl
                    (lt_of_le_of_ne hk fun e => heq (BoundKey.keyEq_iff.mpr e.symm))) rfl rfl
            | succ level =>
                cases hst
                exact hload (.getDown hl hk) rfl rfl
  | getMark curr =>
      obtain ⟨o, mk, hl, hst⟩ := (hpc curr (List.mem_singleton.mpr rfl)).bind_link hf hst
      cases mk <;> cases hst
      · exact hload (.getLive hl) rfl rfl
      · exact hload (.getGone hl) rfl rfl
  | getVal curr =>
      obtain ⟨b, -, hval, -, hst⟩ := (hpc curr (List.mem_singleton.mpr rfl)).bind_heap hst
      simp only [hval] at hst
      split at hst <;> cases hst
      · next hv => exact hload (.getNull hv) rfl rfl
      · next hv => exact hload (.getVal hv) (by rw [h.own]; rfl) rfl
  | rmGet node level =>
      obtain ⟨o, mk, hl, hst⟩ := (hpc node (List.mem_singleton.mpr rfl)).bind_link hf hst
      cases mk <;> cases hst
      · exact hload (.rmGet hl) rfl rfl
      · exact hload (.rmPassed hl) (by rw [Thread.map, Pc.map_rmDown]) rfl
  | rmMark node level succ =>
      have hn := hheld node (.inr (List.mem_singleton.mpr rfl))
      rcases (h.at hn).bind_cas hf ⟨succ, false⟩ ⟨succ, true⟩
        (fun lk hl => htells _ _ _ lk rfl hl) hst with ⟨hl, hst⟩ | ⟨lk, hl, hne, hst⟩ <;> cases hst
      · exact ⟨_, _, .rmMarked hl, rfl, h.store hn level ⟨succ, true⟩⟩
      · exact hload (.rmMarkLost hl hne) rfl rfl
  | rmGet0 node =>
      obtain ⟨o, mk, hl, hst⟩ := (hpc node (List.mem_singleton.mpr rfl)).bind_link hf hst
      cases hst
      exact hload (.rmGet0 hl) rfl rfl
  | rmCas0 node succ =>
      have hn := hheld node (.inr (List.mem_singleton.mpr rfl))
      rcases (h.at hn).bind_cas hf ⟨succ, false⟩ ⟨succ, true⟩
        (fun lk hl => htells _ _ _ lk rfl hl) hst with ⟨hl, hst⟩ | ⟨lk, hl, hne, hst⟩ <;> cases hst
      · exact ⟨_, _, .removed hl, rfl, h.store hn 0 ⟨succ, true⟩⟩
      · exact hload (.removeLost hl hne) rfl rfl
  | rmChk node iMarked =>
      obtain ⟨o, mk, hl, hst⟩ := (hpc node (List.mem_singleton.mpr rfl)).bind_link hf hst
      cases iMarked with
      | true =>
          cases hst
          exact hload (.rmClean hl) (by rw [hhead]; rfl) rfl
      | false =>
          cases mk <;> cases hst
          · exact hload (.rmRetry hl) rfl rfl
          · exact hload (.rmBeaten hl) rfl rfl
  | rmLen node =>
      cases hst
      refine ⟨_, _, .rmLen, rfl, h.quiet m.nodes_decLen (by cases m; rfl) rfl ?_⟩
      rw [h.own]
      cases m
      rfl
  | rmRetire node =>
      cases hst
      exact ⟨_, _, .rmRetire, rfl, h.quiet rfl rfl rfl h.own⟩
  | ret v =>
      cases hst
      exact ⟨_, _, .ret, rfl, h.quiet rfl rfl rfl h.own⟩

end Tagged

end ZeroKv.SkipList
