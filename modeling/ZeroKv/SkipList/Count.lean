/-
# ZeroKv.SkipList.Count — the length counter and the bottom-level invariant.

An insert that publishes a node adds one to `len` later, after it has linked the upper levels, and a
remove that marks a node subtracts one later, after its cleanup.  In between the counter is off by what
the calls in progress still owe.  The account is kept modulo the word size, where the subtraction is the
inverse of the addition.

The last section puts the parts together: shape of level 0, frozen marks, one mark for each node, and the
counter when no call is in progress.
-/
import Mathlib.Algebra.BigOperators.Group.Finset.Basic
import Mathlib.Data.ZMod.Basic
import Mathlib.Tactic.LinearCombination
import Mathlib.Tactic.Ring
import ZeroKv.SkipList.Views

namespace ZeroKv.SkipList

/-! ## The nodes that count -/

/-- The node carries a key and its level-0 link is not marked. -/
def Heap.isLive (h : Heap) (p : ℕ) : Bool :=
  match h.link p 0, h.keyOf p with
  | some ⟨_, false⟩, .fin _ => true
  | _, _ => false

/-- The published nodes that carry a key and are not marked. -/
def live (h : Heap) : Finset ℕ := (Finset.range h.length).filter fun p => 0 < h.linkedOf p ∧ h.isLive p

section Live

variable {h h' : Heap} {ch : List ℕ} {p q node : ℕ} {key : Bytes}

theorem isLive_iff : h.isLive p = true ↔ h.Unmarked p ∧ ∃ k, h.keyOf p = .fin k := by
  rw [Heap.isLive]
  constructor
  · split
    · next o k hl hk => exact fun _ => ⟨⟨o, hl⟩, k, hk⟩
    · exact fun hf => absurd hf (by simp)
  · rintro ⟨⟨o, hl⟩, k, hk⟩
    simp [hl, hk]

theorem mem_live : p ∈ live h ↔ h.Published p ∧ h.Unmarked p ∧ ∃ k, h.keyOf p = .fin k := by
  simp only [live, Finset.mem_filter, Finset.mem_range, isLive_iff]
  exact ⟨fun hp => hp.2, fun hp => ⟨hp.1.lt_length, hp⟩⟩

theorem keyed_of_bound (hk : h.bound p = target key) : ∃ k, h.keyOf p = .fin k := by
  rw [Heap.bound] at hk
  cases hp : h.keyOf p with
  | negInf => exact absurd (hp ▸ hk) (bot_lt_target key).ne
  | fin k => exact ⟨k, rfl⟩
  | posInf => exact absurd (hp ▸ hk) (target_lt_top key).ne'

/-- A write that changes neither what is published nor what is marked. -/
theorem live_frame (hpub : ∀ p, h'.Published p ↔ h.Published p)
    (hum : ∀ p, h.Published p → (h'.Unmarked p ↔ h.Unmarked p))
    (hkey : ∀ p, h.Published p → h'.keyOf p = h.keyOf p) : live h' = live h := by
  ext p
  rw [mem_live, mem_live, hpub]
  refine and_congr_right fun hp => ?_
  rw [hum p hp, hkey p hp]

theorem live_setLink {l : ℕ} {lk : Link}
    (hm : h.Published p → l = 0 → h.Unmarked p ∧ lk.mark = false) :
    live (h.setLink p l lk) = live h := by
  refine live_frame (fun q => Heap.published_setLink) (fun q hq => ?_) fun q _ => by simp
  by_cases he : q = p ∧ 0 = l
  · obtain ⟨rfl, rfl⟩ := he
    obtain ⟨⟨o, hu⟩, hmark⟩ := hm hq rfl
    refine iff_of_true ⟨lk.ref, ?_⟩ ⟨o, hu⟩
    rw [Heap.link_setLink_self hu, ← hmark]
  · simp only [Heap.Unmarked, Heap.UnmarkedAt, Heap.link_setLink, if_neg he]

theorem live_setLinked {n : ℕ} (hp : h.Published p) : live (h.setLinked p (n + 1)) = live h :=
  live_frame (fun _ => Heap.published_setLinked_of_published hp)
    (fun q _ => by simp [Heap.Unmarked, Heap.UnmarkedAt]) fun q _ => by simp

theorem live_setValue {v : Option ℕ} : live (h.setValue p v) = live h :=
  live_frame (fun _ => Heap.published_setValue) (fun q _ => by simp [Heap.Unmarked, Heap.UnmarkedAt])
    fun q _ => by simp

theorem live_alloc {k : BoundKey} {v : Option ℕ} {top : ℕ} : live (h.alloc (.new k v top)) = live h :=
  live_frame (fun _ => Heap.published_alloc)
    (fun q hq => by simp only [Heap.Unmarked, Heap.UnmarkedAt, Heap.link_alloc_of_ne hq.lt_length.ne])
    fun q hq => Heap.keyOf_alloc_of_ne hq.lt_length.ne

/-- Publication adds a node. -/
theorem card_live_publish {n : ℕ} {o : Option ℕ} (hnode : h.linkedOf node = 0)
    (hnl : h.link node 0 = some ⟨o, false⟩) (hk : h.bound node = target key) :
    (live (h.setLinked node (n + 1))).card = (live h).card + 1 := by
  have hout : node ∉ live h := fun hm => (mem_live.mp hm).1.ne' hnode
  rw [← Finset.card_insert_of_notMem hout]
  congr 1
  ext q
  rw [Finset.mem_insert, mem_live, mem_live,
    Heap.published_setLinked (Heap.lt_length_of_link hnl), Heap.keyOf_setLinked]
  by_cases hq : q = node
  · subst hq
    simpa [Heap.Unmarked, Heap.UnmarkedAt, hnl] using keyed_of_bound hk
  · simp [Heap.Unmarked, Heap.UnmarkedAt, hq]

/-- A mark takes a node away. -/
theorem card_live_mark {o : Option ℕ} (hp : h.Published node) (hk : h.bound node = target key)
    (hl : h.link node 0 = some ⟨o, false⟩) :
    (live (h.setLink node 0 ⟨o, true⟩)).card + 1 = (live h).card := by
  have hin : node ∈ live h := mem_live.mpr ⟨hp, ⟨o, hl⟩, keyed_of_bound hk⟩
  rw [← Finset.card_erase_add_one hin]
  congr 2
  ext q
  rw [Finset.mem_erase, mem_live, mem_live, Heap.published_setLink, Heap.keyOf_setLink]
  by_cases hq : q = node
  · subst hq
    simp [Heap.Unmarked, Heap.UnmarkedAt, Heap.link_setLink_self hl]
  · simp [Heap.Unmarked, Heap.UnmarkedAt, Heap.link_setLink_of_ne (.inl hq), hq]

/-- All of them are on the chain. -/
theorem Bottom.live_eq (hb : Bottom h ch) : live h = (ch.filter h.isLive).toFinset := by
  ext p
  rw [mem_live, List.mem_toFinset, List.mem_filter, isLive_iff]
  constructor
  · rintro ⟨hp, hu, hk⟩
    exact ⟨hb.complete p hp hu, hu, hk⟩
  · rintro ⟨hm, hu, hk⟩
    exact ⟨hb.published p hm, hu, hk⟩

theorem Bottom.card_live (hb : Bottom h ch) : (live h).card = (ch.filter h.isLive).length := by
  rw [hb.live_eq, List.toFinset_card_of_nodup (hb.nodup.filter _)]

end Live

/-! ## What the calls in progress owe -/

/-- What the caller of a running `find` still has to add to the counter. -/
def After.debt : After → ℤ
  | .relink _ _ => 1
  | .clean _ => -1
  | .insert | .remove => 0

/-- What a thread still has to add to the counter. -/
def Thread.debt : Thread → ℤ
  | .idle => 0
  | .busy _ pc =>
    match pc with
    | .findRef a _ _ | .findGet a _ _ _ | .findSplice a _ _ _ _ => a.debt
    | .insStore _ _ | .insLink _ _ | .insLen => 1
    | .rmChk _ true | .rmLen _ => -1
    | _ => 0

/-- The caller of a running `find` is an `insert`. -/
def After.mayAdd : After → Bool
  | .insert | .relink _ _ => true
  | .remove | .clean _ => false

/-- The thread is inside an `insert` that may still add one to the counter. -/
def Thread.mayAdd : Thread → Bool
  | .idle => false
  | .busy _ pc =>
    match pc with
    | .findRef a _ _ | .findGet a _ _ _ | .findSplice a _ _ _ _ => a.mayAdd
    | .insAlloc | .insInit _ _ | .insPub _ | .insStore _ _ | .insLink _ _ | .insLen => true
    | _ => false

/-- The next step of the thread is the `fetch_sub` of `remove`. -/
def Thread.atFetchSub : Thread → Bool
  | .busy _ (.rmLen _) => true
  | _ => false

/-- What a step does to the counter, to the nodes that count and to what its thread owes. -/
inductive Tallies (m m' : Mem) (a a' : Thread) : Prop
  | frame (hlen : m'.len = m.len) (hlive : live m'.nodes = live m.nodes) (hdebt : a'.debt = a.debt)
  | published (hlen : m'.len = m.len) (hlive : (live m'.nodes).card = (live m.nodes).card + 1)
      (hdebt : a.debt = 0 ∧ a'.debt = 1)
  | marked (hlen : m'.len = m.len) (hlive : (live m'.nodes).card + 1 = (live m.nodes).card)
      (hdebt : a.debt = 0 ∧ a'.debt = -1)
  | added (hlen : m'.len = (m.len + 1) % lenMod) (hlive : live m'.nodes = live m.nodes)
      (hdebt : a.debt = 1 ∧ a'.debt = 0) (hmay : a.mayAdd = true ∧ a'.mayAdd = false)
  | subtracted (hlen : m'.len = (m.len + (lenMod - 1)) % lenMod) (hlive : live m'.nodes = live m.nodes)
      (hdebt : a.debt = -1 ∧ a'.debt = 0) (hpc : a.atFetchSub = true)

section Balance

variable {maxLevel : ℕ} {m m' : Mem} {r : Regs} {pc : Pc} {th a a' : Thread} {c : Choice}

@[simp] theorem debt_rmDown {node level : ℕ} : (Thread.busy r (.rmDown node level)).debt = 0 := by
  rw [Pc.rmDown]
  split <;> rfl

@[simp] theorem debt_insUp {node level : ℕ} :
    (Thread.busy r (.insUp r.topLevel node level)).debt = 1 := by
  rw [Pc.insUp]
  split <;> rfl

@[simp] theorem debt_found {curr : ℕ} {k : After} :
    (Thread.busy r (.found m r curr k)).debt = k.debt := by
  cases k with
  | insert =>
      simp only [Pc.found]
      split <;> rfl
  | relink node level | clean node => rfl
  | remove =>
      simp only [Pc.found]
      split
      · exact debt_rmDown
      · rfl

theorem Move.tallies (hmv : Move maxLevel m r pc m' th) (hk : (Thread.busy r pc).Knows m.nodes) :
    Tallies m m' (.busy r pc) th := by
  obtain ⟨hr, hk⟩ := hk
  cases hmv with
  | spliced hl => exact .frame rfl (live_setLink fun _ h0 => ⟨⟨_, h0 ▸ hl⟩, rfl⟩) rfl
  | findDone => exact .frame rfl rfl debt_found
  | insAlloc => exact .frame rfl live_alloc rfl
  | insInit hl | insInitLast hl =>
      exact .frame rfl (live_setLink fun hp => absurd hk.2.1.linked hp.ne') rfl
  | @published node hl =>
      have hpn : node ≠ r.preds 0 := fun he => (hr 0).1.ne' (he ▸ hk.2.1.linked)
      have hset : live (m.nodes.setLink (r.preds 0) 0 ⟨some node, false⟩) = live m.nodes :=
        live_setLink fun _ _ => ⟨⟨_, hl⟩, rfl⟩
      refine .published rfl ?_ ⟨rfl, debt_insUp⟩
      exact (card_live_publish (by simpa [Mem.store] using hk.2.1.linked)
        ((Heap.link_setLink_of_ne (.inl hpn)).trans hk.2.2)
        (by simpa [Mem.store] using hk.2.1.bound)).trans (congrArg (·.card + 1) hset)
  | insStore hl => exact .frame rfl (live_setLink fun _ h0 => absurd h0 hk.2.ne') rfl
  | linked hl =>
      refine .frame rfl ((live_setLinked ?_).trans ?_) debt_insUp
      · exact Heap.published_setLink.mpr hk.1
      · exact live_setLink fun _ h0 => absurd h0 hk.2.ne'
  | insLen => exact .added rfl (congrArg live m.nodes_incLen) ⟨rfl, rfl⟩ ⟨rfl, rfl⟩
  | swapped | swappedNull => exact .frame rfl live_setValue rfl
  | rmPassed => exact .frame rfl rfl debt_rmDown
  | rmMarked hl => exact .frame rfl (live_setLink fun _ h0 => absurd h0 hk.2.ne') rfl
  | removed hl => exact .marked rfl (card_live_mark hk.1 hk.2 hl) ⟨rfl, rfl⟩
  | rmLen => exact .subtracted rfl (congrArg live m.nodes_decLen) ⟨rfl, rfl⟩ rfl
  | _ => exact .frame rfl rfl rfl

theorem step_tallies (ha : a.Knows m.nodes) (hst : step maxLevel m a c = some (m', a')) :
    Tallies m m' a a' := by
  rcases step_cases hst with ⟨op, topLevel, -, -, rfl, rfl, rfl⟩ | ⟨r, pc, -, rfl, hmv⟩
  · cases op <;> exact .frame rfl rfl rfl
  · exact hmv.tallies ha

/-- A step changes the counter, the nodes that count and what its thread owes in step. -/
theorem Tallies.balance (h : Tallies m m' a a') :
    (m'.len : ZMod lenMod) + a'.debt + (live m.nodes).card =
      m.len + a.debt + (live m'.nodes).card := by
  cases h with
  | frame hlen hlive hdebt => rw [hlen, hlive, hdebt]
  | published hlen hlive hdebt =>
      rw [hlen, hlive, hdebt.1, hdebt.2]
      push_cast
      ring
  | marked hlen hlive hdebt =>
      rw [hlen, ← hlive, hdebt.1, hdebt.2]
      push_cast
      ring
  | added hlen hlive hdebt _ =>
      rw [hlen, hlive, hdebt.1, hdebt.2, ZMod.natCast_mod]
      push_cast
      ring
  | subtracted hlen hlive hdebt _ =>
      have hpos : 1 ≤ lenMod := Nat.one_le_two_pow
      rw [hlen, hlive, hdebt.1, hdebt.2, ZMod.natCast_mod, Nat.cast_add, Nat.cast_sub hpos,
        ZMod.natCast_self]
      push_cast
      ring

theorem step_len_lt (hm : m.len < lenMod) (hst : step maxLevel m a c = some (m', a')) :
    m'.len < lenMod := by
  rcases step_cases hst with ⟨op, topLevel, -, -, rfl, rfl, rfl⟩ | ⟨r, pc, -, rfl, hmv⟩
  · exact hm
  · cases hmv with
    | insLen | rmLen => exact Nat.mod_lt _ (Nat.two_pow_pos 64)
    | _ => exact hm

end Balance

/-! ## The account of a whole run -/

section Run

variable {maxLevel : ℕ} {τ : Type} [DecidableEq τ] {s s' : Config τ Mem Thread} {t : τ} {c : Choice}

/-- The counter and what the threads owe add up to the nodes that count.  There may be infinitely many
threads; those outside `ts` are idle. -/
structure Account (s : Config τ Mem Thread) (ts : Finset τ) : Prop where
  len_lt : s.mem.len < lenMod
  idle : ∀ t ∉ ts, s.loc t = .idle
  balance : (s.mem.len : ZMod lenMod) + ∑ t ∈ ts, ((s.loc t).debt : ZMod lenMod) = (live s.mem.nodes).card

theorem Account.enlarge {ts : Finset τ} (ha : Account s ts) (t : τ) : Account s (insert t ts) where
  len_lt := ha.len_lt
  idle u hu := ha.idle u fun hm => hu (Finset.mem_insert_of_mem hm)
  balance := by
    rw [Finset.sum_insert_of_eq_zero_if_notMem fun ht => by rw [ha.idle t ht]; exact Int.cast_zero]
    exact ha.balance

theorem Account.step {ts : Finset τ} (ha : Account s ts) (hk : (s.loc t).Knows s.mem.nodes)
    (hst : (threads maxLevel).stepOf s (t, c) = some s') : ∃ ts', Account s' ts' := by
  obtain ⟨m', a', hmv, rfl⟩ := Threads.stepOf_eq_some.mp hst
  have ha := ha.enlarge t
  refine ⟨insert t ts, step_len_lt ha.len_lt hmv, ?_, ?_⟩
  · intro u hu
    have hut : u ≠ t := fun he => hu (he ▸ Finset.mem_insert_self t ts)
    exact (Function.update_of_ne hut _ _).trans (ha.idle u hu)
  · have hmem := Finset.mem_insert_self t ts
    have hbal := ha.balance
    rw [← Finset.add_sum_erase _ _ hmem] at hbal ⊢
    have hrest : ∑ u ∈ (insert t ts).erase t, ((Function.update s.loc t a' u).debt : ZMod lenMod) =
        ∑ u ∈ (insert t ts).erase t, ((s.loc u).debt : ZMod lenMod) :=
      Finset.sum_congr rfl fun u hu => by rw [Function.update_of_ne (Finset.ne_of_mem_erase hu)]
    have hstep := (step_tallies hk hmv).balance
    simp only [Function.update_self, hrest]
    linear_combination hstep + hbal

theorem account_of_reachable (hs : ((threads maxLevel).machine τ).Reachable s) :
    ∃ ts, Account s ts := by
  refine hs.invariant (I := fun s => ∃ ts, Account s ts) ?_ ?_
  · rintro s rfl
    exact ⟨∅, Nat.two_pow_pos 64, fun _ _ => rfl, rfl⟩
  · rintro s ⟨t, c⟩ s' hr ⟨ts, ha⟩ hst
    exact ha.step (((views maxLevel).holds hr).own t) hst

/-- When no call is in progress the counter is right. -/
theorem len_at_rest (hs : ((threads maxLevel).machine τ).Reachable s) (hidle : ∀ t, s.loc t = .idle) :
    s.mem.len = (live s.mem.nodes).card % lenMod := by
  obtain ⟨ts, ha⟩ := account_of_reachable hs
  have hbal := ha.balance
  rw [Finset.sum_eq_zero fun t _ => by rw [hidle t]; rfl, add_zero] at hbal
  rw [← (ZMod.natCast_eq_natCast_iff' _ _ _).mp hbal, Nat.mod_eq_of_lt ha.len_lt]

/-! ## The bottom-level invariant -/

/-- The next step of thread `t` is a compare-exchange of `remove` that marks node `p` at level 0. -/
def Marks (s : Config τ Mem Thread) (t : τ) (p : ℕ) : Prop :=
  ∃ r o, s.loc t = .busy r (.rmCas0 p o) ∧ s.mem.nodes.link p 0 = some ⟨o, false⟩

/-- Nothing else marks a node at level 0. -/
theorem Move.gone_cases {m m' : Mem} {r : Regs} {pc : Pc} {th : Thread} {p : ℕ}
    (hmv : Move maxLevel m r pc m' th) (hk : (Thread.busy r pc).Knows m.nodes)
    (hp : m'.nodes.Gone p) :
    m.nodes.Gone p ∨ ∃ o, pc = .rmCas0 p o ∧ m.nodes.link p 0 = some ⟨o, false⟩ := by
  obtain ⟨-, hk⟩ := hk
  obtain ⟨o, hp⟩ := hp
  cases hmv with
  | spliced | insInit | insInitLast | insStore =>
      rcases Heap.link_setLink_cases hp with ⟨-, -, he⟩ | hl
      · cases he
      · exact .inl ⟨o, hl⟩
  | published | linked =>
      rcases Heap.link_setLink_cases (Heap.link_setLinked.symm.trans hp) with ⟨-, -, he⟩ | hl
      · cases he
      · exact .inl ⟨o, hl⟩
  | insAlloc =>
      rcases link_alloc_cases hp with he | hl
      · cases he
      · exact .inl ⟨o, hl⟩
  | swapped | swappedNull => exact .inl ⟨o, Heap.link_setValue.symm.trans hp⟩
  | rmMarked =>
      rcases Heap.link_setLink_cases hp with ⟨-, h0, -⟩ | hl
      · exact absurd h0 hk.2.ne
      · exact .inl ⟨o, hl⟩
  | removed hl =>
      rcases Heap.link_setLink_cases hp with ⟨rfl, -, he⟩ | hl'
      · cases he
        exact .inr ⟨_, rfl, hl⟩
      · exact .inl ⟨o, hl'⟩
  | insLen => exact .inl ⟨o, m.nodes_incLen ▸ hp⟩
  | rmLen => exact .inl ⟨o, m.nodes_decLen ▸ hp⟩
  | _ => exact .inl ⟨o, hp⟩

theorem later_of_stays (hs : ((threads maxLevel).machine τ).Reachable s)
    (hrun : ((threads maxLevel).machine τ).StaysIn (fun _ => True) s s') :
    Later s.mem.nodes s'.mem.nodes := by
  refine hrun.invariant (I := fun u => Later s.mem.nodes u.mem.nodes) hs (.refl _) ?_
  rintro u ⟨t, c⟩ v hu - - hl hst
  obtain ⟨m', a', hmv, rfl⟩ := Threads.stepOf_eq_some.mp hst
  have hi := (views maxLevel).holds hu
  exact hl.trans ((step_write hi.shared (hi.own t) hmv).1.later hi.shared)

theorem marks_of_gone (hs : ((threads maxLevel).machine τ).Reachable s)
    (hst : (threads maxLevel).stepOf s (t, c) = some s') {p : ℕ} (hp : ¬ s.mem.nodes.Gone p)
    (hp' : s'.mem.nodes.Gone p) : Marks s t p := by
  obtain ⟨m', a', hact, rfl⟩ := Threads.stepOf_eq_some.mp hst
  have hk := ((views maxLevel).holds hs).own t
  rcases step_cases hact with ⟨op, topLevel, -, -, -, rfl, -⟩ | ⟨r, pc, -, hloc, hmv⟩
  · exact absurd hp' hp
  · rcases hmv.gone_cases (hloc ▸ hk) hp' with hg | ⟨o, rfl, hl⟩
    · exact absurd hg hp
    · exact ⟨r, o, hloc, hl⟩

theorem Marks.gone {p : ℕ} (hm : Marks s t p)
    (hst : (threads maxLevel).stepOf s (t, .run) = some s') : s'.mem.nodes.Gone p := by
  obtain ⟨r, o, hloc, hl⟩ := hm
  obtain ⟨m', a', hact, rfl⟩ := Threads.stepOf_eq_some.mp hst
  rcases step_cases hact with ⟨op, topLevel, hc, -⟩ | ⟨r', pc, -, hloc', hmv⟩
  · cases hc
  · obtain ⟨rfl, rfl⟩ := Thread.busy.inj (hloc.symm.trans hloc')
    cases hmv with
    | removed => exact ⟨o, Heap.link_setLink_self hl⟩
    | removeLost hlk hne => exact absurd (Option.some.inj (hlk.symm.trans hl)) hne

/-- **The bottom-level invariant.**  In every reachable state, with any number of calls in progress:
level 0 is a chain from the head to the tail, strictly increasing in key, with every published node on it
that is not marked, and when no call is in progress the counter is the number of its nodes that carry a
key and are not marked; a marked level-0 link never changes again; and the marks come from the
compare-exchange of `remove`, at most one for each node. -/
theorem bottom_invariant (hs : ((threads maxLevel).machine τ).Reachable s) :
    (∃ ch, Bottom s.mem.nodes ch ∧
      ((∀ t, s.loc t = .idle) → s.mem.len = (ch.filter s.mem.nodes.isLive).length % lenMod)) ∧
    (∀ u, ((threads maxLevel).machine τ).StaysIn (fun _ => True) s u →
      ∀ p o, s.mem.nodes.link p 0 = some ⟨o, true⟩ → u.mem.nodes.link p 0 = some ⟨o, true⟩) ∧
    (∀ t c s' p, ((threads maxLevel).machine τ).step s (t, c) s' →
      ¬ s.mem.nodes.Gone p → s'.mem.nodes.Gone p → Marks s t p) ∧
    ∀ t s' p, ((threads maxLevel).machine τ).step s (t, .run) s' → Marks s t p →
      ∀ u v, ((threads maxLevel).machine τ).StaysIn (fun _ => True) s' u → ¬ Marks u v p := by
  have hi := (views maxLevel).holds hs
  obtain ⟨ch, hb⟩ := hi.shared.chain
  refine ⟨⟨ch, hb, fun hidle => ?_⟩, ?_, ?_, ?_⟩
  · rw [len_at_rest hs hidle, hb.card_live]
  · intro u hrun p o hl
    exact (later_of_stays hs hrun).frozen p o hl
  · intro t c s' p hst hp hp'
    exact marks_of_gone hs hst hp hp'
  · rintro t s' p hst hm u v hrun ⟨r, o, -, hl⟩
    have hgone := (later_of_stays (hs.next hst) hrun).gone (hm.gone hst)
    exact Heap.UnmarkedAt.not_marked ⟨o, hl⟩ hgone

end Run

/-- Two threads insert keys 5 and 7 with overlapping calls, and key 5 is removed again. -/
def comeAndGone : List (Bool × Choice) :=
  (false, .call (.insert [5] [1]) 1) :: List.replicate 8 (false, .run) ++
    (true, .call (.insert [7] [2]) 1) :: List.replicate 13 (true, .run) ++ List.replicate 10 (false, .run) ++
    (true, .call (.remove [5]) 0) :: List.replicate 21 (true, .run)

def comeAndGoneEnd : Config Bool Mem Thread :=
  (Machine.runFn (threads 1).stepOf { mem := .withMaxLevel, loc := fun _ => .idle } comeAndGone).getD
    { mem := .withMaxLevel, loc := fun _ => .idle }

theorem bottom_invariant_sample :
    comeAndGoneEnd.mem.nodes.length = 4 ∧
      ∃ ch, Bottom comeAndGoneEnd.mem.nodes ch ∧
        (ch.filter comeAndGoneEnd.mem.nodes.isLive).length % lenMod = 1 := by
  have hs : ((threads 1).machine Bool).Reachable comeAndGoneEnd :=
    Machine.reachable_of_runFn
      (show Machine.runFn _ _ comeAndGone = some comeAndGoneEnd from rfl)
  obtain ⟨⟨ch, hb, hlen⟩, -⟩ := bottom_invariant hs
  refine ⟨rfl, ch, hb, (hlen fun t => ?_).symm⟩
  cases t <;> rfl

end ZeroKv.SkipList
