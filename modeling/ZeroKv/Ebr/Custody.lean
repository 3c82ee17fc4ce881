/-
# ZeroKv.Ebr.Custody — where every retired record is.

A record is made by `retire`, which holds it until its compare-exchange puts it on a bag.  A collector
takes a whole bag at once; it then owns a detached chain, and a keep-list threaded through the same `next`
fields, from which it frees records and pushes the others back one by one.  Every retry of a push writes
the `next` field of the record again.

`Custody` says that these places share out the records: each is at one of them and is there once, and the
lists behind the places are what the pointers say.  So no record is lost, none is freed twice, and a bag
is a finite chain that ends in null.  A step moves one record, or one whole bag, between two places; it
writes the `next` field only of a record that the acting thread holds, which leaves the chains of all the
others alone.  There is no restriction on the threads: any number of them may retire, collect, pin and
unpin as they like.
-/
import ZeroKv.Ebr.Alone
import ZeroKv.Ebr.GracePeriod
import ZeroKv.Lib.Partition

namespace ZeroKv.Ebr

variable {G τ : Type}

/-! ## The places -/

/-- Where a record can be. -/
inductive Place (τ : Type)
  | bag (b : ℕ)
  /-- Private to the `retire` of a thread. -/
  | pushing (t : τ)
  /-- On the detached chain or the keep-list of a thread in `try_collect`. -/
  | collecting (t : τ)
  | freed
  deriving DecidableEq

/-- What a thread at `pc` holds: `p` as a retirer, `c` as a collector.  `next` are the `next` fields. -/
def Owns (next : ℕ → Option ℕ) (p c : List ℕ) : Pc G → Prop
  | .retireHead r _ => p = [r] ∧ c = []
  | .retireCas r _ head => p = [r] ∧ c = [] ∧ next r = head
  | .bagWalk _ _ node keep =>
      p = [] ∧ ∃ chain kept, c = chain ++ kept ∧ Linked next node chain ∧ Linked next keep kept
  | .keepHead _ _ n rest => p = [] ∧ ∃ kept, c = n :: kept ∧ Linked next rest kept
  | .keepCas _ _ n rest head =>
      p = [] ∧ ∃ kept, c = n :: kept ∧ Linked next rest kept ∧ next n = head
  | _ => p = [] ∧ c = []

/-- Only the `next` fields of the records it holds matter. -/
theorem Owns.congr {next next' : ℕ → Option ℕ} {p c : List ℕ} {pc : Pc G} (h : Owns next p c pc)
    (hp : ∀ r ∈ p, next' r = next r) (hc : ∀ r ∈ c, next' r = next r) : Owns next' p c pc := by
  cases pc with
  | retireCas r b head =>
      obtain ⟨rfl, rfl, hr⟩ := h
      exact ⟨rfl, rfl, (hp r List.mem_cons_self).trans hr⟩
  | bagWalk cur b node keep =>
      obtain ⟨rfl, chain, kept, rfl, hchain, hkept⟩ := h
      exact ⟨rfl, chain, kept, rfl, hchain.congr fun r hr => hc r (List.mem_append_left _ hr),
        hkept.congr fun r hr => hc r (List.mem_append_right _ hr)⟩
  | keepHead cur b n rest =>
      obtain ⟨rfl, kept, rfl, hkept⟩ := h
      exact ⟨rfl, kept, rfl, hkept.congr fun r hr => hc r (List.mem_cons_of_mem n hr)⟩
  | keepCas cur b n rest head =>
      obtain ⟨rfl, kept, rfl, hkept, hn⟩ := h
      exact ⟨rfl, kept, rfl, hkept.congr fun r hr => hc r (List.mem_cons_of_mem n hr),
        (hc n List.mem_cons_self).trans hn⟩
  | _ => exact h

theorem Owns.nextBag {next : ℕ → Option ℕ} {cur b : ℕ} :
    Owns next [] [] (nextBag cur b : Pc G) := by
  by_cases hb : b + 1 < nBags
  · rw [Ebr.nextBag, if_pos hb]
    exact ⟨rfl, rfl⟩
  · rw [Ebr.nextBag, if_neg hb]
    exact ⟨rfl, rfl⟩

/-- A collector that has no chain left goes on with its keep-list. -/
theorem Owns.repush {d : Domain G} {keep : Option ℕ} {kept : List ℕ} {cur b : ℕ}
    (h : Linked d.nextOf keep kept) : Owns d.nextOf [] kept (repush cur b d keep) := by
  cases keep with
  | none =>
      obtain rfl := linked_none.mp h
      exact Owns.nextBag
  | some n =>
      obtain ⟨kept, rfl, hrest⟩ := linked_some.mp h
      exact ⟨rfl, kept, rfl, hrest⟩

/-- The lists behind the places. -/
structure Custody (s : Config τ (Domain G) (Local G)) (lists : Place τ → List ℕ) : Prop where
  split : Partition s.mem.recs.length lists
  bag : ∀ b, Linked s.mem.nextOf (s.mem.bags b) (lists (.bag b))
  thread : ∀ t, Owns s.mem.nextOf (lists (.pushing t)) (lists (.collecting t)) (s.loc t).pc
  freed : lists .freed = s.mem.dropped

namespace Custody

variable [DecidableEq τ] {s : Config τ (Domain G) (Local G)} {lists lists' : Place τ → List ℕ} {t : τ}
  {d' : Domain G} {l' : Local G}

omit [DecidableEq τ] in
theorem owns (h : Custody s lists) {pc : Pc G} (hpc : (s.loc t).pc = pc) :
    Owns s.mem.nextOf (lists (.pushing t)) (lists (.collecting t)) pc := hpc ▸ h.thread t

/-- A step of thread `t` that writes the `next` fields of its own records only. -/
theorem change (h : Custody s lists) (hsplit : Partition d'.recs.length lists')
    (hnext : ∀ r < s.mem.recs.length, r ∉ lists (.pushing t) → r ∉ lists (.collecting t) →
      d'.nextOf r = s.mem.nextOf r)
    (hothers : ∀ u ≠ t, lists' (.pushing u) = lists (.pushing u) ∧
      lists' (.collecting u) = lists (.collecting u))
    (hbag : ∀ b, Linked d'.nextOf (d'.bags b) (lists' (.bag b)))
    (hself : Owns d'.nextOf (lists' (.pushing t)) (lists' (.collecting t)) l'.pc)
    (hfreed : lists' .freed = d'.dropped) :
    Custody ⟨d', Function.update s.loc t l'⟩ lists' := by
  refine ⟨hsplit, hbag, ?_, hfreed⟩
  intro u
  show Owns d'.nextOf _ _ (Function.update s.loc t l' u).pc
  by_cases hu : u = t
  · subst hu
    rw [Function.update_self]
    exact hself
  · rw [Function.update_of_ne hu, (hothers u hu).1, (hothers u hu).2]
    have hout : ∀ r P, r ∈ lists P → P ≠ .pushing t → P ≠ .collecting t →
        d'.nextOf r = s.mem.nextOf r := fun r P hr hp hc =>
      hnext r (h.split.lt hr) (h.split.notMem hr hp) (h.split.notMem hr hc)
    exact (h.thread u).congr (fun r hr => hout r _ hr (by simpa using hu) (by simp))
      fun r hr => hout r _ hr (by simp) (by simpa using hu)

omit [DecidableEq τ] in
/-- The bags are not disturbed by a write to a record that thread `t` holds. -/
theorem bag_of_next (h : Custody s lists)
    (hnext : ∀ r < s.mem.recs.length, r ∉ lists (.pushing t) → r ∉ lists (.collecting t) →
      d'.nextOf r = s.mem.nextOf r) (b : ℕ) :
    Linked d'.nextOf (s.mem.bags b) (lists (.bag b)) :=
  (h.bag b).congr fun r hr =>
    hnext r (h.split.lt hr) (h.split.notMem hr (by simp)) (h.split.notMem hr (by simp))

/-- A step that moves no record. -/
theorem stay (h : Custody s lists) (hlen : d'.recs.length = s.mem.recs.length)
    (hbags : d'.bags = s.mem.bags) (hdropped : d'.dropped = s.mem.dropped)
    (hnext : ∀ r < s.mem.recs.length, r ∉ lists (.pushing t) → r ∉ lists (.collecting t) →
      d'.nextOf r = s.mem.nextOf r)
    (hself : Owns d'.nextOf (lists (.pushing t)) (lists (.collecting t)) l'.pc) :
    Custody ⟨d', Function.update s.loc t l'⟩ lists := by
  refine h.change (hlen ▸ h.split) hnext (fun _ _ => ⟨rfl, rfl⟩) ?_ hself (hdropped ▸ h.freed)
  intro b
  rw [hbags]
  exact h.bag_of_next hnext b

/-- A step that leaves the records, the bags and what the thread holds alone. -/
theorem quiet (h : Custody s lists) (hrecs : d'.recs = s.mem.recs) (hbags : d'.bags = s.mem.bags)
    (hdropped : d'.dropped = s.mem.dropped)
    (hself : ∀ p c, Owns s.mem.nextOf p c (s.loc t).pc → Owns s.mem.nextOf p c l'.pc) :
    Custody ⟨d', Function.update s.loc t l'⟩ lists := by
  have hnext : d'.nextOf = s.mem.nextOf := by
    funext r
    rw [Domain.nextOf, Domain.nextOf, hrecs]
  refine h.stay (by rw [hrecs]) hbags hdropped (fun r _ _ _ => by rw [hnext]) ?_
  rw [hnext]
  exact hself _ _ (h.thread t)

/-- `retire` boxes a record. -/
theorem retireLoad (h : Custody s lists) {g : G} {bag : ℕ} (hpc : (s.loc t).pc = .retireLoad g)
    (hl' : l'.pc = .retireHead s.mem.recs.length bag) {x : Retired G} :
    Custody ⟨{ s.mem with recs := s.mem.recs ++ [x] }, Function.update s.loc t l'⟩
      (Function.update lists (.pushing t) [s.mem.recs.length]) := by
  obtain ⟨hp, hc⟩ := h.owns hpc
  have hnext : ∀ r < s.mem.recs.length,
      ({ s.mem with recs := s.mem.recs ++ [x] } : Domain G).nextOf r = s.mem.nextOf r := by
    intro r hr
    rw [Domain.nextOf, Domain.nextOf, List.getElem?_append_left hr]
  refine h.change ?_ (fun r hr _ _ => hnext r hr) ?_ ?_ ?_ ?_
  · have hlen : (s.mem.recs ++ [x]).length = s.mem.recs.length + 1 := by simp
    simp only [hlen]
    refine h.split.grow (p := .pushing t) ?_ fun o ho => Function.update_of_ne ho _ _
    rw [Function.update_self, hp]
  · intro u hu
    exact ⟨Function.update_of_ne (by simpa using hu) _ _, Function.update_of_ne (by simp) _ _⟩
  · intro b
    rw [Function.update_of_ne (by simp)]
    exact h.bag_of_next (t := t) (fun r hr _ _ => hnext r hr) b
  · rw [hl', Function.update_self, Function.update_of_ne (by simp)]
    exact ⟨rfl, hc⟩
  · rw [Function.update_of_ne (by simp)]
    exact h.freed

/-- A record that the thread holds is put on a bag. -/
theorem publish (h : Custody s lists) {b n : ℕ} {P : Place τ} {rest : List ℕ}
    (hP : P = .pushing t ∨ P = .collecting t) (hn : lists P = n :: rest)
    (hhead : s.mem.nextOf n = s.mem.bags b)
    (hself : Owns s.mem.nextOf (Function.update lists P rest (.pushing t))
      (Function.update lists P rest (.collecting t)) l'.pc) :
    Custody ⟨s.mem.setBag b (some n), Function.update s.loc t l'⟩
      (Function.update (Function.update lists P rest) (.bag b) (n :: lists (.bag b))) := by
  have hPb : ∀ b, P ≠ .bag b := by
    intro b
    rcases hP with rfl | rfl <;> simp
  have hPf : P ≠ .freed := by rcases hP with rfl | rfl <;> simp
  -- one record moves from the list `P` to the top of the bag; all other lists stay
  refine h.change ?_ (fun _ _ _ _ => rfl) ?_ ?_ ?_ ?_
  · refine h.split.exchange (hPb b) ?_ ?_
    · rw [Function.update_self, Function.update_of_ne (hPb b), Function.update_self, hn]
      exact List.perm_middle
    · intro o hoP hob
      rw [Function.update_of_ne hob, Function.update_of_ne hoP]
  · intro u hu
    have hp : Place.pushing u ≠ P := by rcases hP with rfl | rfl <;> simp [hu]
    have hc : Place.collecting u ≠ P := by rcases hP with rfl | rfl <;> simp [hu]
    simp [Function.update_of_ne hp, Function.update_of_ne hc]
  · intro b'
    by_cases hb : b' = b
    · subst hb
      rw [Function.update_self]
      refine ⟨Function.update_self _ _ _, ?_⟩
      show Linked s.mem.nextOf (s.mem.nextOf n) _
      rw [hhead]
      exact h.bag b'
    · have hne : Place.bag (τ := τ) b' ≠ .bag b := by simpa using hb
      rw [Function.update_of_ne hne, Function.update_of_ne (hPb b').symm]
      show Linked s.mem.nextOf (Function.update s.mem.bags b (some n) b') _
      rw [Function.update_of_ne hb]
      exact h.bag b'
  · have hp : Place.pushing t ≠ Place.bag b := by simp
    have hc : Place.collecting t ≠ Place.bag b := by simp
    rw [Function.update_of_ne hp, Function.update_of_ne hc]
    exact hself
  · rw [Function.update_of_ne (by simp), Function.update_of_ne hPf.symm]
    exact h.freed

/-- `reclaim_bag` detaches a bag. -/
theorem bagSwap (h : Custody s lists) {cur b : ℕ} (hpc : (s.loc t).pc = .bagSwap cur b)
    (hl' : l'.pc = .bagWalk cur b (s.mem.bags b) none) :
    Custody ⟨s.mem.setBag b none, Function.update s.loc t l'⟩
      (Function.update (Function.update lists (.bag b) []) (.collecting t) (lists (.bag b))) := by
  obtain ⟨hp, hc⟩ := h.owns hpc
  refine h.change ?_ (fun _ _ _ _ => rfl) ?_ ?_ ?_ ?_
  · refine h.split.exchange (p := .bag b) (q := .collecting t) (by simp) ?_ ?_
    · rw [Function.update_self, Function.update_of_ne (by simp), Function.update_self, hc]
      simp
    · intro o hob hot
      rw [Function.update_of_ne hot, Function.update_of_ne hob]
  · intro u hu
    simp [hu]
  · intro b'
    rw [Function.update_of_ne (by simp)]
    show Linked s.mem.nextOf (Function.update s.mem.bags b none b') _
    by_cases hb : b' = b
    · subst hb
      simp
    · have hne : Place.bag (τ := τ) b' ≠ .bag b := by simpa using hb
      rw [Function.update_of_ne hne, Function.update_of_ne hb]
      exact h.bag b'
  · rw [hl', Function.update_of_ne (by simp), Function.update_of_ne (by simp), Function.update_self]
    exact ⟨hp, _, [], (List.append_nil _).symm, h.bag b, rfl⟩
  · rw [Function.update_of_ne (by simp), Function.update_of_ne (by simp)]
    exact h.freed

/-- `reclaim_bag` frees the next record of its chain. -/
theorem walkFree (h : Custody s lists) {cur b r : ℕ} {keep : Option ℕ}
    (hpc : (s.loc t).pc = .bagWalk cur b (some r) keep)
    (hl' : l'.pc = .bagWalk cur b (s.mem.nextOf r) keep) :
    ∃ lists', Custody ⟨{ s.mem with dropped := s.mem.dropped ++ [r] },
      Function.update s.loc t l'⟩ lists' := by
  obtain ⟨hp, chain, kept, hc, hchain, hkept⟩ := h.owns hpc
  obtain ⟨chain, rfl, hrest⟩ := linked_some.mp hchain
  refine ⟨Function.update (Function.update lists (.collecting t) (chain ++ kept)) .freed
    (s.mem.dropped ++ [r]), ?_⟩
  refine h.change ?_ (fun _ _ _ _ => rfl) ?_ ?_ ?_ ?_
  · refine h.split.exchange (p := .collecting t) (q := .freed) (by simp) ?_ ?_
    · rw [Function.update_self, Function.update_of_ne (by simp), Function.update_self, hc, h.freed]
      rw [← List.append_assoc]
      exact List.perm_append_comm
    · intro o hoc hof
      rw [Function.update_of_ne hof, Function.update_of_ne hoc]
  · intro u hu
    simp [hu]
  · intro b'
    rw [Function.update_of_ne (by simp), Function.update_of_ne (by simp)]
    exact h.bag b'
  · rw [hl', Function.update_of_ne (by simp), Function.update_of_ne (by simp),
      Function.update_of_ne (by simp), Function.update_self]
    exact ⟨hp, chain, kept, rfl, hrest, hkept⟩
  · exact Function.update_self _ _ _

/-- `reclaim_bag` threads the next record of its chain onto the keep-list. -/
theorem walkKeep (h : Custody s lists) {cur b r : ℕ} {keep : Option ℕ}
    (hpc : (s.loc t).pc = .bagWalk cur b (some r) keep)
    (hl' : l'.pc = .bagWalk cur b (s.mem.nextOf r) (some r)) :
    ∃ lists', Custody ⟨s.mem.setNext r keep, Function.update s.loc t l'⟩ lists' := by
  obtain ⟨hp, chain, kept, hc, hchain, hkept⟩ := h.owns hpc
  obtain ⟨chain, rfl, hrest⟩ := linked_some.mp hchain
  have hmem : r ∈ lists (.collecting t) := by
    rw [hc]
    exact List.mem_cons_self
  have hnd := h.split.nodup (.collecting t)
  rw [hc] at hnd
  obtain ⟨hrout, -⟩ := List.nodup_cons.mp hnd
  obtain ⟨hrchain, hrkept⟩ : r ∉ chain ∧ r ∉ kept := by simpa using hrout
  have hlt := h.split.lt hmem
  have hnext : ∀ q < s.mem.recs.length, q ∉ lists (.pushing t) → q ∉ lists (.collecting t) →
      (s.mem.setNext r keep).nextOf q = s.mem.nextOf q := fun q _ _ hq =>
    s.mem.setNext_nextOf_of_ne (ne_of_mem_of_not_mem hmem hq) keep
  refine ⟨Function.update lists (.collecting t) (chain ++ r :: kept), ?_⟩
  refine h.change ?_ hnext ?_ ?_ ?_ ?_
  · rw [Domain.setNext_length]
    refine h.split.exchange (p := .collecting t) (q := .freed) (by simp) ?_
      fun o ho _ => Function.update_of_ne ho _ _
    rw [Function.update_self, Function.update_of_ne (by simp), hc]
    exact List.perm_middle.append_right _
  · intro u hu
    simp [hu]
  · intro b'
    rw [Function.update_of_ne (by simp)]
    exact h.bag_of_next hnext b'
  · rw [hl', Function.update_of_ne (by simp), Function.update_self]
    refine ⟨hp, chain, r :: kept, rfl, Linked.setNext hrest hrchain keep, rfl, ?_⟩
    rw [s.mem.setNext_nextOf_self hlt]
    exact Linked.setNext hkept hrkept keep
  · rw [Function.update_of_ne (by simp)]
    exact h.freed

/-- A thread writes the `next` field of a record that it holds. -/
theorem link (h : Custody s lists) {r : ℕ} {next : Option ℕ} (hr : r ∈ lists (.pushing t) ∨
      r ∈ lists (.collecting t))
    (hself : Owns (s.mem.setNext r next).nextOf (lists (.pushing t)) (lists (.collecting t)) l'.pc) :
    Custody ⟨s.mem.setNext r next, Function.update s.loc t l'⟩ lists := by
  refine h.stay (s.mem.setNext_length r next) rfl rfl ?_ hself
  intro q _ hqp hqc
  refine s.mem.setNext_nextOf_of_ne ?_ next
  rintro rfl
  exact hr.elim hqp hqc

/-- Every step keeps the records shared out. -/
theorem step (h : Custody s lists) {a : Action G} (hst : StepTo s.mem (s.loc t) a d' l') :
    ∃ lists', Custody ⟨d', Function.update s.loc t l'⟩ lists' := by
  -- most program points hold nothing, before the step and after it
  have hnone : d'.recs = s.mem.recs → d'.bags = s.mem.bags → d'.dropped = s.mem.dropped →
      (∀ p c, Owns s.mem.nextOf p c (s.loc t).pc → p = [] ∧ c = []) →
      (Owns s.mem.nextOf [] [] l'.pc) →
      ∃ lists', Custody ⟨d', Function.update s.loc t l'⟩ lists' := by
    intro hrecs hbags hdropped hbefore hafter
    refine ⟨lists, h.quiet hrecs hbags hdropped fun p c hpc => ?_⟩
    obtain ⟨rfl, rfl⟩ := hbefore p c hpc
    exact hafter
  cases hst with
  | unpin hpc _ _ hnew =>
      refine hnone rfl rfl rfl (by rw [hpc]; exact fun _ _ h => h) ?_
      rcases hnew with rfl | rfl <;> exact ⟨rfl, rfl⟩
  | retire hpc | collect hpc | raiseHwm hpc | pinLoad hpc | pinStore hpc | colEpoch hpc | colHwm hpc
  | colCur hpc | pinAgain hpc _ | pinFirst hpc _ | probeNone hpc _ | claim hpc _ | claimLost hpc _
  | scanStop hpc _ | advance hpc _ | advanceLost hpc _ | probeFree hpc _ _ | probeTaken hpc _ _
  | scanNext hpc _ _ | scanDone hpc _ _ =>
      exact hnone rfl rfl rfl (by rw [hpc]; exact fun _ _ h => h) ⟨rfl, rfl⟩
  | retireLoad hpc => exact ⟨_, h.retireLoad hpc rfl⟩
  | bagSwap hpc => exact ⟨_, h.bagSwap hpc rfl⟩
  | walkFree hpc _ => exact h.walkFree hpc rfl
  | walkKeep hpc _ => exact h.walkKeep hpc rfl
  | retireHead hpc =>
      obtain ⟨hp, hc⟩ := h.owns hpc
      have hr : _ ∈ lists (.pushing t) := hp ▸ List.mem_cons_self
      exact ⟨lists, h.link (.inl hr) ⟨hp, hc, s.mem.setNext_nextOf_self (h.split.lt hr) _⟩⟩
  | retireCas hpc hhead =>
      obtain ⟨hp, hc, hr⟩ := h.owns hpc
      refine ⟨_, h.publish (.inl rfl) hp (hr.trans hhead.symm) ?_⟩
      rw [Function.update_self, Function.update_of_ne (by simp)]
      exact ⟨rfl, hc⟩
  | retireLost hpc =>
      refine ⟨lists, h.quiet rfl rfl rfl fun p c hown => ?_⟩
      rw [hpc] at hown
      exact ⟨hown.1, hown.2.1⟩
  | walkEnd hpc =>
      refine ⟨lists, h.quiet rfl rfl rfl fun p c hown => ?_⟩
      rw [hpc] at hown
      obtain ⟨rfl, chain, kept, rfl, hchain, hkept⟩ := hown
      obtain rfl := linked_none.mp hchain
      exact Owns.repush hkept
  | @keepHead cur bag n rest _ hpc =>
      obtain ⟨hp, kept, hc, hkept⟩ := h.owns hpc
      have hn : n ∈ lists (.collecting t) := hc ▸ List.mem_cons_self
      have hnd := h.split.nodup (.collecting t)
      rw [hc] at hnd
      have hout := (List.nodup_cons.mp hnd).1
      exact ⟨lists, h.link (.inr hn) ⟨hp, kept, hc, Linked.setNext hkept hout _,
        s.mem.setNext_nextOf_self (h.split.lt hn) _⟩⟩
  | @keepCas cur bag n rest head _ hpc hhead =>
      obtain ⟨hp, kept, hc, hkept, hn⟩ := h.owns hpc
      refine ⟨_, h.publish (.inr rfl) hc (hn.trans hhead.symm) ?_⟩
      rw [Function.update_self, Function.update_of_ne (by simp), hp]
      exact Owns.repush hkept
  | keepLost hpc =>
      refine ⟨lists, h.quiet rfl rfl rfl fun p c hown => ?_⟩
      rw [hpc] at hown
      obtain ⟨hp, kept, hc, hkept, -⟩ := hown
      exact ⟨hp, kept, hc, hkept⟩

end Custody

/-- In every reachable state the records are shared out. -/
theorem custody [DecidableEq τ] {s : Config τ (Domain G) (Local G)}
    (hs : ((threads G).machine τ).Reachable s) : ∃ lists, Custody s lists := by
  refine hs.invariant (I := fun s => ∃ lists, Custody s lists) ?_ ?_
  · rintro s rfl
    refine ⟨fun _ => [], ⟨fun _ => List.nodup_nil, ?_, nofun⟩, fun _ => rfl, fun _ => ⟨rfl, rfl⟩, rfl⟩
    intro r
    simp [threads, Domain.new]
  · rintro s ⟨t, a⟩ s' _ ⟨lists, h⟩ hst
    obtain ⟨d', l', hact, rfl⟩ := Threads.stepOf_eq_some.mp hst
    exact h.step (stepTo_of_step hact)

/-! ## What is in a record -/

section Records

variable {d d' : Domain G} {l l' : Local G} {a : Action G} {g : G} {r : ℕ}

/-- A record is filled when it is boxed, and keeps what it holds. -/
theorem StepTo.garbageOf_cases (h : StepTo d l a d' l') (r : ℕ) :
    d'.garbageOf r = d.garbageOf r ∨
      ∃ g b, l.pc = .retireLoad g ∧ a = .run b ∧ r = d.recs.length ∧ d'.garbageOf r = some g := by
  cases h with
  | @retireLoad g b hpc =>
      rcases Nat.lt_trichotomy r d.recs.length with hr | hr | hr
      · exact .inl (by simp [Domain.garbageOf, List.getElem?_append_left hr])
      · exact .inr ⟨g, b, hpc, rfl, hr, by simp [Domain.garbageOf, hr]⟩
      · refine .inl ?_
        rw [Domain.garbageOf, Domain.garbageOf, List.getElem?_eq_none (by simp; omega),
          List.getElem?_eq_none hr.le]
  | retireHead | walkKeep | keepHead => exact .inl ((Kept.setNext d _ _).garbage r)
  | _ => exact .inl rfl

theorem StepTo.garbageOf_of_lt (h : StepTo d l a d' l') (hr : r < d.recs.length) :
    d'.garbageOf r = d.garbageOf r := by
  rcases h.garbageOf_cases r with he | ⟨-, -, -, -, rfl, -⟩
  · exact he
  · exact absurd hr (lt_irrefl _)

/-- A step drops at most one record, and then changes none. -/
theorem StepTo.dropped_cases (h : StepTo d l a d' l') :
    d'.dropped = d.dropped ∨ ∃ r, d'.dropped = d.dropped ++ [r] ∧ d'.recs = d.recs := by
  cases h with
  | walkFree => exact .inr ⟨_, rfl, rfl⟩
  | _ => exact .inl rfl

theorem repush_ne_retireLoad {cur b : ℕ} {keep : Option ℕ} :
    repush cur b d keep ≠ .retireLoad g := by
  cases keep with
  | none =>
      rw [repush, nextBag]
      split <;> simp
  | some n => simp [repush]

/-- A thread is about to box a record only when it has just called `retire`. -/
theorem StepTo.retire_of_pc (h : StepTo d l a d' l') (hpc : l'.pc = .retireLoad g) :
    a = .retire g := by
  cases h with
  | retire =>
      cases hpc
      rfl
  | unpin _ _ _ hcol => rcases hcol with rfl | rfl <;> cases hpc
  | walkEnd | keepCas => exact absurd hpc repush_ne_retireLoad
  | _ => cases hpc

/-- Only `Guard::drop` takes a guard away. -/
theorem StepTo.guards_le (h : StepTo d l a d' l') (ha : a ≠ .unpin) : l.guards ≤ l'.guards := by
  cases h with
  | unpin => exact absurd rfl ha
  | pinStore => exact Nat.le_succ _
  | _ => exact le_rfl

end Records

/-! ## The three bags and the tags -/

/-- The bag a thread is working on. -/
def Pc.bag : Pc G → Option ℕ
  | .retireHead _ b | .retireCas _ b _ | .bagSwap _ b | .bagWalk _ b _ _ | .keepHead _ b _ _
  | .keepCas _ b _ _ _ => some b
  | _ => none

/-- There are three bags, and no record is tagged with an epoch that has not begun. -/
structure InRange (d : Domain G) : Prop where
  bags : ∀ b, nBags ≤ b → d.bags b = none
  tags : ∀ r < d.recs.length, d.tagOf r ≤ d.epoch

/-- Nothing is on a bag beyond the third. -/
theorem Custody.far {s : Config τ (Domain G) (Local G)} {lists : Place τ → List ℕ}
    (h : Custody s lists) (hrange : InRange s.mem) {b : ℕ} (hb : nBags ≤ b) : lists (.bag b) = [] := by
  have hbag := h.bag b
  rw [hrange.bags b hb] at hbag
  exact linked_none.mp hbag

theorem InRange.setBag {d : Domain G} (h : InRange d) {b : ℕ} (hb : b < nBags) (n : Option ℕ) :
    InRange (d.setBag b n) := by
  refine ⟨fun b' hb' => ?_, h.tags⟩
  show Function.update d.bags b n b' = none
  rw [Function.update_of_ne (by omega)]
  exact h.bags b' hb'

theorem InRange.setNext {d : Domain G} (h : InRange d) (r : ℕ) (n : Option ℕ) :
    InRange (d.setNext r n) := by
  refine ⟨h.bags, fun q hq => ?_⟩
  rw [Domain.setNext_tagOf]
  exact h.tags q (by simpa using hq)

theorem step_inRange {d d' : Domain G} {l l' : Local G} {a : Action G} (h : InRange d)
    (hb : ∀ b, l.pc.bag = some b → b < nBags) (hst : StepTo d l a d' l') : InRange d' := by
  cases hst with
  | retireHead _ | walkKeep _ _ | keepHead _ => exact h.setNext _ _
  | retireCas hpc _ | keepCas hpc _ | bagSwap hpc => exact h.setBag (hb _ (by rw [hpc]; rfl)) _
  | advance _ heq => exact ⟨h.bags, fun r hr => (h.tags r hr).trans (heq ▸ Nat.le_succ _)⟩
  | @retireLoad g _ _ =>
      refine ⟨h.bags, fun r hr => ?_⟩
      have hlen : (d.recs ++ [({ garbage := g, epoch := d.epoch, next := none } : Retired G)]).length
          = d.recs.length + 1 := by simp
      rcases Nat.lt_succ_iff_lt_or_eq.mp (hlen ▸ hr) with hr | rfl
      · rw [Domain.tagOf, List.getElem?_append_left hr]
        exact h.tags r hr
      · simp [Domain.tagOf]
  | _ => exact ⟨h.bags, h.tags⟩

theorem bag_nextBag {cur b i : ℕ} (h : (nextBag cur b : Pc G).bag = some i) : i < nBags := by
  unfold nextBag at h
  split at h
  · obtain rfl := Option.some.inj h
    assumption
  · cases h

theorem bag_repush {cur b i : ℕ} {d : Domain G} {keep : Option ℕ} (hb : b < nBags)
    (h : (repush cur b d keep).bag = some i) : i < nBags := by
  cases keep with
  | none => exact bag_nextBag h
  | some n =>
      obtain rfl := Option.some.inj h
      exact hb

theorem step_bag {d d' : Domain G} {l l' : Local G} {a : Action G}
    (hb : ∀ b, l.pc.bag = some b → b < nBags) (hst : StepTo d l a d' l') {i : ℕ}
    (hi : l'.pc.bag = some i) : i < nBags := by
  cases hst with
  | retireLoad _ =>
      obtain rfl := Option.some.inj hi
      exact Nat.mod_lt _ (by decide)
  | colCur _ =>
      obtain rfl := Option.some.inj hi
      decide
  | retireHead hpc | retireLost hpc | bagSwap hpc | keepHead hpc | keepLost hpc | walkFree hpc _
  | walkKeep hpc _ =>
      exact hb i (by rw [hpc]; exact hi)
  | walkEnd hpc => exact bag_repush (hb _ (by rw [hpc]; rfl)) hi
  | keepCas hpc _ => exact bag_repush (hb _ (by rw [hpc]; rfl)) hi
  | unpin _ _ _ hnew => rcases hnew with rfl | rfl <;> cases hi
  | _ => cases hi

def ranges (G : Type) : (threads G).Invariant where
  shared := InRange
  own _ l := ∀ b, l.pc.bag = some b → b < nBags
  apart _ _ := True
  init_shared := ⟨fun _ _ => rfl, nofun⟩
  init_own := nofun
  init_apart := trivial
  keep hd hb hst := ⟨step_inRange hd hb (stepTo_of_step hst), fun _ hi =>
    step_bag hb (stepTo_of_step hst) hi⟩
  bystander _ _ hb _ _ _ := ⟨hb, trivial, trivial⟩

/-- When no thread is in a call of the domain, a record that is not freed is in one of the bags. -/
theorem waiting_of_idle [DecidableEq τ] {s : Config τ (Domain G) (Local G)}
    (hs : ((threads G).machine τ).Reachable s) (hidle : ∀ t, (s.loc t).pc = .idle) :
    ∃ waiting : List ℕ, (s.mem.dropped ++ waiting).Perm (List.range s.mem.recs.length) ∧
      ∀ r ∈ waiting, ∃ b < nBags, ∃ l, Linked s.mem.nextOf (s.mem.bags b) l ∧ r ∈ l := by
  obtain ⟨lists, h⟩ := custody hs
  have hrange : InRange s.mem := ((ranges G).holds hs).shared
  have hdrop : ∀ r ∈ s.mem.dropped, r < s.mem.recs.length := fun r hr =>
    (h.split.cover r).mpr ⟨.freed, h.freed ▸ hr⟩
  refine ⟨(List.range s.mem.recs.length).filter (· ∉ s.mem.dropped), ?_, fun r hr => ?_⟩
  · refine (List.perm_ext_iff_of_nodup ?_ List.nodup_range).mpr fun r => ?_
    · refine List.nodup_append.mpr ⟨h.freed ▸ h.split.nodup .freed, List.nodup_range.filter _, ?_⟩
      rintro r hr r' hr' rfl
      exact of_decide_eq_true (List.mem_filter.mp hr').2 hr
    · simp only [List.mem_append, List.mem_filter, List.mem_range, decide_eq_true_eq]
      have := hdrop r
      tauto
  · obtain ⟨hr, hnot⟩ := List.mem_filter.mp hr
    obtain ⟨P, hP⟩ := (h.split.cover r).mp (List.mem_range.mp hr)
    cases P with
    | bag b =>
        refine ⟨b, ?_, _, h.bag b, hP⟩
        by_contra hb
        rw [h.far hrange (Nat.le_of_not_lt hb)] at hP
        cases hP
    | pushing t =>
        rw [(h.owns (hidle t)).1] at hP
        cases hP
    | collecting t =>
        rw [(h.owns (hidle t)).2] at hP
        cases hP
    | freed => exact absurd (h.freed ▸ hP) (of_decide_eq_true hnot)

/-- No retired record is lost or freed twice.  At every moment each record is at exactly one place, once:
held by one `retire`, on one of the three bags, held by one collector, or in the log of the drop
functions that have run; and the bags are finite chains without a repetition that end in null. -/
theorem retired_at_one_place [DecidableEq τ] {s : Config τ (Domain G) (Local G)}
    (hs : ((threads G).machine τ).Reachable s) :
    ∃ lists : Place τ → List ℕ,
      (∀ r < s.mem.recs.length, ∃! P, r ∈ lists P) ∧
      (∀ P, (lists P).Nodup ∧ ∀ r ∈ lists P, r < s.mem.recs.length) ∧
      (∀ b, Linked s.mem.nextOf (s.mem.bags b) (lists (.bag b))) ∧
      (∀ b, nBags ≤ b → lists (.bag b) = []) ∧
      (∀ t, Owns s.mem.nextOf (lists (.pushing t)) (lists (.collecting t)) (s.loc t).pc) ∧
      lists .freed = s.mem.dropped := by
  obtain ⟨lists, h⟩ := custody hs
  have hrange : InRange s.mem := ((ranges G).holds hs).shared
  exact ⟨lists, fun r hr => h.split.existsUnique hr, fun P => ⟨h.split.nodup P, fun r hr =>
    h.split.lt hr⟩, h.bag, fun b hb => h.far hrange hb, h.thread, h.freed⟩

/-- A collector detaches the bag while another thread is about to push onto it. -/
def detaching : List (Bool × Action ℕ) :=
  [(false, .retire 7), (false, .run true), (false, .run true), (false, .run true),
    (true, .retire 8), (true, .run true), (true, .run true),
    (false, .collect), (false, .run true), (false, .run true), (false, .run true), (false, .run true),
    (false, .run true), (false, .run true), (true, .run true)]

theorem retired_at_one_place_detaching :
    ∃ s, Machine.runFn (threads ℕ).stepOf ⟨.new ℕ, fun _ => .new ℕ⟩ detaching = some s ∧
      s.mem.recs.length = 2 ∧ s.mem.bags 0 = none ∧
      ∃ lists : Place Bool → List ℕ, (∀ r < s.mem.recs.length, ∃! P, r ∈ lists P) ∧
        lists .freed = s.mem.dropped := by
  obtain ⟨s, hs⟩ : ∃ s, Machine.runFn (threads ℕ).stepOf ⟨.new ℕ, fun _ => .new ℕ⟩ detaching
      = some s := ⟨_, rfl⟩
  have hr : ((threads ℕ).machine Bool).Reachable s := Machine.reachable_of_runFn hs
  obtain ⟨lists, hone, -, -, -, -, hfreed⟩ := retired_at_one_place hr
  refine ⟨s, hs, ?_, ?_, lists, hone, hfreed⟩
  · cases hs
    rfl
  · cases hs
    rfl

end ZeroKv.Ebr
