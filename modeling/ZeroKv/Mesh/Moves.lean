/-
# ZeroKv.Mesh.Moves — what each step of the service does to the whereabouts of a request.

One lemma per step that moves a request, takes it up or lets it go.  Each says which request it is,
where it was, and that `Owned` holds again with the request at its new location.  The only steps that
use the bound on the token counter are those that make a token.
-/
import ZeroKv.Mesh.Ownership

namespace ZeroKv.Mesh.Service

section

variable {τ : Type} {n : ℕ} [NeZero n] {k : Snap τ n} {loc : ℕ → Loc n}
  {stack chain : Fin n → List ℕ} {i : Fin n}

/-- Before the first call nothing is anywhere. -/
theorem owned_new :
    Owned (State.new τ n).snap (fun _ => .unborn) (fun _ => []) (fun _ => []) where
  held r := by
    refine ⟨∅, fun id => by simp [Loc.place], ?_⟩
    cases r <;> rfl
  ok id := by
    refine .idle (by simp [State.new, State.snap]) rfl ?_
    simp [State.new, State.snap, Heap.doneOf, readField]
  stacked _ := rfl
  chained _ := rfl
  waiting a t id := by simp [State.new, State.snap, Loc.forwarded]
  tokens _ := List.nodup_nil
  client _ := trivial
  apart _ _ _ ht := nomatch ht
  pushing _ hid := nomatch hid

/-! ## Workers -/

variable {s : State τ n}

/-- `pump_matrix` pops a `Get`. -/
theorem Owned.pumpGet {c : PumpCaller n} {p : Bool} {key : Bytes} {dst a : Fin n} {t : ℕ}
    {q : List (Command n)} (h : Owned s.snap loc stack chain)
    (hpc : (s.workers i).pc = .pump c p a) (hq : s.cmd (a, i) = .get key dst t :: q) :
    ∃ id, loc id = .cmd a i t ∧
      Owned ((s.setCmd (a, i) q).goto i (.answer c a key dst t)).snap
        (Function.update loc id (.ans i a t)) stack chain := by
  have hmem : Item.cmd (.get key dst t) none ∈ s.snap.at stack chain (.cmd a i) := by
    simp [Snap.at, Snap.listAt, State.snap, hq]
  obtain ⟨id, hplace, hitem⟩ := h.held.exists_of_mem hmem
  obtain ⟨t', hloc⟩ := Loc.eq_of_place_cmd hplace
  have hok := h.ok id
  rw [hloc] at hitem hok
  obtain ⟨rfl, rfl, rfl⟩ : (s.snap.reqs.opOf id).key = key ∧ a = dst ∧ t' = t := by
    simpa [Loc.item] using hitem
  have hview : s.snap.view i = c.view := congrArg Pc.view hpc
  refine ⟨id, hloc, h.pass (by simp [hloc, Loc.place]) (by simp [Loc.place]) rfl (by rw [hpc]; rfl)
    (by rw [hloc]; rfl) (hok.along rfl ?_ (Option.some_ne_none _) (Option.some_ne_none _)) fun r => ?_⟩
  · rintro b ⟨⟩
    exact hok.owned i rfl
  · have hpop := at_popCmd (k := s.snap) stack chain r hq
    rw [hloc, Loc.mark_of_place rfl, Loc.mark_of_place rfl, ← hpop, add_right_comm]
    exact congrArg (· + _) (at_gain hview (own_ans r c.view_eq.2.1 _))

/-- `pump_matrix` looks a key up. -/
theorem Owned.answer {c : PumpCaller n} {src : ℕ} {key : Bytes} {dst : Fin n} {t : ℕ}
    (v : Option Bytes) (h : Owned s.snap loc stack chain)
    (hpc : (s.workers i).pc = .answer c src key dst t) :
    ∃ id, loc id = .ans i dst t ∧ s.reqs.opOf id = .get key ∧ owner n key = i ∧
      Owned (s.goto i (.reply c src dst { token := t, val := v })).snap
        (Function.update loc id (.hand i dst t v)) stack chain := by
  have hview : s.snap.view i = { c.view with ans := some (key, dst, t) } := congrArg Pc.view hpc
  have hmem : Item.ask key dst t ∈ s.snap.at stack chain (.ans i) := by
    simp [Snap.at, Snap.listAt, hview]
  obtain ⟨id, hplace, hitem⟩ := h.held.exists_of_mem hmem
  obtain ⟨a, t', hloc⟩ := Loc.eq_of_place_ans hplace
  have hok := h.ok id
  rw [hloc] at hitem hok
  obtain ⟨rfl, rfl, rfl⟩ : (s.snap.reqs.opOf id).key = key ∧ a = dst ∧ t' = t := by
    simpa [Loc.item] using hitem
  obtain ⟨key, hop⟩ := hok.get _ rfl
  have hkey : (s.snap.reqs.opOf id).key = key := by rw [hop]; rfl
  refine ⟨id, hloc, hkey ▸ hop, hok.owned i rfl, h.pass (by simp [hloc, Loc.place])
    (by simp [Loc.place]) rfl (by rw [hpc]; rfl) (by rw [hloc]; rfl)
    (hok.along rfl (by simp [Loc.serving]) (Option.some_ne_none _) (Option.some_ne_none _)) fun r => ?_⟩
  rw [hloc, Loc.mark_of_place rfl, Loc.mark_of_place rfl]
  refine at_exchange (w := c.view.own i r) ?_ (own_hand r c.view_eq.2.2.1 _)
  rw [hview]
  exact own_ans r c.view_eq.2.1 _

/-- `pump_matrix` pushes the reply. -/
theorem Owned.replyOk {c : PumpCaller n} {src : ℕ} {dst : Fin n} {x : Reply}
    (h : Owned s.snap loc stack chain) (hpc : (s.workers i).pc = .reply c src dst x) :
    ∃ id, loc id = .hand i dst x.token x.val ∧
      Owned ((s.setReply (i, dst) (s.reply (i, dst) ++ [x])).goto i (.pump c true src)).snap
        (Function.update loc id (.sent i dst x.token x.val)) stack chain := by
  have hview : s.snap.view i = { c.view with hand := some (dst, x) } := congrArg Pc.view hpc
  have hmem : Item.rep dst x ∈ s.snap.at stack chain (.hand i) := by
    simp [Snap.at, Snap.listAt, hview]
  obtain ⟨id, hplace, hitem⟩ := h.held.exists_of_mem hmem
  obtain ⟨a, t, v, hloc⟩ := Loc.eq_of_place_hand hplace
  have hok := h.ok id
  rw [hloc] at hitem hok
  obtain ⟨rfl, rfl⟩ : a = dst ∧ { token := t, val := v } = x := by
    simpa [Loc.item] using hitem
  refine ⟨id, hloc, h.pass (by simp [hloc, Loc.place]) (by simp [Loc.place]) rfl (by rw [hpc]; rfl)
    (by rw [hloc]; rfl) (hok.along rfl (by simp [Loc.serving]) (Option.some_ne_none _) (Option.some_ne_none _))
    fun r => ?_⟩
  have hpush := at_pushReply (k := s.snap) stack chain r i a
    { token := t, val := v }
  rw [hloc, Loc.mark_of_place rfl, Loc.mark_of_place rfl]
  refine Eq.trans ?_ hpush
  exact at_lose (k := s.snap.setReply _ _) hview (own_hand r c.view_eq.2.2.1 _)

/-- `drain_ingress` pushes a `Get`. -/
theorem Owned.forwardGet {cmd : Command n} {rest : List ℕ} (h : Owned s.snap loc stack chain)
    (hpc : (s.workers i).pc = .forward cmd none rest) :
    ∃ id t, loc id = .out i t ∧ cmd = .get (s.reqs.opOf id).key i t ∧
      Owned ((s.setCmd (i, owner n cmd.key) (s.cmd (i, owner n cmd.key) ++ [cmd])).goto i
        (.serve rest)).snap (Function.update loc id (.cmd i (owner n cmd.key) t)) stack chain := by
  have hview : s.snap.view i = { batch := rest, out := some (cmd, none) } := congrArg Pc.view hpc
  have hmem : Item.cmd cmd none ∈ s.snap.at stack chain (.out i) := by
    simp [Snap.at, Snap.listAt, hview]
  obtain ⟨id, hplace, hitem⟩ := h.held.exists_of_mem hmem
  obtain ⟨t, hloc⟩ := Loc.eq_of_place_out hplace
  have hok := h.ok id
  rw [hloc] at hitem hok
  obtain rfl : .get (s.snap.reqs.opOf id).key i t = cmd := by
    simpa [Loc.item] using hitem
  refine ⟨id, t, hloc, rfl, h.pass (by simp [hloc, Loc.place]) (by simp [Loc.place]) rfl
    (by rw [hpc]; rfl) (by rw [hloc]; rfl) (hok.along rfl ?_ (Option.some_ne_none _) (Option.some_ne_none _)) fun r => ?_⟩
  · rintro b ⟨⟩
    rfl
  · have hpush := at_pushCmd (k := s.snap) stack chain r i
      (owner n (s.snap.reqs.opOf id).key) (.get (s.snap.reqs.opOf id).key i t)
    rw [hloc, Loc.mark_of_place rfl, Loc.mark_of_place rfl]
    refine Eq.trans ?_ hpush
    exact at_lose (k := s.snap.setCmd _ _) hview (own_out (v := { batch := rest }) r rfl _)

/-- A request that a worker has is known to the client and not yet done. -/
theorem LocOk.of_place {id : ℕ} {l : Loc n} (h : LocOk k id l) (hl : l.place ≠ none) :
    id < k.reqs.length ∧ k.reqs.doneOf id = false := by
  constructor
  · refine Nat.lt_of_not_le fun hle => ?_
    obtain rfl := h.born.mpr hle
    exact hl rfl
  · refine Bool.eq_false_iff.mpr fun hd => ?_
    obtain ⟨v, rfl⟩ := h.done.mp hd
    exact hl rfl

theorem LocOk.ready {id : ℕ} {l : Loc n} (h : LocOk k id l) (hl : l.place ≠ none) (a : Fin n)
    (v : Option Bytes) : LocOk k id (.ready a v) where
  born := by simpa using (h.of_place hl).1
  routed := nofun
  get := nofun
  token := nofun
  owned := nofun
  value := nofun
  done := by simpa using (h.of_place hl).2

/-- What is on the ingress, on the detached chain or in the batch is queued. -/
theorem Owned.queued_of_mem {id : ℕ} {a : Fin n} (h : Owned k loc stack chain)
    (hid : id ∈ stack a ++ (chain a ++ (k.view a).batch)) : loc id = .queued a := by
  have hmem : Item.id id ∈ k.at stack chain (.queued a) := List.mem_map_of_mem hid
  obtain ⟨id', hplace, hitem⟩ := h.held.exists_of_mem hmem
  have hloc := Loc.eq_of_place_queued hplace
  obtain rfl : id' = id := by simpa [hloc, Loc.item] using hitem
  exact hloc

/-- The request at the head of the batch. -/
theorem Owned.head {id : ℕ} {rest : List ℕ} (h : Owned s.snap loc stack chain)
    (hpc : (s.workers i).pc = .serve (id :: rest)) : loc id = .queued i := by
  have hview : s.snap.view i = { batch := id :: rest } := congrArg Pc.view hpc
  refine h.queued_of_mem ?_
  simp [hview]

/-- `drain_ingress` serves a request from the shard. -/
theorem Owned.serve {id : ℕ} {rest : List ℕ} (v : Option Bytes) (h : Owned s.snap loc stack chain)
    (hpc : (s.workers i).pc = .serve (id :: rest)) :
    Owned (s.goto i (.fulfillValue (.serve rest) id v)).snap (Function.update loc id (.ready i v))
      stack chain := by
  have hview : s.snap.view i = { batch := id :: rest } := congrArg Pc.view hpc
  have hloc := h.head hpc
  have hplace : (loc id).place ≠ none := by simp [hloc, Loc.place]
  refine h.pass hplace (by simp [Loc.place]) rfl (by rw [hpc]; rfl) (by rw [hloc]; rfl)
    ((h.ok id).ready hplace i v) fun r => ?_
  rw [hloc, Loc.mark_of_place rfl, Loc.mark_of_place rfl]
  refine at_exchange (w := View.own { batch := rest } i r) ?_
    (own_ready (v := { batch := rest }) r rfl _)
  rw [hview]
  exact own_batch (v := { batch := rest }) r id

omit [NeZero n] in
theorem tokenOf_inj {c c' : ℕ} (hc : c < 2 ^ 48) (hc' : c' < 2 ^ 48)
    (h : tokenOf i c = tokenOf i c') : c = c' := by
  have hmod : ∀ c < 2 ^ 48, tokenOf i c % 2 ^ 48 = c := by
    intro c hc
    have h64 : (i : ℕ) * 2 ^ 48 % 2 ^ 64 % 2 ^ 48 = 0 := by omega
    rw [tokenOf, Nat.or_mod_two_pow, h64, Nat.zero_or, Nat.mod_eq_of_lt hc]
  rw [← hmod c hc, h, hmod c' hc']

/-- Worker `i` changes its waiters to `ws` as it moves request `id`, which no other worker waits for. -/
theorem Owned.waiting_move {k : Snap τ n} {id : ℕ} {l : Loc n} {ws : List (ℕ × ℕ)}
    (h : Owned k loc stack chain)
    (hhere : ∀ t j, (t, j) ∈ ws ↔ (Function.update loc id l j).forwarded = some (i, t))
    (hold : ∀ a t, a ≠ i → (loc id).forwarded ≠ some (a, t))
    (hnew : ∀ a t, a ≠ i → l.forwarded ≠ some (a, t)) (a : Fin n) (t j : ℕ) :
    (t, j) ∈ Function.update k.waiters i ws a ↔
      (Function.update loc id l j).forwarded = some (a, t) := by
  by_cases ha : a = i
  · subst ha
    rw [Function.update_self]
    exact hhere t j
  · rw [Function.update_of_ne ha, h.waiting]
    by_cases hj : j = id
    · subst hj
      rw [Function.update_self]
      exact iff_of_false (hold a t ha) (hnew a t ha)
    · rw [Function.update_of_ne hj]

/-- `drain_ingress` takes a token for a `Get` that another worker owns. -/
theorem Owned.getRemote {id : ℕ} {rest : List ℕ} {key : Bytes} (h : Owned s.snap loc stack chain)
    (hpc : (s.workers i).pc = .serve (id :: rest)) (hop : s.reqs.opOf id = .get key)
    (hlim : (s.workers i).nextToken < 2 ^ 48) :
    Owned (State.snap { s with workers := Function.update s.workers i { s.workers i with
        waiters := (tokenOf i (s.workers i).nextToken, id) ::
          (s.workers i).waiters.filter (·.1 ≠ tokenOf i (s.workers i).nextToken)
        nextToken := (s.workers i).nextToken + 1
        pc := .forward (.get key i (tokenOf i (s.workers i).nextToken)) none rest } })
      (Function.update loc id (.out i (tokenOf i (s.workers i).nextToken))) stack chain := by
  have hview : s.snap.view i = { batch := id :: rest } := congrArg Pc.view hpc
  have hloc := h.head hpc
  have hplace : (loc id).place ≠ none := by simp [hloc, Loc.place]
  have hok := h.ok id
  rw [snap_update]
  generalize ht : tokenOf i (s.workers i).nextToken = t
  -- every token in use was made from a smaller counter
  have hfresh : ∀ x ∈ (s.workers i).waiters, x.1 ≠ t := by
    rintro ⟨t', j⟩ hx rfl
    obtain ⟨c, hc, hct⟩ := (h.ok j).token i t' ((h.waiting i t' j).mp hx)
    have hc' : c < (s.workers i).nextToken := hc
    have := tokenOf_inj (hc'.trans hlim) hlim (hct ▸ ht.symm)
    omega
  have hfilter : (s.workers i).waiters.filter (·.1 ≠ t) = (s.workers i).waiters := by
    rw [List.filter_eq_self]
    exact fun x hx => by simpa using hfresh x hx
  simp only [hfilter]
  refine h.move hplace ⟨by simp, by simp⟩ rfl rfl rfl (fun _ _ => rfl) (fun _ _ => rfl) ?_ rfl ?_
    ?_ h.stacked ?_ ?_ ?_ (by simp)
  · intro a
    by_cases ha : a = i
    · subst ha
      simp [State.snap]
    · simp [ha]
  · intro r
    rw [hloc, Loc.mark_of_place rfl, Loc.mark_of_place rfl]
    refine at_exchange (w := View.own { batch := rest } i r) ?_ ?_
    · rw [hview]
      exact own_batch (v := { batch := rest }) r id
    · have hkey : (s.snap.reqs.opOf id).key = key := congrArg ClientOp.key hop
      rw [hkey]
      exact own_out (v := { batch := rest }) r rfl _
  · have hold := hok.of_place hplace
    refine ⟨by simpa using hold.1, by simp, fun _ _ => ⟨key, hop⟩, ?_, by simp [Loc.serving], by simp, ?_⟩
    · rintro a t' ⟨⟩
      exact ⟨(s.workers i).nextToken, by simp, ht.symm⟩
    · simpa using hold.2
  · exact fun a => (node_setView (v := { batch := rest, out := _ }) (by rw [hview]) a) ▸ h.chained a
  · have hid : (loc id).forwarded = none := by rw [hloc]; rfl
    refine h.waiting_move (fun t' j => ?_) (by simp [hid]) fun a t' ha => by
      simp [Loc.forwarded, Ne.symm ha]
    have hw := h.waiting i t' j
    rw [List.mem_cons, Prod.mk.injEq]
    refine (or_congr Iff.rfl hw).trans ?_
    by_cases hj : j = id
    · subst hj
      rw [Function.update_self, hid]
      simp [Loc.forwarded, eq_comm]
    · simp [hj]
  · intro a
    by_cases ha : a = i
    · subst ha
      simp only [Function.update_self, List.map_cons, List.nodup_cons, List.mem_map, not_exists,
        not_and]
      exact ⟨hfresh, h.tokens a⟩
    · simpa [ha] using h.tokens a

omit [NeZero n] in
theorem lookup_of_mem {l : List (ℕ × ℕ)} {t id : ℕ} (hl : (l.map Prod.fst).Nodup)
    (h : (t, id) ∈ l) : l.lookup t = some id := by
  induction l with
  | nil => cases h
  | cons x l ih =>
      rw [List.map_cons, List.nodup_cons] at hl
      rcases List.mem_cons.mp h with rfl | h
      · exact List.lookup_cons_self
      · have hne : (t == x.1) = false := by
          refine beq_eq_false_iff_ne.mpr ?_
          rintro rfl
          exact hl.1 (List.mem_map.mpr ⟨_, h, rfl⟩)
        rw [List.lookup_cons, hne]
        exact ih hl.2 h

/-- A reply finds the request that waits for it. -/
theorem Owned.lookup {a b : Fin n} {x : Reply} {q : List Reply} (h : Owned s.snap loc stack chain)
    (hq : s.reply (b, a) = x :: q) :
    ∃ id, loc id = .sent b a x.token x.val ∧ (s.workers a).waiters.lookup x.token = some id := by
  have hmem : Item.rep a x ∈ s.snap.at stack chain (.sent b a) := by
    simp [Snap.at, Snap.listAt, State.snap, hq]
  obtain ⟨id, hplace, hitem⟩ := h.held.exists_of_mem hmem
  obtain ⟨t, v, hloc⟩ := Loc.eq_of_place_sent hplace
  rw [hloc] at hitem
  obtain rfl : { token := t, val := v } = x := by simpa [Loc.item] using hitem
  have hw : (t, id) ∈ (s.workers a).waiters := (h.waiting a t id).mpr (by rw [hloc]; rfl)
  exact ⟨id, hloc, lookup_of_mem (h.tokens a) hw⟩

/-- `collect_replies` hands a reply to the request that waits for it. -/
theorem Owned.collectHit {c : CollectCaller n} {p : Bool} {b : Fin n} {x : Reply} {q : List Reply}
    {id : ℕ} (h : Owned s.snap loc stack chain) (hpc : (s.workers i).pc = .collect c p b)
    (hq : s.reply (b, i) = x :: q) (hw : (s.workers i).waiters.lookup x.token = some id) :
    loc id = .sent b i x.token x.val ∧
    Owned (State.snap
        { s.setReply (b, i) q with workers := Function.update s.workers i { s.workers i with
          waiters := (s.workers i).waiters.filter (·.1 ≠ x.token)
          pc := .fulfillValue (.collect c b) id x.val } })
      (Function.update loc id (.ready i x.val)) stack chain := by
  -- the reply belongs to exactly one request, and its waiter is the one found
  obtain ⟨id', hloc, hw'⟩ := h.lookup hq
  obtain rfl : id' = id := by simpa [hw] using hw'.symm
  have hview : s.snap.view i = c.view := congrArg Pc.view hpc
  have hplace : (loc id').place ≠ none := by simp [hloc, Loc.place]
  refine ⟨hloc, ?_⟩
  have hsnap := snap_update (s.setReply (b, i) q) i { s.workers i with
    waiters := (s.workers i).waiters.filter (·.1 ≠ x.token)
    pc := .fulfillValue (.collect c b) id' x.val }
  refine hsnap ▸ h.move hplace ⟨by simp, by simp⟩ rfl rfl rfl (fun _ _ => rfl) (fun _ _ => rfl) ?_ rfl
    ?_ ?_ h.stacked ?_ ?_ ?_ (by simp)
  · intro a
    by_cases ha : a = i
    · subst ha
      simp [State.snap]
    · simp [ha, State.snap, State.setReply]
  · intro r
    have hpop := at_popReply (k := s.snap) stack chain r hq
    rw [hloc, Loc.mark_of_place rfl, Loc.mark_of_place rfl, ← hpop, add_right_comm]
    exact congrArg (· + _) (at_gain (k := s.snap.setReply _ _) hview
      (own_ready r c.view_eq.2.2.1 (id', x.val)))
  · refine ((h.ok id').ready hplace i x.val).mono Iff.rfl rfl rfl rfl fun a => ?_
    by_cases ha : a = i
    · subst ha
      simp [State.snap]
    · simp [ha, State.snap, State.setReply]
  · intro a
    refine (node_setView (k := s.snap) (v := { c.view with ready := some (id', x.val) }) ?_ a) ▸
      h.chained a
    rw [hview]
  · have hid : (loc id').forwarded = some (i, x.token) := by rw [hloc]; rfl
    refine h.waiting_move (fun t j => ?_) (fun a t ha => by simp [hid, Ne.symm ha])
      fun a t _ => by simp [Loc.forwarded]
    have hwait := h.waiting i t j
    rw [List.mem_filter]
    refine (and_congr hwait (by simp : _ ↔ t ≠ x.token)).trans ?_
    by_cases hj : j = id'
    · subst hj
      rw [Function.update_self, hid]
      simp [Loc.forwarded, eq_comm]
    · -- no other request waits under this token
      rw [Function.update_of_ne hj]
      refine and_iff_left_of_imp ?_
      rintro hf rfl
      have hlook := lookup_of_mem (h.tokens i) (hwait.mpr hf)
      exact hj (Option.some.inj (hlook.symm.trans hw'))
  · intro a
    by_cases ha : a = i
    · subst ha
      simp only [Function.update_self]
      exact (h.tokens a).sublist (List.filter_sublist.map _)
    · simp only [Function.update_of_ne ha]
      exact h.tokens a

/-- The request being fulfilled. -/
theorem Owned.ready {c : FulfillCaller n} {id : ℕ} {v : Option Bytes}
    (h : Owned s.snap loc stack chain) (hpc : (s.workers i).pc = .fulfillValue c id v) :
    loc id = .ready i v := by
  have hview : s.snap.view i = { c.view with ready := some (id, v) } := congrArg Pc.view hpc
  have hmem : Item.fill id v ∈ s.snap.at stack chain (.ready i) := by
    simp [Snap.at, Snap.listAt, hview]
  obtain ⟨id', hplace, hitem⟩ := h.held.exists_of_mem hmem
  obtain ⟨v', hloc⟩ := Loc.eq_of_place_ready hplace
  obtain ⟨rfl, rfl⟩ : id' = id ∧ v' = v := by simpa [hloc, Loc.item] using hitem
  exact hloc

/-- The request whose value is stored. -/
theorem Owned.filling {c : FulfillCaller n} {id : ℕ} (h : Owned s.snap loc stack chain)
    (hpc : (s.workers i).pc = .fulfillDone c id) : ∃ v, loc id = .filling i v := by
  have hview : s.snap.view i = { c.view with filling := some id } := congrArg Pc.view hpc
  have hmem : Item.id id ∈ s.snap.at stack chain (.filling i) := by
    simp [Snap.at, Snap.listAt, hview]
  obtain ⟨id', hplace, hitem⟩ := h.held.exists_of_mem hmem
  obtain ⟨v', hloc⟩ := Loc.eq_of_place_filling hplace
  obtain rfl : id' = id := by simpa [hloc, Loc.item] using hitem
  exact ⟨v', hloc⟩

/-- A request that nobody waits for any more keeps the waiters as they are. -/
theorem Owned.waiting_update {id : ℕ} {l : Loc n} (h : Owned k loc stack chain)
    (hold : (loc id).forwarded = none) (hnew : l.forwarded = none) (a : Fin n) (t j : ℕ) :
    (t, j) ∈ k.waiters a ↔ (Function.update loc id l j).forwarded = some (a, t) := by
  rw [h.waiting a t j]
  by_cases hj : j = id
  · subst hj
    rw [Function.update_self, hold, hnew]
  · rw [Function.update_of_ne hj]

/-- `fulfill` stores the value. -/
theorem Owned.fulfillValue {c : FulfillCaller n} {id : ℕ} {v : Option Bytes}
    {log : List (ℕ × Option Bytes)} (h : Owned s.snap loc stack chain)
    (hpc : (s.workers i).pc = .fulfillValue c id v) :
    Owned (State.snap { s.goto i (.fulfillDone c id) with
        reqs := s.reqs.setValue id v
        fulfilled := log }) (Function.update loc id (.filling i v)) stack chain := by
  have hview : s.snap.view i = { c.view with ready := some (id, v) } := congrArg Pc.view hpc
  have hloc := h.ready hpc
  have hplace : (loc id).place ≠ none := by simp [hloc, Loc.place]
  have hold : id < s.reqs.length ∧ s.reqs.doneOf id = false := (h.ok id).of_place hplace
  have hsnap : State.snap { s.goto i (.fulfillDone c id) with
      reqs := s.reqs.setValue id v
      fulfilled := log } =
      { s.snap.setView i { c.view with filling := some id } with reqs := s.reqs.setValue id v } :=
    congrArg (fun k : Snap τ n => { k with reqs := s.reqs.setValue id v }) (snap_goto s i _)
  rw [hsnap]
  refine h.move hplace ⟨by simp, by simp⟩ (by simp [State.snap]) (by simp [State.snap])
    (by simp [State.snap]) (fun j _ => by simp [State.snap]) (fun j hj => ?_) (fun _ => le_rfl) rfl
    (fun r => ?_) ?_ h.stacked (fun a => ?_) (h.waiting_update (by rw [hloc]; rfl) rfl) h.tokens (by simp)
  · exact Heap.valueOf_setValue_of_ne s.reqs (Ne.symm hj) v
  · rw [hloc, Loc.mark_of_place rfl, Loc.mark_of_place rfl]
    refine at_exchange (w := c.view.own i r) ?_ (own_filling r c.view_eq.2.2 id)
    rw [hview]
    exact own_ready r c.view_eq.2.1 (id, v)
  · refine ⟨by simpa using hold.1, by simp, by simp [Loc.forwarded], by simp [Loc.forwarded],
      by simp [Loc.serving], ?_, by simpa using hold.2⟩
    rintro a v' ⟨⟩
    exact Heap.valueOf_setValue_self s.reqs hold.1 v
  · exact node_setView (k := s.snap) (v := { c.view with filling := some id }) (by rw [hview]) a ▸
      h.chained a

/-- `fulfill` stores `done`. -/
theorem Owned.fulfillDone {c : FulfillCaller n} {id : ℕ} (h : Owned s.snap loc stack chain)
    (hpc : (s.workers i).pc = .fulfillDone c id) :
    ∃ v, loc id = .filling i v ∧
      Owned (State.snap { s.goto i c.resume with reqs := s.reqs.setDone id })
        (Function.update loc id (.done v)) stack chain := by
  have hview : s.snap.view i = { c.view with filling := some id } := congrArg Pc.view hpc
  obtain ⟨v, hloc⟩ := h.filling hpc
  have hplace : (loc id).place ≠ none := by simp [hloc, Loc.place]
  have hold : id < s.reqs.length ∧ s.reqs.doneOf id = false := (h.ok id).of_place hplace
  have hval : s.reqs.valueOf id = v := (h.ok id).value i v hloc
  have hsnap : State.snap { s.goto i c.resume with reqs := s.reqs.setDone id } =
      { s.snap.setView i c.view with reqs := s.reqs.setDone id } := by
    rw [← resume_view_fulfill c]
    exact congrArg (fun k : Snap τ n => { k with reqs := s.reqs.setDone id }) (snap_goto s i _)
  rw [hsnap]
  refine ⟨v, hloc, h.move hplace ⟨by simp, by simp⟩ (by simp [State.snap]) (by simp [State.snap])
    (by simp [State.snap]) (fun j hj => ?_) (fun j _ => by simp [State.snap]) (fun _ => le_rfl) rfl
    (fun r => ?_) ?_ h.stacked (fun a => ?_) (h.waiting_update (by rw [hloc]; rfl) rfl) h.tokens ?_⟩
  · exact Heap.doneOf_setDone_of_ne s.reqs (Ne.symm hj)
  · rw [hloc, Loc.mark_of_place rfl, Loc.mark_of_none rfl, add_zero]
    exact at_lose hview (own_filling r c.view_eq.2.2 id)
  · refine .idle (by simpa using hold.1) rfl ?_
    have hd := Heap.doneOf_setDone_self s.reqs hold.1
    simpa using hd
  · exact node_setView (k := s.snap) (v := c.view) (by rw [hview]) a ▸ h.chained a
  · rintro v' ⟨⟩
    simpa using hval

theorem clientOk_congr {k' : Snap τ n} (h : k'.reqs = k.reqs) (pc : ClientPc n) :
    ClientOk k' loc pc ↔ ClientOk k loc pc := by
  cases pc <;> simp [ClientOk, h]

/-- A step that only moves requests from one list of a worker to another. -/
theorem Owned.keep {k' : Snap τ n} {stack' chain' : Fin n → List ℕ} (h : Owned k loc stack chain)
    (hreqs : k'.reqs = k.reqs) (hcl : k'.clients = k.clients) (hw : k'.waiters = k.waiters)
    (htok : k'.nextToken = k.nextToken) (hat : k'.at stack' chain' = k.at stack chain)
    (hst : ∀ a, Linked k.reqs.nextOf (k'.ingress a) (stack' a))
    (hch : ∀ a, Linked k.reqs.nextOf (k'.view a).node (chain' a)) : Owned k' loc stack' chain' where
  held := by rw [hreqs, hat]; exact h.held
  ok id := (h.ok id).mono (by rw [hreqs]) (by rw [hreqs]) (by rw [hreqs]) (by rw [hreqs])
    fun a => by rw [htok]
  stacked := hreqs ▸ hst
  chained := hreqs ▸ hch
  waiting := hw ▸ h.waiting
  tokens := hw ▸ h.tokens
  client t := (clientOk_congr hreqs _).mpr (hcl ▸ h.client t)
  apart := hcl ▸ h.apart
  pushing := hcl ▸ h.pushing

omit [NeZero n] in
/-- A worker that only regroups its stack, its chain and its batch keeps everything where it is. -/
theorem at_regroup {stack' chain' : Fin n → List ℕ} {batch : List ℕ} (node : Option ℕ)
    (hperm : (stack' i ++ (chain' i ++ batch)).Perm (stack i ++ (chain i ++ (k.view i).batch)))
    (hst : ∀ a, a ≠ i → stack' a = stack a) (hch : ∀ a, a ≠ i → chain' a = chain a) :
    (k.setView i { k.view i with batch := batch, node := node }).at stack' chain' =
      k.at stack chain := by
  funext r
  cases r with
  | queued a =>
      by_cases ha : a = i
      · subst ha
        simpa [Snap.at, Snap.listAt, Snap.setView] using hperm.map Item.id
      · simp [Snap.at, Snap.listAt, Snap.setView, ha, hst a ha, hch a ha]
  | cmd _ _ | sent _ _ => rfl
  | out a | ins a | ans a | hand a | ready a | filling a =>
      by_cases ha : a = i
      · subst ha
        simp [Snap.at, Snap.listAt, Snap.setView]
      · simp [Snap.at, Snap.listAt, Snap.setView, ha]

/-- `drain_ingress` detaches the stack. -/
theorem Owned.swap {p : Bool} {id : ℕ} (h : Owned s.snap loc stack chain)
    (hpc : (s.workers i).pc = .swap p) (hin : s.ingress i = some id) :
    Owned (State.snap { s.goto i (.walk id []) with ingress := Function.update s.ingress i none })
      loc (Function.update stack i []) (Function.update chain i (stack i)) := by
  have hview : s.snap.view i = {} := congrArg Pc.view hpc
  have hchain : chain i = [] := by
    have := h.chained i
    rw [hview] at this
    exact linked_none.mp this
  have hsnap : State.snap { s.goto i (.walk id []) with ingress := Function.update s.ingress i none } =
      { s.snap.setView i { node := some id } with ingress := Function.update s.ingress i none } :=
    congrArg (fun k : Snap τ n => { k with ingress := Function.update s.ingress i none })
      (snap_goto s i _)
  rw [hsnap]
  have hat : (s.snap.setView i { node := some id }).at (Function.update stack i [])
      (Function.update chain i (stack i)) = s.snap.at stack chain := by
    have hperm : (Function.update stack i [] i ++ (Function.update chain i (stack i) i ++ [])).Perm
        (stack i ++ (chain i ++ (s.snap.view i).batch)) := by
      simp [hview, hchain]
    have hgroup := at_regroup (k := s.snap) (i := i) (some id) hperm
      (fun a ha => Function.update_of_ne ha _ _) fun a ha => Function.update_of_ne ha _ _
    rwa [hview] at hgroup
  refine h.keep rfl rfl rfl rfl hat (fun a => ?_) fun a => ?_
  · by_cases ha : a = i
    · subst ha
      simp
    · simp only [Function.update_of_ne ha]
      exact h.stacked a
  · by_cases ha : a = i
    · subst ha
      have := h.stacked a
      simpa [Snap.setView, State.snap, hin] using this
    · simpa [Snap.setView, ha] using h.chained a

/-- `drain_ingress` moves a request from the detached chain to the batch. -/
theorem Owned.walk {id : ℕ} {reqs : List ℕ} (h : Owned s.snap loc stack chain)
    (hpc : (s.workers i).pc = .walk id reqs) :
    ∃ rest, chain i = id :: rest ∧
      Owned (s.goto i (walkFrom (reqs ++ [id]) (s.reqs.nextOf id))).snap
        loc stack (Function.update chain i rest) := by
  have hview : s.snap.view i = { batch := reqs, node := some id } := congrArg Pc.view hpc
  obtain ⟨rest, hrest, hlink⟩ : ∃ rest, chain i = id :: rest ∧
      Linked s.reqs.nextOf (s.reqs.nextOf id) rest := by
    have := h.chained i
    rw [hview] at this
    exact linked_some.mp this
  refine ⟨rest, hrest, ?_⟩
  rw [snap_goto, walkFrom_view]
  have hat : (s.snap.setView i { batch := reqs ++ [id], node := s.reqs.nextOf id }).at stack
      (Function.update chain i rest) = s.snap.at stack chain := by
    have hperm : (stack i ++ (Function.update chain i rest i ++ (reqs ++ [id]))).Perm
        (stack i ++ (chain i ++ (s.snap.view i).batch)) := by
      rw [hview, hrest, Function.update_self, ← List.append_assoc rest]
      exact (List.perm_append_singleton _ _).append_left _
    have hgroup := at_regroup (k := s.snap) (i := i) (s.reqs.nextOf id) hperm
      (fun _ _ => rfl) fun a ha => Function.update_of_ne ha _ _
    rwa [hview] at hgroup
  refine h.keep rfl rfl rfl rfl hat h.stacked fun a => ?_
  by_cases ha : a = i
  · subst ha
    simp only [Snap.setView, Function.update_self]
    exact hlink
  · simpa [Snap.setView, ha] using h.chained a

/-- A turn of a loop that finds nothing to do leaves everything in the worker's hands. -/
theorem Scan.view {cap : ℕ} {pc pc' : Pc n} (h : Scan cap s i pc pc') : pc'.view = pc.view := by
  cases h with
  | collectEnd => exact resume_view_collect _ _
  | _ => rfl

/-- No put is ever forwarded. -/
theorem Owned.not_put {key val : Bytes} {q : List (Command n)} {j : Fin n}
    (h : Owned s.snap loc stack chain) : s.cmd (j, i) ≠ .put key val :: q := by
  intro hq
  have hmem : Item.cmd (.put key val) none ∈ s.snap.at stack chain (.cmd j i) := by
    simp [Snap.at, Snap.listAt, State.snap, hq]
  obtain ⟨id, hplace, hitem⟩ := h.held.exists_of_mem hmem
  obtain ⟨t, hloc⟩ := Loc.eq_of_place_cmd hplace
  rw [hloc] at hitem
  cases hitem

/-- No put is ever about to be forwarded. -/
theorem Owned.not_ack {cmd : Command n} {id : ℕ} {rest : List ℕ} (h : Owned s.snap loc stack chain) :
    (s.workers i).pc ≠ .forward cmd (some id) rest := by
  intro hpc
  have hview : s.snap.view i = { batch := rest, out := some (cmd, some id) } := congrArg Pc.view hpc
  have hmem : Item.cmd cmd (some id) ∈ s.snap.at stack chain (.out i) := by
    simp [Snap.at, Snap.listAt, hview]
  obtain ⟨id, hplace, hitem⟩ := h.held.exists_of_mem hmem
  obtain ⟨t, hloc⟩ := Loc.eq_of_place_out hplace
  rw [hloc] at hitem
  cases hitem

/-- No forwarded put is ever applied. -/
theorem Owned.not_insert {c : PumpCaller n} {src : ℕ} {key val : Bytes}
    (h : Owned s.snap loc stack chain) : (s.workers i).pc ≠ .insert c src key val := by
  intro hpc
  have hview : s.snap.view i = { c.view with ins := some (key, val) } := congrArg Pc.view hpc
  have hmem : Item.put key val ∈ s.snap.at stack chain (.ins i) := by
    simp [Snap.at, Snap.listAt, hview]
  obtain ⟨id, hplace, -⟩ := h.held.exists_of_mem hmem
  cases hl : loc id <;> rw [hl] at hplace <;> cases hplace

/-! ## One action, one edge -/

/-- What no step of worker `i` touches. -/
structure Frame (s s' : State τ n) (i : Fin n) : Prop where
  hist : s'.hist = s.hist
  stop : s'.stop = s.stop
  clients : s'.clients = s.clients
  length : s'.reqs.length = s.reqs.length
  opOf : s'.reqs.opOf = s.reqs.opOf
  others : ∀ j, j ≠ i → s'.workers j = s.workers j
  ingress : ∀ j, s'.ingress j = s.ingress j ∨ s'.ingress j = none

/-- The way of a request through the hands of worker `i`: where it was, where it is then, the shard
after the step, what was logged as fulfilled, and how many tokens were made. -/
inductive Edge (s : State τ n) (i : Fin n) (id : ℕ) :
    Loc n → Loc n → Shard → List (ℕ × Option Bytes) → ℕ → Prop
  | put {key val} (hop : s.reqs.opOf id = .put key val) (hown : owner n key = i) :
      Edge s i id (.queued i) (.ready i none) ((s.workers i).shard.insert key val) [] 0
  | get {key} (hop : s.reqs.opOf id = .get key) (hown : owner n key = i) :
      Edge s i id (.queued i) (.ready i ((s.workers i).shard key)) (s.workers i).shard [] 0
  | take {t} (hown : owner n (s.reqs.opOf id).key ≠ i) :
      Edge s i id (.queued i) (.out i t) (s.workers i).shard [] 1
  | send {b t} : Edge s i id (.out i t) (.cmd i b t) (s.workers i).shard [] 0
  | pop {a t} : Edge s i id (.cmd a i t) (.ans i a t) (s.workers i).shard [] 0
  | look {key a t} (hop : s.reqs.opOf id = .get key) (hown : owner n key = i) :
      Edge s i id (.ans i a t) (.hand i a t ((s.workers i).shard key)) (s.workers i).shard [] 0
  | reply {a t v} : Edge s i id (.hand i a t v) (.sent i a t v) (s.workers i).shard [] 0
  | collect {b t v} : Edge s i id (.sent b i t v) (.ready i v) (s.workers i).shard [] 0
  | store {v} : Edge s i id (.ready i v) (.filling i v) (s.workers i).shard [(id, v)] 0
  | done {v} : Edge s i id (.filling i v) (.done v) (s.workers i).shard [] 0

/-- What an action does to the requests: one of them takes one edge, or the ingress moves towards the
batch. -/
inductive Advance (s s' : State τ n) (i : Fin n) (loc : ℕ → Loc n) (stack chain : Fin n → List ℕ) :
    (ℕ → Loc n) → (Fin n → List ℕ) → (Fin n → List ℕ) → Prop
  | swap (hne : stack i ≠ []) (hch : chain i = []) (hsh : (s'.workers i).shard = (s.workers i).shard)
      (hful : s'.fulfilled = s.fulfilled)
      (htok : (s'.workers i).nextToken = (s.workers i).nextToken) :
      Advance s s' i loc stack chain loc (Function.update stack i []) (Function.update chain i (stack i))
  | walk {id rest} (hch : chain i = id :: rest) (hsh : (s'.workers i).shard = (s.workers i).shard)
      (hful : s'.fulfilled = s.fulfilled)
      (htok : (s'.workers i).nextToken = (s.workers i).nextToken) :
      Advance s s' i loc stack chain loc stack (Function.update chain i rest)
  | move {id l m log k} (h : Edge s i id (loc id) l m log k) (hsh : (s'.workers i).shard = m)
      (hful : s'.fulfilled = s.fulfilled ++ log)
      (htok : (s'.workers i).nextToken = (s.workers i).nextToken + k) :
      Advance s s' i loc stack chain (Function.update loc id l) stack chain

omit [NeZero n] in
theorem frame_update {w : Worker n} {cq : Fin n × Fin n → List (Command n)}
    {rq : Fin n × Fin n → List Reply} {reqs : Heap} {log : List (ℕ × Option Bytes)}
    {ing : Fin n → Option ℕ} (hlen : reqs.length = s.reqs.length) (hop : reqs.opOf = s.reqs.opOf)
    (hing : ∀ j, ing j = s.ingress j ∨ ing j = none) :
    Frame s { s with
      workers := Function.update s.workers i w
      cmd := cq
      reply := rq
      reqs := reqs
      fulfilled := log
      ingress := ing } i where
  hist := rfl
  stop := rfl
  clients := rfl
  length := hlen
  opOf := hop
  others _ hj := Function.update_of_ne hj ..
  ingress := hing

theorem Advance.edge {s' : State τ n} {id : ℕ} {l₀ l : Loc n} {log : List (ℕ × Option Bytes)} {k : ℕ}
    {w : Worker n} {m : Shard} (hw : s'.workers = Function.update s.workers i w) (hloc : loc id = l₀)
    (h : Edge s i id l₀ l m log k) (hm : w.shard = m) (hful : s'.fulfilled = s.fulfilled ++ log)
    (htok : w.nextToken = (s.workers i).nextToken + k) :
    Advance s s' i loc stack chain (Function.update loc id l) stack chain := by
  have hwi : s'.workers i = w := by rw [hw, Function.update_self]
  exact .move (hloc ▸ h) (by rw [hwi, hm]) hful (by rw [hwi, htok])

/-- Every action keeps the account of the requests, and is one edge. -/
theorem Owned.act {cap : ℕ} {s' : State τ n} (h : Owned s.snap loc stack chain)
    (hlim : ∀ id, loc id = .queued i → (s.workers i).nextToken < 2 ^ 48) (hact : Act cap s i s') :
    Frame s s' i ∧ ∃ loc' stack' chain', Owned s'.snap loc' stack' chain' ∧
      Advance s s' i loc stack chain loc' stack' chain' := by
  have hsame : ∀ j, s.ingress j = s.ingress j ∨ s.ingress j = none := fun _ => .inl rfl
  have hnil : s.fulfilled = s.fulfilled ++ [] := (List.append_nil _).symm
  cases hact with
  | insert hpc => exact absurd hpc h.not_insert
  | pumpPut hpc hq => exact absurd hq h.not_put
  | forwardPut hpc => exact absurd hpc h.not_ack
  | putRemote hpc hop hown =>
      -- a put is queued at the owner of its key
      have hr := (h.ok _).routed i (h.head hpc)
      rw [show s.snap.reqs.opOf _ = _ from hop] at hr
      exact absurd hr hown
  | collectMiss hpc hq hw =>
      obtain ⟨id, -, hw'⟩ := h.lookup hq
      rw [hw] at hw'
      cases hw'
  | pumpGet hpc hq =>
      obtain ⟨id, hloc, ho⟩ := h.pumpGet hpc hq
      exact ⟨frame_update rfl rfl hsame, _, _, _, ho, .edge rfl hloc .pop rfl hnil rfl⟩
  | @answer c src key dst token hpc =>
      obtain ⟨id, hloc, hop, hown, ho⟩ := h.answer ((s.workers i).shard key) hpc
      exact ⟨frame_update rfl rfl hsame, _, _, _, ho, .edge rfl hloc (.look hop hown) rfl hnil rfl⟩
  | replyOk hpc hcap =>
      obtain ⟨id, hloc, ho⟩ := h.replyOk hpc
      exact ⟨frame_update rfl rfl hsame, _, _, _, ho, .edge rfl hloc .reply rfl hnil rfl⟩
  | collectHit hpc hq hw =>
      obtain ⟨hloc, ho⟩ := h.collectHit hpc hq hw
      exact ⟨frame_update rfl rfl hsame, _, _, _, ho, .edge rfl hloc .collect rfl hnil rfl⟩
  | fulfillValue hpc =>
      exact ⟨frame_update (by simp) (by simp) hsame, _, _, _, h.fulfillValue hpc,
        .edge rfl (h.ready hpc) .store rfl rfl rfl⟩
  | fulfillDone hpc =>
      obtain ⟨v, hloc, ho⟩ := h.fulfillDone hpc
      exact ⟨frame_update (by simp) (by simp) hsame, _, _, _, ho, .edge rfl hloc .done rfl hnil rfl⟩
  | putLocal hpc hop hown =>
      refine ⟨frame_update rfl rfl hsame, _, _, _, ?_, .edge rfl (h.head hpc) (.put hop hown) rfl hnil rfl⟩
      rw [snap_goto_shard]
      exact h.serve none hpc
  | getLocal hpc hop hown =>
      exact ⟨frame_update rfl rfl hsame, _, _, _, h.serve _ hpc,
        .edge rfl (h.head hpc) (.get hop hown) rfl hnil rfl⟩
  | getRemote hpc hop hown =>
      exact ⟨frame_update rfl rfl hsame, _, _, _, h.getRemote hpc hop (hlim _ (h.head hpc)),
        .edge rfl (h.head hpc) (.take (by rw [hop]; exact hown)) rfl hnil rfl⟩
  | forwardGet hpc hcap =>
      obtain ⟨id, t, hloc, -, ho⟩ := h.forwardGet hpc
      exact ⟨frame_update rfl rfl hsame, _, _, _, ho, .edge rfl hloc .send rfl hnil rfl⟩
  | @swapSome p id hpc hin =>
      have hview : s.snap.view i = {} := congrArg Pc.view hpc
      refine ⟨frame_update rfl rfl fun j => ?_, _, _, _, h.swap hpc hin, .swap ?_ ?_ ?_ rfl ?_⟩
      · by_cases hj : j = i
        · exact .inr (by rw [hj, Function.update_self])
        · exact .inl (Function.update_of_ne hj ..)
      · have := h.stacked i
        rw [show s.snap.ingress i = some id from hin] at this
        obtain ⟨r, hr, -⟩ := linked_some.mp this
        rw [hr]
        exact List.cons_ne_nil _ _
      · have := h.chained i
        rw [hview] at this
        exact linked_none.mp this
      · simp [State.goto]
      · simp [State.goto]
  | walk hpc =>
      obtain ⟨rest, hch, ho⟩ := h.walk hpc
      exact ⟨frame_update rfl rfl hsame, _, _, _, ho,
        .walk hch (by simp [State.goto]) rfl (by simp [State.goto])⟩

end

/-! ## Clients -/

section

variable {τ : Type} [DecidableEq τ] {n : ℕ} [NeZero n] {k k' : Snap τ n} {loc : ℕ → Loc n}
  {stack stack' chain : Fin n → List ℕ} {t : τ} {id : ℕ} {l : Loc n} {pc : ClientPc n}

omit [DecidableEq τ] in
/-- The program point of another client says the same after a step that touches only `id`. -/
theorem ClientOk.frame (h : ClientOk k loc pc) (hpc : pc.request ≠ some id)
    (hop : ∀ j, j ≠ id → k'.reqs.opOf j = k.reqs.opOf j)
    (hnext : ∀ j, j ≠ id → k'.reqs.nextOf j = k.reqs.nextOf j)
    (hval : ∀ j, j ≠ id → k'.reqs.valueOf j = k.reqs.valueOf j) :
    ClientOk k' (Function.update loc id l) pc := by
  cases pc with
  | idle => trivial
  | push a j | cas a j _ | wait j | take j =>
      have hj : j ≠ id := fun hj => hpc (congrArg some hj)
      simpa [ClientOk, hj, hop j hj, hnext j hj, hval j hj] using h

/-- Client `t` takes a step of its call for request `id`, which no worker has yet or has any more. -/
theorem Owned.client_step (pc : ClientPc n) (h : Owned k loc stack chain)
    (hmine : ∀ u, (k.clients u).request = some id → u = t)
    (hwas : ∀ j, (k.clients t).request = some j → j = id)
    (hcl : k'.clients = Function.update k.clients t pc) (hpc : ∀ j, pc.request = some j → j = id)
    (hlen : ∀ j, j ≠ id → (k'.reqs.length ≤ j ↔ k.reqs.length ≤ j))
    (hop : ∀ j, j ≠ id → k'.reqs.opOf j = k.reqs.opOf j)
    (hkey : l.place ≠ none → k'.reqs.opOf id = k.reqs.opOf id)
    (hnext : ∀ j, j ≠ id → k'.reqs.nextOf j = k.reqs.nextOf j)
    (hdone : ∀ j, j ≠ id → k'.reqs.doneOf j = k.reqs.doneOf j)
    (hval : ∀ j, j ≠ id → k'.reqs.valueOf j = k.reqs.valueOf j) (hview : k'.view = k.view)
    (hw : k'.waiters = k.waiters) (htok : k'.nextToken = k.nextToken)
    (hold : (loc id).place = none) (hnew : l.forwarded = none)
    (hat : ∀ r, k'.at stack' chain r = k.at stack chain r + l.mark (k.reqs.opOf id).key id r)
    (hok : LocOk k' id l) (hst : ∀ a, Linked k'.reqs.nextOf (k'.ingress a) (stack' a))
    (hme : ClientOk k' (Function.update loc id l) pc)
    (hpush : l = .pushing → pc.request = some id) :
    Owned k' (Function.update loc id l) stack' chain where
  held := by
    have hmove : Holds Loc.place (fun j => Loc.item (k.reqs.opOf j).key j) (k'.at stack' chain)
        (Function.update loc id l) := by
      refine h.held.move fun r => ?_
      rw [if_neg (by rw [hold]; exact nofun), add_zero]
      exact hat r
    refine hmove.congr (fun j r hj => ?_) rfl
    by_cases hji : j = id
    · subst hji
      rw [Function.update_self] at hj
      rw [hkey (by rw [hj]; exact nofun)]
    · rw [hop j hji]
  ok j := by
    by_cases hj : j = id
    · subst hj
      simpa using hok
    · rw [Function.update_of_ne hj]
      exact (h.ok j).mono (hlen j hj) (hop j hj) (hdone j hj) (hval j hj) fun a => (congrFun htok a).ge
  stacked := hst
  chained a := by
    rw [hview]
    refine (h.chained a).congr fun j hj => hnext j ?_
    -- what is on the detached chain is queued, so it is not `id`
    rintro rfl
    rw [h.queued_of_mem (List.mem_append_right _ (List.mem_append_left _ hj))] at hold
    cases hold
  waiting := by
    rw [hw]
    exact h.waiting_update (Loc.forwarded_of_place hold) hnew
  tokens := hw ▸ h.tokens
  client u := by
    by_cases hu : u = t
    · subst hu
      rw [hcl, Function.update_self]
      exact hme
    · rw [hcl, Function.update_of_ne hu]
      exact (h.client u).frame (fun hr => hu (hmine u hr)) hop hnext hval
  apart u v j hu hv := by
    rw [hcl] at hu hv
    by_cases hut : u = t <;> by_cases hvt : v = t
    · rw [hut, hvt]
    · subst hut
      rw [Function.update_self] at hu
      rw [Function.update_of_ne hvt] at hv
      exact absurd (hmine v (hpc j hu ▸ hv)) hvt
    · subst hvt
      rw [Function.update_self] at hv
      rw [Function.update_of_ne hut] at hu
      exact absurd (hmine u (hpc j hv ▸ hu)) hut
    · rw [Function.update_of_ne hut] at hu
      rw [Function.update_of_ne hvt] at hv
      exact h.apart u v j hu hv
  pushing j hj := by
    rw [hcl]
    by_cases hji : j = id
    · subst hji
      rw [Function.update_self] at hj
      exact ⟨t, by rw [Function.update_self]; exact hpush hj⟩
    · rw [Function.update_of_ne hji] at hj
      exact exists_apply_update (p := fun pc : ClientPc n => pc.request = some j) (h.pushing j hj)
        fun hu => hji (hwas j hu)

variable {s : State τ n} {accept : Fin n} {op : ClientOp}

/-- `submit_to` boxes a request. -/
theorem Owned.submit {hist : List (Event ClientOp (Option Bytes))}
    (h : Owned s.snap loc stack chain) (hpc : s.clients t = .idle) (hr : Routed op accept) :
    Owned (State.snap { s.clientGoto t (.push accept s.reqs.length) with
        reqs := s.reqs ++ [{ op, next := none, done := false, value := none }]
        hist := hist })
      (Function.update loc s.reqs.length .pushing) stack chain := by
  have hborn : ∀ j, (loc j = .unborn ↔ s.reqs.length ≤ j) := fun j => (h.ok j).born
  have hloc : loc s.reqs.length = .unborn := (hborn _).mpr le_rfl
  -- no client is in a call for a request that does not exist
  have hnone : ∀ u, (s.clients u).request ≠ some s.reqs.length := by
    intro u hu
    have hc : ClientOk s.snap loc (s.clients u) := h.client u
    cases hpc : s.clients u with
    | idle => simp [hpc, ClientPc.request] at hu
    | push a j | cas a j _ | wait j | take j =>
        obtain rfl : j = s.reqs.length := by simpa [hpc, ClientPc.request] using hu
        simp [hpc, ClientOk, hloc] at hc
  have hop : Heap.opOf (s.reqs ++ [{ op, next := none, done := false, value := none }])
      s.reqs.length = op := readField_append_self
  have hdone : Heap.doneOf (s.reqs ++ [{ op, next := none, done := false, value := none }])
      s.reqs.length = false := readField_append_self
  refine h.client_step (.push accept s.reqs.length) (fun u hu => absurd hu (hnone u)) ?_ rfl
    (fun j hj => (Option.some.inj hj).symm) (fun j hj => ?_) (fun j hj => readField_append hj)
    (fun hp => absurd rfl hp) (fun j hj => readField_append hj) (fun j hj => readField_append hj)
    (fun j hj => readField_append hj) rfl rfl rfl (by rw [hloc]; rfl) rfl (fun r => ?_) ?_ (fun a => ?_) ?_
    (fun _ => rfl)
  · intro j hj
    have hj' : (s.clients t).request = some j := hj
    rw [hpc] at hj'
    cases hj'
  · show (s.reqs ++ [_]).length ≤ j ↔ s.reqs.length ≤ j
    rw [List.length_append, List.length_singleton]
    omega
  · rw [Loc.mark_of_none rfl, add_zero]
    rfl
  · refine .idle (by simp [State.snap]) rfl ?_
    show Heap.doneOf (s.reqs ++ [_]) s.reqs.length = true ↔ _
    rw [hdone]
    simp
  · refine (h.stacked a).congr fun j hj => readField_append ?_
    rintro rfl
    rw [h.queued_of_mem (List.mem_append_left _ hj)] at hloc
    cases hloc
  · refine ⟨Function.update_self .., ?_⟩
    show Routed (Heap.opOf (s.reqs ++ [_]) s.reqs.length) accept
    rw [hop]
    exact hr

/-- A step of a client's call after which its request is where it was, with no worker. -/
theorem Owned.client_stay {reqs : Heap} (h : Owned s.snap loc stack chain)
    (hid : (s.clients t).request = some id) (hpc : ∀ j, pc.request = some j → j = id)
    (hplace : (loc id).place = none) (hlen : reqs.length = s.reqs.length)
    (hop : reqs.opOf = s.reqs.opOf) (hnext : ∀ j, j ≠ id → reqs.nextOf j = s.reqs.nextOf j)
    (hdone : reqs.doneOf = s.reqs.doneOf)
    (hval : ∀ j, j ≠ id → reqs.valueOf j = s.reqs.valueOf j)
    (hme : ClientOk { s.snap with reqs := reqs, clients := Function.update s.clients t pc } loc pc)
    (hpush : loc id = .pushing → pc.request = some id) :
    Owned { s.snap with reqs := reqs, clients := Function.update s.clients t pc } loc stack chain := by
  have hok := h.ok id
  rw [← Function.update_eq_self id loc]
  refine h.client_step pc
    (fun u hu => h.apart u t id hu hid)
    (fun j hj => Option.some.inj ((show (s.clients t).request = some j from hj).symm.trans hid))
    rfl hpc (fun j _ => by rw [hlen]; rfl) (fun j _ => by rw [hop]; rfl) (fun _ => by rw [hop]; rfl)
    hnext (fun j _ => by rw [hdone]; rfl) hval rfl rfl rfl hplace (Loc.forwarded_of_place hplace)
    (fun r => ?_) ?_ (fun a => ?_) (by rwa [Function.update_eq_self]) hpush
  · rw [Loc.mark_of_none hplace, add_zero]
    rfl
  · refine ⟨?_, hop ▸ hok.routed, hop ▸ hok.get, hok.token, hop ▸ hok.owned, fun a v hv => ?_, ?_⟩
    · rw [hlen]
      exact hok.born
    · rw [hv] at hplace
      cases hplace
    · rw [hdone]
      exact hok.done
  · refine (h.stacked a).congr fun j hj => hnext j ?_
    rintro rfl
    rw [h.queued_of_mem (List.mem_append_left _ hj)] at hplace
    cases hplace

/-- `Ingress::push` links the request to the head. -/
theorem Owned.push (h : Owned s.snap loc stack chain) (hpc : s.clients t = .push accept id) :
    Owned (State.snap { s.clientGoto t (.cas accept id (s.ingress accept)) with
        reqs := s.reqs.setNext id (s.ingress accept) }) loc stack chain := by
  have hc : loc id = .pushing ∧ Routed (s.reqs.opOf id) accept := by
    have := h.client t
    rwa [show s.snap.clients t = _ from hpc] at this
  have hborn : id < s.reqs.length := by
    refine Nat.lt_of_not_le fun hle => ?_
    have := (h.ok id).born.mpr hle
    rw [hc.1] at this
    cases this
  refine h.client_stay (by rw [hpc]; rfl) (fun j hj => (Option.some.inj hj).symm) (by rw [hc.1]; rfl)
    (by simp) (by simp) (fun j hj => s.reqs.nextOf_setNext_of_ne (Ne.symm hj) _) (by simp)
    (fun j _ => by simp) ⟨⟨hc.1, ?_⟩, ?_⟩ (fun _ => rfl)
  · simpa using hc.2
  · exact s.reqs.nextOf_setNext_self hborn _

/-- `Ingress::push` starts over. -/
theorem Owned.casFail {head : Option ℕ} (h : Owned s.snap loc stack chain)
    (hpc : s.clients t = .cas accept id head) :
    Owned (s.clientGoto t (.push accept id)).snap loc stack chain := by
  have hc : (loc id = .pushing ∧ Routed (s.reqs.opOf id) accept) ∧ s.reqs.nextOf id = head := by
    have := h.client t
    rwa [show s.snap.clients t = _ from hpc] at this
  exact h.client_stay (by rw [hpc]; rfl) (fun j hj => (Option.some.inj hj).symm)
    (by rw [hc.1.1]; rfl) rfl rfl (fun _ _ => rfl) rfl (fun _ _ => rfl) hc.1 fun _ => rfl

/-- `Ingress::push` publishes the request. -/
theorem Owned.casOk {head : Option ℕ} (h : Owned s.snap loc stack chain)
    (hpc : s.clients t = .cas accept id head) (hh : s.ingress accept = head) :
    loc id = .pushing ∧
    Owned (State.snap { s.clientGoto t (.wait id) with
        ingress := Function.update s.ingress accept (some id) })
      (Function.update loc id (.queued accept))
      (Function.update stack accept (id :: stack accept)) chain := by
  have hc : (loc id = .pushing ∧ Routed (s.reqs.opOf id) accept) ∧ s.reqs.nextOf id = head := by
    have := h.client t
    rwa [show s.snap.clients t = _ from hpc] at this
  have hid : (s.clients t).request = some id := by rw [hpc]; rfl
  have hok := h.ok id
  rw [hc.1.1] at hok
  refine ⟨hc.1.1, h.client_step (.wait id) (fun u hu => h.apart u t id hu hid)
    (fun j hj => Option.some.inj ((show (s.clients t).request = some j from hj).symm.trans hid)) rfl
    (fun j hj => (Option.some.inj hj).symm) (fun _ _ => Iff.rfl) (fun _ _ => rfl) (fun _ => rfl)
    (fun _ _ => rfl) (fun _ _ => rfl) (fun _ _ => rfl) rfl rfl rfl (by rw [hc.1.1]; rfl) rfl
    (fun r => ?_) ?_ (fun a => ?_) ?_ (by simp)⟩
  · rw [Loc.mark_of_place rfl]
    cases r with
    | queued a =>
        by_cases ha : a = accept
        · subst ha
          rw [only_self, add_comm, Multiset.singleton_add]
          simp [Snap.at, Snap.listAt, State.snap, State.clientGoto, Loc.item]
        · rw [only_of_ne (fun he => ha (Place.queued.inj he).symm), add_zero]
          simp [Snap.at, Snap.listAt, State.snap, State.clientGoto, ha]
    | _ => exact (add_zero _).symm
  · exact (hok.queued hc.1.2).mono Iff.rfl rfl rfl rfl fun _ => le_rfl
  · by_cases ha : a = accept
    · subst ha
      simp only [State.snap, State.clientGoto, Function.update_self, linked_cons, true_and]
      rw [hc.2, ← hh]
      exact h.stacked a
    · simp only [State.snap, State.clientGoto, Function.update_of_ne ha]
      exact h.stacked a
  · simp [ClientOk]

/-- `ReqCompletion::wait` sees `done`. -/
theorem Owned.waitDone (h : Owned s.snap loc stack chain) (hpc : s.clients t = .wait id)
    (hd : s.reqs.doneOf id = true) : Owned (s.clientGoto t (.take id)).snap loc stack chain := by
  have hc : (loc id ≠ .unborn ∧ loc id ≠ .pushing) ∧ ∀ v, loc id = .done v → s.reqs.valueOf id = v := by
    have := h.client t
    rwa [show s.snap.clients t = _ from hpc] at this
  obtain ⟨v, hloc⟩ := (h.ok id).done.mp hd
  refine h.client_stay (by rw [hpc]; rfl) (fun j hj => (Option.some.inj hj).symm) (by rw [hloc]; rfl)
    rfl rfl (fun _ _ => rfl) rfl (fun _ _ => rfl) ?_ fun _ => rfl
  show loc id = .done (s.reqs.valueOf id)
  rw [hc.2 v hloc, hloc]

/-- `ReqCompletion::wait` takes the value. -/
theorem Owned.take {hist : List (Event ClientOp (Option Bytes))} (h : Owned s.snap loc stack chain)
    (hpc : s.clients t = .take id) :
    loc id = .done (s.reqs.valueOf id) ∧
    Owned (State.snap { s.clientGoto t .idle with reqs := s.reqs.setValue id none, hist := hist })
      loc stack chain := by
  have hc : loc id = .done (s.reqs.valueOf id) := by
    have := h.client t
    rwa [show s.snap.clients t = _ from hpc] at this
  refine ⟨hc, h.client_stay (by rw [hpc]; rfl) nofun (by rw [hc]; rfl) (by simp) (by simp)
    (fun j _ => by simp) (by simp) (fun j hj => s.reqs.valueOf_setValue_of_ne (Ne.symm hj) _) trivial
    fun hp => ?_⟩
  rw [hc] at hp
  cases hp

end

end ZeroKv.Mesh.Service
