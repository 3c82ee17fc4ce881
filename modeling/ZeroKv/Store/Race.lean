/-
# ZeroKv.Store.Race — concurrent puts, and whether log and index agree on the last writer.

`put` does two things one after the other, the append under the lock of the log and the insert into the
index.  Each is one step here; any number of threads put any keys and values.  Two puts of one key that
overlap can be ordered one way in the log and the other way in the index.  If a put never appends while
another put of its key is between its two steps, log and index agree on every key whenever all calls have
returned.

`logged` is a history variable: the puts in the order of their appends.
-/
import ZeroKv.Lib.Threads
import ZeroKv.Store.KvStore

namespace ZeroKv.Store

/-- The first step of `put`. -/
def KvStore.appendFrame (s : KvStore) (key value : Bytes) : KvStore :=
  { s with wal := s.wal.map fun log => (log.append (frame key value)).1 }

/-- The second step of `put`. -/
def KvStore.insertIndex (s : KvStore) (key value : Bytes) : KvStore :=
  { s with index := s.index.insert key value }

/-- Without interruption the two steps are a put. -/
theorem KvStore.put_eq (s : KvStore) (key value : Bytes) :
    (s.put key value).1 = (s.appendFrame key value).insertIndex key value := rfl

namespace Race

/-- What the threads share. -/
structure Shared where
  store : KvStore
  logged : List (Bytes × Bytes)

/-- A thread is outside `put`, or between its two steps. -/
inductive Pc
  | idle
  | appended (key value : Bytes)
deriving DecidableEq

/-- What a thread does next: begin a put, or finish the one it has begun. -/
inductive Choice
  | put (key value : Bytes)
  | run
deriving DecidableEq

def step (m : Shared) : Pc → Choice → Option (Shared × Pc)
  | .idle, .put key value =>
      some ({ store := m.store.appendFrame key value, logged := m.logged ++ [(key, value)] },
        .appended key value)
  | .appended key value, .run => some ({ m with store := m.store.insertIndex key value }, .idle)
  | _, _ => none

/-- The puts of all threads on one durable store. -/
def threads (file : Bytes) (walBytes : ℕ) : Threads Shared Pc Choice where
  mem := { store := .durable file walBytes, logged := [] }
  loc := .idle
  step := step

variable {τ : Type} [DecidableEq τ] {file : Bytes} {walBytes : ℕ}

/-- A put finds room for its frame. -/
def Fits (s : Config τ Shared Pc) : τ × Choice → Prop
  | (_, .put key value) =>
      ∀ log ∈ s.mem.store.wal, log.len + (frame key value).length ≤ log.cap
  | (_, .run) => True

/-- No other put of the same key is between its two steps. -/
def Alone (s : Config τ Shared Pc) : τ × Choice → Prop
  | (_, .put key _) => ∀ t value, s.loc t ≠ .appended key value
  | (_, .run) => True

/-! ## What holds along a run -/

/-- The log holds the frames of the puts, in the order of `logged`. -/
structure Logged (m : Shared) : Prop where
  wal : ∃ log, m.store.wal = some log
  records_eq : m.store.records = m.logged.map fun p => frame p.1 p.2

/-- Log and index agree, up to the puts that are between their two steps. -/
structure Agree (s : Config τ Shared Pc) : Prop where
  /-- A put that is under way is the last of its key in the log. -/
  pending : ∀ t key value, s.loc t = .appended key value → lastPut s.mem.logged key = some value
  /-- At most one put of a key is under way. -/
  single : ∀ t u key value value', s.loc t = .appended key value → s.loc u = .appended key value' → t = u
  settled : ∀ key, (∀ t value, s.loc t ≠ .appended key value) →
    s.mem.store.get key = lastPut s.mem.logged key

section Steps

variable {s : Config τ Shared Pc} {t : τ} {key value : Bytes}

theorem Logged.append {m : Shared} (h : Logged m)
    (hfit : ∀ log ∈ m.store.wal, log.len + (frame key value).length ≤ log.cap) :
    Logged { store := m.store.appendFrame key value, logged := m.logged ++ [(key, value)] } := by
  obtain ⟨log, hlog⟩ := h.wal
  have hwal : (m.store.appendFrame key value).wal = some (log.push (frame key value)) := by
    rw [KvStore.appendFrame, hlog, Option.map_some, MappedLog.append_of_le (hfit log hlog)]
  have hrec : log.records = m.logged.map fun p => frame p.1 p.2 := by
    have := h.records_eq
    rwa [KvStore.records, hlog] at this
  refine ⟨⟨_, hwal⟩, ?_⟩
  rw [KvStore.records, hwal, Option.map_some, Option.getD_some, MappedLog.records_push, hrec,
    List.map_append]
  rfl

/-- A put begins. -/
theorem Agree.append (h : Agree s) (hidle : s.loc t = .idle)
    (halone : ∀ t value, s.loc t ≠ .appended key value) :
    Agree { mem := { store := s.mem.store.appendFrame key value
                     logged := s.mem.logged ++ [(key, value)] }
            loc := Function.update s.loc t (.appended key value) } := by
  -- the only put of this key that is under way is the one that begins
  have hother : ∀ u k v, Function.update s.loc t (.appended key value) u = .appended k v →
      u = t ∧ k = key ∧ v = value ∨ k ≠ key ∧ s.loc u = .appended k v := by
    intro u k v hu
    rcases eq_or_ne u t with rfl | hne
    · rw [Function.update_self, Pc.appended.injEq] at hu
      exact .inl ⟨rfl, hu.1.symm, hu.2.symm⟩
    · rw [Function.update_of_ne hne] at hu
      refine .inr ⟨?_, hu⟩
      rintro rfl
      exact halone u v hu
  refine { pending := ?_, single := ?_, settled := ?_ }
  · intro u k v hu
    show lastPut (s.mem.logged ++ [(key, value)]) k = _
    rw [lastPut_concat]
    rcases hother u k v hu with ⟨-, rfl, rfl⟩ | ⟨hne, hu⟩
    · rw [if_pos rfl]
    · rw [if_neg (Ne.symm hne)]
      exact h.pending u k v hu
  · intro u u' k v v' hu hu'
    rcases hother u k v hu with ⟨rfl, rfl, -⟩ | ⟨hne, hu⟩
    · rcases hother u' k v' hu' with ⟨rfl, -⟩ | ⟨hne, -⟩
      · rfl
      · exact absurd rfl hne
    · rcases hother u' k v' hu' with ⟨-, rfl, -⟩ | ⟨-, hu'⟩
      · exact absurd rfl hne
      · exact h.single u u' k v v' hu hu'
  · intro k hk
    have hne : key ≠ k := by
      rintro rfl
      exact hk t value (Function.update_self ..)
    show s.mem.store.get k = lastPut (s.mem.logged ++ [(key, value)]) k
    rw [lastPut_concat, if_neg hne]
    refine h.settled k fun u v hu => hk u v ?_
    have hut : u ≠ t := by
      rintro rfl
      rw [hidle] at hu
      cases hu
    exact (Function.update_of_ne hut _ _).trans hu

/-- A put ends. -/
theorem Agree.insert (h : Agree s) (hloc : s.loc t = .appended key value) :
    Agree { mem := { store := s.mem.store.insertIndex key value, logged := s.mem.logged }
            loc := Function.update s.loc t .idle } := by
  have hold : ∀ u k v, Function.update s.loc t Pc.idle u = .appended k v →
      u ≠ t ∧ s.loc u = .appended k v := by
    intro u k v hu
    rcases eq_or_ne u t with rfl | hne
    · rw [Function.update_self] at hu
      cases hu
    · exact ⟨hne, by rwa [Function.update_of_ne hne] at hu⟩
  refine { pending := fun u k v hu => h.pending u k v (hold u k v hu).2
           single := fun u u' k v v' hu hu' =>
             h.single u u' k v v' (hold u k v hu).2 (hold u' k v' hu').2
           settled := fun k hk => ?_ }
  show Finmap.lookup k (s.mem.store.index.insert key value) = lastPut s.mem.logged k
  rcases eq_or_ne k key with rfl | hne
  · rw [Finmap.lookup_insert, h.pending t k value hloc]
  · rw [Finmap.lookup_insert_of_ne _ hne]
    refine h.settled k fun u v hu => hk u v ?_
    have hut : u ≠ t := by
      rintro rfl
      rw [hloc, Pc.appended.injEq] at hu
      exact hne hu.1.symm
    exact (Function.update_of_ne hut _ _).trans hu

end Steps

/-- One step of a thread. -/
theorem step_cases {s s' : Config τ Shared Pc} {t : τ} {a : Choice}
    (hst : (threads file walBytes).stepOf s (t, a) = some s') :
    (∃ key value, a = .put key value ∧ s.loc t = .idle ∧
      s' = { mem := { store := s.mem.store.appendFrame key value
                      logged := s.mem.logged ++ [(key, value)] }
             loc := Function.update s.loc t (.appended key value) }) ∨
    ∃ key value, a = .run ∧ s.loc t = .appended key value ∧
      s' = { mem := { store := s.mem.store.insertIndex key value, logged := s.mem.logged }
             loc := Function.update s.loc t .idle } := by
  obtain ⟨m, l, hml, rfl⟩ := Threads.stepOf_eq_some.mp hst
  change step s.mem (s.loc t) a = some (m, l) at hml
  match hpc : s.loc t, a, hml with
  | .idle, .put key value, hml =>
      obtain ⟨rfl, rfl⟩ := Prod.mk.inj (Option.some.inj hml)
      exact .inl ⟨key, value, rfl, rfl, rfl⟩
  | .appended key value, .run, hml =>
      obtain ⟨rfl, rfl⟩ := Prod.mk.inj (Option.some.inj hml)
      exact .inr ⟨key, value, rfl, rfl, rfl⟩

/-- In every run with room for all frames the log is the record of the appends. -/
theorem logged_of_reachable {P : Config τ Shared Pc → τ × Choice → Prop} {s : Config τ Shared Pc}
    (hP : ∀ s l, P s l → Fits s l)
    (hs : (((threads file walBytes).machine τ).restrict P).Reachable s) : Logged s.mem := by
  refine hs.invariant (I := fun s => Logged s.mem) ?_ ?_
  · rintro s rfl
    exact ⟨⟨_, rfl⟩, rfl⟩
  · rintro s ⟨t, a⟩ s' - h ⟨hfit, hst⟩
    rcases step_cases hst with ⟨key, value, rfl, -, rfl⟩ | ⟨key, value, -, -, rfl⟩
    · exact h.append (hP _ _ hfit)
    · exact ⟨h.wal, h.records_eq⟩

theorem agree_of_reachable {P : Config τ Shared Pc → τ × Choice → Prop} {s : Config τ Shared Pc}
    (hP : ∀ s l, P s l → Alone s l)
    (hs : (((threads file walBytes).machine τ).restrict P).Reachable s) : Agree s := by
  refine hs.invariant ?_ ?_
  · rintro s rfl
    exact { pending := nofun, single := nofun, settled := fun _ _ => rfl }
  · rintro s ⟨t, a⟩ s' - h ⟨halone, hst⟩
    rcases step_cases hst with ⟨key, value, rfl, hidle, rfl⟩ | ⟨key, value, -, hloc, rfl⟩
    · exact h.append hidle (hP _ _ halone)
    · exact h.insert hloc

/-! ## The last writer -/

/-- **Log and index agree on the last writer.**  In every run with room for all frames in which no put
appends while another put of its key is under way: once all calls have returned, the log holds the
frames of the puts in some order, and the index has, for every key, the value of its last frame. -/
theorem last_writer_agrees {s : Config τ Shared Pc}
    (hs : (((threads file walBytes).machine τ).restrict fun s l => Fits s l ∧ Alone s l).Reachable s)
    (hdone : ∀ t, s.loc t = .idle) :
    s.mem.store.records = (s.mem.logged.map fun p => frame p.1 p.2) ∧
      ∀ key, s.mem.store.get key = lastPut s.mem.logged key := by
  refine ⟨(logged_of_reachable (fun _ _ h => h.1) hs).records_eq, fun key => ?_⟩
  refine (agree_of_reachable (fun _ _ h => h.2) hs).settled key fun t value hv => ?_
  rw [hdone] at hv
  cases hv

section Schedules

variable {P : Config τ Shared Pc → τ × Choice → Prop} {s : Config τ Shared Pc}

/-- Let an idle thread begin a put. -/
theorem reachable_put (hs : (((threads file walBytes).machine τ).restrict P).Reachable s) (t : τ)
    (key value : Bytes) (hloc : s.loc t = .idle) (hP : P s (t, .put key value)) :
    (((threads file walBytes).machine τ).restrict P).Reachable
      { mem := { store := s.mem.store.appendFrame key value, logged := s.mem.logged ++ [(key, value)] }
        loc := Function.update s.loc t (.appended key value) } :=
  hs.next ⟨hP, Threads.stepOf_eq_some.mpr ⟨_, _, by rw [hloc]; rfl, rfl⟩⟩

/-- Let a thread finish its put. -/
theorem reachable_run (hs : (((threads file walBytes).machine τ).restrict P).Reachable s) (t : τ)
    {key value : Bytes} (hloc : s.loc t = .appended key value) (hP : P s (t, .run)) :
    (((threads file walBytes).machine τ).restrict P).Reachable
      { mem := { store := s.mem.store.insertIndex key value, logged := s.mem.logged }
        loc := Function.update s.loc t .idle } :=
  hs.next ⟨hP, Threads.stepOf_eq_some.mpr ⟨_, _, by rw [hloc]; rfl, rfl⟩⟩

end Schedules

/-- Two short frames fit in a log of one page. -/
theorem fits_first : ∀ log ∈ (KvStore.durable [] 4096).wal, log.len + (frame [7] [1]).length ≤ log.cap := by
  intro log hlog
  rw [KvStore.durable, Option.mem_some_iff] at hlog
  rw [← hlog, MappedLog.cap_open, length_frame]
  decide

theorem fits_second : ∀ log ∈ ((KvStore.durable [] 4096).appendFrame [7] [1]).wal,
    log.len + (frame [7] [2]).length ≤ log.cap := by
  intro log hlog
  have hfit := fits_first _ rfl
  rw [KvStore.appendFrame, KvStore.durable, Option.map_some, Option.mem_some_iff,
    MappedLog.append_of_le hfit] at hlog
  rw [← hlog, MappedLog.cap_push hfit, MappedLog.cap_open, length_frame]
  decide

/-- Two puts of one key overlap: thread `false` appends first and inserts last. -/
theorem last_writer_disagrees :
    ∃ s : Config Bool Shared Pc,
      (((threads [] 4096).machine Bool).restrict Fits).Reachable s ∧ (∀ t, s.loc t = .idle) ∧
      s.mem.store.records = [frame [7] [1], frame [7] [2]] ∧ s.mem.store.get [7] = some [1] := by
  have h₀ : (((threads [] 4096).machine Bool).restrict Fits).Reachable
      { mem := (threads [] 4096).mem, loc := fun _ => .idle } := .start rfl
  have h₁ := reachable_put h₀ false [7] [1] rfl fits_first
  have h₂ := reachable_put h₁ true [7] [2] rfl fits_second
  have h₃ := reachable_run h₂ true rfl trivial
  have h₄ := reachable_run h₃ false rfl trivial
  refine ⟨_, h₄, ?_, (logged_of_reachable (fun _ _ h => h) h₄).records_eq, rfl⟩
  intro t
  cases t <;> rfl

/-- The same two puts one after the other. -/
theorem last_writer_agrees_sample :
    ∃ s : Config Bool Shared Pc,
      (((threads [] 4096).machine Bool).restrict fun s l => Fits s l ∧ Alone s l).Reachable s ∧
      s.mem.store.records = [frame [7] [1], frame [7] [2]] ∧ s.mem.store.get [7] = some [2] := by
  have h₀ : (((threads [] 4096).machine Bool).restrict fun s l => Fits s l ∧ Alone s l).Reachable
      { mem := (threads [] 4096).mem, loc := fun _ => .idle } := .start rfl
  have h₁ := reachable_put h₀ false [7] [1] rfl ⟨fits_first, nofun⟩
  have h₂ := reachable_run h₁ false rfl ⟨trivial, trivial⟩
  have h₃ := reachable_put h₂ true [7] [2] rfl ⟨fits_second, by
    intro t value
    cases t <;> exact nofun⟩
  have h₄ := reachable_run h₃ true rfl ⟨trivial, trivial⟩
  obtain ⟨hrec, hget⟩ := last_writer_agrees h₄ (by intro t; cases t <;> rfl)
  exact ⟨_, h₄, hrec, hget [7]⟩

end Race

end ZeroKv.Store
