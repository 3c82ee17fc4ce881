/-
# ZeroKv.Store.Recovery — what the log of a durable store is good for.

Four uses one would make of a write-ahead log, and exactly when each of them works here.  A restart
brings the contents back only if there were none, because `durable` never reads the log.  The log holds
every entry that can be read only if no put was refused, because `put` does not look at the result of
`append`.  The bytes of the log can be decoded only if the lengths of the frames are known, because a
frame has no length for its value.  The records determine the contents only if they are read together
with the deletes, because `delete` writes no record.
-/
import ZeroKv.Store.KvStore

namespace ZeroKv.Store

namespace KvStore

/-! ## Restart -/

/-- Drop the store and open the file again. -/
def reopen (s : KvStore) (walBytes : ℕ) : KvStore := durable s.file walBytes

/-- The frames are all there after a restart, in the buffer of the new log. -/
theorem walData_reopen {us : List Update} {walBytes walBytes' : ℕ} (hroom : HasRoom walBytes us)
    (hsize : walBytes ≤ walBytes') :
    ((((durable [] walBytes).run us).flush none).1.reopen walBytes').walData = (frames us).flatten := by
  obtain ⟨log, hlog, -, hdata, hcap, hfile⟩ := wal_run [] walBytes us (by simpa [HasRoom] using hroom)
  have hflush : (((durable [] walBytes).run us).flush none).1.file = (log.flush none).1.file := by
    rw [flush, hlog]
    rfl
  rw [reopen, hflush]
  show (MappedLog.open _ _).data = _
  rw [MappedLog.data_reopen (by simp [hfile]) (by rw [hcap]; exact roundUp_mono hsize), hdata,
    List.nil_append]

/-- A restart forgets everything: the new index is empty, whatever the log holds. -/
theorem get_reopen (s : KvStore) (walBytes : ℕ) (k : Bytes) : (s.reopen walBytes).get k = none := rfl

/-- **A restart loses the contents.**  After any puts into a new file, a flush and a reopening, the store
reads as before exactly if nothing was put; the room in the two logs does not matter. -/
theorem restart_iff (ps : List (Bytes × Bytes)) (walBytes walBytes' : ℕ) :
    (∀ k, ((((durable [] walBytes).run (putAll ps)).flush none).1.reopen walBytes').get k =
      ((durable [] walBytes).run (putAll ps)).get k) ↔ ps = [] := by
  have hget : ∀ k, ((durable [] walBytes).run (putAll ps)).get k = lastPut ps k := fun k => by
    simp [get_run]
  constructor
  · intro h
    refine List.eq_nil_iff_forall_not_mem.mpr fun p hp => ?_
    have hp' : lastPut ps p.1 ≠ none := (lastPut_ne_none ps p.1).mpr ⟨p, hp, rfl⟩
    exact hp' ((hget p.1).symm.trans ((h p.1).symm.trans (get_reopen ..)))
  · rintro rfl k
    rw [get_reopen, hget]
    rfl

/-- One put, flushed, is gone after the restart. -/
theorem restart_forgets_put :
    HasRoom 4096 (putAll [([1], [2])]) ∧
      (((durable [] 4096).run (putAll [([1], [2])])).flush none).2 = true ∧
      ¬ ∀ k, ((((durable [] 4096).run (putAll [([1], [2])])).flush none).1.reopen 4096).get k =
        ((durable [] 4096).run (putAll [([1], [2])])).get k := by
  refine ⟨by decide, rfl, fun h => ?_⟩
  have hget : ((durable [] 4096).run (putAll [([1], [2])])).get [1] = some [2] := by
    rw [get_run]
    rfl
  exact absurd ((h [1]).trans hget) (by rw [get_reopen]; simp)

/-! ## Write-ahead -/

/-- Every entry of the index has its frame in the log. -/
def WriteAhead (s : KvStore) : Prop := ∀ k v, s.get k = some v → frame k v ∈ s.records

/-- A put finds room for its frame, or an equal frame is in the log already. -/
def Covered (s : KvStore) : Update → Prop
  | .put key value => (∃ log, s.wal = some log ∧ log.len + (frame key value).length ≤ log.cap) ∨
      frame key value ∈ s.records
  | .delete _ => True

/-- A durable store keeps its log. -/
theorem wal_run_isSome (file : Bytes) (walBytes : ℕ) (us : List Update) :
    ∃ log, ((durable file walBytes).run us).wal = some log := by
  induction us using List.reverseRecOn with
  | nil => exact ⟨_, rfl⟩
  | append_singleton us u ih =>
      obtain ⟨log, hlog⟩ := ih
      rw [run_concat]
      cases u with
      | put key value => exact ⟨_, by rw [apply, put, hlog]; rfl⟩
      | delete key => exact ⟨log, hlog⟩

section WriteAhead

variable {s : KvStore} {key value : Bytes} {log : MappedLog}

theorem records_put_of_le (hlog : s.wal = some log)
    (hfit : log.len + (frame key value).length ≤ log.cap) :
    (s.put key value).1.records = s.records ++ [frame key value] := by
  simp only [records, put, hlog, Option.map_some, MappedLog.append_of_le hfit, Option.getD_some,
    MappedLog.records_push]

theorem records_put_of_lt (hlog : s.wal = some log)
    (hfull : log.cap < log.len + (frame key value).length) :
    (s.put key value).1.records = s.records := by
  simp only [records, put, hlog, Option.map_some, MappedLog.append_of_lt hfull]

/-- After a put the log holds its frame exactly if the put was covered. -/
theorem frame_mem_records_put (hlog : s.wal = some log) :
    frame key value ∈ (s.put key value).1.records ↔ s.Covered (.put key value) := by
  rcases le_or_gt (log.len + (frame key value).length) log.cap with hfit | hfull
  · rw [records_put_of_le hlog hfit]
    exact iff_of_true (List.mem_append_right _ (List.mem_singleton_self _)) (.inl ⟨log, hlog, hfit⟩)
  · rw [records_put_of_lt hlog hfull]
    refine ⟨.inr, ?_⟩
    rintro (⟨log', hlog', hfit⟩ | hmem)
    · obtain rfl : log = log' := Option.some.inj (hlog.symm.trans hlog')
      exact absurd hfit (Nat.not_le.mpr hfull)
    · exact hmem

/-- No record is ever lost. -/
theorem records_subset_put (hlog : s.wal = some log) :
    s.records ⊆ (s.put key value).1.records := by
  rcases le_or_gt (log.len + (frame key value).length) log.cap with hfit | hfull
  · rw [records_put_of_le hlog hfit]
    exact List.subset_append_left _ _
  · rw [records_put_of_lt hlog hfull]
    exact List.Subset.refl _

/-- A covered update keeps every entry in the log. -/
theorem WriteAhead.apply (h : s.WriteAhead) (hlog : s.wal = some log) {u : Update}
    (hu : s.Covered u) : (s.apply u).WriteAhead := by
  intro k v hv
  cases u with
  | put key value =>
      by_cases hk : k = key
      · subst hk
        obtain rfl : value = v := Option.some.inj ((Finmap.lookup_insert s.index).symm.trans hv)
        exact (frame_mem_records_put hlog).mpr hu
      · exact records_subset_put hlog (h k v ((Finmap.lookup_insert_of_ne s.index hk).symm.trans hv))
  | delete key =>
      have hne : k ≠ key := by
        rintro rfl
        exact absurd ((Finmap.lookup_erase k s.index).symm.trans hv) (by simp)
      exact h k v ((Finmap.lookup_erase_ne hne).symm.trans hv)

end WriteAhead

/-- **When the log is ahead of the index.**  In every state of a history the log holds the frame of every
entry, exactly if every put found room for its frame or an equal frame in the log. -/
theorem writeAhead_iff (file : Bytes) (walBytes : ℕ) (us : List Update) :
    (∀ pre, pre <+: us → ((durable file walBytes).run pre).WriteAhead) ↔
      ∀ pre u, pre ++ [u] <+: us → ((durable file walBytes).run pre).Covered u := by
  constructor
  · intro h pre u hpre
    obtain ⟨log, hlog⟩ := wal_run_isSome file walBytes pre
    cases u with
    | delete key => trivial
    | put key value =>
        have hahead := h _ hpre
        rw [run_concat] at hahead
        exact (frame_mem_records_put hlog).mp (hahead key value (Finmap.lookup_insert _))
  · intro h pre
    induction pre using List.reverseRecOn with
    | nil => exact fun _ k v hv => absurd hv (by simp [run, durable, get])
    | append_singleton pre u ih =>
        intro hpre
        obtain ⟨log, hlog⟩ := wal_run_isSome file walBytes pre
        rw [run_concat]
        exact (ih ((List.prefix_append _ _).trans hpre)).apply hlog (h pre u hpre)

/-- A put whose frame is larger than the whole log can be read, and is not in the log. -/
theorem refused_put_visible :
    ¬ ∀ pre, pre <+: [Update.put [1] (List.replicate 4096 0)] →
      ((durable [] 4096).run pre).WriteAhead := by
  intro h
  have hlog : (durable [] 4096).wal = some (.open [] 4096) := rfl
  have hfull : (MappedLog.open [] 4096).cap <
      (MappedLog.open [] 4096).len + (frame [1] (List.replicate 4096 0)).length := by
    rw [MappedLog.cap_open, length_frame, List.length_replicate]
    decide
  have hmem := h _ (List.prefix_refl _) [1] (List.replicate 4096 0) (Finmap.lookup_insert _)
  rw [show (durable [] 4096).run [Update.put [1] (List.replicate 4096 0)] =
    ((durable [] 4096).put [1] (List.replicate 4096 0)).1 from rfl,
    records_put_of_lt hlog hfull] at hmem
  exact absurd hmem (List.not_mem_nil)

/-! ## Decoding the bytes -/

/-- The frames determine the puts, as long as the lengths of the keys fit in their field. -/
theorem puts_eq_of_frames {ps qs : List (Bytes × Bytes)} (hps : ∀ p ∈ ps, p.1.length < 2 ^ 32)
    (hqs : ∀ p ∈ qs, p.1.length < 2 ^ 32)
    (h : (ps.map fun p => frame p.1 p.2) = qs.map fun p => frame p.1 p.2) : ps = qs := by
  induction ps generalizing qs with
  | nil => exact (List.map_eq_nil_iff.mp h.symm).symm
  | cons p ps ih =>
      cases qs with
      | nil => exact absurd h (by simp)
      | cons q qs =>
          obtain ⟨hpq, hrest⟩ := List.cons.inj h
          obtain ⟨hk, hv⟩ := frame_inj (hps p List.mem_cons_self) (hqs q List.mem_cons_self) hpq
          rw [ih (fun p hp => hps p (List.mem_cons_of_mem _ hp))
            (fun q hq => hqs q (List.mem_cons_of_mem _ hq)) hrest, Prod.ext hk hv]

/-- What puts into a new file leave in the buffer. -/
theorem walData_putAll {ps : List (Bytes × Bytes)} {walBytes : ℕ} (hroom : HasRoom walBytes (putAll ps)) :
    ((durable [] walBytes).run (putAll ps)).walData = (ps.map fun p => frame p.1 p.2).flatten := by
  obtain ⟨log, hlog, -, hdata, -, -⟩ := wal_run [] walBytes (putAll ps) (by simpa [HasRoom] using hroom)
  rw [walData, hlog, Option.map_some, Option.getD_some, hdata, List.nil_append, frames, puts_putAll]

/-- **When the bytes of the log can be decoded.**  Two sequences of puts that leave the same bytes are
the same exactly if their frames have the same lengths. -/
theorem decodable_iff {ps qs : List (Bytes × Bytes)} {walBytes walBytes' : ℕ}
    (hps : ∀ p ∈ ps, p.1.length < 2 ^ 32) (hqs : ∀ p ∈ qs, p.1.length < 2 ^ 32)
    (hroom : HasRoom walBytes (putAll ps)) (hroom' : HasRoom walBytes' (putAll qs))
    (hdata : ((durable [] walBytes).run (putAll ps)).walData =
      ((durable [] walBytes').run (putAll qs)).walData) :
    ps = qs ↔ ps.map (fun p => 4 + p.1.length + p.2.length) =
      qs.map fun p => 4 + p.1.length + p.2.length := by
  rw [walData_putAll hroom, walData_putAll hroom'] at hdata
  constructor
  · rintro rfl
    rfl
  · intro hlen
    refine puts_eq_of_frames hps hqs (List.eq_iff_flatten_eq.mpr ⟨hdata, ?_⟩)
    simpa [Function.comp_def] using hlen

/-- One put whose value ends in a frame, and the two puts it looks like. -/
theorem two_puts_look_like_one :
    HasRoom 4096 (putAll [([1], frame [2] [3])]) ∧ HasRoom 4096 (putAll [([1], []), ([2], [3])]) ∧
      ((durable [] 4096).run (putAll [([1], frame [2] [3])])).walData =
        ((durable [] 4096).run (putAll [([1], []), ([2], [3])])).walData ∧
      [(([1] : Bytes), frame [2] [3])] ≠ [([1], []), ([2], [3])] := by
  refine ⟨by decide, by decide, ?_, by simp⟩
  rw [walData_putAll (by decide), walData_putAll (by decide)]
  decide

/-- The puts of the last result differ, and so do the lengths of their frames.  Two puts into logs of
different sizes leave the same bytes, with frames of the same lengths. -/
theorem decodable_iff_sample :
    (([(([1] : Bytes), frame [2] [3])] = [([1], []), ([2], [3])] ↔
        [(([1] : Bytes), frame [2] [3])].map (fun p => 4 + p.1.length + p.2.length) =
          [(([1] : Bytes), []), ([2], [3])].map fun p => 4 + p.1.length + p.2.length) ∧
      [(([1] : Bytes), frame [2] [3])] ≠ [([1], []), ([2], [3])]) ∧
    ([(([1] : Bytes), ([8, 9] : Bytes)), ([2], [3])].map (fun p => 4 + p.1.length + p.2.length) = [7, 6] ∧
      ([(([1] : Bytes), ([8, 9] : Bytes)), ([2], [3])] = [([1], [8, 9]), ([2], [3])] ↔
        [(([1] : Bytes), ([8, 9] : Bytes)), ([2], [3])].map (fun p => 4 + p.1.length + p.2.length) =
          [7, 6])) := by
  have hdiffer : ((durable [] 4096).run (putAll [([1], frame [2] [3])])).walData =
      ((durable [] 8192).run (putAll [([1], []), ([2], [3])])).walData := by
    rw [walData_putAll (by decide), walData_putAll (by decide)]
    decide
  have hsame : ((durable [] 4096).run (putAll [([1], [8, 9]), ([2], [3])])).walData =
      ((durable [] 8192).run (putAll [([1], [8, 9]), ([2], [3])])).walData := by
    rw [walData_putAll (by decide), walData_putAll (by decide)]
  exact ⟨⟨decodable_iff (by decide) (by decide) (by decide) (by decide) hdiffer, by simp⟩, rfl,
    decodable_iff (by decide) (by decide) (by decide) (by decide) hsame⟩

/-! ## Replaying the records -/

/-- What a history leaves in the log. -/
theorem records_eq_frames {us : List Update} {walBytes : ℕ} (hroom : HasRoom walBytes us) :
    ((durable [] walBytes).run us).records = frames us := by
  obtain ⟨log, hlog, hrec, -⟩ := wal_run [] walBytes us (by simpa [HasRoom] using hroom)
  rw [records, hlog, Option.map_some, Option.getD_some, hrec]

/-- **When the records determine the contents.**  Two histories with the same records leave the same
contents exactly if, of the keys that were put, they leave the same ones deleted. -/
theorem contents_iff {us us' : List Update} {walBytes walBytes' : ℕ}
    (hkeys : ∀ p ∈ puts us, p.1.length < 2 ^ 32) (hkeys' : ∀ p ∈ puts us', p.1.length < 2 ^ 32)
    (hroom : HasRoom walBytes us) (hroom' : HasRoom walBytes' us')
    (hrec : ((durable [] walBytes).run us).records = ((durable [] walBytes').run us').records) :
    (∀ k, ((durable [] walBytes).run us).get k = ((durable [] walBytes').run us').get k) ↔
      ∀ p ∈ puts us, deletedLast us p.1 = deletedLast us' p.1 := by
  rw [records_eq_frames hroom, records_eq_frames hroom'] at hrec
  have hputs : puts us = puts us' := puts_eq_of_frames hkeys hkeys' hrec
  simp only [get_run, ← hputs]
  constructor
  · intro h p hp
    have hp' : lastPut (puts us) p.1 ≠ none := (lastPut_ne_none _ _).mpr ⟨p, hp, rfl⟩
    have hk := h p.1
    cases hd : deletedLast us p.1 <;> cases hd' : deletedLast us' p.1 <;> simp_all
  · intro h k
    by_cases hk : lastPut (puts us) k = none
    · simp [hk]
    · obtain ⟨p, hp, rfl⟩ := (lastPut_ne_none _ _).mp hk
      rw [h p hp]

/-- A put with and without a delete after it: the same records, different contents. -/
theorem delete_leaves_no_record :
    HasRoom 4096 [.put [1] [2]] ∧ HasRoom 4096 [.put [1] [2], .delete [1]] ∧
      ((durable [] 4096).run [.put [1] [2]]).records =
        ((durable [] 4096).run [.put [1] [2], .delete [1]]).records ∧
      ¬ ∀ k, ((durable [] 4096).run [.put [1] [2]]).get k =
        ((durable [] 4096).run [.put [1] [2], .delete [1]]).get k := by
  refine ⟨by decide, by decide, ?_, fun h => ?_⟩
  · rw [records_eq_frames (by decide), records_eq_frames (by decide)]
    rfl
  · have hk := h [1]
    rw [get_run, get_run] at hk
    exact absurd hk (by decide)

theorem contents_iff_sample :
    ¬ ∀ k, ((durable [] 4096).run [.put [7] [8]]).get k =
      ((durable [] 4096).run [.put [7] [8], .delete [7]]).get k := by
  intro h
  have := (contents_iff (by decide) (by decide) (by decide) (by decide) (by
    rw [records_eq_frames (by decide), records_eq_frames (by decide)]
    rfl)).mp h
  exact absurd this (by decide)

end KvStore

end ZeroKv.Store
