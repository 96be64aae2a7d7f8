import MiniRedis.Reference.Drift
import MiniRedis.Server.Apply
import MiniRedis.Server.Load

/-!
# Server — Expiring

Recovery of a store whose keys expire.  Expiry is not logged and a logged deadline starts again
when it is replayed, so at a given write the replay may still have a key that had expired, or
have lost one that had not.

* `expiring_recover`: the persistent keys are recovered if **every logged command that may create
  a key or make one persistent finds it there in both runs or in neither**.
* `stale_key_blocks`: otherwise a key that was written after it had expired can be lost.
-/

namespace MiniRedis.Server

open Protocol Store Cmd Reference

/-- The log of a run: the requests that are recorded, in order. -/
def logOf (exchanges : List (Value × Value)) : List Value :=
  (exchanges.filter fun x => recorded x.1 x.2).map Prod.fst

section Runs

variable (clock : Nat → Time) (order : Nat → RangeOrder)

/-- Along a run, from `db`, and the replay of its log, from `s`: at every logged command that may
create a key or make one persistent, the key is there in both stores or in neither. -/
def Agree : List Event → DB → DB × Nat → Prop
  | [], _, _ => True
  | .pass now start order' :: events, db, s =>
      Agree events (db.activeExpiryPass now start order').1 s
  | .request d :: events, db, s =>
      if recorded d.request (db.dispatch d.now d.order d.request).2 then
        (∀ key ∈ revives d.request,
          (db.keyspace d.now key).isSome = (s.1.keyspace (clock s.2) key).isSome) ∧
          Agree events (db.dispatch d.now d.order d.request).1 (redo clock order s d.request)
      else Agree events (db.dispatch d.now d.order d.request).1 s

instance : ∀ (events : List Event) (db : DB) (s : DB × Nat),
    Decidable (Agree clock order events db s)
  | [], _, _ => isTrue trivial
  | .pass now start order' :: events, db, s =>
      instDecidableAgree events (db.activeExpiryPass now start order').1 s
  | .request d :: events, db, _ =>
      have := instDecidableAgree events (db.dispatch d.now d.order d.request).1
      inferInstanceAs (Decidable (ite _ (_ ∧ Agree clock order events _ _) _))

variable {clock order}

/-- The two stores drift, at `t` and at the reading the replay is at. -/
def Drifts (clock : Nat → Time) (t : Time) (db : DB) (s : DB × Nat) : Prop :=
  (db.keyspace t).Drift (s.1.keyspace (clock s.2))

theorem Drifts.later {t u : Time} {db : DB} {s : DB × Nat} (h : Drifts clock t db s)
    (hu : t ≤ u) : Drifts clock u db s := by
  intro key
  rw [DB.keyspace_later hu, DB.keyspace_later (le_refl (clock s.2))]
  exact (h key).later u (clock s.2)

/-- An eviction changes nothing that is compared. -/
theorem Drifts.of_keyspace {t : Time} {db db' : DB} {s : DB × Nat} (h : Drifts clock t db s)
    (hsame : db'.keyspace t = db.keyspace t) : Drifts clock t db' s := by
  rw [Drifts, hsame]
  exact h

/-- A logged request, redone. -/
theorem Drifts.redo {d : Dispatched} {db : DB} {s : DB × Nat} (h : Drifts clock d.now db s)
    (hclock : Monotone clock)
    (hlive : ∀ key ∈ revives d.request,
      (db.keyspace d.now key).isSome = (s.1.keyspace (clock s.2) key).isSome) :
    Drifts clock d.now (db.dispatch d.now d.order d.request).1 (redo clock order s d.request) := by
  have hstep := Keyspace.Drift.effect h d.now (clock s.2) hlive
  rw [← DB.keyspace_dispatch d.now d.order, ← DB.keyspace_dispatch (clock s.2) (order s.2)] at hstep
  intro key
  have hle : clock s.2 ≤ clock (s.2 + 1) := hclock (Nat.le_succ _)
  rw [DB.keyspace_later (le_refl d.now)]
  change Cell.Drift _ ((s.1.dispatch _ _ _).1.keyspace (clock (s.2 + 1)) key)
  rw [DB.keyspace_later hle]
  exact (hstep key).later _ _

/-- **Along a run with nondecreasing readings the stores drift apart in deadlines only.** -/
theorem Drifts.run (hclock : Monotone clock) : ∀ (events : List Event) {t : Time} {db : DB}
    {s : DB × Nat}, Drifts clock t db s → (t :: events.map Event.now).Pairwise (· ≤ ·) →
      Agree clock order events db s →
      ∃ u, Drifts clock u (db.run events).1
        ((logOf (db.run events).2).foldl (Server.redo clock order) s)
  | [], t, _, _, h, _, _ => ⟨t, h⟩
  | .pass now start order' :: events, t, db, s, h, hnow, hagree => by
      obtain ⟨hle, hrest⟩ := List.pairwise_cons.1 hnow
      have hd := h.later (hle now List.mem_cons_self)
      have hr := DB.activeExpiryPass_reaped now start order' db
      have hsame := funext fun key => (hr (shardIndex key)).peek le_rfl key
      exact Drifts.run hclock events (hd.of_keyspace hsame) hrest hagree
  | .request d :: events, t, db, s, h, hnow, hagree => by
      obtain ⟨hle, hrest⟩ := List.pairwise_cons.1 hnow
      have hd := h.later (hle d.now List.mem_cons_self)
      simp only [Agree] at hagree
      by_cases hrec : recorded d.request (db.dispatch d.now d.order d.request).2 = true
      · rw [if_pos hrec] at hagree
        have hrun := Drifts.run hclock events (hd.redo hclock hagree.1) hrest hagree.2
        simpa [DB.run, logOf, hrec] using hrun
      · -- an unrecorded request leaves the keyspace as it was
        rw [if_neg hrec] at hagree
        have hsame :
            (db.dispatch d.now d.order d.request).1.keyspace d.now = db.keyspace d.now := by
          refine DB.dispatch_unrecorded ?_
          simpa [recorded, Decidable.imp_iff_not_or] using hrec
        have hrun := Drifts.run hclock events (hd.of_keyspace hsame) hrest hagree
        simpa [DB.run, logOf, hrec] using hrun

end Runs

/-- The exchanges of a run are those of its requests. -/
theorem exists_request_of_mem_run : ∀ (events : List Event) {db : DB} {x : Value × Value},
    x ∈ (db.run events).2 → ∃ d, .request d ∈ events ∧ d.request = x.1
  | .pass now start order :: events, db, x, h => by
      obtain ⟨d, hd, hx⟩ := exists_request_of_mem_run events h
      exact ⟨d, List.mem_cons_of_mem _ hd, hx⟩
  | .request d :: events, db, x, h => by
      rcases List.mem_cons.1 h with rfl | h
      · exact ⟨d, List.mem_cons_self, rfl⟩
      · obtain ⟨d', hd, hx⟩ := exists_request_of_mem_run events h
        exact ⟨d', List.mem_cons_of_mem _ hd, hx⟩

/-- **Recovery with expiring keys.**  Take any run of requests and reaper passes at nondecreasing
readings and the log of its recorded requests, and replay the log into an empty store at any
nondecreasing readings.  If every logged push, `HSET`, `SADD` and `PERSIST` finds its key there in
both runs or in neither, the replay returns no error and the recovered store has the same
persistent keys, with the same kinds and values. -/
theorem expiring_recover (events : List Event) (clock : Nat → Time) (order : Nat → RangeOrder)
    (hnow : (events.map Event.now).Pairwise (· ≤ ·)) (hclock : Monotone clock)
    (hdec : ∀ d, .request d ∈ events → Decoded d.request)
    (hagree : Agree clock order events DB.new (DB.new, 0)) :
    ∃ db, loadAOF clock order (some ((logOf (DB.new.run events).2).flatMap encode)) DB.new =
        (db, none) ∧
      ∀ t u key (e : Entry), e.expireAt = none →
        ((DB.new.run events).1.keyspace t key = some e ↔ db.keyspace u key = some e) := by
  have hwf : ∀ c ∈ logOf (DB.new.run events).2, c.WellFormed := by
    intro c hc
    obtain ⟨x, hx, rfl⟩ := List.mem_map.1 hc
    obtain ⟨d, hd, hx⟩ := exists_request_of_mem_run events (List.mem_filter.1 hx).1
    exact hx ▸ (hdec d hd).wellFormed
  have hload : loadAOF clock order (some (_ ++ [])) DB.new = _ :=
    loadAOF_frames DB.new hwf (.inl rfl)
  rw [List.append_nil] at hload
  refine ⟨_, hload, fun t u key e he => ?_⟩
  obtain ⟨t₀, ht₀⟩ := exists_reading_before hnow
  have hstart : Drifts clock t₀ DB.new (DB.new, 0) := fun _ => .absent
  obtain ⟨t₁, hend⟩ := hstart.run hclock events ht₀ hagree
  -- a persistent entry is there at every reading, so those of the two runs need not meet
  rw [DB.keyspace_persistent he t t₁, (hend key).persistent_iff he]
  exact DB.keyspace_persistent he _ u

/-- A key with a deadline that is made persistent in time. -/
def savedKey : List Event :=
  [.request ⟨0, .sorted, bulkCmd [txt "SET", txt "k", txt "v"]⟩,
    .request ⟨0, .sorted, bulkCmd [txt "PEXPIRE", txt "k", txt "50"]⟩,
    .request ⟨10000000, .sorted, bulkCmd [txt "PERSIST", txt "k"]⟩]

/-- A deadline that is cleared in time, and a replay much later. -/
theorem expiring_recover_savedKey :
    ∃ db, loadAOF (fun _ => 90000000) (fun _ => .sorted)
        (some ((logOf (DB.new.run savedKey).2).flatMap encode)) DB.new = (db, none) ∧
      ∀ t u key (e : Entry), e.expireAt = none →
        ((DB.new.run savedKey).1.keyspace t key = some e ↔ db.keyspace u key = some e) := by
  refine expiring_recover savedKey (fun _ => 90000000) (fun _ => .sorted) (by decide)
    monotone_const ?_ (by decide +kernel)
  intro d hd
  simp only [savedKey, List.mem_cons, List.not_mem_nil, or_false, Event.request.injEq] at hd
  rcases hd with rfl | rfl | rfl <;>
    exact decoded_iff.2 (bulkCmd_wellFormed (by decide) (by decide))

/-- A key that is written as a list after it has expired as a string. -/
def staleKey : List Event :=
  [.request ⟨0, .sorted, bulkCmd [txt "SET", txt "k", txt "v"]⟩,
    .request ⟨0, .sorted, bulkCmd [txt "PEXPIRE", txt "k", txt "1"]⟩,
    .request ⟨10000000, .sorted, bulkCmd [txt "RPUSH", txt "k", txt "a"]⟩]

/-- The replay gives the string another millisecond, meets it with the `RPUSH` and skips the
command: the list is lost, and the string is back. -/
theorem stale_key_blocks :
    (staleKey.map Event.now).Pairwise (· ≤ ·) ∧
      (∀ d, .request d ∈ staleKey → Decoded d.request) ∧
      (DB.new.run staleKey).2.map Prod.snd = [okValue, .integer 1, .integer 1] ∧
      (DB.new.run staleKey).1.keyspace 10000000 (txt "k") = some ⟨.list [txt "a"], none⟩ ∧
      (loadAOF (fun _ => 90000000) (fun _ => .sorted)
          (some ((logOf (DB.new.run staleKey).2).flatMap encode)) DB.new).2 = none ∧
      (loadAOF (fun _ => 90000000) (fun _ => .sorted)
          (some ((logOf (DB.new.run staleKey).2).flatMap encode)) DB.new).1.keyspace
            90000000 (txt "k") = some ⟨.str (txt "v"), some 91000000⟩ := by
  refine ⟨by decide, ?_, by decide +kernel, by decide +kernel, by decide +kernel,
    by decide +kernel⟩
  intro d hd
  simp only [staleKey, List.mem_cons, List.not_mem_nil, or_false, Event.request.injEq] at hd
  rcases hd with rfl | rfl | rfl <;>
    exact decoded_iff.2 (bulkCmd_wellFormed (by decide) (by decide))

end MiniRedis.Server
