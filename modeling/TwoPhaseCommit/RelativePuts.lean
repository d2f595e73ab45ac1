import TwoPhaseCommit.Interpreter

/-! Relative puts as increments of integers: the int64 values that the committed transactions of a
cohort leave, against the same commands on integers. -/
namespace TwoPhaseCommit.CohortServer
open Cohort Database
open KeyValue (AddsTo Sums mapStore)

def committedCommands (xs : List (String × Action)) : List (KeyValue.Command String Int64) :=
  (committed xs).flatMap fun r => r.transaction.ops.map command

def InInt64 (n : ℤ) : Prop := -2 ^ 63 ≤ n ∧ n < 2 ^ 63

/-- On integers, no sum of the committed transactions leaves int64. -/
def SumsFit (store : Store String) (xs : List (String × Action)) : Prop :=
  Sums (fun a b : ℤ => InInt64 (a + b)) (mapStore Int64.toInt store)
    ((committedCommands xs).map (.map Int64.toInt))

/-- The committed relative puts are increments of integers. -/
structure ExactIncrements (store : Store String) (xs : List (String × Action))
    (final : Store String) : Prop where
  stored : ∃ values, KeyValue.run store (committedCommands xs) = some (final, values)
  each : ∀ cur k amount default v, AddsTo store (committedCommands xs) cur k amount default v →
    ∃ after, (KeyValue.Command.add k amount default).step cur = some (after, []) ∧
      (after k).map Int64.toInt = some (v.toInt + amount.toInt)
  noOverflow : ∀ cur k amount default v,
    AddsTo store (committedCommands xs) cur k amount default v → InInt64 (v.toInt + amount.toInt)
  total : ∀ k v, store k = some v → (∀ c ∈ committedCommands xs, ¬c.Sets k) →
    (final k).map Int64.toInt =
      some (v.toInt + ((committedCommands xs).map fun c => (c.map Int64.toInt).amountOn k).sum)

theorem toInt_add_iff (a b : Int64) : (a + b).toInt = a.toInt + b.toInt ↔
    InInt64 (a.toInt + b.toInt) := by
  constructor
  · intro h
    rw [← h]
    exact ⟨Int64.le_toInt _, Int64.toInt_lt _⟩
  · intro h
    rw [Int64.toInt_add]
    exact Int.bmod_eq_of_le h.1 h.2

theorem run_of_serialRun {absent : Status} {store store' : Store String}
    {lists : List (List Operation)} {responses : List (List GetResponse)}
    (h : serialRun (Access.cohort absent) store lists = .ok (store', responses)) :
    ∃ values, KeyValue.run store (lists.flatMap fun ops => ops.map command) =
      some (store', values) := by
  induction lists generalizing store responses with
  | nil =>
    cases h
    exact ⟨[], rfl⟩
  | cons ops lists ih =>
    rw [serialRun] at h
    obtain ⟨r, hr, hinterpret⟩ | ⟨hfail, _⟩ := execute_cases absent store ops
    · simp only [hr] at h
      cases hrest : serialRun (Access.cohort absent) r.1 lists with
      | error status =>
        simp only [hrest] at h
        cases h
      | ok r' =>
        simp only [hrest] at h
        cases h
        obtain ⟨values, hvalues⟩ := ih hrest
        obtain ⟨r₀, hrun, rfl⟩ := Option.map_eq_some_iff.mp hinterpret
        refine ⟨r₀.2 ++ values, ?_⟩
        rw [List.flatMap_cons, KeyValue.run_append, hrun, Option.bind_some, hvalues, Option.map_some]
    · simp only [hfail] at h
      cases h

/-- Where all sums are exact, a key that is only added to ends at its first value and the sum of
what was added. -/
theorem total_of_sums {store : Store String} {cs : List (KeyValue.Command String Int64)}
    {r : Store String × List Int64} {k : String} {v : Int64}
    (hsums : Sums (fun a b : Int64 => (a + b).toInt = a.toInt + b.toInt) store cs)
    (hrun : KeyValue.run store cs = some r) (hk : ∀ c ∈ cs, ¬c.Sets k) (hv : store k = some v) :
    (r.1 k).map Int64.toInt =
      some (v.toInt + (cs.map fun c => (c.map Int64.toInt).amountOn k).sum) := by
  have hmapped := KeyValue.run_map hsums
  rw [hrun, Option.map_some] at hmapped
  have hnone : ∀ c' ∈ cs.map (KeyValue.Command.map Int64.toInt), ¬c'.Sets k := by
    intro c' hc'
    obtain ⟨c, hc, rfl⟩ := List.mem_map.mp hc'
    have hset := hk c hc
    cases c <;> exact hset
  have hfirst : mapStore Int64.toInt store k = some v.toInt := by
    rw [KeyValue.mapStore_apply, hv, Option.map_some]
  have hbalance := KeyValue.run_balance hmapped hnone hfirst
  rwa [List.map_map] at hbalance

/-- The relative puts that a cohort commits are increments of integers if and only if no sum
leaves int64, whatever the order of the steps of its transactions. -/
theorem exactIncrements_iff {c : Adapter} {store : Store String} {xs : List (String × Action)}
    {s : Cohort.State} (h : Cohort.Run c store xs s) :
    ExactIncrements store xs s.store ↔ SumsFit store xs := by
  obtain ⟨responses, hserial, _⟩ := (serial_run h).result
  have hstored : ∃ values, KeyValue.run store (committedCommands xs) = some (s.store, values) := by
    have hrun := run_of_serialRun hserial
    rwa [List.flatMap_map] at hrun
  have hfits : SumsFit store xs ↔
      Sums (fun a b : Int64 => InInt64 (a.toInt + b.toInt)) store (committedCommands xs) :=
    KeyValue.sums_map_iff fun a b hab => (toInt_add_iff a b).mpr hab
  rw [hfits, KeyValue.sums_iff]
  constructor
  · exact fun hexact => hexact.noOverflow
  · intro hfit
    refine ⟨hstored, fun cur k amount default v hadds => ?_, hfit, fun k v hv hk => ?_⟩
    · obtain ⟨_, _, _, _, _, hread⟩ := id hadds
      refine ⟨Function.update cur k (some (v + amount)), ?_, ?_⟩
      · simp only [KeyValue.Command.step, hread, Option.map_some]
      · rw [Function.update_self, Option.map_some,
          (toInt_add_iff v amount).mpr (hfit cur k amount default v hadds)]
    · obtain ⟨values, hrun⟩ := hstored
      refine total_of_sums ?_ hrun hk hv
      exact (KeyValue.sums_congr toInt_add_iff).mpr (KeyValue.sums_iff.mpr hfit)

def addRequest (id : String) (amount : Int64) : PrepareTransactionRequest where
  transactionId := id
  transaction :=
    ⟨[⟨⟨"", "cohort:50052"⟩, some (.put ⟨"k", some (.relativeValue ⟨some ⟨some amount⟩, none⟩)⟩)⟩]⟩
  config := ⟨none⟩
  participantInfo := some (.onlyCohort true)

def addActions (id : String) (amount : Int64) : List (String × Action) :=
  [(id, .start (addRequest id amount)), (id, .lock true), (id, .begin none), (id, .operate none),
    (id, .put none), (id, .endOperations), (id, .commit none)]

theorem add_run (amount value : Int64) : ∃ s : Cohort.State, s.store "k" = some (value + amount) ∧
    Cohort.Run localAdapter (fun _ => some value) (addActions "a" amount) s :=
  ⟨_, rfl, .cons (.start (addRequest "a" amount) keyOrders rfl rfl) (.cons (.lock true rfl rfl)
    (.cons (.begin rfl) (.cons (.operate rfl (by simp)) (.cons (.put rfl (by simp))
    (.cons (.endOperations rfl) (.cons (.commit rfl) .nil))))))⟩

/-- Seven added to five. -/
theorem add_exact : ∃ s : Cohort.State, s.store "k" = some 12 ∧
    ExactIncrements (fun _ => some 5) (addActions "a" 7) s.store := by
  obtain ⟨s, hs, hrun⟩ := add_run 7 5
  refine ⟨s, hs, (exactIncrements_iff hrun).mpr ⟨fun v hv => ?_, fun _ _ => trivial⟩⟩
  obtain rfl := Option.some.inj hv
  exact ⟨by decide, by decide⟩

/-- One added to the greatest int64 commits the least one. -/
theorem add_wraps : ∃ s, Cohort.Run localAdapter (fun _ => some Int64.maxValue) (addActions "a" 1) s ∧
    s.store "k" = some Int64.minValue ∧
    ¬ExactIncrements (fun _ => some Int64.maxValue) (addActions "a" 1) s.store := by
  obtain ⟨s, hs, hrun⟩ := add_run 1 Int64.maxValue
  refine ⟨s, hrun, hs, fun h => ?_⟩
  have hfits : InInt64 (Int64.maxValue.toInt + (1 : Int64).toInt) :=
    h.noOverflow _ "k" 1 none Int64.maxValue ⟨[], [], [], rfl, rfl, rfl⟩
  exact absurd hfits.2 (by decide)

end TwoPhaseCommit.CohortServer
