import TwoPhaseCommit.ClientPlan
import TwoPhaseCommit.Lib.Escaping

/-! When the transactions of the driver's run have ids of their own: just when no transaction
repeats another one. -/
namespace TwoPhaseCommit.ClientMain
open Coordinator

/-- What the ids rely on: what was serialized can be parsed, an empty message is serialized to
nothing, and what was escaped can be unescaped. -/
structure Library.Faithful (lib : Library) : Prop where
  parses : ∃ parse : List UInt8 → Option CommitAtomicTransactionRequest,
    ∀ request bytes, lib.serializeToString request = some bytes → parse bytes = some request
  empty : lib.serializeToString ⟨"", ⟨[]⟩, ⟨none⟩⟩ = some []
  unescapes : ∃ cUnescape : String → Option (List UInt8),
    ∀ bytes, cUnescape (lib.cEscape bytes) = some bytes

/-- There is nothing to make an id of: the transaction is empty, or it cannot be serialized. -/
def Content.Blank (lib : Library) (content : Content) : Prop :=
  content = ⟨none, []⟩ ∨ lib.serializeToString content.request = none

/-- Every transaction of the run has an id of its own. -/
def OwnIds (lib : Library) (c : Choices) (transactions : SimpleTransactions) : Prop :=
  ∀ run, createRunInfoFromFile lib c (some transactions) = some (.ok run) →
    (run.requests.map fun r => r.1.clientTransactionId).Nodup

/-- Once the random choices are made, no transaction of the run repeats another one, and at most
one of them is blank. -/
def NoneRepeated (lib : Library) (c : Choices) (transactions : SimpleTransactions) : Prop :=
  ∀ p, contents c transactions.schedule {} = some p →
    p.Pairwise fun a b => a ≠ b ∧ ¬(a.Blank lib ∧ b.Blank lib)

def incrementTransaction : SimpleTransaction :=
  ⟨some ⟨1, 0⟩,
    [⟨.put, some (.address "0.0.0.0:60000"), some (.key "k"), some (.relativeValue 1), 0⟩], true⟩

def incrementTwice : SimpleTransactions := ⟨[], [incrementTransaction], 2⟩

def incrementRequest : CommitAtomicTransactionRequest :=
  addRelativePutOp (emptyRequest incrementTransaction) "0.0.0.0:60000" "k" 1

/-- Protocol buffers for the increment and the empty request, and the escaping of C. -/
def localLibrary : Library where
  serializeToString request :=
    if request = incrementRequest then
      some [18, 32, 10, 30, 10, 15, 18, 13, 48, 46, 48, 46, 48, 46, 48, 58, 54, 48, 48, 48, 48, 26,
        11, 10, 1, 107, 18, 6, 18, 4, 10, 2, 8, 1, 26, 4, 10, 2, 8, 1]
    else if request = ⟨"", ⟨[]⟩, ⟨none⟩⟩ then some []
    else none
  cEscape := Escaping.cEscape

def localChoices : Choices := ⟨fun _ => 0, fun _ => .insertion _⟩

theorem localLibrary_faithful : localLibrary.Faithful where
  parses := by
    refine ⟨fun bytes => if bytes = [] then some ⟨"", ⟨[]⟩, ⟨none⟩⟩ else some incrementRequest, ?_⟩
    intro request bytes h
    unfold localLibrary at h
    dsimp only at h
    split_ifs at h with hincrement hempty
    · obtain rfl := Option.some.inj h
      rw [hincrement]
      rfl
    · obtain rfl := Option.some.inj h
      rw [hempty]
      rfl
  empty := by decide
  unescapes := by
    refine ⟨Function.partialInv localLibrary.cEscape, fun bytes => ?_⟩
    exact Function.partialInv_left Escaping.cEscape_injective bytes

theorem ids_eq {lib : Library} {run : RunInfo} {p : List Content}
    (h : run.requests.map Prod.fst = p.map (Content.sent lib)) :
    run.requests.map (fun r => r.1.clientTransactionId) =
      p.map (Content.clientTransactionId lib) := by
  have hids := congrArg (List.map CommitAtomicTransactionRequest.clientTransactionId) h
  rw [List.map_map, List.map_map] at hids
  exact hids

theorem choose_fixed {op : SimpleOperation} (h : op.draws = 0) :
    ∃ o, ∀ c ch, choose c op ch = some o := by
  have hdraws : op.addressDraws = 0 ∧ op.keyDraws = 0 ∧ op.valueDraws = 0 := by
    simpa [SimpleOperation.draws, and_assoc] using h
  obtain ⟨haddress, hkey, hvalue⟩ := hdraws
  refine ⟨⟨⟨"", op.address⟩, some (chosenType op op.key 0)⟩, fun c ch => ?_⟩
  have ha (n : ℕ) : chosenAddress c op n = op.address := by
    obtain ⟨type, _ | address | random, keyType, valueType, repeatCount⟩ := op
    · rfl
    · rfl
    · cases haddress
  have hk (keys : List String) (n : ℕ) : chosenKey c op keys n = some op.key := by
    obtain ⟨type, addressType, _ | key | random | random, valueType, repeatCount⟩ := op
    · rfl
    · rfl
    · cases hkey
    · cases hkey
  have hv (key : String) (r : ℕ) : chosenType op key r = chosenType op key 0 := by
    unfold chosenType
    split_ifs with hput
    · obtain ⟨type, addressType, keyType, _ | value | value | random | random, repeatCount⟩ := op
      · rfl
      · rfl
      · rfl
      all_goals
        subst hput
        cases hvalue
    · rfl
  unfold choose
  dsimp only
  rw [ha, hk, Option.map_some, hv]

theorem chooseAll_fixed {ops : List SimpleOperation} (h : ∀ op ∈ ops, op.draws = 0) :
    ∃ os, ∀ c ch, chooseAll c ops ch = some os := by
  induction ops with
  | nil => exact ⟨[], fun _ _ => rfl⟩
  | cons op ops ih =>
    obtain ⟨o, ho⟩ := choose_fixed (h op List.mem_cons_self)
    obtain ⟨os, hos⟩ := ih fun op' hop => h op' (List.mem_cons_of_mem op hop)
    refine ⟨o :: os, fun c ch => ?_⟩
    rw [chooseAll, ho]
    simp [hos]

theorem count_contents {c : Choices} {t : SimpleTransaction} {os : List Operation}
    (hfixed : ∀ ch, chooseAll c t.occurrences ch = some os) {ts : List SimpleTransaction}
    {ch : Chosen} {p : List Content} (h : contents c ts ch = some p) :
    ts.count t ≤ p.count ⟨t.timeBeforeAbort, os⟩ := by
  induction ts generalizing ch p with
  | nil => exact Nat.zero_le _
  | cons t' ts ih =>
    rw [contents, Option.bind_eq_bind, Option.bind_eq_some_iff] at h
    obtain ⟨ops, hops, h⟩ := h
    rw [Option.bind_eq_bind, Option.bind_eq_some_iff] at h
    obtain ⟨rest, hrest, h⟩ := h
    obtain rfl := Option.some.inj h
    by_cases ht : t' = t
    · subst ht
      rw [hfixed] at hops
      obtain rfl := Option.some.inj hops
      rw [List.count_cons_self, List.count_cons_self]
      exact Nat.succ_le_succ (ih hrest)
    · rw [List.count_cons_of_ne ht]
      exact Nat.le_trans (ih hrest) List.count_le_count_cons

theorem fixed_not_ownIds {lib : Library} {c : Choices} {transactions : SimpleTransactions}
    {run : RunInfo} (hrun : createRunInfoFromFile lib c (some transactions) = some (.ok run))
    {t : SimpleTransaction} (hfixed : ∀ op ∈ t.op, op.draws = 0)
    (htwice : 1 < transactions.schedule.count t) : ¬OwnIds lib c transactions := by
  intro hown
  have hrel := createRunInfoFromFile_rel lib c transactions
  rw [hrun] at hrel
  generalize hp : contents c transactions.schedule {} = plan at hrel
  cases hrel with
  | @some p _ h =>
    obtain ⟨_, hresult, hsent⟩ := h
    obtain rfl := Except.ok.inj hresult
    have hnodup : (p.map (Content.clientTransactionId lib)).Nodup := by
      rw [← ids_eq hsent]
      exact hown run hrun
    have hdraws : ∀ op ∈ t.occurrences, op.draws = 0 := by
      intro op hop
      obtain ⟨op', hop', hmem⟩ := List.mem_flatMap.mp hop
      rw [List.eq_of_mem_replicate hmem]
      exact hfixed op' hop'
    obtain ⟨os, hos⟩ := chooseAll_fixed hdraws
    have hcount := count_contents (hos c) hp
    have hone := List.nodup_iff_count_le_one.mp hnodup.of_map ⟨t.timeBeforeAbort, os⟩
    omega

/-- Both increments are sent under one id. -/
theorem increment_twice_not_ownIds : ¬OwnIds localLibrary localChoices incrementTwice := by
  have hrun : ∃ run, createRunInfoFromFile localLibrary localChoices (some incrementTwice) =
      some (.ok run) := ⟨_, rfl⟩
  obtain ⟨run, hrun⟩ := hrun
  exact fixed_not_ownIds hrun (t := incrementTransaction) (by decide) (by decide)

theorem Content.request_injective : Function.Injective Content.request := by
  have htime : Function.Injective fun d : Duration => (⟨d.seconds, d.nanos⟩ : Timestamp) := by
    intro d d' h
    rw [Timestamp.mk.injEq] at h
    rwa [Duration.mk.injEq]
  rintro ⟨time, ops⟩ ⟨time', ops'⟩ h
  obtain ⟨-, hops, htimes⟩ := CommitAtomicTransactionRequest.mk.inj h
  rw [Content.mk.injEq]
  exact ⟨Option.map_injective htime (TransactionConfig.mk.inj htimes), Transaction.mk.inj hops⟩

section Ids
variable {lib : Library} (hlib : lib.Faithful)
include hlib

theorem Library.Faithful.serialize_inj {r r' : CommitAtomicTransactionRequest} {bytes : List UInt8}
    (h : lib.serializeToString r = some bytes) (h' : lib.serializeToString r' = some bytes) :
    r = r' := by
  obtain ⟨parse, hparse⟩ := hlib.parses
  exact Option.some.inj ((hparse r bytes h).symm.trans (hparse r' bytes h'))

theorem Library.Faithful.cEscape_injective : Function.Injective lib.cEscape := by
  obtain ⟨cUnescape, hunescape⟩ := hlib.unescapes
  intro bytes bytes' h
  have hsome := hunescape bytes
  rw [h, hunescape] at hsome
  exact (Option.some.inj hsome).symm

theorem serializeAsString_eq_nil_iff (content : Content) :
    lib.serializeAsString content.request = [] ↔ content.Blank lib := by
  unfold Library.serializeAsString Content.Blank
  cases hbytes : lib.serializeToString content.request with
  | none => simp
  | some bytes =>
    rw [Option.getD_some]
    constructor
    · rintro rfl
      exact .inl (Content.request_injective (hlib.serialize_inj hbytes hlib.empty))
    · rintro (rfl | h)
      · exact Option.some.inj (hbytes.symm.trans hlib.empty)
      · cases h

/-- Two transactions get one id when they are the same, and when both are blank. -/
theorem clientTransactionId_eq_iff (a b : Content) :
    a.clientTransactionId lib = b.clientTransactionId lib ↔
      a = b ∨ a.Blank lib ∧ b.Blank lib := by
  unfold Content.clientTransactionId
  rw [hlib.cEscape_injective.eq_iff]
  constructor
  · intro h
    by_cases ha : a.Blank lib
    · refine .inr ⟨ha, (serializeAsString_eq_nil_iff hlib b).mp ?_⟩
      rw [← h]
      exact (serializeAsString_eq_nil_iff hlib a).mpr ha
    · have hb : ¬b.Blank lib := by
        rwa [← serializeAsString_eq_nil_iff hlib, ← h, serializeAsString_eq_nil_iff hlib]
      obtain ⟨bytes, ha'⟩ := Option.ne_none_iff_exists'.mp fun hnone => ha (.inr hnone)
      obtain ⟨bytes', hb'⟩ := Option.ne_none_iff_exists'.mp fun hnone => hb (.inr hnone)
      simp only [Library.serializeAsString, ha', hb', Option.getD_some] at h
      subst h
      exact .inl (Content.request_injective (hlib.serialize_inj ha' hb'))
  · rintro (rfl | ⟨ha, hb⟩)
    · rfl
    · rw [(serializeAsString_eq_nil_iff hlib a).mpr ha, (serializeAsString_eq_nil_iff hlib b).mpr hb]

/-- The ids of a run are distinct exactly when none of its transactions repeats another one. -/
theorem ownIds_iff (c : Choices) (transactions : SimpleTransactions) :
    OwnIds lib c transactions ↔ NoneRepeated lib c transactions := by
  have hrel := createRunInfoFromFile_rel lib c transactions
  unfold OwnIds NoneRepeated
  generalize contents c transactions.schedule {} = plan at hrel ⊢
  generalize createRunInfoFromFile lib c (some transactions) = result at hrel ⊢
  cases hrel with
  | none => simp
  | @some p result hrun =>
    obtain ⟨run, rfl, hsent⟩ := hrun
    have hids := ids_eq hsent
    have hpairs : (p.map (Content.clientTransactionId lib)).Nodup ↔
        p.Pairwise fun a b => a ≠ b ∧ ¬(a.Blank lib ∧ b.Blank lib) := by
      rw [List.nodup_iff_pairwise_ne, List.pairwise_map]
      simp only [ne_eq, clientTransactionId_eq_iff hlib, not_or]
    constructor
    · rintro hown _ ⟨⟩
      rw [← hpairs, ← hids]
      exact hown run rfl
    · rintro hdistinct _ ⟨⟩
      rw [hids, hpairs]
      exact hdistinct p rfl

end Ids

theorem ownIds_iff_increment : OwnIds localLibrary localChoices incrementTwice ↔
    NoneRepeated localLibrary localChoices incrementTwice :=
  ownIds_iff localLibrary_faithful localChoices incrementTwice

end TwoPhaseCommit.ClientMain
