import TwoPhaseCommit.Lib.Reordering
import TwoPhaseCommit.Database

/-! Operation lists that do not conflict: neither puts a key that the other uses. They can be run
in either order. -/
namespace TwoPhaseCommit.Database
variable {κ : Type} {acc : Access κ} {store : Store κ} {ops ops' : List Operation}

def Uses (acc : Access κ) (ops : List Operation) (k : κ) : Prop :=
  ∃ op ∈ ops, k ∈ operationKeys acc op

def Puts (acc : Access κ) (ops : List Operation) (k : κ) : Prop := ∃ op ∈ ops, k ∈ putKeys acc op

/-- Some key is put by one list and used by the other. -/
def Conflict (acc : Access κ) (ops ops' : List Operation) : Prop :=
  ∃ k, Puts acc ops k ∧ Uses acc ops' k ∨ Uses acc ops k ∧ Puts acc ops' k

theorem Puts.uses {k : κ} (h : Puts acc ops k) : Uses acc ops k := by
  obtain ⟨op, hop, hk⟩ := h
  refine ⟨op, hop, ?_⟩
  obtain ⟨n, _ | g | p⟩ := op
  · cases hk
  · cases hk
  · exact hk

variable [DecidableEq κ]

theorem open_of_processOperations {m m' : TransactionMetadata κ} {txn : OpenTransaction κ}
    (h : processOperations acc store ops m = .ok m') (hm : m.db = some txn) :
    ∃ writes, m'.db = some ⟨txn.readOnly, writes⟩ := by
  induction ops generalizing m txn with
  | nil =>
    cases h
    exact ⟨_, hm⟩
  | cons op ops ih =>
    rw [processOperations] at h
    cases hop : processOperationInDb acc store op m with
    | error status => simp [hop] at h
    | ok m₁ =>
      simp only [hop] at h
      obtain ⟨_, rfl⟩ | ⟨g, value, _, _, rfl⟩ | ⟨p, value, _, hput⟩ := processOperationInDb_ok hop
      · exact ih h hm
      · exact ih h hm
      · obtain ⟨txn₀, h₀, rfl⟩ := dbPut_ok hput
        obtain rfl := Option.some.inj (hm.symm.trans h₀)
        obtain ⟨writes, hdb⟩ := @ih _ { txn with writes := _ } h rfl
        exact ⟨writes, hdb⟩

theorem execute_writes {store' : Store κ} {rs : List GetResponse}
    (h : execute acc store ops = .ok (store', rs)) :
    ∃ m writes, processOperations acc store ops (begun false) = .ok m ∧
      m.db = some ⟨false, writes⟩ ∧ rs = m.response.committed.getResponses ∧
      (∀ k, store' k = (writes k).or (store k)) ∧ ∀ k, writes k ≠ none → Puts acc ops k := by
  obtain ⟨m, hm, he⟩ := execute_ok_iff.mp h
  obtain ⟨rfl, rfl⟩ := Prod.mk.inj he
  have hopen : (begun false : TransactionMetadata κ).db = some ⟨false, fun _ => none⟩ := rfl
  obtain ⟨writes, hdb⟩ := open_of_processOperations hm hopen
  refine ⟨m, writes, hm, hdb, rfl, fun k => ?_, fun k hk => ?_⟩
  · simp only [commitStore, hdb, OpenTransaction.read]
  · exact (writes_of_processOperations hm hopen hdb rfl).resolve_left hk

theorem execute_frame {store' : Store κ} {rs : List GetResponse}
    (h : execute acc store ops = .ok (store', rs)) {k : κ} (hk : ¬Puts acc ops k) :
    store' k = store k := by
  obtain ⟨m, writes, _, _, _, hstore, hputs⟩ := execute_writes h
  have hnone : writes k = none := by
    by_contra hne
    exact hk (hputs k hne)
  rw [hstore, hnone, Option.none_or]

/-- Lists that do not conflict can be run in either order: the same stores, the same values. -/
theorem execute_swap {store₁ store₂ : Store κ} {rs rs' : List GetResponse}
    (hc : ¬Conflict acc ops ops') (h : execute acc store ops = .ok (store₁, rs))
    (h' : execute acc store₁ ops' = .ok (store₂, rs')) :
    ∃ store₁', execute acc store ops' = .ok (store₁', rs') ∧
      execute acc store₁' ops = .ok (store₂, rs) := by
  obtain ⟨m, writes, hm, hdb, rfl, hstore₁, hputs⟩ := execute_writes h
  obtain ⟨m', writes', hm', hdb', rfl, hstore₂, hputs'⟩ := execute_writes h'
  have hfirst : processOperations acc store ops' (begun false) = .ok m' := by
    rw [← hm']
    refine processOperations_congr acc ops' _ fun op hop k hk => ?_
    exact (execute_frame h fun hput => hc ⟨k, .inl ⟨hput, op, hop, hk⟩⟩).symm
  have halone : execute acc store ops' =
      .ok (commitStore store m', m'.response.committed.getResponses) :=
    execute_ok_iff.mpr ⟨m', hfirst, rfl⟩
  have hsecond : processOperations acc (commitStore store m') ops (begun false) = .ok m := by
    rw [← hm]
    refine processOperations_congr acc ops _ fun op hop k hk => ?_
    exact execute_frame halone fun hput => hc ⟨k, .inr ⟨⟨op, hop, hk⟩, hput⟩⟩
  refine ⟨_, halone, execute_ok_iff.mpr ⟨m, hsecond, Prod.ext (funext fun k => ?_) rfl⟩⟩
  have hleft : store₂ k = (writes' k).or ((writes k).or (store k)) := by
    rw [hstore₂, hstore₁]
  have hright : commitStore (commitStore store m') m k =
      (writes k).or ((writes' k).or (store k)) := by
    simp only [commitStore, hdb, hdb', OpenTransaction.read]
  change store₂ k = commitStore (commitStore store m') m k
  rw [hleft, hright]
  cases hw : writes k with
  | none => simp
  | some value =>
    have hnone : writes' k = none := by
      by_contra hne
      exact hc ⟨k, .inl ⟨hputs k (by simp [hw]), (hputs' k hne).uses⟩⟩
    simp [hnone]

/-- Running a list of one's choice alone and committing it, with values that are as they should
be. -/
def Executes {α : Type} (acc : Access κ) (ops : α → List Operation)
    (Good : α → List GetResponse → Prop) (store : Store κ) (x : α) (store' : Store κ) : Prop :=
  ∃ rs, execute acc store (ops x) = .ok (store', rs) ∧ Good x rs

theorem executes_commute {α : Type} {ops : α → List Operation}
    {Good : α → List GetResponse → Prop} {x y : α} (hc : ¬Conflict acc (ops x) (ops y)) :
    Runs.Commutes (Executes acc ops Good) x y := by
  rintro store store₁ store₂ ⟨rs, h, hx⟩ ⟨rs', h', hy⟩
  obtain ⟨store₁', hfirst, hsecond⟩ := execute_swap hc h h'
  exact ⟨store₁', ⟨rs', hfirst, hy⟩, rs, hsecond, hx⟩

theorem run_of_serialRun {α : Type} {ops : α → List Operation} {Good : α → List GetResponse → Prop}
    {xs : List α} {store' : Store κ} {responses : List (List GetResponse)}
    (h : serialRun acc store (xs.map ops) = .ok (store', responses))
    (hgood : List.Forall₂ Good xs responses) :
    Runs.Run (Executes acc ops Good) store xs store' := by
  induction xs generalizing store responses with
  | nil =>
    cases h
    exact .nil
  | cons x xs ih =>
    rw [List.map_cons, serialRun] at h
    cases hx : execute acc store (ops x) with
    | error status => simp [hx] at h
    | ok r =>
      simp only [hx] at h
      cases hrest : serialRun acc r.1 (xs.map ops) with
      | error status => simp [hrest] at h
      | ok rs =>
        simp only [hrest, Except.ok.injEq, Prod.mk.injEq] at h
        obtain ⟨rfl, rfl⟩ := h
        cases hgood with
        | cons hfirst hothers => exact .cons ⟨r.2, hx, hfirst⟩ (ih hrest hothers)

theorem serialRun_of_run {α : Type} {ops : α → List Operation} {Good : α → List GetResponse → Prop}
    {xs : List α} {store' : Store κ} (h : Runs.Run (Executes acc ops Good) store xs store') :
    ∃ responses, serialRun acc store (xs.map ops) = .ok (store', responses) ∧
      List.Forall₂ Good xs responses := by
  induction xs generalizing store with
  | nil =>
    rw [h.of_nil]
    exact ⟨[], rfl, .nil⟩
  | cons x xs ih =>
    obtain ⟨m, ⟨rs, hx, hgood⟩, hrest⟩ := h.uncons
    obtain ⟨responses, hserial, hothers⟩ := ih hrest
    refine ⟨rs :: responses, ?_, .cons hgood hothers⟩
    rw [List.map_cons, serialRun]
    simp only [hx, hserial]

end TwoPhaseCommit.Database
