import Mathlib.Data.Set.Insert
import Mathlib.Logic.Function.Basic

/-! A store that runs its clients' transactions whole and one at a time, or not at all, and tells
the clients which. -/
namespace AtomicService
variable {ι ω σ ρ α : Type*}

inductive Event (ι ω α : Type*) where
  | submit (id : ι) (ops : ω)
  | commit (id : ι)
  | committed (id : ι) (answer : α)
  | aborted (id : ι)

/-- Clients do not see when a transaction commits. -/
def Event.visible : Event ι ω α → Option (Event ι ω α)
  | .commit _ => none
  | e => some e

/-- The log has the results of the transactions in the order in which they were run. -/
structure State (ι ω σ ρ : Type*) where
  store : σ
  submitted : ι → Option ω
  log : List (ι × ρ)
  refused : Set ι

def initial (store : σ) : State ι ω σ ρ := ⟨store, fun _ => none, [], ∅⟩

/-- Running the operations of a transaction may fail; the answer to its client shows the results. -/
inductive Step [DecidableEq ι] (execute : σ → ω → Option (σ × ρ)) (shows : ρ → α → Prop) :
    State ι ω σ ρ → Event ι ω α → State ι ω σ ρ → Prop
  | submit {s : State ι ω σ ρ} (id : ι) (ops : ω) (h : s.submitted id = none) :
      Step execute shows s (.submit id ops)
        { s with submitted := Function.update s.submitted id (some ops) }
  | commit {s : State ι ω σ ρ} {id : ι} {ops : ω} {store : σ} {results : ρ}
      (h : s.submitted id = some ops) (hlog : id ∉ s.log.map Prod.fst) (hno : id ∉ s.refused)
      (hrun : execute s.store ops = some (store, results)) :
      Step execute shows s (.commit id)
        { s with store := store, log := s.log ++ [(id, results)] }
  | committed {s : State ι ω σ ρ} {id : ι} {results : ρ} {answer : α} (h : (id, results) ∈ s.log)
      (hs : shows results answer) : Step execute shows s (.committed id answer) s
  | aborted {s : State ι ω σ ρ} {id : ι} (h : s.submitted id ≠ none)
      (hlog : id ∉ s.log.map Prod.fst) :
      Step execute shows s (.aborted id) { s with refused := insert id s.refused }

end AtomicService
