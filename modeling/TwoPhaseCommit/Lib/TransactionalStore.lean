import Mathlib.Logic.Function.Basic

/-! A key-value store with one transaction at a time, told by the history of its calls: the puts
committed so far, and those of the open transaction. -/
namespace TransactionalStore
variable {κ ν : Type*}

inductive Call (κ ν : Type*) where
  | begin (readOnly : Bool)
  | get (key : κ)
  | put (key : κ) (value : ν)
  | commit
  | abort

structure Transaction (κ ν : Type*) where
  readOnly : Bool
  puts : List (κ × ν)

structure History (κ ν : Type*) where
  committed : List (κ × ν)
  current : Option (Transaction κ ν)

/-- A begin is refused in a transaction, a put outside one or in a read-only one, and any other
call outside one. -/
def History.Refuses (h : History κ ν) : Call κ ν → Prop
  | .begin _ => h.current.isSome
  | .put _ _ => ∀ t, h.current = some t → t.readOnly
  | .get _ | .commit | .abort => h.current = none

def History.next (h : History κ ν) : Call κ ν → History κ ν
  | .begin readOnly => { h with current := some (h.current.getD ⟨readOnly, []⟩) }
  | .get _ => h
  | .put key value =>
    match h.current with
    | some ⟨false, puts⟩ => { h with current := some ⟨false, puts ++ [(key, value)]⟩ }
    | _ => h
  | .commit => ⟨h.committed ++ (h.current.map Transaction.puts).getD [], none⟩
  | .abort => { h with current := none }

def History.empty : History κ ν := ⟨[], none⟩

def after (calls : List (Call κ ν)) : History κ ν := calls.foldl History.next .empty

section Last
variable [DecidableEq κ]

def last (puts : List (κ × ν)) (key : κ) : Option ν := puts.reverse.lookup key

/-- What the committed puts have made of a store. -/
def History.durable (h : History κ ν) (initial : κ → Option ν) (key : κ) : Option ν :=
  (last h.committed key).or (initial key)

/-- The last value put in a transaction, else the last committed one. -/
def History.read (h : History κ ν) (initial : κ → Option ν) (t : Transaction κ ν) (key : κ) :
    Option ν :=
  (last t.puts key).or (h.durable initial key)

theorem last_append (puts puts' : List (κ × ν)) (key : κ) :
    last (puts ++ puts') key = (last puts' key).or (last puts key) := by
  rw [last, List.reverse_append, List.lookup_append]
  rfl

theorem last_concat (puts : List (κ × ν)) (key : κ) (value : ν) :
    last (puts ++ [(key, value)]) = Function.update (last puts) key (some value) := by
  funext k
  rw [last_append]
  by_cases hk : k = key
  · subst hk
    simp [last]
  · have hne : (k == key) = false := beq_eq_false_iff_ne.mpr hk
    simp [last, List.lookup_cons, hne, hk]

theorem History.durable_commit (h : History κ ν) {t : Transaction κ ν} (ht : h.current = some t)
    (initial : κ → Option ν) : (h.next .commit).durable initial = h.read initial t := by
  funext key
  simp only [durable, next, read, ht, Option.map_some, Option.getD_some, last_append,
    Option.or_assoc]

end Last

end TransactionalStore
