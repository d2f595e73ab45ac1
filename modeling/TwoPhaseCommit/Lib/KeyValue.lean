import Mathlib.Algebra.BigOperators.Group.List.Basic
import Mathlib.Logic.Function.Basic

/-! Lists of commands on a key-value store: reading a key, setting it and adding to it. A list
stops at the first command that needs an absent key. -/
namespace KeyValue
variable {κ ν μ : Type*} [DecidableEq κ]

abbrev Store (κ ν : Type*) := κ → Option ν

/-- An absent key is added to as if it had the default. -/
inductive Command (κ ν : Type*) where
  | skip
  | get (k : κ)
  | set (k : κ) (v : ν)
  | add (k : κ) (amount : ν) (default : Option ν)

/-- The store after a command, and the value that it reads for its caller. -/
def Command.step [Add ν] (s : Store κ ν) : Command κ ν → Option (Store κ ν × List ν)
  | .skip => some (s, [])
  | .get k => (s k).map fun v => (s, [v])
  | .set k v => some (Function.update s k (some v), [])
  | .add k amount default =>
    ((s k).or default).map fun v => (Function.update s k (some (v + amount)), [])

def run [Add ν] : Store κ ν → List (Command κ ν) → Option (Store κ ν × List ν)
  | s, [] => some (s, [])
  | s, c :: cs => (c.step s).bind fun r => (run r.1 cs).map fun r' => (r'.1, r.2 ++ r'.2)

def Command.map (f : ν → μ) : Command κ ν → Command κ μ
  | .skip => .skip
  | .get k => .get k
  | .set k v => .set k (f v)
  | .add k amount default => .add k (f amount) (default.map f)

def mapStore (f : ν → μ) (s : Store κ ν) : Store κ μ := fun k => (s k).map f

/-- P holds of the two terms of the sum that a command makes, if it makes one. -/
def Command.Sum (P : ν → ν → Prop) (s : Store κ ν) : Command κ ν → Prop
  | .add k amount default => ∀ v, (s k).or default = some v → P v amount
  | _ => True

def Sums [Add ν] (P : ν → ν → Prop) : Store κ ν → List (Command κ ν) → Prop
  | _, [] => True
  | s, c :: cs => c.Sum P s ∧ ∀ r, c.step s = some r → Sums P r.1 cs

/-- A list adds amount to the value v, which k has in the store cur, or has by default. -/
def AddsTo [Add ν] (s : Store κ ν) (cs : List (Command κ ν)) (cur : Store κ ν) (k : κ)
    (amount : ν) (default : Option ν) (v : ν) : Prop :=
  ∃ done rest values, cs = done ++ .add k amount default :: rest ∧
    run s done = some (cur, values) ∧ (cur k).or default = some v

omit [DecidableEq κ] in
theorem mapStore_apply (f : ν → μ) (s : Store κ ν) (k : κ) : mapStore f s k = (s k).map f := rfl

theorem mapStore_update (f : ν → μ) (s : Store κ ν) (k : κ) (v : ν) :
    mapStore f (Function.update s k (some v)) = Function.update (mapStore f s) k (some (f v)) := by
  funext j
  by_cases hj : j = k
  · subst hj
    simp [mapStore]
  · simp [mapStore, Function.update_of_ne hj]

omit [DecidableEq κ] in
theorem mapStore_or (f : ν → μ) (s : Store κ ν) (k : κ) (default : Option ν) :
    (mapStore f s k).or (default.map f) = ((s k).or default).map f := by
  rw [mapStore_apply]
  cases s k <;> rfl

omit [DecidableEq κ] in
theorem Command.Sum.mono {P Q : ν → ν → Prop} {s : Store κ ν} {c : Command κ ν} (h : c.Sum P s)
    (hPQ : ∀ a b, P a b → Q a b) : c.Sum Q s := by
  cases c with
  | add k amount default => exact fun v hv => hPQ v amount (h v hv)
  | _ => trivial

section Run
variable [Add ν]

theorem run_append (s : Store κ ν) (cs cs' : List (Command κ ν)) :
    run s (cs ++ cs') =
      (run s cs).bind fun r => (run r.1 cs').map fun r' => (r'.1, r.2 ++ r'.2) := by
  induction cs generalizing s with
  | nil => simp [run]
  | cons c cs ih =>
    rw [List.cons_append, run, run]
    cases c.step s with
    | none => rfl
    | some r =>
      simp only [Option.bind_some, ih]
      cases run r.1 cs with
      | none => rfl
      | some r' => simp [Option.map_map, Function.comp_def]

theorem sums_iff {P : ν → ν → Prop} {s : Store κ ν} {cs : List (Command κ ν)} :
    Sums P s cs ↔ ∀ cur k amount default v, AddsTo s cs cur k amount default v → P v amount := by
  induction cs generalizing s with
  | nil =>
    refine iff_of_true trivial ?_
    rintro cur k amount default v ⟨done, rest, values, h, _⟩
    cases done <;> cases h
  | cons c cs ih =>
    rw [Sums]
    constructor
    · rintro ⟨hc, hcs⟩ cur k amount default v ⟨done, rest, values, h, hrun, hv⟩
      cases done with
      | nil =>
        cases h
        cases hrun
        exact hc v hv
      | cons d done =>
        cases h
        rw [run] at hrun
        obtain ⟨r, hr, hrest⟩ := Option.bind_eq_some_iff.mp hrun
        obtain ⟨r', hr', he⟩ := Option.map_eq_some_iff.mp hrest
        cases he
        exact ih.mp (hcs r hr) _ k amount default v ⟨done, rest, r'.2, rfl, hr', hv⟩
    · intro h
      constructor
      · cases c with
        | add k amount default => exact fun v hv => h s k amount default v ⟨[], cs, [], rfl, rfl, hv⟩
        | _ => trivial
      · intro r hr
        refine ih.mpr fun cur k amount default v hadds => ?_
        obtain ⟨done, rest, values, rfl, hrun, hv⟩ := hadds
        exact h cur k amount default v ⟨c :: done, rest, r.2 ++ values, rfl, by simp [run, hr, hrun], hv⟩

theorem sums_congr {P Q : ν → ν → Prop} (h : ∀ a b, P a b ↔ Q a b) {s : Store κ ν}
    {cs : List (Command κ ν)} : Sums P s cs ↔ Sums Q s cs := by
  simp only [sums_iff, h]

end Run

section Map
variable [Add ν] [Add μ] {f : ν → μ}

theorem Command.step_map {s : Store κ ν} {c : Command κ ν}
    (h : c.Sum (fun a b => f (a + b) = f a + f b) s) :
    (c.map f).step (mapStore f s) = (c.step s).map fun r => (mapStore f r.1, r.2.map f) := by
  cases c with
  | skip => rfl
  | get k =>
    simp only [Command.map, Command.step, mapStore_apply]
    cases s k <;> rfl
  | set k v => simp [Command.map, Command.step, mapStore_update]
  | add k amount default =>
    simp only [Command.map, Command.step, mapStore_or]
    cases hv : (s k).or default with
    | none => rfl
    | some v => simp [mapStore_update, h v hv]

theorem run_map {s : Store κ ν} {cs : List (Command κ ν)}
    (h : Sums (fun a b => f (a + b) = f a + f b) s cs) :
    run (mapStore f s) (cs.map (Command.map f)) =
      (run s cs).map fun r => (mapStore f r.1, r.2.map f) := by
  induction cs generalizing s with
  | nil => rfl
  | cons c cs ih =>
    obtain ⟨hc, hcs⟩ := h
    rw [List.map_cons, run, run, Command.step_map hc]
    cases hs : c.step s with
    | none => rfl
    | some r =>
      simp only [Option.map_some, Option.bind_some, ih (hcs r hs), Option.map_map]
      congr 1
      funext r'
      simp

/-- Where P is only true of sums that a map keeps, the sums of the mapped list are those of the
list. -/
theorem sums_map_iff {P : μ → μ → Prop} (hP : ∀ a b, P (f a) (f b) → f (a + b) = f a + f b)
    {s : Store κ ν} {cs : List (Command κ ν)} :
    Sums P (mapStore f s) (cs.map (Command.map f)) ↔ Sums (fun a b => P (f a) (f b)) s cs := by
  induction cs generalizing s with
  | nil => exact Iff.rfl
  | cons c cs ih =>
    have hhead : (c.map f).Sum P (mapStore f s) ↔ c.Sum (fun a b => P (f a) (f b)) s := by
      cases c with
      | add k amount default =>
        simp only [Command.map, Command.Sum, mapStore_or]
        cases (s k).or default with
        | none => simp
        | some v => simp
      | _ => exact Iff.rfl
    rw [List.map_cons, Sums, Sums, hhead]
    refine and_congr_right fun hc => ?_
    rw [Command.step_map (hc.mono hP)]
    cases c.step s with
    | none => simp
    | some r => simp [ih]

end Map

section Balance
variable [AddCommMonoid ν]

def Command.amountOn (k : κ) : Command κ ν → ν
  | .add k' amount _ => if k' = k then amount else 0
  | _ => 0

def Command.Sets (k : κ) : Command κ ν → Prop
  | .set k' _ => k' = k
  | _ => False

theorem Command.step_balance {s : Store κ ν} {c : Command κ ν} {r : Store κ ν × List ν} {k : κ}
    {v : ν} (h : c.step s = some r) (hk : ¬c.Sets k) (hv : s k = some v) :
    r.1 k = some (v + c.amountOn k) := by
  cases c with
  | skip =>
    cases h
    simpa [Command.amountOn] using hv
  | get k' =>
    obtain ⟨_, _, rfl⟩ := Option.map_eq_some_iff.mp h
    simpa [Command.amountOn] using hv
  | set k' v' =>
    cases h
    have hne : k ≠ k' := fun he => hk he.symm
    simpa [Command.amountOn, Function.update_of_ne hne] using hv
  | add k' amount default =>
    obtain ⟨v', hv', rfl⟩ := Option.map_eq_some_iff.mp h
    by_cases he : k' = k
    · subst he
      rw [hv] at hv'
      cases hv'
      simp [Command.amountOn]
    · simp [Command.amountOn, he, Function.update_of_ne (Ne.symm he), hv]

theorem run_balance {s : Store κ ν} {cs : List (Command κ ν)} {r : Store κ ν × List ν} {k : κ}
    {v : ν} (h : run s cs = some r) (hk : ∀ c ∈ cs, ¬c.Sets k) (hv : s k = some v) :
    r.1 k = some (v + (cs.map (Command.amountOn k)).sum) := by
  induction cs generalizing s v r with
  | nil =>
    cases h
    simpa using hv
  | cons c cs ih =>
    rw [run] at h
    obtain ⟨r₁, hc, hcs⟩ := Option.bind_eq_some_iff.mp h
    obtain ⟨r₂, hr, rfl⟩ := Option.map_eq_some_iff.mp hcs
    have hfirst := Command.step_balance hc (hk c (by simp)) hv
    have hrest := ih hr (fun c' hc' => hk c' (by simp [hc'])) hfirst
    rw [List.map_cons, List.sum_cons, ← add_assoc]
    exact hrest

end Balance
end KeyValue
