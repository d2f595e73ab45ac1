import Mathlib.Data.List.Nodup
import Mathlib.Data.List.Perm.Subperm

/-! Gathering one answer from each of many parties over several rounds: a round asks the parties
that have not answered, and some of them do. -/
namespace Gather
variable {κ ν : Type*} [DecidableEq κ]

/-- The answers of one round; reply gives the answer of the party at each position, if it has
one. -/
def round (reply : ℕ → Option ν) (answered : List κ) : List κ → (i : ℕ) → List (κ × ν)
  | [], _ => []
  | k :: rest, i =>
    (if k ∈ answered then [] else ((reply i).map fun v => (k, v)).toList) ++
      round reply answered rest (i + 1)

def asked (answered parties : List κ) : List κ := parties.filter fun k => k ∉ answered

variable {reply : ℕ → Option ν} {answered answered' parties : List κ} {i : ℕ} {k : κ} {v : ν}

theorem mem_round : (k, v) ∈ round reply answered parties i ↔
    k ∉ answered ∧ ∃ j, parties[j]? = some k ∧ reply (i + j) = some v := by
  induction parties generalizing i with
  | nil => simp [round]
  | cons p rest ih =>
    have hsplit : (∃ j, (p :: rest)[j]? = some k ∧ reply (i + j) = some v) ↔
        p = k ∧ reply i = some v ∨ ∃ j, rest[j]? = some k ∧ reply (i + 1 + j) = some v := by
      rw [← Nat.or_exists_add_one]
      simp only [List.getElem?_cons_zero, List.getElem?_cons_succ, Option.some.injEq, Nat.add_zero,
        Nat.add_assoc, Nat.add_comm 1]
    have hhead : (k, v) ∈ (if p ∈ answered then []
        else ((reply i).map fun v => (p, v)).toList) ↔ k ∉ answered ∧ p = k ∧ reply i = some v := by
      split_ifs with hp
      · simp only [List.not_mem_nil, false_iff]
        rintro ⟨hk, rfl, _⟩
        exact hk hp
      · rw [Option.mem_toList, Option.map_eq_some_iff]
        constructor
        · rintro ⟨w, hw, he⟩
          obtain ⟨rfl, rfl⟩ := Prod.mk.inj he
          exact ⟨hp, rfl, hw⟩
        · rintro ⟨_, rfl, hw⟩
          exact ⟨v, hw, rfl⟩
    rw [round, List.mem_append, ih, hhead, hsplit, ← and_or_left]

theorem round_eq_nil_iff : round reply answered parties i = [] ↔
    ∀ j (h : j < parties.length), parties[j] ∉ answered → reply (i + j) = none := by
  rw [List.eq_nil_iff_forall_not_mem]
  constructor
  · intro hnone j hj hno
    rw [Option.eq_none_iff_forall_ne_some]
    intro v hv
    exact hnone (parties[j], v) (mem_round.mpr ⟨hno, j, List.getElem?_eq_getElem hj, hv⟩)
  · rintro hnone ⟨k, v⟩ hk
    obtain ⟨hno, j, hj, hv⟩ := mem_round.mp hk
    obtain ⟨hlt, rfl⟩ := List.getElem?_eq_some_iff.mp hj
    cases (hnone j hlt hno).symm.trans hv

theorem round_congr (h : ∀ k ∈ parties, (k ∈ answered' ↔ k ∈ answered)) :
    round reply answered' parties i = round reply answered parties i := by
  induction parties generalizing i with
  | nil => rfl
  | cons p rest ih =>
    rw [round, round, ih fun k hk => h k (List.mem_cons_of_mem p hk)]
    simp only [h p List.mem_cons_self]

theorem keys_sublist :
    ((round reply answered parties i).map Prod.fst).Sublist (asked answered parties) := by
  induction parties generalizing i with
  | nil => exact List.Sublist.refl _
  | cons p rest ih =>
    rw [round, List.map_append, asked, List.filter_cons]
    by_cases hp : p ∈ answered
    · rw [if_pos hp, if_neg (by simpa using hp)]
      exact ih
    · rw [if_neg hp, if_pos (by simpa using hp)]
      cases reply i with
      | none => exact ih.trans (List.sublist_cons_self _ _)
      | some v => exact ih.cons_cons p

theorem mem_asked : k ∈ asked answered parties ↔ k ∈ parties ∧ k ∉ answered := by
  simp [asked]

theorem nodup_append_round (h : answered.Nodup) (hparties : parties.Nodup) :
    (answered ++ (round reply answered parties i).map Prod.fst).Nodup := by
  refine List.nodup_append'.mpr ⟨h, keys_sublist.nodup (hparties.filter _), ?_⟩
  intro k hk hk'
  exact (mem_asked.mp (keys_sublist.subset hk')).2 hk

theorem full_iff (hparties : parties.Nodup) :
    parties.countP (fun k => k ∈ answered) + (round reply answered parties i).length =
        parties.length ↔
      ∀ k ∈ parties, k ∈ answered ++ (round reply answered parties i).map Prod.fst := by
  have hsub : ((round reply answered parties i).map Prod.fst).Sublist (asked answered parties) :=
    keys_sublist
  have hlength : parties.countP (fun k => k ∈ answered) + (asked answered parties).length =
      parties.length := by
    have hcount := List.length_eq_countP_add_countP (fun k => decide (k ∈ answered)) (l := parties)
    rw [asked, ← List.countP_eq_length_filter, hcount]
    simp
  generalize hnew : (round reply answered parties i).map Prod.fst = new at hsub ⊢
  have hnewLength : (round reply answered parties i).length = new.length := by
    rw [← hnew, List.length_map]
  rw [hnewLength, ← hlength, Nat.add_left_cancel_iff]
  constructor
  · intro heq k hk
    rw [hsub.eq_of_length heq, List.mem_append, mem_asked]
    exact (em (k ∈ answered)).imp_right fun hno => ⟨hk, hno⟩
  · intro hall
    refine Nat.le_antisymm hsub.length_le ?_
    refine (List.subperm_of_subset (hparties.filter _) ?_).length_le
    intro k hk
    obtain ⟨hk, hno⟩ := mem_asked.mp hk
    exact (List.mem_append.mp (hall k hk)).resolve_left hno

end Gather
