import TwoPhaseCommit.Lib.Runs
import TwoPhaseCommit.BallotTable

/-! Whole runs of the contract: when a decision is final and when an accepted ballot
stays recorded. -/
namespace TwoPhaseCommit.ContractRuns
open Contract
open BallotTable (WellFormed wellFormed_deployed ballotOf entryOf decision step_cases
  votingDecision_eq getCohortBallot_new getCohortBallot_zero)

def accepted (s : State) : List (ℕ × Call) → List (ℕ × Call)
  | [] => []
  | tx :: txs =>
    if (tx.2.apply tx.1 s).isSome then tx :: accepted (step s tx) txs
    else accepted (step s tx) txs

abbrev Throughout (P : State → ℕ × Call → Prop) (s : State) (txs : List (ℕ × Call)) : Prop :=
  Runs.Throughout step P s txs

def isStart (t : String) (tx : ℕ × Call) : Bool :=
  match tx.2 with
  | .startVoting u _ _ => u = t
  | _ => false

theorem isStart_iff (t : String) (tx : ℕ × Call) :
    isStart t tx = true ↔ ∃ n d, tx.2 = .startVoting t n d := by
  obtain ⟨now, c⟩ := tx
  cases c <;> simp [isStart]

theorem throughout_append (P : State → ℕ × Call → Prop) (s : State) (txs txs' : List (ℕ × Call)) :
    Throughout P s (txs ++ txs') ↔ Throughout P s txs ∧ Throughout P (run s txs) txs' :=
  Runs.throughout_append step P s txs txs'

theorem throughout_iff (P : State → ℕ × Call → Prop) (s : State) (txs : List (ℕ × Call)) :
    Throughout P s txs ↔ ∀ txs₁ tx txs₂, txs = txs₁ ++ tx :: txs₂ → P (run s txs₁) tx :=
  Runs.throughout_iff step P s txs

theorem accepted_append (s : State) (txs txs' : List (ℕ × Call)) :
    accepted s (txs ++ txs') = accepted s txs ++ accepted (run s txs) txs' := by
  induction txs generalizing s with
  | nil => rfl
  | cons tx txs ih =>
    simp only [List.cons_append, accepted, ih, run_cons]
    split_ifs <;> simp

theorem mem_of_accepted {s : State} {txs : List (ℕ × Call)} {tx : ℕ × Call}
    (h : tx ∈ accepted s txs) : tx ∈ txs := by
  induction txs generalizing s with
  | nil => cases h
  | cons a txs ih =>
    rw [accepted] at h
    split_ifs at h
    · exact (List.mem_cons.mp h).elim (fun he => by simp [he]) fun ht => .tail a (ih ht)
    · exact .tail a (ih h)

theorem forall_accepted_cons {s : State} {tx : ℕ × Call} {txs : List (ℕ × Call)}
    {P : ℕ × Call → Prop} :
    (∀ a ∈ accepted s (tx :: txs), P a) ↔
      ((tx.2.apply tx.1 s).isSome → P tx) ∧ ∀ a ∈ accepted (step s tx) txs, P a := by
  rw [accepted]
  split_ifs with h <;> simp [h]

theorem started_of_cohorts {s : State} (hs : WellFormed s) (txs : List (ℕ × Call)) (t : String)
    (h0 : (s.transactionConfigs t).cohorts = 0)
    (hc : 0 < ((run s txs).transactionConfigs t).cohorts) :
    ∃ tx ∈ accepted s txs, isStart t tx := by
  induction txs generalizing s with
  | nil => simp [h0] at hc
  | cons tx txs ih =>
    by_contra hno
    simp only [not_exists, not_and] at hno
    obtain ⟨htx, htxs⟩ := forall_accepted_cons.mp hno
    have hsame : ((step s tx).transactionConfigs t).cohorts = 0 := by
      obtain ⟨hcfg, _⟩ | ⟨i, b, _, _, _, _, _, hcfg, _⟩ | ⟨n, d, hcall, hacc, _⟩ :=
        step_cases hs tx t
      · rw [hcfg, h0]
      · rw [hcfg, h0]
      · exact absurd ((isStart_iff t tx).mpr ⟨n, d, hcall⟩) (htx hacc)
    obtain ⟨a, ha, hst⟩ := ih (hs.step tx) hsame hc
    exact htxs a ha hst

/-- An accepted vote for t does not change a ballot that its cohort has already cast. -/
def KeepsCastBallots (t : String) (s : State) (tx : ℕ × Call) : Prop :=
  ∀ i b, tx.2 = .vote t i b → (tx.2.apply tx.1 s).isSome →
    ballotOf s t i = .unknown ∨ ballotOf s t i = b

/-- s' has the voting of s with at most more ballots cast, and no new ones once `now` is
past the deadline. -/
structure Extends (t : String) (now : ℕ) (s s' : State) : Prop where
  config : s'.transactionConfigs t = s.transactionConfigs t
  cast : ∀ j < (s.transactionConfigs t).cohorts,
    ballotOf s t j ≠ .unknown → ballotOf s' t j = ballotOf s t j
  closed : (s.transactionConfigs t).voteTimeoutTime ≤ now →
    ∀ j < (s.transactionConfigs t).cohorts, ballotOf s' t j = ballotOf s t j

theorem Extends.refl (t : String) (now : ℕ) (s : State) : Extends t now s s :=
  ⟨rfl, fun _ _ _ => rfl, fun _ _ _ => rfl⟩

theorem Extends.trans {t : String} {now : ℕ} {s s' s'' : State} (h : Extends t now s s')
    (h' : Extends t now s' s'') : Extends t now s s'' where
  config := h'.config.trans h.config
  cast j hj hb := by
    have hb' := h.cast j hj hb
    rw [← hb'] at hb ⊢
    exact h'.cast j (by rwa [h.config]) hb
  closed hd j hj :=
    (h'.closed (by rwa [h.config]) j (by rwa [h.config])).trans (h.closed hd j hj)

theorem extends_step {s : State} (hs : WellFormed s) {t : String} {now : ℕ} {tx : ℕ × Call}
    (hnow : now ≤ tx.1) (hstart : (tx.2.apply tx.1 s).isSome → ¬isStart t tx)
    (hkeep : (s.transactionConfigs t).voteTimeoutTime ≤ now ∨ KeepsCastBallots t s tx) :
    Extends t now s (step s tx) := by
  obtain ⟨hcfg, hb⟩ | ⟨i, b, hcall, hacc, hlt, hi, hne, hcfg, hb⟩ | ⟨n, d, hcall, hacc, _⟩ :=
    step_cases hs tx t
  · exact ⟨hcfg, fun j _ _ => hb j, fun _ j _ => hb j⟩
  · have hopen : ¬(s.transactionConfigs t).voteTimeoutTime ≤ now := by omega
    refine ⟨hcfg, ?_, fun h => absurd h hopen⟩
    intro j hj hcast
    rw [hb j hj]
    split_ifs with hji
    · subst hji
      obtain h | h := hkeep.resolve_left hopen j b hcall hacc
      · exact absurd h hcast
      · exact h.symm
    · rfl
  · exact absurd ((isStart_iff t tx).mpr ⟨n, d, hcall⟩) (hstart hacc)

theorem extends_run {s : State} (hs : WellFormed s) {t : String} {now : ℕ} {txs : List (ℕ × Call)}
    (hnow : ∀ tx ∈ txs, now ≤ tx.1) (hstart : ∀ tx ∈ accepted s txs, ¬isStart t tx)
    (hkeep : (s.transactionConfigs t).voteTimeoutTime ≤ now ∨
      Throughout (KeepsCastBallots t) s txs) : Extends t now s (run s txs) := by
  induction txs generalizing s with
  | nil => exact Extends.refl t now s
  | cons tx txs ih =>
    obtain ⟨hst, hsts⟩ := forall_accepted_cons.mp hstart
    have h := extends_step hs (hnow tx (by simp)) hst (hkeep.imp_right And.left)
    refine h.trans (ih (hs.step tx) (fun a ha => hnow a (by simp [ha])) hsts ?_)
    rw [h.config]
    exact hkeep.imp_right And.right

theorem Extends.decision {t : String} {now now' : ℕ} {s s' : State} (h : Extends t now s s')
    (hle : now ≤ now') (hd : (decision now (entryOf s t)).option ≠ .pending) :
    decision now' (entryOf s' t) = decision now (entryOf s t) := by
  have hlen : (s'.transactionConfigs t).cohorts = (s.transactionConfigs t).cohorts := by
    rw [h.config]
  have heq (hsame : ∀ j < (s.transactionConfigs t).cohorts, ballotOf s' t j = ballotOf s t j) :
      entryOf s' t = entryOf s t := by
    rw [entryOf, entryOf, h.config]
    congr 1
    exact List.map_congr_left fun j hj => hsame j (List.mem_range.mp hj)
  by_cases ha : .abort ∈ (entryOf s t).ballots
  · have ha' : .abort ∈ (entryOf s' t).ballots := by
      simp only [entryOf, List.mem_map, List.mem_range] at ha ⊢
      obtain ⟨j, hj, hb⟩ := ha
      exact ⟨j, by omega, by rw [h.cast j hj (by simp [hb]), hb]⟩
    simp [BallotTable.decision, ha, ha']
  by_cases hc : ∀ b ∈ (entryOf s t).ballots, b = .commit
  · have hsame : entryOf s' t = entryOf s t := by
      refine heq fun j hj => h.cast j hj ?_
      have hb := hc (ballotOf s t j) (List.mem_map_of_mem (List.mem_range.mpr hj))
      simp [hb]
    rw [hsame, BallotTable.decision, BallotTable.decision, if_neg ha, if_neg ha, if_pos hc,
      if_pos hc]
  · by_cases ht : (entryOf s t).deadline ≤ now
    · rw [heq (h.closed ht), BallotTable.decision, BallotTable.decision, if_neg ha, if_neg ha,
        if_neg hc, if_neg hc, if_pos ht, if_pos (ht.trans hle)]
    · simp [BallotTable.decision, ha, hc, ht] at hd

/-- The times at which transactions and queries reach the chain never decrease. -/
def Chronological (txs₁ : List (ℕ × Call)) (now₁ : ℕ) (txs₂ : List (ℕ × Call)) (now₂ : ℕ) : Prop :=
  (txs₁.map Prod.fst ++ now₁ :: (txs₂.map Prod.fst ++ [now₂])).Pairwise (· ≤ ·)

def StartedOnce (t : String) (txs : List (ℕ × Call)) : Prop :=
  ((accepted deployed txs).filter (isStart t)).length = 1

instance (txs₁ : List (ℕ × Call)) (now₁ : ℕ) (txs₂ : List (ℕ × Call)) (now₂ : ℕ) :
    Decidable (Chronological txs₁ now₁ txs₂ now₂) :=
  inferInstanceAs (Decidable (List.Pairwise _ _))

instance (t : String) (txs : List (ℕ × Call)) : Decidable (StartedOnce t txs) :=
  inferInstanceAs (Decidable (_ = _))

/-- A COMMIT or ABORT read after txs₁ is read again after txs₂. -/
def DecisionKept (t : String) (txs₁ : List (ℕ × Call)) (now₁ : ℕ) (txs₂ : List (ℕ × Call))
    (now₂ : ℕ) : Prop :=
  ∀ d, votingDecision now₁ t (run deployed txs₁) = some d →
    d.option = .commit ∨ d.option = .abort →
    ∃ d', votingDecision now₂ t (run deployed (txs₁ ++ txs₂)) = some d' ∧ d'.option = d.option

theorem chronological_le {txs₁ txs₂ : List (ℕ × Call)} {now₁ now₂ : ℕ}
    (h : Chronological txs₁ now₁ txs₂ now₂) : now₁ ≤ now₂ ∧ ∀ tx ∈ txs₂, now₁ ≤ tx.1 := by
  have h' := (List.pairwise_cons.mp (List.pairwise_append.mp h).2.1).1
  exact ⟨h' now₂ (by simp), fun tx htx => h' tx.1 (by simp [List.mem_map_of_mem htx])⟩

theorem no_restart {t : String} {txs₁ txs₂ : List (ℕ × Call)} (h : StartedOnce t (txs₁ ++ txs₂))
    (hc : 0 < ((run deployed txs₁).transactionConfigs t).cohorts) :
    ∀ tx ∈ accepted (run deployed txs₁) txs₂, ¬isStart t tx := by
  obtain ⟨a, ha, hst⟩ := started_of_cohorts wellFormed_deployed txs₁ t rfl hc
  have hpos : 0 < ((accepted deployed txs₁).filter (isStart t)).length :=
    List.length_pos_of_mem (List.mem_filter.mpr ⟨ha, hst⟩)
  rw [StartedOnce, accepted_append, List.filter_append, List.length_append] at h
  have hnil : (accepted (run deployed txs₁) txs₂).filter (isStart t) = [] :=
    List.length_eq_zero_iff.mp (by omega)
  exact List.filter_eq_nil_iff.mp hnil

/-- A COMMIT or ABORT read at or past the deadline is final; one read before it is final as
long as no accepted vote replaces a ballot already cast by a different one. -/
theorem decision_final (t : String) (txs₁ txs₂ : List (ℕ × Call)) (now₁ now₂ : ℕ)
    (d : VotingDecision) (htime : Chronological txs₁ now₁ txs₂ now₂)
    (hstart : StartedOnce t (txs₁ ++ txs₂))
    (hread : votingDecision now₁ t (run deployed txs₁) = some d)
    (hd : d.option = .commit ∨ d.option = .abort)
    (hkeep : ((run deployed txs₁).transactionConfigs t).voteTimeoutTime ≤ now₁ ∨
      Throughout (KeepsCastBallots t) (run deployed txs₁) txs₂) :
    votingDecision now₂ t (run deployed (txs₁ ++ txs₂)) = some d := by
  have hs : WellFormed (run deployed txs₁) := wellFormed_deployed.run txs₁
  obtain ⟨hle, hnow⟩ := chronological_le htime
  rw [votingDecision_eq hs.mock] at hread
  split_ifs at hread with hc
  rw [Option.some.injEq] at hread
  have hext := extends_run hs hnow (no_restart hstart hc) hkeep
  rw [run_append, votingDecision_eq (hs.run txs₂).mock, hext.config, if_pos hc,
    hext.decision hle (by rw [hread]; obtain h | h := hd <;> simp [h]), hread]

/-- The hypotheses of `decision_final` hold on a run that commits and then times out. -/
theorem decision_final_commit :
    votingDecision 200 "t" (run deployed ([(10, .startVoting "t" 2 100),
      (20, .vote "t" 0 .commit), (30, .vote "t" 1 .commit)] ++ [(50, .vote "t" 1 .commit)])) =
      some ⟨.commit, "Sufficient vote collected before timeout."⟩ :=
  decision_final "t" _ _ 40 200 _ (by decide) (by decide) (by decide) (.inl rfl)
    (.inr ⟨fun i b h _ => by cases h; exact .inr (by decide), trivial⟩)

/-- A vote accepted before the deadline withdraws a COMMIT that was already read. -/
theorem decision_withdrawn :
    ¬∀ t txs₁ now₁ txs₂ now₂, Chronological txs₁ now₁ txs₂ now₂ → StartedOnce t (txs₁ ++ txs₂) →
      DecisionKept t txs₁ now₁ txs₂ now₂ := by
  intro h
  obtain ⟨d', hd', ho⟩ := h "t" [(10, .startVoting "t" 2 100), (20, .vote "t" 0 .commit),
    (30, .vote "t" 1 .commit)] 40 [(50, .vote "t" 0 .abort)] 60 (by decide) (by decide)
    ⟨.commit, "Sufficient vote collected before timeout."⟩ (by decide) (.inl rfl)
  have hnow : votingDecision 60 "t" (run deployed ([(10, .startVoting "t" 2 100),
      (20, .vote "t" 0 .commit), (30, .vote "t" 1 .commit)] ++ [(50, .vote "t" 0 .abort)])) =
      some ⟨.abort, "Cohort voted to abort."⟩ := by decide
  rw [hnow, Option.some.injEq] at hd'
  subst hd'
  cases ho

/-- A startVoting for a transaction whose voting has started fails one of the requires. -/
def RestartRejected (s : State) (tx : ℕ × Call) : Prop :=
  ∀ t n d, tx.2 = .startVoting t n d → 0 < (s.transactionConfigs t).cohorts →
    n = 0 ∨ 120 < n ∨ d ≤ tx.1

/-- Every accepted ballot stays recorded, with the configuration it was accepted under, until
the same cohort's next accepted vote; and a startVoting of a started transaction reverts. -/
structure NoBallotLost (txs : List (ℕ × Call)) : Prop where
  recorded : ∀ txs₁ txs₂ txs₃ now t i b, txs = txs₁ ++ (now, .vote t i b) :: txs₂ ++ txs₃ →
    (Contract.vote now t i b (run deployed txs₁)).isSome →
    (∀ tx ∈ accepted (step (run deployed txs₁) (now, .vote t i b)) txs₂, ∀ b', tx.2 ≠ .vote t i b') →
    let s := run deployed (txs₁ ++ (now, .vote t i b) :: txs₂)
    ballotOf s t i = b ∧
      s.transactionConfigs t = (run deployed txs₁).transactionConfigs t
  restart : ∀ txs₁ txs₂ now t n d, txs = txs₁ ++ (now, .startVoting t n d) :: txs₂ →
    0 < ((run deployed txs₁).transactionConfigs t).cohorts →
    Contract.startVoting now t n d (run deployed txs₁) = none

theorem startVoting_eq_none_iff {s : State} (hs : WellFormed s) (now : ℕ) (t : String) (n d : ℕ) :
    Contract.startVoting now t n d s = none ↔ n = 0 ∨ 120 < n ∨ d ≤ now := by
  rw [Contract.startVoting, getNow_of_mockNow s now hs.mock]
  split_ifs with h
  · simp only [false_iff]
    omega
  · simp only [true_iff]
    omega

theorem ballot_kept {s : State} (hs : WellFormed s) {t : String} {i : ℕ} {txs : List (ℕ × Call)}
    (hi : i < (s.transactionConfigs t).cohorts) (hrestart : Throughout RestartRejected s txs)
    (hvote : ∀ tx ∈ accepted s txs, ∀ b, tx.2 ≠ .vote t i b) :
    ballotOf (run s txs) t i = ballotOf s t i ∧
      (run s txs).transactionConfigs t = s.transactionConfigs t := by
  induction txs generalizing s with
  | nil => exact ⟨rfl, rfl⟩
  | cons tx txs ih =>
    obtain ⟨htx, htxs⟩ := forall_accepted_cons.mp hvote
    have hstep : ballotOf (step s tx) t i = ballotOf s t i ∧
        (step s tx).transactionConfigs t = s.transactionConfigs t := by
      obtain ⟨hcfg, hb⟩ | ⟨j, b, hcall, hacc, _, _, _, hcfg, hb⟩ |
        ⟨n, d, hcall, _, hn, hn', hd, _⟩ := step_cases hs tx t
      · exact ⟨hb i, hcfg⟩
      · have hij : i ≠ j := fun h => htx hacc b (by rw [h]; exact hcall)
        exact ⟨by rw [hb i hi, if_neg hij], hcfg⟩
      · have hrej := hrestart.1 t n d hcall (by omega)
        omega
    have htail := ih (hs.step tx) (by rwa [hstep.2]) hrestart.2 htxs
    exact ⟨htail.1.trans hstep.1, htail.2.trans hstep.2⟩

theorem vote_recorded {s : State} (hs : WellFormed s) {now i : ℕ} {t : String} {b : Ballot}
    (hacc : (Contract.vote now t i b s).isSome) :
    i < (s.transactionConfigs t).cohorts ∧
      ballotOf (step s (now, .vote t i b)) t i = b ∧
      (step s (now, .vote t i b)).transactionConfigs t = s.transactionConfigs t := by
  rw [Contract.vote] at hacc
  split_ifs at hacc with hreq
  · refine ⟨hreq.2.1, ?_⟩
    simp only [step, Call.apply, Contract.vote, if_pos hreq, Option.getD_some, and_true, ballotOf,
      Function.update_self]
    rw [getCohortBallot_new (hs.bounded t) (hs.small t) hreq.2.1 hreq.2.1, if_pos rfl]
  · cases hacc

/-- No accepted ballot is ever lost exactly in the runs whose restarts all revert. -/
theorem noBallotLost_iff (txs : List (ℕ × Call)) :
    NoBallotLost txs ↔ Throughout RestartRejected deployed txs := by
  have hwf (txs₁ : List (ℕ × Call)) : WellFormed (run deployed txs₁) := wellFormed_deployed.run txs₁
  constructor
  · intro h
    rw [throughout_iff]
    intro txs₁ tx txs₂ he t n d hcall hc
    obtain ⟨now, c⟩ := tx
    cases hcall
    exact (startVoting_eq_none_iff (hwf txs₁) now t n d).mp (h.restart txs₁ txs₂ now t n d he hc)
  · intro h
    refine ⟨?_, ?_⟩
    · intro txs₁ txs₂ txs₃ now t i b he hacc hvote
      rw [he, throughout_append, throughout_append] at h
      obtain ⟨hi, hb, hcfg⟩ := vote_recorded (hwf txs₁) hacc
      have hkept := ballot_kept ((hwf txs₁).step _) (by rwa [hcfg]) h.1.2.2 hvote
      rw [run_append, run_cons]
      exact ⟨hkept.1.trans hb, hkept.2.trans hcfg⟩
    · intro txs₁ txs₂ now t n d he hc
      rw [throughout_iff] at h
      exact (startVoting_eq_none_iff (hwf txs₁) now t n d).mpr (h txs₁ _ txs₂ he t n d rfl hc)

/-- A second startVoting before its own deadline is accepted and wipes a recorded ballot. -/
theorem ballot_lost :
    ¬NoBallotLost [(10, .startVoting "t" 2 100), (20, .vote "t" 0 .commit),
      (30, .startVoting "t" 2 100)] := by
  intro h
  have hrec := h.recorded [(10, .startVoting "t" 2 100)] [(30, .startVoting "t" 2 100)] [] 20 "t" 0
    .commit rfl (by decide) (fun tx htx b' he => by
      rw [List.mem_singleton.mp (mem_of_accepted htx)] at he
      cases he)
  exact absurd hrec.1 (by decide)

def lastVote (t : String) (i : ℕ) : List (ℕ × Call) → Option Ballot
  | [] => none
  | tx :: txs =>
    (lastVote t i txs).or
      (match tx.2 with
        | .vote u j b => if u = t ∧ j = i then some b else none
        | _ => none)

theorem lastVote_append (t : String) (i : ℕ) (txs txs' : List (ℕ × Call)) :
    lastVote t i (txs ++ txs') = (lastVote t i txs').or (lastVote t i txs) := by
  induction txs with
  | nil => simp [lastVote]
  | cons tx txs ih => rw [List.cons_append, lastVote, ih, lastVote, Option.or_assoc]

theorem lastVote_vote (t : String) (i now : ℕ) (b : Ballot) :
    lastVote t i [(now, .vote t i b)] = some b := by
  simp [lastVote]

theorem lastVote_singleton_of_ne {t : String} {i : ℕ} {tx : ℕ × Call}
    (h : ∀ b, tx.2 ≠ .vote t i b) : lastVote t i [tx] = none := by
  obtain ⟨now, c⟩ := tx
  cases c with
  | startVoting u n d => rfl
  | getVotingDecision u => rfl
  | vote u j b =>
    have hne : ¬(u = t ∧ j = i) := by
      rintro ⟨rfl, rfl⟩
      exact h b rfl
    simp [lastVote, hne]

theorem accepted_singleton (s : State) (tx : ℕ × Call) :
    accepted s [tx] = if (tx.2.apply tx.1 s).isSome then [tx] else [] := by
  simp [accepted]

theorem ballotOf_step {s : State} (hs : WellFormed s) {t : String} {i : ℕ} {tx : ℕ × Call}
    (hi : i < (s.transactionConfigs t).cohorts) (hstart : ∀ a ∈ accepted s [tx], ¬isStart t a) :
    ballotOf (step s tx) t i = (lastVote t i (accepted s [tx])).getD (ballotOf s t i) ∧
      (step s tx).transactionConfigs t = s.transactionConfigs t := by
  rw [accepted_singleton] at hstart ⊢
  by_cases hv : ∃ b, tx.2 = .vote t i b ∧ (tx.2.apply tx.1 s).isSome
  · obtain ⟨b, hcall, hacc⟩ := hv
    obtain ⟨now, c⟩ := tx
    subst hcall
    obtain ⟨_, hb, hcfg⟩ := vote_recorded hs hacc
    rw [if_pos hacc, lastVote_vote, Option.getD_some]
    exact ⟨hb, hcfg⟩
  · have hnone : lastVote t i (if (tx.2.apply tx.1 s).isSome then [tx] else []) = none := by
      split_ifs with hacc
      · exact lastVote_singleton_of_ne fun b hb => hv ⟨b, hb, hacc⟩
      · rfl
    rw [hnone, Option.getD_none]
    obtain ⟨hcfg, hb⟩ | ⟨j, b, hcall, hacc, _, _, _, hcfg, hb⟩ | ⟨n, d, hcall, hacc, _⟩ :=
      step_cases hs tx t
    · exact ⟨hb i, hcfg⟩
    · have hij : i ≠ j := fun h => hv ⟨b, by rw [h]; exact hcall, hacc⟩
      exact ⟨by rw [hb i hi, if_neg hij], hcfg⟩
    · rw [if_pos hacc] at hstart
      exact absurd ((isStart_iff t tx).mpr ⟨n, d, hcall⟩) (hstart tx (by simp))

theorem ballotOf_run {s : State} (hs : WellFormed s) {t : String} {i : ℕ}
    (hi : i < (s.transactionConfigs t).cohorts) {txs : List (ℕ × Call)}
    (hstart : ∀ a ∈ accepted s txs, ¬isStart t a) :
    ballotOf (run s txs) t i = (lastVote t i (accepted s txs)).getD (ballotOf s t i) ∧
      (run s txs).transactionConfigs t = s.transactionConfigs t := by
  induction txs using List.reverseRecOn with
  | nil => exact ⟨rfl, rfl⟩
  | append_singleton txs tx ih =>
    rw [accepted_append] at hstart ⊢
    obtain ⟨hb, hcfg⟩ := ih fun a ha => hstart a (by simp [ha])
    obtain ⟨hb', hcfg'⟩ := ballotOf_step (hs.run txs) (by rwa [hcfg])
      fun a ha => hstart a (List.mem_append_right _ ha)
    rw [run_append, run_cons, run_nil, lastVote_append, hb', hb, hcfg', hcfg]
    cases lastVote t i (accepted (run s txs) [tx]) <;> simp

/-- After a startVoting with n cohorts that is not repeated, COMMIT is reached exactly when the
last accepted vote of each of the n cohorts is COMMIT. -/
theorem commit_iff_lastVotes {s s' : State} (hs : WellFormed s) {now n d : ℕ} {t : String}
    (hv : Contract.startVoting now t n d s = some s') {txs : List (ℕ × Call)}
    (hstart : ∀ a ∈ accepted s' txs, ¬isStart t a) (now' : ℕ) :
    (∃ d, votingDecision now' t (run s' txs) = some d ∧ d.option = .commit) ↔
      ∀ i < n, lastVote t i (accepted s' txs) = some .commit := by
  have hstep : step s (now, .startVoting t n d) = s' := by simp [step, Call.apply, hv]
  have hs' : WellFormed s' := hstep ▸ hs.step _
  have hreq : (0 < n ∧ n ≤ 120 ∧ getNow s now < d) ∧
      s'.transactionConfigs t = ⟨n, d⟩ ∧ s'.transactionStates t = 0 := by
    unfold Contract.startVoting at hv
    split_ifs at hv with hreq
    cases hv
    exact ⟨hreq, by simp, by simp⟩
  obtain ⟨⟨hpos, hsmall, _⟩, hcfg, hzero⟩ := hreq
  have hrun (i : ℕ) (hi : i < n) := ballotOf_run hs' (by rw [hcfg]; exact hi) hstart
  have hcfg' : (run s' txs).transactionConfigs t = ⟨n, d⟩ := (hrun 0 hpos).2.trans hcfg
  have hballot (i : ℕ) (hi : i < n) : ballotOf (run s' txs) t i = .commit ↔
      lastVote t i (accepted s' txs) = some .commit := by
    have hunset : ballotOf s' t i = .unknown := by
      rw [ballotOf, hzero, getCohortBallot_zero (by omega)]
    rw [(hrun i hi).1, hunset]
    cases lastVote t i (accepted s' txs) <;> simp
  rw [votingDecision_eq (hs'.run txs).mock, hcfg', if_pos hpos]
  simp only [Option.some.injEq, exists_eq_left', BallotTable.decision_commit_iff, entryOf, hcfg',
    List.mem_map, List.mem_range, forall_exists_index, and_imp, forall_apply_eq_imp_iff₂]
  exact forall₂_congr hballot

end TwoPhaseCommit.ContractRuns
