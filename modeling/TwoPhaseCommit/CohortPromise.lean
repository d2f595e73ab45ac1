import TwoPhaseCommit.CohortSerial

/-! A cohort that has sent a COMMIT ballot keeps its promise. -/
namespace TwoPhaseCommit.Cohort
open Database Locks
open AdapterChain.Blockchain (Ballot VotingDecision)

/-- The transaction is open with all its operations applied, as if alone, and under every lock
that covers its keys. -/
structure HeldOpen (c : Adapter) (s : State) (id : String) (t : Thread) : Prop where
  thread : s.threads id = some t
  isOpen : t.metadata.db.isSome
  applied : View c.access s.store t.request.transaction.ops t.metadata
  covers : Covers c s.mutexes id t.request.transaction.ops

/-- What holds in s, reached by the actions sent and then after, of a thread whose last action
in sent was its COMMIT ballot. -/
structure PromiseKept (c : Adapter) (id : String) (sent after : List (String × Action))
    (s : State) : Prop where
  persisted : (id, .persistResponse true) ∈ sent ∧ (id, .persistRequest true) ∈ sent
  held : (id, .commit none) ∉ after → (id, .abort) ∉ after → ∃ t, HeldOpen c s id t
  noAbortBallot : ∀ i, (id, .vote i .abort) ∉ after
  abortRead : ∀ before rest, after = before ++ (id, .abort) :: rest →
    (id, .poll (some .abort)) ∈ before
  commitRead : ∀ before rest fault, after = before ++ (id, .commit fault) :: rest →
    (id, .poll (some .commit)) ∈ before

section Run
variable {c : Adapter} {store : Store String} {sent after : List (String × Action)} {s : State}
  {id : String} {i : UInt32}

theorem promised_mem :
    .vote i .commit ∈ actionsOf id (sent ++ (id, .vote i .commit) :: after) := by simp

theorem before_promise (h : Run c store (sent ++ (id, .vote i .commit) :: after) s) :
    Idle (actionsOf id sent) ∧ (id, .persistResponse true) ∈ sent ∧
      (id, .persistRequest true) ∈ sent := by
  obtain ⟨m, m', hsent, hs, _⟩ := h.at
  cases hs with
  | vote ht =>
    obtain ⟨hidle, _, hresponse, hrequest⟩ := (story_run hsent ht).1.phase
    exact ⟨hidle, mem_actionsOf.mp hresponse, mem_actionsOf.mp hrequest⟩

theorem Story.votes_eq {as : List Action} {t : Thread} (h : Story as t)
    (hv : .vote i .commit ∈ as) : votes as = [(i, .commit)] := by
  rw [← mem_votes] at hv
  obtain hnil | ⟨ballot, hone⟩ := h.votes_cases
  · rw [hnil] at hv
    cases hv
  · rw [hone, List.mem_singleton] at hv
    rw [hone, hv]

theorem read_after (h : Run c store (sent ++ (id, .vote i .commit) :: after) s)
    {d : VotingDecision}
    (hread : .poll (some d) ∈ actionsOf id (sent ++ (id, .vote i .commit) :: after)) :
    (id, .poll (some d)) ∈ after := by
  obtain ⟨hidle, _⟩ := before_promise h
  have hnot : (id, .poll (some d)) ∉ sent := by
    rw [← mem_actionsOf, ← mem_reads, hidle.reads]
    exact List.not_mem_nil
  rw [mem_actionsOf, List.mem_append, List.mem_cons] at hread
  obtain hsent | hvote | hafter := hread
  · exact absurd hsent hnot
  · cases hvote
  · exact hafter

theorem ended_after (h : Run c store (sent ++ (id, .vote i .commit) :: after) s) {a : Action}
    (he : a.ending.isSome) (ha : a ∈ actionsOf id (sent ++ (id, .vote i .commit) :: after)) :
    (id, a) ∈ after := by
  obtain ⟨hidle, _⟩ := before_promise h
  rw [mem_actionsOf, List.mem_append, List.mem_cons] at ha
  obtain hsent | hvote | hafter := ha
  · obtain ⟨e, hae⟩ := Option.isSome_iff_exists.mp he
    have hmem : e ∈ endings (actionsOf id sent) :=
      List.mem_filterMap.mpr ⟨a, mem_actionsOf.mpr hsent, hae⟩
    rw [hidle.endings] at hmem
    cases hmem
  · obtain rfl := (Prod.mk.inj hvote).2
    cases he
  · exact hafter

/-- A thread with a COMMIT ballot that has not ended its transaction holds it open. -/
theorem heldOpen_of_promised {t : Thread} (h : Run c store (sent ++ (id, .vote i .commit) :: after) s)
    (ht : s.threads id = some t) (hopen : t.phase.ended = false) : HeldOpen c s id t := by
  have hpromised := (story_run h ht).1.promised (mem_votes.mpr promised_mem) hopen
  have hisolated := isolated_run h
  have hcovers := (hisolated.locks id t ht).covers
  have hview := hisolated.views id t ht
  obtain ⟨hcovered, happlied⟩ : t.phase.covered ∧
      View c.access s.store t.request.transaction.ops t.metadata := by
    obtain ⟨request, metadata, phase⟩ := t
    cases phase with
    | waiting => exact ⟨rfl, hview⟩
    | committing => exact ⟨rfl, hview⟩
    | aborting abortStatus reason =>
      cases abortStatus with
      | none => exact ⟨rfl, hview⟩
      | some status => cases hpromised
    | _ => cases hpromised
  refine ⟨ht, ?_, happlied, hcovers hcovered⟩
  obtain ⟨v, _, hsame⟩ := happlied
  obtain ⟨_, _, _, _, hdb⟩ := hsame.db
  simp [hdb]

theorem read_before_abort (h : Run c store (sent ++ (id, .vote i .commit) :: after) s)
    {request : PrepareTransactionRequest} {metadata : Metadata} {abortStatus : Option Status}
    {reason : AbortReason} (ht : s.threads id = some ⟨request, metadata, .aborting abortStatus reason⟩) :
    (id, .poll (some .abort)) ∈ after := by
  have hstory := (story_run h ht).1
  cases abortStatus with
  | none => exact read_after h hstory.phase.2.2
  | some status =>
    have habort : votes _ = [(request.cohortIndex, .abort)] := hstory.phase.2
    rw [hstory.votes_eq promised_mem] at habort
    simp at habort

theorem read_before_commit (h : Run c store (sent ++ (id, .vote i .commit) :: after) s)
    {request : PrepareTransactionRequest} {metadata : Metadata}
    (ht : s.threads id = some ⟨request, metadata, .committing⟩) :
    (id, .poll (some .commit)) ∈ after := by
  have hstory := (story_run h ht).1
  obtain ⟨_, hnil⟩ | ⟨_, hread⟩ := hstory.phase.2
  · rw [hstory.votes_eq promised_mem] at hnil
    cases hnil
  · exact read_after h hread

/-- Once a cohort has sent a COMMIT ballot it stays able to commit and to abort, and does
neither until the blockchain tells it to. -/
theorem promise_kept (h : Run c store (sent ++ (id, .vote i .commit) :: after) s) :
    PromiseKept c id sent after s := by
  have hprefix {before rest : List (String × Action)} {x : String × Action}
      (he : after = before ++ x :: rest) :
      ∃ m m', Run c store (sent ++ (id, .vote i .commit) :: before) m ∧ Step c m x m' := by
    have hrun := h
    rw [he, ← List.cons_append, ← List.append_assoc] at hrun
    obtain ⟨m, m', hm, hs, _⟩ := hrun.at
    exact ⟨m, m', hm, hs⟩
  obtain ⟨t, ht⟩ := thread_of_action h (List.ne_nil_of_mem promised_mem)
  have hstory := (story_run h ht).1
  refine ⟨(before_promise h).2, ?_, ?_, ?_, ?_⟩
  · intro hcommit habort
    refine ⟨t, heldOpen_of_promised h ht ?_⟩
    rw [← Bool.not_eq_true]
    intro hended
    obtain ⟨he, _⟩ | ⟨he, _⟩ := hstory.ended hended
    · exact hcommit (ended_after h rfl (mem_endings_committed.mp (by simp [he])))
    · exact habort (ended_after h rfl (mem_endings_aborted.mp (by simp [he])))
  · intro j hj
    have habort : .vote j .abort ∈ actionsOf id (sent ++ (id, .vote i .commit) :: after) := by
      simp [hj]
    rw [← mem_votes, hstory.votes_eq promised_mem] at habort
    simp at habort
  · intro before rest he
    obtain ⟨m, m', hm, hs⟩ := hprefix he
    cases hs with
    | abort ht => exact read_before_abort hm ht
  · intro before rest fault he
    obtain ⟨m, m', hm, hs⟩ := hprefix he
    cases hs with
    | commitFault ht hf => exact read_before_commit hm ht
    | commit ht => exact read_before_commit hm ht

end Run

def sharedRequest (cohortIndex : UInt32) : PrepareTransactionRequest :=
  { putRequest "a" with participantInfo := some (.cohortIndex cohortIndex) }

/-- A put that is voted on and committed. -/
theorem promise_kept_put : ∃ s, s.store "k" = some 5 ∧
    PromiseKept localAdapter "a" [("a", .start (sharedRequest 1)), ("a", .lock true),
      ("a", .begin none), ("a", .operate none), ("a", .endOperations),
      ("a", .persistResponse true), ("a", .persistRequest true)]
      [("a", .poll (some .commit)), ("a", .commit none)] s := by
  obtain ⟨s, hk, hrun⟩ : ∃ s, s.store "k" = some 5 ∧ Run localAdapter (fun _ => none)
      ([("a", .start (sharedRequest 1)), ("a", .lock true), ("a", .begin none),
        ("a", .operate none), ("a", .endOperations), ("a", .persistResponse true),
        ("a", .persistRequest true)] ++ ("a", .vote (sharedRequest 1).cohortIndex .commit) ::
        [("a", .poll (some .commit)), ("a", .commit none)]) s := by
    refine ⟨_, ?_, .cons (.start (sharedRequest 1) keyOrders rfl rfl) (.cons (.lock true rfl rfl)
      (.cons (.begin rfl) (.cons (.operate rfl (by simp)) (.cons (.endOperations rfl)
      (.cons (.persistResponse true rfl) (.cons (.persistRequest true rfl) (.cons (.vote rfl)
      (.cons (.pollCommit rfl) (.cons (.commit rfl) .nil)))))))))⟩
    rfl
  exact ⟨s, hk, promise_kept hrun⟩

end TwoPhaseCommit.Cohort
