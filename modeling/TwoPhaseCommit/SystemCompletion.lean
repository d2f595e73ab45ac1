import TwoPhaseCommit.OneCopy
import TwoPhaseCommit.SystemProgress

/-! What has committed somewhere can be finished everywhere by the cohorts on their own, so that
every run has a completion that one database explains. -/
namespace TwoPhaseCommit.Cohort
open Locks

/-- The phases from which a thread commits as soon as it reads COMMIT, or in which it has ended. -/
def Phase.settling : Phase → Bool
  | .waiting | .committing | .releasing _ | .finished => true
  | _ => false

def Settling (s : State) (id : String) : Prop := ∃ t, s.threads id = some t ∧ t.phase.settling

/-- What is left for a thread to do where the decision is COMMIT. -/
def rest (t : Thread) : List Action :=
  match t.phase with
  | .waiting => settleActions .commit t.metadata
  | .committing => .commit none :: releaseActions (heldLocks t.metadata).length
  | .releasing todo => releaseActions todo.length
  | _ => []

def Action.finishes : Action → Bool
  | .poll (some .commit) | .commit none | .unlock | .finish => true
  | _ => false

theorem finishes_of_mem_release {n : ℕ} {action : Action} (h : action ∈ releaseActions n) :
    action.finishes := by
  obtain h | h := List.mem_append.mp h
  · rw [List.eq_of_mem_replicate h]
    rfl
  · rw [List.mem_singleton.mp h]
    rfl

theorem finishes_of_mem_rest {t : Thread} {action : Action} (h : action ∈ rest t) :
    action.finishes := by
  obtain ⟨request, m, phase⟩ := t
  cases phase with
  | waiting =>
    obtain rfl | h := List.mem_cons.mp h
    · rfl
    obtain rfl | h := List.mem_cons.mp h
    · rfl
    exact finishes_of_mem_release h
  | committing =>
    obtain rfl | h := List.mem_cons.mp h
    · rfl
    exact finishes_of_mem_release h
  | releasing todo => exact finishes_of_mem_release h
  | _ => cases h

section Rest
variable {c : Adapter} {s s' : State} {id : String} {t : Thread}

theorem IsFinished.settling (h : IsFinished s id) : Settling s id := by
  obtain ⟨t, ht, hphase⟩ := h
  exact ⟨t, ht, by rw [hphase]; rfl⟩

theorem commit_run {request : PrepareTransactionRequest} {m : Metadata}
    (ht : s.threads id = some ⟨request, m, .committing⟩) :
    ∃ s', Runs.Run (Step c) s
      ((.commit none :: releaseActions (heldLocks m).length).map (id, ·)) s' ∧ IsFinished s' id := by
  obtain ⟨s', hrun, hthread, _⟩ := release_run (c := c) (m := committedMetadata m)
    (s := { s with store := Database.commitStore s.store m }.set id
      ⟨request, committedMetadata m, .releasing (heldLocks m)⟩) (State.threads_set ..)
  exact ⟨s', .cons (.commit ht) hrun, _, hthread, rfl⟩

theorem rest_run (ht : s.threads id = some t) (hp : t.phase.settling) :
    ∃ s', Runs.Run (Step c) s ((rest t).map (id, ·)) s' ∧ IsFinished s' id := by
  obtain ⟨request, m, phase⟩ := t
  cases phase with
  | waiting =>
    obtain ⟨s', hrun, hreturned⟩ := commit_run (c := c)
      (s := s.set id ⟨request, m, .committing⟩) (State.threads_set ..)
    exact ⟨s', .cons (.pollCommit ht) hrun, hreturned⟩
  | committing => exact commit_run ht
  | releasing todo =>
    obtain ⟨s', hrun, hthread, _⟩ := release_run (c := c) ht
    exact ⟨s', hrun, _, hthread, rfl⟩
  | finished => exact ⟨s, .nil, _, ht, rfl⟩
  | _ => cases hp

theorem frame_run {actions : List Action} (h : Runs.Run (Step c) s (actions.map (id, ·)) s')
    {u : String} (hu : u ≠ id) : s'.threads u = s.threads u := by
  induction actions generalizing s with
  | nil => rw [h.of_nil]
  | cons action actions ih =>
    obtain ⟨m, hs, hrest⟩ := h.uncons
    exact (ih hrest).trans (congrArg Prod.fst (hs.frame hu))

end Rest

end TwoPhaseCommit.Cohort

namespace TwoPhaseCommit.System
open Coordinator (SubTransaction addresses messages submissionRpcs)
open Cohort (Settling IsFinished)

section Finish
variable {P : Parties} {a id : String} {s m s' : State}

theorem received_of_finishes (hread : (id, .commit) ∈ s.decisions) {action : Cohort.Action}
    (h : action.finishes) : Received s a id action ∧ ballots id action = ∅ := by
  cases action with
  | poll reply =>
    cases reply with
    | none => exact ⟨trivial, rfl⟩
    | some d =>
      cases d with
      | commit => exact ⟨hread, rfl⟩
      | _ => cases h
  | commit fault => exact ⟨trivial, rfl⟩
  | unlock => exact ⟨trivial, rfl⟩
  | finish => exact ⟨trivial, rfl⟩
  | _ => cases h

/-- Steps ys with which cohorts finish some of the transactions in ps, each at the cohort it is
paired with. -/
structure Finishes (P : Parties) (ps : List (String × String)) (s : State) (ys : List Action)
    (s' : State) : Prop where
  run : Runs.Run (Step P) s ys s'
  steps : ∀ y ∈ ys, ∃ p ∈ ps, ∃ action, y = .cohort p.1 p.2 action ∧ action.finishes
  decisions : s'.decisions = s.decisions
  contract : s'.contract = s.contract
  coordinator : s'.coordinator = s.coordinator
  settling : ∀ b u, Settling (s.cohorts b) u → Settling (s'.cohorts b) u
  returned : ∀ b u, IsFinished (s.cohorts b) u → IsFinished (s'.cohorts b) u

theorem finish_cohort (hread : (id, .commit) ∈ s.decisions) (hsettling : Settling (s.cohorts a) id) :
    ∃ ys s', Finishes P [(a, id)] s ys s' ∧ IsFinished (s'.cohorts a) id := by
  obtain ⟨t, ht, hphase⟩ := hsettling
  obtain ⟨k, hrun, hreturned⟩ := Cohort.rest_run (c := P.adapters a) ht hphase
  have hat : IsFinished ((s.setCohort a k).cohorts a) id := by rwa [State.cohorts_setCohort]
  have hother (b u : String) (hne : b ≠ a ∨ u ≠ id) :
      ((s.setCohort a k).cohorts b).threads u = (s.cohorts b).threads u := by
    by_cases hb : b = a
    · subst hb
      rw [State.cohorts_setCohort]
      exact Cohort.frame_run hrun (hne.resolve_left fun h => h rfl)
    · have hsame : (s.setCohort a k).cohorts b = s.cohorts b := Function.update_of_ne hb _ _
      rw [hsame]
  refine ⟨_, _, ⟨cohort_lift hrun fun action hmem =>
    received_of_finishes hread (Cohort.finishes_of_mem_rest hmem), ?_, rfl, rfl, rfl, ?_, ?_⟩, hat⟩
  · intro y hy
    obtain ⟨action, hmem, rfl⟩ := List.mem_map.mp hy
    exact ⟨_, List.mem_singleton_self _, action, rfl, Cohort.finishes_of_mem_rest hmem⟩
  · intro b u hb
    by_cases hbu : b = a ∧ u = id
    · obtain ⟨rfl, rfl⟩ := hbu
      exact hat.settling
    · rw [Settling, hother b u (not_and_or.mp hbu)]
      exact hb
  · intro b u hb
    by_cases hbu : b = a ∧ u = id
    · obtain ⟨rfl, rfl⟩ := hbu
      exact hat
    · rw [IsFinished, hother b u (not_and_or.mp hbu)]
      exact hb

theorem finish_cohorts (ps : List (String × String))
    (h : ∀ p ∈ ps, (p.2, .commit) ∈ s.decisions ∧ Settling (s.cohorts p.1) p.2) :
    ∃ ys s', Finishes P ps s ys s' ∧ ∀ p ∈ ps, IsFinished (s'.cohorts p.1) p.2 := by
  induction ps generalizing s with
  | nil =>
    exact ⟨[], s, ⟨.nil, List.forall_mem_nil _, rfl, rfl, rfl, fun _ _ h => h, fun _ _ h => h⟩,
      List.forall_mem_nil _⟩
  | cons p ps ih =>
    obtain ⟨hread, hsettling⟩ := h p List.mem_cons_self
    obtain ⟨ys, m, hfirst, hreturned⟩ := finish_cohort (P := P) hread hsettling
    have hrest : ∀ q ∈ ps, (q.2, .commit) ∈ m.decisions ∧ Settling (m.cohorts q.1) q.2 := by
      intro q hq
      obtain ⟨hread', hsettling'⟩ := h q (List.mem_cons_of_mem p hq)
      exact ⟨hfirst.decisions ▸ hread', hfirst.settling _ _ hsettling'⟩
    obtain ⟨zs, s', hlater, hall⟩ := ih hrest
    refine ⟨ys ++ zs, s', ⟨hfirst.run.append hlater.run, ?_, hlater.decisions.trans hfirst.decisions,
      hlater.contract.trans hfirst.contract, hlater.coordinator.trans hfirst.coordinator,
      fun b u hb => hlater.settling b u (hfirst.settling b u hb),
      fun b u hb => hlater.returned b u (hfirst.returned b u hb)⟩, ?_⟩
    · intro y hy
      obtain hy | hy := List.mem_append.mp hy
      · obtain ⟨q, hq, action, rfl, hf⟩ := hfirst.steps y hy
        rw [List.mem_singleton.mp hq]
        exact ⟨p, List.mem_cons_self, action, rfl, hf⟩
      · obtain ⟨q, hq, action, rfl, hf⟩ := hlater.steps y hy
        exact ⟨q, List.mem_cons_of_mem p hq, action, rfl, hf⟩
    · intro q hq
      obtain rfl | hq := List.mem_cons.mp hq
      · exact hlater.returned _ _ hreturned
      · exact hall q hq

end Finish

section Decided
variable {P : Parties} {a id : String} {xs : List Action} {s : State}
  {config : TransactionConfig} {subs : List SubTransaction}
  {m : Namespace × Cohort.PrepareTransactionRequest}

theorem SentInv.settling (hs : SentInv P id config subs xs s) (h : Run P xs s)
    (hread : (id, .commit) ∈ s.decisions)
    (hm : m ∈ messages (submissionRpcs id config subs true)) :
    Settling (s.cohorts m.1.address) id := by
  have hcast := (hs.allVotedCommit h hread).cast m hm
  obtain ⟨t, ht⟩ := thread_at h hcast
  obtain ⟨hstory, _, _⟩ := story_at h ht
  rw [← mem_actionsAt, ← Cohort.mem_actionsOf, ← Cohort.mem_votes] at hcast
  refine ⟨t, ht, ?_⟩
  cases hended : t.phase.ended with
  | true =>
    cases hphase : t.phase with
    | releasing todo => rfl
    | finished => rfl
    | _ =>
      rw [hphase] at hended
      cases hended
  | false =>
    have hpromised := hstory.promised hcast hended
    obtain ⟨request, metadata, phase⟩ := t
    cases phase with
    | waiting => rfl
    | committing => rfl
    | aborting abortStatus reason =>
      cases abortStatus with
      | some status => cases hpromised
      | none =>
        have hpoll : .poll (some .abort) ∈
            Cohort.actionsOf id (actionsAt m.1.address xs) := hstory.phase.2.2
        rw [Cohort.mem_actionsOf, mem_actionsAt] at hpoll
        exact absurd ((records_run h).reads _ id _ hpoll) (hs.reads.consistent hread)
    | _ => cases hpromised

theorem SentInv.committed_of_returned (hs : SentInv P id config subs xs s) (h : Run P xs s)
    (hread : (id, .commit) ∈ s.decisions) (hreturned : IsFinished (s.cohorts a) id) :
    .cohort a id (.commit none) ∈ xs ∧
      ∃ c, Cohort.getTransactionResult (s.cohorts a) id = some (.committedResponse c) := by
  obtain ⟨t, ht, hphase⟩ := hreturned
  obtain ⟨hstory, hid, hfinal⟩ := Cohort.story_run (cohort_run h a) ht
  obtain ⟨hends, _, c, hc⟩ | ⟨_, hmay, _⟩ := hstory.ended (by rw [hphase]; rfl)
  · refine ⟨?_, c, ?_⟩
    · rw [← mem_actionsAt, ← Cohort.mem_actionsOf, ← Cohort.mem_endings_committed, hends]
      exact List.mem_singleton_self _
    · rw [Cohort.getTransactionResult, hfinal, Cohort.finalOf, hphase, ← hc]
      rfl
  · obtain ⟨_, _, hreq⟩ := story_at h ht
    obtain ⟨n, hn, _, hnt⟩ := hs.requests _ t.request hreq hid
    rw [hnt] at hmay
    exact absurd hread (hs.not_commit_of_mayAbort h hn hmay)

theorem SentInv.addresses_perm (hs : SentInv P id config subs xs s) (h : Run P xs s)
    (honce : SubmittedOnce P id xs) :
    ((messages (submissionRpcs id config subs true)).map fun m => m.1.address).Perm
      (addresses (clientOps P xs id)) := by
  obtain ⟨context, request, hx, hsub⟩ := hs.submitted
  rw [clientOps_eq honce hx hsub]
  refine (messages_of_submission h hx ?_).1
  intro hnil
  have hmap := Coordinator.map_messages id config subs (fun m => m.1.address)
    SubTransaction.address fun _ _ _ => rfl
  rw [hnil] at hmap
  exact hs.nonempty (List.map_eq_nil_iff.mp hmap.symm)

end Decided

theorem SubmittedOnce.append {P : Parties} {id : String} {xs ys : List Action}
    (h : SubmittedOnce P id xs) (hys : ∀ y ∈ ys, ¬Submits P id y) :
    SubmittedOnce P id (xs ++ ys) := by
  refine List.pairwise_append.mpr ⟨h, List.pairwise_of_forall_mem_list ?_, ?_⟩
  · exact fun y hy z _ hyz => hys y hy hyz.1
  · exact fun x _ y hy hxy => hys y hy hxy.2

theorem SubmittedOnce.append_cohorts {P : Parties} {id : String} {xs ys : List Action}
    (h : SubmittedOnce P id xs) (hys : ∀ y ∈ ys, ∃ a u action, y = .cohort a u action) :
    SubmittedOnce P id (xs ++ ys) := by
  refine h.append fun y hy => ?_
  obtain ⟨a, u, action, rfl⟩ := hys y hy
  exact fun hsub => hsub

theorem clientOps_append {P : Parties} {id : String} {xs ys : List Action}
    (hys : ∀ y ∈ ys, ∃ a u action, y = .cohort a u action) :
    clientOps P (xs ++ ys) id = clientOps P xs id := by
  have hnone : ys.findSome? (submittedBy P id) = none := by
    refine List.findSome?_eq_none_iff.mpr fun y hy => ?_
    obtain ⟨a, u, action, rfl⟩ := hys y hy
    rfl
  rw [clientOps, clientOps, List.findSome?_append, hnone, Option.or_none]

theorem globalOrder_append_cohorts {xs ys : List Action}
    (hys : ∀ y ∈ ys, ∃ a id action, y = .cohort a id action ∧ id ∈ globalOrder xs) :
    globalOrder (xs ++ ys) = globalOrder xs := by
  induction ys using List.reverseRecOn with
  | nil => rw [List.append_nil]
  | append_singleton ys y ih =>
    have hold := ih fun z hz => hys z (List.mem_append_left _ hz)
    obtain ⟨a, id, action, rfl, hid⟩ := hys y (List.mem_append_right _ (List.mem_singleton_self _))
    rw [← List.append_assoc, globalOrder_snoc, hold]
    obtain ⟨b, u, he, hu, _⟩ | ⟨he, _⟩ :=
      noteCommit_cases (globalOrder xs) (.cohort a id action)
    · obtain ⟨_, rfl, _⟩ := Action.cohort.inj he
      exact absurd hid hu
    · exact he

section Run
variable {P : Parties} {xs : List Action} {s : State}

/-- What is left to do for the transactions that have committed somewhere. -/
theorem settle_all (h : Run P xs s) (honce : ∀ id, SubmittedOnce P id xs) :
    ∃ ps ys s', Finishes P ps s ys s' ∧ (∀ p ∈ ps, p.2 ∈ globalOrder xs) ∧
      Settled P (xs ++ ys) := by
  classical
  let pairs := (globalOrder xs).flatMap fun id =>
    (addresses (clientOps P xs id)).map fun a => (a, id)
  let ps := pairs.filter fun p => (p.2, .commit) ∈ s.decisions
  have hmem {a id : String} : (a, id) ∈ ps ↔ (id ∈ globalOrder xs ∧
      a ∈ addresses (clientOps P xs id)) ∧ (id, .commit) ∈ s.decisions := by
    simp [ps, pairs]
  have hready : ∀ p ∈ ps, (p.2, .commit) ∈ s.decisions ∧ Settling (s.cohorts p.1) p.2 := by
    rintro ⟨a, id⟩ hp
    obtain ⟨⟨hid, ha⟩, hread⟩ := hmem.mp hp
    obtain ⟨b, hb⟩ := mem_globalOrder.mp hid
    obtain ⟨t, ht⟩ := thread_at h hb
    obtain ⟨stage, hinv⟩ := stage_run h (honce id)
    obtain ⟨config, subs, hsent, _⟩ := sent_of_thread h hinv ht
    obtain ⟨m, hm, rfl⟩ := List.mem_map.mp ((hsent.addresses_perm h (honce id)).mem_iff.mpr ha)
    exact ⟨hread, hsent.settling h hread hm⟩
  obtain ⟨ys, s', hfinishes, hreturned⟩ := finish_cohorts (P := P) ps hready
  have hcohorts : ∀ y ∈ ys, ∃ a u action, y = .cohort a u action := by
    intro y hy
    obtain ⟨p, _, action, rfl, _⟩ := hfinishes.steps y hy
    exact ⟨_, _, _, rfl⟩
  have hglobal : ∀ p ∈ ps, p.2 ∈ globalOrder xs := fun p hp => (hmem.mp hp).1.1
  refine ⟨ps, ys, s', hfinishes, hglobal, ?_⟩
  intro id hid a ha
  rw [globalOrder_append_cohorts] at hid
  swap
  · intro y hy
    obtain ⟨p, hp, action, rfl, _⟩ := hfinishes.steps y hy
    exact ⟨_, _, _, rfl, hglobal p hp⟩
  have h' : Run P (xs ++ ys) s' := h.append hfinishes.run
  have honce' := (honce id).append_cohorts hcohorts
  obtain ⟨b, hb⟩ := mem_globalOrder.mp hid
  obtain ⟨t, ht, hended, hcommitted⟩ := ended_at h' rfl (List.mem_append_left ys hb)
  obtain ⟨stage, hinv⟩ := stage_run h' honce'
  obtain ⟨config, subs, hsent, m, hm, rfl, hreq⟩ := sent_of_thread h' hinv ht
  obtain ⟨n, hn, rfl⟩ := List.mem_map.mp ((hsent.addresses_perm h' honce').mem_iff.mpr ha)
  obtain ⟨_, hmay, _⟩ | ⟨hno, _⟩ := hended
  · obtain hone | hread := alone_or_read h' hm (hreq ▸ hmay)
    · obtain ⟨i, sub, hi, rfl⟩ := getElem?_of_mem_messages hm
      obtain ⟨j, sub', hj, rfl⟩ := getElem?_of_mem_messages hn
      have hij : i = j := by
        have hi' := (List.getElem?_eq_some_iff.mp hi).1
        have hj' := (List.getElem?_eq_some_iff.mp hj).1
        omega
      subst hij
      obtain rfl := Option.some.inj (hi.symm.trans hj)
      exact List.mem_append_left ys hb
    · rw [clientOps_append hcohorts] at ha
      have hp : (n.1.address, id) ∈ ps :=
        hmem.mpr ⟨⟨hid, ha⟩, hfinishes.decisions ▸ hread⟩
      exact (hsent.committed_of_returned h' hread (hreturned _ hp)).1
  · cases hcommitted.symm.trans hno

/-- Steps with which the cohorts on their own finish what has committed somewhere. -/
def Completes (xs ys : List Action) : Prop :=
  ∀ y ∈ ys, ∃ a id action, y = .cohort a id action ∧ id ∈ globalOrder xs ∧ action.finishes

theorem Completes.cohorts {xs ys : List Action} (h : Completes xs ys) :
    ∀ y ∈ ys, ∃ a u action, y = .cohort a u action := by
  intro y hy
  obtain ⟨a, id, action, rfl, _⟩ := h y hy
  exact ⟨_, _, _, rfl⟩

theorem Completes.globalOrder_eq {xs ys : List Action} (h : Completes xs ys) :
    globalOrder (xs ++ ys) = globalOrder xs := by
  refine globalOrder_append_cohorts fun y hy => ?_
  obtain ⟨a, id, action, rfl, hid, _⟩ := h y hy
  exact ⟨a, id, action, rfl, hid⟩

theorem exists_completion {absent : Status} (h : Run P xs s)
    (honce : ∀ id, SubmittedOnce P id xs) (habsent : ∀ a, (P.adapters a).absent = absent) :
    ∃ ys s', Run P (xs ++ ys) s' ∧ Completes xs ys ∧ OneCopy P absent (xs ++ ys) s' := by
  obtain ⟨ps, ys, s', hfinishes, hglobal, hsettled⟩ := settle_all h honce
  have hcompletes : Completes xs ys := by
    intro y hy
    obtain ⟨p, hp, action, rfl, hf⟩ := hfinishes.steps y hy
    exact ⟨_, _, action, rfl, hglobal p hp, hf⟩
  have h' : Run P (xs ++ ys) s' := h.append hfinishes.run
  exact ⟨ys, s', h', hcompletes,
    oneCopy_of_settled h' (fun id => (honce id).append_cohorts hcompletes.cohorts) hsettled habsent⟩

/-- In every run, whatever is under way, the databases hold and the clients were told what one
database would that ran the transactions committed so far: the cohorts can finish these on their
own, and then it is so. -/
theorem one_copy_completion {absent : Status} (h : Run P xs s)
    (honce : ∀ id, SubmittedOnce P id xs) (habsent : ∀ a, (P.adapters a).absent = absent) :
    ∃ ys s', Run P (xs ++ ys) s' ∧ Completes xs ys ∧ globalOrder (xs ++ ys) = globalOrder xs ∧
      OneCopy P absent (xs ++ ys) s' := by
  obtain ⟨ys, s', h', hcompletes, hone⟩ := exists_completion h honce habsent
  exact ⟨ys, s', h', hcompletes, hcompletes.globalOrder_eq, hone⟩

end Run

/-- One of two cohorts has committed, the other has only voted. -/
theorem one_copy_completion_two_puts : ∃ s ys s', Run localParties twoPutsActions s ∧
    Run localParties (twoPutsActions ++ ys) s' ∧ Completes twoPutsActions ys ∧
    globalOrder (twoPutsActions ++ ys) = globalOrder twoPutsActions ∧
    OneCopy localParties ⟨.notFound, "Key not found"⟩ (twoPutsActions ++ ys) s' := by
  obtain ⟨s, h⟩ := twoPuts_run
  obtain ⟨ys, s', h'⟩ := one_copy_completion h
    (fun id => submittedOnce_of_tail (by simp [Submits, twoPutsActions, prepareActions]))
    fun _ => rfl
  exact ⟨s, ys, s', h, h'⟩

end TwoPhaseCommit.System
