import TwoPhaseCommit.AtomicCommit
import TwoPhaseCommit.Conflicts

/-! One order of all transactions, that of their first commits anywhere, explains what every cohort
has done. -/
namespace TwoPhaseCommit.Cohort
open Database Locks

def Phase.lost : Phase → Bool
  | .votingAbort _ | .aborting (some _) _ | .releasing _ | .finished => true
  | _ => false

theorem Phase.covered_or_lost (p : Phase) : p.covered ∨ p.lost ∨ ∃ todo, p = .locking todo := by
  cases p with
  | locking todo => exact .inr (.inr ⟨todo, rfl⟩)
  | aborting abortStatus reason =>
    cases abortStatus with
    | none => exact .inl rfl
    | some status => exact .inr (.inl rfl)
  | votingAbort status => exact .inr (.inl rfl)
  | releasing todo => exact .inr (.inl rfl)
  | finished => exact .inr (.inl rfl)
  | _ => exact .inl rfl

section Lost
variable {c : Adapter} {s s' : State} {id : String} {t : Thread}

theorem lost_step {x : String × Action} (ht : s.threads id = some t) (hl : t.phase.lost)
    (hs : Step c s x s') :
    x ≠ (id, .commit none) ∧ ∃ t', s'.threads id = some t' ∧ t'.phase.lost := by
  by_cases hx : id = x.1
  · subst hx
    cases hs with
    | voteAbort ht' =>
      obtain rfl := Option.some.inj (ht.symm.trans ht')
      exact ⟨by simp, _, State.threads_set .., rfl⟩
    | @abort _ request m abortStatus reason ht' =>
      obtain rfl := Option.some.inj (ht.symm.trans ht')
      exact ⟨by simp, _, State.threads_set .., rfl⟩
    | unlock ht' =>
      obtain rfl := Option.some.inj (ht.symm.trans ht')
      exact ⟨by simp, _, State.threads_set .., rfl⟩
    | finish ht' =>
      obtain rfl := Option.some.inj (ht.symm.trans ht')
      exact ⟨by simp, _, State.threads_set .., rfl⟩
    | start request orders hid hnew => cases ht.symm.trans hnew
    | lock conditionHolds ht' =>
      obtain rfl := Option.some.inj (ht.symm.trans ht')
      cases hl
    | pollAbort reason ht' =>
      obtain rfl := Option.some.inj (ht.symm.trans ht')
      cases hl
    | persistResponse written ht' =>
      obtain rfl := Option.some.inj (ht.symm.trans ht')
      cases hl
    | persistRequest written ht' =>
      obtain rfl := Option.some.inj (ht.symm.trans ht')
      cases hl
    | _ ht' =>
      obtain rfl := Option.some.inj (ht.symm.trans ht')
      cases hl
  · have hframe : s'.threads id = s.threads id := congrArg Prod.fst (hs.frame hx)
    exact ⟨fun he => hx (congrArg Prod.fst he).symm, t, hframe.trans ht, hl⟩

theorem not_commit_of_lost {xs : List (String × Action)} (h : Runs.Run (Step c) s xs s')
    (ht : s.threads id = some t) (hl : t.phase.lost) : (id, .commit none) ∉ xs := by
  induction xs generalizing s t with
  | nil => exact List.not_mem_nil
  | cons x xs ih =>
    obtain ⟨m, hs, hrest⟩ := h.uncons
    obtain ⟨hx, t', ht', hl'⟩ := lost_step ht hl hs
    rw [List.mem_cons, not_or]
    exact ⟨hx.symm, ih hrest ht' hl'⟩

end Lost

section Run
variable {c : Adapter} {store : Store String} {xs ys zs : List (String × Action)} {s m : State}
  {id u : String} {t t' : Thread}

theorem request_eq (h : Run c store (ys ++ zs) s) (hm : Run c store ys m)
    (ht : m.threads id = some t) (ht' : s.threads id = some t') : t'.request = t.request := by
  have hstart := (story_run hm ht).1.started
  have hstart' := (story_run h ht').1.started
  rw [actionsOf_append, List.findSome?_append, hstart, Option.some_or] at hstart'
  exact (Option.some.inj hstart').symm

theorem idle_of_conflict (h : Run c store (ys ++ (id, .commit none) :: zs) s)
    (hu : (u, .commit none) ∈ zs) (hne : u ≠ id) (ht : s.threads id = some t)
    (ht' : s.threads u = some t')
    (hc : Conflict c.access t.request.transaction.ops t'.request.transaction.ops) :
    Idle (actionsOf u ys) := by
  obtain ⟨m, m', hm, hs, hrest⟩ := h.at
  have hlocks := lockInv_run hm
  have hlater : Runs.Run (Step c) m ((id, .commit none) :: zs) s := .cons hs hrest
  cases hs with
  | @commit _ request metadata hid =>
    cases hmu : m.threads u with
    | none =>
      have hlocal : actionsOf u ys = [] ∧ m.finalResponses u = none := by
        simpa only [LocalStory, State.local, hmu] using localStory_run hm u
      rw [hlocal.1]
      exact ⟨rfl, rfl, rfl⟩
    | some tu =>
      obtain hcov | hlost | ⟨todo, hphase⟩ := tu.phase.covered_or_lost
      · have hcovers := (hlocks id _ hid).covers rfl
        have hcovers' := (hlocks u tu hmu).covers hcov
        rw [request_eq h hm hid ht, request_eq h hm hmu ht'] at hc
        obtain ⟨k, ⟨⟨op, hop, hput⟩, op', hop', huse⟩ | ⟨⟨op, hop, huse⟩, op', hop', hput⟩⟩ := hc
        · exact absurd huse (hcovers.disjoint hcovers' hne hop hop' hput)
        · exact absurd huse (hcovers'.disjoint hcovers hne.symm hop' hop hput)
      · exact absurd (List.mem_cons_of_mem _ hu) (not_commit_of_lost hlater hmu hlost)
      · exact (story_run hm hmu).1.idle (by rw [hphase]; rfl)

end Run

end TwoPhaseCommit.Cohort

namespace TwoPhaseCommit.System
open Coordinator (CommitAtomicTransactionRequest messages submissionRpcs)
open Cohort (commitOrder requestOf Answered)
open Database (serialRun Executes Conflict)
open Runs (Before)

def noteCommit (ids : List String) : Action → List String
  | .cohort _ id (.commit none) => if id ∈ ids then ids else ids ++ [id]
  | _ => ids

/-- The transactions committed at some cohort, in the order of their first commits. -/
def globalOrder (xs : List Action) : List String := xs.foldl noteCommit []

theorem noteCommit_cases (ids : List String) (x : Action) :
    (∃ a id, x = .cohort a id (.commit none) ∧ id ∉ ids ∧ noteCommit ids x = ids ++ [id]) ∨
      noteCommit ids x = ids ∧ ∀ a id, x = .cohort a id (.commit none) → id ∈ ids := by
  unfold noteCommit
  split
  · next a id =>
    split_ifs with hid
    · exact .inr ⟨rfl, fun b u he => by cases he; exact hid⟩
    · exact .inl ⟨a, id, rfl, hid, rfl⟩
  · next hno => exact .inr ⟨rfl, fun a id he => absurd he (hno a id)⟩

theorem globalOrder_snoc (xs : List Action) (x : Action) :
    globalOrder (xs ++ [x]) = noteCommit (globalOrder xs) x := by
  simp [globalOrder]

theorem nodup_globalOrder (xs : List Action) : (globalOrder xs).Nodup := by
  induction xs using List.reverseRecOn with
  | nil => exact List.nodup_nil
  | append_singleton xs x ih =>
    rw [globalOrder_snoc]
    obtain ⟨a, id, _, hid, he⟩ | ⟨he, _⟩ := noteCommit_cases (globalOrder xs) x
    · rw [he]
      exact ih.append (List.nodup_singleton id) (by simpa using hid)
    · rwa [he]

theorem mem_globalOrder {id : String} {xs : List Action} :
    id ∈ globalOrder xs ↔ ∃ a, .cohort a id (.commit none) ∈ xs := by
  induction xs using List.reverseRecOn with
  | nil => simp [globalOrder]
  | append_singleton xs x ih =>
    rw [globalOrder_snoc]
    obtain ⟨a, u, rfl, _, he⟩ | ⟨he, hx⟩ := noteCommit_cases (globalOrder xs) x
    · rw [he, List.mem_append, ih]
      simp only [List.mem_append, List.mem_singleton, Action.cohort.injEq, and_true,
        exists_or]
      refine or_congr_right ⟨fun hu => ⟨a, rfl, hu⟩, ?_⟩
      rintro ⟨_, _, hu⟩
      exact hu
    · rw [he, ih]
      constructor
      · rintro ⟨a, ha⟩
        exact ⟨a, List.mem_append_left _ ha⟩
      · rintro ⟨a, ha⟩
        obtain ha | ha := List.mem_append.mp ha
        · exact ⟨a, ha⟩
        · exact ih.mp (hx a id (List.mem_singleton.mp ha).symm)

theorem globalOrder_append (xs ys : List Action) :
    ∃ more, globalOrder (xs ++ ys) = globalOrder xs ++ more := by
  induction ys using List.reverseRecOn with
  | nil => exact ⟨[], by simp⟩
  | append_singleton ys y ih =>
    obtain ⟨more, hmore⟩ := ih
    rw [← List.append_assoc, globalOrder_snoc, hmore]
    obtain ⟨a, id, _, _, he⟩ | ⟨he, _⟩ := noteCommit_cases (globalOrder xs ++ more) y
    · exact ⟨more ++ [id], by rw [he, List.append_assoc]⟩
    · exact ⟨more, he⟩

theorem before_globalOrder {ys zs : List Action} {id u : String} (hid : id ∈ globalOrder ys)
    (hu : u ∉ globalOrder ys) (hu' : u ∈ globalOrder (ys ++ zs)) :
    Before (globalOrder (ys ++ zs)) id u := by
  obtain ⟨more, hmore⟩ := globalOrder_append ys zs
  rw [hmore] at hu' ⊢
  exact Runs.before_append hid ((List.mem_append.mp hu').resolve_left hu)

def committedAt (a : String) : Action → Option String
  | .cohort b id (.commit none) => if b = a then some id else none
  | _ => none

theorem committedAt_eq_some {a id : String} {x : Action} :
    committedAt a x = some id ↔ x = .cohort a id (.commit none) := by
  unfold committedAt
  split
  · next b u =>
    rw [Option.ite_none_right_eq_some, Option.some.injEq, Action.cohort.injEq]
    simp
  · next hno =>
    constructor
    · intro h
      cases h
    · intro h
      exact absurd h (hno a id)

theorem commitOrder_actionsAt (a : String) (xs : List Action) :
    commitOrder (actionsAt a xs) = xs.filterMap (committedAt a) := by
  induction xs using List.reverseRecOn with
  | nil => rfl
  | append_singleton xs x ih =>
    have happend : actionsAt a (xs ++ [x]) = actionsAt a xs ++ actionsAt a [x] :=
      List.flatMap_append
    rw [happend, commitOrder, List.filterMap_append, ← commitOrder, ih, List.filterMap_append]
    congr 1
    cases x with
    | cohort b id action =>
      by_cases hb : b = a
      · cases action with
        | commit fault => cases fault <;> simp [actionsAt, committedAt, Cohort.Action.ending, hb]
        | _ => simp [actionsAt, committedAt, Cohort.Action.ending, hb]
      · cases action with
        | commit fault => cases fault <;> simp [actionsAt, committedAt, hb]
        | _ => simp [actionsAt, committedAt, hb]
    | _ => rfl

theorem mem_commitOrder_actionsAt {a id : String} {xs : List Action} :
    id ∈ commitOrder (actionsAt a xs) ↔ .cohort a id (.commit none) ∈ xs := by
  rw [commitOrder_actionsAt, List.mem_filterMap]
  simp only [committedAt_eq_some, exists_eq_right]

section Run
variable {P : Parties} {xs ys zs : List Action} {s : State} {a b id u : String}

theorem voted_before (h : Run P (ys ++ zs) s) (honce : SubmittedOnce P id (ys ++ zs))
    (hb : .cohort b id (.commit none) ∈ ys) {t : Cohort.Thread}
    (ht : (s.cohorts a).threads id = some t) :
    a = b ∨ .cohort a id (.vote t.request.cohortIndex .commit) ∈ ys := by
  obtain ⟨m, hm, _⟩ := h.split
  obtain ⟨stage, hinv⟩ := stage_run hm (List.pairwise_append.mp honce).1
  obtain ⟨stage', hinv'⟩ := stage_run h honce
  obtain ⟨tb, htb, hended, hcommitted⟩ := ended_at hm rfl hb
  obtain ⟨config, subs, hsent, n, hn, rfl, hreq⟩ := sent_of_thread hm hinv htb
  obtain ⟨config', subs', hsent', n', hn', rfl, hreq'⟩ := sent_of_thread h hinv' ht
  obtain ⟨context, request, hx, hsub⟩ := hsent.submitted
  obtain ⟨context', request', hx', hsub'⟩ := hsent'.submitted
  have hsame := honce.eq (List.mem_append_left zs hx) hx' hsub hsub'
  obtain ⟨_, _, hrpcs⟩ := Action.commitAtomicTransaction.inj hsame
  rw [← hrpcs] at hn'
  have hmay : Cohort.MayCommit (Cohort.actionsOf id (actionsAt n.1.address ys)) n.2 := by
    obtain ⟨_, hmay, _⟩ | ⟨haborted, _⟩ := hended
    · rwa [← hreq]
    · cases hcommitted.symm.trans haborted
  obtain hone | hread := alone_or_read hm hn hmay
  · obtain ⟨i, sub, hi, hni⟩ := getElem?_of_mem_messages hn
    obtain ⟨j, sub', hj, hnj⟩ := getElem?_of_mem_messages hn'
    have hij : i = j := by
      have hi' := (List.getElem?_eq_some_iff.mp hi).1
      have hj' := (List.getElem?_eq_some_iff.mp hj).1
      omega
    subst hij
    obtain rfl := Option.some.inj (hi.symm.trans hj)
    rw [hni, hnj]
    exact .inl rfl
  · rw [hreq']
    exact .inr ((hsent.allVotedCommit hm hread).cast n' hn')

/-- Transactions that conflict at a cohort commit there in their global order. -/
theorem conflict_order (h : Run P xs s) (honce : ∀ id, SubmittedOnce P id xs)
    (hbefore : Before (commitOrder (actionsAt a xs)) id u) {t t' : Cohort.Thread}
    (ht : (s.cohorts a).threads id = some t) (ht' : (s.cohorts a).threads u = some t')
    (hc : Conflict (P.adapters a).access t.request.transaction.ops t'.request.transaction.ops) :
    Before (globalOrder xs) id u := by
  have hnodup := (Cohort.serial_run (cohort_run h a)).once
  have hne : u ≠ id := by
    rintro rfl
    exact hbefore.asymm hnodup hbefore
  rw [commitOrder_actionsAt] at hbefore
  obtain ⟨ys, x, zs, rfl, hx, hu⟩ := hbefore.of_filterMap
  obtain rfl := committedAt_eq_some.mp hx
  obtain ⟨y, hy, hyu⟩ := List.mem_filterMap.mp hu
  rw [committedAt_eq_some.mp hyu] at hy
  have hsplit : actionsAt a (ys ++ .cohort a id (.commit none) :: zs) =
      actionsAt a ys ++ (id, .commit none) :: actionsAt a zs := by
    simp [actionsAt]
  have hrun := cohort_run h a
  rw [hsplit] at hrun
  have hidle := Cohort.idle_of_conflict hrun (mem_actionsAt.mpr hy) hne ht ht' hc
  have hlater : u ∉ globalOrder ys := by
    intro hmem
    obtain ⟨b, hb⟩ := mem_globalOrder.mp hmem
    obtain rfl | hvote := voted_before h (honce u) hb ht'
    · rw [← mem_actionsAt, ← Cohort.mem_actionsOf, ← Cohort.mem_endings_committed,
        hidle.endings] at hb
      cases hb
    · rw [← mem_actionsAt, ← Cohort.mem_actionsOf, ← Cohort.mem_votes, hidle.votes] at hvote
      cases hvote
  have hfirst : id ∈ globalOrder (ys ++ [.cohort a id (.commit none)]) :=
    mem_globalOrder.mpr ⟨a, by simp⟩
  have hlater' : u ∉ globalOrder (ys ++ [.cohort a id (.commit none)]) := by
    rw [globalOrder_snoc]
    obtain ⟨_, v, he, _, hnote⟩ | ⟨hnote, _⟩ :=
      noteCommit_cases (globalOrder ys) (.cohort a id (.commit none))
    · cases he
      rw [hnote, List.mem_append, not_or]
      exact ⟨hlater, by simpa using hne⟩
    · rwa [hnote]
  have hu' : u ∈ globalOrder (ys ++ .cohort a id (.commit none) :: zs) :=
    mem_globalOrder.mpr ⟨a, List.mem_append_right _ (List.mem_cons_of_mem _ hy)⟩
  rw [List.append_cons] at hu' ⊢
  exact before_globalOrder hfirst hlater' hu'

def opsOf (a : String) (xs : List Action) (id : String) : List Operation :=
  ((requestOf (actionsAt a xs) id).map fun r => r.transaction.ops).getD []

/-- The transactions committed at a cohort, in their global order. -/
def orderAt (a : String) (xs : List Action) : List String :=
  (globalOrder xs).filter fun id => id ∈ commitOrder (actionsAt a xs)

theorem map_filterMap_eq {α β γ : Type} {f : α → Option β} (g : β → γ) (d : γ) {l : List α}
    (h : ∀ x ∈ l, ∃ y, f x = some y) :
    (l.filterMap f).map g = l.map fun x => ((f x).map g).getD d := by
  induction l with
  | nil => rfl
  | cons x l ih =>
    obtain ⟨y, hy⟩ := h x List.mem_cons_self
    rw [List.filterMap_cons_some hy, List.map_cons, List.map_cons, hy,
      ih fun z hz => h z (List.mem_cons_of_mem x hz)]
    rfl

theorem commitOrder_run (h : Run P xs s) (a : String) :
    Runs.Run (Executes (P.adapters a).access (opsOf a xs) (Answered (s.cohorts a))) (P.stores a)
      (commitOrder (actionsAt a xs)) (s.cohorts a).store := by
  have hcohort := cohort_run h a
  obtain ⟨_, horder, responses, hserial, hanswers⟩ := Cohort.serial_run hcohort
  have hstarted : ∀ id ∈ commitOrder (actionsAt a xs), ∃ r, requestOf (actionsAt a xs) id = some r :=
    fun id hid => (Cohort.thread_of_committed hcohort hid).imp' _ fun t ht => ht.2.1
  rw [Cohort.committed, map_filterMap_eq (fun r => r.transaction.ops) [] hstarted] at hserial
  refine Database.run_of_serialRun hserial ?_
  rw [← horder]
  exact List.forall₂_map_left_iff.mpr hanswers

theorem perm_orderAt (h : Run P xs s) (a : String) :
    (orderAt a xs).Perm (commitOrder (actionsAt a xs)) := by
  have hnodup : (orderAt a xs).Nodup := (nodup_globalOrder xs).filter _
  refine (List.perm_ext_iff_of_nodup hnodup
    (Cohort.serial_run (cohort_run h a)).once).mpr fun id => ?_
  rw [orderAt, List.mem_filter, decide_eq_true_eq, and_iff_right_iff_imp]
  intro hid
  exact mem_globalOrder.mpr ⟨a, mem_commitOrder_actionsAt.mp hid⟩

/-- Every cohort's store and answers come from its transactions, one after another, in the one
global order. -/
theorem orderAt_run (h : Run P xs s) (honce : ∀ id, SubmittedOnce P id xs) (a : String) :
    Runs.Run (Executes (P.adapters a).access (opsOf a xs) (Answered (s.cohorts a))) (P.stores a)
      (orderAt a xs) (s.cohorts a).store := by
  have hcohort := cohort_run h a
  refine (commitOrder_run h a).reorder (perm_orderAt h a)
    (Cohort.serial_run hcohort).once fun id u hlocal hglobal => ?_
  refine Database.executes_commute fun hc => ?_
  obtain ⟨t, ht, hreq, _⟩ := Cohort.thread_of_committed hcohort hlocal.mem_left
  obtain ⟨t', ht', hreq', _⟩ := Cohort.thread_of_committed hcohort hlocal.mem_right
  simp only [opsOf, hreq, hreq', Option.map_some, Option.getD_some] at hc
  have hbefore : Before (globalOrder xs) id u := conflict_order h honce hlocal ht ht' hc
  exact hbefore.asymm (nodup_globalOrder xs) (hglobal.of_sublist List.filter_sublist)

/-- One order of all the transactions committed anywhere explains the store of every cohort and
every value read there. -/
structure GloballySerializable (P : Parties) (xs : List Action) (s : State) : Prop where
  once : (globalOrder xs).Nodup
  committed : ∀ id, id ∈ globalOrder xs ↔ ∃ a, .cohort a id (.commit none) ∈ xs
  serial : ∀ a, ∃ responses,
    serialRun (P.adapters a).access (P.stores a) ((orderAt a xs).map (opsOf a xs)) =
      .ok ((s.cohorts a).store, responses) ∧
    List.Forall₂ (Answered (s.cohorts a)) (orderAt a xs) responses

/-- Locks kept until the common decision make the transactions serializable across all cohorts, in
every order of the steps of all parties. -/
theorem globally_serializable (h : Run P xs s) (honce : ∀ id, SubmittedOnce P id xs) :
    GloballySerializable P xs s where
  once := nodup_globalOrder xs
  committed _ := mem_globalOrder
  serial a := Database.serialRun_of_run (orderAt_run h honce a)

end Run

def twoIds : Parties where
  server := { Coordinator.localServer with
    sha256 := fun input =>
      if input = "id2~ipv4:127.0.0.1:50051" then
        some ⟨#[41, 109, 86, 168, 106, 244, 145, 43, 184, 151, 107, 19, 91, 75, 231, 160, 144, 69,
          247, 222, 233, 161, 199, 226, 246, 36, 198, 77, 218, 71, 158, 202], rfl⟩
      else Coordinator.localServer.sha256 input }
  adapters _ := Cohort.localAdapter
  stores _ _ := none

def secondId : String := "296d56a86af4912bb8976b135b4be7a09045f7dee9a1c7e2f624c64dda479eca"

def firstPut : CommitAtomicTransactionRequest := ⟨"id", ⟨[putAt "cohort:50052"]⟩, ⟨none⟩⟩

def firstPutFor : Cohort.PrepareTransactionRequest :=
  ⟨Coordinator.localId, firstPut.transaction, ⟨some ⟨110, 0⟩⟩, some (.onlyCohort true)⟩

def secondPut : CommitAtomicTransactionRequest :=
  ⟨"id2", ⟨[putAt "cohort:50052"]⟩, ⟨none⟩⟩

def secondPutFor : Cohort.PrepareTransactionRequest :=
  ⟨secondId, secondPut.transaction, ⟨some ⟨110, 0⟩⟩, some (.onlyCohort true)⟩

def firstActions : List Action :=
  .commitAtomicTransaction Coordinator.localContext firstPut
      [.prepareTransaction ⟨"", "cohort:50052"⟩ firstPutFor] ::
    [.start firstPutFor, .lock true, .begin none, .operate none, .endOperations, .commit none,
      .unlock].map (.cohort "cohort:50052" Coordinator.localId)

def secondActions : List Action :=
  .commitAtomicTransaction Coordinator.localContext secondPut
      [.prepareTransaction ⟨"", "cohort:50052"⟩ secondPutFor] ::
    [.start secondPutFor, .lock true, .begin none, .operate none, .endOperations,
      .commit none].map (.cohort "cohort:50052" secondId)

theorem twoPutsInTurn_run : ∃ s, Run twoIds (firstActions ++ secondActions) s := by
  refine ⟨_, .cons (.commitAtomicTransaction Coordinator.localContext firstPut (by decide) rfl rfl)
    (.cons (.cohort _ _ (.start firstPutFor Cohort.keyOrders rfl rfl)
      (.inr ⟨(⟨"", "cohort:50052"⟩, firstPutFor), .head _, rfl⟩))
    (.cons (.cohort _ _ (.lock true rfl rfl) trivial)
    (.cons (.cohort _ _ (.begin rfl) trivial)
    (.cons (.cohort _ _ (.operate rfl (noFault _)) trivial)
    (.cons (.cohort _ _ (.endOperations rfl) trivial)
    (.cons (.cohort _ _ (.commit rfl) trivial)
    (.cons (.cohort _ _ (.unlock rfl) trivial)
    (.cons (.commitAtomicTransaction Coordinator.localContext secondPut (by decide) rfl rfl)
    (.cons (.cohort _ _ (.start secondPutFor Cohort.keyOrders rfl rfl)
      (.inr ⟨(⟨"", "cohort:50052"⟩, secondPutFor), .head _, rfl⟩))
    (.cons (.cohort _ _ (.lock true rfl rfl) trivial)
    (.cons (.cohort _ _ (.begin rfl) trivial)
    (.cons (.cohort _ _ (.operate rfl (noFault _)) trivial)
    (.cons (.cohort _ _ (.endOperations rfl) trivial)
    (.single (.cohort _ _ (.commit rfl) trivial)))))))))))))))⟩

/-- Two transactions that put the same key, one after the other. -/
theorem globally_serializable_two_ids :
    globalOrder (firstActions ++ secondActions) = [Coordinator.localId, secondId] ∧
    ∃ s, GloballySerializable twoIds (firstActions ++ secondActions) s := by
  have hfirst : Coordinator.getTransactionId twoIds.server.sha256 firstPut.clientTransactionId
      Coordinator.localContext.peer = .ok Coordinator.localId := by decide
  have hsecond : Coordinator.getTransactionId twoIds.server.sha256 secondPut.clientTransactionId
      Coordinator.localContext.peer = .ok secondId := by decide
  have hne : secondId ≠ Coordinator.localId := by decide
  have hboth (id : String) : Coordinator.localId = id → secondId ≠ id := fun he he' =>
    hne (he'.trans he.symm)
  refine ⟨by simp [globalOrder, firstActions, secondActions, noteCommit, hne], ?_⟩
  obtain ⟨s, h⟩ := twoPutsInTurn_run
  refine ⟨s, globally_serializable h fun id => ?_⟩
  simpa [SubmittedOnce, firstActions, secondActions, Submits, hfirst, hsecond] using hboth id

end TwoPhaseCommit.System
