import TwoPhaseCommit.CohortLocks

/-! The history of one thread, whatever the other threads do in between: what it must have
done to be where it is. -/
namespace TwoPhaseCommit.Cohort
open Database Locks
open AdapterChain.Blockchain (Ballot VotingDecision)

def actionsOf (id : String) (xs : List (String × Action)) : List Action :=
  xs.flatMap fun x => if x.1 = id then [x.2] else []

@[simp] theorem mem_actionsOf {id : String} {xs : List (String × Action)} {a : Action} :
    a ∈ actionsOf id xs ↔ (id, a) ∈ xs := by
  simp only [actionsOf, List.mem_flatMap]
  constructor
  · rintro ⟨⟨u, b⟩, hx, ha⟩
    split_ifs at ha with hu
    · obtain rfl := List.mem_singleton.mp ha
      obtain rfl : u = id := hu
      exact hx
    · cases ha
  · intro hx
    exact ⟨(id, a), hx, by simp⟩

theorem actionsOf_append (id : String) (xs ys : List (String × Action)) :
    actionsOf id (xs ++ ys) = actionsOf id xs ++ actionsOf id ys := List.flatMap_append

/-- A thread and the final response under its id. -/
abbrev Local := Option Thread × Option GetTransactionResultResponse

def State.local (s : State) (id : String) : Local := (s.threads id, s.finalResponses id)

def ThreadStep (c : Adapter) (id : String) (l : Local) (a : Action) (l' : Local) : Prop :=
  ∃ s s', Step c s (id, a) s' ∧ s.local id = l ∧ s'.local id = l'

theorem Step.frame {c : Adapter} {s s' : State} {x : String × Action} (hs : Step c s x s')
    {u : String} (hu : u ≠ x.1) : s'.local u = s.local u := by
  cases hs <;>
    simp only [State.local, State.set, State.setFinalResponse, Function.update_of_ne hu]

theorem thread_run {c : Adapter} {store : Store String} {xs : List (String × Action)} {s : State}
    (h : Run c store xs s) (id : String) :
    Runs.Run (ThreadStep c id) (none, none) (actionsOf id xs) (s.local id) := by
  refine Runs.Run.project (f := fun s => s.local id)
    (g := fun x => if x.1 = id then [x.2] else []) ?_ h
  rintro s ⟨u, a⟩ s' hs
  dsimp only
  split_ifs with hu
  · subst hu
    exact .single ⟨s, s', hs, rfl, rfl⟩
  · rw [hs.frame (Ne.symm hu)]
    exact .nil

def Action.request : Action → Option PrepareTransactionRequest
  | .start request => some request
  | _ => none

def Action.ballot : Action → Option (UInt32 × Ballot)
  | .vote cohortIndex ballot => some (cohortIndex, ballot)
  | _ => none

def votes (as : List Action) : List (UInt32 × Ballot) := as.filterMap Action.ballot

inductive Ending where
  | committed
  | aborted
  deriving DecidableEq

def Action.ending : Action → Option Ending
  | .commit none => some .committed
  | .abort => some .aborted
  | _ => none

def endings (as : List Action) : List Ending := as.filterMap Action.ending

def Action.reply : Action → Option (Option VotingDecision)
  | .poll reply => some reply
  | _ => none

def reads (as : List Action) : List (Option VotingDecision) := as.filterMap Action.reply

theorem mem_votes {as : List Action} {i : UInt32} {ballot : Ballot} :
    (i, ballot) ∈ votes as ↔ .vote i ballot ∈ as := by
  have hb (a : Action) : a.ballot = some (i, ballot) ↔ a = .vote i ballot := by
    cases a <;> simp [Action.ballot]
  simp [votes, hb]

theorem mem_endings_committed {as : List Action} :
    .committed ∈ endings as ↔ .commit none ∈ as := by
  have he (a : Action) : a.ending = some .committed ↔ a = .commit none := by
    cases a with
    | commit fault => cases fault <;> simp [Action.ending]
    | _ => simp [Action.ending]
  simp [endings, he]

theorem mem_endings_aborted {as : List Action} : .aborted ∈ endings as ↔ .abort ∈ as := by
  have he (a : Action) : a.ending = some .aborted ↔ a = .abort := by
    cases a with
    | commit fault => cases fault <;> simp [Action.ending]
    | _ => simp [Action.ending]
  simp [endings, he]

theorem mem_reads {as : List Action} {reply : Option VotingDecision} :
    reply ∈ reads as ↔ .poll reply ∈ as := by
  have hr (a : Action) : a.reply = some reply ↔ a = .poll reply := by
    cases a <;> simp [Action.reply]
  simp [reads, hr]

@[simp] theorem votes_snoc (as : List Action) (a : Action) :
    votes (as ++ [a]) = votes as ++ a.ballot.toList := by
  rw [votes, votes, List.filterMap_append]
  cases h : a.ballot <;> simp [h]

@[simp] theorem endings_snoc (as : List Action) (a : Action) :
    endings (as ++ [a]) = endings as ++ a.ending.toList := by
  rw [endings, endings, List.filterMap_append]
  cases h : a.ending <;> simp [h]

@[simp] theorem reads_snoc (as : List Action) (a : Action) :
    reads (as ++ [a]) = reads as ++ a.reply.toList := by
  rw [reads, reads, List.filterMap_append]
  cases h : a.reply <;> simp [h]

structure Idle (as : List Action) : Prop where
  votes : votes as = []
  endings : endings as = []
  reads : reads as = []

structure Promised (as : List Action) (request : PrepareTransactionRequest) : Prop where
  many : request.onlyCohort = false
  votes : votes as = [(request.cohortIndex, .commit)]

/-- Why a thread may commit: it is alone, or it voted COMMIT and has read COMMIT. -/
def MayCommit (as : List Action) (request : PrepareTransactionRequest) : Prop :=
  request.onlyCohort ∧ votes as = [] ∨
    Promised as request ∧ .poll (some .commit) ∈ as

/-- Why a thread may abort: it voted ABORT, or it voted COMMIT and has read ABORT. -/
def MayAbort (as : List Action) (request : PrepareTransactionRequest) : Prop :=
  votes as = [(request.cohortIndex, .abort)] ∨
    Promised as request ∧ .poll (some .abort) ∈ as

def Ended (as : List Action) (request : PrepareTransactionRequest)
    (response : GetTransactionResultResponse) : Prop :=
  endings as = [.committed] ∧ MayCommit as request ∧
      (∃ r, response = some (.committedResponse r)) ∨
    endings as = [.aborted] ∧ MayAbort as request ∧
      ∃ reason, response = some (.abortedResponse reason)

/-- What a thread has done by the time it is in a phase. -/
def PhaseStory (as : List Action) (t : Thread) : Prop :=
  match t.phase with
  | .locking _ | .running _ | .putting _ _ _ | .votingAbort _ => Idle as
  | .persistingResponse => Idle as ∧ t.request.onlyCohort = false
  | .persistingRequest => Idle as ∧ t.request.onlyCohort = false ∧ .persistResponse true ∈ as
  | .voting => Idle as ∧ t.request.onlyCohort = false ∧ .persistResponse true ∈ as ∧
      .persistRequest true ∈ as
  | .waiting => endings as = [] ∧ Promised as t.request
  | .committing => endings as = [] ∧ MayCommit as t.request
  | .aborting (some _) _ => endings as = [] ∧ votes as = [(t.request.cohortIndex, .abort)]
  | .aborting none _ => endings as = [] ∧ Promised as t.request ∧ .poll (some .abort) ∈ as
  | .releasing _ | .finished => Ended as t.request t.metadata.response

def Phase.ended : Phase → Bool
  | .releasing _ | .finished => true
  | _ => false

def finalOf (t : Thread) : Option GetTransactionResultResponse :=
  match t.phase with
  | .finished => some t.metadata.response
  | _ => none

theorem finalOf_eq_some {t : Thread} {r : GetTransactionResultResponse} (h : finalOf t = some r) :
    t.phase.ended ∧ t.metadata.response = r := by
  obtain ⟨request, m, phase⟩ := t
  cases phase with
  | finished => exact ⟨rfl, Option.some.inj h⟩
  | _ => cases h

def IsFinished (s : State) (id : String) : Prop := ∃ t, s.threads id = some t ∧ t.phase = .finished

structure Story (as : List Action) (t : Thread) : Prop where
  started : as.findSome? Action.request = some t.request
  phase : PhaseStory as t

theorem Story.ended {as : List Action} {t : Thread} (h : Story as t) (he : t.phase.ended) :
    Ended as t.request t.metadata.response := by
  obtain ⟨request, m, phase⟩ := t
  cases phase with
  | releasing todo => exact h.phase
  | finished => exact h.phase
  | _ => cases he

def Phase.idle : Phase → Bool
  | .locking _ | .running _ | .putting _ _ _ | .persistingResponse | .persistingRequest | .voting
  | .votingAbort _ => true
  | _ => false

theorem Story.idle {as : List Action} {t : Thread} (h : Story as t) (hi : t.phase.idle) : Idle as := by
  obtain ⟨request, m, phase⟩ := t
  obtain ⟨_, hp⟩ := h
  cases phase with
  | locking todo => exact hp
  | running todo => exact hp
  | putting key value todo => exact hp
  | votingAbort status => exact hp
  | persistingResponse => exact hp.1
  | persistingRequest => exact hp.1
  | voting => exact hp.1
  | _ => cases hi

theorem Story.votes_cases {as : List Action} {t : Thread} (h : Story as t) :
    votes as = [] ∨ ∃ ballot, votes as = [(t.request.cohortIndex, ballot)] := by
  have hcommit (hp : MayCommit as t.request) :
      votes as = [] ∨ ∃ ballot, votes as = [(t.request.cohortIndex, ballot)] :=
    hp.imp (fun h => h.2) fun h => ⟨_, h.1.votes⟩
  have habort (hp : MayAbort as t.request) :
      votes as = [] ∨ ∃ ballot, votes as = [(t.request.cohortIndex, ballot)] :=
    .inr (hp.elim (fun h => ⟨_, h⟩) fun h => ⟨_, h.1.votes⟩)
  cases he : t.phase.ended with
  | true => exact (h.ended he).elim (fun h => hcommit h.2.1) fun h => habort h.2.1
  | false =>
    obtain ⟨request, m, phase⟩ := t
    cases phase with
    | releasing todo => cases he
    | finished => cases he
    | aborting abortStatus reason =>
      cases abortStatus with
      | none => exact habort (.inr h.phase.2)
      | some status => exact habort (.inl h.phase.2)
    | waiting => exact .inr ⟨_, h.phase.2.votes⟩
    | committing => exact hcommit h.phase.2
    | _ => exact .inl (h.idle rfl).votes

def Phase.promised : Phase → Bool
  | .waiting | .committing | .aborting none _ => true
  | _ => false

theorem Story.promised {as : List Action} {t : Thread} (h : Story as t) {i : UInt32}
    (hv : (i, .commit) ∈ votes as) (he : t.phase.ended = false) : t.phase.promised := by
  obtain ⟨request, m, phase⟩ := t
  cases phase with
  | waiting => rfl
  | committing => rfl
  | aborting abortStatus reason =>
    cases abortStatus with
    | none => rfl
    | some status =>
      have habort : votes as = [(request.cohortIndex, .abort)] := h.phase.2
      simp [habort] at hv
  | releasing todo => cases he
  | finished => cases he
  | _ =>
    rw [(h.idle rfl).votes] at hv
    cases hv

theorem Story.endings_eq_nil {as : List Action} {t : Thread} (h : Story as t)
    (he : t.phase.ended = false) : endings as = [] := by
  obtain ⟨request, m, phase⟩ := t
  cases phase with
  | releasing todo => cases he
  | finished => cases he
  | aborting abortStatus reason => cases abortStatus <;> exact h.phase.1
  | waiting => exact h.phase.1
  | committing => exact h.phase.1
  | _ => exact (h.idle rfl).endings

/-- The history of a thread fits where it is; without a thread there is none. -/
def LocalStory (id : String) (as : List Action) (l : Local) : Prop :=
  match l.1 with
  | none => as = [] ∧ l.2 = none
  | some t => Story as t ∧ t.request.transactionId = id ∧ l.2 = finalOf t

@[simp] theorem State.threads_set (s : State) (id : String) (t : Thread) :
    (s.set id t).threads id = some t := Function.update_self ..

@[simp] theorem State.local_set (s : State) (id : String) (t : Thread) :
    (s.set id t).local id = (some t, s.finalResponses id) := by
  simp [State.local, State.set]

section Story
variable {id : String} {as : List Action} {s : State} {t t' : Thread} {a : Action}

theorem LocalStory.thread (h : LocalStory id as (s.local id)) (ht : s.threads id = some t) :
    Story as t ∧ t.request.transactionId = id ∧ s.finalResponses id = finalOf t := by
  simpa only [LocalStory, State.local, ht] using h

theorem LocalStory.advance (h : LocalStory id as (s.local id)) (ht : s.threads id = some t)
    (hreq : t'.request = t.request) (hfinal : finalOf t' = finalOf t)
    (hphase : PhaseStory as t → PhaseStory (as ++ [a]) t') :
    LocalStory id (as ++ [a]) (some t', s.finalResponses id) := by
  obtain ⟨⟨hstart, hp⟩, hid, hf⟩ := h.thread ht
  refine ⟨⟨?_, hphase hp⟩, by rw [hreq, hid], by rw [hf, hfinal]⟩
  rw [List.findSome?_append, hstart, hreq]
  rfl

end Story

theorem Idle.snoc {as : List Action} {a : Action} (h : Idle as) (ha : a.ballot = none)
    (he : a.ending = none) (hr : a.reply = none) : Idle (as ++ [a]) :=
  ⟨by rw [votes_snoc, h.votes, ha]; rfl, by rw [endings_snoc, h.endings, he]; rfl,
    by rw [reads_snoc, h.reads, hr]; rfl⟩

theorem Promised.snoc {as : List Action} {request : PrepareTransactionRequest} {a : Action}
    (h : Promised as request) (ha : a.ballot = none) : Promised (as ++ [a]) request :=
  ⟨h.many, by rw [votes_snoc, h.votes, ha]; rfl⟩

theorem MayCommit.snoc {as : List Action} {request : PrepareTransactionRequest} {a : Action}
    (h : MayCommit as request) (ha : a.ballot = none) : MayCommit (as ++ [a]) request :=
  h.imp (fun hone => ⟨hone.1, by rw [votes_snoc, hone.2, ha]; rfl⟩)
    fun hp => ⟨hp.1.snoc ha, by simp [hp.2]⟩

theorem MayAbort.snoc {as : List Action} {request : PrepareTransactionRequest} {a : Action}
    (h : MayAbort as request) (ha : a.ballot = none) : MayAbort (as ++ [a]) request :=
  h.imp (fun hv => by rw [votes_snoc, hv, ha]; rfl) fun hp => ⟨hp.1.snoc ha, by simp [hp.2]⟩

theorem Ended.snoc {as : List Action} {request : PrepareTransactionRequest}
    {response : GetTransactionResultResponse} {a : Action} (h : Ended as request response)
    (ha : a.ballot = none) (he : a.ending = none) : Ended (as ++ [a]) request response := by
  have hends : endings (as ++ [a]) = endings as := by rw [endings_snoc, he]; simp
  obtain ⟨hcommitted, hmay, hresp⟩ | ⟨haborted, hmay, hresp⟩ := h
  · exact .inl ⟨hends.trans hcommitted, hmay.snoc ha, hresp⟩
  · exact .inr ⟨hends.trans haborted, hmay.snoc ha, hresp⟩

theorem localStory_step {c : Adapter} {id : String} {as : List Action} {l l' : Local} {a : Action}
    (h : LocalStory id as l) (hs : ThreadStep c id l a l') : LocalStory id (as ++ [a]) l' := by
  obtain ⟨s, s', hs, rfl, rfl⟩ := hs
  cases hs with
  | start request orders hid hnew =>
    simp only [LocalStory, State.local, hnew] at h
    obtain ⟨rfl, hfinal⟩ := h
    rw [State.local_set]
    exact ⟨⟨rfl, rfl, rfl, rfl⟩, hid, hfinal⟩
  | lock conditionHolds ht ha =>
    rw [State.local_set]
    cases conditionHolds with
    | false => exact h.advance ht rfl rfl fun hp => Idle.snoc hp rfl rfl rfl
    | true => exact h.advance ht rfl rfl fun hp => Idle.snoc hp rfl rfl rfl
  | begin ht =>
    rw [State.local_set]
    exact h.advance ht rfl rfl fun hp => Idle.snoc hp rfl rfl rfl
  | beginFault ht hf =>
    rw [State.local_set]
    exact h.advance ht rfl rfl fun hp => Idle.snoc hp rfl rfl rfl
  | @operate _ request m op todo fault ht hf =>
    rw [State.local_set]
    obtain ⟨status, _, he⟩ | ⟨m', hop, he⟩ | ⟨key, value, hop, he⟩ :=
      operate_cases c s.store fault op todo m
    all_goals
      rw [he]
      exact h.advance ht rfl rfl fun hp => Idle.snoc hp rfl rfl rfl
  | @put _ request m key value todo fault ht hf =>
    rw [State.local_set]
    obtain ⟨status, he⟩ | ⟨m', hput, he⟩ := finishPut_cases fault key value todo m
    all_goals
      rw [he]
      exact h.advance ht rfl rfl fun hp => Idle.snoc hp rfl rfl rfl
  | @endOperations _ request m ht =>
    rw [State.local_set]
    cases ho : request.onlyCohort with
    | false => exact h.advance ht rfl rfl fun hp => ⟨Idle.snoc hp rfl rfl rfl, ho⟩
    | true =>
      refine h.advance ht rfl rfl fun hp => ?_
      have hidle : Idle (as ++ [.endOperations]) := Idle.snoc hp rfl rfl rfl
      exact ⟨hidle.endings, .inl ⟨ho, hidle.votes⟩⟩
  | @persistResponse _ request m written ht =>
    rw [State.local_set]
    cases written with
    | false => exact h.advance ht rfl rfl fun hp => hp.1.snoc rfl rfl rfl
    | true => exact h.advance ht rfl rfl fun hp => ⟨hp.1.snoc rfl rfl rfl, hp.2, by simp⟩
  | @persistRequest _ request m written ht =>
    rw [State.local_set]
    cases written with
    | false => exact h.advance ht rfl rfl fun hp => hp.1.snoc rfl rfl rfl
    | true =>
      exact h.advance ht rfl rfl fun hp => ⟨hp.1.snoc rfl rfl rfl, hp.2.1, by simp [hp.2.2], by simp⟩
  | vote ht =>
    rw [State.local_set]
    refine h.advance ht rfl rfl fun hp => ?_
    obtain ⟨hidle, hmany, _⟩ := hp
    exact ⟨by simp [hidle.endings, Action.ending], hmany, by simp [hidle.votes, Action.ballot]⟩
  | @pollAgain _ request m reply ht hd =>
    have hnew : s.local id = (some ⟨request, m, .waiting⟩, s.finalResponses id) := by
      simp only [State.local, ht]
    rw [hnew]
    refine h.advance ht rfl rfl fun hp => ?_
    exact ⟨by simp [hp.1, Action.ending], hp.2.snoc rfl⟩
  | pollCommit ht =>
    rw [State.local_set]
    refine h.advance ht rfl rfl fun hp => ?_
    exact ⟨by simp [hp.1, Action.ending], .inr ⟨hp.2.snoc rfl, by simp⟩⟩
  | pollAbort reason ht =>
    rw [State.local_set]
    refine h.advance ht rfl rfl fun hp => ?_
    exact ⟨by simp [hp.1, Action.ending], hp.2.snoc rfl, by simp⟩
  | voteAbort ht =>
    rw [State.local_set]
    refine h.advance ht rfl rfl fun hp => ?_
    have hidle : Idle as := hp
    exact ⟨by simp [hidle.endings, Action.ending], by simp [hidle.votes, Action.ballot]⟩
  | @commitFault _ request m status ht hf =>
    have hnew : s.local id = (some ⟨request, m, .committing⟩, s.finalResponses id) := by
      simp only [State.local, ht]
    rw [hnew]
    refine h.advance ht rfl rfl fun hp => ?_
    exact ⟨by simp [hp.1, Action.ending], hp.2.snoc rfl⟩
  | commit ht =>
    rw [State.local_set]
    refine h.advance ht rfl rfl fun hp => ?_
    exact .inl ⟨by simp [hp.1, Action.ending], hp.2.snoc rfl, _, rfl⟩
  | @abort _ request m abortStatus reason ht =>
    rw [State.local_set]
    refine h.advance ht rfl rfl fun hp => ?_
    have hmay : endings as = [] ∧ MayAbort as request := by
      cases abortStatus with
      | none => exact ⟨hp.1, .inr hp.2⟩
      | some status => exact ⟨hp.1, .inl hp.2⟩
    exact .inr ⟨by simp [hmay.1, Action.ending], hmay.2.snoc rfl, reason, rfl⟩
  | unlock ht =>
    rw [State.local_set]
    exact h.advance ht rfl rfl fun hp => Ended.snoc hp rfl rfl
  | @finish _ request m ht =>
    obtain ⟨⟨hstart, hp⟩, hid, _⟩ := h.thread ht
    rw [State.local_set]
    refine ⟨⟨?_, Ended.snoc hp rfl rfl⟩, hid, ?_⟩
    · rw [List.findSome?_append, hstart]
      rfl
    · simp [State.setFinalResponse, finalOf]

theorem LocalStory.final {id : String} {as : List Action} {s : State}
    {r : GetTransactionResultResponse} (h : LocalStory id as (s.local id))
    (hr : s.finalResponses id = some r) :
    ∃ t, s.threads id = some t ∧ t.phase.ended ∧ t.metadata.response = r := by
  cases ht : s.threads id with
  | none =>
    have hnone : as = [] ∧ s.finalResponses id = none := by
      simpa only [LocalStory, State.local, ht] using h
    cases hnone.2.symm.trans hr
  | some t =>
    obtain ⟨_, _, hfinal⟩ := h.thread ht
    exact ⟨t, rfl, finalOf_eq_some (hfinal.symm.trans hr)⟩

/-- After every run each thread's history fits where it is. -/
theorem localStory_run {c : Adapter} {store : Store String} {xs : List (String × Action)}
    {s : State} (h : Run c store xs s) (id : String) :
    LocalStory id (actionsOf id xs) (s.local id) := by
  have hstart : LocalStory id [] (none, none) := ⟨rfl, rfl⟩
  exact Runs.Run.invariant (I := fun as l => LocalStory id as l) hstart
    (fun _ _ _ _ _ hi hs => localStory_step hi hs) (thread_run h id)

theorem story_run {c : Adapter} {store : Store String} {xs : List (String × Action)} {s : State}
    (h : Run c store xs s) {id : String} {t : Thread} (ht : s.threads id = some t) :
    Story (actionsOf id xs) t ∧ t.request.transactionId = id ∧ s.finalResponses id = finalOf t :=
  (localStory_run h id).thread ht

end TwoPhaseCommit.Cohort
