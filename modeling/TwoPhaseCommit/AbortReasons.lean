import TwoPhaseCommit.CallOrder

/-! The reason in the final response of an aborted transaction: it is that of the call that
failed, and it is not determined when the blockchain decided to abort. -/
namespace TwoPhaseCommit.CohortServer
open Cohort Database Programs Programs.Program
open AdapterChain.Blockchain (VotingDecision)

/-- The status with which a failed call makes its transaction abort. -/
def failure : Event → Status
  | ⟨.lockWhenWithDeadline r _, _⟩ => lockError r
  | ⟨.begin, status⟩ => status
  | ⟨.beginReadOnly, status⟩ => status
  | ⟨.get _, found⟩ => found.1
  | ⟨.put _ _, status⟩ => status
  | ⟨.writeResponse _ _, _⟩ => responseNotWritten
  | ⟨.writeRequest _ _, _⟩ => requestNotWritten
  | _ => .okStatus

structure Names (status : Status) (reason : AbortReason) : Prop where
  deadline : status.code = .deadlineExceeded → reason = .presumedAbortTimestampReached
  notFound : status.code = .notFound → reason = .operationForNonExistentValue
  other : status.code ≠ .deadlineExceeded → status.code ≠ .notFound → reason = .unspecified

theorem names_abortReason (status : Status) : Names status (abortReason status) := by
  unfold abortReason
  constructor
  · intro h
    rw [h]
  · intro h
    rw [h]
  · intro hd hn
    split
    · exact absurd ‹_› hd
    · exact absurd ‹_› hn
    · rfl

def isPoll : Call → Bool
  | .getVotingDecision _ => true
  | _ => false

def undecided : Event → Bool
  | ⟨.getVotingDecision _, reply⟩ =>
    decide (decisionOf reply.toOption = .pending ∨ decisionOf reply.toOption = .unknown)
  | _ => false

/-- What a run was told: its calls with their replies, less the polls that brought no decision. -/
def results (es : List Event) : List Event := es.filter fun e => !undecided e

def DecidedAbort (e : Event) : Prop := ∃ id, e = ⟨.getVotingDecision id, .ok .abort⟩

/-- A run with these calls that ends aborted gives the reason of the call before its vote, unless
the blockchain decided; and any run that is told the same ends with the same response. -/
structure ReasonIsCause (server : Server) (request : PrepareTransactionRequest)
    (es : List Event) : Prop where
  cause : ∀ unset retries reason, Steps (processTransaction unset retries server request) es
      (.ret (some (some (.abortedResponse reason)))) →
    (∃ before e reply after, es = before ++ e ::
        ⟨.vote request.transactionId request.cohortIndex .abort, reply⟩ :: after ∧
      Names (failure e) reason) ∨ ∃ e ∈ es, DecidedAbort e
  fixed : ∀ unset unset' retries retries' es' r r',
    Steps (processTransaction unset retries server request) es (.ret (some r)) →
      Steps (processTransaction unset' retries' server request) es' (.ret (some r')) →
        results es = results es' → r = r'

section Blame

def last (_ : Option Event) (e : Event) : Option (Option Event) := some (some e)

theorem watch_last {q q' : Option Event} {es : List Event} (h : watch last q es = some q') :
    q' = es.getLast?.or q := by
  induction es generalizing q with
  | nil => exact (Option.some.inj h).symm
  | cons e es ih =>
    rw [ih h, List.getLast?_cons]
    cases es.getLast? <;> rfl

def Blames (status : Status) (q : Option Event) : Prop :=
  status.isOk = false → ∃ e, q = some e ∧ failure e = status

theorem blames_ok (q : Option Event) : Blames .okStatus q := fun h => by cases h

theorem blames_lockAll (deadline : ℤ) (rs : List LockRequest) (m : Metadata) (q : Option Event) :
    Pre last (fun a q' => Blames a.1 q') (lockAll deadline rs m) q := by
  induction rs generalizing m q with
  | nil => exact .pure (blames_ok q)
  | cons r rs ih =>
    refine .perform fun granted => ⟨_, rfl, ?_⟩
    cases granted with
    | false => exact .pure fun _ => ⟨_, rfl, rfl⟩
    | true => exact ih (record m r) _

theorem blames_begin (m : Metadata) (q : Option Event) :
    Pre last (fun status q' => Blames status q') (begin m) q := by
  rw [begin]
  split_ifs <;> exact fun status => ⟨_, rfl, fun _ => ⟨_, rfl, rfl⟩⟩

theorem blames_putInDb (key : String) (value : Int64) (m : Metadata) (q : Option Event) :
    Pre last (fun a q' => Blames a.1 q') (putInDb key value m) q :=
  .perform fun _ => ⟨_, rfl, .pure fun _ => ⟨_, rfl, rfl⟩⟩

theorem blames_relative (p : Put) (m : Metadata) (q : Option Event) :
    Pre last (fun a q' => Blames a.1 q')
      (perform (Call.get p.key) >>= fun found => putRelative p found m) q := by
  refine .perform fun found => ⟨_, rfl, ?_⟩
  rw [putRelative]
  split_ifs
  · exact blames_putInDb _ _ m _
  · exact .pure fun _ => ⟨_, rfl, rfl⟩
  · exact blames_putInDb _ _ m _

theorem blames_operation (op : Operation) (m : Metadata) (q : Option Event) :
    Pre last (fun a q' => Blames a.1 q') (processOperationInDb op m) q := by
  obtain ⟨n, _ | g | ⟨key, _ | c | r⟩⟩ := op
  · exact .pure (blames_ok q)
  · refine .perform fun found => ⟨_, rfl, ?_⟩
    split_ifs
    · exact .pure fun _ => ⟨_, rfl, rfl⟩
    · exact .pure (blames_ok _)
  · exact blames_relative _ m q
  · exact blames_putInDb key c.int64 m q
  · exact blames_relative _ m q

theorem blames_operations (ops : List Operation) (m : Metadata) (q : Option Event) :
    Pre last (fun a q' => Blames a.1 q') (processOperations ops m) q := by
  induction ops generalizing m q with
  | nil => exact .pure (blames_ok q)
  | cons op ops ih =>
    refine (blames_operation op m q).bind fun result q' hresult => ?_
    split_ifs
    · exact .pure hresult
    · exact ih result.2 q'

theorem blames_processTransactionInDb (server : Server) (transaction : Transaction) (deadline : ℤ)
    (m : Metadata) (q : Option Event) :
    Pre last (fun a q' => Blames a.1 q') (processTransactionInDb server transaction deadline m)
      q := by
  refine (blames_lockAll deadline _ m q).bind fun locked q₁ hlocked => ?_
  split_ifs
  · exact .pure hlocked
  · refine (blames_begin locked.2 q₁).bind fun begun q₂ hbegun => ?_
    split_ifs
    · exact .pure hbegun
    · exact blames_operations transaction.ops locked.2 q₂

theorem blames_persistTransaction (server : Server) (request : PrepareTransactionRequest)
    (m : Metadata) (q : Option Event) :
    Pre last (fun status q' => Blames status q') (persistTransaction server request m) q := by
  refine .perform fun responseWritten => ⟨_, rfl, ?_⟩
  split_ifs
  · exact .pure fun _ => ⟨_, rfl, rfl⟩
  · refine .perform fun requestWritten => ⟨_, rfl, ?_⟩
    split_ifs
    · exact .pure fun _ => ⟨_, rfl, rfl⟩
    · exact .pure (blames_ok _)

theorem exists_failed {α : Type} (status : α → Status) {p : Process α} {es : List Event} {a : α}
    (hp : Pre last (fun a q => Blames (status a) q) p none) (h : Steps p es (.ret a))
    (hfail : (status a).isOk = false) : ∃ before e, es = before ++ [e] ∧ failure e = status a := by
  obtain ⟨q, hwatch, hpost⟩ := h.watch hp
  obtain ⟨e, rfl, hfailure⟩ := hpost hfail
  have hlast := watch_last hwatch
  rw [Option.or_none] at hlast
  obtain ⟨before, rfl⟩ := List.getLast?_eq_some_iff.mp hlast.symm
  exact ⟨before, e, rfl, hfailure⟩

end Blame

section Quiet
variable {α : Type}

def Quiet (p : Process α) : Prop := Makes (fun c => isPoll c = false) p

theorem Quiet.results {p q : Process α} {es : List Event} (hp : Quiet p) (h : Steps p es q) :
    results es = es := by
  refine List.filter_eq_self.mpr fun e he => ?_
  obtain ⟨c, r⟩ := e
  have hquiet := hp.steps h _ he
  cases c with
  | getVotingDecision id => cases hquiet
  | _ => rfl

theorem Quiet.not_decided {p q : Process α} {es : List Event} (hp : Quiet p) (h : Steps p es q) :
    ¬∃ e ∈ es, DecidedAbort e := by
  rintro ⟨_, he, id, rfl⟩
  cases hp.steps h _ he

theorem quiet_inDb (server : Server) (transaction : Transaction) (deadline : ℤ) (m : Metadata) :
    Quiet (processTransactionInDb server transaction deadline m) :=
  makes_processTransactionInDb (fun _ => by rfl) (fun _ _ => by rfl) (fun _ _ => by rfl) (by rfl)
    (by rfl) server transaction deadline m

theorem quiet_persist (server : Server) (request : PrepareTransactionRequest) (m : Metadata) :
    Quiet (persistTransaction server request m) :=
  makes_persistTransaction (fun _ _ => by rfl) (fun _ _ => by rfl) server request m

theorem quiet_commit (m : Metadata) (retries : ℕ) : Quiet (commitTransaction m retries) :=
  makes_commitTransaction (fun _ => by rfl) (by rfl) m retries

theorem quiet_abort (unset : AbortReason) (id : String) (i : UInt32) (status : Option Status)
    (m : Metadata) :
    Quiet (abortTransaction unset id i status m >>= fun response => pure (some response)) :=
  (makes_abortTransaction (fun _ => by rfl) (fun _ _ _ => by rfl) (by rfl) unset id i status m).bind
    fun _ => .pure _

theorem mem_results {es : List Event} {e : Event} (hd : DecidedAbort e) :
    e ∈ results es ↔ e ∈ es := by
  obtain ⟨id, rfl⟩ := hd
  exact List.mem_filter.trans (and_iff_left rfl)

theorem results_append (es es' : List Event) : results (es ++ es') = results es ++ results es' :=
  List.filter_append es es'

end Quiet

section Endings
variable {m : Metadata} {es : List Event} {retries : ℕ} {r : GetTransactionResultResponse}

theorem release_response (h : Steps (releaseLocksAndDeleteMetadata m) es (.ret r)) :
    r = m.response := by
  obtain ⟨_, _, _, _, _, hret⟩ := h.ret_of_bind
  cases hret
  rfl

theorem commit_response (h : Steps (commitTransaction m retries) es (.ret (some r))) :
    r = some (.committedResponse m.response.committed) := by
  revert es
  refine commitTransaction_induction (P := fun p => ∀ {es}, Steps p es (.ret (some r)) →
    r = some (.committedResponse m.response.committed)) (fun h => by cases h) ?_ retries
  intro again hagain es h
  obtain ⟨status, es', _, h⟩ := h.ret_of_perform
  split_ifs at h
  · obtain ⟨_, _, response, _, hrelease, hret⟩ := h.ret_of_bind
    obtain rfl := release_response hrelease
    cases hret
    rfl
  · exact hagain h

theorem abort_response {unset : AbortReason} {id : String} {i : UInt32} {status : Status}
    (h : Steps (abortTransaction unset id i (some status) m >>= fun response =>
      pure (some response)) es (.ret (some r))) :
    r = some (.abortedResponse (abortReason status)) ∧
      ∃ reply es', es = ⟨.vote id i .abort, reply⟩ :: es' := by
  obtain ⟨es₁, es₂, response, rfl, habort, hret⟩ := h.ret_of_bind
  obtain ⟨reply, es₃, rfl, hrest⟩ := habort.ret_of_perform
  obtain ⟨_, _, _, hrelease⟩ := hrest.ret_of_perform
  obtain rfl := release_response hrelease
  cases hret
  exact ⟨rfl, reply, _, rfl⟩

theorem unset_response {unset : AbortReason} {id : String} {i : UInt32}
    (h : Steps (abortTransaction unset id i none m >>= fun response => pure (some response)) es
      (.ret (some r))) (unset' : AbortReason) :
    Steps (abortTransaction unset' id i none m >>= fun response => pure (some response)) es
      (.ret (some (some (.abortedResponse unset')))) := by
  obtain ⟨es₁, es₂, response, rfl, habort, hret⟩ := h.ret_of_bind
  obtain ⟨reply, es₃, rfl, hrelease⟩ := habort.ret_of_perform
  obtain ⟨es₄, es₅, _, rfl, hunlock, hret'⟩ := hrelease.ret_of_bind
  cases hret
  cases hret'
  have hrelease : Steps (releaseLocksAndDeleteMetadata (abortDb m unset')) (es₄ ++ [])
      (.ret (some (.abortedResponse unset'))) := .bind hunlock (.refl _)
  exact .bind (.call reply hrelease) (.refl _)

def PolledTo (id : String) (es : List Event) (decision : VotingDecision) : Prop :=
  ∃ reply, decisionOf reply.toOption = decision ∧ decision ≠ .pending ∧ decision ≠ .unknown ∧
    results es = [⟨.getVotingDecision id, reply⟩] ∧ ∀ e ∈ es, DecidedAbort e → decision = .abort

theorem wait_polls {id : String} {decision : VotingDecision}
    (h : Steps (waitForBlockchainDecision id retries) es (.ret (some decision))) :
    PolledTo id es decision := by
  revert es
  refine waitForBlockchainDecision_induction (P := fun p => ∀ {es},
    Steps p es (.ret (some decision)) → PolledTo id es decision) (fun h => by cases h) ?_ retries
  intro again hagain es h
  obtain ⟨reply, es', rfl, hrest⟩ := h.ret_of_perform
  dsimp only at hrest
  split_ifs at hrest with hdecided
  · cases hrest
    refine ⟨reply, rfl, hdecided.1, hdecided.2, ?_, ?_⟩
    · exact List.filter_cons_of_pos (by simp [undecided, hdecided])
    · intro e he ⟨id', hid⟩
      rw [List.mem_singleton] at he
      subst he
      cases hid
      rfl
  · obtain ⟨reply', hreply, hpending, hunknown, hresults, habort⟩ := hagain hrest
    refine ⟨reply', hreply, hpending, hunknown, ?_, ?_⟩
    · rw [← hresults]
      refine List.filter_cons_of_neg ?_
      simp only [undecided, Bool.not_eq_true', decide_eq_false_iff_not, not_not]
      tauto
    · intro e he hd
      rcases List.mem_cons.mp he with rfl | he
      · obtain ⟨id', hid⟩ := hd
        cases hid
        exact absurd ⟨by decide, by decide⟩ hdecided
      · exact habort e he hd

end Endings

section Runs
variable {α : Type} {retries retries' : ℕ} {unset unset' : AbortReason}

/-- Two programs that are told the same answer the same, unless the blockchain decides to abort. -/
def Fixed (p p' : Process (Option GetTransactionResultResponse)) : Prop :=
  ∀ es es' r r', Steps p es (.ret (some r)) → Steps p' es' (.ret (some r')) →
    results es = results es' → (¬∃ e ∈ es, DecidedAbort e) → r = r'

/-- A program that answers with the unset reason when the blockchain decides to abort. -/
def Varies (p : AbortReason → Process (Option GetTransactionResultResponse)) : Prop :=
  ∀ unset es r, Steps (p unset) es (.ret (some r)) → (∃ e ∈ es, DecidedAbort e) →
    ∀ unset', Steps (p unset') es (.ret (some (some (.abortedResponse unset'))))

theorem Fixed.of_quiet {p : Process (Option GetTransactionResultResponse)} (hp : Quiet p) :
    Fixed p p := by
  intro es es' r r' h h' hresults _
  rw [hp.results h, hp.results h'] at hresults
  have hsame := h.append_inj h' (congrArg (· ++ []) hresults)
  exact Option.some.inj hsame.1

theorem Fixed.bind {q : Process α} (hq : Quiet q)
    {f f' : α → Process (Option GetTransactionResultResponse)} (hf : ∀ a, Fixed (f a) (f' a)) :
    Fixed (q >>= f) (q >>= f') := by
  intro es es' r r' h h' hresults hno
  obtain ⟨es₁, es₂, a, rfl, hfirst, hrest⟩ := h.ret_of_bind
  obtain ⟨es₁', es₂', a', rfl, hfirst', hrest'⟩ := h'.ret_of_bind
  rw [results_append, results_append, hq.results hfirst, hq.results hfirst'] at hresults
  obtain ⟨rfl, hsame⟩ := hfirst.append_inj hfirst' hresults
  refine hf a es₂ es₂' r r' hrest hrest' hsame fun ⟨e, he, hd⟩ => hno ⟨e, ?_, hd⟩
  exact List.mem_append_right es₁ he

theorem Varies.of_quiet {p : AbortReason → Process (Option GetTransactionResultResponse)}
    (hp : ∀ unset, Quiet (p unset)) : Varies p :=
  fun unset _ _ h hd => absurd hd ((hp unset).not_decided h)

theorem Varies.bind {q : Process α} (hq : Quiet q)
    {f : AbortReason → α → Process (Option GetTransactionResultResponse)}
    (hf : ∀ a, Varies fun unset => f unset a) : Varies fun unset => q >>= f unset := by
  intro unset es r h ⟨e, he, hd⟩ unset'
  obtain ⟨es₁, es₂, a, rfl, hfirst, hrest⟩ := h.ret_of_bind
  have hmem : e ∈ es₂ := (List.mem_append.mp he).resolve_left fun he' =>
    hq.not_decided hfirst ⟨e, he', hd⟩
  exact hfirst.bind (hf a unset es₂ r hrest ⟨e, hmem, hd⟩ unset')

theorem decidedAbort_of_reply {id : String} {reply : Except Status VotingDecision}
    (h : decisionOf reply.toOption = .abort) : DecidedAbort ⟨.getVotingDecision id, reply⟩ := by
  cases reply with
  | error status => cases h
  | ok decision =>
    obtain rfl : decision = .abort := h
    exact ⟨id, rfl⟩

theorem follow_cases {request : PrepareTransactionRequest} {m : Metadata} {es : List Event}
    {r : GetTransactionResultResponse}
    (h : Steps (followDecision unset retries request m) es (.ret (some r))) :
    (r = some (.committedResponse m.response.committed) ∧ ¬∃ e ∈ es, DecidedAbort e) ∨
      ((∃ e ∈ es, DecidedAbort e) ∧ ∀ unset',
        Steps (followDecision unset' retries request m) es
          (.ret (some (some (.abortedResponse unset'))))) := by
  obtain ⟨polls, rest, decision, rfl, hwait, hrest⟩ := h.ret_of_bind
  cases decision with
  | none => cases hrest
  | some decision =>
    obtain ⟨reply, rfl, hpending, hunknown, hresults, habort⟩ := wait_polls hwait
    cases hd : decisionOf reply.toOption with
    | unknown => exact absurd hd hunknown
    | pending => exact absurd hd hpending
    | commit =>
      rw [hd] at hrest
      refine .inl ⟨commit_response hrest, fun ⟨e, he, hde⟩ => ?_⟩
      rcases List.mem_append.mp he with he | he
      · rw [habort e he hde] at hd
        cases hd
      · exact (quiet_commit m retries).not_decided hrest ⟨e, he, hde⟩
    | abort =>
      rw [hd] at hrest hwait
      have hmem : ⟨.getVotingDecision request.transactionId, reply⟩ ∈ polls :=
        List.mem_of_mem_filter (hresults ▸ List.mem_singleton_self _)
      refine .inr ⟨⟨_, List.mem_append_left rest hmem, decidedAbort_of_reply hd⟩, ?_⟩
      exact fun unset' => hwait.bind (unset_response hrest unset')

theorem fixed_follow (request : PrepareTransactionRequest) (m : Metadata) :
    Fixed (followDecision unset retries request m) (followDecision unset' retries' request m) := by
  intro es es' r r' h h' hresults hno
  obtain ⟨rfl, _⟩ | ⟨habort, _⟩ := follow_cases h
  · obtain ⟨rfl, _⟩ | ⟨⟨e, he, hd⟩, _⟩ := follow_cases h'
    · rfl
    · have hmem : e ∈ results es := hresults ▸ (mem_results hd).mpr he
      exact absurd ⟨e, (mem_results hd).mp hmem, hd⟩ hno
  · exact absurd habort hno

theorem varies_follow (request : PrepareTransactionRequest) (m : Metadata) :
    Varies fun unset => followDecision unset retries request m := by
  intro unset es r h hd unset'
  obtain ⟨_, hno⟩ | ⟨_, hvaries⟩ := follow_cases h
  · exact absurd hd hno
  · exact hvaries unset'

theorem fixed_processTransaction (server : Server) (request : PrepareTransactionRequest) :
    Fixed (processTransaction unset retries server request)
      (processTransaction unset' retries' server request) := by
  refine .bind (quiet_inDb ..) fun inDb => ?_
  split_ifs
  · exact .of_quiet (quiet_abort ..)
  · intro es es' r r' h h' _ _
    rw [commit_response h, commit_response h']
  · refine .bind (quiet_persist ..) fun persisted => ?_
    split_ifs
    · exact .of_quiet (quiet_abort ..)
    · exact .bind (q := perform _) ⟨rfl, fun _ => trivial⟩ fun _ => fixed_follow request inDb.2

theorem varies_processTransaction (server : Server) (request : PrepareTransactionRequest) :
    Varies fun unset => processTransaction unset retries server request := by
  refine .bind (quiet_inDb ..) fun inDb => ?_
  split_ifs
  · exact .of_quiet fun _ => quiet_abort ..
  · exact .of_quiet fun _ => quiet_commit ..
  · refine .bind (quiet_persist ..) fun persisted => ?_
    split_ifs
    · exact .of_quiet fun _ => quiet_abort ..
    · exact .bind (q := perform _) ⟨rfl, fun _ => trivial⟩ fun _ => varies_follow request inDb.2

theorem aborted_cases {server : Server} {request : PrepareTransactionRequest} {es : List Event}
    {reason : AbortReason}
    (h : Steps (processTransaction unset retries server request) es
      (.ret (some (some (.abortedResponse reason))))) :
    (∃ before e reply after, es = before ++ e ::
        ⟨.vote request.transactionId request.cohortIndex .abort, reply⟩ :: after ∧
      Names (failure e) reason) ∨ ∃ e ∈ es, DecidedAbort e := by
  have hnames {status : Status} {e : Event} {es₂ : List Event} {m : Metadata}
      (hfailure : failure e = status)
      (habort : Steps (abortTransaction unset request.transactionId request.cohortIndex
        (some status) m >>= fun response => pure (some response)) es₂
          (.ret (some (some (.abortedResponse reason))))) :
      ∃ reply after, es₂ = ⟨.vote request.transactionId request.cohortIndex .abort, reply⟩ :: after ∧
        Names (failure e) reason := by
    obtain ⟨hresponse, reply, after, rfl⟩ := abort_response habort
    cases hresponse
    exact ⟨reply, after, rfl, hfailure ▸ names_abortReason status⟩
  obtain ⟨es₁, es₂, inDb, rfl, hdb, hrest⟩ := h.ret_of_bind
  split_ifs at hrest with hfail hone
  · obtain ⟨before, e, rfl, hfailure⟩ :=
      exists_failed Prod.fst (blames_processTransactionInDb ..) hdb hfail
    obtain ⟨reply, after, rfl, hname⟩ := hnames hfailure hrest
    exact .inl ⟨before, e, reply, after, by simp, hname⟩
  · cases commit_response hrest
  · obtain ⟨es₃, es₄, persisted, rfl, hpersist, hlast⟩ := hrest.ret_of_bind
    split_ifs at hlast with hfail'
    · obtain ⟨before, e, rfl, hfailure⟩ := exists_failed (fun status => status)
        (blames_persistTransaction server request inDb.2 none) hpersist hfail'
      obtain ⟨reply, after, rfl, hname⟩ := hnames hfailure hlast
      exact .inl ⟨es₁ ++ before, e, reply, after, by simp, hname⟩
    · obtain ⟨reply, es₅, rfl, hfollow⟩ := hlast.ret_of_perform
      obtain ⟨hcommit, _⟩ | ⟨⟨e, he, hd⟩, _⟩ := follow_cases hfollow
      · cases hcommit
      · exact .inr ⟨e, by simp [he], hd⟩

end Runs

/-- The reason of an abort is its cause, the same for all runs that are told the same, exactly
when the blockchain has not decided to abort. -/
theorem reasonIsCause_iff {unset : AbortReason} {retries : ℕ} {server : Server}
    {request : PrepareTransactionRequest} {es : List Event} {r : GetTransactionResultResponse}
    (h : Steps (processTransaction unset retries server request) es (.ret (some r))) :
    ReasonIsCause server request es ↔
      ∀ id, ⟨.getVotingDecision id, .ok .abort⟩ ∉ es := by
  constructor
  · intro hcause id hmem
    have hvaries := varies_processTransaction server request unset es r h ⟨_, hmem, id, rfl⟩
    have hsame := hcause.fixed _ _ _ _ _ _ _ (hvaries .unspecified) (hvaries .resourceLocked) rfl
    cases hsame
  · intro hno
    refine ⟨fun unset retries reason => aborted_cases, ?_⟩
    intro unset unset' retries retries' es' r r' hrun hrun' hresults
    refine fixed_processTransaction server request es es' r r' hrun hrun' hresults ?_
    rintro ⟨_, he, id, rfl⟩
    exact hno id he

def sharedPut : PrepareTransactionRequest := ⟨"t", ⟨[Db.putK]⟩, ⟨none⟩, some (.cohortIndex 0)⟩

def decidedRun : List Event :=
  [⟨.lockWhenWithDeadline ⟨.wholeDb, .write⟩ (presumedAbortTime sharedPut), true⟩,
    ⟨.begin, .okStatus⟩, ⟨.put "k" 5, .okStatus⟩,
    ⟨.writeResponse (responsePath singleWriter "t") ⟨[]⟩, true⟩,
    ⟨.writeRequest (requestPath singleWriter "t") sharedPut, true⟩,
    ⟨.vote "t" 0 .commit, .okStatus⟩, ⟨.getVotingDecision "t", .ok .abort⟩,
    ⟨.abort, .okStatus⟩, ⟨.unlock ⟨.wholeDb, .write⟩, ()⟩]

def sharedGet : PrepareTransactionRequest := ⟨"t", ⟨[Db.getK]⟩, ⟨none⟩, some (.cohortIndex 0)⟩

def refusedRun : List Event :=
  [⟨.lockWhenWithDeadline ⟨.wholeDb, .read⟩ (presumedAbortTime sharedGet), true⟩,
    ⟨.beginReadOnly, .okStatus⟩, ⟨.get "k", (Db.LMDBDatabaseTransactionAdapter.getFailed, 0)⟩,
    ⟨.vote "t" 0 .abort, .okStatus⟩, ⟨.abort, .okStatus⟩, ⟨.unlock ⟨.wholeDb, .read⟩, ()⟩]

theorem steps_decidedRun (unset : AbortReason) :
    Steps (processTransaction unset 0 singleWriter sharedPut) decidedRun
      (.ret (some (some (.abortedResponse unset)))) := by
  iterate 9 apply Steps.call
  exact .refl _

theorem steps_refusedRun (unset : AbortReason) :
    Steps (processTransaction unset 0 singleWriter sharedGet) refusedRun
      (.ret (some (some (.abortedResponse .unspecified)))) := by
  iterate 6 apply Steps.call
  exact .refl _

theorem refusedRun_names_cause : ReasonIsCause singleWriter sharedGet refusedRun :=
  (reasonIsCause_iff (steps_refusedRun .unspecified)).mpr (by simp [refusedRun])

/-- Two runs that make the same calls and get the same replies give different reasons. -/
theorem decidedRun_reason_varies :
    Steps (processTransaction .unspecified 0 singleWriter sharedPut) decidedRun
        (.ret (some (some (.abortedResponse .unspecified)))) ∧
      Steps (processTransaction .resourceLocked 0 singleWriter sharedPut) decidedRun
        (.ret (some (some (.abortedResponse .resourceLocked)))) ∧
      ¬ReasonIsCause singleWriter sharedPut decidedRun := by
  refine ⟨steps_decidedRun _, steps_decidedRun _, ?_⟩
  intro h
  have hsame := h.fixed _ _ _ _ _ _ _ (steps_decidedRun .unspecified)
    (steps_decidedRun .resourceLocked) rfl
  cases hsame

end TwoPhaseCommit.CohortServer
