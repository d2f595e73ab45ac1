import TwoPhaseCommit.Conflicts
import TwoPhaseCommit.CohortPromise

/-! The files of a cohort: what it has on disk for each transaction that it has promised to commit,
and that, where the bytes of the files have got to the disk, this is enough to run these
transactions again on the store. -/
namespace TwoPhaseCommit.Cohort
open Database Locks
open AdapterChain.Blockchain (Ballot)

/-- The bytes that protobuf makes of a message, if it can, and what it reads from bytes. -/
structure Codec (α : Type) where
  serialize : α → Option (List UInt8)
  parse : List UInt8 → Option α
  parse_serialize : ∀ message bytes, serialize message = some bytes → parse bytes = some message

structure Protobuf where
  response : Codec CommittedResponse
  request : Codec PrepareTransactionRequest

abbrev Disk := String → Option (List UInt8)

def filePath (dbTxnResponseDir kind transactionId : String) : String :=
  dbTxnResponseDir ++ kind ++ transactionId ++ ".binarypb"

def responsePath (dbTxnResponseDir transactionId : String) : String :=
  filePath dbTxnResponseDir "/response_" transactionId

def requestPath (dbTxnResponseDir transactionId : String) : String :=
  filePath dbTxnResponseDir "/request_" transactionId

/-- `WriteToFile`: true says that the message was handed to the stream. The stream is flushed and
closed after that, and nobody looks at the result: only where closes is true of the path does the
file hold the bytes then. -/
def Writes {α : Type} (codec : Codec α) (closes : String → Prop) (disk : Disk) (path : String)
    (message : α) (written : Bool) (disk' : Disk) : Prop :=
  ∃ contents, disk' = Function.update disk path contents ∧
    (written → ∃ bytes, codec.serialize message = some bytes ∧
      (closes path → contents = some bytes))

structure Stored where
  cohort : State
  disk : Disk

def Action.writesFile : Action → Bool
  | .persistResponse _ | .persistRequest _ => true
  | _ => false

/-- What a cohort's files depend on: protobuf, where they are, and which of them get their bytes. -/
structure Files where
  protobuf : Protobuf
  dir : String
  closes : String → Prop

inductive StoredStep (f : Files) (c : Adapter) : Stored → String × Action → Stored → Prop
  | persistResponse {s s' : State} {disk disk' : Disk} {id : String} {t : Thread} {written : Bool}
      (hs : Step c s (id, .persistResponse written) s') (ht : s.threads id = some t)
      (hw : Writes f.protobuf.response f.closes disk (responsePath f.dir t.request.transactionId)
        t.metadata.response.committed written disk') :
      StoredStep f c ⟨s, disk⟩ (id, .persistResponse written) ⟨s', disk'⟩
  | persistRequest {s s' : State} {disk disk' : Disk} {id : String} {t : Thread} {written : Bool}
      (hs : Step c s (id, .persistRequest written) s') (ht : s.threads id = some t)
      (hw : Writes f.protobuf.request f.closes disk (requestPath f.dir t.request.transactionId)
        t.request written disk') :
      StoredStep f c ⟨s, disk⟩ (id, .persistRequest written) ⟨s', disk'⟩
  | other {s s' : State} {disk : Disk} {x : String × Action} (hs : Step c s x s')
      (hx : x.2.writesFile = false) : StoredStep f c ⟨s, disk⟩ x ⟨s', disk⟩

abbrev StoredRun (f : Files) (c : Adapter) (store : Store String) (disk : Disk)
    (xs : List (String × Action)) (S : Stored) : Prop :=
  Runs.Run (StoredStep f c) ⟨initial store, disk⟩ xs S

def readRequest (f : Files) (disk : Disk) (id : String) : Option PrepareTransactionRequest :=
  (disk (requestPath f.dir id)).bind f.protobuf.request.parse

def readResponse (f : Files) (disk : Disk) (id : String) : Option CommittedResponse :=
  (disk (responsePath f.dir id)).bind f.protobuf.response.parse

/-- Run the requests that are on disk, one after another, on a store. -/
def redo (f : Files) (access : Access String) (disk : Disk) (store : Store String)
    (ids : List String) : Option (Store String × List (List GetResponse)) :=
  (ids.mapM (readRequest f disk)).bind fun requests =>
    (serialRun access store (requests.map fun r => r.transaction.ops)).toOption

section Paths
variable {dir id id' kind : String}

theorem filePath_injective (h : filePath dir kind id = filePath dir kind id') : id = id' := by
  have hlist := congrArg String.toList h
  simp only [filePath, String.toList_append, List.append_assoc] at hlist
  exact String.toList_inj.mp (List.append_cancel_right
    (List.append_cancel_left (List.append_cancel_left hlist)))

theorem responsePath_ne_requestPath : responsePath dir id ≠ requestPath dir id' := by
  intro h
  have hlist := congrArg String.toList h
  simp only [responsePath, requestPath, filePath, String.toList_append, List.append_assoc] at hlist
  have hkind := List.append_cancel_left hlist
  simp at hkind

end Paths

/-- The message can be read from its file, once that is closed. -/
def Saved {α : Type} (codec : Codec α) (closes : String → Prop) (disk : Disk) (path : String)
    (message : α) : Prop :=
  closes path → (disk path).bind codec.parse = some message

theorem Saved.congr {α : Type} {codec : Codec α} {closes : String → Prop} {disk disk' : Disk}
    {path : String} {message : α} (h : Saved codec closes disk path message)
    (hpath : disk' path = disk path) : Saved codec closes disk' path message := by
  rwa [Saved, hpath]

def ResponseSaved (f : Files) (disk : Disk) (id : String) (t : Thread) : Prop :=
  Saved f.protobuf.response f.closes disk (responsePath f.dir id) t.metadata.response.committed

def RequestSaved (f : Files) (disk : Disk) (id : String) (t : Thread) : Prop :=
  Saved f.protobuf.request f.closes disk (requestPath f.dir id) t.request

def FilesInv (f : Files) (disk : Disk) (id : String) (t : Thread) : Prop :=
  match t.phase with
  | .persistingRequest => ResponseSaved f disk id t
  | .voting | .waiting | .aborting none _ => ResponseSaved f disk id t ∧ RequestSaved f disk id t
  | .committing => t.request.onlyCohort = false →
      ResponseSaved f disk id t ∧ RequestSaved f disk id t
  | _ => True

section Run
variable {f : Files} {c : Adapter} {store : Store String} {disk₀ : Disk}
  {xs : List (String × Action)} {S S' : Stored}

theorem StoredStep.step {x : String × Action} (hs : StoredStep f c S x S') :
    Step c S.cohort x S'.cohort := by
  cases hs with
  | persistResponse hs ht hw => exact hs
  | persistRequest hs ht hw => exact hs
  | other hs hx => exact hs

theorem StoredRun.cohort_run (h : StoredRun f c store disk₀ xs S) : Run c store xs S.cohort := by
  have hproject := Runs.Run.project (f := Stored.cohort) (g := fun x => [x])
    (fun _ _ _ hs => .single (StoredStep.step hs)) h
  rwa [List.flatMap_singleton'] at hproject

theorem FilesInv.congr {disk disk' : Disk} {id : String} {t : Thread}
    (h : FilesInv f disk id t)
    (hresponse : disk' (responsePath f.dir id) = disk (responsePath f.dir id))
    (hrequest : disk' (requestPath f.dir id) = disk (requestPath f.dir id)) :
    FilesInv f disk' id t := by
  unfold FilesInv ResponseSaved RequestSaved Saved at h ⊢
  rwa [hresponse, hrequest]

section Writes
variable {α : Type} {codec : Codec α} {closes : String → Prop} {disk disk' : Disk} {message : α}
  {written : Bool} {path path' dir kind id u : String}

/-- Serialized bytes that have got to the disk are read as the message that they were made of. -/
theorem Writes.saved (h : Writes codec closes disk path message true disk') :
    Saved codec closes disk' path message := by
  obtain ⟨contents, rfl, hwritten⟩ := h
  obtain ⟨bytes, hbytes, hcontents⟩ := hwritten rfl
  intro hclosed
  rw [Function.update_self, hcontents hclosed]
  exact codec.parse_serialize message bytes hbytes

theorem Writes.elsewhere (h : Writes codec closes disk path message written disk')
    (hp : path' ≠ path) : disk' path' = disk path' := by
  obtain ⟨contents, rfl, _⟩ := h
  exact Function.update_of_ne hp _ _

theorem Writes.other (h : Writes codec closes disk (filePath dir kind id) message written disk')
    (hu : u ≠ id) : disk' (filePath dir kind u) = disk (filePath dir kind u) :=
  h.elsewhere fun he => hu (filePath_injective he)

end Writes

theorem filesInv_other {s s' : State} {disk : Disk} {x : String × Action}
    (h : AllThreads (FilesInv f disk) s) (hs : Step c s x s') (hx : x.2.writesFile = false) :
    AllThreads (FilesInv f disk) s' := by
  have hset (T : Table LockName String) {id : String} {t : Thread} (ht : FilesInv f disk id t) :
      AllThreads (FilesInv f disk) ({ s with mutexes := T }.set id t) :=
    allThreads_set h (fun _ _ _ hu => hu) ht
  cases hs with
  | start request orders hid hnew => exact hset _ trivial
  | lock conditionHolds ht ha =>
    cases conditionHolds with
    | false => exact hset _ trivial
    | true => exact hset _ trivial
  | begin ht => exact hset _ trivial
  | beginFault ht hf => exact hset _ trivial
  | @operate id request m op todo fault ht hf =>
    obtain ⟨status, _, he⟩ | ⟨m', hop, he⟩ | ⟨key, value, hop, he⟩ :=
      operate_cases c s.store fault op todo m
    all_goals
      rw [he]
      exact hset _ trivial
  | @put id request m key value todo fault ht hf =>
    obtain ⟨status, he⟩ | ⟨m', hput, he⟩ := finishPut_cases fault key value todo m
    all_goals
      rw [he]
      exact hset _ trivial
  | @endOperations id request m ht =>
    cases hone : request.onlyCohort with
    | false => exact hset _ trivial
    | true =>
      refine hset _ fun hmany => ?_
      rw [hone] at hmany
      cases hmany
  | persistResponse written ht => cases hx
  | persistRequest written ht => cases hx
  | vote ht =>
    have hsaved := h _ _ ht
    exact hset _ hsaved
  | pollAgain ht hd => exact h
  | pollCommit ht =>
    have hsaved := h _ _ ht
    exact hset _ fun _ => hsaved
  | pollAbort reason ht =>
    have hsaved := h _ _ ht
    exact hset _ hsaved
  | voteAbort ht => exact hset _ trivial
  | commitFault ht hf => exact h
  | commit ht => exact allThreads_set h (fun _ _ _ hu => hu) trivial
  | abort ht => exact hset _ trivial
  | unlock ht => exact hset _ trivial
  | finish ht => exact allThreads_set h (fun _ _ _ hu => hu) trivial

theorem filesInv_step {x : String × Action} (h : AllThreads (FilesInv f S.disk) S.cohort)
    (hids : ∀ id t, S.cohort.threads id = some t → t.request.transactionId = id)
    (hs : StoredStep f c S x S') : AllThreads (FilesInv f S'.disk) S'.cohort := by
  cases hs with
  | @persistResponse s s' disk disk' id t written hs ht hw =>
    rw [hids id t ht] at hw
    cases hs with
    | @persistResponse _ request m _ ht' =>
      obtain rfl := Option.some.inj (ht.symm.trans ht')
      refine allThreads_set h (fun u t' hu hinv => hinv.congr (hw.other hu)
        (hw.elsewhere responsePath_ne_requestPath.symm)) ?_
      cases written with
      | false => trivial
      | true => exact hw.saved
  | @persistRequest s s' disk disk' id t written hs ht hw =>
    rw [hids id t ht] at hw
    cases hs with
    | @persistRequest _ request m _ ht' =>
      obtain rfl := Option.some.inj (ht.symm.trans ht')
      have hresponse := h _ _ ht
      refine allThreads_set h (fun u t' hu hinv => hinv.congr
        (hw.elsewhere responsePath_ne_requestPath) (hw.other hu)) ?_
      cases written with
      | false => trivial
      | true =>
        have hkept := Saved.congr hresponse (hw.elsewhere responsePath_ne_requestPath)
        exact ⟨hkept, hw.saved⟩
  | other hs hx => exact filesInv_other h hs hx

theorem filesInv_run (h : StoredRun f c store disk₀ xs S) :
    AllThreads (FilesInv f S.disk) S.cohort := by
  refine Runs.Run.invariant (I := fun _ S => AllThreads (FilesInv f S.disk) S.cohort)
    (fun id t ht => by cases ht) ?_ h
  intro xs S x S' hrun hi hs
  exact filesInv_step hi (fun id t ht => (story_run (StoredRun.cohort_run hrun) ht).2.1) hs

/-- The transaction was promised to the other cohorts, and is not ended yet. -/
structure InDoubt (xs : List (String × Action)) (id : String) : Prop where
  promised : ∃ i, (id, .vote i .commit) ∈ xs
  uncommitted : (id, .commit none) ∉ xs
  unaborted : (id, .abort) ∉ xs

/-- A transaction in doubt is open in the database, under its locks and with its files written. -/
theorem InDoubt.thread {id : String} (hdoubt : InDoubt xs id)
    (h : StoredRun f c store disk₀ xs S) :
    ∃ t, HeldOpen c S.cohort id t ∧ ResponseSaved f S.disk id t ∧ RequestSaved f S.disk id t := by
  obtain ⟨⟨i, hvote⟩, huncommitted, hunaborted⟩ := hdoubt
  have hrun := StoredRun.cohort_run h
  have hinv := filesInv_run h
  obtain ⟨sent, after, rfl⟩ := List.append_of_mem hvote
  obtain ⟨t, ht⟩ := thread_of_action hrun (List.ne_nil_of_mem promised_mem)
  have hstory := (story_run hrun ht).1
  have hopen : t.phase.ended = false := by
    rw [← Bool.not_eq_true]
    intro hended
    obtain ⟨hends, _⟩ | ⟨hends, _⟩ := hstory.ended hended
    · refine huncommitted ?_
      rw [← mem_actionsOf, ← mem_endings_committed, hends]
      exact List.mem_singleton_self _
    · refine hunaborted ?_
      rw [← mem_actionsOf, ← mem_endings_aborted, hends]
      exact List.mem_singleton_self _
  refine ⟨t, heldOpen_of_promised hrun ht hopen, ?_⟩
  have hpromised := hstory.promised (mem_votes.mpr promised_mem) hopen
  have hfiles := hinv id t ht
  obtain ⟨request, m, phase⟩ := t
  cases phase with
  | waiting => exact hfiles
  | aborting abortStatus reason =>
    cases abortStatus with
    | none => exact hfiles
    | some status => cases hpromised
  | committing =>
    obtain ⟨_, hnil⟩ | ⟨hpromised, _⟩ := hstory.phase.2
    · rw [hstory.votes_eq promised_mem] at hnil
      cases hnil
    · exact hfiles hpromised.many
  | _ => cases hpromised

theorem HeldOpen.not_conflict {s : State} {id u : String} {t t' : Thread} (h : HeldOpen c s id t)
    (h' : HeldOpen c s u t') (hne : u ≠ id) :
    ¬Conflict c.access t.request.transaction.ops t'.request.transaction.ops := by
  rintro ⟨k, ⟨⟨op, hop, hput⟩, op', hop', huse⟩ | ⟨⟨op, hop, huse⟩, op', hop', hput⟩⟩
  · exact h.covers.disjoint h'.covers hne hop hop' hput huse
  · exact h'.covers.disjoint h.covers hne.symm hop' hop hput huse

/-- Running transactions that are held open again, one after another, does what their commits
do. -/
theorem redo_run {s : State} {t : String → Thread} {ids : List String} (hnodup : ids.Nodup)
    (hopen : ∀ id ∈ ids, HeldOpen c s id (t id)) {st : Store String}
    (hviews : ∀ id ∈ ids, View c.access st (t id).request.transaction.ops (t id).metadata) :
    Runs.Run (Executes c.access (fun id => (t id).request.transaction.ops)
        fun id rs => rs = (t id).metadata.response.committed.getResponses)
      st ids (ids.foldl (fun st id => commitStore st (t id).metadata) st) := by
  induction ids generalizing st with
  | nil => exact .nil
  | cons id ids ih =>
    obtain ⟨hid, hnodup'⟩ := List.nodup_cons.mp hnodup
    have hview := hviews id List.mem_cons_self
    refine .cons ⟨_, hview.execute, rfl⟩
      (ih hnodup' (fun u hu => hopen u (List.mem_cons_of_mem id hu)) fun u hu => ?_)
    have hne : u ≠ id := fun he => hid (he ▸ hu)
    refine (hviews u (List.mem_cons_of_mem id hu)).congr fun op hop k hk => ?_
    refine (hview.commitStore_eq fun op' hop' hput => ?_).symm
    exact (hopen id List.mem_cons_self).covers.disjoint
      (hopen u (List.mem_cons_of_mem id hu)).covers hne hop' hop hput hk

theorem mapM_eq_map {α β : Type} {g : α → Option β} {k : α → β} {xs : List α}
    (h : ∀ x ∈ xs, g x = some (k x)) : xs.mapM g = some (xs.map k) := by
  induction xs with
  | nil => rfl
  | cons x xs ih =>
    rw [List.mapM_cons, h x List.mem_cons_self, ih fun y hy => h y (List.mem_cons_of_mem x hy)]
    rfl

/-- What a cohort has on disk is enough to redo, after a crash, all the transactions in doubt of
which it learns that they are committed, if closing their files has brought the bytes to the disk:
the requests that are read from the files, run again on the store in any order, give the responses
that are read from the files, and the store that the commits would have given. -/
theorem redo_in_doubt (h : StoredRun f c store disk₀ xs S) {ids : List String}
    (hnodup : ids.Nodup) (hids : ∀ id ∈ ids, InDoubt xs id)
    (hcloses : ∀ id ∈ ids, f.closes (responsePath f.dir id) ∧ f.closes (requestPath f.dir id)) :
    ∃ t : String → Thread, (∀ id ∈ ids, S.cohort.threads id = some (t id)) ∧
      ∀ order : List String, order.Perm ids →
        order.mapM (readResponse f S.disk) =
            some (order.map fun id => (t id).metadata.response.committed) ∧
          redo f c.access S.disk S.cohort.store order =
            some (ids.foldl (fun st id => commitStore st (t id).metadata) S.cohort.store,
              order.map fun id => (t id).metadata.response.committed.getResponses) := by
  have : Nonempty Thread := ⟨⟨⟨"", ⟨[]⟩, ⟨none⟩, none⟩, newMetadata, .finished⟩⟩
  choose! t ht using fun id hid => (hids id hid).thread h
  refine ⟨t, fun id hid => (ht id hid).1.thread, fun order hperm => ?_⟩
  have hrun := redo_run hnodup (fun id hid => (ht id hid).1)
    fun id hid => (ht id hid).1.applied
  have hreordered := hrun.reorder hperm hnodup fun x y hxy _ => by
    have hne : y ≠ x := fun he => hxy.asymm hnodup (he ▸ hxy)
    exact executes_commute ((ht x hxy.mem_left).1.not_conflict (ht y hxy.mem_right).1 hne)
  obtain ⟨responses, hserial, hgood⟩ := serialRun_of_run hreordered
  have hresponses : order.mapM (readResponse f S.disk) =
      some (order.map fun id => (t id).metadata.response.committed) :=
    mapM_eq_map fun id hid => by
      have hmem := hperm.mem_iff.mp hid
      exact (ht id hmem).2.1 (hcloses id hmem).1
  have hrequests : order.mapM (readRequest f S.disk) = some (order.map fun id => (t id).request) :=
    mapM_eq_map fun id hid => by
      have hmem := hperm.mem_iff.mp hid
      exact (ht id hmem).2.2 (hcloses id hmem).2
  have hmap : order.map (fun id => (t id).metadata.response.committed.getResponses) = responses := by
    rw [← List.forall₂_eq_eq_eq, List.forall₂_map_left_iff]
    exact hgood.imp fun _ _ hrs => hrs.symm
  refine ⟨hresponses, ?_⟩
  rw [redo, hrequests, Option.bind_some, List.map_map, hmap]
  exact congrArg Except.toOption hserial

end Run

def keyPut (id key : String) (cohortIndex : UInt32) : PrepareTransactionRequest where
  transactionId := id
  transaction := ⟨[⟨⟨"", ""⟩, some (.put ⟨key, some (.constantValue ⟨some 5⟩)⟩)⟩]⟩
  config := ⟨none⟩
  participantInfo := some (.cohortIndex cohortIndex)

def keyPutBytes (id key cohortIndex : UInt8) : List UInt8 :=
  [10, 1, id, 18, 15, 10, 13, 10, 0, 26, 9, 10, 1, key, 18, 4, 10, 2, 8, 5, 26, 0, 40, cohortIndex]

def keyPutCodec : Codec PrepareTransactionRequest where
  serialize r :=
    if r = keyPut "a" "k" 0 then some (keyPutBytes 97 107 0)
    else if r = keyPut "b" "l" 1 then some (keyPutBytes 98 108 1)
    else none
  parse bytes :=
    if bytes = keyPutBytes 97 107 0 then some (keyPut "a" "k" 0)
    else if bytes = keyPutBytes 98 108 1 then some (keyPut "b" "l" 1)
    else none
  parse_serialize r bytes h := by
    split at h
    · rename_i hr
      rw [hr, ← Option.some.inj h, if_pos rfl]
    · split at h
      · rename_i hr
        rw [hr, ← Option.some.inj h]
        decide
      · cases h

def emptyResponseCodec : Codec CommittedResponse where
  serialize r := if r = {} then some [] else none
  parse bytes := if bytes = [] then some {} else none
  parse_serialize r bytes h := by
    split at h
    · rename_i hr
      rw [hr, ← Option.some.inj h, if_pos rfl]
    · cases h

def localFiles : Files := ⟨⟨emptyResponseCodec, keyPutCodec⟩, "dir", fun _ => True⟩

def writersAdapter : Adapter := ⟨true, ⟨.notFound, "Key not found"⟩⟩

def promiseActions (id key : String) (cohortIndex : UInt32) : List (String × Action) :=
  [.start (keyPut id key cohortIndex), .lock true, .begin none, .operate none, .endOperations,
    .persistResponse true, .persistRequest true,
    .vote (keyPut id key cohortIndex).cohortIndex .commit].map (id, ·)

/-- Two transactions in doubt, of which the second is redone first. -/
theorem redo_in_doubt_two_keys : ∃ (S : Stored) (t : String → Thread),
    (∀ id ∈ ["a", "b"], S.cohort.threads id = some (t id)) ∧
    ["b", "a"].mapM (readResponse localFiles S.disk) =
        some (["b", "a"].map fun id => (t id).metadata.response.committed) ∧
      redo localFiles writersAdapter.access S.disk S.cohort.store ["b", "a"] =
        some (["a", "b"].foldl (fun st id => commitStore st (t id).metadata) S.cohort.store,
          ["b", "a"].map fun id => (t id).metadata.response.committed.getResponses) := by
  have h : ∃ S, StoredRun localFiles writersAdapter (fun _ => none) (fun _ => none)
      (promiseActions "a" "k" 0 ++ promiseActions "b" "l" 1) S := by
    refine ⟨_, .cons (.other (.start (keyPut "a" "k" 0) keyOrders rfl rfl) rfl)
      (.cons (.other (.lock true rfl rfl) rfl) (.cons (.other (.begin rfl) rfl)
      (.cons (.other (.operate rfl (by simp)) rfl) (.cons (.other (.endOperations rfl) rfl)
      (.cons (.persistResponse (.persistResponse true rfl) rfl
        ⟨_, rfl, fun _ => ⟨[], rfl, fun _ => rfl⟩⟩)
      (.cons (.persistRequest (.persistRequest true rfl) rfl
        ⟨_, rfl, fun _ => ⟨keyPutBytes 97 107 0, rfl, fun _ => rfl⟩⟩)
      (.cons (.other (.vote rfl) rfl)
      (.cons (.other (.start (keyPut "b" "l" 1) keyOrders rfl rfl) rfl)
      (.cons (.other (.lock true rfl rfl) rfl) (.cons (.other (.begin rfl) rfl)
      (.cons (.other (.operate rfl (by simp)) rfl) (.cons (.other (.endOperations rfl) rfl)
      (.cons (.persistResponse (.persistResponse true rfl) rfl
        ⟨_, rfl, fun _ => ⟨[], rfl, fun _ => rfl⟩⟩)
      (.cons (.persistRequest (.persistRequest true rfl) rfl
        ⟨_, rfl, fun _ => ⟨keyPutBytes 98 108 1, rfl, fun _ => rfl⟩⟩)
      (.single (.other (.vote rfl) rfl))))))))))))))))⟩
  obtain ⟨S, h⟩ := h
  have hids : ∀ id ∈ ["a", "b"],
      InDoubt (promiseActions "a" "k" 0 ++ promiseActions "b" "l" 1) id := by
    intro id hid
    obtain rfl | hid := List.mem_cons.mp hid
    · exact ⟨⟨0, by simp [promiseActions, keyPut, PrepareTransactionRequest.cohortIndex]⟩,
        by simp [promiseActions], by simp [promiseActions]⟩
    · obtain rfl := List.mem_singleton.mp hid
      exact ⟨⟨1, by simp [promiseActions, keyPut, PrepareTransactionRequest.cohortIndex]⟩,
        by simp [promiseActions], by simp [promiseActions]⟩
  obtain ⟨t, hthreads, hredo⟩ :=
    redo_in_doubt h (by decide) hids fun _ _ => ⟨trivial, trivial⟩
  exact ⟨S, t, hthreads, hredo _ (List.Perm.swap _ _ _)⟩

end TwoPhaseCommit.Cohort
