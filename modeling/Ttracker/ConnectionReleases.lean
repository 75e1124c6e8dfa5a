import Ttracker.Serving

/-!
What is taken for one connection and what is given back. The log says for which
connection each descriptor, each `thread_data` and each buffer was taken and
returned, and how the request was read; it does not influence the threads. A
connection starts with one chance to take each part. Reading the request uses
up the chances of the parts that its answer does not need.
-/
namespace Ttracker.ConnectionReleases
open ServerThreads Holdings PoolJoins Shutdown Serving TransitionRuns

/-- A `descriptor` is taken by `accept` and given back by `close`. -/
inductive Part where
  | descriptor
  | threadData
  | request
  | output
  | errorBody
  | response
  deriving DecidableEq

inductive Event where
  | took (c : Nat) (part : Part) (obj : Nat)
  | gave (c : Nat) (part : Part) (obj : Nat)
  | read (c : Nat) (result : ReadResult)

def mainEvents : MainPhase → MainPhase → List Event
  | .accepting, .accepted c => [.took c .descriptor c]
  | .accepted c, .filled td => [.took c .threadData td.obj]
  | _, _ => []

/-- `served` is the connection whose request buffer a finishing thread still has. -/
def reqEvents (served : Nat) (result : ReadResult) : ReqPhase → ReqPhase → List Event
  | .gotTd (.client td), .reading _ b => [.took td.client .request b]
  | .reading td _, _ => [.read td.client result]
  | .failing td _, .failingWith _ _ e => [.took td.client .errorBody e]
  | .failingWith td _ _, .responding _ _ _ response => [.took td.client .response response]
  | .responding td _ _ response, _ => [.gave td.client .response response]
  | .responded td _ e, _ => [.gave td.client .errorBody e]
  | .closing td _ _, _ => [.gave td.client .descriptor td.client]
  | .closed td b, _ => [.gave td.client .request b]
  | .returning td, _ => [.gave td.client .threadData td.obj]
  | .parsed td _, .enqueueing _ _ out => [.took td.client .output out]
  | .finishing b, _ => [.gave served .request b]
  | _, _ => []

def jobEvents : JobPhase → JobPhase → List Event
  | .working td _, .responding _ _ response => [.took td.client .response response]
  | .responding td _ response, _ => [.gave td.client .response response]
  | .responded td _, _ => [.gave td.client .descriptor td.client]
  | .closed td out, _ => [.gave td.client .output out]
  | .returning td, _ => [.gave td.client .threadData td.obj]
  | _, _ => []

/-- The job takes the client along; what the thread still has is for that client. -/
def servedAfter (served : Nat) : ReqPhase → Nat
  | .enqueueing td _ _ => td.client
  | _ => served

structure Traced where
  server : Server
  served : Fin workers → Nat
  log : List Event

def trace (t : Traced) (action : Action) : Option Traced :=
  (serve t.server action).map fun next =>
    match action with
    | .main _ => { t with
        server := next
        log := t.log ++ mainEvents t.server.main next.main }
    | .req i result => {
        server := next
        served := Function.update t.served i (servedAfter (t.served i) (t.server.req i))
        log := t.log ++ reqEvents (t.served i) result (t.server.req i) (next.req i) }
    | .job i => { t with
        server := next
        log := t.log ++ jobEvents (t.server.job i) (next.job i) }

def begin : Traced := ⟨start, fun _ => 0, []⟩

/-! ## Reading the log -/

def tookObject (c : Nat) (part : Part) : Event → Option Nat
  | .took c' part' obj => if c' = c ∧ part' = part then some obj else none
  | _ => none

def gaveObject (c : Nat) (part : Part) : Event → Option Nat
  | .gave c' part' obj => if c' = c ∧ part' = part then some obj else none
  | _ => none

def readResult (c : Nat) : Event → Option ReadResult
  | .read c' result => if c' = c then some result else none
  | _ => none

/-- The objects taken, and those given back, as this part of a connection. -/
def taken (c : Nat) (part : Part) (log : List Event) : List Nat := log.filterMap (tookObject c part)
def returned (c : Nat) (part : Part) (log : List Event) : List Nat := log.filterMap (gaveObject c part)
def reads (c : Nat) (log : List Event) : List ReadResult := log.filterMap (readResult c)

/-- What has to be given back on each path that finishes with a connection: a
read that fails or is no request, a query error, an answered request. -/
def needs : ReadResult → List Part
  | .failed => [.descriptor, .threadData, .request]
  | .badQuery => [.descriptor, .threadData, .request, .errorBody, .response]
  | .request => [.descriptor, .threadData, .request, .output, .response]

def unneeded : ReadResult → List Part
  | .failed => [.output, .errorBody, .response]
  | .badQuery => [.output]
  | .request => [.errorBody]

def joinOf : Event → Option JoinCall
  | .gave c .threadData obj => some (.td (.client ⟨obj, c⟩))
  | .gave _ .descriptor _ => none
  | .gave _ _ b => some (.buffer b)
  | _ => none

def closeOf : Event → Option Nat
  | .gave _ .descriptor c => some c
  | _ => none

/-- The log has every call that joins or closes, and no other. -/
structure Recorded (state : Shared × List Event) : Prop where
  joins : state.1.joins.map Prod.fst = (state.2.filterMap joinOf).reverse
  closings : state.1.closings.map Prod.fst = (state.2.filterMap closeOf).reverse

/-! ## What a connection can still take, and what it has -/

/-- A chance without a part is the chance to read the request. -/
inductive Stake where
  | part (c : Nat) (part : Part) (obj : Nat)
  | chance (c : Nat) (part : Option Part)
  deriving DecidableEq

def Stake.client : Stake → Nat
  | .part c _ _ => c
  | .chance c _ => c

def chances (c : Nat) (parts : List Part) : List Stake := parts.map fun part => .chance c (some part)

def hasClient (td : Client) : List Stake :=
  [.part td.client .descriptor td.client, .part td.client .threadData td.obj]

def unread (c : Nat) : List Stake :=
  .chance c none :: chances c [.request, .output, .errorBody, .response]

def tdStakes : ThreadData → List Stake
  | .client td => hasClient td ++ unread td.client
  | .stop _ => []

def jobStakes : Job → List Stake
  | .request td out => .part td.client .output out :: hasClient td ++ chances td.client [.response]
  | .stop => []

def mainStakes : MainPhase → List Stake
  | .accepted c => .part c .descriptor c :: .chance c (some .threadData) :: unread c
  | .filled td => hasClient td ++ unread td.client
  | _ => []

def reqStakes (served : Nat) : ReqPhase → List Stake
  | .gotTd td => tdStakes td
  | .reading td b => .part td.client .request b :: hasClient td ++
      .chance td.client none :: chances td.client [.output, .errorBody, .response]
  | .failing td b => .part td.client .request b :: hasClient td ++
      chances td.client [.errorBody, .response]
  | .failingWith td b e => .part td.client .errorBody e :: .part td.client .request b ::
      hasClient td ++ chances td.client [.response]
  | .responding td b e response => .part td.client .response response ::
      .part td.client .errorBody e :: .part td.client .request b :: hasClient td
  | .responded td b e => .part td.client .errorBody e :: .part td.client .request b :: hasClient td
  | .closing td b _ => .part td.client .request b :: hasClient td
  | .closed td b => [.part td.client .request b, .part td.client .threadData td.obj]
  | .returning td => [.part td.client .threadData td.obj]
  | .parsed td b => .part td.client .request b :: hasClient td ++
      chances td.client [.output, .response]
  | .enqueueing td b out => .part td.client .output out :: .part td.client .request b ::
      hasClient td ++ chances td.client [.response]
  | .finishing b => [.part served .request b]
  | .waiting | .exited => []

def jobPhaseStakes : JobPhase → List Stake
  | .working td out => .part td.client .output out :: hasClient td ++ chances td.client [.response]
  | .responding td out response => .part td.client .response response ::
      .part td.client .output out :: hasClient td
  | .responded td out => .part td.client .output out :: hasClient td
  | .closed td out => [.part td.client .output out, .part td.client .threadData td.obj]
  | .returning td => [.part td.client .threadData td.obj]
  | .waiting | .exited => []

/-- No thread and no list has anything of the connection any more. -/
structure Finished (t : Traced) (c : Nat) : Prop where
  main : ∀ stake ∈ mainStakes t.server.main, stake.client ≠ c
  req : ∀ i, ∀ stake ∈ reqStakes (t.served i) (t.server.req i), stake.client ≠ c
  job : ∀ i, ∀ stake ∈ jobPhaseStakes (t.server.job i), stake.client ≠ c
  tdList : ∀ td ∈ t.server.shared.tdList, ∀ stake ∈ tdStakes td, stake.client ≠ c
  queue : ∀ job ∈ t.server.shared.queue, ∀ stake ∈ jobStakes job, stake.client ≠ c

structure ReleasedOnce (t : Traced) : Prop where
  recorded : Recorded (t.server.shared, t.log)
  takenOnce : ∀ c part, (taken c part t.log).length ≤ 1
  returnedOnce : ∀ c part, (returned c part t.log).length ≤ 1
  own : ∀ c part, ∀ obj ∈ returned c part t.log, obj ∈ taken c part t.log
  finished : ∀ c, c < t.server.shared.accepted → Finished t c →
    ∃ result, reads c t.log = [result] ∧ ∀ part,
      returned c part t.log = taken c part t.log ∧
      (returned c part t.log).length = if part ∈ needs result then 1 else 0

/-! ## The balance of every step -/

/-- A chance is settled when the part is taken or turns out not to be needed. -/
def past (log : List Event) : Stake → Nat
  | .part c part obj => (returned c part log).count obj
  | .chance c none => (reads c log).length
  | .chance c (some part) =>
      (taken c part log).length + (reads c log).countP fun result => part ∈ unneeded result

def stakes : Ledger (Shared × List Event) Stake where
  kept state r := heldIn tdStakes state.1.tdList r + heldIn jobStakes state.1.queue r + past state.2 r
  issued state r := match r with
    | .part c part obj => (taken c part state.2).count obj
    | .chance c _ => (decide (c < state.1.accepted)).toNat

structure Accounts (lost gained : List Stake) (state state' : Shared × List Event) : Prop where
  trades : Trades stakes lost gained state state'
  records : Recorded state → Recorded state'

/-- What a thread has besides takes no part in what it exchanges. -/
theorem Accounts.frame {lost gained before after : List Stake} {state state' : Shared × List Event}
    (accounts : Accounts lost gained state state')
    (exchange : ∀ r, after.count r + lost.count r = before.count r + gained.count r) :
    Accounts before after state state' := by
  refine ⟨fun r => ?_, accounts.records⟩
  have traded := accounts.trades r
  have swapped := exchange r
  omega

theorem Accounts.trans {lost kept gained : List Stake} {first second third : Shared × List Event}
    (front : Accounts lost kept first second) (back : Accounts kept gained second third) :
    Accounts lost gained first third := by
  refine ⟨fun r => ?_, fun recorded => back.records (front.records recorded)⟩
  have one := front.trades r
  have two := back.trades r
  omega

/-- The lists and the connections stay, and these calls are made. -/
structure Calls (joins : List JoinCall) (closings : List Nat) (s s' : Shared) : Prop
    extends SameLists s s' where
  accepted : s'.accepted = s.accepted
  joins : s'.joins.map Prod.fst = joins ++ s.joins.map Prod.fst
  closings : s'.closings.map Prod.fst = closings ++ s.closings.map Prod.fst

section Events
variable {s s' : Shared} {log : List Event}

theorem no_calls (s : Shared) : Calls [] [] s s := ⟨⟨rfl, rfl⟩, rfl, rfl, rfl⟩

theorem filterMap_snoc {α β : Type} (f : α → Option β) (items : List α) (item : α) :
    (items ++ [item]).filterMap f = items.filterMap f ++ (f item).toList := by
  cases read : f item <;> simp [read]

/-- What one more event settles, and what it issues. -/
def settledBy (event : Event) : Stake → Nat
  | .part c part obj => (gaveObject c part event).toList.count obj
  | .chance c none => (readResult c event).toList.length
  | .chance c (some part) => (tookObject c part event).toList.length +
      (readResult c event).toList.countP fun result => part ∈ unneeded result

def issuedBy (event : Event) : Stake → Nat
  | .part c part obj => (tookObject c part event).toList.count obj
  | .chance _ _ => 0

theorem event_accounts (event : Event) (lost gained : List Stake)
    (calls : Calls (joinOf event).toList (closeOf event).toList s s')
    (effect : ∀ r, gained.count r + settledBy event r = lost.count r + issuedBy event r) :
    Accounts lost gained (s, log) (s', log ++ [event]) := by
  refine ⟨fun r => ?_, fun recorded => ⟨?_, ?_⟩⟩
  · have here := effect r
    cases r with
    | part c part obj =>
        simp only [stakes, past, taken, returned, filterMap_snoc, List.count_append, calls.tdList,
          calls.queue, settledBy, issuedBy] at here ⊢
        omega
    | chance c part =>
        cases part with
        | none =>
            simp only [stakes, past, reads, filterMap_snoc, List.length_append, calls.tdList,
              calls.queue, calls.accepted, settledBy, issuedBy] at here ⊢
            omega
        | some part =>
            simp only [stakes, past, reads, taken, filterMap_snoc, List.length_append,
              List.countP_append, calls.tdList, calls.queue, calls.accepted, settledBy,
              issuedBy] at here ⊢
            omega
  · have same := recorded.joins
    cases joined : joinOf event <;> simp_all [calls.joins]
  · have same := recorded.closings
    cases closed : closeOf event <;> simp_all [calls.closings]

/-- An object of a part is counted as that stake. -/
theorem part_count (c c' : Nat) (part part' : Part) (obj obj' : Nat) :
    (if c = c' ∧ part = part' then some obj else none).toList.count obj' =
      [Stake.part c part obj].count (.part c' part' obj') := by
  by_cases same : c = c' ∧ part = part'
  · obtain ⟨rfl, rfl⟩ := same
    simp [List.count_singleton]
  · have apart : ¬ (c = c' ∧ part = part' ∧ obj = obj') := fun all => same ⟨all.1, all.2.1⟩
    simp [if_neg same, apart]

theorem took_accounts (calls : Calls [] [] s s') (c : Nat) (part : Part) (obj : Nat) :
    Accounts [.chance c (some part)] [.part c part obj] (s, log)
      (s', log ++ [.took c part obj]) := by
  apply event_accounts (.took c part obj) _ _ calls
  intro r
  cases r with
  | part c' part' obj' =>
      simp only [settledBy, issuedBy, tookObject, gaveObject, part_count]
      simp
  | chance c' part' =>
      cases part' with
      | none => simp [settledBy, issuedBy, readResult]
      | some part' =>
          by_cases same : c = c' ∧ part = part'
          · obtain ⟨rfl, rfl⟩ := same
            simp [settledBy, issuedBy, tookObject, readResult]
          · simp only [settledBy, issuedBy, tookObject, readResult, if_neg same]
            simp [same]

theorem gave_accounts (c : Nat) (part : Part) (obj : Nat)
    (calls : Calls (joinOf (.gave c part obj)).toList (closeOf (.gave c part obj)).toList s s') :
    Accounts [.part c part obj] [] (s, log) (s', log ++ [.gave c part obj]) := by
  apply event_accounts (.gave c part obj) _ _ calls
  intro r
  cases r with
  | part c' part' obj' =>
      simp only [settledBy, issuedBy, tookObject, gaveObject, part_count]
      simp
  | chance c' part' => cases part' <;> simp [settledBy, issuedBy, tookObject, readResult]

theorem read_accounts (calls : Calls [] [] s s') (c : Nat) (result : ReadResult) :
    Accounts (.chance c none :: chances c (unneeded result)) [] (s, log)
      (s', log ++ [.read c result]) := by
  apply event_accounts (.read c result) _ _ calls
  intro r
  cases r with
  | part c' part' obj' =>
      cases result <;> simp [settledBy, issuedBy, tookObject, gaveObject, chances, unneeded]
  | chance c' part' =>
      by_cases same : c = c' <;> cases part' with
      | none => cases result <;> simp [settledBy, issuedBy, readResult, chances, unneeded, same]
      | some part' =>
          cases result <;> cases part' <;>
            simp [settledBy, issuedBy, readResult, tookObject, chances, unneeded, same]

/-! What moves between a thread and the two lists, and a new connection. -/

theorem enqueue_accounts (td : ThreadData) :
    Accounts (tdStakes td) [] (s, log) (tdEnqueue td s, log ++ []) := by
  refine ⟨fun r => ?_, fun recorded => ⟨?_, ?_⟩⟩
  · rw [List.append_nil]
    cases r <;> simp only [stakes, tdEnqueue, heldIn_cons, List.count_nil] <;> omega
  · simpa [tdEnqueue] using recorded.joins
  · simpa [tdEnqueue] using recorded.closings

theorem dequeue_accounts {td : ThreadData} (dequeued : tdWaitAndDequeue s = some (td, s')) :
    Accounts [] (tdStakes td) (s, log) (s', log ++ []) := by
  unfold tdWaitAndDequeue at dequeued
  split at dequeued
  · contradiction
  · next rest list =>
      cases dequeued
      refine ⟨fun r => ?_, fun recorded => ⟨?_, ?_⟩⟩
      · rw [List.append_nil]
        cases r <;> simp only [stakes, list, heldIn_cons, List.count_nil] <;> omega
      · simpa using recorded.joins
      · simpa using recorded.closings

theorem enqueue_job_accounts (job : Job) :
    Accounts (jobStakes job) [] (s, log) (workqEnqueueJob job s, log ++ []) := by
  refine ⟨fun r => ?_, fun recorded => ⟨?_, ?_⟩⟩
  · rw [List.append_nil]
    cases r <;>
      simp only [stakes, workqEnqueueJob, heldIn_append, heldIn_cons, heldIn_nil,
        List.count_nil] <;> omega
  · simpa [workqEnqueueJob] using recorded.joins
  · simpa [workqEnqueueJob] using recorded.closings

theorem dequeue_job_accounts {job : Job} (dequeued : workqWaitAndDeqJob s = some (job, s')) :
    Accounts [] (jobStakes job) (s, log) (s', log ++ []) := by
  unfold workqWaitAndDeqJob at dequeued
  split at dequeued
  · contradiction
  · next rest list =>
      cases dequeued
      refine ⟨fun r => ?_, fun recorded => ⟨?_, ?_⟩⟩
      · rw [List.append_nil]
        cases r <;> simp only [stakes, list, heldIn_cons, List.count_nil] <;> omega
      · simpa using recorded.joins
      · simpa using recorded.closings

/-- A new connection has every chance. -/
theorem issue_accounts :
    Accounts [] (.chance s.accepted (some .descriptor) :: .chance s.accepted (some .threadData) ::
      unread s.accepted) (s, log) ({ s with accepted := s.accepted + 1 }, log) := by
  refine ⟨fun r => ?_, fun recorded => ⟨recorded.joins, recorded.closings⟩⟩
  cases r with
  | part c part obj => simp [stakes, unread, chances]
  | chance c part =>
      by_cases same : s.accepted = c
      · subst same
        cases part with
        | none =>
            simp [stakes, unread, chances]
            omega
        | some part => cases part <;> simp [stakes, unread, chances] <;> omega
      · have older : c < s.accepted + 1 ↔ c < s.accepted := by omega
        simp only [stakes, older]
        simp [unread, chances, same]

theorem accept_accounts :
    Accounts [] (mainStakes (.accepted s.accepted)) (s, log)
      ({ s with accepted := s.accepted + 1 }, log ++ [.took s.accepted .descriptor s.accepted]) := by
  apply issue_accounts.trans
  apply (took_accounts (no_calls _) s.accepted .descriptor s.accepted).frame
  intro r
  simp only [mainStakes, List.count_cons, List.count_nil]
  omega

end Events

/-! ## Steps of one thread -/

section Threads
variable {s s' : Shared}

theorem get_calls {Phase : Type} {phase next : Phase} {into : Nat → Phase} (pool : PoolName)
    (sound : Sound s) (moved : (pool.get s).map (deref phase into) = some (next, s')) :
    ∃ obj, next = into obj ∧ Calls [] [] s s' := by
  obtain ⟨obj, same, -⟩ := get_exchanges pool sound moved
  have kept := (get_keeps pool moved (fun _ => ()) fun _ => rfl).1
  refine ⟨obj, same, ⟨kept.tdList, kept.queue⟩, kept.accepted, ?_, ?_⟩
  · rw [kept.joins, List.nil_append]
  · rw [kept.closings, List.nil_append]

theorem join_td_calls (td : Client) (s : Shared) :
    Calls [.td (.client td)] [] s (tdPoolJoinTd (.client td) s) := by
  unfold tdPoolJoinTd
  dsimp only
  split <;> exact ⟨⟨rfl, rfl⟩, rfl, rfl, rfl⟩

theorem join_buffer_calls (b : Nat) (s : Shared) :
    Calls [.buffer b] [] s (bufferPoolJoinBuffer b s) := by
  unfold bufferPoolJoinBuffer
  dsimp only
  split <;> exact ⟨⟨rfl, rfl⟩, rfl, rfl, rfl⟩

theorem close_calls (td : Client) (ending : Ending) (s : Shared) :
    Calls [] [td.client] s (closeClient td ending s) := ⟨⟨rfl, rfl⟩, rfl, rfl, rfl⟩

theorem main_accounts {entries : Worker → Address} {exited : Worker → Bool} {phase next : MainPhase}
    (log : List Event) (sound : Sound s) (early : early phase = true)
    (moved : mainStep false entries exited s phase = some (next, s')) :
    Accounts (mainStakes phase) (mainStakes next) (s, log) (s', log ++ mainEvents phase next) := by
  cases phase with
  | accepting =>
      cases moved
      exact accept_accounts
  | accepted c =>
      obtain ⟨obj, rfl, calls⟩ := get_calls .td sound moved
      apply (took_accounts calls c .threadData obj).frame
      intro r
      simp only [mainStakes, hasClient, List.cons_append, List.nil_append, List.count_cons,
        List.count_nil]
      omega
  | filled td =>
      cases moved
      exact enqueue_accounts (.client td)
  | stopping | stoppingJob | cleaning | joined | crashed => contradiction

theorem req_accounts {result : ReadResult} {phase next : ReqPhase} (log : List Event)
    (sound : Sound s) (served : Nat)
    (moved : reqStep tdPoolJoinTd result s phase = some (next, s'))
    (unmarked : ∀ k, phase ≠ .gotTd (.stop k)) :
    Accounts (reqStakes served phase) (reqStakes (servedAfter served phase) next) (s, log)
      (s', log ++ reqEvents served result phase next) := by
  cases phase with
  | waiting =>
      obtain ⟨⟨td, s₁⟩, dequeued, same⟩ := Option.map_eq_some_iff.mp moved
      cases same
      exact dequeue_accounts dequeued
  | gotTd td =>
      cases td with
      | stop k => exact absurd rfl (unmarked k)
      | client td =>
          obtain ⟨b, rfl, calls⟩ := get_calls .buffer sound moved
          apply (took_accounts calls td.client .request b).frame
          intro r
          simp only [reqStakes, tdStakes, unread, chances, List.map_cons, List.count_append,
            List.count_cons, List.count_nil]
          omega
  | reading td b =>
      -- what this answer does not need is settled here
      cases result <;> cases moved <;> refine (read_accounts (no_calls s) td.client _).frame ?_ <;>
        intro r <;>
        simp only [reqStakes, unneeded, chances, List.map_cons, List.map_nil, List.count_append,
          List.count_cons, List.count_nil] <;>
        omega
  | failing td b =>
      obtain ⟨e, rfl, calls⟩ := get_calls .buffer sound moved
      apply (took_accounts calls td.client .errorBody e).frame
      intro r
      simp only [reqStakes, chances, List.map_cons, List.map_nil, List.count_append,
        List.count_cons, List.count_nil]
      omega
  | failingWith td b e =>
      obtain ⟨response, rfl, calls⟩ := get_calls .buffer sound moved
      apply (took_accounts calls td.client .response response).frame
      intro r
      simp only [reqStakes, chances, List.map_cons, List.map_nil, List.count_append,
        List.count_cons, List.count_nil]
      omega
  | responding td b e response =>
      cases moved
      apply (gave_accounts td.client .response response (join_buffer_calls response s)).frame
      intro r
      simp only [reqStakes, List.count_cons, List.count_nil]
      omega
  | responded td b e =>
      cases moved
      apply (gave_accounts td.client .errorBody e (join_buffer_calls e s)).frame
      intro r
      simp only [reqStakes, List.count_cons, List.count_nil]
      omega
  | closing td b ending =>
      cases moved
      apply (gave_accounts td.client .descriptor td.client (close_calls td ending s)).frame
      intro r
      simp only [reqStakes, hasClient, List.count_cons, List.count_nil]
      omega
  | closed td b =>
      cases moved
      apply (gave_accounts td.client .request b (join_buffer_calls b s)).frame
      intro r
      simp only [reqStakes, List.count_cons, List.count_nil]
      omega
  | returning td =>
      cases moved
      exact gave_accounts td.client .threadData td.obj (join_td_calls td s)
  | parsed td b =>
      obtain ⟨out, rfl, calls⟩ := get_calls .buffer sound moved
      apply (took_accounts calls td.client .output out).frame
      intro r
      simp only [reqStakes, chances, List.map_cons, List.map_nil, List.count_append,
        List.count_cons, List.count_nil]
      omega
  | enqueueing td b out =>
      cases moved
      apply (enqueue_job_accounts (.request td out)).frame
      intro r
      simp only [reqStakes, jobStakes, servedAfter, List.count_append, List.count_cons,
        List.count_nil]
      omega
  | finishing b =>
      cases moved
      exact gave_accounts served .request b (join_buffer_calls b s)
  | exited => contradiction

theorem job_start_stakes (job : Job) : jobPhaseStakes (jobStart job) = jobStakes job := by
  cases job <;> rfl

theorem job_accounts {phase next : JobPhase} (log : List Event) (sound : Sound s)
    (moved : jobStep s phase = some (next, s')) :
    Accounts (jobPhaseStakes phase) (jobPhaseStakes next) (s, log)
      (s', log ++ jobEvents phase next) := by
  cases phase with
  | waiting =>
      obtain ⟨⟨job, s₁⟩, dequeued, same⟩ := Option.map_eq_some_iff.mp moved
      cases same
      exact job_start_stakes job ▸ dequeue_job_accounts dequeued
  | working td out =>
      obtain ⟨response, rfl, calls⟩ := get_calls .buffer sound moved
      apply (took_accounts calls td.client .response response).frame
      intro r
      simp only [jobPhaseStakes, chances, List.map_cons, List.map_nil, List.count_append,
        List.count_cons, List.count_nil]
      omega
  | responding td out response =>
      cases moved
      apply (gave_accounts td.client .response response (join_buffer_calls response s)).frame
      intro r
      simp only [jobPhaseStakes, List.count_cons, List.count_nil]
      omega
  | responded td out =>
      cases moved
      apply (gave_accounts td.client .descriptor td.client (close_calls td (.answered 200) s)).frame
      intro r
      simp only [jobPhaseStakes, hasClient, List.count_cons, List.count_nil]
      omega
  | closed td out =>
      cases moved
      apply (gave_accounts td.client .output out (join_buffer_calls out s)).frame
      intro r
      simp only [jobPhaseStakes, List.count_cons, List.count_nil]
      omega
  | returning td =>
      cases moved
      exact gave_accounts td.client .threadData td.obj (join_td_calls td s)
  | exited => contradiction

end Threads

/-! ## Runs of the server -/

def threadStakes : Nat × ReqPhase → List Stake
  | (served, phase) => reqStakes served phase

def inHands (t : Traced) (r : Stake) : Nat :=
  (mainStakes t.server.main).count r +
    heldBy threadStakes (fun i => (t.served i, t.server.req i)) r +
    heldBy jobPhaseStakes t.server.job r

structure Accounted (t : Traced) : Prop where
  serving : Open t.server
  recorded : Recorded (t.server.shared, t.log)
  balanced : Balanced stakes (inHands t) (t.server.shared, t.log)

theorem trace_keeps {t next : Traced} {action : Action} (accounted : Accounted t)
    (moved : trace t action = some next) : Accounted next := by
  obtain ⟨server, served, rfl⟩ := Option.map_eq_some_iff.mp moved
  have serving := serve_keeps accounted.serving served
  have sound := accounted.serving.sound
  obtain ⟨stepped, running⟩ := serve_step served
  cases action with
  | main shutdown =>
      obtain rfl : shutdown = false := by simpa using running
      obtain ⟨phase, shared, went, rfl⟩ := step_main stepped
      have accounts := main_accounts t.log sound accounted.serving.early went
      refine ⟨serving, accounts.records accounted.recorded,
        accounts.trades.balanced (fun r => ?_) accounted.balanced⟩
      simp only [inHands]
      omega
  | req i result =>
      obtain ⟨phase, shared, went, rfl⟩ := step_req stepped
      have accounts := req_accounts t.log sound (t.served i) went
        (no_marker accounted.serving i)
      simp only [Function.update_self]
      refine ⟨serving, accounts.records accounted.recorded,
        accounts.trades.balanced (fun r => ?_) accounted.balanced⟩
      have update := heldBy_update threadStakes (fun j => (t.served j, t.server.req j)) r i
        (servedAfter (t.served i) (t.server.req i), phase)
      have both : (fun j => (Function.update t.served i (servedAfter (t.served i) (t.server.req i)) j,
          Function.update t.server.req i phase j)) =
          Function.update (fun j => (t.served j, t.server.req j)) i
            (servedAfter (t.served i) (t.server.req i), phase) := by
        funext j
        by_cases same : j = i
        · subst same
          simp
        · simp [same]
      simp only [inHands, both]
      simp only [threadStakes] at update ⊢
      omega
  | job i =>
      obtain ⟨phase, shared, went, rfl⟩ := step_job stepped
      have accounts := job_accounts t.log sound went
      simp only [Function.update_self]
      refine ⟨serving, accounts.records accounted.recorded,
        accounts.trades.balanced (fun r => ?_) accounted.balanced⟩
      have update := heldBy_update jobPhaseStakes t.server.job r i phase
      simp only [inHands]
      omega

theorem begin_accounted : Accounted begin := by
  refine ⟨start_open, ⟨rfl, rfl⟩, fun r => ?_⟩
  have reqs := heldBy_empty threadStakes (fun i => (begin.served i, begin.server.req i)) r fun _ => rfl
  have jobs := heldBy_empty jobPhaseStakes begin.server.job r fun _ => rfl
  rw [inHands, reqs, jobs]
  cases r with
  | part c part obj => rfl
  | chance c part => cases part <;> rfl

theorem needs_iff (result : ReadResult) (part : Part) :
    part ∈ needs result ↔ part ∉ unneeded result := by
  cases result <;> cases part <;> decide

section States
variable {t : Traced}

theorem taken_once (accounted : Accounted t) (c : Nat) (part : Part) :
    (taken c part t.log).length ≤ 1 := by
  have balance := accounted.balanced (.chance c (some part))
  have bound := Bool.toNat_le (decide (c < t.server.shared.accepted))
  simp only [stakes, past] at balance
  omega

theorem returned_own (accounted : Accounted t) (c : Nat) (part : Part) :
    (returned c part t.log).Subperm (taken c part t.log) := by
  rw [List.subperm_ext_iff]
  intro obj _
  have balance := accounted.balanced (.part c part obj)
  simp only [stakes, past] at balance
  omega

theorem not_held (c : Nat) (finished : Finished t c) (r : Stake) (mine : r.client = c) :
    inHands t r = 0 ∧ heldIn tdStakes t.server.shared.tdList r = 0 ∧
      heldIn jobStakes t.server.shared.queue r = 0 := by
  have free : ∀ holding : List Stake, (∀ stake ∈ holding, stake.client ≠ c) →
      holding.count r = 0 :=
    fun holding others => List.count_eq_zero.mpr fun member => others r member mine
  have reqs : heldBy threadStakes (fun i => (t.served i, t.server.req i)) r = 0 :=
    Finset.sum_eq_zero fun i _ => free _ (finished.req i)
  have jobs : heldBy jobPhaseStakes t.server.job r = 0 :=
    Finset.sum_eq_zero fun i _ => free _ (finished.job i)
  refine ⟨?_, ?_, ?_⟩
  · rw [inHands, free _ finished.main, reqs, jobs]
  · apply free
    intro stake member
    obtain ⟨td, listed, inside⟩ := List.mem_flatMap.mp member
    exact finished.tdList td listed stake inside
  · apply free
    intro stake member
    obtain ⟨job, listed, inside⟩ := List.mem_flatMap.mp member
    exact finished.queue job listed stake inside

theorem finished_released (accounted : Accounted t) (c : Nat)
    (known : c < t.server.shared.accepted) (finished : Finished t c) :
    ∃ result, reads c t.log = [result] ∧ ∀ part,
      returned c part t.log = taken c part t.log ∧
      (returned c part t.log).length = if part ∈ needs result then 1 else 0 := by
  have chance := fun part => accounted.balanced (.chance c part)
  simp only [stakes, known, decide_true, Bool.toNat_true] at chance
  have read := chance none
  have idle := not_held c finished (.chance c none) rfl
  have once : (reads c t.log).length = 1 := by
    simp only [past] at read
    omega
  obtain ⟨result, only⟩ := List.length_eq_one_iff.mp once
  refine ⟨result, only, fun part => ?_⟩
  have spent := chance (some part)
  have free := not_held c finished (.chance c (some part)) rfl
  have same : ∀ obj, (returned c part t.log).count obj = (taken c part t.log).count obj := by
    intro obj
    have balance := accounted.balanced (.part c part obj)
    have nothing := not_held c finished (.part c part obj) rfl
    simp only [stakes, past] at balance
    omega
  have perm : (returned c part t.log).Perm (taken c part t.log) := List.perm_iff_count.mpr same
  constructor
  · have single := taken_once accounted c part
    cases objects : taken c part t.log with
    | nil => exact List.Perm.eq_nil (objects ▸ perm)
    | cons obj rest =>
        obtain rfl : rest = [] := by
          rw [objects, List.length_cons] at single
          exact List.length_eq_zero_iff.mp (by omega)
        exact List.perm_singleton.mp (objects ▸ perm)
  · rw [perm.length_eq]
    simp only [needs_iff]
    simp only [past, only, List.countP_singleton] at spent
    by_cases needless : part ∈ unneeded result
    · rw [if_neg (not_not.mpr needless)]
      simp only [needless, decide_true, if_true] at spent
      omega
    · rw [if_pos needless]
      simp only [needless, decide_false, Bool.false_eq_true, if_false] at spent
      omega

theorem accounted_released (accounted : Accounted t) : ReleasedOnce t where
  recorded := accounted.recorded
  takenOnce := taken_once accounted
  returnedOnce c part := (returned_own accounted c part).length_le.trans (taken_once accounted c part)
  own c part _ member := (returned_own accounted c part).subset member
  finished := finished_released accounted

end States

/-- Before a shutdown every connection gets back what was taken for it, once, and
all of it when nobody has the connection any more. -/
theorem connections_released_once (run : List Action) :
    Throughout trace ReleasedOnce begin run :=
  throughout_always trace ReleasedOnce Accounted (fun _ => accounted_released)
    (fun _ _ _ => trace_keeps) begin run begin_accounted

end Ttracker.ConnectionReleases
