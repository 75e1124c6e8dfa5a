import Ttracker.ServerLoad

/-!
The order in which connections are taken. The td list is filled and emptied at its
head, so of the connections that wait it is always the newest that a request
thread takes, and an old one may wait while any number of newer ones is closed.
-/
namespace Ttracker.ConnectionOrder
open ObjectPools ServerThreads PoolJoins Shutdown Serving BufferBound ServerLoad TransitionRuns
  DrainingRuns

def clientOf : ThreadData → Option Nat
  | .client td => some td.client
  | .stop _ => none

def waiting (s : Shared) : List Nat := s.tdList.filterMap clientOf

def mainClient : MainPhase → Option Nat
  | .accepted c => some c
  | .filled td => some td.client
  | _ => none

/-- Whatever connection a request thread takes, those it leaves behind are older. -/
def TakesNewest (s : Server) : Prop :=
  ∀ i result next td, step tdPoolJoinTd s (.req i result) = some next → s.req i = .waiting →
    next.req i = .gotTd (.client td) → ∀ c ∈ waiting next.shared, c < td.client

/-- Connections are numbered as they are accepted, and pushed in that order. -/
structure Ordered (s : Server) : Prop where
  descending : (waiting s.shared).Pairwise (· > ·)
  accepted : ∀ c ∈ waiting s.shared, c < s.shared.accepted
  main : ∀ c, mainClient s.main = some c → c < s.shared.accepted ∧ ∀ w ∈ waiting s.shared, w < c

section Steps
variable {s next : Server}

theorem waiting_same {s s' : Shared} (lists : SameLists s s') : waiting s' = waiting s := by
  rw [waiting, waiting, lists.tdList]

theorem main_ordered {shutdown : Bool} (ordered : Ordered s)
    (taken : step tdPoolJoinTd s (.main shutdown) = some next) : Ordered next := by
  obtain ⟨phase, shared, moved, rfl⟩ := step_main taken
  have mains := ordered.main
  cases main : s.main with
  | accepting =>
      rw [main] at moved
      rw [mainStep] at moved
      split at moved <;> cases moved
      · exact ⟨ordered.descending, ordered.accepted, fun _ none => by cases none⟩
      · refine ⟨ordered.descending, fun c member => Nat.lt_succ_of_lt (ordered.accepted c member), ?_⟩
        rintro c ⟨⟩
        exact ⟨Nat.lt_succ_self _, ordered.accepted⟩
  | accepted c =>
      rw [main] at moved mains
      obtain ⟨kept, names⟩ := get_keeps .td moved mainClient fun _ => rfl
      have waits := waiting_same (same_lists kept)
      refine ⟨by simpa only [waits] using ordered.descending, ?_, ?_⟩
      · intro w member
        rw [kept.accepted]
        exact ordered.accepted w (waits ▸ member)
      · intro other hers
        rw [kept.accepted, waits]
        exact mains other (names ▸ hers)
  | filled td =>
      rw [main] at moved mains
      cases moved
      obtain ⟨accepted, newest⟩ := mains td.client rfl
      refine ⟨List.pairwise_cons.mpr ⟨newest, ordered.descending⟩, ?_, fun _ none => by cases none⟩
      intro w member
      rcases List.mem_cons.mp member with rfl | old
      · exact accepted
      · exact ordered.accepted w old
  | stopping k =>
      rw [main, mainStep] at moved
      split at moved <;> cases moved <;>
        exact ⟨ordered.descending, ordered.accepted, fun _ none => by cases none⟩
  | stoppingJob k =>
      rw [main] at moved
      cases moved
      exact ⟨ordered.descending, ordered.accepted, fun _ none => by cases none⟩
  | cleaning p1 freed =>
      rw [main] at moved
      obtain ⟨rfl, round⟩ := cleaning_round moved
      refine ⟨ordered.descending, ordered.accepted, fun _ hers => ?_⟩
      cases round <;> cases hers
  | joined | crashed =>
      rw [main] at moved
      contradiction

theorem get_accepted {Phase : Type} {phase next : Phase} {into : Nat → Phase} {s s' : Shared}
    (pool : PoolName) (taken : (pool.get s).map (deref phase into) = some (next, s')) :
    s'.accepted = s.accepted :=
  (get_keeps pool taken (fun _ => ()) fun _ => rfl).1.accepted

theorem join_buffer_accepted (b : Nat) (s : Shared) :
    (bufferPoolJoinBuffer b s).accepted = s.accepted := by
  unfold bufferPoolJoinBuffer
  dsimp only
  split <;> rfl

theorem join_td_accepted (td : ThreadData) (s : Shared) :
    (tdPoolJoinTd td s).accepted = s.accepted := by
  unfold tdPoolJoinTd
  cases td with
  | stop k => rfl
  | client td =>
      dsimp only
      split <;> rfl

theorem req_accepted {result : ReadResult} {phase next : ReqPhase} {s s' : Shared}
    (taken : reqStep tdPoolJoinTd result s phase = some (next, s')) : s'.accepted = s.accepted := by
  cases phase with
  | waiting =>
      obtain ⟨⟨td, s₁⟩, dequeued, same⟩ := Option.map_eq_some_iff.mp taken
      cases same
      unfold tdWaitAndDequeue at dequeued
      split at dequeued
      · contradiction
      · cases dequeued
        rfl
  | gotTd td =>
      cases td with
      | stop k =>
          cases taken
          rfl
      | client td => exact get_accepted .buffer taken
  | reading td b => cases result <;> cases taken <;> rfl
  | failing td b => exact get_accepted .buffer taken
  | failingWith td b e => exact get_accepted .buffer taken
  | responding td b e response =>
      cases taken
      exact join_buffer_accepted response s
  | responded td b e =>
      cases taken
      exact join_buffer_accepted e s
  | closing td b ending =>
      cases taken
      rfl
  | closed td b =>
      cases taken
      exact join_buffer_accepted b s
  | returning td =>
      cases taken
      exact join_td_accepted (.client td) s
  | parsed td b => exact get_accepted .buffer taken
  | enqueueing td b out =>
      cases taken
      rfl
  | finishing b =>
      cases taken
      exact join_buffer_accepted b s
  | exited => contradiction

theorem job_accepted {phase next : JobPhase} {s s' : Shared}
    (taken : jobStep s phase = some (next, s')) : s'.accepted = s.accepted := by
  cases phase with
  | waiting =>
      obtain ⟨⟨job, s₁⟩, dequeued, same⟩ := Option.map_eq_some_iff.mp taken
      cases same
      unfold workqWaitAndDeqJob at dequeued
      split at dequeued
      · contradiction
      · cases dequeued
        rfl
  | working td out => exact get_accepted .buffer taken
  | responding td out response =>
      cases taken
      exact join_buffer_accepted response s
  | responded td out =>
      cases taken
      rfl
  | closed td out =>
      cases taken
      exact join_buffer_accepted out s
  | returning td =>
      cases taken
      exact join_td_accepted (.client td) s
  | exited => contradiction

/-- A worker takes from the front of the list or leaves it as it is. -/
theorem shrunk_ordered {req : Fin workers → ReqPhase} {job : Fin workers → JobPhase}
    {shared : Shared} (ordered : Ordered s) (accepted : shared.accepted = s.shared.accepted)
    (fewer : (waiting shared).Sublist (waiting s.shared)) :
    Ordered { s with req := req, job := job, shared := shared } where
  descending := ordered.descending.sublist fewer
  accepted c member := accepted ▸ ordered.accepted c (fewer.subset member)
  main c hers := by
    have mains := ordered.main c hers
    exact ⟨accepted ▸ mains.1, fun w member => mains.2 w (fewer.subset member)⟩

theorem step_ordered {action : Action} (ordered : Ordered s)
    (taken : step tdPoolJoinTd s action = some next) : Ordered next := by
  cases action with
  | main shutdown => exact main_ordered ordered taken
  | req i result =>
      obtain ⟨phase, shared, moved, rfl⟩ := step_req taken
      apply shrunk_ordered ordered (req_accepted moved)
      cases req_step_effect (fun _ => ⟨rfl, rfl⟩) moved with
      | quiet lists => exact waiting_same lists ▸ List.Sublist.refl _
      | took td waits got tdList =>
          rw [waiting, waiting, tdList]
          exact (List.sublist_cons_self td shared.tdList).filterMap clientOf
      | queued td b out enqueues done tdList =>
          rw [waiting, waiting, tdList]
  | job i =>
      obtain ⟨phase, shared, moved, rfl⟩ := step_job taken
      apply shrunk_ordered ordered (job_accepted moved)
      cases job_step_effect moved with
      | quiet lists => exact waiting_same lists ▸ List.Sublist.refl _
      | took job waits got tdList => rw [waiting, waiting, tdList]

theorem ordered_takes_newest (ordered : Ordered s) : TakesNewest s := by
  intro i result next td taken waits got
  obtain ⟨phase, shared, moved, rfl⟩ := step_req taken
  cases req_step_effect (fun _ => ⟨rfl, rfl⟩) moved with
  | quiet lists live busy => exact absurd waits busy
  | queued td b out enqueues => rw [enqueues] at waits; contradiction
  | took head _ head_got tdList =>
      obtain rfl : head = .client td := by
        rw [head_got] at got
        simpa using got
      have descending := ordered.descending
      rw [waiting, tdList] at descending
      exact (List.pairwise_cons.mp descending).1

end Steps

/-- In every run of the server a request thread takes the newest connection that waits. -/
theorem newest_taken_first (run : List Action) :
    Throughout (step tdPoolJoinTd) TakesNewest start run :=
  throughout_always _ _ Ordered (fun _ => ordered_takes_newest) (fun _ _ _ => step_ordered) start
    run ⟨List.Pairwise.nil, nofun, nofun⟩

/-! ## A connection that is overtaken -/

/-- The first connection still waits, and the `n` that came after it are closed. -/
structure Overtaken (n : Nat) (s : Server) : Prop extends Open s where
  main : s.main = .accepting
  reqIdle : ∀ i, s.req i = .waiting
  jobIdle : ∀ i, s.job i = .waiting
  queued : s.shared.queue = []
  first : ∃ obj, s.shared.tdList = [.client ⟨obj, 0⟩]
  accepted : s.shared.accepted = n + 1
  closed : s.shared.closings.map Prod.fst = ((List.range n).map (· + 1)).reverse

section Overtaking
variable {s : Server} {n : Nat}

theorem overtaken_tds (overtaken : Overtaken n s) : s.shared.tds.inUse < tdPoolMaxTd := by
  obtain ⟨obj, list⟩ := overtaken.first
  have one : named tdName (underWay s) = 1 := by
    have reqs : threadsWeigh (fun phase => named tdName (ReqPhase.holds phase)) s.req = 0 :=
      Finset.sum_eq_zero fun i _ => by rw [overtaken.reqIdle i]; rfl
    have jobs : threadsWeigh (fun phase => named tdName (JobPhase.holds phase)) s.job = 0 :=
      Finset.sum_eq_zero fun i _ => by rw [overtaken.jobIdle i]; rfl
    rw [named_under_way, reqs, jobs, overtaken.main, overtaken.queued, list]
    rfl
  rw [in_use_named overtaken.toInv, one]
  decide

theorem accepts_one (overtaken : Overtaken n s) :
    ∃ obj tds, replay serve s (List.replicate 3 (.main false)) = some { s with
      shared := { s.shared with
        accepted := n + 2
        tds := tds
        tdList := .client ⟨obj, n + 1⟩ :: s.shared.tdList } } := by
  have running := overtaken.sound.running
  obtain ⟨obj, tds, taken⟩ := take_room (by decide) (by decide) overtaken.sound.tds
    (overtaken_tds overtaken)
  refine ⟨obj, tds, ?_⟩
  simp [List.replicate, replay, serve, step, running, overtaken.main, overtaken.accepted, mainStep,
    tdPoolGetTd, taken, deref, tdEnqueue]

/-- A request thread that finds nothing to read: the steps it has left and the
connection it still has to close. -/
inductive Refusing : Nat → Option Nat → ReqPhase → Prop
  | gotTd (td : Client) : Refusing 5 (some td.client) (.gotTd (.client td))
  | reading (td : Client) (b : Nat) : Refusing 4 (some td.client) (.reading td b)
  | closing (td : Client) (b : Nat) : Refusing 3 (some td.client) (.closing td b .refused)
  | closed (td : Client) (b : Nat) : Refusing 2 none (.closed td b)
  | returning (td : Client) : Refusing 1 none (.returning td)
  | waiting : Refusing 0 none .waiting

def closedClients (s : Shared) : List Nat := s.closings.map Prod.fst

theorem refusing_step {k : Nat} {pending : Option Nat} {phase next : ReqPhase} {s s' : Shared}
    (sound : Sound s) (refusing : Refusing (k + 1) pending phase)
    (moved : reqStep tdPoolJoinTd .failed s phase = some (next, s')) :
    SameLists s s' ∧ ∃ later, Refusing k later next ∧
      later.toList ++ closedClients s' = pending.toList ++ closedClients s := by
  have buffer (b : Nat) : closedClients (bufferPoolJoinBuffer b s) = closedClients s := by
    unfold bufferPoolJoinBuffer
    dsimp only
    split <;> rfl
  cases refusing with
  | gotTd td =>
      obtain ⟨b, rfl, -⟩ := get_exchanges .buffer sound moved
      have kept := (get_keeps .buffer moved (fun _ => ()) fun _ => rfl).1
      refine ⟨same_lists kept, _, .reading td b, ?_⟩
      rw [closedClients, kept.closings, closedClients]
  | reading td b =>
      cases moved
      exact ⟨⟨rfl, rfl⟩, _, .closing td b, rfl⟩
  | closing td b =>
      cases moved
      exact ⟨⟨rfl, rfl⟩, _, .closed td b, rfl⟩
  | closed td b =>
      cases moved
      exact ⟨join_buffer_lists b s, _, .returning td, buffer b⟩
  | returning td =>
      cases moved
      refine ⟨join_td_lists td s, _, .waiting, ?_⟩
      simp only [tdPoolJoinTd]
      split <;> rfl

/-- The thread closes its connection, and nothing else changes but the pools. -/
theorem refuses_run {k : Nat} {pending : Option Nat} (serving : Open s)
    (refusing : Refusing k pending (s.req 0)) :
    ∃ final, replay serve s (List.replicate k (.req 0 .failed)) = some final ∧ Open final ∧
      final.main = s.main ∧ final.job = s.job ∧ final.req = Function.update s.req 0 .waiting ∧
      SameLists s.shared final.shared ∧ final.shared.accepted = s.shared.accepted ∧
      closedClients final.shared = pending.toList ++ closedClients s.shared := by
  induction k generalizing s pending with
  | zero =>
      generalize idle : s.req 0 = phase at refusing
      cases refusing
      exact ⟨s, rfl, serving, rfl, rfl, by rw [← idle, Function.update_eq_self], ⟨rfl, rfl⟩, rfl, rfl⟩
  | succ k ih =>
      have busy : s.req 0 ≠ .waiting := by
        intro waits
        rw [waits] at refusing
        cases refusing
      obtain ⟨next, taken⟩ := Option.isSome_iff_exists.mp (req_moves serving 0 .failed busy)
      have opened := serve_keeps serving taken
      obtain ⟨phase, shared, moved, rfl⟩ := step_req (serve_step taken).1
      obtain ⟨lists, later, onward, closes⟩ := refusing_step serving.sound refusing moved
      obtain ⟨final, reached, ends, main, job, req, same, accepted, closed⟩ :=
        ih opened (show Refusing k later _ by simpa using onward)
      refine ⟨final, ?_, ends, main, job, ?_, ?_, ?_, closed.trans closes⟩
      · rw [List.replicate_succ, replay, taken, Option.bind_some, reached]
      · rw [req]
        exact Function.update_idem _ _ _
      · exact ⟨same.tdList.trans lists.tdList, same.queue.trans lists.queue⟩
      · exact accepted.trans (req_accepted moved)

/-- One more connection, `newer`, is accepted and taken before the first one. -/
def newerTaken (s : Server) (i : Fin workers) (newer : Client) (tds : Pool) : Server :=
  { s with
    req := Function.update s.req i (.gotTd (.client newer))
    shared := { s.shared with accepted := newer.client + 1, tds := tds } }

theorem takes_newer (overtaken : Overtaken n s) :
    ∃ obj tds, replay serve s (List.replicate 3 (.main false) ++ [.req 0 .failed]) =
      some (newerTaken s 0 ⟨obj, n + 1⟩ tds) := by
  obtain ⟨obj, tds, accepts⟩ := accepts_one overtaken
  refine ⟨obj, tds, ?_⟩
  have running := overtaken.sound.running
  have going := open_going overtaken.toOpen
  rw [replay_append, accepts, Option.bind_some]
  simp [replay, serve, step, running, going, overtaken.reqIdle, reqStep, tdWaitAndDequeue, newerTaken]

theorem overtaken_more (overtaken : Overtaken n s) :
    ∃ run next, replay serve s run = some next ∧ Overtaken (n + 1) next := by
  have kept : ∀ state action next, Open state → serve state action = some next → Open next :=
    fun _ _ _ => serve_keeps
  obtain ⟨obj, tds, takes⟩ := takes_newer overtaken
  have serving := reachable_invariant serve Open kept s _ _ overtaken.toOpen takes
  have refusing : Refusing 5 (some (n + 1)) ((newerTaken s 0 ⟨obj, n + 1⟩ tds).req 0) := by
    simpa [newerTaken] using Refusing.gotTd ⟨obj, n + 1⟩
  obtain ⟨final, reached, ends, main, job, req, same, accepted, closed⟩ :=
    refuses_run serving refusing
  refine ⟨(List.replicate 3 (.main false) ++ [.req 0 .failed]) ++ List.replicate 5 (.req 0 .failed),
    final, ?_, { ends with
      main := main.trans overtaken.main
      reqIdle := ?_
      jobIdle := fun i => by rw [job]; exact overtaken.jobIdle i
      queued := same.queue.trans overtaken.queued
      first := by rw [same.tdList]; exact overtaken.first
      accepted := accepted
      closed := ?_ }⟩
  · rw [replay_append, takes, Option.bind_some, reached]
  · intro i
    rw [req]
    by_cases here : i = 0
    · simp [here]
    · simpa [newerTaken, here] using overtaken.reqIdle i
  · have before : closedClients s.shared = _ := overtaken.closed
    rw [closedClients] at closed
    rw [closed, List.range_succ, List.map_append, List.reverse_append]
    exact congrArg _ before

end Overtaking

theorem overtaken_start : ∃ run s, replay serve start run = some s ∧ Overtaken 0 s := by
  have kept : ∀ state action next, Open state → serve state action = some next → Open next :=
    fun _ _ _ => serve_keeps
  obtain ⟨s, reached⟩ : ∃ s, replay serve start (List.replicate 3 (.main false)) = some s := ⟨_, rfl⟩
  have opened := reachable_invariant serve Open kept start s _ start_open reached
  refine ⟨_, s, reached, { opened with
    main := ?_, reqIdle := ?_, jobIdle := ?_, queued := ?_, first := ?_, accepted := ?_
    closed := ?_ }⟩
  all_goals cases reached
  · rfl
  · exact fun _ => rfl
  · exact fun _ => rfl
  · rfl
  · exact ⟨_, rfl⟩
  · rfl
  · rfl

/-- A connection may wait while any number of later ones is accepted and closed. -/
theorem newer_overtake (n : Nat) :
    ∃ run s, replay serve start run = some s ∧ 0 ∈ waiting s.shared ∧
      s.shared.closings.map Prod.fst = ((List.range n).map (· + 1)).reverse := by
  have overtaken : ∃ run s, replay serve start run = some s ∧ Overtaken n s := by
    induction n with
    | zero => exact overtaken_start
    | succ n ih =>
        obtain ⟨run, s, reached, overtaken⟩ := ih
        obtain ⟨more, next, onward, ends⟩ := overtaken_more overtaken
        exact ⟨run ++ more, next, by rw [replay_append, reached, Option.bind_some, onward], ends⟩
  obtain ⟨run, s, reached, ends⟩ := overtaken
  obtain ⟨obj, list⟩ := ends.first
  exact ⟨run, s, reached, by simp [waiting, list, clientOf], ends.closed⟩

end Ttracker.ConnectionOrder
