import Ttracker.BufferBound
import Ttracker.DrainingRuns

/-!
How much is left to do. A connection in the td list costs at most twelve steps of
the worker threads, its job's steps among them, and no more than sixteen can be
under way, so the workers settle everything that was handed to them whatever the
order they run in.
-/
namespace Ttracker.ServerLoad
open ObjectPools ServerThreads Holdings PoolJoins Shutdown Serving BufferBound TransitionRuns
  DrainingRuns

/-- The steps of a request thread until it waits again, and of the job it may queue. -/
def reqLoad : ReqPhase → Nat
  | .waiting | .exited => 0
  | .finishing _ | .returning _ | .gotTd (.stop _) => 1
  | .closed _ _ => 2
  | .closing _ _ _ => 3
  | .responded _ _ _ => 4
  | .responding _ _ _ _ => 5
  | .failingWith _ _ _ => 6
  | .failing _ _ => 7
  | .enqueueing _ _ _ => 8
  | .parsed _ _ => 9
  | .reading _ _ => 10
  | .gotTd (.client _) => 11

def jobLoad : JobPhase → Nat
  | .waiting | .exited => 0
  | .returning _ => 1
  | .closed _ _ => 2
  | .responded _ _ => 3
  | .responding _ _ _ => 4
  | .working _ _ => 5

def tdLoad : ThreadData → Nat
  | .client _ => 12
  | .stop _ => 2

def queueLoad : Job → Nat
  | .request _ _ => 6
  | .stop => 1

def listLoad (s : Shared) : Nat := itemsWeigh tdLoad s.tdList + itemsWeigh queueLoad s.queue

def load (s : Server) : Nat :=
  threadsWeigh reqLoad s.req + threadsWeigh jobLoad s.job + listLoad s.shared

theorem same_load {s s' : Shared} (lists : SameLists s s') : listLoad s' = listLoad s := by
  rw [listLoad, listLoad, lists.tdList, lists.queue]

section Steps
variable {s s' : Shared}

/-- A thread that asks for a buffer gets one, and leaves the lists alone. -/
theorem get_buffer_steps {Phase : Type} {phase next : Phase} {into : Nat → Phase}
    (sound : Sound s) (taken : (bufferPoolGetBuffer s).map (deref phase into) = some (next, s')) :
    (∃ b, next = into b) ∧ listLoad s' = listLoad s := by
  obtain ⟨b, same, -⟩ := get_exchanges .buffer sound taken
  have kept := (get_keeps .buffer taken (fun _ => ()) fun _ => rfl).1
  exact ⟨⟨b, same⟩, same_load (same_lists kept)⟩

theorem req_step_lighter {retire : ThreadData → Shared → Shared} {result : ReadResult}
    {phase next : ReqPhase} (sound : Sound s) (retires : ∀ k, SameLists s (retire (.stop k) s))
    (taken : reqStep retire result s phase = some (next, s')) :
    reqLoad next + listLoad s' < reqLoad phase + listLoad s := by
  cases phase with
  | waiting =>
      obtain ⟨⟨td, s₁⟩, dequeued, same⟩ := Option.map_eq_some_iff.mp taken
      cases same
      unfold tdWaitAndDequeue at dequeued
      split at dequeued
      · contradiction
      · next rest list =>
          cases dequeued
          cases td <;> simp [reqLoad, listLoad, list, tdLoad] <;> omega
  | gotTd td =>
      cases td with
      | stop k =>
          cases taken
          rw [same_load (retires k)]
          simp [reqLoad]
      | client td =>
          obtain ⟨⟨b, rfl⟩, same⟩ := get_buffer_steps sound taken
          simp [reqLoad, same]
  | reading td b => cases result <;> cases taken <;> simp [reqLoad]
  | failing td b =>
      obtain ⟨⟨e, rfl⟩, same⟩ := get_buffer_steps sound taken
      simp [reqLoad, same]
  | failingWith td b e =>
      obtain ⟨⟨response, rfl⟩, same⟩ := get_buffer_steps sound taken
      simp [reqLoad, same]
  | responding td b e response =>
      cases taken
      simp [reqLoad, same_load (join_buffer_lists response s)]
  | responded td b e =>
      cases taken
      simp [reqLoad, same_load (join_buffer_lists e s)]
  | closing td b ending =>
      cases taken
      simp [reqLoad, listLoad, closeClient]
  | closed td b =>
      cases taken
      simp [reqLoad, same_load (join_buffer_lists b s)]
  | returning td =>
      cases taken
      simp [reqLoad, same_load (join_td_lists td s)]
  | parsed td b =>
      obtain ⟨⟨out, rfl⟩, same⟩ := get_buffer_steps sound taken
      simp [reqLoad, same]
  | enqueueing td b out =>
      cases taken
      -- the thread's share of the load goes on with the job
      simp [reqLoad, listLoad, workqEnqueueJob, queueLoad]
      omega
  | finishing b =>
      cases taken
      simp [reqLoad, same_load (join_buffer_lists b s)]
  | exited => contradiction

theorem job_step_lighter {phase next : JobPhase} (sound : Sound s)
    (taken : jobStep s phase = some (next, s')) :
    jobLoad next + listLoad s' < jobLoad phase + listLoad s := by
  cases phase with
  | waiting =>
      obtain ⟨⟨job, s₁⟩, dequeued, same⟩ := Option.map_eq_some_iff.mp taken
      cases same
      unfold workqWaitAndDeqJob at dequeued
      split at dequeued
      · contradiction
      · next rest list =>
          cases dequeued
          cases job <;> simp [jobStart, jobLoad, listLoad, list, queueLoad]
          omega
  | working td out =>
      obtain ⟨⟨response, rfl⟩, same⟩ := get_buffer_steps sound taken
      simp [jobLoad, same]
  | responding td out response =>
      cases taken
      simp [jobLoad, same_load (join_buffer_lists response s)]
  | responded td out =>
      cases taken
      simp [jobLoad, listLoad, closeClient]
  | closed td out =>
      cases taken
      simp [jobLoad, same_load (join_buffer_lists out s)]
  | returning td =>
      cases taken
      simp [jobLoad, same_load (join_td_lists td s)]
  | exited => contradiction

end Steps

section Workers
variable {retire : ThreadData → Shared → Shared} {s next : Server}

theorem req_lighter {i : Fin workers} {result : ReadResult} (inv : Inv s)
    (retires : ∀ k, SameLists s.shared (retire (.stop k) s.shared))
    (taken : step retire s (.req i result) = some next) : load next < load s := by
  obtain ⟨phase, shared, moved, rfl⟩ := step_req taken
  have lighter := exchange_lighter reqLoad s.req i phase _ _
    (req_step_lighter inv.sound retires moved)
  simp only [load]
  omega

theorem job_lighter {i : Fin workers} (inv : Inv s) (taken : step retire s (.job i) = some next) :
    load next < load s := by
  obtain ⟨phase, shared, moved, rfl⟩ := step_job taken
  have lighter := exchange_lighter jobLoad s.job i phase _ _ (job_step_lighter inv.sound moved)
  simp only [load]
  omega

end Workers

/-! ## What is under way at one time -/

def connectionName : Resource → Option Nat
  | .connection c => some c
  | _ => none

/-- Everything that is held, by a thread or by an entry of a list. -/
def underWay (s : Server) : List Resource :=
  s.main.holds ++ (List.finRange workers).flatMap (fun i => (s.req i).holds) ++
    (List.finRange workers).flatMap (fun i => (s.job i).holds) ++
      s.shared.tdList.flatMap ThreadData.holds ++ s.shared.queue.flatMap Job.holds

/-- How many of the resources have a name of some kind. -/
def named (name : Resource → Option Nat) (holding : List Resource) : Nat :=
  (holding.filterMap name).length

theorem named_append (name : Resource → Option Nat) (front back : List Resource) :
    named name (front ++ back) = named name front + named name back := by
  simp [named]

theorem named_flatMap {Item : Type} (name : Resource → Option Nat) (holds : Item → List Resource)
    (items : List Item) :
    named name (items.flatMap holds) = itemsWeigh (fun item => named name (holds item)) items := by
  induction items with
  | nil => rfl
  | cons item rest ih => rw [List.flatMap_cons, named_append, ih, items_weigh_cons]

theorem connection_named (r : Resource) (c : Nat) :
    connectionName r = some c ↔ r = .connection c := by
  cases r <;> simp [connectionName]

theorem td_or_main (phase : MainPhase) :
    named connectionName phase.holds ≤ named tdName phase.holds + 1 := by
  cases phase <;> simp [named, MainPhase.holds, Client.holds, List.filterMap_cons, connectionName, tdName]

theorem req_td (phase : ReqPhase) : named connectionName phase.holds ≤ named tdName phase.holds := by
  cases phase with
  | gotTd td => cases td <;> simp [named, ReqPhase.holds, ThreadData.holds, Client.holds,
      List.filterMap_cons, connectionName, tdName]
  | _ => simp [named, ReqPhase.holds, Client.holds, List.filterMap_cons, connectionName, tdName]

theorem job_td (phase : JobPhase) : named connectionName phase.holds ≤ named tdName phase.holds := by
  cases phase <;>
    simp [named, JobPhase.holds, Client.holds, List.filterMap_cons, connectionName, tdName]

theorem listed_td (td : ThreadData) : named connectionName td.holds ≤ named tdName td.holds := by
  cases td <;>
    simp [named, ThreadData.holds, Client.holds, List.filterMap_cons, connectionName, tdName]

theorem queued_td (job : Job) : named connectionName job.holds ≤ named tdName job.holds := by
  cases job <;> simp [named, Job.holds, Client.holds, List.filterMap_cons, connectionName, tdName]

theorem named_under_way (name : Resource → Option Nat) (s : Server) :
    named name (underWay s) = named name s.main.holds +
      threadsWeigh (fun phase => named name (ReqPhase.holds phase)) s.req +
        threadsWeigh (fun phase => named name (JobPhase.holds phase)) s.job +
          itemsWeigh (fun td => named name (ThreadData.holds td)) s.shared.tdList +
            itemsWeigh (fun job => named name (Job.holds job)) s.shared.queue := by
  simp only [underWay, named_append, named_flatMap, threadsWeigh, Fin.sum_univ_def, itemsWeigh]

theorem count_threads {Phase : Type} (holds : Phase → List Resource)
    (threads : Fin workers → Phase) (r : Resource) :
    ((List.finRange workers).flatMap fun i => holds (threads i)).count r =
      heldBy holds threads r := by
  rw [List.count_flatMap, heldBy, Fin.sum_univ_def]
  rfl

section Counts
variable {s : Server}

theorem count_under_way (inv : Inv s) (r : Resource) :
    (underWay s).count r + settled s.shared r = issued s.shared r := by
  have balance := inv.balanced r
  simp only [books, held, heldIn] at balance
  simp only [underWay, List.count_append, count_threads ReqPhase.holds s.req r,
    count_threads JobPhase.holds s.job r]
  omega

/-- Of the resources of one kind each that is under way has been issued. -/
theorem named_sum {name : Resource → Option Nat} {make : Nat → Resource}
    (names : ∀ r id, name r = some id ↔ r = make id) (inv : Inv s) (n : Nat)
    (below : ∀ id, 0 < issued s.shared (make id) → id < n) :
    named name (underWay s) + ∑ id ∈ Finset.range n, settled s.shared (make id) =
      ∑ id ∈ Finset.range n, issued s.shared (make id) := by
  have all : named name (underWay s) = ((underWay s).filterMap name).countP (· < n) := by
    rw [named, eq_comm, List.countP_eq_length]
    intro id member
    obtain ⟨r, inside, same⟩ := List.mem_filterMap.mp member
    obtain rfl := (names r id).mp same
    have counted := List.count_pos_iff.mpr inside
    have balance := count_under_way inv (make id)
    exact decide_eq_true (below id (by omega))
  rw [all, ← sum_count names, ← Finset.sum_add_distrib]
  exact Finset.sum_congr rfl fun id _ => count_under_way inv (make id)

theorem in_use_named (inv : Inv s) : s.shared.tds.inUse = named tdName (underWay s) := by
  have below : ∀ obj, 0 < issued s.shared (.td obj) → obj < s.shared.tds.num := by
    intro obj used
    have marked : busy s.shared.tds obj = true := by
      cases status : busy s.shared.tds obj with
      | true => rfl
      | false =>
          rw [issued, status] at used
          contradiction
    exact inv.sound.tds.old obj (List.mem_map_of_mem ((busy_iff _ _).mp marked))
  have counted := named_sum td_named inv s.shared.tds.num below
  simp only [settled, issued, Finset.sum_const_zero, Nat.add_zero] at counted
  exact (inUse_sum inv.sound.tds).trans counted.symm

theorem tds_under_way (inv : Inv s) : named tdName (underWay s) ≤ tdPoolMaxTd :=
  (in_use_named inv).symm.trans_le ((inUse_le inv.sound.tds).trans inv.sound.tds.within)

theorem connections_under_way (inv : Inv s) :
    s.shared.accepted ≤ named connectionName (underWay s) + s.shared.closings.length := by
  have below : ∀ c, 0 < issued s.shared (.connection c) → c < s.shared.accepted := by
    intro c accepted
    by_contra later
    simp [issued, later] at accepted
  have counted := named_sum connection_named inv s.shared.accepted below
  have all : ∑ c ∈ Finset.range s.shared.accepted, issued s.shared (.connection c) =
      s.shared.accepted := by
    have each : ∀ c ∈ Finset.range s.shared.accepted, issued s.shared (.connection c) = 1 := by
      intro c inside
      simp [issued, Finset.mem_range.mp inside]
    rw [Finset.sum_congr rfl each]
    simp
  have closed : ∑ c ∈ Finset.range s.shared.accepted, settled s.shared (.connection c) ≤
      s.shared.closings.length := by
    simp only [settled]
    have ids : ∑ c ∈ Finset.range s.shared.accepted, (s.shared.closings.map Prod.fst).count c =
        ((s.shared.closings.map Prod.fst).filterMap some).countP (· < s.shared.accepted) :=
      sum_count (fun _ _ => by simp) _ _
    rw [ids]
    simpa using List.countP_le_length (p := (· < s.shared.accepted))
      (l := (s.shared.closings.map Prod.fst).filterMap some)
  omega

/-- Each connection that is under way has its `thread_data`, but for the newest. -/
theorem connections_have_tds (s : Server) :
    named connectionName (underWay s) ≤ named tdName (underWay s) + 1 := by
  have main := td_or_main s.main
  have reqs := threads_weigh_mono s.req req_td
  have jobs := threads_weigh_mono s.job job_td
  have listed := items_weigh_mono s.shared.tdList fun td _ => listed_td td
  have queued := items_weigh_mono s.shared.queue fun job _ => queued_td job
  rw [named_under_way, named_under_way]
  omega

theorem list_named (s : Server) :
    s.shared.tdList.countP isClient + s.shared.queue.countP isRequest ≤
      named tdName (underWay s) := by
  have clients : ∀ tdList : List ThreadData,
      itemsWeigh (fun td => named tdName (ThreadData.holds td)) tdList = tdList.countP isClient := by
    intro tdList
    induction tdList with
    | nil => rfl
    | cons td rest ih =>
        rw [items_weigh_cons, ih, List.countP_cons]
        cases td <;>
          simp [named, ThreadData.holds, Client.holds, List.filterMap_cons, tdName, isClient, tdNull,
            Nat.add_comm]
  have requests : ∀ queue : List Job,
      itemsWeigh (fun job => named tdName (Job.holds job)) queue = queue.countP isRequest := by
    intro queue
    induction queue with
    | nil => rfl
    | cons job rest ih =>
        rw [items_weigh_cons, ih, List.countP_cons]
        cases job <;>
          simp [named, Job.holds, Client.holds, List.filterMap_cons, tdName, isRequest, Nat.add_comm]
  rw [named_under_way, clients, requests]
  omega

end Counts

/-- However fast clients connect, seventeen connections are open at most, and only
sixteen `thread_data` wait in the td list and the work queue together. -/
structure Bounded (s : Shared) : Prop where
  connections : s.accepted ≤ s.closings.length + (tdPoolMaxTd + 1)
  waiting : s.tdList.countP isClient + s.queue.countP isRequest ≤ tdPoolMaxTd

theorem inv_bounded {s : Server} (inv : Inv s) : Bounded s.shared := by
  have accepted := connections_under_way inv
  have owned := connections_have_tds s
  have listed := list_named s
  have tds := tds_under_way inv
  exact ⟨by omega, by omega⟩

/-! ## The workers drain what they were handed -/

theorem req_load_le (phase : ReqPhase) : reqLoad phase ≤ 12 * named tdName phase.holds + 1 := by
  cases phase with
  | gotTd td => cases td <;> simp [reqLoad, named, ReqPhase.holds, ThreadData.holds, Client.holds,
      List.filterMap_cons, tdName]
  | _ => simp [reqLoad, named, ReqPhase.holds, Client.holds, List.filterMap_cons, tdName]

theorem job_load_le (phase : JobPhase) : jobLoad phase ≤ 12 * named tdName phase.holds + 0 := by
  cases phase <;>
    simp [jobLoad, named, JobPhase.holds, Client.holds, List.filterMap_cons, tdName]

theorem load_le {s : Server} (serving : Open s) : load s ≤ 12 * tdPoolMaxTd + workers := by
  have reqs := threads_weigh_le 12 1 s.req req_load_le
  have jobs := threads_weigh_le 12 0 s.job job_load_le
  have listed : itemsWeigh tdLoad s.shared.tdList ≤
      12 * itemsWeigh (fun td => named tdName (ThreadData.holds td)) s.shared.tdList := by
    apply items_weigh_le
    intro td member
    have client := serving.clients td member
    cases td with
    | client td => simp [tdLoad, named, ThreadData.holds, Client.holds, List.filterMap_cons, tdName]
    | stop k => contradiction
  have queued : itemsWeigh queueLoad s.shared.queue ≤
      12 * itemsWeigh (fun job => named tdName (Job.holds job)) s.shared.queue := by
    apply items_weigh_le
    intro job member
    have request := serving.requests job member
    cases job with
    | request td out => simp [queueLoad, named, Job.holds, Client.holds, List.filterMap_cons, tdName]
    | stop => contradiction
  have tds := tds_under_way serving.toInv
  rw [named_under_way] at tds
  rw [Fintype.card_fin] at reqs
  simp only [load, listLoad, workers] at *
  omega

/-- The steps of the worker threads. -/
def work (s : Server) : Action → Option Server
  | .main _ => none
  | action => step tdPoolJoinTd s action

/-- Every connection the main thread has handed over is closed, and nobody has work. -/
structure Drained (s : Server) : Prop where
  tdList : s.shared.tdList = []
  queue : s.shared.queue = []
  requests : ∀ i, s.req i = .waiting
  jobs : ∀ i, s.job i = .waiting
  closed : ∀ c, c < s.shared.accepted → Resource.connection c ∉ s.main.holds →
    (s.shared.closings.map Prod.fst).count c = 1

/-- Left to themselves, the workers are done after at most 196 steps, in whatever
order they move: they cannot stop earlier and they cannot go on. -/
structure Drains (s : Server) : Prop where
  short : ∀ more final, replay work s more = some final →
    more.length ≤ 12 * tdPoolMaxTd + workers
  settled : ∀ more final, replay work s more = some final → (Stuck work final ↔ Drained final)
  ends : ∃ more final, replay work s more = some final ∧ Drained final

section Drain
variable {s next : Server} {action : Action}

theorem work_serves (taken : work s action = some next) : serve s action = some next := by
  cases action with
  | main shutdown => contradiction
  | req i result => exact taken
  | job i => exact taken

theorem work_lighter (serving : Open s) (taken : work s action = some next) :
    load next < load s := by
  cases action with
  | main shutdown => contradiction
  | req i result =>
      obtain ⟨phase, shared, moved, rfl⟩ := step_req taken
      -- there is no marker among what a serving thread holds
      have kept : reqStep endsThread result s.shared (s.req i) = some (phase, shared) := by
        rw [← moved]
        cases got : s.req i with
        | gotTd td =>
            cases td with
            | stop k => exact absurd got (no_marker serving i k)
            | client td => rfl
        | _ => rfl
      have lighter := exchange_lighter reqLoad s.req i phase _ _
        (req_step_lighter serving.sound (fun _ => ⟨rfl, rfl⟩) kept)
      simp only [load]
      omega
  | job i =>
      have moved : step tdPoolJoinTd s (.job i) = some next := taken
      exact job_lighter serving.toInv moved

theorem waiting_settled (serving : Open s) (tdList : s.shared.tdList = [])
    (queue : s.shared.queue = []) (requests : ∀ i, s.req i = .waiting)
    (jobs : ∀ i, s.job i = .waiting) : Drained s := by
  refine ⟨tdList, queue, requests, jobs, fun c accepted away => ?_⟩
  have balance := serving.balanced (.connection c)
  have reqIdle := heldBy_empty ReqPhase.holds s.req (.connection c) fun i => by rw [requests i]; rfl
  have jobIdle := heldBy_empty JobPhase.holds s.job (.connection c) fun i => by rw [jobs i]; rfl
  have main := List.count_eq_zero.mpr away
  simpa [books, held, issued, PoolJoins.settled, reqIdle, jobIdle, tdList, queue, main, accepted]
    using balance

theorem stuck_iff (serving : Open s) : Stuck work s ↔ Drained s := by
  have running := serving.sound.running
  have going := open_going serving
  constructor
  · intro stuck
    have requests : ∀ i, s.req i = .waiting := by
      intro i
      by_contra busy
      have moves := req_moves serving i .request busy
      have refused : serve s (.req i .request) = none := stuck (.req i .request)
      simp [refused] at moves
    have jobs : ∀ i, s.job i = .waiting := by
      intro i
      by_contra busy
      have moves := job_moves serving i busy
      have refused : serve s (.job i) = none := stuck (.job i)
      simp [refused] at moves
    apply waiting_settled serving _ _ requests jobs
    · cases list : s.shared.tdList with
      | nil => rfl
      | cons td rest =>
          have refused : step tdPoolJoinTd s (.req 0 .request) = none := stuck (.req 0 .request)
          simp [step, running, going, requests, reqStep, tdWaitAndDequeue, list] at refused
    · cases list : s.shared.queue with
      | nil => rfl
      | cons job rest =>
          have refused : step tdPoolJoinTd s (.job 0) = none := stuck (.job 0)
          simp [step, running, going, jobs, jobStep, workqWaitAndDeqJob, list] at refused
  · intro drained action
    cases action with
    | main shutdown => rfl
    | req i result =>
        simp [work, step, running, going, drained.requests i, reqStep, tdWaitAndDequeue, drained.tdList]
    | job i =>
        simp [work, step, running, going, drained.jobs i, jobStep, workqWaitAndDeqJob, drained.queue]

theorem open_drains (serving : Open s) : Drains s := by
  have kept : ∀ state action next, Open state → work state action = some next → Open next :=
    fun _ _ _ here taken => serve_keeps here (work_serves taken)
  have lowers : ∀ state action next, Open state → work state action = some next →
      load next < load state := fun _ _ _ => work_lighter
  obtain ⟨every, ends⟩ := ends_within kept lowers (fun _ here => stuck_iff here) s serving
  have least := load_le serving
  exact ⟨fun more final reached => (every more final reached).1.trans least,
    fun more final reached => (every more final reached).2, ends⟩

end Drain

/-- In every run of the server, the shutdown included, no more than seventeen
connections are open at one time. -/
theorem connections_bounded (run : List Action) :
    Throughout (step tdPoolJoinTd) (fun s => Bounded s.shared) start run := by
  apply throughout_always _ _ fun s => Inv s ∨ s.shared.aborted = true ∧ Bounded s.shared
  · rintro s (inv | ⟨_, bounded⟩)
    · exact inv_bounded inv
    · exact bounded
  · rintro s action next (inv | ⟨aborted, _⟩) taken
    · by_cases retiring : RetiresMarker s action
      · cases action with
        | main shutdown => exact absurd retiring id
        | job i => exact absurd retiring id
        | req i result =>
            obtain ⟨td, got, marker⟩ := retiring
            cases td with
            | client td => contradiction
            | stop k =>
                obtain ⟨phase, shared, moved, rfl⟩ := step_req taken
                rw [got] at moved
                cases moved
                -- the abort leaves the lists and the connections as they are
                have bounded := inv_bounded inv
                exact Or.inr ⟨rfl, ⟨bounded.connections, bounded.waiting⟩⟩
      · left
        apply step_keeps inv _ taken
        rintro i result k rfl got
        exact absurd ⟨.stop k, got, rfl⟩ retiring
    · rw [step.eq_def, if_pos (Or.inl aborted)] at taken
      contradiction
  · exact Or.inl (start_inv tids)

end Ttracker.ServerLoad
