import Ttracker.ObjectPools
import Mathlib.Logic.Function.Basic

/-!
The main thread, the request threads and the job threads of the server. Each
critical section, each `read`, `write`, `accept` and `close` is one step, and a
run is any interleaving. A thread that waits for a condition variable may look
again at any time, so the signals are left out. A `read` or `write` that blocks is
a thread that does not take its step: what is said of states where nobody can move
is said of clients that let every `read` and `write` return. `closings` and `joins`
are history: how each connection ended, and with what each pool was called.
-/
namespace Ttracker.ServerThreads
open ObjectPools

/-- `MAX_THREADS/2`: that many request threads and that many job threads. -/
abbrev workers : Nat := 4

def tdPoolAmp : Nat := 4
def tdPoolMaxTd : Nat := 16
def bufferAmp : Nat := 4
def maxBuffers : Nat := 64

/-- A `struct thread_data` of the pool, filled for one client by `runq_events`. -/
structure Client where
  obj : Nat
  client : Nat
  deriving DecidableEq

/-- What the td list carries. `server_stop_threads` makes its markers with
`mk_td`: they are in no pool, their `sq` and `bp` are NULL and their `tp` is
never set. -/
inductive ThreadData where
  | client (td : Client)
  | stop (k : Nat)
  deriving DecidableEq

def tdNull : ThreadData → Bool
  | .client _ => false
  | .stop _ => true

inductive Job where
  | request (td : Client) (out : Nat)
  | stop
  deriving DecidableEq

/-- A connection was answered with a status code, or closed without an answer. -/
inductive Ending where
  | answered (code : Nat)
  | refused
  deriving DecidableEq

inductive JoinCall where
  | td (td : ThreadData)
  | buffer (b : Nat)
  deriving DecidableEq

structure Shared where
  tdList : List ThreadData
  queue : List Job
  tds : Pool
  buffers : Pool
  accepted : Nat
  closings : List (Nat × Ending)
  /-- Each call, and whether its object was in the pool and in use. -/
  joins : List (JoinCall × Bool)
  aborted : Bool
  deriving DecidableEq

/-! ## Operations on the shared state -/

def tdEnqueue (td : ThreadData) (s : Shared) : Shared := { s with tdList := td :: s.tdList }

def tdWaitAndDequeue (s : Shared) : Option (ThreadData × Shared) :=
  match s.tdList with
  | [] => none
  | td :: rest => some (td, { s with tdList := rest })

def workqEnqueueJob (job : Job) (s : Shared) : Shared := { s with queue := s.queue ++ [job] }

def workqWaitAndDeqJob (s : Shared) : Option (Job × Shared) :=
  match s.queue with
  | [] => none
  | job :: rest => some (job, { s with queue := rest })

def tdPoolGetTd (s : Shared) : Option (Option Nat × Shared) :=
  (take tdPoolAmp tdPoolMaxTd s.tds).map fun (got, tds) => (got, { s with tds := tds })

def bufferPoolGetBuffer (s : Shared) : Option (Option Nat × Shared) :=
  (take bufferAmp maxBuffers s.buffers).map fun (got, buffers) => (got, { s with buffers := buffers })

def abort (s : Shared) : Shared := { s with aborted := true }

def tdPoolJoinTd (td : ThreadData) (s : Shared) : Shared :=
  match td with
  | .client c =>
      let s := { s with joins := (.td td, busy s.tds c.obj) :: s.joins }
      match giveBack c.obj s.tds with
      | none => abort s
      | some tds => { s with tds := tds }
  | .stop _ => abort { s with joins := (.td td, false) :: s.joins }

def bufferPoolJoinBuffer (b : Nat) (s : Shared) : Shared :=
  let s := { s with joins := (.buffer b, busy s.buffers b) :: s.joins }
  match giveBack b s.buffers with
  | none => abort s
  | some buffers => { s with buffers := buffers }

def closeClient (td : Client) (ending : Ending) (s : Shared) : Shared :=
  { s with closings := (td.client, ending) :: s.closings }

/-- The caller of a pool uses the object at once; a NULL one ends the process. -/
def deref {Phase : Type} (phase : Phase) (next : Nat → Phase) : Option Nat × Shared → Phase × Shared
  | (some object, s) => (next object, s)
  | (none, s) => (phase, abort s)

inductive PoolName where
  | td
  | buffer

def PoolName.get : PoolName → Shared → Option (Option Nat × Shared)
  | .td => tdPoolGetTd
  | .buffer => bufferPoolGetBuffer

/-- Nothing but the pools is changed, or the process aborted. -/
structure SameWork (s s' : Shared) : Prop where
  tdList : s'.tdList = s.tdList
  queue : s'.queue = s.queue
  accepted : s'.accepted = s.accepted
  closings : s'.closings = s.closings
  joins : s'.joins = s.joins

/-- `read` is anything of the caller's phase that the object does not change. -/
theorem get_keeps {Phase β : Type} {phase next : Phase} {into : Nat → Phase} {s s' : Shared}
    (pool : PoolName) (taken : (pool.get s).map (deref phase into) = some (next, s'))
    (read : Phase → β) (same : ∀ obj, read (into obj) = read phase) :
    SameWork s s' ∧ read next = read phase := by
  obtain ⟨⟨got, s₁⟩, handed, used⟩ := Option.map_eq_some_iff.mp taken
  have kept : SameWork s s₁ := by
    cases pool with
    | td =>
        obtain ⟨_, _, moved⟩ := Option.map_eq_some_iff.mp handed
        cases moved
        exact ⟨rfl, rfl, rfl, rfl, rfl⟩
    | buffer =>
        obtain ⟨_, _, moved⟩ := Option.map_eq_some_iff.mp handed
        cases moved
        exact ⟨rfl, rfl, rfl, rfl, rfl⟩
  cases got with
  | none =>
      cases used
      exact ⟨{ kept with }, rfl⟩
  | some obj =>
      cases used
      exact ⟨kept, same obj⟩

/-! ## The entries of `th_list` -/

inductive Worker where
  | job (i : Fin workers)
  | req (i : Fin workers)
  deriving DecidableEq

/-- Each round of `server_init_threads` appends a job thread and a request thread. -/
def thList : List Worker := (List.finRange workers).flatMap fun i => [.job i, .req i]

/-- A place in a block that `xmalloc` returned. -/
structure Address where
  block : Nat
  index : Nat
  deriving DecidableEq

/-- All entries are parts of one array. -/
def tids : Worker → Address
  | .job i => ⟨0, i⟩
  | .req i => ⟨0, i + workers⟩

/-! ## The three kinds of threads -/

/-- `main_server` and `do_shutdown`. `cleanup_server` has the entries from `p1` on
before it, and has freed these blocks. -/
inductive MainPhase where
  | accepting
  | accepted (client : Nat)
  | filled (td : Client)
  | stopping (k : Nat)
  | stoppingJob (k : Nat)
  | cleaning (p1 : List Worker) (freed : List Nat)
  | joined
  | crashed
  deriving DecidableEq

/-- `handle_req`, with `http_handle_read`, `http_error` and `http_response`. -/
inductive ReqPhase where
  | waiting
  | gotTd (td : ThreadData)
  | reading (td : Client) (b : Nat)
  | failing (td : Client) (b : Nat)
  | failingWith (td : Client) (b e : Nat)
  | responding (td : Client) (b e response : Nat)
  | responded (td : Client) (b e : Nat)
  | closing (td : Client) (b : Nat) (ending : Ending)
  | closed (td : Client) (b : Nat)
  | returning (td : Client)
  | parsed (td : Client) (b : Nat)
  | enqueueing (td : Client) (b out : Nat)
  | finishing (b : Nat)
  | exited
  deriving DecidableEq

/-- `handle_jobs`, with `http_response` and `job_complete`. -/
inductive JobPhase where
  | waiting
  | working (td : Client) (out : Nat)
  | responding (td : Client) (out response : Nat)
  | responded (td : Client) (out : Nat)
  | closed (td : Client) (out : Nat)
  | returning (td : Client)
  | exited
  deriving DecidableEq

/-- What `http_handle_read` finds: nothing to read or no known request, a query
it does not parse, or a request. -/
inductive ReadResult where
  | failed
  | badQuery
  | request
  deriving DecidableEq

/-- An access to a freed block, and a `free` of anything but the start of a block, is
the end of the process. -/
def mainStep (shutdown : Bool) (entries : Worker → Address) (exited : Worker → Bool) (s : Shared) :
    MainPhase → Option (MainPhase × Shared)
  | .accepting =>
      if shutdown then some (.stopping 0, s)
      else some (.accepted s.accepted, { s with accepted := s.accepted + 1 })
  | .accepted c => (tdPoolGetTd s).map (deref (.accepted c) fun obj => .filled ⟨obj, c⟩)
  | .filled td => some (.accepting, tdEnqueue (.client td) s)
  -- the loop of `server_stop_threads`, then that of `cleanup_server`
  | .stopping k =>
      if k < workers then some (.stoppingJob k, tdEnqueue (.stop k) s) else some (.cleaning thList [], s)
  | .stoppingJob k => some (.stopping (k + 1), workqEnqueueJob .stop s)
  | .cleaning [] _ => some (.joined, s)
  | .cleaning (p1 :: p2) freed =>
      if (entries p1).block ∈ freed then some (.crashed, s)
      -- `pthread_join`, and the `free` of the entry
      else if exited p1 then
        some (if (entries p1).index = 0 then .cleaning p2 ((entries p1).block :: freed) else .crashed, s)
      else none
  | .joined => none
  | .crashed => none

/-- `retire` is what a request thread does with a stop marker before it exits, and
`result` what its `read` returned. -/
def reqStep (retire : ThreadData → Shared → Shared) (result : ReadResult) (s : Shared) :
    ReqPhase → Option (ReqPhase × Shared)
  | .waiting => (tdWaitAndDequeue s).map fun (td, s) => (.gotTd td, s)
  | .gotTd (.stop k) => some (.exited, retire (.stop k) s)
  | .gotTd (.client td) =>
      (bufferPoolGetBuffer s).map (deref (.gotTd (.client td)) fun b => .reading td b)
  | .reading td b =>
      match result with
      | .failed => some (.closing td b .refused, s)
      | .badQuery => some (.failing td b, s)
      | .request => some (.parsed td b, s)
  | .failing td b => (bufferPoolGetBuffer s).map (deref (.failing td b) fun e => .failingWith td b e)
  | .failingWith td b e =>
      (bufferPoolGetBuffer s).map (deref (.failingWith td b e) fun r => .responding td b e r)
  | .responding td b e response => some (.responded td b e, bufferPoolJoinBuffer response s)
  | .responded td b e => some (.closing td b (.answered 400), bufferPoolJoinBuffer e s)
  | .closing td b ending => some (.closed td b, closeClient td ending s)
  | .closed td b => some (.returning td, bufferPoolJoinBuffer b s)
  | .returning td => some (.waiting, tdPoolJoinTd (.client td) s)
  | .parsed td b => (bufferPoolGetBuffer s).map (deref (.parsed td b) fun out => .enqueueing td b out)
  -- from here on the job owns `td`; it may be done before the read buffer is joined
  | .enqueueing td b out => some (.finishing b, workqEnqueueJob (.request td out) s)
  | .finishing b => some (.waiting, bufferPoolJoinBuffer b s)
  | .exited => none

def jobStart : Job → JobPhase
  | .request td out => .working td out
  | .stop => .exited

/-- The reply is written, or given up after five tries, before its buffer is joined. -/
def jobStep (s : Shared) : JobPhase → Option (JobPhase × Shared)
  | .waiting => (workqWaitAndDeqJob s).map fun (job, s) => (jobStart job, s)
  | .working td out =>
      (bufferPoolGetBuffer s).map (deref (.working td out) fun r => .responding td out r)
  | .responding td out response => some (.responded td out, bufferPoolJoinBuffer response s)
  | .responded td out => some (.closed td out, closeClient td (.answered 200) s)
  | .closed td out => some (.returning td, bufferPoolJoinBuffer out s)
  | .returning td => some (.waiting, tdPoolJoinTd (.client td) s)
  | .exited => none

structure Server where
  main : MainPhase
  req : Fin workers → ReqPhase
  job : Fin workers → JobPhase
  shared : Shared
  /-- Where the entries of `th_list` lie. -/
  entries : Worker → Address

inductive Action where
  | main (shutdown : Bool)
  | req (i : Fin workers) (result : ReadResult)
  | job (i : Fin workers)
  deriving DecidableEq

def exited (s : Server) : Worker → Bool
  | .job i => s.job i = .exited
  | .req i => s.req i = .exited

def step (retire : ThreadData → Shared → Shared) (s : Server) (action : Action) : Option Server :=
  if s.shared.aborted ∨ s.main = .crashed then none
  else match action with
    | .main shutdown =>
        (mainStep shutdown s.entries (exited s) s.shared s.main).map fun (phase, shared) =>
          { s with main := phase, shared := shared }
    | .req i result =>
        (reqStep retire result s.shared (s.req i)).map fun (phase, shared) =>
          { s with req := Function.update s.req i phase, shared := shared }
    | .job i =>
        (jobStep s.shared (s.job i)).map fun (phase, shared) =>
          { s with job := Function.update s.job i phase, shared := shared }

section Steps
variable {retire : ThreadData → Shared → Shared} {s next : Server}

theorem step_main {shutdown : Bool} (taken : step retire s (.main shutdown) = some next) :
    ∃ phase shared, mainStep shutdown s.entries (exited s) s.shared s.main = some (phase, shared) ∧
      next = { s with main := phase, shared := shared } := by
  rw [step.eq_def] at taken
  split at taken
  · contradiction
  · obtain ⟨⟨phase, shared⟩, moved, rfl⟩ := Option.map_eq_some_iff.mp taken
    exact ⟨phase, shared, moved, rfl⟩

theorem step_req {i : Fin workers} {result : ReadResult}
    (taken : step retire s (.req i result) = some next) :
    ∃ phase shared, reqStep retire result s.shared (s.req i) = some (phase, shared) ∧
      next = { s with req := Function.update s.req i phase, shared := shared } := by
  rw [step.eq_def] at taken
  split at taken
  · contradiction
  · obtain ⟨⟨phase, shared⟩, moved, rfl⟩ := Option.map_eq_some_iff.mp taken
    exact ⟨phase, shared, moved, rfl⟩

theorem step_job {i : Fin workers} (taken : step retire s (.job i) = some next) :
    ∃ phase shared, jobStep s.shared (s.job i) = some (phase, shared) ∧
      next = { s with job := Function.update s.job i phase, shared := shared } := by
  rw [step.eq_def] at taken
  split at taken
  · contradiction
  · obtain ⟨⟨phase, shared⟩, moved, rfl⟩ := Option.map_eq_some_iff.mp taken
    exact ⟨phase, shared, moved, rfl⟩

end Steps

section Cleanup
variable {shutdown : Bool} {entries : Worker → Address} {exited : Worker → Bool} {s s' : Shared}
  {next : MainPhase} {p1 : List Worker} {freed : List Nat}

/-- One round of `cleanup_server`. -/
inductive Round (entries : Worker → Address) (exited : Worker → Bool) :
    List Worker → List Nat → MainPhase → Prop where
  | finish (freed : List Nat) : Round entries exited [] freed .joined
  | free (p1 : Worker) (p2 : List Worker) (freed : List Nat) (live : (entries p1).block ∉ freed)
      (done : exited p1 = true) (starts : (entries p1).index = 0) :
      Round entries exited (p1 :: p2) freed (.cleaning p2 ((entries p1).block :: freed))
  | crash (p1 : Worker) (p2 : List Worker) (freed : List Nat)
      (faulty : (entries p1).block ∈ freed ∨ (entries p1).index ≠ 0) :
      Round entries exited (p1 :: p2) freed .crashed

theorem cleaning_round
    (taken : mainStep shutdown entries exited s (.cleaning p1 freed) = some (next, s')) :
    s' = s ∧ Round entries exited p1 freed next := by
  cases p1 with
  | nil =>
      cases taken
      exact ⟨rfl, .finish freed⟩
  | cons p1 p2 =>
      rw [mainStep] at taken
      split at taken
      · next stale =>
          cases taken
          exact ⟨rfl, .crash p1 p2 freed (Or.inl stale)⟩
      · next live =>
          split at taken
          · next done =>
              cases taken
              refine ⟨rfl, ?_⟩
              by_cases starts : (entries p1).index = 0
              · rw [if_pos starts]
                exact .free p1 p2 freed live done starts
              · rw [if_neg starts]
                exact .crash p1 p2 freed (Or.inr starts)
          · contradiction

end Cleanup

/-- The server as `main_server` sets it up, but for where the entries of `th_list` lie. -/
def startWith (entries : Worker → Address) : Server where
  main := .accepting
  req := fun _ => .waiting
  job := fun _ => .waiting
  shared := {
    tdList := []
    queue := []
    tds := (populate tdPoolAmp tdPoolMaxTd Pool.empty).getD Pool.empty
    buffers := (populate bufferAmp maxBuffers Pool.empty).getD Pool.empty
    accepted := 0
    closings := []
    joins := []
    aborted := false }
  entries := entries

/-- The server as `main_server` sets it up. -/
def start : Server := startWith tids

/-! ## What a thread holds, and what the lists carry -/

inductive Resource where
  | td (obj : Nat)
  | buffer (b : Nat)
  | connection (client : Nat)
  deriving DecidableEq

def PoolName.names : PoolName → Nat → Resource
  | .td => .td
  | .buffer => .buffer

def Client.holds (td : Client) : List Resource := [.td td.obj, .connection td.client]

def ThreadData.holds : ThreadData → List Resource
  | .client td => td.holds
  | .stop _ => []

def Job.holds : Job → List Resource
  | .request td out => .buffer out :: td.holds
  | .stop => []

def MainPhase.holds : MainPhase → List Resource
  | .accepted c => [.connection c]
  | .filled td => td.holds
  | _ => []

def ReqPhase.holds : ReqPhase → List Resource
  | .gotTd td => td.holds
  | .reading td b | .failing td b | .closing td b _ | .parsed td b => .buffer b :: td.holds
  | .failingWith td b e | .responded td b e => .buffer e :: .buffer b :: td.holds
  | .responding td b e response => .buffer response :: .buffer e :: .buffer b :: td.holds
  | .closed td b => [.buffer b, .td td.obj]
  | .returning td => [.td td.obj]
  | .enqueueing td b out => .buffer out :: .buffer b :: td.holds
  | .finishing b => [.buffer b]
  | .waiting | .exited => []

def JobPhase.holds : JobPhase → List Resource
  | .working td out | .responded td out => .buffer out :: td.holds
  | .responding td out response => .buffer response :: .buffer out :: td.holds
  | .closed td out => [.buffer out, .td td.obj]
  | .returning td => [.td td.obj]
  | .waiting | .exited => []

end Ttracker.ServerThreads
