import Ttracker.ServerThreads
import Ttracker.SignalledLists

/-!
The work queue and the td list as lists under a mutex. `push` is
`workq_enqueue_job` or `td_enqueue`, `signal` is `workq_wakeup` or `td_wakeup`,
and `look` is one round of `workq_wait_and_deq_job` or `td_wait_and_dequeue`. The
number of threads is arbitrary here, and a thread may both fill and empty a list.
-/
namespace Ttracker.WorkQueues
open SignalledLists TransitionRuns ServerThreads

def stopJob : Job → Bool
  | .request .. => false
  | .stop => true

/-- `TAILQ_INSERT_TAIL`. -/
def workqueue : Discipline Job where
  push item items := items ++ [item]
  stops := stopJob
  keeps _ _ := List.perm_append_singleton ..

/-- `LIST_INSERT_HEAD`. -/
def tlist : Discipline ThreadData where
  push item items := item :: items
  stops := tdNull
  keeps _ _ := List.Perm.refl _

section Server
variable {Producer Consumer : Type} [DecidableEq Consumer]

/-! The two lists of the server, with the tickets forgotten, are emptied and
filled this way. -/

theorem workq_deq_looks (s : Guarded Job Producer Consumer) (shared : Shared) (c : Consumer)
    (same : shared.queue = s.items.map Prod.snd) :
    match workqWaitAndDeqJob shared with
    | none => look workqueue s c =
        { s with consumers := Function.update s.consumers c .waiting }
    | some (job, shared') => shared'.queue = (look workqueue s c).items.map Prod.snd ∧
        (look workqueue s c).consumers c = if stopJob job then .exited else .working job := by
  cases list : s.items with
  | nil => simp [workqWaitAndDeqJob, look, list, same]
  | cons item rest =>
      simp only [workqWaitAndDeqJob, look, list, same, List.map_cons, Function.update_self, true_and]
      rfl

theorem td_dequeue_looks (s : Guarded ThreadData Producer Consumer) (shared : Shared) (c : Consumer)
    (same : shared.tdList = s.items.map Prod.snd) :
    match tdWaitAndDequeue shared with
    | none => look tlist s c = { s with consumers := Function.update s.consumers c .waiting }
    | some (td, shared') => shared'.tdList = (look tlist s c).items.map Prod.snd ∧
        (look tlist s c).consumers c = if tdNull td then .exited else .working td := by
  cases list : s.items with
  | nil => simp [tdWaitAndDequeue, look, list, same]
  | cons item rest =>
      simp only [tdWaitAndDequeue, look, list, same, List.map_cons, Function.update_self, true_and]
      rfl

variable [DecidableEq Producer] [Fintype Consumer]

theorem workq_enqueue_pushes (s t : Guarded Job Producer Consumer) (shared : Shared) (p : Producer)
    (job : Job) (same : shared.queue = s.items.map Prod.snd)
    (taken : step workqueue s (.push p job) = some t) :
    (workqEnqueueJob job shared).queue = t.items.map Prod.snd := by
  simp only [SignalledLists.step] at taken
  split at taken
  · contradiction
  · cases taken
    simp [workqEnqueueJob, workqueue, same]

theorem td_enqueue_pushes (s t : Guarded ThreadData Producer Consumer) (shared : Shared)
    (p : Producer) (td : ThreadData) (same : shared.tdList = s.items.map Prod.snd)
    (taken : step tlist s (.push p td) = some t) :
    (tdEnqueue td shared).tdList = t.items.map Prod.snd := by
  simp only [SignalledLists.step] at taken
  split at taken
  · contradiction
  · cases taken
    simp [tdEnqueue, tlist, same]

end Server

/-- Whatever the producers and the consumers do, both lists deliver, and the work
queue does so in the order of its producers. -/
theorem queues_deliver (Producer Consumer : Type) [DecidableEq Producer] [DecidableEq Consumer]
    [Fintype Producer] [Fintype Consumer] :
    (∀ run : List (SignalledLists.Action Job Producer Consumer),
      Throughout (step workqueue) Delivers start run ∧
      Throughout (step workqueue) (fun s => s.taken ++ s.items = s.pushed) start run) ∧
    ∀ run : List (SignalledLists.Action ThreadData Producer Consumer),
      Throughout (step tlist) Delivers start run := by
  constructor
  · intro run
    exact ⟨run_delivers workqueue run, run_in_order workqueue (fun _ _ => rfl) run⟩
  · exact run_delivers tlist

end Ttracker.WorkQueues
