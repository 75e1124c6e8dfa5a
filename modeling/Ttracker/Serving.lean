import Ttracker.Shutdown

/-!
The server before a shutdown: there are no markers in its lists, and all its
threads are still there.
-/
namespace Ttracker.Serving
open ServerThreads PoolJoins Shutdown TransitionRuns

/-- The steps of the server as long as it is not asked to stop. -/
def serve (s : Server) : Action → Option Server
  | .main true => none
  | action => step tdPoolJoinTd s action

structure Open (s : Server) : Prop extends Inv s where
  early : early s.main = true
  clients : ∀ td ∈ s.shared.tdList, isClient td = true
  requests : ∀ job ∈ s.shared.queue, isRequest job = true
  req : ∀ i, reqLive (s.req i) = true
  job : ∀ i, jobLive (s.job i) = true

variable {s next : Server} {action : Action}

theorem serve_step (taken : serve s action = some next) :
    step tdPoolJoinTd s action = some next ∧ action ≠ .main true := by
  unfold serve at taken
  split at taken
  · contradiction
  · next running => exact ⟨taken, running⟩

theorem no_marker (serving : Open s) (i : Fin workers) (k : Nat) : s.req i ≠ .gotTd (.stop k) := by
  intro got
  have live := serving.req i
  rw [got] at live
  contradiction

theorem open_going (serving : Open s) : s.main ≠ .crashed := by
  intro crashed
  have before := serving.early
  rw [crashed] at before
  contradiction

theorem main_early {shared : Shared} {entries : Worker → Address} {exited : Worker → Bool}
    {phase : MainPhase} (before : early s.main = true)
    (moved : mainStep false entries exited s.shared s.main = some (phase, shared)) :
    early phase = true := by
  cases main : s.main with
  | accepting =>
      rw [main] at moved
      cases moved
      rfl
  | accepted c =>
      rw [main] at moved
      exact (get_keeps .td moved early fun _ => rfl).2
  | filled td =>
      rw [main] at moved
      cases moved
      rfl
  | stopping | stoppingJob | cleaning | joined | crashed =>
      rw [main] at before
      contradiction

theorem serve_keeps (serving : Open s) (taken : serve s action = some next) : Open next := by
  obtain ⟨taken, running⟩ := serve_step taken
  have inv : Inv next := step_keeps serving.toInv
    (fun i _ k _ got => absurd got (no_marker serving i k)) taken
  cases action with
  | main shutdown =>
      obtain rfl : shutdown = false := by simpa using running
      obtain ⟨phase, shared, moved, rfl⟩ := step_main taken
      have still := main_early serving.early moved
      refine { inv with
        early := still, clients := ?_, requests := ?_, req := serving.req, job := serving.job }
      · cases main_step_effect moved with
        | quiet lists => exact lists.tdList ▸ serving.clients
        | client td filled tdList =>
            rw [tdList]
            simpa [isClient, tdNull] using serving.clients
        | marker k tdList queue late => exact absurd still (by simp [late])
        | stopJob tdList queue late => exact absurd still (by simp [late])
      · cases main_step_effect moved with
        | quiet lists => exact lists.queue ▸ serving.requests
        | client td filled tdList queue => exact queue ▸ serving.requests
        | marker k tdList queue late => exact absurd still (by simp [late])
        | stopJob tdList queue late => exact absurd still (by simp [late])
  | req i result =>
      obtain ⟨phase, shared, moved, rfl⟩ := step_req taken
      have effect := req_step_effect (fun k => ⟨rfl, rfl⟩) moved
      obtain ⟨clients, live⟩ := req_serves effect serving.clients serving.req
      refine { inv with
        early := serving.early, clients := clients, requests := ?_, req := live, job := serving.job }
      cases effect with
      | quiet lists => exact lists.queue ▸ serving.requests
      | took td waits got tdList queue => exact queue ▸ serving.requests
      | queued td b out enqueues done tdList queue =>
          intro job member
          rw [queue, List.mem_append, List.mem_singleton] at member
          rcases member with old | rfl
          · exact serving.requests job old
          · rfl
  | job i =>
      obtain ⟨phase, shared, moved, rfl⟩ := step_job taken
      have effect := job_step_effect moved
      have live : jobLive phase = true := by
        cases effect with
        | quiet lists same => exact same ▸ serving.job i
        | took job waits got tdList queue =>
            have request := serving.requests job (queue ▸ List.mem_cons_self)
            cases job with
            | request td out =>
                rw [got]
                rfl
            | stop => contradiction
      refine { inv with
        early := serving.early, clients := ?_, requests := ?_, req := serving.req, job := ?_ }
      · cases effect with
        | quiet lists => exact lists.tdList ▸ serving.clients
        | took job waits got tdList queue => exact tdList ▸ serving.clients
      · cases effect with
        | quiet lists => exact lists.queue ▸ serving.requests
        | took job waits got tdList queue =>
            intro other member
            exact serving.requests other (queue ▸ List.mem_cons_of_mem job member)
      · intro j
        by_cases same : j = i
        · subst same
          simpa using live
        · simpa [same] using serving.job j

theorem start_open : Open start :=
  { start_inv tids with
    early := rfl
    clients := fun _ member => absurd member List.not_mem_nil
    requests := fun _ member => absurd member List.not_mem_nil
    req := fun _ => rfl
    job := fun _ => rfl }

end Ttracker.Serving
