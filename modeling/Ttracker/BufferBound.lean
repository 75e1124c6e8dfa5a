import Ttracker.Serving

/-!
How many buffers are in use at one time. A request thread holds at most three
and a job thread two; what else is in use is the output of a job in the queue,
and each of those jobs has its `thread_data`, of which there are at most sixteen.
-/
namespace Ttracker.BufferBound
open ObjectPools ServerThreads Holdings PoolJoins Shutdown Serving TransitionRuns

def bufferName : Resource → Option Nat
  | .buffer b => some b
  | _ => none

def tdName : Resource → Option Nat
  | .td obj => some obj
  | _ => none

/-- There is a buffer for whoever asks, and only a thread with nothing to do waits. -/
structure Roomy (s : Server) : Prop where
  below : s.shared.buffers.inUse < maxBuffers
  gets : ∃ b shared, bufferPoolGetBuffer s.shared = some (some b, shared)
  requests : ∀ i result, s.req i ≠ .waiting → (serve s (.req i result)).isSome
  jobs : ∀ i, s.job i ≠ .waiting → (serve s (.job i)).isSome
  moves : ∃ action, (serve s action).isSome

theorem buffer_named (r : Resource) (b : Nat) : bufferName r = some b ↔ r = .buffer b := by
  cases r <;> simp [bufferName]

theorem td_named (r : Resource) (obj : Nat) : tdName r = some obj ↔ r = .td obj := by
  cases r <;> simp [tdName]

theorem req_buffers (phase : ReqPhase) : (phase.holds.filterMap bufferName).length ≤ 3 := by
  cases phase with
  | gotTd td => cases td <;> simp [ReqPhase.holds, ThreadData.holds, Client.holds, List.filterMap_cons, bufferName]
  | _ => simp [ReqPhase.holds, Client.holds, List.filterMap_cons, bufferName]

theorem job_buffers (phase : JobPhase) : (phase.holds.filterMap bufferName).length ≤ 2 := by
  cases phase <;> simp [JobPhase.holds, Client.holds, List.filterMap_cons, bufferName]

theorem main_buffers (phase : MainPhase) : phase.holds.filterMap bufferName = [] := by
  cases phase <;> simp [MainPhase.holds, Client.holds, List.filterMap_cons, bufferName]

theorem list_buffers (tdList : List ThreadData) :
    (tdList.flatMap ThreadData.holds).filterMap bufferName = [] := by
  induction tdList with
  | nil => rfl
  | cons td rest ih => cases td <;> simp [ThreadData.holds, Client.holds, List.filterMap_cons, bufferName, ih]

/-- Each job in the queue has one output and one `thread_data`. -/
theorem queue_buffers (queue : List Job) :
    ((queue.flatMap Job.holds).filterMap bufferName).length =
      ((queue.flatMap Job.holds).filterMap tdName).length := by
  induction queue with
  | nil => rfl
  | cons job rest ih => cases job <;> simp [Job.holds, Client.holds, List.filterMap_cons, bufferName, tdName, ih]

section States
variable {s : Server}

theorem queue_tds (inv : Inv s) :
    ((s.shared.queue.flatMap Job.holds).filterMap tdName).length ≤ tdPoolMaxTd := by
  have kept : ∀ obj, heldIn Job.holds s.shared.queue (.td obj) ≤ (busy s.shared.tds obj).toNat := by
    intro obj
    have balance := inv.balanced (.td obj)
    simp only [books, issued] at balance
    omega
  have listed : ∀ obj ∈ (s.shared.queue.flatMap Job.holds).filterMap tdName,
      obj < s.shared.tds.num := by
    intro obj member
    obtain ⟨r, inside, named⟩ := List.mem_filterMap.mp member
    obtain rfl := (td_named r obj).mp named
    have counted := List.count_pos_iff.mpr inside
    have used : busy s.shared.tds obj = true := by
      have below := kept obj
      cases status : busy s.shared.tds obj with
      | true => rfl
      | false =>
          simp only [status, Bool.toNat_false, heldIn] at below
          omega
    exact inv.sound.tds.old obj (List.mem_map_of_mem ((busy_iff _ _).mp used))
  have all : ((s.shared.queue.flatMap Job.holds).filterMap tdName).length =
      ((s.shared.queue.flatMap Job.holds).filterMap tdName).countP (· < s.shared.tds.num) := by
    rw [eq_comm, List.countP_eq_length]
    simpa using listed
  calc ((s.shared.queue.flatMap Job.holds).filterMap tdName).length
      = ∑ obj ∈ Finset.range s.shared.tds.num, heldIn Job.holds s.shared.queue (.td obj) :=
        all.trans (sum_count td_named _ _).symm
    _ ≤ ∑ obj ∈ Finset.range s.shared.tds.num, (busy s.shared.tds obj).toNat :=
        Finset.sum_le_sum fun obj _ => kept obj
    _ = s.shared.tds.inUse := (inUse_sum inv.sound.tds).symm
    _ ≤ tdPoolMaxTd := (inUse_le inv.sound.tds).trans inv.sound.tds.within

theorem buffers_below (inv : Inv s) : s.shared.buffers.inUse < maxBuffers := by
  have issues : ∀ b, (busy s.shared.buffers b).toNat =
      s.main.holds.count (.buffer b) + heldBy ReqPhase.holds s.req (.buffer b) +
        heldBy JobPhase.holds s.job (.buffer b) +
          (heldIn ThreadData.holds s.shared.tdList (.buffer b) +
            heldIn Job.holds s.shared.queue (.buffer b)) := by
    intro b
    have balance := inv.balanced (.buffer b)
    simp only [books, held, issued, settled] at balance
    omega
  have main := sum_count_le buffer_named s.shared.buffers.num s.main.holds
  have requests := sum_heldBy_le buffer_named s.shared.buffers.num ReqPhase.holds s.req 3
    fun i => req_buffers (s.req i)
  have jobs := sum_heldBy_le buffer_named s.shared.buffers.num JobPhase.holds s.job 2
    fun i => job_buffers (s.job i)
  have listed := sum_count_le buffer_named s.shared.buffers.num
    (s.shared.tdList.flatMap ThreadData.holds)
  have queued := sum_count_le buffer_named s.shared.buffers.num
    (s.shared.queue.flatMap Job.holds)
  have tds := queue_tds inv
  rw [main_buffers, List.length_nil] at main
  rw [list_buffers, List.length_nil] at listed
  rw [queue_buffers] at queued
  rw [Fintype.card_fin] at requests jobs
  rw [inUse_sum inv.sound.buffers, Finset.sum_congr rfl fun b _ => issues b]
  simp only [Finset.sum_add_distrib, heldIn, workers, tdPoolMaxTd, maxBuffers] at *
  omega

theorem get_buffer_room (inv : Inv s) :
    ∃ b shared, bufferPoolGetBuffer s.shared = some (some b, shared) := by
  obtain ⟨b, buffers, taken⟩ := take_room (by decide) (by decide) inv.sound.buffers
    (buffers_below inv)
  exact ⟨b, _, by rw [bufferPoolGetBuffer, taken, Option.map_some]⟩

theorem req_moves (serving : Open s) (i : Fin workers) (result : ReadResult)
    (busy : s.req i ≠ .waiting) : (serve s (.req i result)).isSome := by
  obtain ⟨b, shared, got⟩ := get_buffer_room serving.toInv
  have live := serving.req i
  have running := serving.sound.running
  have going := open_going serving
  cases phase : s.req i with
  | waiting => exact absurd phase busy
  | exited =>
      rw [phase] at live
      contradiction
  | gotTd td => cases td <;> simp [serve, step, running, going, phase, reqStep, got]
  | reading td b => cases result <;> simp [serve, step, running, going, phase, reqStep]
  | _ => simp [serve, step, running, going, phase, reqStep, got]

theorem job_moves (serving : Open s) (i : Fin workers) (busy : s.job i ≠ .waiting) :
    (serve s (.job i)).isSome := by
  obtain ⟨b, shared, got⟩ := get_buffer_room serving.toInv
  have live := serving.job i
  have running := serving.sound.running
  have going := open_going serving
  cases phase : s.job i with
  | waiting => exact absurd phase busy
  | exited =>
      rw [phase] at live
      contradiction
  | _ => simp [serve, step, running, going, phase, jobStep, got]

/-- With nothing in the lists and every worker waiting, all `thread_data` are free. -/
theorem main_moves (serving : Open s) (reqs : ∀ i, s.req i = .waiting)
    (jobs : ∀ i, s.job i = .waiting) (tdList : s.shared.tdList = []) (queue : s.shared.queue = []) :
    (serve s (.main false)).isSome := by
  have early := serving.early
  have running := serving.sound.running
  cases phase : s.main with
  | accepting => simp [serve, step, running, phase, mainStep]
  | filled td => simp [serve, step, running, phase, mainStep]
  | accepted c =>
      have free : ∀ obj, (busy s.shared.tds obj).toNat = 0 := by
        intro obj
        have balance := serving.balanced (.td obj)
        have reqIdle := heldBy_empty ReqPhase.holds s.req (.td obj) fun i => by rw [reqs i]; rfl
        have jobIdle := heldBy_empty JobPhase.holds s.job (.td obj) fun i => by rw [jobs i]; rfl
        simpa [books, held, issued, settled, reqIdle, jobIdle, tdList, queue, phase,
          MainPhase.holds] using balance.symm
      have idle : s.shared.tds.inUse = 0 := by
        rw [inUse_sum serving.sound.tds]
        exact Finset.sum_eq_zero fun obj _ => free obj
      obtain ⟨obj, tds, taken⟩ := take_room (by decide) (by decide) serving.sound.tds
        (by rw [idle]; decide)
      simp [serve, step, running, phase, mainStep, tdPoolGetTd, taken]
  | stopping | stoppingJob | cleaning | joined | crashed =>
      rw [phase] at early
      contradiction

theorem someone_moves (serving : Open s) : ∃ action, (serve s action).isSome := by
  have going := open_going serving
  by_cases reqs : ∀ i, s.req i = .waiting
  · by_cases jobs : ∀ i, s.job i = .waiting
    · cases tdList : s.shared.tdList with
      | cons td rest =>
          exact ⟨.req 0 .request, by
            simp [serve, step, serving.sound.running, going, reqs, reqStep, tdWaitAndDequeue, tdList]⟩
      | nil =>
          cases queue : s.shared.queue with
          | cons job rest =>
              exact ⟨.job 0, by
                simp [serve, step, serving.sound.running, going, jobs, jobStep, workqWaitAndDeqJob, queue]⟩
          | nil => exact ⟨.main false, main_moves serving reqs jobs tdList queue⟩
    · obtain ⟨i, busy⟩ := not_forall.mp jobs
      exact ⟨.job i, job_moves serving i busy⟩
  · obtain ⟨i, busy⟩ := not_forall.mp reqs
    exact ⟨.req i .request, req_moves serving i .request busy⟩

end States

/-- In every state the server reaches before a shutdown the buffers suffice: no
thread ever waits for one, and some thread can always go on. -/
theorem buffers_suffice (run : List Action) : Throughout serve Roomy start run := by
  apply throughout_always serve Roomy Open
  · intro s serving
    exact {
      below := buffers_below serving.toInv
      gets := get_buffer_room serving.toInv
      requests := req_moves serving
      jobs := job_moves serving
      moves := someone_moves serving }
  · exact fun _ _ _ => serve_keeps
  · exact start_open

end Ttracker.BufferBound
