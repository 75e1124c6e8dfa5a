import Ttracker.ServerLoad

/-!
How a shutdown ends once every `read` and `write` has returned. Each request thread
that still comes back to the td list has a stop marker of its own, in the list or
still to be made, and each job thread a stop job, so with markers that only end
their thread, and entries of `th_list` that are freed one by one, all threads are
joined. The code's request threads join the marker to a pool it was never in, and
its main thread frees the array of the entries with the first of them.
-/
namespace Ttracker.ShutdownEnds
open ObjectPools ServerThreads Holdings PoolJoins Shutdown Serving BufferBound ServerLoad
  TransitionRuns DrainingRuns

/-- The steps of the server once the shutdown flag is set. -/
def closeDown (retire : ThreadData → Shared → Shared) (s : Server) : Action → Option Server
  | .main false => none
  | action => step retire s action

def markersLeft : MainPhase → Nat
  | .stopping k => workers - k
  | .stoppingJob k => workers - (k + 1)
  | .cleaning _ _ | .joined | .crashed => 0
  | _ => workers

def stopsLeft : MainPhase → Nat
  | .stopping k | .stoppingJob k => workers - k
  | .cleaning _ _ | .joined | .crashed => 0
  | _ => workers

/-- The loop counter of `server_stop_threads` stays in its range. -/
def counting : MainPhase → Prop
  | .stopping k => k ≤ workers
  | .stoppingJob k => k < workers
  | _ => True

def reqComes (phase : ReqPhase) : Nat := (reqLive phase).toNat

def jobComes (phase : JobPhase) : Nat := (jobLive phase).toNat

def isStop (job : Job) : Bool := !isRequest job

/-- A thread that will take a marker, or a stop job, has one. -/
structure Marked (s : Server) : Prop extends Orderly s where
  counting : counting s.main
  markers : threadsWeigh reqComes s.req =
    s.shared.tdList.countP tdNull + markersLeft s.main
  stops : threadsWeigh jobComes s.job =
    s.shared.queue.countP isStop + stopsLeft s.main

/-- The steps the main thread has left when it is to stop, and what it hands over. -/
def mainLoad : MainPhase → Nat
  | .accepted _ => 45
  | .filled _ => 44
  | .accepting => 31
  | .stopping k => 5 * (workers - k) + 10
  | .stoppingJob k => 5 * (workers - (k + 1)) + 12
  | .cleaning p1 _ => p1.length + 1
  | .joined | .crashed => 0

def remaining (s : Server) : Nat := mainLoad s.main + load s

section Marked
variable {s next : Server}

theorem main_marked {shutdown : Bool} (marked : Marked s)
    (taken : step endsThread s (.main shutdown) = some next) : Marked next := by
  have orderly := orderly_step marked.toOrderly taken
  obtain ⟨phase, shared, moved, rfl⟩ := step_main taken
  have counts := marked.counting
  have markers := marked.markers
  have stops := marked.stops
  cases main : s.main with
  | accepting =>
      rw [main] at moved markers stops
      rw [mainStep] at moved
      split at moved <;> cases moved
      · exact { orderly with counting := Nat.zero_le _, markers := markers, stops := stops }
      · exact { orderly with counting := trivial, markers := markers, stops := stops }
  | accepted c =>
      rw [main] at moved markers stops
      have kept := (get_keeps .td moved (fun _ => ()) fun _ => rfl).1
      obtain ⟨obj, rfl, -⟩ := get_exchanges .td marked.sound moved
      exact { orderly with
        counting := trivial
        markers := by simpa [kept.tdList, markersLeft] using markers
        stops := by simpa [kept.queue, stopsLeft] using stops }
  | filled td =>
      rw [main] at moved markers stops
      cases moved
      exact { orderly with
        counting := trivial
        markers := by simpa [tdEnqueue, tdNull, markersLeft] using markers
        stops := stops }
  | stopping k =>
      rw [main] at moved markers stops counts
      rw [mainStep] at moved
      split at moved
      · next more =>
          cases moved
          refine { orderly with counting := more, markers := ?_, stops := stops }
          simp only [tdEnqueue, List.countP_cons, tdNull, if_true, markersLeft, workers] at *
          omega
      · cases moved
        have none : workers - k = 0 := by omega
        simp only [markersLeft, stopsLeft, none] at markers stops
        exact { orderly with counting := trivial, markers := markers, stops := stops }
  | stoppingJob k =>
      rw [main] at moved markers stops counts
      cases moved
      have less : k < workers := counts
      refine { orderly with counting := less, markers := markers, stops := ?_ }
      have pushed : isStop .stop = true := rfl
      simp only [stopsLeft, workqEnqueueJob, List.countP_append, List.countP_singleton, pushed,
        if_true] at stops ⊢
      omega
  | cleaning p1 freed =>
      rw [main] at moved markers stops
      obtain ⟨rfl, round⟩ := cleaning_round moved
      cases round <;> exact { orderly with counting := trivial, markers := markers, stops := stops }
  | joined | crashed =>
      rw [main] at moved
      contradiction

theorem req_marked {i : Fin workers} {result : ReadResult} (marked : Marked s)
    (taken : step endsThread s (.req i result) = some next) : Marked next := by
  have orderly := orderly_step marked.toOrderly taken
  obtain ⟨phase, shared, moved, rfl⟩ := step_req taken
  have update := threads_weigh_update reqComes s.req i phase
  have markers := marked.markers
  have stops := marked.stops
  refine { orderly with counting := marked.counting, markers := ?_, stops := ?_ }
  · cases req_step_effect (fun _ => ⟨rfl, rfl⟩) moved with
    | quiet lists live =>
        rw [reqComes, reqComes, live] at update
        rw [lists.tdList]
        simp only
        omega
    | took td waits got tdList =>
        subst got
        rw [tdList, List.countP_cons] at markers
        rw [waits] at update
        cases td with
        | client td => exact (Nat.add_right_cancel update).trans markers
        | stop k =>
            have comes : reqComes .waiting = 1 := rfl
            have leaves : reqComes (.gotTd (.stop k)) = 0 := rfl
            have marker : tdNull (.stop k) = true := rfl
            rw [comes, leaves] at update
            rw [if_pos marker] at markers
            simp only
            omega
    | queued td b out enqueues done tdList =>
        subst done
        rw [enqueues] at update
        rw [tdList]
        exact (Nat.add_right_cancel update).trans markers
  · cases req_step_effect (fun _ => ⟨rfl, rfl⟩) moved with
    | quiet lists => rw [lists.queue]; exact stops
    | took td waits got tdList queue => rw [queue]; exact stops
    | queued td b out enqueues done tdList queue =>
        rw [queue]
        simpa [isStop, isRequest] using stops

theorem job_marked {i : Fin workers} (marked : Marked s)
    (taken : step endsThread s (.job i) = some next) : Marked next := by
  have orderly := orderly_step marked.toOrderly taken
  obtain ⟨phase, shared, moved, rfl⟩ := step_job taken
  have update := threads_weigh_update jobComes s.job i phase
  have markers := marked.markers
  have stops := marked.stops
  refine { orderly with counting := marked.counting, markers := ?_, stops := ?_ }
  · cases job_step_effect moved with
    | quiet lists => rw [lists.tdList]; exact markers
    | took job waits got tdList queue => rw [tdList]; exact markers
  · cases job_step_effect moved with
    | quiet lists live =>
        rw [jobComes, jobComes, live] at update
        rw [lists.queue]
        simp only
        omega
    | took job waits got tdList queue =>
        subst got
        rw [queue, List.countP_cons] at stops
        rw [waits] at update
        cases job with
        | request td out => exact (Nat.add_right_cancel update).trans stops
        | stop =>
            have comes : jobComes .waiting = 1 := rfl
            have leaves : jobComes (jobStart .stop) = 0 := rfl
            have marker : isStop .stop = true := rfl
            rw [comes, leaves] at update
            rw [if_pos marker] at stops
            simp only
            omega

theorem step_marked {action : Action} (marked : Marked s)
    (taken : step endsThread s action = some next) : Marked next := by
  cases action with
  | main shutdown => exact main_marked marked taken
  | req i result => exact req_marked marked taken
  | job i => exact job_marked marked taken

theorem start_marked (entries : Worker → Address) : Marked (startWith entries) :=
  { start_orderly entries with counting := trivial, markers := rfl, stops := rfl }

theorem req_comes_le (phase : ReqPhase) : reqComes phase ≤ 1 := Bool.toNat_le _

theorem job_comes_le (phase : JobPhase) : jobComes phase ≤ 1 := Bool.toNat_le _

/-- Before the shutdown every thread is there and nothing marks an end. -/
theorem marked_open (marked : Marked s) (running : early s.main = true) : Open s := by
  have markers := marked.markers
  have stops := marked.stops
  have left : markersLeft s.main = workers ∧ stopsLeft s.main = workers := by
    cases main : s.main <;> simp [main, early] at running <;> exact ⟨rfl, rfl⟩
  rw [left.1] at markers
  rw [left.2] at stops
  have reqs : ∀ i, reqComes (s.req i) = 1 :=
    threads_weigh_full req_comes_le (by rw [Fintype.card_fin]; omega)
  have jobs : ∀ i, jobComes (s.job i) = 1 :=
    threads_weigh_full job_comes_le (by rw [Fintype.card_fin]; omega)
  have most : threadsWeigh jobComes s.job ≤
      0 * threadsWeigh jobComes s.job + Fintype.card (Fin workers) * 1 :=
    threads_weigh_le 0 1 s.job fun phase => by simpa using job_comes_le phase
  rw [Fintype.card_fin] at most
  refine { marked.toInv with
    early := running
    clients := marked.unmarked running
    requests := fun job member => ?_
    req := fun i => Bool.toNat_eq_one.mp (reqs i)
    job := fun i => Bool.toNat_eq_one.mp (jobs i) }
  have none : s.shared.queue.countP isStop = 0 := by omega
  simpa [isStop] using List.countP_eq_zero.mp none job member

end Marked

/-! ## Nobody is left waiting -/

section Stuck
variable {retire : ThreadData → Shared → Shared} {s next : Server} {action : Action}

/-- What is done with a marker does not keep a thread from moving. -/
theorem req_step_isSome (retire other : ThreadData → Shared → Shared) (result : ReadResult)
    (shared : Shared) (phase : ReqPhase) :
    (reqStep retire result shared phase).isSome = (reqStep other result shared phase).isSome := by
  cases phase with
  | gotTd td => cases td <;> rfl
  | _ => rfl

theorem step_req_isSome (running : s.shared.aborted = false) (going : s.main ≠ .crashed)
    (i : Fin workers) (result : ReadResult) : (step retire s (.req i result)).isSome =
      (reqStep endsThread result s.shared (s.req i)).isSome := by
  rw [step, if_neg (by simp [running, going]), Option.isSome_map, req_step_isSome retire endsThread]

theorem req_goes_on (inv : Inv s) (going : s.main ≠ .crashed) (i : Fin workers)
    (waits : s.req i ≠ .waiting) (stays : s.req i ≠ .exited) :
    (step retire s (.req i .request)).isSome := by
  obtain ⟨b, shared, got⟩ := get_buffer_room inv
  rw [step_req_isSome inv.sound.running going]
  cases phase : s.req i with
  | waiting => exact absurd phase waits
  | exited => exact absurd phase stays
  | gotTd td => cases td <;> simp [reqStep, got]
  | _ => simp [reqStep, got]

theorem job_goes_on (inv : Inv s) (going : s.main ≠ .crashed) (i : Fin workers)
    (waits : s.job i ≠ .waiting) (stays : s.job i ≠ .exited) : (step retire s (.job i)).isSome := by
  obtain ⟨b, shared, got⟩ := get_buffer_room inv
  have running := inv.sound.running
  cases phase : s.job i with
  | waiting => exact absurd phase waits
  | exited => exact absurd phase stays
  | _ => simp [step, running, going, phase, jobStep, got]

/-- A server that serves can also move when it is asked to stop. -/
theorem open_closes (serving : Open s) : ∃ action, (closeDown retire s action).isSome := by
  obtain ⟨action, moves⟩ := someone_moves serving
  have running := serving.sound.running
  have going := open_going serving
  cases action with
  | main shutdown =>
      cases shutdown with
      | true => contradiction
      | false =>
          refine ⟨.main true, ?_⟩
          have before := serving.early
          cases main : s.main with
          | accepting => simp [closeDown, step, running, main, mainStep]
          | accepted c => simpa [serve, closeDown, step, running, main, mainStep] using moves
          | filled td => simp [closeDown, step, running, main, mainStep]
          | stopping | stoppingJob | cleaning | joined | crashed => simp [main, early] at before
  | req i result =>
      refine ⟨.req i result, ?_⟩
      have moved : (step tdPoolJoinTd s (.req i result)).isSome := moves
      rw [step_req_isSome running going] at moved
      have same : (step retire s (.req i result)).isSome = _ := step_req_isSome running going i result
      exact same.trans moved
  | job i =>
      refine ⟨.job i, ?_⟩
      simpa [serve, closeDown, step, running, going] using moves

/-- A thread that waits would have its marker in a list that is empty. -/
theorem stuck_workers (marked : Marked s) (going : s.main ≠ .crashed)
    (none : markersLeft s.main = 0 ∧ stopsLeft s.main = 0) (stuck : Stuck (closeDown retire) s)
    (worker : Worker) : exited s worker = true := by
  have running := marked.sound.running
  have markers := marked.markers
  have stops := marked.stops
  rw [none.1, Nat.add_zero] at markers
  rw [none.2, Nat.add_zero] at stops
  cases worker with
  | req i =>
      refine decide_eq_true ?_
      by_contra stays
      have waits : s.req i = .waiting := by
        by_contra other
        have moves : (step retire s (.req i .request)).isSome :=
          req_goes_on marked.toInv going i other stays
        have refused : step retire s (.req i .request) = Option.none := stuck (.req i .request)
        simp [refused] at moves
      have comes := weight_le_threads reqComes s.req i
      have empty : s.shared.tdList = [] := by
        cases list : s.shared.tdList with
        | nil => rfl
        | cons td rest =>
            have refused : step retire s (.req i .request) = Option.none := stuck (.req i .request)
            simp [step, running, going, waits, reqStep, tdWaitAndDequeue, list] at refused
      rw [markers, empty, waits] at comes
      contradiction
  | job i =>
      refine decide_eq_true ?_
      by_contra stays
      have waits : s.job i = .waiting := by
        by_contra other
        have moves : (step retire s (.job i)).isSome := job_goes_on marked.toInv going i other stays
        have refused : step retire s (.job i) = Option.none := stuck (.job i)
        simp [refused] at moves
      have comes := weight_le_threads jobComes s.job i
      have empty : s.shared.queue = [] := by
        cases list : s.shared.queue with
        | nil => rfl
        | cons job rest =>
            have refused : step retire s (.job i) = Option.none := stuck (.job i)
            simp [step, running, going, waits, jobStep, workqWaitAndDeqJob, list] at refused
      rw [stops, empty, waits] at comes
      contradiction

/-- Where nothing moves any more the main thread has joined all the others, or it
has gone through an entry that is not there. -/
theorem stuck_ended (marked : Marked s) (stuck : Stuck (closeDown retire) s) :
    s.main = .joined ∨ s.main = .crashed := by
  have running := marked.sound.running
  by_cases serving : early s.main = true
  · obtain ⟨action, moves⟩ : ∃ action, (closeDown retire s action).isSome :=
      open_closes (marked_open marked serving)
    rw [stuck action] at moves
    contradiction
  by_cases crashed : s.main = .crashed
  · exact Or.inr crashed
  have mainStuck : mainStep true s.entries (exited s) s.shared s.main = none := by
    have refused : step retire s (.main true) = none := stuck (.main true)
    simpa [step, running, crashed] using refused
  cases main : s.main with
  | accepting | accepted | filled => simp [main, early] at serving
  | stopping k =>
      rw [main, mainStep] at mainStuck
      split at mainStuck <;> contradiction
  | stoppingJob k => simp [main, mainStep] at mainStuck
  | joined => exact Or.inl rfl
  | crashed => exact Or.inr rfl
  | cleaning p1 freed =>
      have none : markersLeft s.main = 0 ∧ stopsLeft s.main = 0 := by
        rw [main]
        exact ⟨rfl, rfl⟩
      have done := stuck_workers marked crashed none stuck
      rw [main] at mainStuck
      cases p1 with
      | nil => contradiction
      | cons p1 p2 =>
          rw [mainStep] at mainStuck
          split at mainStuck
          · contradiction
          · rw [if_pos (done p1)] at mainStuck
            contradiction

end Stuck

/-! ## Every shutdown comes to its end -/

section Endings
variable {retire : ThreadData → Shared → Shared} {s next : Server} {action : Action}

theorem main_lighter (inv : Inv s) (taken : step retire s (.main true) = some next) :
    remaining next < remaining s := by
  obtain ⟨phase, shared, moved, rfl⟩ := step_main taken
  simp only [remaining, load]
  cases main : s.main with
  | accepting =>
      rw [main] at moved
      cases moved
      simp [mainLoad, workers]
  | accepted c =>
      rw [main] at moved
      obtain ⟨obj, rfl, -⟩ := get_exchanges .td inv.sound moved
      have kept := (get_keeps .td moved (fun _ => ()) fun _ => rfl).1
      rw [same_load (same_lists kept)]
      simp [mainLoad]
  | filled td =>
      rw [main] at moved
      cases moved
      simp only [mainLoad, listLoad, tdEnqueue, items_weigh_cons, tdLoad]
      omega
  | stopping k =>
      rw [main, mainStep] at moved
      split at moved
      · next more =>
          cases moved
          simp only [mainLoad, listLoad, tdEnqueue, items_weigh_cons, tdLoad]
          omega
      · next ended =>
          cases moved
          have none : workers - k = 0 := by omega
          have eight : thList.length = 8 := rfl
          simp [mainLoad, none, eight]
  | stoppingJob k =>
      rw [main] at moved
      cases moved
      simp only [mainLoad, listLoad, workqEnqueueJob, items_weigh_append, items_weigh_cons,
        items_weigh_nil, queueLoad]
      omega
  | cleaning p1 freed =>
      rw [main] at moved
      obtain ⟨rfl, round⟩ := cleaning_round moved
      cases round <;> simp [mainLoad]
  | joined | crashed =>
      rw [main] at moved
      contradiction

theorem closing_lighter (inv : Inv s) (retires : ∀ k, SameLists s.shared (retire (.stop k) s.shared))
    (taken : closeDown retire s action = some next) : remaining next < remaining s := by
  cases action with
  | main shutdown =>
      cases shutdown with
      | false => contradiction
      | true =>
          have moved : step retire s (.main true) = some next := taken
          exact main_lighter inv moved
  | req i result =>
      have moved : step retire s (.req i result) = some next := taken
      have lighter := req_lighter inv retires moved
      obtain ⟨phase, shared, _, rfl⟩ := step_req moved
      simp only [remaining]
      omega
  | job i =>
      have moved : step retire s (.job i) = some next := taken
      have lighter := job_lighter inv moved
      obtain ⟨phase, shared, _, rfl⟩ := step_job moved
      simp only [remaining]
      omega

theorem listed_load (tdList : List ThreadData) : itemsWeigh tdLoad tdList =
    12 * itemsWeigh (fun td => named tdName (ThreadData.holds td)) tdList +
      2 * tdList.countP tdNull := by
  induction tdList with
  | nil => rfl
  | cons td rest ih =>
      rw [items_weigh_cons, items_weigh_cons, ih, List.countP_cons]
      cases td <;>
        simp [tdLoad, named, ThreadData.holds, Client.holds, List.filterMap_cons, tdName, tdNull] <;>
        omega

theorem queued_load (queue : List Job) : itemsWeigh queueLoad queue ≤
    12 * itemsWeigh (fun job => named tdName (Job.holds job)) queue + queue.countP isStop := by
  induction queue with
  | nil => exact Nat.le_refl _
  | cons job rest ih =>
      have here : queueLoad job ≤
          12 * named tdName job.holds + if isStop job = true then 1 else 0 := by
        cases job <;>
          simp [queueLoad, named, Job.holds, Client.holds, List.filterMap_cons, tdName, isStop,
            isRequest]
      rw [items_weigh_cons, items_weigh_cons, List.countP_cons]
      omega

theorem remaining_le (marked : Marked s) :
    remaining s ≤ 12 * tdPoolMaxTd + workers + mainLoad (.accepted 0) := by
  have reqs := threads_weigh_le 12 1 s.req req_load_le
  have jobs := threads_weigh_le 12 0 s.job job_load_le
  have listed := listed_load s.shared.tdList
  have queued := queued_load s.shared.queue
  have tds := tds_under_way marked.toInv
  have reqMost : threadsWeigh reqComes s.req ≤
      0 * threadsWeigh reqComes s.req + Fintype.card (Fin workers) * 1 :=
    threads_weigh_le 0 1 s.req fun phase => by simpa using req_comes_le phase
  have jobMost : threadsWeigh jobComes s.job ≤
      0 * threadsWeigh jobComes s.job + Fintype.card (Fin workers) * 1 :=
    threads_weigh_le 0 1 s.job fun phase => by simpa using job_comes_le phase
  have markers := marked.markers
  have stops := marked.stops
  have counts := marked.counting
  rw [named_under_way] at tds
  rw [Fintype.card_fin] at reqs reqMost jobMost
  simp only [remaining, load, listLoad, tdPoolMaxTd, workers] at *
  cases main : s.main with
  | stopping k =>
      rw [main] at markers stops counts
      simp only [markersLeft, stopsLeft, mainLoad, ShutdownEnds.counting, workers] at *
      omega
  | stoppingJob k =>
      rw [main] at markers stops counts
      simp only [markersLeft, stopsLeft, mainLoad, ShutdownEnds.counting, workers] at *
      omega
  | cleaning p1 freed =>
      obtain ⟨front, split, -⟩ := marked.cleaned p1 freed main
      have entries : 8 = front.length + p1.length := by
        rw [← List.length_append, ← split]
        rfl
      rw [main] at markers stops
      simp only [markersLeft, stopsLeft, mainLoad] at *
      omega
  | _ =>
      rw [main] at markers stops
      simp only [markersLeft, stopsLeft, mainLoad, workers] at *
      omega

/-- Once the flag is set the server takes at most so many steps more, whoever takes
them, and can always go on until it has ended in the given way. -/
structure ComesTo (retire : ThreadData → Shared → Shared) (ended : Server → Prop) (s : Server) :
    Prop where
  short : ∀ more final, replay (closeDown retire) s more = some final →
    more.length ≤ 12 * tdPoolMaxTd + workers + mainLoad (.accepted 0)
  settled : ∀ more final, replay (closeDown retire) s more = some final →
    (Stuck (closeDown retire) final ↔ ended final)
  ends : ∃ more final, replay (closeDown retire) s more = some final ∧ ended final

theorem close_step (taken : closeDown retire s action = some next) :
    step retire s action = some next := by
  unfold closeDown at taken
  split at taken
  · contradiction
  · exact taken

theorem joined_stuck (orderly : Orderly s) (joined : s.main = .joined) :
    Stuck (closeDown retire) s := by
  have running := orderly.sound.running
  obtain ⟨reqs, jobs⟩ := all_exited orderly (Or.inl joined)
  intro action
  cases action with
  | main shutdown => cases shutdown <;> simp [closeDown, step, running, joined, mainStep]
  | req i result => simp [closeDown, step, running, joined, reqs i, reqStep]
  | job i => simp [closeDown, step, running, joined, jobs i, jobStep]

/-- Each entry of `th_list` is an allocation of its own. -/
structure Separate (entries : Worker → Address) : Prop where
  starts : ∀ worker, (entries worker).index = 0
  blocks : Function.Injective fun worker => (entries worker).block

/-- The entries that are still listed have not been freed. -/
structure Spared (s : Server) : Prop where
  entries : Separate s.entries
  cleaning : ∀ p1 freed, s.main = .cleaning p1 freed →
    p1.Nodup ∧ ∀ worker ∈ p1, (s.entries worker).block ∉ freed
  going : s.main ≠ .crashed

theorem spared_step (spared : Spared s) (taken : step retire s action = some next) : Spared next := by
  cases action with
  | req i result =>
      obtain ⟨phase, shared, _, rfl⟩ := step_req taken
      exact ⟨spared.entries, spared.cleaning, spared.going⟩
  | job i =>
      obtain ⟨phase, shared, _, rfl⟩ := step_job taken
      exact ⟨spared.entries, spared.cleaning, spared.going⟩
  | main shutdown =>
      obtain ⟨phase, shared, moved, rfl⟩ := step_main taken
      cases main_cleans moved with
      | enters k stopping =>
          refine ⟨spared.entries, fun p1 freed same => ?_, nofun⟩
          cases same
          exact ⟨by decide, fun _ _ => List.not_mem_nil⟩
      | other _ apart ahead intact =>
          exact ⟨spared.entries, fun p1 freed same => absurd same (apart p1 freed), intact⟩
      | onward p1 freed _ cleaning round =>
          obtain ⟨distinct, live⟩ := spared.cleaning p1 freed cleaning
          cases round with
          | finish => exact ⟨spared.entries, nofun, nofun⟩
          | crash p1 p2 freed faulty =>
              rcases faulty with stale | inner
              · exact absurd stale (live p1 List.mem_cons_self)
              · exact absurd (spared.entries.starts p1) inner
          | free p1 p2 freed =>
              obtain ⟨once, rest⟩ := List.nodup_cons.mp distinct
              refine ⟨spared.entries, fun _ _ same => ?_, nofun⟩
              cases same
              refine ⟨rest, fun worker member again => ?_⟩
              rcases List.mem_cons.mp again with same | before
              · exact once (spared.entries.blocks same ▸ member)
              · exact live worker (List.mem_cons_of_mem _ member) before

theorem one_by_one_separate : Separate oneByOne := by
  refine ⟨fun worker => by cases worker <;> rfl, fun worker other same => ?_⟩
  cases worker with
  | job i =>
      cases other with
      | job j => exact congrArg Worker.job (Fin.ext same)
      | req j =>
          have inside := i.isLt
          simp only [oneByOne] at same
          omega
  | req i =>
      cases other with
      | job j =>
          have inside := j.isLt
          simp only [oneByOne] at same
          omega
      | req j => exact congrArg Worker.req (Fin.ext (Nat.add_right_cancel same))

/-- The process has been ended by a join of a marker, or in the cleanup. -/
def Crashed (s : Server) : Prop := s.shared.aborted = true ∨ s.main = .crashed

/-- The state of a server whose request threads join the markers they take, and whose
entries are one array. -/
structure Doomed (s : Server) : Prop where
  array : OneArray s
  marked : Marked s ∨ s.shared.aborted = true

theorem step_doomed (doomed : Doomed s) (taken : step tdPoolJoinTd s action = some next) :
    Doomed next := by
  refine ⟨one_array_step doomed.array taken, ?_⟩
  rcases doomed.marked with marked | aborted
  · by_cases retiring : RetiresMarker s action
    · right
      cases action with
      | main shutdown => exact absurd retiring id
      | job i => exact absurd retiring id
      | req i result =>
          obtain ⟨td, got, marker⟩ := retiring
          cases td with
          | client td => contradiction
          | stop k =>
              obtain ⟨phase, shared, moved, rfl⟩ := step_req taken
              rw [got] at moved
              cases moved
              rfl
    · left
      have same : step endsThread s action = some next := by
        rw [← taken]
        cases action with
        | req i result =>
            cases got : s.req i with
            | gotTd td =>
                cases td with
                | client td => simp [step, got, reqStep]
                | stop k => exact absurd ⟨.stop k, got, rfl⟩ retiring
            | _ => simp [step, got, reqStep]
        | _ => rfl
      exact step_marked marked same
  · rw [step.eq_def, if_pos (Or.inl aborted)] at taken
    contradiction

theorem crashed_stuck (crashed : Crashed s) : Stuck (closeDown retire) s := by
  intro action
  have ended : s.shared.aborted = true ∨ s.main = .crashed := crashed
  cases action with
  | main shutdown => cases shutdown <;> simp [closeDown, step, ended]
  | req i result => simp [closeDown, step, ended]
  | job i => simp [closeDown, step, ended]

end Endings

end Ttracker.ShutdownEnds
