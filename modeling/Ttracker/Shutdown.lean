import Ttracker.PoolJoins
import Ttracker.WorkLists

/-!
The shutdown of the server, where a request thread that takes a stop marker
ends and does nothing else. The td list is filled and emptied at its head, so
the markers stand before connections that were accepted earlier; the stop jobs
go to the tail of the queue, but a request thread may queue a job behind them.
Of the code's own `th_list` no entry but the first is ever freed, since they are
one array: what is left when all are joined is a question about entries that are
allocated one by one.
-/
namespace Ttracker.Shutdown
open ObjectPools ServerThreads PoolJoins Holdings TransitionRuns WorkLists

def endsThread (_ : ThreadData) (s : Shared) : Shared := s

/-- What the shutdown frees: a `thread_data` of the pool, or one of `mk_td`. -/
inductive Block where
  | pooled (obj : Nat)
  | made (k : Nat)
  deriving DecidableEq

def tdBlock : ThreadData → Block
  | .client td => .pooled td.obj
  | .stop k => .made k

def tdStopList (s : Shared) : List Block := s.tdList.map tdBlock

def tdStopTdPool (s : Shared) : List Block := s.tds.slots.map fun slot => .pooled slot.addr

/-- Nothing is left over when all worker threads are joined. -/
structure Clean (s : Shared) : Prop where
  settled : ∀ c, c < s.accepted → (s.closings.map Prod.fst).count c = 1
  tdList : ∀ td ∈ s.tdList, tdNull td = true
  queue : ∀ job ∈ s.queue, job = .stop
  free : ∀ obj, busy s.tds obj = false
  disjoint : (tdStopList s).Disjoint (tdStopTdPool s)

/-- The thread will come back to the td list. -/
def reqLive : ReqPhase → Bool
  | .exited | .gotTd (.stop _) => false
  | _ => true

def jobLive : JobPhase → Bool
  | .exited => false
  | _ => true

def isClient (td : ThreadData) : Bool := !tdNull td

def isRequest : Job → Bool
  | .request _ _ => true
  | .stop => false

/-- Before `do_shutdown`. -/
def early : MainPhase → Bool
  | .accepting | .accepted _ | .filled _ => true
  | _ => false

/-- The steps that leave work behind: the last live request thread takes a
marker in front of a connection, the last live job thread takes a stop job in
front of a request, or a request is queued when no job thread is left. -/
inductive Strands (s : Server) : Action → Prop
  | marker (i : Fin workers) (result : ReadResult) (k : Nat) (rest : List ThreadData)
      (waits : s.req i = .waiting) (head : s.shared.tdList = .stop k :: rest)
      (behind : ∃ td ∈ rest, isClient td = true)
      (last : ∀ other, other ≠ i → reqLive (s.req other) = false) : Strands s (.req i result)
  | stopJob (i : Fin workers) (rest : List Job)
      (waits : s.job i = .waiting) (head : s.shared.queue = .stop :: rest)
      (behind : ∃ job ∈ rest, isRequest job = true)
      (last : ∀ other, other ≠ i → jobLive (s.job other) = false) : Strands s (.job i)
  | lateJob (i : Fin workers) (result : ReadResult) (td : Client) (b out : Nat)
      (enqueues : s.req i = .enqueueing td b out)
      (none : ∀ other, jobLive (s.job other) = false) : Strands s (.req i result)

/-- Some connection or request has no thread left that would take it. -/
def Left (s : Server) : Prop :=
  Stranded isClient s.shared.tdList (fun i => reqLive (s.req i)) ∨
    Stranded isRequest s.shared.queue (fun i => jobLive (s.job i))

/-! ## What a step does to the two lists -/

structure SameLists (s s' : Shared) : Prop where
  tdList : s'.tdList = s.tdList
  queue : s'.queue = s.queue

inductive MainEffect (phase next : MainPhase) (s s' : Shared) : Prop
  | quiet (lists : SameLists s s') (still : early next = true → early phase = true)
  | client (td : Client) (filled : phase = .filled td) (tdList : s'.tdList = .client td :: s.tdList)
      (queue : s'.queue = s.queue)
  | marker (k : Nat) (tdList : s'.tdList = .stop k :: s.tdList) (queue : s'.queue = s.queue)
      (late : early next = false)
  | stopJob (tdList : s'.tdList = s.tdList) (queue : s'.queue = s.queue ++ [.stop])
      (late : early next = false)

inductive ReqEffect (phase next : ReqPhase) (s s' : Shared) : Prop
  | quiet (lists : SameLists s s') (live : reqLive next = reqLive phase)
      (waits : phase ≠ .waiting) (enqueues : ∀ td b out, phase ≠ .enqueueing td b out)
  | took (td : ThreadData) (waits : phase = .waiting) (got : next = .gotTd td)
      (tdList : s.tdList = td :: s'.tdList) (queue : s'.queue = s.queue)
  | queued (td : Client) (b out : Nat) (enqueues : phase = .enqueueing td b out)
      (done : next = .finishing b) (tdList : s'.tdList = s.tdList)
      (queue : s'.queue = s.queue ++ [.request td out])

inductive JobEffect (phase next : JobPhase) (s s' : Shared) : Prop
  | quiet (lists : SameLists s s') (live : jobLive next = jobLive phase) (waits : phase ≠ .waiting)
  | took (job : Job) (waits : phase = .waiting) (got : next = jobStart job)
      (tdList : s'.tdList = s.tdList) (queue : s.queue = job :: s'.queue)

section Effects
variable {s s' : Shared}

theorem same_lists (same : SameWork s s') : SameLists s s' := ⟨same.tdList, same.queue⟩

theorem join_td_lists (td : Client) (s : Shared) : SameLists s (tdPoolJoinTd (.client td) s) := by
  unfold tdPoolJoinTd
  dsimp only
  split <;> exact ⟨rfl, rfl⟩

theorem join_buffer_lists (b : Nat) (s : Shared) : SameLists s (bufferPoolJoinBuffer b s) := by
  unfold bufferPoolJoinBuffer
  dsimp only
  split <;> exact ⟨rfl, rfl⟩

theorem main_step_effect {shutdown : Bool} {entries : Worker → Address} {exited : Worker → Bool}
    {phase next : MainPhase} (taken : mainStep shutdown entries exited s phase = some (next, s')) :
    MainEffect phase next s s' := by
  cases phase with
  | accepting =>
      rw [mainStep] at taken
      split at taken <;> cases taken <;> exact .quiet ⟨rfl, rfl⟩ fun _ => rfl
  | accepted c =>
      obtain ⟨lists, same⟩ := get_keeps .td taken early fun _ => rfl
      exact .quiet (same_lists lists) fun still => same ▸ still
  | filled td =>
      cases taken
      exact .client td rfl rfl rfl
  | stopping k =>
      rw [mainStep] at taken
      split at taken
      · cases taken
        exact .marker k rfl rfl rfl
      · cases taken
        exact .quiet ⟨rfl, rfl⟩ fun still => still
  | stoppingJob k =>
      cases taken
      exact .stopJob rfl rfl rfl
  | cleaning p1 freed =>
      obtain ⟨rfl, round⟩ := cleaning_round taken
      cases round <;> exact .quiet ⟨rfl, rfl⟩ fun still => still
  | joined => contradiction
  | crashed => contradiction

theorem req_step_effect {retire : ThreadData → Shared → Shared} {result : ReadResult}
    {phase next : ReqPhase} (retires : ∀ k, SameLists s (retire (.stop k) s))
    (taken : reqStep retire result s phase = some (next, s')) : ReqEffect phase next s s' := by
  cases phase with
  | waiting =>
      obtain ⟨⟨td, s₁⟩, dequeued, same⟩ := Option.map_eq_some_iff.mp taken
      cases same
      unfold tdWaitAndDequeue at dequeued
      split at dequeued
      · contradiction
      · next rest list =>
          cases dequeued
          exact .took td rfl rfl list rfl
  | gotTd td =>
      cases td with
      | stop k =>
          cases taken
          exact .quiet (retires k) rfl nofun nofun
      | client td =>
          obtain ⟨same, live⟩ := get_keeps .buffer taken reqLive fun _ => rfl
          exact .quiet (same_lists same) live nofun nofun
  | reading td b =>
      cases result <;> cases taken <;> exact .quiet ⟨rfl, rfl⟩ rfl nofun nofun
  | failing td b =>
      obtain ⟨same, live⟩ := get_keeps .buffer taken reqLive fun _ => rfl
      exact .quiet (same_lists same) live nofun nofun
  | failingWith td b e =>
      obtain ⟨same, live⟩ := get_keeps .buffer taken reqLive fun _ => rfl
      exact .quiet (same_lists same) live nofun nofun
  | responding td b e response =>
      cases taken
      exact .quiet (join_buffer_lists response s) rfl nofun nofun
  | responded td b e =>
      cases taken
      exact .quiet (join_buffer_lists e s) rfl nofun nofun
  | closing td b ending =>
      cases taken
      exact .quiet ⟨rfl, rfl⟩ rfl nofun nofun
  | closed td b =>
      cases taken
      exact .quiet (join_buffer_lists b s) rfl nofun nofun
  | returning td =>
      cases taken
      exact .quiet (join_td_lists td s) rfl nofun nofun
  | parsed td b =>
      obtain ⟨same, live⟩ := get_keeps .buffer taken reqLive fun _ => rfl
      exact .quiet (same_lists same) live nofun nofun
  | enqueueing td b out =>
      cases taken
      exact .queued td b out rfl rfl rfl rfl
  | finishing b =>
      cases taken
      exact .quiet (join_buffer_lists b s) rfl nofun nofun
  | exited => contradiction

theorem job_step_effect {phase next : JobPhase} (taken : jobStep s phase = some (next, s')) :
    JobEffect phase next s s' := by
  cases phase with
  | waiting =>
      obtain ⟨⟨job, s₁⟩, dequeued, same⟩ := Option.map_eq_some_iff.mp taken
      cases same
      unfold workqWaitAndDeqJob at dequeued
      split at dequeued
      · contradiction
      · next rest list =>
          cases dequeued
          exact .took job rfl rfl rfl list
  | working td out =>
      obtain ⟨same, live⟩ := get_keeps .buffer taken jobLive fun _ => rfl
      exact .quiet (same_lists same) live nofun
  | responding td out response =>
      cases taken
      exact .quiet (join_buffer_lists response s) rfl nofun
  | responded td out =>
      cases taken
      exact .quiet ⟨rfl, rfl⟩ rfl nofun
  | closed td out =>
      cases taken
      exact .quiet (join_buffer_lists out s) rfl nofun
  | returning td =>
      cases taken
      exact .quiet (join_td_lists td s) rfl nofun
  | exited => contradiction

end Effects

/-! ## What a run leaves behind -/

/-- Markers and retired threads appear in the shutdown only, and the main thread
waits for each of the others. -/
structure Orderly (s : Server) : Prop extends Inv s where
  unmarked : early s.main = true → ∀ td ∈ s.shared.tdList, isClient td = true
  serving : early s.main = true → ∀ i, reqLive (s.req i) = true
  cleaned : ∀ p1 freed, s.main = .cleaning p1 freed →
    ∃ front, thList = front ++ p1 ∧ ∀ worker ∈ front, exited s worker = true
  ended : s.main = .joined → ∀ worker, exited s worker = true

section Lists
variable {Phase : Type} (read : Phase → Bool) (phases : Fin workers → Phase) (i : Fin workers)
  (phase : Phase)

theorem read_update : (fun j => read (Function.update phases i phase j)) =
    Function.update (fun j => read (phases j)) i (read phase) :=
  Function.comp_update read phases i phase

theorem read_update_same (same : read phase = read (phases i)) :
    (fun j => read (Function.update phases i phase j)) = fun j => read (phases j) := by
  rw [read_update, same, Function.update_eq_self]

end Lists

theorem main_left {s next : Server} {shutdown : Bool} (orderly : Orderly s)
    (taken : step endsThread s (.main shutdown) = some next) :
    Left next ↔ Left s ∨ Strands s (.main shutdown) := by
  have none : ¬ Strands s (.main shutdown) := nofun
  rw [or_iff_left none]
  obtain ⟨phase, shared, moved, rfl⟩ := step_main taken
  simp only [Left]
  cases main_step_effect moved with
  | quiet lists still => rw [lists.tdList, lists.queue]
  | client td filled tdList queue =>
      -- every request thread is still there while connections are accepted
      have live : reqLive (s.req 0) = true := orderly.serving (by rw [filled]; rfl) 0
      rw [queue, or_iff_right (not_stranded 0 live),
        or_iff_right (not_stranded 0 live)]
  | marker k tdList queue late =>
      rw [queue, stranded_push_marker (List.Perm.of_eq tdList) rfl]
  | stopJob tdList queue late =>
      have pushed : shared.queue.Perm (.stop :: s.shared.queue) :=
        queue ▸ List.perm_append_singleton _ _
      rw [tdList, stranded_push_marker pushed rfl]

theorem req_left {s next : Server} {i : Fin workers} {result : ReadResult}
    (taken : step endsThread s (.req i result) = some next) :
    Left next ↔ Left s ∨ Strands s (.req i result) := by
  obtain ⟨phase, shared, moved, rfl⟩ := step_req taken
  simp only [Left]
  cases req_step_effect (fun _ => ⟨rfl, rfl⟩) moved with
  | quiet lists live waits enqueues =>
      -- none of the three ways to strand work starts in such a phase
      have none : ¬ Strands s (.req i result) := by
        rintro (⟨_, _, _, _, idle⟩ | _ | ⟨_, _, _, _, _, enqueuing⟩)
        · exact waits idle
        · exact enqueues _ _ _ enqueuing
      rw [or_iff_left none, lists.tdList, lists.queue, read_update_same reqLive s.req i phase live]
  | took td waits got tdList queue =>
      have live : reqLive (s.req i) = true := by rw [waits]; rfl
      have before : ¬ Stranded isClient s.shared.tdList (fun j => reqLive (s.req j)) :=
        not_stranded i live
      cases td with
      | client td =>
          have same : reqLive phase = reqLive (s.req i) := by rw [got, waits]; rfl
          have after : ¬ Stranded isClient shared.tdList (fun j => reqLive (s.req j)) :=
            not_stranded i live
          have none : ¬ Strands s (.req i result) := by
            rintro (⟨_, _, _, _, _, head⟩ | _ | ⟨_, _, _, _, _, enqueuing⟩)
            · rw [tdList] at head
              cases head
            · rw [waits] at enqueuing
              contradiction
          rw [or_iff_left none, queue, read_update_same reqLive s.req i phase same,
            or_iff_right before, or_iff_right after]
      | stop k =>
          have strands : Strands s (.req i result) ↔
              (∃ td ∈ shared.tdList, isClient td = true) ∧
                ∀ other, other ≠ i → reqLive (s.req other) = false := by
            constructor
            · rintro (⟨_, _, _, rest, _, head, behind, last⟩ | _ | ⟨_, _, _, _, _, enqueuing⟩)
              · rw [tdList, List.cons.injEq] at head
                exact ⟨head.2 ▸ behind, last⟩
              · rw [waits] at enqueuing
                contradiction
            · rintro ⟨behind, last⟩
              exact .marker i result k shared.tdList waits tdList behind last
          have retired : reqLive phase = false := by rw [got]; rfl
          rw [strands, queue, read_update, retired, stranded_stop, or_iff_right before, or_comm]
  | queued td b out enqueues done tdList queue =>
      have same : reqLive phase = reqLive (s.req i) := by rw [done, enqueues]; rfl
      have strands : Strands s (.req i result) ↔ ∀ other, jobLive (s.job other) = false := by
        constructor
        · rintro (⟨_, _, _, _, idle⟩ | _ | ⟨_, _, _, _, _, _, idle⟩)
          · rw [enqueues] at idle
            contradiction
          · exact idle
        · exact .lateJob i result td b out enqueues
      have pushed : shared.queue.Perm (.request td out :: s.shared.queue) :=
        queue ▸ List.perm_append_singleton _ _
      rw [strands, tdList, read_update_same reqLive s.req i phase same, stranded_push pushed, or_assoc]
      simp [isRequest]

theorem job_left {s next : Server} {i : Fin workers}
    (taken : step endsThread s (.job i) = some next) : Left next ↔ Left s ∨ Strands s (.job i) := by
  obtain ⟨phase, shared, moved, rfl⟩ := step_job taken
  simp only [Left]
  cases job_step_effect moved with
  | quiet lists live waits =>
      have none : ¬ Strands s (.job i) := by
        rintro (_ | ⟨_, _, idle⟩)
        exact waits idle
      rw [or_iff_left none, lists.tdList, lists.queue, read_update_same jobLive s.job i phase live]
  | took job waits got tdList queue =>
      have live : jobLive (s.job i) = true := by rw [waits]; rfl
      have before : ¬ Stranded isRequest s.shared.queue (fun j => jobLive (s.job j)) :=
        not_stranded i live
      cases job with
      | request td out =>
          have same : jobLive phase = jobLive (s.job i) := by rw [got, waits]; rfl
          have after : ¬ Stranded isRequest shared.queue (fun j => jobLive (s.job j)) :=
            not_stranded i live
          have none : ¬ Strands s (.job i) := by
            rintro (_ | ⟨_, _, _, head⟩)
            rw [queue] at head
            cases head
          rw [or_iff_left none, tdList, read_update_same jobLive s.job i phase same,
            or_iff_left before, or_iff_left after]
      | stop =>
          have strands : Strands s (.job i) ↔
              (∃ job ∈ shared.queue, isRequest job = true) ∧
                ∀ other, other ≠ i → jobLive (s.job other) = false := by
            constructor
            · rintro (_ | ⟨_, rest, _, head, behind, last⟩)
              rw [queue, List.cons.injEq] at head
              exact ⟨head.2 ▸ behind, last⟩
            · rintro ⟨behind, last⟩
              exact .stopJob i shared.queue waits queue behind last
          have retired : jobLive phase = false := by rw [got]; rfl
          rw [strands, tdList, read_update, retired, stranded_stop, or_iff_left before]

theorem left_step {s next : Server} {action : Action} (orderly : Orderly s)
    (taken : step endsThread s action = some next) : Left next ↔ Left s ∨ Strands s action := by
  cases action with
  | main shutdown => exact main_left orderly taken
  | req i result => exact req_left taken
  | job i => exact job_left taken

/-- How the main thread gets into `cleanup_server` and through it. -/
inductive Cleans (entries : Worker → Address) (exited : Worker → Bool) (phase : MainPhase) :
    MainPhase → Prop
  | enters (k : Nat) (stopping : phase = .stopping k) : Cleans entries exited phase (.cleaning thList [])
  | onward (p1 : List Worker) (freed : List Nat) (next : MainPhase) (cleaning : phase = .cleaning p1 freed)
      (round : Round entries exited p1 freed next) : Cleans entries exited phase next
  | other (next : MainPhase) (apart : ∀ p1 freed, next ≠ .cleaning p1 freed) (ahead : next ≠ .joined)
      (intact : next ≠ .crashed) : Cleans entries exited phase next

theorem main_cleans {shutdown : Bool} {entries : Worker → Address} {exited : Worker → Bool}
    {phase next : MainPhase} {s s' : Shared}
    (taken : mainStep shutdown entries exited s phase = some (next, s')) :
    Cleans entries exited phase next := by
  cases phase with
  | accepting =>
      rw [mainStep] at taken
      split at taken <;> cases taken <;> exact .other _ (by simp) (by simp) (by simp)
  | accepted c =>
      obtain ⟨_, same⟩ := get_keeps .td taken early fun _ => rfl
      refine .other _ (fun p1 freed cleaning => ?_) (fun joined => ?_) fun crashed => ?_
      · rw [cleaning] at same
        contradiction
      · rw [joined] at same
        contradiction
      · rw [crashed] at same
        contradiction
  | filled td =>
      cases taken
      exact .other _ (by simp) (by simp) (by simp)
  | stopping k =>
      rw [mainStep] at taken
      split at taken <;> cases taken
      · exact .other _ (by simp) (by simp) (by simp)
      · exact .enters k rfl
  | stoppingJob k =>
      cases taken
      exact .other _ (by simp) (by simp) (by simp)
  | cleaning p1 freed => exact .onward p1 freed next rfl (cleaning_round taken).2
  | joined => contradiction
  | crashed => contradiction

theorem worker_listed (worker : Worker) : worker ∈ thList := by
  cases worker with
  | job i => exact List.mem_flatMap.mpr ⟨i, List.mem_finRange i, by simp⟩
  | req i => exact List.mem_flatMap.mpr ⟨i, List.mem_finRange i, by simp⟩

section Exits
variable {retire : ThreadData → Shared → Shared} {s next : Server}

theorem req_stays_exited {i : Fin workers} {result : ReadResult}
    (taken : step retire s (.req i result) = some next) (worker : Worker)
    (done : exited s worker = true) : exited next worker = true := by
  obtain ⟨phase, shared, moved, rfl⟩ := step_req taken
  cases worker with
  | job j => exact done
  | req j =>
      have ended : s.req j = .exited := of_decide_eq_true done
      have other : j ≠ i := by
        rintro rfl
        rw [ended] at moved
        contradiction
      simpa [exited, other] using ended

theorem job_stays_exited {i : Fin workers} (taken : step retire s (.job i) = some next)
    (worker : Worker) (done : exited s worker = true) : exited next worker = true := by
  obtain ⟨phase, shared, moved, rfl⟩ := step_job taken
  cases worker with
  | req j => exact done
  | job j =>
      have ended : s.job j = .exited := of_decide_eq_true done
      have other : j ≠ i := by
        rintro rfl
        rw [ended] at moved
        contradiction
      simpa [exited, other] using ended

end Exits

theorem req_serves {s : Server} {i : Fin workers} {phase : ReqPhase} {shared : Shared}
    (effect : ReqEffect (s.req i) phase s.shared shared)
    (unmarked : ∀ td ∈ s.shared.tdList, isClient td = true)
    (serving : ∀ j, reqLive (s.req j) = true) :
    (∀ td ∈ shared.tdList, isClient td = true) ∧
      ∀ j, reqLive (Function.update s.req i phase j) = true := by
  have others : reqLive phase = true → ∀ j, reqLive (Function.update s.req i phase j) = true := by
    intro live j
    by_cases same : j = i
    · subst same
      rwa [Function.update_self]
    · rw [Function.update_of_ne same]
      exact serving j
  cases effect with
  | quiet lists live => exact ⟨lists.tdList ▸ unmarked, others (live ▸ serving i)⟩
  | took td waits got tdList =>
      rw [tdList] at unmarked
      refine ⟨fun other member => unmarked other (List.mem_cons_of_mem td member), others ?_⟩
      have client := unmarked td List.mem_cons_self
      cases td with
      | client td => rw [got]; rfl
      | stop k => contradiction
  | queued td b out enqueues done tdList => exact ⟨tdList ▸ unmarked, others (done ▸ rfl)⟩

theorem orderly_step {s next : Server} {action : Action} (orderly : Orderly s)
    (taken : step endsThread s action = some next) : Orderly next := by
  have inv : Inv next :=
    step_keeps orderly.toInv (fun _ _ _ _ _ => idles orderly.sound []) taken
  cases action with
  | main shutdown =>
      obtain ⟨phase, shared, moved, rfl⟩ := step_main taken
      have cleans := main_cleans moved
      refine { inv with unmarked := ?_, serving := ?_, cleaned := ?_, ended := ?_ }
      · intro still
        cases main_step_effect moved with
        | quiet lists was => exact lists.tdList ▸ orderly.unmarked (was still)
        | client td filled tdList =>
            have before := orderly.unmarked (by rw [filled]; rfl)
            intro other member
            rw [tdList] at member
            rcases List.mem_cons.mp member with same | old
            · rw [same]; rfl
            · exact before other old
        | marker k tdList queue late => exact absurd still (by simp [late])
        | stopJob tdList queue late => exact absurd still (by simp [late])
      · intro still
        cases main_step_effect moved with
        | quiet lists was => exact orderly.serving (was still)
        | client td filled => exact orderly.serving (by rw [filled]; rfl)
        | marker k tdList queue late => exact absurd still (by simp [late])
        | stopJob tdList queue late => exact absurd still (by simp [late])
      · intro p1 freed cleaning
        change phase = .cleaning p1 freed at cleaning
        subst cleaning
        cases cleans with
        | enters k stopping => exact ⟨[], rfl, fun _ member => absurd member List.not_mem_nil⟩
        | other _ apart => exact absurd rfl (apart p1 freed)
        | onward before freed _ cleaning round =>
            cases round with
            | free worker p2 freed live done starts =>
                obtain ⟨front, split, ended⟩ := orderly.cleaned _ _ cleaning
                refine ⟨front ++ [worker], by simpa using split, fun other member => ?_⟩
                rcases List.mem_append.mp member with old | new
                · exact ended other old
                · exact List.mem_singleton.mp new ▸ done
      · intro joined
        change phase = .joined at joined
        subst joined
        cases cleans with
        | other _ _ ahead => exact absurd rfl ahead
        | onward before freed _ cleaning round =>
            cases round with
            | finish =>
                obtain ⟨front, split, ended⟩ := orderly.cleaned _ _ cleaning
                rw [List.append_nil] at split
                exact fun worker => ended worker (split ▸ worker_listed worker)
  | req i result =>
      have stays := req_stays_exited taken
      obtain ⟨phase, shared, moved, rfl⟩ := step_req taken
      have effect := req_step_effect (fun _ => ⟨rfl, rfl⟩) moved
      refine { inv with unmarked := ?_, serving := ?_, cleaned := ?_, ended := ?_ }
      · exact fun still => (req_serves effect (orderly.unmarked still) (orderly.serving still)).1
      · exact fun still => (req_serves effect (orderly.unmarked still) (orderly.serving still)).2
      · intro p1 freed cleaning
        obtain ⟨front, split, ended⟩ := orderly.cleaned p1 freed cleaning
        exact ⟨front, split, fun worker member => stays worker (ended worker member)⟩
      · exact fun joined worker => stays worker (orderly.ended joined worker)
  | job i =>
      have stays := job_stays_exited taken
      obtain ⟨phase, shared, moved, rfl⟩ := step_job taken
      have same : shared.tdList = s.shared.tdList := by
        cases job_step_effect moved with
        | quiet lists => exact lists.tdList
        | took job waits got tdList => exact tdList
      refine { inv with unmarked := ?_, serving := orderly.serving, cleaned := ?_, ended := ?_ }
      · exact fun still => same ▸ orderly.unmarked still
      · intro p1 freed cleaning
        obtain ⟨front, split, ended⟩ := orderly.cleaned p1 freed cleaning
        exact ⟨front, split, fun worker member => stays worker (ended worker member)⟩
      · exact fun joined worker => stays worker (orderly.ended joined worker)

theorem start_orderly (entries : Worker → Address) : Orderly (startWith entries) :=
  { start_inv entries with
    unmarked := fun _ _ member => absurd member List.not_mem_nil
    serving := fun _ _ => rfl
    cleaned := nofun
    ended := nofun }

/-- All worker threads are joined, or have ended and wait for it. -/
def Ended (s : Server) : Prop := s.main = .joined ∨ ∀ worker, exited s worker = true

theorem all_exited {s : Server} (orderly : Orderly s) (ended : Ended s) :
    (∀ i, s.req i = .exited) ∧ ∀ i, s.job i = .exited := by
  have exits := ended.elim orderly.ended id
  exact ⟨fun i => of_decide_eq_true (exits (.req i)), fun i => of_decide_eq_true (exits (.job i))⟩

/-- A worker ends after the shutdown has begun, so the main thread holds nothing. -/
theorem main_holds_nothing {s : Server} (orderly : Orderly s) (reqs : ∀ i, s.req i = .exited) :
    s.main.holds = [] := by
  have serving := orderly.serving
  cases main : s.main with
  | accepted | filled =>
      have live := serving (by rw [main]; rfl) 0
      rw [reqs 0] at live
      contradiction
  | _ => rfl

theorem start_not_left (entries : Worker → Address) : ¬ Left (startWith entries) := by
  rintro (⟨_, idle⟩ | ⟨_, idle⟩)
  · exact Bool.noConfusion (idle 0)
  · exact Bool.noConfusion (idle 0)

/-- With the workers gone nobody holds anything, so what is not left in a list
has been returned. -/
theorem clean_iff_not_left {s : Server} (orderly : Orderly s) (ended : Ended s) :
    Clean s.shared ↔ ¬ Left s := by
  obtain ⟨reqs, jobs⟩ := all_exited orderly ended
  have idleMain := main_holds_nothing orderly reqs
  have tdLeft : Stranded isClient s.shared.tdList (fun i => reqLive (s.req i)) ↔
      ∃ td ∈ s.shared.tdList, isClient td = true :=
    and_iff_left fun i => congrArg reqLive (reqs i)
  have jobLeft : Stranded isRequest s.shared.queue (fun i => jobLive (s.job i)) ↔
      ∃ job ∈ s.shared.queue, isRequest job = true :=
    and_iff_left fun i => congrArg jobLive (jobs i)
  rw [Left, tdLeft, jobLeft]
  constructor
  · rintro clean (⟨td, member, client⟩ | ⟨job, member, request⟩)
    · simp [isClient, clean.tdList td member] at client
    · rw [clean.queue job member] at request
      contradiction
  · intro nothing
    have markers : ∀ td ∈ s.shared.tdList, tdNull td = true := fun td member => by
      by_contra client
      exact nothing (Or.inl ⟨td, member, by simpa [isClient] using client⟩)
    have stops : ∀ job ∈ s.shared.queue, job = .stop := fun job member => by
      cases job with
      | stop => rfl
      | request td out => exact absurd (Or.inr ⟨_, member, rfl⟩) nothing
    have listed : ∀ r, heldIn ThreadData.holds s.shared.tdList r = 0 := fun r =>
      heldIn_empty _ _ r fun td member => by
        cases td with
        | stop k => rfl
        | client td => exact absurd (markers _ member) Bool.false_ne_true
    have queued : ∀ r, heldIn Job.holds s.shared.queue r = 0 := fun r =>
      heldIn_empty _ _ r fun job member => by rw [stops job member]; rfl
    -- what is issued is held, listed, queued or settled, and only the last is left
    have settles : ∀ r, settled s.shared r = issued s.shared r := by
      intro r
      have idleReq := heldBy_empty ReqPhase.holds s.req r fun i => by rw [reqs i]; rfl
      have idleJob := heldBy_empty JobPhase.holds s.job r fun i => by rw [jobs i]; rfl
      have balance := orderly.balanced r
      simpa [held, idleMain, idleReq, idleJob, books, listed r, queued r] using balance
    refine ⟨fun c accepted => ?_, markers, stops, fun obj => ?_, ?_⟩
    · have all := settles (.connection c)
      simpa [settled, issued, accepted] using all
    · have all := settles (.td obj)
      simpa [settled, issued] using all.symm
    · intro block own pooled
      obtain ⟨td, member, rfl⟩ := List.mem_map.mp own
      obtain ⟨slot, _, same⟩ := List.mem_map.mp pooled
      cases td with
      | stop k => contradiction
      | client td => exact absurd (markers _ member) Bool.false_ne_true

/-- Wherever the entries of `th_list` lie, a shutdown that joins its workers, or has only
to join them, leaves everything settled in exactly the runs that strand no connection and
no request on the way. -/
theorem shutdown_clean_iff (entries : Worker → Address) (run : List Action) (final : Server)
    (reached : replay (step endsThread) (startWith entries) run = some final)
    (ended : Ended final) :
    Clean final.shared ↔
      Along (step endsThread) (fun s action => ¬ Strands s action) (startWith entries) run := by
  have orderly : Orderly final := reachable_invariant (step endsThread) Orderly
    (fun _ _ _ => orderly_step) (startWith entries) final run (start_orderly entries) reached
  have left := replay_marked_iff (step endsThread) Strands Left Orderly
    (fun _ _ _ => orderly_step) (fun _ _ _ => left_step) (startWith entries) final run
    (start_orderly entries) reached
  rw [clean_iff_not_left orderly ended, left, or_iff_right (start_not_left entries), not_not]

/-- One allocation for each entry. -/
def oneByOne : Worker → Address
  | .job i => ⟨i, 0⟩
  | .req i => ⟨i + workers, 0⟩

def acceptOne : List Action := List.replicate 3 (.main false)

/-- The markers and stop jobs go out, every thread takes its own, and all join. -/
def stopAll : List Action :=
  .main true :: List.replicate (2 * workers) (.main false) ++
    (List.finRange workers).flatMap (fun i => [.req i .request, .req i .request, .job i]) ++
      List.replicate (2 * workers + 2) (.main false)

def serveOne : List Action :=
  acceptOne ++ List.replicate 6 (.req 0 .request) ++ List.replicate 6 (.job 0) ++ stopAll

theorem shutdown_after_serving :
    ∃ final, replay (step endsThread) (startWith oneByOne) serveOne = some final ∧
      final.main = .joined ∧ final.shared.closings = [(0, .answered 200)] ∧
      (Clean final.shared ↔ Along (step endsThread) (fun s action => ¬ Strands s action)
        (startWith oneByOne) serveOne) := by
  have run : (replay (step endsThread) (startWith oneByOne) serveOne).any (fun final =>
      final.main = .joined ∧ final.shared.closings = [(0, .answered 200)]) = true := by
    decide +kernel
  obtain ⟨final, reached, ends⟩ := (Option.any_eq_true _ _).mp run
  obtain ⟨joined, closings⟩ := of_decide_eq_true ends
  exact ⟨final, reached, joined, closings,
    shutdown_clean_iff oneByOne serveOne final reached (Or.inl joined)⟩

/-- A connection that waits in the list when the shutdown starts ends up behind
the markers, and nobody is left to serve it: neither where all threads are joined, nor
in front of the joins of the code's own array. -/
theorem markers_before_connection :
    (∃ final, replay (step endsThread) (startWith oneByOne) (acceptOne ++ stopAll) = some final ∧
      final.main = .joined ∧ ¬ Clean final.shared) ∧
    ∃ final, replay (step endsThread) start (acceptOne ++ stopAll.take 22) = some final ∧
      (∀ worker, exited final worker = true) ∧ ¬ Clean final.shared := by
  have unclean {s : Shared} (waiting : s.tdList.any isClient = true) : ¬ Clean s := by
    intro clean
    obtain ⟨td, member, client⟩ := List.any_eq_true.mp waiting
    simp [isClient, clean.tdList td member] at client
  constructor
  · have run : (replay (step endsThread) (startWith oneByOne) (acceptOne ++ stopAll)).any (fun final =>
        final.main = .joined ∧ final.shared.tdList.any isClient) = true := by
      decide +kernel
    obtain ⟨final, reached, ends⟩ := (Option.any_eq_true _ _).mp run
    obtain ⟨joined, waiting⟩ := of_decide_eq_true ends
    exact ⟨final, reached, joined, unclean waiting⟩
  · have run : (replay (step endsThread) start (acceptOne ++ stopAll.take 22)).any (fun final =>
        thList.all (exited final) ∧ final.shared.tdList.any isClient) = true := by
      decide +kernel
    obtain ⟨final, reached, ends⟩ := (Option.any_eq_true _ _).mp run
    obtain ⟨ended, waiting⟩ := of_decide_eq_true ends
    exact ⟨final, reached, fun worker => List.all_eq_true.mp ended worker (worker_listed worker),
      unclean waiting⟩

/-! ## The code's own entries -/

section Array
variable {exited : Worker → Bool} {next : MainPhase}

theorem first_round (round : Round tids exited thList [] next) :
    next = .cleaning thList.tail [0] ∨ next = .crashed := by
  have list : thList = .job 0 :: thList.tail := rfl
  rw [list] at round
  cases round with
  | free => exact Or.inl rfl
  | crash => exact Or.inr rfl

/-- The second entry is read from the array that was freed with the first one. -/
theorem second_round (round : Round tids exited thList.tail [0] next) : next = .crashed := by
  have list : thList.tail = .req 0 :: thList.tail.tail := rfl
  rw [list] at round
  cases round with
  | free _ _ _ live => exact absurd (List.mem_singleton.mpr rfl) live
  | crash => rfl

end Array

/-- The cleanup never gets past the second entry. -/
structure OneArray (s : Server) : Prop where
  entries : s.entries = tids
  cleaning : ∀ p1 freed, s.main = .cleaning p1 freed →
    p1 = thList ∧ freed = [] ∨ p1 = thList.tail ∧ freed = [0]
  unjoined : s.main ≠ .joined

theorem start_array : OneArray start := ⟨rfl, nofun, nofun⟩

theorem one_array_step {retire : ThreadData → Shared → Shared} {s next : Server} {action : Action}
    (array : OneArray s) (taken : step retire s action = some next) : OneArray next := by
  cases action with
  | req i result =>
      obtain ⟨phase, shared, _, rfl⟩ := step_req taken
      exact ⟨array.entries, array.cleaning, array.unjoined⟩
  | job i =>
      obtain ⟨phase, shared, _, rfl⟩ := step_job taken
      exact ⟨array.entries, array.cleaning, array.unjoined⟩
  | main shutdown =>
      obtain ⟨phase, shared, moved, rfl⟩ := step_main taken
      have cleans := main_cleans moved
      rw [array.entries] at cleans
      cases cleans with
      | enters k stopping =>
          refine ⟨array.entries, fun p1 freed same => ?_, nofun⟩
          cases same
          exact Or.inl ⟨rfl, rfl⟩
      | other _ apart ahead =>
          exact ⟨array.entries, fun p1 freed same => absurd same (apart p1 freed), ahead⟩
      | onward p1 freed _ cleaning round =>
          rcases array.cleaning p1 freed cleaning with ⟨rfl, rfl⟩ | ⟨rfl, rfl⟩
          · rcases first_round round with rfl | rfl
            · refine ⟨array.entries, fun p1 freed same => ?_, nofun⟩
              cases same
              exact Or.inr ⟨rfl, rfl⟩
            · exact ⟨array.entries, nofun, nofun⟩
          · obtain rfl := second_round round
            exact ⟨array.entries, nofun, nofun⟩

end Ttracker.Shutdown
