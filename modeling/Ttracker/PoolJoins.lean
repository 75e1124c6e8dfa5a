import Ttracker.Holdings
import Ttracker.ServerThreads
import Ttracker.TransitionRuns

/-!
Every pooled object in use, every connection that is open: some thread holds
it, or the td list or the work queue carries it to one. The calls that return
objects to the pools are sound because of that, the stop markers apart.
-/
namespace Ttracker.PoolJoins
open ObjectPools ServerThreads Holdings TransitionRuns

/-- A resource is issued while it is in use; a connection, once accepted. -/
def issued (s : Shared) : Resource → Nat
  | .td obj => (busy s.tds obj).toNat
  | .buffer b => (busy s.buffers b).toNat
  | .connection c => (decide (c < s.accepted)).toNat

/-- The connections that were closed stay accounted for. -/
def settled (s : Shared) : Resource → Nat
  | .connection c => (s.closings.map Prod.fst).count c
  | _ => 0

def books : Ledger Shared Resource where
  kept s r := heldIn ThreadData.holds s.tdList r + heldIn Job.holds s.queue r + settled s r
  issued := issued

def held (s : Server) (r : Resource) : Nat :=
  s.main.holds.count r + heldBy ReqPhase.holds s.req r + heldBy JobPhase.holds s.job r

/-- No join has found its object missing or free, and nothing was aborted. -/
structure JoinsSound (s : Shared) : Prop where
  joins : ∀ call ∈ s.joins, call.2 = true
  running : s.aborted = false

structure Sound (s : Shared) : Prop extends JoinsSound s where
  tds : WellFormed tdPoolAmp tdPoolMaxTd s.tds
  buffers : WellFormed bufferAmp maxBuffers s.buffers

/-- The step keeps the shared state sound and trades these holdings. -/
structure Exchanges (lost gained : List Resource) (s s' : Shared) : Prop where
  sound : Sound s'
  trades : Trades books lost gained s s'

theorem Exchanges.frame {lost gained before after : List Resource} {s s' : Shared}
    (exchange : Exchanges lost gained s s') (rest : List Resource)
    (given : before.Perm (lost ++ rest)) (left : after.Perm (gained ++ rest)) :
    Exchanges before after s s' :=
  ⟨exchange.sound, exchange.trades.frame rest given left⟩

theorem idles {s : Shared} (sound : Sound s) (holding : List Resource) :
    Exchanges holding holding s s := ⟨sound, trades_refl books holding s⟩

section Operations
variable {s s' : Shared}

theorem enqueue_exchanges (sound : Sound s) (td : ThreadData) :
    Exchanges td.holds [] s (tdEnqueue td s) := by
  refine ⟨{ sound with }, fun r => ?_⟩
  simp only [books, tdEnqueue, heldIn_cons, settled, List.count_nil]
  cases r <;> simp only [issued] <;> omega

theorem dequeue_exchanges {td : ThreadData} (sound : Sound s)
    (taken : tdWaitAndDequeue s = some (td, s')) : Exchanges [] td.holds s s' := by
  unfold tdWaitAndDequeue at taken
  split at taken
  · contradiction
  · next rest list =>
      cases taken
      refine ⟨{ sound with }, fun r => ?_⟩
      simp only [books, list, heldIn_cons, List.count_nil]
      cases r <;> simp only [issued, settled] <;> omega

theorem enqueue_job_exchanges (sound : Sound s) (job : Job) :
    Exchanges job.holds [] s (workqEnqueueJob job s) := by
  refine ⟨{ sound with }, fun r => ?_⟩
  simp only [books, workqEnqueueJob, heldIn_append, heldIn_cons, heldIn_nil, List.count_nil]
  cases r <;> simp only [issued, settled] <;> omega

theorem dequeue_job_exchanges {job : Job} (sound : Sound s)
    (taken : workqWaitAndDeqJob s = some (job, s')) : Exchanges [] job.holds s s' := by
  unfold workqWaitAndDeqJob at taken
  split at taken
  · contradiction
  · next rest list =>
      cases taken
      refine ⟨{ sound with }, fun r => ?_⟩
      simp only [books, list, heldIn_cons, List.count_nil]
      cases r <;> simp only [issued, settled] <;> omega

theorem close_exchanges (sound : Sound s) (td : Client) (ending : Ending) :
    Exchanges [.connection td.client] [] s (closeClient td ending s) := by
  refine ⟨{ sound with }, fun r => ?_⟩
  cases r with
  | td obj => simp [books, closeClient, issued, settled]
  | buffer b => simp [books, closeClient, issued, settled]
  | connection c =>
      simp only [books, closeClient, issued, settled, List.map_cons, List.count_cons, List.count_nil,
        beq_iff_eq, Resource.connection.injEq]
      omega

theorem accept_exchanges (sound : Sound s) :
    Exchanges [] [.connection s.accepted] s { s with accepted := s.accepted + 1 } := by
  refine ⟨{ sound with }, fun r => ?_⟩
  cases r with
  | td obj => simp [books, issued, settled]
  | buffer b => simp [books, issued, settled]
  | connection c =>
      -- the new descriptor is the only one that was not accepted before
      rcases Nat.lt_trichotomy c s.accepted with old | same | later
      · simp [books, issued, settled, old, Nat.lt_succ_of_lt old, old.ne']
      · simp [books, issued, settled, same]
        omega
      · have outside : ¬ c < s.accepted + 1 := by omega
        simp [books, issued, settled, outside, later.not_gt, later.ne]

/-- An object of a pool that is handed out was free, and only its mark changes. -/
structure HandsOut (pool : PoolName) (obj : Nat) (s s' : Shared) : Prop where
  sound : Sound s'
  free : issued s (pool.names obj) = 0
  marked : ∀ r, issued s' r = if r = pool.names obj then 1 else issued s r

theorem get_hands_out {got : Option Nat} (pool : PoolName) (sound : Sound s)
    (handed : pool.get s = some (got, s')) : ∃ obj, got = some obj ∧ HandsOut pool obj s s' := by
  cases pool with
  | td =>
      obtain ⟨⟨_, tds⟩, took, same⟩ := Option.map_eq_some_iff.mp handed
      cases same
      obtain ⟨obj, rfl, free, formed, marked⟩ := take_spec (by decide) (by decide) sound.tds took
      refine ⟨obj, rfl, { sound with tds := formed }, by simp [PoolName.names, issued, free], fun r => ?_⟩
      cases r with
      | td other => by_cases here : other = obj <;> simp [PoolName.names, issued, marked, here]
      | buffer | connection => simp [PoolName.names, issued]
  | buffer =>
      obtain ⟨⟨_, buffers⟩, took, same⟩ := Option.map_eq_some_iff.mp handed
      cases same
      obtain ⟨b, rfl, free, formed, marked⟩ := take_spec (by decide) (by decide) sound.buffers took
      refine ⟨b, rfl, { sound with buffers := formed }, by simp [PoolName.names, issued, free], fun r => ?_⟩
      cases r with
      | buffer other => by_cases here : other = b <;> simp [PoolName.names, issued, marked, here]
      | td | connection => simp [PoolName.names, issued]

theorem get_exchanges {Phase : Type} {phase next : Phase} {into : Nat → Phase} (pool : PoolName)
    (sound : Sound s) (taken : (pool.get s).map (deref phase into) = some (next, s')) :
    ∃ obj, next = into obj ∧ Exchanges [] [pool.names obj] s s' := by
  obtain ⟨same, -⟩ := get_keeps pool taken (fun _ => ()) fun _ => rfl
  obtain ⟨⟨got, s₁⟩, handed, used⟩ := Option.map_eq_some_iff.mp taken
  obtain ⟨obj, rfl, out⟩ := get_hands_out pool sound handed
  cases used
  refine ⟨obj, rfl, out.sound, fun r => ?_⟩
  have kept : books.kept s' r = books.kept s r := by
    cases r <;> simp only [books, settled, same.tdList, same.queue, same.closings]
  have marked : books.issued s' r = if r = pool.names obj then 1 else books.issued s r := out.marked r
  rw [kept, marked]
  by_cases here : r = pool.names obj
  · subst here
    have free : books.issued s (pool.names obj) = 0 := out.free
    simp [free]
    omega
  · simp [here, Ne.symm here]

theorem join_td_exchanges (sound : Sound s) (td : Client) (used : 0 < issued s (.td td.obj)) :
    Exchanges [.td td.obj] [] s (tdPoolJoinTd (.client td) s) := by
  have inUse : busy s.tds td.obj = true := by
    cases status : busy s.tds td.obj with
    | true => rfl
    | false => simp [issued, status] at used
  obtain ⟨tds, given, formed, marked⟩ := give_back_spec sound.tds inUse
  have joined : tdPoolJoinTd (.client td) s =
      { s with joins := (.td (.client td), true) :: s.joins, tds := tds } := by
    simp [tdPoolJoinTd, given, inUse]
  rw [joined]
  refine ⟨{ sound with tds := formed, joins := by simpa using sound.joins }, fun r => ?_⟩
  cases r with
  | buffer b => simp [books, issued, settled]
  | connection c => simp [books, issued, settled]
  | td other =>
      by_cases here : other = td.obj
      · subst here
        simp [books, issued, settled, marked, inUse]
        omega
      · simp [books, issued, settled, marked, here, Ne.symm here]

theorem join_buffer_exchanges (sound : Sound s) (b : Nat) (used : 0 < issued s (.buffer b)) :
    Exchanges [.buffer b] [] s (bufferPoolJoinBuffer b s) := by
  have inUse : busy s.buffers b = true := by
    cases status : busy s.buffers b with
    | true => rfl
    | false => simp [issued, status] at used
  obtain ⟨buffers, given, formed, marked⟩ := give_back_spec sound.buffers inUse
  have joined : bufferPoolJoinBuffer b s =
      { s with joins := (.buffer b, true) :: s.joins, buffers := buffers } := by
    simp [bufferPoolJoinBuffer, given, inUse]
  rw [joined]
  refine ⟨{ sound with buffers := formed, joins := by simpa using sound.joins }, fun r => ?_⟩
  cases r with
  | td obj => simp [books, issued, settled]
  | connection c => simp [books, issued, settled]
  | buffer other =>
      by_cases here : other = b
      · subst here
        simp [books, issued, settled, marked, inUse]
        omega
      · simp [books, issued, settled, marked, here, Ne.symm here]

end Operations

/-! ## Steps of one thread -/

section Threads
variable {s s' : Shared}

theorem main_step_exchanges {shutdown : Bool} {entries : Worker → Address} {exited : Worker → Bool}
    {phase next : MainPhase} (sound : Sound s)
    (taken : mainStep shutdown entries exited s phase = some (next, s')) :
    Exchanges phase.holds next.holds s s' := by
  cases phase with
  | accepting =>
      rw [mainStep] at taken
      split at taken
      · cases taken
        exact idles sound []
      · cases taken
        exact accept_exchanges sound
  | accepted c =>
      obtain ⟨obj, rfl, exchange⟩ := get_exchanges .td sound taken
      exact exchange.frame [.connection c] (List.Perm.refl _) (List.Perm.refl _)
  | filled td =>
      cases taken
      exact enqueue_exchanges sound (.client td)
  | stopping k =>
      rw [mainStep] at taken
      split at taken
      · cases taken
        exact enqueue_exchanges sound (.stop k)
      · cases taken
        exact idles sound []
  | stoppingJob k =>
      cases taken
      exact enqueue_job_exchanges sound .stop
  | cleaning p1 freed =>
      obtain ⟨rfl, round⟩ := cleaning_round taken
      cases round <;> exact idles sound []
  | joined => contradiction
  | crashed => contradiction

/-- A request thread joins what it holds; a stop marker is not among that. -/
theorem req_step_exchanges {retire : ThreadData → Shared → Shared} {result : ReadResult}
    {phase next : ReqPhase} (sound : Sound s)
    (retires : ∀ k, phase = .gotTd (.stop k) → Exchanges [] [] s (retire (.stop k) s))
    (owned : ∀ r ∈ phase.holds, 0 < issued s r)
    (taken : reqStep retire result s phase = some (next, s')) :
    Exchanges phase.holds next.holds s s' := by
  cases phase with
  | waiting =>
      obtain ⟨⟨td, s₁⟩, dequeued, same⟩ := Option.map_eq_some_iff.mp taken
      cases same
      exact dequeue_exchanges sound dequeued
  | gotTd td =>
      cases td with
      | stop k =>
          cases taken
          exact retires k rfl
      | client td =>
          obtain ⟨b, rfl, exchange⟩ := get_exchanges .buffer sound taken
          exact exchange.frame td.holds (List.Perm.refl _) (List.Perm.refl _)
  | reading td b =>
      cases result <;> cases taken <;> exact idles sound (.buffer b :: td.holds)
  | failing td b =>
      obtain ⟨e, rfl, exchange⟩ := get_exchanges .buffer sound taken
      exact exchange.frame (.buffer b :: td.holds) (List.Perm.refl _) (List.Perm.refl _)
  | failingWith td b e =>
      obtain ⟨response, rfl, exchange⟩ := get_exchanges .buffer sound taken
      exact exchange.frame (.buffer e :: .buffer b :: td.holds) (List.Perm.refl _) (List.Perm.refl _)
  | responding td b e response =>
      cases taken
      exact (join_buffer_exchanges sound response (owned _ List.mem_cons_self)).frame
        (.buffer e :: .buffer b :: td.holds) (List.Perm.refl _) (List.Perm.refl _)
  | responded td b e =>
      cases taken
      exact (join_buffer_exchanges sound e (owned _ List.mem_cons_self)).frame
        (.buffer b :: td.holds) (List.Perm.refl _) (List.Perm.refl _)
  | closing td b ending =>
      cases taken
      exact (close_exchanges sound td ending).frame [.buffer b, .td td.obj]
        (List.perm_append_singleton _ [_, _]) (List.Perm.refl _)
  | closed td b =>
      cases taken
      exact (join_buffer_exchanges sound b (owned _ List.mem_cons_self)).frame
        [.td td.obj] (List.Perm.refl _) (List.Perm.refl _)
  | returning td =>
      cases taken
      exact join_td_exchanges sound td (owned _ List.mem_cons_self)
  | parsed td b =>
      obtain ⟨out, rfl, exchange⟩ := get_exchanges .buffer sound taken
      exact exchange.frame (.buffer b :: td.holds) (List.Perm.refl _) (List.Perm.refl _)
  | enqueueing td b out =>
      cases taken
      -- the job takes the client along; the read buffer stays with the thread
      exact (enqueue_job_exchanges sound (.request td out)).frame [.buffer b]
        ((List.perm_append_singleton _ td.holds).symm.cons _) (List.Perm.refl _)
  | finishing b =>
      cases taken
      exact join_buffer_exchanges sound b (owned _ List.mem_cons_self)
  | exited => contradiction

theorem job_start_holds (job : Job) : (jobStart job).holds = job.holds := by
  cases job <;> rfl

theorem job_step_exchanges {phase next : JobPhase} (sound : Sound s)
    (owned : ∀ r ∈ phase.holds, 0 < issued s r) (taken : jobStep s phase = some (next, s')) :
    Exchanges phase.holds next.holds s s' := by
  cases phase with
  | waiting =>
      obtain ⟨⟨job, s₁⟩, dequeued, same⟩ := Option.map_eq_some_iff.mp taken
      cases same
      exact job_start_holds job ▸ dequeue_job_exchanges sound dequeued
  | working td out =>
      obtain ⟨response, rfl, exchange⟩ := get_exchanges .buffer sound taken
      exact exchange.frame (.buffer out :: td.holds) (List.Perm.refl _) (List.Perm.refl _)
  | responding td out response =>
      cases taken
      exact (join_buffer_exchanges sound response (owned _ List.mem_cons_self)).frame
        (.buffer out :: td.holds) (List.Perm.refl _) (List.Perm.refl _)
  | responded td out =>
      cases taken
      exact (close_exchanges sound td (.answered 200)).frame [.buffer out, .td td.obj]
        (List.perm_append_singleton _ [_, _]) (List.Perm.refl _)
  | closed td out =>
      cases taken
      exact (join_buffer_exchanges sound out (owned _ List.mem_cons_self)).frame
        [.td td.obj] (List.Perm.refl _) (List.Perm.refl _)
  | returning td =>
      cases taken
      exact join_td_exchanges sound td (owned _ List.mem_cons_self)
  | exited => contradiction

end Threads

/-! ## Runs of the server -/

structure Inv (s : Server) : Prop where
  sound : Sound s.shared
  balanced : Balanced books (held s) s.shared

theorem step_keeps {retire : ThreadData → Shared → Shared} {s next : Server} {action : Action}
    (inv : Inv s)
    (retires : ∀ i result k, action = .req i result → s.req i = .gotTd (.stop k) →
      Exchanges [] [] s.shared (retire (.stop k) s.shared))
    (taken : step retire s action = some next) : Inv next := by
  cases action with
  | main shutdown =>
      obtain ⟨phase, shared, moved, rfl⟩ := step_main taken
      have exchange := main_step_exchanges inv.sound moved
      refine ⟨exchange.sound, exchange.trades.balanced (fun r => ?_) inv.balanced⟩
      simp only [held]
      omega
  | req i result =>
      obtain ⟨phase, shared, moved, rfl⟩ := step_req taken
      have part : ∀ r, (s.req i).holds.count r ≤ held s r := fun r => by
        have below := count_le_heldBy ReqPhase.holds s.req r i
        simp only [held]
        omega
      have exchange := req_step_exchanges inv.sound (fun k => retires i result k rfl)
        (fun r member => inv.balanced.issued part member) moved
      refine ⟨exchange.sound, exchange.trades.balanced (fun r => ?_) inv.balanced⟩
      have update := heldBy_update ReqPhase.holds s.req r i phase
      simp only [held]
      omega
  | job i =>
      obtain ⟨phase, shared, moved, rfl⟩ := step_job taken
      have part : ∀ r, (s.job i).holds.count r ≤ held s r := fun r => by
        have below := count_le_heldBy JobPhase.holds s.job r i
        simp only [held]
        omega
      have exchange := job_step_exchanges inv.sound
        (fun r member => inv.balanced.issued part member) moved
      refine ⟨exchange.sound, exchange.trades.balanced (fun r => ?_) inv.balanced⟩
      have update := heldBy_update JobPhase.holds s.job r i phase
      simp only [held]
      omega

theorem start_inv (entries : Worker → Address) : Inv (startWith entries) := by
  have tds : populate tdPoolAmp tdPoolMaxTd Pool.empty = some (startWith entries).shared.tds := rfl
  have buffers : populate bufferAmp maxBuffers Pool.empty =
      some (startWith entries).shared.buffers := rfl
  refine ⟨⟨⟨by simp [startWith], rfl⟩, fresh_pool_formed (by decide) tds,
    fresh_pool_formed (by decide) buffers⟩, fun r => ?_⟩
  have idleReq := heldBy_empty ReqPhase.holds (startWith entries).req r fun _ => rfl
  have idleJob := heldBy_empty JobPhase.holds (startWith entries).job r fun _ => rfl
  have free : books.issued (startWith entries).shared r = 0 := by
    cases r with
    | connection c => simp [books, issued, startWith]
    | td obj => exact congrArg Bool.toNat (populate_busy tds obj)
    | buffer b => exact congrArg Bool.toNat (populate_busy buffers b)
  rw [held, idleReq, idleJob, free]
  cases r <;> rfl

/-- The step joins a stop marker to a pool. -/
def RetiresMarker (s : Server) : Action → Prop
  | .req i _ => ∃ td, s.req i = .gotTd td ∧ tdNull td = true
  | _ => False

/-- Every join is sound and the process does not abort in exactly the runs in
which no request thread goes on with a stop marker it has dequeued. -/
theorem joins_sound_iff (run : List Action) :
    Throughout (step tdPoolJoinTd) (fun s => JoinsSound s.shared) start run ↔
      Along (step tdPoolJoinTd) (fun s action => ¬ RetiresMarker s action) start run := by
  apply throughout_iff_along _ _ _ Inv
  · exact fun s inv => inv.sound.toJoinsSound
  · intro s action next inv keeps taken
    apply step_keeps inv _ taken
    rintro i result k rfl got
    exact absurd ⟨.stop k, got, rfl⟩ keeps
  · intro s action next inv retiring taken sound
    cases action with
    | main shutdown => exact retiring id
    | job i => exact retiring id
    | req i result =>
        obtain ⟨td, got, marker⟩ := not_not.mp retiring
        cases td with
        | client td => contradiction
        | stop k =>
            obtain ⟨phase, shared, moved, rfl⟩ := step_req taken
            rw [got] at moved
            cases moved
            exact absurd sound.running (by simp [tdPoolJoinTd, abort])
  · exact start_inv tids

/-- The shutdown puts its first marker into the list and a request thread takes it. -/
theorem shutdown_joins_marker :
    ∃ final, replay (step tdPoolJoinTd) start
        [.main true, .main false, .req 0 .request, .req 0 .request] = some final ∧
      (JoinCall.td (.stop 0), false) ∈ final.shared.joins ∧ final.shared.aborted = true ∧
      ¬ JoinsSound final.shared := by
  refine ⟨_, rfl, by decide, rfl, fun sound => ?_⟩
  exact absurd sound.running (by decide)

end Ttracker.PoolJoins
