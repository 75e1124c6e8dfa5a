import Ttracker.Buffers
import Ttracker.PoolCallers
import Ttracker.ServerThreads

/-!
The buffer pool and the pool of `struct thread_data` under any number of callers.
-/
namespace Ttracker.SharedPools
open ObjectPools PoolCallers TransitionRuns HttpQuery Buffers ServerThreads

/-- Joining a buffer zeroes it. -/
def bufferPool : Kind Buffer where
  amp := bufferAmp
  limit := maxBuffers
  fresh _ := mkBuffer
  reset := bufferZeroBuffer
  clean b := b.cursor = 0
  positive := by decide
  divides := by decide
  freshClean _ := rfl
  resetClean _ := rfl

/-- Joining a `thread_data` leaves what it contains to the application. -/
def tdPool {Content : Type} (fresh : Nat → Content) : Kind Content where
  amp := tdPoolAmp
  limit := tdPoolMaxTd
  fresh := fresh
  reset := id
  clean _ := True
  positive := by decide
  divides := by decide
  freshClean _ := trivial
  resetClean _ := trivial

section Server
variable {Caller Content : Type} [DecidableEq Caller] (shared : Shared) (c : Caller)

/-! The pools of the server are used this way. -/

theorem buffer_pool_get_buffer_enters (s : Callers Caller Buffer) (same : shared.buffers = s.pool) :
    (bufferPoolGetBuffer shared).map (fun (got, after) => (got, after.buffers)) =
      (enter bufferPool s c).map fun (got, next) => (got, next.pool) := by
  rw [enter_takes, ← same, bufferPoolGetBuffer, Option.map_map]
  exact congrFun Option.map_id _

theorem td_pool_get_td_enters (fresh : Nat → Content) (s : Callers Caller Content)
    (same : shared.tds = s.pool) :
    (tdPoolGetTd shared).map (fun (got, after) => (got, after.tds)) =
      (enter (tdPool fresh) s c).map fun (got, next) => (got, next.pool) := by
  rw [enter_takes, ← same, tdPoolGetTd, Option.map_map]
  exact congrFun Option.map_id _

theorem buffer_pool_join_buffer_joins (s next : Callers Caller Buffer) (b : Nat)
    (same : shared.buffers = s.pool) (joined : join bufferPool s c b = some next) :
    (bufferPoolJoinBuffer b shared).buffers = next.pool := by
  obtain ⟨pool, given, rfl⟩ := Option.map_eq_some_iff.mp joined
  simp [bufferPoolJoinBuffer, same, given]

theorem td_pool_join_td_joins (fresh : Nat → Content) (s next : Callers Caller Content)
    (td : Client) (same : shared.tds = s.pool) (joined : join (tdPool fresh) s c td.obj = some next) :
    (tdPoolJoinTd (.client td) shared).tds = next.pool := by
  obtain ⟨pool, given, rfl⟩ := Option.map_eq_some_iff.mp joined
  simp [tdPoolJoinTd, same, given]

end Server

/-- Both pools hand out only free objects, count right and take back only what they
are given, whatever their callers do with what they hold. -/
theorem pools_sound (Caller : Type) [DecidableEq Caller] :
    (∀ run : List (PoolCallers.Action Caller Buffer),
      Throughout (step bufferPool) (Sound bufferPool) (start bufferPool) run) ∧
    ∀ (Content : Type) (fresh : Nat → Content) (run : List (PoolCallers.Action Caller Content)),
      Throughout (step (tdPool fresh)) (Sound (tdPool fresh)) (start (tdPool fresh)) run := by
  constructor
  · exact run_sound bufferPool
  · intro Content fresh
    exact run_sound (tdPool fresh)

end Ttracker.SharedPools
