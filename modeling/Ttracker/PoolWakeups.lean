import Ttracker.PoolSignals
import Ttracker.SharedPools

/-!
`wait_for_free_buffer` and `wait_for_free_td` with the condition variable they sleep
on, which every join signals.
-/
namespace Ttracker.PoolWakeups
open PoolSignals TransitionRuns HttpQuery SharedPools

/-- What holds of a run of the callers of one pool. -/
structure Served {Caller Content : Type} [DecidableEq Caller] [Fintype Caller]
    (k : PoolCallers.Kind Content) (run : List (Action Caller Content)) : Prop where
  wakes : Throughout (step k) (Wakes k) (start k) run
  plain : ∀ final, replay (step k) (start k) run = some final →
    ∃ moves, replay (PoolCallers.step k) (PoolCallers.start k) moves = some final.callers

/-- Of the callers that wait for a buffer or a `thread_data` none sleeps on beside a
free object unless another caller has been woken for it, in any run of any number of
callers with all their signals; and the signals change nothing else. -/
theorem pools_wake_sleepers (Caller : Type) [DecidableEq Caller] [Fintype Caller] :
    (∀ run : List (Action Caller Buffer), Served bufferPool run) ∧
      ∀ (Content : Type) (fresh : Nat → Content) (run : List (Action Caller Content)),
        Served (tdPool fresh) run := by
  constructor
  · exact fun run => ⟨run_wakes bufferPool run, run_refines bufferPool run⟩
  · intro Content fresh run
    exact ⟨run_wakes (tdPool fresh) run, run_refines (tdPool fresh) run⟩

end Ttracker.PoolWakeups
