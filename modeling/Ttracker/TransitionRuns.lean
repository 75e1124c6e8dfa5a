import Mathlib.Tactic.Common

/-!
Finite runs of a partial step function. A run is the list of actions taken; an
action that is not enabled ends it. `Along` puts a condition on every step that
is taken and `Throughout` one on every state that is reached.
-/
namespace TransitionRuns

universe u v w
variable {State : Type u} {Action : Type v}

def replay (step : State → Action → Option State) : State → List Action → Option State
  | state, [] => some state
  | state, action :: rest => (step state action).bind fun next => replay step next rest

def Along (step : State → Action → Option State) (allowed : State → Action → Prop) :
    State → List Action → Prop
  | _, [] => True
  | state, action :: rest =>
      ∀ next, step state action = some next →
        allowed state action ∧ Along step allowed next rest

def Throughout (step : State → Action → Option State) (good : State → Prop) :
    State → List Action → Prop
  | state, [] => good state
  | state, action :: rest =>
      good state ∧ ∀ next, step state action = some next → Throughout step good next rest

theorem replay_invariant (step : State → Action → Option State)
    (allowed : State → Action → Prop) (invariant : State → Prop)
    (kept : ∀ state action next, invariant state → allowed state action →
      step state action = some next → invariant next)
    (state final : State) (run : List Action) (initial : invariant state)
    (along : Along step allowed state run) (reached : replay step state run = some final) :
    invariant final := by
  induction run generalizing state with
  | nil => cases reached; exact initial
  | cons action rest ih =>
      obtain ⟨next, taken, onward⟩ := Option.bind_eq_some_iff.mp reached
      have here := along next taken
      exact ih next (kept state action next initial here.1 taken) here.2 onward

theorem along_always (step : State → Action → Option State) (state : State)
    (run : List Action) : Along step (fun _ _ => True) state run := by
  induction run generalizing state with
  | nil => trivial
  | cons action rest ih => exact fun next _ => ⟨trivial, ih next⟩

/-- Without a condition on the steps the invariant holds in every reachable state. -/
theorem reachable_invariant (step : State → Action → Option State)
    (invariant : State → Prop)
    (kept : ∀ state action next, invariant state →
      step state action = some next → invariant next)
    (state final : State) (run : List Action) (initial : invariant state)
    (reached : replay step state run = some final) : invariant final :=
  replay_invariant step (fun _ _ => True) invariant
    (fun state action next holds _ => kept state action next holds)
    state final run initial (along_always step state run) reached

/-- A condition on every step is a condition on the state each beginning of the run leads to. -/
theorem along_of_prefixes (step : State → Action → Option State) (allowed : State → Action → Prop)
    (state : State) (run : List Action)
    (granted : ∀ n here action, replay step state (run.take n) = some here →
      run[n]? = some action → allowed here action) : Along step allowed state run := by
  induction run generalizing state with
  | nil => trivial
  | cons action rest ih =>
      intro next taken
      refine ⟨granted 0 state action rfl rfl, ih next fun n here later reached there => ?_⟩
      refine granted (n + 1) here later ?_ there
      rw [List.take_succ_cons, replay, taken, Option.bind_some, reached]

theorem throughout_start (step : State → Action → Option State) (good : State → Prop)
    (state : State) (run : List Action) (whole : Throughout step good state run) :
    good state := by
  cases run with
  | nil => exact whole
  | cons action rest => exact whole.1

theorem throughout_replay (step : State → Action → Option State) (good : State → Prop)
    (state final : State) (run : List Action) (whole : Throughout step good state run)
    (reached : replay step state run = some final) : good final := by
  induction run generalizing state with
  | nil => cases reached; exact whole
  | cons action rest ih =>
      obtain ⟨next, taken, onward⟩ := Option.bind_eq_some_iff.mp reached
      exact ih next (whole.2 next taken) onward

/-- A step condition is exact for a state property when an allowed step keeps
the invariant, the invariant gives the property, and a step that is not allowed
breaks the property at once. -/
theorem throughout_iff_along (step : State → Action → Option State)
    (allowed : State → Action → Prop) (good invariant : State → Prop)
    (holds : ∀ state, invariant state → good state)
    (kept : ∀ state action next, invariant state → allowed state action →
      step state action = some next → invariant next)
    (breaks : ∀ state action next, invariant state → ¬ allowed state action →
      step state action = some next → ¬ good next)
    (state : State) (run : List Action) (initial : invariant state) :
    Throughout step good state run ↔ Along step allowed state run := by
  induction run generalizing state with
  | nil => exact ⟨fun _ => trivial, fun _ => holds state initial⟩
  | cons action rest ih =>
      constructor
      · intro whole next taken
        have here : allowed state action := by
          by_contra refused
          exact breaks state action next initial refused taken
            (throughout_start step good next rest (whole.2 next taken))
        have onward := ih next (kept state action next initial here taken)
        exact ⟨here, onward.mp (whole.2 next taken)⟩
      · intro along
        refine ⟨holds state initial, fun next taken => ?_⟩
        have here := along next taken
        exact (ih next (kept state action next initial here.1 taken)).mpr here.2

theorem throughout_always (step : State → Action → Option State) (good invariant : State → Prop)
    (holds : ∀ state, invariant state → good state)
    (kept : ∀ state action next, invariant state → step state action = some next → invariant next)
    (state : State) (run : List Action) (initial : invariant state) :
    Throughout step good state run := by
  induction run generalizing state with
  | nil => exact holds state initial
  | cons action rest ih =>
      exact ⟨holds state initial, fun next taken => ih next (kept state action next initial taken)⟩

/-- A condition on the steps of an abstract machine that takes every action. -/
def Meets {Abstract : Type w} (move : Abstract → Action → Abstract)
    (allowed : Abstract → Action → Prop) : Abstract → List Action → Prop
  | _, [] => True
  | state, action :: rest => allowed state action ∧ Meets move allowed (move state action) rest

theorem meets_append {Abstract : Type w} (move : Abstract → Action → Abstract)
    (allowed : Abstract → Action → Prop) (state : Abstract) (front back : List Action)
    (whole : Meets move allowed state (front ++ back)) :
    Meets move allowed state front ∧ Meets move allowed (front.foldl move state) back := by
  induction front generalizing state with
  | nil => exact ⟨trivial, whole⟩
  | cons action rest ih =>
      obtain ⟨before, behind⟩ := ih (move state action) whole.2
      exact ⟨⟨whole.1, before⟩, behind⟩

theorem meets_map {Abstract : Type w} {Event : Type v} (read : Event → Action)
    (move : Abstract → Action → Abstract) (allowed : Abstract → Action → Prop) (state : Abstract)
    (events : List Event) (meets : Meets move allowed state (events.map read)) :
    Meets (fun state event => move state (read event)) (fun state event => allowed state (read event))
      state events := by
  induction events generalizing state with
  | nil => trivial
  | cons event rest ih => exact ⟨meets.1, ih _ meets.2⟩

/-- Where every allowed action of the abstract machine is a step of the concrete one, the
concrete machine takes the whole run and ends where the abstract one does. -/
theorem replay_simulates {Abstract : Type w} (step : State → Action → Option State)
    (move : Abstract → Action → Abstract) (allowed : Abstract → Action → Prop)
    (related : State → Abstract → Prop)
    (simulates : ∀ concrete state action, related concrete state → allowed state action →
      ∃ next, step concrete action = some next ∧ related next (move state action))
    (concrete : State) (state : Abstract) (run : List Action) (initial : related concrete state)
    (meets : Meets move allowed state run) :
    ∃ final, replay step concrete run = some final ∧ related final (run.foldl move state) := by
  induction run generalizing concrete state with
  | nil => exact ⟨concrete, rfl, initial⟩
  | cons action rest ih =>
      obtain ⟨next, taken, onward⟩ := simulates concrete state action initial meets.1
      obtain ⟨final, reached, ends⟩ := ih next (move state action) onward meets.2
      exact ⟨final, by rw [replay, taken, Option.bind_some, reached], ends⟩

theorem meets_iff_splits {Abstract : Type w} (move : Abstract → Action → Abstract)
    (allowed : Abstract → Action → Prop) (state : Abstract) (run : List Action) :
    Meets move allowed state run ↔
      ∀ front action back, run = front ++ action :: back →
        allowed (front.foldl move state) action := by
  induction run generalizing state with
  | nil => simp [Meets]
  | cons first rest ih =>
      rw [Meets, ih]
      constructor
      · rintro ⟨here, later⟩ front action back split
        cases front with
        | nil =>
            cases split
            exact here
        | cons head tail =>
            cases split
            exact later tail action back rfl
      · intro whole
        exact ⟨whole [] first rest rfl,
          fun front action back split => whole (first :: front) action back (by rw [split]; rfl)⟩

/-- A machine whose steps are enabled by what an abstract machine reads of its
state takes a run exactly when the abstract one may. -/
theorem replay_taken_iff {Abstract : Type w} (step : State → Action → Option State)
    (move : Abstract → Action → Abstract) (allowed : Abstract → Action → Prop)
    (read : State → Abstract) (invariant : State → Prop)
    (enabled : ∀ state action, invariant state →
      ((∃ next, step state action = some next) ↔ allowed (read state) action))
    (follows : ∀ state action next, invariant state → step state action = some next →
      invariant next ∧ read next = move (read state) action)
    (state : State) (run : List Action) (initial : invariant state) :
    (∃ final, replay step state run = some final) ↔ Meets move allowed (read state) run := by
  induction run generalizing state with
  | nil => simp [replay, Meets]
  | cons action rest ih =>
      constructor
      · rintro ⟨final, reached⟩
        obtain ⟨next, taken, onward⟩ := Option.bind_eq_some_iff.mp reached
        obtain ⟨kept, moved⟩ := follows state action next initial taken
        refine ⟨(enabled state action initial).mp ⟨next, taken⟩, ?_⟩
        rw [← moved]
        exact (ih next kept).mp ⟨final, onward⟩
      · rintro ⟨here, later⟩
        obtain ⟨next, taken⟩ := (enabled state action initial).mpr here
        obtain ⟨kept, moved⟩ := follows state action next initial taken
        rw [← moved] at later
        obtain ⟨final, onward⟩ := (ih next kept).mpr later
        exact ⟨final, by rw [replay, taken, Option.bind_some, onward]⟩

theorem replay_append (step : State → Action → Option State) (state : State)
    (front back : List Action) :
    replay step state (front ++ back) =
      (replay step state front).bind fun middle => replay step middle back := by
  induction front generalizing state with
  | nil => rfl
  | cons action rest ih =>
      rw [List.cons_append, replay, replay, Option.bind_assoc]
      exact congrArg _ (funext fun next => ih next)

/-- A mark that some steps set and none clears is there at the end of a run
exactly when it was there before or one of those steps was taken. -/
theorem replay_marked_iff (step : State → Action → Option State)
    (marks : State → Action → Prop) (marked invariant : State → Prop)
    (kept : ∀ state action next, invariant state →
      step state action = some next → invariant next)
    (effect : ∀ state action next, invariant state → step state action = some next →
      (marked next ↔ marked state ∨ marks state action))
    (state final : State) (run : List Action) (initial : invariant state)
    (reached : replay step state run = some final) :
    marked final ↔ marked state ∨
      ¬ Along step (fun state action => ¬ marks state action) state run := by
  induction run generalizing state with
  | nil =>
      cases reached
      simp [Along]
  | cons action rest ih =>
      obtain ⟨next, taken, onward⟩ := Option.bind_eq_some_iff.mp reached
      have later := ih next (kept state action next initial taken) onward
      have here := effect state action next initial taken
      have along : Along step (fun state action => ¬ marks state action) state (action :: rest) ↔
          ¬ marks state action ∧ Along step (fun state action => ¬ marks state action) next rest := by
        constructor
        · exact fun whole => whole next taken
        · intro both other same
          cases taken.symm.trans same
          exact both
      rw [later, here, along, not_and_or, not_not, or_assoc]

end TransitionRuns
