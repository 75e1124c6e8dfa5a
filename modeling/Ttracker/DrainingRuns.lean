import Mathlib.Algebra.BigOperators.Fin
import Mathlib.Algebra.Order.BigOperators.Group.Finset
import Ttracker.TransitionRuns

/-!
Runs that use something up. When every step lowers a measure no run is longer
than the measure of its first state, and every run goes on to a state in which
nothing is enabled. The second half is about measures that add up the weights of
threads and of the items between them.
-/
namespace DrainingRuns
open TransitionRuns

universe u v w
variable {State : Type u} {Action : Type v}

/-- No action is enabled. -/
def Stuck (step : State → Action → Option State) (state : State) : Prop :=
  ∀ action, step state action = none

section Measures
variable {step : State → Action → Option State} {measure : State → Nat} {invariant : State → Prop}

theorem run_uses
    (kept : ∀ state action next, invariant state →
      step state action = some next → invariant next)
    (lowers : ∀ state action next, invariant state →
      step state action = some next → measure next < measure state)
    (state final : State) (run : List Action) (initial : invariant state)
    (reached : replay step state run = some final) :
    run.length + measure final ≤ measure state := by
  induction run generalizing state with
  | nil =>
      cases reached
      simp
  | cons action rest ih =>
      obtain ⟨next, taken, onward⟩ := Option.bind_eq_some_iff.mp reached
      have later := ih next (kept state action next initial taken) onward
      have here := lowers state action next initial taken
      rw [List.length_cons]
      omega

/-- A run is stuck at the latest when the measure is used up. -/
theorem runs_until_stuck
    (kept : ∀ state action next, invariant state →
      step state action = some next → invariant next)
    (lowers : ∀ state action next, invariant state →
      step state action = some next → measure next < measure state)
    (state : State) (initial : invariant state) :
    ∃ run final, replay step state run = some final ∧ Stuck step final := by
  generalize bound : measure state = n
  induction n using Nat.strong_induction_on generalizing state with
  | _ n ih =>
      by_cases stuck : Stuck step state
      · exact ⟨[], state, rfl, stuck⟩
      · obtain ⟨action, enabled⟩ := not_forall.mp stuck
        obtain ⟨next, taken⟩ := Option.ne_none_iff_exists'.mp enabled
        have here := lowers state action next initial taken
        obtain ⟨run, final, reached, ends⟩ :=
          ih (measure next) (by omega) next (kept state action next initial taken) rfl
        exact ⟨action :: run, final, by rw [replay, taken, Option.bind_some, reached], ends⟩

/-- Where to be stuck is to have ended, every run ends, and within the measure it starts with. -/
theorem ends_within
    (kept : ∀ state action next, invariant state →
      step state action = some next → invariant next)
    (lowers : ∀ state action next, invariant state →
      step state action = some next → measure next < measure state)
    {ended : State → Prop} (settles : ∀ state, invariant state → (Stuck step state ↔ ended state))
    (state : State) (initial : invariant state) :
    (∀ run final, replay step state run = some final →
      run.length ≤ measure state ∧ (Stuck step final ↔ ended final)) ∧
      ∃ run final, replay step state run = some final ∧ ended final := by
  have holds : ∀ run final, replay step state run = some final → invariant final :=
    fun run final reached => reachable_invariant step invariant kept state final run initial reached
  constructor
  · intro run final reached
    have used := run_uses kept lowers state final run initial reached
    exact ⟨by omega, settles final (holds run final reached)⟩
  · obtain ⟨run, final, reached, stuck⟩ := runs_until_stuck kept lowers state initial
    exact ⟨run, final, reached, (settles final (holds run final reached)).mp stuck⟩

end Measures

/-! ## Weights of threads and items -/

section Weights
variable {Thread Phase Item : Type w} [Fintype Thread]

def threadsWeigh (weight : Phase → Nat) (threads : Thread → Phase) : Nat :=
  ∑ thread, weight (threads thread)

def itemsWeigh (weight : Item → Nat) (items : List Item) : Nat := (items.map weight).sum

@[simp] theorem items_weigh_nil (weight : Item → Nat) : itemsWeigh weight [] = 0 := rfl

@[simp] theorem items_weigh_cons (weight : Item → Nat) (item : Item) (items : List Item) :
    itemsWeigh weight (item :: items) = weight item + itemsWeigh weight items := by
  simp [itemsWeigh]

@[simp] theorem items_weigh_append (weight : Item → Nat) (front back : List Item) :
    itemsWeigh weight (front ++ back) = itemsWeigh weight front + itemsWeigh weight back := by
  simp [itemsWeigh]

theorem threads_weigh_update [DecidableEq Thread] (weight : Phase → Nat) (threads : Thread → Phase)
    (thread : Thread) (phase : Phase) :
    threadsWeigh weight (Function.update threads thread phase) + weight (threads thread) =
      threadsWeigh weight threads + weight phase := by
  have before := Finset.add_sum_erase Finset.univ (fun other => weight (threads other))
    (Finset.mem_univ thread)
  have after := Finset.add_sum_erase Finset.univ
    (fun other => weight (Function.update threads thread phase other)) (Finset.mem_univ thread)
  have others : ∑ other ∈ Finset.univ.erase thread,
        weight (Function.update threads thread phase other) =
      ∑ other ∈ Finset.univ.erase thread, weight (threads other) := by
    apply Finset.sum_congr rfl
    intro other member
    rw [Function.update_of_ne (Finset.ne_of_mem_erase member)]
  simp only [Function.update_self] at after
  simp only [threadsWeigh]
  omega

theorem threads_weigh_le {weight other : Phase → Nat} (k c : Nat) (threads : Thread → Phase)
    (each : ∀ phase, weight phase ≤ k * other phase + c) :
    threadsWeigh weight threads ≤ k * threadsWeigh other threads + Fintype.card Thread * c := by
  calc threadsWeigh weight threads
      ≤ ∑ thread, (k * other (threads thread) + c) :=
        Finset.sum_le_sum fun thread _ => each (threads thread)
    _ = k * threadsWeigh other threads + Fintype.card Thread * c := by
        rw [Finset.sum_add_distrib, ← Finset.mul_sum, Finset.sum_const, Finset.card_univ,
          smul_eq_mul, threadsWeigh]

theorem threads_weigh_mono {weight other : Phase → Nat} (threads : Thread → Phase)
    (each : ∀ phase, weight phase ≤ other phase) :
    threadsWeigh weight threads ≤ threadsWeigh other threads :=
  Finset.sum_le_sum fun thread _ => each (threads thread)

theorem items_weigh_le {weight other : Item → Nat} (k : Nat) (items : List Item)
    (each : ∀ item ∈ items, weight item ≤ k * other item) :
    itemsWeigh weight items ≤ k * itemsWeigh other items := by
  induction items with
  | nil => simp
  | cons item rest ih =>
      have here := each item List.mem_cons_self
      have later := ih fun next member => each next (List.mem_cons_of_mem item member)
      rw [items_weigh_cons, items_weigh_cons, Nat.mul_add]
      omega

theorem items_weigh_mono {weight other : Item → Nat} (items : List Item)
    (each : ∀ item ∈ items, weight item ≤ other item) :
    itemsWeigh weight items ≤ itemsWeigh other items := by
  have plain := items_weigh_le 1 items fun item member => (each item member).trans_eq (Nat.one_mul _).symm
  rwa [Nat.one_mul] at plain

theorem weight_le_threads (weight : Phase → Nat) (threads : Thread → Phase) (thread : Thread) :
    weight (threads thread) ≤ threadsWeigh weight threads :=
  Finset.single_le_sum (f := fun other => weight (threads other)) (fun _ _ => Nat.zero_le _)
    (Finset.mem_univ thread)

/-- When threads that weigh at most `c` reach the most they can, each of them does. -/
theorem threads_weigh_full {weight : Phase → Nat} {c : Nat} {threads : Thread → Phase}
    (each : ∀ phase, weight phase ≤ c) (full : Fintype.card Thread * c ≤ threadsWeigh weight threads)
    (thread : Thread) : weight (threads thread) = c := by
  have most : ∑ _other : Thread, c = Fintype.card Thread * c := by
    rw [Finset.sum_const, Finset.card_univ, smul_eq_mul]
  have below := Finset.sum_le_sum fun other (_ : other ∈ Finset.univ) => each (threads other)
  have same := (Finset.sum_eq_sum_iff_of_le fun other _ => each (threads other)).mp
    (le_antisymm below (most.trans_le full))
  exact same thread (Finset.mem_univ thread)

/-- An exchange between one thread and the items that makes both lighter makes all lighter. -/
theorem exchange_lighter [DecidableEq Thread] (weight : Phase → Nat) (threads : Thread → Phase)
    (thread : Thread) (phase : Phase) (before after : Nat)
    (lighter : weight phase + after < weight (threads thread) + before) :
    threadsWeigh weight (Function.update threads thread phase) + after <
      threadsWeigh weight threads + before := by
  have moved := threads_weigh_update weight threads thread phase
  omega

end Weights

end DrainingRuns
