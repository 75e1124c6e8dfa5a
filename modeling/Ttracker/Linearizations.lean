import Mathlib.Data.List.Induction
import Mathlib.Data.List.Nodup
import Ttracker.TransitionRuns

/-!
Jobs that take their steps in turns, against an object on which each of them acts at once.
A run is explained by an order of its jobs: the object, asked in this order, gives every job
its answer. An order that grows while the run goes on respects which job came after which.
-/
namespace Linearizations
open TransitionRuns

variable {State Job Object Answer : Type}

def inOrder (apply : Object → Job → Object × Answer) (object : Object) (order : List Job) :
    Object × List (Job × Answer) :=
  order.foldl (fun seen i => ((apply seen.1 i).1, seen.2 ++ [(i, (apply seen.1 i).2)])) (object, [])

/-- The first job stands before the second, if that one stands in the order at all. -/
def Before (order : List Job) (i j : Job) : Prop :=
  ∃ front back, order = front ++ back ∧ i ∈ front ∧ j ∉ front

variable {apply : Object → Job → Object × Answer} {object : Object}

theorem in_order_snoc (order : List Job) (i : Job) :
    inOrder apply object (order ++ [i]) =
      ((apply (inOrder apply object order).1 i).1,
        (inOrder apply object order).2 ++ [(i, (apply (inOrder apply object order).1 i).2)]) := by
  simp only [inOrder, List.foldl_append, List.foldl_cons, List.foldl_nil]

theorem in_order_jobs (order : List Job) : (inOrder apply object order).2.map Prod.fst = order := by
  induction order using List.reverseRecOn with
  | nil => rfl
  | append_singleton order i ih => rw [in_order_snoc, List.map_append, ih, List.map_singleton]

/-- Every step leaves the relation to the object alone or settles the answer of its own job. -/
def Settles (step : State → Job → Option State) (allowed : State → Job → Prop)
    (apply : Object → Job → Object × Answer)
    (related : State → Object → List (Job × Answer) → Prop) : Prop :=
  ∀ s i t object told, related s object told → allowed s i → step s i = some t →
    related t object told ∨
      i ∉ told.map Prod.fst ∧ related t (apply object i).1 (told ++ [(i, (apply object i).2)])

variable {step : State → Job → Option State} {allowed : State → Job → Prop}
  {related : State → Object → List (Job × Answer) → Prop}

def After (apply : Object → Job → Object × Answer) (object : Object)
    (related : State → Object → List (Job × Answer) → Prop) (order : List Job) (s : State) : Prop :=
  order.Nodup ∧ related s (inOrder apply object order).1 (inOrder apply object order).2

theorem settles_step (settles : Settles step allowed apply related) {order : List Job} {s t : State}
    {i : Job} (here : After apply object related order s) (granted : allowed s i)
    (taken : step s i = some t) :
    ∃ longer, order <+: longer ∧ After apply object related longer t := by
  -- a job that settles its answer is put at the end
  rcases settles s i t _ _ here.2 granted taken with kept | ⟨fresh, settled⟩
  · exact ⟨order, List.prefix_rfl, here.1, kept⟩
  · rw [in_order_jobs] at fresh
    refine ⟨order ++ [i], List.prefix_append _ _, ?_, by rwa [in_order_snoc]⟩
    exact List.nodup_append.mpr ⟨here.1, List.nodup_singleton i, by
      intro j member k single same
      obtain rfl := List.mem_singleton.mp single
      exact fresh (same ▸ member)⟩

/-- A run has an order that explains it, and the order of each of its beginnings begins it. -/
theorem settles_run (settles : Settles step allowed apply related) {run : List Job} {s final : State}
    {order : List Job} (here : After apply object related order s)
    (along : Along step allowed s run) (reached : replay step s run = some final) :
    ∃ whole, order <+: whole ∧ After apply object related whole final ∧
      ∀ begun rest mid, run = begun ++ rest → replay step s begun = some mid →
        ∃ front, front <+: whole ∧ After apply object related front mid := by
  induction run generalizing s order with
  | nil =>
      cases reached
      refine ⟨order, List.prefix_rfl, here, fun begun rest mid split begins => ?_⟩
      obtain ⟨rfl, -⟩ := List.append_eq_nil_iff.mp split.symm
      cases begins
      exact ⟨order, List.prefix_rfl, here⟩
  | cons i run ih =>
      obtain ⟨t, taken, onward⟩ := Option.bind_eq_some_iff.mp reached
      obtain ⟨granted, later⟩ := along t taken
      obtain ⟨longer, grown, next⟩ := settles_step settles here granted taken
      obtain ⟨whole, more, ends, splits⟩ := ih next later onward
      refine ⟨whole, grown.trans more, ends, fun begun rest mid split begins => ?_⟩
      -- the order that begins the whole is the one after that many steps
      cases begun with
      | nil =>
          cases begins
          exact ⟨order, grown.trans more, here⟩
      | cons j begun =>
          obtain ⟨rfl, tails⟩ := List.cons.inj split
          rw [replay, taken, Option.bind_some] at begins
          exact splits begun rest mid tails begins

/-- A job that has its answer before another begins stands before it. -/
theorem run_explained (settles : Settles step allowed apply related) {run : List Job}
    {s final : State} (fresh : related s object []) (along : Along step allowed s run)
    (reached : replay step s run = some final) :
    ∃ order, After apply object related order final ∧
      ∀ begun rest mid i j, run = begun ++ rest → replay step s begun = some mid →
        (∀ object told, related mid object told → i ∈ told.map Prod.fst) →
          (∀ object told, related mid object told → j ∉ told.map Prod.fst) → Before order i j := by
  have begins : After apply object related [] s := ⟨List.nodup_nil, fresh⟩
  obtain ⟨order, -, ends, splits⟩ := settles_run settles begins along reached
  refine ⟨order, ends, fun begun rest mid i j split passed settled unsettled => ?_⟩
  -- at that moment the one has been told and the other has not
  obtain ⟨front, ⟨back, rfl⟩, -, now⟩ := splits begun rest mid split passed
  have jobs : (inOrder apply object front).2.map Prod.fst = front := in_order_jobs front
  refine ⟨front, back, rfl, ?_, ?_⟩
  · rw [← jobs]
    exact settled _ _ now
  · rw [← jobs]
    exact unsettled _ _ now

end Linearizations
