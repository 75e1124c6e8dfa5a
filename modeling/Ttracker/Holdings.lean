import Mathlib.Algebra.BigOperators.Fin
import Mathlib.Algebra.Order.BigOperators.Group.Finset
import Mathlib.Tactic.Common

/-!
Resources that threads hold while a shared state keeps the rest. A ledger says
how many of each resource the shared state has issued and how many it keeps,
in a queue or returned for good. What is issued and not kept is held by the
threads; a thread trades when it exchanges holdings with the shared state.
-/
namespace Holdings

universe u v w
variable {Shared : Type u} {Resource : Type v} {Phase Item Thread : Type w} [DecidableEq Resource]

structure Ledger (Shared : Type u) (Resource : Type v) where
  kept : Shared → Resource → Nat
  issued : Shared → Resource → Nat

/-- The resources in a list of items. -/
def heldIn (holds : Item → List Resource) (items : List Item) (r : Resource) : Nat :=
  (items.flatMap holds).count r

/-- The resources the threads of a finite family hold. -/
def heldBy [Fintype Thread] (holds : Phase → List Resource) (threads : Thread → Phase)
    (r : Resource) : Nat :=
  ∑ thread, (holds (threads thread)).count r

@[simp] theorem heldIn_cons (holds : Item → List Resource) (item : Item) (items : List Item)
    (r : Resource) : heldIn holds (item :: items) r = (holds item).count r + heldIn holds items r := by
  simp [heldIn]

@[simp] theorem heldIn_append (holds : Item → List Resource) (front back : List Item)
    (r : Resource) : heldIn holds (front ++ back) r = heldIn holds front r + heldIn holds back r := by
  simp [heldIn]

@[simp] theorem heldIn_nil (holds : Item → List Resource) (r : Resource) :
    heldIn holds [] r = 0 := by
  simp [heldIn]

theorem heldIn_empty (holds : Item → List Resource) (items : List Item) (r : Resource)
    (empty : ∀ item ∈ items, holds item = []) : heldIn holds items r = 0 := by
  induction items with
  | nil => exact heldIn_nil holds r
  | cons item rest ih =>
      rw [heldIn_cons, empty item List.mem_cons_self,
        ih fun other later => empty other (List.mem_cons_of_mem item later)]
      rfl

section Threads
variable [Fintype Thread] (holds : Phase → List Resource) (threads : Thread → Phase) (r : Resource)

theorem heldBy_empty (empty : ∀ thread, holds (threads thread) = []) :
    heldBy holds threads r = 0 := by
  simp [heldBy, empty]

theorem count_le_heldBy (thread : Thread) :
    (holds (threads thread)).count r ≤ heldBy holds threads r :=
  Finset.single_le_sum (f := fun other => (holds (threads other)).count r)
    (fun _ _ => Nat.zero_le _) (Finset.mem_univ thread)

theorem heldBy_update [DecidableEq Thread] (thread : Thread) (phase : Phase) :
    heldBy holds (Function.update threads thread phase) r + (holds (threads thread)).count r =
      heldBy holds threads r + (holds phase).count r := by
  have before := Finset.add_sum_erase Finset.univ
    (fun other => (holds (threads other)).count r) (Finset.mem_univ thread)
  have after := Finset.add_sum_erase Finset.univ
    (fun other => (holds (Function.update threads thread phase other)).count r)
    (Finset.mem_univ thread)
  have others : ∑ other ∈ Finset.univ.erase thread,
        (holds (Function.update threads thread phase other)).count r =
      ∑ other ∈ Finset.univ.erase thread, (holds (threads other)).count r := by
    apply Finset.sum_congr rfl
    intro other member
    rw [Function.update_of_ne (Finset.ne_of_mem_erase member)]
  simp only [Function.update_self] at after
  simp only [heldBy]
  omega

end Threads

/-! ## Sums over the resources of one kind -/

section Kinds
variable {name : Resource → Option Nat} {make : Nat → Resource}

theorem sum_count (named : ∀ r id, name r = some id ↔ r = make id) (n : Nat)
    (holding : List Resource) :
    ∑ id ∈ Finset.range n, holding.count (make id) = (holding.filterMap name).countP (· < n) := by
  induction holding with
  | nil => simp
  | cons r rest ih =>
      simp only [List.count_cons, Finset.sum_add_distrib, ih]
      cases kind : name r with
      | none =>
          have other : ∀ id, ¬ r = make id := fun id same => by
            rw [← named, kind] at same
            contradiction
          simp [kind, other]
      | some k =>
          have same : ∀ id, r = make id ↔ id = k := fun id => by
            rw [← named, kind, Option.some.injEq, eq_comm]
          simp [List.countP_cons, kind, same]

theorem sum_count_le (named : ∀ r id, name r = some id ↔ r = make id) (n : Nat)
    (holding : List Resource) :
    ∑ id ∈ Finset.range n, holding.count (make id) ≤ (holding.filterMap name).length :=
  sum_count named n holding ▸ List.countP_le_length

theorem sum_heldBy_le [Fintype Thread] (named : ∀ r id, name r = some id ↔ r = make id) (n : Nat)
    (holds : Phase → List Resource) (threads : Thread → Phase) (bound : Nat)
    (each : ∀ thread, ((holds (threads thread)).filterMap name).length ≤ bound) :
    ∑ id ∈ Finset.range n, heldBy holds threads (make id) ≤ Fintype.card Thread * bound := by
  simp only [heldBy]
  rw [Finset.sum_comm]
  exact Finset.sum_le_card_nsmul _ _ bound fun thread _ =>
    (sum_count_le named n _).trans (each thread)

end Kinds

/-! ## Trades between a thread and the shared state -/

/-- The thread gives `lost`, gets `gained`, and the ledger accounts for both. -/
def Trades (ledger : Ledger Shared Resource) (lost gained : List Resource) (s s' : Shared) : Prop :=
  ∀ r, gained.count r + ledger.kept s' r + ledger.issued s r =
    lost.count r + ledger.kept s r + ledger.issued s' r

/-- Everything issued is kept or held. -/
def Balanced (ledger : Ledger Shared Resource) (held : Resource → Nat) (s : Shared) : Prop :=
  ∀ r, held r + ledger.kept s r = ledger.issued s r

section Ledgers
variable {ledger : Ledger Shared Resource} {lost gained before after : List Resource} {s s' : Shared}

theorem trades_refl (ledger : Ledger Shared Resource) (holding : List Resource) (s : Shared) :
    Trades ledger holding holding s s := fun _ => rfl

/-- What a thread holds besides takes no part in its trade. -/
theorem Trades.frame (trade : Trades ledger lost gained s s') (rest : List Resource)
    (given : before.Perm (lost ++ rest)) (left : after.Perm (gained ++ rest)) :
    Trades ledger before after s s' := by
  intro r
  have here := trade r
  rw [given.count_eq, left.count_eq, List.count_append, List.count_append]
  omega

theorem Trades.balanced {held held' : Resource → Nat} (trade : Trades ledger before after s s')
    (moved : ∀ r, held' r + before.count r = held r + after.count r)
    (balanced : Balanced ledger held s) : Balanced ledger held' s' := by
  intro r
  have here := trade r
  have was := balanced r
  have now := moved r
  omega

theorem Balanced.issued {held : Resource → Nat} (balanced : Balanced ledger held s)
    {holding : List Resource} (part : ∀ r, holding.count r ≤ held r) {r : Resource}
    (member : r ∈ holding) : 0 < ledger.issued s r := by
  have some := List.count_pos_iff.mpr member
  have below := part r
  have here := balanced r
  omega

end Ledgers

end Holdings
