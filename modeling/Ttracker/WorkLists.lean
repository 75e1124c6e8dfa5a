import Mathlib.Data.List.Perm.Basic
import Mathlib.Logic.Function.Basic
import Mathlib.Tactic.Common

/-!
A list of work that threads empty until each of them takes a stop marker.
`real` tells the work from the markers. Work is stranded when no thread is left
that would take it; the order in which the list is emptied does not matter.
-/
namespace WorkLists

universe u v
variable {Item : Type u} {Thread : Type v}

def Stranded (real : Item → Bool) (items : List Item) (live : Thread → Bool) : Prop :=
  (∃ item ∈ items, real item = true) ∧ ∀ thread, live thread = false

variable {real : Item → Bool} {items items' : List Item} {live : Thread → Bool}

theorem not_stranded (thread : Thread) (alive : live thread = true) :
    ¬ Stranded real items live := by
  rintro ⟨_, idle⟩
  rw [idle thread] at alive
  contradiction

theorem stranded_push {item : Item} (pushed : items'.Perm (item :: items)) :
    Stranded real items' live ↔
      Stranded real items live ∨ (real item = true ∧ ∀ thread, live thread = false) := by
  have split : (∃ other ∈ items', real other = true) ↔
      (∃ other ∈ items, real other = true) ∨ real item = true := by
    simp only [pushed.mem_iff, List.mem_cons]
    constructor
    · rintro ⟨other, rfl | member, work⟩
      · exact Or.inr work
      · exact Or.inl ⟨other, member, work⟩
    · rintro (⟨other, member, work⟩ | work)
      · exact ⟨other, Or.inr member, work⟩
      · exact ⟨item, Or.inl rfl, work⟩
  rw [Stranded, Stranded, split, or_and_right]

/-- Markers are no work. -/
theorem stranded_push_marker {marker : Item} (pushed : items'.Perm (marker :: items))
    (stops : real marker = false) : Stranded real items' live ↔ Stranded real items live := by
  rw [stranded_push pushed, stops]
  simp

/-- The last live thread strands what it leaves. -/
theorem stranded_stop [DecidableEq Thread] (thread : Thread) :
    Stranded real items (Function.update live thread false) ↔
      (∃ item ∈ items, real item = true) ∧ ∀ other, other ≠ thread → live other = false := by
  refine and_congr_right fun _ => ⟨fun idle other away => ?_, fun idle other => ?_⟩
  · have stays := idle other
    rwa [Function.update_of_ne away] at stays
  · by_cases same : other = thread
    · subst same
      exact Function.update_self ..
    · rw [Function.update_of_ne same]
      exact idle other same

end WorkLists
