import Mathlib.Logic.Function.Basic
import Ttracker.LinkedNodes

/-!
A list that is searched from its head, as the map a search sees. Keys may come twice:
an insertion at the head then hides a node for good.
-/
namespace FirstMatches
open LinkedNodes

variable {Value Key Content : Type} [BEq Key] {nodes : List (Node Value)}
  {node : Node Value}

def view (key : Value → Key) (content : Value → Content) (nodes : List (Node Value)) :
    Key → Option Content :=
  fun wanted => (nodes.find? fun node => key node.val == wanted).map fun node => content node.val

section Views
variable {key : Value → Key} {content : Value → Content}

theorem view_found {wanted : Key} (found : nodes.find? (fun node => key node.val == wanted) = some node) :
    view key content nodes wanted = some (content node.val) := by
  rw [view, found, Option.map_some]

theorem view_missed {wanted : Key} (missed : nodes.find? (fun node => key node.val == wanted) = none) :
    view key content nodes wanted = none := by
  rw [view, missed, Option.map_none]

variable [LawfulBEq Key] [DecidableEq Key]

theorem view_insert (node : Node Value) (nodes : List (Node Value)) :
    view key content (node :: nodes) =
      Function.update (view key content nodes) (key node.val) (some (content node.val)) := by
  funext wanted
  by_cases here : key node.val = wanted
  · subst here
    simp [view]
  · have other : wanted ≠ key node.val := fun same => here same.symm
    rw [Function.update_of_ne other]
    simp [view, here]

/-- A write to the node a search finds. -/
theorem view_modify {wanted : Key} {value : Value} (distinct : (addresses nodes).Nodup)
    (found : nodes.find? (fun node => key node.val == wanted) = some node)
    (same : key value = key node.val) :
    view key content (modifyAt node.addr (fun _ => value) nodes) =
      Function.update (view key content nodes) wanted (some (content value)) := by
  have member := List.mem_of_find?_eq_some found
  have hit : key node.val = wanted := by simpa using List.find?_some found
  have kept : ∀ other ∈ nodes, other.addr = node.addr → key value = key other.val := by
    intro other inside address
    rw [node_unique distinct inside member address, same]
  funext asked
  rw [view, search_key_modify key asked node.addr (fun _ => value) nodes kept]
  by_cases here : asked = wanted
  · subst here
    rw [found, Function.update_self]
    simp
  · rw [Function.update_of_ne here, view]
    cases searched : nodes.find? (fun other => key other.val == asked) with
    | none => rfl
    | some other =>
        have another : other.addr ≠ node.addr := by
          intro address
          have unique := node_unique distinct (List.mem_of_find?_eq_some searched) member address
          have asks : key other.val = asked := by simpa using List.find?_some searched
          exact here (asks.symm.trans ((congrArg (fun n : Node Value => key n.val) unique).trans hit))
        simp [another]

end Views

/-- Removing the node a search found is removing the first match. -/
theorem values_remove {wanted : Value → Bool} (distinct : (addresses nodes).Nodup)
    (found : nodes.find? (fun node => wanted node.val) = some node) :
    (remove node.addr nodes).map Node.val = (nodes.map Node.val).eraseP wanted := by
  induction nodes with
  | nil => contradiction
  | cons first rest ih =>
      obtain ⟨new, later⟩ := List.nodup_cons.mp distinct
      by_cases hit : wanted first.val = true
      · rw [List.find?_cons_of_pos (by simpa using hit)] at found
        cases found
        simp [remove, hit]
      · rw [List.find?_cons_of_neg (by simpa using hit)] at found
        have other : first.addr ≠ node.addr := fun same =>
          new (same ▸ address_mem (List.mem_of_find?_eq_some found))
        have onward := ih later found
        simp only [remove] at onward
        simp [remove, other, hit, onward]

end FirstMatches
