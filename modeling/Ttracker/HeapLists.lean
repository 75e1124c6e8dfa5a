import Ttracker.LinkedNodes
import Ttracker.OwnedBlocks

/-!
Linked lists on the heap, each node a block of its own: walks, insertions, removals and
frees that read the nodes they pass. A list is changed by address; with distinct
addresses that is a change at a position, so lists whose nodes hold the same stay alike.
-/
namespace HeapLists
open LinkedNodes OwnedBlocks

variable {Value : Type} {α : Type}

/-- `LIST_FOREACH` up to the first node that matches. -/
def search (wanted : Node Value → Bool) : List (Node Value) → Program Nat (Option (Node Value))
  | [] => pure none
  | node :: rest => do
      access node.addr
      if wanted node then pure (some node) else search wanted rest

/-- A walk to the end. -/
def walk : List (Node Value) → Program Nat Unit
  | [] => pure ()
  | node :: rest => do
      access node.addr
      walk rest

/-- `LIST_INSERT_HEAD`, which writes to the new node and to the first one. -/
def insertHead (node : Node Value) (nodes : List (Node Value)) : Program Nat (List (Node Value)) := do
  access node.addr
  walk (nodes.take 1)
  return node :: nodes

/-- The loop that reads the next node before it frees one. -/
def freeNodes : List (Node Value) → Program Nat Unit
  | [] => pure ()
  | node :: rest => do
      access node.addr
      free node.addr
      freeNodes rest

section Rules
variable {nodes : List (Node Value)} {given rest : List Nat} {post : α → List Nat → Prop}

theorem takes_search {wanted : Node Value → Bool} {next : Option (Node Value) → Program Nat α}
    (inside : ∀ p ∈ addresses nodes, p ∈ given)
    (onward : Takes (next (nodes.find? wanted)) given post) :
    Takes (search wanted nodes >>= next) given post := by
  induction nodes with
  | nil => exact onward
  | cons node rest ih =>
      rw [search, bind_assoc]
      refine takes_access (inside node.addr List.mem_cons_self) ?_
      rw [List.find?_cons] at onward
      cases hit : wanted node with
      | true => simpa [hit] using onward
      | false =>
          simp only [hit] at onward
          simpa [hit] using ih (fun p member => inside p (List.mem_cons_of_mem _ member)) onward

theorem takes_walk {next : Unit → Program Nat α} (inside : ∀ p ∈ addresses nodes, p ∈ given)
    (onward : Takes (next ()) given post) : Takes (walk nodes >>= next) given post := by
  induction nodes with
  | nil => exact onward
  | cons node rest ih =>
      rw [walk, bind_assoc]
      exact takes_access (inside node.addr List.mem_cons_self)
        (ih fun p member => inside p (List.mem_cons_of_mem _ member))

theorem takes_insert {node : Node Value} {next : List (Node Value) → Program Nat α}
    (member : node.addr ∈ given) (inside : ∀ p ∈ addresses nodes, p ∈ given)
    (onward : Takes (next (node :: nodes)) given post) :
    Takes (insertHead node nodes >>= next) given post := by
  rw [insertHead, bind_assoc]
  refine takes_access member ?_
  rw [bind_assoc]
  refine takes_walk (fun p first => inside p ?_) onward
  exact ((List.take_sublist 1 nodes).map Node.addr).subset first

theorem takes_free_nodes {next : Unit → Program Nat α} (perm : given.Perm (addresses nodes ++ rest))
    (onward : Takes (next ()) rest post) : Takes (freeNodes nodes >>= next) given post := by
  induction nodes generalizing given with
  | nil => exact onward.perm perm
  | cons node others ih =>
      rw [freeNodes, bind_assoc]
      refine takes_access (perm.mem_iff.mpr List.mem_cons_self) ?_
      rw [bind_assoc]
      exact takes_free perm (ih (List.Perm.refl _))

end Rules

/-! ## Positions -/

section Positions
variable {nodes : List (Node Value)} {node : Node Value} {i : Nat}

theorem modify_at_position (distinct : (addresses nodes).Nodup) (here : nodes[i]? = some node)
    (change : Value → Value) :
    modifyAt node.addr change nodes = nodes.set i ⟨node.addr, change node.val⟩ := by
  induction nodes generalizing i with
  | nil => simp at here
  | cons first rest ih =>
      obtain ⟨new, distinct⟩ := List.nodup_cons.mp distinct
      cases i with
      | zero =>
          obtain rfl : first = node := by simpa using here
          have others : modifyAt first.addr change rest = rest := by
            refine (List.map_congr_left fun other left => ?_).trans (List.map_id _)
            exact if_neg fun (same : other.addr = first.addr) => new (same ▸ address_mem left)
          simp only [modifyAt] at others
          simp [modifyAt, others]
      | succ i =>
          have later : rest[i]? = some node := by simpa using here
          have other : first.addr ≠ node.addr := fun same =>
            new (same ▸ address_mem (List.mem_of_getElem? later))
          have onward := ih distinct later
          simp only [modifyAt] at onward
          simp [modifyAt, other, onward]

theorem remove_at_position (distinct : (addresses nodes).Nodup) (here : nodes[i]? = some node) :
    remove node.addr nodes = nodes.eraseIdx i := by
  induction nodes generalizing i with
  | nil => simp at here
  | cons first rest ih =>
      obtain ⟨new, distinct⟩ := List.nodup_cons.mp distinct
      cases i with
      | zero =>
          obtain rfl : first = node := by simpa using here
          simp [remove]
      | succ i =>
          have later : rest[i]? = some node := by simpa using here
          have other : first.addr ≠ node.addr := fun same =>
            new (same ▸ address_mem (List.mem_of_getElem? later))
          have onward := ih distinct later
          simp only [remove] at onward
          simp [remove, other, onward]

/-- Something that is taken of each node, at one position and everywhere else. -/
theorem flat_map_at {β : Type} (f : Node Value → List β) (here : nodes[i]? = some node) :
    (nodes.flatMap f).Perm (f node ++ (nodes.eraseIdx i).flatMap f) := by
  obtain ⟨bound, rfl⟩ := List.getElem?_eq_some_iff.mp here
  exact ((List.getElem_cons_eraseIdx_perm bound).symm.flatMap_right f)

theorem flat_map_set {β : Type} (f : Node Value → List β) (here : nodes[i]? = some node)
    (new : Node Value) :
    ((nodes.set i new).flatMap f).Perm (f new ++ (nodes.eraseIdx i).flatMap f) := by
  obtain ⟨bound, -⟩ := List.getElem?_eq_some_iff.mp here
  exact (List.set_perm_cons_eraseIdx bound new).flatMap_right f

end Positions

/-! ## What the nodes hold -/

section Contents
variable {Other Content : Type} {content : Value → Content} {content' : Other → Content}
  {nodes : List (Node Value)} {others : List (Node Other)}

def contents (content : Value → Content) (nodes : List (Node Value)) : List Content :=
  nodes.map fun node => content node.val

/-- A search by content misses in both lists or hits at one position. -/
inductive FoundSame (wanted : Content → Bool) (content : Value → Content)
    (content' : Other → Content) (nodes : List (Node Value)) (others : List (Node Other)) : Prop where
  | missed (one : nodes.find? (fun node => wanted (content node.val)) = none)
      (other : others.find? (fun node => wanted (content' node.val)) = none) :
      FoundSame wanted content content' nodes others
  | hit (i : Nat) (node : Node Value) (node' : Node Other)
      (one : nodes.find? (fun node => wanted (content node.val)) = some node)
      (other : others.find? (fun node => wanted (content' node.val)) = some node')
      (here : nodes[i]? = some node) (there : others[i]? = some node')
      (same : content node.val = content' node'.val) :
      FoundSame wanted content content' nodes others

theorem search_same (wanted : Content → Bool) (same : contents content nodes = contents content' others) :
    FoundSame wanted content content' nodes others := by
  induction nodes generalizing others with
  | nil =>
      obtain rfl : others = [] := List.map_eq_nil_iff.mp same.symm
      exact .missed rfl rfl
  | cons node rest ih =>
      cases others with
      | nil => simp [contents] at same
      | cons node' rest' =>
          obtain ⟨first, later⟩ := List.cons.inj same
          have first' : content node.val = content' node'.val := first
          cases hit : wanted (content node.val) with
          | true =>
              exact .hit 0 node node' (List.find?_cons_of_pos hit)
                (List.find?_cons_of_pos (first' ▸ hit)) rfl rfl first'
          | false =>
              have one := List.find?_cons_of_neg (p := fun node : Node Value =>
                wanted (content node.val)) (a := node) (l := rest) (by simp [hit])
              have other := List.find?_cons_of_neg (p := fun node : Node Other =>
                wanted (content' node.val)) (a := node') (l := rest') (by simp [← first', hit])
              cases ih later with
              | missed none none' => exact .missed (one.trans none) (other.trans none')
              | hit i found found' some some' here there equal =>
                  exact .hit (i + 1) found found' (one.trans some) (other.trans some') here there equal

end Contents

end HeapLists
