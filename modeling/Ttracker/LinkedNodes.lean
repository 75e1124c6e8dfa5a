import Mathlib.Tactic.Common
import Mathlib.Data.List.Find
import Mathlib.Data.List.Nodup
import Mathlib.Data.List.Perm.Basic

/-!
Head-inserted linked lists (`sys/queue.h`) as lists of nodes. A node is known
by the address `malloc` gave it: `LIST_REMOVE` takes an address, and two nodes
with equal contents stay different. Addresses are never reused here, so an
address identifies one allocation over a whole run.
-/
namespace LinkedNodes

universe u
variable {Value : Type u}

structure Node (Value : Type u) where
  addr : Nat
  val : Value
  deriving DecidableEq

def remove (addr : Nat) (nodes : List (Node Value)) : List (Node Value) :=
  nodes.eraseP fun node => node.addr == addr

/-- A write through a pointer to the node at an address. -/
def modifyAt (addr : Nat) (change : Value → Value) (nodes : List (Node Value)) :
    List (Node Value) :=
  nodes.map fun node => if node.addr = addr then { node with val := change node.val } else node

def addresses (nodes : List (Node Value)) : List Nat := nodes.map Node.addr

def listed (addr : Nat) (nodes : List (Node Value)) : Bool := nodes.any fun node => node.addr == addr

theorem listed_iff (addr : Nat) (nodes : List (Node Value)) :
    listed addr nodes = true ↔ addr ∈ addresses nodes := by
  simp [listed, addresses]

theorem address_mem {node : Node Value} {nodes : List (Node Value)} (member : node ∈ nodes) :
    node.addr ∈ addresses nodes := List.mem_map_of_mem member

/-- A list with distinct addresses is the removed node and what removal leaves. -/
theorem remove_perm (node : Node Value) (nodes : List (Node Value))
    (distinct : (addresses nodes).Nodup) (member : node ∈ nodes) :
    nodes.Perm (node :: remove node.addr nodes) := by
  induction nodes with
  | nil => contradiction
  | cons first rest ih =>
      obtain ⟨headFresh, tailDistinct⟩ := List.nodup_cons.mp distinct
      rcases List.mem_cons.mp member with same | later
      · subst same
        simp [remove]
      · have other : first.addr ≠ node.addr := fun same => headFresh (same ▸ address_mem later)
        have kept : remove node.addr (first :: rest) = first :: remove node.addr rest := by
          simp [remove, other]
        rw [kept]
        exact ((ih tailDistinct later).cons first).trans (List.Perm.swap node first _)

theorem remove_length (node : Node Value) (nodes : List (Node Value))
    (distinct : (addresses nodes).Nodup) (member : node ∈ nodes) :
    (remove node.addr nodes).length + 1 = nodes.length :=
  (remove_perm node nodes distinct member).length_eq.symm

theorem mem_remove_iff (node other : Node Value) (nodes : List (Node Value))
    (distinct : (addresses nodes).Nodup) (member : node ∈ nodes) :
    other ∈ remove node.addr nodes ↔ other ∈ nodes ∧ other.addr ≠ node.addr := by
  have perm := remove_perm node nodes distinct member
  have split : (node.addr :: addresses (remove node.addr nodes)).Nodup :=
    (perm.map Node.addr).nodup_iff.mp distinct
  constructor
  · intro left
    refine ⟨perm.mem_iff.mpr (List.mem_cons_of_mem _ left), fun same => ?_⟩
    have reused : other.addr ∈ addresses (remove node.addr nodes) := List.mem_map_of_mem left
    rw [same] at reused
    exact (List.nodup_cons.mp split).1 reused
  · rintro ⟨present, different⟩
    rcases List.mem_cons.mp (perm.mem_iff.mp present) with same | left
    · exact absurd (congrArg Node.addr same) different
    · exact left

theorem remove_sublist (addr : Nat) (nodes : List (Node Value)) :
    List.Sublist (remove addr nodes) nodes := List.eraseP_sublist

theorem addresses_modifyAt (addr : Nat) (change : Value → Value) (nodes : List (Node Value)) :
    addresses (modifyAt addr change nodes) = addresses nodes := by
  simp only [addresses, modifyAt, List.map_map]
  apply List.map_congr_left
  intro node _
  by_cases here : node.addr = addr <;> simp [here]

theorem mem_modifyAt_iff (addr : Nat) (change : Value → Value) (nodes : List (Node Value))
    (node : Node Value) :
    node ∈ modifyAt addr change nodes ↔
      (node ∈ nodes ∧ node.addr ≠ addr) ∨
        ∃ value, (⟨addr, value⟩ : Node Value) ∈ nodes ∧ node = ⟨addr, change value⟩ := by
  simp only [modifyAt, List.mem_map]
  constructor
  · rintro ⟨old, member, rfl⟩
    by_cases here : old.addr = addr
    · subst here
      exact Or.inr ⟨old.val, member, by simp⟩
    · exact Or.inl ⟨by simpa [here] using member, by simp [here]⟩
  · rintro (⟨member, away⟩ | ⟨value, member, rfl⟩)
    · exact ⟨node, member, by simp [away]⟩
    · exact ⟨⟨addr, value⟩, member, by simp⟩

theorem modifyAt_perm (node : Node Value) (change : Value → Value) (nodes : List (Node Value))
    (distinct : (addresses nodes).Nodup) (member : node ∈ nodes) :
    (modifyAt node.addr change nodes).Perm
      (⟨node.addr, change node.val⟩ :: remove node.addr nodes) := by
  have others : modifyAt node.addr change (remove node.addr nodes) = remove node.addr nodes := by
    refine (List.map_congr_left fun other left => ?_).trans (List.map_id _)
    exact if_neg ((mem_remove_iff node other nodes distinct member).mp left).2
  have moved := (remove_perm node nodes distinct member).map fun other =>
    if other.addr = node.addr then { other with val := change other.val } else other
  rw [List.map_cons, if_pos rfl] at moved
  exact others ▸ moved

/-- With distinct addresses an address has one node. -/
theorem node_unique {a b : Node Value} {nodes : List (Node Value)}
    (distinct : (addresses nodes).Nodup) (aMember : a ∈ nodes) (bMember : b ∈ nodes)
    (same : a.addr = b.addr) : a = b :=
  List.inj_on_of_nodup_map distinct aMember bMember same

/-! ## Lists whose nodes carry distinct keys -/

section Keys
variable {Key : Type u}

/-- No two nodes of the list share a key. -/
def KeysDistinct (key : Value → Key) (nodes : List (Node Value)) : Prop :=
  (nodes.map fun node => key node.val).Nodup

theorem keys_insert (key : Value → Key) (node : Node Value) (nodes : List (Node Value))
    (distinct : KeysDistinct key nodes)
    (fresh : ∀ other ∈ nodes, key other.val ≠ key node.val) :
    KeysDistinct key (node :: nodes) := by
  apply List.nodup_cons.mpr
  refine ⟨fun member => ?_, distinct⟩
  obtain ⟨other, present, same⟩ := List.mem_map.mp member
  exact fresh other present same

theorem keys_remove (key : Value → Key) (addr : Nat) (nodes : List (Node Value))
    (distinct : KeysDistinct key nodes) : KeysDistinct key (remove addr nodes) :=
  ((remove_sublist addr nodes).map _).nodup distinct

theorem key_unique {key : Value → Key} {a b : Node Value} {nodes : List (Node Value)}
    (distinct : KeysDistinct key nodes) (aMember : a ∈ nodes) (bMember : b ∈ nodes)
    (same : key a.val = key b.val) : a = b :=
  List.inj_on_of_nodup_map distinct aMember bMember same

/-- A search for a key in a list with distinct keys finds a listed node exactly
when that node is the one with the key. -/
theorem search_key_iff [BEq Key] [LawfulBEq Key] (key : Value → Key) (wanted : Key)
    (nodes : List (Node Value)) (distinct : KeysDistinct key nodes) (node : Node Value) :
    nodes.find? (fun other => key other.val == wanted) = some node ↔
      node ∈ nodes ∧ key node.val = wanted := by
  constructor
  · intro found
    exact ⟨List.mem_of_find?_eq_some found, by simpa using List.find?_some found⟩
  · rintro ⟨member, same⟩
    cases found : nodes.find? (fun other => key other.val == wanted) with
    | none =>
        have missed := List.find?_eq_none.mp found node member
        simp [same] at missed
    | some other =>
        have hit : key other.val = wanted := by simpa using List.find?_some found
        rw [key_unique distinct (List.mem_of_find?_eq_some found) member (hit.trans same.symm)]

/-- Removing the node with a key takes that key out of every search and no other. -/
theorem search_key_remove [BEq Key] [LawfulBEq Key] (key : Value → Key) (wanted : Key)
    (node : Node Value) (nodes : List (Node Value)) (addressesDistinct : (addresses nodes).Nodup)
    (distinct : KeysDistinct key nodes) (member : node ∈ nodes) :
    (remove node.addr nodes).find? (fun other => key other.val == wanted) =
      if key node.val == wanted then none
      else nodes.find? (fun other => key other.val == wanted) := by
  have stays := fun other => mem_remove_iff node other nodes addressesDistinct member
  have left := keys_remove key node.addr nodes distinct
  split
  · next hit =>
      rw [List.find?_eq_none]
      intro other inside same
      have present := (stays other).mp inside
      apply present.2
      rw [key_unique distinct present.1 member ((beq_iff_eq.mp same).trans (beq_iff_eq.mp hit).symm)]
  · next miss =>
      cases found : nodes.find? (fun other => key other.val == wanted) with
      | none =>
          rw [List.find?_eq_none] at found ⊢
          exact fun other inside => found other ((stays other).mp inside).1
      | some other =>
          obtain ⟨present, same⟩ := (search_key_iff key wanted nodes distinct other).mp found
          refine (search_key_iff key wanted _ left other).mpr ⟨(stays other).mpr ⟨present, ?_⟩, same⟩
          intro sameAddress
          rw [node_unique addressesDistinct present member sameAddress] at same
          exact miss (beq_iff_eq.mpr same)

/-- A write that keeps the key finds the same node, written. -/
theorem search_key_modify [BEq Key] (key : Value → Key) (wanted : Key) (addr : Nat)
    (change : Value → Value) (nodes : List (Node Value))
    (same : ∀ node ∈ nodes, node.addr = addr → key (change node.val) = key node.val) :
    (modifyAt addr change nodes).find? (fun other => key other.val == wanted) =
      (nodes.find? (fun other => key other.val == wanted)).map fun node =>
        if node.addr = addr then { node with val := change node.val } else node := by
  rw [modifyAt, List.find?_map]
  congr 1
  apply List.find?_congr
  intro node member
  by_cases here : node.addr = addr
  · simp [here, same node member here]
  · simp [here]

end Keys

end LinkedNodes
