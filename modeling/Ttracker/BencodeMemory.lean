import Ttracker.OwnedBlocks
import Ttracker.PeerEncoders

/-!
The trees of bncode.c as blocks on the heap: what the builders allocate, and
`bencode_free_with_keys`, which reads every node it is about to free. A tree here
may share blocks, as the C values may: whether they do is decided by the free.
-/
namespace Ttracker.BencodeMemory
open CLibrary MeasuredPrints PeerRequest Torrents BencodeTrees PeerEncoders OwnedBlocks

/-- A C value, its type and where `malloc` put it. An item is its list entry and its
value; an entry of a dictionary has a block for its key as well. -/
inductive Tree where
  | tInt (val : Int64)
  | tBytestring (data : Nat) (val : HeapString)
  | tList (data : Nat) (items : List (Nat × Tree))
  | tDict (data : Nat) (entries : List (Nat × Nat × HeapString × Tree))
  | other (data : Nat)

mutual

def bencodeFreeWithKeys : Tree → Program Nat Unit
  | .tInt _ => pure ()
  | .tBytestring data _ => free data
  | .tList data items => do
      access data
      freeItems items
      -- `LIST_INIT` writes to the head once more
      access data
      free data
  | .tDict data entries => do
      access data
      freeEntries entries
      access data
      free data
  | .other data => free data

def freeItems : List (Nat × Tree) → Program Nat Unit
  | [] => pure ()
  | (ple, tree) :: rest => do
      access ple
      bencodeFreeWithKeys tree
      free ple
      freeItems rest

def freeEntries : List (Nat × Nat × HeapString × Tree) → Program Nat Unit
  | [] => pure ()
  | (pde, key, _, tree) :: rest => do
      access pde
      free key
      access pde
      bencodeFreeWithKeys tree
      free pde
      freeEntries rest

end

/-! ## The blocks of a tree -/

mutual

/-- In the order in which they are freed. -/
def blocks : Tree → List Nat
  | .tInt _ => []
  | .tBytestring data _ => [data]
  | .tList data items => itemBlocks items ++ [data]
  | .tDict data entries => entryBlocks entries ++ [data]
  | .other data => [data]

def itemBlocks : List (Nat × Tree) → List Nat
  | [] => []
  | (ple, tree) :: rest => blocks tree ++ ple :: itemBlocks rest

def entryBlocks : List (Nat × Nat × HeapString × Tree) → List Nat
  | [] => []
  | (pde, key, _, tree) :: rest => key :: (blocks tree ++ pde :: entryBlocks rest)

end

theorem free_all_single (p : Nat) : freeAll [p] = (free p : Program Nat Unit) := by
  simp [freeAll]

/-- The two accesses to a head around its nodes add nothing to its free. -/
theorem free_head (data : Nat) (inner : List Nat) :
    (do access data; freeAll inner; access data; free data : Program Nat Unit) =
      freeAll (inner ++ [data]) := by
  have last : (do access data; free data : Program Nat Unit) = freeAll [data] := by
    rw [← free_all_single]
    exact access_free_all (List.mem_singleton_self data)
  rw [last, ← free_all_append]
  exact access_free_all (List.mem_append_right inner (List.mem_singleton_self data))

mutual

theorem free_blocks : ∀ tree, bencodeFreeWithKeys tree = freeAll (blocks tree)
  | .tInt _ => rfl
  | .tBytestring data _ => (free_all_single data).symm
  | .tList data items => by
      rw [bencodeFreeWithKeys, free_item_blocks items, free_head, blocks]
  | .tDict data entries => by
      rw [bencodeFreeWithKeys, free_entry_blocks entries, free_head, blocks]
  | .other data => (free_all_single data).symm

theorem free_item_blocks : ∀ items, freeItems items = freeAll (itemBlocks items)
  | [] => rfl
  | (ple, tree) :: rest => by
      have onward : (do free ple; freeAll (itemBlocks rest) : Program Nat Unit) =
          freeAll (ple :: itemBlocks rest) := rfl
      rw [freeItems, free_blocks tree, free_item_blocks rest, onward, ← free_all_append,
        itemBlocks]
      exact access_free_all (List.mem_append_right _ List.mem_cons_self)

theorem free_entry_blocks : ∀ entries, freeEntries entries = freeAll (entryBlocks entries)
  | [] => rfl
  | (pde, key, name, tree) :: rest => by
      have onward : (do free pde; freeAll (entryBlocks rest) : Program Nat Unit) =
          freeAll (pde :: entryBlocks rest) := rfl
      have inside : pde ∈ blocks tree ++ pde :: entryBlocks rest :=
        List.mem_append_right _ List.mem_cons_self
      rw [freeEntries, free_blocks tree, free_entry_blocks rest, onward, ← free_all_append,
        access_free_all inside, entryBlocks]
      exact access_free_all (List.mem_cons_of_mem key inside)

end

/-- `bencode_free_with_keys` returns exactly when every block of the tree is allocated
and no block is in it twice, and then it has freed these blocks and no other. -/
theorem tree_freed_iff (tree : Tree) (h after : Heap Nat) :
    (bencodeFreeWithKeys tree).run h = some ((), after) ↔
      Owns (blocks tree) h ∧ after = { h with live := h.live \ (blocks tree).toFinset } := by
  rw [free_blocks, free_all_iff]

/-! ## What `bencode` prints of a tree -/

mutual

/-- The tree without its blocks; `bencode` has no text for any other type. -/
def erase : Tree → Option Data
  | .tInt val => some (.tInt val)
  | .tBytestring _ val => some (.tBytestring val)
  | .tList _ items => (eraseItems items).map .tList
  | .tDict _ entries => (eraseEntries entries).map .tDict
  | .other _ => none

def eraseItems : List (Nat × Tree) → Option (List Data)
  | [] => some []
  | (_, tree) :: rest => do
      let item ← erase tree
      let items ← eraseItems rest
      some (item :: items)

def eraseEntries : List (Nat × Nat × HeapString × Tree) → Option (List (HeapString × Data))
  | [] => some []
  | (_, _, name, tree) :: rest => do
      let data ← erase tree
      let entries ← eraseEntries rest
      some ((name, data) :: entries)

end

/-! ## The builders -/

/-- `struct benc_dict *` and the entries behind it. -/
structure Dict where
  data : Nat
  entries : List (Nat × Nat × HeapString × Tree)

def Dict.tree (dict : Dict) : Tree := .tDict dict.data dict.entries

section Builders
variable (a : Allocator Nat)

def mkBencDict : Program Nat Dict := do
  let pdict ← malloc a
  access pdict
  return ⟨pdict, []⟩

def mkBencDictEntryInt (unset : UInt8) (key : List UInt8) (val : Int64) :
    Program Nat (Nat × Nat × HeapString × Tree) := do
  let pe ← malloc a
  let copy ← malloc a
  let name ← liftM (heapCopy unset key)
  return (pe, copy, name, .tInt val)

def mkBencDictEntryString (unset : UInt8 × UInt8) (key val : List UInt8) :
    Program Nat (Nat × Nat × HeapString × Tree) := do
  let pe ← malloc a
  let copy ← malloc a
  let data ← malloc a
  let name ← liftM (heapCopy unset.1 key)
  let string ← liftM (heapCopy unset.2 val)
  return (pe, copy, name, .tBytestring data string)

/-- `LIST_INSERT_HEAD`, which writes to the new entry, the first one and the head. -/
def insertHead (pe : Nat × Nat × HeapString × Tree) (dict : Dict) : Program Nat Dict := do
  access pe.1
  match dict.entries with
  | [] => pure ()
  | first :: _ => access first.1
  access dict.data
  return ⟨dict.data, pe :: dict.entries⟩

def bencodeInitPeer (unset : Unreached) (pt : PeerEntry) (dict : Dict) : Program Nat Dict := do
  let pe ← mkBencDictEntryInt a unset.port (text "port") (Int64.ofInt pt.port)
  let dict ← insertHead pe dict
  let pe ← mkBencDictEntryString a unset.peerId (text "peer_id") pt.peerId.bytes
  let dict ← insertHead pe dict
  let pe ← mkBencDictEntryString a unset.ip (text "ip") pt.ip.bytes
  insertHead pe dict

/-- Calls for one peer after the other on one dictionary. -/
def initPeers : List (Unreached × PeerEntry) → Dict → Program Nat Dict
  | [], dict => pure dict
  | (unset, pt) :: rest, dict => do
      let dict ← bencodeInitPeer a unset pt dict
      initPeers rest dict

/-! ## What the builders own -/

/-- A dictionary of these entries whose blocks are all that is owned. -/
def Built (entries : List (HeapString × Data)) (dict : Dict) (left : List Nat) : Prop :=
  left.Perm (blocks dict.tree) ∧ eraseEntries dict.entries = some entries

/-- An entry that is in no dictionary yet. -/
def Loose (entry : HeapString × Data) (pe : Nat × Nat × HeapString × Tree) (left : List Nat) :
    Prop :=
  left.Perm (entryBlocks [pe]) ∧ eraseEntries [pe] = some [entry]

theorem mk_dict_takes : Takes (mkBencDict a) [] (Built []) :=
  takes_malloc a fun p => takes_access List.mem_cons_self
    (takes_pure (List.Perm.refl [p]) ⟨List.Perm.refl _, rfl⟩)

theorem entry_int_takes {unset : UInt8} {key : List UInt8} {name : HeapString} (val : Int64)
    (named : heapCopy unset key = some name) :
    Takes (mkBencDictEntryInt a unset key val) [] (Loose (name, .tInt val)) :=
  takes_malloc a fun pe => takes_malloc a fun copy => takes_lift named
    (takes_pure (List.Perm.refl [copy, pe]) ⟨List.Perm.refl _, rfl⟩)

theorem entry_string_takes {unset : UInt8 × UInt8} {key val : List UInt8}
    {name string : HeapString} (named : heapCopy unset.1 key = some name)
    (copied : heapCopy unset.2 val = some string) :
    Takes (mkBencDictEntryString a unset key val) [] (Loose (name, .tBytestring string)) := by
  refine takes_malloc a fun pe => takes_malloc a fun copy => takes_malloc a fun data =>
    takes_lift named (takes_lift copied (takes_pure (List.Perm.refl [data, copy, pe]) ⟨?_, rfl⟩))
  exact List.Perm.swap copy data [pe]

omit a in
theorem insert_takes {entry : HeapString × Data} {entries : List (HeapString × Data)}
    {pe : Nat × Nat × HeapString × Tree} {dict : Dict} {own left : List Nat}
    (loose : Loose entry pe own) (built : Built entries dict left) :
    Takes (insertHead pe dict) (own ++ left) (Built (entry :: entries)) := by
  obtain ⟨data, nodes⟩ := dict
  obtain ⟨addr, key, name, tree⟩ := pe
  have perm : (own ++ left).Perm (blocks (.tDict data ((addr, key, name, tree) :: nodes))) := by
    have joined := loose.1.append built.1
    simpa [Dict.tree, blocks, entryBlocks] using joined
  have text : eraseEntries ((addr, key, name, tree) :: nodes) = some (entry :: entries) := by
    have first := loose.2
    simp only [eraseEntries, built.2] at first ⊢
    cases erased : erase tree with
    | none => simp [erased] at first
    | some item =>
        simp only [erased, Option.bind_eq_bind, Option.bind_some, Option.some.injEq,
          List.cons.injEq, and_true] at first ⊢
        exact first
  have done : Built (entry :: entries) ⟨data, (addr, key, name, tree) :: nodes⟩
      (blocks (.tDict data ((addr, key, name, tree) :: nodes))) := ⟨List.Perm.refl _, text⟩
  refine Takes.perm ?_ perm
  refine takes_access (by simp [blocks, entryBlocks]) ?_
  cases nodes with
  | nil => exact takes_access (by simp [blocks, entryBlocks]) (takes_pure (List.Perm.refl _) done)
  | cons first rest =>
      exact takes_access (by simp [blocks, entryBlocks])
        (takes_access (by simp [blocks, entryBlocks]) (takes_pure (List.Perm.refl _) done))

theorem init_peer_takes {entries : List (HeapString × Data)} {dict : Dict} {left : List Nat}
    (unset : Unreached) (pt : PeerEntry) (built : Built entries dict left) :
    Takes (bencodeInitPeer a unset pt dict) left (Built (peerTree pt ++ entries)) := by
  have port := heap_copy_short unset.port portKey (by decide +kernel)
  have idName := heap_copy_short unset.peerId.1 peerIdKey (by decide +kernel)
  have ipName := heap_copy_short unset.ip.1 ipKey (by decide +kernel)
  have id := heap_copy_short unset.peerId.2 (heapString pt.peerId)
    (Nat.lt_of_le_of_lt pt.peerId.fits (by decide))
  have ip := heap_copy_short unset.ip.2 (heapString pt.ip)
    (Nat.lt_of_le_of_lt pt.ip.fits (by decide))
  refine takes_call (entry_int_takes a _ port) (List.Perm.refl left) fun pe own loose => ?_
  refine (insert_takes loose built).bind fun dict left built => ?_
  refine takes_call (entry_string_takes a idName id) (List.Perm.refl left) fun pe own loose => ?_
  refine (insert_takes loose built).bind fun dict left built => ?_
  refine takes_call (entry_string_takes a ipName ip) (List.Perm.refl left) fun pe own loose => ?_
  exact insert_takes loose built

/-- What is printed of peers that were put into one dictionary, the last one first. -/
def peersData (pts : List (Unreached × PeerEntry)) : List (HeapString × Data) :=
  pts.reverse.flatMap fun pt => peerTree pt.2

theorem init_peers_takes {entries : List (HeapString × Data)} {dict : Dict} {left : List Nat}
    (pts : List (Unreached × PeerEntry)) (built : Built entries dict left) :
    Takes (initPeers a pts dict) left (Built (peersData pts ++ entries)) := by
  induction pts generalizing entries dict left with
  | nil => exact takes_pure (List.Perm.refl left) built
  | cons pt rest ih =>
      refine (init_peer_takes a pt.1 pt.2 built).bind fun dict left built => ?_
      simpa [peersData] using ih built

/-- Whatever the heap holds: a dictionary of peers is built, is printed as the tree of these
peers, owns every block that was allocated for it, and freeing it gives the heap back. -/
theorem built_tree_freed (pts : List (Unreached × PeerEntry)) (h : Heap Nat) :
    ∃ dict built after, (mkBencDict a >>= initPeers a pts).run h = some (dict, built) ∧
      erase dict.tree = some (.tDict (peersData pts)) ∧
      (∀ p, p ∈ built.live ↔ p ∈ blocks dict.tree ∨ p ∈ h.live) ∧
      (bencodeFreeWithKeys dict.tree).run built = some ((), after) ∧ after.live = h.live := by
  have builds : Takes (mkBencDict a >>= initPeers a pts) [] (Built (peersData pts)) := by
    refine (mk_dict_takes a).bind fun dict left empty => ?_
    simpa using init_peers_takes a pts empty
  obtain ⟨dict, built, left, ran, holds, perm, text⟩ := builds h.live h (holds_nothing h)
  -- the tree owns what was allocated, so freeing it leaves the frame
  have owned := holds.perm perm
  have frees := takes_free_all (blocks dict.tree) h.live built owned
  rw [← free_blocks] at frees
  obtain ⟨_, after, gone, freed, left, rfl⟩ := frees
  refine ⟨dict, built, after, ran, ?_, owned.live, freed, ?_⟩
  · rw [Dict.tree, erase, text, Option.map_some]
  · ext p
    rw [left.live]
    simp

end Builders

end Ttracker.BencodeMemory
