import Ttracker.LinkedNodes
import Mathlib.Algebra.BigOperators.Intervals

/-!
Pools of reusable objects that grow by `step` objects up to `limit`. An object
is known by its number; the value of its node says whether it is handed out.
`take` is one critical section and is `none` while it would wait; `giveBack` is
`none` where the object is not in the pool or not handed out.
-/
namespace ObjectPools
open LinkedNodes

structure Pool where
  slots : List (Node Bool)
  num : Nat
  inUse : Nat
  deriving DecidableEq

def Pool.empty : Pool := ⟨[], 0, 0⟩

/-- The objects `populate` allocates, the last one first. -/
def freshSlots (step num : Nat) : List (Node Bool) :=
  ((List.range step).map fun k => ⟨num + k, false⟩).reverse

def populate (step limit : Nat) (pool : Pool) : Option Pool :=
  if pool.num = limit then none
  else some { pool with
    slots := freshSlots step pool.num ++ pool.slots
    num := pool.num + step }

/-- Grow when nothing is free; wait while that is impossible. -/
def ready (step limit : Nat) (pool : Pool) : Option Pool :=
  if pool.num ≤ pool.inUse then
    match populate step limit pool with
    | some grown => some grown
    | none => if pool.inUse = pool.num then none else some pool
  else some pool

/-- The first free object of a pool, marked; `none` inside is a NULL result. -/
def firstFree (pool : Pool) : Option Nat × Pool :=
  match pool.slots.find? fun slot => !slot.val with
  | none => (none, pool)
  | some slot => (some slot.addr, { pool with
      slots := modifyAt slot.addr (fun _ => true) pool.slots
      inUse := pool.inUse + 1 })

def take (step limit : Nat) (pool : Pool) : Option (Option Nat × Pool) :=
  (ready step limit pool).map firstFree

def giveBack (id : Nat) (pool : Pool) : Option Pool :=
  match pool.slots.find? fun slot => slot.addr == id with
  | none => none
  | some slot =>
      if slot.val then some { pool with
        slots := modifyAt id (fun _ => false) pool.slots
        inUse := pool.inUse - 1 }
      else none

def busy (pool : Pool) (id : Nat) : Bool := pool.slots.any fun slot => slot.addr == id && slot.val

structure WellFormed (step limit : Nat) (pool : Pool) : Prop where
  distinct : (addresses pool.slots).Nodup
  old : ∀ a ∈ addresses pool.slots, a < pool.num
  counted : pool.num = pool.slots.length
  used : pool.inUse = pool.slots.countP Node.val
  multiple : step ∣ pool.num
  within : pool.num ≤ limit

theorem busy_iff (pool : Pool) (id : Nat) : busy pool id = true ↔ ⟨id, true⟩ ∈ pool.slots := by
  simp only [busy, List.any_eq_true, Bool.and_eq_true, beq_iff_eq]
  constructor
  · rintro ⟨⟨addr, val⟩, member, rfl, rfl⟩
    exact member
  · exact fun member => ⟨_, member, rfl, rfl⟩

section Growth
variable {step limit : Nat} {pool grown : Pool}

theorem populate_keeps (divides : step ∣ limit) (formed : WellFormed step limit pool)
    (populated : populate step limit pool = some grown) : WellFormed step limit grown := by
  unfold populate at populated
  split at populated
  · contradiction
  · next room =>
      cases populated
      -- both numbers are multiples of the step, so below the limit there is room for one
      obtain ⟨k, filled⟩ := formed.multiple
      obtain ⟨m, bound⟩ := divides
      have grows : pool.num + step ≤ limit := by
        have within := formed.within
        have less : k < m := by
          by_contra more
          have := Nat.mul_le_mul_left step (Nat.le_of_not_lt more)
          omega
        have := Nat.mul_le_mul_left step less
        rw [Nat.mul_succ] at this
        omega
      have fresh : ∀ a ∈ addresses (freshSlots step pool.num), pool.num ≤ a ∧ a < pool.num + step := by
        intro a member
        simp only [addresses, freshSlots, List.mem_map, List.mem_reverse, List.mem_range] at member
        obtain ⟨_, ⟨i, small, rfl⟩, rfl⟩ := member
        exact ⟨Nat.le_add_right _ _, Nat.add_lt_add_left small _⟩
      constructor
      · have own : (addresses (freshSlots step pool.num)).Nodup := by
          have ids : addresses (freshSlots step pool.num) =
              ((List.range step).map (pool.num + ·)).reverse := by
            simp [addresses, freshSlots]
          rw [ids, List.nodup_reverse]
          exact List.nodup_range.map fun a b same => Nat.add_left_cancel same
        rw [addresses, List.map_append, List.nodup_append]
        refine ⟨own, formed.distinct, fun a new b old same => ?_⟩
        have above := (fresh a new).1
        have below := formed.old b old
        omega
      · intro a member
        rw [addresses, List.map_append, List.mem_append] at member
        rcases member with new | old
        · exact (fresh a new).2
        · exact Nat.lt_add_right _ (formed.old a old)
      · have counted := formed.counted
        simp only [freshSlots, List.length_append, List.length_reverse, List.length_map,
          List.length_range]
        omega
      · have none : (freshSlots step pool.num).countP Node.val = 0 := by
          rw [List.countP_eq_zero]
          intro slot member
          simp only [freshSlots, List.mem_reverse, List.mem_map] at member
          obtain ⟨_, _, rfl⟩ := member
          simp
        simpa [none] using formed.used
      · exact (Nat.dvd_add_right formed.multiple).mpr (Nat.dvd_refl step)
      · exact grows

/-- What is in a grown pool was there or is new, and new objects get new numbers. -/
theorem populate_mem (populated : populate step limit pool = some grown) (id : Nat)
    (member : id ∈ addresses grown.slots) :
    id ∈ addresses pool.slots ∨ (pool.num ≤ id ∧ id < grown.num) := by
  unfold populate at populated
  split at populated
  · contradiction
  · cases populated
    rw [addresses, List.map_append, List.mem_append] at member
    rcases member with new | old
    · simp only [freshSlots, List.mem_map, List.mem_reverse, List.mem_range] at new
      obtain ⟨_, ⟨k, small, rfl⟩, rfl⟩ := new
      exact Or.inr ⟨Nat.le_add_right _ _, Nat.add_lt_add_left small _⟩
    · exact Or.inl old

theorem populate_busy (populated : populate step limit pool = some grown) (id : Nat) :
    busy grown id = busy pool id := by
  unfold populate at populated
  split at populated
  · contradiction
  · cases populated
    rw [Bool.eq_iff_iff, busy_iff, busy_iff, List.mem_append]
    constructor
    · rintro (new | old)
      · simp [freshSlots] at new
      · exact old
    · exact Or.inr

end Growth

theorem empty_formed {step limit : Nat} : WellFormed step limit Pool.empty where
  distinct := List.nodup_nil
  old := by simp [Pool.empty, addresses]
  counted := rfl
  used := rfl
  multiple := Nat.dvd_zero step
  within := Nat.zero_le limit

theorem fresh_pool_formed {step limit : Nat} {pool : Pool} (divides : step ∣ limit)
    (populated : populate step limit Pool.empty = some pool) : WellFormed step limit pool :=
  populate_keeps divides empty_formed populated

/-- A write to the status of one object. -/
theorem mark_busy {slots : List (Node Bool)} (slot : Node Bool) (status : Bool)
    (num inUse inUse' : Nat) (member : slot ∈ slots) (id : Nat) :
    busy ⟨modifyAt slot.addr (fun _ => status) slots, num, inUse'⟩ id =
      if id = slot.addr then status else busy ⟨slots, num, inUse⟩ id := by
  rw [Bool.eq_iff_iff, busy_iff]
  simp only [mem_modifyAt_iff, Node.mk.injEq]
  split
  · next same =>
      subst same
      constructor
      · rintro (⟨_, away⟩ | ⟨_, _, _, written⟩)
        · exact absurd rfl away
        · exact written.symm
      · rintro rfl
        exact Or.inr ⟨slot.val, member, rfl, rfl⟩
  · next other =>
      rw [busy_iff]
      constructor
      · rintro (⟨present, _⟩ | ⟨_, _, same, _⟩)
        · exact present
        · exact absurd same other
      · exact fun present => Or.inl ⟨present, other⟩

theorem mark_count {slots : List (Node Bool)} {slot : Node Bool} (status : Bool)
    (distinct : (addresses slots).Nodup) (member : slot ∈ slots) :
    (modifyAt slot.addr (fun _ => status) slots).countP Node.val + slot.val.toNat =
      slots.countP Node.val + status.toNat := by
  have after := (modifyAt_perm slot (fun _ => status) slots distinct member).countP_eq Node.val
  have before := (remove_perm slot slots distinct member).countP_eq Node.val
  rw [List.countP_cons] at after before
  cases status <;> cases held : slot.val <;> simp [held] at after before ⊢ <;> omega

theorem mark_formed {step limit : Nat} {pool : Pool} (slot : Node Bool) (status : Bool)
    (inUse : Nat) (formed : WellFormed step limit pool) (member : slot ∈ pool.slots)
    (used : inUse + slot.val.toNat = pool.inUse + status.toNat) :
    WellFormed step limit
      ⟨modifyAt slot.addr (fun _ => status) pool.slots, pool.num, inUse⟩ := by
  have same := addresses_modifyAt slot.addr (fun _ => status) pool.slots
  have count := mark_count status formed.distinct member
  exact {
    distinct := same ▸ formed.distinct
    old := same ▸ formed.old
    counted := by simpa [modifyAt] using formed.counted
    used := by have before := formed.used; dsimp only; omega
    multiple := formed.multiple
    within := formed.within }

section Operations
variable {step limit : Nat} {pool : Pool}

theorem ready_keeps {grown : Pool} (divides : step ∣ limit) (formed : WellFormed step limit pool)
    (readied : ready step limit pool = some grown) :
    WellFormed step limit grown ∧ ∀ id, busy grown id = busy pool id := by
  unfold ready at readied
  split at readied
  · split at readied
    · next populated =>
        cases readied
        exact ⟨populate_keeps divides formed populated, populate_busy populated⟩
    · split at readied
      · contradiction
      · cases readied
        exact ⟨formed, fun _ => rfl⟩
  · cases readied
    exact ⟨formed, fun _ => rfl⟩

theorem ready_mem {grown : Pool} (readied : ready step limit pool = some grown) (id : Nat)
    (member : id ∈ addresses grown.slots) :
    id ∈ addresses pool.slots ∨ (pool.num ≤ id ∧ id < grown.num) := by
  unfold ready at readied
  split at readied
  · split at readied
    · next populated =>
        cases readied
        exact populate_mem populated id member
    · split at readied
      · contradiction
      · cases readied
        exact Or.inl member
  · cases readied
    exact Or.inl member

theorem inUse_le (formed : WellFormed step limit pool) : pool.inUse ≤ pool.num := by
  rw [formed.used, formed.counted]
  exact List.countP_le_length

/-- A pool that does not wait has a free object. -/
theorem ready_free {grown : Pool} (positive : 0 < step)
    (formed : WellFormed step limit pool) (readied : ready step limit pool = some grown) :
    grown.inUse < grown.num := by
  have below := inUse_le formed
  unfold ready at readied
  split at readied
  · split at readied
    · next populated =>
        cases readied
        unfold populate at populated
        split at populated
        · contradiction
        · cases populated
          simp only
          omega
    · split at readied
      · contradiction
      · cases readied
        omega
  · cases readied
    omega

theorem free_slot (formed : WellFormed step limit pool) (room : pool.inUse < pool.num) :
    ∃ slot, pool.slots.find? (fun slot => !slot.val) = some slot ∧ slot ∈ pool.slots ∧
      slot.val = false := by
  cases found : pool.slots.find? (fun slot => !slot.val) with
  | some slot =>
      exact ⟨slot, rfl, List.mem_of_find?_eq_some found, by simpa using List.find?_some found⟩
  | none =>
      have taken : pool.slots.countP Node.val = pool.slots.length := by
        rw [List.countP_eq_length]
        intro slot member
        simpa using List.find?_eq_none.mp found slot member
      have used := formed.used
      have counted := formed.counted
      omega

/-- The first free object, which a pool with room has, is the only one whose status
changes. -/
theorem first_free_spec (formed : WellFormed step limit pool) (room : pool.inUse < pool.num) :
    ∃ id next, firstFree pool = (some id, next) ∧ id ∈ addresses pool.slots ∧
      busy pool id = false ∧ WellFormed step limit next ∧
      addresses next.slots = addresses pool.slots ∧ next.num = pool.num ∧
      ∀ other, busy next other = if other = id then true else busy pool other := by
  obtain ⟨slot, found, member, free⟩ := free_slot formed room
  have same := addresses_modifyAt slot.addr (fun _ => true) pool.slots
  refine ⟨slot.addr, _, by rw [firstFree, found], List.mem_map_of_mem member, ?_,
    mark_formed slot true _ formed member (by simp [free]), same, rfl,
    fun other => mark_busy slot true _ pool.inUse _ member other⟩
  by_contra handedOut
  have twin := (busy_iff pool slot.addr).mp (by simpa using handedOut)
  have unique := node_unique formed.distinct twin member rfl
  rw [← unique] at free
  contradiction

/-- A taken object was free and is the only one whose status changes. -/
theorem take_spec {got : Option Nat} {next : Pool} (positive : 0 < step) (divides : step ∣ limit)
    (formed : WellFormed step limit pool) (taken : take step limit pool = some (got, next)) :
    ∃ id, got = some id ∧ busy pool id = false ∧ WellFormed step limit next ∧
      ∀ other, busy next other = if other = id then true else busy pool other := by
  obtain ⟨grown, readied, first⟩ := Option.map_eq_some_iff.mp taken
  obtain ⟨kept, same⟩ := ready_keeps divides formed readied
  obtain ⟨id, after, found, _, free, marked, _, _, others⟩ :=
    first_free_spec kept (ready_free positive formed readied)
  cases found.symm.trans first
  exact ⟨id, rfl, same id ▸ free, marked, fun other => by rw [others, same]⟩

/-- A pool with less in use than its limit does not let its caller wait. -/
theorem take_room (positive : 0 < step) (divides : step ∣ limit)
    (formed : WellFormed step limit pool) (room : pool.inUse < limit) :
    ∃ id next, take step limit pool = some (some id, next) := by
  have some_ready : ∃ grown, ready step limit pool = some grown := by
    unfold ready
    split
    · next full =>
        have grows : pool.num ≠ limit := by omega
        simp [populate, grows]
    · exact ⟨pool, rfl⟩
  obtain ⟨grown, readied⟩ := some_ready
  cases first : firstFree grown with
  | mk got next =>
      have taken : take step limit pool = some (got, next) := by
        rw [take, readied, Option.map_some, first]
      obtain ⟨id, rfl, _⟩ := take_spec positive divides formed taken
      exact ⟨id, next, taken⟩

/-- Returning an object that is handed out frees that object only. -/
theorem give_back_spec {id : Nat} (formed : WellFormed step limit pool)
    (held : busy pool id = true) :
    ∃ next, giveBack id pool = some next ∧ WellFormed step limit next ∧
      ∀ other, busy next other = if other = id then false else busy pool other := by
  have member := (busy_iff pool id).mp held
  have found : pool.slots.find? (fun slot => slot.addr == id) = some ⟨id, true⟩ := by
    cases searched : pool.slots.find? (fun slot => slot.addr == id) with
    | none =>
        have missed := List.find?_eq_none.mp searched ⟨id, true⟩ member
        simp at missed
    | some slot =>
        have here : slot.addr = id := by simpa using List.find?_some searched
        rw [node_unique formed.distinct (List.mem_of_find?_eq_some searched) member here]
  have counted : 0 < pool.inUse := by
    rw [formed.used, List.countP_pos_iff]
    exact ⟨_, member, rfl⟩
  refine ⟨⟨modifyAt id (fun _ => false) pool.slots, pool.num, pool.inUse - 1⟩, ?_, ?_, ?_⟩
  · simp [giveBack, found]
  · exact mark_formed ⟨id, true⟩ false _ formed member (by simp; omega)
  · intro other
    exact mark_busy ⟨id, true⟩ false _ pool.inUse _ member other

theorem give_back_frame {id : Nat} {next : Pool} (given : giveBack id pool = some next) :
    addresses next.slots = addresses pool.slots ∧ next.num = pool.num := by
  unfold giveBack at given
  split at given
  · contradiction
  · split at given
    · cases given
      exact ⟨addresses_modifyAt id (fun _ => false) pool.slots, rfl⟩
    · contradiction

/-- The counter is the number of objects that are held, if none is held twice. -/
theorem held_length (formed : WellFormed step limit pool) (held : List Nat) (distinct : held.Nodup)
    (same : ∀ id, busy pool id = true ↔ id ∈ held) : pool.inUse = held.length := by
  have marked : (addresses (pool.slots.filter Node.val)).Nodup :=
    (List.filter_sublist.map Node.addr).nodup formed.distinct
  have perm : (addresses (pool.slots.filter Node.val)).Perm held := by
    rw [List.perm_ext_iff_of_nodup marked distinct]
    intro id
    rw [← same, busy_iff, addresses, List.mem_map]
    constructor
    · rintro ⟨⟨addr, val⟩, member, rfl⟩
      obtain ⟨inside, set⟩ := List.mem_filter.mp member
      simp only at set
      exact set ▸ inside
    · exact fun member => ⟨⟨id, true⟩, List.mem_filter.mpr ⟨member, rfl⟩, rfl⟩
  rw [formed.used, List.countP_eq_length_filter, ← perm.length_eq, addresses, List.length_map]

/-- The counter as a sum over the objects. -/
theorem inUse_sum (formed : WellFormed step limit pool) :
    pool.inUse = ∑ id ∈ Finset.range pool.num, (busy pool id).toNat := by
  have counts : ∀ n, ((List.range n).filter (busy pool)).length =
      ∑ id ∈ Finset.range n, (busy pool id).toNat := by
    intro n
    induction n with
    | zero => rfl
    | succ n ih =>
        rw [List.range_succ, List.filter_append, List.length_append, Finset.sum_range_succ, ih]
        cases status : busy pool n <;> simp [status]
  rw [← counts]
  apply held_length formed
  · exact List.nodup_range.filter _
  · intro id
    rw [List.mem_filter, List.mem_range]
    constructor
    · intro held
      have listed := List.mem_map_of_mem (f := Node.addr) ((busy_iff pool id).mp held)
      exact ⟨formed.old id listed, held⟩
    · exact And.right

end Operations

end ObjectPools
