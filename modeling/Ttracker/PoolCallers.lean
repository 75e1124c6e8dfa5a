import Ttracker.ObjectPools
import Ttracker.TransitionRuns

/-!
Callers of one pool. Each critical section is one step: a caller that finds the
pool full and at its limit falls asleep in `get`, and when it is woken it only
asks whether something is free before it searches. A sleeper may look again at
any time. Callers write to the objects they hold and give back only those.
-/
namespace PoolCallers
open LinkedNodes ObjectPools TransitionRuns

/-- A pool of objects with a content: how it grows, what a new object and one that is
given back contain, and what every free object is promised to be. -/
structure Kind (Content : Type) where
  amp : Nat
  limit : Nat
  fresh : Nat → Content
  reset : Content → Content
  clean : Content → Prop
  positive : 0 < amp
  divides : amp ∣ limit
  freshClean : ∀ id, clean (fresh id)
  resetClean : ∀ content, clean (reset content)

structure Callers (Caller Content : Type) where
  pool : Pool
  contents : Nat → Content
  asleep : Caller → Bool
  held : List (Caller × Nat)

inductive Action (Caller Content : Type) where
  | get (c : Caller)
  | look (c : Caller)
  | write (c : Caller) (id : Nat) (content : Content)
  | join (c : Caller) (id : Nat)

variable {Caller Content : Type} [DecidableEq Caller]

/-- The search of a caller that does not wait in a pool that may have grown. -/
def receive (k : Kind Content) (s : Callers Caller Content) (c : Caller) (grown : Pool) :
    Option Nat × Callers Caller Content :=
  let (got, pool) := firstFree grown
  (got, {
    pool := pool
    contents := fun id => if s.pool.num ≤ id ∧ id < grown.num then k.fresh id else s.contents id
    asleep := Function.update s.asleep c false
    held := match got with
      | some id => (c, id) :: s.held
      | none => s.held })

/-- `none` is a caller that falls asleep. -/
def enter (k : Kind Content) (s : Callers Caller Content) (c : Caller) :
    Option (Option Nat × Callers Caller Content) :=
  (ready k.amp k.limit s.pool).map (receive k s c)

/-- The condition of the wait loop; `none` is a caller that sleeps on. -/
def reenter (k : Kind Content) (s : Callers Caller Content) (c : Caller) :
    Option (Option Nat × Callers Caller Content) :=
  if s.pool.inUse = s.pool.num then none else some (receive k s c s.pool)

def join (k : Kind Content) (s : Callers Caller Content) (c : Caller) (id : Nat) :
    Option (Callers Caller Content) :=
  (giveBack id s.pool).map fun pool => { s with
    pool := pool
    contents := Function.update s.contents id (k.reset (s.contents id))
    held := s.held.erase (c, id) }

def step (k : Kind Content) (s : Callers Caller Content) :
    Action Caller Content → Option (Callers Caller Content)
  | .get c =>
      if s.asleep c then none
      else match enter k s c with
        | none => some { s with asleep := Function.update s.asleep c true }
        | some (_, next) => some next
  | .look c => if s.asleep c then (reenter k s c).map Prod.snd else none
  | .write c id content =>
      if s.asleep c = false ∧ (c, id) ∈ s.held then
        some { s with contents := Function.update s.contents id content }
      else none
  | .join c id => if s.asleep c = false ∧ (c, id) ∈ s.held then join k s c id else none

/-- Without the wait loop, `get` takes from the pool as `take` does. -/
theorem enter_takes (k : Kind Content) (s : Callers Caller Content) (c : Caller) :
    (enter k s c).map (fun (got, next) => (got, next.pool)) = take k.amp k.limit s.pool := by
  simp only [enter, take, Option.map_map]
  rfl

def start (k : Kind Content) : Callers Caller Content where
  pool := (populate k.amp k.limit Pool.empty).getD Pool.empty
  contents := k.fresh
  asleep := fun _ => false
  held := []

/-- A caller got an object that nobody held and that is clean. -/
def Handed (k : Kind Content) (s : Callers Caller Content) (c : Caller) (got : Option Nat)
    (next : Callers Caller Content) : Prop :=
  ∃ id, got = some id ∧ next.held = (c, id) :: s.held ∧ (∀ other, (other, id) ∉ s.held) ∧
    k.clean (next.contents id)

structure Returned (s : Callers Caller Content) (id : Nat) (next : Callers Caller Content) :
    Prop where
  entries : addresses next.pool.slots = addresses s.pool.slots
  status : ∀ other, busy next.pool other = if other = id then false else busy s.pool other
  contents : ∀ other, other ≠ id → next.contents other = s.contents other

structure Sound (k : Kind Content) (s : Callers Caller Content) : Prop where
  counted : s.pool.num = s.pool.slots.length
  multiple : k.amp ∣ s.pool.num
  within : s.pool.num ≤ k.limit
  used : s.pool.inUse = s.pool.slots.countP Node.val
  held : s.pool.inUse = s.held.length
  gets : ∀ c got next, enter k s c = some (got, next) ∨ reenter k s c = some (got, next) →
    Handed k s c got next
  joins : ∀ c id, (c, id) ∈ s.held → ∃ next, join k s c id = some next ∧ Returned s id next

/-! ## The statuses agree with what is held -/

structure Inv (k : Kind Content) (s : Callers Caller Content) : Prop where
  formed : WellFormed k.amp k.limit s.pool
  matched : ∀ id, busy s.pool id = true ↔ id ∈ s.held.map Prod.snd
  alone : (s.held.map Prod.snd).Nodup
  clean : ∀ id ∈ addresses s.pool.slots, busy s.pool id = false → k.clean (s.contents id)

section Run
variable {k : Kind Content} {s next : Callers Caller Content} {c : Caller} {grown : Pool}

theorem receive_keeps (inv : Inv k s) (formed : WellFormed k.amp k.limit grown)
    (room : grown.inUse < grown.num) (same : ∀ id, busy grown id = busy s.pool id)
    (new : ∀ id ∈ addresses grown.slots,
      id ∈ addresses s.pool.slots ∨ (s.pool.num ≤ id ∧ id < grown.num)) :
    Inv k (receive k s c grown).2 ∧ Handed k s c (receive k s c grown).1 (receive k s c grown).2 := by
  obtain ⟨id, after, found, inside, free, marked, slots, _, others⟩ := first_free_spec formed room
  have unheld : id ∉ s.held.map Prod.snd := by
    rw [← inv.matched, ← same, free]
    simp
  -- a free object is one of those just made, or was free and clean before
  have clean : ∀ other ∈ addresses grown.slots, busy grown other = false →
      k.clean (if s.pool.num ≤ other ∧ other < grown.num then k.fresh other
        else s.contents other) := by
    intro other listed idle
    split
    · exact k.freshClean other
    · next old =>
        have before := (new other listed).resolve_right old
        exact inv.clean other before (same other ▸ idle)
  have result : receive k s c grown = (some id, {
      pool := after
      contents := fun id => if s.pool.num ≤ id ∧ id < grown.num then k.fresh id else s.contents id
      asleep := Function.update s.asleep c false
      held := (c, id) :: s.held }) := by
    simp only [receive, found]
  rw [result]
  refine ⟨⟨marked, ?_, ?_, ?_⟩, id, rfl, rfl, ?_, clean id inside free⟩
  · intro other
    simp only [others, same, List.map_cons, List.mem_cons, ← inv.matched]
    split <;> simp_all
  · exact List.nodup_cons.mpr ⟨unheld, inv.alone⟩
  · intro other listed idle
    simp only [others] at idle
    split at idle
    · contradiction
    · exact clean other (slots ▸ listed) idle
  · exact fun other member => unheld (List.mem_map.mpr ⟨_, member, rfl⟩)

theorem gets_keep {got : Option Nat} (inv : Inv k s)
    (called : enter k s c = some (got, next) ∨ reenter k s c = some (got, next)) :
    Inv k next ∧ Handed k s c got next := by
  rcases called with entered | woken
  · obtain ⟨grown, readied, received⟩ := Option.map_eq_some_iff.mp entered
    obtain ⟨formed, same⟩ := ready_keeps k.divides inv.formed readied
    have kept := receive_keeps (c := c) inv formed (ready_free k.positive inv.formed readied) same
      (ready_mem readied)
    rwa [received] at kept
  · unfold reenter at woken
    split at woken
    · contradiction
    · next some_free =>
        have received : receive k s c s.pool = (got, next) := Option.some.inj woken
        have below := inUse_le inv.formed
        have kept := receive_keeps (c := c) inv inv.formed (by omega) (fun _ => rfl)
          fun _ listed => Or.inl listed
        rwa [received] at kept

theorem join_keeps {id : Nat} (inv : Inv k s) (member : (c, id) ∈ s.held) :
    ∃ next, join k s c id = some next ∧ Inv k next ∧ Returned s id next := by
  have held : busy s.pool id = true := (inv.matched id).mpr (List.mem_map.mpr ⟨_, member, rfl⟩)
  obtain ⟨after, given, formed, status⟩ := give_back_spec inv.formed held
  have frame := give_back_frame given
  -- what is left is held by the others
  have split := List.perm_cons_erase member
  have ids := split.map Prod.snd
  have left : ∀ other, other ∈ (s.held.erase (c, id)).map Prod.snd ↔
      other ≠ id ∧ other ∈ s.held.map Prod.snd := by
    have alone := ids.nodup_iff.mp inv.alone
    rw [List.map_cons, List.nodup_cons] at alone
    intro other
    rw [ids.mem_iff, List.map_cons, List.mem_cons]
    constructor
    · rintro inside
      exact ⟨fun same => alone.1 (same ▸ inside), Or.inr inside⟩
    · rintro ⟨away, same | inside⟩
      · exact absurd same away
      · exact inside
  refine ⟨_, by rw [join, given, Option.map_some], ⟨formed, ?_, ?_, ?_⟩, frame.1, status, ?_⟩
  · intro other
    rw [left, ← inv.matched]
    simp only [status]
    split <;> simp_all
  · exact (List.erase_sublist.map Prod.snd).nodup inv.alone
  · intro other listed idle
    by_cases same : other = id
    · subst same
      simpa using k.resetClean _
    · simp only [status, if_neg same] at idle
      simpa [same] using inv.clean other (frame.1 ▸ listed) idle
  · intro other away
    simp [away]

theorem inv_sound (inv : Inv k s) : Sound k s where
  counted := inv.formed.counted
  multiple := inv.formed.multiple
  within := inv.formed.within
  used := inv.formed.used
  held := by rw [held_length inv.formed _ inv.alone inv.matched, List.length_map]
  gets _ _ _ called := (gets_keep inv called).2
  joins _ _ member :=
    have ⟨next, joined, _, returned⟩ := join_keeps inv member
    ⟨next, joined, returned⟩

theorem step_keeps {action : Action Caller Content} (inv : Inv k s)
    (taken : step k s action = some next) : Inv k next := by
  cases action with
  | get c =>
      simp only [step] at taken
      split at taken
      · contradiction
      · split at taken
        · cases taken
          exact ⟨inv.formed, inv.matched, inv.alone, inv.clean⟩
        · next entered =>
            cases taken
            exact (gets_keep inv (Or.inl entered)).1
  | look c =>
      simp only [step] at taken
      split at taken
      · obtain ⟨⟨got, after⟩, woken, rfl⟩ := Option.map_eq_some_iff.mp taken
        exact (gets_keep inv (Or.inr woken)).1
      · contradiction
  | write c id content =>
      simp only [step] at taken
      split at taken
      · next allowed =>
          cases taken
          -- only free objects are promised to be clean, and this one is held
          have held := (inv.matched id).mpr (List.mem_map.mpr ⟨_, allowed.2, rfl⟩)
          refine ⟨inv.formed, inv.matched, inv.alone, fun other listed idle => ?_⟩
          have away : other ≠ id := by
            rintro rfl
            rw [held] at idle
            contradiction
          simpa [away] using inv.clean other listed idle
      · contradiction
  | join c id =>
      simp only [step] at taken
      split at taken
      · next allowed =>
          obtain ⟨after, joined, kept, _⟩ := join_keeps inv allowed.2
          cases joined.symm.trans taken
          exact kept
      · contradiction

omit [DecidableEq Caller] in
theorem start_inv (k : Kind Content) : Inv k (start k : Callers Caller Content) := by
  have formed : WellFormed k.amp k.limit ((populate k.amp k.limit Pool.empty).getD Pool.empty) ∧
      ∀ id, busy ((populate k.amp k.limit Pool.empty).getD Pool.empty) id = false := by
    cases populated : populate k.amp k.limit Pool.empty with
    | some pool => exact ⟨fresh_pool_formed k.divides populated, populate_busy populated⟩
    | none => exact ⟨empty_formed, fun _ => rfl⟩
  refine ⟨formed.1, fun id => ?_, List.nodup_nil, fun id _ _ => k.freshClean id⟩
  rw [start, formed.2 id]
  simp

/-- In every reachable state the pool does what its callers rely on. -/
theorem run_sound (k : Kind Content) (run : List (Action Caller Content)) :
    Throughout (step k) (Sound k) (start k) run :=
  throughout_always (step k) (Sound k) (Inv k) (fun _ => inv_sound) (fun _ _ _ => step_keeps)
    (start k) run (start_inv k)

end Run

end PoolCallers
