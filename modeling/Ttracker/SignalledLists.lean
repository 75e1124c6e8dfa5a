import Ttracker.Holdings
import Ttracker.TransitionRuns

/-!
A list under a mutex with one condition variable. A producer pushes an item in
one critical section and signals in a later one; a consumer pops an item or,
when there is none, waits, and looks again when it is woken. A signal wakes one
waiting consumer if there is one and is lost otherwise; a consumer may also wake
for no reason. Where `push` puts an item, and which items make their consumer
leave, are parameters. `pushed` and `taken` are history, with a ticket for each
push.
-/
namespace SignalledLists
open Holdings TransitionRuns

variable {Item Producer Consumer : Type}

structure Discipline (Item : Type) where
  push : Nat × Item → List (Nat × Item) → List (Nat × Item)
  stops : Item → Bool
  keeps : ∀ item items, (push item items).Perm (item :: items)

inductive ProducerPhase where
  | idle
  | signalling
  deriving DecidableEq

inductive ConsumerPhase (Item : Type) where
  | looking
  | waiting
  | working (item : Item)
  | exited
  deriving DecidableEq

structure Guarded (Item Producer Consumer : Type) where
  items : List (Nat × Item)
  producers : Producer → ProducerPhase
  consumers : Consumer → ConsumerPhase Item
  pushed : List (Nat × Item)
  taken : List (Nat × Item)

inductive Action (Item Producer Consumer : Type) where
  | push (p : Producer) (item : Item)
  | signal (p : Producer) (woken : Option Consumer)
  | look (c : Consumer)
  | resume (c : Consumer)
  | wakeSpuriously (c : Consumer)

def isWaiting : ConsumerPhase Item → Bool
  | .waiting => true
  | _ => false

section Steps
variable [DecidableEq Producer] [DecidableEq Consumer]

def wake (s : Guarded Item Producer Consumer) (c : Consumer) :
    Option (Guarded Item Producer Consumer) :=
  if isWaiting (s.consumers c) then
    some { s with consumers := Function.update s.consumers c .looking }
  else none

/-- The loop of a consumer, from taking the mutex to giving it up. -/
def look (d : Discipline Item) (s : Guarded Item Producer Consumer) (c : Consumer) :
    Guarded Item Producer Consumer :=
  match s.items with
  | [] => { s with consumers := Function.update s.consumers c .waiting }
  | item :: rest => { s with
      items := rest
      consumers := Function.update s.consumers c
        (if d.stops item.2 then .exited else .working item.2)
      taken := s.taken ++ [item] }

def step [Fintype Consumer] (d : Discipline Item) (s : Guarded Item Producer Consumer) :
    Action Item Producer Consumer → Option (Guarded Item Producer Consumer)
  | .push p item =>
      match s.producers p with
      | .signalling => none
      | .idle => some { s with
          items := d.push (s.pushed.length, item) s.items
          producers := Function.update s.producers p .signalling
          pushed := s.pushed ++ [(s.pushed.length, item)] }
  | .signal p woken =>
      match s.producers p with
      | .idle => none
      | .signalling =>
          let s := { s with producers := Function.update s.producers p .idle }
          match woken with
          | some c => wake s c
          | none => if ∀ c, isWaiting (s.consumers c) = false then some s else none
  | .look c =>
      match s.consumers c with
      | .looking => some (look d s c)
      | _ => none
  | .resume c =>
      match s.consumers c with
      | .working _ => some { s with consumers := Function.update s.consumers c .looking }
      | _ => none
  | .wakeSpuriously c => wake s c

end Steps

def start : Guarded Item Producer Consumer :=
  ⟨[], fun _ => .idle, fun _ => .looking, [], []⟩

/-- Nothing is taken twice, nothing is lost, and with work in the list somebody is
awake or about to be woken, unless everybody has left. -/
structure Delivers (s : Guarded Item Producer Consumer) : Prop where
  tickets : s.pushed.map Prod.fst = List.range s.pushed.length
  once : (s.taken.map Prod.fst).Nodup
  kept : (s.taken ++ s.items).Perm s.pushed
  noticed : s.items ≠ [] → (∃ c, s.consumers c ≠ .exited) →
    (∃ c, s.consumers c ≠ .exited ∧ s.consumers c ≠ .waiting) ∨
      ∃ p, s.producers p = .signalling

/-! ## What keeps a wakeup from getting lost -/

/-- A consumer that will look at the list again. -/
def ConsumerPhase.awake : ConsumerPhase Item → List Unit
  | .looking | .working _ => [()]
  | .waiting | .exited => []

def ProducerPhase.owes : ProducerPhase → List Unit
  | .signalling => [()]
  | .idle => []

theorem isWaiting_iff (phase : ConsumerPhase Item) : isWaiting phase = true ↔ phase = .waiting := by
  cases phase <;> simp [isWaiting]

section Wakeups
variable [DecidableEq Consumer] {s t : Guarded Item Producer Consumer}

/-- Nobody starts to wait by moving to another phase. -/
theorem waits_before {consumers : Consumer → ConsumerPhase Item} {c other : Consumer}
    {phase : ConsumerPhase Item} (moves : phase ≠ .waiting)
    (waits : Function.update consumers c phase other = .waiting) : consumers other = .waiting := by
  by_cases same : other = c
  · subst same
    rw [Function.update_self] at waits
    exact absurd waits moves
  · rwa [Function.update_of_ne same] at waits

theorem wake_asleep {c : Consumer} (woken : wake s c = some t) : s.consumers c = .waiting := by
  unfold wake at woken
  split at woken
  · next asleep => exact (isWaiting_iff _).mp asleep
  · contradiction

end Wakeups

section Order
variable [DecidableEq Producer] [DecidableEq Consumer] [Fintype Consumer]

/-- A list that is filled at its tail gives its items out in the order they came. -/
theorem run_in_order (d : Discipline Item) (tail : ∀ item items, d.push item items = items ++ [item])
    (run : List (Action Item Producer Consumer)) :
    Throughout (step d) (fun s => s.taken ++ s.items = s.pushed) start run := by
  apply throughout_always (step d) _ (fun s => s.taken ++ s.items = s.pushed) (fun _ same => same)
  · intro s action t same taken
    cases action with
    | push p item =>
        simp only [step] at taken
        split at taken
        · contradiction
        · cases taken
          simp [tail, ← same]
    | signal p woken =>
        simp only [step] at taken
        split at taken
        · contradiction
        · cases woken with
          | none =>
              simp only at taken
              split at taken
              · cases taken
                exact same
              · contradiction
          | some c =>
              simp only [wake] at taken
              split at taken
              · cases taken
                exact same
              · contradiction
    | look c =>
        simp only [step] at taken
        split at taken
        · cases taken
          cases list : s.items with
          | nil => simpa [look, list] using same
          | cons item rest => simpa [look, list] using same
        · contradiction
    | resume c =>
        simp only [step] at taken
        split at taken
        · cases taken
          exact same
        · contradiction
    | wakeSpuriously c =>
        simp only [step, wake] at taken
        split at taken
        · cases taken
          exact same
        · contradiction
  · rfl

end Order

variable [Fintype Producer] [Fintype Consumer]

/-- While anybody waits, every item in the list has an awake consumer or a signal
that is still to come. A consumer that takes an item and leaves takes both away. -/
structure Inv (s : Guarded Item Producer Consumer) : Prop where
  tickets : s.pushed.map Prod.fst = List.range s.pushed.length
  kept : (s.taken ++ s.items).Perm s.pushed
  covered : (∃ c, s.consumers c = .waiting) →
    s.items.length ≤ heldBy ConsumerPhase.awake s.consumers () +
      heldBy ProducerPhase.owes s.producers ()

theorem inv_delivers (s : Guarded Item Producer Consumer) (inv : Inv s) : Delivers s := by
  have distinct : (s.pushed.map Prod.fst).Nodup := inv.tickets ▸ List.nodup_range
  have split := (inv.kept.map Prod.fst).nodup_iff.mpr distinct
  rw [List.map_append] at split
  refine ⟨inv.tickets, split.of_append_left, inv.kept, fun work ⟨c, here⟩ => ?_⟩
  by_contra asleep
  simp only [not_or, not_exists, not_and, not_not] at asleep
  have idle : heldBy ConsumerPhase.awake s.consumers () = 0 := by
    apply heldBy_empty
    intro other
    cases phase : s.consumers other with
    | waiting => rfl
    | exited => rfl
    | looking => simpa [phase] using asleep.1 other
    | working item => simpa [phase] using asleep.1 other
  have silent : heldBy ProducerPhase.owes s.producers () = 0 := by
    apply heldBy_empty
    intro p
    cases phase : s.producers p with
    | idle => rfl
    | signalling => exact absurd phase (asleep.2 p)
  have covered := inv.covered ⟨c, asleep.1 c here⟩
  have some := List.length_pos_iff.mpr work
  omega

theorem start_inv : Inv (start : Guarded Item Producer Consumer) := by
  refine ⟨rfl, List.Perm.refl _, fun _ => ?_⟩
  simp [start]

section Run
variable [DecidableEq Consumer] {d : Discipline Item} {s t : Guarded Item Producer Consumer}

/-- A consumer that is woken was waiting, and will look again. -/
theorem wake_keeps {c : Consumer} (tickets : s.pushed.map Prod.fst = List.range s.pushed.length)
    (kept : (s.taken ++ s.items).Perm s.pushed)
    (covered : s.items.length ≤ heldBy ConsumerPhase.awake s.consumers () + 1 +
      heldBy ProducerPhase.owes s.producers ()) (woken : wake s c = some t) : Inv t := by
  unfold wake at woken
  split at woken
  · next asleep =>
      cases woken
      refine ⟨tickets, kept, fun _ => ?_⟩
      have moved := heldBy_update ConsumerPhase.awake s.consumers () c .looking
      rw [(isWaiting_iff _).mp asleep] at moved
      simp only [ConsumerPhase.awake, List.count_nil, List.count_cons_self] at moved ⊢
      omega
  · contradiction

theorem look_keeps {c : Consumer} (inv : Inv s) (looking : s.consumers c = .looking) :
    Inv (look d s c) := by
  cases list : s.items with
  | nil =>
      refine ⟨?_, ?_, fun _ => ?_⟩
      · simpa [look, list] using inv.tickets
      · simpa [look, list] using inv.kept
      · simp [look, list]
  | cons item rest =>
      have after : look d s c = { s with
          items := rest
          consumers := Function.update s.consumers c
            (if d.stops item.2 then .exited else .working item.2)
          taken := s.taken ++ [item] } := by simp [look, list]
      have kept := inv.kept
      rw [list] at kept
      rw [after]
      refine ⟨inv.tickets, by simpa using kept, ?_⟩
      rintro ⟨other, waits⟩
      have covered := inv.covered ⟨other, waits_before (by split <;> simp) waits⟩
      have moved := heldBy_update ConsumerPhase.awake s.consumers () c
        (if d.stops item.2 then .exited else .working item.2)
      rw [looking] at moved
      rw [list, List.length_cons] at covered
      cases last : d.stops item.2 <;>
        simp only [last, if_true, Bool.false_eq_true, if_false, ConsumerPhase.awake,
          List.count_nil, List.count_cons_self] at moved ⊢ <;> omega

variable [DecidableEq Producer]

theorem step_keeps {action : Action Item Producer Consumer} (inv : Inv s)
    (taken : step d s action = some t) : Inv t := by
  cases action with
  | push p item =>
      simp only [step] at taken
      split at taken
      · contradiction
      · next idle =>
          cases taken
          have inserted := d.keeps (s.pushed.length, item) s.items
          refine ⟨?_, ?_, fun waits => ?_⟩
          · simp [inv.tickets, List.range_succ]
          · have moved := (inserted.append_left s.taken).trans List.perm_middle
            exact (moved.trans (inv.kept.cons _)).trans (List.perm_append_singleton _ _).symm
          · have covered := inv.covered waits
            have owed := heldBy_update ProducerPhase.owes s.producers () p .signalling
            rw [idle] at owed
            simp only [ProducerPhase.owes, List.count_nil, List.count_cons_self] at owed
            have longer := inserted.length_eq
            rw [List.length_cons] at longer
            simp only
            omega
  | signal p woken =>
      simp only [step] at taken
      split at taken
      · contradiction
      · next signalling =>
          have owed := heldBy_update ProducerPhase.owes s.producers () p .idle
          rw [signalling] at owed
          simp only [ProducerPhase.owes, List.count_nil, List.count_cons_self] at owed
          cases woken with
          | none =>
              simp only at taken
              split at taken
              · next nobody =>
                  cases taken
                  refine ⟨inv.tickets, inv.kept, ?_⟩
                  rintro ⟨c, waits⟩
                  have awake := nobody c
                  rw [(isWaiting_iff _).mpr waits] at awake
                  contradiction
              · contradiction
          | some c =>
              -- the signal owed becomes an awake consumer
              have woken : wake { s with producers := Function.update s.producers p .idle } c =
                  some t := taken
              have waits := wake_asleep woken
              have covered := inv.covered ⟨c, waits⟩
              have owing : s.items.length ≤ heldBy ConsumerPhase.awake s.consumers () + 1 +
                  heldBy ProducerPhase.owes (Function.update s.producers p .idle) () := by omega
              exact wake_keeps (s := { s with producers := Function.update s.producers p .idle })
                inv.tickets inv.kept owing woken
  | look c =>
      simp only [step] at taken
      split at taken
      · next looking =>
          cases taken
          exact look_keeps inv looking
      · contradiction
  | resume c =>
      simp only [step] at taken
      split at taken
      · next item working =>
          cases taken
          refine ⟨inv.tickets, inv.kept, ?_⟩
          rintro ⟨other, waits⟩
          have covered := inv.covered ⟨other, waits_before (by simp) waits⟩
          have moved := heldBy_update ConsumerPhase.awake s.consumers () c .looking
          rw [working] at moved
          simp only [ConsumerPhase.awake, List.count_cons_self] at moved ⊢
          omega
      · contradiction
  | wakeSpuriously c =>
      have covered := inv.covered ⟨c, wake_asleep taken⟩
      exact wake_keeps inv.tickets inv.kept (by omega) taken

/-- Over any run nothing is lost, taken twice or left unnoticed. -/
theorem run_delivers (d : Discipline Item) (run : List (Action Item Producer Consumer)) :
    Throughout (step d) Delivers start run :=
  throughout_always (step d) Delivers Inv inv_delivers (fun _ _ _ => step_keeps) start run start_inv

end Run

end SignalledLists
