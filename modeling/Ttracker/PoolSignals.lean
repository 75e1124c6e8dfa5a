import Ttracker.DrainingRuns
import Ttracker.PoolCallers

/-!
Callers of one pool that sleep until they are woken. A caller in the wait loop of
`get` sleeps or has been woken and not looked yet; `join` signals, which wakes one
sleeper if there is one. Without the signals this is the pool of the callers that
look again at any time.
-/
namespace PoolSignals
open LinkedNodes ObjectPools PoolCallers TransitionRuns DrainingRuns

variable {Caller Content : Type}

structure Signalled (Caller Content : Type) where
  callers : Callers Caller Content
  woken : Caller → Bool

inductive Action (Caller Content : Type) where
  | get (c : Caller)
  | look (c : Caller)
  | write (c : Caller) (id : Nat) (content : Content)
  | join (c : Caller) (id : Nat) (signalled : Option Caller)
  | wakeSpuriously (c : Caller)

def sleeps (s : Signalled Caller Content) (c : Caller) : Bool := s.callers.asleep c && !s.woken c

section Steps
variable [DecidableEq Caller] [Fintype Caller]

def wake (s : Signalled Caller Content) (c : Caller) : Option (Signalled Caller Content) :=
  if sleeps s c then some { s with woken := Function.update s.woken c true } else none

/-- `pthread_cond_signal`: a signal is lost only when nobody sleeps. -/
def signal (s : Signalled Caller Content) : Option Caller → Option (Signalled Caller Content)
  | some c => wake s c
  | none => if ∀ c, sleeps s c = false then some s else none

/-- What a woken caller does with the mutex: it takes an object or sleeps again. -/
def look (k : Kind Content) (s : Signalled Caller Content) (c : Caller) : Signalled Caller Content :=
  match reenter k s.callers c with
  | none => { s with woken := Function.update s.woken c false }
  | some (_, next) => ⟨next, Function.update s.woken c false⟩

def step (k : Kind Content) (s : Signalled Caller Content) :
    Action Caller Content → Option (Signalled Caller Content)
  | .get c => (PoolCallers.step k s.callers (.get c)).map fun next => { s with callers := next }
  | .look c => if s.woken c then some (look k s c) else none
  | .write c id content =>
      (PoolCallers.step k s.callers (.write c id content)).map fun next => { s with callers := next }
  | .join c id signalled =>
      (PoolCallers.step k s.callers (.join c id)).bind fun next =>
        signal { s with callers := next } signalled
  | .wakeSpuriously c => wake s c

end Steps

def start (k : Kind Content) : Signalled Caller Content := ⟨PoolCallers.start k, fun _ => false⟩

/-! ## What the callers do without the signals -/

section Refinement
variable [DecidableEq Caller] [Fintype Caller] {k : Kind Content} {s next : Signalled Caller Content}

/-- Only callers in the wait loop are ever woken. -/
def InLoop (s : Signalled Caller Content) : Prop := ∀ c, s.woken c = true → s.callers.asleep c = true

omit [Fintype Caller] in
theorem wake_some {c : Caller} (taken : wake s c = some next) :
    sleeps s c = true ∧ next = { s with woken := Function.update s.woken c true } := by
  unfold wake at taken
  split at taken
  · next asleep =>
      cases taken
      exact ⟨asleep, rfl⟩
  · contradiction

theorem signal_some {signalled : Option Caller} (taken : signal s signalled = some next) :
    (next = s ∧ ∀ c, sleeps s c = false) ∨
      ∃ c, sleeps s c = true ∧ next = { s with woken := Function.update s.woken c true } := by
  cases signalled with
  | none =>
      simp only [signal] at taken
      split at taken
      · next nobody =>
          cases taken
          exact Or.inl ⟨rfl, nobody⟩
      · contradiction
  | some c => exact Or.inr ⟨c, wake_some taken⟩

theorem signal_callers {signalled : Option Caller} (taken : signal s signalled = some next) :
    next.callers = s.callers := by
  rcases signal_some taken with ⟨rfl, _⟩ | ⟨c, _, rfl⟩ <;> rfl

/-- Every step is one of the callers', or moves nobody. -/
theorem step_refines {action : Action Caller Content} (inLoop : InLoop s)
    (taken : step k s action = some next) :
    next.callers = s.callers ∨ ∃ plain, PoolCallers.step k s.callers plain = some next.callers := by
  cases action with
  | get c =>
      obtain ⟨callers, moved, rfl⟩ := Option.map_eq_some_iff.mp taken
      exact Or.inr ⟨_, moved⟩
  | look c =>
      simp only [step] at taken
      split at taken
      · next woken =>
          cases taken
          unfold look
          split
          · exact Or.inl rfl
          · next got after took =>
              refine Or.inr ⟨.look c, ?_⟩
              rw [PoolCallers.step, if_pos (inLoop c woken), took, Option.map_some]
      · contradiction
  | write c id content =>
      obtain ⟨callers, moved, rfl⟩ := Option.map_eq_some_iff.mp taken
      exact Or.inr ⟨_, moved⟩
  | join c id signalled =>
      obtain ⟨callers, moved, signals⟩ := Option.bind_eq_some_iff.mp taken
      exact Or.inr ⟨.join c id, (signal_callers signals) ▸ moved⟩
  | wakeSpuriously c =>
      obtain ⟨_, rfl⟩ := wake_some taken
      exact Or.inl rfl

end Refinement

/-! ## No object is left while everybody sleeps -/

theorem ready_waits {step limit : Nat} {pool : Pool} (waits : ready step limit pool = none) :
    pool.num = limit ∧ pool.num ≤ pool.inUse := by
  unfold ready at waits
  split at waits
  · next used =>
      split at waits
      · contradiction
      · next full =>
          unfold populate at full
          split at full
          · next limit => exact ⟨limit, used⟩
          · contradiction
  · contradiction

/-- A pool at its limit does not grow. -/
theorem ready_full {step limit : Nat} {pool grown : Pool} (full : pool.num = limit)
    (readied : ready step limit pool = some grown) : grown = pool := by
  unfold ready populate at readied
  simp only [full, if_true] at readied
  split at readied
  · split at readied
    · contradiction
    · exact (Option.some.inj readied).symm
  · exact (Option.some.inj readied).symm

/-- A caller that has been woken and has not looked yet. -/
def awake (woken : Bool) : Nat := woken.toNat

/-- While anybody is in the wait loop the pool is as large as it may be, and while
anybody sleeps each free object has a woken caller. -/
structure Inv [DecidableEq Caller] [Fintype Caller] (k : Kind Content)
    (s : Signalled Caller Content) : Prop where
  sound : PoolCallers.Inv k s.callers
  inLoop : InLoop s
  full : (∃ c, s.callers.asleep c = true) → s.callers.pool.num = k.limit
  covered : (∃ c, sleeps s c = true) →
    s.callers.pool.num ≤ s.callers.pool.inUse + threadsWeigh awake s.woken

/-- When an object is free and a caller sleeps, another has been woken, and it gets
an object if it is the next to look. -/
structure Wakes [DecidableEq Caller] (k : Kind Content) (s : Signalled Caller Content) : Prop where
  sound : Sound k s.callers
  noticed : (∃ c, sleeps s c = true) → s.callers.held.length < k.limit →
    ∃ c, s.woken c = true ∧ s.callers.asleep c = true ∧
      ∃ got next, reenter k s.callers c = some (got, next) ∧ Handed k s.callers c got next

section Run
variable [DecidableEq Caller] [Fintype Caller] {k : Kind Content} {s next : Signalled Caller Content}

theorem inv_wakes (inv : Inv k s) : Wakes k s := by
  have sound := inv_sound inv.sound
  refine ⟨sound, ?_⟩
  rintro ⟨c, sleeping⟩ room
  have asleep : s.callers.asleep c = true := by
    simp only [sleeps, Bool.and_eq_true] at sleeping
    exact sleeping.1
  have full := inv.full ⟨c, asleep⟩
  have covered := inv.covered ⟨c, sleeping⟩
  have held := sound.held
  -- if nobody were woken, no object would be free
  obtain ⟨w, woken⟩ : ∃ w, s.woken w = true := by
    by_contra nobody
    rw [not_exists] at nobody
    have none : threadsWeigh awake s.woken = 0 := by
      apply Finset.sum_eq_zero
      intro w _
      simp [awake, nobody w]
    omega
  have notFull : s.callers.pool.inUse ≠ s.callers.pool.num := by omega
  refine ⟨w, woken, inv.inLoop w woken, _, _, if_neg notFull, ?_⟩
  exact sound.gets w _ _ (Or.inr (if_neg notFull))

theorem start_wakes_inv (k : Kind Content) : Inv k (start k : Signalled Caller Content) where
  sound := start_inv k
  inLoop := nofun
  full := by simp [start, PoolCallers.start]
  covered := by simp [sleeps, start, PoolCallers.start]

theorem wake_keeps {c : Caller} (sound : PoolCallers.Inv k s.callers) (inLoop : InLoop s)
    (full : (∃ c, s.callers.asleep c = true) → s.callers.pool.num = k.limit)
    (covered : (∃ c, sleeps s c = true) →
      s.callers.pool.num ≤ s.callers.pool.inUse + threadsWeigh awake s.woken + 1)
    (sleeping : sleeps s c = true) :
    Inv k { s with woken := Function.update s.woken c true } := by
  have before := sleeping
  simp only [sleeps, Bool.and_eq_true, Bool.not_eq_true'] at before
  refine ⟨sound, fun w woken => ?_, full, fun _ => ?_⟩
  · by_cases here : w = c
    · exact here ▸ before.1
    · exact inLoop w (by simpa [here] using woken)
  · have more := threads_weigh_update awake s.woken c true
    have was : awake (s.woken c) = 0 := by rw [before.2]; rfl
    have one : awake true = 1 := rfl
    have here := covered ⟨c, sleeping⟩
    simp only
    omega

omit [Fintype Caller] in
theorem receive_counts {callers after : Callers Caller Content} {c : Caller} {grown : Pool} {id : Nat}
    (received : receive k callers c grown = (some id, after)) :
    after.pool.num = grown.num ∧ after.pool.inUse = grown.inUse + 1 ∧
      after.asleep = Function.update callers.asleep c false := by
  unfold receive firstFree at received
  split at received
  · next missed =>
      split at missed
      · cases missed
        cases received
      · cases missed
        cases received
        exact ⟨rfl, rfl, rfl⟩

theorem get_keeps {c : Caller} (inv : Inv k s) (taken : step k s (.get c) = some next) :
    Inv k next := by
  obtain ⟨callers, moved, rfl⟩ := Option.map_eq_some_iff.mp taken
  have sound := PoolCallers.step_keeps inv.sound moved
  simp only [PoolCallers.step] at moved
  split at moved
  · contradiction
  · next awakeHere =>
      cases entered : enter k s.callers c with
      | none =>
          simp only [entered] at moved
          cases moved
          -- a caller goes to sleep only when the pool is full and all of it in use
          have waits := Option.map_eq_none_iff.mp entered
          obtain ⟨limit, used⟩ := ready_waits waits
          refine ⟨sound, fun w woken => ?_, fun _ => limit, fun _ => ?_⟩
          · by_cases here : w = c
            · simp [here]
            · simpa [here] using inv.inLoop w woken
          · simp only
            omega
      | some result =>
          obtain ⟨got, after⟩ := result
          simp only [entered] at moved
          cases moved
          obtain ⟨id, rfl, _⟩ := (gets_keep inv.sound (Or.inl entered)).2
          obtain ⟨grown, readied, received⟩ := Option.map_eq_some_iff.mp entered
          obtain ⟨num, used, asleep⟩ := receive_counts received
          have same : callers.asleep = s.callers.asleep := by
            rw [asleep, ← Bool.eq_false_of_not_eq_true awakeHere, Function.update_eq_self]
          -- a pool that somebody waits for does not grow any more
          have whole : (∃ w, s.callers.asleep w = true) → grown = s.callers.pool :=
            fun waiting => ready_full (inv.full waiting) readied
          refine ⟨sound, fun w woken => same ▸ inv.inLoop w woken, ?_, ?_⟩
          · intro waiting
            simp only [same] at waiting
            rw [num, whole waiting]
            exact inv.full waiting
          · rintro ⟨w, sleeping⟩
            simp only [sleeps, same] at sleeping
            have covered := inv.covered ⟨w, sleeping⟩
            have asleepNow : s.callers.asleep w = true := by
              simp only [Bool.and_eq_true] at sleeping
              exact sleeping.1
            rw [whole ⟨w, asleepNow⟩] at num used
            simp only
            omega

theorem look_keeps {c : Caller} (inv : Inv k s) (woken : s.woken c = true) :
    Inv k (look k s c) := by
  unfold look
  cases entered : reenter k s.callers c with
  | none =>
      have full : s.callers.pool.inUse = s.callers.pool.num := by
        unfold reenter at entered
        split at entered
        · assumption
        · contradiction
      refine ⟨inv.sound, fun w still => ?_, inv.full, fun _ => ?_⟩
      · by_cases here : w = c
        · simp [here] at still
        · exact inv.inLoop w (by simpa [here] using still)
      · simp only
        omega
  | some result =>
      obtain ⟨got, after⟩ := result
      obtain ⟨sound, id, rfl, _⟩ := gets_keep inv.sound (Or.inr entered)
      have received : receive k s.callers c s.callers.pool = (some id, after) := by
        unfold reenter at entered
        split at entered
        · contradiction
        · exact Option.some.inj entered
      obtain ⟨num, used, asleep⟩ := receive_counts received
      have away : ∀ w, after.asleep w = true → w ≠ c ∧ s.callers.asleep w = true := by
        intro w still
        by_cases here : w = c
        · simp [asleep, here] at still
        · exact ⟨here, by simpa [asleep, here] using still⟩
      refine ⟨sound, fun w still => ?_, ?_, ?_⟩
      · by_cases here : w = c
        · simp [here] at still
        · have before := inv.inLoop w (by simpa [here] using still)
          simpa [asleep, here] using before
      · rintro ⟨w, still⟩
        simp only [num]
        exact inv.full ⟨w, (away w still).2⟩
      · rintro ⟨w, sleeping⟩
        simp only [sleeps, Bool.and_eq_true, Bool.not_eq_true'] at sleeping
        obtain ⟨other, before⟩ := away w sleeping.1
        have slept : sleeps s w = true := by
          simpa [sleeps, before, other] using sleeping.2
        have covered := inv.covered ⟨w, slept⟩
        -- the object it takes is the one its wake-up stood for
        have fewer := threads_weigh_update awake s.woken c false
        have was : awake (s.woken c) = 1 := by rw [woken]; rfl
        have none : awake false = 0 := rfl
        simp only
        omega

theorem join_keeps {c : Caller} {id : Nat} {signalled : Option Caller} (inv : Inv k s)
    (taken : step k s (.join c id signalled) = some next) : Inv k next := by
  obtain ⟨callers, moved, signals⟩ := Option.bind_eq_some_iff.mp taken
  have sound := PoolCallers.step_keeps inv.sound moved
  have before := (inv_sound inv.sound).held
  have after := (inv_sound sound).held
  simp only [PoolCallers.step] at moved
  split at moved
  · next allowed =>
      obtain ⟨pool, given, rfl⟩ := Option.map_eq_some_iff.mp moved
      have num := (give_back_frame given).2
      have shorter := List.length_erase_of_mem allowed.2
      have some_held := List.length_pos_of_mem allowed.2
      -- the object that is given back has a woken caller, or nobody sleeps
      rcases signal_some signals with ⟨rfl, nobody⟩ | ⟨w, sleeping, rfl⟩
      · refine ⟨sound, inv.inLoop, fun waiting => num.trans (inv.full waiting), ?_⟩
        rintro ⟨w, sleeping⟩
        rw [nobody w] at sleeping
        contradiction
      · refine wake_keeps sound inv.inLoop (fun waiting => num.trans (inv.full waiting)) ?_ sleeping
        rintro ⟨other, slept⟩
        have covered := inv.covered ⟨other, slept⟩
        simp only at before after ⊢
        omega
  · contradiction

theorem step_keeps {action : Action Caller Content} (inv : Inv k s)
    (taken : step k s action = some next) : Inv k next := by
  cases action with
  | get c => exact get_keeps inv taken
  | look c =>
      simp only [step] at taken
      split at taken
      · next woken =>
          cases taken
          exact look_keeps inv woken
      · contradiction
  | write c id content =>
      obtain ⟨callers, moved, rfl⟩ := Option.map_eq_some_iff.mp taken
      have sound := PoolCallers.step_keeps inv.sound moved
      simp only [PoolCallers.step] at moved
      split at moved
      · cases moved
        exact ⟨sound, inv.inLoop, inv.full, inv.covered⟩
      · contradiction
  | join c id signalled => exact join_keeps inv taken
  | wakeSpuriously c =>
      obtain ⟨sleeping, rfl⟩ := wake_some taken
      exact wake_keeps inv.sound inv.inLoop inv.full
        (fun waiting => Nat.le_succ_of_le (inv.covered waiting)) sleeping

/-- In every reachable state the pool is sound and no free object is slept through. -/
theorem run_wakes (k : Kind Content) (run : List (Action Caller Content)) :
    Throughout (step k) (Wakes k) (start k) run :=
  throughout_always (step k) (Wakes k) (Inv k) (fun _ => inv_wakes) (fun _ _ _ => step_keeps)
    (start k) run (start_wakes_inv k)

/-- Without its signals a run is one of the callers that look at any time. -/
theorem run_refines (k : Kind Content) (run : List (Action Caller Content))
    (final : Signalled Caller Content) (reached : replay (step k) (start k) run = some final) :
    ∃ plain, replay (PoolCallers.step k) (PoolCallers.start k) plain = some final.callers := by
  have kept : ∀ (state : Signalled Caller Content) action next, (Inv k state ∧
        ∃ plain, replay (PoolCallers.step k) (PoolCallers.start k) plain = some state.callers) →
      step k state action = some next → Inv k next ∧
        ∃ plain, replay (PoolCallers.step k) (PoolCallers.start k) plain = some next.callers := by
    rintro state action next ⟨inv, plain, before⟩ taken
    refine ⟨step_keeps inv taken, ?_⟩
    rcases step_refines inv.inLoop taken with same | ⟨move, moved⟩
    · exact ⟨plain, same ▸ before⟩
    · refine ⟨plain ++ [move], ?_⟩
      rw [replay_append, before, Option.bind_some, replay, moved, Option.bind_some, replay]
  exact (reachable_invariant (step k) _ kept (start k) final run
    ⟨start_wakes_inv k, [], rfl⟩ reached).2

end Run

end PoolSignals
