import Mathlib.Data.Nat.Count

/-!
A loop that asks again and again. Every answer stops it, is charged to a
budget of retries, or is noted for nothing. The answers are an infinite
stream, and the fuel bounds how many of them a run may ask for.
-/
namespace RetryLoops

universe u v
variable {Answer : Type u} {Result : Type v}

structure Policy (Answer : Type u) (Result : Type v) where
  stops : Answer → Bool
  charged : Answer → Bool
  note : Result → Answer → Result

def later (answers : Nat → Answer) : Nat → Answer := fun n => answers (n + 1)

def Policy.run (policy : Policy Answer Result) (answers : Nat → Answer) :
    Nat → Nat → Result → Option Result
  | 0, _, _ => none
  | fuel + 1, budget, result =>
      if policy.stops (answers 0) || budget == 0 then some result
      else if policy.charged (answers 0) then
        policy.run (later answers) fuel (budget - 1) result
      else policy.run (later answers) fuel budget (policy.note result (answers 0))

def Policy.Ends (policy : Policy Answer Result) (answers : Nat → Answer) (budget : Nat)
    (result : Result) : Prop :=
  ∃ fuel last, policy.run answers fuel budget result = some last

/-- The answers that end a run: one that stops it, or the charges of a whole budget. -/
def Policy.Enough (policy : Policy Answer Result) (answers : Nat → Answer) (budget : Nat) :
    Prop :=
  (∃ n, policy.stops (answers n) = true) ∨
    ∃ n, budget ≤ Nat.count (fun k => policy.charged (answers k)) n

variable (policy : Policy Answer Result)

theorem run_stopped (answers : Nat → Answer) (fuel budget : Nat) (result : Result)
    (stopped : policy.stops (answers 0) = true ∨ budget = 0) :
    policy.run answers (fuel + 1) budget result = some result := by
  rcases stopped with stops | spent
  · simp [Policy.run, stops]
  · simp [Policy.run, spent]

theorem run_charged (answers : Nat → Answer) (fuel budget : Nat) (result : Result)
    (goes : policy.stops (answers 0) = false) (left : budget ≠ 0)
    (charged : policy.charged (answers 0) = true) :
    policy.run answers (fuel + 1) budget result =
      policy.run (later answers) fuel (budget - 1) result := by
  simp [Policy.run, goes, left, charged]

theorem run_noted (answers : Nat → Answer) (fuel budget : Nat) (result : Result)
    (goes : policy.stops (answers 0) = false) (left : budget ≠ 0)
    (free : policy.charged (answers 0) = false) :
    policy.run answers (fuel + 1) budget result =
      policy.run (later answers) fuel budget (policy.note result (answers 0)) := by
  simp [Policy.run, goes, left, free]

/-- Fuel for the answers up to the `n`-th is enough exactly when one of them
stops the run or those before the last one are charged the whole budget. -/
theorem run_isSome (n : Nat) (answers : Nat → Answer) (budget : Nat) (result : Result) :
    (policy.run answers (n + 1) budget result).isSome = true ↔
      (∃ k ≤ n, policy.stops (answers k) = true) ∨
        budget ≤ Nat.count (fun k => policy.charged (answers k)) n := by
  induction n generalizing answers budget result with
  | zero => simp [Policy.run]
  | succ n ih =>
      by_cases stopped : policy.stops (answers 0) = true ∨ budget = 0
      · rw [run_stopped policy answers (n + 1) budget result stopped]
        simp only [Option.isSome_some, true_iff]
        rcases stopped with stops | spent
        · exact .inl ⟨0, Nat.zero_le _, stops⟩
        · exact .inr (by omega)
      · obtain ⟨goes, left⟩ := not_or.mp stopped
        rw [Bool.not_eq_true] at goes
        -- the first answer is behind the run: its charge moves from count to budget
        have shifted : (∃ k ≤ n + 1, policy.stops (answers k) = true) ↔
            ∃ k ≤ n, policy.stops (later answers k) = true := by
          constructor
          · rintro ⟨k, within, stops⟩
            cases k with
            | zero => simp [goes] at stops
            | succ k => exact ⟨k, by omega, stops⟩
          · rintro ⟨k, within, stops⟩
            exact ⟨k + 1, by omega, stops⟩
        rw [shifted, Nat.count_succ']
        cases charged : policy.charged (answers 0) with
        | true =>
            rw [run_charged policy answers _ budget result goes left charged, ih]
            exact or_congr_right (by rw [if_pos rfl]; exact Nat.sub_le_iff_le_add)
        | false =>
            rw [run_noted policy answers _ budget result goes left charged, ih]
            exact or_congr_right (by rw [if_neg Bool.false_ne_true]; exact Iff.rfl)

/-- A run ends exactly when its answers are enough for its budget. -/
theorem ends_iff (answers : Nat → Answer) (budget : Nat) (result : Result) :
    policy.Ends answers budget result ↔ policy.Enough answers budget := by
  have asked : policy.Ends answers budget result ↔
      ∃ n, (policy.run answers (n + 1) budget result).isSome = true := by
    constructor
    · rintro ⟨fuel, last, ran⟩
      cases fuel with
      | zero => simp [Policy.run] at ran
      | succ n => exact ⟨n, by rw [ran]; rfl⟩
    · rintro ⟨n, ran⟩
      exact ⟨n + 1, Option.isSome_iff_exists.mp ran⟩
  simp only [asked, run_isSome, Policy.Enough, exists_or]
  refine or_congr_left ⟨?_, ?_⟩
  · rintro ⟨n, k, within, stops⟩
    exact ⟨k, stops⟩
  · rintro ⟨k, stops⟩
    exact ⟨k, k, Nat.le_refl k, stops⟩

end RetryLoops
