import Mathlib.Control.Lawful
import Mathlib.Data.Fintype.EquivFin
import Mathlib.Data.List.Perm.Basic
import Mathlib.Tactic.Common

/-!
Programs that allocate and free blocks. A heap is the set of the blocks that are
allocated; an access or a `free` of any other block has no result. What a program
owns is a list of blocks next to a frame it does not touch: the rules below follow
the blocks through sequences of programs, so that what a whole program leaves behind
is what it owns at its end. An allocation that fails ends the process and is no run.
-/
namespace OwnedBlocks

variable {Addr α β : Type}

structure Heap (Addr : Type) where
  live : Finset Addr
  calls : Nat

abbrev Program (Addr α : Type) := StateT (Heap Addr) Option α

/-- Where the blocks come from: any choice among those that are not allocated. -/
structure Allocator (Addr : Type) where
  pick : Nat → Finset Addr → Addr
  fresh : ∀ calls live, pick calls live ∉ live

/-- Memory that does not run out has an allocator. -/
noncomputable def Allocator.any [Infinite Addr] : Allocator Addr where
  pick _ live := Classical.choose (Infinite.exists_notMem_finset live)
  fresh _ live := Classical.choose_spec (Infinite.exists_notMem_finset live)

section Programs
variable [DecidableEq Addr]

def malloc (a : Allocator Addr) : Program Addr Addr := fun h =>
  some (a.pick h.calls h.live, ⟨insert (a.pick h.calls h.live) h.live, h.calls + 1⟩)

def free (p : Addr) : Program Addr Unit := fun h =>
  if p ∈ h.live then some ((), { h with live := h.live.erase p }) else none

/-- A read or a write through a pointer. -/
def access (p : Addr) : Program Addr Unit := fun h =>
  if p ∈ h.live then some ((), h) else none

def freeAll : List Addr → Program Addr Unit
  | [] => pure ()
  | p :: rest => do
      free p
      freeAll rest

end Programs

/-! ## Owned blocks -/

section Owned
variable [DecidableEq Addr]

/-- The allocated blocks are these, each once, and the frame. -/
structure Holds (blocks : List Addr) (frame : Finset Addr) (h : Heap Addr) : Prop where
  distinct : blocks.Nodup
  apart : ∀ p ∈ blocks, p ∉ frame
  live : ∀ p, p ∈ h.live ↔ p ∈ blocks ∨ p ∈ frame

/-- From these blocks the program gets to a result and to blocks it owns then. -/
def Takes (program : Program Addr α) (given : List Addr) (post : α → List Addr → Prop) : Prop :=
  ∀ frame h, Holds given frame h →
    ∃ result h' left, program.run h = some (result, h') ∧ Holds left frame h' ∧ post result left

omit [DecidableEq Addr] in
theorem Holds.perm {given blocks : List Addr} {frame : Finset Addr} {h : Heap Addr}
    (holds : Holds given frame h) (perm : given.Perm blocks) : Holds blocks frame h where
  distinct := perm.nodup_iff.mp holds.distinct
  apart p member := holds.apart p (perm.mem_iff.mpr member)
  live p := by rw [holds.live, perm.mem_iff]

omit [DecidableEq Addr] in
theorem holds_nothing (h : Heap Addr) : Holds [] h.live h where
  distinct := List.nodup_nil
  apart _ member := absurd member List.not_mem_nil
  live p := by simp

omit [DecidableEq Addr] in
theorem Takes.perm {program : Program Addr α} {given blocks : List Addr}
    {post : α → List Addr → Prop} (takes : Takes program blocks post) (perm : given.Perm blocks) :
    Takes program given post :=
  fun frame h holds => takes frame h (holds.perm perm)

omit [DecidableEq Addr] in
theorem Takes.weaken {program : Program Addr α} {given : List Addr} {post wider : α → List Addr → Prop}
    (takes : Takes program given post)
    (implies : ∀ result left, post result left → wider result left) :
    Takes program given wider := by
  intro frame h holds
  obtain ⟨result, h', left, ran, after, ends⟩ := takes frame h holds
  exact ⟨result, h', left, ran, after, implies result left ends⟩

omit [DecidableEq Addr] in
theorem Takes.bind {program : Program Addr α} {next : α → Program Addr β} {given : List Addr}
    {middle : α → List Addr → Prop} {post : β → List Addr → Prop}
    (first : Takes program given middle)
    (onward : ∀ result left, middle result left → Takes (next result) left post) :
    Takes (program >>= next) given post := by
  intro frame h holds
  obtain ⟨result, h₁, left, ran, after, ends⟩ := first frame h holds
  obtain ⟨value, h₂, blocks, went, last, done⟩ := onward result left ends frame h₁ after
  exact ⟨value, h₂, blocks, by simp [StateT.run_bind, ran, went], last, done⟩

omit [DecidableEq Addr] in
theorem takes_distinct {program : Program Addr α} {given : List Addr} {post : α → List Addr → Prop}
    (takes : given.Nodup → Takes program given post) : Takes program given post :=
  fun frame h holds => takes holds.distinct frame h holds

/-- What a program does not own stays out of its way. -/
theorem Takes.framed {program : Program Addr α} {given own rest : List Addr}
    {post wider : α → List Addr → Prop} (takes : Takes program own post)
    (perm : given.Perm (own ++ rest))
    (implies : ∀ result left, post result left → wider result (left ++ rest)) :
    Takes program given wider := by
  intro frame h given
  have holds := given.perm perm
  obtain ⟨ownDistinct, restDistinct, disjoint⟩ := List.nodup_append.mp holds.distinct
  -- the rest is frame to the program, as what was frame before
  have inner : Holds own (rest.toFinset ∪ frame) h := by
    refine ⟨ownDistinct, fun p member => ?_, fun p => ?_⟩
    · simp only [Finset.mem_union, List.mem_toFinset, not_or]
      exact ⟨fun other => disjoint p member p other rfl,
        holds.apart p (List.mem_append_left rest member)⟩
    · rw [holds.live, List.mem_append, Finset.mem_union, List.mem_toFinset, or_assoc]
  obtain ⟨result, h', left, ran, after, ends⟩ := takes _ h inner
  refine ⟨result, h', left ++ rest, ran, ⟨?_, ?_, ?_⟩, implies result left ends⟩
  · refine List.nodup_append.mpr ⟨after.distinct, restDistinct, fun p member q other same => ?_⟩
    subst same
    exact after.apart p member (Finset.mem_union_left _ (List.mem_toFinset.mpr other))
  · intro p member
    rcases List.mem_append.mp member with mine | other
    · exact fun outside => after.apart p mine (Finset.mem_union_right _ outside)
    · exact holds.apart p (List.mem_append_right own other)
  · intro p
    rw [after.live, List.mem_append, Finset.mem_union, List.mem_toFinset, or_assoc]

/-! ### One call after the other -/

variable {given rest : List Addr} {post : α → List Addr → Prop} {next : β → Program Addr α}

omit [DecidableEq Addr] in
theorem takes_pure {result : α} {blocks : List Addr} (perm : given.Perm blocks)
    (ends : post result blocks) : Takes (pure result) given post :=
  fun _ h holds => ⟨result, h, blocks, rfl, holds.perm perm, ends⟩

theorem takes_malloc (a : Allocator Addr) {next : Addr → Program Addr α}
    (onward : ∀ p, Takes (next p) (p :: given) post) : Takes (malloc a >>= next) given post := by
  have takes : Takes (malloc a) given fun p left => left = p :: given := ?_
  · exact takes.bind fun p left is => is ▸ onward p
  intro frame h holds
  -- an address may have been used before, but nobody holds it now
  have unused : a.pick h.calls h.live ∉ h.live := a.fresh h.calls h.live
  rw [holds.live, not_or] at unused
  refine ⟨_, _, _, rfl, ⟨List.nodup_cons.mpr ⟨unused.1, holds.distinct⟩, ?_, ?_⟩, rfl⟩
  · exact List.forall_mem_cons.mpr ⟨unused.2, holds.apart⟩
  · intro p
    simp [holds.live, or_assoc]

theorem takes_free_last {p : Addr} (perm : given.Perm (p :: rest)) :
    Takes (free p) given fun _ left => left = rest := by
  intro frame h given
  have holds := given.perm perm
  have live : p ∈ h.live := (holds.live p).mpr (Or.inl List.mem_cons_self)
  have apart := holds.apart p List.mem_cons_self
  obtain ⟨once, distinct⟩ := List.nodup_cons.mp holds.distinct
  refine ⟨(), { h with live := h.live.erase p }, rest, if_pos live, ⟨distinct, ?_, ?_⟩, rfl⟩
  · exact fun q member => holds.apart q (List.mem_cons_of_mem p member)
  · intro q
    simp only [Finset.mem_erase, holds.live, List.mem_cons]
    constructor
    · rintro ⟨other, (same | inside) | outside⟩
      · exact absurd same other
      · exact Or.inl inside
      · exact Or.inr outside
    · rintro (inside | outside)
      · exact ⟨fun same => once (same ▸ inside), Or.inl (Or.inr inside)⟩
      · exact ⟨fun same => apart (same ▸ outside), Or.inr outside⟩

theorem takes_free {p : Addr} {next : Unit → Program Addr α} (perm : given.Perm (p :: rest))
    (onward : Takes (next ()) rest post) : Takes (free p >>= next) given post :=
  (takes_free_last perm).bind fun _ _ is => is ▸ onward

theorem takes_access {p : Addr} {next : Unit → Program Addr α} (member : p ∈ given)
    (onward : Takes (next ()) given post) : Takes (access p >>= next) given post := by
  have takes : Takes (access p) given fun _ left => left = given := ?_
  · exact takes.bind fun _ left is => is ▸ onward
  intro frame h holds
  have live : p ∈ h.live := (holds.live p).mpr (Or.inl member)
  exact ⟨(), h, given, if_pos live, holds, rfl⟩

omit [DecidableEq Addr] in
/-- What has to have a value has one. -/
theorem takes_lift {value : Option β} {result : β} (defined : value = some result)
    (onward : Takes (next result) given post) : Takes (liftM value >>= next) given post := by
  subst defined
  exact onward

theorem takes_call {program : Program Addr β} {own : List Addr} {middle : β → List Addr → Prop}
    (takes : Takes program own middle) (perm : given.Perm (own ++ rest))
    (onward : ∀ result left, middle result left → Takes (next result) (left ++ rest) post) :
    Takes (program >>= next) given post := by
  have called : Takes program given fun result blocks =>
      ∃ left, middle result left ∧ blocks = left ++ rest :=
    takes.framed perm fun result left ends => ⟨left, ends, rfl⟩
  refine called.bind ?_
  rintro result _ ⟨left, ends, rfl⟩
  exact onward result left ends

end Owned

/-! ## Freeing a list of blocks -/

section Lists
variable [DecidableEq Addr]

/-- The blocks are allocated, and no block comes twice. -/
def Owns (blocks : List Addr) (h : Heap Addr) : Prop := blocks.Nodup ∧ ∀ p ∈ blocks, p ∈ h.live

instance (blocks : List Addr) (h : Heap Addr) : Decidable (Owns blocks h) := by
  unfold Owns
  infer_instance

theorem free_all_append (front back : List Addr) :
    freeAll (front ++ back) = (do freeAll front; freeAll back : Program Addr Unit) := by
  induction front with
  | nil => simp [freeAll]
  | cons p rest ih => simp [freeAll, ih]

/-- A list of frees goes through exactly when no block is freed that is not allocated,
or is freed again. -/
theorem free_all_iff (blocks : List Addr) (h after : Heap Addr) :
    (freeAll blocks).run h = some ((), after) ↔
      Owns blocks h ∧ after = { h with live := h.live \ blocks.toFinset } := by
  induction blocks generalizing h with
  | nil =>
      simp only [freeAll, StateT.run_pure, Option.pure_def, Option.some.injEq, Prod.mk.injEq,
        true_and, Owns, List.nodup_nil, List.not_mem_nil, false_imp_iff, implies_true,
        List.toFinset_nil, Finset.sdiff_empty]
      exact eq_comm
  | cons p rest ih =>
      by_cases live : p ∈ h.live
      · have first : (free p).run h = some ((), { h with live := h.live.erase p }) := if_pos live
        simp only [freeAll, StateT.run_bind, first, Option.bind_eq_bind, Option.bind_some, ih]
        have left : (h.live.erase p) \ rest.toFinset = h.live \ (p :: rest).toFinset := by
          rw [List.toFinset_cons, Finset.erase_sdiff_comm, Finset.sdiff_insert]
        have owns : Owns rest { h with live := h.live.erase p } ↔ Owns (p :: rest) h := by
          simp only [Owns, Finset.mem_erase, List.nodup_cons, List.forall_mem_cons]
          constructor
          · rintro ⟨distinct, inside⟩
            exact ⟨⟨fun member => (inside p member).1 rfl, distinct⟩, live,
              fun q member => (inside q member).2⟩
          · rintro ⟨⟨new, distinct⟩, _, inside⟩
            exact ⟨distinct, fun q member => ⟨fun same => new (same ▸ member), inside q member⟩⟩
        rw [left, owns]
      · have first : (free p).run h = none := if_neg live
        simp only [freeAll, StateT.run_bind, first, Option.bind_eq_bind, Option.bind_none]
        constructor
        · exact fun impossible => absurd impossible (by simp)
        · exact fun owned => absurd (owned.1.2 p List.mem_cons_self) live

theorem takes_free_all (blocks : List Addr) :
    Takes (freeAll blocks) blocks fun _ left => left = [] := by
  induction blocks with
  | nil => exact takes_pure (List.Perm.refl _) rfl
  | cons p rest ih => exact takes_free (List.Perm.refl _) ih

/-- An access to a block that is freed later changes nothing: where it fails, the free does. -/
theorem access_free_all {p : Addr} {blocks : List Addr} (member : p ∈ blocks) :
    (do access p; freeAll blocks : Program Addr Unit) = freeAll blocks := by
  funext h
  by_cases live : p ∈ h.live
  · have first : (access p).run h = some ((), h) := if_pos live
    exact (by simp [StateT.run_bind, first] :
      (do access p; freeAll blocks : Program Addr Unit).run h = (freeAll blocks).run h)
  · have first : (access p).run h = none := if_neg live
    have last : (freeAll blocks).run h = none := by
      by_contra some
      obtain ⟨⟨_, after⟩, freed⟩ := Option.ne_none_iff_exists'.mp some
      exact live (((free_all_iff blocks h after).mp freed).1.2 p member)
    exact (by simp [StateT.run_bind, first, last] :
      (do access p; freeAll blocks : Program Addr Unit).run h = (freeAll blocks).run h)

end Lists

end OwnedBlocks
