import Ttracker.CLibrary

/-!
A chain of `snprintf(p + written, size - written, ..)` calls that adds up what
each call returns. `snprintf` returns the length it wanted, so after one cut
the remaining size is negative and, as a `size_t`, huge. The record keeps the
allocation, the sum, the size each call was given and the bytes it stored.
-/
namespace BoundedPrint
open CLibrary

structure Printer where
  mem : List UInt8
  written : Nat
  /-- `size - written` at each call, before the conversion to `size_t`. -/
  sizes : List Int
  /-- Offset and number of the bytes each call stored, its NUL included. -/
  spans : List (Nat × Nat)
  deriving DecidableEq

def blank (size : Nat) : Printer := ⟨List.replicate size 0, 0, [], []⟩

/-- The bytes `snprintf` stores for a text when told it has `room` bytes. -/
def clipped (room : Nat) (text : List UInt8) : List UInt8 :=
  if room = 0 then [] else text.take (room - 1) ++ [0]

def emit (size : Int) (printer : Printer) (text : List UInt8) : Printer :=
  let bytes := clipped (toUnsigned64 (size - printer.written)) text
  { mem := store printer.mem printer.written bytes
    written := printer.written + text.length
    sizes := printer.sizes ++ [size - printer.written]
    spans := printer.spans ++ [(printer.written, bytes.length)] }

def emitAll (size : Int) (printer : Printer) (texts : List (List UInt8)) : Printer :=
  texts.foldl (emit size) printer

/-- Every call was told a positive size and stored inside the allocation. -/
def Safe (size : Nat) (printer : Printer) : Prop :=
  (∀ remaining ∈ printer.sizes, 0 < remaining) ∧
    ∀ span ∈ printer.spans, span.1 + span.2 ≤ size

instance (size : Nat) (printer : Printer) : Decidable (Safe size printer) :=
  inferInstanceAs (Decidable (_ ∧ _))

/-- No call was told a negative size, which is a huge `size_t`, and none stored past the
allocation. -/
def Inside (printer : Printer) : Prop :=
  (∀ remaining ∈ printer.sizes, 0 ≤ remaining) ∧
    ∀ span ∈ printer.spans, span.1 + span.2 ≤ printer.mem.length

instance (printer : Printer) : Decidable (Inside printer) := inferInstanceAs (Decidable (_ ∧ _))

/-- The allocation holds a text, its NUL and untouched zeros. -/
def Holds (size : Nat) (printer : Printer) (text : List UInt8) : Prop :=
  printer.mem = text ++ List.replicate (size - text.length) 0 ∧ printer.written = text.length

theorem clipped_fits (room : Nat) (text : List UInt8) (fits : text.length < room) :
    clipped room text = text ++ [0] := by
  rw [clipped, if_neg (by omega), List.take_of_length_le (by omega)]

theorem size_t_of_small (size : Int) (low : 0 ≤ size) (high : size < 2 ^ 31) :
    toUnsigned64 size = size.toNat := by
  unfold toUnsigned64
  rw [Int.emod_eq_of_lt low (by omega)]

theorem emit_holds (size : Nat) (small : (size : Int) < 2 ^ 31) (printer : Printer)
    (before text : List UInt8) (safe : Safe size printer) (holds : Holds size printer before)
    (fits : before.length + text.length < size) :
    Safe size (emit size printer text) ∧ Holds size (emit size printer text) (before ++ text) := by
  obtain ⟨memory, count⟩ := holds
  have room : toUnsigned64 ((size : Int) - printer.written) = size - before.length := by
    rw [size_t_of_small _ (by omega) (by omega)]
    omega
  have bytes : clipped (toUnsigned64 ((size : Int) - printer.written)) text = text ++ [0] := by
    rw [room, clipped_fits _ _ (by omega)]
  -- the text and its NUL take the first of the zeros that are left
  have zeros : List.replicate (size - before.length) (0 : UInt8) =
      List.replicate (text.length + 1) 0 ++
        List.replicate (size - before.length - (text.length + 1)) 0 := by
    rw [List.replicate_append_replicate]
    congr 1
    omega
  refine ⟨⟨?_, ?_⟩, ?_, ?_⟩
  · intro remaining member
    rcases List.mem_append.mp member with old | new
    · exact safe.1 remaining old
    · rw [List.mem_singleton.mp new]
      omega
  · intro span member
    rcases List.mem_append.mp member with old | new
    · exact safe.2 span old
    · rw [List.mem_singleton.mp new, bytes]
      simp only [List.length_append, List.length_cons, List.length_nil]
      omega
  · simp only [emit]
    rw [bytes, memory, zeros, count, ← List.append_assoc,
      store_append before _ _ (text ++ [0]) (by simp)]
    have left : size - (before ++ text).length =
        1 + (size - before.length - (text.length + 1)) := by
      simp only [List.length_append]
      omega
    rw [left, ← List.replicate_append_replicate]
    simp [List.append_assoc]
  · simp [emit, count]

/-- Texts that fit together with one NUL are all printed whole. -/
theorem emit_all_holds (size : Nat) (small : (size : Int) < 2 ^ 31) (texts : List (List UInt8))
    (printer : Printer) (before : List UInt8) (safe : Safe size printer)
    (holds : Holds size printer before) (fits : before.length + texts.flatten.length < size) :
    Safe size (emitAll size printer texts) ∧
      Holds size (emitAll size printer texts) (before ++ texts.flatten) := by
  induction texts generalizing printer before with
  | nil => exact ⟨safe, by simpa [emitAll] using holds⟩
  | cons text rest ih =>
      simp only [List.flatten_cons, List.length_append] at fits
      have one := emit_holds size small printer before text safe holds (by omega)
      have whole := ih (emit size printer text) (before ++ text) one.1 one.2
        (by simp only [List.length_append]; omega)
      simpa [emitAll, List.append_assoc] using whole

theorem length_emit_mem (size : Int) (printer : Printer) (text : List UInt8) :
    (emit size printer text).mem.length = printer.mem.length := length_store _ _ _

theorem length_emit_all_mem (size : Int) (texts : List (List UInt8)) (printer : Printer) :
    (emitAll size printer texts).mem.length = printer.mem.length := by
  induction texts generalizing printer with
  | nil => rfl
  | cons text rest ih => exact (ih (emit size printer text)).trans (length_emit_mem size printer text)

theorem written_emit_all (size : Int) (texts : List (List UInt8)) (printer : Printer) :
    (emitAll size printer texts).written = printer.written + texts.flatten.length := by
  induction texts generalizing printer with
  | nil => simp [emitAll]
  | cons text rest ih =>
      have onward := ih (emit size printer text)
      simp only [emitAll, List.foldl_cons, emit, List.flatten_cons, List.length_append] at onward ⊢
      omega

theorem blank_safe (size : Nat) : Safe size (blank size) := by
  constructor <;> intro _ member <;> simp [blank] at member

theorem blank_holds (size : Nat) : Holds size (blank size) [] := by
  constructor <;> simp [blank]

/-! ## A cut at the end -/

/-- What an allocation keeps of a text that may not fit in front of its NUL. -/
def shortened (size : Nat) (text : List UInt8) : List UInt8 :=
  text.take (size - 1) ++ List.replicate (size - (text.take (size - 1)).length) 0

theorem holds_inside {size : Nat} {printer : Printer} {text : List UInt8} (safe : Safe size printer)
    (holds : Holds size printer text) (fits : text.length ≤ size) :
    Inside printer ∧ printer.mem.length = size := by
  have length : printer.mem.length = size := by
    rw [holds.1, List.length_append, List.length_replicate]
    omega
  exact ⟨⟨fun remaining member => (safe.1 remaining member).le, length.symm ▸ safe.2⟩, length⟩

theorem emit_inside {size : Int} {printer : Printer} {text : List UInt8} (inside : Inside printer)
    (told : 0 ≤ size - printer.written)
    (fits : printer.written + (clipped (toUnsigned64 (size - printer.written)) text).length ≤
      printer.mem.length) : Inside (emit size printer text) := by
  constructor
  · intro remaining member
    rcases List.mem_append.mp member with old | new
    · exact inside.1 remaining old
    · rwa [List.mem_singleton.mp new]
  · intro span member
    rw [length_emit_mem]
    rcases List.mem_append.mp member with old | new
    · exact inside.2 span old
    · rwa [List.mem_singleton.mp new]

/-- With room for a NUL a print stores what fits in front of it. -/
theorem emit_stores {size : Nat} (small : (size : Int) < 2 ^ 31) {printer : Printer}
    {before : List UInt8} (text : List UInt8) (safe : Safe size printer)
    (holds : Holds size printer before) (room : before.length < size) :
    Inside (emit size printer text) ∧ (emit size printer text).mem = shortened size (before ++ text) := by
  obtain ⟨inside, length⟩ := holds_inside safe holds room.le
  obtain ⟨memory, count⟩ := holds
  have told : toUnsigned64 ((size : Int) - printer.written) = size - before.length := by
    rw [size_t_of_small _ (by omega) (by omega)]
    omega
  obtain ⟨front, isFront⟩ : ∃ front, front = text.take (size - before.length - 1) := ⟨_, rfl⟩
  have short : front.length ≤ size - before.length - 1 := isFront ▸ List.length_take_le _ _
  have bytes : clipped (toUnsigned64 ((size : Int) - printer.written)) text = front ++ [0] := by
    rw [told, clipped, if_neg (by omega), isFront]
  have zeros : List.replicate (size - before.length) (0 : UInt8) =
      List.replicate (front.length + 1) 0 ++
        List.replicate (size - before.length - (front.length + 1)) 0 := by
    rw [List.replicate_append_replicate]
    congr 1
    omega
  refine ⟨emit_inside inside (by omega) ?_, ?_⟩
  · rw [bytes, length, count, List.length_append, List.length_singleton]
    omega
  · have whole : (before ++ text).take (size - 1) = before ++ front := by
      rw [List.take_append, List.take_of_length_le (by omega), isFront]
      congr 2
      omega
    have left : size - (before ++ front).length =
        1 + (size - before.length - (front.length + 1)) := by
      rw [List.length_append]
      omega
    simp only [emit]
    rw [bytes, memory, zeros, count, ← List.append_assoc,
      store_append before _ _ (front ++ [0]) (by simp), shortened, whole, left,
      ← List.replicate_append_replicate]
    simp [List.append_assoc]

theorem emit_nothing {size : Nat} {printer : Printer} (text : List UInt8) (inside : Inside printer)
    (length : printer.mem.length = size) (full : printer.written = size) :
    Inside (emit size printer text) ∧ (emit size printer text).mem = printer.mem := by
  have nothing : clipped (toUnsigned64 ((size : Int) - printer.written)) text = [] := by
    rw [full, Int.sub_self]
    rfl
  refine ⟨emit_inside inside (by omega) ?_, ?_⟩
  · rw [nothing, List.length_nil]
    omega
  · simp only [emit]
    rw [nothing, store, List.length_nil, full, ← length]
    simp

theorem emit_all_concat (size : Int) (printer : Printer) (front : List (List UInt8))
    (last : List UInt8) :
    emitAll size printer (front ++ [last]) = emit size (emitAll size printer front) last := by
  rw [emitAll, List.foldl_append]
  rfl

theorem emit_all_stores {size : Nat} (small : (size : Int) < 2 ^ 31) (some_room : 0 < size)
    {front : List (List UInt8)} (named : ∀ text ∈ front, text ≠ []) (last : List UInt8)
    (fits : front.flatten.length ≤ size) :
    Inside (emitAll size (blank size) (front ++ [last])) ∧
      (emitAll size (blank size) (front ++ [last])).mem =
        shortened size (front ++ [last]).flatten := by
  have printed (texts : List (List UInt8)) (short : texts.flatten.length < size) :=
    emit_all_holds size small texts (blank size) [] (blank_safe size) (blank_holds size)
      (by rwa [List.length_nil, Nat.zero_add])
  rw [emit_all_concat, List.flatten_append, List.flatten_singleton]
  rcases Nat.lt_or_eq_of_le fits with short | full
  · obtain ⟨safe, holds⟩ := printed front short
    exact emit_stores small last safe holds short
  · -- the print before the last one took the last byte for its NUL
    rcases List.eq_nil_or_concat front with rfl | ⟨init, text, rfl⟩
    · rw [List.flatten_nil, List.length_nil] at full
      omega
    · rw [List.concat_eq_append] at named full ⊢
      have some_text := List.length_pos_iff.mpr (named text (by simp))
      rw [List.flatten_append, List.flatten_singleton, List.length_append] at full
      obtain ⟨safe, holds⟩ := printed init (by omega)
      rw [List.nil_append] at holds
      obtain ⟨inside, stored⟩ := emit_stores small text safe holds (by omega)
      have length : (emit size (emitAll size (blank size) init) text).mem.length = size := by
        rw [length_emit_mem, length_emit_all_mem, blank, List.length_replicate]
      obtain ⟨ends, same⟩ := emit_nothing last inside length (by
        simp only [emit, holds.2]
        exact full)
      rw [emit_all_concat]
      have cut : (init.flatten ++ text ++ last).take (size - 1) =
          (init.flatten ++ text).take (size - 1) := by
        apply List.take_append_of_le_length
        rw [List.length_append]
        omega
      refine ⟨ends, ?_⟩
      rw [same, stored, shortened, shortened, List.flatten_append, List.flatten_singleton, cut]

/-- On a zeroed allocation the chain stays inside exactly when all but the last text fit
without their NUL: then the last print is told how much is left, or zero. -/
theorem emit_all_inside_iff {size : Int} (small : size < 2 ^ 31) {front : List (List UInt8)}
    (some_text : front ≠ []) (named : ∀ text ∈ front, text ≠ []) (last : List UInt8) :
    Inside (emitAll size (blank size.toNat) (front ++ [last])) ↔ (front.flatten.length : Int) ≤ size := by
  constructor
  · rintro ⟨told, -⟩
    have left := told (size - front.flatten.length) (by
      rw [emit_all_concat]
      simp [emit, written_emit_all, blank])
    omega
  · intro fits
    obtain ⟨text, rest, rfl⟩ := List.exists_cons_of_ne_nil some_text
    have positive := List.length_pos_iff.mpr (named text (by simp))
    have counted : ((text :: rest).flatten).length = text.length + rest.flatten.length := by simp
    obtain ⟨room, rfl⟩ := Int.eq_ofNat_of_zero_le (by omega : 0 ≤ size)
    exact (emit_all_stores small (by omega) named last (by omega)).1

theorem emit_keeps (size : Int) {front : List UInt8} (text : List UInt8) {printer : Printer}
    (printed : front <+: printer.mem) (behind : front.length ≤ printer.written) :
    front <+: (emit size printer text).mem := by
  have kept := (List.prefix_take_iff.mpr ⟨printed, behind⟩).trans (List.prefix_append _
    (clipped (toUnsigned64 (size - printer.written)) text ++ printer.mem.drop
      (printer.written + (clipped (toUnsigned64 (size - printer.written)) text).length)))
  rw [← List.append_assoc] at kept
  exact List.prefix_take_iff.mpr ⟨kept, printed.length_le⟩

/-- Later prints write behind what is printed, over its NUL at most. -/
theorem emit_all_keeps (size : Int) {front : List UInt8} (texts : List (List UInt8)) {printer : Printer}
    (printed : front <+: printer.mem) (behind : front.length ≤ printer.written) :
    front <+: (emitAll size printer texts).mem := by
  induction texts generalizing printer with
  | nil => exact printed
  | cons text rest ih =>
      exact ih (emit_keeps size text printed behind) (behind.trans (Nat.le_add_right _ _))

theorem first_text_stays {size : Nat} (small : (size : Int) < 2 ^ 31) (some_room : 0 < size)
    (first : List UInt8) (texts : List (List UInt8)) :
    first.take (size - 1) <+: (emitAll size (blank size) (first :: texts)).mem := by
  have stored := (emit_stores small first (blank_safe size) (blank_holds size) some_room).2
  have printed : first.take (size - 1) <+: (emit size (blank size) first).mem := by
    rw [stored]
    exact List.prefix_append _ _
  refine emit_all_keeps size texts printed ?_
  simp [emit, blank]

/-- On a zeroed allocation the chain is safe and leaves the whole text exactly
when the text and its NUL fit the size the chain was told. -/
theorem emit_all_exact (size : Nat) (small : (size : Int) < 2 ^ 31) (texts : List (List UInt8)) :
    (Safe size (emitAll size (blank size) texts) ∧
      texts.flatten ++ [0] <+: (emitAll size (blank size) texts).mem) ↔
        texts.flatten.length + 1 ≤ size := by
  constructor
  · rintro ⟨-, whole⟩
    have bound := whole.length_le
    rw [length_emit_all_mem] at bound
    simpa [blank] using bound
  · intro fits
    have printed := emit_all_holds size small texts (blank size) [] (blank_safe size)
      (blank_holds size) (by rw [List.length_nil]; omega)
    refine ⟨printed.1, ?_⟩
    rw [printed.2.1, List.nil_append]
    obtain ⟨spare, room⟩ : ∃ spare, size - texts.flatten.length = spare + 1 :=
      ⟨size - texts.flatten.length - 1, by omega⟩
    rw [room, List.replicate_succ]
    exact ⟨List.replicate spare 0, by simp⟩

end BoundedPrint
