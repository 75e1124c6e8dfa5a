import Ttracker.HttpQuery

/-!
`buffer.c`. A buffer that holds a text has its cursor behind it; what the
allocation contains behind the cursor does not matter. `none` is a write outside
the allocation, or a length that is no `int`.
-/
namespace Ttracker.Buffers
open CLibrary HttpQuery

def bufferSize : Nat := 64

/-- What `realloc` leaves in the bytes it adds, which nobody sets. -/
abbrev Unset := List UInt8 → Nat → UInt8

def writeAt (p : List UInt8) (offset : Int) (bytes : List UInt8) : Option (List UInt8) :=
  if 0 ≤ offset ∧ offset.toNat + bytes.length ≤ p.length then some (store p offset.toNat bytes)
  else none

/-- A NULL `p` is an allocation of no bytes. -/
def mkBuffer : Buffer := ⟨[], 0⟩

def bufferZeroBuffer (b : Buffer) : Buffer := ⟨List.replicate b.p.length 0, 0⟩

def bufferAlignBuffer (unset : Unset) (b : Buffer) (len : Nat) : Buffer :=
  let need := (len / bufferSize + 1) * bufferSize
  -- unsigned differences, but their 32 low bits are tested as an `int`
  let room := toInt32 (b.p.length - b.cursor - need)
  if room ≤ 0 then { b with p := b.p ++ (List.range need).map (unset b.p) } else b

/-- Overwrites from the start; a length of 0 is refused and leaves the buffer alone. -/
def bufferWriteToBuffer (unset : Unset) (b : Buffer) (data : List UInt8) (len : Nat) :
    Option (Int × Buffer) :=
  if len = 0 then some (-1, b)
  else if data.length < len then none
  else
    let b := bufferAlignBuffer unset b len
    (writeAt b.p 0 (data.take len)).map fun p => (0, ⟨p, toInt32 len⟩)

def bufferAppendStringToBuffer (unset : Unset) (b : Buffer) (c : List UInt8) :
    Option (Int × Buffer) :=
  let len := toInt32 c.length
  if len < 0 ∨ 2 ^ 31 ≤ len + 1 then none
  else
    let b := bufferAlignBuffer unset b (len + 1).toNat
    (writeAt b.p b.cursor (c.take len.toNat ++ [0])).map fun p => (len, ⟨p, b.cursor + len⟩)

/-- The `memmove` into an aligned buffer. `none` is also a cursor that is no `int`. -/
def moveInto (b c : Buffer) : Option Buffer :=
  if c.cursor < 0 ∨ c.p.length < c.cursor.toNat ∨ 2 ^ 31 ≤ b.cursor + c.cursor then none
  else (writeAt b.p b.cursor (c.p.take c.cursor.toNat)).map fun p => ⟨p, b.cursor + c.cursor⟩

/-- `c` is another buffer than `b`. -/
def bufferAppendToBuffer (unset : Unset) (b c : Buffer) : Option Buffer :=
  moveInto (bufferAlignBuffer unset b c.cursor.toNat) c

/-- The same function given one buffer twice reads what it has just aligned. -/
def bufferAppendToItself (unset : Unset) (b : Buffer) : Option Buffer :=
  let b := bufferAlignBuffer unset b b.cursor.toNat
  moveInto b b

def bufferTruncateBuffer (_ : Buffer) : Buffer := mkBuffer

/-- Appends in a row by a caller that ignores the lengths they return. -/
def appendStrings (unset : Unset) : Buffer → List (List UInt8) → Option Buffer
  | b, [] => some b
  | b, c :: rest =>
      (bufferAppendStringToBuffer unset b c).bind fun (_, b) => appendStrings unset b rest

structure Holds (b : Buffer) (content : List UInt8) : Prop where
  cursor : b.cursor = content.length
  stored : content <+: b.p

section Contents
variable {b : Buffer} {content : List UInt8}

theorem mk_holds : Holds mkBuffer [] := ⟨rfl, List.nil_prefix⟩

theorem empty_holds (empty : b.cursor = 0) : Holds b [] := ⟨empty, List.nil_prefix⟩

theorem holds_unique {x y : List UInt8} (one : Holds b x) (other : Holds b y) :
    x = y := by
  have same : x.length = y.length := Int.ofNat.inj (one.cursor.symm.trans other.cursor)
  exact List.IsPrefix.eq_of_length (List.prefix_of_prefix_length_le one.stored other.stored same.le)
    same

/-- Aligning keeps the text and makes room for more than `len` bytes behind it. -/
theorem align_holds (unset : Unset) (holds : Holds b content) (len : Nat) (small : len < 2 ^ 31) :
    Holds (bufferAlignBuffer unset b len) content ∧
      content.length + len < (bufferAlignBuffer unset b len).p.length := by
  have enough : len < (len / 64 + 1) * 64 ∧ (len / 64 + 1) * 64 ≤ 2 ^ 31 := by omega
  have inside := holds.stored.length_le
  have told := holds.cursor
  simp only [bufferAlignBuffer]
  split
  · refine ⟨⟨told, holds.stored.trans (List.prefix_append _ _)⟩, ?_⟩
    simp only [bufferSize, List.length_append, List.length_map, List.length_range]
    omega
  · next roomy =>
      refine ⟨holds, ?_⟩
      -- a difference from -2^31 to 0 is its own 32-bit value
      by_contra tight
      apply roomy
      rw [toInt32, bufferSize, Int.bmod_eq_of_le (by omega) (by omega)]
      omega

theorem write_at_length {p bytes q : List UInt8} {offset : Int}
    (written : writeAt p offset bytes = some q) : q.length = p.length := by
  unfold writeAt at written
  split at written
  · cases written
    exact length_store _ _ _
  · contradiction

theorem write_at_prefix (p bytes : List UInt8) (stored : content <+: p)
    (room : content.length + bytes.length ≤ p.length) :
    ∃ q, writeAt p content.length bytes = some q ∧ content ++ bytes <+: q := by
  refine ⟨store p content.length bytes, ?_, ?_⟩
  · simp [writeAt, room]
  · obtain ⟨back, rfl⟩ := stored
    obtain ⟨old, rest, rfl, same⟩ : ∃ old rest, back = old ++ rest ∧ old.length = bytes.length := by
      rw [List.length_append] at room
      exact ⟨back.take bytes.length, back.drop bytes.length, (List.take_append_drop _ _).symm,
        by rw [List.length_take]; omega⟩
    rw [← List.append_assoc, store_append content old rest bytes same]
    exact List.prefix_append _ _

theorem append_string_holds (unset : Unset) (holds : Holds b content) (c : List UInt8)
    (small : c.length + 1 < 2 ^ 31) :
    ∃ out, bufferAppendStringToBuffer unset b c = some ((c.length : Int), out) ∧
      Holds out (content ++ c) ∧ content ++ c ++ [0] <+: out.p := by
  have len : toInt32 c.length = c.length := Int.bmod_eq_of_le (by omega) (by omega)
  have fits : ¬ ((c.length : Int) < 0 ∨ 2 ^ 31 ≤ (c.length : Int) + 1) := by omega
  obtain ⟨aligned, room⟩ := align_holds unset holds (c.length + 1) (by omega)
  obtain ⟨q, written, extended⟩ := write_at_prefix _ (c ++ [0]) aligned.stored (by
    rw [List.length_append, List.length_singleton]
    omega)
  refine ⟨⟨q, (content ++ c).length⟩, ?_, ⟨rfl, ?_⟩, ?_⟩
  · have cursor := aligned.cursor
    have told : ((c.length : Int) + 1).toNat = c.length + 1 := by omega
    simp only [bufferAppendStringToBuffer, len, if_neg fits, Int.toNat_natCast, List.take_length]
    rw [told, cursor, written]
    simp
  · rw [← List.append_assoc] at extended
    exact (List.prefix_append _ _).trans extended
  · rwa [List.append_assoc]

theorem append_strings_holds (unset : Unset) (holds : Holds b content) (texts : List (List UInt8))
    (small : ∀ c ∈ texts, c.length + 1 < 2 ^ 31) :
    ∃ out, appendStrings unset b texts = some out ∧ Holds out (content ++ texts.flatten) := by
  induction texts generalizing b content with
  | nil => exact ⟨b, rfl, by simpa using holds⟩
  | cons c rest ih =>
      rw [List.forall_mem_cons] at small
      obtain ⟨next, appended, grown, -⟩ := append_string_holds unset holds c small.1
      obtain ⟨out, written, whole⟩ := ih grown small.2
      refine ⟨out, ?_, by simpa [List.append_assoc] using whole⟩
      simp only [appendStrings, appended, Option.bind_some, written]

theorem move_into_holds {c : Buffer} {other : List UInt8} (holds : Holds b content)
    (source : Holds c other) (room : content.length + other.length < b.p.length)
    (small : content.length + other.length < 2 ^ 31) :
    ∃ out, moveInto b c = some out ∧ Holds out (content ++ other) := by
  have taken : c.p.take c.cursor.toNat = other := by
    rw [source.cursor, Int.toNat_natCast]
    exact (List.prefix_iff_eq_take.mp source.stored).symm
  obtain ⟨q, written, extended⟩ := write_at_prefix b.p other holds.stored room.le
  have inside := source.stored.length_le
  have fits : ¬ (c.cursor < 0 ∨ c.p.length < c.cursor.toNat ∨ 2 ^ 31 ≤ b.cursor + c.cursor) := by
    rw [holds.cursor, source.cursor]
    omega
  refine ⟨⟨q, b.cursor + c.cursor⟩, ?_, ?_, extended⟩
  · rw [moveInto, if_neg fits, taken, holds.cursor, written, Option.map_some]
  · rw [holds.cursor, source.cursor, List.length_append, Nat.cast_add]

theorem append_buffer_holds (unset : Unset) {c : Buffer} {other : List UInt8}
    (holds : Holds b content) (source : Holds c other)
    (small : content.length + other.length < 2 ^ 31) :
    ∃ out, bufferAppendToBuffer unset b c = some out ∧ Holds out (content ++ other) := by
  have len : c.cursor.toNat = other.length := by rw [source.cursor, Int.toNat_natCast]
  obtain ⟨aligned, room⟩ := align_holds unset holds other.length (by omega)
  rw [bufferAppendToBuffer, len]
  exact move_into_holds aligned source room small

theorem append_buffer_int {unset : Unset} {c out : Buffer}
    (appended : bufferAppendToBuffer unset b c = some out) : b.cursor + c.cursor < 2 ^ 31 := by
  have kept : (bufferAlignBuffer unset b c.cursor.toNat).cursor = b.cursor := by
    simp only [bufferAlignBuffer]
    split <;> rfl
  rw [bufferAppendToBuffer, moveInto, kept] at appended
  split at appended
  · contradiction
  · omega

theorem append_itself_holds (unset : Unset) (holds : Holds b content)
    (small : content.length + content.length < 2 ^ 31) :
    ∃ out, bufferAppendToItself unset b = some out ∧ Holds out (content ++ content) := by
  have len : b.cursor.toNat = content.length := by rw [holds.cursor, Int.toNat_natCast]
  obtain ⟨aligned, room⟩ := align_holds unset holds content.length (by omega)
  rw [bufferAppendToItself, len]
  exact move_into_holds aligned aligned room small

/-- Writing replaces the text by the first `len` bytes of the data. -/
theorem write_holds (unset : Unset) (holds : Holds b content) (data : List UInt8) (len : Nat)
    (positive : 0 < len) (inside : len ≤ data.length) (small : len < 2 ^ 31) :
    ∃ out, bufferWriteToBuffer unset b data len = some (0, out) ∧ Holds out (data.take len) := by
  have size : (data.take len).length = len := List.length_take_of_le inside
  obtain ⟨aligned, room⟩ := align_holds unset holds len small
  obtain ⟨q, written, extended⟩ := write_at_prefix _ (data.take len)
    (List.nil_prefix (l := (bufferAlignBuffer unset b len).p)) (by
      rw [List.length_nil]
      omega)
  refine ⟨⟨q, len⟩, ?_, ⟨by rw [size], extended⟩⟩
  have told : toInt32 len = len := Int.bmod_eq_of_le (by omega) (by omega)
  have filled : ¬ len = 0 := by omega
  have enough : ¬ data.length < len := by omega
  simp only [List.length_nil, Nat.cast_zero] at written
  simp [bufferWriteToBuffer, filled, enough, written, told]

end Contents

end Ttracker.Buffers
