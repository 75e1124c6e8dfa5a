import Ttracker.BoundedPrint
import Ttracker.TransitionRuns

/-!
Texts printed one after the other into one array, each where the pieces before
it left off. After a piece the position moves by what `snprintf` returned, the
length of the whole text, or by what `strlen` then reads there, the length of
what was stored. A print told a negative size, a write past either end of the
array and a `strlen` that starts or runs outside it are `none`.
-/
namespace MeasuredPrints
open CLibrary BoundedPrint TransitionRuns

/-- A NUL-terminated string on the heap, of any length. -/
structure HeapString where
  bytes : List UInt8
  nulFree : (0 : UInt8) ∉ bytes

/-- `snprintf` to index `pos` of an array: the length it wanted, and the array. -/
def snprintf (mem : List UInt8) (pos size : Int) (text : List UInt8) :
    Option (Int × List UInt8) :=
  if size < 0 then none
  else
    let bytes := clipped size.toNat text
    if bytes = [] then some (text.length, mem)
    else if 0 ≤ pos ∧ pos + bytes.length ≤ mem.length then
      some (text.length, store mem pos.toNat bytes)
    else none

/-- `strlen` from index `pos` of an array. -/
def strlen (mem : List UInt8) (pos : Int) : Option Nat :=
  if 0 ≤ pos ∧ (0 : UInt8) ∈ mem.drop pos.toNat then some (cstr (mem.drop pos.toNat)).length
  else none

structure Sheet where
  mem : List UInt8
  pos : Int
  deriving DecidableEq

inductive Piece where
  /-- Moves by the return of `snprintf`. -/
  | wanted (text : List UInt8)
  /-- Moves by a `strlen` after the print. -/
  | stored (text : HeapString)
  /-- Prints nothing and moves by the error value -1. -/
  | refused

def put (sheet : Sheet) : Piece → Option Sheet
  | .wanted text => do
      let (n, mem) ← snprintf sheet.mem sheet.pos (sheet.mem.length - sheet.pos) text
      some ⟨mem, sheet.pos + n⟩
  | .stored text => do
      let (_, mem) ← snprintf sheet.mem sheet.pos (sheet.mem.length - sheet.pos) text.bytes
      let n ← strlen mem sheet.pos
      some ⟨mem, sheet.pos + n⟩
  | .refused => some { sheet with pos := sheet.pos - 1 }

/-! ## What one piece does -/

def Piece.text : Piece → List UInt8
  | .wanted text => text
  | .stored text => text.bytes
  | .refused => []

/-- Where a piece can be printed: a measured one needs a byte for its NUL. -/
def Allowed (size pos : Int) : Piece → Prop
  | .wanted _ => 0 ≤ pos ∧ pos ≤ size
  | .stored _ => 0 ≤ pos ∧ pos < size
  | .refused => True

def advance (size pos : Int) : Piece → Int
  | .wanted text => pos + text.length
  | .stored text => min (pos + text.bytes.length) (size - 1)
  | .refused => pos - 1

/-- What is behind the position after a print: all that fits, and its NUL. -/
def printed (mem : List UInt8) (pos : Nat) (text : List UInt8) : List UInt8 :=
  mem.take pos ++ clipped (mem.length - pos) text ++
    mem.drop (pos + (clipped (mem.length - pos) text).length)

def write (sheet : Sheet) : Piece → List UInt8
  | .wanted text => printed sheet.mem sheet.pos.toNat text
  | .stored text => printed sheet.mem sheet.pos.toNat text.bytes
  | .refused => sheet.mem

theorem length_clipped (room : Nat) (text : List UInt8) :
    (clipped room text).length = min (text.length + 1) room := by
  by_cases none_left : room = 0
  · simp [clipped, none_left]
  · rw [clipped, if_neg none_left, List.length_append, List.length_take, List.length_singleton]
    omega

theorem length_printed (mem : List UInt8) (pos : Nat) (text : List UInt8)
    (inside : pos ≤ mem.length) : (printed mem pos text).length = mem.length := by
  simp only [printed, List.length_append, List.length_take, List.length_drop, length_clipped]
  omega

theorem store_printed (mem : List UInt8) (pos : Nat) (text : List UInt8)
    (inside : pos ≤ mem.length) :
    store mem pos (clipped (mem.length - pos) text) = printed mem pos text := by
  rw [store, List.take_of_length_le]
  · rfl
  · exact (length_printed mem pos text inside).le

theorem snprintf_inside (mem : List UInt8) (pos : Nat) (text : List UInt8)
    (inside : pos ≤ mem.length) :
    snprintf mem pos (mem.length - pos) text =
      some ((text.length : Int), printed mem pos text) := by
  have room : ((mem.length : Int) - pos).toNat = mem.length - pos := by omega
  have length := length_clipped (mem.length - pos) text
  unfold snprintf
  rw [if_neg (by omega), room]
  by_cases nothing : clipped (mem.length - pos) text = []
  · simp [nothing, printed]
  · simp only [if_neg nothing, Int.toNat_natCast, store_printed mem pos text inside]
    exact if_pos ⟨by omega, by omega⟩

theorem snprintf_outside (mem : List UInt8) (pos : Int) (text : List UInt8)
    (outside : ¬ (0 ≤ pos ∧ pos ≤ mem.length)) : snprintf mem pos (mem.length - pos) text = none := by
  by_cases negative : (mem.length : Int) - pos < 0
  · exact if_pos negative
  · have some_byte : clipped ((mem.length : Int) - pos).toNat text ≠ [] := by
      apply List.ne_nil_of_length_pos
      rw [length_clipped]
      omega
    rw [snprintf, if_neg negative]
    exact (if_neg some_byte).trans (if_neg fun fits => outside ⟨fits.1, by omega⟩)

theorem cstr_printed (mem : List UInt8) (pos : Nat) (text : HeapString)
    (inside : pos < mem.length) :
    (0 : UInt8) ∈ (printed mem pos text.bytes).drop pos ∧
      cstr ((printed mem pos text.bytes).drop pos) =
        text.bytes.take (mem.length - pos - 1) := by
  have behind : (printed mem pos text.bytes).drop pos =
      text.bytes.take (mem.length - pos - 1) ++
        0 :: mem.drop (pos + (clipped (mem.length - pos) text.bytes).length) := by
    rw [printed, List.append_assoc, List.drop_append_of_le_length (by rw [List.length_take]; omega),
      List.drop_of_length_le (by rw [List.length_take]; omega), clipped, if_neg (by omega)]
    simp
  rw [behind]
  exact ⟨by simp, cstr_append_nul _ _ fun member => text.nulFree (List.mem_of_mem_take member)⟩

/-- A piece is printed where it is allowed. -/
theorem put_allowed (sheet : Sheet) (piece : Piece)
    (allowed : Allowed sheet.mem.length sheet.pos piece) :
    put sheet piece =
      some ⟨write sheet piece, advance sheet.mem.length sheet.pos piece⟩ := by
  obtain ⟨mem, pos⟩ := sheet
  cases piece with
  | wanted text =>
      obtain ⟨low, high⟩ : 0 ≤ pos ∧ pos ≤ mem.length := allowed
      obtain ⟨start, rfl⟩ := Int.eq_ofNat_of_zero_le low
      simp only [put, snprintf_inside mem start text (by omega)]
      rfl
  | stored text =>
      obtain ⟨low, high⟩ : 0 ≤ pos ∧ pos < mem.length := allowed
      obtain ⟨start, rfl⟩ := Int.eq_ofNat_of_zero_le low
      obtain ⟨closed, reads⟩ := cstr_printed mem start text (by omega)
      simp only [put, snprintf_inside mem start text.bytes (by omega), Option.bind_eq_bind,
        Option.bind_some, strlen, Int.toNat_natCast, if_pos (And.intro low closed), reads,
        List.length_take, write, advance, Option.some.injEq, Sheet.mk.injEq, true_and]
      omega
  | refused => rfl

theorem put_not_allowed (sheet : Sheet) (piece : Piece)
    (refused : ¬ Allowed sheet.mem.length sheet.pos piece) : put sheet piece = none := by
  obtain ⟨mem, pos⟩ := sheet
  cases piece with
  | wanted text =>
      simp only [put, snprintf_outside mem pos text refused]
      rfl
  | stored text =>
      by_cases last : 0 ≤ pos ∧ pos ≤ mem.length
      · -- the size is zero, and `strlen` starts behind the last byte
        obtain ⟨start, rfl⟩ := Int.eq_ofNat_of_zero_le last.1
        have full : ¬ ((0 : Int) ≤ start ∧ (start : Int) < mem.length) := refused
        have empty : (printed mem start text.bytes).drop start = [] :=
          List.drop_of_length_le (by rw [length_printed mem start _ (by omega)]; omega)
        simp only [put, snprintf_inside mem start text.bytes (by omega)]
        simp [strlen, empty]
      · simp only [put, snprintf_outside mem pos text.bytes last]
        rfl
  | refused => exact absurd trivial refused

theorem put_iff (sheet next : Sheet) (piece : Piece) :
    put sheet piece = some next ↔
      Allowed sheet.mem.length sheet.pos piece ∧
        next = ⟨write sheet piece, advance sheet.mem.length sheet.pos piece⟩ := by
  by_cases allowed : Allowed sheet.mem.length sheet.pos piece
  · rw [put_allowed sheet piece allowed, Option.some.injEq, eq_comm]
    exact (and_iff_right allowed).symm
  · simp [put_not_allowed sheet piece allowed, allowed]

theorem length_write (sheet : Sheet) (piece : Piece)
    (allowed : Allowed sheet.mem.length sheet.pos piece) :
    (write sheet piece).length = sheet.mem.length := by
  cases piece with
  | wanted text => exact length_printed _ _ _ (by have := allowed.2; omega)
  | stored text => exact length_printed _ _ _ (by have := allowed.2; omega)
  | refused => rfl

/-- A step that prints does so from the position on and moves behind what it wrote. -/
theorem put_prints (sheet next : Sheet) (piece : Piece) (prints : piece ≠ .refused)
    (taken : put sheet piece = some next) :
    ∃ start n : Nat, sheet.pos = start ∧ start ≤ sheet.mem.length ∧
      next = ⟨printed sheet.mem start piece.text, (start + n : Nat)⟩ ∧
      min piece.text.length (sheet.mem.length - start - 1) ≤ n ∧ n ≤ piece.text.length := by
  obtain ⟨allowed, rfl⟩ := (put_iff sheet next piece).mp taken
  obtain ⟨mem, pos⟩ := sheet
  cases piece with
  | wanted text =>
      obtain ⟨low, high⟩ : 0 ≤ pos ∧ pos ≤ mem.length := allowed
      obtain ⟨start, rfl⟩ := Int.eq_ofNat_of_zero_le low
      refine ⟨start, text.length, rfl, by simp only; omega, ?_, Nat.min_le_left _ _, Nat.le_refl _⟩
      simp [write, advance, Piece.text]
  | stored text =>
      obtain ⟨low, high⟩ : 0 ≤ pos ∧ pos < mem.length := allowed
      obtain ⟨start, rfl⟩ := Int.eq_ofNat_of_zero_le low
      refine ⟨start, min text.bytes.length (mem.length - start - 1), rfl, by simp only; omega, ?_,
        Nat.le_refl _, Nat.min_le_left _ _⟩
      simp only [write, advance, Piece.text, Int.toNat_natCast, Sheet.mk.injEq, true_and]
      omega
  | refused => exact absurd rfl prints

/-! ## Where a whole run stands -/

def width : Piece → Int
  | .wanted text => text.length
  | .stored text => text.bytes.length
  | .refused => -1

def drift (pieces : List Piece) : Int := (pieces.map width).sum

/-- A measured piece leaves the position before the last byte at most, so a run
is held back by each of them. -/
def HeldBy (size limit : Int) (pieces : List Piece) : Prop :=
  ∃ front text back, pieces = front ++ .stored text :: back ∧ size - 1 + drift back ≤ limit

theorem held_by_cons (size limit : Int) (piece : Piece) (rest : List Piece) :
    HeldBy size limit (piece :: rest) ↔
      (∃ text, piece = .stored text ∧ size - 1 + drift rest ≤ limit) ∨
        HeldBy size limit rest := by
  constructor
  · rintro ⟨front, text, back, split, held⟩
    cases front with
    | nil =>
        cases split
        exact .inl ⟨text, rfl, held⟩
    | cons first front =>
        cases split
        exact .inr ⟨front, text, back, rfl, held⟩
  · rintro (⟨text, rfl, held⟩ | ⟨front, text, back, split, held⟩)
    · exact ⟨[], text, rest, rfl, held⟩
    · exact ⟨piece :: front, text, back, by rw [split]; rfl, held⟩

/-- The position of a run in closed form: its drift, unless it is held back. -/
theorem position_le_iff (size limit pos : Int) (pieces : List Piece) :
    pieces.foldl (advance size) pos ≤ limit ↔
      pos + drift pieces ≤ limit ∨ HeldBy size limit pieces := by
  induction pieces generalizing pos with
  | nil =>
      have unheld : ¬ HeldBy size limit [] := by
        rintro ⟨front, text, back, split, held⟩
        simp at split
      simp [drift, unheld]
  | cons piece rest ih =>
      have total : drift (piece :: rest) = width piece + drift rest := rfl
      rw [List.foldl_cons, ih, held_by_cons, total]
      cases piece with
      | wanted text => simp [advance, width, Int.add_assoc]
      | stored text =>
          simp only [advance, width, Piece.stored.injEq, exists_eq_left', ← or_assoc]
          apply or_congr_left
          omega
      | refused =>
          simp only [advance, width, reduceCtorEq, false_and, exists_false, false_or]
          apply or_congr_left
          omega

theorem le_position_iff (size limit pos : Int) (pieces : List Piece) :
    limit ≤ pieces.foldl (advance size) pos ↔
      limit ≤ pos + drift pieces ∧ ¬ HeldBy size (limit - 1) pieces := by
  have other := position_le_iff size (limit - 1) pos pieces
  constructor
  · intro high
    have above := mt other.mpr (by omega)
    exact ⟨by by_contra low; exact above (.inl (by omega)), fun held => above (.inr held)⟩
  · rintro ⟨high, unheld⟩
    by_contra low
    rcases other.mp (by omega) with short | held
    · omega
    · exact unheld held

/-- The last index at which a piece can start. -/
def lastStart (size : Int) : Piece → Int
  | .stored _ => size - 1
  | _ => size

/-- The pieces before every printed piece neither fall short of the array nor
run past the last index the piece can start at. -/
def Fits (size : Int) (pieces : List Piece) : Prop :=
  ∀ front piece back, pieces = front ++ piece :: back → piece ≠ .refused →
    (0 ≤ drift front ∧ ¬ HeldBy size (-1) front) ∧
      (drift front ≤ lastStart size piece ∨ HeldBy size (lastStart size piece) front)

theorem allowed_iff (size pos : Int) (piece : Piece) :
    Allowed size pos piece ↔ (piece ≠ .refused → 0 ≤ pos ∧ pos ≤ lastStart size piece) := by
  cases piece with
  | wanted text => simp [Allowed, lastStart]
  | stored text =>
      simp only [Allowed, lastStart, ne_eq, reduceCtorEq, not_false_eq_true, true_implies]
      omega
  | refused => simp [Allowed]

/-- Whether every print and `strlen` of a run stays inside the array, and every
size is at least zero, is a matter of the widths of its pieces. -/
theorem run_inside_iff (mem : List UInt8) (pieces : List Piece) :
    (∃ final, replay put ⟨mem, 0⟩ pieces = some final) ↔ Fits mem.length pieces := by
  have taken := replay_taken_iff put (advance mem.length) (Allowed mem.length) Sheet.pos
    (fun sheet => sheet.mem.length = mem.length)
    (fun sheet piece same => by simp [put_iff, same])
    (fun sheet piece next same done => by
      obtain ⟨allowed, rfl⟩ := (put_iff sheet next piece).mp done
      exact ⟨(length_write sheet piece allowed).trans same, by rw [same]⟩)
    ⟨mem, 0⟩ pieces rfl
  rw [taken, meets_iff_splits]
  refine forall_congr' fun front => forall_congr' fun piece => forall_congr' fun back =>
    imp_congr_right fun _ => ?_
  rw [allowed_iff, le_position_iff, position_le_iff]
  simp only [Int.zero_add, Int.zero_sub]

/-! ## What a whole run prints -/

/-- The text of the pieces before the position is on the sheet, as far as it fits. -/
structure Shows (sheet : Sheet) (text : List UInt8) : Prop where
  low : min (text.length : Int) (sheet.mem.length - 1) ≤ sheet.pos
  high : 0 ≤ sheet.pos ∧ sheet.pos ≤ text.length
  shown : sheet.mem.take (min sheet.pos.toNat (sheet.mem.length - 1)) <+: text

theorem printed_shape (mem : List UInt8) (pos : Nat) (text : List UInt8)
    (inside : pos < mem.length) :
    ∃ back, printed mem pos text =
      mem.take pos ++ (text.take (mem.length - pos - 1) ++ 0 :: back) := by
  refine ⟨mem.drop (pos + (clipped (mem.length - pos) text).length), ?_⟩
  have some_left : mem.length - pos ≠ 0 := by omega
  simp only [printed, clipped, if_neg some_left, List.append_assoc, List.singleton_append]

theorem take_printed (mem : List UInt8) (pos n : Nat) (text : List UInt8)
    (inside : pos < mem.length) (within : n ≤ text.length) (fits : n + pos < mem.length) :
    (printed mem pos text).take (pos + n) = mem.take pos ++ text.take n := by
  obtain ⟨back, shape⟩ := printed_shape mem pos text inside
  have front : (mem.take pos).length = pos := by rw [List.length_take]; omega
  rw [shape, List.take_append, List.take_of_length_le (by omega), front, Nat.add_sub_cancel_left,
    List.take_append_of_le_length (by rw [List.length_take]; omega), List.take_take,
    Nat.min_eq_left (by omega)]

theorem printed_cut (mem : List UInt8) (pos : Nat) (text : List UInt8)
    (inside : pos < mem.length) (cut : mem.length - pos ≤ text.length) :
    printed mem pos text = mem.take pos ++ (text.take (mem.length - pos - 1) ++ [0]) := by
  have some_left : mem.length - pos ≠ 0 := by omega
  have nothing : mem.drop (pos + (clipped (mem.length - pos) text).length) = [] :=
    List.drop_of_length_le (by rw [length_clipped]; omega)
  rw [printed, nothing, clipped, if_neg some_left, List.append_nil]

theorem printed_full (mem text : List UInt8) : printed mem mem.length text = mem := by
  simp [printed, clipped]

/-- A print behind the last byte but one changes nothing before it. -/
theorem take_printed_before (mem : List UInt8) (pos n : Nat) (text : List UInt8)
    (inside : pos ≤ mem.length) (before : n ≤ pos) :
    (printed mem pos text).take n = mem.take n := by
  rw [printed, List.append_assoc, List.take_append_of_le_length (by rw [List.length_take]; omega),
    List.take_take, Nat.min_eq_left before]

theorem print_shown (mem : List UInt8) (pos : Nat) (before text : List UInt8)
    (inside : pos ≤ mem.length) (after : Nat) (moved : after ≤ pos + text.length)
    (here : min before.length (mem.length - 1) ≤ pos ∧ pos ≤ before.length)
    (shown : mem.take (min pos (mem.length - 1)) <+: before) :
    (printed mem pos text).take (min after (mem.length - 1)) <+: before ++ text := by
  by_cases full : mem.length - 1 ≤ pos
  · rw [take_printed_before mem pos _ text inside (by omega)]
    rw [Nat.min_eq_right full] at shown
    have less : mem.take (min after (mem.length - 1)) <+: mem.take (mem.length - 1) :=
      List.take_prefix_take_left (by omega)
    exact (less.trans shown).trans (List.prefix_append before text)
  · have whole : before.length = pos := by omega
    rw [Nat.min_eq_left (by omega)] at shown
    have same : mem.take pos = before :=
      shown.eq_of_length (by rw [List.length_take]; omega)
    by_cases back : min after (mem.length - 1) ≤ pos
    · rw [take_printed_before mem pos _ text inside back]
      have less : mem.take (min after (mem.length - 1)) <+: mem.take pos :=
        List.take_prefix_take_left back
      exact (same ▸ less).trans (List.prefix_append before text)
    · obtain ⟨n, sum⟩ : ∃ n, min after (mem.length - 1) = pos + n :=
        ⟨min after (mem.length - 1) - pos, by omega⟩
      rw [sum, take_printed mem pos n text (by omega) (by omega) (by omega), same]
      exact List.prefix_append_right_inj before |>.mpr (List.take_prefix n text)

theorem put_shown (sheet next : Sheet) (piece : Piece) (before : List UInt8)
    (shows : Shows sheet before) (prints : piece ≠ .refused) (taken : put sheet piece = some next) :
    Shows next (before ++ piece.text) := by
  obtain ⟨start, n, here, inside, rfl, least, most⟩ := put_prints sheet next piece prints taken
  obtain ⟨low, high, shown⟩ := shows
  have length := length_printed sheet.mem start piece.text inside
  rw [here] at low high shown
  refine ⟨?_, ?_, ?_⟩
  · simp only [length, List.length_append]
    omega
  · simp only [List.length_append]
    omega
  · simp only [length, Int.toNat_natCast]
    exact print_shown sheet.mem start before piece.text inside _ (by omega) (by omega) shown

/-- Behind a print that stays before the end is its NUL. -/
theorem put_closed (sheet next : Sheet) (piece : Piece) (prints : piece ≠ .refused)
    (taken : put sheet piece = some next) (before_end : next.pos < sheet.mem.length) :
    next.mem[next.pos.toNat]? = some 0 := by
  obtain ⟨start, n, here, inside, rfl, least, most⟩ := put_prints sheet next piece prints taken
  simp only [Int.toNat_natCast] at before_end ⊢
  obtain ⟨back, shape⟩ := printed_shape sheet.mem start piece.text (by omega)
  have front : (sheet.mem.take start).length = start := by rw [List.length_take]; omega
  have shown : (piece.text.take (sheet.mem.length - start - 1)).length = n := by
    rw [List.length_take]
    omega
  rw [shape, List.getElem?_append_right (by omega), front, Nat.add_sub_cancel_left,
    List.getElem?_append_right (by omega), shown, Nat.sub_self]
  rfl

def texts (pieces : List Piece) : List UInt8 := pieces.flatMap Piece.text

theorem texts_cons (piece : Piece) (rest : List Piece) :
    texts (piece :: rest) = piece.text ++ texts rest := rfl

theorem texts_append (front back : List Piece) : texts (front ++ back) = texts front ++ texts back :=
  List.flatMap_append

theorem put_length (sheet next : Sheet) (piece : Piece) (taken : put sheet piece = some next) :
    next.mem.length = sheet.mem.length := by
  obtain ⟨allowed, rfl⟩ := (put_iff sheet next piece).mp taken
  exact length_write sheet piece allowed

theorem run_length (sheet final : Sheet) (pieces : List Piece)
    (reached : replay put sheet pieces = some final) : final.mem.length = sheet.mem.length :=
  reachable_invariant put (fun other => other.mem.length = sheet.mem.length)
    (fun other piece next same taken => (put_length other next piece taken).trans same)
    sheet final pieces rfl reached

theorem blank_shows (mem : List UInt8) : Shows ⟨mem, 0⟩ [] := by
  refine ⟨?_, ?_, ?_⟩ <;> simp

/-- A run without a refused piece shows its texts, up to the end of the array. -/
theorem run_shows (sheet final : Sheet) (pieces : List Piece) (before : List UInt8)
    (shows : Shows sheet before) (print : .refused ∉ pieces)
    (reached : replay put sheet pieces = some final) : Shows final (before ++ texts pieces) := by
  induction pieces generalizing sheet before with
  | nil =>
      cases reached
      simpa [texts] using shows
  | cons piece rest ih =>
      obtain ⟨next, taken, onward⟩ := Option.bind_eq_some_iff.mp reached
      obtain ⟨here, later⟩ := not_or.mp (mt List.mem_cons.mpr print)
      rw [texts_cons, ← List.append_assoc]
      exact ih next _ (put_shown sheet next piece before shows (Ne.symm here) taken) later onward

/-- The error value of a refused piece takes the last byte back. -/
theorem refused_shows (sheet : Sheet) (before : List UInt8) (c : UInt8)
    (shows : Shows sheet (before ++ [c])) (fits : before.length + 1 < sheet.mem.length) :
    put sheet .refused = some { sheet with pos := sheet.pos - 1 } ∧
      Shows { sheet with pos := sheet.pos - 1 } before := by
  obtain ⟨low, high, shown⟩ := shows
  rw [List.length_append, List.length_singleton] at low high
  refine ⟨rfl, ⟨by simp only; omega, by simp only; omega, ?_⟩⟩
  have less : sheet.mem.take (min (sheet.pos - 1).toNat (sheet.mem.length - 1)) <+:
      sheet.mem.take (min sheet.pos.toNat (sheet.mem.length - 1)) :=
    List.take_prefix_take_left (by omega)
  exact List.prefix_of_prefix_length_le (less.trans shown) (List.prefix_append before [c])
    (by simp only [List.length_take]; omega)

/-- With room for its texts and a NUL a run without a refused piece goes through. -/
theorem run_goes (sheet : Sheet) (pieces : List Piece) (before : List UInt8)
    (shows : Shows sheet before) (print : .refused ∉ pieces)
    (fits : before.length + (texts pieces).length < sheet.mem.length) :
    ∃ final, replay put sheet pieces = some final := by
  induction pieces generalizing sheet before with
  | nil => exact ⟨sheet, rfl⟩
  | cons piece rest ih =>
      obtain ⟨here, later⟩ := not_or.mp (mt List.mem_cons.mpr print)
      rw [texts_cons, List.length_append] at fits
      have allowed : Allowed sheet.mem.length sheet.pos piece := by
        obtain ⟨low, high, _⟩ := shows
        rw [allowed_iff]
        intro _
        cases piece <;> simp only [lastStart] <;> omega
      have taken := put_allowed sheet piece allowed
      have length := put_length _ _ _ taken
      have onward := put_shown _ _ _ before shows (Ne.symm here) taken
      obtain ⟨final, reached⟩ := ih _ _ onward later (by
        rw [length, List.length_append]
        omega)
      exact ⟨final, by rw [replay, taken, Option.bind_some, reached]⟩

/-- A run with room for its texts prints them behind what is shown, ends there and
leaves a NUL. -/
theorem run_prints (sheet : Sheet) (pieces : List Piece) (before : List UInt8)
    (shows : Shows sheet before) (some_piece : pieces ≠ []) (print : .refused ∉ pieces)
    (fits : (before ++ texts pieces).length < sheet.mem.length) :
    ∃ final, replay put sheet pieces = some final ∧
      final.pos = (before ++ texts pieces).length ∧
        before ++ texts pieces ++ [0] <+: final.mem := by
  obtain ⟨final, reached⟩ := run_goes sheet pieces before shows print (by
    rwa [List.length_append] at fits)
  obtain ⟨low, high, shown⟩ := run_shows sheet final pieces before shows print reached
  have length := run_length sheet final pieces reached
  have ends : final.pos = (before ++ texts pieces).length := by omega
  have nul : final.mem[(before ++ texts pieces).length]? = some 0 := by
    obtain ⟨front, last, split⟩ := (List.eq_nil_or_concat pieces).resolve_left some_piece
    rw [List.concat_eq_append] at split
    subst split
    rw [replay_append] at reached
    obtain ⟨middle, started, ended⟩ := Option.bind_eq_some_iff.mp reached
    obtain ⟨_, taken, stops⟩ := Option.bind_eq_some_iff.mp ended
    cases stops
    have same := run_length _ _ front started
    have closed := put_closed middle final last
      (fun refused => print (by simp [refused])) taken (by rw [same]; omega)
    rwa [ends, Int.toNat_natCast] at closed
  refine ⟨final, reached, ends, ?_⟩
  rw [ends, Int.toNat_natCast, Nat.min_eq_left (by omega)] at shown
  have whole : final.mem.take (before ++ texts pieces).length = before ++ texts pieces :=
    shown.eq_of_length (by rw [List.length_take]; omega)
  have upto : final.mem.take ((before ++ texts pieces).length + 1) =
      before ++ texts pieces ++ [0] := by
    rw [List.take_add_one, whole, nul]
    rfl
  exact ⟨final.mem.drop ((before ++ texts pieces).length + 1), by
    rw [← upto, List.take_append_drop]⟩

/-! ## Every byte before the position was printed -/

theorem print_count (p : UInt8 → Bool) (nul : p 0 = false) (mem : List UInt8) (pos n : Nat)
    (text : List UInt8) (inside : pos ≤ mem.length) (within : n ≤ text.length) :
    ((printed mem pos text).take (pos + n)).countP p ≤ (mem.take pos).countP p + text.countP p := by
  by_cases full : pos = mem.length
  · subst full
    rw [printed_full, List.take_of_length_le (Nat.le_add_right _ _), List.take_length]
    exact Nat.le_add_right _ _
  · by_cases fits : n + pos < mem.length
    · rw [take_printed mem pos n text (by omega) within fits, List.countP_append]
      exact Nat.add_le_add_left ((List.take_sublist n text).countP_le) _
    · rw [printed_cut mem pos text (by omega) (by omega)]
      calc ((mem.take pos ++ (text.take (mem.length - pos - 1) ++ [0])).take (pos + n)).countP p
          ≤ (mem.take pos ++ (text.take (mem.length - pos - 1) ++ [0])).countP p :=
            (List.take_sublist _ _).countP_le
        _ = (mem.take pos).countP p + (text.take (mem.length - pos - 1)).countP p := by
            simp [List.countP_append, nul]
        _ ≤ (mem.take pos).countP p + text.countP p :=
            Nat.add_le_add_left ((List.take_sublist _ _).countP_le) _

theorem put_count (p : UInt8 → Bool) (nul : p 0 = false) (sheet next : Sheet) (piece : Piece)
    (taken : put sheet piece = some next) :
    (next.mem.take next.pos.toNat).countP p ≤
      (sheet.mem.take sheet.pos.toNat).countP p + piece.text.countP p := by
  by_cases refused : piece = .refused
  · subst refused
    cases taken
    have less : sheet.mem.take (sheet.pos - 1).toNat <+: sheet.mem.take sheet.pos.toNat :=
      List.take_prefix_take_left (by omega)
    exact (less.sublist.countP_le).trans (Nat.le_add_right _ _)
  · obtain ⟨start, n, here, inside, rfl, -, most⟩ := put_prints sheet next piece refused taken
    rw [here]
    exact print_count p nul sheet.mem start n piece.text inside most

/-- A run leaves no more bytes of a kind before its position than its texts
have, however its pieces overlap. -/
theorem run_count (p : UInt8 → Bool) (nul : p 0 = false) (sheet final : Sheet)
    (pieces : List Piece) (reached : replay put sheet pieces = some final) :
    (final.mem.take final.pos.toNat).countP p ≤
      (sheet.mem.take sheet.pos.toNat).countP p + (texts pieces).countP p := by
  induction pieces generalizing sheet with
  | nil =>
      cases reached
      exact Nat.le_add_right _ _
  | cons piece rest ih =>
      obtain ⟨next, taken, onward⟩ := Option.bind_eq_some_iff.mp reached
      have here := put_count p nul sheet next piece taken
      have later := ih next onward
      rw [texts_cons, List.countP_append]
      omega

end MeasuredPrints
