import Ttracker.Bencode
import Ttracker.MeasuredPrints

/-!
`bencode` of bncode.c over a tree of C values, into an array from an index on.
Every call returns how far it got, which is where its next sibling is printed:
lists and dictionaries add up what `snprintf` wanted, numbers and strings
measure what was stored, and an empty string is an error whose -1 is added.
-/
namespace Ttracker.BencodeTrees
open CLibrary BoundedPrint MeasuredPrints TransitionRuns

inductive Data where
  | tInt (val : Int64)
  | tBytestring (val : HeapString)
  | tList (items : List Data)
  | tDict (entries : List (HeapString × Data))

def encodeBytes (input : HeapString) (len : Int) (mem : List UInt8) (output outSize : Int) :
    Option (Int × List UInt8) :=
  if len ≤ 0 then some (-1, mem)
  else do
    let (_, mem) ← snprintf mem output outSize (decimalInt len ++ 58 :: input.bytes)
    let ret ← strlen mem output
    some (ret, mem)

def encodeInt (input : Int) (mem : List UInt8) (output outSize : Int) :
    Option (Int × List UInt8) := do
  let (_, mem) ← snprintf mem output outSize (105 :: decimalInt input ++ [101])
  let ret ← strlen mem output
  some (ret, mem)

mutual

def bencode : Data → List UInt8 → Int → Int → Option (Int × List UInt8)
  | .tInt val, mem, out, outSize => encodeInt (toInt32 val.toInt) mem out outSize
  | .tBytestring val, mem, out, outSize =>
      encodeBytes val (toInt32 val.bytes.length) mem out outSize
  | .tList items, mem, out, outSize => do
      let (count, mem) ← snprintf mem out outSize [108]
      let (count, mem) ← bencodeItems items mem out outSize count
      let (n, mem) ← snprintf mem (out + count) (outSize - count) [101]
      some (count + n, mem)
  | .tDict entries, mem, out, outSize => do
      let (count, mem) ← snprintf mem out outSize [100]
      let (count, mem) ← bencodeEntries entries mem out outSize count
      let (n, mem) ← snprintf mem (out + count) (outSize - count) [101]
      some (count + n, mem)

/-- The `LIST_FOREACH` of `T_LIST`, with the count so far. -/
def bencodeItems : List Data → List UInt8 → Int → Int → Int → Option (Int × List UInt8)
  | [], mem, _, _, count => some (count, mem)
  | item :: rest, mem, out, outSize, count => do
      let (n, mem) ← bencode item mem (out + count) (outSize - count)
      bencodeItems rest mem out outSize (count + n)

def bencodeEntries : List (HeapString × Data) → List UInt8 → Int → Int → Int →
    Option (Int × List UInt8)
  | [], mem, _, _, count => some (count, mem)
  | (key, data) :: rest, mem, out, outSize, count => do
      let (n, mem) ← encodeBytes key (toInt32 key.bytes.length) mem (out + count) (outSize - count)
      let count := count + n
      let (n, mem) ← bencode data mem (out + count) (outSize - count)
      bencodeEntries rest mem out outSize (count + n)

end

/-! ## A tree as the pieces it prints -/

def intPiece (input : Int) : Piece :=
  .stored ⟨105 :: decimalInt input ++ [101], by simp [decimal_int_nul_free]⟩

def sizedPiece (input : HeapString) (len : Int) : Piece :=
  if len ≤ 0 then .refused
  else .stored ⟨decimalInt len ++ 58 :: input.bytes, by simp [decimal_int_nul_free, input.nulFree]⟩

def bytesPiece (input : HeapString) : Piece := sizedPiece input (toInt32 input.bytes.length)

mutual

def pieces : Data → List Piece
  | .tInt val => [intPiece (toInt32 val.toInt)]
  | .tBytestring val => [bytesPiece val]
  | .tList items => .wanted [108] :: (itemPieces items ++ [.wanted [101]])
  | .tDict entries => .wanted [100] :: (entryPieces entries ++ [.wanted [101]])

def itemPieces : List Data → List Piece
  | [] => []
  | item :: rest => pieces item ++ itemPieces rest

def entryPieces : List (HeapString × Data) → List Piece
  | [] => []
  | (key, data) :: rest => bytesPiece key :: (pieces data ++ entryPieces rest)

end

/-- What a call that started at `out` returns for a sheet. -/
def returned (out : Int) (sheet : Sheet) : Int × List UInt8 := (sheet.pos - out, sheet.mem)

theorem encode_int_put (input : Int) (mem : List UInt8) (out outSize : Int)
    (size : out + outSize = mem.length) :
    encodeInt input mem out outSize = (put ⟨mem, out⟩ (intPiece input)).map (returned out) := by
  have room : outSize = mem.length - out := by omega
  subst room
  simp only [encodeInt, put, intPiece]
  cases snprintf mem out (mem.length - out) (105 :: decimalInt input ++ [101]) with
  | none => rfl
  | some result =>
      simp only [Option.bind_eq_bind, Option.bind_some]
      cases strlen result.2 out with
      | none => rfl
      | some n => simp [returned]

theorem encode_bytes_put (input : HeapString) (len : Int) (mem : List UInt8) (out outSize : Int)
    (size : out + outSize = mem.length) :
    encodeBytes input len mem out outSize =
      (put ⟨mem, out⟩ (sizedPiece input len)).map (returned out) := by
  have room : outSize = mem.length - out := by omega
  subst room
  unfold encodeBytes sizedPiece
  by_cases empty : len ≤ 0
  · simp only [if_pos empty, put, Option.map_some, returned, Option.some.injEq, Prod.mk.injEq,
      and_true]
    omega
  · simp only [if_neg empty, put]
    cases snprintf mem out (mem.length - out) (decimalInt len ++ 58 :: input.bytes) with
    | none => rfl
    | some result =>
        simp only [Option.bind_eq_bind, Option.bind_some]
        cases strlen result.2 out with
        | none => rfl
        | some n => simp [returned]

theorem mark_put (c : UInt8) (mem : List UInt8) (out outSize : Int)
    (size : out + outSize = mem.length) :
    snprintf mem out outSize [c] = (put ⟨mem, out⟩ (.wanted [c])).map (returned out) := by
  have room : outSize = mem.length - out := by omega
  subst room
  simp only [put]
  cases snprintf mem out (mem.length - out) [c] with
  | none => rfl
  | some result =>
      obtain ⟨n, after⟩ := result
      simp only [Option.bind_eq_bind, Option.bind_some, Option.map_some, returned,
        Option.some.injEq, Prod.mk.injEq, and_true]
      omega

theorem replay_single (sheet : Sheet) (piece : Piece) :
    replay put sheet [piece] = put sheet piece := by
  simp [replay]

/-- A container is its mark, its members and the closing mark. -/
theorem container_put (c : UInt8) (members : List Piece)
    (loop : List UInt8 → Int → Option (Int × List UInt8)) (mem : List UInt8) (out outSize : Int)
    (size : out + outSize = mem.length)
    (inside : ∀ (mem : List UInt8) (count : Int), out + outSize = mem.length →
      loop mem count = (replay put ⟨mem, out + count⟩ members).map (returned out)) :
    (do
      let (count, mem) ← snprintf mem out outSize [c]
      let (count, mem) ← loop mem count
      let (n, mem) ← snprintf mem (out + count) (outSize - count) [101]
      some (count + n, mem)) =
        (replay put ⟨mem, out⟩ (.wanted [c] :: (members ++ [.wanted [101]]))).map
          (returned out) := by
  rw [replay, mark_put c mem out outSize size]
  cases opened : put ⟨mem, out⟩ (.wanted [c]) with
  | none => rfl
  | some first =>
      have firstLength := put_length _ _ _ opened
      simp only [Option.map_some, Option.bind_eq_bind, Option.bind_some, returned]
      rw [inside first.mem (first.pos - out) (by rw [firstLength]; exact size),
        show out + (first.pos - out) = first.pos by omega, replay_append]
      cases filled : replay put ⟨first.mem, first.pos⟩ members with
      | none => rfl
      | some last =>
          have lastLength := run_length _ _ _ filled
          simp only [Option.map_some, Option.bind_some, returned, replay_single]
          rw [mark_put 101 last.mem (out + (last.pos - out)) (outSize - (last.pos - out))
              (by rw [lastLength, firstLength]; simp only; omega),
            show out + (last.pos - out) = last.pos by omega]
          cases put ⟨last.mem, last.pos⟩ (.wanted [101]) with
          | none => rfl
          | some closed =>
              simp only [Option.map_some, Option.bind_some, returned, Option.some.injEq,
                Prod.mk.injEq, and_true]
              omega

mutual

/-- `bencode` prints the pieces of its tree one after the other. -/
theorem bencode_runs : ∀ (data : Data) (mem : List UInt8) (out outSize : Int),
    out + outSize = mem.length →
      bencode data mem out outSize = (replay put ⟨mem, out⟩ (pieces data)).map (returned out)
  | .tInt val, mem, out, outSize, size => by
      rw [bencode, pieces, replay_single, encode_int_put _ mem out outSize size]
  | .tBytestring val, mem, out, outSize, size => by
      rw [bencode, pieces, replay_single, encode_bytes_put val _ mem out outSize size, bytesPiece]
  | .tList items, mem, out, outSize, size => by
      rw [bencode, pieces]
      exact container_put 108 (itemPieces items)
        (fun mem count => bencodeItems items mem out outSize count) mem out outSize size
        (fun mem count same => items_run items mem out outSize count same)
  | .tDict entries, mem, out, outSize, size => by
      rw [bencode, pieces]
      exact container_put 100 (entryPieces entries)
        (fun mem count => bencodeEntries entries mem out outSize count) mem out outSize size
        (fun mem count same => entries_run entries mem out outSize count same)

theorem items_run : ∀ (items : List Data) (mem : List UInt8) (out outSize count : Int),
    out + outSize = mem.length →
      bencodeItems items mem out outSize count =
        (replay put ⟨mem, out + count⟩ (itemPieces items)).map (returned out)
  | [], mem, out, outSize, count, _ => by
      simp only [bencodeItems, itemPieces, replay, Option.map_some, returned, Option.some.injEq,
        Prod.mk.injEq, and_true]
      omega
  | item :: rest, mem, out, outSize, count, size => by
      rw [bencodeItems, itemPieces, replay_append,
        bencode_runs item mem (out + count) (outSize - count) (by omega)]
      cases printed : replay put ⟨mem, out + count⟩ (pieces item) with
      | none => rfl
      | some sheet =>
          have length := run_length _ _ _ printed
          simp only [Option.map_some, Option.bind_eq_bind, Option.bind_some, returned]
          rw [items_run rest sheet.mem out outSize _ (by rw [length]; exact size),
            show out + (count + (sheet.pos - (out + count))) = sheet.pos by omega]

theorem entries_run : ∀ (entries : List (HeapString × Data)) (mem : List UInt8)
    (out outSize count : Int), out + outSize = mem.length →
      bencodeEntries entries mem out outSize count =
        (replay put ⟨mem, out + count⟩ (entryPieces entries)).map (returned out)
  | [], mem, out, outSize, count, _ => by
      simp only [bencodeEntries, entryPieces, replay, Option.map_some, returned,
        Option.some.injEq, Prod.mk.injEq, and_true]
      omega
  | (key, data) :: rest, mem, out, outSize, count, size => by
      rw [bencodeEntries, entryPieces, replay,
        encode_bytes_put key _ mem (out + count) (outSize - count) (by omega)]
      rw [← bytesPiece]
      cases named : put ⟨mem, out + count⟩ (bytesPiece key) with
      | none => rfl
      | some behind =>
          have keyLength := put_length _ _ _ named
          simp only [Option.map_some, Option.bind_eq_bind, Option.bind_some, returned]
          have here : out + (count + (behind.pos - (out + count))) = behind.pos := by omega
          rw [replay_append, here, bencode_runs data behind.mem behind.pos _
            (by rw [keyLength]; simp only; omega)]
          cases printed : replay put ⟨behind.mem, behind.pos⟩ (pieces data) with
          | none => rfl
          | some sheet =>
              have length := run_length _ _ _ printed
              simp only [Option.map_some, Option.bind_some, returned]
              rw [entries_run rest sheet.mem out outSize _
                  (by rw [length, keyLength]; exact size),
                show out + (count + (behind.pos - (out + count)) + (sheet.pos - behind.pos)) =
                  sheet.pos by omega]

end

/-- Whether every print and every `strlen` of `bencode` stays inside the array, with
no size below zero, for any tree and any array. -/
theorem bencode_inside_iff (data : Data) (mem : List UInt8) :
    (∃ result, bencode data mem 0 mem.length = some result) ↔ Fits mem.length (pieces data) := by
  rw [bencode_runs data mem 0 mem.length (Int.zero_add _), ← run_inside_iff]
  constructor
  · rintro ⟨result, printed⟩
    obtain ⟨final, reached, _⟩ := Option.map_eq_some_iff.mp printed
    exact ⟨final, reached⟩
  · rintro ⟨final, reached⟩
    exact ⟨returned 0 final, by rw [reached]; rfl⟩

/-- `[[1]]` into two bytes: the number is measured behind the array. -/
theorem nested_list_leaves_array :
    bencode (.tList [.tList [.tInt 1]]) [0, 0] 0 2 = none := by decide +kernel

/-- Trees whose pieces are all printed and fit with a NUL are among them. -/
theorem fitting_tree_fits (data : Data) (mem : List UInt8) (print : .refused ∉ pieces data)
    (fits : (texts (pieces data)).length < mem.length) : Fits mem.length (pieces data) := by
  rw [← run_inside_iff]
  exact run_goes ⟨mem, 0⟩ (pieces data) [] (blank_shows mem) print (by simpa using fits)

/-! ## The value of a tree -/

section
open Bencode

mutual

def valueWith (read : Int64 → Int) : Data → Value
  | .tInt val => .int (read val)
  | .tBytestring val => .bytes val.bytes
  | .tList items => .list (itemValues read items)
  | .tDict entries => .dict (entryValues read entries)

def itemValues (read : Int64 → Int) : List Data → List Value
  | [] => []
  | item :: rest => valueWith read item :: itemValues read rest

def entryValues (read : Int64 → Int) : List (HeapString × Data) → List (List UInt8 × Value)
  | [] => []
  | (key, data) :: rest => (key.bytes, valueWith read data) :: entryValues read rest

end

def value (data : Data) : Value := valueWith Int64.toInt data

/-- What is left of a `long` that is passed on as an `int`. -/
def narrowed (val : Int64) : Int := toInt32 val.toInt

mutual

/-- Every number is an `int`, and no string is empty, keys included. -/
def Writable : Data → Prop
  | .tInt val => -2 ^ 31 ≤ val.toInt ∧ val.toInt < 2 ^ 31
  | .tBytestring val => val.bytes ≠ []
  | .tList items => ItemsWritable items
  | .tDict entries => EntriesWritable entries

def ItemsWritable : List Data → Prop
  | [] => True
  | item :: rest => Writable item ∧ ItemsWritable rest

def EntriesWritable : List (HeapString × Data) → Prop
  | [] => True
  | (key, data) :: rest => key.bytes ≠ [] ∧ Writable data ∧ EntriesWritable rest

end

theorem narrowed_iff (val : Int64) :
    narrowed val = val.toInt ↔ -2 ^ 31 ≤ val.toInt ∧ val.toInt < 2 ^ 31 := by
  rw [narrowed, toInt32, Int.bmod_def]
  omega

/-! ## Strings -/

theorem short_length (input : HeapString) (small : input.bytes.length < 2 ^ 31) :
    toInt32 input.bytes.length = input.bytes.length := by
  rw [toInt32, Int.bmod_def]
  omega

theorem bytes_refused_iff (input : HeapString) (small : input.bytes.length < 2 ^ 31) :
    bytesPiece input = .refused ↔ input.bytes = [] := by
  rw [bytesPiece, short_length input small, sizedPiece]
  by_cases empty : input.bytes = []
  · simp [empty]
  · have some_byte := List.length_pos_iff.mpr empty
    rw [if_neg (by omega)]
    simp [empty]

theorem bytes_text (input : HeapString) (small : input.bytes.length < 2 ^ 31)
    (filled : input.bytes ≠ []) : (bytesPiece input).text = Bencode.encodeBytes input.bytes := by
  have some_byte := List.length_pos_iff.mpr filled
  rw [bytesPiece, short_length input small, sizedPiece, if_neg (by omega)]
  rfl

/-! ## Trees -/

/-- A tree whose encoding an `int` can count. -/
def Short (text : List UInt8) : Prop := text.length < 2 ^ 31

def isColon (c : UInt8) : Bool := c == 58

def isRefused : Piece → Bool
  | .refused => true
  | _ => false

theorem decimal_no_colon (n : Nat) : (decimal n).countP isColon = 0 := by
  rw [List.countP_eq_zero]
  intro c member colon
  have digit := decimal_isdigit n c member
  rw [beq_iff_eq.mp colon] at digit
  exact absurd digit (by decide)

theorem decimal_int_no_colon (i : Int) : (decimalInt i).countP isColon = 0 := by
  cases i with
  | ofNat n => exact decimal_no_colon n
  | negSucc n => exact (List.countP_cons_of_neg (by decide)).trans (decimal_no_colon (n + 1))

theorem int_no_colon (i : Int) : (105 :: decimalInt i ++ [101]).countP isColon = 0 := by
  have first : isColon 105 = false := by decide
  have last : isColon 101 = false := by decide
  simp [decimal_int_no_colon, first, last]

/-- Every colon of the reference is printed but those of the empty strings. -/
theorem bytes_colons (input : HeapString) (small : input.bytes.length < 2 ^ 31) :
    (Bencode.encodeBytes input.bytes).countP isColon =
      (bytesPiece input).text.countP isColon + [bytesPiece input].countP isRefused := by
  by_cases empty : input.bytes = []
  · have refused := (bytes_refused_iff input small).mpr empty
    have colon : isColon 58 = true := by decide
    rw [refused, empty, Bencode.encodeBytes, List.countP_append, decimal_no_colon,
      List.countP_cons_of_pos colon]
    rfl
  · have prints : [bytesPiece input].countP isRefused = 0 := by
      have other := mt (bytes_refused_iff input small).mp empty
      generalize bytesPiece input = piece at other
      cases piece with
      | wanted text => rfl
      | stored text => rfl
      | refused => exact absurd rfl other
    rw [bytes_text input small empty, prints, Nat.add_zero]

theorem short_left {front back : List UInt8} (short : Short (front ++ back)) : Short front := by
  rw [Short, List.length_append] at short
  exact Nat.lt_of_le_of_lt (Nat.le_add_right _ _) short

theorem short_right {front back : List UInt8} (short : Short (front ++ back)) : Short back := by
  rw [Short, List.length_append] at short
  exact Nat.lt_of_le_of_lt (Nat.le_add_left _ _) short

theorem short_inside (c : UInt8) (inner : List UInt8) (short : Short (c :: inner ++ [101])) :
    Short inner := by
  have whole : Short ([c] ++ inner) := short_left short
  exact short_right whole

theorem container_colons (c : UInt8) (plain : isColon c = false) (inner : List UInt8)
    (members : List Piece) (same : inner.countP isColon =
      (texts members).countP isColon + members.countP isRefused) :
    (c :: inner ++ [101]).countP isColon =
      (texts (.wanted [c] :: (members ++ [.wanted [101]]))).countP isColon +
        (Piece.wanted [c] :: (members ++ [.wanted [101]])).countP isRefused := by
  have last : isColon 101 = false := by decide
  rw [texts_cons, texts_append]
  simp [texts, Piece.text, List.countP_append, plain, last, isRefused, same]

mutual

theorem tree_colons : ∀ data : Data, Short (encode (value data)) →
    (encode (value data)).countP isColon =
      (texts (pieces data)).countP isColon + (pieces data).countP isRefused
  | .tInt val, _ => by
      have shown : texts [intPiece (toInt32 val.toInt)] =
          105 :: decimalInt (toInt32 val.toInt) ++ [101] := by simp [texts, intPiece, Piece.text]
      have prints : [intPiece (toInt32 val.toInt)].countP isRefused = 0 := by
        simp [intPiece, isRefused]
      rw [value, valueWith, encode, int_no_colon, pieces, shown, int_no_colon, prints]
  | .tBytestring val, short => by
      rw [value, valueWith, encode] at short ⊢
      have small := length_encode_bytes val.bytes
      rw [pieces, texts_cons, bytes_colons val (small.trans short)]
      simp [texts]
  | .tList items, short => by
      rw [value, valueWith, encode] at short ⊢
      have inside := items_colons items (short_inside 108 _ short)
      rw [pieces]
      exact container_colons 108 (by decide) _ _ inside
  | .tDict entries, short => by
      rw [value, valueWith, encode] at short ⊢
      have inside := entries_colons entries (short_inside 100 _ short)
      rw [pieces]
      exact container_colons 100 (by decide) _ _ inside

theorem items_colons : ∀ items : List Data,
    Short (encodeItems (itemValues Int64.toInt items)) →
    (encodeItems (itemValues Int64.toInt items)).countP isColon =
      (texts (itemPieces items)).countP isColon + (itemPieces items).countP isRefused
  | [], _ => rfl
  | item :: rest, short => by
      rw [itemValues, encodeItems] at short ⊢
      have first := tree_colons item (short_left short)
      have others := items_colons rest (short_right short)
      rw [value] at first
      rw [itemPieces, texts_append, List.countP_append, List.countP_append, List.countP_append,
        first, others]
      omega

theorem entries_colons : ∀ entries : List (HeapString × Data),
    Short (encodeEntries (entryValues Int64.toInt entries)) →
    (encodeEntries (entryValues Int64.toInt entries)).countP isColon =
      (texts (entryPieces entries)).countP isColon + (entryPieces entries).countP isRefused
  | [], _ => rfl
  | (key, data) :: rest, short => by
      rw [entryValues, encodeEntries] at short ⊢
      have small := length_encode_bytes key.bytes
      have name := bytes_colons key (small.trans (short_left (short_left short)))
      have first := tree_colons data (short_right (short_left short))
      have others := entries_colons rest (short_right short)
      rw [value] at first
      rw [entryPieces, texts_cons, texts_append]
      simp only [List.countP_append, List.countP_cons, List.countP_nil] at name first others ⊢
      omega

end

theorem container_texts (c : UInt8) (inner : List UInt8) (members : List Piece)
    (same : texts members = inner) :
    texts (.wanted [c] :: (members ++ [.wanted [101]])) = c :: inner ++ [101] := by
  rw [texts_cons, texts_append, same]
  rfl

theorem container_prints (c : UInt8) (members : List Piece)
    (print : .refused ∉ Piece.wanted [c] :: (members ++ [.wanted [101]])) : .refused ∉ members :=
  fun member => print (List.mem_cons_of_mem _ (List.mem_append_left _ member))

theorem bytes_printed (input : HeapString) (small : input.bytes.length < 2 ^ 31)
    (print : .refused ≠ bytesPiece input) :
    (bytesPiece input).text = Bencode.encodeBytes input.bytes :=
  bytes_text input small (mt (bytes_refused_iff input small).mpr print.symm)

mutual

/-- Where nothing is refused the tree is printed with its numbers narrowed. -/
theorem tree_texts : ∀ data : Data, Short (encode (value data)) → .refused ∉ pieces data →
    texts (pieces data) = encode (valueWith narrowed data)
  | .tInt val, _, _ => by
      rw [pieces, valueWith, encode, narrowed, texts_cons]
      simp [texts, intPiece, Piece.text]
  | .tBytestring val, short, print => by
      rw [value, valueWith, encode] at short
      have small := length_encode_bytes val.bytes
      rw [pieces, List.mem_singleton] at print
      rw [pieces, valueWith, encode, texts_cons, bytes_printed val (small.trans short) print]
      exact List.append_nil _
  | .tList items, short, print => by
      rw [value, valueWith, encode] at short
      rw [pieces] at print ⊢
      rw [valueWith, encode]
      exact container_texts 108 _ _
        (items_texts items (short_inside 108 _ short) (container_prints 108 _ print))
  | .tDict entries, short, print => by
      rw [value, valueWith, encode] at short
      rw [pieces] at print ⊢
      rw [valueWith, encode]
      exact container_texts 100 _ _
        (entries_texts entries (short_inside 100 _ short) (container_prints 100 _ print))

theorem items_texts : ∀ items : List Data,
    Short (encodeItems (itemValues Int64.toInt items)) → .refused ∉ itemPieces items →
    texts (itemPieces items) = encodeItems (itemValues narrowed items)
  | [], _, _ => rfl
  | item :: rest, short, print => by
      rw [itemValues, encodeItems] at short
      rw [itemPieces, List.mem_append, not_or] at print
      rw [itemPieces, itemValues, encodeItems, texts_append,
        tree_texts item (short_left short) print.1, items_texts rest (short_right short) print.2]

theorem entries_texts : ∀ entries : List (HeapString × Data),
    Short (encodeEntries (entryValues Int64.toInt entries)) → .refused ∉ entryPieces entries →
    texts (entryPieces entries) = encodeEntries (entryValues narrowed entries)
  | [], _, _ => rfl
  | (key, data) :: rest, short, print => by
      rw [entryValues, encodeEntries] at short
      rw [entryPieces, List.mem_cons, List.mem_append, not_or, not_or] at print
      have small := length_encode_bytes key.bytes
      rw [entryPieces, entryValues, encodeEntries, texts_cons, texts_append,
        bytes_printed key (small.trans (short_left (short_left short))) print.1,
        tree_texts data (short_right (short_left short)) print.2.1,
        entries_texts rest (short_right short) print.2.2, List.append_assoc]

end

mutual

/-- A tree is writable when nothing in it is refused and no number is changed. -/
theorem tree_writable_iff : ∀ data : Data, Short (encode (value data)) →
    (Writable data ↔ .refused ∉ pieces data ∧ valueWith narrowed data = value data)
  | .tInt val, _ => by
      rw [Writable, ← narrowed_iff, pieces, value, valueWith, valueWith, Value.int.injEq]
      simp [intPiece]
  | .tBytestring val, short => by
      rw [value, valueWith, encode] at short
      have small := (length_encode_bytes val.bytes).trans short
      rw [Writable, pieces, value, valueWith, valueWith, List.mem_singleton]
      simp [eq_comm (a := Piece.refused), bytes_refused_iff val small]
  | .tList items, short => by
      rw [value, valueWith, encode] at short
      rw [Writable, items_writable_iff items (short_inside 108 _ short), pieces, value, valueWith,
        valueWith, Value.list.injEq]
      simp
  | .tDict entries, short => by
      rw [value, valueWith, encode] at short
      rw [Writable, entries_writable_iff entries (short_inside 100 _ short), pieces, value,
        valueWith, valueWith, Value.dict.injEq]
      simp

theorem items_writable_iff : ∀ items : List Data,
    Short (encodeItems (itemValues Int64.toInt items)) →
    (ItemsWritable items ↔
      .refused ∉ itemPieces items ∧ itemValues narrowed items = itemValues Int64.toInt items)
  | [], _ => by simp [ItemsWritable, itemPieces, itemValues]
  | item :: rest, short => by
      rw [itemValues, encodeItems] at short
      have first := tree_writable_iff item (short_left short)
      have others := items_writable_iff rest (short_right short)
      rw [value] at first
      rw [ItemsWritable, first, others, itemPieces, itemValues, itemValues, List.cons.injEq,
        List.mem_append, not_or]
      exact and_and_and_comm

theorem entries_writable_iff : ∀ entries : List (HeapString × Data),
    Short (encodeEntries (entryValues Int64.toInt entries)) →
    (EntriesWritable entries ↔
      .refused ∉ entryPieces entries ∧
        entryValues narrowed entries = entryValues Int64.toInt entries)
  | [], _ => by simp [EntriesWritable, entryPieces, entryValues]
  | (key, data) :: rest, short => by
      rw [entryValues, encodeEntries] at short
      have small := (length_encode_bytes key.bytes).trans (short_left (short_left short))
      have first := tree_writable_iff data (short_right (short_left short))
      have others := entries_writable_iff rest (short_right short)
      rw [value] at first
      rw [EntriesWritable, first, others, entryPieces, entryValues, entryValues, List.cons.injEq,
        List.mem_cons, List.mem_append, not_or, not_or, eq_comm (a := Piece.refused),
        bytes_refused_iff key small]
      constructor
      · rintro ⟨name, ⟨here, same⟩, later, sames⟩
        exact ⟨⟨name, here, later⟩, by rw [same], sames⟩
      · rintro ⟨⟨name, here, later⟩, same, sames⟩
        exact ⟨name, ⟨here, (Prod.mk.inj same).2⟩, later, sames⟩

end

theorem pieces_ne_nil (data : Data) : pieces data ≠ [] := by
  cases data <;> simp [pieces]

/-! ## The whole output -/

/-- The call returns the length of the reference encoding, which is in the array
with a NUL behind it and reads back as the tree. -/
def WritesReference (data : Data) (mem : List UInt8) : Prop :=
  ∃ after rest,
    bencode data mem 0 mem.length = some (((encode (value data)).length : Int), after) ∧
    encode (value data) ++ [0] <+: after ∧ decode after = some (value data, rest)

theorem reference_written (data : Data) (mem : List UInt8)
    (fits : (encode (value data)).length < mem.length) (small : mem.length < 2 ^ 31)
    (writable : Writable data) : WritesReference data mem := by
  have short : Short (encode (value data)) := fits.trans small
  obtain ⟨print, same⟩ := (tree_writable_iff data short).mp writable
  have shown : texts (pieces data) = encode (value data) := by
    rw [tree_texts data short print, same]
  obtain ⟨final, reached, ends, whole⟩ :=
    run_prints ⟨mem, 0⟩ (pieces data) [] (blank_shows mem) (pieces_ne_nil data) print
      (by rwa [shown])
  rw [List.nil_append, shown] at ends whole
  obtain ⟨rest, split⟩ := whole
  refine ⟨final.mem, 0 :: rest, ?_, ⟨rest, split⟩, ?_⟩
  · rw [bencode_runs data mem 0 mem.length (Int.zero_add _), reached, Option.map_some, returned,
      ends, Int.sub_zero]
  · rw [← split, List.append_assoc]
    exact decode_encoded (value data) _

theorem written_writable (data : Data) (mem : List UInt8)
    (fits : (encode (value data)).length < mem.length) (small : mem.length < 2 ^ 31)
    (written : WritesReference data mem) : Writable data := by
  have short : Short (encode (value data)) := fits.trans small
  obtain ⟨after, rest, ran, whole, -⟩ := written
  rw [bencode_runs data mem 0 mem.length (Int.zero_add _)] at ran
  obtain ⟨final, reached, same⟩ := Option.map_eq_some_iff.mp ran
  obtain ⟨ends, rfl⟩ := Prod.mk.inj same
  rw [Int.sub_zero] at ends
  have shown : final.mem.take (encode (value data)).length = encode (value data) := by
    obtain ⟨tail, split⟩ := whole
    rw [← split, List.append_assoc, List.take_left]
  rw [tree_writable_iff data short]
  -- a refused string would leave the array a colon short of the reference
  have print : .refused ∉ pieces data := by
    have printed := run_count isColon (by decide) ⟨mem, 0⟩ final (pieces data) reached
    rw [ends, Int.toNat_natCast, shown, tree_colons data short] at printed
    have none_refused : (pieces data).countP isRefused = 0 := by
      simp only [Int.toNat_zero, List.take_zero, List.countP_nil] at printed
      omega
    exact fun member => List.countP_eq_zero.mp none_refused .refused member rfl
  refine ⟨print, ?_⟩
  -- what was printed goes on from the reference, and an encoding is read one way
  obtain ⟨low, high, prefixed⟩ := run_shows ⟨mem, 0⟩ final (pieces data) [] (blank_shows mem) print reached
  have length := run_length ⟨mem, 0⟩ final (pieces data) reached
  simp only at length
  rw [length, ends, Int.toNat_natCast, Nat.min_eq_left (by omega), shown, List.nil_append,
    tree_texts data short print] at prefixed
  obtain ⟨tail, split⟩ := prefixed
  have one := decode_encoded (valueWith narrowed data) []
  rw [List.append_nil, ← split, decode_encoded (value data) tail] at one
  exact (Prod.mk.inj (Option.some.inj one)).1.symm

/-- With room for the reference encoding and its NUL, `bencode` writes it exactly
for the trees without an empty string and without a number wider than `int`. -/
theorem reference_written_iff (data : Data) (mem : List UInt8)
    (fits : (encode (value data)).length < mem.length) (small : mem.length < 2 ^ 31) :
    WritesReference data mem ↔ Writable data :=
  ⟨written_writable data mem fits small, reference_written data mem fits small⟩

theorem reference_written_iff_pair :
    WritesReference (.tList [.tInt 7, .tBytestring ⟨[97], by decide⟩]) (List.replicate 16 0) ↔
      Writable (.tList [.tInt 7, .tBytestring ⟨[97], by decide⟩]) :=
  reference_written_iff (.tList [.tInt 7, .tBytestring ⟨[97], by decide⟩]) (List.replicate 16 0)
    (by decide +kernel) (by decide)

/-- A list of an empty string, and the first number that is no `int`. -/
theorem edge_values_not_written :
    ((encode (value (.tList [.tBytestring ⟨[], by decide⟩]))).length < 8 ∧
      ¬ WritesReference (.tList [.tBytestring ⟨[], by decide⟩]) (List.replicate 8 0)) ∧
    ((encode (value (.tInt 2147483648))).length < 16 ∧
      ¬ WritesReference (.tInt 2147483648) (List.replicate 16 0)) := by
  have listFits : (encode (value (.tList [.tBytestring ⟨[], by decide⟩]))).length < 8 := by
    decide +kernel
  have numberFits : (encode (value (.tInt 2147483648))).length < 16 := by decide +kernel
  refine ⟨⟨listFits, fun written => ?_⟩, ⟨numberFits, fun written => ?_⟩⟩
  · have plain := written_writable _ (List.replicate 8 0) (by simpa using listFits) (by decide) written
    simp [Writable, ItemsWritable] at plain
  · have plain := written_writable _ (List.replicate 16 0) (by simpa using numberFits) (by decide)
      written
    exact absurd plain.2 (by decide)

end

end Ttracker.BencodeTrees
