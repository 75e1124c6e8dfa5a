import Ttracker.CLibrary

/-!
Bencoding: integers, byte strings, lists and dictionaries. A dictionary keeps its
entries as they were written, in any order; whether its keys ascend is asked where
it matters. The decoder shows that a text is the encoding of at most one value.
-/
namespace Bencode
open CLibrary

inductive Value where
  | int (i : Int)
  | bytes (b : List UInt8)
  | list (items : List Value)
  | dict (entries : List (List UInt8 × Value))

def encodeBytes (b : List UInt8) : List UInt8 := decimal b.length ++ 58 :: b

mutual

def encode : Value → List UInt8
  | .int i => 105 :: decimalInt i ++ [101]
  | .bytes b => encodeBytes b
  | .list items => 108 :: encodeItems items ++ [101]
  | .dict entries => 100 :: encodeEntries entries ++ [101]

def encodeItems : List Value → List UInt8
  | [] => []
  | item :: rest => encode item ++ encodeItems rest

def encodeEntries : List (List UInt8 × Value) → List UInt8
  | [] => []
  | (key, value) :: rest => encodeBytes key ++ encode value ++ encodeEntries rest

end

theorem encode_items_flatten (items : List Value) :
    encodeItems items = (items.map encode).flatten := by
  induction items with
  | nil => rw [encodeItems, List.map_nil, List.flatten_nil]
  | cons item rest ih => rw [encodeItems, ih, List.map_cons, List.flatten_cons]

/-! ## Decoding -/

def decodeNat (input : List UInt8) : Option (Nat × List UInt8) :=
  let digits := input.takeWhile isdigit
  if digits = [] then none else some (decimalValue digits, input.drop digits.length)

def decodeInt (input : List UInt8) : Option (Int × List UInt8) :=
  if input.head? = some 45 then (decodeNat input.tail).map fun (n, rest) => (-(n : Int), rest)
  else (decodeNat input).map fun (n, rest) => ((n : Int), rest)

/-- One character that has to be there. -/
def expect (c : UInt8) (input : List UInt8) : Option (List UInt8) :=
  if input.head? = some c then some input.tail else none

def decodeBytes (input : List UInt8) : Option (List UInt8 × List UInt8) := do
  let (n, input) ← decodeNat input
  let input ← expect 58 input
  if n ≤ input.length then some (input.take n, input.drop n) else none

mutual

/-- Every round of the decoder reads a character, so the length is enough fuel. -/
def decodeValue : Nat → List UInt8 → Option (Value × List UInt8)
  | 0, _ => none
  | _ + 1, [] => none
  | fuel + 1, c :: rest =>
      if c = 105 then do
        let (i, rest) ← decodeInt rest
        let rest ← expect 101 rest
        some (.int i, rest)
      else if c = 108 then (decodeItems fuel rest).map fun (items, rest) => (.list items, rest)
      else if c = 100 then
        (decodeEntries fuel rest).map fun (entries, rest) => (.dict entries, rest)
      else (decodeBytes (c :: rest)).map fun (b, rest) => (.bytes b, rest)

def decodeItems : Nat → List UInt8 → Option (List Value × List UInt8)
  | 0, _ => none
  | fuel + 1, input =>
      if input.head? = some 101 then some ([], input.tail)
      else do
        let (item, input) ← decodeValue fuel input
        let (items, input) ← decodeItems fuel input
        some (item :: items, input)

def decodeEntries : Nat → List UInt8 → Option (List (List UInt8 × Value) × List UInt8)
  | 0, _ => none
  | fuel + 1, input =>
      if input.head? = some 101 then some ([], input.tail)
      else do
        let (key, input) ← decodeBytes input
        let (value, input) ← decodeValue fuel input
        let (entries, input) ← decodeEntries fuel input
        some ((key, value) :: entries, input)

end

def decode (input : List UInt8) : Option (Value × List UInt8) := decodeValue (input.length + 1) input

/-! ## Numbers and strings -/

/-- A number is read back in front of anything that does not go on with a digit. -/
theorem decode_nat (n : Nat) (c : UInt8) (rest : List UInt8) (ends : isdigit c = false) :
    decodeNat (decimal n ++ c :: rest) = some (n, c :: rest) := by
  have read : (decimal n ++ c :: rest).takeWhile isdigit = decimal n :=
    take_while_stops isdigit (decimal n) c rest (decimal_isdigit n) ends
  rw [decodeNat, read, if_neg (decimal_ne_nil n), decimal_value, List.drop_left]

theorem decode_int (i : Int) (c : UInt8) (rest : List UInt8) (ends : isdigit c = false) :
    decodeInt (decimalInt i ++ c :: rest) = some (i, c :: rest) := by
  cases i with
  | ofNat n =>
      obtain ⟨d, digits, shape, digit⟩ := decimal_head n
      have plain : ¬ (decimal n ++ c :: rest).head? = some 45 := by
        rw [shape]
        intro minus
        cases minus
        exact absurd digit (by decide)
      simp only [decimalInt, decodeInt, if_neg plain, decode_nat n c rest ends, Option.map_some]
      rfl
  | negSucc n =>
      simp only [decimalInt, decodeInt, List.cons_append, List.head?_cons, if_true, List.tail_cons,
        decode_nat (n + 1) c rest ends, Option.map_some, Int.negSucc_eq]
      rfl

/-- A number with what ends it is written in one way. -/
theorem number_unique {i j : Int} {c : UInt8} {rest rest' : List UInt8} (ends : isdigit c = false)
    (same : decimalInt i ++ c :: rest = decimalInt j ++ c :: rest') : i = j ∧ rest = rest' := by
  have read := congrArg decodeInt same
  rw [decode_int i c rest ends, decode_int j c rest' ends] at read
  simpa using read

theorem decode_bytes (b rest : List UInt8) :
    decodeBytes (encodeBytes b ++ rest) = some (b, rest) := by
  have read := decode_nat b.length 58 (b ++ rest) (by decide)
  simp [decodeBytes, encodeBytes, read, expect]

/-! ## Round trip -/

theorem encode_bytes_head (b : List UInt8) :
    ∃ c rest, encodeBytes b = c :: rest ∧ isdigit c = true := by
  obtain ⟨c, rest, shape, digit⟩ := decimal_head b.length
  exact ⟨c, rest ++ 58 :: b, by rw [encodeBytes, shape, List.cons_append], digit⟩

/-- No encoding is empty or starts like the end of a list. -/
theorem encode_head (v : Value) : ∃ c rest, encode v = c :: rest ∧ c ≠ 101 := by
  cases v with
  | int i => exact ⟨105, _, by rw [encode, List.cons_append], by decide⟩
  | bytes b =>
      obtain ⟨c, rest, shape, digit⟩ := encode_bytes_head b
      refine ⟨c, rest, by rw [encode, shape], ?_⟩
      rintro rfl
      exact absurd digit (by decide)
  | list items => exact ⟨108, _, by rw [encode, List.cons_append], by decide⟩
  | dict entries => exact ⟨100, _, by rw [encode, List.cons_append], by decide⟩

theorem encode_ne_nil (v : Value) : encode v ≠ [] := by
  obtain ⟨c, rest, shape, _⟩ := encode_head v
  rw [shape]
  exact List.cons_ne_nil c rest

theorem length_encode_bytes (b : List UInt8) : b.length < (encodeBytes b).length := by
  rw [encodeBytes, List.length_append, List.length_cons]
  omega

theorem decode_bytes_value (fuel : Nat) (b rest : List UInt8) :
    decodeValue (fuel + 1) (encodeBytes b ++ rest) = some (.bytes b, rest) := by
  obtain ⟨c, tail, shape, digit⟩ := encode_bytes_head b
  have other : c ≠ 105 ∧ c ≠ 108 ∧ c ≠ 100 := by
    refine ⟨?_, ?_, ?_⟩ <;> rintro rfl <;> exact absurd digit (by decide)
  have read := decode_bytes b rest
  rw [shape, List.cons_append] at read ⊢
  rw [decodeValue, if_neg other.1, if_neg other.2.1, if_neg other.2.2, read, Option.map_some]

/-- An entry of a dictionary is a key, a value and the other entries. -/
theorem decode_entry (fuel : Nat) (key rest : List UInt8) :
    decodeEntries (fuel + 1) (encodeBytes key ++ rest) =
      (decodeValue fuel rest).bind fun one =>
        (decodeEntries fuel one.2).map fun others => ((key, one.1) :: others.1, others.2) := by
  obtain ⟨c, tail, shape, digit⟩ := encode_bytes_head key
  have more : ¬ (encodeBytes key ++ rest).head? = some 101 := by
    rw [shape, List.cons_append, List.head?_cons, Option.some.injEq]
    rintro rfl
    exact absurd digit (by decide)
  rw [decodeEntries, if_neg more, decode_bytes]
  simp only [Option.bind_eq_bind, Option.bind_some, Option.map_eq_bind]
  rfl

mutual

/-- An encoding is read back in front of anything. -/
theorem decode_encode : ∀ (v : Value) (fuel : Nat) (rest : List UInt8),
    (encode v).length < fuel → decodeValue fuel (encode v ++ rest) = some (v, rest)
  | v, 0, _, enough => absurd enough (Nat.not_lt_zero _)
  | .int i, fuel + 1, rest, _ => by
      have read := decode_int i 101 rest (by decide)
      simp [encode, decodeValue, read, expect]
  | .bytes b, fuel + 1, rest, _ => by
      rw [encode, decode_bytes_value]
  | .list items, fuel + 1, rest, enough => by
      have room : (encodeItems items).length + 1 < fuel := by
        simp only [encode, List.length_append, List.length_cons, List.length_nil] at enough
        omega
      have read := decode_encode_items items fuel rest room
      simp [encode, decodeValue, read]
  | .dict entries, fuel + 1, rest, enough => by
      have room : (encodeEntries entries).length + 1 < fuel := by
        simp only [encode, List.length_append, List.length_cons, List.length_nil] at enough
        omega
      have read := decode_encode_entries entries fuel rest room
      simp [encode, decodeValue, read]

theorem decode_encode_items : ∀ (items : List Value) (fuel : Nat) (rest : List UInt8),
    (encodeItems items).length + 1 < fuel →
      decodeItems fuel (encodeItems items ++ 101 :: rest) = some (items, rest)
  | _, 0, _, enough => absurd enough (Nat.not_lt_zero _)
  | [], fuel + 1, rest, _ => by simp [encodeItems, decodeItems]
  | item :: items, fuel + 1, rest, enough => by
      obtain ⟨c, tail, shape, other⟩ := encode_head item
      have some_item : 0 < (encode item).length := by simp [shape]
      rw [encodeItems, List.length_append] at enough
      have first := decode_encode item fuel (encodeItems items ++ 101 :: rest) (by omega)
      have others := decode_encode_items items fuel rest (by omega)
      have more : ¬ (encode item ++ (encodeItems items ++ 101 :: rest)).head? = some 101 := by
        simpa [shape] using other
      rw [encodeItems, List.append_assoc, decodeItems, if_neg more, first]
      simp [others]

theorem decode_encode_entries : ∀ (entries : List (List UInt8 × Value)) (fuel : Nat)
    (rest : List UInt8), (encodeEntries entries).length + 1 < fuel →
      decodeEntries fuel (encodeEntries entries ++ 101 :: rest) = some (entries, rest)
  | _, 0, _, enough => absurd enough (Nat.not_lt_zero _)
  | [], fuel + 1, rest, _ => by simp [encodeEntries, decodeEntries]
  | (key, value) :: entries, fuel + 1, rest, enough => by
      have some_key := length_encode_bytes key
      rw [encodeEntries, List.length_append, List.length_append] at enough
      have first := decode_encode value fuel (encodeEntries entries ++ 101 :: rest) (by omega)
      have others := decode_encode_entries entries fuel rest (by omega)
      rw [encodeEntries, List.append_assoc, List.append_assoc, decode_entry, first]
      simp [others]

end

theorem decode_encoded (v : Value) (rest : List UInt8) :
    decode (encode v ++ rest) = some (v, rest) :=
  decode_encode v _ rest (by simp only [List.length_append]; omega)

/-- A text is the encoding of at most one value. -/
theorem encode_injective (a b : Value) (same : encode a = encode b) : a = b := by
  have one := decode_encoded a []
  rw [same, decode_encoded b []] at one
  cases one
  rfl

end Bencode
