import Mathlib.Algebra.Order.Ring.Nat
import Mathlib.Algebra.Ring.Int.Defs
import Mathlib.Tactic.Common
import Mathlib.Data.List.TakeWhile

/-!
The parts of the C language and its library the program is written in: byte
strings ended by NUL, the bounded and unbounded copies, the character classes
of the C locale, the decimal and hexadecimal conversions and the conversions
between the integer types of an LP64 machine. Bytes are `UInt8`; a piece of
memory is the list of its bytes.
-/
namespace CLibrary

/-- The bytes of a string literal, without its NUL. Literals the program compares
with are written as characters, which evaluate fast; `text` is for messages. -/
def ascii (chars : List Char) : List UInt8 := chars.map fun c => UInt8.ofNat c.toNat

def text (message : String) : List UInt8 := ascii message.toList

/-- What a `char *` to the start of `mem` reads as: the bytes before the first NUL. -/
def cstr (mem : List UInt8) : List UInt8 := mem.takeWhile (· != 0)

/-- Bytes written at an offset of an allocation. What would lie past its end is
not part of it and is dropped here; callers record such a write themselves. -/
def store (mem : List UInt8) (offset : Nat) (bytes : List UInt8) : List UInt8 :=
  (mem.take offset ++ bytes ++ mem.drop (offset + bytes.length)).take mem.length

theorem length_store (mem : List UInt8) (offset : Nat) (bytes : List UInt8) :
    (store mem offset bytes).length = mem.length := by
  simp only [store, List.length_take, List.length_append, List.length_drop]
  omega

theorem store_append (front old back bytes : List UInt8)
    (same : old.length = bytes.length) :
    store (front ++ old ++ back) front.length bytes = front ++ bytes ++ back := by
  have kept : (front ++ old ++ back).drop (front.length + bytes.length) = back := by
    rw [← same, ← List.length_append, List.drop_left]
  have before : (front ++ old ++ back).take front.length = front := by
    rw [List.append_assoc, List.take_left]
  rw [store, before, kept, List.take_of_length_le]
  simp [same]

/-! ## Strings -/

/-- The value of a `char[room + 1]` that holds a NUL-terminated string. -/
structure CString (room : Nat) where
  bytes : List UInt8
  fits : bytes.length ≤ room
  nulFree : (0 : UInt8) ∉ bytes
  deriving DecidableEq

theorem cstr_nul_free (mem : List UInt8) : (0 : UInt8) ∉ cstr mem := by
  intro member
  simpa using List.mem_takeWhile_imp member

theorem cstr_length_le (mem : List UInt8) : (cstr mem).length ≤ mem.length :=
  (List.takeWhile_prefix _).length_le

theorem take_while_stops (p : UInt8 → Bool) (front : List UInt8) (c : UInt8) (back : List UInt8)
    (inside : ∀ b ∈ front, p b = true) (stop : p c = false) :
    (front ++ c :: back).takeWhile p = front := by
  rw [List.takeWhile_append_of_pos inside, List.takeWhile_cons, if_neg (by simp [stop]),
    List.append_nil]

theorem cstr_append_nul (text back : List UInt8) (nulFree : (0 : UInt8) ∉ text) :
    cstr (text ++ 0 :: back) = text := by
  apply take_while_stops
  · intro b member
    have : b ≠ 0 := fun same => nulFree (same ▸ member)
    simpa using this
  · decide

theorem stored_front_read {front mem : List UInt8} (stored : front <+: mem)
    (nulFree : (0 : UInt8) ∉ front) : front <+: cstr mem := by
  obtain ⟨back, rfl⟩ := stored
  have inside : ∀ b ∈ front, (b != 0) = true := by
    intro b member
    have : b ≠ 0 := fun same => nulFree (same ▸ member)
    simpa using this
  rw [cstr, List.takeWhile_append_of_pos inside]
  exact List.prefix_append _ _

theorem cstr_before_nul (text back : List UInt8) : cstr (text ++ 0 :: back) = cstr text := by
  induction text with
  | nil => simp [cstr]
  | cons c rest ih =>
      have tail : (rest ++ 0 :: back).takeWhile (· != 0) = rest.takeWhile (· != 0) := ih
      by_cases nul : c = 0
      · simp [cstr, nul]
      · simp [cstr, nul, tail]

theorem cstr_self (text : List UInt8) (nulFree : (0 : UInt8) ∉ text) : cstr text = text := by
  apply List.takeWhile_eq_self_iff.mpr
  intro b member
  have : b ≠ 0 := fun same => nulFree (same ▸ member)
  simpa using this

theorem cstr_take (n : Nat) (mem : List UInt8) : cstr (mem.take n) = (cstr mem).take n := by
  induction mem generalizing n with
  | nil => simp [cstr]
  | cons b rest ih =>
      cases n with
      | zero => simp [cstr]
      | succ n =>
          have tail := ih n
          by_cases nul : b = 0
          · simp [cstr, nul]
          · simpa [cstr, nul] using tail

/-- The string that `strncpy` leaves in a zero-filled or NUL-terminated array. -/
def CString.ofMemory (room : Nat) (mem : List UInt8) : CString room where
  bytes := (cstr mem).take room
  fits := List.length_take_le _ _
  nulFree := fun member => cstr_nul_free mem (List.mem_of_mem_take member)

/-- `strcpy` into a `char[room + 1]`; `none` is a copy past the end of the array. -/
def strcpy (room : Nat) {other : Nat} (src : CString other) : Option (CString room) :=
  if fits : src.bytes.length ≤ room then some ⟨src.bytes, fits, src.nulFree⟩ else none

theorem strcpy_isSome (room : Nat) {other : Nat} (src : CString other) :
    (strcpy room src).isSome ↔ src.bytes.length ≤ room := by
  unfold strcpy
  split <;> simp_all

theorem strcpy_bytes (room : Nat) {other : Nat} (src : CString other) (copy : CString room)
    (copied : strcpy room src = some copy) : copy.bytes = src.bytes := by
  unfold strcpy at copied
  split at copied
  · cases copied; rfl
  · contradiction

/-- `strncpy(dst, src, n)`: the string, then zeros up to `n` bytes. -/
def strncpy (n : Nat) (src : List UInt8) : List UInt8 := (cstr src ++ List.replicate n 0).take n

/-- `strncmp(a, b, n) == 0` on two strings. -/
def strncmpEq (a b : List UInt8) (n : Nat) : Bool := a.take n == b.take n

theorem length_strncpy (n : Nat) (src : List UInt8) : (strncpy n src).length = n := by
  simp [strncpy]

theorem cstr_strncpy (n : Nat) (src : List UInt8) : cstr (strncpy n src) = (cstr src).take n := by
  -- a string shorter than `n` is followed by at least one zero, a longer one by none
  by_cases short : (cstr src).length < n
  · obtain ⟨extra, rest⟩ : ∃ extra, n - (cstr src).length = extra + 1 := ⟨n - (cstr src).length - 1, by omega⟩
    have padded : strncpy n src = cstr src ++ 0 :: List.replicate extra 0 := by
      rw [strncpy, List.take_append, List.take_of_length_le short.le, List.take_replicate,
        Nat.min_eq_left (by omega), rest, List.replicate_succ]
    rw [padded, cstr_append_nul _ _ (cstr_nul_free src), List.take_of_length_le short.le]
  · have cut : strncpy n src = (cstr src).take n := by
      rw [strncpy, List.take_append_of_le_length (by omega)]
    rw [cut]
    exact cstr_self _ fun member => cstr_nul_free src (List.mem_of_mem_take member)

/-- Memory whose first `n` bytes are zero after the string they hold. -/
def ZeroPadded (n : Nat) (mem : List UInt8) : Prop := mem.take n = strncpy n mem

instance (n : Nat) (mem : List UInt8) : Decidable (ZeroPadded n mem) :=
  inferInstanceAs (Decidable (_ = _))

theorem strncpy_congr (n : Nat) (a b : List UInt8) (same : cstr a = cstr b) :
    strncpy n a = strncpy n b := by
  rw [strncpy, strncpy, same]

/-! ## Character classes of the C locale -/

def isdigit (c : UInt8) : Bool := 48 ≤ c && c ≤ 57
def isxdigit (c : UInt8) : Bool := isdigit c || (65 ≤ c && c ≤ 70) || (97 ≤ c && c ≤ 102)
def isgraph (c : UInt8) : Bool := 33 ≤ c && c ≤ 126
def isspace (c : UInt8) : Bool := c == 32 || (9 ≤ c && c ≤ 13)

/-- The digits `%02x` prints. -/
def isLowerHex (c : UInt8) : Bool := isdigit c || (97 ≤ c && c ≤ 102)

theorem lower_hex_ne_nul (c : UInt8) (hex : isLowerHex c = true) : c ≠ 0 := by
  rintro rfl
  revert hex
  decide

theorem lower_hex_isxdigit (c : UInt8) (hex : isLowerHex c = true) : isxdigit c = true := by
  simp only [isLowerHex, isxdigit, Bool.or_eq_true] at hex ⊢
  rcases hex with digit | letter
  · exact Or.inl (Or.inl digit)
  · exact Or.inr letter

theorem lower_hex_not_space (c : UInt8) (hex : isLowerHex c = true) : isspace c = false := by
  simp only [isLowerHex, isdigit, isspace, Bool.or_eq_true, Bool.and_eq_true, decide_eq_true_eq,
    Bool.or_eq_false_iff, Bool.and_eq_false_iff, decide_eq_false_iff_not, beq_eq_false_iff_ne,
    UInt8.le_iff_toNat_le, ne_eq, ← UInt8.toNat_inj] at hex ⊢
  have bounds : (48 : UInt8).toNat = 48 ∧ (57 : UInt8).toNat = 57 ∧ (97 : UInt8).toNat = 97 ∧
      (102 : UInt8).toNat = 102 ∧ (32 : UInt8).toNat = 32 ∧ (9 : UInt8).toNat = 9 ∧
      (13 : UInt8).toNat = 13 := by decide
  omega

/-! ## Conversions between text and numbers -/

def hexDigit (n : Nat) : UInt8 := if n < 10 then UInt8.ofNat (48 + n) else UInt8.ofNat (87 + n)

/-- `%02x` of a byte. -/
def hexByte (b : UInt8) : List UInt8 := [hexDigit (b.toNat / 16), hexDigit (b.toNat % 16)]

def hexText (bytes : List UInt8) : List UInt8 := bytes.flatMap hexByte

/-- `%zu`, and the digits of `%d`. -/
def decimal (n : Nat) : List UInt8 := (Nat.toDigits 10 n).map fun c => UInt8.ofNat c.toNat

/-- `%d` and `%ld`. -/
def decimalInt : Int → List UInt8
  | .ofNat n => decimal n
  | .negSucc n => 45 :: decimal (n + 1)

/-- Wrap-around to `int`. -/
def toInt32 (x : Int) : Int := Int.bmod x (2 ^ 32)
/-- `size_t` and `unsigned long long`. -/
def toUnsigned64 (x : Int) : Nat := (x % 2 ^ 64).toNat

def decimalValue (digits : List UInt8) : Nat :=
  digits.foldl (fun value c => value * 10 + (c.toNat - 48)) 0

/-- `strtol(text, NULL, 10)`: blanks, a sign, digits, clamped to `long`. -/
def strtol (text : List UInt8) : Int :=
  let text := text.dropWhile isspace
  let negative := text.head? == some 45
  -- one sign is taken; a second one ends the number before its first digit
  let text := if text.head? == some 45 || text.head? == some 43 then text.drop 1 else text
  let magnitude : Int := decimalValue (text.takeWhile isdigit)
  if negative then max (-magnitude) (-2 ^ 63) else min magnitude (2 ^ 63 - 1)

def atoi (text : List UInt8) : Int := toInt32 (strtol text)

theorem length_decimal_le (n k : Nat) (positive : 0 < k) (bound : n < 10 ^ k) :
    (decimal n).length ≤ k := by
  rw [decimal, List.length_map]
  exact (Nat.length_toDigits_le_iff (by decide) positive).mpr bound

theorem decimal_isdigit (n : Nat) : ∀ c ∈ decimal n, isdigit c = true := by
  intro c member
  obtain ⟨digit, inside, rfl⟩ := List.mem_map.mp member
  have numeral := Nat.isDigit_of_mem_toDigits (by decide) (by decide) inside
  have range : 48 ≤ digit.toNat ∧ digit.toNat ≤ 57 := by
    simpa [Char.isDigit, UInt32.le_iff_toNat_le] using numeral
  have value : (UInt8.ofNat digit.toNat).toNat = digit.toNat := by
    rw [UInt8.toNat_ofNat']
    omega
  simp only [isdigit, Bool.and_eq_true, decide_eq_true_eq, UInt8.le_iff_toNat_le, value]
  exact range

theorem decimal_nul_free (n : Nat) : (0 : UInt8) ∉ decimal n := fun member =>
  absurd (decimal_isdigit n 0 member) (by decide)

theorem decimal_int_nul_free (n : Int) : (0 : UInt8) ∉ decimalInt n := by
  cases n <;> simp [decimalInt, decimal_nul_free]

theorem decimal_value (n : Nat) : decimalValue (decimal n) = n := by
  have digit : ∀ c ∈ Nat.toDigits 10 n, (UInt8.ofNat c.toNat).toNat - 48 = c.toNat - 48 := by
    intro c member
    have numeral := Nat.isDigit_of_mem_toDigits (by decide) (by decide) member
    have range : 48 ≤ c.toNat ∧ c.toNat ≤ 57 := by
      simpa [Char.isDigit, UInt32.le_iff_toNat_le] using numeral
    rw [UInt8.toNat_ofNat']
    omega
  have folded : ∀ (digits : List Char) (start : Nat),
      (∀ c ∈ digits, (UInt8.ofNat c.toNat).toNat - 48 = c.toNat - 48) →
      (digits.map fun c => UInt8.ofNat c.toNat).foldl
        (fun value c => value * 10 + (c.toNat - 48)) start = Nat.ofDigitChars 10 digits start := by
    intro digits
    induction digits with
    | nil => exact fun _ _ => rfl
    | cons c rest ih =>
        intro start all
        rw [List.map_cons, List.foldl_cons, all c List.mem_cons_self,
          ih _ fun d member => all d (List.mem_cons_of_mem c member), Nat.ofDigitChars_cons,
          Nat.mul_comm]
        rfl
  rw [decimalValue, decimal, folded _ 0 digit, Nat.ofDigitChars_ten_toDigits]

theorem decimal_ne_nil (n : Nat) : decimal n ≠ [] := by
  simp [decimal, Nat.toDigits_ne_nil]

theorem decimal_head (n : Nat) : ∃ c rest, decimal n = c :: rest ∧ isdigit c = true := by
  cases digits : decimal n with
  | nil => exact absurd digits (decimal_ne_nil n)
  | cons c rest => exact ⟨c, rest, rfl, decimal_isdigit n c (digits ▸ List.mem_cons_self)⟩

theorem length_decimal_int_le (n : Int) (k : Nat) (positive : 0 < k)
    (low : -(10 ^ k : Nat) < n) (high : n < (10 ^ k : Nat)) : (decimalInt n).length ≤ k + 1 := by
  cases n with
  | ofNat n =>
      have bound := length_decimal_le n k positive (Int.ofNat_lt.mp high)
      simp only [decimalInt]
      omega
  | negSucc n =>
      have bound := length_decimal_le (n + 1) k positive (by
        rw [Int.negSucc_eq] at low
        omega)
      simp only [decimalInt, List.length_cons]
      omega

theorem hex_digit_lower (n : Nat) (small : n < 16) : isLowerHex (hexDigit n) = true := by
  revert n
  decide

theorem hex_digit_injective (a b : Nat) (aSmall : a < 16) (bSmall : b < 16)
    (same : hexDigit a = hexDigit b) : a = b := by
  have table : ∀ a < 16, ∀ b < 16, hexDigit a = hexDigit b → a = b := by decide
  exact table a aSmall b bSmall same

theorem hex_byte_injective (a b : UInt8) (same : hexByte a = hexByte b) : a = b := by
  simp only [hexByte, List.cons.injEq, and_true] at same
  have aBound := a.toNat_lt
  have bBound := b.toNat_lt
  have high := hex_digit_injective _ _ (by omega) (by omega) same.1
  have low := hex_digit_injective _ _ (by omega) (by omega) same.2
  exact UInt8.toNat.inj (by omega)

theorem length_hex_text (bytes : List UInt8) : (hexText bytes).length = 2 * bytes.length := by
  induction bytes with
  | nil => rfl
  | cons b rest ih =>
      have tail : (rest.flatMap hexByte).length = 2 * rest.length := ih
      simp only [hexText, List.flatMap_cons, List.length_append, tail, hexByte,
        List.length_cons, List.length_nil]
      omega

theorem hex_text_injective (a b : List UInt8) (same : hexText a = hexText b) : a = b := by
  induction a generalizing b with
  | nil =>
      cases b with
      | nil => rfl
      | cons c rest => simp [hexText, hexByte] at same
  | cons c rest ih =>
      cases b with
      | nil => simp [hexText, hexByte] at same
      | cons d tail =>
          have split : hexByte c = hexByte d ∧ hexText rest = hexText tail :=
            List.append_inj (by simpa [hexText] using same) (by simp [hexByte])
          rw [hex_byte_injective c d split.1, ih tail split.2]

theorem hex_text_lower (bytes : List UInt8) : ∀ c ∈ hexText bytes, isLowerHex c = true := by
  intro c member
  obtain ⟨b, _, digit⟩ := List.mem_flatMap.mp member
  have bound := b.toNat_lt
  simp only [hexByte, List.mem_cons, List.not_mem_nil, or_false] at digit
  rcases digit with rfl | rfl
  · exact hex_digit_lower _ (by omega)
  · exact hex_digit_lower _ (by omega)

theorem hex_text_nul_free (bytes : List UInt8) : (0 : UInt8) ∉ hexText bytes := fun member =>
  lower_hex_ne_nul 0 (hex_text_lower bytes 0 member) rfl

end CLibrary
