import Ttracker.CLibrary

/-!
HTTP messages as a receiver reads them: a status line, header lines, an empty line and
the body up to the end of the connection. A line ends in LF or CRLF.
-/
namespace HttpMessages
open CLibrary

/-- The first line without its end, and what is behind it. -/
def takeLine (input : List UInt8) : Option (List UInt8 × List UInt8) :=
  let line := input.takeWhile (· != 10)
  match input.drop line.length with
  | [] => none
  | _ :: rest => some (if line.getLast? = some 13 then line.dropLast else line, rest)

/-- A name, a colon, blanks and a value. -/
def parseHeader (line : List UInt8) : Option (List UInt8 × List UInt8) :=
  let name := line.takeWhile (· != 58)
  match line.drop name.length with
  | [] => none
  | _ :: value => if name = [] then none else some (name, value.dropWhile (· == 32))

/-- The header lines up to the empty one. Each takes a byte, so a length is enough fuel. -/
def parseHeaders : Nat → List UInt8 → Option (List (List UInt8 × List UInt8) × List UInt8)
  | 0, _ => none
  | fuel + 1, input => do
      let (line, rest) ← takeLine input
      if line = [] then some ([], rest)
      else
        let header ← parseHeader line
        let (headers, body) ← parseHeaders fuel rest
        some (header :: headers, body)

/-- `HTTP/1.1`, a blank and three digits. -/
def statusCode (line : List UInt8) : Option Nat :=
  let digits := (line.drop 9).take 3
  if line.take 9 = ascii ['H', 'T', 'T', 'P', '/', '1', '.', '1', ' '] ∧ digits.length = 3 ∧
      digits.all isdigit = true then
    some (decimalValue digits)
  else none

structure Message where
  status : Nat
  headers : List (List UInt8 × List UInt8)
  body : List UInt8

def parseMessage (input : List UInt8) : Option Message := do
  let (line, rest) ← takeLine input
  let status ← statusCode line
  let (headers, body) ← parseHeaders (rest.length + 1) rest
  some ⟨status, headers, body⟩

/-! ## Lines -/

theorem take_line_nil : takeLine [] = none := rfl

theorem take_line_feed (line rest : List UInt8) (plain : (10 : UInt8) ∉ line)
    (ending : line.getLast? ≠ some 13) : takeLine (line ++ 10 :: rest) = some (line, rest) := by
  have read : (line ++ 10 :: rest).takeWhile (· != 10) = line := by
    apply take_while_stops
    · intro c member
      have : c ≠ 10 := fun same => plain (same ▸ member)
      simpa using this
    · decide
  simp only [takeLine, read, List.drop_left, if_neg ending]

theorem take_line_crlf (line rest : List UInt8) (plain : (10 : UInt8) ∉ line) :
    takeLine (line ++ 13 :: 10 :: rest) = some (line, rest) := by
  have read : (line ++ 13 :: 10 :: rest).takeWhile (· != 10) = line ++ [13] := by
    have split : line ++ 13 :: 10 :: rest = (line ++ [13]) ++ 10 :: rest := by simp
    rw [split]
    apply take_while_stops
    · intro c member
      rcases List.mem_append.mp member with inLine | last
      · have : c ≠ 10 := fun same => plain (same ▸ inLine)
        simpa using this
      · rw [List.mem_singleton.mp last]
        decide
    · decide
  have behind : (line ++ 13 :: 10 :: rest).drop (line ++ [13]).length = 10 :: rest := by simp
  simp only [takeLine, read, behind]
  simp

/-! ## Headers -/

def headerLine (header : List UInt8 × List UInt8) : List UInt8 := header.1 ++ 58 :: 32 :: header.2

/-- A header that can be read back from a line. -/
structure Plain (header : List UInt8 × List UInt8) : Prop where
  named : header.1 ≠ []
  name : (58 : UInt8) ∉ header.1 ∧ (10 : UInt8) ∉ header.1
  value : (10 : UInt8) ∉ header.2 ∧ (13 : UInt8) ∉ header.2
  start : header.2.head? ≠ some 32

theorem parse_header_line (header : List UInt8 × List UInt8) (plain : Plain header) :
    parseHeader (headerLine header) = some header := by
  obtain ⟨name, value⟩ := header
  have read : (name ++ 58 :: 32 :: value).takeWhile (· != 58) = name := by
    apply take_while_stops
    · intro c member
      have : c ≠ 58 := fun same => plain.name.1 (same ▸ member)
      simpa using this
    · decide
  have trimmed : (32 :: value).dropWhile (· == 32) = value := by
    have start := plain.start
    cases value with
    | nil => rfl
    | cons c rest =>
        have other : c ≠ 32 := by simpa using start
        simp [other]
  simp only [parseHeader, headerLine, read, List.drop_left, if_neg plain.named, trimmed]

theorem header_line_whole (header : List UInt8 × List UInt8) (plain : Plain header) :
    headerLine header ≠ [] ∧ (10 : UInt8) ∉ headerLine header ∧
      (headerLine header).getLast? ≠ some 13 := by
  refine ⟨?_, ?_, ?_⟩
  · simp [headerLine]
  · simp [headerLine, plain.name.2, plain.value.1]
  · intro last
    obtain ⟨c, ended⟩ : ∃ c, (58 :: 32 :: header.2).getLast? = some c :=
      ⟨_, List.getLast?_eq_some_getLast (by simp)⟩
    rw [headerLine, List.getLast?_append, ended, Option.some_or, Option.some.injEq] at last
    have inside := List.mem_of_getLast? ended
    rw [last] at inside
    simp [plain.value.2] at inside

/-- Header lines that end in LF, an empty line that ends in CRLF and a body. -/
theorem parse_headers_rendered (headers : List (List UInt8 × List UInt8)) (body : List UInt8)
    (fuel : Nat) (enough : headers.length < fuel) (plain : ∀ header ∈ headers, Plain header) :
    parseHeaders fuel ((headers.map fun header => headerLine header ++ [10]).flatten ++
      13 :: 10 :: body) = some (headers, body) := by
  induction headers generalizing fuel with
  | nil =>
      obtain ⟨fuel, rfl⟩ : ∃ more, fuel = more + 1 := ⟨fuel - 1, by simp at enough; omega⟩
      have line : takeLine (13 :: 10 :: body) = some ([], body) := take_line_crlf [] body (by simp)
      simp [parseHeaders, line]
  | cons header rest ih =>
      obtain ⟨fuel, rfl⟩ : ∃ more, fuel = more + 1 := ⟨fuel - 1, by simp at enough; omega⟩
      rw [List.forall_mem_cons] at plain
      obtain ⟨some_line, noFeed, noReturn⟩ := header_line_whole header plain.1
      have later := ih fuel (by simpa using enough) plain.2
      have split : ((header :: rest).map fun header => headerLine header ++ [10]).flatten ++
          13 :: 10 :: body = headerLine header ++ 10 ::
            ((rest.map fun header => headerLine header ++ [10]).flatten ++ 13 :: 10 :: body) := by
        simp
      rw [split, parseHeaders, take_line_feed _ _ noFeed noReturn]
      simp [some_line, parse_header_line header plain.1, later]

end HttpMessages
