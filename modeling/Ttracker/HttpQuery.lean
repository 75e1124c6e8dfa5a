import Ttracker.CLibrary

/-!
`http_parse_job_from_request` and `http_parse_query` of http.c. The loops keep
the source's index arithmetic and read the request memory through `readAt`, so
a read outside the allocation is a `none` and not a value. The second half
reads the same query text as a list of pieces and shows the loops leave exactly
those pieces, newest first.
-/
namespace Ttracker.HttpQuery
open CLibrary

def httpMaxReqSize : Nat := 2048
def httpMaxKeys : Nat := 6
def httpMaxKeyLen : Nat := 128
def httpMaxValLen : Nat := 256

def getAnnounce : List UInt8 := ascii ['G', 'E', 'T', ' ', '/', 'a', 'n', 'n', 'o', 'u', 'n', 'c', 'e']
def getScrape : List UInt8 := ascii ['G', 'E', 'T', ' ', '/', 's', 'c', 'r', 'a', 'p', 'e']
def http11 : List UInt8 := ascii ['H', 'T', 'T', 'P', '/', '1', '.', '1']
def http10 : List UInt8 := ascii ['H', 'T', 'T', 'P', '/', '1', '.', '0']
def infoHashKey : List UInt8 := ascii ['i', 'n', 'f', 'o', '_', 'h', 'a', 's', 'h']
def peerIdKey : List UInt8 := ascii ['p', 'e', 'e', 'r', '_', 'i', 'd']
def portKey : List UInt8 := ascii ['p', 'o', 'r', 't']
def uploadedKey : List UInt8 := ascii ['u', 'p', 'l', 'o', 'a', 'd', 'e', 'd']
def downloadedKey : List UInt8 := ascii ['d', 'o', 'w', 'n', 'l', 'o', 'a', 'd', 'e', 'd']
def leftKey : List UInt8 := ascii ['l', 'e', 'f', 't']
def eventKey : List UInt8 := ascii ['e', 'v', 'e', 'n', 't']

/-- `JOB_T_ANNOUNCE`, `JOB_T_SCRAPE` and `JOB_T_STOP`. -/
inductive JobType where
  | announce
  | scrape
  | stop
  deriving DecidableEq

/-- `struct buffer`: `p` is the allocation, all `size` bytes of it. -/
structure Buffer where
  p : List UInt8
  cursor : Int
  deriving DecidableEq

structure HttpUriKv where
  key : CString (httpMaxKeyLen - 1)
  val : CString (httpMaxValLen - 1)
  deriving DecidableEq

/-- `live` holds the entries allocated by the call and not freed when it returns. -/
structure QueryResult where
  ret : Int
  input : Buffer
  head : List HttpUriKv
  live : List HttpUriKv
  deriving DecidableEq

def httpParseJobFromRequest (input : Buffer) : Option JobType :=
  if strncmpEq (cstr input.p) getAnnounce 13 then some .announce
  else if strncmpEq (cstr input.p) getScrape 11 then some .scrape
  else none

def readAt (p : List UInt8) (i : Int) : Option UInt8 := if i < 0 then none else p[i.toNat]?

/-- `strncmp` against a literal reads at most the literal's length. -/
def readSpan (p : List UInt8) (i n : Nat) : Option (List UInt8) :=
  if i + n ≤ p.length then some ((p.drop i).take n) else none

def lineEnd (p : List UInt8) : Nat → Nat → Option Nat
  | 0, _ => some 0
  | left + 1, i => (readAt p i).bind fun c =>
      if c = 10 then (readAt p (i - 1)).bind fun before =>
        -- an index is the truth value here: a line end at index 0 is none
        let found := if before = 13 then i else 0
        if found ≠ 0 then some found else lineEnd p left (i + 1)
      else lineEnd p left (i + 1)

/-- Both copy loops: up to `room` characters from `i`, ended early by the
delimiter or by the line end. `k` is the length of what was copied. -/
def copyUntil (p : List UInt8) (delim : UInt8) (found : Nat) : Nat → Nat → Option (List UInt8)
  | 0, _ => some []
  | room + 1, i =>
      if i < found then (readAt p i).bind fun c =>
        if c = delim then some [] else (copyUntil p delim found room (i + 1)).map (c :: ·)
      else some []

def mkKv (key val : List UInt8) : HttpUriKv :=
  ⟨CString.ofMemory _ key, CString.ofMemory _ val⟩

/-- The `while (i < found)` loop. `false` is the return on an empty key. The
counter `fuel` bounds the iterations; `parse_pairs_reads` shows it never runs out. -/
def parsePairs (p : List UInt8) (found : Nat) :
    Nat → Nat → List HttpUriKv → Option (Bool × List HttpUriKv)
  | 0, i, head => if i < found then none else some (true, head)
  | fuel + 1, i, head =>
      if i < found then
        (copyUntil p 61 found (httpMaxKeyLen - 1) i).bind fun key =>
          if key.length = 0 then some (false, head)
          else
            -- the byte the copy stopped at is skipped, whether it is a delimiter or not
            let i := i + key.length + 1
            (copyUntil p 38 found (httpMaxValLen - 1) i).bind fun val =>
              parsePairs p found fuel (i + val.length + 1) (mkKv key val :: head)
      else some (true, head)

def requiredKeys : List (List UInt8) :=
  [infoHashKey, peerIdKey, portKey, uploadedKey, downloadedKey,
    leftKey]

/-- The double loop that counts matches of any required key. -/
def countMatches (head : List HttpUriKv) : Nat :=
  (requiredKeys.map fun key => head.countP fun np => np.key.bytes == key).sum

/-- Length of `"GET /announce?"` and of `"GET /scrape?"`. -/
def startOffset : JobType → Option Nat
  | .announce => some 14
  | .scrape => some 12
  | .stop => none

/-- The checks after the list is built. Only the announce branch frees it. -/
def judge (jobT : JobType) (input : Buffer) (head : List HttpUriKv) : QueryResult :=
  match jobT with
  | .announce =>
      if countMatches head < httpMaxKeys then ⟨-1, input, head, []⟩ else ⟨0, input, head, head⟩
  | .scrape =>
      if head.any fun np => np.key.bytes != infoHashKey then ⟨-1, input, head, head⟩
      else ⟨0, input, head, head⟩
  | .stop => ⟨-1, input, head, head⟩

/-- The only caller passes an empty list, so `head` starts empty here. -/
def httpParseQuery (input : Buffer) (jobT : JobType) : Option QueryResult :=
  (lineEnd input.p input.cursor.toNat 0).bind fun found =>
    if found = 0 then some ⟨-1, input, [], []⟩
    else if found < 11 then some ⟨-1, input, [], []⟩
    else (readSpan input.p (found - 9) 8).bind fun version =>
      if version ≠ http11 ∧ version ≠ http10 then some ⟨-1, input, [], []⟩
      else
        -- the NUL ends the query for `strlen`, but the loop below runs on to the line feed
        let cut : Buffer := ⟨input.p.set (found - 10) 0, input.cursor - 11⟩
        match startOffset jobT with
        | none => some ⟨-1, cut, [], []⟩
        | some start => (parsePairs cut.p found found start []).map fun (complete, head) =>
            if complete then judge jobT cut head else ⟨-1, cut, head, head⟩

/-! ## The query as a list of pieces -/

/-- The text read as pieces: a key up to the first `=` or 127 bytes, one byte
dropped, a value up to the first `&` or 255 bytes, one byte dropped. -/
def pieces (text : List UInt8) : List (List UInt8 × List UInt8) :=
  match text with
  | [] => []
  | c :: rest =>
      let key := ((c :: rest).takeWhile (· != 61)).take (httpMaxKeyLen - 1)
      let after := (c :: rest).drop (key.length + 1)
      let val := (after.takeWhile (· != 38)).take (httpMaxValLen - 1)
      (key, val) :: pieces (after.drop (val.length + 1))
termination_by text.length
decreasing_by
  simp only [List.length_drop, List.length_cons]
  omega

def readOff : List (List UInt8 × List UInt8) → List HttpUriKv → Bool × List HttpUriKv
  | [], head => (true, head)
  | (key, val) :: rest, head =>
      if key.length = 0 then (false, head) else readOff rest (mkKv key val :: head)

/-- The text the pair loop works on: from behind the `?` to the line feed, with
the NUL planted before the version. -/
def queryText (input : Buffer) (start : Nat) : List UInt8 :=
  let found := (lineEnd input.p input.cursor.toNat 0).getD 0
  ((input.p.set (found - 10) 0).take found).drop start

def queryPieces (input : Buffer) (start : Nat) : List (List UInt8 × List UInt8) :=
  pieces (queryText input start)

theorem copy_until_reads (p : List UInt8) (delim : UInt8) (found : Nat)
    (inside : found ≤ p.length) (room i : Nat) :
    copyUntil p delim found room i =
      some ((((p.take found).drop i).takeWhile (· != delim)).take room) := by
  induction room generalizing i with
  | zero => simp [copyUntil]
  | succ room ih =>
      by_cases more : i < found
      · have bound : i < (p.take found).length := by
          rw [List.length_take]
          omega
        have here : readAt p i = some p[i] := by
          simp only [readAt, Int.toNat_natCast]
          rw [if_neg (by omega), List.getElem?_eq_getElem (by omega)]
        rw [copyUntil, if_pos more, here, List.drop_eq_getElem_cons bound, List.getElem_take]
        by_cases stop : p[i] = delim
        · simp [stop]
        · simp [stop, ih (i + 1)]
      · have empty : (p.take found).drop i = [] := by
          apply List.drop_eq_nil_of_le
          rw [List.length_take]
          omega
        simp [copyUntil, more, empty]

/-- The index loop is the reading of the remaining text, whatever it contains. -/
theorem parse_pairs_reads (p : List UInt8) (found : Nat) (inside : found ≤ p.length)
    (fuel i : Nat) (enough : found - i ≤ fuel) (head : List HttpUriKv) :
    parsePairs p found fuel i head = some (readOff (pieces ((p.take found).drop i)) head) := by
  induction fuel generalizing i head with
  | zero =>
      have empty : (p.take found).drop i = [] := by
        apply List.drop_eq_nil_of_le
        rw [List.length_take]
        omega
      rw [parsePairs, if_neg (by omega), empty, pieces, readOff]
  | succ fuel ih =>
      by_cases more : i < found
      · cases text : (p.take found).drop i with
        | nil =>
            have short := List.drop_eq_nil_iff.mp text
            rw [List.length_take] at short
            omega
        | cons c rest =>
            rw [parsePairs, if_pos more, copy_until_reads p 61 found inside, text, pieces]
            simp only [Option.bind_some, readOff]
            split
            · rfl
            -- each round moves on by at least the skipped byte, so the fuel lasts
            · rw [copy_until_reads p 38 found inside]
              simp only [Option.bind_some]
              rw [ih _ (by omega)]
              simp only [← List.drop_drop, text]
      · have empty : (p.take found).drop i = [] := by
          apply List.drop_eq_nil_of_le
          rw [List.length_take]
          omega
        rw [parsePairs, if_neg more, empty, pieces, readOff]

theorem read_off_complete (ps : List (List UInt8 × List UInt8)) (before head : List HttpUriKv)
    (complete : readOff ps before = (true, head)) :
    head = (ps.map fun piece => mkKv piece.1 piece.2).reverse ++ before := by
  induction ps generalizing before with
  | nil => simpa [readOff] using complete.symm
  | cons piece rest ih =>
      simp only [readOff] at complete
      split at complete
      · simp at complete
      · simp [ih _ complete]

theorem piece_lengths (text : List UInt8) (piece : List UInt8 × List UInt8)
    (member : piece ∈ pieces text) :
    piece.1.length ≤ httpMaxKeyLen - 1 ∧ piece.2.length ≤ httpMaxValLen - 1 := by
  induction text using pieces.induct with
  | case1 => simp [pieces] at member
  | case2 c rest key after val ih =>
      rw [pieces] at member
      rcases List.mem_cons.mp member with rfl | later
      · exact ⟨List.length_take_le _ _, List.length_take_le _ _⟩
      · exact ih later

/-- A line end that is found is a line feed in the part that was searched, behind a
carriage return. -/
theorem line_end_found (p : List UInt8) (left i found : Nat)
    (reached : lineEnd p left i = some found) (positive : found ≠ 0) :
    i ≤ found ∧ found < i + left ∧ readAt p found = some 10 ∧ readAt p (found - 1) = some 13 := by
  induction left generalizing i with
  | zero =>
      simp only [lineEnd, Option.some.injEq] at reached
      exact absurd reached.symm positive
  | succ left ih =>
      have later : lineEnd p left (i + 1) = some found →
          i ≤ found ∧ found < i + (left + 1) ∧ readAt p found = some 10 ∧
            readAt p (found - 1) = some 13 := by
        intro onward
        obtain ⟨low, high, ends⟩ := ih (i + 1) onward
        exact ⟨by omega, by omega, ends⟩
      obtain ⟨c, here, onward⟩ := Option.bind_eq_some_iff.mp reached
      by_cases feed : c = 10
      · rw [if_pos feed] at onward
        obtain ⟨before, back, onward⟩ := Option.bind_eq_some_iff.mp onward
        by_cases crlf : before = 13 ∧ i ≠ 0
        · obtain ⟨rfl, first⟩ := crlf
          simp only [if_true, if_pos first, Option.some.injEq] at onward
          subst onward feed
          exact ⟨le_refl _, by omega, here, back⟩
        · have none : ¬ (if before = 13 then i else 0) ≠ 0 := by
            intro ended
            split at ended
            · next same => exact crlf ⟨same, ended⟩
            · exact ended rfl
          simp only [if_neg none] at onward
          exact later onward
      · rw [if_neg feed] at onward
        exact later onward

theorem read_at_inside {p : List UInt8} {i : Nat} {c : UInt8} (read : readAt p i = some c) :
    i < p.length := by
  simp only [readAt, Int.toNat_natCast] at read
  rw [if_neg (by omega)] at read
  exact (List.getElem?_eq_some_iff.mp read).1

theorem line_end_inside (p : List UInt8) (left i found : Nat)
    (reached : lineEnd p left i = some found) : found = 0 ∨ found < p.length := by
  by_cases absent : found = 0
  · exact Or.inl absent
  · exact Or.inr (read_at_inside (line_end_found p left i found reached absent).2.2.1)

structure ReadLine (input : Buffer) (found : Nat) : Prop where
  line : lineEnd input.p input.cursor.toNat 0 = some found
  long : 11 ≤ found
  version : readSpan input.p (found - 9) 8 = some http11 ∨
    readSpan input.p (found - 9) 8 = some http10

def cutInput (input : Buffer) (found : Nat) : Buffer :=
  ⟨input.p.set (found - 10) 0, input.cursor - 11⟩

/-- How far a call gets before it returns. -/
inductive Stages (input : Buffer) (jobT : JobType) : QueryResult → Prop where
  | unread (none : ∀ found, ¬ ReadLine input found) : Stages input jobT ⟨-1, input, [], []⟩
  | unserved (found : Nat) (read : ReadLine input found) (offset : startOffset jobT = none) :
      Stages input jobT ⟨-1, cutInput input found, [], []⟩
  | unnamed (found start : Nat) (head : List HttpUriKv) (read : ReadLine input found)
      (offset : startOffset jobT = some start)
      (pairs : parsePairs (cutInput input found).p found found start [] = some (false, head)) :
      Stages input jobT ⟨-1, cutInput input found, head, head⟩
  | judged (found start : Nat) (head : List HttpUriKv) (read : ReadLine input found)
      (offset : startOffset jobT = some start)
      (pairs : parsePairs (cutInput input found).p found found start [] = some (true, head)) :
      Stages input jobT (judge jobT (cutInput input found) head)

theorem parse_stages {input : Buffer} {jobT : JobType} {result : QueryResult}
    (parsed : httpParseQuery input jobT = some result) : Stages input jobT result := by
  obtain ⟨found, line, parsed⟩ := Option.bind_eq_some_iff.mp parsed
  have only : ∀ other, ReadLine input other → other = found := fun other read =>
    Option.some.inj (read.line.symm.trans line)
  by_cases absent : found = 0
  · rw [if_pos absent] at parsed
    cases parsed
    refine .unread fun other read => ?_
    have long := read.long
    rw [only other read, absent] at long
    contradiction
  by_cases short : found < 11
  · rw [if_neg absent, if_pos short] at parsed
    cases parsed
    refine .unread fun other read => ?_
    have long := read.long
    rw [only other read] at long
    omega
  rw [if_neg absent, if_neg short] at parsed
  obtain ⟨version, span, parsed⟩ := Option.bind_eq_some_iff.mp parsed
  by_cases other : version ≠ http11 ∧ version ≠ http10
  · rw [if_pos other] at parsed
    cases parsed
    refine .unread fun found' read => ?_
    have known := read.version
    rw [only found' read, span, Option.some.injEq, Option.some.injEq] at known
    rcases known with same | same
    · exact other.1 same
    · exact other.2 same
  rw [if_neg other] at parsed
  have known : version = http11 ∨ version = http10 := by
    by_contra neither
    exact other (not_or.mp neither)
  have read : ReadLine input found := by
    refine ⟨line, by omega, ?_⟩
    rcases known with rfl | rfl
    · exact Or.inl span
    · exact Or.inr span
  cases offset : startOffset jobT with
  | none =>
      simp only [offset] at parsed
      cases parsed
      exact .unserved found read offset
  | some start =>
      simp only [offset] at parsed
      obtain ⟨⟨complete, head⟩, pairs, rfl⟩ := Option.map_eq_some_iff.mp parsed
      cases complete with
      | false => exact .unnamed found start head read offset pairs
      | true => exact .judged found start head read offset pairs

/-- The stages of a call that returns 0. -/
structure AcceptedLine (input : Buffer) (jobT : JobType) (result : QueryResult) (found start : Nat)
    (head : List HttpUriKv) : Prop where
  line : lineEnd input.p input.cursor.toNat 0 = some found
  long : 11 ≤ found
  version : readSpan input.p (found - 9) 8 = some http11 ∨
    readSpan input.p (found - 9) 8 = some http10
  offset : startOffset jobT = some start
  pairs : parsePairs (input.p.set (found - 10) 0) found found start [] = some (true, head)
  judged : result = judge jobT ⟨input.p.set (found - 10) 0, input.cursor - 11⟩ head

theorem accepted_line (input : Buffer) (jobT : JobType) (result : QueryResult)
    (parsed : httpParseQuery input jobT = some result) (accepted : result.ret = 0) :
    ∃ found start head, AcceptedLine input jobT result found start head := by
  cases parse_stages parsed with
  | unread none => exact absurd accepted (by simp)
  | unserved found read offset => exact absurd accepted (by simp)
  | unnamed found start head read offset pairs => exact absurd accepted (by simp)
  | judged found start head read offset pairs =>
      exact ⟨found, start, head, read.line, read.long, read.version, offset, pairs, rfl⟩

theorem pairs_read {input : Buffer} {found : Nat} (read : ReadLine input found) (start : Nat) :
    parsePairs (cutInput input found).p found found start [] =
      some (readOff (queryPieces input start) []) := by
  have far := read.long
  have inside := line_end_inside _ _ _ _ read.line
  have text : queryText input start = ((input.p.set (found - 10) 0).take found).drop start := by
    simp [queryText, read.line]
  have length : (cutInput input found).p.length = input.p.length := List.length_set
  rw [parse_pairs_reads _ _ (by omega) _ _ (by omega), queryPieces, text, cutInput]

theorem judge_head (jobT : JobType) (input : Buffer) (head : List HttpUriKv) :
    (judge jobT input head).head = head ∧ (judge jobT input head).input = input := by
  cases jobT <;> simp only [judge] <;> (try split) <;> simp only [and_self]

/-- Whatever `http_parse_query` accepts, its list is the query's pieces, newest first. -/
theorem accepted_pieces (input : Buffer) (jobT : JobType) (result : QueryResult)
    (parsed : httpParseQuery input jobT = some result) (accepted : result.ret = 0) :
    ∃ start, startOffset jobT = some start ∧
      result.head = ((queryPieces input start).map fun piece => mkKv piece.1 piece.2).reverse ∧
      result = judge jobT result.input result.head := by
  cases parse_stages parsed with
  | unread none => exact absurd accepted (by simp)
  | unserved found read offset => exact absurd accepted (by simp)
  | unnamed found start head read offset pairs => exact absurd accepted (by simp)
  | judged found start head read offset pairs =>
      rw [pairs_read read] at pairs
      have built := read_off_complete _ _ _ (Option.some.inj pairs)
      rw [List.append_nil] at built
      have kept := judge_head jobT (cutInput input found) head
      refine ⟨start, offset, kept.1.trans built, ?_⟩
      rw [kept.1, kept.2]

theorem pieces_length_le (text : List UInt8) : (pieces text).length ≤ text.length := by
  induction text using pieces.induct with
  | case1 => simp [pieces]
  | case2 c rest key after val ih =>
      rw [pieces, List.length_cons, List.length_cons]
      have shorter : (after.drop (val.length + 1)).length ≤ rest.length := by
        simp only [after, List.length_drop, List.length_cons]
        omega
      exact Nat.succ_le_succ (ih.trans shorter)

end Ttracker.HttpQuery
