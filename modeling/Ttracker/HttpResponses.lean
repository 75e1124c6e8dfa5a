import Ttracker.HttpMessages
import Ttracker.Buffers
import Ttracker.ServerThreads

/-!
`http_response`: the message it puts together for a status code and a body, read back
as a receiver does, and the loop that hands it to `write` until all of it is taken or
`write` has failed five times.
-/
namespace Ttracker.HttpResponses
open CLibrary HttpQuery Buffers HttpMessages ObjectPools ServerThreads

/-! ## The message -/

def http200 : List UInt8 := text "HTTP/1.1 200 OK"
def http400 : List UInt8 := text "HTTP/1.1 400 Bad Request"
def http500 : List UInt8 := text "HTTP/1.1 500 Internal Server Error"

def statusText (code : Int) : List UInt8 :=
  if code = 200 then http200 else if code = 400 then http400 else http500

/-- `snprintf` into the zeroed `char closing[64]`. -/
def closing (bLen : Int) : List UInt8 :=
  (text "\ncontent-length: " ++ decimalInt bLen ++ text "\n").take 63

/-- The strings appended before the body. The status line has no line end of its own:
only a body brings one, with the line of its length. -/
def responseHead (code bLen : Int) : List (List UInt8) :=
  statusText code ::
    (if 0 < bLen then [closing bLen, text "content-type: text/plain\n",
      text "server: topkek-0.1\n", text "connection: close\n"] else []) ++ [text "\r\n"]

def responseMessage (unset : Unset) (b body : Buffer) (code : Int) : Option Buffer :=
  (appendStrings unset b (responseHead code body.cursor)).bind fun b =>
    bufferAppendToBuffer unset b body

/-- The message is read as a status line, headers, an empty line and exactly the body,
and a body that is not empty has its length announced. -/
def Framed (content message : List UInt8) : Prop :=
  ∃ m, parseMessage message = some m ∧ m.body = content ∧
    (content ≠ [] → ∃ digits, m.headers.lookup (text "content-length") = some digits ∧
      digits.all isdigit = true ∧ decimalValue digits = content.length)

def bodyHeaders (n : Nat) : List (List UInt8 × List UInt8) :=
  [(text "content-length", decimal n), (text "content-type", text "text/plain"),
    (text "server", text "topkek-0.1"), (text "connection", text "close")]

theorem closing_whole (n : Nat) (int : n < 2 ^ 31) :
    closing n = text "\ncontent-length: " ++ decimal n ++ text "\n" := by
  have digits := length_decimal_le n 10 (by decide) (by omega)
  have opening : (text "\ncontent-length: ").length = 17 := by decide +kernel
  have feed : (text "\n").length = 1 := by decide +kernel
  apply List.take_of_length_le
  simp only [decimalInt, List.length_append]
  omega

theorem status_readable (code : Int) : (10 : UInt8) ∉ statusText code ∧
    (statusText code).getLast? ≠ some 13 ∧ (statusCode (statusText code)).isSome = true := by
  have known : ∀ line ∈ [http200, http400, http500], (10 : UInt8) ∉ line ∧
      line.getLast? ≠ some 13 ∧ (statusCode line).isSome = true := by decide +kernel
  apply known
  unfold statusText
  split
  · simp
  · split <;> simp

theorem length_status_le (code : Int) : (statusText code).length ≤ 34 := by
  have known : ∀ line ∈ [http200, http400, http500], line.length ≤ 34 := by decide +kernel
  apply known
  unfold statusText
  split
  · simp
  · split <;> simp

theorem body_headers_plain (n : Nat) : ∀ header ∈ bodyHeaders n, Plain header := by
  have absent : ∀ c, isdigit c = false → c ∉ decimal n := by
    intro c other member
    rw [decimal_isdigit n c member] at other
    contradiction
  obtain ⟨c, rest, shape, digit⟩ := decimal_head n
  have first : (decimal n).head? ≠ some 32 := by
    rw [shape]
    rintro ⟨⟩
    contradiction
  have name : text "content-length" ≠ [] ∧ (58 : UInt8) ∉ text "content-length" ∧
      (10 : UInt8) ∉ text "content-length" := by decide +kernel
  have length : Plain (text "content-length", decimal n) :=
    ⟨name.1, name.2, ⟨absent 10 (by decide), absent 13 (by decide)⟩, first⟩
  have type : Plain (text "content-type", text "text/plain") :=
    ⟨by decide +kernel, by decide +kernel, by decide +kernel, by decide +kernel⟩
  have server : Plain (text "server", text "topkek-0.1") :=
    ⟨by decide +kernel, by decide +kernel, by decide +kernel, by decide +kernel⟩
  have connection : Plain (text "connection", text "close") :=
    ⟨by decide +kernel, by decide +kernel, by decide +kernel, by decide +kernel⟩
  simp only [bodyHeaders, List.forall_mem_cons, List.not_mem_nil, false_imp_iff, implies_true,
    and_true]
  exact ⟨length, type, server, connection⟩

theorem head_rendered (code : Int) (n : Nat) (some_body : 0 < n) (int : n < 2 ^ 31) :
    (responseHead code n).flatten = statusText code ++ 10 ::
      (((bodyHeaders n).map fun header => headerLine header ++ [10]).flatten ++ [13, 10]) := by
  have positive : (0 : Int) < n := by omega
  have opening : text "\ncontent-length: " = 10 :: (text "content-length" ++ [58, 32]) := by
    decide +kernel
  have feed : text "\n" = [10] := by decide +kernel
  have ending : text "\r\n" = [13, 10] := by decide +kernel
  have type : text "content-type: text/plain\n" =
      headerLine (text "content-type", text "text/plain") ++ [10] := by decide +kernel
  have server : text "server: topkek-0.1\n" =
      headerLine (text "server", text "topkek-0.1") ++ [10] := by decide +kernel
  have connection : text "connection: close\n" =
      headerLine (text "connection", text "close") ++ [10] := by decide +kernel
  rw [responseHead, if_pos positive, closing_whole n int, opening, feed, ending, type, server,
    connection]
  simp [bodyHeaders, headerLine]

theorem message_parsed (code : Int) {status : Nat} (read : statusCode (statusText code) = some status)
    (content : List UInt8) (some_body : content ≠ []) (int : content.length < 2 ^ 31) :
    parseMessage ((responseHead code content.length).flatten ++ content) =
      some ⟨status, bodyHeaders content.length, content⟩ := by
  have positive := List.length_pos_iff.mpr some_body
  obtain ⟨noFeed, noReturn, -⟩ := status_readable code
  have split : (responseHead code content.length).flatten ++ content = statusText code ++ 10 ::
      (((bodyHeaders content.length).map fun header => headerLine header ++ [10]).flatten ++
        13 :: 10 :: content) := by
    rw [head_rendered code content.length positive int]
    simp
  obtain ⟨rest, isRest⟩ : ∃ rest, rest = ((bodyHeaders content.length).map
      fun header => headerLine header ++ [10]).flatten ++ 13 :: 10 :: content := ⟨_, rfl⟩
  have enough : (bodyHeaders content.length).length < rest.length + 1 := by
    rw [isRest]
    simp [bodyHeaders]
    omega
  have headers := parse_headers_rendered (bodyHeaders content.length) content (rest.length + 1)
    enough (body_headers_plain content.length)
  rw [← isRest] at headers split
  rw [split, parseMessage, take_line_feed _ _ noFeed noReturn]
  simp [read, headers]

/-- Without a body there is no empty line: the status line is the whole message. -/
theorem empty_unparsed (code : Int) : parseMessage ((responseHead code 0).flatten ++ []) = none := by
  have ending : text "\r\n" = [13, 10] := by decide +kernel
  have whole : (responseHead code 0).flatten ++ [] = statusText code ++ 13 :: 10 :: [] := by
    simp [responseHead, ending]
  obtain ⟨status, read⟩ := Option.isSome_iff_exists.mp (status_readable code).2.2
  rw [whole, parseMessage, take_line_crlf _ _ (status_readable code).1]
  simp [read, parseHeaders, take_line_nil]

theorem framed_with_body (code : Int) (content : List UInt8) (some_body : content ≠ [])
    (int : content.length < 2 ^ 31) :
    Framed content ((responseHead code content.length).flatten ++ content) := by
  obtain ⟨status, read⟩ := Option.isSome_iff_exists.mp (status_readable code).2.2
  refine ⟨_, message_parsed code read content some_body int, rfl, fun _ => ?_⟩
  refine ⟨decimal content.length, by simp [bodyHeaders], ?_, decimal_value content.length⟩
  exact List.all_eq_true.mpr (decimal_isdigit content.length)

theorem not_framed_empty (code : Int) : ¬ Framed [] ((responseHead code 0).flatten ++ []) := by
  rintro ⟨m, parsed, -⟩
  rw [empty_unparsed] at parsed
  contradiction

theorem length_head (code : Int) (n : Nat) (some_body : 0 < n) (int : n < 2 ^ 31) :
    (responseHead code n).flatten.length = (statusText code).length + 82 + (decimal n).length := by
  have literals : (text "\ncontent-length: ").length = 17 ∧ (text "\n").length = 1 ∧
      (text "content-type: text/plain\n").length = 25 ∧ (text "server: topkek-0.1\n").length = 19 ∧
      (text "connection: close\n").length = 18 ∧ (text "\r\n").length = 2 := by decide +kernel
  have positive : (0 : Int) < n := by omega
  rw [responseHead, if_pos positive, closing_whole n int]
  simp only [List.cons_append, List.nil_append, List.flatten_cons, List.flatten_nil,
    List.length_append, List.length_nil]
  omega

/-- Headers and body fit an `int` exactly when this sum does: the length of the longest
bodies has ten digits, and with fewer the sum is far from the range. -/
theorem head_fits_iff (code : Int) (n : Nat) (some_body : 0 < n) (int : n < 2 ^ 31) :
    (responseHead code n).flatten.length + n < 2 ^ 31 ↔
      n + (statusText code).length + 92 < 2 ^ 31 := by
  have status := length_status_le code
  have digits := length_decimal_le n 10 (by decide) (by omega)
  rw [length_head code n some_body int]
  by_cases long : n < 10 ^ 9
  · omega
  · have many : ¬ (decimal n).length ≤ 9 := by
      rw [decimal, List.length_map]
      exact fun few => long ((Nat.length_toDigits_le_iff (by decide) (by decide)).mp few)
    omega

theorem head_strings_short (code : Int) (n : Nat) :
    ∀ c ∈ responseHead code n, c.length + 1 < 2 ^ 31 := by
  have status := length_status_le code
  have line : (closing n).length ≤ 63 := List.length_take_le _ _
  have literals : ∀ c ∈ [text "content-type: text/plain\n", text "server: topkek-0.1\n",
      text "connection: close\n", text "\r\n"], c.length + 1 < 2 ^ 31 := by decide +kernel
  simp only [List.forall_mem_cons] at literals
  rw [responseHead, List.forall_mem_append, List.forall_mem_cons]
  refine ⟨⟨by omega, ?_⟩, by simpa using literals.2.2.2.1⟩
  split
  · simp only [List.forall_mem_cons]
    exact ⟨by omega, literals.1, literals.2.1, literals.2.2.1, by simp⟩
  · simp

theorem response_built (unset : Unset) (b body : Buffer) (code : Int) (content : List UInt8)
    (empty : b.cursor = 0) (holds : Holds body content) :
    (∀ out, responseMessage unset b body code = some out →
      (responseHead code content.length).flatten.length + content.length < 2 ^ 31) ∧
      ((responseHead code content.length).flatten.length + content.length < 2 ^ 31 →
        ∃ out, responseMessage unset b body code = some out ∧
          Holds out ((responseHead code content.length).flatten ++ content)) := by
  obtain ⟨next, appended, head⟩ := append_strings_holds unset (empty_holds empty)
    (responseHead code content.length) (head_strings_short code content.length)
  rw [List.nil_append] at head
  have built : responseMessage unset b body code = bufferAppendToBuffer unset next body := by
    rw [responseMessage, holds.cursor, appended, Option.bind_some]
  rw [built]
  constructor
  · intro out moved
    have fits := append_buffer_int moved
    rw [head.cursor, holds.cursor] at fits
    omega
  · exact append_buffer_holds unset head holds

/-- The response is one status line, headers, an empty line and the body exactly for the
bodies that are not empty and fit an `int` together with their headers. -/
theorem response_framed_iff (unset : Unset) (b body : Buffer) (code : Int) (content : List UInt8)
    (empty : b.cursor = 0) (holds : Holds body content) (int : content.length < 2 ^ 31) :
    (∃ out message, responseMessage unset b body code = some out ∧ Holds out message ∧
        Framed content message) ↔
      content ≠ [] ∧ content.length + (statusText code).length + 92 < 2 ^ 31 := by
  obtain ⟨bounded, built⟩ := response_built unset b body code content empty holds
  constructor
  · rintro ⟨out, message, returned, whole, framed⟩
    have fits := bounded out returned
    obtain ⟨same, again, joined⟩ := built fits
    cases returned.symm.trans again
    rw [holds_unique whole joined] at framed
    have some_body : content ≠ [] := by
      rintro rfl
      exact not_framed_empty code framed
    exact ⟨some_body, (head_fits_iff code _ (List.length_pos_iff.mpr some_body) int).mp fits⟩
  · rintro ⟨some_body, fits⟩
    obtain ⟨out, returned, whole⟩ :=
      built ((head_fits_iff code _ (List.length_pos_iff.mpr some_body) int).mpr fits)
    exact ⟨out, _, returned, whole, framed_with_body code content some_body int⟩

def oneByte : Buffer := ⟨ascii ['x'], 1⟩

theorem response_framed_iff_one :
    (∃ out message, responseMessage (fun _ _ => 0) mkBuffer oneByte 200 = some out ∧
        Holds out message ∧ Framed (ascii ['x']) message) ↔
      ascii ['x'] ≠ [] ∧ (ascii ['x']).length + (statusText 200).length + 92 < 2 ^ 31 :=
  response_framed_iff (fun _ _ => 0) mkBuffer oneByte 200 (ascii ['x']) rfl
    ⟨rfl, List.prefix_refl _⟩ (by decide)

/-- An empty body is answered with a status line that nothing closes. -/
theorem empty_body_not_framed :
    ¬ ∀ (unset : Unset) (b body : Buffer) (code : Int) (content : List UInt8), b.cursor = 0 →
      Holds body content → content.length < 2 ^ 31 →
        ∃ out message, responseMessage unset b body code = some out ∧ Holds out message ∧
          Framed content message := by
  intro claimed
  obtain ⟨out, message, built, whole, framed⟩ :=
    claimed (fun _ _ => 0) mkBuffer mkBuffer 200 [] rfl mk_holds (by decide)
  obtain ⟨same, again, joined⟩ :=
    (response_built (fun _ _ => 0) mkBuffer mkBuffer 200 [] rfl mk_holds).2 (by decide +kernel)
  cases built.symm.trans again
  rw [holds_unique whole joined] at framed
  exact not_framed_empty 200 framed

/-! ## The loop that writes it -/

inductive WriteResult where
  | failed
  | wrote (n : Nat)
  deriving DecidableEq

/-- The locals of the loop. `socket` is history, the bytes the socket has accepted, and so
is `results`, what the calls of `write` have returned, the latest first. -/
structure Sending where
  written : Int
  maxTry : Nat
  shared : Shared
  returned : Option Int
  socket : List UInt8
  results : List WriteResult

def asked (b : Buffer) (s : Sending) : Int := b.cursor - s.written

/-- `write` returns -1 or a count between 1 and the number of bytes it was asked for. -/
def Allowed (b : Buffer) (s : Sending) : WriteResult → Prop
  | .failed => True
  | .wrote n => 1 ≤ n ∧ (n : Int) ≤ asked b s

/-- The end of the loop's body, with `ret` as the failure branch leaves it. -/
def advance (b : Buffer) (response : Nat) (s : Sending) (ret : Nat) : Sending :=
  let s := { s with
    written := s.written + ret
    socket := s.socket ++ (b.p.drop s.written.toNat).take ret }
  if s.written < b.cursor then s
  else { s with shared := bufferPoolJoinBuffer response s.shared, returned := some s.written }

/-- One round of the loop; nothing happens after the return. -/
def sendStep (b : Buffer) (response : Nat) (s : Sending) (result : WriteResult) : Sending :=
  match s.returned with
  | some _ => s
  | none =>
      let s := { s with results := result :: s.results }
      match result with
      | .failed =>
          let s := { s with maxTry := s.maxTry - 1 }
          if s.maxTry = 0 then
            { s with shared := bufferPoolJoinBuffer response s.shared, returned := some (-1) }
          else advance b response s 0
      | .wrote n => advance b response s n

def sending (b : Buffer) (response : Nat) (shared : Shared) (results : Nat → WriteResult) :
    Nat → Sending
  | 0 => ⟨0, 5, shared, none, [], []⟩
  | n + 1 => sendStep b response (sending b response shared results n) (results n)

def failures (s : Sending) : Nat := s.results.count .failed

structure Progress (message : List UInt8) (response : Nat) (shared : Shared) (s : Sending) :
    Prop where
  accepted : s.socket = message.take s.written.toNat
  range : 0 ≤ s.written ∧ s.written ≤ message.length
  tries : s.maxTry + failures s = 5
  calls : (s.results.length : Int) ≤ s.written + failures s
  running : s.returned = none →
    s.written < message.length ∧ failures s < 5 ∧ s.shared = shared
  ended : ∀ r, s.returned = some r → s.shared = bufferPoolJoinBuffer response shared ∧
    ((r = message.length ∧ s.written = message.length ∧ failures s < 5) ∨
      (r = -1 ∧ s.written < message.length ∧ failures s = 5))

section Loop
variable {b : Buffer} {message : List UInt8} {response : Nat} {shared : Shared}

theorem start_progress (positive : message ≠ []) :
    Progress message response shared ⟨0, 5, shared, none, [], []⟩ where
  accepted := rfl
  range := ⟨le_rfl, Int.natCast_nonneg _⟩
  tries := rfl
  calls := le_rfl
  running := fun _ => ⟨Int.natCast_pos.mpr (List.length_pos_iff.mpr positive), Nat.succ_pos 4, rfl⟩
  ended := by
    intro r ended
    contradiction

theorem advance_progress (holds : Holds b message) (s : Sending) (ret : Nat)
    (accepted : s.socket = message.take s.written.toNat) (low : 0 ≤ s.written)
    (fits : s.written + ret ≤ message.length) (tries : s.maxTry + failures s = 5)
    (left : failures s < 5) (calls : (s.results.length : Int) ≤ s.written + ret + failures s)
    (kept : s.shared = shared) (open_ : s.returned = none) :
    Progress message response shared (advance b response s ret) := by
  have sent : s.socket ++ (b.p.drop s.written.toNat).take ret =
      message.take (s.written + ret).toNat := by
    obtain ⟨rest, shape⟩ := holds.stored
    have total : (s.written + ret).toNat = s.written.toNat + ret := by omega
    rw [accepted, ← shape, List.drop_append_of_le_length (by omega),
      List.take_append_of_le_length (by rw [List.length_drop]; omega), total, List.take_add]
  have told := holds.cursor
  simp only [advance]
  split
  · next more =>
      exact {
        accepted := sent
        range := ⟨by simp only; omega, fits⟩
        tries := tries
        calls := calls
        running := fun _ => ⟨by simp only at more ⊢; omega, left, kept⟩
        ended := by
          intro r ended
          rw [open_] at ended
          contradiction }
  · next whole =>
      have reached : s.written + ret = message.length := by omega
      exact {
        accepted := sent
        range := ⟨by simp only; omega, fits⟩
        tries := tries
        calls := calls
        running := by
          intro running
          contradiction
        ended := by
          rintro r ⟨⟩
          exact ⟨by simp only [kept], Or.inl ⟨reached, reached, left⟩⟩ }

theorem step_progress (holds : Holds b message) {s : Sending} {result : WriteResult}
    (progress : Progress message response shared s)
    (allowed : s.returned = none → Allowed b s result) :
    Progress message response shared (sendStep b response s result) := by
  cases open_ : s.returned with
  | some r =>
      have same : sendStep b response s result = s := by rw [sendStep, open_]
      rwa [same]
  | none =>
      obtain ⟨more, left, kept⟩ := progress.running open_
      have tries := progress.tries
      have calls := progress.calls
      have low := progress.range.1
      have allowed := allowed open_
      cases result with
      | failed =>
          have count : failures { s with results := .failed :: s.results } = failures s + 1 := by
            simp [failures]
          by_cases last : s.maxTry - 1 = 0
          · have same : sendStep b response s .failed =
                { s with
                  results := .failed :: s.results, maxTry := s.maxTry - 1,
                  shared := bufferPoolJoinBuffer response s.shared, returned := some (-1) } := by
              simp [sendStep, open_, last]
            rw [same]
            simp only [failures] at count tries calls left
            refine ⟨progress.accepted, progress.range, ?_, ?_, ?_, ?_⟩
            · simp only [failures, count]
              omega
            · simp only [failures, count, List.length_cons]
              omega
            · intro running
              contradiction
            · rintro r ⟨⟩
              refine ⟨by simp only [kept], Or.inr ⟨rfl, more, ?_⟩⟩
              simp only [failures, count]
              omega
          · have same : sendStep b response s .failed =
                advance b response { s with
                  results := .failed :: s.results, maxTry := s.maxTry - 1 } 0 := by
              simp [sendStep, open_, last]
            rw [same]
            simp only [failures] at count tries calls left
            apply advance_progress holds { s with
              results := .failed :: s.results, maxTry := s.maxTry - 1 } 0 progress.accepted low
            · simp only
              omega
            · simp only [failures, count]
              omega
            · simp only [failures, count]
              omega
            · simp only [failures, count, List.length_cons]
              omega
            · exact kept
            · exact open_
      | wrote n =>
          obtain ⟨some_bytes, fits⟩ := allowed
          have told := holds.cursor
          rw [asked] at fits
          have count : failures { s with results := .wrote n :: s.results } = failures s := by
            simp [failures]
          have same : sendStep b response s (.wrote n) =
              advance b response { s with results := .wrote n :: s.results } n := by
            simp [sendStep, open_]
          rw [same]
          simp only [failures] at count tries calls left
          apply advance_progress holds { s with results := .wrote n :: s.results } n
            progress.accepted low
          · simp only
            omega
          · simp only [failures, count]
            omega
          · simp only [failures, count]
            omega
          · simp only [failures, count, List.length_cons]
            omega
          · exact kept
          · exact open_

theorem sending_progress (holds : Holds b message) (positive : message ≠ [])
    (results : Nat → WriteResult)
    (allowed : ∀ n, (sending b response shared results n).returned = none →
      Allowed b (sending b response shared results n) (results n)) (n : Nat) :
    Progress message response shared (sending b response shared results n) := by
  induction n with
  | zero => exact start_progress positive
  | succ n ih => exact step_progress holds ih (allowed n)

theorem results_used (results : Nat → WriteResult) (n : Nat) :
    ∃ k ≤ n, (sending b response shared results n).results = ((List.range k).map results).reverse ∧
      ((sending b response shared results n).returned = none → k = n) := by
  induction n with
  | zero => exact ⟨0, le_rfl, rfl, fun _ => rfl⟩
  | succ n ih =>
      obtain ⟨k, within, used, all⟩ := ih
      rw [sending]
      cases open_ : (sending b response shared results n).returned with
      | some r =>
          refine ⟨k, by omega, ?_, ?_⟩
          · rw [sendStep, open_, used]
          · intro running
            rw [sendStep, open_] at running
            simp [open_] at running
      | none =>
          have whole := all open_
          subst whole
          refine ⟨k + 1, le_rfl, ?_, fun _ => rfl⟩
          rw [List.range_succ, List.map_append, List.reverse_append, ← used]
          cases result : results k with
          | failed =>
              by_cases last : (sending b response shared results k).maxTry - 1 = 0
              · simp [sendStep, open_, last, result]
              · simp only [sendStep, open_, last, if_false, advance]
                split <;> simp [result]
          | wrote m =>
              simp only [sendStep, open_, advance]
              split <;> simp [result]

end Loop

/-- The socket holds the start of the message; the buffer is held until the return and
joined then, once; the return tells whether everything was sent before the fifth failure. -/
structure Sent (message : List UInt8) (response : Nat) (shared : Shared) (s : Sending) : Prop where
  sent : s.socket <+: message
  running : s.returned = none → s.shared = shared ∧ s.socket ≠ message ∧ failures s < 5
  ended : ∀ r, s.returned = some r →
    (r = message.length ∧ s.socket = message ∧ failures s < 5) ∨
      (r = -1 ∧ s.socket ≠ message ∧ failures s = 5)
  joined : s.returned.isSome = true →
    giveBack response shared.buffers = some s.shared.buffers ∧
      s.shared.joins = (.buffer response, true) :: shared.joins ∧
      s.shared.aborted = shared.aborted

theorem progress_sent {message : List UInt8} {response : Nat} {shared : Shared} {s : Sending}
    (formed : WellFormed bufferAmp maxBuffers shared.buffers)
    (held : busy shared.buffers response = true) (progress : Progress message response shared s) :
    Sent message response shared s := by
  have low := progress.range.1
  have short : s.written < message.length → s.socket ≠ message := by
    intro more same
    have length := congrArg List.length same
    rw [progress.accepted, List.length_take] at length
    omega
  refine ⟨progress.accepted ▸ List.take_prefix _ _, ?_, ?_, ?_⟩
  · intro running
    obtain ⟨more, left, kept⟩ := progress.running running
    exact ⟨kept, short more, left⟩
  · intro r ended
    rcases (progress.ended r ended).2 with ⟨told, whole, left⟩ | ⟨told, more, all⟩
    · refine Or.inl ⟨told, ?_, left⟩
      rw [progress.accepted, List.take_of_length_le (by omega)]
    · exact Or.inr ⟨told, short more, all⟩
  · intro returned
    obtain ⟨r, ended⟩ := Option.isSome_iff_exists.mp returned
    obtain ⟨next, given, -⟩ := give_back_spec formed held
    rw [(progress.ended r ended).1, bufferPoolJoinBuffer, given]
    exact ⟨rfl, by rw [held], rfl⟩

/-- For every sequence of results of `write` the loop returns, after no more calls than the
message has bytes and four, and at every moment it has sent the start of the message. -/
theorem send_loop_delivers (b : Buffer) (message : List UInt8) (response : Nat) (shared : Shared)
    (results : Nat → WriteResult) (holds : Holds b message) (positive : message ≠ [])
    (formed : WellFormed bufferAmp maxBuffers shared.buffers)
    (held : busy shared.buffers response = true)
    (allowed : ∀ n, (sending b response shared results n).returned = none →
      Allowed b (sending b response shared results n) (results n)) :
    (∃ n ≤ message.length + 4, (sending b response shared results n).returned.isSome = true) ∧
      ∀ n, Sent message response shared (sending b response shared results n) ∧
        ∃ k ≤ n, (sending b response shared results n).results =
          ((List.range k).map results).reverse := by
  constructor
  · refine ⟨message.length + 4, le_rfl, ?_⟩
    rw [Option.isSome_iff_ne_none]
    intro running
    have progress := sending_progress holds positive results allowed (message.length + 4)
    obtain ⟨more, left, -⟩ := progress.running running
    obtain ⟨k, -, used, all⟩ := results_used results (message.length + 4)
    have calls := progress.calls
    rw [used, List.length_reverse, List.length_map, List.length_range, all running] at calls
    omega
  · intro n
    obtain ⟨k, within, used, -⟩ := results_used results n
    exact ⟨progress_sent formed held (sending_progress holds positive results allowed n),
      k, within, used⟩

/-- A pool of four buffers, of which the response has the last. -/
def sampleShared : Shared := (bufferPoolGetBuffer start.shared).elim start.shared Prod.snd

def threeBytes : Buffer := ⟨ascii ['a', 'b', 'c'], 3⟩

/-- A socket that takes two bytes, then none and then the last one. -/
def sampleResults : Nat → WriteResult
  | 0 => .wrote 2
  | 1 => .failed
  | _ => .wrote 1

theorem send_loop_delivers_third :
    (∃ n ≤ 3 + 4, (sending threeBytes 3 sampleShared sampleResults n).returned.isSome = true) ∧
      ∀ n, Sent (ascii ['a', 'b', 'c']) 3 sampleShared
        (sending threeBytes 3 sampleShared sampleResults n) := by
  have formed : WellFormed bufferAmp maxBuffers sampleShared.buffers :=
    ⟨by decide, by decide, by decide, by decide, by decide, by decide⟩
  have third : (sending threeBytes 3 sampleShared sampleResults 3).returned = some 3 := by
    decide +kernel
  have later : ∀ n, (sending threeBytes 3 sampleShared sampleResults (n + 3)).returned = some 3 := by
    intro n
    induction n with
    | zero => exact third
    | succ n ih => rw [sending, sendStep, ih]; exact ih
  have delivered := send_loop_delivers threeBytes (ascii ['a', 'b', 'c']) 3 sampleShared
    sampleResults ⟨rfl, List.prefix_refl _⟩ (by decide) formed (by decide) (by
      rintro (_ | _ | _ | n) running
      · exact ⟨by decide, by decide⟩
      · trivial
      · exact ⟨by decide, by decide⟩
      · rw [later n] at running
        contradiction)
  exact ⟨delivered.1, fun n => (delivered.2 n).1⟩

end Ttracker.HttpResponses
