import Ttracker.RequestCopies

/-!
A query as a client writes it, `key=value` pieces joined by `&`, against the list
`http_parse_query` leaves. The copy loops read up to the line end, so the last
value is read together with the NUL and the version behind it.
-/
namespace Ttracker.QueryReadings
open CLibrary HttpQuery PeerRequest RequestCopies

/-! ## Written queries -/

/-- Characters that end neither the line nor the query. -/
def Plain (c : UInt8) : Prop := c ≠ 0 ∧ c ≠ 10 ∧ c ≠ 13 ∧ c ≠ 32

instance (c : UInt8) : Decidable (Plain c) := inferInstanceAs (Decidable (_ ∧ _))

structure WellFormed (piece : List UInt8 × List UInt8) : Prop where
  named : piece.1 ≠ []
  key : ∀ c ∈ piece.1, Plain c ∧ c ≠ 61 ∧ c ≠ 38
  value : ∀ c ∈ piece.2, Plain c ∧ c ≠ 38

instance (piece : List UInt8 × List UInt8) : Decidable (WellFormed piece) :=
  decidable_of_iff (piece.1 ≠ [] ∧ piece.1.all (fun c => decide (Plain c ∧ c ≠ 61 ∧ c ≠ 38)) = true ∧
      piece.2.all (fun c => decide (Plain c ∧ c ≠ 38)) = true) (by
    simp only [List.all_eq_true, decide_eq_true_eq]
    exact ⟨fun ⟨named, key, value⟩ => ⟨named, key, value⟩, fun formed =>
      ⟨formed.named, formed.key, formed.value⟩⟩)

def requestTarget : JobType → List UInt8
  | .announce => getAnnounce ++ ascii ['?']
  | .scrape => getScrape ++ ascii ['?']
  | .stop => []

def requestLine (jobT : JobType) (ps : Pieces) (version : List UInt8) : List UInt8 :=
  requestTarget jobT ++ queryOf ps ++ ascii [' '] ++ version ++ [13, 10]

/-- What is between the query and the line feed once the NUL is planted. -/
def behindQuery (version : List UInt8) : List UInt8 := 0 :: version ++ [13]

theorem query_single (piece : List UInt8 × List UInt8) :
    queryOf [piece] = piece.1 ++ 61 :: piece.2 := by
  simp [queryOf, ascii]

theorem query_cons (piece : List UInt8 × List UInt8) (ps : Pieces) (more : ps ≠ []) :
    queryOf (piece :: ps) = piece.1 ++ 61 :: (piece.2 ++ 38 :: queryOf ps) := by
  cases ps with
  | nil => contradiction
  | cons next rest => simp [queryOf, ascii]

theorem query_plain (ps : Pieces) (formed : ∀ piece ∈ ps, WellFormed piece) :
    ∀ c ∈ queryOf ps, Plain c := by
  induction ps with
  | nil => simp [queryOf]
  | cons piece rest ih =>
      rw [List.forall_mem_cons] at formed
      have later := ih formed.2
      have key := fun c member => (formed.1.key c member).1
      have value := fun c member => (formed.1.value c member).1
      have equals : Plain 61 := by decide
      have ampersand : Plain 38 := by decide
      by_cases more : rest = []
      · rw [more, query_single]
        simp only [List.mem_append, List.mem_cons]
        rintro c (inKey | rfl | inValue)
        · exact key c inKey
        · exact equals
        · exact value c inValue
      · rw [query_cons piece rest more]
        simp only [List.mem_append, List.mem_cons]
        rintro c (inKey | rfl | inValue | rfl | inRest)
        · exact key c inKey
        · exact equals
        · exact value c inValue
        · exact ampersand
        · exact later c inRest

/-! ## The reading -/

/-- A piece with another behind it is read whole. -/
theorem pieces_step (key value rest : List UInt8) (named : key ≠ [])
    (keyChars : ∀ c ∈ key, c ≠ 61) (valueChars : ∀ c ∈ value, c ≠ 38)
    (keyFits : key.length ≤ httpMaxKeyLen - 1) (valueFits : value.length ≤ httpMaxValLen - 1) :
    pieces (key ++ 61 :: (value ++ 38 :: rest)) = (key, value) :: pieces rest := by
  obtain ⟨c, tail, rfl⟩ := List.exists_cons_of_ne_nil named
  have readKey : ((c :: tail) ++ 61 :: (value ++ 38 :: rest)).takeWhile (· != 61) = c :: tail :=
    take_while_stops _ _ _ _ (by simpa using keyChars) (by decide)
  have readValue : (value ++ 38 :: rest).takeWhile (· != 38) = value :=
    take_while_stops _ _ _ _ (by simpa using valueChars) (by decide)
  have afterKey : ((c :: tail) ++ 61 :: (value ++ 38 :: rest)).drop ((c :: tail).length + 1) =
      value ++ 38 :: rest := by
    rw [List.drop_append, List.drop_of_length_le (by omega)]
    simp
  have afterValue : (value ++ 38 :: rest).drop (value.length + 1) = rest := by
    rw [List.drop_append, List.drop_of_length_le (by omega)]
    simp
  rw [List.cons_append, pieces, ← List.cons_append, readKey, List.take_of_length_le keyFits,
    afterKey, readValue, List.take_of_length_le valueFits, afterValue]

/-- The last piece is read up to the capacity, and one more character is dropped. -/
theorem pieces_last (key value : List UInt8) (named : key ≠ []) (keyChars : ∀ c ∈ key, c ≠ 61)
    (valueChars : ∀ c ∈ value, c ≠ 38) (keyFits : key.length ≤ httpMaxKeyLen - 1) :
    pieces (key ++ 61 :: value) =
      (key, value.take (httpMaxValLen - 1)) :: pieces (value.drop httpMaxValLen) := by
  obtain ⟨c, tail, rfl⟩ := List.exists_cons_of_ne_nil named
  have readKey : ((c :: tail) ++ 61 :: value).takeWhile (· != 61) = c :: tail :=
    take_while_stops _ _ _ _ (by simpa using keyChars) (by decide)
  have readValue : value.takeWhile (· != 38) = value :=
    List.takeWhile_eq_self_iff.mpr (by simpa using valueChars)
  have afterKey : ((c :: tail) ++ 61 :: value).drop ((c :: tail).length + 1) = value := by
    rw [List.drop_append, List.drop_of_length_le (by omega)]
    simp
  have afterValue : value.drop ((value.take (httpMaxValLen - 1)).length + 1) =
      value.drop httpMaxValLen := by
    rw [List.length_take]
    by_cases short : value.length ≤ httpMaxValLen - 1
    · rw [List.drop_of_length_le (by omega), List.drop_of_length_le (by omega)]
    · congr 1
      simp only [httpMaxValLen] at short ⊢
      omega
  rw [List.cons_append, pieces, ← List.cons_append, readKey, List.take_of_length_le keyFits,
    afterKey, readValue, afterValue]

/-- Keys and values are within their arrays. -/
def Within (ps : Pieces) : Prop :=
  ∀ piece ∈ ps, piece.1.length ≤ httpMaxKeyLen - 1 ∧ piece.2.length ≤ httpMaxValLen - 1

theorem reading_of_written (front : Pieces) (last : List UInt8 × List UInt8) (tail : List UInt8)
    (formed : ∀ piece ∈ front ++ [last], WellFormed piece) (within : Within (front ++ [last]))
    (tailChars : (38 : UInt8) ∉ tail) :
    pieces (queryOf (front ++ [last]) ++ tail) =
      front ++ (last.1, (last.2 ++ tail).take (httpMaxValLen - 1)) ::
        pieces ((last.2 ++ tail).drop httpMaxValLen) := by
  induction front with
  | nil =>
      have here := formed last (by simp)
      rw [List.nil_append, query_single, List.append_assoc, List.cons_append,
        pieces_last _ _ here.named (fun c member => (here.key c member).2.1) _
          (within last (by simp)).1, List.nil_append]
      intro c member
      rcases List.mem_append.mp member with inValue | inTail
      · exact (here.value c inValue).2
      · rintro rfl
        exact tailChars inTail
  | cons piece rest ih =>
      have here := formed piece (by simp)
      have fits := within piece (by simp)
      have later := ih (fun other member => formed other (List.mem_cons_of_mem _ member))
        (fun other member => within other (List.mem_cons_of_mem _ member))
      rw [List.cons_append, query_cons _ _ (by simp), List.append_assoc, List.cons_append,
        List.append_assoc, List.cons_append, pieces_step _ _ _ here.named
          (fun c member => (here.key c member).2.1) (fun c member => (here.value c member).2)
          fits.1 fits.2, later, List.cons_append]

/-! ## The request line -/

theorem line_end_reaches (front rest : List UInt8) (plain : (10 : UInt8) ∉ front)
    (left i : Nat) (behind : i ≤ front.length + 1) (enough : front.length + 1 < i + left) :
    lineEnd (front ++ 13 :: 10 :: rest) left i = some (front.length + 1) := by
  induction left generalizing i with
  | zero => omega
  | succ left ih =>
      have feed : readAt (front ++ 13 :: 10 :: rest) ((front.length + 1 : Nat) : Int) = some 10 := by
        rw [readAt, if_neg (by omega)]
        simp
      have back : readAt (front ++ 13 :: 10 :: rest) ((front.length : Nat) : Int) = some 13 := by
        simp [readAt]
      by_cases here : i = front.length + 1
      · subst here
        have previous : ((front.length + 1 : Nat) : Int) - 1 = (front.length : Nat) := by omega
        rw [lineEnd, feed, Option.bind_some, if_pos rfl, previous, back]
        simp
      · obtain ⟨c, read, other⟩ : ∃ c, readAt (front ++ 13 :: 10 :: rest) i = some c ∧ c ≠ 10 := by
          by_cases last : i = front.length
          · exact ⟨13, last ▸ back, by decide⟩
          · have inside : i < front.length := by omega
            refine ⟨front[i], ?_, fun feed => plain (feed ▸ List.getElem_mem inside)⟩
            simp [readAt, List.getElem?_append_left inside]
        rw [lineEnd, read, Option.bind_some, if_neg other]
        exact ih (i + 1) (by omega) (by omega)

def reading (ps : Pieces) (version : List UInt8) : Pieces :=
  pieces (queryOf ps ++ behindQuery version)

/-- The checks of `http_parse_query` on the pieces it read: an empty key, too few
matches of required keys, or a key other than `info_hash`. -/
def Refused (jobT : JobType) (ps : Pieces) : Prop :=
  (∃ piece ∈ ps, piece.1 = []) ∨
    match jobT with
    | .announce => requiredMatches ps < httpMaxKeys
    | .scrape => ∃ piece ∈ ps, cstr piece.1 ≠ infoHashKey
    | .stop => True

theorem read_off_refused (ps : Pieces) (before : List HttpUriKv) (piece : List UInt8 × List UInt8)
    (member : piece ∈ ps) (empty : piece.1 = []) : (readOff ps before).1 = false := by
  induction ps generalizing before with
  | nil => contradiction
  | cons first rest ih =>
      rw [readOff]
      split
      · rfl
      · next named =>
          rcases List.mem_cons.mp member with rfl | later
          · exact absurd (List.length_eq_zero_iff.mpr empty) named
          · exact ih _ later

theorem read_off_whole (ps : Pieces) (before : List HttpUriKv)
    (named : ∀ piece ∈ ps, piece.1 ≠ []) : readOff ps before = (true, listOf ps ++ before) := by
  induction ps generalizing before with
  | nil => rfl
  | cons first rest ih =>
      rw [List.forall_mem_cons] at named
      rw [readOff, if_neg (by simpa using named.1), ih _ named.2]
      simp [listOf]

theorem judge_reads (jobT : JobType) (input : Buffer) (text : List UInt8)
    (named : ∀ piece ∈ pieces text, piece.1 ≠ []) :
    ((judge jobT input (listOf (pieces text))).ret = -1 ∧ Refused jobT (pieces text)) ∨
      ((judge jobT input (listOf (pieces text))).ret = 0 ∧ ¬ Refused jobT (pieces text)) := by
  have none : ¬ ∃ piece ∈ pieces text, piece.1 = [] := by
    rintro ⟨piece, member, empty⟩
    exact named piece member empty
  cases jobT with
  | announce =>
      simp only [Refused, none, false_or, judge, count_matches_reads]
      split
      · next few => exact Or.inl ⟨rfl, few⟩
      · next enough => exact Or.inr ⟨rfl, enough⟩
  | scrape =>
      have same : ((listOf (pieces text)).any fun np => np.key.bytes != infoHashKey) = true ↔
          ∃ piece ∈ pieces text, cstr piece.1 ≠ infoHashKey := by
        rw [listOf, List.any_reverse, List.any_map, List.any_eq_true]
        apply exists_congr
        intro piece
        apply and_congr_right
        intro member
        simp [(mk_kv_piece text piece member).1]
      simp only [Refused, none, false_or, judge, ← same]
      split
      · next other => exact Or.inl ⟨rfl, other⟩
      · next all => exact Or.inr ⟨rfl, all⟩
  | stop => exact Or.inl ⟨rfl, Or.inr trivial⟩

theorem line_plain (jobT : JobType) (ps : Pieces) (version : List UInt8)
    (formed : ∀ piece ∈ ps, WellFormed piece) (known : version = http11 ∨ version = http10) :
    (10 : UInt8) ∉ requestTarget jobT ++ queryOf ps ++ 32 :: version := by
  have target : (10 : UInt8) ∉ requestTarget jobT := by cases jobT <;> decide
  have versions : (10 : UInt8) ∉ version := by rcases known with rfl | rfl <;> decide
  simp only [List.mem_append, List.mem_cons]
  rintro ((inTarget | inQuery) | blank | inVersion)
  · exact target inTarget
  · exact (query_plain ps formed 10 inQuery).2.1 rfl
  · exact absurd blank (by decide)
  · exact versions inVersion

/-- The loop of pairs works on the query and the ten bytes behind it. -/
theorem cut_line (front version rest : List UInt8) (eight : version.length = 8) :
    ((front ++ 32 :: version ++ 13 :: 10 :: rest).set front.length 0).take (front.length + 10) =
      front ++ behindQuery version := by
  have planted : (front ++ 32 :: version ++ 13 :: 10 :: rest).set front.length 0 =
      (front ++ behindQuery version) ++ 10 :: rest := by
    simp [behindQuery]
  have size : (front ++ behindQuery version).length = front.length + 10 := by
    simp [behindQuery, eight]
  rw [planted, ← size, List.take_left]

theorem version_read (front version rest : List UInt8) (eight : version.length = 8) :
    readSpan (front ++ 32 :: version ++ 13 :: 10 :: rest) (front.length + 1) 8 = some version := by
  have split : front ++ 32 :: version ++ 13 :: 10 :: rest =
      (front ++ [32]) ++ (version ++ 13 :: 10 :: rest) := by simp
  have start : front.length + 1 = (front ++ [32]).length := by simp
  rw [readSpan, if_pos (by simp [eight]; omega), split, start, List.drop_left, ← eight,
    List.take_left]

/-- Up to its last line end a request is a target, a query and a version. -/
theorem parse_line (jobT : JobType) (target query version rest : List UInt8) (cursor : Nat)
    (offset : startOffset jobT = some target.length) (some_target : target ≠ [])
    (plain : (10 : UInt8) ∉ target ++ query ++ 32 :: version)
    (known : version = http11 ∨ version = http10)
    (whole : target.length + query.length + 10 < cursor) :
    ∃ cut, httpParseQuery ⟨target ++ query ++ 32 :: version ++ 13 :: 10 :: rest, cursor⟩ jobT =
      some (if (readOff (pieces (query ++ behindQuery version)) []).1 then
          judge jobT cut (readOff (pieces (query ++ behindQuery version)) []).2
        else ⟨-1, cut, (readOff (pieces (query ++ behindQuery version)) []).2,
          (readOff (pieces (query ++ behindQuery version)) []).2⟩) := by
  obtain ⟨front, isFront⟩ : ∃ front, front = target ++ query := ⟨_, rfl⟩
  have length : front.length = target.length + query.length := by rw [isFront, List.length_append]
  have positive := List.length_pos_iff.mpr some_target
  have eight : version.length = 8 := by rcases known with rfl | rfl <;> rfl
  have versions : ¬ (version ≠ http11 ∧ version ≠ http10) := by
    rcases known with rfl | rfl <;> simp
  rw [← isFront] at plain ⊢
  have size : (front ++ 32 :: version).length + 1 = front.length + 10 := by simp [eight]
  have line := line_end_reaches (front ++ 32 :: version) rest plain cursor 0 (by omega) (by omega)
  rw [size] at line
  have text : (((front ++ 32 :: version ++ 13 :: 10 :: rest).set front.length 0).take
      (front.length + 10)).drop target.length = query ++ behindQuery version := by
    rw [cut_line front version rest eight, isFront, List.append_assoc, List.drop_left]
  have pairs := parse_pairs_reads ((front ++ 32 :: version ++ 13 :: 10 :: rest).set front.length 0)
    (front.length + 10) (by simp [eight]; omega) (front.length + 10) target.length (by omega) []
  rw [text] at pairs
  refine ⟨⟨(front ++ 32 :: version ++ 13 :: 10 :: rest).set front.length 0, (cursor : Int) - 11⟩, ?_⟩
  have behind : front.length + 10 - 9 = front.length + 1 ∧ front.length + 10 - 10 = front.length := by
    omega
  simp only [httpParseQuery, Int.toNat_natCast, line, Option.bind_some,
    if_neg (by omega : ¬ front.length + 10 = 0), if_neg (by omega : ¬ front.length + 10 < 11),
    behind, version_read front version rest eight, if_neg versions, offset, pairs, Option.map_some]

/-- A well-formed request line is refused or leaves its reading, whatever follows it. -/
theorem parse_written (jobT : JobType) (ps : Pieces) (version rest : List UInt8) (cursor : Nat)
    (served : jobT ≠ .stop) (formed : ∀ piece ∈ ps, WellFormed piece)
    (known : version = http11 ∨ version = http10)
    (whole : (requestLine jobT ps version).length ≤ cursor) :
    ∃ result, httpParseQuery ⟨requestLine jobT ps version ++ rest, cursor⟩ jobT = some result ∧
      ((result.ret = -1 ∧ Refused jobT (reading ps version)) ∨
        (result.ret = 0 ∧ ¬ Refused jobT (reading ps version) ∧
          result.head = listOf (reading ps version))) := by
  have offset : startOffset jobT = some (requestTarget jobT).length := by
    cases jobT with
    | announce => rfl
    | scrape => rfl
    | stop => contradiction
  have some_target : requestTarget jobT ≠ [] := by
    cases jobT with
    | announce => decide
    | scrape => decide
    | stop => contradiction
  have eight : version.length = 8 := by rcases known with rfl | rfl <;> rfl
  have shape : requestLine jobT ps version ++ rest =
      requestTarget jobT ++ queryOf ps ++ 32 :: version ++ 13 :: 10 :: rest := by
    simp [requestLine, ascii]
  have enough : (requestTarget jobT).length + (queryOf ps).length + 10 < cursor := by
    simp only [requestLine, ascii, List.map_cons, List.map_nil, List.length_append,
      List.length_cons, List.length_nil] at whole
    omega
  obtain ⟨cut, parsed⟩ := parse_line jobT (requestTarget jobT) (queryOf ps) version rest cursor
    offset some_target (line_plain jobT ps version formed known) known enough
  rw [shape, parsed]
  refine ⟨_, rfl, ?_⟩
  rw [← reading]
  by_cases named : ∀ piece ∈ reading ps version, piece.1 ≠ []
  · rw [read_off_whole (reading ps version) [] named, List.append_nil]
    simp only [if_true]
    rcases judge_reads jobT cut _ named with refused | ⟨accepted, fine⟩
    · exact Or.inl refused
    · exact Or.inr ⟨accepted, fine, (judge_head _ _ _).1⟩
  · obtain ⟨piece, member, empty⟩ : ∃ piece ∈ reading ps version, piece.1 = [] := by
      simpa using named
    rw [if_neg (by simp [read_off_refused _ [] piece member empty])]
    exact Or.inl ⟨rfl, Or.inl ⟨piece, member, empty⟩⟩

/-! ## When the list is the query -/

def texts (piece : List UInt8 × List UInt8) : List UInt8 × List UInt8 := (cstr piece.1, cstr piece.2)

def entryTexts (np : HttpUriKv) : List UInt8 × List UInt8 := (np.key.bytes, np.val.bytes)

theorem list_texts (text : List UInt8) :
    (listOf (pieces text)).map entryTexts = ((pieces text).map texts).reverse := by
  rw [listOf, List.map_reverse, List.map_map]
  congr 1
  apply List.map_congr_left
  intro piece member
  have bytes := mk_kv_piece text piece member
  simp only [Function.comp_apply, entryTexts, texts, bytes]

/-- Nine characters and the NUL have to fit behind the last value. -/
structure Fits (ps : Pieces) : Prop where
  within : Within ps
  last : ∀ piece ∈ ps.getLast?, piece.2.length ≤ httpMaxValLen - 10

theorem texts_formed {piece : List UInt8 × List UInt8} (formed : WellFormed piece) :
    texts piece = piece := by
  rw [texts, cstr_self _ fun member => (formed.key 0 member).1.1 rfl,
    cstr_self _ fun member => (formed.value 0 member).1.1 rfl]

theorem behind_query (version : List UInt8) (known : version = http11 ∨ version = http10) :
    (38 : UInt8) ∉ behindQuery version ∧ (behindQuery version).length = 10 := by
  rcases known with rfl | rfl <;> decide

theorem reading_fits {ps : Pieces} {version : List UInt8} (some_pieces : ps ≠ [])
    (formed : ∀ piece ∈ ps, WellFormed piece) (known : version = http11 ∨ version = http10)
    (fits : Fits ps) : (reading ps version).map texts = ps := by
  obtain ⟨front, last, rfl⟩ : ∃ front last, ps = front ++ [last] :=
    ⟨_, _, (List.dropLast_concat_getLast some_pieces).symm⟩
  obtain ⟨tailChars, ten⟩ := behind_query version known
  have room := fits.last last (by simp)
  simp only [httpMaxValLen] at room
  have nothing : (last.2 ++ behindQuery version).drop httpMaxValLen = [] := by
    apply List.drop_of_length_le
    rw [List.length_append, ten, httpMaxValLen]
    omega
  have value : cstr ((last.2 ++ behindQuery version).take (httpMaxValLen - 1)) = last.2 := by
    rw [cstr_take, behindQuery, List.cons_append, cstr_append_nul, List.take_of_length_le]
    · simp only [httpMaxValLen]
      omega
    · exact fun member => ((formed last (by simp)).value 0 member).1.1 rfl
  have key : cstr last.1 = last.1 :=
    cstr_self _ fun member => ((formed last (by simp)).key 0 member).1.1 rfl
  have rest : front.map texts = front := by
    rw [List.map_congr_left fun piece member => texts_formed (formed piece (by simp [member]))]
    exact List.map_id' front
  rw [reading, reading_of_written front last _ formed fits.within tailChars, nothing, pieces,
    List.map_append, rest, List.map_singleton, texts, key, value]

theorem pieces_named (text : List UInt8) (some_text : text ≠ []) (chars : ∀ c ∈ text, c ≠ 61)
    (short : text.length ≤ httpMaxKeyLen - 1) : pieces text = [(text, [])] := by
  obtain ⟨c, tail, rfl⟩ := List.exists_cons_of_ne_nil some_text
  have readKey : (c :: tail).takeWhile (· != 61) = c :: tail :=
    List.takeWhile_eq_self_iff.mpr (by simpa using chars)
  have nothing : (c :: tail).drop ((c :: tail).length + 1) = [] :=
    List.drop_of_length_le (by omega)
  rw [pieces, readKey, List.take_of_length_le short, nothing]
  simp [pieces]

theorem behind_chars (version : List UInt8) (known : version = http11 ∨ version = http10) (n : Nat)
    (begun : 0 < n) (left : n < 10) :
    13 ∈ (behindQuery version).drop n ∧ ∀ c ∈ (behindQuery version).drop n, c ≠ 0 ∧ c ≠ 61 := by
  obtain ⟨k, rfl⟩ : ∃ k, n = k + 1 := ⟨n - 1, by omega⟩
  have shown : (behindQuery version).drop (k + 1) = version.drop k ++ [13] := by
    have eight : version.length = 8 := by rcases known with rfl | rfl <;> rfl
    rw [behindQuery, List.cons_append, List.drop_succ_cons, List.drop_append_of_le_length (by omega)]
  have versions : ∀ c ∈ version, c ≠ 0 ∧ c ≠ 61 := by rcases known with rfl | rfl <;> decide +kernel
  rw [shown]
  refine ⟨by simp, fun c member => ?_⟩
  rcases List.mem_append.mp member with inVersion | last
  · exact versions c (List.mem_of_mem_drop inVersion)
  · obtain rfl := List.mem_singleton.mp last
    decide

/-- What does not fit behind the last value is read as one more key. -/
theorem reading_spills {ps : Pieces} {version : List UInt8} (some_pieces : ps ≠ [])
    (formed : ∀ piece ∈ ps, WellFormed piece) (known : version = http11 ∨ version = http10)
    (within : Within ps) (cut : ¬ Fits ps) :
    ∃ extra, 13 ∈ extra ∧ 0 ∉ extra ∧
      (reading ps version).map Prod.fst = ps.map Prod.fst ++ [extra] := by
  obtain ⟨front, last, rfl⟩ : ∃ front last, ps = front ++ [last] :=
    ⟨_, _, (List.dropLast_concat_getLast some_pieces).symm⟩
  obtain ⟨tailChars, ten⟩ := behind_query version known
  have long : httpMaxValLen - 10 < last.2.length := by
    by_contra short
    exact cut ⟨within, by simpa using Nat.le_of_not_lt short⟩
  have short := (within last (by simp)).2
  simp only [httpMaxValLen] at long short
  have spilled : (last.2 ++ behindQuery version).drop httpMaxValLen =
      (behindQuery version).drop (httpMaxValLen - last.2.length) := by
    rw [List.drop_append, List.drop_of_length_le (by simp only [httpMaxValLen]; omega),
      List.nil_append]
  obtain ⟨ends, chars⟩ := behind_chars version known (httpMaxValLen - last.2.length)
    (by simp only [httpMaxValLen]; omega) (by simp only [httpMaxValLen]; omega)
  have named := pieces_named ((behindQuery version).drop (httpMaxValLen - last.2.length))
    (List.ne_nil_of_mem ends) (fun c member => (chars c member).2) (by
      rw [List.length_drop, ten, httpMaxKeyLen]
      omega)
  refine ⟨_, ends, fun nul => (chars 0 nul).1 rfl, ?_⟩
  rw [reading, reading_of_written front last _ formed within tailChars, spilled, named]
  simp

/-- Requests that are to be accepted: every required key once, or hashes only. -/
def MustAccept (jobT : JobType) (ps : Pieces) : Prop :=
  Within ps ∧
    match jobT with
    | .announce => ∀ key ∈ requiredKeys, ps.countP (fun piece => piece.1 == key) = 1
    | .scrape => ∀ piece ∈ ps, piece.1 = infoHashKey
    | .stop => False

theorem must_accept_read {jobT : JobType} {ps read : Pieces} (formed : ∀ piece ∈ ps, WellFormed piece)
    (must : MustAccept jobT ps) (same : read.map texts = ps) : ¬ Refused jobT read := by
  have shown : ∀ piece ∈ read, texts piece ∈ ps := by
    intro piece member
    rw [← same]
    exact List.mem_map_of_mem member
  rintro (⟨piece, member, empty⟩ | refused)
  · have named := (formed _ (shown piece member)).named
    simp [texts, empty, cstr] at named
  · cases jobT with
    | announce =>
        have count : ∀ key ∈ requiredKeys, keyCount key read = 1 := by
          intro key required
          rw [← must.2 key required, ← same, List.countP_map]
          rfl
        have six : requiredMatches read = httpMaxKeys := by
          rw [requiredMatches, List.map_congr_left count]
          rfl
        exact absurd six (Nat.ne_of_lt refused)
    | scrape =>
        obtain ⟨piece, member, other⟩ := refused
        exact other (must.2 (texts piece) (shown piece member))
    | stop => exact must.2

theorem keyed_matches (ps : Pieces) (key : List UInt8) :
    keyCount key ps = (ps.map Prod.fst).countP (fun name => cstr name == key) := by
  rw [keyCount, List.countP_map]
  rfl

theorem spilled_matches {ps read : Pieces} {extra : List UInt8} (ends : 13 ∈ extra)
    (whole : 0 ∉ extra) (keys : read.map Prod.fst = ps.map Prod.fst ++ [extra]) :
    requiredMatches read = requiredMatches ps := by
  rw [requiredMatches, requiredMatches]
  congr 1
  apply List.map_congr_left
  intro key required
  have plain : ∀ key ∈ requiredKeys, (13 : UInt8) ∉ key := by decide
  have other : (cstr extra == key) = false := by
    rw [cstr_self extra whole, beq_eq_false_iff_ne]
    rintro rfl
    exact plain extra required ends
  rw [keyed_matches, keys, keyed_matches, List.countP_append, List.countP_singleton, other]
  rfl

/-- The call refuses, or leaves the pieces of the query in reverse order, and it does
not refuse what it must accept. -/
def ReadsWell (jobT : JobType) (ps : Pieces) (result : QueryResult) : Prop :=
  (result.ret = -1 ∨ result.ret = 0 ∧ result.head.map entryTexts = ps.reverse) ∧
    (MustAccept jobT ps → result.ret = 0)

/-- A query is read well if its pieces fit the arrays, the last value together with
what is read behind it, or if what is read instead is refused with good reason. -/
theorem query_reads_iff (jobT : JobType) (ps : Pieces) (version rest : List UInt8) (cursor : Nat)
    (served : jobT ≠ .stop) (some_pieces : ps ≠ []) (formed : ∀ piece ∈ ps, WellFormed piece)
    (known : version = http11 ∨ version = http10)
    (whole : (requestLine jobT ps version).length ≤ cursor) :
    ∃ result, httpParseQuery ⟨requestLine jobT ps version ++ rest, cursor⟩ jobT = some result ∧
      (ReadsWell jobT ps result ↔
        Fits ps ∨ (Refused jobT (reading ps version) ∧ ¬ MustAccept jobT ps)) := by
  obtain ⟨result, parsed, outcome⟩ :=
    parse_written jobT ps version rest cursor served formed known whole
  refine ⟨result, parsed, ?_⟩
  constructor
  · rintro ⟨right, accepts⟩
    rcases outcome with ⟨ret, refused⟩ | ⟨ret, -, head⟩
    · refine Or.inr ⟨refused, fun must => ?_⟩
      rw [accepts must] at ret
      contradiction
    · rw [ret] at right
      have same := (right.resolve_left (by decide)).2
      have within : Within ps := by
        intro piece member
        rw [← List.mem_reverse, ← same] at member
        obtain ⟨np, -, rfl⟩ := List.mem_map.mp member
        exact ⟨np.key.fits, np.val.fits⟩
      refine Or.inl ?_
      by_contra cut
      obtain ⟨extra, -, -, keys⟩ := reading_spills some_pieces formed known within cut
      have longer := congrArg List.length keys
      have length := congrArg List.length same
      rw [head, reading, list_texts, ← reading] at length
      simp only [List.length_reverse, List.length_map, List.length_append,
        List.length_singleton] at length longer
      omega
  · rintro (fits | ⟨refused, optional⟩)
    · have same := reading_fits some_pieces formed known fits
      rcases outcome with ⟨ret, refused⟩ | ⟨ret, -, head⟩
      · exact ⟨Or.inl ret, fun must => absurd refused (must_accept_read formed must same)⟩
      · refine ⟨Or.inr ⟨ret, ?_⟩, fun _ => ret⟩
        rw [head, reading, list_texts, ← reading, same]
    · rcases outcome with ⟨ret, -⟩ | ⟨-, fine, -⟩
      · exact ⟨Or.inl ret, fun must => absurd must optional⟩
      · exact absurd refused fine

/-- With one more key read, a request is refused with good reason exactly when its own
pieces are to be refused. -/
theorem spilled_refused_iff {jobT : JobType} {ps : Pieces} {version : List UInt8}
    (served : jobT ≠ .stop) (some_pieces : ps ≠ []) (formed : ∀ piece ∈ ps, WellFormed piece)
    (known : version = http11 ∨ version = http10) (within : Within ps) (cut : ¬ Fits ps) :
    Refused jobT (reading ps version) ∧ ¬ MustAccept jobT ps ↔ Refused jobT ps := by
  obtain ⟨extra, ends, whole, keys⟩ := reading_spills some_pieces formed known within cut
  have own : ps.map texts = ps := by
    rw [List.map_congr_left fun piece member => texts_formed (formed piece member)]
    exact List.map_id' ps
  have optional : Refused jobT ps → ¬ MustAccept jobT ps := fun refused must =>
    must_accept_read formed must own refused
  cases jobT with
  | announce =>
      have matches_same := spilled_matches ends whole keys
      have named : ¬ ∃ piece ∈ reading ps version, piece.1 = [] := by
        rintro ⟨piece, member, empty⟩
        have key : piece.1 ∈ ps.map Prod.fst ++ [extra] := keys ▸ List.mem_map_of_mem member
        rcases List.mem_append.mp key with inKeys | last
        · obtain ⟨written, inside, same⟩ := List.mem_map.mp inKeys
          exact (formed written inside).named (same.trans empty)
        · rw [List.mem_singleton.mp last] at empty
          exact List.ne_nil_of_mem ends empty
      constructor
      · rintro ⟨refused, -⟩
        exact Or.inr (matches_same ▸ refused.resolve_left named)
      · intro refused
        refine ⟨Or.inr ?_, optional refused⟩
        rcases refused with ⟨piece, member, empty⟩ | few
        · exact absurd empty (formed piece member).named
        · exact matches_same.symm ▸ few
  | scrape =>
      constructor
      · rintro ⟨-, must⟩
        by_contra fine
        refine must ⟨within, fun piece member => ?_⟩
        by_contra other
        refine fine (Or.inr ⟨piece, member, ?_⟩)
        rwa [show cstr piece.1 = piece.1 from congrArg Prod.fst (texts_formed (formed piece member))]
      · intro refused
        refine ⟨Or.inr ?_, optional refused⟩
        have read : extra ∈ (reading ps version).map Prod.fst := keys ▸ by simp
        obtain ⟨piece, member, rfl⟩ := List.mem_map.mp read
        refine ⟨piece, member, fun same => ?_⟩
        rw [cstr_self piece.1 whole] at same
        exact absurd ends (same ▸ by decide)
  | stop => contradiction

structure Readable (jobT : JobType) (ps : Pieces) : Prop where
  within : Within ps
  last : Fits ps ∨ Refused jobT ps

/-- If all keys and values are within their arrays, a query is read well exactly when the
last value leaves room for what is read behind it or its own keys have it refused. -/
theorem written_query_reads (jobT : JobType) (ps : Pieces) (version rest : List UInt8)
    (cursor : Nat) (served : jobT ≠ .stop) (some_pieces : ps ≠ [])
    (formed : ∀ piece ∈ ps, WellFormed piece) (known : version = http11 ∨ version = http10)
    (whole : (requestLine jobT ps version).length ≤ cursor) :
    ∃ result, httpParseQuery ⟨requestLine jobT ps version ++ rest, cursor⟩ jobT = some result ∧
      (Readable jobT ps → ReadsWell jobT ps result) ∧
        (Within ps → ReadsWell jobT ps result → Readable jobT ps) := by
  obtain ⟨result, parsed, exact⟩ :=
    query_reads_iff jobT ps version rest cursor served some_pieces formed known whole
  refine ⟨result, parsed, ?_, ?_⟩
  · rintro ⟨within, last⟩
    refine exact.mpr ?_
    by_cases fits : Fits ps
    · exact Or.inl fits
    · have refused := last.resolve_left fits
      exact Or.inr ((spilled_refused_iff served some_pieces formed known within fits).mpr refused)
  · intro within right
    refine ⟨within, ?_⟩
    by_cases fits : Fits ps
    · exact Or.inl fits
    · have refused := (exact.mp right).resolve_left fits
      exact Or.inr ((spilled_refused_iff served some_pieces formed known within fits).mp refused)

/-- The six required keys, the last one with a value of some length. -/
def leftOfLength (n : Nat) : Pieces :=
  requiredKeys.map fun key => (key, if key = leftKey then List.replicate n 49 else ascii ['1'])

theorem written_query_reads_short :
    ∃ result, httpParseQuery ⟨requestLine .announce (leftOfLength 1) http11 ++ [0],
        ((requestLine .announce (leftOfLength 1) http11).length : Nat)⟩ .announce = some result ∧
      ReadsWell .announce (leftOfLength 1) result := by
  obtain ⟨result, parsed, reads, -⟩ := written_query_reads .announce (leftOfLength 1) http11 [0] _
    (by decide) (by decide) (by decide +kernel) (Or.inl rfl) le_rfl
  have within : Within (leftOfLength 1) := by
    unfold Within
    decide +kernel
  have last : ∀ piece ∈ (leftOfLength 1).getLast?, piece.2.length ≤ httpMaxValLen - 10 := by
    decide +kernel
  exact ⟨result, parsed, reads ⟨within, Or.inl ⟨within, last⟩⟩⟩

/-- A last value of 255 characters brings an entry named after the version. -/
theorem full_value_adds_entry :
    ¬ ∀ (jobT : JobType) (ps : Pieces) (version rest : List UInt8) (cursor : Nat),
      jobT ≠ .stop → ps ≠ [] → (∀ piece ∈ ps, WellFormed piece) →
        version = http11 ∨ version = http10 → (requestLine jobT ps version).length ≤ cursor →
          ∃ result, httpParseQuery ⟨requestLine jobT ps version ++ rest, cursor⟩ jobT =
            some result ∧ ReadsWell jobT ps result := by
  intro claimed
  have formed : ∀ piece ∈ leftOfLength 255, WellFormed piece := by decide +kernel
  obtain ⟨result, parsed, right, -⟩ := claimed .announce (leftOfLength 255) http11 [0] _ (by decide)
    (by decide) formed (Or.inl rfl) le_rfl
  obtain ⟨other, same, outcome⟩ := parse_written .announce (leftOfLength 255) http11 [0] _
    (by decide) formed (Or.inl rfl) le_rfl
  cases parsed.symm.trans same
  have named : (reading (leftOfLength 255) http11).all (fun piece => piece.1 != []) = true := by
    decide +kernel
  have enough : ¬ requiredMatches (reading (leftOfLength 255) http11) < httpMaxKeys := by
    decide +kernel
  have seven : (reading (leftOfLength 255) http11).length = 7 := by decide +kernel
  have six : (leftOfLength 255).length = 6 := List.length_map _
  rcases outcome with ⟨-, ⟨piece, member, empty⟩ | few⟩ | ⟨ret, -, head⟩
  · simpa [empty] using List.all_eq_true.mp named piece member
  · exact enough few
  · rw [ret, head] at right
    have length := congrArg List.length (right.resolve_left (by decide)).2
    rw [List.length_map, listOf, List.length_reverse, List.length_map, seven, List.length_reverse,
      six] at length
    exact absurd length (by decide)

end Ttracker.QueryReadings
