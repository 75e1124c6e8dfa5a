import Ttracker.HttpQuery
import Ttracker.LinkedNodes

/-!
`http_parse_query` with the memory it touches: the request from its first byte to its
cursor and not further, the two arrays on the stack and the entries on the heap. `none`
is an access outside of these, a string without a NUL, a `free` of what is not allocated
or a loop that does not end. What it computes is `httpParseQuery`.
-/
namespace Ttracker.QueryMemory
open CLibrary LinkedNodes HttpQuery

/-! ## Memory -/

structure CharArray (size : Nat) where
  bytes : List UInt8
  sized : bytes.length = size

def CharArray.write {size : Nat} (a : CharArray size) (k : Nat) (c : UInt8) :
    Option (CharArray size) :=
  if k < size then some ⟨a.bytes.set k c, by rw [List.length_set, a.sized]⟩ else none

/-- What `strncpy` reads from the array. -/
def CharArray.string {size : Nat} (a : CharArray size) : Option (List UInt8) :=
  if (0 : UInt8) ∈ a.bytes then some (cstr a.bytes) else none

/-- `%s` of the request from an index on. -/
def printString (p : List UInt8) (i : Nat) : Option Unit :=
  if (0 : UInt8) ∈ p.drop i then some () else none

def plantNul (p : List UInt8) (i : Nat) : Option (List UInt8) :=
  if i < p.length then some (p.set i 0) else none

/-- The locals of the pair loop, the list and the allocated entries. -/
structure Work where
  key : CharArray httpMaxKeyLen
  val : CharArray httpMaxValLen
  head : List (Node HttpUriKv)
  live : List Nat
  next : Nat

def Work.insertHead (w : Work) (data : HttpUriKv) : Work :=
  { w with head := ⟨w.next, data⟩ :: w.head, live := w.next :: w.live, next := w.next + 1 }

def freeEntries : List (Node HttpUriKv) → List Nat → Option (List Nat)
  | [], live => some live
  | np :: rest, live => if np.addr ∈ live then freeEntries rest (live.erase np.addr) else none

/-! ## The function -/

/-- Both copy loops; `left` is what is left of the array but its last byte. -/
def copyLoop (p : List UInt8) (delim : UInt8) (found i : Nat) {size : Nat} :
    Nat → Nat → CharArray size → Option (Nat × CharArray size)
  | 0, k, a => some (k, a)
  | left + 1, k, a =>
      if i + k < found then (readAt p ((i + k : Nat) : Int)).bind fun c =>
        if c = delim then some (k, a)
        else (a.write k c).bind fun a => copyLoop p delim found i left (k + 1) a
      else some (k, a)

def copyField (p : List UInt8) (delim : UInt8) (found i : Nat) {size : Nat} (a : CharArray size) :
    Option (Nat × CharArray size) :=
  (copyLoop p delim found i (size - 1) 0 a).bind fun (k, a) => (a.write k 0).map fun a => (k, a)

def pairLoop (p : List UInt8) (found : Nat) : Nat → Nat → Work → Option (Bool × Work)
  | 0, i, w => if i < found then none else some (true, w)
  | fuel + 1, i, w =>
      if i < found then
        (copyField p 61 found i w.key).bind fun (k, key) =>
          if k = 0 then some (false, { w with key := key })
          else
            let i := i + k + 1
            (copyField p 38 found i w.val).bind fun (k, val) =>
              key.string.bind fun name => val.string.bind fun value =>
                pairLoop p found fuel (i + k + 1)
                  ({ w with key := key, val := val }.insertHead (mkKv name value))
      else some (true, w)

structure Outcome where
  ret : Int
  p : List UInt8
  cursor : Int
  work : Work

def judgeEntries (jobT : JobType) (p : List UInt8) (cursor : Int) (w : Work) : Option Outcome :=
  match jobT with
  | .announce =>
      if countMatches (w.head.map Node.val) < httpMaxKeys then
        (freeEntries w.head w.live).bind fun live =>
          (printString p 0).map fun _ => ⟨-1, p, cursor, { w with live := live }⟩
      else some ⟨0, p, cursor, w⟩
  | .scrape =>
      if w.head.any fun np => np.val.key.bytes != infoHashKey then
        (printString p 0).map fun _ => ⟨-1, p, cursor, w⟩
      else some ⟨0, p, cursor, w⟩
  | .stop => some ⟨-1, p, cursor, w⟩

/-- `p` is the request and its NUL, which is at the cursor. -/
def parseQueryMemory (p : List UInt8) (cursor : Nat) (jobT : JobType) (w : Work) : Option Outcome :=
  (lineEnd p cursor 0).bind fun found =>
    if found = 0 then (printString p 0).map fun _ => ⟨-1, p, cursor, w⟩
    else if found < 11 then (printString p 0).map fun _ => ⟨-1, p, cursor, w⟩
    else (readSpan p (found - 9) 8).bind fun version =>
      if version ≠ http11 ∧ version ≠ http10 then
        (printString p (found - 9)).map fun _ => ⟨-1, p, cursor, w⟩
      else (plantNul p (found - 10)).bind fun p =>
        match startOffset jobT with
        | none => (printString p 0).map fun _ => ⟨-1, p, cursor - 11, w⟩
        | some start => (pairLoop p found found start w).bind fun (complete, w) =>
            if complete then judgeEntries jobT p (cursor - 11) w
            else some ⟨-1, p, cursor - 11, w⟩

/-! ## The loops -/

theorem write_inside {size : Nat} (a : CharArray size) (k : Nat) (c : UInt8) (inside : k < size) :
    ∃ b, a.write k c = some b ∧ b.bytes.take k = a.bytes.take k ∧ b.bytes[k]? = some c := by
  refine ⟨⟨a.bytes.set k c, by rw [List.length_set, a.sized]⟩, if_pos inside, ?_, ?_⟩
  · rw [List.take_set_of_le (le_refl k)]
  · rw [List.getElem?_set_self (by rw [a.sized]; exact inside)]

theorem copy_loop_fills (p : List UInt8) (delim : UInt8) (found i : Nat) {size : Nat}
    (left k : Nat) (a : CharArray size) (copied : List UInt8) (room : k + left < size)
    (read : copyUntil p delim found left (i + k) = some copied) :
    ∃ b, copyLoop p delim found i left k a = some (k + copied.length, b) ∧
      b.bytes.take (k + copied.length) = a.bytes.take k ++ copied := by
  induction left generalizing k a copied with
  | zero =>
      cases read
      exact ⟨a, rfl, by simp⟩
  | succ left ih =>
      rw [copyUntil] at read
      by_cases more : i + k < found
      · rw [if_pos more] at read
        obtain ⟨c, here, read⟩ := Option.bind_eq_some_iff.mp read
        by_cases stop : c = delim
        · rw [if_pos stop, Option.some.injEq] at read
          subst read
          refine ⟨a, ?_, by simp⟩
          rw [copyLoop, if_pos more, here, Option.bind_some, if_pos stop]
          rfl
        · rw [if_neg stop] at read
          obtain ⟨rest, later, rfl⟩ := Option.map_eq_some_iff.mp read
          obtain ⟨b, wrote, kept, stored⟩ := write_inside a k c (by omega)
          obtain ⟨done, ended, filled⟩ := ih (k + 1) b rest (by omega) later
          have size : k + (c :: rest).length = k + 1 + rest.length := by
            rw [List.length_cons]
            omega
          refine ⟨done, ?_, ?_⟩
          · rw [copyLoop, if_pos more, here, Option.bind_some, if_neg stop, wrote, Option.bind_some,
              ended, size]
          · rw [size, filled, List.take_add_one, kept, stored]
            simp
      · rw [if_neg more, Option.some.injEq] at read
        subst read
        exact ⟨a, by simp [copyLoop, more], by simp⟩

theorem copy_until_fits {p : List UInt8} {delim : UInt8} {found room i : Nat}
    {copied : List UInt8} (read : copyUntil p delim found room i = some copied) :
    copied.length ≤ room := by
  induction room generalizing i copied with
  | zero =>
      cases read
      exact le_refl 0
  | succ room ih =>
      rw [copyUntil] at read
      split at read
      · obtain ⟨c, -, read⟩ := Option.bind_eq_some_iff.mp read
        split at read
        · cases read
          exact Nat.zero_le _
        · obtain ⟨rest, later, rfl⟩ := Option.map_eq_some_iff.mp read
          exact Nat.succ_le_succ (ih later)
      · cases read
        exact Nat.zero_le _

/-- The NUL behind what was copied ends the string in the array. -/
theorem copy_field_fills (p : List UInt8) (delim : UInt8) (found i : Nat) {size : Nat}
    (a : CharArray size) (copied : List UInt8) (positive : 0 < size)
    (fits : copied.length ≤ size - 1)
    (read : copyUntil p delim found (size - 1) i = some copied) :
    ∃ b, copyField p delim found i a = some (copied.length, b) ∧ b.string = some (cstr copied) := by
  obtain ⟨filled, looped, stored⟩ :=
    copy_loop_fills p delim found i (size - 1) 0 a copied (by omega) read
  rw [Nat.zero_add] at looped stored
  obtain ⟨b, wrote, kept, ended⟩ := write_inside filled copied.length 0 (by omega)
  have shape : b.bytes = copied ++ 0 :: b.bytes.drop (copied.length + 1) := by
    obtain ⟨inside, here⟩ := List.getElem?_eq_some_iff.mp ended
    have split := List.take_append_drop copied.length b.bytes
    rw [kept, stored, List.take_zero, List.nil_append, List.drop_eq_getElem_cons inside, here] at split
    exact split.symm
  refine ⟨b, by simp only [copyField, looped, Option.bind_some, wrote, Option.map_some], ?_⟩
  have terminated : (0 : UInt8) ∈ b.bytes := by
    rw [shape]
    simp
  rw [CharArray.string, if_pos terminated, shape, cstr_before_nul]

theorem mk_kv_strings (key val : List UInt8) : mkKv (cstr key) (cstr val) = mkKv key val := by
  have twice : ∀ text : List UInt8, cstr (cstr text) = cstr text := fun text =>
    cstr_self _ (cstr_nul_free text)
  simp only [mkKv, CString.ofMemory, twice]

/-- Every entry of the list is allocated and nothing else is. -/
def Owned (w : Work) : Prop := w.live = addresses w.head

theorem insert_owned {w : Work} (owned : Owned w) (data : HttpUriKv) :
    Owned (w.insertHead data) := by
  rw [Owned] at owned
  simp [Owned, Work.insertHead, owned, addresses]

theorem pair_loop_fills (p : List UInt8) (found fuel i : Nat) (w : Work) (complete : Bool)
    (head : List HttpUriKv) (owned : Owned w)
    (read : parsePairs p found fuel i (w.head.map Node.val) = some (complete, head)) :
    ∃ out, pairLoop p found fuel i w = some (complete, out) ∧ out.head.map Node.val = head ∧
      Owned out := by
  induction fuel generalizing i w with
  | zero =>
      rw [parsePairs] at read
      split at read
      · contradiction
      · next ended =>
          cases read
          exact ⟨w, by rw [pairLoop, if_neg ended], rfl, owned⟩
  | succ fuel ih =>
      rw [parsePairs] at read
      by_cases more : i < found
      · rw [if_pos more] at read
        obtain ⟨key, readKey, read⟩ := Option.bind_eq_some_iff.mp read
        have keyFits := copy_until_fits readKey
        obtain ⟨keyArray, copiedKey, name⟩ :=
          copy_field_fills p 61 found i w.key key (by decide) keyFits readKey
        by_cases empty : key.length = 0
        · rw [if_pos empty] at read
          cases read
          refine ⟨{ w with key := keyArray }, ?_, rfl, owned⟩
          simp only [pairLoop, more, if_true, copiedKey, Option.bind_some, empty]
        · rw [if_neg empty] at read
          obtain ⟨val, readVal, read⟩ := Option.bind_eq_some_iff.mp read
          obtain ⟨valArray, copiedVal, value⟩ := copy_field_fills p 38 found (i + key.length + 1)
            w.val val (by decide) (copy_until_fits readVal) readVal
          rw [← mk_kv_strings] at read
          have kept : Owned { w with key := keyArray, val := valArray } := owned
          obtain ⟨out, looped, same, ends⟩ := ih (i + key.length + 1 + val.length + 1)
            (Work.insertHead { w with key := keyArray, val := valArray }
              (mkKv (cstr key) (cstr val))) (insert_owned kept _) read
          refine ⟨out, ?_, same, ends⟩
          simp only [pairLoop, more, if_true, copiedKey, Option.bind_some, empty, if_false,
            copiedVal, name, value, looped]
      · rw [if_neg more] at read
        cases read
        exact ⟨w, by rw [pairLoop, if_neg more], rfl, owned⟩

theorem free_entries_all (head : List (Node HttpUriKv)) :
    freeEntries head (addresses head) = some [] := by
  induction head with
  | nil => rfl
  | cons np rest ih =>
      rw [addresses, List.map_cons, freeEntries, if_pos List.mem_cons_self, List.erase_cons_head]
      exact ih

/-! ## The whole function -/

def Work.liveEntries (w : Work) : List HttpUriKv :=
  (w.head.filter fun np => w.live.contains np.addr).map Node.val

theorem owned_live {w : Work} (owned : Owned w) : w.liveEntries = w.head.map Node.val := by
  rw [Work.liveEntries, owned, List.filter_eq_self.mpr]
  intro np member
  simpa using address_mem member

/-- The outcome is the result of `httpParseQuery` on the whole allocation. -/
structure Refines (out : Outcome) (back : List UInt8) (result : QueryResult) : Prop where
  ret : result.ret = out.ret
  input : result.input = ⟨out.p ++ back, out.cursor⟩
  head : result.head = out.work.head.map Node.val
  live : result.live = out.work.liveEntries

theorem judge_entries_refine (jobT : JobType) (p back : List UInt8) (cursor : Int) (w : Work)
    (terminated : (0 : UInt8) ∈ p) (owned : Owned w) :
    ∃ out, judgeEntries jobT p cursor w = some out ∧ out.cursor = cursor ∧
      Refines out back (judge jobT ⟨p ++ back, cursor⟩ (w.head.map Node.val)) := by
  have prints : printString p 0 = some () := if_pos terminated
  have live := owned_live owned
  cases jobT with
  | announce =>
      by_cases few : countMatches (w.head.map Node.val) < httpMaxKeys
      · have freed : freeEntries w.head w.live = some [] := owned ▸ free_entries_all w.head
        refine ⟨⟨-1, p, cursor, { w with live := [] }⟩, ?_, rfl, ?_⟩
        · simp only [judgeEntries, if_pos few, freed, Option.bind_some, prints, Option.map_some]
        · rw [judge, if_pos few]
          exact ⟨rfl, rfl, rfl, by simp [Work.liveEntries]⟩
      · refine ⟨⟨0, p, cursor, w⟩, by rw [judgeEntries, if_neg few], rfl, ?_⟩
        rw [judge, if_neg few]
        exact ⟨rfl, rfl, rfl, live.symm⟩
  | scrape =>
      have same : (w.head.map Node.val).any (fun np => np.key.bytes != infoHashKey) =
          w.head.any fun np => np.val.key.bytes != infoHashKey := List.any_map
      by_cases other : (w.head.any fun np => np.val.key.bytes != infoHashKey) = true
      · refine ⟨⟨-1, p, cursor, w⟩, ?_, rfl, ?_⟩
        · rw [judgeEntries, if_pos other, prints, Option.map_some]
        · rw [judge, same, if_pos other]
          exact ⟨rfl, rfl, rfl, live.symm⟩
      · refine ⟨⟨0, p, cursor, w⟩, by rw [judgeEntries, if_neg other], rfl, ?_⟩
        rw [judge, same, if_neg other]
        exact ⟨rfl, rfl, rfl, live.symm⟩
  | stop => exact ⟨⟨-1, p, cursor, w⟩, rfl, rfl, ⟨rfl, rfl, rfl, live.symm⟩⟩

/-! ## Reads of the request -/

theorem read_at_append {p : List UInt8} {i : Int} {c : UInt8} (back : List UInt8)
    (read : readAt p i = some c) : readAt (p ++ back) i = some c := by
  rw [readAt] at read ⊢
  split at read
  · contradiction
  · next low =>
      rw [if_neg low, List.getElem?_append_left (List.getElem?_eq_some_iff.mp read).1, read]

theorem read_at_defined (p : List UInt8) (i : Int) (low : 0 ≤ i) (inside : i < p.length) :
    ∃ c, readAt p i = some c := by
  refine ⟨p[i.toNat], ?_⟩
  rw [readAt, if_neg (by omega), List.getElem?_eq_getElem (by omega)]

theorem read_span_append {p : List UInt8} {i n : Nat} {s : List UInt8} (back : List UInt8)
    (read : readSpan p i n = some s) : readSpan (p ++ back) i n = some s := by
  rw [readSpan] at read ⊢
  split at read
  · next inside =>
      cases read
      have longer : i + n ≤ (p ++ back).length := by
        rw [List.length_append]
        omega
      rw [if_pos longer, List.drop_append_of_le_length (by omega),
        List.take_append_of_le_length (by rw [List.length_drop]; omega)]
  · contradiction

/-- The search for the line end stays inside, unless the request starts with one: then
it would read the byte before the first. -/
theorem line_end_defined (p : List UInt8) (left i : Nat) (inside : i + left ≤ p.length)
    (first : i = 0 → p.head? ≠ some 10) : ∃ found, lineEnd p left i = some found := by
  induction left generalizing i with
  | zero => exact ⟨0, rfl⟩
  | succ left ih =>
      obtain ⟨found, later⟩ := ih (i + 1) (by omega) (by omega)
      obtain ⟨c, here⟩ := read_at_defined p i (by omega) (by omega)
      rw [lineEnd, here, Option.bind_some]
      by_cases feed : c = 10
      · have behind : i ≠ 0 := by
          rintro rfl
          apply first rfl
          rw [feed] at here
          rwa [readAt, if_neg (by omega), Int.toNat_natCast, ← List.head?_eq_getElem?] at here
        obtain ⟨before, back⟩ := read_at_defined p (i - 1) (by omega) (by omega)
        rw [if_pos feed, back, Option.bind_some]
        by_cases ended : (if before = 13 then i else 0) ≠ 0
        · exact ⟨_, if_pos ended⟩
        · exact ⟨found, by simp only [if_neg ended, later]⟩
      · exact ⟨found, by rw [if_neg feed, later]⟩

theorem line_end_append {p : List UInt8} {left i found : Nat} (back : List UInt8)
    (reached : lineEnd p left i = some found) : lineEnd (p ++ back) left i = some found := by
  induction left generalizing i with
  | zero => exact reached
  | succ left ih =>
      rw [lineEnd] at reached ⊢
      obtain ⟨c, here, onward⟩ := Option.bind_eq_some_iff.mp reached
      rw [read_at_append back here, Option.bind_some]
      by_cases feed : c = 10
      · rw [if_pos feed] at onward ⊢
        obtain ⟨before, previous, onward⟩ := Option.bind_eq_some_iff.mp onward
        rw [read_at_append back previous, Option.bind_some]
        by_cases ended : (if before = 13 then i else 0) ≠ 0
        · simpa only [if_pos ended] using onward
        · simp only [if_neg ended] at onward ⊢
          exact ih onward
      · rw [if_neg feed] at onward ⊢
        exact ih onward

theorem job_starts_plain {p : List UInt8} {cursor : Int} {jobT : JobType}
    (chosen : httpParseJobFromRequest ⟨p, cursor⟩ = some jobT) : p.head? = some 71 := by
  have starts : ∀ (target : List UInt8) (n : Nat), strncmpEq (cstr p) (71 :: target) (n + 1) = true →
      p.head? = some 71 := by
    intro target n same
    cases p with
    | nil => simp [strncmpEq, cstr] at same
    | cons c rest =>
        by_cases nul : c = 0
        · simp [strncmpEq, cstr, nul] at same
        · simp only [strncmpEq, cstr, List.takeWhile_cons, bne_iff_ne, ne_eq, nul,
            not_false_eq_true, if_true, List.take_succ_cons, beq_iff_eq, List.cons.injEq] at same
          rw [same.1, List.head?_cons]
  unfold httpParseJobFromRequest at chosen
  split at chosen
  · next announce => exact starts _ _ announce
  · split at chosen
    · next scrape => exact starts _ _ scrape
    · contradiction

/-- A request that is an announce or a scrape, of any length and with anything in it, is
parsed inside the memory from its first byte to its cursor, and the result is that of
`httpParseQuery` whatever is allocated behind. -/
theorem query_accesses_inside (text back : List UInt8) (jobT : JobType)
    (key : CharArray httpMaxKeyLen) (val : CharArray httpMaxValLen) (next : Nat)
    (chosen : httpParseJobFromRequest ⟨text ++ 0 :: back, text.length⟩ = some jobT) :
    ∃ out result, parseQueryMemory (text ++ [0]) text.length jobT ⟨key, val, [], [], next⟩ = some out ∧
      0 ≤ out.cursor ∧ httpParseQuery ⟨text ++ 0 :: back, text.length⟩ jobT = some result ∧
      Refines out back result := by
  have whole : text ++ 0 :: back = (text ++ [0]) ++ back := by simp
  have size : (text ++ [0]).length = text.length + 1 := by simp
  rw [whole] at chosen ⊢
  obtain ⟨p, isMemory⟩ : ∃ p, p = text ++ [(0 : UInt8)] := ⟨_, rfl⟩
  rw [← isMemory] at chosen size ⊢
  -- the search for the line end
  have first : p.head? ≠ some 10 := by
    intro feed
    have starts := job_starts_plain chosen
    rw [List.head?_append, feed, Option.some_or, Option.some.injEq] at starts
    exact absurd starts (by decide)
  obtain ⟨found, line⟩ := line_end_defined p text.length 0 (by omega) fun _ => first
  have terminated : ∀ i, i ≤ text.length → printString p i = some () := by
    intro i low
    rw [printString, if_pos]
    rw [isMemory, List.drop_append_of_le_length low]
    simp
  have owned : Owned ⟨key, val, [], [], next⟩ := rfl
  have stops : ∀ message, printString p message = some () → ∃ out : Outcome,
      (printString p message).map (fun _ => (⟨-1, p, text.length, ⟨key, val, [], [], next⟩⟩ : Outcome)) =
        some out ∧ 0 ≤ out.cursor ∧ Refines out back ⟨-1, ⟨p ++ back, text.length⟩, [], []⟩ := by
    intro message printed
    rw [printed]
    exact ⟨_, rfl, Int.natCast_nonneg _, ⟨rfl, rfl, rfl, rfl⟩⟩
  simp only [parseQueryMemory, httpParseQuery, Int.toNat_natCast, line, line_end_append back line,
    Option.bind_some]
  by_cases absent : found = 0
  · obtain ⟨out, returned, low, refines⟩ := stops 0 (terminated 0 (Nat.zero_le _))
    exact ⟨out, _, by rw [if_pos absent, returned], low, by rw [if_pos absent], refines⟩
  by_cases short : found < 11
  · obtain ⟨out, returned, low, refines⟩ := stops 0 (terminated 0 (Nat.zero_le _))
    refine ⟨out, _, ?_, low, ?_, refines⟩
    · rw [if_neg absent, if_pos short, returned]
    · rw [if_neg absent, if_pos short]
  have ends := line_end_found p _ _ _ line absent
  obtain ⟨version, read⟩ : ∃ version, readSpan p (found - 9) 8 = some version :=
    ⟨_, if_pos (by omega)⟩
  simp only [if_neg absent, if_neg short, read, read_span_append back read, Option.bind_some]
  by_cases other : version ≠ http11 ∧ version ≠ http10
  · obtain ⟨out, returned, low, refines⟩ := stops (found - 9) (terminated _ (by omega))
    exact ⟨out, _, by rw [if_pos other, returned], low, by rw [if_pos other], refines⟩
  -- the query is cut and its pieces are copied
  have planted : plantNul p (found - 10) = some (p.set (found - 10) 0) := if_pos (by omega)
  have cutTerminated : (0 : UInt8) ∈ p.set (found - 10) 0 :=
    List.mem_set (by omega) 0
  have extended : (p ++ back).set (found - 10) 0 = p.set (found - 10) 0 ++ back :=
    List.set_append_left _ _ (by omega)
  have insideCut : found ≤ (p.set (found - 10) 0).length := by
    rw [List.length_set]
    omega
  simp only [if_neg other, planted, extended, Option.bind_some]
  cases offset : startOffset jobT with
  | none =>
      have prints : printString (p.set (found - 10) 0) 0 = some () := if_pos cutTerminated
      exact ⟨_, _, by rw [prints, Option.map_some], by simp only; omega, rfl, ⟨rfl, rfl, rfl, rfl⟩⟩
  | some start =>
      obtain ⟨⟨complete, head⟩, pairs⟩ : ∃ both,
          parsePairs (p.set (found - 10) 0) found found start [] = some both :=
        ⟨_, parse_pairs_reads _ _ insideCut _ _ (by omega) _⟩
      have pairsWhole : parsePairs (p.set (found - 10) 0 ++ back) found found start [] =
          some (complete, head) := by
        rw [parse_pairs_reads _ _ insideCut _ _ (by omega)] at pairs
        rw [parse_pairs_reads _ _ (by rw [List.length_append]; omega) _ _ (by omega),
          List.take_append_of_le_length insideCut, pairs]
      obtain ⟨w, looped, filled, kept⟩ := pair_loop_fills _ _ _ _ _ complete head owned pairs
      simp only [looped, pairsWhole, Option.bind_some, Option.map_some]
      subst filled
      cases complete with
      | false =>
          exact ⟨_, _, rfl, by simp only; omega, rfl, ⟨rfl, rfl, rfl, (owned_live kept).symm⟩⟩
      | true =>
          obtain ⟨out, judged, cursor, refines⟩ := judge_entries_refine jobT _ back
            (text.length - 11) w cutTerminated kept
          exact ⟨out, _, judged, by omega, rfl, refines⟩

def briefScrape : List UInt8 :=
  getScrape ++ ascii ['?', 'a', '=', 'b', ' '] ++ http11 ++ [13, 10]

def emptyArray (size : Nat) : CharArray size := ⟨List.replicate size 0, List.length_replicate⟩

theorem query_accesses_inside_brief : ∃ out result,
    parseQueryMemory (briefScrape ++ [0]) briefScrape.length .scrape
        ⟨emptyArray _, emptyArray _, [], [], 0⟩ = some out ∧ 0 ≤ out.cursor ∧
      httpParseQuery ⟨briefScrape ++ 0 :: [7], briefScrape.length⟩ .scrape = some result ∧
        Refines out [7] result :=
  query_accesses_inside briefScrape [7] .scrape (emptyArray _) (emptyArray _) 0 (by decide)

/-! ## Entries of a refused request -/

/-- The loop gives up at the first piece without a key, with an entry for each before it. -/
theorem read_off_unnamed (ps : List (List UInt8 × List UInt8)) (before head : List HttpUriKv)
    (ended : readOff ps before = (false, head)) :
    ∃ front value back, ps = front ++ ([], value) :: back ∧ (∀ piece ∈ front, piece.1 ≠ []) ∧
      head.length = before.length + front.length := by
  induction ps generalizing before with
  | nil => simp [readOff] at ended
  | cons first rest ih =>
      obtain ⟨key, value⟩ := first
      rw [readOff] at ended
      split at ended
      · next empty =>
          cases ended
          rw [List.length_eq_zero_iff.mp empty]
          exact ⟨[], value, rest, rfl, by simp, rfl⟩
      · next named =>
          obtain ⟨front, other, back, rfl, others, count⟩ := ih _ ended
          refine ⟨(key, value) :: front, other, back, rfl, ?_, ?_⟩
          · rw [List.forall_mem_cons]
            exact ⟨fun empty => named (List.length_eq_zero_iff.mpr empty), others⟩
          · rw [count, List.length_cons, List.length_cons]
            omega

theorem read_off_named (ps : List (List UInt8 × List UInt8)) (before head : List HttpUriKv)
    (ended : readOff ps before = (true, head)) : ∀ piece ∈ ps, piece.1 ≠ [] := by
  induction ps generalizing before with
  | nil => simp
  | cons first rest ih =>
      obtain ⟨key, value⟩ := first
      rw [readOff] at ended
      split at ended
      · cases ended
      · next named =>
          rw [List.forall_mem_cons]
          exact ⟨fun empty => named (List.length_eq_zero_iff.mpr empty), ih _ ended⟩

/-- The request is refused before its pieces are read, its first key is empty, or it is
an announce without an empty key. -/
def NoneLost (input : Buffer) (jobT : JobType) : Prop :=
  (∀ found, ¬ ReadLine input found) ∨
    ∀ start, startOffset jobT = some start →
      (∃ value rest, queryPieces input start = ([], value) :: rest) ∨
        (jobT = .announce ∧ ∀ piece ∈ queryPieces input start, piece.1 ≠ [])

/-- When it returns -1 the entries it allocated are freed in exactly these cases: an
empty key behind other pieces and a scrape with a wrong key leave them allocated. -/
theorem refused_frees_iff (input : Buffer) (jobT : JobType) (result : QueryResult)
    (parsed : httpParseQuery input jobT = some result) (refused : result.ret = -1) :
    result.live = [] ↔ NoneLost input jobT := by
  cases parse_stages parsed with
  | unread none => exact iff_of_true rfl (Or.inl none)
  | unserved found read offset =>
      refine iff_of_true rfl (Or.inr fun start served => ?_)
      rw [offset] at served
      contradiction
  | unnamed found start head read offset pairs =>
      rw [pairs_read read, Option.some.injEq] at pairs
      obtain ⟨front, value, back, shape, named, count⟩ := read_off_unnamed _ _ _ pairs
      rw [List.length_nil, Nat.zero_add] at count
      constructor
      · intro freed
        have none : head = [] := freed
        rw [none, List.length_nil] at count
        refine Or.inr fun other same => Or.inl ⟨value, back, ?_⟩
        cases offset.symm.trans same
        rw [shape, List.length_eq_zero_iff.mp count.symm, List.nil_append]
      · rintro (none | lost)
        · exact absurd read (none found)
        rcases lost start offset with ⟨first, rest, same⟩ | ⟨-, all⟩
        · have alone : front = [] := by
            cases front with
            | nil => rfl
            | cons piece later =>
                rw [shape, List.cons_append, List.cons.injEq] at same
                exact absurd (congrArg Prod.fst same.1) (named piece List.mem_cons_self)
          rw [alone] at count
          exact List.length_eq_zero_iff.mp count
        · rw [shape] at all
          exact absurd rfl (all ([], value) (by simp))
  | judged found start head read offset pairs =>
      rw [pairs_read read, Option.some.injEq] at pairs
      have named := read_off_named _ _ _ pairs
      have built := read_off_complete _ _ _ pairs
      cases jobT with
      | announce =>
          refine iff_of_true ?_ (Or.inr fun other same => ?_)
          · rw [judge] at refused ⊢
            split at refused
            · next few => rw [if_pos few]
            · contradiction
          · cases offset.symm.trans same
            exact Or.inr ⟨rfl, named⟩
      | scrape =>
          refine iff_of_false ?_ ?_
          · rw [judge] at refused ⊢
            split at refused
            · next other =>
                rw [if_pos other]
                rintro rfl
                simp at other
            · contradiction
          · rintro (none | lost)
            · exact none found read
            rcases lost start offset with ⟨value, rest, same⟩ | ⟨announce, -⟩
            · exact named ([], value) (by rw [same]; exact List.mem_cons_self) rfl
            · contradiction
      | stop => contradiction

theorem refused_frees_iff_brief : ∃ result,
    httpParseQuery ⟨briefScrape ++ [0], briefScrape.length⟩ .scrape = some result ∧
      (result.live = [] ↔ NoneLost ⟨briefScrape ++ [0], briefScrape.length⟩ .scrape) := by
  have evaluated : (httpParseQuery ⟨briefScrape ++ [0], briefScrape.length⟩ .scrape).map
      QueryResult.ret = some (-1) := by decide +kernel
  obtain ⟨result, parsed, refused⟩ := Option.map_eq_some_iff.mp evaluated
  exact ⟨result, parsed, refused_frees_iff _ .scrape result parsed refused⟩

/-- A scrape for another key than `info_hash` keeps its entry. -/
theorem wrong_key_keeps_entry :
    ¬ ∀ (input : Buffer) (jobT : JobType) (result : QueryResult),
      httpParseQuery input jobT = some result → result.ret = -1 → result.live = [] := by
  intro claimed
  have evaluated : (httpParseQuery ⟨briefScrape ++ [0], briefScrape.length⟩ .scrape).map
      (fun result => (result.ret, result.live.length)) = some (-1, 1) := by decide +kernel
  obtain ⟨result, parsed, both⟩ := Option.map_eq_some_iff.mp evaluated
  obtain ⟨refused, left⟩ := Prod.mk.inj both
  rw [claimed _ .scrape result parsed refused] at left
  contradiction

end Ttracker.QueryMemory
