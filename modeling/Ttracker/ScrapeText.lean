import Ttracker.ScrapeHandler
import Ttracker.Buffers
import Ttracker.Bencode

/-!
`bencode_scrape_ctx`: the counters of each scraped torrent under its 20 raw bytes,
read back from the hex digits. It prints with `sprintf`, which knows no bound, into
the 128 bytes per torrent its caller allocates; `none` is a write past them.
-/
namespace Ttracker.ScrapeText
open CLibrary BoundedPrint HttpQuery PeerRequest TorrentCache ScrapeHandler Buffers Bencode

/-! ## `sscanf(str, "%02hhx", ..)` -/

/-- The two characters the width allows. A sign takes the room of a digit. -/
def scanHex (field : List UInt8) : Option UInt8 :=
  let signed := field.head? = some 45 ∨ field.head? = some 43
  let digits := (if signed then field.tail else field).takeWhile isxdigit
  -- `0x` announces digits for which there is no room
  if digits = [] ∨ field = ascii ['0', 'x'] ∨ field = ascii ['0', 'X'] then none
  else
    let value := digits.foldl (fun value c => value * 16 + hexValue c) 0
    some (if field.head? = some 45 then -value else value)

def sscanfHhx (str : List UInt8) : Option UInt8 := scanHex (((cstr str).dropWhile isspace).take 2)

/-- The inner loop over `cur_hash`. A byte that is not read keeps its old value. -/
def curHash (old : Nat → UInt8) (str : List UInt8) : List UInt8 :=
  (List.range 20).map fun i => (sscanfHhx (str.drop (2 * i))).getD (old i)

/-! ## The printed text -/

/-- `out` and `written`. -/
structure ScrapeOut where
  mem : List UInt8
  written : Nat

def ScrapeOut.sprintf (out : ScrapeOut) (s : List UInt8) : Option ScrapeOut :=
  (writeAt out.mem out.written (s ++ [0])).map fun mem => ⟨mem, out.written + s.length⟩

def ScrapeOut.memcpy (out : ScrapeOut) (bytes : List UInt8) : Option ScrapeOut :=
  (writeAt out.mem out.written bytes).map fun mem => ⟨mem, out.written + bytes.length⟩

def scrapeCounters (se : ScrapeEntry) : List UInt8 :=
  text "d8:completei" ++ decimalInt se.seeders ++ text "e10:downloadedi" ++
    decimalInt se.complete ++ text "e10:incompletei" ++ decimalInt se.leechers ++ text "ee"

/-- The loop over the context. `old` is what `cur_hash` holds, set to zeros after
each entry but unset before the first. -/
def bencodeScrapeEntries : (Nat → UInt8) → List ScrapeEntry → ScrapeOut → Option ScrapeOut
  | _, [], out => some out
  | old, se :: rest, out => do
      let out ← out.sprintf (text "20:")
      let out ← out.memcpy (curHash old se.infoHash)
      let out ← out.sprintf (scrapeCounters se)
      bencodeScrapeEntries (fun _ => 0) rest out

def bencodeScrapeCtx (old : Nat → UInt8) (sctx : List ScrapeEntry) (out : List UInt8) :
    Option ScrapeOut := do
  let out ← (ScrapeOut.mk out 0).sprintf (text "d5:filesd")
  let out ← bencodeScrapeEntries old sctx out
  out.sprintf (text "ee")

/-- `calloc(128 * sctx->size, sizeof(char))`. -/
def scrapeList (sctx : List ScrapeEntry) : List UInt8 :=
  List.replicate (toUnsigned64 (toInt32 (128 * sctx.length))) 0

/-- The handler with the buffer it writes to. -/
def jobHandleScrapeOut (env : AnnounceHandler.Environment) (unset : Unset) (old : Nat → UInt8)
    (tl : TorrentList) (list : List HttpUriKv) (fresh : Nat → FreshHash) (out : Buffer) :
    Except Fault (TorrentList × Option Buffer) :=
  (jobHandleScrape env tl list fresh).map fun (whole, s) =>
    (s.tl,
      if whole then
        (bencodeScrapeCtx old s.sctx (scrapeList s.sctx)).bind fun printed =>
          (bufferWriteToBuffer unset out printed.mem printed.written).map Prod.snd
      else appendStrings unset out [Torrents.torrentMsgFailureMissingHash])

/-! ## The text as a value -/

def statsValue (complete downloaded incomplete : Int) : Value :=
  .dict [(text "complete", .int complete), (text "downloaded", .int downloaded),
    (text "incomplete", .int incomplete)]

def fileEntries : (Nat → UInt8) → List ScrapeEntry → List (List UInt8 × Value)
  | _, [] => []
  | old, se :: rest =>
      (curHash old se.infoHash, statsValue se.seeders se.complete se.leechers) ::
        fileEntries (fun _ => 0) rest

def filesDict (files : List (List UInt8 × Value)) : Value := .dict [(text "files", .dict files)]

theorem length_cur_hash (old : Nat → UInt8) (str : List UInt8) : (curHash old str).length = 20 := by
  simp [curHash]

theorem encode_stats (se : ScrapeEntry) :
    encode (statsValue se.seeders se.complete se.leechers) = scrapeCounters se := by
  have complete : text "d8:completei" = 100 :: (encodeBytes (text "complete") ++ [105]) := by
    decide +kernel
  have downloaded : text "e10:downloadedi" = 101 :: (encodeBytes (text "downloaded") ++ [105]) := by
    decide +kernel
  have incomplete : text "e10:incompletei" = 101 :: (encodeBytes (text "incomplete") ++ [105]) := by
    decide +kernel
  have close : text "ee" = [101, 101] := by decide +kernel
  simp [statsValue, encode, encodeEntries, scrapeCounters, complete, downloaded, incomplete, close]

theorem encode_hash (old : Nat → UInt8) (str : List UInt8) :
    encodeBytes (curHash old str) = text "20:" ++ curHash old str := by
  have size : text "20:" = decimal 20 ++ [58] := by decide +kernel
  rw [encodeBytes, length_cur_hash, size]
  simp

/-- The allocation starts with the text printed so far. -/
structure Printed (size : Nat) (out : ScrapeOut) (content : List UInt8) : Prop where
  count : out.written = content.length
  stored : content <+: out.mem
  size : out.mem.length = size

section Printing
variable {size : Nat} {out : ScrapeOut} {content : List UInt8}

theorem memcpy_prints (printed : Printed size out content) (bytes : List UInt8)
    (room : content.length + bytes.length ≤ size) :
    ∃ next, out.memcpy bytes = some next ∧ Printed size next (content ++ bytes) := by
  obtain ⟨mem, written, extended⟩ := write_at_prefix out.mem bytes printed.stored
    (by rw [printed.size]; exact room)
  refine ⟨⟨mem, out.written + bytes.length⟩, ?_, ?_, extended, ?_⟩
  · rw [ScrapeOut.memcpy, printed.count, written, Option.map_some]
  · rw [printed.count, List.length_append]
  · rw [write_at_length written, printed.size]

theorem sprintf_prints (printed : Printed size out content) (s : List UInt8)
    (room : content.length + s.length < size) :
    ∃ next, out.sprintf s = some next ∧ Printed size next (content ++ s) ∧
      content ++ s ++ [0] <+: next.mem := by
  obtain ⟨mem, written, extended⟩ := write_at_prefix out.mem (s ++ [0]) printed.stored
    (by rw [printed.size, List.length_append, List.length_singleton]; omega)
  rw [← List.append_assoc] at extended
  refine ⟨⟨mem, out.written + s.length⟩, ?_, ⟨?_, ?_, ?_⟩, extended⟩
  · rw [ScrapeOut.sprintf, printed.count, written, Option.map_some]
  · rw [printed.count, List.length_append]
  · exact (List.prefix_append _ _).trans extended
  · rw [write_at_length written, printed.size]

theorem entries_print (old : Nat → UInt8) (sctx : List ScrapeEntry)
    (printed : Printed size out content)
    (room : content.length + (encodeEntries (fileEntries old sctx)).length < size) :
    ∃ next, bencodeScrapeEntries old sctx out = some next ∧
      Printed size next (content ++ encodeEntries (fileEntries old sctx)) := by
  induction sctx generalizing old out content with
  | nil => exact ⟨out, rfl, by simpa [fileEntries, encodeEntries] using printed⟩
  | cons se rest ih =>
      rw [fileEntries, encodeEntries, encode_hash, encode_stats] at room ⊢
      simp only [List.length_append] at room
      obtain ⟨one, wroteOne, printedOne, -⟩ := sprintf_prints printed (text "20:") (by omega)
      obtain ⟨two, wroteTwo, printedTwo⟩ := memcpy_prints printedOne (curHash old se.infoHash)
        (by rw [List.length_append]; omega)
      obtain ⟨three, wroteThree, printedThree, -⟩ := sprintf_prints printedTwo (scrapeCounters se)
        (by simp only [List.length_append]; omega)
      obtain ⟨next, wrote, whole⟩ := ih (fun _ => 0) printedThree
        (by simp only [List.length_append]; omega)
      refine ⟨next, ?_, by simpa only [List.append_assoc] using whole⟩
      simp only [bencodeScrapeEntries, Option.bind_eq_bind, wroteOne, Option.bind_some, wroteTwo,
        wroteThree, wrote]

end Printing

/-- With room for the text and its NUL all of it is printed. -/
theorem scrape_ctx_prints (old : Nat → UInt8) (sctx : List ScrapeEntry) (mem : List UInt8)
    (room : (encode (filesDict (fileEntries old sctx))).length < mem.length) :
    ∃ out, bencodeScrapeCtx old sctx mem = some out ∧
      Printed mem.length out (encode (filesDict (fileEntries old sctx))) ∧
      encode (filesDict (fileEntries old sctx)) ++ [0] <+: out.mem := by
  have opening : text "d5:filesd" = 100 :: (encodeBytes (text "files") ++ [100]) := by
    decide +kernel
  have close : text "ee" = [101, 101] := by decide +kernel
  have shape : encode (filesDict (fileEntries old sctx)) =
      text "d5:filesd" ++ encodeEntries (fileEntries old sctx) ++ text "ee" := by
    simp [filesDict, encode, encodeEntries, opening, close]
  rw [shape] at room ⊢
  simp only [List.length_append] at room
  have start : Printed mem.length ⟨mem, 0⟩ [] := ⟨rfl, List.nil_prefix, rfl⟩
  obtain ⟨one, wroteOne, printedOne, -⟩ := sprintf_prints start (text "d5:filesd")
    (by rw [List.length_nil]; omega)
  obtain ⟨two, wroteTwo, printedTwo⟩ := entries_print old sctx printedOne
    (by simp only [List.length_append, List.length_nil]; omega)
  obtain ⟨three, wroteThree, printedThree, ended⟩ := sprintf_prints printedTwo (text "ee")
    (by simp only [List.length_append, List.length_nil]; omega)
  rw [List.nil_append] at printedThree ended
  refine ⟨three, ?_, printedThree, ended⟩
  simp only [bencodeScrapeCtx, Option.bind_eq_bind, wroteOne, Option.bind_some, wroteTwo,
    wroteThree]

/-! ## The room the caller allocates -/

/-- The counters of an entry are C `int`s. -/
structure IntCounters (se : ScrapeEntry) : Prop where
  seeders : -2 ^ 31 ≤ se.seeders ∧ se.seeders < 2 ^ 31
  complete : -2 ^ 31 ≤ se.complete ∧ se.complete < 2 ^ 31
  leechers : -2 ^ 31 ≤ se.leechers ∧ se.leechers < 2 ^ 31

instance (se : ScrapeEntry) : Decidable (IntCounters se) :=
  decidable_of_iff ((-2 ^ 31 ≤ se.seeders ∧ se.seeders < 2 ^ 31) ∧
      (-2 ^ 31 ≤ se.complete ∧ se.complete < 2 ^ 31) ∧ -2 ^ 31 ≤ se.leechers ∧ se.leechers < 2 ^ 31)
    ⟨fun ⟨seeders, complete, leechers⟩ => ⟨seeders, complete, leechers⟩,
      fun ints => ⟨ints.seeders, ints.complete, ints.leechers⟩⟩

theorem length_counters_le {se : ScrapeEntry} (ints : IntCounters se) :
    (scrapeCounters se).length ≤ 77 := by
  have seeders := length_decimal_int_le se.seeders 10 (by decide) (by have := ints.seeders; omega)
    (by have := ints.seeders; omega)
  have complete := length_decimal_int_le se.complete 10 (by decide)
    (by have := ints.complete; omega) (by have := ints.complete; omega)
  have leechers := length_decimal_int_le se.leechers 10 (by decide)
    (by have := ints.leechers; omega) (by have := ints.leechers; omega)
  have literals : (text "d8:completei").length = 12 ∧ (text "e10:downloadedi").length = 15 ∧
      (text "e10:incompletei").length = 15 ∧ (text "ee").length = 2 := by decide +kernel
  simp only [scrapeCounters, List.length_append]
  omega

theorem length_entries_le (old : Nat → UInt8) (sctx : List ScrapeEntry)
    (ints : ∀ se ∈ sctx, IntCounters se) :
    (encodeEntries (fileEntries old sctx)).length ≤ 100 * sctx.length := by
  induction sctx generalizing old with
  | nil => simp [fileEntries, encodeEntries]
  | cons se rest ih =>
      rw [List.forall_mem_cons] at ints
      have counters := length_counters_le ints.1
      have others := ih (fun _ => 0) ints.2
      have literal : (text "20:").length = 3 := by decide +kernel
      have hash := length_cur_hash old se.infoHash
      rw [fileEntries, encodeEntries, encode_hash, encode_stats]
      simp only [List.length_append, List.length_cons]
      omega

/-- From one entry on, 128 bytes for each are more than the text and its NUL. -/
theorem scrape_text_fits (old : Nat → UInt8) (sctx : List ScrapeEntry) (some_entry : sctx ≠ [])
    (few : sctx.length < 2 ^ 24) (ints : ∀ se ∈ sctx, IntCounters se) :
    (encode (filesDict (fileEntries old sctx))).length < (scrapeList sctx).length ∧
      (scrapeList sctx).length + 128 ≤ 2 ^ 31 := by
  have positive := List.length_pos_iff.mpr some_entry
  have entries := length_entries_le old sctx ints
  have name : (encodeBytes (text "files")).length = 7 := by decide +kernel
  have size : (scrapeList sctx).length = 128 * sctx.length := by
    have same : toInt32 (128 * sctx.length) = 128 * sctx.length :=
      Int.bmod_eq_of_le (by omega) (by omega)
    rw [scrapeList, List.length_replicate, same, size_t_of_small _ (by omega) (by omega)]
    omega
  simp only [filesDict, encode, encodeEntries, List.length_append, List.length_cons,
    List.length_nil, size, name]
  omega

/-- The text replaces what the buffer held. -/
theorem scrape_body_holds (unset : Unset) (old : Nat → UInt8) (sctx : List ScrapeEntry)
    (some_entry : sctx ≠ []) (few : sctx.length < 2 ^ 24) (ints : ∀ se ∈ sctx, IntCounters se)
    {out : Buffer} (empty : out.cursor = 0) :
    ∃ written, ((bencodeScrapeCtx old sctx (scrapeList sctx)).bind fun printed =>
        (bufferWriteToBuffer unset out printed.mem printed.written).map Prod.snd) = some written ∧
      Buffers.Holds written (encode (filesDict (fileEntries old sctx))) := by
  obtain ⟨fits, small⟩ := scrape_text_fits old sctx some_entry few ints
  have positive := List.length_pos_iff.mpr (encode_ne_nil (filesDict (fileEntries old sctx)))
  obtain ⟨printed, wrote, whole, -⟩ := scrape_ctx_prints old sctx _ fits
  have inside : printed.written ≤ printed.mem.length := by
    rw [whole.count, whole.size]
    exact fits.le
  obtain ⟨written, copied, holds⟩ := write_holds unset (empty_holds empty) printed.mem
    printed.written (by rw [whole.count]; exact positive) inside (by rw [whole.count]; omega)
  have content : printed.mem.take printed.written =
      encode (filesDict (fileEntries old sctx)) := by
    rw [whole.count]
    exact (List.prefix_iff_eq_take.mp whole.stored).symm
  refine ⟨written, ?_, content ▸ holds⟩
  rw [wrote, Option.bind_some, copied, Option.map_some]

/-! ## The digits read back -/

theorem scan_hex_byte (b : UInt8) : scanHex (hexByte b) = some b := by
  have table : ∀ n < 256, scanHex (hexByte (UInt8.ofNat n)) = some (UInt8.ofNat n) := by
    decide +kernel
  have read := table b.toNat b.toNat_lt
  rwa [UInt8.ofNat_toNat] at read

theorem sscanf_hex_byte (b : UInt8) (rest : List UInt8) :
    sscanfHhx (hexByte b ++ rest) = some b := by
  have digits : ∀ c ∈ hexByte b, isLowerHex c = true := by
    have lower := hex_text_lower [b]
    rwa [hexText, List.flatMap_singleton] at lower
  have string : cstr (hexByte b ++ rest) = hexByte b ++ cstr rest := by
    rw [cstr, List.takeWhile_append_of_pos]
    · rfl
    · intro c member
      simpa using lower_hex_ne_nul c (digits c member)
  have high : isLowerHex (hexDigit (b.toNat / 16)) = true := digits _ (by simp [hexByte])
  have unskipped : (hexByte b ++ cstr rest).dropWhile isspace = hexByte b ++ cstr rest := by
    simp [hexByte, lower_hex_not_space _ high]
  have two : (hexByte b).length = 2 := rfl
  rw [sscanfHhx, string, unskipped, ← two, List.take_left, scan_hex_byte]

/-- The bytes `url_decode` printed are the bytes read back. -/
theorem cur_hash_digits (old : Nat → UInt8) (h : InfoHash) (back : List UInt8) :
    curHash old (hexText h.bytes ++ back) = h.bytes := by
  have whole : ∀ (bytes : List UInt8) (old : Nat → UInt8),
      ((List.range bytes.length).map fun i =>
        (sscanfHhx ((hexText bytes ++ back).drop (2 * i))).getD (old i)) = bytes := by
    intro bytes
    induction bytes with
    | nil => exact fun _ => rfl
    | cons b rest ih =>
        intro old
        have later := ih fun i => old (i + 1)
        have step : ∀ i, (hexText (b :: rest) ++ back).drop (2 * (i + 1)) =
            (hexText rest ++ back).drop (2 * i) := fun i => rfl
        have first : sscanfHhx (hexText (b :: rest) ++ back) = some b := by
          rw [hexText, List.flatMap_cons, List.append_assoc, sscanf_hex_byte]
        rw [List.length_cons, List.range_succ_eq_map, List.map_cons, List.map_map]
        simp only [Function.comp_def, Nat.succ_eq_add_one, step, later, Nat.mul_zero,
          List.drop_zero, first, Option.getD_some]
  rw [curHash, ← h.size]
  exact whole h.bytes old

theorem cur_hash_key (old : Nat → UInt8) (h : InfoHash) : curHash old (hashKey h) = h.bytes := by
  obtain ⟨back, digits⟩ : ∃ back, hashKey h = hexText h.bytes ++ back := by
    rw [hashKey, strncpy, cstr_self _ (hex_text_nul_free h.bytes), List.take_append,
      List.take_of_length_le (by rw [length_hash_text]; decide)]
    exact ⟨_, rfl⟩
  rw [digits, cur_hash_digits]

end Ttracker.ScrapeText
