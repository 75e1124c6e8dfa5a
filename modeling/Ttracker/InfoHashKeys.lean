import Ttracker.RequestCopies
import Ttracker.ScrapeHandler

/-!
The info hash strings that reach `torrent_lookup_torrent` and the SQL text.
-/
namespace Ttracker.InfoHashKeys
open CLibrary HttpQuery PeerRequest RequestCopies TorrentCache AnnounceHandler ScrapeHandler

/-- The keys a request's handler calls the lookup with. -/
def handedKeys (env : Environment) (jobT : JobType) (list : List HttpUriKv) (tl : TorrentList)
    (fresh : Nat → FreshHash) : Except Fault (List (List UInt8)) :=
  match jobT with
  | .announce => (httpBuildPeerReq env.curl list).map fun ctx =>
      if sanitizePeerReq ctx = none then [ctx.infoHash] else []
  | .scrape => (jobHandleScrape env tl list fresh).map fun (_, s) => s.handed
  | .stop => .ok []

/-- Forty lower-case hex digits and a NUL, with room for the SQL text around them. -/
structure KeySafe (infoHash : List UInt8) : Prop where
  terminated : ∃ rest, infoHash = cstr infoHash ++ 0 :: rest
  length : (cstr infoHash).length = 40
  digits : ∀ c ∈ cstr infoHash, isLowerHex c = true
  fits : (lookupSql infoHash).length < queryLen

/-- Whatever the database answers, the list holds and fresh memory holds. A read
through a missing entry ends the process before any lookup; after an overrun no
key can be vouched for. -/
def KeysSafe (curl : Unescape) (jobT : JobType) (list : List HttpUriKv) : Prop :=
  ∀ db tl fresh, match handedKeys ⟨curl, db⟩ jobT list tl fresh with
    | .ok keys => ∀ key ∈ keys, KeySafe key
    | .error (.nullEntry _) => True
    | .error (.overrun _) => False

/-- The condition on the query text: an announce's copies fit, a scrape's values
all decode to a whole hash. -/
def HashesGiven (curl : Unescape) (jobT : JobType) (ps : Pieces) : Prop :=
  match jobT with
  | .announce => RequestHolds ps
  | .scrape => ∀ piece ∈ ps, ∃ decoded, curl.run (cstr piece.2) = some decoded ∧ 20 ≤ decoded.length
  | .stop => True

theorem hex_key_safe (bytes rest : List UInt8) (size : bytes.length = 20) :
    KeySafe (hexText bytes ++ 0 :: rest) := by
  have string := cstr_append_nul (hexText bytes) rest (hex_text_nul_free bytes)
  have length : (hexText bytes).length = 40 := by rw [length_hex_text, size]
  constructor
  · exact ⟨rest, by rw [string]⟩
  · rw [string, length]
  · rw [string]
    exact hex_text_lower bytes
  · rw [length_lookup_sql, string, length]
    decide

def strayMemory : FreshHash :=
  ⟨120 :: List.replicate 256 0, by rw [List.length_cons, List.length_replicate]; rfl⟩

theorem stray_string : cstr strayMemory.mem = [120] :=
  cstr_append_nul [120] (List.replicate 255 0) (by decide)

theorem announce_keys_safe_iff (curl : Unescape) (text : List UInt8) :
    KeysSafe curl .announce (listOf (pieces text)) ↔ RequestHolds (pieces text) := by
  rw [← no_overrun_iff curl text]
  constructor
  · intro safe field failed
    have ended := safe (fun _ => 0) .empty fun _ => strayMemory
    simp [handedKeys, failed, Except.map] at ended
  · intro fits db tl fresh
    cases built : httpBuildPeerReq curl (listOf (pieces text)) with
    | error fault =>
        cases fault with
        | nullEntry key => simp [handedKeys, built, Except.map]
        | overrun field => exact absurd built (fits field)
    | ok ctx =>
        simp only [handedKeys, built, Except.map]
        intro key member
        by_cases sane : sanitizePeerReq ctx = none
        · obtain ⟨_, decoded, _, _, long, digits⟩ := accepted_hash built sane
          simp only [sane, if_true, List.mem_singleton] at member
          rw [member, digits]
          exact hex_key_safe _ _ (by rw [List.length_take]; omega)
        · simp [sane] at member

theorem mem_hash_list (curl : Unescape) (text : List UInt8) (fresh : Nat → List UInt8)
    (key : List UInt8)
    (member : key ∈ httpBuildPeerReqHashList curl (listOf (pieces text)) fresh) :
    ∃ piece ∈ pieces text, ∃ i, key = urlDecode curl (fresh i) (cstr piece.2) := by
  rw [httpBuildPeerReqHashList, List.mem_reverse] at member
  obtain ⟨i, inside, rfl⟩ := List.mem_mapIdx.mp member
  obtain ⟨piece, present, same⟩ := List.mem_map.mp (List.mem_reverse.mp (List.getElem_mem inside))
  exact ⟨piece, present, i, by rw [← same, (mk_kv_piece text piece present).2]⟩

theorem value_in_hash_list (curl : Unescape) (text : List UInt8) (memory : List UInt8)
    (piece : List UInt8 × List UInt8) (present : piece ∈ pieces text) :
    urlDecode curl memory (cstr piece.2) ∈
      httpBuildPeerReqHashList curl (listOf (pieces text)) fun _ => memory := by
  have entry : mkKv piece.1 piece.2 ∈ listOf (pieces text) := by
    rw [listOf, List.mem_reverse]
    exact List.mem_map_of_mem present
  obtain ⟨i, inside, same⟩ := List.getElem_of_mem entry
  rw [httpBuildPeerReqHashList, List.mem_reverse]
  refine List.mem_mapIdx.mpr ⟨i, inside, ?_⟩
  rw [same, (mk_kv_piece text piece present).2]

theorem decoded_key_safe (curl : Unescape) (fresh : FreshHash) (value decoded : List UInt8)
    (found : curl.run value = some decoded) (long : 20 ≤ decoded.length) :
    KeySafe (urlDecode curl fresh.mem value) := by
  rw [url_decode_written curl _ value decoded found long (by rw [fresh.size]; decide)]
  exact hex_key_safe _ _ (by rw [List.length_take]; omega)

theorem scrape_keys_safe_iff (curl : Unescape) (text : List UInt8) :
    KeysSafe curl .scrape (listOf (pieces text)) ↔
      ∀ piece ∈ pieces text, ∃ decoded, curl.run (cstr piece.2) = some decoded ∧
        20 ≤ decoded.length := by
  constructor
  · intro safe piece present
    by_contra undecoded
    have untouched : ∀ decoded, curl.run (cstr piece.2) = some decoded → decoded.length < 20 := by
      intro decoded found
      by_contra long
      exact undecoded ⟨decoded, found, by omega⟩
    -- With stray memory everywhere and every torrent known, all keys are handed over.
    let keys := httpBuildPeerReqHashList curl (listOf (pieces text)) fun _ => strayMemory.mem
    have stray : strayMemory.mem ∈ keys := by
      have listed := value_in_hash_list curl text strayMemory.mem piece present
      rwa [url_decode_untouched curl _ _ untouched] at listed
    have fits : ∀ key ∈ keys, (lookupSql key).length < queryLen := by
      intro key member
      obtain ⟨other, _, _, rfl⟩ := mem_hash_list curl text _ key member
      by_cases decodes : ∃ decoded, curl.run (cstr other.2) = some decoded ∧ 20 ≤ decoded.length
      · obtain ⟨decoded, found, long⟩ := decodes
        exact (decoded_key_safe curl strayMemory _ decoded found long).fits
      · rw [url_decode_untouched]
        · rw [length_lookup_sql, stray_string]
          decide
        · intro decoded found
          by_contra long
          exact decodes ⟨decoded, found, by omega⟩
    obtain ⟨whole, s, ended, _⟩ := scrape_hashes_defined (fun _ => 1) keys
      ⟨torrentListWorkon .empty, [], []⟩ fits
    have handed := scrape_hashes_all _ keys _ s whole (fun _ => by decide) ended
    have all := safe (fun _ => 1) .empty fun _ => strayMemory
    simp only [handedKeys, jobHandleScrape, ended, Except.map, keys] at all
    have bad := (all strayMemory.mem (by rw [handed]; simpa using stray)).length
    rw [stray_string] at bad
    contradiction
  · intro decodes db tl fresh
    have keySafe : ∀ key ∈ httpBuildPeerReqHashList curl (listOf (pieces text)) fun i => (fresh i).mem,
        KeySafe key := by
      intro key member
      obtain ⟨piece, present, i, rfl⟩ := mem_hash_list curl text _ key member
      obtain ⟨decoded, found, long⟩ := decodes piece present
      exact decoded_key_safe curl (fresh i) _ decoded found long
    obtain ⟨whole, s, ended, handed⟩ := scrape_hashes_defined db _
      ⟨torrentListWorkon tl, [], []⟩ fun key member => (keySafe key member).fits
    simp only [handedKeys, jobHandleScrape, ended, Except.map]
    intro key member
    rcases handed key member with before | listed
    · contradiction
    · exact keySafe key listed

/-- Every key handed over is safe exactly when an announce's peer id and event
fit where they are copied, or every value of a scrape decodes to 20 bytes. -/
theorem handed_keys_safe_iff (curl : Unescape) (input : Buffer) (jobT : JobType)
    (result : QueryResult) (start : Nat) (offset : startOffset jobT = some start)
    (parsed : httpParseQuery input jobT = some result) (accepted : result.ret = 0) :
    KeysSafe curl jobT result.head ↔ HashesGiven curl jobT (queryPieces input start) := by
  obtain ⟨found, offset', built, _⟩ := accepted_pieces input jobT result parsed accepted
  rw [offset, Option.some.injEq] at offset'
  subst offset'
  rw [built]
  cases jobT with
  | announce => exact announce_keys_safe_iff curl (queryText input start)
  | scrape => exact scrape_keys_safe_iff curl (queryText input start)
  | stop => contradiction

/-- The buffer that holds the request line of a scrape with this query. -/
def scrapeOf (query : List UInt8) : Buffer :=
  let line := getScrape ++ ascii ['?'] ++ query ++ ascii [' '] ++ http11 ++ [13, 10]
  ⟨line ++ [0], line.length⟩

theorem parsed_scrape (input : Buffer)
    (evaluated : (httpParseQuery input .scrape).map QueryResult.ret = some 0) :
    ∃ result, httpParseQuery input .scrape = some result ∧ result.ret = 0 :=
  Option.map_eq_some_iff.mp evaluated

def plainScrape : Buffer := scrapeOf (queryOf [(infoHashKey, List.replicate 20 104)])

theorem handed_keys_safe_plain :
    ∃ result, httpParseQuery plainScrape .scrape = some result ∧
      KeysSafe .total .scrape result.head := by
  obtain ⟨result, parsed, accepted⟩ := parsed_scrape plainScrape (by decide +kernel)
  refine ⟨result, parsed, (handed_keys_safe_iff .total plainScrape .scrape result 12 rfl parsed
    accepted).mpr ?_⟩
  have long : ∀ piece ∈ queryPieces plainScrape 12, 20 ≤ (percentDecode (cstr piece.2)).length := by
    decide +kernel
  exact fun piece member => ⟨_, rfl, long piece member⟩

/-- A scrape for a three-character hash leaves the key as `xmalloc` returned it. -/
def shortScrape : Buffer := scrapeOf (queryOf [(infoHashKey, ascii ['a', 'b', 'c'])])

theorem short_hash_leaves_memory :
    ¬ ∀ (input : Buffer) (jobT : JobType) (result : QueryResult),
      httpParseJobFromRequest input = some jobT → httpParseQuery input jobT = some result →
        result.ret = 0 → KeysSafe .total jobT result.head := by
  intro claimed
  obtain ⟨result, parsed, accepted⟩ := parsed_scrape shortScrape (by decide +kernel)
  have safe := claimed shortScrape .scrape result (by decide +kernel) parsed accepted
  obtain ⟨start, offset, built, _⟩ := accepted_pieces shortScrape .scrape result parsed accepted
  cases offset
  rw [built] at safe
  have decodes := (scrape_keys_safe_iff .total (queryText shortScrape 12)).mp safe
  have short : ∃ piece ∈ queryPieces shortScrape 12, (percentDecode (cstr piece.2)).length < 20 := by
    decide +kernel
  obtain ⟨piece, member, few⟩ := short
  obtain ⟨decoded, found, long⟩ := decodes piece member
  cases found
  omega

end Ttracker.InfoHashKeys
