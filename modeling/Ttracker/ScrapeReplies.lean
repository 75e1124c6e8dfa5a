import Ttracker.ScrapeText
import Ttracker.SharedTorrents
import Ttracker.InfoHashKeys

/-!
What `_job_handle_scrape` leaves in `job->out`. The entries come out in the reverse
of the query's order, and each shows the torrent its lookup returned.
-/
namespace Ttracker.ScrapeReplies
open CLibrary LinkedNodes HttpQuery PeerRequest RequestCopies InfoHashKeys Torrents TorrentCache
  AnnounceHandler ScrapeHandler SharedTorrents ScrapeText Buffers Bencode TransitionRuns

/-! ## One lookup of a scrape -/

/-- What every run stores for a torrent: a string and zeros. -/
def Stored (tl : TorrentList) : Prop :=
  ∀ te ∈ tl.list, ∃ key, te.val.infoHash = strncpy torrentHashLen key ∧
    (cstr key).length < torrentHashLen

/-- `complete`, `downloaded` and `incomplete` of a torrent; zeros until it is listed. -/
def torrentStats (tl : TorrentList) (h : InfoHash) : Int × Int × Int :=
  match torrentDoLookupTorrentInfoHash (hashKey h) tl.list with
  | some te => (te.val.seeders, te.val.complete, te.val.leechers)
  | none => (0, 0, 0)

def entryStats (se : ScrapeEntry) : Int × Int × Int := (se.seeders, se.complete, se.leechers)

/-- The memory is zero where the lookup compares it behind the 40 digits and their NUL. -/
def ZeroBehind (m : FreshHash) : Prop := (m.mem.drop 41).take 215 = List.replicate 215 0

instance (m : FreshHash) : Decidable (ZeroBehind m) := inferInstanceAs (Decidable (_ = _))

def keyOver (m : FreshHash) (h : InfoHash) : List UInt8 := hexText h.bytes ++ 0 :: m.mem.drop 41

/-- Other bytes behind the digits make the torrent a new one. -/
def shownStats (tl : TorrentList) (m : FreshHash) (h : InfoHash) : Int × Int × Int :=
  if ZeroBehind m then torrentStats tl h else (0, 0, 0)

theorem key_over_string (m : FreshHash) (h : InfoHash) : cstr (keyOver m h) = hexText h.bytes :=
  cstr_append_nul _ _ (hex_text_nul_free h.bytes)

theorem key_over_stored (m : FreshHash) (h : InfoHash) :
    strncpy torrentHashLen (keyOver m h) = hashKey h :=
  strncpy_congr _ _ _ (by rw [key_over_string, cstr_self _ (hex_text_nul_free h.bytes)])

theorem key_over_padded_iff (m : FreshHash) (h : InfoHash) :
    ZeroPadded torrentHashLen (keyOver m h) ↔ ZeroBehind m := by
  have digits := length_hash_text h
  have front : (keyOver m h).take torrentHashLen =
      hexText h.bytes ++ 0 :: (m.mem.drop 41).take 215 := by
    rw [keyOver, List.take_append, List.take_of_length_le (by rw [digits]; decide), digits]
    rfl
  have key : hashKey h = hexText h.bytes ++ 0 :: List.replicate 215 0 := by
    rw [← (padded_key h).1, List.take_append, List.take_of_length_le (by rw [digits]; decide), digits]
    rfl
  rw [ZeroPadded, key_over_stored, front, key, List.append_cancel_left_eq, List.cons.injEq]
  exact ⟨fun same => same.2, fun same => ⟨rfl, same⟩⟩

theorem lookup_stored {db : Database} {key : List UInt8} {tl after : TorrentList}
    {found : Option (Node TorrentEntry)} (stored : Stored tl)
    (lookup : Lookup db key tl after found) : Stored after := by
  cases lookup with
  | hit te found => exact stored
  | unknown missed refused => exact stored
  | inserted missed fits known =>
      rw [length_lookup_sql, queryLen] at fits
      refine List.forall_mem_cons.mpr ⟨⟨key, rfl, ?_⟩, stored⟩
      rw [torrentHashLen]
      omega

/-- A lookup with a scrape's key returns a torrent of its hash, with the counters
shown for it, and leaves the other hashes alone. -/
theorem lookup_key_over (db : Database) (tl : TorrentList) (m : FreshHash) (h : InfoHash)
    (stored : Stored tl) (known : db (lookupSql (hexText h.bytes)) ≠ -1) :
    ∃ after te, torrentLookupTorrent db (keyOver m h) tl = .ok (after, some te) ∧
      Stored after ∧ te.val.infoHash = hashKey h ∧
      (te.val.seeders, te.val.complete, te.val.leechers) = shownStats tl m h ∧
      ∀ other, other ≠ h → torrentStats after other = torrentStats tl other := by
  have string := key_over_string m h
  have room : (lookupSql (keyOver m h)).length < queryLen := by
    rw [length_lookup_sql, string, length_hash_text]
    decide
  obtain ⟨after, found, looked⟩ := lookup_defined db (keyOver m h) tl room
  have lookup := lookup_cases looked
  have kept := lookup_stored stored lookup
  have whole : (hashKey h).take torrentHashLen = hashKey h :=
    List.take_of_length_le (length_hash_key h).le
  -- with zeros behind the digits the search is one for the hash's key
  have padded : ZeroBehind m → torrentDoLookupTorrentInfoHash (keyOver m h) tl.list =
      torrentDoLookupTorrentInfoHash (hashKey h) tl.list := by
    intro zeros
    have same := (key_over_padded_iff m h).mpr zeros
    rw [ZeroPadded, key_over_stored] at same
    rw [torrentDoLookupTorrentInfoHash, torrentDoLookupTorrentInfoHash, same, whole]
  cases lookup with
  | hit te found =>
      obtain ⟨member, same⟩ := do_lookup_mem found
      obtain ⟨key, shape, short⟩ := stored te member
      obtain ⟨equal, zeros⟩ := matches_stored _ key _ shape short same
      have behind := (key_over_padded_iff m h).mp zeros
      refine ⟨tl, te, looked, stored, ?_, ?_, fun _ _ => rfl⟩
      · rw [shape, hashKey]
        apply strncpy_congr
        rw [← stored_string shape short, ← equal, string, cstr_self _ (hex_text_nul_free h.bytes)]
      · rw [shownStats, if_pos behind, torrentStats, ← padded behind, found]
  | unknown missed refused =>
      have sql : lookupSql (keyOver m h) = lookupSql (hexText h.bytes) :=
        lookup_sql_congr _ _ (by rw [string, cstr_self _ (hex_text_nul_free h.bytes)])
      exact absurd (sql ▸ refused) known
  | inserted missed fits answered =>
      refine ⟨_, _, looked, kept, key_over_stored m h, ?_, ?_⟩
      · rw [shownStats]
        split
        · next behind =>
            rw [padded behind] at missed
            rw [torrentStats, missed]
            rfl
        · rfl
      · intro other different
        have apart : ((freshTorrent db (keyOver m h) tl).val.infoHash.take torrentHashLen ==
            (hashKey other).take torrentHashLen) = false := by
          have key : (freshTorrent db (keyOver m h) tl).val.infoHash = hashKey h :=
            key_over_stored m h
          rw [key, whole, List.take_of_length_le (length_hash_key other).le, beq_eq_false_iff_ne]
          exact fun same => different (hash_key_injective h other same).symm
        rw [torrentStats, torrentStats, torrentDoLookupTorrentInfoHash, List.find?_cons, apart]
        rfl

/-! ## The whole hash list -/

/-- The keys of a scrape in the order they are looked up, each with its memory. -/
abbrev Asked := List (FreshHash × InfoHash)

def askedKeys (asked : Asked) : List (List UInt8) := asked.map fun p => keyOver p.1 p.2

def IntTorrents (tl : TorrentList) : Prop :=
  ∀ te ∈ tl.list, IntCounters
    ⟨te.val.seeders, te.val.leechers, te.val.complete, te.val.peerCount, te.val.infoHash⟩

instance (tl : TorrentList) : Decidable (IntTorrents tl) := inferInstanceAs (Decidable (∀ _ ∈ _, _))

theorem lookup_ints {db : Database} {key : List UInt8} {tl after : TorrentList}
    {found : Option (Node TorrentEntry)} (ints : IntTorrents tl)
    (lookup : Lookup db key tl after found) : IntTorrents after := by
  cases lookup with
  | hit te found => exact ints
  | unknown missed refused => exact ints
  | inserted missed fits known =>
      refine List.forall_mem_cons.mpr ⟨?_, ints⟩
      constructor <;> simp [freshTorrent, mkTorrent]

/-- With known torrents the loop copies one entry for each key, newest first. While no
hash comes twice each entry shows the list as it was before the scrape. -/
theorem scrape_hashes_entries (db : Database) (asked : Asked) (s : Scraping)
    (stored : Stored s.tl) (ints : IntTorrents s.tl)
    (known : ∀ p ∈ asked, db (lookupSql (hexText p.2.bytes)) ≠ -1) :
    ∃ (t : Scraping) (es : List ScrapeEntry), scrapeHashes db (askedKeys asked) s = .ok (true, t) ∧
      t.sctx = es.reverse ++ s.sctx ∧
      (∀ se ∈ es, IntCounters se) ∧
      es.map ScrapeEntry.infoHash = asked.map (fun p => hashKey p.2) ∧
      ((asked.map Prod.snd).Nodup →
        es.map entryStats = asked.map fun p => shownStats s.tl p.1 p.2) := by
  induction asked generalizing s with
  | nil => exact ⟨s, [], rfl, rfl, by simp, rfl, fun _ => rfl⟩
  | cons p rest ih =>
      obtain ⟨m, h⟩ := p
      rw [List.forall_mem_cons] at known
      obtain ⟨after, te, looked, kept, hash, shown, others⟩ :=
        lookup_key_over db s.tl m h stored known.1
      have lookup := lookup_cases looked
      have laterInts := lookup_ints ints lookup
      obtain ⟨t, es, ended, collected, esInts, hashes, stats⟩ :=
        ih ⟨after, scrapeAddTorrent s.sctx te.val, s.handed ++ [keyOver m h]⟩ kept laterInts known.2
      let se : ScrapeEntry := ⟨te.val.seeders, te.val.leechers, te.val.complete, te.val.peerCount,
        te.val.infoHash⟩
      refine ⟨t, se :: es, ?_, ?_, ?_, ?_, ?_⟩
      · simpa only [askedKeys, List.map_cons, scrapeHashes, looked] using ended
      · simpa [scrapeAddTorrent, se] using collected
      · exact List.forall_mem_cons.mpr ⟨laterInts te (looked_mem lookup), esInts⟩
      · rw [List.map_cons, List.map_cons, hashes]
        exact congrArg (· :: rest.map fun p => hashKey p.2) hash
      · intro distinct
        rw [List.map_cons, List.nodup_cons] at distinct
        rw [List.map_cons, List.map_cons, stats distinct.2]
        congr 1
        apply List.map_congr_left
        intro q member
        have later : q.2 ∈ rest.map Prod.snd := List.mem_map_of_mem member
        have different : q.2 ≠ h := fun same => distinct.1 (same ▸ later)
        simp only [shownStats, others q.2 different]

/-! ## The body -/

def statsOf (stats : Int × Int × Int) : Value := statsValue stats.1 stats.2.1 stats.2.2

theorem file_entries_keys (old : Nat → UInt8) (es : List ScrapeEntry) (hs : List InfoHash)
    (hashes : es.map ScrapeEntry.infoHash = hs.map hashKey) :
    (fileEntries old es).map Prod.fst = hs.map InfoHash.bytes := by
  induction es generalizing old hs with
  | nil =>
      cases hs with
      | nil => rfl
      | cons h rest => simp at hashes
  | cons se rest ih =>
      cases hs with
      | nil => simp at hashes
      | cons h later =>
          rw [List.map_cons, List.map_cons, List.cons.injEq] at hashes
          rw [fileEntries, hashes.1, cur_hash_key, List.map_cons, List.map_cons,
            ih _ later hashes.2]

theorem file_entries_shown (old : Nat → UInt8) (tl : TorrentList) (es : List ScrapeEntry)
    (asked : Asked) (hashes : es.map ScrapeEntry.infoHash = asked.map fun p => hashKey p.2)
    (stats : es.map entryStats = asked.map fun p => shownStats tl p.1 p.2) :
    fileEntries old es = asked.map fun p => (p.2.bytes, statsOf (shownStats tl p.1 p.2)) := by
  induction es generalizing old asked with
  | nil =>
      cases asked with
      | nil => rfl
      | cons p rest => simp at hashes
  | cons se rest ih =>
      cases asked with
      | nil => simp at hashes
      | cons p later =>
          rw [List.map_cons, List.map_cons, List.cons.injEq] at hashes stats
          rw [fileEntries, hashes.1, cur_hash_key, ih _ later hashes.2 stats.2, List.map_cons,
            ← stats.1]
          rfl

/-- One ascending dictionary of the requested hashes, each with its torrent's counters. -/
def Answers (tl : TorrentList) (hashes : List InfoHash) (body : Value) : Prop :=
  ∃ files, body = filesDict files ∧
    (files.map Prod.fst).Pairwise (· < ·) ∧
    (∀ key, key ∈ files.map Prod.fst ↔ ∃ h ∈ hashes, h.bytes = key) ∧
    ∀ h ∈ hashes, ∀ value, (h.bytes, value) ∈ files → value = statsOf (torrentStats tl h)

/-- The query names its hashes from the greatest to the smallest, and a listed torrent
with counters to show is looked up over memory that is zero behind the digits. -/
structure WellAsked (tl : TorrentList) (asked : Asked) : Prop where
  descending : (asked.map fun p => p.2.bytes).Pairwise (· > ·)
  found : ∀ p ∈ asked, ZeroBehind p.1 ∨ torrentStats tl p.2 = (0, 0, 0)

theorem stats_injective (a b : Int × Int × Int) (same : statsOf a = statsOf b) : a = b := by
  obtain ⟨a, b, c⟩ := a
  simpa [statsOf, statsValue, Prod.ext_iff] using same

theorem shown_iff (tl : TorrentList) (p : FreshHash × InfoHash) :
    shownStats tl p.1 p.2 = torrentStats tl p.2 ↔
      ZeroBehind p.1 ∨ torrentStats tl p.2 = (0, 0, 0) := by
  rw [shownStats]
  split
  · next zeros => simp [zeros]
  · next dirty => simp [dirty, eq_comm]

theorem answers_iff (old : Nat → UInt8) (tl : TorrentList) (es : List ScrapeEntry) (asked : Asked)
    (hashes : es.map ScrapeEntry.infoHash = asked.map fun p => hashKey p.2)
    (stats : (asked.map Prod.snd).Nodup →
      es.map entryStats = asked.map fun p => shownStats tl p.1 p.2) :
    Answers tl (asked.map Prod.snd) (filesDict (fileEntries old es.reverse)) ↔
      WellAsked tl asked := by
  have reversed : es.reverse.map ScrapeEntry.infoHash =
      asked.reverse.map fun p => hashKey p.2 := by
    rw [List.map_reverse, hashes, List.map_reverse]
  have keys : (fileEntries old es.reverse).map Prod.fst =
      (asked.map fun p => p.2.bytes).reverse := by
    rw [file_entries_keys old es.reverse (asked.reverse.map Prod.snd) (by rw [reversed, List.map_map]; rfl),
      List.map_map, List.map_reverse]
    rfl
  have entries : (asked.map Prod.snd).Nodup → fileEntries old es.reverse =
      asked.reverse.map fun p => (p.2.bytes, statsOf (shownStats tl p.1 p.2)) := by
    intro distinct
    apply file_entries_shown old tl es.reverse asked.reverse reversed
    rw [List.map_reverse, stats distinct, List.map_reverse]
  have nodup : (asked.map fun p => p.2.bytes).Pairwise (· > ·) → (asked.map Prod.snd).Nodup := by
    intro descending
    apply List.Nodup.of_map InfoHash.bytes
    rw [List.map_map]
    refine List.Pairwise.imp ?_ descending
    rintro a _ greater rfl
    exact List.lt_irrefl a greater
  constructor
  · rintro ⟨files, same, ascending, -, values⟩
    have printed : files = fileEntries old es.reverse := by
      simpa [filesDict] using same.symm
    rw [printed, keys, List.pairwise_reverse] at ascending
    refine ⟨ascending, fun p member => ?_⟩
    rw [printed, entries (nodup ascending)] at values
    rw [← shown_iff]
    apply stats_injective
    exact values p.2 (List.mem_map_of_mem member) _
      (List.mem_map.mpr ⟨p, List.mem_reverse.mpr member, rfl⟩)
  · intro asks
    refine ⟨_, rfl, ?_, ?_, ?_⟩
    · rw [keys, List.pairwise_reverse]
      exact asks.descending
    · intro key
      have names : (asked.map fun p => p.2.bytes) = (asked.map Prod.snd).map InfoHash.bytes := by
        rw [List.map_map]
        rfl
      rw [keys, List.mem_reverse, names, List.mem_map]
    · intro h _ value member
      rw [entries (nodup asks.descending)] at member
      obtain ⟨p, inside, same⟩ := List.mem_map.mp member
      rw [Prod.mk.injEq] at same
      have hash := bytes_injective p.2 h same.1
      rw [← same.2, ← hash, (shown_iff tl p).mpr (asks.found p (List.mem_reverse.mp inside))]

/-! ## The request -/

/-- An accepted scrape request, and the hashes its values decode to in the order of
the query, all of known torrents. -/
structure ScrapeRequest (env : Environment) (input : Buffer) (result : QueryResult)
    (hashes : List InfoHash) : Prop where
  chosen : httpParseJobFromRequest input = some .scrape
  read : input.cursor ≤ httpMaxReqSize
  parsed : httpParseQuery input .scrape = some result
  accepted : result.ret = 0
  named : (queryPieces input 12).map (fun piece => env.curl.run (cstr piece.2)) =
    hashes.map fun h => some h.bytes
  known : ∀ h ∈ hashes, env.db (lookupSql (hexText h.bytes)) ≠ -1

/-- The hashes with the memory `xmalloc` returned for them. The parsed list is in
reverse order, so the last hash of the query gets the first memory. -/
def askedOf (hashes : List InfoHash) (fresh : Nat → FreshHash) : Asked :=
  (hashes.reverse.mapIdx fun i h => (fresh i, h)).reverse

theorem asked_hashes (hashes : List InfoHash) (fresh : Nat → FreshHash) :
    (askedOf hashes fresh).map Prod.snd = hashes := by
  rw [askedOf, List.map_reverse, List.reverse_eq_iff]
  apply List.ext_getElem
  · simp
  · intro i _ _
    simp

theorem scrape_prefix (input : Buffer) (chosen : httpParseJobFromRequest input = some .scrape) :
    getScrape <+: input.p := by
  unfold httpParseJobFromRequest at chosen
  split at chosen
  · contradiction
  · split at chosen
    · next same =>
        have whole : (cstr input.p).take 11 = getScrape := by
          simpa [strncmpEq, getScrape, ascii] using same
        rw [← whole]
        exact (List.take_prefix 11 _).trans (List.takeWhile_prefix _)
    · contradiction

/-- Every accepted scrape has a piece, and no more of them than the request has bytes. -/
theorem scrape_pieces (input : Buffer) (result : QueryResult)
    (chosen : httpParseJobFromRequest input = some .scrape)
    (parsed : httpParseQuery input .scrape = some result) (accepted : result.ret = 0) :
    queryPieces input 12 ≠ [] ∧ ((queryPieces input 12).length : Int) ≤ input.cursor := by
  obtain ⟨found, start, head, stages⟩ := accepted_line input .scrape result parsed accepted
  have far := stages.long
  have ends := line_end_found _ _ _ _ stages.line (by omega)
  have inside := read_at_inside ends.2.2.1
  have version := stages.version
  obtain ⟨rest, shape⟩ := scrape_prefix input chosen
  have behind : 12 < found := by
    by_contra early
    -- the version would overlap `GET /scrape`
    have near : found = 11 ∨ found = 12 := by omega
    rw [← shape] at version
    rcases near with rfl | rfl
    · simp [readSpan, getScrape, http11, http10, ascii] at version
    · simp [readSpan, getScrape, http11, http10, ascii] at version
  have text : (queryText input 12).length = found - 12 := by
    simp only [queryText, stages.line, Option.getD_some, List.length_drop, List.length_take,
      List.length_set]
    omega
  have fewer := pieces_length_le (queryText input 12)
  constructor
  · intro empty
    rw [queryPieces] at empty
    cases query : queryText input 12 with
    | nil =>
        rw [query, List.length_nil] at text
        omega
    | cons c rest =>
        rw [query, pieces] at empty
        contradiction
  · rw [queryPieces]
    omega

theorem decoded_over (curl : Unescape) (m : FreshHash) (value : List UInt8) (h : InfoHash)
    (decoded : curl.run value = some h.bytes) : urlDecode curl m.mem value = keyOver m h := by
  rw [url_decode_written curl _ value h.bytes decoded h.size.ge (by rw [m.size]; decide),
    List.take_of_length_le h.size.le, keyOver]

theorem request_keys {env : Environment} {input : Buffer} {result : QueryResult}
    {hashes : List InfoHash} (request : ScrapeRequest env input result hashes)
    (fresh : Nat → FreshHash) :
    httpBuildPeerReqHashList env.curl result.head (fun i => (fresh i).mem) =
      askedKeys (askedOf hashes fresh) := by
  obtain ⟨start, offset, built, -⟩ :=
    accepted_pieces input .scrape result request.parsed request.accepted
  cases offset
  have named := congrArg List.reverse request.named
  rw [← List.map_reverse, ← List.map_reverse] at named
  have same := congrArg List.length named
  simp only [List.length_map] at same
  rw [httpBuildPeerReqHashList, askedKeys, askedOf, List.map_reverse, built, ← List.map_reverse]
  congr 1
  apply List.ext_getElem
  · simpa using same
  · intro i inside other
    simp only [List.length_mapIdx, List.length_map] at inside other
    have member : (queryPieces input 12).reverse[i] ∈ pieces (queryText input 12) :=
      List.mem_reverse.mp (List.getElem_mem inside)
    have decoded : env.curl.run (cstr ((queryPieces input 12).reverse[i]).2) =
        some (hashes.reverse[i]).bytes := by
      have here := List.getElem_of_eq named (i := i) (by simpa using inside)
      simpa only [List.getElem_map] using here
    simp only [List.getElem_mapIdx, List.getElem_map]
    rw [(mk_kv_piece _ _ member).2]
    exact decoded_over env.curl (fresh i) _ _ decoded

/-! ## Every reachable state -/

theorem lookup_step_stored {db : Database} {s t : Sharing} {key : List UInt8}
    {h : Option InfoHash} (stored : Stored s.tl) (taken : lookupStep db s key h = some t) :
    Stored t.tl := by
  unfold lookupStep at taken
  split at taken
  · contradiction
  · next tl looked =>
      cases taken
      exact lookup_stored stored (lookup_cases looked)
  · next tl te looked =>
      cases taken
      exact lookup_stored stored (lookup_cases looked)

theorem step_stored (env : Environment) (s : Sharing) (piece : Piece) (t : Sharing)
    (stored : Stored s.tl) (taken : sharedStep env s piece = some t) : Stored t.tl := by
  cases piece with
  | announce job =>
      simp only [sharedStep] at taken
      split at taken
      · contradiction
      · split at taken
        · exact lookup_step_stored stored taken
        · cases taken
          exact stored
  | scrape value fresh => exact lookup_step_stored stored taken
  | work addr locked =>
      cases taken
      intro te member
      have listed : (te.addr, te.val.infoHash) ∈ entries s.tl := by
        rw [← entries_work s.tl addr locked]
        exact entry_mem member
      obtain ⟨old, inside, same⟩ := List.mem_map.mp listed
      rw [← (Prod.mk.inj same).2]
      exact stored old inside

theorem reachable_stored (env : Environment) (before : List Piece) (s : Sharing)
    (reached : replay (sharedStep env) ⟨.empty, []⟩ before = some s) : Stored s.tl :=
  reachable_invariant (sharedStep env) (fun s => Stored s.tl)
    (fun s piece t stored taken => step_stored env s piece t stored taken) _ s before
    (by simp [Stored, TorrentList.empty]) reached

def HoldsAnswer (tl : TorrentList) (hashes : List InfoHash) (out : Buffer) : Prop :=
  ∃ body, Answers tl hashes body ∧ Holds out (encode body)

/-- A scrape of known torrents leaves the dictionary of its entries, one for each hash. -/
theorem scrape_leaves_entries (env : Environment) (tl : TorrentList) (input : Buffer)
    (result : QueryResult) (hashes : List InfoHash) (fresh : Nat → FreshHash) (unset : Unset)
    (old : Nat → UInt8) (out : Buffer) (stored : Stored tl) (ints : IntTorrents tl)
    (request : ScrapeRequest env input result hashes) (empty : out.cursor = 0) :
    ∃ (after : TorrentList) (written : Buffer) (es : List ScrapeEntry),
      jobHandleScrapeOut env unset old tl result.head fresh out = .ok (after, some written) ∧
      Holds written (encode (filesDict (fileEntries old es.reverse))) ∧
      es.map ScrapeEntry.infoHash = (askedOf hashes fresh).map (fun p => hashKey p.2) ∧
      (((askedOf hashes fresh).map Prod.snd).Nodup →
        es.map entryStats = (askedOf hashes fresh).map fun p => shownStats tl p.1 p.2) := by
  have hashList := asked_hashes hashes fresh
  obtain ⟨t, es, ended, collected, esInts, copied, stats⟩ := scrape_hashes_entries env.db
    (askedOf hashes fresh) ⟨torrentListWorkon tl, [], []⟩ stored ints
    (fun p member => request.known p.2 (hashList ▸ List.mem_map_of_mem member))
  rw [List.append_nil] at collected
  -- as many entries as the query has pieces
  have count : es.length = (queryPieces input 12).length := by
    have named := congrArg List.length request.named
    have sameLength := congrArg List.length copied
    have asked := congrArg List.length hashList
    simp only [List.length_map] at named sameLength asked
    omega
  obtain ⟨pieces, few⟩ := scrape_pieces input result request.chosen request.parsed request.accepted
  have read := request.read
  have some_entry : es.reverse ≠ [] := by
    rintro none
    rw [List.reverse_eq_nil_iff.mp none] at count
    exact pieces (List.length_eq_zero_iff.mp count.symm)
  have bounded : es.reverse.length < 2 ^ 24 := by
    rw [List.length_reverse, count]
    simp only [httpMaxReqSize] at read
    omega
  obtain ⟨written, wrote, holds⟩ := scrape_body_holds unset old es.reverse some_entry bounded
    (fun se member => esInts se (List.mem_reverse.mp member)) empty
  refine ⟨torrentListJobdone t.tl, written, es, ?_, holds, copied, stats⟩
  rw [jobHandleScrapeOut, jobHandleScrape, request_keys request fresh, ended]
  simp only [Except.map, if_true, collected, wrote]

/-- In every state the tracker reaches, a scrape of known torrents leaves a dictionary
in `job->out`; it is the ascending one with every counter right if and only if the
hashes come in descending order and no counters hide behind stray memory. -/
theorem scrape_answers_iff (env : Environment) (before : List Piece) (s : Sharing)
    (input : Buffer) (result : QueryResult) (hashes : List InfoHash) (fresh : Nat → FreshHash)
    (unset : Unset) (old : Nat → UInt8) (out : Buffer)
    (reached : replay (sharedStep env) ⟨.empty, []⟩ before = some s) (ints : IntTorrents s.tl)
    (request : ScrapeRequest env input result hashes) (empty : out.cursor = 0) :
    ∃ after written,
      jobHandleScrapeOut env unset old s.tl result.head fresh out = .ok (after, some written) ∧
        (HoldsAnswer s.tl hashes written ↔ WellAsked s.tl (askedOf hashes fresh)) := by
  obtain ⟨after, written, es, ended, holds, copied, stats⟩ := scrape_leaves_entries env s.tl input
    result hashes fresh unset old out (reachable_stored env before s reached) ints request empty
  have answers := answers_iff old s.tl es (askedOf hashes fresh) copied stats
  rw [asked_hashes] at answers
  refine ⟨after, written, ended, ?_⟩
  rw [← answers]
  constructor
  · rintro ⟨body, answer, other⟩
    rwa [encode_injective _ _ (holds_unique holds other)]
  · exact fun answer => ⟨_, answer, holds⟩

def repeated (b : UInt8) : InfoHash := ⟨List.replicate 20 b, List.length_replicate⟩

def announcedPieces : List Piece :=
  [.announce (sampleJob (ascii ['5']) eventStart),
    .work 0 (.add ⟨1, ⟨⟨ascii ['q'], by decide, by decide⟩, 6881, getPeerInfo ⟨10, 0, 0, 1⟩, 5⟩⟩)]

def descendingScrape : Buffer :=
  scrapeOf (queryOf [(infoHashKey, List.replicate 20 104), (infoHashKey, List.replicate 20 97)])

def cleanMemory : FreshHash := ⟨List.replicate 257 0, List.length_replicate⟩

/-- Only the memory for the hash of that torrent is clean. -/
def partlyClean (i : Nat) : FreshHash := if i = 1 then cleanMemory else dirtyMemory

theorem announced_ints : (replay (sharedStep sampleEnv) ⟨.empty, []⟩ announcedPieces).any
    (fun s => decide (IntTorrents s.tl) && s.tl.list.any fun te => te.val.leechers == 1) = true := by
  decide +kernel

theorem scrape_answers_iff_announced : ∃ (s : Sharing) (result : QueryResult),
    (∃ te ∈ s.tl.list, te.val.leechers = 1) ∧ ∃ (after : TorrentList) (written : Buffer),
      jobHandleScrapeOut sampleEnv (fun _ _ => 0) (fun _ => 0) s.tl result.head partlyClean
          mkBuffer = .ok (after, some written) ∧
        (HoldsAnswer s.tl [repeated 104, repeated 97] written ↔
          WellAsked s.tl (askedOf [repeated 104, repeated 97] partlyClean)) := by
  obtain ⟨s, reached, checked⟩ := (Option.any_eq_true _ _).mp announced_ints
  simp only [Bool.and_eq_true, decide_eq_true_eq, List.any_eq_true, beq_iff_eq] at checked
  obtain ⟨ints, listed⟩ := checked
  obtain ⟨result, parsed, accepted⟩ := parsed_scrape descendingScrape (by decide +kernel)
  have request : ScrapeRequest sampleEnv descendingScrape result [repeated 104, repeated 97] :=
    ⟨by decide +kernel, by decide +kernel, parsed, accepted, by decide +kernel,
      fun _ _ => (by decide : (7 : Int) ≠ -1)⟩
  exact ⟨s, result, listed, scrape_answers_iff sampleEnv announcedPieces s descendingScrape result
    [repeated 104, repeated 97] partlyClean (fun _ _ => 0) (fun _ => 0) mkBuffer reached ints
    request rfl⟩

def ascendingScrape : Buffer :=
  scrapeOf (queryOf [(infoHashKey, List.replicate 20 97), (infoHashKey, List.replicate 20 98)])

/-- Their dictionary comes out in descending order. -/
theorem ascending_scrape_descends :
    ¬ ∀ (env : Environment) (before : List Piece) (s : Sharing) (input : Buffer)
      (result : QueryResult) (hashes : List InfoHash) (fresh : Nat → FreshHash) (unset : Unset)
      (old : Nat → UInt8) (out : Buffer),
      replay (sharedStep env) ⟨.empty, []⟩ before = some s → IntTorrents s.tl →
        ScrapeRequest env input result hashes → out.cursor = 0 → ∃ after written,
          jobHandleScrapeOut env unset old s.tl result.head fresh out = .ok (after, some written) ∧
            HoldsAnswer s.tl hashes written := by
  intro claimed
  obtain ⟨result, parsed, accepted⟩ := parsed_scrape ascendingScrape (by decide +kernel)
  have request : ScrapeRequest sampleEnv ascendingScrape result [repeated 97, repeated 98] :=
    ⟨by decide +kernel, by decide +kernel, parsed, accepted, by decide +kernel,
      fun _ _ => (by decide : (7 : Int) ≠ -1)⟩
  have ints : IntTorrents .empty := by simp [IntTorrents, TorrentList.empty]
  have stored : Stored .empty := by simp [Stored, TorrentList.empty]
  obtain ⟨after, written, ended, body, answer, holds⟩ := claimed sampleEnv [] ⟨.empty, []⟩
    ascendingScrape result _ (fun _ => dirtyMemory) (fun _ _ => 0) (fun _ => 0) mkBuffer rfl ints
    request rfl
  obtain ⟨_, _, es, sameRun, printed, copied, stats⟩ := scrape_leaves_entries sampleEnv .empty
    ascendingScrape result _ (fun _ => dirtyMemory) (fun _ _ => 0) (fun _ => 0) mkBuffer stored
    ints request rfl
  have same := ended.symm.trans sameRun
  simp only [Except.ok.injEq, Prod.mk.injEq, Option.some.injEq] at same
  rw [← same.2] at printed
  rw [encode_injective _ _ (holds_unique holds printed),
    ← asked_hashes [repeated 97, repeated 98] fun _ => dirtyMemory] at answer
  have asks := (answers_iff (fun _ => 0) .empty es _ copied stats).mp answer
  exact absurd asks.descending (by decide +kernel)

/-! ## The bytes of the reply -/

theorem scrape_hashes_count (db : Database) (keys : List (List UInt8)) (s t : Scraping)
    (ended : scrapeHashes db keys s = .ok (true, t)) :
    t.sctx.length = s.sctx.length + keys.length := by
  induction keys generalizing s with
  | nil =>
      cases ended
      rfl
  | cons infoHash rest ih =>
      unfold scrapeHashes at ended
      split at ended
      · contradiction
      · cases ended
      · have later := ih _ ended
        simp only [scrapeAddTorrent, List.length_cons] at later ⊢
        omega

theorem length_hash_list (env : Environment) (input : Buffer) (result : QueryResult)
    (fresh : Nat → FreshHash) (parsed : httpParseQuery input .scrape = some result)
    (accepted : result.ret = 0) :
    (httpBuildPeerReqHashList env.curl result.head fun i => (fresh i).mem).length =
      (queryPieces input 12).length := by
  obtain ⟨start, offset, built, -⟩ := accepted_pieces input .scrape result parsed accepted
  cases offset
  rw [httpBuildPeerReqHashList, List.length_reverse, List.length_mapIdx, built, List.length_reverse,
    List.length_map]

/-- The hash list of an accepted scrape is not empty, each of its hashes gets an entry,
and whatever the counters are, text and NUL stay inside the allocation. -/
theorem scrape_bytes_inside (env : Environment) (input : Buffer) (result : QueryResult)
    (fresh : Nat → FreshHash) (chosen : httpParseJobFromRequest input = some .scrape)
    (read : input.cursor ≤ httpMaxReqSize) (parsed : httpParseQuery input .scrape = some result)
    (accepted : result.ret = 0) :
    httpBuildPeerReqHashList env.curl result.head (fun i => (fresh i).mem) ≠ [] ∧
      (∀ (tl : TorrentList) (t : Scraping),
        jobHandleScrape env tl result.head fresh = .ok (true, t) → t.sctx.length =
          (httpBuildPeerReqHashList env.curl result.head fun i => (fresh i).mem).length) ∧
      ∀ (old : Nat → UInt8) (sctx : List ScrapeEntry),
        sctx.length = (httpBuildPeerReqHashList env.curl result.head fun i => (fresh i).mem).length →
        (∀ se ∈ sctx, IntCounters se) →
          ∃ out, bencodeScrapeCtx old sctx (scrapeList sctx) = some out ∧
            out.written = (encode (filesDict (fileEntries old sctx))).length ∧
            encode (filesDict (fileEntries old sctx)) ++ [0] <+: out.mem := by
  have count := length_hash_list env input result fresh parsed accepted
  obtain ⟨some_piece, few⟩ := scrape_pieces input result chosen parsed accepted
  have positive := List.length_pos_iff.mpr some_piece
  refine ⟨?_, ?_, ?_⟩
  · apply List.length_pos_iff.mp
    omega
  · intro tl t ended
    unfold jobHandleScrape at ended
    cases looked : scrapeHashes env.db (httpBuildPeerReqHashList env.curl result.head
        fun i => (fresh i).mem) ⟨torrentListWorkon tl, [], []⟩ with
    | error fault => simp [looked, Except.map] at ended
    | ok both =>
        obtain ⟨whole, s⟩ := both
        simp only [looked, Except.map, Except.ok.injEq, Prod.mk.injEq] at ended
        obtain ⟨rfl, rfl⟩ := ended
        have entries := scrape_hashes_count _ _ _ _ looked
        rwa [List.length_nil, Nat.zero_add] at entries
  · intro old sctx same ints
    have some_entry : sctx ≠ [] := by
      apply List.length_pos_iff.mp
      omega
    have bounded : sctx.length < 2 ^ 24 := by
      simp only [httpMaxReqSize] at read
      omega
    have fits := (scrape_text_fits old sctx some_entry bounded ints).1
    obtain ⟨out, wrote, printed, ended⟩ := scrape_ctx_prints old sctx _ fits
    exact ⟨out, wrote, printed.count, ended⟩

theorem scrape_bytes_inside_plain : ∃ result,
    httpParseQuery plainScrape .scrape = some result ∧
      httpBuildPeerReqHashList sampleEnv.curl result.head (fun _ => dirtyMemory.mem) ≠ [] := by
  obtain ⟨result, parsed, accepted⟩ := parsed_scrape plainScrape (by decide +kernel)
  exact ⟨result, parsed, (scrape_bytes_inside sampleEnv plainScrape result (fun _ => dirtyMemory)
    (by decide +kernel) (by decide +kernel) parsed accepted).1⟩

end Ttracker.ScrapeReplies
