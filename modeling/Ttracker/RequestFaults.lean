import Ttracker.QueryMemory
import Ttracker.ServedRequests

/-!
Which requests end the tracker: a request that is accepted for parsing may still lead its
handler through a NULL entry, past a field, past the SQL buffer or past the block of its
peer list. Everything else on the way from the read to the message is defined.
-/
namespace Ttracker.RequestFaults
open CLibrary LinkedNodes HttpQuery QueryMemory PeerRequest RequestCopies Torrents TorrentCache
  AnnounceHandler ScrapeHandler ScrapeText PeerListReply AnnounceReplies ScrapeReplies Buffers
  HttpResponses Bencode ServedRequests
open BoundedPrint (Inside)

/-! ## Parsing -/

theorem parse_defined {b : Buffer} {jobT : JobType} {request : List UInt8} (holds : Holds b request)
    (chosen : httpParseJobFromRequest b = some jobT) :
    ∃ result, httpParseQuery b jobT = some result := by
  obtain ⟨p, cursor⟩ := b
  have inside := holds.stored.length_le
  have cursorIs : cursor = request.length := holds.cursor
  subst cursorIs
  have first : p.head? ≠ some 10 := by
    rw [job_starts_plain chosen]
    decide
  obtain ⟨found, line⟩ := line_end_defined p request.length 0 (by simpa using inside) fun _ => first
  simp only [httpParseQuery, Int.toNat_natCast, line, Option.bind_some]
  by_cases absent : found = 0
  · exact ⟨_, if_pos absent⟩
  rw [if_neg absent]
  by_cases brief : found < 11
  · exact ⟨_, if_pos brief⟩
  have bounded : found < p.length :=
    read_at_inside (line_end_found p request.length 0 found line absent).2.2.1
  rw [if_neg brief, readSpan, if_pos (by omega), Option.bind_some]
  split
  · exact ⟨_, rfl⟩
  · cases offset : startOffset jobT with
    | none => exact ⟨_, rfl⟩
    | some start =>
        have pairs := parse_pairs_reads (p.set (found - 10) 0) found
          (by rw [List.length_set]; exact bounded.le) found start (by omega) []
        simp only [pairs, Option.map_some]
        exact ⟨_, rfl⟩

/-! ## Announces -/

def hashField (curl : Unescape) (value : List UInt8) : List UInt8 :=
  urlDecode curl (List.replicate (torrentHashLen + 1) 0) value

/-- The torrent is listed or the database knows it. -/
def TorrentFound (env : Environment) (tl : TorrentList) (ps : Pieces) : Prop :=
  ∀ value, lastValue infoHashKey ps = some value →
    torrentDoLookupTorrentInfoHash (hashField env.curl value) tl.list ≠ none ∨
      env.db (lookupSql (hashField env.curl value)) ≠ -1

/-- Every key is there, and every string is within the fields it is copied into on the way:
the peer entry's is reached for a torrent that is found. -/
structure AnnounceSafe (env : Environment) (tl : TorrentList) (ps : Pieces) : Prop where
  keys : ∀ key ∈ builderKeys, (lastValue key ps).isSome
  holds : RequestHolds ps
  entry : Acceptable env.curl ps → TorrentFound env tl ps → ∀ value,
    lastValue peerIdKey ps = some value → value.length ≠ peerHashLen

theorem build_defined_iff (curl : Unescape) (text : List UInt8) :
    (∃ ctx, httpBuildPeerReq curl (listOf (HttpQuery.pieces text)) = .ok ctx) ↔
      (∀ key ∈ builderKeys, (lastValue key (HttpQuery.pieces text)).isSome) ∧
        RequestHolds (HttpQuery.pieces text) := by
  constructor
  · rintro ⟨ctx, built⟩
    refine ⟨(built_reads curl text ctx built).1, (no_overrun_iff curl text).mp fun field failed => ?_⟩
    cases built.symm.trans failed
  · rintro ⟨keys, holds⟩
    simp only [last_value_present] at keys
    -- a builder that fails has read through NULL or written past a field
    cases built : httpBuildPeerReq curl (listOf (HttpQuery.pieces text)) with
    | ok ctx => exact ⟨ctx, rfl⟩
    | error fault =>
        cases fault with
        | nullEntry key => exact absurd built (found_no_null curl _ keys key)
        | overrun field => exact absurd built ((no_overrun_iff curl text).mpr holds field)

/-- An announce that passed the checks is looked up, its SQL text fits. -/
theorem sane_lookup_defined {curl : Unescape} {list : List HttpUriKv} {ctx : PeerReq}
    (built : httpBuildPeerReq curl list = .ok ctx) (sane : sanitizePeerReq ctx = none)
    (db : Database) (tl : TorrentList) :
    ∃ after found, torrentLookupTorrent db ctx.infoHash tl = .ok (after, found) := by
  obtain ⟨h, -, -, string⟩ := accepted_key built sane
  refine lookup_defined db ctx.infoHash tl ?_
  rw [length_lookup_sql, string, length_hash_text]
  decide

theorem peer_defined_iff (clientaddr : InAddr) (ctx : PeerReq) :
    (∃ pe, peerOf clientaddr ctx = .ok pe) ↔ ctx.peerId.bytes.length ≠ peerHashLen := by
  have fits := ctx.peerId.fits
  have copies : (∃ copy, copyPeerId ctx = .ok copy) ↔ ctx.peerId.bytes.length ≠ peerHashLen := by
    rw [copyPeerId, copy_into_ok_iff]
    simp only [peerHashLen] at fits ⊢
    omega
  rw [← copies, peerOf]
  cases copyPeerId ctx <;> simp [Except.map]

/-- What is left for a built request to go wrong is the copy of the peer id. -/
theorem built_returns_iff {env : Environment} {tl : TorrentList} {job : Job} {ctx : PeerReq}
    (built : httpBuildPeerReq env.curl job.httpKvList = .ok ctx) :
    (∃ both, jobHandleAnnounce env tl job = .ok both) ↔
      (sanitizePeerReq ctx = none →
        (torrentDoLookupTorrentInfoHash ctx.infoHash tl.list ≠ none ∨
          env.db (lookupSql ctx.infoHash) ≠ -1) → ctx.peerId.bytes.length ≠ peerHashLen) := by
  unfold jobHandleAnnounce
  rw [built]
  simp only [bind, Except.bind]
  cases sane : sanitizePeerReq ctx with
  | some error => simp [pure, Except.pure]
  | none =>
      obtain ⟨after, found, looked⟩ :=
        sane_lookup_defined built sane env.db (torrentListWorkon tl)
      simp only [looked]
      -- the lookup has found a torrent if it is listed or the database knows it
      have found_iff : found ≠ none ↔
          torrentDoLookupTorrentInfoHash ctx.infoHash tl.list ≠ none ∨
            env.db (lookupSql ctx.infoHash) ≠ -1 := by
        cases lookup_cases looked with
        | unknown missed refused =>
            have missed' : torrentDoLookupTorrentInfoHash ctx.infoHash tl.list = none := missed
            simp [missed', refused]
        | hit te hit =>
            have hit' : torrentDoLookupTorrentInfoHash ctx.infoHash tl.list = some te := hit
            simp [hit']
        | inserted missed fits known => simp [known]
      simp only [forall_const, ← found_iff, ← peer_defined_iff job.clientaddr]
      cases found with
      | none => simp [pure, Except.pure]
      | some torrent =>
          cases peerOf job.clientaddr ctx <;> simp [pure, Except.pure]

theorem announce_returns_iff (env : Environment) (tl : TorrentList) (text : List UInt8)
    (clientaddr : InAddr) :
    (∃ both, jobHandleAnnounce env tl ⟨listOf (HttpQuery.pieces text), clientaddr⟩ = .ok both) ↔
      AnnounceSafe env tl (HttpQuery.pieces text) := by
  have reads : ∀ ctx, httpBuildPeerReq env.curl (listOf (HttpQuery.pieces text)) = .ok ctx →
      ((∃ both, jobHandleAnnounce env tl ⟨listOf (HttpQuery.pieces text), clientaddr⟩ = .ok both) ↔
        (Acceptable env.curl (HttpQuery.pieces text) → TorrentFound env tl (HttpQuery.pieces text) →
          ∀ value, lastValue peerIdKey (HttpQuery.pieces text) = some value →
            value.length ≠ peerHashLen)) := by
    intro ctx built
    obtain ⟨-, peer, sane⟩ := built_reads env.curl text ctx built
    obtain ⟨-, np, -, entry, -, field, -⟩ := build_ok built
    have hash := lookup_value text _ _ entry
    have found : TorrentFound env tl (HttpQuery.pieces text) ↔
        torrentDoLookupTorrentInfoHash ctx.infoHash tl.list ≠ none ∨
          env.db (lookupSql ctx.infoHash) ≠ -1 := by
      simp [TorrentFound, hash, hashField, field]
    rw [built_returns_iff built, sane, found, peer]
    simp
  constructor
  · rintro ⟨both, returned⟩
    obtain ⟨ctx, built, -⟩ := bind_ok returned
    obtain ⟨keys, holds⟩ := (build_defined_iff env.curl text).mp ⟨ctx, built⟩
    exact ⟨keys, holds, (reads ctx built).mp ⟨both, returned⟩⟩
  · intro safe
    obtain ⟨ctx, built⟩ := (build_defined_iff env.curl text).mpr ⟨safe.keys, safe.holds⟩
    exact (reads ctx built).mpr safe.entry

/-- The announce is told a peer list that its block cannot hold even if it is cut. -/
def Overlong (env : Environment) (tl : TorrentList) (job : Job) : Prop :=
  ¬ LeftSilent env tl job ∧ ∃ after te, Prints env tl job after te ∧
    replySize te.peerCount + 2 < replyLength te

theorem utters_outside {env : Environment} {tl after : TorrentList} {job : Job} {reply : Reply}
    (spoken : Utters env tl job after reply) (outside : ¬ PrintedInside reply) :
    ∃ te, Prints env tl job after te ∧ replySize te.peerCount + 2 < replyLength te := by
  cases spoken with
  | unknown => exact absurd (failure_inside _) outside
  | peers after te prints =>
      refine ⟨te, prints, ?_⟩
      by_contra short
      refine outside fun printed same => ?_
      cases same
      exact (reply_inside_iff te).mpr (by omega)

theorem printed_outside_iff {env : Environment} {tl after : TorrentList} {job : Job} {reply : Reply}
    (returned : jobHandleAnnounce env tl job = .ok (after, reply)) :
    ¬ PrintedInside reply ↔ Overlong env tl job := by
  constructor
  · intro outside
    cases handler_cases returned with
    | rejected | unknown => exact absurd (failure_inside _) outside
    | accepted ctx pe looked torrent taken =>
        rcases handled_utters taken.built taken.sane returned with ⟨silent, -⟩ | ⟨loud, spoken⟩
        · rw [silent] at outside
          exact absurd silent_inside outside
        · obtain ⟨te, prints, long⟩ := utters_outside spoken outside
          exact ⟨loud, _, te, prints, long⟩
  · rintro ⟨loud, after', te, prints, long⟩ inside
    obtain ⟨ctx, pe, looked, _, torrent, taken, worked⟩ := prints
    rcases handled_utters taken.built taken.sane returned with ⟨-, silent⟩ | ⟨-, spoken⟩
    · exact loud silent
    · cases spoken with
      | unknown other built sane missed refused =>
          cases taken.built.symm.trans built
          cases taken.lookup with
          | hit te found => cases found.symm.trans missed
          | inserted missed fits known => exact known refused
      | peers after te again =>
          obtain rfl := prints_unique (.printed ctx pe looked _ torrent taken worked) again
          have fits := (reply_inside_iff _).mp (inside _ rfl)
          omega

/-! ## Scrapes -/

/-- The key of some entry is not listed, and its SQL text does not fit. -/
def LongKey (db : Database) (keys : List (List UInt8)) (s : Scraping) : Prop :=
  ∃ front key back t, keys = front ++ key :: back ∧ scrapeHashes db front s = .ok (true, t) ∧
    torrentDoLookupTorrentInfoHash key t.tl.list = none ∧ queryLen ≤ (lookupSql key).length

theorem lookup_fails_iff (db : Database) (key : List UInt8) (tl : TorrentList) :
    (∃ fault, torrentLookupTorrent db key tl = .error fault) ↔
      torrentDoLookupTorrentInfoHash key tl.list = none ∧ queryLen ≤ (lookupSql key).length := by
  unfold torrentLookupTorrent dbQueryLookupTorrent
  cases torrentDoLookupTorrentInfoHash key tl.list with
  | some te => simp
  | none =>
      by_cases fits : (lookupSql key).length < queryLen
      · by_cases refused : db (lookupSql key) = -1 <;> simp [fits, refused]
      · simp [fits, Nat.le_of_not_lt fits]

theorem long_key_cons (db : Database) (key : List UInt8) (rest : List (List UInt8)) (s : Scraping) :
    LongKey db (key :: rest) s ↔
      (torrentDoLookupTorrentInfoHash key s.tl.list = none ∧ queryLen ≤ (lookupSql key).length) ∨
        ∃ tl te, torrentLookupTorrent db key s.tl = .ok (tl, some te) ∧
          LongKey db rest ⟨tl, scrapeAddTorrent s.sctx te.val, s.handed ++ [key]⟩ := by
  constructor
  · rintro ⟨front, other, back, t, split, ran, missed, long⟩
    cases front with
    | nil =>
        cases split
        cases ran
        exact Or.inl ⟨missed, long⟩
    | cons first front =>
        cases split
        unfold scrapeHashes at ran
        split at ran
        · contradiction
        · cases ran
        -- every key in front of the long one has found its torrent
        · next tl te looked => exact Or.inr ⟨tl, te, looked, front, other, back, t, rfl, ran, missed, long⟩
  · rintro (⟨missed, long⟩ | ⟨tl, te, looked, front, other, back, t, rfl, ran, missed, long⟩)
    · exact ⟨[], key, rest, s, rfl, rfl, missed, long⟩
    · exact ⟨key :: front, other, back, t, rfl, by simp only [scrapeHashes, looked, ran], missed, long⟩

theorem scrape_fails_iff (db : Database) (keys : List (List UInt8)) (s : Scraping) :
    (∃ fault, scrapeHashes db keys s = .error fault) ↔ LongKey db keys s := by
  induction keys generalizing s with
  | nil => simp [scrapeHashes, LongKey]
  | cons key rest ih =>
      rw [long_key_cons, ← lookup_fails_iff db]
      cases looked : torrentLookupTorrent db key s.tl with
      | error fault => simp [scrapeHashes, looked]
      | ok both =>
          obtain ⟨tl, found⟩ := both
          cases found with
          | none => simp [scrapeHashes, looked]
          | some te => simp [scrapeHashes, looked, ih]

/-! ## The whole way -/

def Ends (env : Environment) (tl : TorrentList) (c : Connection) (b : Buffer) (jobT : JobType)
    (list : List HttpUriKv) : Prop :=
  match jobT with
  | .announce => ¬ AnnounceSafe env tl (queryPieces b 14) ∨ Overlong env tl ⟨list, c.clientaddr⟩
  | .scrape => LongKey env.db (httpBuildPeerReqHashList env.curl list fun i => (c.fresh i).mem)
      ⟨torrentListWorkon tl, [], []⟩
  | .stop => False

def Sendable (out : Buffer) : Prop := ∃ content, Holds out content ∧ content.length + 128 < 2 ^ 31

theorem response_sent (unset : Unset) {b out : Buffer} (code : Int) (empty : b.cursor = 0)
    (sendable : Sendable out) : ∃ message, responseMessage unset b out code = some message := by
  obtain ⟨content, holds, small⟩ := sendable
  obtain ⟨-, built⟩ := response_built unset b out code content empty holds
  have status := length_status_le code
  have fits : (responseHead code content.length).flatten.length + content.length < 2 ^ 31 := by
    by_cases some_body : 0 < content.length
    · rw [head_fits_iff code _ some_body (by omega)]
      omega
    · have none : content.length = 0 := by omega
      have ending : (text "\r\n").length = 2 := by decide +kernel
      simp only [none, responseHead, Nat.cast_zero, lt_self_iff_false, if_false, List.cons_append,
        List.nil_append, List.flatten_cons, List.flatten_nil, List.length_append, List.length_nil]
      omega
  obtain ⟨message, sent, -⟩ := built fits
  exact ⟨message, sent⟩

theorem appended_sendable (unset : Unset) {out : Buffer} (empty : out.cursor = 0)
    (message : List UInt8) (small : message.length + 128 < 2 ^ 31) :
    ∃ written, appendStrings unset out [message] = some written ∧ Sendable written := by
  obtain ⟨written, wrote, holds⟩ := append_strings_holds unset (empty_holds empty) [message]
    (by simp only [List.forall_mem_singleton]; omega)
  exact ⟨written, wrote, message, by simpa using holds, small⟩

theorem length_missing_hash : torrentMsgFailureMissingHash.length = 51 := by decide +kernel

theorem announce_out_sendable {env : Environment} (unset : Unset) {tl after : TorrentList}
    {job : Job} {reply : Reply} {out : Buffer} (empty : out.cursor = 0)
    (returned : jobHandleAnnounce env tl job = .ok (after, reply)) (inside : PrintedInside reply) :
    ∃ left written, jobHandleAnnounceOut env unset tl job out = .ok (left, some written) ∧
      Sendable written := by
  obtain ⟨ctx, built, -⟩ := bind_ok returned
  rw [out_of_built built]
  cases sanitized : sanitizePeerReq ctx with
  | some error =>
      have short := length_error_text error
      obtain ⟨written, wrote, holds⟩ :=
        generic_failure_holds unset (empty_holds empty) (errorText error) (by omega)
      refine ⟨tl, written, by simp only [wrote], _, holds, ?_⟩
      have cut := List.length_take_le ((errorText error).length + 7)
        (decimal (errorText error).length ++ text ":" ++ errorText error)
      have size : failureReason.length = 18 ∧ (text "e").length = 1 := by decide +kernel
      simp only [torrentMsgFailureGeneric, List.length_append] at cut ⊢
      omega
  | none =>
      simp only [returned, Except.map]
      rcases handled_utters built sanitized returned with ⟨rfl, -⟩ | ⟨-, spoken⟩
      · exact ⟨after, out, rfl, [], empty_holds empty, by simp⟩
      · cases spoken with
        | unknown =>
            obtain ⟨written, wrote, sendable⟩ := appended_sendable unset empty
              torrentMsgFailureMissingHash (by rw [length_missing_hash]; omega)
            exact ⟨tl, written, by simp only [appendReply, wrote], sendable⟩
        | peers after te prints =>
            obtain ⟨-, small, written, wrote, holds⟩ :=
              peers_appended unset (empty_holds empty) (inside _ rfl)
            exact ⟨after, written, by simp only [wrote], keptReply te, holds, small⟩

theorem scrape_out_sendable {env : Environment} (unset : Unset) (old : Nat → UInt8)
    {fresh : Nat → FreshHash} {tl : TorrentList} {list : List HttpUriKv} {out : Buffer}
    {whole : Bool} {s : Scraping} (empty : out.cursor = 0) (some_pair : list ≠ [])
    (few : list.length < 2 ^ 24) (ints : IntTorrents tl)
    (returned : jobHandleScrape env tl list fresh = .ok (whole, s)) :
    ∃ left written, jobHandleScrapeOut env unset old tl list fresh out = .ok (left, some written) ∧
      Sendable written := by
  simp only [jobHandleScrapeOut, returned, Except.map]
  cases whole with
  | false =>
      obtain ⟨written, wrote, sendable⟩ := appended_sendable unset empty
        torrentMsgFailureMissingHash (by rw [length_missing_hash]; omega)
      exact ⟨s.tl, written, by simp [wrote], sendable⟩
  | true =>
      have count := scraped_count returned
      have copied := scraped_ints ints returned
      have positive := List.length_pos_iff.mpr some_pair
      have some_entry : s.sctx ≠ [] := List.length_pos_iff.mp (by omega)
      obtain ⟨fits, small⟩ := scrape_text_fits old s.sctx some_entry (by omega) copied
      obtain ⟨written, body, holds⟩ := scrape_body_holds unset old s.sctx some_entry (by omega)
        copied empty
      exact ⟨s.tl, written, by simp only [if_true, body], _, holds, by omega⟩

theorem job_done_iff (env : Environment) {tl : TorrentList} {c : Connection} {b : Buffer}
    {jobT : JobType} {result : QueryResult} (ints : IntTorrents tl)
    (asked : requested c = some (b, jobT)) (parsed : httpParseQuery b jobT = some result)
    (ret : result.ret = 0) :
    ((∃ left out, workProcessJob env tl c jobT result.head = .ok (left, some out) ∧ Sendable out) ∧
        ¬ Ends env tl c b jobT result.head) ∨
      ((∃ fault, workProcessJob env tl c jobT result.head = .error fault) ∧
        Ends env tl c b jobT result.head) := by
  cases jobT with
  | stop =>
      obtain ⟨_, -, -, -, chosen⟩ := requested_holds asked
      exact absurd rfl (job_not_stop chosen)
  | announce =>
      have returns := announce_returns_iff env tl (queryText b 14) c.clientaddr
      have list : listOf (HttpQuery.pieces (queryText b 14)) = result.head :=
        (accepted_list b result parsed ret).symm
      rw [list] at returns
      cases returned : jobHandleAnnounce env tl ⟨result.head, c.clientaddr⟩ with
      | ok both =>
          obtain ⟨after, reply⟩ := both
          have safe := returns.mp ⟨_, returned⟩
          have outside := printed_outside_iff returned
          by_cases inside : PrintedInside reply
          · refine Or.inl ⟨?_, not_or.mpr ⟨not_not.mpr safe, fun long => outside.mpr long inside⟩⟩
            rw [announce_processes returned inside]
            exact announce_out_sendable c.unset c.out.empty returned inside
          · exact Or.inr ⟨announce_overruns returned inside, Or.inr (outside.mp inside)⟩
      | error fault =>
          refine Or.inr ⟨⟨fault, by simp [workProcessJob, returned, Bind.bind, Except.bind]⟩, ?_⟩
          refine Or.inl fun safe => ?_
          obtain ⟨both, other⟩ := returns.mpr safe
          cases returned.symm.trans other
  | scrape =>
      obtain ⟨some_pair, few⟩ := scraped_pairs asked parsed ret
      have fails := scrape_fails_iff env.db
        (httpBuildPeerReqHashList env.curl result.head fun i => (c.fresh i).mem)
        ⟨torrentListWorkon tl, [], []⟩
      cases looked : scrapeHashes env.db
          (httpBuildPeerReqHashList env.curl result.head fun i => (c.fresh i).mem)
          ⟨torrentListWorkon tl, [], []⟩ with
      | ok both =>
          obtain ⟨whole, s⟩ := both
          have returned : jobHandleScrape env tl result.head c.fresh =
              .ok (whole, { s with tl := torrentListJobdone s.tl }) := by
            simp only [jobHandleScrape, looked, Except.map]
          refine Or.inl ⟨scrape_out_sendable c.unset c.old c.out.empty some_pair few ints returned, ?_⟩
          intro long
          obtain ⟨fault, failed⟩ := fails.mpr long
          cases looked.symm.trans failed
      | error fault =>
          refine Or.inr ⟨⟨fault, ?_⟩, fails.mp ⟨fault, looked⟩⟩
          simp only [workProcessJob, jobHandleScrapeOut, jobHandleScrape, looked, Except.map]

/-- A connection ends the tracker exactly when its request is accepted and is an announce
that leaves out a key or overruns a field or the block of its peer list, or a scrape whose
key overruns the SQL text. -/
theorem tracker_ended_iff (env : Environment) (tl : TorrentList) (c : Connection)
    (ints : IntTorrents tl) :
    serve env tl c = none ↔
      ∃ b jobT result, requested c = some (b, jobT) ∧ httpParseQuery b jobT = some result ∧
        result.ret = 0 ∧ Ends env tl c b jobT result.head := by
  unfold serve
  cases asked : requested c with
  | none => simp
  | some request =>
  obtain ⟨b, jobT⟩ := request
  obtain ⟨_, -, -, holds, chosen⟩ := requested_holds asked
  obtain ⟨result, parsed⟩ := parse_defined holds chosen
  have only : (∃ b' jobT' result', some (b, jobT) = some (b', jobT') ∧
      httpParseQuery b' jobT' = some result' ∧ result'.ret = 0 ∧
        Ends env tl c b' jobT' result'.head) ↔
      result.ret = 0 ∧ Ends env tl c b jobT result.head := by
    constructor
    · rintro ⟨_, _, result', same, other, ends⟩
      cases same
      cases parsed.symm.trans other
      exact ends
    · exact fun ends => ⟨b, jobT, result, rfl, parsed, ends⟩
  simp only [only, parsed, Option.bind_eq_bind, Option.bind_some]
  -- a refused query is always answered, an accepted one when its job gets to the end
  rcases parsed_ret parsed with ret | ret
  · have sent : ∃ message, httpError c = some message := by
      obtain ⟨body, wrote, sendable⟩ := appended_sendable c.unset c.out.empty queryErrorText
        (by decide +kernel)
      obtain ⟨message, built⟩ := response_sent c.unset 400 c.response.empty sendable
      exact ⟨message, by rw [httpError, wrote, Option.bind_eq_bind, Option.bind_some, built]⟩
    obtain ⟨message, sent⟩ := sent
    simp [ret, sent]
  · rw [if_neg (by omega)]
    rcases job_done_iff env ints asked parsed ret with
      ⟨⟨left, out, worked, sendable⟩, lives⟩ | ⟨⟨fault, failed⟩, ends⟩
    · obtain ⟨message, built⟩ := response_sent c.unset 200 c.response.empty sendable
      simp [worked, Except.toOption, built, lives]
    · simp [failed, Except.toOption, ret, ends]

/-- The first start of a torrent, with a peer id of 63 characters. -/
def longStart : Connection :=
  { knownScrape with
    received := some (getAnnounce ++ ascii ['?'] ++ queryOf [(infoHashKey, List.replicate 20 104),
      (peerIdKey, List.replicate 63 112), (portKey, ascii ['6', '8', '8', '1']),
      (uploadedKey, ascii ['0']), (downloadedKey, ascii ['0']), (leftKey, ascii ['5']),
      (eventKey, eventStart)] ++ ascii [' '] ++ http11 ++ [13, 10])
    read := by decide +kernel }

theorem tracker_ended_iff_long_start :
    ∃ b jobT result, requested longStart = some (b, jobT) ∧
      httpParseQuery b jobT = some result ∧ result.ret = 0 ∧
        Ends sampleEnv .empty longStart b jobT result.head :=
  (tracker_ended_iff sampleEnv .empty longStart (by simp [IntTorrents, TorrentList.empty])).mp
    (by decide +kernel)

end Ttracker.RequestFaults
