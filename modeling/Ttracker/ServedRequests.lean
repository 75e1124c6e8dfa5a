import Ttracker.AnnounceReplies
import Ttracker.HttpResponses
import Ttracker.ScrapeReplies

/-!
A connection from the bytes `read` returns to the message `write` is handed:
`http_handle_read`, the handler of the job it makes and `http_handle_write`, with the
buffers they take from the pool. A receiver of the message gets a status and one value,
but for the announces the handler leaves without a reply.
-/
namespace Ttracker.ServedRequests
open CLibrary LinkedNodes HttpQuery PeerRequest RequestCopies Torrents TorrentCache AnnounceHandler
  ScrapeHandler SharedTorrents ScrapeText PeerListReply AnnounceReplies ScrapeReplies Buffers
  HttpMessages HttpResponses Bencode
open BoundedPrint (Inside)

structure Idle where
  b : Buffer
  empty : b.cursor = 0

/-- What `read` returned, from whom, the pool's buffers in the order they are taken,
and what was in the memory that nobody sets. -/
structure Connection where
  received : Option (List UInt8)
  read : ∀ bytes ∈ received, bytes.length ≤ httpMaxReqSize
  clientaddr : InAddr
  input : Idle
  out : Idle
  response : Idle
  fresh : Nat → FreshHash
  old : Nat → UInt8
  unset : Unset

inductive Served where
  /-- Without an answer. -/
  | closed
  | sent (message : Buffer)

/-- The first half of `http_handle_read`: the zeroed `uri` as a string, and its job. -/
def requested (c : Connection) : Option (Buffer × JobType) := do
  let bytes ← c.received
  if bytes.length < 5 then none
  else
    let (_, b) ← bufferAppendStringToBuffer c.unset c.input.b (cstr bytes)
    let jobT ← httpParseJobFromRequest b
    some (b, jobT)

def queryErrorText : List UInt8 := text "d14:failure reason11:query errore"

/-- A connection whose job was not made has not taken `out` yet. -/
def httpError (c : Connection) : Option Buffer := do
  let b ← appendStrings c.unset c.out.b [queryErrorText]
  responseMessage c.unset c.response.b b 400

/-- The peer list is not printed past the end of its block. -/
def PrintedInside (reply : Reply) : Prop := ∀ printed, reply = .peerList printed → Inside printed

theorem silent_inside : PrintedInside .silent := fun _ same => by cases same

theorem failure_inside (message : List UInt8) : PrintedInside (.failure message) :=
  fun _ same => by cases same

instance (reply : Reply) : Decidable (PrintedInside reply) :=
  match reply with
  | .silent => isTrue silent_inside
  | .failure message => isTrue (failure_inside message)
  | .peerList printed => decidable_of_iff (Inside printed)
      ⟨fun inside _ same => Reply.peerList.inj same ▸ inside, fun inside => inside printed rfl⟩

/-- `work_process_job`, which leaves a job of another type alone. -/
def workProcessJob (env : Environment) (tl : TorrentList) (c : Connection) (jobT : JobType)
    (list : List HttpUriKv) : Except Fault (TorrentList × Option Buffer) :=
  match jobT with
  | .announce => do
      let (_, reply) ← jobHandleAnnounce env tl ⟨list, c.clientaddr⟩
      if PrintedInside reply then jobHandleAnnounceOut env c.unset tl ⟨list, c.clientaddr⟩ c.out.b
      else throw (.overrun .peerList)
  | .scrape => jobHandleScrapeOut env c.unset c.old tl list c.fresh c.out.b
  | .stop => .ok (tl, some c.out.b)

theorem to_option_ok {ε α : Type} {value : Except ε α} {result : α}
    (is : value.toOption = some result) : value = .ok result := by
  cases value with
  | error fault => simp [Except.toOption] at is
  | ok produced => simpa [Except.toOption] using is

/-- A fault and an access outside of an array or of the block of a reply end the tracker. -/
def serve (env : Environment) (tl : TorrentList) (c : Connection) : Option (TorrentList × Served) :=
  match requested c with
  | none => some (tl, .closed)
  | some (b, jobT) => do
      let result ← httpParseQuery b jobT
      if result.ret = -1 then
        let message ← httpError c
        some (tl, .sent message)
      else
        let (tl, out) ← (workProcessJob env tl c jobT result.head).toOption
        let out ← out
        let message ← responseMessage c.unset c.response.b out 200
        some (tl, .sent message)

/-! ## What a receiver reads -/

/-- One message with this status and this body. -/
def ReadsBody (message : Buffer) (status : Nat) (body : List UInt8) : Prop :=
  ∃ bytes m, Holds message bytes ∧ parseMessage bytes = some m ∧ m.status = status ∧
    m.body = body ∧ m.headers.lookup (text "content-length") = some (decimal m.body.length)

/-- One message with this status, whose body is the encoding of this value. -/
def Reads (message : Buffer) (status : Nat) (v : Value) : Prop :=
  ∃ bytes m, Holds message bytes ∧ parseMessage bytes = some m ∧ m.status = status ∧
    decode m.body = some (v, []) ∧
    m.headers.lookup (text "content-length") = some (decimal m.body.length)

/-- The end of the connection before the end of the headers. -/
def Unreadable (message : Buffer) : Prop := ∃ bytes, Holds message bytes ∧ parseMessage bytes = none

theorem status_code_read (code : Nat) (known : code = 200 ∨ code = 400) :
    statusCode (statusText code) = some code := by
  rcases known with rfl | rfl <;> decide +kernel

section Responses
variable (unset : Unset) {b body message : Buffer}

theorem response_reads_body {content : List UInt8} (code : Nat) (known : code = 200 ∨ code = 400)
    (empty : b.cursor = 0) (some_body : content ≠ []) (holds : Holds body content)
    (built : responseMessage unset b body code = some message) : ReadsBody message code content := by
  obtain ⟨bounded, whole⟩ := response_built unset b body code content empty holds
  have fits := bounded message built
  obtain ⟨same, again, joined⟩ := whole fits
  cases built.symm.trans again
  have parsed := message_parsed code (status_code_read code known) content some_body (by omega)
  exact ⟨_, _, joined, parsed, rfl, rfl, by simp [bodyHeaders]⟩

theorem response_reads {v : Value} (code : Nat) (known : code = 200 ∨ code = 400)
    (empty : b.cursor = 0) (holds : Holds body (encode v))
    (built : responseMessage unset b body code = some message) : Reads message code v := by
  obtain ⟨bytes, m, joined, parsed, status, same, length⟩ :=
    response_reads_body unset code known empty (encode_ne_nil v) holds built
  have read := decode_encoded v []
  rw [List.append_nil, ← same] at read
  exact ⟨bytes, m, joined, parsed, status, read, length⟩

theorem response_unreadable (code : Int) (empty : b.cursor = 0) (holds : Holds body [])
    (built : responseMessage unset b body code = some message) : Unreadable message := by
  obtain ⟨bounded, whole⟩ := response_built unset b body code [] empty holds
  obtain ⟨same, again, joined⟩ := whole (bounded message built)
  cases built.symm.trans again
  exact ⟨_, joined, empty_unparsed code⟩

end Responses

/-! ## Refused queries -/

def missingHash : Value := failureDict (text "Missing \"info_hash\" parameter")

theorem encode_query_error : encode (failureDict (text "query error")) = queryErrorText := by
  decide +kernel

theorem http_error_reads (c : Connection) {message : Buffer} (sent : httpError c = some message) :
    Reads message 400 (failureDict (text "query error")) := by
  have short : queryErrorText.length = 33 := by decide +kernel
  obtain ⟨body, wrote, holds⟩ := append_strings_holds c.unset (empty_holds c.out.empty)
    [queryErrorText] (by simp only [List.forall_mem_singleton]; omega)
  rw [httpError, wrote, Option.bind_eq_bind, Option.bind_some] at sent
  rw [List.nil_append, List.flatten_singleton, ← encode_query_error] at holds
  exact response_reads c.unset 400 (Or.inr rfl) c.response.empty holds sent

/-! ## Announces -/

/-- The torrent as it is printed: a listed peer's event is counted, a new peer is in. -/
def printedTorrent (torrent : TorrentEntry) (fresh : Nat) (pe : PeerEntry) (event : List UInt8) :
    TorrentEntry :=
  match peerSearchPeer pe torrent.peers with
  | none => insertPeer torrent ⟨fresh, pe⟩
  | some pp => (torrentUpdatePeerAndReturnList torrent pp (updateAction event)).1

theorem announce_prints (torrent : TorrentEntry) (fresh : Nat) (pe : PeerEntry)
    (event : List UInt8) (speaks : (announcePeer torrent fresh pe event).2 ≠ .silent) :
    (announcePeer torrent fresh pe event).2 =
      .peerList (peerListReply (printedTorrent torrent fresh pe event)) := by
  unfold printedTorrent
  cases searched : peerSearchPeer pe torrent.peers with
  | some pp =>
      rw [announce_found searched]
      rfl
  | none =>
      by_cases started : wantsStart event = true
      · rw [announce_added searched started]
      · rw [announce_silent searched started] at speaks
        contradiction

/-- An accepted announce prints the peer list of this torrent. -/
inductive Prints (env : Environment) (tl : TorrentList) (job : Job) : TorrentList → TorrentEntry →
    Prop where
  | printed (ctx : PeerReq) (pe : PeerEntry) (looked after : TorrentList)
      (torrent : Node TorrentEntry) (taken : Accepted env tl job ctx pe looked torrent)
      (worked : after.list = modifyAt torrent.addr
        (fun _ => (announcePeer torrent.val looked.next pe ctx.event.bytes).1) looked.list) :
      Prints env tl job after (printedTorrent torrent.val looked.next pe ctx.event.bytes)

inductive Told (env : Environment) (tl : TorrentList) (job : Job) : TorrentList → Value → Prop where
  | rejected (ctx : PeerReq) (error : SanitizeError)
      (built : httpBuildPeerReq env.curl job.httpKvList = .ok ctx)
      (found : sanitizePeerReq ctx = some error) :
      Told env tl job tl (failureDict (errorText error))
  | unknown (ctx : PeerReq) (built : httpBuildPeerReq env.curl job.httpKvList = .ok ctx)
      (sane : sanitizePeerReq ctx = none)
      (missed : torrentDoLookupTorrentInfoHash ctx.infoHash tl.list = none)
      (refused : env.db (lookupSql ctx.infoHash) = -1) : Told env tl job tl missingHash
  | accepted (after : TorrentList) (te : TorrentEntry) (prints : Prints env tl job after te) :
      Told env tl job after (replyDict te)

/-- The reply and its NUL are one to three bytes longer than their block. -/
def CutShort (te : TorrentEntry) : Prop :=
  replySize te.peerCount ≤ replyLength te ∧ (replyLength te : Int) ≤ replySize te.peerCount + 2

/-- What is appended of a peer list: what its block keeps in front of the NUL. -/
def keptReply (te : TorrentEntry) : List UInt8 :=
  (encode (replyDict te)).take ((replySize te.peerCount).toNat - 1)

theorem kept_whole {te : TorrentEntry} (inside : Inside (peerListReply te)) (whole : ¬ CutShort te) :
    keptReply te = encode (replyDict te) := by
  have fits := (reply_inside_iff te).mp inside
  have short : (replyLength te : Int) < replySize te.peerCount := by
    by_contra long
    exact whole ⟨by omega, fits⟩
  apply List.take_of_length_le
  rw [encode_reply, length_reply_text]
  omega

theorem peers_appended (unset : Unset) {out : Buffer} (empty : Holds out []) {te : TorrentEntry}
    (inside : Inside (peerListReply te)) :
    keptReply te ≠ [] ∧ (keptReply te).length + 128 < 2 ^ 31 ∧
      ∃ written, appendReply unset out (.peerList (peerListReply te)) = some written ∧
        Holds written (keptReply te) := by
  obtain ⟨string, some_room, small⟩ := inside_reply_string te inside
  have aligned := reply_size_aligned te.peerCount
  have positive := List.length_pos_iff.mpr (encode_ne_nil (replyDict te))
  have room := List.length_take_le ((replySize te.peerCount).toNat - 1) (encode (replyDict te))
  have size : (keptReply te).length + 128 < 2 ^ 31 := by
    rw [keptReply]
    omega
  refine ⟨List.length_pos_iff.mp ?_, size, ?_⟩
  · rw [keptReply, List.length_take]
    omega
  · rw [appendReply, string, ← encode_reply, ← keptReply]
    obtain ⟨written, wrote, holds⟩ := append_strings_holds unset empty [keptReply te]
      (by simp only [List.forall_mem_singleton]; omega)
    exact ⟨written, wrote, by simpa using holds⟩

theorem accepted_unique {env : Environment} {tl looked looked' : TorrentList} {job : Job}
    {ctx ctx' : PeerReq} {pe pe' : PeerEntry} {torrent torrent' : Node TorrentEntry}
    (taken : Accepted env tl job ctx pe looked torrent)
    (again : Accepted env tl job ctx' pe' looked' torrent') :
    ctx' = ctx ∧ pe' = pe ∧ looked' = looked ∧ torrent' = torrent := by
  cases taken.built.symm.trans again.built
  cases taken.peer.symm.trans again.peer
  refine ⟨rfl, rfl, ?_⟩
  cases taken.lookup with
  | hit te found =>
      cases again.lookup with
      | hit te' found' =>
          cases found.symm.trans found'
          exact ⟨rfl, rfl⟩
      | inserted missed => cases found.symm.trans missed
  | inserted missed =>
      cases again.lookup with
      | hit te found => cases missed.symm.trans found
      | inserted => exact ⟨rfl, rfl⟩

theorem prints_unique {env : Environment} {tl after after' : TorrentList} {job : Job}
    {te te' : TorrentEntry} (prints : Prints env tl job after te)
    (again : Prints env tl job after' te') : te' = te := by
  obtain ⟨ctx, pe, looked, _, torrent, taken, -⟩ := prints
  obtain ⟨ctx', pe', looked', _, torrent', taken', -⟩ := again
  obtain ⟨rfl, rfl, rfl, rfl⟩ := accepted_unique taken taken'
  rfl

/-- Whatever the handler says to an announce that is not left silent. -/
inductive Utters (env : Environment) (tl : TorrentList) (job : Job) : TorrentList → Reply → Prop where
  | unknown (ctx : PeerReq) (built : httpBuildPeerReq env.curl job.httpKvList = .ok ctx)
      (sane : sanitizePeerReq ctx = none)
      (missed : torrentDoLookupTorrentInfoHash ctx.infoHash tl.list = none)
      (refused : env.db (lookupSql ctx.infoHash) = -1) :
      Utters env tl job tl (.failure torrentMsgFailureMissingHash)
  | peers (after : TorrentList) (te : TorrentEntry) (prints : Prints env tl job after te) :
      Utters env tl job after (.peerList (peerListReply te))

theorem handled_utters {env : Environment} {tl after : TorrentList} {job : Job} {reply : Reply}
    {ctx : PeerReq} (built : httpBuildPeerReq env.curl job.httpKvList = .ok ctx)
    (sane : sanitizePeerReq ctx = none)
    (returned : jobHandleAnnounce env tl job = .ok (after, reply)) :
    (reply = .silent ∧ LeftSilent env tl job) ∨
      (¬ LeftSilent env tl job ∧ Utters env tl job after reply) := by
  rcases handled_speaks built sane returned with silent | ⟨loud, v, speaks⟩
  · exact Or.inl silent
  refine Or.inr ⟨loud, ?_⟩
  cases handler_cases returned with
  | rejected other error sameBuilt found =>
      cases built.symm.trans sameBuilt
      exact absurd (sane.symm.trans found) (by simp)
  | unknown other sameBuilt sane missed refused =>
      exact .unknown other sameBuilt sane missed refused
  | accepted other pe looked torrent taken =>
      have spoken : (announcePeer torrent.val looked.next pe other.event.bytes).2 ≠ .silent := by
        intro silent
        rw [silent] at speaks
        cases speaks
      rw [announce_prints _ _ _ _ spoken]
      exact .peers _ _ (.printed other pe looked _ torrent taken rfl)

/-- Every announce is told one value, but for those that are left without a reply and
those whose reply is cut. -/
theorem announce_told (env : Environment) (unset : Unset) {tl after : TorrentList} {job : Job}
    {out written : Buffer} (empty : Holds out [])
    (printed : ∀ after reply, jobHandleAnnounce env tl job = .ok (after, reply) → PrintedInside reply)
    (ran : jobHandleAnnounceOut env unset tl job out = .ok (after, some written)) :
    (LeftSilent env tl job ∧ Holds written []) ∨
      (¬ LeftSilent env tl job ∧
        ((∃ v, Told env tl job after v ∧ Holds written (encode v)) ∨
          ∃ te, Prints env tl job after te ∧ CutShort te ∧ keptReply te ≠ [] ∧
            Holds written (keptReply te))) := by
  obtain ⟨ctx, built, -⟩ := bind_ok ran
  rw [out_of_built built] at ran
  cases sanitized : sanitizePeerReq ctx with
  | some error =>
      have short := length_error_text error
      obtain ⟨wrote, appended, holds⟩ := generic_failure_holds unset empty (errorText error) (by omega)
      simp only [sanitized, appended, Except.ok.injEq, Prod.mk.injEq, Option.some.injEq] at ran
      obtain ⟨rfl, rfl⟩ := ran
      rw [← encode_failure _ (by omega)] at holds
      refine Or.inr ⟨?_, Or.inl ⟨_, .rejected ctx error built sanitized, holds⟩⟩
      rintro ⟨other, sameBuilt, sane, -⟩
      cases built.symm.trans sameBuilt
      exact absurd (sanitized.symm.trans sane) (by simp)
  | none =>
      cases returned : jobHandleAnnounce env tl job with
      | error fault => simp [sanitized, returned, Except.map] at ran
      | ok both =>
      obtain ⟨left, reply⟩ := both
      simp only [sanitized, returned, Except.map, Except.ok.injEq, Prod.mk.injEq] at ran
      obtain ⟨rfl, wrote⟩ := ran
      rcases handled_utters built sanitized returned with ⟨rfl, silent⟩ | ⟨loud, spoken⟩
      · cases wrote
        exact Or.inl ⟨silent, empty⟩
      refine Or.inr ⟨loud, ?_⟩
      cases spoken with
      | unknown other sameBuilt sane missed refused =>
          obtain ⟨same, appended, holds⟩ := speaks_holds unset empty .missingHash nofun
          cases appended.symm.trans wrote
          exact Or.inl ⟨_, .unknown other sameBuilt sane missed refused, holds⟩
      | peers after te prints =>
          have inside : Inside (peerListReply te) := printed _ _ returned _ rfl
          obtain ⟨some_body, -, same, appended, holds⟩ := peers_appended unset empty inside
          cases appended.symm.trans wrote
          by_cases cut : CutShort te
          · exact Or.inr ⟨te, prints, cut, some_body, holds⟩
          · rw [kept_whole inside cut] at holds
            exact Or.inl ⟨_, .accepted _ te prints, holds⟩

/-- The job of an announce that is done was printed inside its block. -/
theorem announce_processed {env : Environment} {tl after : TorrentList} {c : Connection}
    {list : List HttpUriKv} {wrote : Option Buffer}
    (ran : workProcessJob env tl c .announce list = .ok (after, wrote)) :
    jobHandleAnnounceOut env c.unset tl ⟨list, c.clientaddr⟩ c.out.b = .ok (after, wrote) ∧
      ∃ left reply, jobHandleAnnounce env tl ⟨list, c.clientaddr⟩ = .ok (left, reply) ∧
        PrintedInside reply := by
  obtain ⟨⟨left, reply⟩, returned, ran⟩ := bind_ok ran
  dsimp only at ran
  split at ran
  · next inside => exact ⟨ran, left, reply, returned, inside⟩
  · cases ran

theorem announce_processes {env : Environment} {tl after : TorrentList} {c : Connection}
    {list : List HttpUriKv} {reply : Reply}
    (returned : jobHandleAnnounce env tl ⟨list, c.clientaddr⟩ = .ok (after, reply))
    (inside : PrintedInside reply) : workProcessJob env tl c .announce list =
      jobHandleAnnounceOut env c.unset tl ⟨list, c.clientaddr⟩ c.out.b := by
  simp [workProcessJob, returned, Bind.bind, Except.bind, inside]

theorem announce_overruns {env : Environment} {tl after : TorrentList} {c : Connection}
    {list : List HttpUriKv} {reply : Reply}
    (returned : jobHandleAnnounce env tl ⟨list, c.clientaddr⟩ = .ok (after, reply))
    (outside : ¬ PrintedInside reply) :
    ∃ fault, workProcessJob env tl c .announce list = .error fault :=
  ⟨.overrun .peerList, by simp [workProcessJob, returned, Bind.bind, Except.bind, outside]; rfl⟩

/-! ## Scrapes -/

inductive ToldFiles (env : Environment) (tl : TorrentList) (list : List HttpUriKv)
    (fresh : Nat → FreshHash) (old : Nat → UInt8) : TorrentList → Value → Prop where
  | unknown (s : Scraping) (ended : jobHandleScrape env tl list fresh = .ok (false, s)) :
      ToldFiles env tl list fresh old s.tl missingHash
  | files (s : Scraping) (ended : jobHandleScrape env tl list fresh = .ok (true, s))
      (count : s.sctx.length = list.length) :
      ToldFiles env tl list fresh old s.tl (filesDict (fileEntries old s.sctx))

theorem scrape_hashes_ints (db : Database) (keys : List (List UInt8)) (s t : Scraping)
    (whole : Bool) (ints : IntTorrents s.tl) (copied : ∀ se ∈ s.sctx, IntCounters se)
    (ended : scrapeHashes db keys s = .ok (whole, t)) : ∀ se ∈ t.sctx, IntCounters se := by
  induction keys generalizing s with
  | nil =>
      cases ended
      exact copied
  | cons infoHash rest ih =>
      unfold scrapeHashes at ended
      split at ended
      · contradiction
      · cases ended
        exact copied
      · next tl te looked =>
          have kept := lookup_ints ints (lookup_cases looked)
          have member := looked_mem (lookup_cases looked)
          exact ih _ kept (List.forall_mem_cons.mpr ⟨kept te member, copied⟩) ended

theorem scraped_count {env : Environment} {fresh : Nat → FreshHash} {tl : TorrentList}
    {list : List HttpUriKv} {s : Scraping}
    (ended : jobHandleScrape env tl list fresh = .ok (true, s)) : s.sctx.length = list.length := by
  unfold jobHandleScrape at ended
  cases looked : scrapeHashes env.db (httpBuildPeerReqHashList env.curl list fun i => (fresh i).mem)
      ⟨torrentListWorkon tl, [], []⟩ with
  | error fault => simp [looked, Except.map] at ended
  | ok both =>
      obtain ⟨all, t⟩ := both
      simp only [looked, Except.map, Except.ok.injEq, Prod.mk.injEq] at ended
      obtain ⟨rfl, rfl⟩ := ended
      have entries := scrape_hashes_count _ _ _ _ looked
      rw [entries, List.length_nil, Nat.zero_add, httpBuildPeerReqHashList, List.length_reverse,
        List.length_mapIdx]

theorem scraped_ints {env : Environment} {fresh : Nat → FreshHash} {tl : TorrentList}
    {list : List HttpUriKv} {s : Scraping} {whole : Bool} (ints : IntTorrents tl)
    (ended : jobHandleScrape env tl list fresh = .ok (whole, s)) :
    ∀ se ∈ s.sctx, IntCounters se := by
  unfold jobHandleScrape at ended
  cases looked : scrapeHashes env.db (httpBuildPeerReqHashList env.curl list fun i => (fresh i).mem)
      ⟨torrentListWorkon tl, [], []⟩ with
  | error fault => simp [looked, Except.map] at ended
  | ok both =>
      obtain ⟨all, t⟩ := both
      simp only [looked, Except.map, Except.ok.injEq, Prod.mk.injEq] at ended
      obtain ⟨rfl, rfl⟩ := ended
      exact scrape_hashes_ints env.db _ _ t all ints (by simp) looked

theorem scrape_out_holds {env : Environment} {unset : Unset} {old : Nat → UInt8}
    {fresh : Nat → FreshHash} {tl after : TorrentList} {list : List HttpUriKv} {out written : Buffer}
    {whole : Bool} {s : Scraping} (empty : out.cursor = 0) (some_pair : list ≠ [])
    (few : list.length < 2 ^ 24) (ended : jobHandleScrape env tl list fresh = .ok (whole, s))
    (ints : whole = true → ∀ se ∈ s.sctx, IntCounters se)
    (ran : jobHandleScrapeOut env unset old tl list fresh out = .ok (after, some written)) :
    after = s.tl ∧
      Holds written (encode (if whole then filesDict (fileEntries old s.sctx) else missingHash)) := by
  simp only [jobHandleScrapeOut, ended, Except.map, Except.ok.injEq, Prod.mk.injEq] at ran
  obtain ⟨rfl, wrote⟩ := ran
  refine ⟨rfl, ?_⟩
  cases whole with
  | false =>
      have size : torrentMsgFailureMissingHash.length = 51 := by decide +kernel
      obtain ⟨same, appended, holds⟩ := append_strings_holds unset (empty_holds empty)
        [torrentMsgFailureMissingHash] (by simp only [List.forall_mem_singleton]; omega)
      simp only [Bool.false_eq_true, if_false, appended, Option.some.injEq] at wrote
      subst wrote
      rw [List.nil_append, List.flatten_singleton, ← encode_missing_hash] at holds
      exact holds
  | true =>
      have count := scraped_count ended
      have positive := List.length_pos_iff.mpr some_pair
      obtain ⟨printed, body, holds⟩ := scrape_body_holds unset old s.sctx
        (List.length_pos_iff.mp (by omega)) (by omega) (ints rfl) empty
      simp only [if_true, body, Option.some.injEq] at wrote
      subst wrote
      exact holds

theorem scrape_told (env : Environment) (unset : Unset) (old : Nat → UInt8) (fresh : Nat → FreshHash)
    {tl after : TorrentList} {list : List HttpUriKv} {out written : Buffer} (empty : out.cursor = 0)
    (some_pair : list ≠ []) (few : list.length < 2 ^ 24) (ints : IntTorrents tl)
    (ran : jobHandleScrapeOut env unset old tl list fresh out = .ok (after, some written)) :
    ∃ v, ToldFiles env tl list fresh old after v ∧ Holds written (encode v) := by
  cases ended : jobHandleScrape env tl list fresh with
  | error fault => simp [jobHandleScrapeOut, ended, Except.map] at ran
  | ok both =>
      obtain ⟨whole, s⟩ := both
      obtain ⟨rfl, holds⟩ := scrape_out_holds empty some_pair few ended
        (fun _ => scraped_ints ints ended) ran
      cases whole with
      | false => exact ⟨_, .unknown s ended, holds⟩
      | true => exact ⟨_, .files s ended (scraped_count ended), holds⟩

/-! ## The whole way -/

theorem requested_holds {c : Connection} {b : Buffer} {jobT : JobType}
    (asked : requested c = some (b, jobT)) :
    ∃ bytes ∈ c.received, 5 ≤ bytes.length ∧ Holds b (cstr bytes) ∧
      httpParseJobFromRequest b = some jobT := by
  obtain ⟨bytes, received, asked⟩ := Option.bind_eq_some_iff.mp asked
  by_cases short : bytes.length < 5
  · rw [if_pos short] at asked
    contradiction
  · have size : (cstr bytes).length ≤ bytes.length := (List.takeWhile_prefix _).length_le
    have read := c.read bytes received
    obtain ⟨next, appended, holds, -⟩ := append_string_holds c.unset (empty_holds c.input.empty)
      (cstr bytes) (by simp only [httpMaxReqSize] at read; omega)
    rw [if_neg short, appended, Option.bind_eq_bind, Option.bind_some] at asked
    obtain ⟨chosen, parsed, same⟩ := Option.bind_eq_some_iff.mp asked
    cases same
    exact ⟨bytes, received, by omega, holds, parsed⟩

theorem job_not_stop {b : Buffer} {jobT : JobType} (parsed : httpParseJobFromRequest b = some jobT) :
    jobT ≠ .stop := by
  unfold httpParseJobFromRequest at parsed
  split at parsed
  · cases parsed
    simp
  · split at parsed
    · cases parsed
      simp
    · contradiction

theorem parsed_ret {b : Buffer} {jobT : JobType} {result : QueryResult}
    (parsed : httpParseQuery b jobT = some result) : result.ret = -1 ∨ result.ret = 0 := by
  cases parse_stages parsed with
  | judged found start head =>
      cases jobT with
      | stop => exact Or.inl rfl
      | announce | scrape =>
          rw [judge]
          split
          · exact Or.inl rfl
          · exact Or.inr rfl
  | _ => exact Or.inl rfl

theorem scraped_pairs {c : Connection} {b : Buffer} {result : QueryResult}
    (asked : requested c = some (b, .scrape)) (parsed : httpParseQuery b .scrape = some result)
    (ret : result.ret = 0) : result.head ≠ [] ∧ result.head.length < 2 ^ 24 := by
  obtain ⟨bytes, received, -, holds, chosen⟩ := requested_holds asked
  -- as many entries as pieces, and each piece takes a byte of the query
  obtain ⟨some_piece, few⟩ := scrape_pieces b result chosen parsed ret
  obtain ⟨start, offset, pairs, -⟩ := accepted_pieces b .scrape result parsed ret
  cases offset
  have count : result.head.length = (queryPieces b 12).length := by
    rw [pairs, List.length_reverse, List.length_map]
  have positive := List.length_pos_iff.mpr some_piece
  have size : (cstr bytes).length ≤ bytes.length := (List.takeWhile_prefix _).length_le
  have read := c.read bytes received
  have cursor := holds.cursor
  simp only [httpMaxReqSize] at read
  exact ⟨List.length_pos_iff.mp (by omega), by omega⟩

inductive Answer (env : Environment) (tl : TorrentList) (c : Connection) :
    TorrentList → Served → Prop where
  | unread (none : requested c = none) : Answer env tl c tl .closed
  | refused (b : Buffer) (jobT : JobType) (result : QueryResult) (message : Buffer)
      (asked : requested c = some (b, jobT)) (parsed : httpParseQuery b jobT = some result)
      (ret : result.ret = -1) (reads : Reads message 400 (failureDict (text "query error"))) :
      Answer env tl c tl (.sent message)
  | announced (b : Buffer) (result : QueryResult) (message : Buffer) (after : TorrentList)
      (v : Value) (asked : requested c = some (b, .announce))
      (parsed : httpParseQuery b .announce = some result) (ret : result.ret = 0)
      (loud : ¬ LeftSilent env tl ⟨result.head, c.clientaddr⟩)
      (told : Told env tl ⟨result.head, c.clientaddr⟩ after v) (reads : Reads message 200 v) :
      Answer env tl c after (.sent message)
  | cut (b : Buffer) (result : QueryResult) (message : Buffer) (after : TorrentList)
      (te : TorrentEntry) (asked : requested c = some (b, .announce))
      (parsed : httpParseQuery b .announce = some result) (ret : result.ret = 0)
      (loud : ¬ LeftSilent env tl ⟨result.head, c.clientaddr⟩)
      (prints : Prints env tl ⟨result.head, c.clientaddr⟩ after te) (short : CutShort te)
      (reads : ReadsBody message 200 (keptReply te)) : Answer env tl c after (.sent message)
  | silent (b : Buffer) (result : QueryResult) (message : Buffer) (after : TorrentList)
      (asked : requested c = some (b, .announce))
      (parsed : httpParseQuery b .announce = some result) (ret : result.ret = 0)
      (silent : LeftSilent env tl ⟨result.head, c.clientaddr⟩) (cut : Unreadable message) :
      Answer env tl c after (.sent message)
  | scraped (b : Buffer) (result : QueryResult) (message : Buffer) (after : TorrentList)
      (v : Value) (asked : requested c = some (b, .scrape))
      (parsed : httpParseQuery b .scrape = some result) (ret : result.ret = 0)
      (told : ToldFiles env tl result.head c.fresh c.old after v) (reads : Reads message 200 v) :
      Answer env tl c after (.sent message)

/-- Every connection that is served gets the answer to its request: none to what is no
request, a 400 to a query that is refused, a 200 with the one value its handler is about
or with a peer list that its block has cut, and only an announce that is left silent a
message that cannot be read. -/
theorem requests_answered (env : Environment) (tl after : TorrentList) (c : Connection)
    (served : Served) (ints : IntTorrents tl)
    (ran : serve env tl c = some (after, served)) : Answer env tl c after served := by
  unfold serve at ran
  cases asked : requested c with
  | none =>
      simp only [asked, Option.some.injEq, Prod.mk.injEq] at ran
      obtain ⟨rfl, rfl⟩ := ran
      exact .unread asked
  | some request =>
  obtain ⟨b, jobT⟩ := request
  obtain ⟨bytes, received, long, holds, chosen⟩ := requested_holds asked
  simp only [asked] at ran
  obtain ⟨result, parsed, ran⟩ := Option.bind_eq_some_iff.mp ran
  rcases parsed_ret parsed with ret | ret
  · rw [if_pos ret] at ran
    obtain ⟨message, sent, same⟩ := Option.bind_eq_some_iff.mp ran
    cases same
    exact .refused b jobT result message asked parsed ret (http_error_reads c sent)
  · rw [if_neg (by omega)] at ran
    obtain ⟨⟨left, wrote⟩, worked, ran⟩ := Option.bind_eq_some_iff.mp ran
    obtain ⟨out, rfl, ran⟩ := Option.bind_eq_some_iff.mp ran
    obtain ⟨message, built, same⟩ := Option.bind_eq_some_iff.mp ran
    cases same
    have process := to_option_ok worked
    cases jobT with
    | stop => exact absurd rfl (job_not_stop chosen)
    | announce =>
        obtain ⟨wrote, _, _, returned, inside⟩ := announce_processed process
        have printed : ∀ after reply, jobHandleAnnounce env tl ⟨result.head, c.clientaddr⟩ =
            .ok (after, reply) → PrintedInside reply := by
          intro after reply again
          cases returned.symm.trans again
          exact inside
        rcases announce_told env c.unset (empty_holds c.out.empty) printed wrote with
          ⟨silent, nothing⟩ | ⟨loud, ⟨v, told, whole⟩ | ⟨te, prints, short, some_body, kept⟩⟩
        · exact .silent b result message left asked parsed ret silent
            (response_unreadable c.unset 200 c.response.empty nothing built)
        · exact .announced b result message left v asked parsed ret loud told
            (response_reads c.unset 200 (Or.inl rfl) c.response.empty whole built)
        · exact .cut b result message left te asked parsed ret loud prints short
            (response_reads_body c.unset 200 (Or.inl rfl) c.response.empty some_body kept built)
    | scrape =>
        obtain ⟨some_pair, few⟩ := scraped_pairs asked parsed ret
        obtain ⟨v, told, whole⟩ := scrape_told env c.unset c.old c.fresh c.out.empty some_pair
          few ints process
        exact .scraped b result message left v asked parsed ret told
          (response_reads c.unset 200 (Or.inl rfl) c.response.empty whole built)

def knownScrape : Connection where
  received := some (getScrape ++ ascii ['?'] ++ queryOf [(infoHashKey, List.replicate 20 104)] ++
    ascii [' '] ++ http11 ++ [13, 10])
  read := by decide +kernel
  clientaddr := ⟨10, 0, 0, 1⟩
  input := ⟨mkBuffer, rfl⟩
  out := ⟨mkBuffer, rfl⟩
  response := ⟨mkBuffer, rfl⟩
  fresh _ := dirtyMemory
  old _ := 0
  unset _ _ := 255

theorem requests_answered_scrape : ∃ after served,
    serve sampleEnv .empty knownScrape = some (after, served) ∧
      Answer sampleEnv .empty knownScrape after served := by
  have served : (serve sampleEnv .empty knownScrape).isSome := by decide +kernel
  obtain ⟨⟨after, message⟩, ran⟩ := Option.isSome_iff_exists.mp served
  exact ⟨after, message, ran, requests_answered sampleEnv .empty after knownScrape message
    (by simp [IntTorrents, TorrentList.empty]) ran⟩

end Ttracker.ServedRequests
