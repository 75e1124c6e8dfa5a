import Ttracker.AnnounceHandler
import Ttracker.PeerListReply
import Ttracker.Buffers
import Ttracker.Bencode

/-!
What `_job_handle_announce` leaves in `job->out`. The replies are printed with
their bencoding written out by hand; here they are compared with the encodings
of values. One branch of the handler ends without any reply.
-/
namespace Ttracker.AnnounceReplies
open CLibrary LinkedNodes BoundedPrint HttpQuery PeerRequest Torrents TorrentCache AnnounceHandler
  PeerListReply Buffers Bencode

/-! ## The appends to `job->out` -/

/-- `torrent_msg_failure_generic`, with its three appends. -/
def torrentMsgFailureGenericTo (unset : Unset) (b : Buffer) (error : List UInt8) : Option Buffer :=
  let errorstr := (decimal error.length ++ text ":" ++ error).take (error.length + 7)
  appendStrings unset b [failureReason, errorstr, text "e"]

/-- Every other reply is one string, the peer list up to its NUL. -/
def appendReply (unset : Unset) (out : Buffer) : Reply → Option Buffer
  | .silent => some out
  | .failure message => appendStrings unset out [message]
  | .peerList printed => appendStrings unset out [cstr printed.mem]

def jobHandleAnnounceOut (env : Environment) (unset : Unset) (tl : TorrentList) (job : Job)
    (out : Buffer) : Except Fault (TorrentList × Option Buffer) := do
  let ctx ← httpBuildPeerReq env.curl job.httpKvList
  match sanitizePeerReq ctx with
  | some error => return (tl, torrentMsgFailureGenericTo unset out (errorText error))
  | none =>
      let (tl, reply) ← jobHandleAnnounce env tl job
      return (tl, appendReply unset out reply)

/-! ## The replies as values -/

def failureDict (reason : List UInt8) : Value := .dict [(text "failure reason", .bytes reason)]

def peerValue (pt : PeerEntry) : Value :=
  .dict [(text "port", .int pt.port), (text "peer_id", .bytes pt.peerId.bytes),
    (text "ip", .bytes pt.ip.bytes)]

def replyDict (te : TorrentEntry) : Value :=
  .dict [(text "complete", .int te.seeders), (text "incomplete", .int te.leechers),
    (text "interval", .int 30),
    (text "peers", .list ((te.peers.take tMaxNumwant).map fun pt => peerValue pt.val))]

/-- A failure, or the dictionary with the four keys of an answer. -/
def IsReply (v : Value) : Prop :=
  (∃ reason, v = .dict [(text "failure reason", .bytes reason)]) ∨
    ∃ complete incomplete interval peers, v =
      .dict [(text "complete", .int complete), (text "incomplete", .int incomplete),
        (text "interval", .int interval), (text "peers", .list peers)]

def HoldsReply (out : Buffer) : Prop := ∃ v, IsReply v ∧ Holds out (encode v)

theorem encode_peer (pt : PeerEntry) : encode (peerValue pt) = peerDict pt := by
  have port : text "d4:porti" = 100 :: (encodeBytes (text "port") ++ [105]) := by decide +kernel
  have id : text "e7:peer_id" = 101 :: encodeBytes (text "peer_id") := by decide +kernel
  have ip : text "2:ip" = encodeBytes (text "ip") := by decide +kernel
  have colon : text ":" = [58] := by decide +kernel
  have close : text "e" = [101] := by decide +kernel
  have plain (b : List UInt8) : encodeBytes b = decimal b.length ++ text ":" ++ b := by
    simp [encodeBytes, colon]
  rw [peerDict, port, id, ip, close, peerValue]
  simp [encode, encodeEntries, plain pt.peerId.bytes, plain pt.ip.bytes]

theorem encode_reply (te : TorrentEntry) : encode (replyDict te) = replyText te := by
  have complete : text "d8:completei" = 100 :: (encodeBytes (text "complete") ++ [105]) := by
    decide +kernel
  have incomplete : text "e10:incompletei" = 101 :: (encodeBytes (text "incomplete") ++ [105]) := by
    decide +kernel
  have interval : text "e8:intervali" = 101 :: (encodeBytes (text "interval") ++ [105]) := by
    decide +kernel
  have peers : text "e5:peersl" = 101 :: (encodeBytes (text "peers") ++ [108]) := by decide +kernel
  have close : text "ee" = [101, 101] := by decide +kernel
  have thirty : decimalInt 30 = decimal 30 := rfl
  simp [replyDict, encode, encodeEntries, encode_items_flatten, Function.comp_def, encode_peer,
    replyText, replyTexts, replyFront, replyHeader, complete, incomplete, interval, peers, close, thirty]

theorem header_counters {te te' : TorrentEntry} {rest rest' : List UInt8}
    (same : replyHeader te ++ rest = replyHeader te' ++ rest') :
    te.seeders = te'.seeders ∧ te.leechers = te'.leechers := by
  have incomplete : text "e10:incompletei" = 101 :: text "10:incompletei" := by decide +kernel
  have interval : text "e8:intervali" = 101 :: text "8:intervali" := by decide +kernel
  simp only [replyHeader, incomplete, interval, List.append_assoc, List.cons_append] at same
  obtain ⟨seeders, same⟩ := number_unique (by decide) (List.append_cancel_left same)
  obtain ⟨leechers, -⟩ := number_unique (by decide) (List.append_cancel_left same)
  exact ⟨seeders, leechers⟩

/-- Up to six digits the reason is printed whole. -/
theorem encode_failure (error : List UInt8) (short : error.length < 1000000) :
    encode (failureDict error) = torrentMsgFailureGeneric error := by
  have reason : failureReason = 100 :: encodeBytes (text "failure reason") := by decide +kernel
  have colon : text ":" = [58] := by decide +kernel
  have close : text "e" = [101] := by decide +kernel
  have digits := length_decimal_le error.length 6 (by decide) (by simpa using short)
  have whole : (decimal error.length ++ text ":" ++ error).take (error.length + 7) =
      encodeBytes error := by
    rw [List.take_of_length_le (by simp [colon]; omega), encodeBytes, colon]
    simp
  rw [torrentMsgFailureGeneric, whole, reason, close, failureDict]
  simp [encode, encodeEntries]

theorem encode_missing_hash :
    encode (failureDict (text "Missing \"info_hash\" parameter")) = torrentMsgFailureMissingHash := by
  decide +kernel

theorem length_error_text (error : SanitizeError) : (errorText error).length ≤ 24 := by
  cases error <;> decide +kernel

/-! ## What is left in the buffer -/

theorem generic_failure_holds (unset : Unset) {b : Buffer} (empty : Holds b [])
    (error : List UInt8) (short : error.length < 1000000) :
    ∃ out, torrentMsgFailureGenericTo unset b error = some out ∧
      Holds out (torrentMsgFailureGeneric error) := by
  have size : failureReason.length = 18 ∧ (text "e").length = 1 := by decide +kernel
  have cut := List.length_take_le (error.length + 7) (decimal error.length ++ text ":" ++ error)
  obtain ⟨out, wrote, holds⟩ := append_strings_holds unset empty
    [failureReason, (decimal error.length ++ text ":" ++ error).take (error.length + 7), text "e"]
    (by
      simp only [List.forall_mem_cons, List.not_mem_nil, false_implies, implies_true, and_true]
      omega)
  exact ⟨out, wrote, by simpa [torrentMsgFailureGeneric] using holds⟩

/-- Every reply of the handler proper is one value. -/
inductive Speaks : Reply → Value → Prop where
  | missingHash : Speaks (.failure torrentMsgFailureMissingHash)
      (failureDict (text "Missing \"info_hash\" parameter"))
  | peers (te : TorrentEntry) : Speaks (.peerList (peerListReply te)) (replyDict te)

theorem speaks_is_reply {reply : Reply} {v : Value} (speaks : Speaks reply v) : IsReply v := by
  cases speaks with
  | missingHash => exact Or.inl ⟨_, rfl⟩
  | peers te => exact Or.inr ⟨_, _, _, _, rfl⟩

/-- The reply buffer has room for what is printed into it, its NUL included. -/
def Roomy (reply : Reply) : Prop :=
  ∀ printed, reply = .peerList printed → printed.written < printed.mem.length

instance (reply : Reply) : Decidable (Roomy reply) :=
  match reply with
  | .silent => isTrue fun _ same => nomatch same
  | .failure _ => isTrue fun _ same => nomatch same
  | .peerList printed => decidable_of_iff (printed.written < printed.mem.length)
      ⟨fun room _ same => Reply.peerList.inj same ▸ room, fun roomy => roomy printed rfl⟩

theorem speaks_holds (unset : Unset) {b : Buffer} (empty : Holds b []) {reply : Reply} {v : Value}
    (speaks : Speaks reply v) (roomy : Roomy reply) :
    ∃ out, appendReply unset b reply = some out ∧ Holds out (encode v) := by
  cases speaks with
  | missingHash =>
      have size : torrentMsgFailureMissingHash.length = 51 := by decide +kernel
      obtain ⟨out, wrote, holds⟩ := append_strings_holds unset empty
        [torrentMsgFailureMissingHash] (by simp only [List.forall_mem_singleton]; omega)
      exact ⟨out, wrote, by simpa [encode_missing_hash] using holds⟩
  | peers te =>
      obtain ⟨string, small⟩ := fitting_reply_string te (roomy _ rfl)
      obtain ⟨out, wrote, holds⟩ := append_strings_holds unset empty [replyText te]
        (by simp only [List.forall_mem_singleton]; omega)
      exact ⟨out, by rw [appendReply, string, wrote], by simpa [encode_reply] using holds⟩

/-! ## The branch without a reply -/

/-- The torrent is listed without this peer, or is not listed but known. -/
def PeerUnlisted (env : Environment) (tl : TorrentList) (clientaddr : InAddr) (ctx : PeerReq) :
    Prop :=
  match torrentDoLookupTorrentInfoHash ctx.infoHash tl.list with
  | some torrent =>
      ∀ node ∈ torrent.val.peers, node.val.endpoint ≠ (getPeerInfo clientaddr, ctx.port)
  | none => env.db (lookupSql ctx.infoHash) ≠ -1

/-- An accepted announce other than a start from a peer that is not listed. -/
def LeftSilent (env : Environment) (tl : TorrentList) (job : Job) : Prop :=
  ∃ ctx, httpBuildPeerReq env.curl job.httpKvList = .ok ctx ∧ sanitizePeerReq ctx = none ∧
    ctx.event.bytes ≠ eventStart ∧ PeerUnlisted env tl job.clientaddr ctx

theorem peer_of_endpoint {clientaddr : InAddr} {ctx : PeerReq} {pe : PeerEntry}
    (peer : peerOf clientaddr ctx = .ok pe) :
    pe.endpoint = (getPeerInfo clientaddr, ctx.port) := by
  unfold peerOf at peer
  cases copied : copyPeerId ctx with
  | error fault => simp [copied, Except.map] at peer
  | ok peerId =>
      rw [copied] at peer
      cases peer
      rfl

theorem search_fails_iff {env : Environment} {tl looked : TorrentList} {job : Job} {ctx : PeerReq}
    {pe : PeerEntry} {torrent : Node TorrentEntry}
    (taken : Accepted env tl job ctx pe looked torrent) :
    peerSearchPeer pe torrent.val.peers = none ↔ PeerUnlisted env tl job.clientaddr ctx := by
  rw [search_absent_iff, peer_of_endpoint taken.peer, PeerUnlisted]
  cases taken.lookup with
  | hit te found =>
      have listed : torrentDoLookupTorrentInfoHash ctx.infoHash tl.list = some torrent := found
      rw [listed]
  | inserted missed fits known =>
      have absent : torrentDoLookupTorrentInfoHash ctx.infoHash tl.list = none := missed
      rw [absent]
      simp [freshTorrent, mkTorrent, known]

theorem announce_peer_silent_iff (te : TorrentEntry) (fresh : Nat) (pe : PeerEntry)
    (event : List UInt8) (known : event ∈ knownEvents) :
    (announcePeer te fresh pe event).2 = .silent ↔
      event ≠ eventStart ∧ peerSearchPeer pe te.peers = none := by
  have start := (event_actions event known).1
  unfold announcePeer
  cases peerSearchPeer pe te.peers with
  | some pp => simp
  | none =>
      by_cases started : wantsStart event = true
      · have same : event = eventStart := start.mp started
        simp only [started, if_true, reduceCtorEq, false_iff, not_and]
        exact fun other => absurd same other
      · have other : event ≠ eventStart := fun same => started (start.mpr same)
        simp [started, other]

theorem announce_peer_speaks (te : TorrentEntry) (fresh : Nat) (pe : PeerEntry)
    (event : List UInt8) :
    (announcePeer te fresh pe event).2 = .silent ∨
      ∃ after, Speaks (announcePeer te fresh pe event).2 (replyDict after) := by
  unfold announcePeer
  cases peerSearchPeer pe te.peers with
  | some pp => exact Or.inr ⟨_, .peers _⟩
  | none =>
      by_cases started : wantsStart event = true
      · simp only [started, if_true]
        exact Or.inr ⟨_, .peers _⟩
      · simp [started]

theorem handled_speaks {env : Environment} {tl after : TorrentList} {job : Job} {reply : Reply}
    {ctx : PeerReq} (built : httpBuildPeerReq env.curl job.httpKvList = .ok ctx)
    (sane : sanitizePeerReq ctx = none)
    (returned : jobHandleAnnounce env tl job = .ok (after, reply)) :
    (reply = .silent ∧ LeftSilent env tl job) ∨
      (¬ LeftSilent env tl job ∧ ∃ v, Speaks reply v) := by
  have silent_iff : LeftSilent env tl job ↔
      ctx.event.bytes ≠ eventStart ∧ PeerUnlisted env tl job.clientaddr ctx := by
    constructor
    · rintro ⟨other, sameBuilt, -, silent⟩
      cases built.symm.trans sameBuilt
      exact silent
    · exact fun silent => ⟨ctx, built, sane, silent⟩
  rw [silent_iff]
  cases handler_cases returned with
  | rejected other error sameBuilt found =>
      cases built.symm.trans sameBuilt
      exact absurd (sane.symm.trans found) (by simp)
  | unknown other sameBuilt _ missed refused =>
      cases built.symm.trans sameBuilt
      exact Or.inr ⟨by simp [PeerUnlisted, missed, refused], _, .missingHash⟩
  | accepted other pe looked torrent taken =>
      cases built.symm.trans taken.built
      have known := ((sanitize_accepts_iff ctx).mp sane).2.2.2.2.2.2
      have quiet := announce_peer_silent_iff torrent.val looked.next pe ctx.event.bytes known
      rw [search_fails_iff taken] at quiet
      rw [← quiet]
      rcases announce_peer_speaks torrent.val looked.next pe ctx.event.bytes with silent | speaks
      · exact Or.inl ⟨silent, silent⟩
      · obtain ⟨te, speaks⟩ := speaks
        refine Or.inr ⟨?_, _, speaks⟩
        intro silent
        rw [silent] at speaks
        cases speaks

theorem out_of_built {env : Environment} {job : Job} {ctx : PeerReq}
    (built : httpBuildPeerReq env.curl job.httpKvList = .ok ctx) (unset : Unset)
    (tl : TorrentList) (out : Buffer) :
    jobHandleAnnounceOut env unset tl job out =
      match sanitizePeerReq ctx with
      | some error => .ok (tl, torrentMsgFailureGenericTo unset out (errorText error))
      | none => (jobHandleAnnounce env tl job).map fun (tl, reply) =>
          (tl, appendReply unset out reply) := by
  rw [jobHandleAnnounceOut, built]
  simp only [Bind.bind, Except.bind]
  cases sanitizePeerReq ctx with
  | some error => rfl
  | none => cases jobHandleAnnounce env tl job <;> rfl

theorem rejected_same {env : Environment} {tl after : TorrentList} {job : Job} {reply : Reply}
    {ctx : PeerReq} {error : SanitizeError}
    (built : httpBuildPeerReq env.curl job.httpKvList = .ok ctx)
    (failed : sanitizePeerReq ctx = some error)
    (returned : jobHandleAnnounce env tl job = .ok (after, reply)) : after = tl := by
  cases handler_cases returned with
  | rejected => rfl
  | unknown other sameBuilt sane =>
      cases built.symm.trans sameBuilt
      exact absurd (failed.symm.trans sane) (by simp)
  | accepted other pe looked torrent taken =>
      cases built.symm.trans taken.built
      exact absurd (failed.symm.trans taken.sane) (by simp)

/-- A job whose handler returns leaves one whole reply in an empty `job->out`, if and
only if it is not an accepted announce, other than a start, of an unlisted peer. -/
theorem announce_replies_iff (env : Environment) (unset : Unset) (tl after : TorrentList)
    (job : Job) (out : Buffer) (reply : Reply)
    (returned : jobHandleAnnounce env tl job = .ok (after, reply)) (roomy : Roomy reply)
    (empty : out.cursor = 0) :
    ∃ written, jobHandleAnnounceOut env unset tl job out = .ok (after, some written) ∧
      (HoldsReply written ↔ ¬ LeftSilent env tl job) := by
  have clean := empty_holds empty
  obtain ⟨ctx, built, -⟩ := bind_ok returned
  cases sanitized : sanitizePeerReq ctx with
  | some error =>
      have short := length_error_text error
      obtain ⟨written, wrote, holds⟩ := generic_failure_holds unset clean (errorText error) (by omega)
      cases rejected_same built sanitized returned
      refine ⟨written, ?_, ?_⟩
      · rw [out_of_built built, sanitized]
        simp only [wrote]
      · have loud : ¬ LeftSilent env tl job := by
          rintro ⟨other, sameBuilt, sane, -⟩
          cases built.symm.trans sameBuilt
          exact absurd (sanitized.symm.trans sane) (by simp)
        rw [← encode_failure _ (by omega)] at holds
        exact iff_of_true ⟨_, Or.inl ⟨_, rfl⟩, holds⟩ loud
  | none =>
      have run : jobHandleAnnounceOut env unset tl job out =
          .ok (after, appendReply unset out reply) := by
        rw [out_of_built built, sanitized, returned]
        rfl
      rcases handled_speaks built sanitized returned with ⟨rfl, silent⟩ | ⟨loud, v, speaks⟩
      · refine ⟨out, run, ?_⟩
        refine iff_of_false ?_ (not_not.mpr silent)
        rintro ⟨v, -, holds⟩
        exact encode_ne_nil v (holds_unique holds clean)
      · obtain ⟨written, wrote, holds⟩ := speaks_holds unset clean speaks roomy
        exact ⟨written, by rw [run, wrote], iff_of_true ⟨v, speaks_is_reply speaks, holds⟩ loud⟩

theorem announce_replies_iff_start :
    ∃ after written, jobHandleAnnounceOut sampleEnv (fun _ _ => 0) .empty
        (sampleJob (ascii ['5']) eventStart) mkBuffer = .ok (after, some written) ∧
      (HoldsReply written ↔ ¬ LeftSilent sampleEnv .empty (sampleJob (ascii ['5']) eventStart)) := by
  have run : (jobHandleAnnounce sampleEnv .empty (sampleJob (ascii ['5']) eventStart)).toOption.any
      (fun result => decide (Roomy result.2)) = true := by decide +kernel
  cases returned : jobHandleAnnounce sampleEnv .empty (sampleJob (ascii ['5']) eventStart) with
  | error fault =>
      rw [returned] at run
      cases run
  | ok result =>
      rw [returned] at run
      have roomy : Roomy result.2 := of_decide_eq_true run
      exact ⟨_, announce_replies_iff sampleEnv (fun _ _ => 0) .empty result.1 _ mkBuffer result.2
        returned roomy rfl⟩

/-- A client nobody has seen stops: its body stays empty. -/
theorem unlisted_stop_not_answered :
    ¬ ∀ (env : Environment) (unset : Unset) (tl after : TorrentList) (job : Job) (out : Buffer)
      (reply : Reply), jobHandleAnnounce env tl job = .ok (after, reply) → Roomy reply →
        out.cursor = 0 → ∃ written,
          jobHandleAnnounceOut env unset tl job out = .ok (after, some written) ∧
            HoldsReply written := by
  intro claimed
  have run : (jobHandleAnnounce sampleEnv .empty (sampleJob (ascii ['5']) eventStop)).toOption.any
      (fun result => result.2 == .silent) = true := by decide +kernel
  have left : (jobHandleAnnounceOut sampleEnv (fun _ _ => 0) .empty
      (sampleJob (ascii ['5']) eventStop) mkBuffer).toOption.any
        (fun result => result.2 == some mkBuffer) = true := by decide +kernel
  cases returned : jobHandleAnnounce sampleEnv .empty (sampleJob (ascii ['5']) eventStop) with
  | error fault =>
      rw [returned] at run
      cases run
  | ok result =>
      rw [returned] at run
      have silent : result.2 = .silent := beq_iff_eq.mp run
      obtain ⟨written, ended, v, -, holds⟩ := claimed sampleEnv (fun _ _ => 0) .empty result.1 _
        mkBuffer result.2 returned (by rw [silent]; decide) rfl
      rw [ended] at left
      have same : written = mkBuffer := Option.some.inj (beq_iff_eq.mp left)
      rw [same] at holds
      exact encode_ne_nil v (holds_unique holds mk_holds)

end Ttracker.AnnounceReplies
