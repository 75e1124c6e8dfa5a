import Ttracker.TorrentCache

/-!
`_job_handle_announce`, run to its end without other jobs in between. A fault is
a read through a missing entry or a copy past a field; it ends the process, or
leaves it in no state the program defines.
-/
namespace Ttracker.AnnounceHandler
open CLibrary LinkedNodes BoundedPrint HttpQuery PeerRequest Torrents TorrentCache

structure Environment where
  curl : Unescape
  db : Database

structure Job where
  httpKvList : List HttpUriKv
  clientaddr : InAddr
  deriving DecidableEq

inductive Reply where
  | silent
  | failure (message : List UInt8)
  | peerList (printed : Printer)
  deriving DecidableEq

/-- The `switch` on the sanitizer's error; its default is never taken. -/
def errorText : SanitizeError → List UInt8
  | .infoHash => text "Corrupted hash"
  | .peerId => text "Invalid peer_id"
  | .port => text "Invalid port"
  | .downloaded => text "Invalid downloaded value"
  | .uploaded => text "Invalid uploaded value"
  | .left => text "Invalid left value"
  | .event => text "Invalid event"

def wantsStart (event : List UInt8) : Bool := strncmpEq event eventStart 4

def updateAction (event : List UInt8) : Action :=
  -- four characters decide, so "complete" and "completed" are one event
  if strncmpEq event eventStop 4 then .stop
  else if strncmpEq event eventCompleted 4 then .complete
  else .null

/-- The entry the handler fills on its stack before it searches. -/
def peerOf (clientaddr : InAddr) (ctx : PeerReq) : Except Fault PeerEntry :=
  (copyPeerId ctx).map fun peerId =>
    { peerId, port := ctx.port, ip := getPeerInfo clientaddr, left := ctx.left.toInt }

/-- The handler from its peer search on. -/
def announcePeer (te : TorrentEntry) (fresh : Nat) (pe : PeerEntry) (event : List UInt8) :
    TorrentEntry × Reply :=
  match peerSearchPeer pe te.peers with
  | none =>
      if wantsStart event then
        let (te, out) := torrentAddPeerAndReturnList te ⟨fresh, pe⟩
        (te, .peerList out)
      else (te, .silent)
  | some pp =>
      let action := updateAction event
      let (te, out) := torrentUpdatePeerAndReturnList te pp action
      (if action = .stop then torrentRemovePeer te pp else te, .peerList out)

section Search
variable {te : TorrentEntry} {pe : PeerEntry} {event : List UInt8}

theorem announce_added (missed : peerSearchPeer pe te.peers = none) (start : wantsStart event = true)
    (fresh : Nat) : announcePeer te fresh pe event =
      (insertPeer te ⟨fresh, pe⟩, .peerList (peerListReply (insertPeer te ⟨fresh, pe⟩))) := by
  simp [announcePeer, torrentAddPeerAndReturnList, missed, start]

theorem announce_silent (missed : peerSearchPeer pe te.peers = none) (other : ¬ wantsStart event = true)
    (fresh : Nat) : announcePeer te fresh pe event = (te, .silent) := by
  simp [announcePeer, missed, other]

theorem announce_found {pp : Node PeerEntry} (found : peerSearchPeer pe te.peers = some pp)
    (fresh : Nat) : announcePeer te fresh pe event =
      (if updateAction event = .stop then
          torrentRemovePeer (torrentUpdatePeerAndReturnList te pp (updateAction event)).1 pp
        else (torrentUpdatePeerAndReturnList te pp (updateAction event)).1,
        .peerList (torrentUpdatePeerAndReturnList te pp (updateAction event)).2) := by
  simp only [announcePeer, found]

end Search

def jobHandleAnnounce (env : Environment) (tl : TorrentList) (job : Job) :
    Except Fault (TorrentList × Reply) := do
  let ctx ← httpBuildPeerReq env.curl job.httpKvList
  match sanitizePeerReq ctx with
  | some error => return (tl, .failure (torrentMsgFailureGeneric (errorText error)))
  | none =>
      let (tl, found) ← torrentLookupTorrent env.db ctx.infoHash (torrentListWorkon tl)
      match found with
      | none => return (torrentListJobdone tl, .failure torrentMsgFailureMissingHash)
      | some torrent =>
          let pe ← peerOf job.clientaddr ctx
          let (te, reply) := announcePeer torrent.val tl.next pe ctx.event.bytes
          let tl := { tl with
            list := modifyAt torrent.addr (fun _ => te) tl.list
            next := tl.next + 1 }
          return (torrentListJobdone tl, reply)

/-- For the events the sanitizer lets through four characters are enough. -/
theorem event_actions (event : List UInt8) (known : event ∈ knownEvents) :
    (wantsStart event = true ↔ event = eventStart) ∧
      (updateAction event = .stop ↔ event = eventStop) ∧
        (updateAction event = .complete ↔ event = eventComplete) := by
  revert event
  decide

structure Accepted (env : Environment) (tl : TorrentList) (job : Job) (ctx : PeerReq)
    (pe : PeerEntry) (looked : TorrentList) (torrent : Node TorrentEntry) : Prop where
  built : httpBuildPeerReq env.curl job.httpKvList = .ok ctx
  sane : sanitizePeerReq ctx = none
  peer : peerOf job.clientaddr ctx = .ok pe
  lookup : Lookup env.db ctx.infoHash (torrentListWorkon tl) looked (some torrent)

/-- Everything a job that ends can have done. -/
inductive Handled (env : Environment) (tl : TorrentList) (job : Job) :
    TorrentList → Reply → Prop where
  | rejected (ctx : PeerReq) (error : SanitizeError)
      (built : httpBuildPeerReq env.curl job.httpKvList = .ok ctx)
      (found : sanitizePeerReq ctx = some error) :
      Handled env tl job tl (.failure (torrentMsgFailureGeneric (errorText error)))
  | unknown (ctx : PeerReq) (built : httpBuildPeerReq env.curl job.httpKvList = .ok ctx)
      (sane : sanitizePeerReq ctx = none)
      (missed : torrentDoLookupTorrentInfoHash ctx.infoHash tl.list = none)
      (refused : env.db (lookupSql ctx.infoHash) = -1) :
      Handled env tl job tl (.failure torrentMsgFailureMissingHash)
  | accepted (ctx : PeerReq) (pe : PeerEntry) (looked : TorrentList) (torrent : Node TorrentEntry)
      (taken : Accepted env tl job ctx pe looked torrent) :
      Handled env tl job
        { list := modifyAt torrent.addr
            (fun _ => (announcePeer torrent.val looked.next pe ctx.event.bytes).1) looked.list
          next := looked.next + 1
          working := tl.working }
        (announcePeer torrent.val looked.next pe ctx.event.bytes).2

theorem workon_jobdone (tl : TorrentList) : torrentListJobdone (torrentListWorkon tl) = tl := by
  simp [torrentListJobdone, torrentListWorkon]

theorem lookup_working {db : Database} {infoHash : List UInt8} {tl after : TorrentList}
    {found : Option (Node TorrentEntry)} (lookup : Lookup db infoHash tl after found) :
    after.working = tl.working := by
  cases lookup <;> rfl

theorem handler_cases {env : Environment} {tl after : TorrentList} {job : Job} {reply : Reply}
    (handled : jobHandleAnnounce env tl job = .ok (after, reply)) :
    Handled env tl job after reply := by
  obtain ⟨ctx, built, handled⟩ := bind_ok handled
  cases sanitized : sanitizePeerReq ctx with
  | some error =>
      simp only [sanitized] at handled
      cases handled
      exact .rejected ctx error built sanitized
  | none =>
  simp only [sanitized] at handled
  obtain ⟨⟨looked, found⟩, lookedUp, handled⟩ := bind_ok handled
  have lookup := lookup_cases lookedUp
  cases found with
  | none =>
      cases handled
      cases lookup with
      | unknown missed refused =>
          rw [workon_jobdone]
          exact .unknown ctx built sanitized missed refused
  | some torrent =>
      obtain ⟨pe, peer, handled⟩ := bind_ok handled
      have working := lookup_working lookup
      have taken := Handled.accepted ctx pe looked torrent ⟨built, sanitized, peer, lookup⟩
      cases handled
      simpa [torrentListJobdone, working, torrentListWorkon] using taken

/-! ## What every job keeps -/

/-- The torrents have addresses and keys of their own, each the key of a 20-byte
hash, and consistent peer lists. -/
structure Kept (tl : TorrentList) : Prop where
  distinct : (addresses tl.list).Nodup
  old : ∀ a ∈ addresses tl.list, a < tl.next
  hashes : ∀ te ∈ tl.list, ∃ h, te.val.infoHash = hashKey h
  keys : KeysDistinct TorrentEntry.infoHash tl.list
  torrents : ∀ te ∈ tl.list, Consistent te.val tl.next

theorem kept_empty : Kept TorrentList.empty := by
  constructor <;> simp [TorrentList.empty, addresses, KeysDistinct]

theorem kept_take {tl : TorrentList} (kept : Kept tl) {te : Node TorrentEntry}
    (member : te ∈ tl.list) : te.val.infoHash.take torrentHashLen = te.val.infoHash := by
  obtain ⟨h, key⟩ := kept.hashes te member
  rw [key, List.take_of_length_le (length_hash_key h).le]

def announcedHash (curl : Unescape) (list : List HttpUriKv) : Option InfoHash :=
  (httpLookupKvKey list infoHashKey).bind fun np =>
    (curl.run np.val.bytes).bind InfoHash.ofDecoded

theorem accepted_key {curl : Unescape} {list : List HttpUriKv} {ctx : PeerReq}
    (built : httpBuildPeerReq curl list = .ok ctx) (sane : sanitizePeerReq ctx = none) :
    ∃ h, announcedHash curl list = some h ∧ ctx.infoHash.take torrentHashLen = hashKey h ∧
      cstr ctx.infoHash = hexText h.bytes := by
  obtain ⟨np, decoded, entry, found, long, digits⟩ := accepted_hash built sane
  have padded := padded_key ⟨decoded.take 20, by rw [List.length_take]; omega⟩
  refine ⟨_, ?_, digits ▸ padded.1, digits ▸ padded.2⟩
  simp [announcedHash, entry, found, InfoHash.ofDecoded, long]

theorem looked_kept {db : Database} {infoHash : List UInt8} {h : InfoHash}
    {tl looked : TorrentList} {torrent : Node TorrentEntry} (kept : Kept tl)
    (key : infoHash.take torrentHashLen = hashKey h) (string : cstr infoHash = hexText h.bytes)
    (lookup : Lookup db infoHash (torrentListWorkon tl) looked (some torrent)) :
    Kept looked ∧ torrent.val.infoHash = hashKey h := by
  cases lookup with
  | hit te found =>
      have member := do_lookup_mem found
      refine ⟨⟨kept.distinct, kept.old, kept.hashes, kept.keys, kept.torrents⟩, ?_⟩
      rw [← kept_take kept member.1, member.2, key]
  | inserted missed fits known =>
      have fresh : (freshTorrent db infoHash (torrentListWorkon tl)).val.infoHash = hashKey h :=
        strncpy_congr _ _ _ (by rw [string, cstr_self _ (hex_text_nul_free h.bytes)])
      refine ⟨?_, fresh⟩
      constructor
      · exact List.nodup_cons.mpr ⟨fun member => (kept.old _ member).false, kept.distinct⟩
      · intro a member
        rcases List.mem_cons.mp member with rfl | before
        · exact Nat.lt_succ_self _
        · exact Nat.lt_succ_of_lt (kept.old a before)
      · intro te member
        rcases List.mem_cons.mp member with rfl | before
        · exact ⟨h, fresh⟩
        · exact kept.hashes te before
      · apply keys_insert TorrentEntry.infoHash _ _ kept.keys
        intro te member same
        refine (do_lookup_absent_iff _ _).mp missed te member ?_
        rw [kept_take kept member, same, fresh, key]
      · intro te member
        rcases List.mem_cons.mp member with rfl | before
        · exact consistent_mk _ _ _
        · exact consistent_mono (kept.torrents te before) (Nat.le_succ _)

theorem accepted_looked {env : Environment} {tl looked : TorrentList} {job : Job} {ctx : PeerReq}
    {pe : PeerEntry} {torrent : Node TorrentEntry} (kept : Kept tl)
    (taken : Accepted env tl job ctx pe looked torrent) : Kept looked := by
  obtain ⟨h, _, key, string⟩ := accepted_key taken.built taken.sane
  exact (looked_kept kept key string taken.lookup).1

@[simp] theorem announce_infoHash (te : TorrentEntry) (fresh : Nat) (pe : PeerEntry)
    (event : List UInt8) : (announcePeer te fresh pe event).1.infoHash = te.infoHash := by
  unfold announcePeer
  cases peerSearchPeer pe te.peers with
  | none => by_cases start : wantsStart event <;> simp [start]
  | some pp => by_cases stop : updateAction event = .stop <;> simp [stop]

theorem announce_consistent {te : TorrentEntry} {next : Nat} (consistent : Consistent te next)
    (pe : PeerEntry) (event : List UInt8) :
    Consistent (announcePeer te next pe event).1 (next + 1) := by
  unfold announcePeer
  cases searched : peerSearchPeer pe te.peers with
  | none =>
      by_cases start : wantsStart event
      · simpa [start, torrentAddPeerAndReturnList, searched] using
          insert_consistent pe consistent searched
      · simpa [start] using consistent_mono consistent (Nat.le_succ _)
  | some pp =>
      have updated := update_consistent pp (updateAction event) consistent
      have later := consistent_mono updated (Nat.le_succ _)
      by_cases stop : updateAction event = .stop
      · have member := (update_peers te pp (updateAction event)).1 ▸ search_mem searched
        simpa [stop] using remove_consistent pp later member
      · simpa [stop] using later

theorem mem_accepted_iff {tl : TorrentList} {torrent : Node TorrentEntry}
    (member : torrent ∈ tl.list) (te : TorrentEntry) (node : Node TorrentEntry) :
    node ∈ modifyAt torrent.addr (fun _ => te) tl.list ↔
      (node ∈ tl.list ∧ node.addr ≠ torrent.addr) ∨ node = ⟨torrent.addr, te⟩ := by
  rw [mem_modifyAt_iff]
  constructor
  · rintro (away | ⟨_, _, rfl⟩)
    · exact Or.inl away
    · exact Or.inr rfl
  · rintro (away | rfl)
    · exact Or.inl away
    · exact Or.inr ⟨torrent.val, member, rfl⟩

theorem modify_kept {tl : TorrentList} (kept : Kept tl) {torrent : Node TorrentEntry}
    (member : torrent ∈ tl.list) (te : TorrentEntry)
    (same : te.infoHash = torrent.val.infoHash) (consistent : Consistent te (tl.next + 1))
    (working : Int) :
    Kept ⟨modifyAt torrent.addr (fun _ => te) tl.list, tl.next + 1, working⟩ := by
  have sameAddresses := addresses_modifyAt torrent.addr (fun _ => te) tl.list
  have here : ∀ node ∈ tl.list, node.addr = torrent.addr → node = torrent :=
    fun node inside => node_unique kept.distinct inside member
  constructor
  · rw [sameAddresses]
    exact kept.distinct
  · intro a listed
    rw [sameAddresses] at listed
    exact Nat.lt_succ_of_lt (kept.old a listed)
  · intro node inside
    rcases (mem_accepted_iff member te node).mp inside with ⟨before, _⟩ | rfl
    · exact kept.hashes node before
    · rw [same]
      exact kept.hashes torrent member
  · have keys : (modifyAt torrent.addr (fun _ => te) tl.list).map (fun node => node.val.infoHash) =
        tl.list.map (fun node => node.val.infoHash) := by
      rw [modifyAt, List.map_map]
      apply List.map_congr_left
      intro node inside
      by_cases worked : node.addr = torrent.addr
      · simp [here node inside worked, same]
      · simp [worked]
    rw [KeysDistinct, keys]
    exact kept.keys
  · intro node inside
    rcases (mem_accepted_iff member te node).mp inside with ⟨before, _⟩ | rfl
    · exact consistent_mono (kept.torrents node before) (Nat.le_succ _)
    · exact consistent

theorem handled_kept {env : Environment} {tl after : TorrentList} {job : Job} {reply : Reply}
    (kept : Kept tl) (handled : Handled env tl job after reply) : Kept after := by
  cases handled with
  | rejected => exact kept
  | unknown => exact kept
  | accepted ctx pe looked torrent taken =>
      have lookedKept := accepted_looked kept taken
      have member := looked_mem taken.lookup
      exact modify_kept lookedKept member _ (announce_infoHash _ _ _ _)
        (announce_consistent (lookedKept.torrents torrent member) pe ctx.event.bytes) _

/-! ## Example jobs -/

def sampleJob (left event : List UInt8) : Job where
  httpKvList := [mkKv infoHashKey (List.replicate 20 104), mkKv peerIdKey (ascii ['p']),
    mkKv portKey (ascii ['6', '8', '8', '1']), mkKv downloadedKey (ascii ['0']),
    mkKv uploadedKey (ascii ['0']), mkKv leftKey left, mkKv eventKey event]
  clientaddr := ⟨10, 0, 0, 1⟩

/-- A database that knows every torrent as 7. -/
def sampleEnv : Environment := ⟨.total, fun _ => 7⟩

end Ttracker.AnnounceHandler
