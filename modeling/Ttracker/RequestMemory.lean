import Ttracker.HeapLists
import Ttracker.ServedRequests

/-!
What a request allocates and frees, from `http_handle_read` to `job_complete`, with the
reads and writes of the blocks in between. The buffers are the pool's and not followed
here. Addresses are used again once they are freed, so what is compared with the handlers
over `TorrentList`, where they are not, is what the torrents and peers hold.
-/
namespace Ttracker.RequestMemory
open CLibrary LinkedNodes BoundedPrint HttpQuery PeerRequest Torrents TorrentCache AnnounceHandler
  ScrapeHandler Buffers OwnedBlocks HeapLists ServedRequests

/-- A torrent with the blocks of its lock and of its list's head. -/
structure HeapTorrent where
  peerRwlk : Nat
  peers : Nat
  te : TorrentEntry

abbrev HeapList := List (Node HeapTorrent)

/-- How a connection went. -/
inductive Outcome where
  | closed
  | refused
  | announced (reply : Reply)
  | scraped (whole : Bool) (sctx : List ScrapeEntry)

section Programs
variable (a : Allocator Nat)

/-! ## Torrents -/

def lookupTorrent (db : Database) (infoHash : List UInt8) (list : HeapList) :
    Program Nat (HeapList × Option (Node HeapTorrent)) := do
  let te ← search
    (fun pt => pt.val.te.infoHash.take torrentHashLen == infoHash.take torrentHashLen) list
  match te with
  | some te => return (list, some te)
  | none =>
      let tid ← liftM (dbQueryLookupTorrent db infoHash).toOption
      if tid = -1 then return (list, none)
      else
        let p ← malloc a
        let peerRwlk ← malloc a
        let peers ← malloc a
        let te : Node HeapTorrent :=
          ⟨p, peerRwlk, peers, mkTorrent (strncpy torrentHashLen infoHash) tid⟩
        let list ← insertHead te list
        return (list, some te)

/-- Both functions that return a list: the allocation, and the peers that are printed. -/
def printList (te : TorrentEntry) (printed : Printer) : Program Nat Nat := do
  let out ← malloc a
  walk (te.peers.take tMaxNumwant)
  access out
  -- no print may go past the end of `out`
  if Inside printed then return out else failure

def addPeerAndReturnList (te : HeapTorrent) (pe : Node PeerEntry) :
    Program Nat (HeapTorrent × Nat × Printer) := do
  access te.peerRwlk
  let pp ← search (fun pt => pt.val.endpoint == pe.val.endpoint) te.te.peers
  match pp with
  | none =>
      let _ ← insertHead pe te.te.peers
      access te.peers
  | some _ => pure ()
  let (entry, printed) := torrentAddPeerAndReturnList te.te pe
  let out ← printList a entry printed
  return ({ te with te := entry }, out, printed)

def updatePeerAndReturnList (te : HeapTorrent) (pe : Node PeerEntry) (action : Torrents.Action) :
    Program Nat (HeapTorrent × Nat × Printer) := do
  access te.peerRwlk
  access pe.addr
  let (entry, printed) := torrentUpdatePeerAndReturnList te.te pe action
  let out ← printList a entry printed
  return ({ te with te := entry }, out, printed)

/-- `LIST_REMOVE` writes to the two neighbours; here to every peer. -/
def removePeer (te : HeapTorrent) (pe : Node PeerEntry) : Program Nat HeapTorrent := do
  access te.peerRwlk
  access te.peers
  walk te.te.peers
  return { te with te := torrentRemovePeer te.te pe }

def announcePeer (te : HeapTorrent) (pe : PeerEntry) (event : List UInt8) :
    Program Nat (HeapTorrent × Reply) := do
  access te.peers
  let pp ← search (fun pt => pt.val.endpoint == pe.endpoint) te.te.peers
  match pp with
  | none =>
      if wantsStart event then
        let pep ← malloc a
        let (te, peerList, printed) ← addPeerAndReturnList a te ⟨pep, pe⟩
        access peerList
        free peerList
        return (te, .peerList printed)
      else return (te, .silent)
  | some pp =>
      let (te, peerList, printed) ← updatePeerAndReturnList a te pp (updateAction event)
      if updateAction event = .stop then
        let te ← removePeer te pp
        access peerList
        free peerList
        free pp.addr
        return (te, .peerList printed)
      else
        access peerList
        free peerList
        return (te, .peerList printed)

/-! ## The handlers -/

/-- Returns the block of `job->peer_req` as well. -/
def jobHandleAnnounce (env : Environment) (list : HeapList) (kvs : List (Node HttpUriKv))
    (clientaddr : InAddr) : Program Nat (Nat × HeapList × Reply) := do
  let req ← malloc a
  walk kvs
  let ctx ← liftM (httpBuildPeerReq env.curl (kvs.map Node.val)).toOption
  match sanitizePeerReq ctx with
  | some error =>
      let errorstr ← malloc a
      access errorstr
      free errorstr
      return (req, list, .failure (torrentMsgFailureGeneric (errorText error)))
  | none =>
      let (list, found) ← lookupTorrent a env.db ctx.infoHash list
      match found with
      | none => return (req, list, .failure torrentMsgFailureMissingHash)
      | some torrent =>
          access req
          let pe ← liftM (peerOf clientaddr ctx).toOption
          access torrent.addr
          let (te, reply) ← announcePeer a torrent.val pe ctx.event.bytes
          return (req, modifyAt torrent.addr (fun _ => te) list, reply)

/-- `http_build_peer_req_hash_list`, the loop. -/
def buildHashes (curl : Unescape) (fresh : Nat → FreshHash) :
    Nat → List (Node HttpUriKv) → List (Node (List UInt8)) → Program Nat (List (Node (List UInt8)))
  | _, [], hashes => pure hashes
  | i, np :: rest, hashes => do
      access np.addr
      let pp ← malloc a
      let hashes ← insertHead ⟨pp, urlDecode curl (fresh i).mem np.val.val.bytes⟩ hashes
      buildHashes curl fresh (i + 1) rest hashes

def scrapeHashes (db : Database) : List (Node (List UInt8)) → HeapList → List (Node ScrapeEntry) →
    Program Nat (Bool × HeapList × List (Node ScrapeEntry))
  | [], list, sctx => pure (true, list, sctx)
  | hep :: rest, list, sctx => do
      access hep.addr
      let (list, found) ← lookupTorrent a db hep.val list
      match found with
      | none => return (false, list, sctx)
      | some te =>
          let sep ← malloc a
          access te.addr
          access te.val.peerRwlk
          let t := te.val.te
          let sctx ← insertHead
            ⟨sep, t.seeders, t.leechers, t.complete, t.peerCount, t.infoHash⟩ sctx
          scrapeHashes db rest list sctx

/-- Returns `job->peer_req` with its hash list. -/
def jobHandleScrape (env : Environment) (list : HeapList) (kvs : List (Node HttpUriKv))
    (fresh : Nat → FreshHash) :
    Program Nat ((Nat × Nat × List (Node (List UInt8))) × HeapList × Bool × List ScrapeEntry) := do
  let sctx ← malloc a
  let ctx ← malloc a
  let hashlist ← malloc a
  let hashes ← buildHashes a env.curl fresh 0 kvs []
  let (whole, list, entries) ← scrapeHashes a env.db hashes list []
  if whole then
    let scrapeList ← malloc a
    walk entries
    access scrapeList
    freeNodes entries
    access sctx
    free sctx
    free scrapeList
    return ((ctx, hashlist, hashes), list, whole, entries.map Node.val)
  else
    freeNodes entries
    access sctx
    free sctx
    return ((ctx, hashlist, hashes), list, whole, entries.map Node.val)

/-! ## The job -/

def parsePairs (p : List UInt8) (found : Nat) :
    Nat → Nat → List (Node HttpUriKv) → Program Nat (Bool × List (Node HttpUriKv))
  | 0, i, head => if i < found then failure else pure (true, head)
  | fuel + 1, i, head =>
      if i < found then do
        let key ← liftM (copyUntil p 61 found (httpMaxKeyLen - 1) i)
        if key.length = 0 then return (false, head)
        else
          let i := i + key.length + 1
          let val ← liftM (copyUntil p 38 found (httpMaxValLen - 1) i)
          let keyval ← malloc a
          let head ← insertHead ⟨keyval, mkKv key val⟩ head
          parsePairs p found fuel (i + val.length + 1) head
      else pure (true, head)

/-- Of the refused queries only an announce without its keys frees its entries. -/
def judge (jobT : JobType) (head : List (Node HttpUriKv)) :
    Program Nat (Int × List (Node HttpUriKv)) := do
  walk head
  match jobT with
  | .announce =>
      if countMatches (head.map Node.val) < httpMaxKeys then
        freeNodes head
        return (-1, head)
      else return (0, head)
  | .scrape =>
      if (head.map Node.val).any fun np => np.key.bytes != infoHashKey then return (-1, head)
      else return (0, head)
  | .stop => return (-1, head)

def httpParseQuery (input : Buffer) (jobT : JobType) : Program Nat (Int × List (Node HttpUriKv)) := do
  let found ← liftM (lineEnd input.p input.cursor.toNat 0)
  if found = 0 then return (-1, [])
  else if found < 11 then return (-1, [])
  else
    let version ← liftM (readSpan input.p (found - 9) 8)
    if version ≠ http11 ∧ version ≠ http10 then return (-1, [])
    else
      match startOffset jobT with
      | none => return (-1, [])
      | some start =>
          let (complete, head) ← parsePairs a (input.p.set (found - 10) 0) found found start []
          if complete then judge jobT head else return (-1, head)

def jobComplete (kvs : List (Node HttpUriKv)) (kvList req : Nat)
    (hashlist : Option (Nat × List (Node (List UInt8)))) (job : Nat) : Program Nat Unit := do
  access job
  freeNodes kvs
  access kvList
  free kvList
  access req
  match hashlist with
  | some (head, hashes) =>
      access head
      freeNodes hashes
      access head
      free head
  | none => pure ()
  free req
  access job
  free job

/-- A connection, its job queued and taken at once. -/
def serve (env : Environment) (list : HeapList) (c : Connection) :
    Program Nat (HeapList × Outcome) := do
  let uri ← malloc a
  let kvList ← malloc a
  access uri
  match requested c with
  | none =>
      free uri
      free kvList
      return (list, .closed)
  | some (b, jobT) =>
      access kvList
      let (ret, kvs) ← httpParseQuery a b jobT
      if ret = -1 then
        free kvList
        free uri
        return (list, .refused)
      else
        let job ← malloc a
        let we ← malloc a
        access job
        free uri
        access we
        free we
        match jobT with
        | .announce =>
            let (req, list, reply) ← jobHandleAnnounce a env list kvs c.clientaddr
            jobComplete kvs kvList req none job
            return (list, .announced reply)
        | .scrape =>
            let ((req, head, hashes), list, whole, sctx) ← jobHandleScrape a env list kvs c.fresh
            jobComplete kvs kvList req (some (head, hashes)) job
            return (list, .scraped whole sctx)
        | .stop =>
            free job
            return (list, .closed)

/-! ## The end of the torrents -/

def freeTorrent (te : HeapTorrent) : Program Nat Unit := do
  access te.peers
  freeNodes te.te.peers
  access te.peers
  free te.peers
  access te.peerRwlk
  free te.peerRwlk

/-- `LIST_REMOVE` writes to the next torrent. -/
def torrentStopPool : HeapList → Program Nat Unit
  | [] => pure ()
  | tp1 :: rest => do
      access tp1.addr
      walk (rest.take 1)
      freeTorrent tp1.val
      free tp1.addr
      torrentStopPool rest

end Programs

/-! ## What torrents hold -/

/-- A torrent without the addresses of its peers. -/
def bare (te : TorrentEntry) : TorrentEntry :=
  { te with peers := te.peers.map fun pt => ⟨0, pt.val⟩ }

theorem bare_peers {x y : TorrentEntry} (alike : bare x = bare y) :
    contents id x.peers = contents id y.peers := by
  have peers : x.peers.map (fun pt => (⟨0, pt.val⟩ : Node PeerEntry)) =
      y.peers.map fun pt => ⟨0, pt.val⟩ := congrArg TorrentEntry.peers alike
  have values := congrArg (List.map Node.val) peers
  simpa [contents, Function.comp_def] using values

theorem print_peers_bare (outSize : Int) (peers : List (Node PeerEntry)) (i : Nat) (out : Printer) :
    printPeers outSize (peers.map fun pt => ⟨0, pt.val⟩) i out = printPeers outSize peers i out := by
  induction peers generalizing i out with
  | nil => rfl
  | cons pt rest ih => simp only [List.map_cons, printPeers, ih]

theorem reply_bare (te : TorrentEntry) : peerListReply (bare te) = peerListReply te := by
  simp only [peerListReply, torrentBencodeTorrent, bare, print_peers_bare, replyHeader]

theorem reply_alike {x y : TorrentEntry} (alike : bare x = bare y) :
    peerListReply x = peerListReply y := by
  rw [← reply_bare x, alike, reply_bare]

theorem insert_alike {x y : TorrentEntry} (alike : bare x = bare y) (p q : Nat) (pe : PeerEntry) :
    bare (insertPeer x ⟨p, pe⟩) = bare (insertPeer y ⟨q, pe⟩) := by
  have inserted : ∀ (te : TorrentEntry) (r : Nat),
      bare (insertPeer te ⟨r, pe⟩) = insertPeer (bare te) ⟨0, pe⟩ := fun _ _ => rfl
  rw [inserted, inserted, alike]

theorem update_alike {x y : TorrentEntry} (alike : bare x = bare y) {one other : Node PeerEntry}
    (same : one.val = other.val) (action : Torrents.Action) :
    bare (torrentUpdatePeerAndReturnList x one action).1 =
      bare (torrentUpdatePeerAndReturnList y other action).1 := by
  have updated : ∀ (te : TorrentEntry) (pp : Node PeerEntry),
      bare (torrentUpdatePeerAndReturnList te pp action).1 =
        (torrentUpdatePeerAndReturnList (bare te) ⟨0, pp.val⟩ action).1 := by
    intro te pp
    cases action <;> simp only [torrentUpdatePeerAndReturnList, bare]
    split <;> rfl
  rw [updated, updated, alike, same]

theorem remove_alike {x y : TorrentEntry} (alike : bare x = bare y) {one other : Node PeerEntry}
    (same : one.val = other.val) {i : Nat} (here : x.peers[i]? = some one)
    (there : y.peers[i]? = some other) (distinct : (addresses x.peers).Nodup)
    (distinct' : (addresses y.peers).Nodup) :
    bare (torrentRemovePeer x one) = bare (torrentRemovePeer y other) := by
  have removed : ∀ (te : TorrentEntry) (pp : Node PeerEntry), te.peers[i]? = some pp →
      (addresses te.peers).Nodup → bare (torrentRemovePeer te pp) =
        { torrentRemovePeer (bare te) ⟨0, pp.val⟩ with peers := (bare te).peers.eraseIdx i } := by
    intro te pp position nodup
    simp only [torrentRemovePeer, bare, remove_at_position nodup position, List.eraseIdx_map]
  rw [removed x one here distinct, removed y other there distinct', alike, same]

/-! ## Blocks -/

/-- The blocks of a torrent but its own. -/
def innerBlocks (te : HeapTorrent) : List Nat := te.peerRwlk :: te.peers :: addresses te.te.peers

def torrentBlocks (t : Node HeapTorrent) : List Nat := t.addr :: innerBlocks t.val

def listBlocks (list : HeapList) : List Nat := list.flatMap torrentBlocks

theorem peers_inner (te : HeapTorrent) : ∀ p ∈ addresses te.te.peers, p ∈ innerBlocks te :=
  fun _ member => List.mem_cons_of_mem _ (List.mem_cons_of_mem _ member)

theorem torrents_listed (list : HeapList) : ∀ p ∈ addresses list, p ∈ listBlocks list := by
  intro p member
  obtain ⟨t, inside, rfl⟩ := List.mem_map.mp member
  exact List.mem_flatMap.mpr ⟨t, inside, List.mem_cons_self⟩

theorem blocks_distinct {list : HeapList} (distinct : (listBlocks list).Nodup) :
    (addresses list).Nodup ∧ ∀ t ∈ list, (innerBlocks t.val).Nodup := by
  induction list with
  | nil => simp [addresses]
  | cons t rest ih =>
      obtain ⟨here, later, apart⟩ := List.nodup_append.mp distinct
      obtain ⟨own, inner⟩ := List.nodup_cons.mp here
      obtain ⟨addrs, inners⟩ := ih later
      refine ⟨List.nodup_cons.mpr ⟨fun member => ?_, addrs⟩, List.forall_mem_cons.mpr ⟨inner, inners⟩⟩
      exact apart t.addr List.mem_cons_self t.addr (torrents_listed rest _ member) rfl

section Rules
variable (a : Allocator Nat)

/-! ## One torrent -/

/-- The printed list is a block next to the torrent's. -/
def Printed (entry : TorrentEntry) (given : HeapTorrent) (out : HeapTorrent × Nat × Printer)
    (left : List Nat) : Prop :=
  out.1 = { given with te := entry } ∧ out.2.2 = peerListReply entry ∧
    left.Perm (out.2.1 :: innerBlocks out.1)

theorem print_takes {te : TorrentEntry} {printed : Printer} {given : List Nat}
    (inside : ∀ p ∈ addresses te.peers, p ∈ given) (fits : Inside printed) :
    Takes (printList a te printed) given fun out left => left = out :: given := by
  rw [printList]
  simp only [if_pos fits]
  refine takes_malloc a fun out => takes_walk (fun p member => ?_) ?_
  · have listed := ((List.take_sublist tMaxNumwant te.peers).map Node.addr).subset member
    exact List.mem_cons_of_mem _ (inside p listed)
  · exact takes_access List.mem_cons_self (takes_pure (List.Perm.refl _) rfl)

theorem add_takes {te : HeapTorrent} {pep : Nat} {pe : PeerEntry}
    (missed : peerSearchPeer pe te.te.peers = none)
    (fits : Inside (peerListReply (insertPeer te.te ⟨pep, pe⟩))) :
    Takes (addPeerAndReturnList a te ⟨pep, pe⟩) (pep :: innerBlocks te)
      (Printed (insertPeer te.te ⟨pep, pe⟩) te) := by
  have inside : ∀ p ∈ addresses te.te.peers, p ∈ pep :: innerBlocks te :=
    fun p member => List.mem_cons_of_mem _ (peers_inner te p member)
  have missed' : te.te.peers.find? (fun pt => pt.val.endpoint == pe.endpoint) = none := missed
  have added : torrentAddPeerAndReturnList te.te ⟨pep, pe⟩ =
      (insertPeer te.te ⟨pep, pe⟩, peerListReply (insertPeer te.te ⟨pep, pe⟩)) := by
    simp only [torrentAddPeerAndReturnList, missed]
  refine takes_access (by simp [innerBlocks]) (takes_search inside ?_)
  rw [missed', added]
  refine takes_insert List.mem_cons_self inside (takes_access (by simp [innerBlocks]) ?_)
  have printing : ∀ p ∈ addresses (insertPeer te.te ⟨pep, pe⟩).peers, p ∈ pep :: innerBlocks te :=
    List.forall_mem_cons.mpr ⟨List.mem_cons_self, inside⟩
  refine (print_takes a printing fits).bind ?_
  rintro out _ rfl
  refine takes_pure (List.Perm.refl _) ⟨rfl, rfl, List.Perm.cons _ ?_⟩
  show (pep :: ([te.peerRwlk, te.peers] ++ addresses te.te.peers)).Perm
    ([te.peerRwlk, te.peers] ++ pep :: addresses te.te.peers)
  exact List.perm_middle.symm

theorem update_takes {te : HeapTorrent} {pe : Node PeerEntry} (member : pe ∈ te.te.peers)
    (action : Torrents.Action)
    (fits : Inside (peerListReply (torrentUpdatePeerAndReturnList te.te pe action).1)) :
    Takes (updatePeerAndReturnList a te pe action) (innerBlocks te)
      (Printed (torrentUpdatePeerAndReturnList te.te pe action).1 te) := by
  obtain ⟨same, -⟩ := update_peers te.te pe action
  have inside : ∀ p ∈ addresses (torrentUpdatePeerAndReturnList te.te pe action).1.peers,
      p ∈ innerBlocks te := by
    rw [same]
    exact peers_inner te
  have blocks : innerBlocks { te with te := (torrentUpdatePeerAndReturnList te.te pe action).1 } =
      innerBlocks te := by
    rw [innerBlocks, innerBlocks, same]
  refine takes_access (by simp [innerBlocks]) (takes_access (peers_inner te _ (address_mem member)) ?_)
  have printed : (torrentUpdatePeerAndReturnList te.te pe action).2 =
      peerListReply (torrentUpdatePeerAndReturnList te.te pe action).1 := rfl
  rw [← printed] at fits
  refine (print_takes a inside fits).bind ?_
  rintro out _ rfl
  exact takes_pure (List.Perm.refl _) ⟨rfl, rfl, blocks ▸ List.Perm.refl _⟩

theorem removed_blocks {te : HeapTorrent} {pe : Node PeerEntry}
    (distinct : (addresses te.te.peers).Nodup) (member : pe ∈ te.te.peers) :
    (innerBlocks te).Perm (pe.addr :: innerBlocks { te with te := torrentRemovePeer te.te pe }) := by
  have peers : (addresses te.te.peers).Perm (pe.addr :: addresses (remove pe.addr te.te.peers)) :=
    (remove_perm pe te.te.peers distinct member).map Node.addr
  have inner : ([te.peerRwlk, te.peers] ++ addresses te.te.peers).Perm
      ([te.peerRwlk, te.peers] ++ pe.addr :: addresses (remove pe.addr te.te.peers)) :=
    peers.append_left _
  exact inner.trans List.perm_middle

theorem remove_takes {te : HeapTorrent} {pe : Node PeerEntry}
    (distinct : (addresses te.te.peers).Nodup) (member : pe ∈ te.te.peers) :
    Takes (removePeer te pe) (innerBlocks te) fun out left =>
      out = { te with te := torrentRemovePeer te.te pe } ∧ left = pe.addr :: innerBlocks out := by
  refine takes_access (by simp [innerBlocks]) (takes_access (by simp [innerBlocks]) ?_)
  refine takes_walk (peers_inner te) (takes_pure (removed_blocks distinct member) ⟨rfl, rfl⟩)

/-- The torrent and the reply of the handler over entries with addresses of their own. -/
structure Announced (entry : TorrentEntry) (fresh : Nat) (pe : PeerEntry) (event : List UInt8)
    (out : HeapTorrent × Reply) (left : List Nat) : Prop where
  blocks : left.Perm (innerBlocks out.1)
  torrent : bare out.1.te = bare (AnnounceHandler.announcePeer entry fresh pe event).1
  reply : out.2 = (AnnounceHandler.announcePeer entry fresh pe event).2

theorem announce_takes {te : HeapTorrent} {entry : TorrentEntry} (alike : bare te.te = bare entry)
    (distinct : (addresses entry.peers).Nodup) (fresh : Nat) (pe : PeerEntry) (event : List UInt8)
    (inside : PrintedInside (AnnounceHandler.announcePeer entry fresh pe event).2) :
    Takes (announcePeer a te pe event) (innerBlocks te) (Announced entry fresh pe event) := by
  refine takes_distinct fun once => ?_
  have apart : (addresses te.te.peers).Nodup := (List.nodup_cons.mp (List.nodup_cons.mp once).2).2
  refine takes_access (by simp [innerBlocks]) (takes_search (peers_inner te) ?_)
  cases search_same (fun v : PeerEntry => v.endpoint == pe.endpoint) (bare_peers alike) with
  | missed one other =>
      have missed : peerSearchPeer pe te.te.peers = none := one
      have missed' : peerSearchPeer pe entry.peers = none := other
      have searched : te.te.peers.find? (fun pt => pt.val.endpoint == pe.endpoint) = none := one
      rw [searched]
      by_cases start : wantsStart event = true
      · have inserted := announce_added missed' start fresh
        rw [inserted] at inside
        simp only [start, if_true]
        refine takes_malloc a fun pep => ?_
        have same := insert_alike alike pep fresh pe
        have fits := inside _ rfl
        rw [← reply_alike same] at fits
        refine (add_takes a missed fits).bind ?_
        rintro ⟨_, peerList, printed⟩ left ⟨rfl, is, perm⟩
        refine takes_access (perm.mem_iff.mpr List.mem_cons_self) (takes_free perm ?_)
        refine takes_pure (List.Perm.refl _) ⟨List.Perm.refl _, ?_, ?_⟩
        · rw [inserted]
          exact same
        · rw [inserted]
          exact congrArg Reply.peerList (is.trans (reply_alike same))
      · have silent := announce_silent missed' start fresh
        simp only [start]
        exact takes_pure (List.Perm.refl _) ⟨List.Perm.refl _, by rw [silent]; exact alike, by rw [silent]⟩
  | hit i pp pp' one other here there same =>
      have found : te.te.peers.find? (fun pt => pt.val.endpoint == pe.endpoint) = some pp := one
      have found' : peerSearchPeer pe entry.peers = some pp' := other
      have member : pp ∈ te.te.peers := List.mem_of_getElem? here
      obtain ⟨peers, -⟩ := update_peers te.te pp (updateAction event)
      obtain ⟨peers', -⟩ := update_peers entry pp' (updateAction event)
      have updated := update_alike alike same (updateAction event)
      have answered : AnnounceHandler.announcePeer entry fresh pe event = _ := announce_found found' fresh
      rw [answered] at inside
      have fits : Inside (peerListReply (torrentUpdatePeerAndReturnList entry pp'
        (updateAction event)).1) := inside _ rfl
      rw [← reply_alike updated] at fits
      rw [found]
      refine (update_takes a member (updateAction event) fits).bind ?_
      rintro ⟨_, peerList, printed⟩ left ⟨rfl, is, perm⟩
      have reply := congrArg Reply.peerList (is.trans (reply_alike updated))
      dsimp only at perm ⊢
      -- after a stop the peer is no block of the torrent any more, and it is freed last
      by_cases stop : updateAction event = .stop
      · rw [if_pos stop] at answered ⊢
        have distinct' : (addresses (torrentUpdatePeerAndReturnList te.te pp
            (updateAction event)).1.peers).Nodup := by
          rw [peers]
          exact apart
        have listed : pp ∈ (torrentUpdatePeerAndReturnList te.te pp (updateAction event)).1.peers := by
          rw [peers]
          exact member
        have removed := remove_alike updated same (by rw [peers]; exact here)
          (by rw [peers']; exact there) distinct' (by rw [peers']; exact distinct)
        refine takes_call (remove_takes distinct' listed)
          (perm.trans (List.perm_append_singleton _ _).symm) ?_
        rintro _ _ ⟨rfl, rfl⟩
        refine takes_access (by simp) (takes_free (List.perm_append_singleton _ _) ?_)
        refine takes_free (List.Perm.refl _) (takes_pure (List.Perm.refl _) ⟨List.Perm.refl _, ?_, ?_⟩)
        · rw [answered]
          exact removed
        · rw [answered]
          exact reply
      · rw [if_neg stop] at answered ⊢
        refine takes_access (perm.mem_iff.mpr List.mem_cons_self) (takes_free perm ?_)
        refine takes_pure (List.Perm.refl _) ⟨List.Perm.refl _, ?_, ?_⟩
        · rw [answered]
          exact updated
        · rw [answered]
          exact reply

end Rules

end Ttracker.RequestMemory
