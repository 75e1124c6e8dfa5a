import Ttracker.PeerRequest
import Ttracker.LinkedNodes
import Ttracker.BoundedPrint

/-!
The torrents and peers of torrent.c: the peer list with its counters, the three
operations that run under the torrent's lock and the reply each of them prints.
The counters are unbounded here where the source has `int`s; what rests on their
size says so.
-/
namespace Ttracker.Torrents
open CLibrary LinkedNodes BoundedPrint PeerRequest

def tMaxNumwant : Nat := 80

inductive Action where
  | null
  | start
  | stop
  | complete
  deriving DecidableEq

structure PeerEntry where
  peerId : CString (peerHashLen - 1)
  port : Int
  ip : CString 15
  left : Int
  deriving DecidableEq

structure TorrentEntry where
  infoHash : List UInt8
  id : Int
  seeders : Int
  leechers : Int
  complete : Int
  peerCount : Int
  peers : List (Node PeerEntry)
  deriving DecidableEq

/-- `mk_torrent` and the three fields its only caller sets. -/
def mkTorrent (infoHash : List UInt8) (tid : Int) : TorrentEntry :=
  ⟨infoHash, tid, 0, 0, 0, 0, []⟩

/-- What two peers of one torrent never share. -/
def PeerEntry.endpoint (pe : PeerEntry) : CString 15 × Int := (pe.ip, pe.port)

def peerSearchPeer (pe : PeerEntry) (peers : List (Node PeerEntry)) : Option (Node PeerEntry) :=
  peers.find? fun pt => pt.val.endpoint == pe.endpoint

/-! ## The reply -/

def replyHeader (t : TorrentEntry) : List UInt8 :=
  text "d8:completei" ++ decimalInt t.seeders ++ text "e10:incompletei" ++
    decimalInt t.leechers ++ text "e8:intervali" ++ decimal 30 ++ text "e5:peersl"

def peerDict (pt : PeerEntry) : List UInt8 :=
  text "d4:porti" ++ decimalInt pt.port ++ text "e7:peer_id" ++
    decimal pt.peerId.bytes.length ++ text ":" ++ pt.peerId.bytes ++ text "2:ip" ++
    decimal pt.ip.bytes.length ++ text ":" ++ pt.ip.bytes ++ text "e"

def printPeers (outSize : Int) : List (Node PeerEntry) → Nat → Printer → Printer
  | [], _, out => out
  | pt :: rest, i, out =>
      if tMaxNumwant ≤ i then out
      else printPeers outSize rest (i + 1) (emit outSize out (peerDict pt.val))

def torrentBencodeTorrent (t : TorrentEntry) (out : Printer) (outSize : Int) : Printer :=
  let out := emit outSize out (replyHeader t)
  let out := printPeers outSize t.peers 0 out
  emit outSize out (text "ee")

/-- `128 * te->peer_count` as an `int`. -/
def replySize (peerCount : Int) : Int := toInt32 (128 * peerCount)

/-- What both callers do: a zeroed allocation of that size, told that size. -/
def peerListReply (te : TorrentEntry) : Printer :=
  torrentBencodeTorrent te (blank (replySize te.peerCount).toNat) (replySize te.peerCount)

/-! ## The operations under the torrent's lock -/

def insertPeer (te : TorrentEntry) (pe : Node PeerEntry) : TorrentEntry :=
  { te with
    peers := pe :: te.peers
    peerCount := te.peerCount + 1
    seeders := if pe.val.left = 0 then te.seeders + 1 else te.seeders
    leechers := if pe.val.left = 0 then te.leechers else te.leechers + 1 }

def torrentAddPeerAndReturnList (te : TorrentEntry) (pe : Node PeerEntry) :
    TorrentEntry × Printer :=
  let te := match peerSearchPeer pe.val te.peers with
    | none => insertPeer te pe
    | some _ => te
  (te, peerListReply te)

def torrentUpdatePeerAndReturnList (te : TorrentEntry) (pe : Node PeerEntry) (action : Action) :
    TorrentEntry × Printer :=
  let te := match action with
    -- neither the leechers nor the peer's stored `left` follow
    | .complete => { te with complete := te.complete + 1, seeders := te.seeders + 1 }
    -- no caller passes `T_START`; its case falls through to the default
    | .start =>
        if pe.val.left = 0 then { te with seeders := te.seeders + 1 }
        else { te with leechers := te.leechers + 1 }
    | .null => te
    | .stop => te
  (te, peerListReply te)

def torrentRemovePeer (te : TorrentEntry) (pe : Node PeerEntry) : TorrentEntry :=
  { te with
    peers := remove pe.addr te.peers
    peerCount := te.peerCount - 1
    seeders := if pe.val.left = 0 then te.seeders - 1 else te.seeders
    complete := if pe.val.left = 0 then te.complete - 1 else te.complete
    leechers := if pe.val.left = 0 then te.leechers else te.leechers - 1 }

/-! ## Failure messages -/

def failureReason : List UInt8 := text "d14:failure reason"

/-- The reason is printed with its length into `error_len + 8` bytes. -/
def torrentMsgFailureGeneric (error : List UInt8) : List UInt8 :=
  failureReason ++ (decimal error.length ++ text ":" ++ error).take (error.length + 7) ++ text "e"

def torrentMsgFailureMissingHash : List UInt8 :=
  text "d14:failure reason29:Missing \"info_hash\" parametere"

/-! ## Frame facts -/

@[simp] theorem add_infoHash (te : TorrentEntry) (pe : Node PeerEntry) :
    (torrentAddPeerAndReturnList te pe).1.infoHash = te.infoHash := by
  simp only [torrentAddPeerAndReturnList]
  split <;> rfl

@[simp] theorem update_infoHash (te : TorrentEntry) (pe : Node PeerEntry) (action : Action) :
    (torrentUpdatePeerAndReturnList te pe action).1.infoHash = te.infoHash := by
  cases action <;> simp only [torrentUpdatePeerAndReturnList]
  split <;> rfl

@[simp] theorem update_peers (te : TorrentEntry) (pe : Node PeerEntry) (action : Action) :
    (torrentUpdatePeerAndReturnList te pe action).1.peers = te.peers ∧
      (torrentUpdatePeerAndReturnList te pe action).1.peerCount = te.peerCount := by
  cases action <;> simp only [torrentUpdatePeerAndReturnList, and_self]
  split <;> simp

@[simp] theorem remove_infoHash (te : TorrentEntry) (pe : Node PeerEntry) :
    (torrentRemovePeer te pe).infoHash = te.infoHash := rfl

theorem search_absent_iff (pe : PeerEntry) (peers : List (Node PeerEntry)) :
    peerSearchPeer pe peers = none ↔ ∀ node ∈ peers, node.val.endpoint ≠ pe.endpoint := by
  simp [peerSearchPeer, List.find?_eq_none]

theorem search_mem {pe : PeerEntry} {peers : List (Node PeerEntry)} {node : Node PeerEntry}
    (found : peerSearchPeer pe peers = some node) : node ∈ peers :=
  List.mem_of_find?_eq_some found

/-! ## A consistent peer list -/

/-- The count is the list's length, no endpoint comes twice, and every peer has an
address of its own below the next one to be allocated. -/
structure Consistent (te : TorrentEntry) (next : Nat) : Prop where
  counted : te.peerCount = te.peers.length
  endpoints : KeysDistinct PeerEntry.endpoint te.peers
  distinct : (addresses te.peers).Nodup
  old : ∀ a ∈ addresses te.peers, a < next

theorem consistent_mk (infoHash : List UInt8) (tid : Int) (next : Nat) :
    Consistent (mkTorrent infoHash tid) next := by
  constructor <;> simp [mkTorrent, KeysDistinct, addresses]

theorem consistent_mono {te : TorrentEntry} {next later : Nat} (consistent : Consistent te next)
    (bound : next ≤ later) : Consistent te later :=
  { consistent with old := fun a member => (consistent.old a member).trans_le bound }

theorem insert_consistent {te : TorrentEntry} {next : Nat} (pe : PeerEntry)
    (consistent : Consistent te next) (absent : peerSearchPeer pe te.peers = none) :
    Consistent (insertPeer te ⟨next, pe⟩) (next + 1) where
  counted := by
    have counted := consistent.counted
    simp only [insertPeer, List.length_cons]
    omega
  endpoints :=
    keys_insert PeerEntry.endpoint _ _ consistent.endpoints ((search_absent_iff pe _).mp absent)
  distinct := List.nodup_cons.mpr
    ⟨fun member => (consistent.old _ member).false, consistent.distinct⟩
  old := by
    intro a member
    rcases List.mem_cons.mp member with rfl | old
    · exact Nat.lt_succ_self _
    · exact Nat.lt_succ_of_lt (consistent.old a old)

theorem update_consistent {te : TorrentEntry} {next : Nat} (pe : Node PeerEntry) (action : Action)
    (consistent : Consistent te next) :
    Consistent (torrentUpdatePeerAndReturnList te pe action).1 next := by
  have same := update_peers te pe action
  constructor
  · simpa only [same.1, same.2] using consistent.counted
  · simpa only [same.1] using consistent.endpoints
  · simpa only [same.1] using consistent.distinct
  · simpa only [same.1] using consistent.old

theorem remove_consistent {te : TorrentEntry} {next : Nat} (pe : Node PeerEntry)
    (consistent : Consistent te next) (member : pe ∈ te.peers) :
    Consistent (torrentRemovePeer te pe) next := by
  have sub := (remove_sublist pe.addr te.peers).map Node.addr
  constructor
  · have shorter := remove_length pe te.peers consistent.distinct member
    have counted := consistent.counted
    simp only [torrentRemovePeer]
    omega
  · exact keys_remove PeerEntry.endpoint _ _ consistent.endpoints
  · exact sub.nodup consistent.distinct
  · exact fun a listed => consistent.old a (sub.subset listed)

end Ttracker.Torrents
