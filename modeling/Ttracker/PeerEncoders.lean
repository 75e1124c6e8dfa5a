import Ttracker.AnnounceReplies
import Ttracker.BencodeTrees

/-!
The two encoders of a peer: the dictionary `torrent_bencode_torrent` prints by
hand, and the tree `bencode_init_peer` builds for `bencode`. They write the
three entries in opposite orders.
-/
namespace Ttracker.PeerEncoders
open CLibrary LinkedNodes BoundedPrint PeerRequest Torrents AnnounceReplies Bencode
open MeasuredPrints TransitionRuns BencodeTrees

/-- `strncpy` of `PEER_HASH_LEN` bytes into an allocation of one byte more, whose
last byte stays as `malloc` left it; `none` when no NUL is in it. -/
def heapCopy (last : UInt8) (src : List UInt8) : Option HeapString :=
  let mem := strncpy peerHashLen src ++ [last]
  if (0 : UInt8) ∈ mem then some ⟨cstr mem, cstr_nul_free mem⟩ else none

def mkBencDictEntryInt (unset : UInt8) (key : List UInt8) (val : Int64) :
    Option (HeapString × Data) := do
  let key ← heapCopy unset key
  some (key, .tInt val)

def mkBencDictEntryString (unset : UInt8 × UInt8) (key val : List UInt8) :
    Option (HeapString × Data) := do
  let key ← heapCopy unset.1 key
  let data ← heapCopy unset.2 val
  some (key, .tBytestring data)

/-- The bytes `strncpy` does not reach in the five allocations of a peer. -/
structure Unreached where
  port : UInt8
  peerId : UInt8 × UInt8
  ip : UInt8 × UInt8

def bencodeInitPeer (unset : Unreached) (pt : PeerEntry) (dict : List (HeapString × Data)) :
    Option (List (HeapString × Data)) := do
  let pe ← mkBencDictEntryInt unset.port (text "port") (Int64.ofInt pt.port)
  let dict := pe :: dict
  let pe ← mkBencDictEntryString unset.peerId (text "peer_id") pt.peerId.bytes
  let dict := pe :: dict
  let pe ← mkBencDictEntryString unset.ip (text "ip") pt.ip.bytes
  let dict := pe :: dict
  some dict

/-! ## The tree of a peer -/

def heapString {room : Nat} (src : CString room) : HeapString := ⟨src.bytes, src.nulFree⟩

def ipKey : HeapString := ⟨text "ip", by decide +kernel⟩
def peerIdKey : HeapString := ⟨text "peer_id", by decide +kernel⟩
def portKey : HeapString := ⟨text "port", by decide +kernel⟩

def peerTree (pt : PeerEntry) : List (HeapString × Data) :=
  [(ipKey, .tBytestring (heapString pt.ip)), (peerIdKey, .tBytestring (heapString pt.peerId)),
    (portKey, .tInt (Int64.ofInt pt.port))]

/-- A string shorter than the field is copied whole. -/
theorem heap_copy_short (last : UInt8) (src : HeapString) (short : src.bytes.length < peerHashLen) :
    heapCopy last src.bytes = some src := by
  obtain ⟨spare, room⟩ : ∃ spare, peerHashLen - src.bytes.length = spare + 1 :=
    ⟨peerHashLen - src.bytes.length - 1, by omega⟩
  have padded : strncpy peerHashLen src.bytes ++ [last] =
      src.bytes ++ 0 :: (List.replicate spare 0 ++ [last]) := by
    rw [strncpy, cstr_self _ src.nulFree, List.take_append, List.take_of_length_le short.le,
      List.take_replicate, Nat.min_eq_left (Nat.sub_le _ _), room, List.replicate_succ,
      List.append_assoc, List.cons_append]
  simp only [heapCopy, padded, cstr_append_nul _ _ src.nulFree]
  exact if_pos (by simp)

theorem init_peer_tree (unset : Unreached) (pt : PeerEntry) :
    bencodeInitPeer unset pt [] = some (peerTree pt) := by
  have port := heap_copy_short unset.port portKey (by decide +kernel)
  have idName := heap_copy_short unset.peerId.1 peerIdKey (by decide +kernel)
  have ipName := heap_copy_short unset.ip.1 ipKey (by decide +kernel)
  have id := heap_copy_short unset.peerId.2 (heapString pt.peerId)
    (Nat.lt_of_le_of_lt pt.peerId.fits (by decide))
  have ip := heap_copy_short unset.ip.2 (heapString pt.ip)
    (Nat.lt_of_le_of_lt pt.ip.fits (by decide))
  simp only [portKey, peerIdKey, ipKey, heapString] at port idName ipName id ip
  simp [bencodeInitPeer, mkBencDictEntryInt, mkBencDictEntryString, port, idName, ipName, id, ip,
    peerTree, portKey, peerIdKey, ipKey, heapString]

def peerPairs (pt : PeerEntry) : List (List UInt8 × Value) :=
  [(text "ip", .bytes pt.ip.bytes), (text "peer_id", .bytes pt.peerId.bytes),
    (text "port", .int pt.port)]

theorem port_kept (pt : PeerEntry) (ports : 1024 ≤ pt.port ∧ pt.port ≤ 65535) :
    (Int64.ofInt pt.port).toInt = pt.port :=
  Int64.toInt_ofInt_of_le (by omega) (by omega)

theorem peer_tree_value (pt : PeerEntry) (ports : 1024 ≤ pt.port ∧ pt.port ≤ 65535) :
    value (.tDict (peerTree pt)) = .dict (peerPairs pt) := by
  simp [value, valueWith, peerTree, entryValues, peerPairs, ipKey, peerIdKey, portKey, heapString,
    port_kept pt ports]

theorem peer_pairs_perm (pt : PeerEntry) :
    ∃ pairs, peerValue pt = .dict pairs ∧ pairs.Perm (peerPairs pt) :=
  ⟨(peerPairs pt).reverse, rfl, List.reverse_perm _⟩

/-- The two orders of the entries have the same length. -/
theorem length_peer_tree (pt : PeerEntry) :
    (encode (.dict (peerPairs pt))).length = (peerDict pt).length := by
  rw [← encode_peer]
  simp only [peerValue, peerPairs, encode, encodeEntries, List.length_append, List.length_cons,
    List.length_nil]
  omega

/-- The memory holds one dictionary of these pairs, in some order, as a string. -/
def HoldsDict (mem : List UInt8) (pairs : List (List UInt8 × Value)) : Prop :=
  ∃ dict rest, decode mem = some (.dict dict, 0 :: rest) ∧ dict.Perm pairs

/-! ## The direct encoder -/

theorem direct_holds (addr : Nat) (pt : PeerEntry) (size : Nat) (small : size < 2 ^ 31)
    (room : (peerDict pt).length < size) :
    HoldsDict (printPeers size [⟨addr, pt⟩] 0 (blank size)).mem (peerPairs pt) := by
  have printed := (emit_holds size (by omega) (blank size) [] (peerDict pt) (blank_safe size)
    (blank_holds size) (by simpa using room)).2.1
  obtain ⟨pairs, same, perm⟩ := peer_pairs_perm pt
  obtain ⟨spare, left⟩ : ∃ spare, size - (peerDict pt).length = spare + 1 :=
    ⟨size - (peerDict pt).length - 1, by omega⟩
  refine ⟨pairs, List.replicate spare 0, ?_, perm⟩
  have one : printPeers size [⟨addr, pt⟩] 0 (blank size) = emit size (blank size) (peerDict pt) := rfl
  rw [one, printed, List.nil_append, left, List.replicate_succ, ← encode_peer, same]
  exact decode_encoded (.dict pairs) _

/-! ## The generic encoder -/

/-- `bencode_init_peer` into an empty dictionary, then `bencode` of it. -/
def GenericHolds (unset : Unreached) (pt : PeerEntry) (mem : List UInt8) : Prop :=
  ∃ dict count after, bencodeInitPeer unset pt [] = some dict ∧
    bencode (.tDict dict) mem 0 mem.length = some (count, after) ∧
      HoldsDict after (peerPairs pt)

theorem address_nonempty (client : InAddr) : (getPeerInfo client).bytes ≠ [] := by
  simp [getPeerInfo]

theorem generic_holds (unset : Unreached) (pt : PeerEntry) (mem : List UInt8) (client : InAddr)
    (dotted : pt.ip = getPeerInfo client) (ports : 1024 ≤ pt.port ∧ pt.port ≤ 65535)
    (room : (peerDict pt).length < mem.length) (small : mem.length < 2 ^ 31)
    (named : pt.peerId.bytes ≠ []) : GenericHolds unset pt mem := by
  have shape := peer_tree_value pt ports
  have fits : (encode (value (.tDict (peerTree pt)))).length < mem.length := by
    rwa [shape, length_peer_tree]
  have writable : Writable (.tDict (peerTree pt)) := by
    have keys : ipKey.bytes ≠ [] ∧ peerIdKey.bytes ≠ [] ∧ portKey.bytes ≠ [] := by decide +kernel
    refine ⟨keys.1, ?_, keys.2.1, named, keys.2.2, ?_, trivial⟩
    · rw [dotted]
      exact address_nonempty client
    · rw [Writable, port_kept pt ports]
      omega
  obtain ⟨after, rest, ran, ⟨tail, whole⟩, reads⟩ :=
    reference_written (.tDict (peerTree pt)) mem fits small writable
  refine ⟨peerTree pt, _, after, init_peer_tree unset pt, ran, peerPairs pt, tail, ?_, .refl _⟩
  rw [← whole, List.append_assoc, shape]
  exact decode_encoded (.dict (peerPairs pt)) _

/-! ## A peer without an id -/

/-- A value cannot start with a colon. -/
theorem decode_colon (fuel : Nat) (back : List UInt8) :
    decodeValue (fuel + 1) (58 :: back) = none := by
  have digits : (58 :: back).takeWhile isdigit = [] :=
    List.takeWhile_cons_of_neg (by decide)
  have number : decodeNat (58 :: back) = none := by
    rw [decodeNat, digits]
    rfl
  have bytes : decodeBytes (58 :: back) = none := by
    rw [decodeBytes, number]
    rfl
  rw [decodeValue, if_neg (by decide), if_neg (by decide), if_neg (by decide), bytes]
  rfl

theorem decode_colon_entry (name b key back : List UInt8) :
    decode (100 :: (encodeBytes name ++ (encodeBytes b ++ (encodeBytes key ++ 58 :: back)))) =
      none := by
  obtain ⟨fuel, long⟩ : ∃ fuel, (encodeBytes name ++ (encodeBytes b ++
      (encodeBytes key ++ 58 :: back))).length = fuel + 3 := by
    have names := length_encode_bytes name
    have bytes := length_encode_bytes b
    have keys := length_encode_bytes key
    refine ⟨(encodeBytes name ++ (encodeBytes b ++ (encodeBytes key ++ 58 :: back))).length - 3, ?_⟩
    simp only [List.length_append, List.length_cons]
    omega
  rw [decode, List.length_cons, long, decodeValue, if_neg (by decide), if_neg (by decide),
    if_pos rfl, decode_entry, decode_bytes_value, Option.bind_some, decode_entry, decode_colon]
  rfl

/-- What `bencode` prints for a peer without an id: the key of the port starts on
the last character of `peer_id`. -/
def overlapped (pt : PeerEntry) : List UInt8 :=
  100 :: (encodeBytes (text "ip") ++ (encodeBytes pt.ip.bytes ++ (encodeBytes (text "peer_i4") ++
    58 :: (text "port" ++ (105 :: decimalInt (narrowed (Int64.ofInt pt.port)) ++ [101]) ++ [101]))))

def beforeId (pt : PeerEntry) : List Piece :=
  [.wanted [100], bytesPiece ipKey, bytesPiece (heapString pt.ip), bytesPiece peerIdKey]

def behindId (pt : PeerEntry) : List Piece :=
  [bytesPiece portKey, intPiece (narrowed (Int64.ofInt pt.port)), .wanted [101]]

theorem unnamed_pieces (pt : PeerEntry) (unnamed : pt.peerId.bytes = []) :
    pieces (.tDict (peerTree pt)) = beforeId pt ++ .refused :: behindId pt := by
  have refused : bytesPiece (heapString pt.peerId) = .refused :=
    (bytes_refused_iff _ (by simp [heapString, unnamed])).mpr unnamed
  simp [pieces, peerTree, entryPieces, refused, beforeId, behindId, narrowed]

/-- The entry of the address and the key of the id, but its last character. -/
def beforeKept (pt : PeerEntry) : List UInt8 :=
  100 :: (encodeBytes (text "ip") ++ (encodeBytes pt.ip.bytes ++ text "7:peer_i"))

theorem before_id_texts (pt : PeerEntry) (filled : pt.ip.bytes ≠ []) :
    .refused ∉ beforeId pt ∧ texts (beforeId pt) = beforeKept pt ++ [100] := by
  have keySmall : ipKey.bytes.length < 2 ^ 31 ∧ peerIdKey.bytes.length < 2 ^ 31 := by decide +kernel
  have keyFilled : ipKey.bytes ≠ [] ∧ peerIdKey.bytes ≠ [] := by decide +kernel
  have ipSmall : (heapString pt.ip).bytes.length < 2 ^ 31 :=
    Nat.lt_of_le_of_lt pt.ip.fits (by decide)
  constructor
  · simp only [beforeId, List.mem_cons, List.not_mem_nil, or_false, reduceCtorEq, false_or, not_or,
      eq_comm (a := Piece.refused)]
    exact ⟨mt (bytes_refused_iff ipKey keySmall.1).mp keyFilled.1,
      mt (bytes_refused_iff _ ipSmall).mp filled,
      mt (bytes_refused_iff peerIdKey keySmall.2).mp keyFilled.2⟩
  · have id : encodeBytes peerIdKey.bytes = text "7:peer_i" ++ [100] := by decide +kernel
    simp only [beforeId, texts_cons, bytes_text ipKey keySmall.1 keyFilled.1,
      bytes_text (heapString pt.ip) ipSmall filled, bytes_text peerIdKey keySmall.2 keyFilled.2, id]
    simp [texts, Piece.text, beforeKept, heapString, ipKey]

theorem behind_id_texts (pt : PeerEntry) :
    .refused ∉ behindId pt ∧ beforeKept pt ++ texts (behindId pt) = overlapped pt := by
  have small : portKey.bytes.length < 2 ^ 31 := by decide +kernel
  have filled : portKey.bytes ≠ [] := by decide +kernel
  constructor
  · simp only [behindId, List.mem_cons, List.not_mem_nil, or_false, reduceCtorEq,
      eq_comm (a := Piece.refused), intPiece]
    exact mt (bytes_refused_iff portKey small).mp filled
  · have overlap : text "7:peer_i" ++ encodeBytes portKey.bytes =
        encodeBytes (text "peer_i4") ++ 58 :: text "port" := by decide +kernel
    rw [behindId, texts_cons, bytes_text portKey small filled]
    simp only [texts, Piece.text, intPiece, beforeKept, overlapped, List.flatMap_cons,
      List.flatMap_nil, List.cons_append, List.append_assoc, List.append_nil]
    rw [← List.append_assoc (text "7:peer_i"), overlap]
    simp

theorem unnamed_output (pt : PeerEntry) (mem : List UInt8) (filled : pt.ip.bytes ≠ [])
    (unnamed : pt.peerId.bytes = []) (room : (overlapped pt).length + 1 < mem.length) :
    ∃ final, replay put ⟨mem, 0⟩ (pieces (.tDict (peerTree pt))) = some final ∧
      overlapped pt ++ [0] <+: final.mem := by
  obtain ⟨frontPrints, front⟩ := before_id_texts pt filled
  obtain ⟨backPrints, back⟩ := behind_id_texts pt
  have inner : (beforeKept pt).length ≤ (overlapped pt).length := by
    rw [← back, List.length_append]
    exact Nat.le_add_right _ _
  obtain ⟨first, started⟩ := run_goes ⟨mem, 0⟩ (beforeId pt) [] (blank_shows mem) frontPrints (by
    rw [front, List.length_append]
    simp only [List.length_nil, List.length_singleton]
    omega)
  have shows := run_shows ⟨mem, 0⟩ first (beforeId pt) [] (blank_shows mem) frontPrints started
  have length := run_length ⟨mem, 0⟩ first (beforeId pt) started
  simp only at length
  rw [List.nil_append, front] at shows
  obtain ⟨taken, kept⟩ := refused_shows first (beforeKept pt) 100 shows (by rw [length]; omega)
  obtain ⟨final, ended, -, whole⟩ := run_prints { first with pos := first.pos - 1 } (behindId pt)
    (beforeKept pt) kept (List.cons_ne_nil _ _) backPrints (by
      rw [back]
      simp only [length]
      omega)
  refine ⟨final, ?_, by rwa [back] at whole⟩
  rw [unnamed_pieces pt unnamed, replay_append, started, Option.bind_some, replay, taken,
    Option.bind_some, ended]

/-- An empty id is refused, and the key of the port is written over its key. -/
theorem generic_named (unset : Unreached) (pt : PeerEntry) (mem : List UInt8) (client : InAddr)
    (dotted : pt.ip = getPeerInfo client) (ports : 1024 ≤ pt.port ∧ pt.port ≤ 65535)
    (room : (peerDict pt).length < mem.length) (written : GenericHolds unset pt mem) :
    pt.peerId.bytes ≠ [] := by
  intro unnamed
  have filled : pt.ip.bytes ≠ [] := by
    rw [dotted]
    exact address_nonempty client
  have plain : narrowed (Int64.ofInt pt.port) = pt.port := by
    have kept := port_kept pt ports
    exact ((narrowed_iff _).mpr (by rw [kept]; omega)).trans kept
  have short : (overlapped pt).length + 2 < mem.length := by
    have length := length_peer_tree pt
    have keys : (encodeBytes (text "ip")).length = 4 ∧ (encodeBytes (text "peer_i4")).length = 9 ∧
        (encodeBytes (text "peer_id")).length = 9 ∧ (encodeBytes (text "port")).length = 6 ∧
        (text "port").length = 4 ∧ (encodeBytes []).length = 2 := by decide +kernel
    simp only [peerPairs, encode, encodeEntries, List.length_append, List.length_cons,
      List.length_nil, unnamed] at length
    simp only [overlapped, plain, List.length_append, List.length_cons, List.length_nil]
    omega
  obtain ⟨final, reached, ⟨tail, whole⟩⟩ := unnamed_output pt mem filled unnamed (by omega)
  obtain ⟨dict, count, after, built, ran, pairs, rest, reads, -⟩ := written
  rw [init_peer_tree unset pt] at built
  cases built
  rw [bencode_runs _ mem 0 mem.length (Int.zero_add _), reached] at ran
  cases ran
  rw [← whole] at reads
  simp only [overlapped, List.cons_append, List.append_assoc] at reads
  rw [decode_colon_entry] at reads
  cases reads

/-- For the peers the announce path stores both encoders, with room, write one
dictionary of the same three pairs exactly when the id is not empty. -/
theorem encoders_agree_iff (unset : Unreached) (addr : Nat) (pt : PeerEntry) (client : InAddr)
    (dotted : pt.ip = getPeerInfo client) (ports : 1024 ≤ pt.port ∧ pt.port ≤ 65535)
    (size : Nat) (mem : List UInt8)
    (large : (peerDict pt).length < size ∧ (peerDict pt).length < mem.length)
    (small : size < 2 ^ 31 ∧ mem.length < 2 ^ 31) :
    (HoldsDict (printPeers size [⟨addr, pt⟩] 0 (blank size)).mem (peerPairs pt) ∧
        GenericHolds unset pt mem) ↔
      pt.peerId.bytes ≠ [] :=
  ⟨fun both => generic_named unset pt mem client dotted ports large.2 both.2,
    fun named => ⟨direct_holds addr pt size small.1 large.1,
      generic_holds unset pt mem client dotted ports large.2 small.2 named⟩⟩

def namedPeer : PeerEntry :=
  ⟨⟨[45, 84, 84], by decide, by decide⟩, 6881, getPeerInfo ⟨10, 0, 0, 1⟩, 0⟩

theorem encoders_agree_iff_named :
    (HoldsDict (printPeers 64 [⟨0, namedPeer⟩] 0 (blank 64)).mem (peerPairs namedPeer) ∧
        GenericHolds ⟨255, (255, 255), (255, 255)⟩ namedPeer (List.replicate 64 7)) ↔
      namedPeer.peerId.bytes ≠ [] :=
  encoders_agree_iff ⟨255, (255, 255), (255, 255)⟩ 0 namedPeer ⟨10, 0, 0, 1⟩ rfl (by decide) 64
    (List.replicate 64 7) (by decide +kernel) (by decide)

def unnamedPeer : PeerEntry :=
  ⟨⟨[], by decide, by decide⟩, 6881, getPeerInfo ⟨10, 0, 0, 1⟩, 0⟩

/-- With an empty id only the direct encoder writes a dictionary. -/
theorem unnamed_peer_disagrees :
    HoldsDict (printPeers 128 [⟨0, unnamedPeer⟩] 0 (blank 128)).mem (peerPairs unnamedPeer) ∧
      ¬ GenericHolds ⟨0, (0, 0), (0, 0)⟩ unnamedPeer (List.replicate 128 0) := by
  have short : (peerDict unnamedPeer).length < 128 := by decide +kernel
  refine ⟨direct_holds 0 unnamedPeer 128 (by decide) short, fun written => ?_⟩
  exact generic_named ⟨0, (0, 0), (0, 0)⟩ unnamedPeer (List.replicate 128 0) ⟨10, 0, 0, 1⟩ rfl
    (by decide) (by simpa using short) written rfl

end Ttracker.PeerEncoders
