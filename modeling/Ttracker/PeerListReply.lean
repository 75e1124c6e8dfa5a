import Ttracker.Torrents
import Mathlib.Algebra.Order.BigOperators.Group.List
import Mathlib.Algebra.Order.Ring.Nat

/-!
The announce reply of `torrent_bencode_torrent` in the 128 bytes per peer both
callers allocate. The header and the trailer are paid from the same bytes, so
short lists of peers with long ids do not fit.
-/
namespace Ttracker.PeerListReply
open CLibrary LinkedNodes BoundedPrint PeerRequest Torrents

def replyFront (te : TorrentEntry) : List (List UInt8) :=
  replyHeader te :: (te.peers.take tMaxNumwant).map fun pt => peerDict pt.val

/-- The reply before any cut: header, the first 80 dictionaries, `ee`. -/
def replyTexts (te : TorrentEntry) : List (List UInt8) := replyFront te ++ [text "ee"]

def replyText (te : TorrentEntry) : List UInt8 := (replyTexts te).flatten

/-- Every `snprintf` gets a positive size and stays inside the allocation, which
then holds the whole reply and its NUL. -/
def ReplyWhole (te : TorrentEntry) : Prop :=
  Safe (replySize te.peerCount).toNat (peerListReply te) ∧
    replyText te ++ [0] <+: (peerListReply te).mem

/-- The length of one dictionary, from the digits of its numbers. -/
def dictLength (pt : PeerEntry) : Nat :=
  25 + (decimalInt pt.port).length +
    (decimal pt.peerId.bytes.length).length + pt.peerId.bytes.length +
    (decimal pt.ip.bytes.length).length + pt.ip.bytes.length

def replyLength (te : TorrentEntry) : Nat :=
  52 + (decimalInt te.seeders).length + (decimalInt te.leechers).length +
    ((te.peers.take tMaxNumwant).map fun pt => dictLength pt.val).sum

theorem print_peers_emits (outSize : Int) (peers : List (Node PeerEntry)) (i : Nat)
    (out : Printer) :
    printPeers outSize peers i out =
      emitAll outSize out ((peers.take (tMaxNumwant - i)).map fun pt => peerDict pt.val) := by
  induction peers generalizing i out with
  | nil => simp [printPeers, emitAll]
  | cons pt rest ih =>
      by_cases full : tMaxNumwant ≤ i
      · have spent : tMaxNumwant - i = 0 := by omega
        simp [printPeers, full, spent, emitAll]
      · have more : tMaxNumwant - i = (tMaxNumwant - (i + 1)) + 1 := by omega
        rw [printPeers, if_neg full, ih, more]
        simp [emitAll]

theorem bencode_emits (te : TorrentEntry) (out : Printer) (outSize : Int) :
    torrentBencodeTorrent te out outSize = emitAll outSize out (replyTexts te) := by
  simp only [torrentBencodeTorrent, print_peers_emits, replyTexts, replyFront, emitAll, Nat.sub_zero,
    List.cons_append, List.foldl_cons, List.foldl_append, List.foldl_nil]

theorem length_peer_dict (pt : PeerEntry) : (peerDict pt).length = dictLength pt := by
  simp only [peerDict, dictLength, List.length_append]
  have literals : (text "d4:porti").length = 8 ∧ (text "e7:peer_id").length = 10 ∧
      (text ":").length = 1 ∧ (text "2:ip").length = 4 ∧ (text "e").length = 1 := by
    simp [text, ascii]
  omega

theorem length_reply_text (te : TorrentEntry) : (replyText te).length = replyLength te := by
  have dicts : (((te.peers.take tMaxNumwant).map fun pt => peerDict pt.val).map
      List.length).sum =
        ((te.peers.take tMaxNumwant).map fun pt => dictLength pt.val).sum := by
    rw [List.map_map]
    congr 1
    exact List.map_congr_left fun pt _ => length_peer_dict pt.val
  have literals : (text "d8:completei").length = 12 ∧
      (text "e10:incompletei").length = 15 ∧ (text "e8:intervali").length = 12 ∧
      (decimal 30).length = 2 ∧ (text "e5:peersl").length = 9 ∧ (text "ee").length = 2 := by
    simp [text, ascii]
    decide
  simp only [replyText, replyTexts, replyFront, List.cons_append, List.flatten_cons, List.flatten_append,
    List.length_append, List.length_flatten, dicts, replyHeader, replyLength, List.map_nil,
    List.sum_nil]
  omega

theorem reply_size_lt (peerCount : Int) : replySize peerCount < 2 ^ 31 := by
  have high := Int.bmod_lt (x := 128 * peerCount) (m := 2 ^ 32) (by decide)
  simp only [replySize, toInt32]
  omega

theorem whole_reply_fits (te : TorrentEntry) (whole : ReplyWhole te) :
    (replyLength te : Int) + 1 ≤ replySize te.peerCount := by
  have bound := whole.2.length_le
  rw [peerListReply, bencode_emits, length_emit_all_mem] at bound
  simp only [blank, List.length_append, List.length_replicate, List.length_cons,
    List.length_nil, length_reply_text] at bound
  omega

theorem fitting_reply_whole (te : TorrentEntry)
    (fits : (replyLength te : Int) + 1 ≤ replySize te.peerCount) : ReplyWhole te := by
  have small := reply_size_lt te.peerCount
  obtain ⟨size, told⟩ := Int.eq_ofNat_of_zero_le (by omega : 0 ≤ replySize te.peerCount)
  have length := length_reply_text te
  have printed := (emit_all_exact size (by omega) (replyTexts te)).mpr (by
    rw [← replyText]
    omega)
  simpa only [ReplyWhole, replyText, peerListReply, bencode_emits, told, Int.toNat_natCast] using printed

theorem reply_text_nul_free (te : TorrentEntry) : (0 : UInt8) ∉ replyText te := by
  have literals : ∀ literal ∈ [text "d8:completei", text "e10:incompletei", text "e8:intervali",
      text "e5:peersl", text "ee", text "d4:porti", text "e7:peer_id", text ":", text "2:ip",
      text "e"], (0 : UInt8) ∉ literal := by decide +kernel
  simp only [List.forall_mem_cons, List.not_mem_nil, false_implies, implies_true, and_true]
    at literals
  simp only [replyText, replyTexts, replyFront, replyHeader, peerDict, List.mem_flatten, List.cons_append,
    List.mem_cons, List.mem_append, List.mem_map, List.not_mem_nil, or_false, not_exists, not_and]
  rintro piece (rfl | ⟨pt, -, rfl⟩ | rfl)
  · simp [literals, decimal_int_nul_free, decimal_nul_free]
  · simp [literals, decimal_int_nul_free, decimal_nul_free, pt.val.peerId.nulFree,
      pt.val.ip.nulFree]
  · exact literals.2.2.2.2.1

theorem reply_size_aligned (peerCount : Int) : replySize peerCount % 128 = 0 := by
  simp only [replySize, toInt32, Int.bmod_def]
  omega

theorem peer_list_written (te : TorrentEntry) :
    (peerListReply te).written = (replyText te).length ∧
      (peerListReply te).mem.length = (replySize te.peerCount).toNat := by
  rw [peerListReply, bencode_emits, written_emit_all, length_emit_all_mem]
  simp [blank, replyText]

/-- A reply that leaves room for its NUL reads back as the whole text. -/
theorem fitting_reply_string (te : TorrentEntry)
    (fits : (peerListReply te).written < (peerListReply te).mem.length) :
    cstr (peerListReply te).mem = replyText te ∧ (replyText te).length + 128 < 2 ^ 31 := by
  obtain ⟨written, length⟩ := peer_list_written te
  have small := reply_size_lt te.peerCount
  have aligned := reply_size_aligned te.peerCount
  rw [written, length] at fits
  refine ⟨?_, by omega⟩
  obtain ⟨size, told⟩ := Int.eq_ofNat_of_zero_le (by omega : 0 ≤ replySize te.peerCount)
  rw [told, Int.toNat_natCast] at fits
  have printed := (emit_all_holds size (by omega) (replyTexts te) (blank size) [] (blank_safe size)
    (blank_holds size) (by simpa [replyText] using fits)).2.1
  -- at least one of the zeros the allocation started with is behind the text
  obtain ⟨spare, left⟩ : ∃ spare, size - (replyText te).length = spare + 1 :=
    ⟨size - (replyText te).length - 1, by omega⟩
  rw [peerListReply, bencode_emits, told, Int.toNat_natCast, printed, List.nil_append, ← replyText,
    left, List.replicate_succ, cstr_append_nul _ _ (reply_text_nul_free te)]

/-! ## The counters a client is told -/

theorem length_reply_header_le (te : TorrentEntry) (seeders : -2 ^ 31 ≤ te.seeders ∧ te.seeders ≤ 2 ^ 31)
    (leechers : -2 ^ 31 ≤ te.leechers ∧ te.leechers ≤ 2 ^ 31) : (replyHeader te).length ≤ 72 := by
  have complete := length_decimal_int_le te.seeders 10 (by decide) (by omega) (by omega)
  have incomplete := length_decimal_int_le te.leechers 10 (by decide) (by omega) (by omega)
  have literals : (text "d8:completei").length = 12 ∧ (text "e10:incompletei").length = 15 ∧
      (text "e8:intervali").length = 12 ∧ (decimal 30).length = 2 ∧ (text "e5:peersl").length = 9 := by
    simp [text, ascii]
    decide
  simp only [replyHeader, List.length_append]
  omega

theorem reply_header_nul_free (te : TorrentEntry) : (0 : UInt8) ∉ replyHeader te := by
  intro member
  refine reply_text_nul_free te (List.mem_flatten.mpr ⟨_, ?_, member⟩)
  simp [replyTexts, replyFront]

/-- Whatever is cut or overrun behind it, the header is read in front. -/
theorem header_read (te : TorrentEntry) (room : 0 < replySize te.peerCount) :
    (replyHeader te).take ((replySize te.peerCount).toNat - 1) <+: cstr (peerListReply te).mem := by
  have small := reply_size_lt te.peerCount
  obtain ⟨size, told⟩ := Int.eq_ofNat_of_zero_le room.le
  have positive : 0 < size := by omega
  have stays := first_text_stays (by omega) positive (replyHeader te)
    (((te.peers.take tMaxNumwant).map fun pt => peerDict pt.val) ++ [text "ee"])
  rw [peerListReply, bencode_emits, told, Int.toNat_natCast, replyTexts, replyFront, List.cons_append]
  exact stored_front_read stays fun member => reply_header_nul_free te (List.mem_of_mem_take member)

/-! ## A reply that is cut inside its block -/

theorem front_named (te : TorrentEntry) : ∀ text ∈ replyFront te, text ≠ [] := by
  have opening : text "d8:completei" ≠ [] ∧ text "d4:porti" ≠ [] := by decide +kernel
  rw [replyFront, List.forall_mem_cons]
  refine ⟨by simp [replyHeader, opening], ?_⟩
  intro dict member
  obtain ⟨pt, -, rfl⟩ := List.mem_map.mp member
  simp [peerDict, opening]

theorem length_reply_front (te : TorrentEntry) :
    (replyFront te).flatten.length + 2 = replyLength te := by
  have ending : (text "ee").length = 2 := by decide +kernel
  rw [← length_reply_text, replyText, replyTexts, List.flatten_append, List.flatten_singleton,
    List.length_append, ending]

/-- The reply stays inside its block if only the closing `ee` and the character before it
are cut. -/
theorem reply_inside_iff (te : TorrentEntry) :
    Inside (peerListReply te) ↔ (replyLength te : Int) ≤ replySize te.peerCount + 2 := by
  have counted := length_reply_front te
  rw [peerListReply, bencode_emits, replyTexts,
    emit_all_inside_iff (reply_size_lt te.peerCount) (by simp [replyFront]) (front_named te)]
  omega

/-- What is read of a reply that stays inside: the text, or what is in front of the NUL. -/
theorem inside_reply_string (te : TorrentEntry) (inside : Inside (peerListReply te)) :
    cstr (peerListReply te).mem = (replyText te).take ((replySize te.peerCount).toNat - 1) ∧
      0 < replySize te.peerCount ∧ replySize te.peerCount ≤ 2 ^ 31 - 128 := by
  have fits := (reply_inside_iff te).mp inside
  have counted := length_reply_front te
  have small := reply_size_lt te.peerCount
  have aligned := reply_size_aligned te.peerCount
  have long : 52 ≤ replyLength te := by
    simp only [replyLength]
    omega
  refine ⟨?_, by omega, by omega⟩
  obtain ⟨size, told⟩ := Int.eq_ofNat_of_zero_le (by omega : 0 ≤ replySize te.peerCount)
  have positive : 0 < size := by omega
  obtain ⟨-, stored⟩ := emit_all_stores (by omega) positive (front_named te) (text "ee") (by omega)
  have front : (0 : UInt8) ∉ (replyText te).take (size - 1) :=
    fun member => reply_text_nul_free te (List.mem_of_mem_take member)
  have cut := List.length_take_le (size - 1) (replyText te)
  obtain ⟨spare, left⟩ : ∃ spare, size - ((replyText te).take (size - 1)).length = spare + 1 :=
    ⟨size - ((replyText te).take (size - 1)).length - 1, by omega⟩
  rw [peerListReply, bencode_emits, told, Int.toNat_natCast, replyTexts, stored, shortened,
    ← replyTexts, ← replyText, left, List.replicate_succ, cstr_append_nul _ _ front]

/-- A torrent as the announce path fills it: the count is the list's length, the
ports are high and the addresses dotted quads. -/
structure Served (te : TorrentEntry) : Prop where
  counted : te.peerCount = te.peers.length
  ports : ∀ pt ∈ te.peers, 1024 ≤ pt.val.port ∧ pt.val.port ≤ 65535
  dotted : ∀ pt ∈ te.peers, ∃ addr, pt.val.ip = getPeerInfo addr

/-- From five peers on, and while `128 * peer_count` is an `int`, the reply is whole
for all ids, ports, addresses and counters. -/
theorem five_peers_whole (te : TorrentEntry) (served : Served te) (five : 5 ≤ te.peers.length)
    (small : 128 * te.peers.length < 2 ^ 31)
    (seeders : -2 ^ 31 ≤ te.seeders ∧ te.seeders < 2 ^ 31)
    (leechers : -2 ^ 31 ≤ te.leechers ∧ te.leechers < 2 ^ 31) : ReplyWhole te := by
  have told : replySize te.peerCount = 128 * te.peers.length := by
    rw [replySize, toInt32, served.counted]
    exact Int.bmod_eq_of_le (by omega) (by omega)
  -- 25 fixed bytes, 6 for the port, 63 + 2 for the id and 15 + 2 for the address
  have one : ∀ pt ∈ te.peers, dictLength pt.val ≤ 113 := by
    intro pt member
    have port := length_decimal_int_le pt.val.port 5 (by decide)
      (by have := served.ports pt member; omega) (by have := served.ports pt member; omega)
    have id := pt.val.peerId.fits
    have ip := pt.val.ip.fits
    have idDigits := length_decimal_le pt.val.peerId.bytes.length 2 (by decide)
      (by simp only [peerHashLen] at id; omega)
    have ipDigits := length_decimal_le pt.val.ip.bytes.length 2 (by decide) (by omega)
    simp only [dictLength, peerHashLen] at *
    omega
  have dicts : ((te.peers.take tMaxNumwant).map fun pt => dictLength pt.val).sum ≤
      (te.peers.take tMaxNumwant).length * 113 := by
    have bounded := List.sum_le_card_nsmul ((te.peers.take tMaxNumwant).map
      fun pt => dictLength pt.val) 113 (by
        intro length member
        obtain ⟨pt, inside, rfl⟩ := List.mem_map.mp member
        exact one pt (List.mem_of_mem_take inside))
    simpa using bounded
  have s := length_decimal_int_le te.seeders 10 (by decide) (by omega) (by omega)
  have l := length_decimal_int_le te.leechers 10 (by decide) (by omega) (by omega)
  have taken := List.length_take_le tMaxNumwant te.peers
  apply fitting_reply_whole
  rw [told, replyLength]
  rw [List.length_take] at dicts
  omega

/-- Whether the reply fits is a question about lengths: the fixed 52 bytes and the
digits of two counters, the dictionaries of the first 80 peers and one NUL,
against 128 bytes per peer. -/
theorem reply_whole_iff (te : TorrentEntry) :
    ReplyWhole te ↔ (replyLength te : Int) + 1 ≤ replySize te.peerCount :=
  ⟨whole_reply_fits te, fitting_reply_whole te⟩

def longPeer : PeerEntry :=
  ⟨⟨List.replicate 63 97, by decide, by decide⟩, 65535, getPeerInfo ⟨255, 255, 255, 255⟩, 1⟩

def loneTorrent : TorrentEntry := insertPeer (mkTorrent [] 1) ⟨0, longPeer⟩

theorem lone_long_peer_cut :
    ¬ ∀ te : TorrentEntry, 1 ≤ te.peers.length → Served te → ReplyWhole te := by
  intro claimed
  have whole := claimed loneTorrent (by decide) ⟨by decide, by
    intro pt member
    rw [List.mem_singleton.mp member]
    decide, by
    intro pt member
    rw [List.mem_singleton.mp member]
    exact ⟨_, rfl⟩⟩
  exact absurd (whole_reply_fits loneTorrent whole) (by decide)

end Ttracker.PeerListReply
