import Ttracker.Torrents

/-!
The list of known torrents and `torrent_lookup_torrent`: a search by 256 bytes
of the key, the SQL question of db.c on a miss and the insertion of what it
answers. The database is a parameter, a function of the SQL text.
-/
namespace Ttracker.TorrentCache
open CLibrary LinkedNodes PeerRequest Torrents

/-- The id `sqlite3` finds for an SQL text, or -1. -/
abbrev Database := List UInt8 → Int

/-- `struct torrent_list_t`, and the next address `malloc` hands out. -/
structure TorrentList where
  list : List (Node TorrentEntry)
  next : Nat
  working : Int
  deriving DecidableEq

def TorrentList.empty : TorrentList := ⟨[], 0, 0⟩

/-- `sizeof query` in `db_query_lookup_torrent`. -/
def queryLen : Nat := 256

def lookupSql (infoHash : List UInt8) : List UInt8 :=
  text "select id from torrents where lower(info_hash) = lower('" ++ cstr infoHash ++ text "')"

def dbQueryLookupTorrent (db : Database) (infoHash : List UInt8) : Except Fault Int :=
  if (lookupSql infoHash).length < queryLen then .ok (db (lookupSql infoHash))
  else .error (.overrun .query)

def torrentDoLookupTorrentInfoHash (infoHash : List UInt8) (list : List (Node TorrentEntry)) :
    Option (Node TorrentEntry) :=
  list.find? fun pt => pt.val.infoHash.take torrentHashLen == infoHash.take torrentHashLen

def torrentLookupTorrent (db : Database) (infoHash : List UInt8) (tl : TorrentList) :
    Except Fault (TorrentList × Option (Node TorrentEntry)) :=
  match torrentDoLookupTorrentInfoHash infoHash tl.list with
  | some te => .ok (tl, some te)
  | none =>
      match dbQueryLookupTorrent db infoHash with
      | .error fault => .error fault
      | .ok tid =>
          if tid = -1 then .ok (tl, none)
          else
            -- of the 256 bytes compared above only the string is stored
            let te := ⟨tl.next, mkTorrent (strncpy torrentHashLen infoHash) tid⟩
            .ok ({ tl with list := te :: tl.list, next := tl.next + 1 }, some te)

def torrentListWorkon (tl : TorrentList) : TorrentList := { tl with working := tl.working + 1 }

def torrentListJobdone (tl : TorrentList) : TorrentList := { tl with working := tl.working - 1 }

/-- What `mk_torrent` is given on a miss. -/
def freshTorrent (db : Database) (infoHash : List UInt8) (tl : TorrentList) : Node TorrentEntry :=
  ⟨tl.next, mkTorrent (strncpy torrentHashLen infoHash) (db (lookupSql infoHash))⟩

/-- A lookup hits, is told no by the database, or inserts. -/
inductive Lookup (db : Database) (infoHash : List UInt8) (tl : TorrentList) :
    TorrentList → Option (Node TorrentEntry) → Prop where
  | hit (te : Node TorrentEntry)
      (found : torrentDoLookupTorrentInfoHash infoHash tl.list = some te) :
      Lookup db infoHash tl tl (some te)
  | unknown (missed : torrentDoLookupTorrentInfoHash infoHash tl.list = none)
      (refused : db (lookupSql infoHash) = -1) : Lookup db infoHash tl tl none
  | inserted (missed : torrentDoLookupTorrentInfoHash infoHash tl.list = none)
      (fits : (lookupSql infoHash).length < queryLen) (known : db (lookupSql infoHash) ≠ -1) :
      Lookup db infoHash tl
        { tl with list := freshTorrent db infoHash tl :: tl.list, next := tl.next + 1 }
        (some (freshTorrent db infoHash tl))

theorem lookup_cases {db : Database} {infoHash : List UInt8} {tl after : TorrentList}
    {found : Option (Node TorrentEntry)}
    (looked : torrentLookupTorrent db infoHash tl = .ok (after, found)) :
    Lookup db infoHash tl after found := by
  unfold torrentLookupTorrent at looked
  cases hit : torrentDoLookupTorrentInfoHash infoHash tl.list with
  | some te =>
      simp only [hit, Except.ok.injEq, Prod.mk.injEq] at looked
      obtain ⟨rfl, rfl⟩ := looked
      exact .hit te hit
  | none =>
      unfold dbQueryLookupTorrent at looked
      by_cases fits : (lookupSql infoHash).length < queryLen
      · by_cases refused : db (lookupSql infoHash) = -1
        · simp only [hit, fits, refused, if_true, Except.ok.injEq, Prod.mk.injEq] at looked
          obtain ⟨rfl, rfl⟩ := looked
          exact .unknown hit refused
        · simp only [hit, fits, refused, if_true, if_false, Except.ok.injEq,
            Prod.mk.injEq] at looked
          obtain ⟨rfl, rfl⟩ := looked
          exact .inserted hit fits refused
      · simp [hit, fits] at looked

theorem do_lookup_mem {infoHash : List UInt8} {list : List (Node TorrentEntry)}
    {te : Node TorrentEntry} (found : torrentDoLookupTorrentInfoHash infoHash list = some te) :
    te ∈ list ∧ te.val.infoHash.take torrentHashLen = infoHash.take torrentHashLen :=
  ⟨List.mem_of_find?_eq_some found, by simpa using List.find?_some found⟩

theorem do_lookup_absent_iff (infoHash : List UInt8) (list : List (Node TorrentEntry)) :
    torrentDoLookupTorrentInfoHash infoHash list = none ↔
      ∀ te ∈ list, te.val.infoHash.take torrentHashLen ≠ infoHash.take torrentHashLen := by
  simp [torrentDoLookupTorrentInfoHash, List.find?_eq_none]

theorem looked_mem {db : Database} {infoHash : List UInt8} {tl looked : TorrentList}
    {torrent : Node TorrentEntry} (lookup : Lookup db infoHash tl looked (some torrent)) :
    torrent ∈ looked.list := by
  cases lookup with
  | hit te found => exact (do_lookup_mem found).1
  | inserted missed fits known => exact List.mem_cons_self

/-- With room for the SQL text a lookup returns. -/
theorem lookup_defined (db : Database) (infoHash : List UInt8) (tl : TorrentList)
    (fits : (lookupSql infoHash).length < queryLen) :
    ∃ after found, torrentLookupTorrent db infoHash tl = .ok (after, found) := by
  have answered : dbQueryLookupTorrent db infoHash = .ok (db (lookupSql infoHash)) := if_pos fits
  unfold torrentLookupTorrent
  rw [answered]
  cases torrentDoLookupTorrentInfoHash infoHash tl.list with
  | some te => exact ⟨tl, some te, rfl⟩
  | none =>
      by_cases refused : db (lookupSql infoHash) = -1
      · exact ⟨tl, none, by simp [refused]⟩
      · exact ⟨_, _, by simp [refused]; exact ⟨rfl, rfl⟩⟩

theorem lookup_sql_congr (a b : List UInt8) (same : cstr a = cstr b) :
    lookupSql a = lookupSql b := by
  rw [lookupSql, lookupSql, same]

theorem length_lookup_sql (infoHash : List UInt8) :
    (lookupSql infoHash).length = 58 + (cstr infoHash).length := by
  simp only [lookupSql, List.length_append]
  have front : (text "select id from torrents where lower(info_hash) = lower('").length = 56 := by
    decide +kernel
  have back : (text "')").length = 2 := by decide +kernel
  omega

/-! ## The key of a 20-byte info hash -/

structure InfoHash where
  bytes : List UInt8
  size : bytes.length = 20
  deriving DecidableEq

/-- `url_decode` uses the first 20 decoded bytes, when there are that many. -/
def InfoHash.ofDecoded (decoded : List UInt8) : Option InfoHash :=
  if long : 20 ≤ decoded.length then
    some ⟨decoded.take 20, by rw [List.length_take]; omega⟩
  else none

/-- The 256 bytes `torrent_lookup_torrent` stores for an info hash. -/
def hashKey (h : InfoHash) : List UInt8 := strncpy torrentHashLen (hexText h.bytes)

theorem length_hash_key (h : InfoHash) : (hashKey h).length = torrentHashLen := length_strncpy _ _

theorem length_hash_text (h : InfoHash) : (hexText h.bytes).length = 40 := by
  rw [length_hex_text, h.size]

theorem cstr_hash_key (h : InfoHash) : cstr (hashKey h) = hexText h.bytes := by
  rw [hashKey, cstr_strncpy, cstr_self _ (hex_text_nul_free h.bytes), List.take_of_length_le]
  rw [length_hash_text]
  decide

theorem bytes_injective (a b : InfoHash) (same : a.bytes = b.bytes) : a = b := by
  cases a
  cases b
  simpa using same

theorem hash_key_injective (a b : InfoHash) (same : hashKey a = hashKey b) : a = b := by
  apply bytes_injective
  apply hex_text_injective
  rw [← cstr_hash_key a, ← cstr_hash_key b, same]

/-- Forty digits followed by zeros are looked up and stored as the hash's key. -/
theorem padded_key (h : InfoHash) :
    (hexText h.bytes ++ 0 :: List.replicate 216 0).take torrentHashLen = hashKey h ∧
      cstr (hexText h.bytes ++ 0 :: List.replicate 216 0) = hexText h.bytes := by
  refine ⟨?_, cstr_append_nul _ _ (hex_text_nul_free h.bytes)⟩
  rw [hashKey, strncpy, cstr_self _ (hex_text_nul_free h.bytes), List.take_append,
    List.take_append, length_hash_text, ← List.replicate_succ, List.take_replicate,
    List.take_replicate]
  rfl

end Ttracker.TorrentCache
