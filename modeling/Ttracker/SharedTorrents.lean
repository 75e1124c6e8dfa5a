import Ttracker.ScrapeHandler
import Ttracker.TransitionRuns
import Mathlib.Data.List.Pairwise

/-!
One torrent entry for every info hash, over any interleaving of announce and
scrape jobs. A `Piece` is one atomic step of a job: a lookup under the list's
mutex, with the key its job built, or a section under a torrent's own lock.
`returned` is history: the hash of each lookup and the address it returned.
-/
namespace Ttracker.SharedTorrents
open CLibrary LinkedNodes HttpQuery PeerRequest Torrents TorrentCache AnnounceHandler ScrapeHandler
open TransitionRuns

/-- The sections that change a torrent. -/
inductive Locked where
  | add (pe : Node PeerEntry)
  | update (pe : Node PeerEntry) (action : Torrents.Action)
  | remove (pe : Node PeerEntry)

def Locked.run (te : TorrentEntry) : Locked → TorrentEntry
  | .add pe => (torrentAddPeerAndReturnList te pe).1
  | .update pe action => (torrentUpdatePeerAndReturnList te pe action).1
  | .remove pe => torrentRemovePeer te pe

inductive Piece where
  | announce (job : Job)
  | scrape (value : CString (httpMaxValLen - 1)) (fresh : FreshHash)
  | work (addr : Nat) (locked : Locked)

structure Sharing where
  tl : TorrentList
  returned : List (InfoHash × Nat)

def lookupStep (db : Database) (s : Sharing) (infoHash : List UInt8) (h : Option InfoHash) :
    Option Sharing :=
  match torrentLookupTorrent db infoHash s.tl with
  | .error _ => none
  | .ok (tl, none) => some { s with tl := tl }
  | .ok (tl, some te) => some ⟨tl, (h.map fun h => (h, te.addr)).toList ++ s.returned⟩

/-- The key of a scrape's value, over the memory its entry was given. -/
def scrapeKey (curl : Unescape) (value : CString (httpMaxValLen - 1)) (fresh : FreshHash) :
    List UInt8 := urlDecode curl fresh.mem value.bytes

def sharedStep (env : Environment) (s : Sharing) : Piece → Option Sharing
  | .announce job =>
      match httpBuildPeerReq env.curl job.httpKvList with
      | .error _ => none
      | .ok ctx =>
          if sanitizePeerReq ctx = none then
            lookupStep env.db s ctx.infoHash (announcedHash env.curl job.httpKvList)
          else some s
  | .scrape value fresh =>
      lookupStep env.db s (scrapeKey env.curl value fresh)
        ((env.curl.run value.bytes).bind InfoHash.ofDecoded)
  | .work addr locked =>
      some { s with
        tl := { s.tl with list := modifyAt addr (fun te => locked.run te) s.tl.list } }

/-- The text of a 20-byte hash. -/
def IsHash (string : List UInt8) : Prop := string.length = 40 ∧ string.all isxdigit = true

instance (string : List UInt8) : Decidable (IsHash string) := inferInstanceAs (Decidable (_ ∧ _))

def entries (tl : TorrentList) : List (Nat × List UInt8) :=
  tl.list.map fun te => (te.addr, te.val.infoHash)

def Unique (es : List (Nat × List UInt8)) : Prop :=
  es.Pairwise fun a b => IsHash (cstr a.2) → cstr a.2 ≠ cstr b.2

instance (es : List (Nat × List UInt8)) : Decidable (Unique es) :=
  inferInstanceAs (Decidable (List.Pairwise _ es))

/-- No hash has two entries, and lookups of one hash return one entry. -/
structure Shared (s : Sharing) : Prop where
  unique : Unique (entries s.tl)
  agree : ∀ a ∈ s.returned, ∀ b ∈ s.returned, a.1 = b.1 → a.2 = b.2

/-- A scrape that looks up a listed hash does so with zeros behind the digits. -/
def Clean (env : Environment) (s : Sharing) : Piece → Prop
  | .scrape value fresh =>
      ZeroPadded torrentHashLen (scrapeKey env.curl value fresh) ∨
        ¬ IsHash (cstr (scrapeKey env.curl value fresh)) ∨
          ∀ e ∈ entries s.tl, cstr e.2 ≠ cstr (scrapeKey env.curl value fresh)
  | _ => True

structure Inv (db : Database) (s : Sharing) : Prop where
  distinct : (addresses s.tl.list).Nodup
  old : ∀ a ∈ addresses s.tl.list, a < s.tl.next
  stored : ∀ e ∈ entries s.tl, ∃ key, e.2 = strncpy torrentHashLen key ∧
    (cstr key).length < torrentHashLen
  answered : ∀ e ∈ entries s.tl, db (lookupSql e.2) ≠ -1
  unique : Unique (entries s.tl)
  returned : ∀ r ∈ s.returned, ∃ e ∈ entries s.tl, e.1 = r.2 ∧ cstr e.2 = hexText r.1.bytes

theorem hex_is_hash (h : InfoHash) : IsHash (hexText h.bytes) :=
  ⟨length_hash_text h, List.all_eq_true.mpr fun c member =>
    lower_hex_isxdigit c (hex_text_lower _ c member)⟩

theorem same_entry {es : List (Nat × List UInt8)} (unique : Unique es) {a b : Nat × List UInt8}
    (aMember : a ∈ es) (bMember : b ∈ es) (hash : IsHash (cstr a.2)) (same : cstr a.2 = cstr b.2) :
    a = b := by
  by_contra different
  have : Std.Symm fun a b : Nat × List UInt8 => IsHash (cstr a.2) → cstr a.2 ≠ cstr b.2 :=
    ⟨fun a b apart bHash equal => apart (equal ▸ bHash) equal.symm⟩
  exact unique.forall aMember bMember different hash same

theorem inv_shared (db : Database) (s : Sharing) (inv : Inv db s) : Shared s := by
  refine ⟨inv.unique, fun a aMember b bMember same => ?_⟩
  obtain ⟨e, eMember, eAddr, eString⟩ := inv.returned a aMember
  obtain ⟨f, fMember, fAddr, fString⟩ := inv.returned b bMember
  have equal := same_entry inv.unique eMember fMember (eString ▸ hex_is_hash a.1)
    (by rw [eString, fString, same])
  rw [← eAddr, ← fAddr, equal]

/-! ## Keys -/

theorem stored_string {stored key : List UInt8} (shape : stored = strncpy torrentHashLen key)
    (short : (cstr key).length < torrentHashLen) : cstr stored = cstr key := by
  rw [shape, cstr_strncpy, List.take_of_length_le short.le]

/-- Bytes that agree with a stored key hold its string, with zeros behind it. -/
theorem matches_stored (stored key infoHash : List UInt8)
    (shape : stored = strncpy torrentHashLen key) (short : (cstr key).length < torrentHashLen)
    (same : stored.take torrentHashLen = infoHash.take torrentHashLen) :
    cstr infoHash = cstr stored ∧ ZeroPadded torrentHashLen infoHash := by
  have whole : stored.take torrentHashLen = stored := by
    rw [shape, List.take_of_length_le (length_strncpy _ _).le]
  have string := stored_string shape short
  have cut : (cstr infoHash).take torrentHashLen = cstr key := by
    rw [← cstr_take, ← same, whole, string]
  have equal : cstr infoHash = cstr key := by
    rw [← cut, List.take_of_length_le]
    by_contra long
    rw [← cut, List.length_take] at short
    omega
  refine ⟨equal.trans string.symm, ?_⟩
  rw [ZeroPadded, ← same, whole, shape]
  exact strncpy_congr _ _ _ equal.symm

/-- An accepted announce looks up a key with zeros behind its digits. -/
theorem announce_clean {curl : Unescape} {list : List HttpUriKv} {ctx : PeerReq}
    (built : httpBuildPeerReq curl list = .ok ctx) (sane : sanitizePeerReq ctx = none) :
    ZeroPadded torrentHashLen ctx.infoHash ∧
      ∀ h, announcedHash curl list = some h → cstr ctx.infoHash = hexText h.bytes := by
  obtain ⟨h, hash, key, string⟩ := accepted_key built sane
  refine ⟨?_, fun other same => ?_⟩
  · rw [ZeroPadded, key, hashKey]
    exact strncpy_congr _ _ _ (by rw [string, cstr_self _ (hex_text_nul_free h.bytes)])
  · rw [hash, Option.some.injEq] at same
    rw [string, same]

theorem scrape_key_string (curl : Unescape) (value : CString (httpMaxValLen - 1))
    (fresh : FreshHash) (h : InfoHash)
    (decoded : (curl.run value.bytes).bind InfoHash.ofDecoded = some h) :
    cstr (scrapeKey curl value fresh) = hexText h.bytes := by
  obtain ⟨bytes, found, cut⟩ := Option.bind_eq_some_iff.mp decoded
  unfold InfoHash.ofDecoded at cut
  split at cut
  · next long =>
      cases cut
      rw [scrapeKey, url_decode_written curl _ _ bytes found long (by rw [fresh.size]; decide),
        cstr_append_nul _ _ (hex_text_nul_free _)]
  · contradiction

/-! ## One lookup -/

theorem entry_mem {tl : TorrentList} {te : Node TorrentEntry} (member : te ∈ tl.list) :
    (te.addr, te.val.infoHash) ∈ entries tl := List.mem_map_of_mem member

/-- A lookup that is clean keeps one entry for every hash. -/
theorem lookup_keeps (db : Database) (s t : Sharing) (infoHash : List UInt8) (h : Option InfoHash)
    (inv : Inv db s) (taken : lookupStep db s infoHash h = some t)
    (clean : ZeroPadded torrentHashLen infoHash ∨ ¬ IsHash (cstr infoHash) ∨
      ∀ e ∈ entries s.tl, cstr e.2 ≠ cstr infoHash)
    (string : ∀ h', h = some h' → cstr infoHash = hexText h'.bytes) : Inv db t := by
  unfold lookupStep at taken
  split at taken
  · contradiction
  · next tl looked =>
      cases taken
      cases lookup_cases looked with
      | unknown missed refused => exact inv
  · next tl te looked =>
      cases taken
      have recorded : ∀ es : List (Nat × List UInt8), (te.addr, te.val.infoHash) ∈ es →
          cstr te.val.infoHash = cstr infoHash → (∀ e ∈ entries s.tl, e ∈ es) →
          ∀ r ∈ (h.map fun h => (h, te.addr)).toList ++ s.returned,
            ∃ e ∈ es, e.1 = r.2 ∧ cstr e.2 = hexText r.1.bytes := by
        intro es here same kept r member
        rcases List.mem_append.mp member with new | old
        · obtain ⟨h', found, rfl⟩ := Option.map_eq_some_iff.mp (Option.mem_toList.mp new)
          exact ⟨_, here, rfl, same.trans (string h' found)⟩
        · obtain ⟨e, present, fact⟩ := inv.returned r old
          exact ⟨e, kept e present, fact⟩
      cases lookup_cases looked with
      | hit te found =>
          obtain ⟨member, same⟩ := do_lookup_mem found
          obtain ⟨key, shape, short⟩ := inv.stored _ (entry_mem member)
          exact { inv with
            returned := recorded _ (entry_mem member)
              (matches_stored _ key infoHash shape short same).1.symm fun e present => present }
      | inserted missed fits known =>
          rw [length_lookup_sql] at fits
          have short : (cstr infoHash).length < torrentHashLen := by
            have room : queryLen = torrentHashLen := rfl
            omega
          have same : cstr (freshTorrent db infoHash s.tl).val.infoHash = cstr infoHash :=
            stored_string rfl short
          constructor
          · exact List.nodup_cons.mpr ⟨fun member => (inv.old _ member).false, inv.distinct⟩
          · intro a member
            rcases List.mem_cons.mp member with rfl | before
            · exact Nat.lt_succ_self _
            · exact Nat.lt_succ_of_lt (inv.old a before)
          · intro e member
            rcases List.mem_cons.mp member with rfl | before
            · exact ⟨infoHash, rfl, short⟩
            · exact inv.stored e before
          · intro e member
            rcases List.mem_cons.mp member with rfl | before
            · rwa [lookup_sql_congr _ _ same]
            · exact inv.answered e before
          · refine List.pairwise_cons.mpr ⟨fun e member isHash equal => ?_, inv.unique⟩
            rw [same] at isHash equal
            -- a padded key would have matched the listed entry byte for byte
            rcases clean with padded | noHash | unlisted
            · obtain ⟨node, present, rfl⟩ := List.mem_map.mp member
              obtain ⟨key, shape, small⟩ := inv.stored _ (entry_mem present)
              refine (do_lookup_absent_iff _ _).mp missed node present ?_
              have stored : node.val.infoHash = strncpy torrentHashLen key := shape
              rw [padded, stored, List.take_of_length_le (length_strncpy _ _).le]
              exact strncpy_congr _ _ _ ((stored_string shape small).symm.trans equal.symm)
            · exact noHash isHash
            · exact unlisted e member equal.symm
          · exact recorded _ List.mem_cons_self same fun e => List.mem_cons_of_mem _

/-- A lookup of a listed hash with other bytes behind its digits inserts it again. -/
theorem lookup_breaks (db : Database) (s t : Sharing) (infoHash : List UInt8) (h : Option InfoHash)
    (inv : Inv db s) (taken : lookupStep db s infoHash h = some t)
    (dirty : ¬ ZeroPadded torrentHashLen infoHash) (isHash : IsHash (cstr infoHash))
    (e : Nat × List UInt8) (member : e ∈ entries s.tl) (same : cstr e.2 = cstr infoHash) :
    ¬ Shared t := by
  unfold lookupStep at taken
  split at taken
  · contradiction
  · next tl looked =>
      cases lookup_cases looked with
      | unknown missed refused =>
          rw [← lookup_sql_congr _ _ same] at refused
          exact absurd refused (inv.answered e member)
  · next tl te looked =>
      cases taken
      cases lookup_cases looked with
      | hit te found =>
          obtain ⟨present, equal⟩ := do_lookup_mem found
          obtain ⟨key, shape, short⟩ := inv.stored _ (entry_mem present)
          exact absurd (matches_stored _ key infoHash shape short equal).2 dirty
      | inserted missed fits known =>
          rw [length_lookup_sql] at fits
          have short : (cstr infoHash).length < torrentHashLen := by
            have room : queryLen = torrentHashLen := rfl
            omega
          have string : cstr (freshTorrent db infoHash s.tl).val.infoHash = cstr infoHash :=
            stored_string rfl short
          intro shared
          refine (List.pairwise_cons.mp shared.unique).1 e member ?_ ?_
          · exact string.symm ▸ isHash
          · exact string.trans same.symm

/-! ## Runs -/

@[simp] theorem locked_infoHash (te : TorrentEntry) (locked : Locked) :
    (locked.run te).infoHash = te.infoHash := by
  cases locked with
  | add pe => exact add_infoHash te pe
  | update pe action => exact update_infoHash te pe action
  | remove pe => exact remove_infoHash te pe

theorem entries_work (tl : TorrentList) (addr : Nat) (locked : Locked) :
    entries { tl with list := modifyAt addr (fun te => locked.run te) tl.list } = entries tl := by
  simp only [entries, modifyAt, List.map_map]
  apply List.map_congr_left
  intro te _
  by_cases here : te.addr = addr <;> simp [here]

theorem work_keeps (db : Database) (s : Sharing) (addr : Nat) (locked : Locked) (inv : Inv db s) :
    Inv db { s with
      tl := { s.tl with list := modifyAt addr (fun te => locked.run te) s.tl.list } } := by
  have same := entries_work s.tl addr locked
  have addresses := addresses_modifyAt addr (fun te => locked.run te) s.tl.list
  constructor
  · rw [addresses]
    exact inv.distinct
  · rw [addresses]
    exact inv.old
  · rw [same]
    exact inv.stored
  · rw [same]
    exact inv.answered
  · rw [same]
    exact inv.unique
  · rw [same]
    exact inv.returned

theorem shared_step_keeps (env : Environment) (s : Sharing) (piece : Piece) (t : Sharing)
    (inv : Inv env.db s) (clean : Clean env s piece) (taken : sharedStep env s piece = some t) :
    Inv env.db t := by
  cases piece with
  | announce job =>
      simp only [sharedStep] at taken
      split at taken
      · contradiction
      · next ctx built =>
          split at taken
          · next sane =>
              obtain ⟨padded, string⟩ := announce_clean built sane
              exact lookup_keeps env.db s t _ _ inv taken (Or.inl padded) string
          · cases taken
            exact inv
  | scrape value fresh =>
      exact lookup_keeps env.db s t _ _ inv taken clean
        fun h decoded => scrape_key_string env.curl value fresh h decoded
  | work addr locked =>
      cases taken
      exact work_keeps env.db s addr locked inv

theorem dirty_scrape_breaks (env : Environment) (s : Sharing) (piece : Piece) (t : Sharing)
    (inv : Inv env.db s) (dirty : ¬ Clean env s piece) (taken : sharedStep env s piece = some t) :
    ¬ Shared t := by
  cases piece with
  | announce job => exact absurd trivial dirty
  | work addr locked => exact absurd trivial dirty
  | scrape value fresh =>
      simp only [Clean, not_or, not_not, not_forall] at dirty
      obtain ⟨unpadded, isHash, e, member, same⟩ := dirty
      exact lookup_breaks env.db s t _ _ inv taken unpadded isHash e member same

/-- From no torrents, hashes and entries correspond in every state a sequence of
pieces reaches if and only if each of its scrapes is clean. -/
theorem torrents_shared_iff (env : Environment) (pieces : List Piece) :
    Throughout (sharedStep env) Shared ⟨.empty, []⟩ pieces ↔
      Along (sharedStep env) (Clean env) ⟨.empty, []⟩ pieces :=
  throughout_iff_along (sharedStep env) (Clean env) Shared (Inv env.db) (inv_shared env.db)
    (shared_step_keeps env) (dirty_scrape_breaks env) _ pieces
    (by constructor <;> simp [TorrentList.empty, entries, addresses, Unique])

/-- The twenty `h`s of the example jobs, as a scrape's value. -/
def sampleValue : CString (httpMaxValLen - 1) := ⟨List.replicate 20 104, by decide, by decide⟩

/-- Memory that is not zero behind the digits. -/
def dirtyMemory : FreshHash := ⟨List.replicate 257 120, List.length_replicate⟩

/-- A scrape after an announce of the same hash inserts a second entry for it. -/
theorem scrape_after_announce_inserts_again :
    ¬ ∀ (env : Environment) (pieces : List Piece),
      Throughout (sharedStep env) Shared ⟨.empty, []⟩ pieces := by
  intro claimed
  have run : (replay (sharedStep sampleEnv) ⟨.empty, []⟩
      [.announce (sampleJob (ascii ['5']) eventStart), .scrape sampleValue dirtyMemory]).any
        (fun s => ¬ Unique (entries s.tl)) = true := by decide +kernel
  obtain ⟨final, reached, doubled⟩ := (Option.any_eq_true _ _).mp run
  have shared := throughout_replay _ _ _ _ _ (claimed sampleEnv _) reached
  exact of_decide_eq_true doubled shared.unique

end Ttracker.SharedTorrents
