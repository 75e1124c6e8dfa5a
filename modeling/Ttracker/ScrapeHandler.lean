import Ttracker.AnnounceHandler

/-!
`_job_handle_scrape` up to the text it prints: the hash list, a lookup for each
of its entries and the counters copied out of each torrent. `handed` is history:
the keys the lookup was called with.
-/
namespace Ttracker.ScrapeHandler
open CLibrary LinkedNodes HttpQuery PeerRequest Torrents TorrentCache AnnounceHandler

/-- What `xmalloc` returned for the `info_hash` of a `struct hashentry_t`. -/
structure FreshHash where
  mem : List UInt8
  size : mem.length = torrentHashLen + 1

structure ScrapeEntry where
  seeders : Int
  leechers : Int
  complete : Int
  peerCount : Int
  infoHash : List UInt8

def scrapeAddTorrent (sctx : List ScrapeEntry) (te : TorrentEntry) : List ScrapeEntry :=
  ⟨te.seeders, te.leechers, te.complete, te.peerCount, te.infoHash⟩ :: sctx

structure Scraping where
  tl : TorrentList
  sctx : List ScrapeEntry
  handed : List (List UInt8)

/-- The loop over the hash list; `false` is its return on an unknown torrent. -/
def scrapeHashes (db : Database) : List (List UInt8) → Scraping → Except Fault (Bool × Scraping)
  | [], s => .ok (true, s)
  | infoHash :: rest, s =>
      match torrentLookupTorrent db infoHash s.tl with
      | .error fault => .error fault
      -- the first unknown torrent ends the scrape with a failure message
      | .ok (tl, none) => .ok (false, { s with tl := tl, handed := s.handed ++ [infoHash] })
      | .ok (tl, some te) =>
          scrapeHashes db rest ⟨tl, scrapeAddTorrent s.sctx te.val, s.handed ++ [infoHash]⟩

def jobHandleScrape (env : Environment) (tl : TorrentList) (list : List HttpUriKv)
    (fresh : Nat → FreshHash) : Except Fault (Bool × Scraping) :=
  let hashlist := httpBuildPeerReqHashList env.curl list fun i => (fresh i).mem
  (scrapeHashes env.db hashlist ⟨torrentListWorkon tl, [], []⟩).map fun (whole, s) =>
    (whole, { s with tl := torrentListJobdone s.tl })

/-- With room for every SQL text the loop ends, and hands over keys of its list only. -/
theorem scrape_hashes_defined (db : Database) (keys : List (List UInt8)) (s : Scraping)
    (fits : ∀ key ∈ keys, (lookupSql key).length < queryLen) :
    ∃ whole t, scrapeHashes db keys s = .ok (whole, t) ∧
      ∀ key ∈ t.handed, key ∈ s.handed ∨ key ∈ keys := by
  induction keys generalizing s with
  | nil => exact ⟨true, s, rfl, fun key member => Or.inl member⟩
  | cons infoHash rest ih =>
      obtain ⟨tl, found, looked⟩ :=
        lookup_defined db infoHash s.tl (fits infoHash List.mem_cons_self)
      cases found with
      | none =>
          refine ⟨false, _, by simp [scrapeHashes, looked]; rfl, ?_⟩
          intro key member
          rcases List.mem_append.mp member with before | here
          · exact Or.inl before
          · exact Or.inr (List.mem_cons.mpr (Or.inl (List.mem_singleton.mp here)))
      | some te =>
          obtain ⟨whole, t, ended, handed⟩ :=
            ih ⟨tl, scrapeAddTorrent s.sctx te.val, s.handed ++ [infoHash]⟩
              fun key member => fits key (List.mem_cons_of_mem _ member)
          refine ⟨whole, t, by simpa [scrapeHashes, looked] using ended, ?_⟩
          intro key member
          rcases handed key member with before | later
          · rcases List.mem_append.mp before with earlier | here
            · exact Or.inl earlier
            · exact Or.inr (List.mem_cons.mpr (Or.inl (List.mem_singleton.mp here)))
          · exact Or.inr (List.mem_cons_of_mem _ later)

/-- When the database knows everything, every key of the list is handed over. -/
theorem scrape_hashes_all (db : Database) (keys : List (List UInt8)) (s t : Scraping) (whole : Bool)
    (answers : ∀ sql, db sql ≠ -1) (ended : scrapeHashes db keys s = .ok (whole, t)) :
    t.handed = s.handed ++ keys := by
  induction keys generalizing s with
  | nil =>
      cases ended
      simp
  | cons infoHash rest ih =>
      unfold scrapeHashes at ended
      split at ended
      · contradiction
      · next tl looked =>
          cases lookup_cases looked with
          | unknown _ refused => exact absurd refused (answers _)
      · next tl te looked => simpa using ih _ ended

end Ttracker.ScrapeHandler
