import Ttracker.FirstMatches
import Ttracker.ServedMemory
import Ttracker.Swarms

/-!
The tracker of connections refines the tracker of swarms. The torrent list is the map its
searches see, each torrent the swarm of its peers and counters, and what a client reads is
what the swarms say.
-/
namespace Ttracker.TrackerRefinement
open CLibrary LinkedNodes FirstMatches HttpQuery PeerRequest RequestCopies Torrents TorrentCache
  AnnounceHandler ScrapeHandler ScrapeText ScrapeReplies AnnounceReplies PeerListReply Buffers
  HttpResponses Bencode ServedRequests ServedMemory Swarms

/-! ## What the lists stand for -/

abbrev Key := List UInt8

abbrev Asked := Request Key PeerEntry (List UInt8)

abbrev Answer := Told Key PeerEntry (List UInt8)

/-- The 256 bytes that are compared. -/
def torrentKey (te : TorrentEntry) : Key := te.infoHash.take torrentHashLen

def swarmOf (te : TorrentEntry) : Swarm PeerEntry :=
  ⟨te.peers.map Node.val, te.seeders, te.leechers, te.complete⟩

def viewOf (tl : TorrentList) : Tracker Key PeerEntry := view torrentKey swarmOf tl.list

def whole (pe : PeerEntry) : Bool := pe.left = 0

def eventOf (event : List UInt8) : Event :=
  if wantsStart event then .start
  else
    match updateAction event with
    | .stop => .stop
    | .complete => .complete
    | _ => .other

/-- The SQL text fits, and the database knows its torrent. -/
def InDatabase (db : Database) (infoHash : List UInt8) : Prop :=
  (lookupSql infoHash).length < queryLen ∧ db (lookupSql infoHash) ≠ -1

instance (db : Database) (infoHash : List UInt8) : Decidable (InDatabase db infoHash) :=
  inferInstanceAs (Decidable (_ ∧ _))

/-- A torrent that is made is kept under the string alone. -/
def nameOf (db : Database) (infoHash : List UInt8) : Name Key :=
  ⟨infoHash.take torrentHashLen, strncpy torrentHashLen infoHash, InDatabase db infoHash⟩

def announceOf (env : Environment) (job : Job) : Option Asked := do
  let ctx ← (httpBuildPeerReq env.curl job.httpKvList).toOption
  match sanitizePeerReq ctx with
  | some error => some (.invalid (errorText error))
  | none => some (.announce (nameOf env.db ctx.infoHash) (peerOf job.clientaddr ctx).toOption
      (eventOf ctx.event.bytes))

def scrapeOf (env : Environment) (list : List HttpUriKv) (fresh : Nat → FreshHash) : Asked :=
  .scrape ((httpBuildPeerReqHashList env.curl list fun i => (fresh i).mem).map (nameOf env.db))

/-- What a connection asks, from its bytes. -/
def requestOf (env : Environment) (c : Connection) : Option Asked :=
  match requested c with
  | none => some .unread
  | some (b, jobT) => do
      let result ← httpParseQuery b jobT
      if result.ret = -1 then some .refused
      else
        match jobT with
        | .announce => announceOf env ⟨result.head, c.clientaddr⟩
        | .scrape => some (scrapeOf env result.head c.fresh)
        | .stop => some .unread

/-- Distinct addresses, consistent torrents and keys of a string and zeros. -/
structure Sound (tl : TorrentList) : Prop where
  addressed : Addressed tl
  keys : ∀ te ∈ tl.list, strncpy torrentHashLen te.val.infoHash = te.val.infoHash

theorem sound_empty : Sound .empty := ⟨addressed_empty, by simp [TorrentList.empty]⟩

/-- The number of jobs that work on the list is no part of it. -/
theorem sound_counting {tl : TorrentList} (sound : Sound tl) (working : Int) :
    Sound { tl with working := working } :=
  ⟨⟨sound.addressed.distinct, sound.addressed.old, sound.addressed.torrents⟩, sound.keys⟩

theorem sound_key {tl : TorrentList} (sound : Sound tl) {te : Node TorrentEntry}
    (member : te ∈ tl.list) : torrentKey te.val = te.val.infoHash := by
  have padded := length_strncpy torrentHashLen te.val.infoHash
  rw [sound.keys te member] at padded
  exact List.take_of_length_le padded.le

theorem strncpy_padded (n : Nat) (src : List UInt8) : strncpy n (strncpy n src) = strncpy n src := by
  have zeros : n - min n (cstr src).length = n - (cstr src).length := by omega
  rw [strncpy, cstr_strncpy, strncpy, List.take_append, List.take_append, List.take_take,
    List.length_take, min_self, zeros]

/-! ## Searches -/

theorem lookup_unknown {db : Database} {infoHash : List UInt8} {tl after : TorrentList}
    (looked : Lookup db infoHash tl after none) :
    after = tl ∧ look (viewOf tl) (nameOf db infoHash) = none := by
  cases looked with
  | unknown missed refused =>
      have absent : viewOf tl (infoHash.take torrentHashLen) = none := view_missed missed
      simp [look, nameOf, InDatabase, absent, refused]

theorem lookup_listed {db : Database} {infoHash : List UInt8} {tl after : TorrentList}
    {te : Node TorrentEntry} (looked : Lookup db infoHash tl after (some te)) :
    look (viewOf tl) (nameOf db infoHash) =
        some (viewOf after, torrentKey te.val, swarmOf te.val) ∧
      after.list.find? (fun other => torrentKey other.val == torrentKey te.val) = some te := by
  cases looked with
  | hit te found =>
      have listed : viewOf tl (infoHash.take torrentHashLen) = some (swarmOf te.val) :=
        view_found found
      have key : torrentKey te.val = infoHash.take torrentHashLen := (do_lookup_mem found).2
      rw [key]
      refine ⟨?_, found⟩
      simp [look, nameOf, listed]
  | inserted missed fits known =>
      have absent : viewOf tl (infoHash.take torrentHashLen) = none := view_missed missed
      have key : torrentKey (freshTorrent db infoHash tl).val = strncpy torrentHashLen infoHash :=
        List.take_of_length_le (length_strncpy _ _).le
      have made : view torrentKey swarmOf (freshTorrent db infoHash tl :: tl.list) =
          Function.update (viewOf tl) (strncpy torrentHashLen infoHash) (some .empty) :=
        key ▸ view_insert (freshTorrent db infoHash tl) tl.list
      refine ⟨?_, by simp⟩
      have inDatabase : InDatabase db infoHash := ⟨fits, known⟩
      -- on the list the new torrent goes in front, in the map it takes its key's place
      simp only [look, nameOf, absent, decide_eq_true inDatabase, if_true, key]
      exact congrArg some (Prod.ext made.symm rfl)

/-! ## Announces -/

theorem search_values (pe : PeerEntry) (te : TorrentEntry) :
    (swarmOf te).peers.find? (fun other => other.endpoint == pe.endpoint) =
      (peerSearchPeer pe te.peers).map Node.val := by
  rw [swarmOf, List.find?_map]
  rfl

theorem start_updates_nothing {event : List UInt8} (start : wantsStart event = true) :
    updateAction event = .null := by
  have four : event.take 4 = eventStart.take 4 := by simpa [wantsStart, strncmpEq] using start
  simp only [updateAction, strncmpEq, four]
  decide

theorem event_other {event : List UInt8} (other : wantsStart event = false) : eventOf event ≠ .start := by
  unfold eventOf
  rw [other]
  cases updateAction event <;> simp

theorem event_listed (event : List UInt8) :
    (updateAction event = .stop → eventOf event = .stop) ∧
      (updateAction event = .complete → eventOf event = .complete) ∧
        (updateAction event = .null → eventOf event = .start ∨ eventOf event = .other) := by
  by_cases start : wantsStart event = true
  · simp [eventOf, start, start_updates_nothing start]
  · cases action : updateAction event <;> simp [eventOf, start, action]

theorem remove_refines {te : TorrentEntry} {next : Nat} (consistent : Consistent te next)
    {pe : PeerEntry} {pp : Node PeerEntry} (found : peerSearchPeer pe te.peers = some pp) :
    swarmOf (torrentRemovePeer te pp) =
      (swarmOf te).leave PeerEntry.endpoint whole pp.val := by
  have hit : pp.val.endpoint = pe.endpoint := by simpa using List.find?_some found
  have removed : (remove pp.addr te.peers).map Node.val =
      (te.peers.map Node.val).eraseP fun other => other.endpoint == pe.endpoint :=
    values_remove consistent.distinct found
  simp [swarmOf, torrentRemovePeer, Swarm.leave, whole, removed, hit]

theorem swarm_insert (te : TorrentEntry) (pep : Node PeerEntry) :
    swarmOf (insertPeer te pep) = (swarmOf te).join whole pep.val := by
  simp [swarmOf, insertPeer, Swarm.join, whole]

/-- The torrent behind an announce is the swarm behind it, and what is printed the swarm
that is told. -/
theorem announce_refines {te : TorrentEntry} {next : Nat} (consistent : Consistent te next)
    (fresh : Nat) (pe : PeerEntry) (event : List UInt8) :
    swarmOf (announcePeer te fresh pe event).1 =
        ((swarmOf te).announce PeerEntry.endpoint whole pe (eventOf event)).1 ∧
      (((swarmOf te).announce PeerEntry.endpoint whole pe (eventOf event)).2 = none ∧
          (announcePeer te fresh pe event).2 = .silent ∨
        ((swarmOf te).announce PeerEntry.endpoint whole pe (eventOf event)).2 =
            some (swarmOf (printedTorrent te fresh pe event)) ∧
          (announcePeer te fresh pe event).2 =
            .peerList (peerListReply (printedTorrent te fresh pe event))) := by
  have values := search_values pe te
  unfold Swarm.announce announcePeer printedTorrent
  rw [values]
  -- the handler's searches under the lock and before it see the same peers
  cases searched : peerSearchPeer pe te.peers with
  | none =>
      by_cases start : wantsStart event = true
      · have inserted := swarm_insert te ⟨fresh, pe⟩
        simp [eventOf, start, torrentAddPeerAndReturnList, searched, inserted]
      · have other := event_other (Bool.eq_false_iff.mpr start)
        cases kind : eventOf event with
        | start => exact absurd kind other
        | stop | complete | other => simp [start]
  | some pp =>
      rw [Option.map_some]
      obtain ⟨stops, completes, others⟩ := event_listed event
      cases action : updateAction event with
      | stop =>
          have removed := remove_refines consistent searched
          simp [stops action, torrentUpdatePeerAndReturnList, removed]
      | complete =>
          have finished : swarmOf { te with complete := te.complete + 1, seeders := te.seeders + 1 } =
              (swarmOf te).finish := rfl
          simp [completes action, torrentUpdatePeerAndReturnList, finished]
      | null =>
          rcases others action with kind | kind <;>
            simp [kind, torrentUpdatePeerAndReturnList]
      | start =>
          unfold updateAction at action
          split at action
          · cases action
          · split at action <;> cases action

/-! ## Scrapes -/

theorem sound_lookup {db : Database} {infoHash : List UInt8} {tl after : TorrentList}
    {found : Option (Node TorrentEntry)} (sound : Sound tl)
    (looked : Lookup db infoHash tl after found) : Sound after := by
  refine ⟨addressed_lookup sound.addressed looked, ?_⟩
  cases looked with
  | hit | unknown => exact sound.keys
  | inserted missed fits known =>
      exact List.forall_mem_cons.mpr ⟨strncpy_padded _ _, sound.keys⟩

/-- What a scrape copies out of a swarm. -/
def entryOf (found : Key × Swarm PeerEntry) : ScrapeEntry :=
  ⟨found.2.seeders, found.2.leechers, found.2.downloaded, found.2.peers.length, found.1⟩

theorem entry_of_torrent {tl : TorrentList} (sound : Sound tl) {te : Node TorrentEntry}
    (member : te ∈ tl.list) (sctx : List ScrapeEntry) :
    scrapeAddTorrent sctx te.val = entryOf (torrentKey te.val, swarmOf te.val) :: sctx := by
  have counted := (sound.addressed.torrents te member).counted
  simp [scrapeAddTorrent, entryOf, swarmOf, sound_key sound member, counted]

/-- What the loop ends with: the entries of the swarms that were found, or a failure. -/
inductive Ended : Bool → List ScrapeEntry → Option (List (Key × Swarm PeerEntry)) → Prop where
  | unknown (sctx : List ScrapeEntry) : Ended false sctx none
  | whole (found : List (Key × Swarm PeerEntry)) : Ended true (found.map entryOf) (some found)

theorem scrape_refines {db : Database} {keys : List (List UInt8)} {s t : Scraping} {all : Bool}
    (found : List (Key × Swarm PeerEntry)) (sound : Sound s.tl) (entries : s.sctx = found.map entryOf)
    (ended : scrapeHashes db keys s = .ok (all, t)) :
    Sound t.tl ∧ (scrape (viewOf s.tl) (keys.map (nameOf db)) found).1 = viewOf t.tl ∧
      Ended all t.sctx (scrape (viewOf s.tl) (keys.map (nameOf db)) found).2 := by
  induction keys generalizing s found with
  | nil =>
      cases ended
      exact ⟨sound, rfl, entries ▸ .whole found⟩
  | cons infoHash rest ih =>
      rw [scrapeHashes] at ended
      rw [List.map_cons, scrape]
      cases looked : torrentLookupTorrent db infoHash s.tl with
      | error fault => simp [looked] at ended
      | ok both =>
      obtain ⟨after, torrent⟩ := both
      have lookup := lookup_cases looked
      cases torrent with
      | none =>
          simp only [looked] at ended
          cases ended
          -- the loop returns with the torrents it has inserted so far
          obtain ⟨rfl, missed⟩ := lookup_unknown lookup
          rw [missed]
          exact ⟨sound, rfl, .unknown _⟩
      | some te =>
          simp only [looked] at ended
          have kept := sound_lookup sound lookup
          have entry := entry_of_torrent kept (looked_mem lookup) s.sctx
          rw [(lookup_listed lookup).1]
          exact ih _ kept (by rw [entry, entries, List.map_cons]) ended

/-! ## Answers -/

def swarmDict (s : Swarm PeerEntry) : Value :=
  .dict [(text "complete", .int s.seeders), (text "incomplete", .int s.leechers),
    (text "interval", .int 30), (text "peers", .list ((s.peers.take tMaxNumwant).map peerValue))]

theorem swarm_dict (te : TorrentEntry) : swarmDict (swarmOf te) = replyDict te := by
  simp [swarmDict, swarmOf, replyDict, ← List.map_take]

def valueOf (old : Nat → UInt8) : Answer → Option Value
  | .invalid reason => some (failureDict reason)
  | .missing => some missingHash
  | .swarm s => some (swarmDict s)
  | .files found => some (filesDict (fileEntries old (found.map entryOf)))
  | _ => none

/-- What an answer needs of the memory it is printed into and of the C `int`s it prints. -/
def Fits : Answer → Prop
  | .swarm s => (encode (swarmDict s)).length < (replySize s.peers.length).toNat
  | .files found => ∀ f ∈ found, IntCounters (entryOf f)
  | _ => True

/-- The body a job leaves. -/
inductive Written (old : Nat → UInt8) (b : Buffer) : Answer → Prop where
  | silent (holds : Holds b []) : Written old b .silent
  | told (answer : Answer) (v : Value) (is : valueOf old answer = some v)
      (holds : Holds b (encode v)) : Written old b answer

/-- What a client gets to read. -/
inductive Heard (old : Nat → UInt8) : ServedRequests.Served → Answer → Prop where
  | closed : Heard old .closed .nothing
  | refused (message : Buffer) (reads : Reads message 400 (failureDict (text "query error"))) :
      Heard old (.sent message) .refused
  | silent (message : Buffer) (cut : Unreadable message) : Heard old (.sent message) .silent
  | told (message : Buffer) (answer : Answer) (v : Value) (is : valueOf old answer = some v)
      (reads : Reads message 200 v) : Heard old (.sent message) answer

theorem written_heard (unset : Unset) {old : Nat → UInt8} {b body message : Buffer}
    {answer : Answer} (empty : b.cursor = 0) (written : Written old body answer)
    (built : responseMessage unset b body 200 = some message) : Heard old (.sent message) answer := by
  cases written with
  | silent holds => exact .silent message (response_unreadable unset 200 empty holds built)
  | told _ v is holds =>
      exact .told message answer v is (response_reads unset 200 (Or.inl rfl) empty holds built)

/-! ## Jobs -/

theorem printed_consistent {te : TorrentEntry} {next : Nat} (consistent : Consistent te next)
    (pe : PeerEntry) (event : List UInt8) :
    Consistent (printedTorrent te next pe event) (next + 1) := by
  unfold printedTorrent
  cases searched : peerSearchPeer pe te.peers with
  | none => exact insert_consistent pe consistent searched
  | some pp => exact consistent_mono (update_consistent pp _ consistent) (Nat.le_succ _)

theorem roomy_of_fits {te : TorrentEntry} {next : Nat} (consistent : Consistent te next)
    (fits : Fits (.swarm (swarmOf te))) : Roomy (.peerList (peerListReply te)) := by
  intro printed same
  cases same
  obtain ⟨written, length⟩ := peer_list_written te
  have counted : te.peerCount = (swarmOf te).peers.length := by
    rw [consistent.counted, swarmOf, List.length_map]
  rw [written, length, ← encode_reply, ← swarm_dict, counted]
  exact fits

theorem sound_handled {env : Environment} {tl after : TorrentList} {job : Job} {reply : Reply}
    (sound : Sound tl) (handled : Handled env tl job after reply) : Sound after := by
  refine ⟨addressed_handled sound.addressed handled, ?_⟩
  cases handled with
  | rejected | unknown => exact sound.keys
  | accepted ctx pe looked torrent taken =>
      have kept := sound_lookup (sound_counting sound _) taken.lookup
      have member := looked_mem taken.lookup
      intro te inside
      rcases (mem_accepted_iff member _ te).mp inside with ⟨other, -⟩ | rfl
      · exact kept.keys te other
      · rw [announce_infoHash]
        exact kept.keys torrent member

/-- An accepted announce acts on the swarm that its lookup found or made. -/
theorem accepted_step {env : Environment} {unset : Unset} {tl looked : TorrentList} {job : Job}
    {ctx : PeerReq} {pe : PeerEntry} {torrent : Node TorrentEntry} {out written : Buffer}
    {r : Asked} (old : Nat → UInt8) (sound : Sound tl) (empty : Holds out [])
    (taken : Accepted env tl job ctx pe looked torrent)
    (wrote : appendReply unset out (announcePeer torrent.val looked.next pe ctx.event.bytes).2 =
      some written)
    (asks : r = .announce (nameOf env.db ctx.infoHash) (some pe) (eventOf ctx.event.bytes)) :
    (step PeerEntry.endpoint whole (viewOf tl) r).1 =
      viewOf { list := modifyAt torrent.addr
                (fun _ => (announcePeer torrent.val looked.next pe ctx.event.bytes).1) looked.list
               next := looked.next + 1
               working := tl.working } ∧
      (Fits (step PeerEntry.endpoint whole (viewOf tl) r).2 →
        Written old written (step PeerEntry.endpoint whole (viewOf tl) r).2) := by
  subst asks
  obtain ⟨found, listed⟩ := lookup_listed taken.lookup
  have member := looked_mem taken.lookup
  have before := (sound_lookup (sound_counting sound _) taken.lookup).addressed
  have consistent := before.torrents torrent member
  obtain ⟨swarm, told⟩ := announce_refines consistent looked.next pe ctx.event.bytes
  have listing : look (viewOf tl) (nameOf env.db ctx.infoHash) =
      some (viewOf looked, torrentKey torrent.val, swarmOf torrent.val) := found
  rw [step_announced _ _ listing, ← swarm]
  refine ⟨(view_modify before.distinct listed ?_).symm, fun fits => ?_⟩
  · rw [torrentKey, announce_infoHash, torrentKey]
  dsimp only at fits ⊢
  -- nothing is written by an announce that starts, stops and completes nobody
  rcases told with ⟨none, silent⟩ | ⟨some, speaks⟩
  · rw [none, Option.elim_none]
    rw [silent] at wrote
    cases wrote
    exact .silent empty
  · rw [some, Option.elim_some] at fits ⊢
    have printed := printed_consistent consistent pe ctx.event.bytes
    rw [speaks] at wrote
    obtain ⟨same, appended, holds⟩ := speaks_holds unset empty (.peers _) (roomy_of_fits printed fits)
    cases appended.symm.trans wrote
    rw [← swarm_dict] at holds
    exact .told _ _ rfl holds

/-- An announce, from its entries to the body of its answer. -/
theorem announce_step {env : Environment} {unset : Unset} {tl after : TorrentList} {job : Job}
    {out written : Buffer} (old : Nat → UInt8) (sound : Sound tl) (empty : Holds out [])
    (ran : jobHandleAnnounceOut env unset tl job out = .ok (after, some written)) :
    ∃ r, announceOf env job = some r ∧ Sound after ∧
      (step PeerEntry.endpoint whole (viewOf tl) r).1 = viewOf after ∧
        (Fits (step PeerEntry.endpoint whole (viewOf tl) r).2 →
          Written old written (step PeerEntry.endpoint whole (viewOf tl) r).2) := by
  obtain ⟨reply, returned⟩ := announced_returns ran
  have handled := handler_cases returned
  have kept := sound_handled sound handled
  cases handled with
  | rejected ctx error built found =>
      have short := length_error_text error
      rw [out_of_built built, found] at ran
      obtain ⟨same, wrote, holds⟩ := generic_failure_holds unset empty (errorText error) (by omega)
      simp only [wrote, Except.ok.injEq, Prod.mk.injEq, Option.some.injEq, true_and] at ran
      subst ran
      rw [← encode_failure _ (by omega)] at holds
      refine ⟨.invalid (errorText error), ?_, kept, rfl, fun _ => .told _ _ rfl holds⟩
      simp [announceOf, built, Except.toOption, found]
  | unknown ctx built sane missed refused =>
      rw [out_of_built built, sane, returned] at ran
      obtain ⟨-, wrote⟩ := Prod.mk.inj (Except.ok.inj ran)
      obtain ⟨same, appended, holds⟩ := speaks_holds unset empty .missingHash fun _ same => by cases same
      cases appended.symm.trans wrote
      have looked : look (viewOf tl) (nameOf env.db ctx.infoHash) = none :=
        (lookup_unknown (.unknown missed refused)).2
      refine ⟨.announce (nameOf env.db ctx.infoHash) (peerOf job.clientaddr ctx).toOption
        (eventOf ctx.event.bytes), by simp [announceOf, built, Except.toOption, sane], kept, ?_⟩
      rw [step_unknown _ _ looked]
      exact ⟨rfl, fun _ => .told _ _ rfl holds⟩
  | accepted ctx pe looked torrent taken =>
      rw [out_of_built taken.built, taken.sane, returned] at ran
      obtain ⟨-, wrote⟩ := Prod.mk.inj (Except.ok.inj ran)
      obtain ⟨viewed, told⟩ := accepted_step old sound empty taken wrote rfl
      refine ⟨_, ?_, kept, viewed, told⟩
      simp [announceOf, taken.built, Except.toOption, taken.sane, taken.peer]

/-- A scrape, from its entries to the body of its answer. -/
theorem scrape_step {env : Environment} {unset : Unset} {old : Nat → UInt8}
    {fresh : Nat → FreshHash} {tl after : TorrentList} {list : List HttpUriKv} {out written : Buffer}
    (sound : Sound tl) (empty : out.cursor = 0) (some_pair : list ≠ []) (few : list.length < 2 ^ 24)
    (ran : jobHandleScrapeOut env unset old tl list fresh out = .ok (after, some written)) :
    Sound after ∧
      (step PeerEntry.endpoint whole (viewOf tl) (scrapeOf env list fresh)).1 = viewOf after ∧
        (Fits (step PeerEntry.endpoint whole (viewOf tl) (scrapeOf env list fresh)).2 →
          Written old written (step PeerEntry.endpoint whole (viewOf tl) (scrapeOf env list fresh)).2) := by
  cases ended : jobHandleScrape env tl list fresh with
  | error fault => simp [jobHandleScrapeOut, ended, Except.map] at ran
  | ok both =>
  obtain ⟨all, s⟩ := both
  have looped := ended
  unfold jobHandleScrape at looped
  cases looked : scrapeHashes env.db (httpBuildPeerReqHashList env.curl list fun i => (fresh i).mem)
      ⟨torrentListWorkon tl, [], []⟩ with
  | error fault => simp [looked, Except.map] at looped
  | ok result =>
  obtain ⟨_, t⟩ := result
  simp only [looked, Except.map, Except.ok.injEq, Prod.mk.injEq] at looped
  obtain ⟨rfl, rfl⟩ := looped
  obtain ⟨kept, viewed, collected⟩ := scrape_refines [] (sound_counting sound _) rfl looked
  rw [scrapeOf, step_scrape]
  change (scrape (viewOf tl) _ []).1 = _ at viewed
  change Ended _ _ (scrape (viewOf tl) _ []).2 at collected
  generalize scrape (viewOf tl) ((httpBuildPeerReqHashList env.curl list fun i =>
    (fresh i).mem).map (nameOf env.db)) [] = result at viewed collected ⊢
  obtain ⟨seen, answer⟩ := result
  dsimp only at viewed collected ⊢
  have left : after = torrentListJobdone t.tl := by
    simp only [jobHandleScrapeOut, ended, Except.map] at ran
    exact (Prod.mk.inj (Except.ok.inj ran)).1.symm
  subst left
  refine ⟨sound_counting kept _, viewed, fun fits => ?_⟩
  -- a failure is written whatever was collected, the entries need the counters to be C ints
  generalize isEntries : t.sctx = sctx at collected
  cases collected with
  | unknown =>
      obtain ⟨-, holds⟩ := scrape_out_holds empty some_pair few ended (by simp) ran
      exact .told _ _ rfl holds
  | whole found =>
      rw [Option.elim_some] at fits ⊢
      have ints : ∀ se ∈ t.sctx, IntCounters se := by
        rw [isEntries]
        exact List.forall_mem_map.mpr fits
      obtain ⟨-, holds⟩ := scrape_out_holds empty some_pair few ended (fun _ => ints) ran
      simp only [if_true, isEntries] at holds
      exact .told _ _ rfl holds

/-! ## Connections -/

/-- What a connection changes and is told is what its request does to the swarms. -/
theorem serve_refines {env : Environment} {tl after : TorrentList} {c : Connection}
    {served : ServedRequests.Served} (sound : Sound tl) (ran : serve env tl c = some (after, served)) :
    ∃ r, requestOf env c = some r ∧ Sound after ∧
      (step PeerEntry.endpoint whole (viewOf tl) r).1 = viewOf after ∧
        (Fits (step PeerEntry.endpoint whole (viewOf tl) r).2 →
          Heard c.old served (step PeerEntry.endpoint whole (viewOf tl) r).2) := by
  unfold serve at ran
  unfold requestOf
  cases asked : requested c with
  | none =>
      simp only [asked] at ran
      cases ran
      exact ⟨.unread, rfl, sound, rfl, fun _ => .closed⟩
  | some request =>
  obtain ⟨b, jobT⟩ := request
  obtain ⟨_, -, -, -, chosen⟩ := requested_holds asked
  simp only [asked] at ran ⊢
  obtain ⟨result, parsed, ran⟩ := Option.bind_eq_some_iff.mp ran
  simp only [parsed, Option.bind_eq_bind, Option.bind_some]
  -- a refused query is answered by the request thread itself
  rcases parsed_ret parsed with ret | ret
  · rw [if_pos ret] at ran ⊢
    obtain ⟨message, sent, same⟩ := Option.bind_eq_some_iff.mp ran
    cases same
    exact ⟨.refused, rfl, sound, rfl, fun _ => .refused message (http_error_reads c sent)⟩
  have accepted : ¬ result.ret = -1 := by omega
  rw [if_neg accepted] at ran ⊢
  obtain ⟨⟨left, wrote⟩, worked, ran⟩ := Option.bind_eq_some_iff.mp ran
  obtain ⟨out, rfl, ran⟩ := Option.bind_eq_some_iff.mp ran
  obtain ⟨message, built, same⟩ := Option.bind_eq_some_iff.mp ran
  cases same
  -- an accepted one becomes a job, whose answer is a 200
  have process := to_option_ok worked
  cases jobT with
  | stop => exact absurd rfl (job_not_stop chosen)
  | announce =>
      obtain ⟨r, request, kept, viewed, written⟩ :=
        announce_step c.old sound (empty_holds c.out.empty) (announce_processed process).1
      exact ⟨r, request, kept, viewed, fun fits =>
        written_heard c.unset c.response.empty (written fits) built⟩
  | scrape =>
      obtain ⟨some_pair, few⟩ := scraped_pairs asked parsed ret
      obtain ⟨kept, viewed, written⟩ := scrape_step sound c.out.empty some_pair few process
      exact ⟨_, rfl, kept, viewed, fun fits =>
        written_heard c.unset c.response.empty (written fits) built⟩

/-! ## Runs -/

/-- Connections one after the other, and what is sent to each. -/
def serveRun (env : Environment) :
    TorrentList → List Connection → Option (TorrentList × List ServedRequests.Served)
  | tl, [] => some (tl, [])
  | tl, c :: rest => do
      let (tl, served) ← serve env tl c
      let (tl, others) ← serveRun env tl rest
      some (tl, served :: others)

theorem serve_run_cons {env : Environment} {tl after : TorrentList} {c : Connection}
    {rest : List Connection} {messages : List ServedRequests.Served}
    (ran : serveRun env tl (c :: rest) = some (after, messages)) :
    ∃ middle served others, serve env tl c = some (middle, served) ∧
      serveRun env middle rest = some (after, others) ∧ messages = served :: others := by
  obtain ⟨⟨middle, served⟩, first, ran⟩ := Option.bind_eq_some_iff.mp ran
  obtain ⟨⟨last, others⟩, second, ran⟩ := Option.bind_eq_some_iff.mp ran
  cases ran
  exact ⟨middle, served, others, first, second, rfl⟩

def Asks (env : Environment) (cs : List Connection) (rs : List Asked) : Prop :=
  List.Forall₂ (fun c r => requestOf env c = some r) cs rs

/-- These requests, on the swarms. -/
def runSwarms (t : Tracker Key PeerEntry) (rs : List Asked) : Tracker Key PeerEntry × List Answer :=
  run PeerEntry.endpoint whole t rs

def HeardIfFits (sent : Connection × ServedRequests.Served) (answer : Answer) : Prop :=
  Fits answer → Heard sent.1.old sent.2 answer

theorem run_refines {env : Environment} {tl after : TorrentList} {cs : List Connection}
    {messages : List ServedRequests.Served} (sound : Sound tl)
    (ran : serveRun env tl cs = some (after, messages)) :
    ∃ rs, Asks env cs rs ∧ Sound after ∧
      (runSwarms (viewOf tl) rs).1 = viewOf after ∧
        List.Forall₂ HeardIfFits (cs.zip messages) (runSwarms (viewOf tl) rs).2 := by
  induction cs generalizing tl messages with
  | nil =>
      cases ran
      exact ⟨[], .nil, sound, rfl, .nil⟩
  | cons c rest ih =>
      obtain ⟨middle, served, others, first, second, rfl⟩ := serve_run_cons ran
      obtain ⟨r, request, kept, viewed, heard⟩ := serve_refines sound first
      obtain ⟨rs, requests, done, ends, answered⟩ := ih kept second
      have unfolded : runSwarms (viewOf tl) (r :: rs) =
          ((runSwarms (viewOf middle) rs).1,
            (step PeerEntry.endpoint whole (viewOf tl) r).2 :: (runSwarms (viewOf middle) rs).2) := by
        rw [← viewed]
        rfl
      refine ⟨r :: rs, .cons request requests, done, ?_, ?_⟩
      · rw [unfolded]
        exact ends
      · rw [unfolded]
        exact .cons heard answered

theorem pair_at {α β : Type} {R : α → β → Prop} {xs : List α} {ys : List β}
    (pairs : List.Forall₂ R xs ys) {i : Nat} {y : β} (here : ys[i]? = some y) :
    ∃ x, xs[i]? = some x ∧ R x y := by
  induction pairs generalizing i with
  | nil => simp at here
  | cons first _ ih =>
      cases i with
      | zero =>
          obtain rfl : _ = y := Option.some.inj here
          exact ⟨_, rfl, first⟩
      | succ i => exact ih here

/-- An accepted announce asks for the padded digits it keeps. -/
theorem accepted_clean {curl : Unescape} {list : List HttpUriKv} {ctx : PeerReq}
    (built : httpBuildPeerReq curl list = .ok ctx) (sane : sanitizePeerReq ctx = none) :
    ctx.infoHash.take torrentHashLen = strncpy torrentHashLen ctx.infoHash := by
  obtain ⟨h, -, key, string⟩ := accepted_key built sane
  exact key.trans (strncpy_congr _ _ _ (by rw [string, cstr_self _ (hex_text_nul_free h.bytes)]))

/-- The requests that connections make. -/
inductive Requested (env : Environment) : Asked → Prop where
  | unread : Requested env .unread
  | refused : Requested env .refused
  | invalid (reason : List UInt8) : Requested env (.invalid reason)
  | announce (list : List HttpUriKv) (ctx : PeerReq) (peer : Option PeerEntry)
      (built : httpBuildPeerReq env.curl list = .ok ctx) (sane : sanitizePeerReq ctx = none) :
      Requested env (.announce (nameOf env.db ctx.infoHash) peer (eventOf ctx.event.bytes))
  | scrape (list : List HttpUriKv) (fresh : Nat → FreshHash) : Requested env (scrapeOf env list fresh)

theorem announce_requested {env : Environment} {job : Job} {r : Asked}
    (request : announceOf env job = some r) : Requested env r := by
  obtain ⟨ctx, made, request⟩ := Option.bind_eq_some_iff.mp request
  cases sane : sanitizePeerReq ctx with
  | some error =>
      simp only [sane] at request
      cases request
      exact .invalid (errorText error)
  | none =>
      simp only [sane] at request
      cases request
      exact .announce job.httpKvList ctx _ (to_option_ok made) sane

theorem request_cases {env : Environment} {c : Connection} {r : Asked}
    (request : requestOf env c = some r) : Requested env r := by
  unfold requestOf at request
  cases asked : requested c with
  | none =>
      simp only [asked] at request
      cases request
      exact .unread
  | some both =>
  obtain ⟨b, jobT⟩ := both
  simp only [asked] at request
  obtain ⟨result, -, request⟩ := Option.bind_eq_some_iff.mp request
  split at request
  · cases request
    exact .refused
  cases jobT with
  | stop =>
      cases request
      exact .unread
  | announce => exact announce_requested request
  | scrape =>
      cases request
      exact .scrape result.head c.fresh

theorem request_clean {env : Environment} {c : Connection} {r : Asked}
    (request : requestOf env c = some r) : Clean r := by
  intro n peer event same
  cases request_cases request with
  | announce list ctx peer built sane =>
      cases same
      exact accepted_clean built sane
  | unread | refused | invalid | scrape => cases same

/-- The connection is an accepted start of this peer for this key. -/
def Starts (env : Environment) (c : Connection) (k : Key) (pe : PeerEntry) : Prop :=
  ∃ n, requestOf env c = some (.announce n (some pe) .start) ∧ n.kept = k

theorem started_connection {env : Environment} {cs : List Connection} {rs : List Asked}
    (asks : Asks env cs rs) {k : Key} {pe : PeerEntry} {i : Nat}
    (started : Started (rs.take (i + 1)) k pe) :
    ∃ j ≤ i, ∃ c, cs[j]? = some c ∧ Starts env c k pe := by
  obtain ⟨n, member, kept⟩ := started
  obtain ⟨j, bound, here⟩ := List.mem_take_iff_getElem.mp member
  have there : rs[j]? = some (.announce n (some pe) .start) :=
    List.getElem?_eq_some_iff.mpr ⟨by omega, here⟩
  obtain ⟨c, listed, request⟩ := pair_at asks there
  exact ⟨j, by omega, c, listed, n, request, kept⟩

theorem request_names {env : Environment} {c : Connection} {r : Asked}
    (request : requestOf env c = some r) : ∀ n ∈ names r, ∃ infoHash, n = nameOf env.db infoHash := by
  intro n member
  cases request_cases request with
  | announce list ctx peer built sane => exact ⟨ctx.infoHash, List.mem_singleton.mp member⟩
  | scrape list fresh =>
      obtain ⟨infoHash, -, same⟩ := List.mem_map.mp member
      exact ⟨infoHash, same.symm⟩
  | unread | refused | invalid => exact absurd member List.not_mem_nil

/-- What is not a string and zeros is no torrent's key. -/
theorem dirty_unlisted {tl : TorrentList} (sound : Sound tl) {k : Key}
    (dirty : strncpy torrentHashLen k ≠ k) : viewOf tl k = none := by
  refine view_missed (List.find?_eq_none.mpr fun te member hit => ?_)
  have same : torrentKey te.val = k := by simpa using hit
  rw [sound_key sound member] at same
  exact dirty (same ▸ sound.keys te member)

/-- Every peer an announce for the key is told of was brought by a start for the key, on a
connection up to this one. -/
def ToldStarted (env : Environment) (cs : List Connection) (answers : List Answer) (k : Key) : Prop :=
  ∀ (i : Nat) c n peer event (s : Swarm PeerEntry), cs[i]? = some c →
    requestOf env c = some (.announce n peer event) → n.kept = k →
      answers[i]? = some (Told.swarm s) →
        ∀ pe ∈ s.peers, ∃ j ≤ i, ∃ c', cs[j]? = some c' ∧ Starts env c' k pe

theorem told_started {env : Environment} {cs : List Connection} {rs : List Asked}
    {t : Tracker Key PeerEntry} {k : Key} (asks : Asks env cs rs)
    (empty : ∀ s, t k = some s → s.peers = []) : ToldStarted env cs (runSwarms t rs).2 k := by
  intro i c n peer event s here request kept told
  have clean : ∀ r ∈ rs, Clean r := by
    intro r member
    obtain ⟨j, there⟩ := List.mem_iff_getElem?.mp member
    obtain ⟨c', -, asked⟩ := pair_at asks there
    exact request_clean asked
  have honest : Honest ([] : List Asked) k t := by
    intro s listed pe member
    rw [empty s listed] at member
    contradiction
  obtain ⟨r, there, same⟩ := pair_at asks.flip here
  obtain rfl : r = .announce n peer event := Option.some.inj (same.symm.trans request)
  have answers := (run_honest PeerEntry.endpoint whole clean honest).2 i _ _ there told n peer event s rfl kept rfl
  exact fun pe member => started_connection asks (answers pe member)

/-! ## Torrents apart -/

theorem in_database_congr {db : Database} {a b : List UInt8} (same : cstr a = cstr b) :
    InDatabase db a ↔ InDatabase db b := by
  rw [InDatabase, InDatabase, lookup_sql_congr a b same]

/-- The string of a key the database knows ends inside the 256 bytes. -/
theorem in_database_short {db : Database} {infoHash : List UInt8} (known : InDatabase db infoHash) :
    (cstr infoHash).length < torrentHashLen := by
  have fits := known.1
  have room : queryLen = torrentHashLen := rfl
  rw [length_lookup_sql] at fits
  omega

/-- Keys that are kept: a string the database knows, and zeros. -/
def KeyOf (db : Database) (k : Key) : Prop := InDatabase db k ∧ strncpy torrentHashLen k = k

theorem asked_string {db : Database} {infoHash : List UInt8}
    (known : InDatabase db (infoHash.take torrentHashLen)) :
    cstr (infoHash.take torrentHashLen) = cstr infoHash := by
  have short := in_database_short known
  rw [cstr_take, List.length_take] at short
  rw [cstr_take, List.take_of_length_le (by omega)]

theorem name_fair (db : Database) (infoHash : List UInt8) : Fair (KeyOf db) (nameOf db infoHash) := by
  refine ⟨fun known => ?_, fun asked => ?_, fun asked => ?_⟩
  · have inDatabase : InDatabase db infoHash := by simpa [nameOf] using known
    have string : cstr (strncpy torrentHashLen infoHash) = cstr infoHash := by
      rw [cstr_strncpy, List.take_of_length_le (in_database_short inDatabase).le]
    exact ⟨(in_database_congr string).mpr inDatabase, strncpy_padded _ _⟩
  · have string := asked_string asked.1
    simpa [nameOf] using (in_database_congr string).mp asked.1
  · calc infoHash.take torrentHashLen = strncpy torrentHashLen (infoHash.take torrentHashLen) :=
        asked.2.symm
      _ = strncpy torrentHashLen infoHash := strncpy_congr _ _ _ (asked_string asked.1)

theorem asks_fair {env : Environment} {cs : List Connection} {rs : List Asked}
    (asks : Asks env cs rs) : ∀ r ∈ rs, ∀ n ∈ names r, Fair (KeyOf env.db) n := by
  intro r member n named
  obtain ⟨i, here⟩ := List.mem_iff_getElem?.mp member
  obtain ⟨c, -, request⟩ := pair_at asks here
  obtain ⟨infoHash, rfl⟩ := request_names request n named
  exact name_fair env.db infoHash

/-- Two runs whose requests for a key are the same leave the same under it, and an announce
for it after the same requests for it is told the same. -/
structure AlikeFor (k : Key) (rs rs' : List Asked) (after after' : TorrentList) : Prop where
  left : ((rs.filter fun r => Names k r) = rs'.filter fun r => Names k r) →
    viewOf after k = viewOf after' k
  told : ∀ (i j : Nat) n peer event, rs[i]? = some (.announce n peer event) →
    rs'[j]? = some (.announce n peer event) → n.kept = k →
      (((rs.take i).filter fun r => Names k r) = (rs'.take j).filter fun r => Names k r) →
        (runSwarms (fun _ => none) rs).2[i]? = (runSwarms (fun _ => none) rs').2[j]?

theorem asks_alike {env : Environment} {cs cs' : List Connection} {rs rs' : List Asked}
    {after after' : TorrentList} (asks : Asks env cs rs) (asks' : Asks env cs' rs')
    (ends : (runSwarms (fun _ => none) rs).1 = viewOf after)
    (ends' : (runSwarms (fun _ => none) rs').1 = viewOf after') (k : Key) :
    AlikeFor k rs rs' after after' := by
  have backed : Backed (KeyOf env.db) (fun _ => none : Tracker Key PeerEntry) :=
    fun _ _ listed => by cases listed
  refine ⟨fun same => ?_, ?_⟩
  · rw [← ends, ← ends']
    exact runs_agree PeerEntry.endpoint whole backed (asks_fair asks) (asks_fair asks') same
  · rintro i j n peer event asked asked' rfl same
    exact answers_agree PeerEntry.endpoint whole backed (asks_fair asks) (asks_fair asks') asked
      asked' same

/-! ## What clients are told -/

/-- A start announce for the hash of twenty of this byte. -/
def startQuery (c : UInt8) : List UInt8 :=
  getAnnounce ++ ascii ['?'] ++ queryOf [(infoHashKey, List.replicate 20 c),
    (peerIdKey, ascii ['p']), (portKey, ascii ['6', '8', '8', '1']), (uploadedKey, ascii ['0']),
    (downloadedKey, ascii ['0']), (leftKey, ascii ['5']), (eventKey, eventStart)] ++
    ascii [' '] ++ http11 ++ [13, 10]

def startAnnounce : Connection :=
  { knownScrape with received := some (startQuery 104), read := by decide +kernel }

def otherAnnounce : Connection :=
  { knownScrape with received := some (startQuery 105), read := by decide +kernel }

theorem sample_survives :
    (serveRun sampleEnv .empty [startAnnounce, knownScrape, startAnnounce]).isSome := by
  decide +kernel

theorem apart_survives :
    (serveRun sampleEnv .empty [startAnnounce, otherAnnounce, startAnnounce]).isSome := by
  decide +kernel

section Clients
variable (env : Environment) (cs : List Connection) (after : TorrentList)
  (messages : List ServedRequests.Served)

/-- Nobody is told of a peer that no accepted start of the torrent brought. -/
theorem told_peers_started (ran : serveRun env .empty cs = some (after, messages)) :
    ∃ rs, Asks env cs rs ∧
      List.Forall₂ HeardIfFits (cs.zip messages) (runSwarms (fun _ => none) rs).2 ∧
        ∀ k, ToldStarted env cs (runSwarms (fun _ => none) rs).2 k := by
  obtain ⟨rs, asks, -, -, heard⟩ := run_refines sound_empty ran
  exact ⟨rs, asks, heard, fun k => told_started asks fun s listed => by cases listed⟩

theorem told_peers_started_start : ∃ messages rs,
    Asks sampleEnv [startAnnounce, knownScrape, startAnnounce] rs ∧
      List.Forall₂ HeardIfFits ([startAnnounce, knownScrape, startAnnounce].zip messages)
        (runSwarms (fun _ => none) rs).2 ∧
        ∀ k, ToldStarted sampleEnv [startAnnounce, knownScrape, startAnnounce]
          (runSwarms (fun _ => none) rs).2 k := by
  obtain ⟨⟨after, messages⟩, ran⟩ := Option.isSome_iff_exists.mp sample_survives
  exact ⟨messages, told_peers_started sampleEnv _ after messages ran⟩

variable (cs' : List Connection) (after' : TorrentList) (messages' : List ServedRequests.Served)

/-- What is left of a torrent, and what an announce for it is told, does not depend on the
connections that ask for others. -/
theorem torrents_apart (ran : serveRun env .empty cs = some (after, messages))
    (ran' : serveRun env .empty cs' = some (after', messages')) :
    ∃ rs rs', Asks env cs rs ∧ Asks env cs' rs' ∧
      List.Forall₂ HeardIfFits (cs.zip messages) (runSwarms (fun _ => none) rs).2 ∧
        List.Forall₂ HeardIfFits (cs'.zip messages') (runSwarms (fun _ => none) rs').2 ∧
          ∀ k, AlikeFor k rs rs' after after' := by
  obtain ⟨rs, asks, -, ends, heard⟩ := run_refines sound_empty ran
  obtain ⟨rs', asks', -, ends', heard'⟩ := run_refines sound_empty ran'
  exact ⟨rs, rs', asks, asks', heard, heard', asks_alike asks asks' ends ends'⟩

theorem torrents_apart_start : ∃ messages messages' after after' rs rs',
    serveRun sampleEnv .empty [startAnnounce, otherAnnounce, startAnnounce] = some (after, messages) ∧
      serveRun sampleEnv .empty [startAnnounce, knownScrape, startAnnounce] = some (after', messages') ∧
        Asks sampleEnv [startAnnounce, otherAnnounce, startAnnounce] rs ∧
          Asks sampleEnv [startAnnounce, knownScrape, startAnnounce] rs' ∧
            ∀ k, AlikeFor k rs rs' after after' := by
  obtain ⟨⟨after, messages⟩, ran⟩ := Option.isSome_iff_exists.mp apart_survives
  obtain ⟨⟨after', messages'⟩, ran'⟩ := Option.isSome_iff_exists.mp sample_survives
  obtain ⟨rs, rs', asks, asks', -, -, alike⟩ :=
    torrents_apart sampleEnv _ after messages _ after' messages' ran ran'
  exact ⟨messages, messages', after, after', rs, rs', ran, ran', asks, asks', alike⟩

variable (tl scraped : TorrentList) (earlier : List ServedRequests.Served) (c : Connection)
  (served : ServedRequests.Served) (names : List (Name Key)) (n : Name Key)
  (later : List Connection)

/-- A scrape of known torrents whose key for one was allocated dirty hides this torrent: the
peers that came before it are told to nobody any more. -/
theorem dirty_scrape_forgets (before : serveRun env .empty cs = some (tl, earlier))
    (scrape : serve env tl c = some (scraped, served))
    (request : requestOf env c = some (.scrape names)) (known : ∀ m ∈ names, m.known = true)
    (named : n ∈ names) (dirty : strncpy torrentHashLen n.asked ≠ n.asked)
    (ran : serveRun env scraped later = some (after, messages)) :
    ∃ rs, Asks env later rs ∧
      List.Forall₂ HeardIfFits (later.zip messages) (runSwarms (viewOf scraped) rs).2 ∧
        ToldStarted env later (runSwarms (viewOf scraped) rs).2 n.kept := by
  obtain ⟨-, -, sound, -, -⟩ := run_refines sound_empty before
  obtain ⟨r, asked, kept, viewed, -⟩ := serve_refines sound scrape
  obtain rfl : r = .scrape names := Option.some.inj (asked.symm.trans request)
  -- no swarm is kept under the key that is searched for, before or while the scrape runs
  have apart : ∀ m ∈ names, n.asked ≠ m.kept := by
    intro m member same
    obtain ⟨infoHash, rfl⟩ := request_names request m member
    exact dirty (same ▸ strncpy_padded torrentHashLen infoHash)
  have forgotten : viewOf scraped n.kept = some .empty := by
    rw [← viewed, step_scrape]
    exact scrape_forgets known named (dirty_unlisted sound dirty) apart []
  obtain ⟨rs, asks, -, -, heard⟩ := run_refines kept ran
  have empty : ∀ s, viewOf scraped n.kept = some s → s.peers = [] := by
    intro s listed
    cases forgotten.symm.trans listed
    rfl
  exact ⟨rs, asks, heard, told_started asks empty⟩

theorem dirty_scrape_forgets_start : ∃ scraped messages rs, Asks sampleEnv [startAnnounce] rs ∧
    List.Forall₂ HeardIfFits ([startAnnounce].zip messages) (runSwarms (viewOf scraped) rs).2 ∧
      ToldStarted sampleEnv [startAnnounce] (runSwarms (viewOf scraped) rs).2
        (nameOf sampleEnv.db (urlDecode .total SharedTorrents.dirtyMemory.mem (List.replicate 20 104))).kept := by
  obtain ⟨⟨after, messages⟩, ran⟩ := Option.isSome_iff_exists.mp sample_survives
  obtain ⟨tl, first, _, announced, ran, -⟩ := serve_run_cons ran
  obtain ⟨scraped, served, others, scrape, ran, -⟩ := serve_run_cons ran
  have before : serveRun sampleEnv .empty [startAnnounce] = some (tl, [first]) := by
    rw [serveRun, announced]
    rfl
  have request : requestOf sampleEnv knownScrape = some (.scrape
      [nameOf sampleEnv.db (urlDecode .total SharedTorrents.dirtyMemory.mem (List.replicate 20 104))]) := by
    decide +kernel
  exact ⟨scraped, others, dirty_scrape_forgets sampleEnv [startAnnounce] after others tl scraped [first]
    knownScrape served _ _ [startAnnounce] before scrape request (by decide +kernel)
    List.mem_cons_self (by decide +kernel) ran⟩

end Clients

end Ttracker.TrackerRefinement
