import Ttracker.AnnounceHandler
import Mathlib.Logic.Function.Basic

/-!
What the announces mean: a map from (info hash, ip, port) to the peer id and the
`left` of the announce that added the peer. The nested lists of the tracker
refine it over every sequence of jobs.
-/
namespace Ttracker.AnnouncedPeers
open CLibrary LinkedNodes HttpQuery PeerRequest Torrents TorrentCache AnnounceHandler

/-! ## The abstract map -/

abbrev Endpoint := CString 15 × Int

/-- The peer id and `left` a peer was added with. -/
abbrev Stored := List UInt8 × Int

abbrev PeerMap := InfoHash × Endpoint → Option Stored

structure Announcement where
  key : InfoHash × Endpoint
  stored : Stored
  event : List UInt8

/-- A start adds an absent peer, a stop deletes a present one. -/
def join {Key : Type} [DecidableEq Key] (map : Key → Option Stored) (key : Key) (stored : Stored)
    (event : List UInt8) : Key → Option Stored :=
  match map key with
  | none => if event = eventStart then Function.update map key (some stored) else map
  | some _ => if event = eventStop then Function.update map key none else map

/-- What a job says, when the tracker accepts it. -/
def announcementOf (env : Environment) (job : Job) : Option Announcement :=
  match httpBuildPeerReq env.curl job.httpKvList with
  | .error _ => none
  | .ok ctx =>
      if sanitizePeerReq ctx = none ∧ env.db (lookupSql ctx.infoHash) ≠ -1 then
        (announcedHash env.curl job.httpKvList).map fun h =>
          ⟨(h, getPeerInfo job.clientaddr, ctx.port), (ctx.peerId.bytes, ctx.left.toInt),
            ctx.event.bytes⟩
      else none

def announce (env : Environment) (map : PeerMap) (job : Job) : PeerMap :=
  (announcementOf env job).elim map fun a => join map a.key a.stored a.event

/-! ## What the lists say -/

def PeerEntry.stored (pe : PeerEntry) : Stored := (pe.peerId.bytes, pe.left)

def storedAt (peers : List (Node PeerEntry)) (endpoint : Endpoint) : Option Stored :=
  (peers.find? fun pp => pp.val.endpoint == endpoint).map fun pp => PeerEntry.stored pp.val

def peersOf (list : List (Node TorrentEntry)) (h : InfoHash) : List (Node PeerEntry) :=
  (list.find? fun te => te.val.infoHash == hashKey h).elim [] fun te => te.val.peers

def mapOf (tl : TorrentList) : PeerMap := fun key => storedAt (peersOf tl.list key.1) key.2

/-! ## One torrent's peers -/

theorem stored_insert (te : TorrentEntry) (node : Node PeerEntry) :
    storedAt (insertPeer te node).peers =
      Function.update (storedAt te.peers) node.val.endpoint (some (PeerEntry.stored node.val)) := by
  funext endpoint
  by_cases same : endpoint = node.val.endpoint
  · simp [same, storedAt, insertPeer]
  · have other : ¬ (node.val.endpoint == endpoint) = true := by
      rw [beq_iff_eq]
      exact fun equal => same equal.symm
    simp [same, storedAt, insertPeer, other]

theorem stored_remove {te : TorrentEntry} {next : Nat} (consistent : Consistent te next)
    {pp : Node PeerEntry} (member : pp ∈ te.peers) :
    storedAt (torrentRemovePeer te pp).peers =
      Function.update (storedAt te.peers) pp.val.endpoint none := by
  funext endpoint
  have search := search_key_remove PeerEntry.endpoint endpoint pp te.peers consistent.distinct
    consistent.endpoints member
  simp only [storedAt, torrentRemovePeer, search]
  by_cases same : endpoint = pp.val.endpoint
  · simp [same]
  · have other : ¬ (pp.val.endpoint == endpoint) = true := by
      rw [beq_iff_eq]
      exact fun equal => same equal.symm
    simp [same, other, storedAt]

/-- The handler's branches do to one torrent's peers what `join` says. -/
theorem announce_joins {te : TorrentEntry} {next : Nat} (consistent : Consistent te next)
    (pe : PeerEntry) (event : List UInt8) (known : event ∈ knownEvents) :
    storedAt (announcePeer te next pe event).1.peers =
      join (storedAt te.peers) pe.endpoint (PeerEntry.stored pe) event := by
  obtain ⟨start, stop, _⟩ := event_actions event known
  cases searched : peerSearchPeer pe te.peers with
  | none =>
      have absent : storedAt te.peers pe.endpoint = none := by
        rw [storedAt, Option.map_eq_none_iff]
        exact searched
      simp only [join, absent]
      by_cases wants : event = eventStart
      · have added : (announcePeer te next pe event).1 = insertPeer te ⟨next, pe⟩ := by
          simp [announcePeer, searched, start.mpr wants, torrentAddPeerAndReturnList]
        rw [added, if_pos wants, stored_insert]
      · have same : (announcePeer te next pe event).1 = te := by
          simp [announcePeer, searched, start, wants]
        rw [same, if_neg wants]
  | some pp =>
      have member := search_mem searched
      have endpoint : pp.val.endpoint = pe.endpoint := by simpa using List.find?_some searched
      have present : storedAt te.peers pe.endpoint = some (PeerEntry.stored pp.val) := by
        rw [storedAt, Option.map_eq_some_iff]
        exact ⟨pp, searched, rfl⟩
      simp only [join, present]
      by_cases stops : event = eventStop
      · have removed : (announcePeer te next pe event).1 = torrentRemovePeer te pp := by
          simp [announcePeer, searched, stop.mpr stops, torrentUpdatePeerAndReturnList]
        rw [removed, if_pos stops, stored_remove consistent member, endpoint]
      · have same : (announcePeer te next pe event).1.peers = te.peers := by
          simp [announcePeer, searched, stop, stops]
        rw [same, if_neg stops]

/-! ## The list of torrents -/

theorem peers_of_member {tl : TorrentList} (kept : Kept tl) {te : Node TorrentEntry} {h : InfoHash}
    (member : te ∈ tl.list) (key : te.val.infoHash = hashKey h) :
    peersOf tl.list h = te.val.peers := by
  have found := (search_key_iff TorrentEntry.infoHash (hashKey h) tl.list kept.keys te).mpr
    ⟨member, key⟩
  rw [peersOf, found]
  rfl

theorem peers_of_insert (list : List (Node TorrentEntry)) (torrent : Node TorrentEntry)
    (h : InfoHash) (key : torrent.val.infoHash = hashKey h) (empty : torrent.val.peers = [])
    (absent : list.find? (fun te => te.val.infoHash == hashKey h) = none) :
    peersOf (torrent :: list) = peersOf list := by
  funext other
  by_cases same : other = h
  · subst same
    simp [peersOf, key, absent, empty]
  · have miss : ¬ (hashKey h == hashKey other) = true := by
      rw [beq_iff_eq]
      exact fun equal => same (hash_key_injective h other equal).symm
    simp [peersOf, key, miss]

/-- A lookup that inserts adds a torrent without peers, as if it had been there. -/
theorem peers_of_looked {db : Database} {infoHash : List UInt8} {h : InfoHash}
    {tl looked : TorrentList} {torrent : Node TorrentEntry} (kept : Kept tl)
    (key : infoHash.take torrentHashLen = hashKey h)
    (fresh : torrent.val.infoHash = hashKey h)
    (lookup : Lookup db infoHash (torrentListWorkon tl) looked (some torrent)) :
    peersOf looked.list = peersOf tl.list := by
  cases lookup with
  | hit te found => rfl
  | inserted missed fits known =>
      apply peers_of_insert tl.list _ h fresh rfl
      rw [List.find?_eq_none]
      intro te member hit
      refine (do_lookup_absent_iff _ _).mp missed te member ?_
      rw [kept_take kept member, beq_iff_eq.mp hit, key]

theorem peers_of_modify {tl : TorrentList} (kept : Kept tl) {torrent : Node TorrentEntry}
    {h : InfoHash} (member : torrent ∈ tl.list) (key : torrent.val.infoHash = hashKey h)
    (te : TorrentEntry) (same : te.infoHash = torrent.val.infoHash) :
    peersOf (modifyAt torrent.addr (fun _ => te) tl.list) =
      Function.update (peersOf tl.list) h te.peers := by
  funext other
  have keeps : ∀ node ∈ tl.list, node.addr = torrent.addr → te.infoHash = node.val.infoHash := by
    intro node inside here
    rw [same, node_unique kept.distinct inside member here]
  rw [peersOf, search_key_modify TorrentEntry.infoHash (hashKey other) torrent.addr _ _ keeps]
  by_cases worked : other = h
  · have found := (search_key_iff TorrentEntry.infoHash (hashKey h) tl.list kept.keys torrent).mpr
      ⟨member, key⟩
    subst worked
    simp [found]
  · rw [Function.update_of_ne worked, peersOf]
    cases found : tl.list.find? (fun node => node.val.infoHash == hashKey other) with
    | none => rfl
    | some node =>
        have other_key : node.val.infoHash = hashKey other := by simpa using List.find?_some found
        have away : node.addr ≠ torrent.addr := by
          intro here
          rw [node_unique kept.distinct (List.mem_of_find?_eq_some found) member here, key]
            at other_key
          exact worked (hash_key_injective h other other_key).symm
        simp [away]

/-! ## One job -/

/-- The database still answers for every torrent it has answered for. -/
def Known (db : Database) (tl : TorrentList) : Prop :=
  ∀ te ∈ tl.list, db (lookupSql te.val.infoHash) ≠ -1

/-- What an announce job does to the map, and what it leaves alone. -/
structure JobEffect (env : Environment) (tl : TorrentList) (job : Job) (after : TorrentList)
    (reply : Reply) : Prop where
  refines : mapOf after = announce env (mapOf tl) job
  refused : (∃ message, reply = .failure message) ↔ announcementOf env job = none
  unchanged : ∀ message, reply = .failure message → after = tl
  others : ∀ h, announcedHash env.curl job.httpKvList = some h → ∀ node : Node TorrentEntry,
    node.val.infoHash ≠ hashKey h → (node ∈ after.list ↔ node ∈ tl.list)

theorem announce_no_failure (te : TorrentEntry) (fresh : Nat) (pe : PeerEntry)
    (event : List UInt8) (message : List UInt8) :
    (announcePeer te fresh pe event).2 ≠ .failure message := by
  unfold announcePeer
  cases peerSearchPeer pe te.peers with
  | none => by_cases start : wantsStart event <;> simp [start]
  | some pp => simp

theorem join_within (map : PeerMap) (h other : InfoHash) (endpoint here : Endpoint)
    (stored : Stored) (event : List UInt8) :
    join map (h, endpoint) stored event (other, here) =
      if other = h then join (fun e => map (h, e)) endpoint stored event here
      else map (other, here) := by
  cases found : map (h, endpoint) with
  | none =>
      simp only [join, found]
      by_cases start : event = eventStart <;> by_cases same : other = h <;>
        simp [start, same, Function.update_apply]
  | some _ =>
      simp only [join, found]
      by_cases stop : event = eventStop <;> by_cases same : other = h <;>
        simp [stop, same, Function.update_apply]

/-- The database knows every torrent a lookup returns. -/
theorem looked_known {db : Database} {infoHash : List UInt8} {h : InfoHash}
    {tl looked : TorrentList} {torrent : Node TorrentEntry} (known : Known db tl)
    (string : cstr infoHash = hexText h.bytes) (key : torrent.val.infoHash = hashKey h)
    (lookup : Lookup db infoHash (torrentListWorkon tl) looked (some torrent)) :
    db (lookupSql infoHash) ≠ -1 ∧ Known db looked := by
  have same : lookupSql torrent.val.infoHash = lookupSql infoHash :=
    lookup_sql_congr _ _ (by rw [key, cstr_hash_key, string])
  cases lookup with
  | hit te found => exact ⟨same ▸ known _ (do_lookup_mem found).1, known⟩
  | inserted missed fits answered =>
      refine ⟨answered, fun te member => ?_⟩
      rcases List.mem_cons.mp member with rfl | before
      · exact same ▸ answered
      · exact known te before

theorem accepted_announcement {env : Environment} {tl looked : TorrentList} {job : Job}
    {ctx : PeerReq} {pe : PeerEntry} {torrent : Node TorrentEntry} {h : InfoHash}
    (taken : Accepted env tl job ctx pe looked torrent)
    (hash : announcedHash env.curl job.httpKvList = some h)
    (answered : env.db (lookupSql ctx.infoHash) ≠ -1) :
    announcementOf env job = some ⟨(h, pe.endpoint), PeerEntry.stored pe, ctx.event.bytes⟩ := by
  have peer := taken.peer
  unfold peerOf copyPeerId at peer
  cases copied : copyInto .entryPeerId (peerHashLen - 1) ctx.peerId with
  | error fault => simp [copied, Except.map] at peer
  | ok peerId =>
      simp only [copied, Except.map, Except.ok.injEq] at peer
      subst peer
      simp [announcementOf, taken.built, taken.sane, answered, hash, PeerEntry.endpoint,
        PeerEntry.stored, copy_into_bytes copied]

theorem mem_looked_iff {db : Database} {infoHash : List UInt8} {tl looked : TorrentList}
    {torrent : Node TorrentEntry}
    (lookup : Lookup db infoHash (torrentListWorkon tl) looked (some torrent))
    (node : Node TorrentEntry) (other : node ≠ torrent) :
    node ∈ looked.list ↔ node ∈ tl.list := by
  cases lookup with
  | hit te found => rfl
  | inserted missed fits known =>
      exact ⟨fun inside => (List.mem_cons.mp inside).resolve_left other, List.mem_cons_of_mem _⟩

theorem accepted_effect {env : Environment} {tl looked : TorrentList} {job : Job} {ctx : PeerReq}
    {pe : PeerEntry} {torrent : Node TorrentEntry} (kept : Kept tl) (known : Known env.db tl)
    (taken : Accepted env tl job ctx pe looked torrent) :
    JobEffect env tl job
      { list := modifyAt torrent.addr
          (fun _ => (announcePeer torrent.val looked.next pe ctx.event.bytes).1) looked.list
        next := looked.next + 1
        working := tl.working }
      (announcePeer torrent.val looked.next pe ctx.event.bytes).2 := by
  obtain ⟨h, hash, key, string⟩ := accepted_key taken.built taken.sane
  obtain ⟨lookedKept, torrentKey⟩ := looked_kept kept key string taken.lookup
  have member := looked_mem taken.lookup
  have answered := (looked_known known string torrentKey taken.lookup).1
  have announced := accepted_announcement taken hash answered
  have event := ((sanitize_accepts_iff ctx).mp taken.sane).2.2.2.2.2.2
  have consistent := lookedKept.torrents torrent member
  have before := peers_of_looked kept key torrentKey taken.lookup
  have worked := peers_of_modify lookedKept member torrentKey
    (announcePeer torrent.val looked.next pe ctx.event.bytes).1 (announce_infoHash _ _ _ _)
  constructor
  · funext ⟨other, here⟩
    rw [announce, announced]
    simp only [Option.elim_some, join_within]
    rw [mapOf, worked, before]
    by_cases same : other = h
    · subst same
      have peers : peersOf tl.list other = torrent.val.peers :=
        before ▸ peers_of_member lookedKept member torrentKey
      simp [announce_joins consistent pe _ event, mapOf, peers]
    · simp [same, mapOf]
  · rw [announced]
    constructor
    · rintro ⟨message, failed⟩
      exact absurd failed (announce_no_failure _ _ _ _ _)
    · intro none
      contradiction
  · exact fun message failed => absurd failed (announce_no_failure _ _ _ _ _)
  · intro again sameHash node away
    rw [hash, Option.some.injEq] at sameHash
    subst sameHash
    -- a torrent of another hash is neither the written node nor at its address
    have other : node ≠ torrent := fun same => away (same ▸ torrentKey)
    have unaddressed : node ∈ looked.list → node.addr ≠ torrent.addr :=
      fun inside same => other (node_unique lookedKept.distinct inside member same)
    have written : node ≠
        ⟨torrent.addr, (announcePeer torrent.val looked.next pe ctx.event.bytes).1⟩ :=
      fun same => away (by rw [same, announce_infoHash, torrentKey])
    rw [mem_accepted_iff member, ← mem_looked_iff taken.lookup node other]
    simp only [written, or_false]
    exact ⟨And.left, fun inside => ⟨inside, unaddressed inside⟩⟩

theorem handled_effect {env : Environment} {tl after : TorrentList} {job : Job} {reply : Reply}
    (kept : Kept tl) (known : Known env.db tl) (handled : Handled env tl job after reply) :
    JobEffect env tl job after reply := by
  cases handled with
  | rejected ctx error built found =>
      have none : announcementOf env job = none := by simp [announcementOf, built, found]
      exact ⟨by simp [announce, none], by simp [none], fun _ _ => rfl, fun _ _ _ _ => Iff.rfl⟩
  | unknown ctx built sane missed refused =>
      have none : announcementOf env job = none := by simp [announcementOf, built, refused]
      exact ⟨by simp [announce, none], by simp [none], fun _ _ => rfl, fun _ _ _ _ => Iff.rfl⟩
  | accepted ctx pe looked torrent taken => exact accepted_effect kept known taken

theorem handled_known {env : Environment} {tl after : TorrentList} {job : Job} {reply : Reply}
    (kept : Kept tl) (known : Known env.db tl) (handled : Handled env tl job after reply) :
    Known env.db after := by
  cases handled with
  | rejected => exact known
  | unknown => exact known
  | accepted ctx pe looked torrent taken =>
      obtain ⟨h, _, key, string⟩ := accepted_key taken.built taken.sane
      have torrentKey := (looked_kept kept key string taken.lookup).2
      have lookedKnown := (looked_known known string torrentKey taken.lookup).2
      have member := looked_mem taken.lookup
      intro te inside
      rcases (mem_accepted_iff member _ te).mp inside with ⟨before, _⟩ | rfl
      · exact lookedKnown te before
      · rw [announce_infoHash]
        exact lookedKnown torrent member

/-! ## Runs of jobs -/

def runAnnounces (env : Environment) : TorrentList → List Job → Except Fault TorrentList
  | tl, [] => .ok tl
  | tl, job :: rest =>
      match jobHandleAnnounce env tl job with
      | .error fault => .error fault
      | .ok (after, _) => runAnnounces env after rest

/-- The peer id and the event fit every field they are copied into. -/
structure ValuesFit (list : List HttpUriKv) : Prop where
  peerId : ∀ np ∈ httpLookupKvKey list peerIdKey, np.val.bytes.length ≤ peerHashLen - 1
  event : ∀ np ∈ httpLookupKvKey list eventKey, np.val.bytes.length ≤ peerEventMax

/-- The list of torrents holds exactly the peers of the map. -/
structure Refines (tl : TorrentList) (map : PeerMap) : Prop where
  lookup : mapOf tl = map
  listed : ∀ te ∈ tl.list, ∃ h, te.val.infoHash = hashKey h ∧
    ∀ pp ∈ te.val.peers, map (h, pp.val.endpoint) = some (PeerEntry.stored pp.val)
  counted : ∀ te ∈ tl.list, te.val.peerCount = te.val.peers.length
  endpoints : ∀ te ∈ tl.list, KeysDistinct PeerEntry.endpoint te.val.peers

theorem kept_refines {tl : TorrentList} (kept : Kept tl) : Refines tl (mapOf tl) where
  lookup := rfl
  listed := by
    intro te member
    obtain ⟨h, key⟩ := kept.hashes te member
    refine ⟨h, key, fun pp inside => ?_⟩
    have found := (search_key_iff PeerEntry.endpoint pp.val.endpoint te.val.peers
      (kept.torrents te member).endpoints pp).mpr ⟨inside, rfl⟩
    rw [mapOf, peers_of_member kept member key, storedAt, found]
    rfl
  counted := fun te member => (kept.torrents te member).counted
  endpoints := fun te member => (kept.torrents te member).endpoints

/-- With values that fit, only a missing key ends a job early. -/
theorem handler_fault {env : Environment} {tl : TorrentList} {job : Job} {fault : Fault}
    (fits : ValuesFit job.httpKvList) (failed : jobHandleAnnounce env tl job = .error fault) :
    ∃ key ∈ builderKeys, httpLookupKvKey job.httpKvList key = none ∧ fault = .nullEntry key := by
  rcases bind_error failed with here | ⟨ctx, built, failed⟩
  · rcases build_error here with missing | ⟨_, np, found, long⟩ | ⟨_, np, found, long⟩
    · exact missing
    · have short := fits.peerId np found
      omega
    · have short := fits.event np found
      omega
  cases sanitized : sanitizePeerReq ctx with
  | some error => simp [sanitized, pure, Except.pure] at failed
  | none =>
  simp only [sanitized] at failed
  obtain ⟨h, _, _, string⟩ := accepted_key built sanitized
  rcases bind_error failed with here | ⟨⟨looked, found⟩, _, failed⟩
  · obtain ⟨after, found, defined⟩ := lookup_defined env.db ctx.infoHash (torrentListWorkon tl)
      (by rw [length_lookup_sql, string, length_hash_text]; decide)
    rw [defined] at here
    contradiction
  cases found with
  | none => contradiction
  | some torrent =>
      rcases bind_error failed with here | ⟨_, _, failed⟩
      · obtain ⟨_, _, peer, _, entry, _, copied⟩ := build_ok built
        have short := fits.peerId peer entry
        obtain ⟨peerId, fitting⟩ := (copy_into_ok_iff .entryPeerId (peerHashLen - 1) ctx.peerId).mpr
          (copied ▸ short)
        simp [peerOf, copyPeerId, fitting, Except.map] at here
      · contradiction

theorem run_refines (env : Environment) (jobs : List Job) (tl final : TorrentList)
    (kept : Kept tl) (known : Known env.db tl) (ended : runAnnounces env tl jobs = .ok final) :
    Kept final ∧ Known env.db final ∧ mapOf final = jobs.foldl (announce env) (mapOf tl) := by
  induction jobs generalizing tl with
  | nil =>
      cases ended
      exact ⟨kept, known, rfl⟩
  | cons job rest ih =>
      unfold runAnnounces at ended
      split at ended
      · contradiction
      · next after reply step =>
          have handled := handler_cases step
          have onward := ih after (handled_kept kept handled) (handled_known kept known handled) ended
          rw [(handled_effect kept known handled).refines] at onward
          exact onward

theorem run_fault (env : Environment) (jobs : List Job) (tl : TorrentList) (fault : Fault)
    (fit : ∀ job ∈ jobs, ValuesFit job.httpKvList)
    (failed : runAnnounces env tl jobs = .error fault) :
    ∃ job ∈ jobs, ∃ key ∈ builderKeys,
      httpLookupKvKey job.httpKvList key = none ∧ fault = .nullEntry key := by
  induction jobs generalizing tl with
  | nil => contradiction
  | cons job rest ih =>
      unfold runAnnounces at failed
      split at failed
      · next other step =>
          cases failed
          exact ⟨job, List.mem_cons_self, handler_fault (fit job List.mem_cons_self) step⟩
      · next after reply step =>
          obtain ⟨other, member, missing⟩ :=
            ih after (fun other member => fit other (List.mem_cons_of_mem _ member)) failed
          exact ⟨other, List.mem_cons_of_mem _ member, missing⟩

/-- Every sequence of announce jobs whose values fit ends at a missing required
key or refines the map the accepted announces describe, and so does one job more. -/
theorem announces_refine_peer_map (env : Environment) (jobs : List Job)
    (fit : ∀ job ∈ jobs, ValuesFit job.httpKvList) :
    (∀ fault, runAnnounces env .empty jobs = .error fault →
      ∃ job ∈ jobs, ∃ key ∈ builderKeys,
        httpLookupKvKey job.httpKvList key = none ∧ fault = .nullEntry key) ∧
      ∀ tl, runAnnounces env .empty jobs = .ok tl →
        Refines tl (jobs.foldl (announce env) fun _ => none) ∧
          ∀ job after reply, jobHandleAnnounce env tl job = .ok (after, reply) →
            JobEffect env tl job after reply := by
  refine ⟨fun fault failed => run_fault env jobs .empty fault fit failed, fun tl ended => ?_⟩
  obtain ⟨kept, known, map⟩ :=
    run_refines env jobs .empty tl kept_empty (by simp [Known, TorrentList.empty]) ended
  have start : mapOf .empty = fun _ => none := rfl
  rw [start] at map
  exact ⟨map ▸ kept_refines kept,
    fun job after reply step => handled_effect kept known (handler_cases step)⟩

def sampleJobs : List Job :=
  [sampleJob (ascii ['5']) eventStart, sampleJob (ascii ['0']) eventComplete]

theorem announces_refine_peer_map_sample :
    ∃ tl, runAnnounces sampleEnv .empty sampleJobs = .ok tl ∧
      Refines tl (sampleJobs.foldl (announce sampleEnv) fun _ => none) := by
  have refined := announces_refine_peer_map sampleEnv sampleJobs (by
    simp only [sampleJobs, List.forall_mem_cons, List.not_mem_nil, false_implies, implies_true,
      and_true]
    exact ⟨⟨by decide +kernel, by decide +kernel⟩, ⟨by decide +kernel, by decide +kernel⟩⟩)
  cases ended : runAnnounces sampleEnv .empty sampleJobs with
  | error fault =>
      obtain ⟨job, member, key, required, missing, _⟩ := refined.1 fault ended
      have present : ∀ job ∈ sampleJobs, ∀ key ∈ builderKeys,
          (httpLookupKvKey job.httpKvList key).isSome := by decide +kernel
      have here := present job member key required
      simp only [missing, Option.isSome_none, Bool.false_eq_true] at here
  | ok tl => exact ⟨tl, rfl, (refined.2 tl ended).1⟩

end Ttracker.AnnouncedPeers
