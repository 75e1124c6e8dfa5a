import Ttracker.AnnounceHandler
import Ttracker.TransitionRuns

/-!
The counters of every torrent against its peers, over runs of announce jobs
taken one at a time. `announced` is history: the addresses of the peers that
have announced complete since they were added.
-/
namespace Ttracker.PeerCounters
open CLibrary LinkedNodes HttpQuery PeerRequest Torrents TorrentCache AnnounceHandler TransitionRuns

structure Counted where
  tl : TorrentList
  announced : List Nat

/-- The listed peer an accepted job announces complete. -/
def completedPeer (env : Environment) (tl : TorrentList) (job : Job) : Option (Node PeerEntry) :=
  match httpBuildPeerReq env.curl job.httpKvList with
  | .error _ => none
  | .ok ctx =>
      if sanitizePeerReq ctx = none ∧ ctx.event.bytes = eventComplete then
        match torrentDoLookupTorrentInfoHash ctx.infoHash tl.list, peerOf job.clientaddr ctx with
        | some te, .ok pe => peerSearchPeer pe te.val.peers
        | _, _ => none
      else none

def announceStep (env : Environment) (s : Counted) (job : Job) : Option Counted :=
  match jobHandleAnnounce env s.tl job with
  | .error _ => none
  | .ok (tl, _) =>
      some ⟨tl, (completedPeer env s.tl job).elim s.announced fun pp => pp.addr :: s.announced⟩

def Complete (announced : List Nat) (pp : Node PeerEntry) : Prop :=
  pp.val.left = 0 ∨ pp.addr ∈ announced

instance (announced : List Nat) (pp : Node PeerEntry) : Decidable (Complete announced pp) :=
  inferInstanceAs (Decidable (_ ∨ _))

def completeCount (announced : List Nat) (peers : List (Node PeerEntry)) : Nat :=
  peers.countP fun pp => Complete announced pp

/-- Seeders are the complete peers, leechers the others, and together all. -/
structure CountersExact (announced : List Nat) (te : TorrentEntry) : Prop where
  seedersNonneg : 0 ≤ te.seeders
  leechersNonneg : 0 ≤ te.leechers
  total : te.seeders + te.leechers = te.peerCount
  seeders : te.seeders = completeCount announced te.peers
  leechers : te.leechers = te.peers.countP fun pp => ¬ Complete announced pp

def AllExact (s : Counted) : Prop := ∀ te ∈ s.tl.list, CountersExact s.announced te.val

/-- The job does not announce complete for a peer that is listed. -/
def NoCompletion (env : Environment) (s : Counted) (job : Job) : Prop :=
  completedPeer env s.tl job = none

/-- With nothing announced the classification is by the stored `left` alone. -/
structure ByLeft (te : TorrentEntry) : Prop where
  seeders : te.seeders = completeCount [] te.peers
  leechers : te.leechers = te.peerCount - completeCount [] te.peers

theorem by_left_exact {te : TorrentEntry} {next : Nat} (consistent : Consistent te next)
    (byLeft : ByLeft te) : CountersExact [] te := by
  have split := List.length_eq_countP_add_countP (fun pp => decide (Complete [] pp)) (l := te.peers)
  have counted := consistent.counted
  have seeders := byLeft.seeders
  have leechers := byLeft.leechers
  have others : (te.peers.countP fun pp => ¬ Complete [] pp) =
      te.peers.countP fun pp => ¬ (decide (Complete [] pp)) = true := by
    apply List.countP_congr
    simp
  simp only [completeCount] at seeders leechers
  constructor
  · omega
  · omega
  · omega
  · exact seeders
  · omega

theorem complete_count_cons (pp : Node PeerEntry) (peers : List (Node PeerEntry)) :
    completeCount [] (pp :: peers) = completeCount [] peers + if pp.val.left = 0 then 1 else 0 := by
  simp [completeCount, Complete, List.countP_cons]

theorem insert_by_left {te : TorrentEntry} (pe : Node PeerEntry) (byLeft : ByLeft te) :
    ByLeft (insertPeer te pe) := by
  have moved := complete_count_cons pe te.peers
  have seeders := byLeft.seeders
  have leechers := byLeft.leechers
  constructor <;> by_cases zero : pe.val.left = 0 <;>
    simp only [insertPeer, zero, if_true, if_false] at * <;> omega

theorem remove_by_left {te : TorrentEntry} {next : Nat} (pp : Node PeerEntry)
    (consistent : Consistent te next) (member : pp ∈ te.peers) (byLeft : ByLeft te) :
    ByLeft (torrentRemovePeer te pp) := by
  have moved := complete_count_cons pp (remove pp.addr te.peers)
  have same : completeCount [] te.peers = completeCount [] (pp :: remove pp.addr te.peers) :=
    (remove_perm pp te.peers consistent.distinct member).countP_eq _
  have seeders := byLeft.seeders
  have leechers := byLeft.leechers
  constructor <;> by_cases zero : pp.val.left = 0 <;>
    simp only [torrentRemovePeer, zero, if_true, if_false] at * <;> omega

theorem update_action_ne_start (event : List UInt8) : updateAction event ≠ .start := by
  unfold updateAction
  repeat' split
  all_goals simp

/-- The handler keeps the classification unless it marks a listed peer complete. -/
theorem announce_by_left {te : TorrentEntry} {next : Nat} (pe : PeerEntry) (event : List UInt8)
    (consistent : Consistent te next) (byLeft : ByLeft te)
    (quiet : updateAction event = .complete → peerSearchPeer pe te.peers = none) :
    ByLeft (announcePeer te next pe event).1 := by
  unfold announcePeer
  cases searched : peerSearchPeer pe te.peers with
  | none =>
      by_cases start : wantsStart event
      · simpa [start, torrentAddPeerAndReturnList, searched] using
          insert_by_left ⟨next, pe⟩ byLeft
      · simpa [start] using byLeft
  | some pp =>
      cases action : updateAction event with
      | complete => simp [quiet action] at searched
      | stop =>
          simpa [torrentUpdatePeerAndReturnList] using
            remove_by_left pp consistent (search_mem searched) byLeft
      | start => exact absurd action (update_action_ne_start event)
      | null => simpa [torrentUpdatePeerAndReturnList] using byLeft

/-- A complete announce of a listed peer counts it as a seeder once more. -/
theorem announce_complete {te : TorrentEntry} {pp : Node PeerEntry} (next : Nat) (pe : PeerEntry)
    (event : List UInt8) (searched : peerSearchPeer pe te.peers = some pp)
    (action : updateAction event = .complete) :
    (announcePeer te next pe event).1.seeders = te.seeders + 1 ∧
      (announcePeer te next pe event).1.leechers = te.leechers ∧
        (announcePeer te next pe event).1.peerCount = te.peerCount := by
  simp [announcePeer, searched, action, torrentUpdatePeerAndReturnList]

/-! ## Runs -/

structure Inv (s : Counted) : Prop where
  kept : Kept s.tl
  quiet : s.announced = []
  byLeft : ∀ te ∈ s.tl.list, ByLeft te.val

theorem inv_exact (s : Counted) (inv : Inv s) : AllExact s := by
  intro te member
  rw [inv.quiet]
  exact by_left_exact (inv.kept.torrents te member) (inv.byLeft te member)

theorem step_handled {env : Environment} {s t : Counted} {job : Job}
    (taken : announceStep env s job = some t) :
    (∃ reply, Handled env s.tl job t.tl reply) ∧
      t.announced = (completedPeer env s.tl job).elim s.announced fun pp => pp.addr :: s.announced := by
  unfold announceStep at taken
  split at taken
  · contradiction
  · next tl reply handled =>
      cases taken
      exact ⟨⟨reply, handler_cases handled⟩, rfl⟩

/-- The peer an accepted job completes is the one its handler finds. -/
theorem completed_of_accepted {env : Environment} {tl looked : TorrentList} {job : Job}
    {ctx : PeerReq} {pe : PeerEntry} {torrent : Node TorrentEntry}
    (taken : Accepted env tl job ctx pe looked torrent) (pp : Node PeerEntry) :
    completedPeer env tl job = some pp ↔
      updateAction ctx.event.bytes = .complete ∧ peerSearchPeer pe torrent.val.peers = some pp := by
  have known := ((sanitize_accepts_iff ctx).mp taken.sane).2.2.2.2.2.2
  rw [(event_actions _ known).2.2]
  unfold completedPeer
  rw [taken.built]
  by_cases event : ctx.event.bytes = eventComplete
  · cases taken.lookup with
    | hit te found =>
        change torrentDoLookupTorrentInfoHash ctx.infoHash tl.list = some torrent at found
        simp [taken.sane, event, found, taken.peer]
    | inserted missed fits refused =>
        change torrentDoLookupTorrentInfoHash ctx.infoHash tl.list = none at missed
        simp [taken.sane, event, missed, freshTorrent, mkTorrent, peerSearchPeer]
  · simp [event]

/-- Only an accepted job can complete a peer. -/
theorem completed_handled {env : Environment} {tl after : TorrentList} {job : Job} {reply : Reply}
    {pp : Node PeerEntry} (completed : completedPeer env tl job = some pp)
    (handled : Handled env tl job after reply) :
    ∃ ctx pe looked torrent, Accepted env tl job ctx pe looked torrent ∧
      ⟨torrent.addr, (announcePeer torrent.val looked.next pe ctx.event.bytes).1⟩ ∈ after.list := by
  cases handled with
  | rejected ctx error built found => simp [completedPeer, built, found] at completed
  | unknown ctx built sane missed => simp [completedPeer, built, missed] at completed
  | accepted ctx pe looked torrent taken =>
      exact ⟨ctx, pe, looked, torrent, taken,
        (mem_accepted_iff (looked_mem taken.lookup) _ _).mpr (Or.inr rfl)⟩

theorem looked_by_left {db : Database} {infoHash : List UInt8} {tl looked : TorrentList}
    {torrent : Node TorrentEntry} (byLeft : ∀ te ∈ tl.list, ByLeft te.val)
    (lookup : Lookup db infoHash (torrentListWorkon tl) looked (some torrent)) :
    ∀ te ∈ looked.list, ByLeft te.val := by
  cases lookup with
  | hit te found => exact byLeft
  | inserted missed fits known =>
      intro te member
      rcases List.mem_cons.mp member with rfl | before
      · constructor <;> simp [freshTorrent, mkTorrent, completeCount]
      · exact byLeft te before

theorem announce_step_keeps (env : Environment) (s : Counted) (job : Job) (t : Counted)
    (inv : Inv s) (allowed : NoCompletion env s job) (taken : announceStep env s job = some t) :
    Inv t := by
  obtain ⟨⟨reply, handled⟩, announced⟩ := step_handled taken
  obtain ⟨after, history⟩ := t
  rw [NoCompletion] at allowed
  refine ⟨handled_kept inv.kept handled, by simpa [allowed, inv.quiet] using announced, ?_⟩
  cases handled with
  | rejected => exact inv.byLeft
  | unknown => exact inv.byLeft
  | accepted ctx pe looked torrent accepted =>
      have lookedKept := accepted_looked inv.kept accepted
      have member := looked_mem accepted.lookup
      have byLeft := looked_by_left inv.byLeft accepted.lookup
      intro te inside
      rcases (mem_accepted_iff member _ te).mp inside with ⟨before, _⟩ | rfl
      · exact byLeft te before
      · apply announce_by_left pe _ (lookedKept.torrents torrent member) (byLeft torrent member)
        intro action
        cases searched : peerSearchPeer pe torrent.val.peers with
        | none => rfl
        | some pp =>
            rw [(completed_of_accepted accepted pp).mpr ⟨action, searched⟩] at allowed
            contradiction

theorem completion_breaks (env : Environment) (s : Counted) (job : Job) (t : Counted)
    (inv : Inv s) (refused : ¬ NoCompletion env s job) (taken : announceStep env s job = some t) :
    ¬ AllExact t := by
  obtain ⟨⟨reply, handled⟩, _⟩ := step_handled taken
  obtain ⟨pp, completed⟩ := Option.ne_none_iff_exists'.mp refused
  obtain ⟨ctx, pe, looked, torrent, accepted, member⟩ := completed_handled completed handled
  obtain ⟨action, searched⟩ := (completed_of_accepted accepted pp).mp completed
  obtain ⟨seeders, leechers, count⟩ :=
    announce_complete looked.next pe ctx.event.bytes searched action
  intro exact
  have after := (exact _ member).total
  have before := looked_by_left inv.byLeft accepted.lookup torrent
    (looked_mem accepted.lookup)
  have bySeeders := before.seeders
  have byLeechers := before.leechers
  simp only at after
  omega

/-- From no torrents, the counters are exact after every job of a sequence if and
only if none of its jobs announces complete for a peer that is listed. -/
theorem counters_exact_iff (env : Environment) (jobs : List Job) :
    Throughout (announceStep env) AllExact ⟨.empty, []⟩ jobs ↔
      Along (announceStep env) (NoCompletion env) ⟨.empty, []⟩ jobs :=
  throughout_iff_along (announceStep env) (NoCompletion env) AllExact Inv inv_exact
    (announce_step_keeps env) (completion_breaks env) _ jobs
    ⟨kept_empty, rfl, by simp [TorrentList.empty]⟩

/-- A leecher that completes is counted as a seeder and still as a leecher. -/
theorem completed_leecher_counted_twice :
    ¬ ∀ (env : Environment) (jobs : List Job),
      Throughout (announceStep env) AllExact ⟨.empty, []⟩ jobs := by
  intro claimed
  have run : (replay (announceStep sampleEnv) ⟨.empty, []⟩
      [sampleJob (ascii ['5']) eventStart, sampleJob (ascii ['0']) eventComplete]).any
        (fun s => s.tl.list.any fun te =>
          te.val.seeders + te.val.leechers != te.val.peerCount) = true := by decide +kernel
  obtain ⟨final, reached, miscounted⟩ := (Option.any_eq_true _ _).mp run
  obtain ⟨te, member, off⟩ := List.any_eq_true.mp miscounted
  have exact := throughout_replay _ _ _ _ _ (claimed sampleEnv _) reached te member
  simp [exact.total] at off

end Ttracker.PeerCounters
