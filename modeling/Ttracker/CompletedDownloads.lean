import Ttracker.AnnounceHandler
import Ttracker.TransitionRuns

/-!
The `complete` counter of every torrent, which a scrape reports as "downloaded",
over runs of announce jobs taken one at a time. `completions` is history: the
torrent of each accepted complete event of a listed peer; `before` is the list
as the last job found it. The source's counter is an `int`, so a value of the model
is the source's only as long as it is below `2 ^ 31`.
-/
namespace Ttracker.CompletedDownloads
open CLibrary LinkedNodes HttpQuery PeerRequest Torrents TorrentCache AnnounceHandler TransitionRuns

structure Downloads where
  before : TorrentList
  tl : TorrentList
  completions : List Nat

/-- The listed peer an accepted job speaks for, with its torrent and the event. -/
structure Spoken where
  torrent : Node TorrentEntry
  peer : Node PeerEntry
  event : List UInt8

def spokenFor (env : Environment) (tl : TorrentList) (job : Job) : Option Spoken :=
  match httpBuildPeerReq env.curl job.httpKvList with
  | .error _ => none
  | .ok ctx =>
      if sanitizePeerReq ctx = none then
        match torrentDoLookupTorrentInfoHash ctx.infoHash tl.list, peerOf job.clientaddr ctx with
        | some te, .ok pe =>
            (peerSearchPeer pe te.val.peers).map fun pp => ⟨te, pp, ctx.event.bytes⟩
        | _, _ => none
      else none

/-- The torrent of an accepted complete event of a listed peer. -/
def completion (env : Environment) (tl : TorrentList) (job : Job) : Option Nat :=
  (spokenFor env tl job).bind fun spoken =>
    if spoken.event = eventComplete then some spoken.torrent.addr else none

def downloadStep (env : Environment) (s : Downloads) (job : Job) : Option Downloads :=
  match jobHandleAnnounce env s.tl job with
  | .error _ => none
  | .ok (tl, _) => some ⟨s.tl, tl, (completion env s.tl job).toList ++ s.completions⟩

/-- The counter is an `int` and not negative, it counts the completions so far, and the
last job has not lowered it. -/
structure DownloadsCounted (s : Downloads) (te : Node TorrentEntry) : Prop where
  nonneg : 0 ≤ te.val.complete
  int : te.val.complete < 2 ^ 31
  counted : te.val.complete = s.completions.count te.addr
  kept : ∀ old ∈ s.before.list, old.addr = te.addr → old.val.complete ≤ te.val.complete

def AllCounted (s : Downloads) : Prop := ∀ te ∈ s.tl.list, DownloadsCounted s te

/-- The job does not stop a listed peer that was added with `left = 0`, and completes
none whose torrent has counted `INT_MAX` completions. -/
def Countable (env : Environment) (s : Downloads) (job : Job) : Prop :=
  ∀ spoken, spokenFor env s.tl job = some spoken →
    (spoken.event = eventStop → spoken.peer.val.left ≠ 0) ∧
      (spoken.event = eventComplete → spoken.torrent.val.complete + 1 < 2 ^ 31)

/-! ## One job -/

theorem accepted_event_known {env : Environment} {tl looked : TorrentList} {job : Job}
    {ctx : PeerReq} {pe : PeerEntry} {torrent : Node TorrentEntry}
    (taken : Accepted env tl job ctx pe looked torrent) : ctx.event.bytes ∈ knownEvents :=
  ((sanitize_accepts_iff ctx).mp taken.sane).2.2.2.2.2.2

theorem spoken_of_accepted {env : Environment} {tl looked : TorrentList} {job : Job}
    {ctx : PeerReq} {pe : PeerEntry} {torrent : Node TorrentEntry}
    (taken : Accepted env tl job ctx pe looked torrent) :
    spokenFor env tl job =
      (peerSearchPeer pe torrent.val.peers).map fun pp => ⟨torrent, pp, ctx.event.bytes⟩ := by
  cases taken.lookup with
  | hit te found =>
      change torrentDoLookupTorrentInfoHash ctx.infoHash tl.list = some torrent at found
      simp [spokenFor, taken.built, taken.sane, taken.peer, found]
  | inserted missed fits refused =>
      change torrentDoLookupTorrentInfoHash ctx.infoHash tl.list = none at missed
      simp [spokenFor, taken.built, taken.sane, missed, freshTorrent, mkTorrent, peerSearchPeer]

/-- Of a job that is not accepted nothing is counted. -/
theorem spoken_handled {env : Environment} {tl after : TorrentList} {job : Job} {reply : Reply}
    {spoken : Spoken} (spoke : spokenFor env tl job = some spoken)
    (handled : Handled env tl job after reply) :
    ∃ ctx pe looked torrent, Accepted env tl job ctx pe looked torrent ∧
      after.list = modifyAt torrent.addr
        (fun _ => (announcePeer torrent.val looked.next pe ctx.event.bytes).1) looked.list := by
  cases handled with
  | rejected ctx error built found => simp [spokenFor, built, found] at spoke
  | unknown ctx built sane missed => simp [spokenFor, built, missed] at spoke
  | accepted ctx pe looked torrent taken => exact ⟨ctx, pe, looked, torrent, taken, rfl⟩

/-- What a handler does to the counter: a complete event of a listed peer raises
it, and the stop of a peer added with `left = 0` lowers it. -/
theorem announce_completions (te : TorrentEntry) (fresh : Nat) (pe : PeerEntry)
    (event : List UInt8) :
    (announcePeer te fresh pe event).1.complete =
      match peerSearchPeer pe te.peers with
      | none => te.complete
      | some pp =>
          if updateAction event = .complete then te.complete + 1
          else if updateAction event = .stop ∧ pp.val.left = 0 then te.complete - 1
          else te.complete := by
  cases searched : peerSearchPeer pe te.peers with
  | none =>
      by_cases start : wantsStart event
      · simp [announcePeer, searched, start, torrentAddPeerAndReturnList, insertPeer]
      · simp [announcePeer, searched, start]
  | some pp =>
      cases action : updateAction event with
      | complete => simp [announcePeer, searched, action, torrentUpdatePeerAndReturnList]
      | null => simp [announcePeer, searched, action, torrentUpdatePeerAndReturnList]
      | stop =>
          simp [announcePeer, searched, action, torrentUpdatePeerAndReturnList, torrentRemovePeer]
      | start =>
          by_cases zero : pp.val.left = 0 <;>
            simp [announcePeer, searched, action, torrentUpdatePeerAndReturnList, zero]

theorem completion_of_accepted {env : Environment} {tl looked : TorrentList} {job : Job}
    {ctx : PeerReq} {pe : PeerEntry} {torrent : Node TorrentEntry}
    (taken : Accepted env tl job ctx pe looked torrent) :
    completion env tl job = (peerSearchPeer pe torrent.val.peers).bind fun _ =>
      if updateAction ctx.event.bytes = .complete then some torrent.addr else none := by
  rw [completion, spoken_of_accepted taken]
  cases peerSearchPeer pe torrent.val.peers <;>
    simp [(event_actions _ (accepted_event_known taken)).2.2]

/-! ## Runs -/

structure Inv (s : Downloads) : Prop where
  kept : Kept s.tl
  known : ∀ a ∈ s.completions, a < s.tl.next
  counted : ∀ te ∈ s.tl.list, te.val.complete = s.completions.count te.addr
  int : ∀ te ∈ s.tl.list, te.val.complete < 2 ^ 31
  risen : ∀ te ∈ s.tl.list, ∀ old ∈ s.before.list, old.addr = te.addr →
    old.val.complete ≤ te.val.complete

theorem inv_counted (s : Downloads) (inv : Inv s) : AllCounted s := by
  intro te member
  have counted := inv.counted te member
  exact ⟨by omega, inv.int te member, counted, inv.risen te member⟩

theorem step_handled {env : Environment} {s t : Downloads} {job : Job}
    (taken : downloadStep env s job = some t) :
    (∃ reply, Handled env s.tl job t.tl reply) ∧ t.before = s.tl ∧
      t.completions = (completion env s.tl job).toList ++ s.completions := by
  unfold downloadStep at taken
  split at taken
  · contradiction
  · next tl reply handled =>
      cases taken
      exact ⟨⟨reply, handler_cases handled⟩, rfl, rfl⟩

theorem looked_counted {db : Database} {infoHash : List UInt8} {tl looked : TorrentList}
    {torrent : Node TorrentEntry} {completions : List Nat}
    (known : ∀ a ∈ completions, a < tl.next)
    (counted : ∀ te ∈ tl.list, te.val.complete = completions.count te.addr)
    (lookup : Lookup db infoHash (torrentListWorkon tl) looked (some torrent)) :
    ∀ te ∈ looked.list, te.val.complete = completions.count te.addr := by
  cases lookup with
  | hit te found => exact counted
  | inserted missed fits refused =>
      intro te member
      rcases List.mem_cons.mp member with rfl | before
      · have unheard : tl.next ∉ completions := fun heard => (known _ heard).false
        have zero : completions.count tl.next = 0 := List.count_eq_zero.mpr unheard
        simp [freshTorrent, mkTorrent, torrentListWorkon, zero]
      · exact counted te before

theorem looked_next {db : Database} {infoHash : List UInt8} {tl looked : TorrentList}
    {torrent : Node TorrentEntry}
    (lookup : Lookup db infoHash (torrentListWorkon tl) looked (some torrent)) :
    tl.next ≤ looked.next ∧ ∀ te ∈ tl.list, te ∈ looked.list := by
  cases lookup with
  | hit te found => exact ⟨Nat.le_refl _, fun te member => member⟩
  | inserted missed fits refused =>
      exact ⟨Nat.le_succ _, fun te member => List.mem_cons_of_mem _ member⟩

theorem looked_int {db : Database} {infoHash : List UInt8} {tl looked : TorrentList}
    {torrent : Node TorrentEntry} (int : ∀ te ∈ tl.list, te.val.complete < 2 ^ 31)
    (lookup : Lookup db infoHash (torrentListWorkon tl) looked (some torrent)) :
    ∀ te ∈ looked.list, te.val.complete < 2 ^ 31 := by
  cases lookup with
  | hit te found => exact int
  | inserted missed fits refused =>
      intro te member
      rcases List.mem_cons.mp member with rfl | before
      · simp [freshTorrent, mkTorrent]
      · exact int te before

/-- How the counter of an accepted job's torrent and the history move. -/
structure Moves (torrent : Node TorrentEntry) (after : Int) (completions history : List Nat) :
    Prop where
  counted : after = history.count torrent.addr
  int : after < 2 ^ 31
  risen : torrent.val.complete ≤ after
  others : ∀ other, other ≠ torrent.addr → history.count other = completions.count other
  inside : ∀ a ∈ history, a = torrent.addr ∨ a ∈ completions

theorem moves_not {torrent : Node TorrentEntry} {after : Int} {completions : List Nat}
    (counted : torrent.val.complete = completions.count torrent.addr)
    (int : torrent.val.complete < 2 ^ 31) (same : after = torrent.val.complete) :
    Moves torrent after completions completions :=
  ⟨same.trans counted, same ▸ int, same.ge, fun _ _ => rfl, fun _ old => Or.inr old⟩

theorem accepted_moves {env : Environment} {s : Downloads} {looked : TorrentList} {job : Job}
    {ctx : PeerReq} {pe : PeerEntry} {torrent : Node TorrentEntry}
    (accepted : Accepted env s.tl job ctx pe looked torrent) (allowed : Countable env s job)
    (counted : torrent.val.complete = s.completions.count torrent.addr)
    (int : torrent.val.complete < 2 ^ 31) :
    Moves torrent (announcePeer torrent.val looked.next pe ctx.event.bytes).1.complete
      s.completions ((completion env s.tl job).toList ++ s.completions) := by
  have changed := announce_completions torrent.val looked.next pe ctx.event.bytes
  have completed := completion_of_accepted accepted
  have spoken := spoken_of_accepted accepted
  have actions := event_actions _ (accepted_event_known accepted)
  cases searched : peerSearchPeer pe torrent.val.peers with
  | none =>
      simp only [searched, Option.bind_none] at changed completed
      rw [completed]
      exact moves_not counted int changed
  | some pp =>
      rw [searched] at spoken
      obtain ⟨stays, room⟩ := allowed _ spoken
      simp only [searched, Option.bind_some] at changed completed
      by_cases completes : updateAction ctx.event.bytes = .complete
      · simp only [completes, if_true] at changed completed
        have bound : torrent.val.complete + 1 < 2 ^ 31 := room (actions.2.2.mp completes)
        rw [completed, changed]
        refine ⟨by simp [counted], bound, Int.le_add_one (Int.le_refl _), fun other different => ?_,
          by simp⟩
        simp [Ne.symm different]
      · have unmoved : ¬ (updateAction ctx.event.bytes = .stop ∧ pp.val.left = 0) :=
          fun both => stays (actions.2.1.mp both.1) both.2
        simp only [completes, unmoved, if_false] at changed completed
        rw [completed]
        exact moves_not counted int changed

theorem download_step_keeps (env : Environment) (s : Downloads) (job : Job) (t : Downloads)
    (inv : Inv s) (allowed : Countable env s job) (taken : downloadStep env s job = some t) :
    Inv t := by
  obtain ⟨⟨reply, handled⟩, before, completions⟩ := step_handled taken
  obtain ⟨earlier, after, history⟩ := t
  cases before
  have kept := handled_kept inv.kept handled
  have same : ∀ te ∈ s.tl.list, ∀ old ∈ s.tl.list, old.addr = te.addr →
      old.val.complete ≤ te.val.complete := fun te member old present address => by
    rw [node_unique inv.kept.distinct present member address]
  cases handled with
  | rejected ctx error built found =>
      have silent : completion env s.tl job = none := by
        simp [completion, spokenFor, built, found]
      rw [silent] at completions
      cases completions
      exact ⟨kept, inv.known, inv.counted, inv.int, same⟩
  | unknown ctx built sane missed refused =>
      have silent : completion env s.tl job = none := by
        simp [completion, spokenFor, built, missed]
      rw [silent] at completions
      cases completions
      exact ⟨kept, inv.known, inv.counted, inv.int, same⟩
  | accepted ctx pe looked torrent accepted =>
      have lookedKept := accepted_looked inv.kept accepted
      have member := looked_mem accepted.lookup
      have counted := looked_counted inv.known inv.counted accepted.lookup
      have int := looked_int inv.int accepted.lookup
      obtain ⟨later, stays⟩ := looked_next accepted.lookup
      have moves := accepted_moves accepted allowed (counted torrent member) (int torrent member)
      rw [← completions] at moves
      refine ⟨kept, ?_, ?_, ?_, ?_⟩
      · intro a present
        rcases moves.inside a present with rfl | old
        · exact Nat.lt_succ_of_lt (lookedKept.old _ (address_mem member))
        · exact Nat.lt_succ_of_lt ((inv.known a old).trans_le later)
      · intro te present
        rcases (mem_accepted_iff member _ te).mp present with ⟨untouched, away⟩ | rfl
        · exact (counted te untouched).trans (congrArg Nat.cast (moves.others te.addr away).symm)
        · exact moves.counted
      · intro te present
        rcases (mem_accepted_iff member _ te).mp present with ⟨untouched, -⟩ | rfl
        · exact int te untouched
        · exact moves.int
      · intro te present old listed address
        rcases (mem_accepted_iff member _ te).mp present with ⟨untouched, away⟩ | rfl
        · rw [node_unique lookedKept.distinct (stays old listed) untouched address]
        · rw [node_unique lookedKept.distinct (stays old listed) member address]
          exact moves.risen

theorem uncountable_breaks (env : Environment) (s : Downloads) (job : Job) (t : Downloads)
    (inv : Inv s) (refused : ¬ Countable env s job) (taken : downloadStep env s job = some t) :
    ¬ AllCounted t := by
  obtain ⟨⟨reply, handled⟩, before, completions⟩ := step_handled taken
  simp only [Countable, not_forall] at refused
  obtain ⟨spoken, spoke, refused⟩ := refused
  obtain ⟨ctx, pe, looked, torrent, accepted, list⟩ := spoken_handled spoke handled
  have member := looked_mem accepted.lookup
  rw [spoken_of_accepted accepted] at spoke
  obtain ⟨pp, searched, rfl⟩ := Option.map_eq_some_iff.mp spoke
  have actions := event_actions _ (accepted_event_known accepted)
  have changed := announce_completions torrent.val looked.next pe ctx.event.bytes
  have completed := completion_of_accepted accepted
  simp only [searched, Option.bind_some] at changed completed
  intro exact
  have after := exact ⟨torrent.addr, _⟩
    (list ▸ (mem_accepted_iff member _ _).mpr (Or.inr rfl))
  rcases not_and_or.mp refused with lowered | full
  · obtain ⟨stops, zero⟩ := Classical.not_imp.mp lowered
    have action := actions.2.1.mpr stops
    simp only [action, reduceCtorEq, if_false, true_and] at changed completed
    rw [if_pos (by simpa using zero)] at changed
    have counted := after.counted
    have was := looked_counted inv.known inv.counted accepted.lookup torrent member
    rw [completions, completed] at counted
    simp only [Option.toList_none, List.nil_append] at counted
    omega
  · obtain ⟨completes, most⟩ := Classical.not_imp.mp full
    rw [if_pos (actions.2.2.mpr completes)] at changed
    have int := after.int
    dsimp only at int most
    omega

/-- From no torrents, after every job of a sequence each `complete` counter is the
number of accepted complete events of listed peers so far, an `int` that is not negative
and not lowered, if and only if no job stops a listed peer that was added with `left = 0`
or completes one whose torrent's counter is at `INT_MAX`. -/
theorem downloads_counted_iff (env : Environment) (jobs : List Job) :
    Throughout (downloadStep env) AllCounted ⟨.empty, .empty, []⟩ jobs ↔
      Along (downloadStep env) (Countable env) ⟨.empty, .empty, []⟩ jobs :=
  throughout_iff_along (downloadStep env) (Countable env) AllCounted Inv inv_counted
    (download_step_keeps env) (uncountable_breaks env) _ jobs
    ⟨kept_empty, by simp, by simp [TorrentList.empty], by simp [TorrentList.empty],
      by simp [TorrentList.empty]⟩

/-- A seeder that starts and stops leaves a torrent with -1 downloads. -/
theorem stopped_seeder_lowers_downloads :
    ¬ ∀ (env : Environment) (jobs : List Job),
      Throughout (downloadStep env) AllCounted ⟨.empty, .empty, []⟩ jobs := by
  intro claimed
  have run : (replay (downloadStep sampleEnv) ⟨.empty, .empty, []⟩
      [sampleJob (ascii ['0']) eventStart, sampleJob (ascii ['0']) eventStop]).any
        (fun s => s.tl.list.any fun te => te.val.complete == -1) = true := by decide +kernel
  obtain ⟨final, reached, negative⟩ := (Option.any_eq_true _ _).mp run
  obtain ⟨te, member, below⟩ := List.any_eq_true.mp negative
  have counted := throughout_replay _ _ _ _ _ (claimed sampleEnv _) reached te member
  have nonneg := counted.nonneg
  have negative := beq_iff_eq.mp below
  omega

end Ttracker.CompletedDownloads
