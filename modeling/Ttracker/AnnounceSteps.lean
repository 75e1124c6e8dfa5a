import Ttracker.JobsWorking
import Ttracker.TrackerRefinement

/-!
The jobs of all torrents at once, with what each announce prints, and what one step of a job
can do. An address set apart for a new peer is nobody else's, a peer a job has in hand stays
listed, and no two torrents have one key.
-/
namespace Ttracker.AnnounceSteps
open CLibrary LinkedNodes FirstMatches BoundedPrint HttpQuery PeerRequest Torrents TorrentCache
  AnnounceHandler ScrapeHandler PeerListReply AnnounceReplies Bencode ServedRequests ServedMemory
  JobsWorking Swarms TrackerRefinement

variable {Jobs : Type}

/-! ## Jobs and their replies -/

structure Answering (Jobs : Type) where
  /-- Nothing calls `torrent_remove_torrent`. -/
  shared : JobsWorking.Shared Jobs Empty
  replies : Jobs → Option Reply

def torrentAt (tl : TorrentList) (addr : Nat) : Option (Node TorrentEntry) :=
  tl.list.find? fun te => te.addr == addr

/-- What a job's next step appends to its output, if it does. -/
def replyOf (requests : Jobs → JobsWorking.Request) (env : Environment)
    (s : JobsWorking.Shared Jobs Empty) (i : Jobs) : Option Reply :=
  match s.jobs i with
  | .starting =>
      match requests i with
      | .announce job =>
          match httpBuildPeerReq env.curl job.httpKvList with
          | .error _ => none
          | .ok ctx => (sanitizePeerReq ctx).map fun error =>
              .failure (torrentMsgFailureGeneric (errorText error))
      | .scrape _ _ => none
  | .looking ctx _ =>
      match torrentLookupTorrent env.db ctx.infoHash s.tl with
      | .ok (_, none) => some (.failure torrentMsgFailureMissingHash)
      | _ => none
  | .absent te pep event =>
      if wantsStart event then
        (torrentAt s.tl te).map fun torrent =>
          .peerList (torrentAddPeerAndReturnList torrent.val pep).2
      else some .silent
  | .found te pp event =>
      (torrentAt s.tl te).map fun torrent =>
        .peerList (torrentUpdatePeerAndReturnList torrent.val pp (updateAction event)).2
  | _ => none

def answeringStep [DecidableEq Jobs] (requests : Jobs → JobsWorking.Request) (env : Environment)
    (s : Answering Jobs) (i : Jobs) : Option (Answering Jobs) :=
  (jobStep requests env s.shared i).map fun t =>
    ⟨t, (replyOf requests env s.shared i).elim s.replies fun reply =>
      Function.update s.replies i (some reply)⟩

def opening : Answering Jobs := ⟨begin .empty, fun _ => none⟩

/-- A section that reads or changes a torrent's peers under its lock. -/
def sectionOf : Phase → Option Nat
  | .absent te _ event => if wantsStart event then some te else none
  | .found te _ _ => some te
  | _ => none

/-- No section gets between the two of a stop, no peer is unlinked while another job has it
in hand, and a scrape's key with bytes behind its string is not listed yet. -/
structure Undisturbed (s : Answering Jobs) (i : Jobs) : Prop where
  sections : ∀ te, sectionOf (s.shared.jobs i) = some te →
    ∀ j pp, s.shared.jobs j ≠ .stopping te pp
  unlinks : ∀ te pp, s.shared.jobs i = .stopping te pp →
    ∀ j qq event, s.shared.jobs j = .found te qq event → qq.addr ≠ pp.addr
  lookups : ∀ infoHash rest sctx torrents,
    s.shared.jobs i = .scraping (infoHash :: rest) sctx torrents →
      infoHash.take torrentHashLen = strncpy torrentHashLen infoHash ∨
        viewOf s.shared.tl (strncpy torrentHashLen infoHash) = none

/-! ## The object -/

def ask (requests : Jobs → JobsWorking.Request) (env : Environment) (i : Jobs) : Asked :=
  match requests i with
  | .announce job => (announceOf env job).getD .unread
  | .scrape _ _ => .unread

def act (requests : Jobs → JobsWorking.Request) (env : Environment) (t : Tracker Key PeerEntry)
    (i : Jobs) : Tracker Key PeerEntry × Answer :=
  step PeerEntry.endpoint whole t (ask requests env i)

/-- A key without a swarm has as many peers as one with an empty swarm. -/
def content (t : Tracker Key PeerEntry) (k : Key) : Swarm PeerEntry := (t k).getD .empty

/-- The job announces this peer to the swarm of this key, which may be made. -/
def AnnouncesTo (requests : Jobs → JobsWorking.Request) (env : Environment) (i : Jobs) (k : Key)
    (pe : PeerEntry) (event : List UInt8) : Prop :=
  ask requests env i = .announce ⟨k, k, true⟩ (some pe) (eventOf event)

theorem act_announce {requests : Jobs → JobsWorking.Request} {env : Environment} {i : Jobs}
    {k : Key} {pe : PeerEntry} {event : List UInt8} (announces : AnnouncesTo requests env i k pe event)
    (t : Tracker Key PeerEntry) :
    act requests env t i =
      (Function.update t k (some
          ((content t k).announce PeerEntry.endpoint whole pe (eventOf event)).1),
        ((content t k).announce PeerEntry.endpoint whole pe (eventOf event)).2.elim
          .silent .swarm) := by
  rw [act, announces, content]
  cases listed : t k with
  | some s =>
      have looked : look t ⟨k, k, true⟩ = some (t, k, s) := by simp [look, listed]
      rw [step_announced _ _ looked]
      rfl
  | none =>
      have looked : look t ⟨k, k, true⟩ =
          some (Function.update t k (some .empty), k, .empty) := by simp [look, listed]
      rw [step_announced _ _ looked, Function.update_idem]
      rfl

/-! ## The torrents -/

/-- Every torrent is the first and only one with its key, and the database knows it. -/
structure Listed (db : Database) (tl : TorrentList) : Prop where
  sound : Sound tl
  keys : KeysDistinct torrentKey tl.list
  known : ∀ te ∈ tl.list, KeyOf db (torrentKey te.val)

/-- A section that leaves this of a torrent. -/
def write (tl : TorrentList) (te : Node TorrentEntry) (value : TorrentEntry) : TorrentList :=
  { tl with list := modifyAt te.addr (fun _ => value) tl.list }

section Torrents
variable {db : Database} {tl tl' : TorrentList} {te : Node TorrentEntry}

theorem listed_empty : Listed db .empty :=
  ⟨sound_empty, List.nodup_nil, List.forall_mem_nil _⟩

theorem listed_same (listed : Listed db tl) (same : tl'.list = tl.list) (next : tl.next ≤ tl'.next) :
    Listed db tl' := by
  obtain ⟨⟨⟨distinct, old, torrents⟩, padded⟩, keys, known⟩ := listed
  rw [← same] at distinct old torrents padded keys known
  exact ⟨⟨⟨distinct, fun a member => (old a member).trans_le next,
    fun te member => consistent_mono (torrents te member) next⟩, padded⟩, keys, known⟩

theorem torrent_at (listed : Listed db tl) (member : te ∈ tl.list) :
    torrentAt tl te.addr = some te := by
  unfold torrentAt
  cases found : tl.list.find? (fun other => other.addr == te.addr) with
  | none => simpa using List.find?_eq_none.mp found te member
  | some other =>
      have hit : other.addr = te.addr := by simpa using List.find?_some found
      rw [node_unique listed.sound.addressed.distinct (List.mem_of_find?_eq_some found) member hit]

theorem view_none_iff (k : Key) : viewOf tl k = none ↔ ∀ te ∈ tl.list, torrentKey te.val ≠ k := by
  simp [viewOf, view, List.find?_eq_none]

theorem write_same (listed : Listed db tl) (member : te ∈ tl.list) :
    write tl te te.val = tl := by
  have same : modifyAt te.addr (fun _ => te.val) tl.list = tl.list := by
    refine (List.map_congr_left fun other inside => ?_).trans (List.map_id _)
    split
    · next here => rw [node_unique listed.sound.addressed.distinct inside member here, id]
    · rfl
  rw [write, same]

theorem mem_write (member : te ∈ tl.list) (value : TorrentEntry) (other : Node TorrentEntry) :
    other ∈ (write tl te value).list ↔
      (other ∈ tl.list ∧ other.addr ≠ te.addr) ∨ other = ⟨te.addr, value⟩ :=
  mem_accepted_iff member value other

theorem write_addresses (tl : TorrentList) (te : Node TorrentEntry) (value : TorrentEntry) :
    addresses (write tl te value).list = addresses tl.list :=
  addresses_modifyAt te.addr (fun _ => value) tl.list

theorem write_keys (listed : Listed db tl) (member : te ∈ tl.list) {value : TorrentEntry}
    (key : torrentKey value = torrentKey te.val) :
    (write tl te value).list.map (fun node => torrentKey node.val) =
      tl.list.map fun node => torrentKey node.val := by
  rw [write, modifyAt, List.map_map]
  refine List.map_congr_left fun other inside => ?_
  rw [Function.comp_apply]
  split
  · next here => rw [node_unique listed.sound.addressed.distinct inside member here, key]
  · rfl

theorem write_listed (listed : Listed db tl) (member : te ∈ tl.list) {value : TorrentEntry}
    (same : value.infoHash = te.val.infoHash) (consistent : Consistent value tl.next) :
    Listed db (write tl te value) := by
  have key : torrentKey value = torrentKey te.val := by rw [torrentKey, torrentKey, same]
  have sameKeys := write_keys listed member key
  obtain ⟨⟨⟨distinct, old, torrents⟩, padded⟩, keys, known⟩ := listed
  refine ⟨⟨⟨?_, ?_, fun node inside => ?_⟩, fun node inside => ?_⟩, ?_, fun node inside => ?_⟩
  · rwa [write_addresses]
  · rwa [write_addresses]
  · rcases (mem_write member value node).mp inside with ⟨before, -⟩ | rfl
    · exact torrents node before
    · exact consistent
  · rcases (mem_write member value node).mp inside with ⟨before, -⟩ | rfl
    · exact padded node before
    · rw [same]
      exact padded te member
  · rwa [KeysDistinct, sameKeys]
  · rcases (mem_write member value node).mp inside with ⟨before, -⟩ | rfl
    · exact known node before
    · exact key ▸ known te member

theorem fresh_key (db : Database) (infoHash : List UInt8) (tl : TorrentList) :
    torrentKey (freshTorrent db infoHash tl).val = strncpy torrentHashLen infoHash :=
  List.take_of_length_le (length_strncpy _ _).le

/-- A lookup inserts no second torrent for a key. -/
theorem lookup_keeps_listed {infoHash : List UInt8} {found : Option (Node TorrentEntry)}
    (listed : Listed db tl) (looked : Lookup db infoHash tl tl' found)
    (apart : infoHash.take torrentHashLen = strncpy torrentHashLen infoHash ∨
      viewOf tl (strncpy torrentHashLen infoHash) = none) : Listed db tl' := by
  have sound := sound_lookup listed.sound looked
  cases looked with
  | hit | unknown => exact listed
  | inserted missed fits known =>
      have key := fresh_key db infoHash tl
      have new : ∀ other ∈ tl.list, torrentKey other.val ≠ torrentKey (freshTorrent db infoHash tl).val := by
        rw [key]
        -- a clean key was searched for itself; of a dirty one the key it is kept under is not listed
        rcases apart with clean | unlisted
        · rw [← clean]
          exact (do_lookup_absent_iff infoHash tl.list).mp missed
        · exact (view_none_iff _).mp unlisted
      have inDatabase : InDatabase db infoHash := ⟨fits, known⟩
      refine ⟨sound, keys_insert torrentKey _ _ listed.keys new, List.forall_mem_cons.mpr ⟨?_, listed.known⟩⟩
      rw [key]
      exact (name_fair db infoHash).kept (decide_eq_true inDatabase)

/-- Torrents stay with their keys, and so do their peers, but for those that are gone. -/
structure Onward (tl tl' : TorrentList) (gone : Nat → Nat → Prop) : Prop where
  next : tl.next ≤ tl'.next
  kept : ∀ te ∈ tl.list, ∃ te' ∈ tl'.list, te'.addr = te.addr ∧
    torrentKey te'.val = torrentKey te.val ∧
      ∀ pp ∈ te.val.peers, ¬ gone te.addr pp.addr → pp ∈ te'.val.peers

def nothing : Nat → Nat → Prop := fun _ _ => False

theorem onward_same (same : tl'.list = tl.list) (next : tl.next ≤ tl'.next) :
    Onward tl tl' nothing :=
  ⟨next, fun te member => ⟨te, same ▸ member, rfl, rfl, fun _ inside _ => inside⟩⟩

theorem onward_lookup {infoHash : List UInt8} {found : Option (Node TorrentEntry)}
    (looked : Lookup db infoHash tl tl' found) : Onward tl tl' nothing := by
  cases looked with
  | hit | unknown => exact onward_same rfl (Nat.le_refl _)
  | inserted missed fits known =>
      exact ⟨Nat.le_succ _, fun te member =>
        ⟨te, List.mem_cons_of_mem _ member, rfl, rfl, fun _ inside _ => inside⟩⟩

theorem onward_write {gone : Nat → Nat → Prop} (listed : Listed db tl) (member : te ∈ tl.list)
    {value : TorrentEntry} (same : value.infoHash = te.val.infoHash)
    (stays : ∀ pp ∈ te.val.peers, ¬ gone te.addr pp.addr → pp ∈ value.peers) :
    Onward tl (write tl te value) gone := by
  refine ⟨Nat.le_refl _, fun other inside => ?_⟩
  have written := mem_write member value
  by_cases here : other.addr = te.addr
  · obtain rfl := node_unique listed.sound.addressed.distinct inside member here
    exact ⟨_, (written _).mpr (Or.inr rfl), rfl, by rw [torrentKey, torrentKey, same], stays⟩
  · exact ⟨other, (written _).mpr (Or.inl ⟨inside, here⟩), rfl, rfl, fun _ inside _ => inside⟩

end Torrents

/-! ## What the jobs have in hand -/

/-- The address that is set apart for a new peer. -/
def pendingOf : Phase → Option Nat
  | .absent _ pep _ => some pep.addr
  | _ => none

/-- The listed peer a job will come back to, with its torrent. -/
def inHand : Phase → Option (Nat × Nat)
  | .found te pp _ => some (te, pp.addr)
  | .stopping te pp => some (te, pp.addr)
  | _ => none

section Phases
variable (requests : Jobs → JobsWorking.Request) (env : Environment)

def Knows (tl : TorrentList) (i : Jobs) : Phase → Prop
  | .looking ctx clientaddr => ∃ job, requests i = .announce job ∧
      httpBuildPeerReq env.curl job.httpKvList = .ok ctx ∧ sanitizePeerReq ctx = none ∧
        clientaddr = job.clientaddr
  | .searching addr pe event => ∃ te ∈ tl.list, te.addr = addr ∧
      AnnouncesTo requests env i (torrentKey te.val) pe event
  | .absent addr pep event => ∃ te ∈ tl.list, te.addr = addr ∧
      AnnouncesTo requests env i (torrentKey te.val) pep.val event
  | .found addr pp event => ∃ te ∈ tl.list, te.addr = addr ∧ pp ∈ te.val.peers ∧
      ∃ pe, pp.val.endpoint = pe.endpoint ∧
        AnnouncesTo requests env i (torrentKey te.val) pe event
  | .stopping addr pp => ∃ te ∈ tl.list, te.addr = addr ∧ pp ∈ te.val.peers
  | .scraping _ _ _ => ∃ list fresh, requests i = .scrape list fresh
  | .copying addr _ _ _ => (∃ te ∈ tl.list, te.addr = addr) ∧
      ∃ list fresh, requests i = .scrape list fresh
  | _ => True

structure Placed (tl : TorrentList) (jobs : Jobs → Phase) : Prop where
  knows : ∀ i, Knows requests env tl i (jobs i)
  pending : ∀ i a, pendingOf (jobs i) = some a →
    a < tl.next ∧ ∀ te ∈ tl.list, a ∉ addresses te.val.peers
  apart : ∀ i j a, pendingOf (jobs i) = some a → pendingOf (jobs j) = some a → i = j
  alone : ∀ i j te pp qq, jobs i = .stopping te pp → jobs j = .stopping te qq → i = j

variable {requests env} {tl tl' : TorrentList} {jobs : Jobs → Phase} {gone : Nat → Nat → Prop}

theorem knows_onward {i : Jobs} {phase : Phase} (onward : Onward tl tl' gone)
    (knows : Knows requests env tl i phase)
    (spared : ∀ te a, inHand phase = some (te, a) → ¬ gone te a) : Knows requests env tl' i phase := by
  cases phase with
  | starting | looking | missed | leaving | scraping | done => exact knows
  | searching | absent =>
      obtain ⟨te, member, rfl, announces⟩ := knows
      obtain ⟨te', member', addr, key, -⟩ := onward.kept te member
      exact ⟨te', member', addr, key ▸ announces⟩
  | found addr pp event =>
      obtain ⟨te, member, rfl, inside, pe, same, announces⟩ := knows
      obtain ⟨te', member', addr, key, stays⟩ := onward.kept te member
      exact ⟨te', member', addr, stays pp inside (spared _ _ rfl), pe, same, key ▸ announces⟩
  | stopping addr pp =>
      obtain ⟨te, member, rfl, inside⟩ := knows
      obtain ⟨te', member', addr, -, stays⟩ := onward.kept te member
      exact ⟨te', member', addr, stays pp inside (spared _ _ rfl)⟩
  | copying addr rest sctx torrents =>
      obtain ⟨⟨te, member, rfl⟩, scrapes⟩ := knows
      obtain ⟨te', member', addr, -, -⟩ := onward.kept te member
      exact ⟨⟨te', member', addr⟩, scrapes⟩

theorem stopping_listed (placed : Placed requests env tl jobs) (j : Jobs) (addr : Nat)
    (pp : Node PeerEntry) (here : jobs j = .stopping addr pp) : addr ∈ addresses tl.list := by
  have knows := placed.knows j
  rw [here] at knows
  obtain ⟨te, member, rfl, -⟩ := knows
  exact address_mem member

variable [DecidableEq Jobs]

/-- A job goes on to another phase, with the torrents as they then are. -/
theorem placed_step (placed : Placed requests env tl jobs) (onward : Onward tl tl' gone) {i : Jobs}
    {phase : Phase} (knows : Knows requests env tl' i phase)
    (spared : ∀ j, j ≠ i → ∀ te a, inHand (jobs j) = some (te, a) → ¬ gone te a)
    (grown : ∀ te' ∈ tl'.list, ∀ a ∈ addresses te'.val.peers,
      (∃ te ∈ tl.list, a ∈ addresses te.val.peers) ∨ pendingOf (jobs i) = some a)
    (reserved : ∀ a, pendingOf phase = some a →
      tl.next ≤ a ∧ a < tl'.next ∧ ∀ te ∈ tl'.list, a ∉ addresses te.val.peers)
    (alone : ∀ te pp, phase = .stopping te pp → ∀ j, j ≠ i → ∀ qq, jobs j ≠ .stopping te qq) :
    Placed requests env tl' (Function.update jobs i phase) := by
  constructor
  · intro j
    by_cases same : j = i
    · subst same
      rwa [Function.update_self]
    · rw [Function.update_of_ne same]
      exact knows_onward onward (placed.knows j) (spared j same)
  · intro j a
    by_cases same : j = i
    · subst same
      rw [Function.update_self]
      exact fun pending => (reserved a pending).2
    · rw [Function.update_of_ne same]
      intro pending
      obtain ⟨old, unused⟩ := placed.pending j a pending
      refine ⟨old.trans_le onward.next, fun te' member inside => ?_⟩
      rcases grown te' member a inside with ⟨te, before, there⟩ | own
      · exact unused te before there
      · exact same (placed.apart j i a pending own)
  · intro j k a
    by_cases first : j = i <;> by_cases second : k = i
    · exact fun _ _ => first.trans second.symm
    · subst first
      rw [Function.update_self, Function.update_of_ne second]
      intro mine pending
      -- an address set apart just now is above every other
      exact absurd (placed.pending k a pending).1 (reserved a mine).1.not_gt
    · subst second
      rw [Function.update_self, Function.update_of_ne first]
      intro pending mine
      exact absurd (placed.pending j a pending).1 (reserved a mine).1.not_gt
    · rw [Function.update_of_ne first, Function.update_of_ne second]
      exact placed.apart j k a
  · intro j k te pp qq
    by_cases first : j = i <;> by_cases second : k = i
    · exact fun _ _ => first.trans second.symm
    · subst first
      rw [Function.update_self, Function.update_of_ne second]
      exact fun mine other => absurd other (alone te pp mine k second qq)
    · subst second
      rw [Function.update_self, Function.update_of_ne first]
      exact fun other mine => absurd other (alone te qq mine j first pp)
    · rw [Function.update_of_ne first, Function.update_of_ne second]
      exact placed.alone j k te pp qq

end Phases

/-! ## One step -/

/-- The torrents a step leaves, the phase its job goes on to and what it prints. -/
inductive Stepped (requests : Jobs → JobsWorking.Request) (env : Environment)
    (tl : TorrentList) (i : Jobs) : Phase → TorrentList → Phase → Option Reply → Prop where
  | reject (job : Job) (ctx : PeerReq) (error : SanitizeError) (is : requests i = .announce job)
      (built : httpBuildPeerReq env.curl job.httpKvList = .ok ctx)
      (found : sanitizePeerReq ctx = some error) :
      Stepped requests env tl i .starting tl .done
        (some (.failure (torrentMsgFailureGeneric (errorText error))))
  | accept (job : Job) (ctx : PeerReq) (is : requests i = .announce job)
      (built : httpBuildPeerReq env.curl job.httpKvList = .ok ctx) (sane : sanitizePeerReq ctx = none) :
      Stepped requests env tl i .starting (torrentListWorkon tl) (.looking ctx job.clientaddr) none
  | scrape (list : List HttpUriKv) (fresh : Nat → FreshHash) (hashlist : List (List UInt8))
      (is : requests i = .scrape list fresh) :
      Stepped requests env tl i .starting (torrentListWorkon tl) (.scraping hashlist [] []) none
  | miss (ctx : PeerReq) (clientaddr : InAddr) (after : TorrentList)
      (looked : Lookup env.db ctx.infoHash tl after none) :
      Stepped requests env tl i (.looking ctx clientaddr) after (.missed [])
        (some (.failure torrentMsgFailureMissingHash))
  | look (ctx : PeerReq) (clientaddr : InAddr) (after : TorrentList) (te : Node TorrentEntry)
      (pe : PeerEntry) (looked : Lookup env.db ctx.infoHash tl after (some te))
      (peer : peerOf clientaddr ctx = .ok pe) :
      Stepped requests env tl i (.looking ctx clientaddr) after
        (.searching te.addr pe ctx.event.bytes) none
  | searchMiss (te : Node TorrentEntry) (pe : PeerEntry) (event : List UInt8) (member : te ∈ tl.list)
      (absent : peerSearchPeer pe te.val.peers = none) :
      Stepped requests env tl i (.searching te.addr pe event) { tl with next := tl.next + 1 }
        (.absent te.addr ⟨tl.next, pe⟩ event) none
  | searchHit (te : Node TorrentEntry) (pe : PeerEntry) (event : List UInt8) (pp : Node PeerEntry)
      (member : te ∈ tl.list) (found : peerSearchPeer pe te.val.peers = some pp) :
      Stepped requests env tl i (.searching te.addr pe event) { tl with next := tl.next + 1 }
        (.found te.addr pp event) none
  | add (te : Node TorrentEntry) (pep : Node PeerEntry) (event : List UInt8) (member : te ∈ tl.list)
      (start : wantsStart event = true) :
      Stepped requests env tl i (.absent te.addr pep event)
        (write tl te (torrentAddPeerAndReturnList te.val pep).1)
        (.leaving te.addr) (some (.peerList (torrentAddPeerAndReturnList te.val pep).2))
  | silent (te : Nat) (pep : Node PeerEntry) (event : List UInt8) (other : wantsStart event = false) :
      Stepped requests env tl i (.absent te pep event) tl (.leaving te) (some .silent)
  | update (te : Node TorrentEntry) (pp : Node PeerEntry) (event : List UInt8) (member : te ∈ tl.list) :
      Stepped requests env tl i (.found te.addr pp event)
        (write tl te (torrentUpdatePeerAndReturnList te.val pp (updateAction event)).1)
        (if updateAction event = .stop then .stopping te.addr pp else .leaving te.addr)
        (some (.peerList (torrentUpdatePeerAndReturnList te.val pp (updateAction event)).2))
  | unlink (te : Node TorrentEntry) (pp : Node PeerEntry) (member : te ∈ tl.list) :
      Stepped requests env tl i (.stopping te.addr pp)
        (write tl te (torrentRemovePeer te.val pp))
        (.leaving te.addr) none
  | leave (phase : Phase) (ends : (∃ torrents, phase = .missed torrents) ∨
      (∃ te, phase = .leaving te) ∨ ∃ sctx torrents, phase = .scraping [] sctx torrents) :
      Stepped requests env tl i phase (torrentListJobdone tl) .done none
  | scrapeMiss (infoHash : List UInt8) (rest : List (List UInt8)) (sctx : List ScrapeEntry)
      (torrents : List Nat) (after : TorrentList) (looked : Lookup env.db infoHash tl after none) :
      Stepped requests env tl i (.scraping (infoHash :: rest) sctx torrents) after (.missed torrents) none
  | scrapeLook (infoHash : List UInt8) (rest : List (List UInt8)) (sctx : List ScrapeEntry)
      (torrents : List Nat) (after : TorrentList) (te : Node TorrentEntry)
      (looked : Lookup env.db infoHash tl after (some te)) :
      Stepped requests env tl i (.scraping (infoHash :: rest) sctx torrents) after
        (.copying te.addr rest sctx torrents) none
  | copy (te : Nat) (rest : List (List UInt8)) (sctx more : List ScrapeEntry) (torrents : List Nat) :
      Stepped requests env tl i (.copying te rest sctx torrents) tl
        (.scraping rest more (te :: torrents)) none

section Steps
variable [DecidableEq Jobs] {requests : Jobs → JobsWorking.Request} {env : Environment}
  {s t : Answering Jobs} {i : Jobs}

/-- What a step of this kind makes of a state. -/
def Becomes (s : Answering Jobs) (i : Jobs) (tl : TorrentList) (phase : Phase)
    (reply : Option Reply) (t : Answering Jobs) : Prop :=
  t.shared.tl = tl ∧ t.shared.jobs = Function.update s.shared.jobs i phase ∧
    t.replies = reply.elim s.replies fun printed => Function.update s.replies i (some printed)

theorem use_becomes {tl : TorrentList} (used : List (Nat × Bool)) {te : Node TorrentEntry}
    (listed : Listed env.db tl) (member : te ∈ tl.list) (body : TorrentEntry → TorrentEntry × Phase)
    (reply : Option Reply) :
    Becomes s i (write tl te (body te.val).1) (body te.val).2 reply
      ⟨useTorrent { s.shared with tl := tl, used := used } i te.addr body,
        reply.elim s.replies fun printed => Function.update s.replies i (some printed)⟩ := by
  have found : tl.list.find? (fun other => other.addr == te.addr) = some te := torrent_at listed member
  simp only [useTorrent, found]
  exact ⟨rfl, rfl, rfl⟩

theorem look_becomes {tl : TorrentList} (used : List (Nat × Bool)) {te : Node TorrentEntry}
    (listed : Listed env.db tl) (member : te ∈ tl.list) (body : TorrentEntry → TorrentEntry × Phase)
    (reply : Option Reply) {phase : Phase} (looks : body te.val = (te.val, phase)) :
    Becomes s i tl phase reply
      ⟨useTorrent { s.shared with tl := tl, used := used } i te.addr body,
        reply.elim s.replies fun printed => Function.update s.replies i (some printed)⟩ := by
  have becomes := use_becomes (s := s) (i := i) used listed member body reply
  simpa only [looks, write_same listed member] using becomes

/-- A step of this kind makes `t` of `s`. -/
def Steps (requests : Jobs → JobsWorking.Request) (env : Environment) (s : Answering Jobs) (i : Jobs)
    (t : Answering Jobs) : Prop :=
  ∃ tl phase reply, Stepped requests env s.shared.tl i (s.shared.jobs i) tl phase reply ∧
    Becomes s i tl phase reply t

theorem starting_steps (here : s.shared.jobs i = .starting)
    (taken : answeringStep requests env s i = some t) : Steps requests env s i t := by
  obtain ⟨u, stepped, rfl⟩ := Option.map_eq_some_iff.mp taken
  unfold jobStep at stepped
  unfold Steps replyOf
  simp only [here] at stepped ⊢
  unfold start at stepped
  cases is : requests i with
  | scrape list fresh =>
      simp only [is] at stepped ⊢
      cases stepped
      exact ⟨_, _, none, .scrape list fresh _ is, rfl, rfl, rfl⟩
  | announce job =>
      simp only [is] at stepped ⊢
      cases built : httpBuildPeerReq env.curl job.httpKvList with
      | error fault => simp [built] at stepped
      | ok ctx =>
          simp only [built] at stepped ⊢
          cases found : sanitizePeerReq ctx with
          | none =>
              simp only [found, if_true, Option.map_none] at stepped ⊢
              cases stepped
              exact ⟨_, _, none, .accept job ctx is built found, rfl, rfl, rfl⟩
          | some error =>
              simp only [found, reduceCtorEq, if_false, Option.map_some] at stepped ⊢
              cases stepped
              exact ⟨_, _, _, .reject job ctx error is built found, rfl, rfl, rfl⟩

theorem looking_steps {ctx : PeerReq} {clientaddr : InAddr}
    (here : s.shared.jobs i = .looking ctx clientaddr)
    (taken : answeringStep requests env s i = some t) : Steps requests env s i t := by
  obtain ⟨u, stepped, rfl⟩ := Option.map_eq_some_iff.mp taken
  unfold jobStep at stepped
  unfold Steps replyOf
  simp only [here] at stepped ⊢
  cases looked : torrentLookupTorrent env.db ctx.infoHash s.shared.tl with
  | error fault => simp [looked] at stepped
  | ok both =>
      obtain ⟨after, found⟩ := both
      have lookup := lookup_cases looked
      cases found with
      | none =>
          simp only [looked] at stepped ⊢
          cases stepped
          exact ⟨_, _, _, .miss ctx clientaddr after lookup, rfl, rfl, rfl⟩
      | some te =>
          simp only [looked] at stepped ⊢
          cases peer : peerOf clientaddr ctx with
          | error fault => simp [peer] at stepped
          | ok pe =>
              simp only [peer] at stepped
              cases stepped
              exact ⟨_, _, none, .look ctx clientaddr after te pe lookup peer, rfl, rfl, rfl⟩

theorem searching_steps {te : Node TorrentEntry} {pe : PeerEntry} {event : List UInt8}
    (listed : Listed env.db s.shared.tl) (member : te ∈ s.shared.tl.list)
    (here : s.shared.jobs i = .searching te.addr pe event)
    (taken : answeringStep requests env s i = some t) : Steps requests env s i t := by
  obtain ⟨u, stepped, rfl⟩ := Option.map_eq_some_iff.mp taken
  unfold jobStep at stepped
  unfold Steps replyOf
  simp only [here] at stepped ⊢
  have reserved : Listed env.db { s.shared.tl with next := s.shared.tl.next + 1 } :=
    listed_same listed rfl (Nat.le_succ _)
  cases stepped
  cases searched : peerSearchPeer pe te.val.peers with
  | none =>
      exact ⟨_, _, none, .searchMiss te pe event member searched,
        look_becomes _ reserved member _ none (by simp only [searched])⟩
  | some pp =>
      exact ⟨_, _, none, .searchHit te pe event pp member searched,
        look_becomes _ reserved member _ none (by simp only [searched])⟩

theorem absent_steps {te : Node TorrentEntry} {pep : Node PeerEntry} {event : List UInt8}
    (listed : Listed env.db s.shared.tl) (member : te ∈ s.shared.tl.list)
    (here : s.shared.jobs i = .absent te.addr pep event)
    (taken : answeringStep requests env s i = some t) : Steps requests env s i t := by
  obtain ⟨u, stepped, rfl⟩ := Option.map_eq_some_iff.mp taken
  unfold jobStep at stepped
  unfold Steps replyOf
  simp only [here] at stepped ⊢
  cases start : wantsStart event with
  | true =>
      simp only [start, if_true, torrent_at listed member, Option.map_some] at stepped ⊢
      cases stepped
      exact ⟨_, _, _, .add te pep event member start, use_becomes _ listed member _ _⟩
  | false =>
      simp only [start, Bool.false_eq_true, if_false] at stepped ⊢
      cases stepped
      exact ⟨_, _, _, .silent te.addr pep event start, rfl, rfl, rfl⟩

theorem scraping_steps {hashlist : List (List UInt8)} {sctx : List ScrapeEntry} {torrents : List Nat}
    (here : s.shared.jobs i = .scraping hashlist sctx torrents)
    (taken : answeringStep requests env s i = some t) : Steps requests env s i t := by
  obtain ⟨u, stepped, rfl⟩ := Option.map_eq_some_iff.mp taken
  unfold jobStep at stepped
  unfold Steps replyOf
  simp only [here] at stepped ⊢
  cases hashlist with
  | nil =>
      cases stepped
      exact ⟨_, _, none, .leave _ (Or.inr (Or.inr ⟨_, _, rfl⟩)), rfl, rfl, rfl⟩
  | cons infoHash rest =>
      simp only at stepped
      cases looked : torrentLookupTorrent env.db infoHash s.shared.tl with
      | error fault => simp [looked] at stepped
      | ok both =>
          obtain ⟨after, found⟩ := both
          have lookup := lookup_cases looked
          cases found with
          | none =>
              simp only [looked] at stepped
              cases stepped
              exact ⟨_, _, none, .scrapeMiss infoHash rest sctx torrents after lookup, rfl, rfl, rfl⟩
          | some te =>
              simp only [looked] at stepped
              cases stepped
              exact ⟨_, _, none, .scrapeLook infoHash rest sctx torrents after te lookup, rfl, rfl, rfl⟩

theorem step_cases (listed : Listed env.db s.shared.tl)
    (knows : Knows requests env s.shared.tl i (s.shared.jobs i))
    (taken : answeringStep requests env s i = some t) :
    Steps requests env s i t := by
  cases here : s.shared.jobs i with
  | starting => exact starting_steps here taken
  | looking ctx clientaddr => exact looking_steps here taken
  | searching addr pe event =>
      rw [here] at knows
      obtain ⟨te, member, rfl, -⟩ := knows
      exact searching_steps listed member here taken
  | absent addr pep event =>
      rw [here] at knows
      obtain ⟨te, member, rfl, -⟩ := knows
      exact absent_steps listed member here taken
  | scraping hashlist sctx torrents => exact scraping_steps here taken
  | missed torrents =>
      obtain ⟨u, stepped, rfl⟩ := Option.map_eq_some_iff.mp taken
      simp only [jobStep, Steps, replyOf, here] at stepped ⊢
      cases stepped
      exact ⟨_, _, none, .leave _ (Or.inl ⟨_, rfl⟩), rfl, rfl, rfl⟩
  | leaving te =>
      obtain ⟨u, stepped, rfl⟩ := Option.map_eq_some_iff.mp taken
      simp only [jobStep, Steps, replyOf, here] at stepped ⊢
      cases stepped
      exact ⟨_, _, none, .leave _ (Or.inr (Or.inl ⟨_, rfl⟩)), rfl, rfl, rfl⟩
  | found addr pp event =>
      rw [here] at knows
      obtain ⟨te, member, rfl, -, -⟩ := knows
      obtain ⟨u, stepped, rfl⟩ := Option.map_eq_some_iff.mp taken
      simp only [jobStep, Steps, replyOf, here, torrent_at listed member, Option.map_some] at stepped ⊢
      cases stepped
      exact ⟨_, _, _, .update te pp event member, use_becomes _ listed member _ _⟩
  | stopping addr pp =>
      rw [here] at knows
      obtain ⟨te, member, rfl, -⟩ := knows
      obtain ⟨u, stepped, rfl⟩ := Option.map_eq_some_iff.mp taken
      simp only [jobStep, Steps, replyOf, here] at stepped ⊢
      cases stepped
      exact ⟨_, _, none, .unlink te pp member, use_becomes _ listed member _ none⟩
  | copying addr rest sctx torrents =>
      rw [here] at knows
      obtain ⟨⟨te, member, rfl⟩, -⟩ := knows
      obtain ⟨u, stepped, rfl⟩ := Option.map_eq_some_iff.mp taken
      simp only [jobStep, Steps, replyOf, here] at stepped ⊢
      cases stepped
      exact ⟨_, _, none, .copy te.addr rest sctx _ torrents, look_becomes _ listed member _ none rfl⟩
  | done =>
      obtain ⟨u, stepped, rfl⟩ := Option.map_eq_some_iff.mp taken
      simp [jobStep, here] at stepped

end Steps

end Ttracker.AnnounceSteps
