import Ttracker.ConcurrentAnnounces

/-!
A start that comes between the two sections of a stop. The stop has printed the list without
the new peer, the start prints it with the peer that is leaving, and one after the other
neither would.
-/
namespace Ttracker.DividedStops
open CLibrary LinkedNodes FirstMatches BoundedPrint HttpQuery PeerRequest Torrents TorrentCache
  AnnounceHandler ScrapeHandler ScrapeText ScrapeReplies PeerListReply AnnounceReplies Bencode
  ServedRequests ServedMemory JobsWorking TransitionRuns Swarms TrackerRefinement Linearizations
  AnnounceSteps AnnounceAnswers ConcurrentAnnounces

variable {Jobs : Type}

/-- What is sent of a reply, a peer list up to its NUL. -/
def printedText : Reply → List UInt8
  | .silent => []
  | .failure message => message
  | .peerList printed => cstr printed.mem

structure HeaderFits (te : TorrentEntry) : Prop where
  room : 0 < replySize te.peerCount
  short : (replyHeader te).length ≤ 72

/-- A listed peer's torrent, before and after another peer is added. -/
theorem divided_fit {te : TorrentEntry} (counted : te.peerCount = te.peers.length)
    (some_peer : 0 < te.peers.length) (small : 128 * (te.peers.length + 1) < 2 ^ 31)
    (ints : IntCounters ⟨te.seeders, te.leechers, te.complete, te.peerCount, te.infoHash⟩)
    (pep : Node PeerEntry) : HeaderFits te ∧ HeaderFits (insertPeer te pep) := by
  have seeders : -2 ^ 31 ≤ te.seeders ∧ te.seeders < 2 ^ 31 := ints.seeders
  have leechers : -2 ^ 31 ≤ te.leechers ∧ te.leechers < 2 ^ 31 := ints.leechers
  have room (peers : Nat) (positive : 0 < peers) (fits : 128 * peers < 2 ^ 31) :
      0 < replySize peers := by
    rw [replySize, toInt32, Int.bmod_eq_of_le (by omega) (by omega)]
    omega
  constructor
  · exact ⟨counted ▸ room _ some_peer (by omega), length_reply_header_le te (by omega) (by omega)⟩
  · have more : (insertPeer te pep).peerCount = (te.peers.length + 1 : Nat) := by
      simp only [insertPeer]
      omega
    refine ⟨more ▸ room _ (Nat.succ_pos _) small, length_reply_header_le _ ?_ ?_⟩ <;>
      simp only [insertPeer] <;> split <;> omega

theorem header_kept {te : TorrentEntry} (fits : HeaderFits te) :
    replyHeader te <+: cstr (peerListReply te).mem := by
  have room := fits.room
  have short := fits.short
  have aligned := reply_size_aligned te.peerCount
  have read := header_read te room
  rwa [List.take_of_length_le (by omega)] at read

theorem counters_read {te te' : TorrentEntry} (fits : HeaderFits te)
    (same : cstr (peerListReply te).mem = cstr (peerListReply te').mem) :
    te.seeders = te'.seeders ∧ te.leechers = te'.leechers := by
  have read := header_kept fits
  rw [same] at read
  have short := fits.short
  have aligned := reply_size_aligned te'.peerCount
  have length := (peer_list_written te').2
  by_cases room : 0 < replySize te'.peerCount
  · -- at least 127 characters of the other header are there
    rcases List.prefix_or_prefix_of_prefix read (header_read te' room) with front | front
    · obtain ⟨rest, is⟩ := front.trans (List.take_prefix _ _)
      exact header_counters (is.trans (List.append_nil _).symm)
    · have bound := front.length_le
      rw [List.length_take] at bound
      rw [List.take_of_length_le (by omega)] at front
      obtain ⟨rest, is⟩ := front
      exact header_counters ((List.append_nil _).trans is.symm)
  · -- a block of no bytes reads as nothing
    have some_header := List.length_pos_iff.mpr (front_named te (replyHeader te) List.mem_cons_self)
    have bound := read.length_le.trans (cstr_length_le _)
    omega

theorem failure_apart {te : TorrentEntry} (fits : HeaderFits te) {back : List UInt8}
    (same : failureReason ++ back = cstr (peerListReply te).mem) : False := by
  have read := header_kept fits
  rw [← same] at read
  have opening : text "d8:completei" <+: failureReason ++ back := by
    refine List.IsPrefix.trans ?_ read
    simp only [replyHeader, List.append_assoc]
    exact List.prefix_append _ _
  have reason : failureReason = 100 :: 49 :: text "4:failure reason" := by decide +kernel
  have complete : text "d8:completei" = 100 :: 56 :: text ":completei" := by decide +kernel
  rw [reason, complete] at opening
  simp at opening

/-- Who is sent what a peer list reads as has been told its counters. -/
theorem replied_counters {te : TorrentEntry} (fits : HeaderFits te) {told : Reply} {answer : Answer}
    (replied : Replied told answer) (same : printedText told = cstr (peerListReply te).mem) :
    ∃ s, answer = .swarm s ∧ s.seeders = te.seeders ∧ s.leechers = te.leechers := by
  cases replied with
  | silent =>
      have read := header_kept fits
      rw [← same] at read
      exact absurd (List.prefix_nil.mp read) (front_named te (replyHeader te) List.mem_cons_self)
  | invalid error =>
      rw [printedText, torrentMsgFailureGeneric, List.append_assoc] at same
      exact (failure_apart fits same).elim
  | missing =>
      have reason : torrentMsgFailureMissingHash =
          failureReason ++ text "29:Missing \"info_hash\" parametere" := by decide +kernel
      exact (failure_apart fits (reason.symm.trans same)).elim
  | swarm te' =>
      obtain ⟨seeders, leechers⟩ := counters_read fits same.symm
      exact ⟨swarmOf te', rfl, seeders.symm, leechers.symm⟩

/-- How many peers a swarm says it has. -/
def members (s : Swarm PeerEntry) : Int := s.seeders + s.leechers

theorem members_join (s : Swarm PeerEntry) (pe : PeerEntry) :
    members (s.join whole pe) = members s + 1 := by
  unfold members Swarm.join
  split <;> dsimp only <;> omega

theorem members_leave (s : Swarm PeerEntry) (pe : PeerEntry) :
    members (s.leave PeerEntry.endpoint whole pe) + 1 = members s := by
  unfold members Swarm.leave
  split <;> dsimp only <;> omega

section Divided
variable {requests : Jobs → JobsWorking.Request} {env : Environment} {i : Jobs} {k : Key}
  {pe : PeerEntry} {event : List UInt8} {t : Tracker Key PeerEntry} {s : Swarm PeerEntry}

theorem stop_members (announces : AnnouncesTo requests env i k pe event)
    (stop : updateAction event = .stop) (told : (act requests env t i).2 = .swarm s) :
    members s = members (content t k) ∧
      members (content (act requests env t i).1 k) + 1 = members s := by
  have kind := (event_listed event).1 stop
  rw [act_announce announces, kind] at told ⊢
  unfold Swarm.announce at told ⊢
  cases found : (content t k).peers.find? (fun other => other.endpoint == pe.endpoint) with
  | none => simp [found] at told
  | some listed =>
      simp only [found, Option.elim_some, Told.swarm.injEq] at told ⊢
      subst told
      refine ⟨rfl, ?_⟩
      simpa [content] using members_leave (content t k) listed

theorem start_members (announces : AnnouncesTo requests env i k pe event)
    (start : wantsStart event = true) (told : (act requests env t i).2 = .swarm s) :
    members s = members (content (act requests env t i).1 k) ∧
      (members s = members (content t k) ∨ members s = members (content t k) + 1) := by
  have kind : eventOf event = .start := if_pos start
  rw [act_announce announces, kind] at told ⊢
  unfold Swarm.announce at told ⊢
  cases found : (content t k).peers.find? (fun other => other.endpoint == pe.endpoint) with
  | none =>
      simp only [found, Option.elim_some, Told.swarm.injEq] at told ⊢
      subst told
      exact ⟨by simp [content], Or.inr (members_join (content t k) pe)⟩
  | some listed =>
      simp only [found, Option.elim_some, Told.swarm.injEq] at told ⊢
      subst told
      exact ⟨by simp [content], Or.inl rfl⟩

/-- Two jobs that act one after the other are sent these texts. -/
def ToldInTurn (requests : Jobs → JobsWorking.Request) (env : Environment) (t : Tracker Key PeerEntry)
    (i j : Jobs) (first second : List UInt8) : Prop :=
  (∃ told, Replied told (act requests env t i).2 ∧ printedText told = first) ∧
    ∃ told, Replied told (act requests env (act requests env t i).1 j).2 ∧ printedText told = second

/-- The start's text counts one peer more than the stop's. -/
theorem never_told_in_turn {j : Jobs} {pe' : PeerEntry} {event' : List UInt8} {te te' : TorrentEntry}
    (stops : AnnouncesTo requests env i k pe event) (stop : updateAction event = .stop)
    (starts : AnnouncesTo requests env j k pe' event') (start : wantsStart event' = true)
    (fits : HeaderFits te) (fits' : HeaderFits te')
    (one : members (swarmOf te') = members (swarmOf te) + 1) (t : Tracker Key PeerEntry) :
    ¬ ToldInTurn requests env t i j (cstr (peerListReply te).mem) (cstr (peerListReply te').mem) ∧
      ¬ ToldInTurn requests env t j i (cstr (peerListReply te').mem) (cstr (peerListReply te).mem) := by
  simp only [members, swarmOf] at one
  constructor
  -- the stop first: the start is told at most as many peers as the stop was
  · rintro ⟨⟨told, replied, same⟩, told', replied', same'⟩
    obtain ⟨s, heard, seeders, leechers⟩ := replied_counters fits replied same
    obtain ⟨s', heard', seeders', leechers'⟩ := replied_counters fits' replied' same'
    have before := stop_members stops stop heard
    have after := start_members starts start heard'
    simp only [members] at before after
    omega
  -- the start first: the stop is told as many peers as it was
  · rintro ⟨⟨told', replied', same'⟩, told, replied, same⟩
    obtain ⟨s', heard', seeders', leechers'⟩ := replied_counters fits' replied' same'
    obtain ⟨s, heard, seeders, leechers⟩ := replied_counters fits replied same
    have before := start_members starts start heard'
    have after := stop_members stops stop heard
    simp only [members] at before after
    omega

end Divided

section Prints
variable [DecidableEq Jobs] {requests : Jobs → JobsWorking.Request} {env : Environment}
  {s t : Answering Jobs} {i : Jobs} {te : Node TorrentEntry}

theorem stop_prints {pp : Node PeerEntry} {event : List UInt8} (listed : Listed env.db s.shared.tl)
    (knows : Knows requests env s.shared.tl i (s.shared.jobs i)) (member : te ∈ s.shared.tl.list)
    (here : s.shared.jobs i = .found te.addr pp event) (stop : updateAction event = .stop)
    (taken : answeringStep requests env s i = some t) :
    t.shared.tl = s.shared.tl ∧ (∀ j, j ≠ i → t.shared.jobs j = s.shared.jobs j) ∧
      t.replies i = some (.peerList (peerListReply te.val)) := by
  have updated : torrentUpdatePeerAndReturnList te.val pp (updateAction event) =
      (te.val, peerListReply te.val) := by
    rw [stop]
    rfl
  obtain ⟨tl, phase, reply, stepped, torrents, jobs, replies⟩ := step_cases listed knows taken
  rw [here] at stepped
  generalize same : te.addr = addr at stepped
  cases stepped with
  | leave _ ends => simp at ends
  | update other pp event inside =>
      obtain rfl := node_unique listed.sound.addressed.distinct inside member same.symm
      rw [updated] at torrents replies
      refine ⟨torrents.trans (write_same listed inside), fun j others => ?_, ?_⟩
      · rw [jobs, Function.update_of_ne others]
      · rw [replies]
        exact Function.update_self _ _ _

theorem start_prints {pep : Node PeerEntry} {event : List UInt8} (listed : Listed env.db s.shared.tl)
    (knows : Knows requests env s.shared.tl i (s.shared.jobs i)) (member : te ∈ s.shared.tl.list)
    (here : s.shared.jobs i = .absent te.addr pep event) (start : wantsStart event = true)
    (absent : peerSearchPeer pep.val te.val.peers = none)
    (taken : answeringStep requests env s i = some t) :
    (∀ j, j ≠ i → t.replies j = s.replies j) ∧
      t.replies i = some (.peerList (peerListReply (insertPeer te.val pep))) := by
  obtain ⟨tl, phase, reply, stepped, -, -, replies⟩ := step_cases listed knows taken
  rw [here] at stepped
  generalize same : te.addr = addr at stepped
  cases stepped with
  | leave _ ends => simp at ends
  | silent _ _ _ otherwise => cases start.symm.trans otherwise
  | add other pep event inside =>
      obtain rfl := node_unique listed.sound.addressed.distinct inside member same.symm
      rw [replies]
      refine ⟨fun j others => Function.update_of_ne others _ _, ?_⟩
      simp [torrentAddPeerAndReturnList, absent]

end Prints

section Announces
variable [DecidableEq Jobs] (requests : Jobs → JobsWorking.Request) (env : Environment)
  (run : List Jobs) (s u : Answering Jobs) (i j : Jobs) (addr : Nat) (pp pep : Node PeerEntry)
  (event event' : List UInt8)

/-- When a new peer starts between the two sections of a stop, the texts that the two jobs send
fit neither order, whatever the swarms were. -/
theorem divided_stop_unexplained
    (along : Along (answeringStep requests env) Undisturbed opening run)
    (reached : replay (answeringStep requests env) opening run = some s)
    (stops : s.shared.jobs i = .found addr pp event) (stop : updateAction event = .stop)
    (starts : s.shared.jobs j = .absent addr pep event') (start : wantsStart event' = true)
    (fresh : ∀ te ∈ s.shared.tl.list, te.addr = addr → peerSearchPeer pep.val te.val.peers = none)
    (ints : IntTorrents s.shared.tl)
    (small : ∀ te ∈ s.shared.tl.list, 128 * (te.val.peers.length + 1) < 2 ^ 31)
    (taken : replay (answeringStep requests env) s [i, j] = some u) :
    ∃ first second, u.replies i = some first ∧ u.replies j = some second ∧
      ∀ t, ¬ ToldInTurn requests env t i j (printedText first) (printedText second) ∧
        ¬ ToldInTurn requests env t j i (printedText second) (printedText first) := by
  obtain ⟨order, ⟨-, related⟩, -⟩ :=
    run_explained (answering_settles requests env) (opening_related requests env) along reached
  obtain ⟨v, first, taken⟩ := Option.bind_eq_some_iff.mp taken
  obtain ⟨w, second, taken⟩ := Option.bind_eq_some_iff.mp taken
  cases taken
  have other : j ≠ i := by
    rintro rfl
    cases stops.symm.trans starts
  have knows := related.placed.knows i
  have knows' := related.placed.knows j
  rw [stops] at knows
  rw [starts] at knows'
  obtain ⟨te, member, rfl, inside, pe, -, announces⟩ := knows
  obtain ⟨te', member', address, announces'⟩ := knows'
  obtain rfl := node_unique related.listed.sound.addressed.distinct member' member address
  obtain ⟨torrents, jobs, replies⟩ :=
    stop_prints related.listed (related.placed.knows i) member' stops stop first
  have later := jobs j other
  have listed : Listed env.db v.shared.tl := torrents ▸ related.listed
  have knows : Knows requests env v.shared.tl j (v.shared.jobs j) := by
    rw [torrents, later]
    exact related.placed.knows j
  obtain ⟨kept, added⟩ := start_prints listed knows (torrents ▸ member') (later.trans starts) start
    (fresh _ member' rfl) second
  obtain ⟨fits, fits'⟩ := divided_fit (related.listed.sound.addressed.torrents _ member').counted
    (List.length_pos_of_mem inside) (small _ member') (ints _ member') pep
  have one := members_join (swarmOf te'.val) pep.val
  rw [← swarm_insert] at one
  refine ⟨_, _, (kept i other.symm).trans replies, added, fun t => ?_⟩
  exact never_told_in_turn announces stop announces' start fits fits' one t

end Announces

def startedOnce : List Sample :=
  List.replicate 5 .first ++ List.replicate 3 .stop ++ List.replicate 3 .second

/-- The second job has found the peer it stops, and the third has not found its own. -/
def AboutToDivide (s : Answering Sample) : Bool :=
  match s.shared.jobs .stop, s.shared.jobs .second with
  | .found addr _ event, .absent addr' pep event' =>
      addr == addr' && updateAction event == .stop && wantsStart event' &&
        (s.shared.tl.list.all fun te => (peerSearchPeer pep.val te.val.peers).isNone) &&
          decide (IntTorrents s.shared.tl ∧ ∀ te ∈ s.shared.tl.list, te.val.peers.length < 2) &&
            (replay (answeringStep stopAndStarts sampleEnv) s [.stop, .second]).isSome
  | _, _ => false

theorem about_to_divide :
    (replay (answeringStep stopAndStarts sampleEnv) opening startedOnce).any AboutToDivide = true := by
  decide +kernel

theorem divided_stop_unexplained_start : ∃ s u first second,
    replay (answeringStep stopAndStarts sampleEnv) opening startedOnce = some s ∧
      replay (answeringStep stopAndStarts sampleEnv) s [.stop, .second] = some u ∧
        u.replies .stop = some first ∧ u.replies .second = some second ∧
          ∀ t, ¬ ToldInTurn stopAndStarts sampleEnv t .stop .second (printedText first) (printedText second) ∧
            ¬ ToldInTurn stopAndStarts sampleEnv t .second .stop (printedText second) (printedText first) := by
  obtain ⟨s, reached, divides⟩ := (Option.any_eq_true _ _).mp about_to_divide
  unfold AboutToDivide at divides
  split at divides
  · next addr pp event addr' pep event' stops starts =>
      simp only [Bool.and_eq_true, beq_iff_eq, List.all_eq_true, Option.isNone_iff_eq_none,
        decide_eq_true_eq] at divides
      obtain ⟨⟨⟨⟨⟨rfl, stop⟩, start⟩, fresh⟩, ints, few⟩, further⟩ := divides
      obtain ⟨u, taken⟩ := Option.isSome_iff_exists.mp further
      have along : Along (answeringStep stopAndStarts sampleEnv) Undisturbed opening startedOnce :=
        checked_along sample_listed (by decide +kernel)
      obtain ⟨first, second, prints, prints', never⟩ :=
        divided_stop_unexplained stopAndStarts sampleEnv startedOnce s u .stop .second addr pp pep event event'
          along reached stops stop starts start (fun te member _ => fresh te member) ints
          (fun te member => by have := few te member; omega) taken
      exact ⟨s, u, first, second, reached, taken, prints, prints', never⟩
  · cases divides

end Ttracker.DividedStops
