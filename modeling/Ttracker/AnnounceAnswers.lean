import Ttracker.AnnounceSteps

/-!
What the torrents stand for while announces are under way, and what the jobs have been told.
A section under a torrent's lock does to its swarm what its announce does there.
-/
namespace Ttracker.AnnounceAnswers
open CLibrary LinkedNodes FirstMatches BoundedPrint HttpQuery PeerRequest Torrents TorrentCache
  AnnounceHandler ScrapeHandler PeerListReply AnnounceReplies Bencode ServedRequests ServedMemory
  JobsWorking Swarms TrackerRefinement AnnounceSteps

variable {Jobs : Type}

/-! ## What the torrents stand for -/

/-- A swarm is its torrent, without the peer that a stop has still to unlink. -/
structure Stands (tl : TorrentList) (jobs : Jobs → Phase) (t : Tracker Key PeerEntry) : Prop where
  stops : ∀ i addr pp, jobs i = .stopping addr pp → ∀ te ∈ tl.list, te.addr = addr →
    content t (torrentKey te.val) = swarmOf (torrentRemovePeer te.val pp)
  idle : ∀ te ∈ tl.list, (∀ i pp, jobs i ≠ .stopping te.addr pp) →
    content t (torrentKey te.val) = swarmOf te.val
  unlisted : ∀ k, (∀ te ∈ tl.list, torrentKey te.val ≠ k) → t k = none

def NotStopping (phase : Phase) : Prop := ∀ addr pp, phase ≠ .stopping addr pp

section Swarms
variable [DecidableEq Jobs] {tl tl' : TorrentList} {jobs : Jobs → Phase} {i : Jobs} {phase : Phase}
  {t t' : Tracker Key PeerEntry}

theorem stopping_update (before : NotStopping (jobs i)) (after : NotStopping phase) (j : Jobs) (addr : Nat)
    (pp : Node PeerEntry) :
    Function.update jobs i phase j = .stopping addr pp ↔ jobs j = .stopping addr pp := by
  by_cases same : j = i
  · subst same
    rw [Function.update_self]
    exact ⟨fun here => absurd here (after addr pp), fun here => absurd here (before addr pp)⟩
  · rw [Function.update_of_ne same]

theorem stands_same (stands : Stands tl jobs t) (same : tl'.list = tl.list) (before : NotStopping (jobs i))
    (after : NotStopping phase) : Stands tl' (Function.update jobs i phase) t := by
  have stopping := stopping_update before after
  constructor
  · intro j addr pp here te member
    rw [same] at member
    exact stands.stops j addr pp ((stopping j addr pp).mp here) te member
  · intro te member none
    rw [same] at member
    exact stands.idle te member fun j pp here => none j pp ((stopping j te.addr pp).mpr here)
  · rw [same]
    exact stands.unlisted

omit [DecidableEq Jobs] in
/-- An empty swarm may be made where there was none. -/
theorem stands_content (stands : Stands tl jobs t)
    (same : ∀ k, content t' k = content t k ∧
      ((∀ te ∈ tl.list, torrentKey te.val ≠ k) → t' k = t k)) : Stands tl jobs t' where
  stops j addr pp here te member address := by
    rw [(same _).1]
    exact stands.stops j addr pp here te member address
  idle te member none := by
    rw [(same _).1]
    exact stands.idle te member none
  unlisted k others := ((same k).2 others).trans (stands.unlisted k others)

/-- A torrent that a lookup makes stands for the swarm that was not there. -/
theorem stands_lookup {db : Database} {infoHash : List UInt8} {found : Option (Node TorrentEntry)}
    (listed : Listed db tl) (after' : Listed db tl') (looked : Lookup db infoHash tl tl' found)
    (stands : Stands tl jobs t) (working : ∀ j addr pp, jobs j = .stopping addr pp → addr ∈ addresses tl.list)
    (before : NotStopping (jobs i)) (after : NotStopping phase) : Stands tl' (Function.update jobs i phase) t := by
  cases looked with
  | hit | unknown => exact stands_same stands rfl before after
  | inserted missed fits known =>
      have stopping := stopping_update before after
      have new : (freshTorrent db infoHash tl).addr ∉ addresses tl.list :=
        fun member => (listed.sound.addressed.old _ member).false
      have absent : t (torrentKey (freshTorrent db infoHash tl).val) = none := by
        refine stands.unlisted _ fun te member same => ?_
        have first := (List.nodup_cons.mp after'.keys).1
        exact first (List.mem_map.mpr ⟨te, member, same⟩)
      constructor
      · intro j addr pp here te member address
        -- a stop is on a torrent that was listed before
        have old := working j addr pp ((stopping j addr pp).mp here)
        rcases List.mem_cons.mp member with rfl | before'
        · exact absurd (address ▸ old) new
        · exact stands.stops j addr pp ((stopping j addr pp).mp here) te before' address
      · intro te member none
        rcases List.mem_cons.mp member with rfl | before'
        · rw [content, absent]
          rfl
        · exact stands.idle te before' fun j pp here => none j pp ((stopping j te.addr pp).mpr here)
      · intro k others
        exact stands.unlisted k fun te member => others te (List.mem_cons_of_mem _ member)

/-- A section on a torrent, while nobody else stands between the two of a stop on it. -/
theorem stands_write {db : Database} {te : Node TorrentEntry} {value : TorrentEntry}
    (listed : Listed db tl) (member : te ∈ tl.list) (same : value.infoHash = te.val.infoHash)
    (stands : Stands tl jobs t) (others : ∀ j, j ≠ i → ∀ pp, jobs j ≠ .stopping te.addr pp)
    (own : ∀ addr pp, jobs i = .stopping addr pp → addr = te.addr)
    (elsewhere : ∀ k, k ≠ torrentKey te.val → t' k = t k)
    (now : (∃ pp, phase = .stopping te.addr pp ∧
        content t' (torrentKey te.val) = swarmOf (torrentRemovePeer value pp)) ∨
      NotStopping phase ∧ content t' (torrentKey te.val) = swarmOf value) :
    Stands (write tl te value) (Function.update jobs i phase) t' := by
  have written := mem_write member value
  have key : torrentKey value = torrentKey te.val := by rw [torrentKey, torrentKey, same]
  -- no two torrents have one key, so other swarms are as they were
  have apart : ∀ other ∈ tl.list, other.addr ≠ te.addr →
      content t' (torrentKey other.val) = content t (torrentKey other.val) := by
    intro other inside different
    rw [content, elsewhere _ fun equal => different (congrArg Node.addr
      (key_unique listed.keys inside member equal)), content]
  constructor
  · intro j addr pp here other inside address
    by_cases mine : j = i
    · subst mine
      rw [Function.update_self] at here
      rcases now with ⟨qq, stopping, swarm⟩ | ⟨idle, -⟩
      · obtain ⟨rfl, rfl⟩ := Phase.stopping.inj (stopping.symm.trans here)
        rcases (written other).mp inside with ⟨-, different⟩ | rfl
        · exact absurd address different
        · exact key ▸ swarm
      · exact absurd here (idle addr pp)
    · rw [Function.update_of_ne mine] at here
      rcases (written other).mp inside with ⟨before, different⟩ | rfl
      · rw [apart other before different]
        exact stands.stops j addr pp here other before address
      · exact absurd (address ▸ here) (others j mine pp)
  · intro other inside none
    rcases (written other).mp inside with ⟨before, different⟩ | rfl
    · rw [apart other before different]
      refine stands.idle other before fun j pp here => ?_
      by_cases mine : j = i
      · subst mine
        exact different (own _ _ here)
      · exact none j pp (by rwa [Function.update_of_ne mine])
    · rcases now with ⟨qq, stopping, -⟩ | ⟨-, swarm⟩
      · exact absurd (by rw [Function.update_self, stopping]) (none i qq)
      · exact key ▸ swarm
  · intro k absent
    have other : k ≠ torrentKey te.val := by
      rintro rfl
      exact absent _ ((written _).mpr (Or.inr rfl)) key
    rw [elsewhere k other]
    refine stands.unlisted k fun te' inside equal => ?_
    by_cases here : te'.addr = te.addr
    · rw [node_unique listed.sound.addressed.distinct inside member here] at equal
      exact other equal.symm
    · exact absent te' ((written te').mpr (Or.inl ⟨inside, here⟩)) equal

end Swarms

/-! ## What the jobs have been told -/

/-- What is printed for an answer. -/
inductive Replied : Reply → Answer → Prop where
  | silent : Replied .silent .silent
  | invalid (error : SanitizeError) :
      Replied (.failure (torrentMsgFailureGeneric (errorText error))) (.invalid (errorText error))
  | missing : Replied (.failure torrentMsgFailureMissingHash) .missing
  | swarm (te : TorrentEntry) (counted : te.peerCount = te.peers.length) :
      Replied (.peerList (peerListReply te)) (.swarm (swarmOf te))

/-- The job has not acted on the swarms yet. -/
def Open : Phase → Prop
  | .absent _ _ event => wantsStart event = true
  | .missed _ | .stopping _ _ | .leaving _ | .done => False
  | _ => True

def Settled : Phase → Prop
  | .missed _ | .stopping _ _ | .leaving _ | .done => True
  | _ => False

structure HeardBy (requests : Jobs → JobsWorking.Request) (i : Jobs) (phase : Phase)
    (reply : Option Reply) (told : List (Jobs × Answer)) : Prop where
  fresh : Open phase → i ∉ told.map Prod.fst
  silent : ∀ te pep event, phase = .absent te pep event → wantsStart event = false →
    (i, .silent) ∈ told
  settled : Settled phase → ∀ job, requests i = .announce job →
    ∃ printed answer, reply = some printed ∧ (i, answer) ∈ told ∧ Replied printed answer

section Answers
variable {requests : Jobs → JobsWorking.Request} {jobs : Jobs → Phase}
  {replies replies' : Jobs → Option Reply} {told : List (Jobs × Answer)} {i : Jobs} {phase : Phase}

theorem heard_more {j : Jobs} {reply : Option Reply} {more : List (Jobs × Answer)}
    (heard : HeardBy requests j phase reply told) (others : ∀ entry ∈ more, entry.1 ≠ j) :
    HeardBy requests j phase reply (told ++ more) := by
  refine ⟨fun unsettled member => ?_, fun te pep event same other => ?_, fun settled job is => ?_⟩
  · rw [List.map_append] at member
    rcases List.mem_append.mp member with old | new
    · exact heard.fresh unsettled old
    · obtain ⟨entry, inside, same⟩ := List.mem_map.mp new
      exact others entry inside same
  · exact List.mem_append_left _ (heard.silent te pep event same other)
  · obtain ⟨printed, answer, said, member, replied⟩ := heard.settled settled job is
    exact ⟨printed, answer, said, List.mem_append_left _ member, replied⟩

variable [DecidableEq Jobs]

theorem heard_step (heard : ∀ j, HeardBy requests j (jobs j) (replies j) told)
    (same : ∀ j, j ≠ i → replies' j = replies j) (more : List (Jobs × Answer))
    (own : ∀ entry ∈ more, entry.1 = i)
    (here : HeardBy requests i phase (replies' i) (told ++ more)) :
    ∀ j, HeardBy requests j (Function.update jobs i phase j) (replies' j) (told ++ more) := by
  intro j
  by_cases mine : j = i
  · subst mine
    rwa [Function.update_self]
  · rw [Function.update_of_ne mine, same j mine]
    exact heard_more (heard j) fun entry member mineToo => mine (mineToo.symm.trans (own entry member))

end Answers

/-! ## Sections -/

section Sections
variable {requests : Jobs → JobsWorking.Request} {env : Environment} {i : Jobs}
  {t : Tracker Key PeerEntry} {te : TorrentEntry} {next : Nat} {pe : PeerEntry} {event : List UInt8}

theorem insert_fresh {pep : Node PeerEntry} (consistent : Consistent te next)
    (absent : peerSearchPeer pep.val te.peers = none) (old : pep.addr < next)
    (unused : pep.addr ∉ addresses te.peers) : Consistent (insertPeer te pep) next where
  counted := by
    have counted := consistent.counted
    simp only [insertPeer, List.length_cons]
    omega
  endpoints :=
    keys_insert PeerEntry.endpoint _ _ consistent.endpoints ((search_absent_iff _ _).mp absent)
  distinct := List.nodup_cons.mpr ⟨unused, consistent.distinct⟩
  old := List.forall_mem_cons.mpr ⟨old, consistent.old⟩

theorem add_keeps {pep : Node PeerEntry} (consistent : Consistent te next) (old : pep.addr < next)
    (unused : pep.addr ∉ addresses te.peers) :
    Consistent (torrentAddPeerAndReturnList te pep).1 next ∧
      (∀ pp ∈ te.peers, pp ∈ (torrentAddPeerAndReturnList te pep).1.peers) ∧
        ∀ a ∈ addresses (torrentAddPeerAndReturnList te pep).1.peers,
          a ∈ addresses te.peers ∨ a = pep.addr := by
  simp only [torrentAddPeerAndReturnList]
  cases searched : peerSearchPeer pep.val te.peers with
  | none =>
      refine ⟨insert_fresh consistent searched old unused, fun pp => List.mem_cons_of_mem pep, ?_⟩
      exact fun a inside => (List.mem_cons.mp inside).symm
  | some pp => exact ⟨consistent, fun _ => id, fun _ => Or.inl⟩

/-- The second search of an add comes to what the handler alone comes to. -/
theorem add_announces {pep : Node PeerEntry} (start : wantsStart event = true) :
    (announcePeer te pep.addr pep.val event).1 = (torrentAddPeerAndReturnList te pep).1 ∧
      (announcePeer te pep.addr pep.val event).2 =
        .peerList (torrentAddPeerAndReturnList te pep).2 := by
  cases searched : peerSearchPeer pep.val te.peers with
  | none =>
      rw [announce_added searched start]
      simp [torrentAddPeerAndReturnList, searched]
  | some pp =>
      rw [announce_found searched]
      simp [start_updates_nothing start, torrentAddPeerAndReturnList, torrentUpdatePeerAndReturnList,
        searched]

theorem listed_found {pp : Node PeerEntry} (consistent : Consistent te next) (inside : pp ∈ te.peers)
    (same : pp.val.endpoint = pe.endpoint) : peerSearchPeer pe te.peers = some pp :=
  (search_key_iff PeerEntry.endpoint pe.endpoint te.peers consistent.endpoints pp).mpr ⟨inside, same⟩

theorem printed_counted (counted : te.peerCount = te.peers.length) (fresh : Nat) :
    (printedTorrent te fresh pe event).peerCount = (printedTorrent te fresh pe event).peers.length := by
  unfold printedTorrent
  cases peerSearchPeer pe te.peers with
  | none =>
      simp only [insertPeer, List.length_cons]
      omega
  | some pp =>
      obtain ⟨peers, count⟩ := update_peers te pp (updateAction event)
      simp only [peers, count, counted]

/-- A section does to its torrent what its announce does to the swarm. -/
theorem act_section {k : Key} (announces : AnnouncesTo requests env i k pe event)
    (consistent : Consistent te next) (here : content t k = swarmOf te) (fresh : Nat) :
    (∀ k', k' ≠ k → (act requests env t i).1 k' = t k') ∧
      content (act requests env t i).1 k = swarmOf (announcePeer te fresh pe event).1 ∧
        ∀ printed, (announcePeer te fresh pe event).2 = .peerList printed →
          Replied (.peerList printed) (act requests env t i).2 := by
  obtain ⟨swarm, told⟩ := announce_refines consistent fresh pe event
  rw [act_announce announces, here]
  refine ⟨fun k' other => Function.update_of_ne other _ _, ?_, fun printed speaks => ?_⟩
  · rw [content, swarm]
    dsimp only
    rw [Function.update_self, Option.getD_some]
  · rcases told with ⟨-, silent⟩ | ⟨some, list⟩
    · cases silent.symm.trans speaks
    · dsimp only
      rw [some, ← speaks, list]
      exact .swarm _ (printed_counted consistent.counted fresh)

/-- An announce other than a start does nothing to a swarm without its peer. -/
theorem act_missed {k : Key} (announces : AnnouncesTo requests env i k pe event)
    (other : wantsStart event = false)
    (unlisted : ∀ p ∈ (content t k).peers, p.endpoint ≠ pe.endpoint) :
    (act requests env t i).2 = .silent ∧
      ∀ k', content (act requests env t i).1 k' = content t k' ∧
        (k' ≠ k → (act requests env t i).1 k' = t k') := by
  have missed : (content t k).peers.find? (fun p => p.endpoint == pe.endpoint) = none := by
    simpa [List.find?_eq_none] using unlisted
  have kept : (content t k).announce PeerEntry.endpoint whole pe (eventOf event) = (content t k, none) := by
    unfold Swarm.announce
    rw [missed]
    -- only a start would make the peer join
    cases kind : eventOf event with
    | start => exact absurd kind (event_other other)
    | stop | complete | other => rfl
  rw [act_announce announces, kept]
  refine ⟨rfl, fun k' => ⟨?_, fun elsewhere => Function.update_of_ne elsewhere _ _⟩⟩
  by_cases here : k' = k
  · subst here
    simp [content]
  · simp [content, Function.update_of_ne here]

theorem ask_announce {job : Job} {ctx : PeerReq} (is : requests i = .announce job)
    (built : httpBuildPeerReq env.curl job.httpKvList = .ok ctx) (sane : sanitizePeerReq ctx = none) :
    ask requests env i = .announce (nameOf env.db ctx.infoHash)
      (peerOf job.clientaddr ctx).toOption (eventOf ctx.event.bytes) := by
  simp [ask, is, announceOf, built, Except.toOption, sane]

theorem looked_announces {job : Job} {ctx : PeerReq} {tl after : TorrentList}
    {torrent : Node TorrentEntry} (listed : Listed env.db after) (is : requests i = .announce job)
    (built : httpBuildPeerReq env.curl job.httpKvList = .ok ctx) (sane : sanitizePeerReq ctx = none)
    (peer : peerOf job.clientaddr ctx = .ok pe)
    (looked : Lookup env.db ctx.infoHash tl after (some torrent)) :
    AnnouncesTo requests env i (torrentKey torrent.val) pe ctx.event.bytes := by
  have clean := accepted_clean built sane
  have key : torrentKey torrent.val = ctx.infoHash.take torrentHashLen := by
    cases looked with
    | hit te found => exact (do_lookup_mem found).2
    | inserted missed fits known => rw [clean, fresh_key]
  have known := listed.known torrent (looked_mem looked)
  rw [key] at known ⊢
  have name : nameOf env.db ctx.infoHash =
      ⟨ctx.infoHash.take torrentHashLen, ctx.infoHash.take torrentHashLen, true⟩ := by
    have flag := (name_fair env.db ctx.infoHash).known known
    rw [nameOf] at flag ⊢
    exact congrArg₂ (Name.mk _) clean.symm flag
  rw [AnnouncesTo, ask_announce is built sane, name, peer]
  rfl

end Sections

/-! ## Answers along the phases -/

section Hearing
variable {requests : Jobs → JobsWorking.Request} {i : Jobs} {phase later : Phase}
  {reply reply' : Option Reply} {told : List (Jobs × Answer)}

theorem settled_not_open (settled : Settled phase) : ¬ Open phase := by
  cases phase <;> simp_all [Settled, Open]

theorem settled_not_absent (settled : Settled phase) (te : Nat) (pep : Node PeerEntry)
    (event : List UInt8) : phase ≠ .absent te pep event := by
  rintro rfl
  exact settled

theorem open_absent {te : Nat} {pep : Node PeerEntry} {event : List UInt8} (unsettled : Open phase)
    (same : phase = .absent te pep event) : wantsStart event = true := by
  subst same
  exact unsettled

theorem heard_open (heard : HeardBy requests i phase reply told) (before : Open phase)
    (after : Open later) : HeardBy requests i later reply' told where
  fresh _ := heard.fresh before
  silent te pep event same other := by
    rw [open_absent after same] at other
    contradiction
  settled settled := absurd after (settled_not_open settled)

theorem heard_answer {printed : Reply} {answer : Answer} (settled : Settled later)
    (replied : Replied printed answer) :
    HeardBy requests i later (some printed) (told ++ [(i, answer)]) where
  fresh unsettled := absurd unsettled (settled_not_open settled)
  silent te pep event same := absurd same (settled_not_absent settled te pep event)
  settled _ _ _ := ⟨printed, answer, rfl, by simp, replied⟩

theorem heard_quiet {te : Nat} {pep : Node PeerEntry} {event : List UInt8}
    (other : wantsStart event = false) :
    HeardBy requests i (.absent te pep event) reply (told ++ [(i, .silent)]) where
  fresh unsettled := by
    rw [open_absent unsettled rfl] at other
    contradiction
  silent _ _ _ _ _ := by simp
  settled settled := absurd rfl (settled_not_absent settled te pep event)

theorem heard_silent {te : Nat} {pep : Node PeerEntry} {event : List UInt8}
    (heard : HeardBy requests i (.absent te pep event) reply told) (other : wantsStart event = false)
    (settled : Settled later) : HeardBy requests i later (some .silent) told where
  fresh unsettled := absurd unsettled (settled_not_open settled)
  silent te pep event same := absurd same (settled_not_absent settled te pep event)
  settled _ _ _ := ⟨.silent, .silent, rfl, heard.silent te pep event rfl other, .silent⟩

theorem heard_settled (heard : HeardBy requests i phase reply told) (before : Settled phase)
    (after : Settled later) : HeardBy requests i later reply told where
  fresh unsettled := absurd unsettled (settled_not_open after)
  silent te pep event same := absurd same (settled_not_absent after te pep event)
  settled _ := heard.settled before

theorem heard_scrape {list : List HttpUriKv} {fresh : Nat → FreshHash}
    (is : requests i = .scrape list fresh) (after : Settled later) :
    HeardBy requests i later reply told where
  fresh unsettled := absurd unsettled (settled_not_open after)
  silent te pep event same := absurd same (settled_not_absent after te pep event)
  settled _ job same := by cases is.symm.trans same

end Hearing

end Ttracker.AnnounceAnswers
