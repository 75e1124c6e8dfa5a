import Ttracker.AnnounceAnswers
import Ttracker.Linearizations

/-!
Announce jobs, interleaved, against the swarms. An announce acts on the swarms at one of its
own steps: the lookup or the search that settles that it has nothing to change, or its first
section under the torrent's lock. A stop needs a second section, so it is explained only
where no other section on its torrent gets between the two.
-/
namespace Ttracker.ConcurrentAnnounces
open CLibrary LinkedNodes FirstMatches BoundedPrint HttpQuery PeerRequest Torrents TorrentCache
  AnnounceHandler ScrapeHandler PeerListReply AnnounceReplies ScrapeReplies Bencode ServedRequests
  ServedMemory JobsWorking TransitionRuns Swarms TrackerRefinement Linearizations AnnounceSteps
  AnnounceAnswers

variable {Jobs : Type}

/-! ## Runs -/

/-- The torrents stand for what the jobs that have acted made of the swarms, and these jobs
have been told so. -/
structure Related (requests : Jobs → JobsWorking.Request) (env : Environment) (s : Answering Jobs)
    (t : Tracker Key PeerEntry) (told : List (Jobs × Answer)) : Prop where
  listed : Listed env.db s.shared.tl
  placed : Placed requests env s.shared.tl s.shared.jobs
  stands : Stands s.shared.tl s.shared.jobs t
  heard : ∀ i, HeardBy requests i (s.shared.jobs i) (s.replies i) told

section Steps
variable [DecidableEq Jobs] {requests : Jobs → JobsWorking.Request} {env : Environment}
  {s u : Answering Jobs} {i : Jobs} {t t' : Tracker Key PeerEntry} {told : List (Jobs × Answer)}
  {tl : TorrentList} {phase : Phase} {reply : Option Reply}

theorem related_next (related : Related requests env s t told) (becomes : Becomes s i tl phase reply u)
    (listed : Listed env.db tl) (placed : Placed requests env tl (Function.update s.shared.jobs i phase))
    (stands : Stands tl (Function.update s.shared.jobs i phase) t') (more : List (Jobs × Answer))
    (own : ∀ entry ∈ more, entry.1 = i)
    (here : HeardBy requests i phase (reply.elim (s.replies i) some) (told ++ more)) :
    Related requests env u t' (told ++ more) := by
  obtain ⟨torrents, jobs, replies⟩ := becomes
  have same : ∀ j, j ≠ i → u.replies j = s.replies j := by
    intro j other
    rw [replies]
    cases reply with
    | none => rfl
    | some printed => exact Function.update_of_ne other _ _
  have mine : u.replies i = reply.elim (s.replies i) some := by
    rw [replies]
    cases reply with
    | none => rfl
    | some printed => exact Function.update_self _ _ _
  refine ⟨torrents ▸ listed, ?_, ?_, ?_⟩
  · rwa [torrents, jobs]
  · rwa [torrents, jobs]
  · rw [jobs]
    exact heard_step related.heard same more own (mine ▸ here)

/-- A step that leaves the torrents as they stand. -/
theorem placed_same (placed : Placed requests env s.shared.tl s.shared.jobs)
    (listed : Listed env.db s.shared.tl) (same : tl.list = s.shared.tl.list)
    (next : s.shared.tl.next ≤ tl.next) (knows : Knows requests env tl i phase)
    (reserved : ∀ a, pendingOf phase = some a → a = s.shared.tl.next ∧ a < tl.next)
    (idle : NotStopping phase) : Placed requests env tl (Function.update s.shared.jobs i phase) := by
  refine placed_step placed (onward_same same next) knows (fun _ _ _ _ _ => id) ?_ ?_ ?_
  · intro te member a inside
    exact Or.inl ⟨te, same ▸ member, inside⟩
  · intro a pending
    obtain ⟨rfl, new⟩ := reserved a pending
    refine ⟨Nat.le_refl _, new, fun te member inside => ?_⟩
    exact ((listed.sound.addressed.torrents te (same ▸ member)).old _ inside).false
  · exact fun te pp here => absurd here (idle te pp)

theorem placed_lookup {infoHash : List UInt8} {found : Option (Node TorrentEntry)}
    (placed : Placed requests env s.shared.tl s.shared.jobs)
    (looked : Lookup env.db infoHash s.shared.tl tl found) (knows : Knows requests env tl i phase)
    (reserved : pendingOf phase = none) (idle : NotStopping phase) :
    Placed requests env tl (Function.update s.shared.jobs i phase) := by
  refine placed_step placed (onward_lookup looked) knows (fun _ _ _ _ _ => id) ?_ ?_ ?_
  · intro te member a inside
    cases looked with
    | hit | unknown => exact Or.inl ⟨te, member, inside⟩
    | inserted missed fits known =>
        rcases List.mem_cons.mp member with rfl | before
        · exact absurd inside List.not_mem_nil
        · exact Or.inl ⟨te, before, inside⟩
  · intro a pending
    cases reserved.symm.trans pending
  · exact fun te pp here => absurd here (idle te pp)

/-- A section that writes to a torrent. -/
theorem placed_write {te : Node TorrentEntry} {value : TorrentEntry} (gone : Nat → Nat → Prop)
    (placed : Placed requests env s.shared.tl s.shared.jobs) (listed : Listed env.db s.shared.tl)
    (member : te ∈ s.shared.tl.list) (same : value.infoHash = te.val.infoHash)
    (stays : ∀ pp ∈ te.val.peers, ¬ gone te.addr pp.addr → pp ∈ value.peers)
    (grown : ∀ a ∈ addresses value.peers,
      a ∈ addresses te.val.peers ∨ pendingOf (s.shared.jobs i) = some a)
    (knows : Knows requests env (write s.shared.tl te value) i phase)
    (spared : ∀ j, j ≠ i → ∀ addr a, inHand (s.shared.jobs j) = some (addr, a) → ¬ gone addr a)
    (reserved : pendingOf phase = none)
    (alone : ∀ addr pp, phase = .stopping addr pp → ∀ j, j ≠ i → ∀ qq,
      s.shared.jobs j ≠ .stopping addr qq) :
    Placed requests env (write s.shared.tl te value) (Function.update s.shared.jobs i phase) := by
  refine placed_step placed (onward_write listed member same stays) knows spared ?_ ?_ alone
  · intro other inside a present
    rcases (mem_write member value other).mp inside with ⟨there, -⟩ | rfl
    · exact Or.inl ⟨other, there, present⟩
    · exact (grown a present).imp_left fun old => ⟨te, member, old⟩
  · intro a pending
    cases reserved.symm.trans pending

/-- A step leaves the swarms alone, or is the one at which its job acts on them. -/
def Moves (requests : Jobs → JobsWorking.Request) (env : Environment) (t : Tracker Key PeerEntry)
    (told : List (Jobs × Answer)) (i : Jobs) (u : Answering Jobs) : Prop :=
  Related requests env u t told ∨
    i ∉ told.map Prod.fst ∧
      Related requests env u (act requests env t i).1 (told ++ [(i, (act requests env t i).2)])

theorem moves_quietly (related : Related requests env s t told) (becomes : Becomes s i tl phase reply u)
    (listed : Listed env.db tl) (placed : Placed requests env tl (Function.update s.shared.jobs i phase))
    (stands : Stands tl (Function.update s.shared.jobs i phase) t)
    (here : HeardBy requests i phase (reply.elim (s.replies i) some) told) :
    Moves requests env t told i u := by
  have next := related_next related becomes listed placed stands [] (List.forall_mem_nil _)
    (by rwa [List.append_nil])
  rw [List.append_nil] at next
  exact Or.inl next

theorem moves_acting (related : Related requests env s t told) (becomes : Becomes s i tl phase reply u)
    (unsettled : Open (s.shared.jobs i)) (listed : Listed env.db tl)
    (placed : Placed requests env tl (Function.update s.shared.jobs i phase))
    (stands : Stands tl (Function.update s.shared.jobs i phase) (act requests env t i).1)
    (here : HeardBy requests i phase (reply.elim (s.replies i) some)
      (told ++ [(i, (act requests env t i).2)])) : Moves requests env t told i u :=
  Or.inr ⟨(related.heard i).fresh unsettled, related_next related becomes listed placed stands _
    (List.forall_mem_singleton.mpr rfl) here⟩

theorem rejected_moves {job : Job} {ctx : PeerReq} {error : SanitizeError}
    (related : Related requests env s t told) (here : s.shared.jobs i = .starting)
    (is : requests i = .announce job) (built : httpBuildPeerReq env.curl job.httpKvList = .ok ctx)
    (found : sanitizePeerReq ctx = some error)
    (becomes : Becomes s i s.shared.tl .done
      (some (.failure (torrentMsgFailureGeneric (errorText error)))) u) :
    Moves requests env t told i u := by
  have asks : ask requests env i = .invalid (errorText error) := by
    simp [ask, is, announceOf, built, Except.toOption, found]
  have acts : act requests env t i = (t, .invalid (errorText error)) := by rw [act, asks]; rfl
  have before : NotStopping (s.shared.jobs i) := by simp [here, NotStopping]
  have after : NotStopping Phase.done := by simp [NotStopping]
  refine moves_acting related becomes (by rw [here]; trivial) related.listed
    (placed_same related.placed related.listed rfl (Nat.le_refl _) trivial (by simp [pendingOf]) after)
    ?_ ?_
  · rw [acts]
    exact stands_same related.stands rfl before after
  · rw [acts]
    exact heard_answer trivial (.invalid error)

theorem missed_moves {ctx : PeerReq} {clientaddr : InAddr} (related : Related requests env s t told)
    (here : s.shared.jobs i = .looking ctx clientaddr)
    (looked : Lookup env.db ctx.infoHash s.shared.tl tl none)
    (becomes : Becomes s i tl (.missed []) (some (.failure torrentMsgFailureMissingHash)) u) :
    Moves requests env t told i u := by
  have knows := related.placed.knows i
  rw [here] at knows
  obtain ⟨job, is, built, sane, -⟩ := knows
  -- the swarms hold nothing the list does not, so the announce is told the same at once
  have unlisted : look t (nameOf env.db ctx.infoHash) = none := by
    cases looked with
    | unknown missed refused =>
        have absent : t (ctx.infoHash.take torrentHashLen) = none :=
          related.stands.unlisted _ ((do_lookup_absent_iff _ _).mp missed)
        simp [look, nameOf, InDatabase, absent, refused]
  have acts : act requests env t i = (t, .missing) := by
    rw [act, ask_announce is built sane, step_unknown _ _ unlisted]
  have before : NotStopping (s.shared.jobs i) := by simp [here, NotStopping]
  have after : NotStopping (Phase.missed []) := by simp [NotStopping]
  obtain ⟨rfl, -⟩ := lookup_unknown looked
  refine moves_acting related becomes (by rw [here]; trivial) related.listed
    (placed_same related.placed related.listed rfl (Nat.le_refl _) trivial (by simp [pendingOf]) after)
    ?_ ?_
  · rw [acts]
    exact stands_same related.stands rfl before after
  · rw [acts]
    exact heard_answer trivial .missing

theorem looked_moves {ctx : PeerReq} {clientaddr : InAddr} {te : Node TorrentEntry} {pe : PeerEntry}
    (related : Related requests env s t told) (here : s.shared.jobs i = .looking ctx clientaddr)
    (looked : Lookup env.db ctx.infoHash s.shared.tl tl (some te)) (peer : peerOf clientaddr ctx = .ok pe)
    (becomes : Becomes s i tl (.searching te.addr pe ctx.event.bytes) none u) :
    Moves requests env t told i u := by
  have knows := related.placed.knows i
  rw [here] at knows
  obtain ⟨job, is, built, sane, rfl⟩ := knows
  have listed := lookup_keeps_listed related.listed looked (Or.inl (accepted_clean built sane))
  have announces := looked_announces listed is built sane peer looked
  have before : NotStopping (s.shared.jobs i) := by simp [here, NotStopping]
  have after : NotStopping (Phase.searching te.addr pe ctx.event.bytes) := by simp [NotStopping]
  refine moves_quietly related becomes listed
    (placed_lookup related.placed looked ⟨te, looked_mem looked, rfl, announces⟩ rfl after)
    (stands_lookup related.listed listed looked related.stands (stopping_listed related.placed) before after)
    (heard_open (related.heard i) (by rw [here]; trivial) trivial)

theorem scraped_moves {infoHash : List UInt8} {rest : List (List UInt8)} {sctx : List ScrapeEntry}
    {torrents : List Nat} {found : Option (Node TorrentEntry)} (related : Related requests env s t told)
    (here : s.shared.jobs i = .scraping (infoHash :: rest) sctx torrents) (granted : Undisturbed s i)
    (looked : Lookup env.db infoHash s.shared.tl tl found) (becomes : Becomes s i tl phase none u)
    (goes : phase = .missed torrents ∧ found = none ∨
      ∃ te, found = some te ∧ phase = .copying te.addr rest sctx torrents) :
    Moves requests env t told i u := by
  have knows := related.placed.knows i
  rw [here] at knows
  obtain ⟨list, fresh, is⟩ := knows
  have listed := lookup_keeps_listed related.listed looked (granted.lookups _ _ _ _ here)
  have before : NotStopping (s.shared.jobs i) := by simp [here, NotStopping]
  rcases goes with ⟨rfl, -⟩ | ⟨te, rfl, rfl⟩
  · have after : NotStopping (Phase.missed torrents) := by simp [NotStopping]
    exact moves_quietly related becomes listed (placed_lookup related.placed looked trivial rfl after)
      (stands_lookup related.listed listed looked related.stands (stopping_listed related.placed)
        before after) (heard_scrape is trivial)
  · have after : NotStopping (Phase.copying te.addr rest sctx torrents) := by simp [NotStopping]
    exact moves_quietly related becomes listed
      (placed_lookup related.placed looked ⟨⟨te, looked_mem looked, rfl⟩, list, fresh, is⟩ rfl after)
      (stands_lookup related.listed listed looked related.stands (stopping_listed related.placed)
        before after) (heard_open (related.heard i) (by rw [here]; trivial) trivial)

/-- A search in vain settles every announce but a start. -/
theorem search_missed_moves {te : Node TorrentEntry} {pe : PeerEntry} {event : List UInt8}
    (related : Related requests env s t told)
    (here : s.shared.jobs i = .searching te.addr pe event) (member : te ∈ s.shared.tl.list)
    (absent : peerSearchPeer pe te.val.peers = none)
    (becomes : Becomes s i { s.shared.tl with next := s.shared.tl.next + 1 }
      (.absent te.addr ⟨s.shared.tl.next, pe⟩ event) none u) : Moves requests env t told i u := by
  have knows := related.placed.knows i
  rw [here] at knows
  obtain ⟨te', member', address, announces⟩ := knows
  obtain rfl := node_unique related.listed.sound.addressed.distinct member' member address
  have listed : Listed env.db { s.shared.tl with next := s.shared.tl.next + 1 } :=
    listed_same related.listed rfl (Nat.le_succ _)
  have before : NotStopping (s.shared.jobs i) := by simp [here, NotStopping]
  have after : NotStopping (Phase.absent te'.addr ⟨s.shared.tl.next, pe⟩ event) := by simp [NotStopping]
  have placed : Placed requests env { s.shared.tl with next := s.shared.tl.next + 1 }
      (Function.update s.shared.jobs i (.absent te'.addr ⟨s.shared.tl.next, pe⟩ event)) :=
    placed_same related.placed related.listed rfl (Nat.le_succ _) ⟨te', member', rfl, announces⟩
      (fun a pending => ⟨(Option.some.inj pending).symm, by
        rw [← Option.some.inj pending]
        exact Nat.lt_succ_self _⟩) after
  have unsettled : Open (s.shared.jobs i) := by rw [here]; trivial
  cases start : wantsStart event with
  | true =>
      exact moves_quietly related becomes listed placed (stands_same related.stands rfl before after)
        (heard_open (related.heard i) unsettled start)
  | false =>
      -- a peer that a stop has still to unlink was not found either
      have swarm : ∀ p ∈ (content t (torrentKey te'.val)).peers, p ∈ te'.val.peers.map Node.val := by
        by_cases stopped : ∃ j pp, s.shared.jobs j = .stopping te'.addr pp
        · obtain ⟨j, pp, stops⟩ := stopped
          rw [related.stands.stops j _ pp stops te' member' rfl]
          exact ((remove_sublist pp.addr te'.val.peers).map Node.val).subset
        · rw [related.stands.idle te' member' fun j pp stops => stopped ⟨j, pp, stops⟩]
          exact fun _ inside => inside
      have unheard : ∀ p ∈ (content t (torrentKey te'.val)).peers, p.endpoint ≠ pe.endpoint := by
        intro p inside
        obtain ⟨node, there, rfl⟩ := List.mem_map.mp (swarm p inside)
        exact (search_absent_iff pe _).mp absent node there
      obtain ⟨silent, kept⟩ := act_missed announces start unheard
      refine moves_acting related becomes unsettled listed placed ?_ ?_
      · refine stands_same (stands_content related.stands fun k => ?_) rfl before after
        exact ⟨(kept k).1, fun others => (kept k).2 fun same => others te' member' same.symm⟩
      · rw [silent]
        exact heard_quiet start

theorem search_found_moves {te : Node TorrentEntry} {pe : PeerEntry} {event : List UInt8}
    {pp : Node PeerEntry} (related : Related requests env s t told)
    (here : s.shared.jobs i = .searching te.addr pe event) (member : te ∈ s.shared.tl.list)
    (found : peerSearchPeer pe te.val.peers = some pp)
    (becomes : Becomes s i { s.shared.tl with next := s.shared.tl.next + 1 }
      (.found te.addr pp event) none u) : Moves requests env t told i u := by
  have knows := related.placed.knows i
  rw [here] at knows
  obtain ⟨te', member', address, announces⟩ := knows
  obtain rfl := node_unique related.listed.sound.addressed.distinct member' member address
  have before : NotStopping (s.shared.jobs i) := by simp [here, NotStopping]
  have after : NotStopping (Phase.found te'.addr pp event) := by simp [NotStopping]
  have endpoint : pp.val.endpoint = pe.endpoint := by simpa using List.find?_some found
  exact moves_quietly related becomes (listed_same related.listed rfl (Nat.le_succ _))
    (placed_same related.placed related.listed rfl (Nat.le_succ _)
      ⟨te', member', rfl, search_mem found, pe, endpoint, announces⟩ (by simp [pendingOf]) after)
    (stands_same related.stands rfl before after)
    (heard_open (related.heard i) (by rw [here]; trivial) trivial)

theorem added_moves {te : Node TorrentEntry} {pep : Node PeerEntry} {event : List UInt8}
    (related : Related requests env s t told) (here : s.shared.jobs i = .absent te.addr pep event)
    (granted : Undisturbed s i) (member : te ∈ s.shared.tl.list) (start : wantsStart event = true)
    (becomes : Becomes s i (write s.shared.tl te (torrentAddPeerAndReturnList te.val pep).1)
      (.leaving te.addr) (some (.peerList (torrentAddPeerAndReturnList te.val pep).2)) u) :
    Moves requests env t told i u := by
  have knows := related.placed.knows i
  rw [here] at knows
  obtain ⟨te', member', address, announces⟩ := knows
  obtain rfl := node_unique related.listed.sound.addressed.distinct member' member address
  have nobody : ∀ j pp, s.shared.jobs j ≠ .stopping te'.addr pp :=
    granted.sections te'.addr (by rw [here]; simp [sectionOf, start])
  have consistent := related.listed.sound.addressed.torrents te' member'
  obtain ⟨old, unused⟩ := related.placed.pending i pep.addr (by rw [here]; rfl)
  have left : (announcePeer te'.val pep.addr pep.val event).1 =
      (torrentAddPeerAndReturnList te'.val pep).1 := (add_announces start).1
  have speaks : (announcePeer te'.val pep.addr pep.val event).2 =
      .peerList (torrentAddPeerAndReturnList te'.val pep).2 := (add_announces start).2
  -- the second search, under the lock, decides as the announce does on the swarm
  obtain ⟨elsewhere, swarm, replied⟩ :=
    act_section announces consistent (related.stands.idle te' member' nobody) pep.addr
  have before : NotStopping (s.shared.jobs i) := by simp [here, NotStopping]
  have after : NotStopping (Phase.leaving te'.addr) := by simp [NotStopping]
  obtain ⟨consistent', stays, grown⟩ := add_keeps consistent old (unused te' member')
  have infoHash := add_infoHash te'.val pep
  refine moves_acting related becomes (by rw [here]; exact start)
    (write_listed related.listed member' infoHash consistent') ?_ ?_ ?_
  · refine placed_write nothing related.placed related.listed member' infoHash
      (fun pp inside _ => stays pp inside) ?_ trivial (fun _ _ _ _ _ => id) rfl
      (fun addr pp same => absurd same (after addr pp))
    intro a present
    rw [here]
    rcases grown a present with old | rfl
    · exact Or.inl old
    · exact Or.inr rfl
  · exact stands_write related.listed member' infoHash related.stands (fun j _ => nobody j)
      (fun addr pp same => absurd same (before addr pp)) elsewhere
      (Or.inr ⟨after, by rw [swarm, left]⟩)
  · exact heard_answer trivial (replied _ speaks)

theorem silent_moves {te : Nat} {pep : Node PeerEntry} {event : List UInt8}
    (related : Related requests env s t told) (here : s.shared.jobs i = .absent te pep event)
    (other : wantsStart event = false)
    (becomes : Becomes s i s.shared.tl (.leaving te) (some .silent) u) :
    Moves requests env t told i u := by
  have before : NotStopping (s.shared.jobs i) := by simp [here, NotStopping]
  have after : NotStopping (Phase.leaving te) := by simp [NotStopping]
  have heard := related.heard i
  rw [here] at heard
  exact moves_quietly related becomes related.listed
    (placed_same related.placed related.listed rfl (Nat.le_refl _) trivial (by simp [pendingOf]) after)
    (stands_same related.stands rfl before after) (heard_silent heard other trivial)

theorem updated_moves {te : Node TorrentEntry} {pp : Node PeerEntry} {event : List UInt8}
    (related : Related requests env s t told) (here : s.shared.jobs i = .found te.addr pp event)
    (granted : Undisturbed s i) (member : te ∈ s.shared.tl.list)
    (becomes : Becomes s i
      (write s.shared.tl te (torrentUpdatePeerAndReturnList te.val pp (updateAction event)).1)
      (if updateAction event = .stop then .stopping te.addr pp else .leaving te.addr)
      (some (.peerList (torrentUpdatePeerAndReturnList te.val pp (updateAction event)).2)) u) :
    Moves requests env t told i u := by
  have knows := related.placed.knows i
  rw [here] at knows
  obtain ⟨te', member', address, inside, pe, endpoint, announces⟩ := knows
  obtain rfl := node_unique related.listed.sound.addressed.distinct member' member address
  have nobody : ∀ j qq, s.shared.jobs j ≠ .stopping te'.addr qq :=
    granted.sections te'.addr (by rw [here]; rfl)
  have consistent := related.listed.sound.addressed.torrents te' member'
  have found := listed_found consistent inside endpoint
  obtain ⟨elsewhere, swarm, replied⟩ :=
    act_section announces consistent (related.stands.idle te' member' nobody) 0
  rw [announce_found found] at swarm replied
  have infoHash := update_infoHash te'.val pp (updateAction event)
  have peers := (update_peers te'.val pp (updateAction event)).1
  have before : NotStopping (s.shared.jobs i) := by simp [here, NotStopping]
  have listed := write_listed related.listed member' infoHash
    (update_consistent pp (updateAction event) consistent)
  refine moves_acting related becomes (by rw [here]; trivial) listed ?_ ?_ ?_
  · refine placed_write nothing related.placed related.listed member' infoHash
      (fun qq there _ => peers ▸ there) (fun a present => Or.inl (peers ▸ present)) ?_
      (fun _ _ _ _ _ => id) ?_ ?_
    · split
      · exact ⟨_, (mem_write member' _ _).mpr (Or.inr rfl), rfl, peers ▸ inside⟩
      · trivial
    · split <;> rfl
    · intro addr qq same j other rr
      split at same
      · cases same
        exact nobody j rr
      · cases same
  · refine stands_write related.listed member' infoHash related.stands (fun j _ => nobody j)
      (fun addr qq same => absurd same (before addr qq)) elsewhere ?_
    -- the swarm of a stop is already without its peer, the torrent only after the next section
    by_cases stop : updateAction event = .stop
    · simp only [stop, if_true] at swarm ⊢
      exact Or.inl ⟨pp, rfl, swarm⟩
    · simp only [stop, if_false] at swarm ⊢
      exact Or.inr ⟨by simp [NotStopping], swarm⟩
  · refine heard_answer ?_ (replied _ rfl)
    split <;> trivial

theorem unlinked_moves {te : Node TorrentEntry} {pp : Node PeerEntry}
    (related : Related requests env s t told) (here : s.shared.jobs i = .stopping te.addr pp)
    (granted : Undisturbed s i) (member : te ∈ s.shared.tl.list)
    (becomes : Becomes s i (write s.shared.tl te (torrentRemovePeer te.val pp)) (.leaving te.addr) none u) :
    Moves requests env t told i u := by
  have knows := related.placed.knows i
  rw [here] at knows
  obtain ⟨te', member', address, inside⟩ := knows
  obtain rfl := node_unique related.listed.sound.addressed.distinct member' member address
  have alone : ∀ j, j ≠ i → ∀ qq, s.shared.jobs j ≠ .stopping te'.addr qq := fun j other qq same =>
    other (related.placed.alone j i _ qq pp same here)
  have consistent := related.listed.sound.addressed.torrents te' member'
  have infoHash := remove_infoHash te'.val pp
  have after : NotStopping (Phase.leaving te'.addr) := by simp [NotStopping]
  have heard := related.heard i
  rw [here] at heard
  refine moves_quietly related becomes
    (write_listed related.listed member' infoHash (remove_consistent pp consistent inside)) ?_ ?_ ?_
  · refine placed_write (fun addr a => addr = te'.addr ∧ a = pp.addr) related.placed related.listed
      member' infoHash ?_ ?_ trivial ?_ rfl (fun addr qq same => absurd same (after addr qq))
    · exact fun qq there spared => (mem_remove_iff pp qq _ consistent.distinct inside).mpr
        ⟨there, fun same => spared ⟨rfl, same⟩⟩
    · exact fun a present =>
        Or.inl (((remove_sublist pp.addr te'.val.peers).map Node.addr).subset present)
    -- nobody else has the peer in hand: not found, by what is undisturbed, nor stopped, as two
    -- stops never stand on one torrent
    · rintro j other addr a hand ⟨rfl, rfl⟩
      cases phase : s.shared.jobs j with
      | found addr qq event =>
          rw [phase] at hand
          obtain ⟨rfl, same⟩ := Prod.mk.inj (Option.some.inj hand)
          exact granted.unlinks _ _ here j qq event phase same
      | stopping addr qq =>
          rw [phase] at hand
          obtain ⟨rfl, -⟩ := Prod.mk.inj (Option.some.inj hand)
          exact alone j other qq phase
      | starting | looking | missed | searching | absent | leaving | scraping | copying | done =>
          rw [phase] at hand
          cases hand
  · refine stands_write related.listed member' infoHash related.stands alone ?_ (fun _ _ => rfl)
      (Or.inr ⟨after, related.stands.stops i _ pp here te' member' rfl⟩)
    intro addr qq same
    exact (Phase.stopping.inj (same.symm.trans here)).1
  · exact heard_settled heard trivial trivial

theorem left_moves (related : Related requests env s t told)
    (ends : (∃ torrents, s.shared.jobs i = .missed torrents) ∨ (∃ te, s.shared.jobs i = .leaving te) ∨
      ∃ sctx torrents, s.shared.jobs i = .scraping [] sctx torrents)
    (becomes : Becomes s i (torrentListJobdone s.shared.tl) .done none u) :
    Moves requests env t told i u := by
  have after : NotStopping Phase.done := by simp [NotStopping]
  have heard := related.heard i
  have knows := related.placed.knows i
  have before : NotStopping (s.shared.jobs i) := by
    rcases ends with ⟨_, here⟩ | ⟨_, here⟩ | ⟨_, _, here⟩ <;> simp [here, NotStopping]
  refine moves_quietly related becomes (listed_same related.listed rfl (Nat.le_refl _))
    (placed_same related.placed related.listed rfl (Nat.le_refl _) trivial (by simp [pendingOf]) after)
    (stands_same related.stands rfl before after) ?_
  -- a job that leaves has its answer, a scrape needs none
  rcases ends with ⟨_, here⟩ | ⟨_, here⟩ | ⟨_, _, here⟩
  · rw [here] at heard
    exact heard_settled heard trivial trivial
  · rw [here] at heard
    exact heard_settled heard trivial trivial
  · rw [here] at knows
    obtain ⟨list, fresh, is⟩ := knows
    exact heard_scrape is trivial

/-- A step that only moves its job on. -/
theorem onward_moves (related : Related requests env s t told) (becomes : Becomes s i tl phase none u)
    (same : tl.list = s.shared.tl.list) (next : s.shared.tl.next ≤ tl.next)
    (knows : Knows requests env tl i phase) (before : NotStopping (s.shared.jobs i)) (after : NotStopping phase)
    (reserved : pendingOf phase = none) (unsettled : Open (s.shared.jobs i)) (still : Open phase) :
    Moves requests env t told i u :=
  moves_quietly related becomes (listed_same related.listed same next)
    (placed_same related.placed related.listed same next knows
      (fun a pending => by cases reserved.symm.trans pending) after)
    (stands_same related.stands same before after) (heard_open (related.heard i) unsettled still)

theorem answering_settles (requests : Jobs → JobsWorking.Request) (env : Environment) :
    Settles (answeringStep requests env) Undisturbed (act requests env) (Related requests env) := by
  intro s i u t told related granted taken
  obtain ⟨tl, phase, reply, stepped, becomes⟩ := step_cases related.listed (related.placed.knows i) taken
  change Moves requests env t told i u
  generalize here : s.shared.jobs i = was at stepped
  cases stepped with
  | reject job ctx error is built found => exact rejected_moves related here is built found becomes
  | accept job ctx is built sane =>
      exact onward_moves related becomes rfl (Nat.le_refl _) ⟨job, is, built, sane, rfl⟩
        (by simp [here, NotStopping]) (by simp [NotStopping]) rfl (by rw [here]; trivial) trivial
  | scrape list fresh hashlist is =>
      exact onward_moves related becomes rfl (Nat.le_refl _) ⟨list, fresh, is⟩
        (by simp [here, NotStopping]) (by simp [NotStopping]) rfl (by rw [here]; trivial) trivial
  | miss ctx clientaddr _ looked => exact missed_moves related here looked becomes
  | look ctx clientaddr _ te pe looked peer => exact looked_moves related here looked peer becomes
  | searchMiss te pe event member absent => exact search_missed_moves related here member absent becomes
  | searchHit te pe event pp member found => exact search_found_moves related here member found becomes
  | add te pep event member start => exact added_moves related here granted member start becomes
  | silent te pep event other => exact silent_moves related here other becomes
  | update te pp event member => exact updated_moves related here granted member becomes
  | unlink te pp member => exact unlinked_moves related here granted member becomes
  | leave _ ends => exact left_moves related (by rwa [here]) becomes
  | scrapeMiss infoHash rest sctx torrents _ looked =>
      exact scraped_moves related here granted looked becomes (Or.inl ⟨rfl, rfl⟩)
  | scrapeLook infoHash rest sctx torrents _ te looked =>
      exact scraped_moves related here granted looked becomes (Or.inr ⟨te, rfl, rfl⟩)
  | copy te rest sctx more torrents =>
      have knows := related.placed.knows i
      rw [here] at knows
      exact onward_moves related becomes rfl (Nat.le_refl _) knows.2 (by simp [here, NotStopping])
        (by simp [NotStopping]) rfl (by rw [here]; trivial) trivial

omit [DecidableEq Jobs] in
theorem opening_related (requests : Jobs → JobsWorking.Request) (env : Environment) :
    Related requests env opening (fun _ => none) [] where
  listed := listed_same listed_empty rfl (Nat.le_refl _)
  placed := by
    refine ⟨fun _ => trivial, ?_, ?_, ?_⟩
    · exact fun _ _ pending => by cases pending
    · exact fun _ _ _ pending => by cases pending
    · exact fun _ _ _ _ _ here => by cases here
  stands := by
    refine ⟨?_, fun _ member => absurd member List.not_mem_nil, fun _ _ => rfl⟩
    exact fun _ _ _ here => by cases here
  heard _ := by
    refine ⟨fun _ => List.not_mem_nil, ?_, fun settled => settled.elim⟩
    exact fun _ _ _ same => by cases same

/-- The swarms, asked in this order, tell every announce that is done what it printed, and
are what the torrents have become. -/
structure Explains (requests : Jobs → JobsWorking.Request) (env : Environment) (order : List Jobs)
    (s : Answering Jobs) : Prop where
  once : order.Nodup
  answered : ∀ i job, requests i = .announce job → s.shared.jobs i = .done →
    ∃ reply answer, s.replies i = some reply ∧
      (i, answer) ∈ (inOrder (act requests env) (fun _ => none) order).2 ∧ Replied reply answer
  swarms : ∀ te ∈ s.shared.tl.list, (∀ i pp, s.shared.jobs i ≠ .stopping te.addr pp) →
    content (inOrder (act requests env) (fun _ => none) order).1 (torrentKey te.val) = swarmOf te.val

/-- An announce that is done before another begins comes before it. -/
def InTime (requests : Jobs → JobsWorking.Request) (env : Environment) (run order : List Jobs) : Prop :=
  ∀ begun rest mid i j job, run = begun ++ rest →
    replay (answeringStep requests env) opening begun = some mid → requests i = .announce job →
      mid.shared.jobs i = .done → mid.shared.jobs j = .starting → Before order i j

end Steps

/-! ## Runs whose steps are checked -/

def stopsAt (te : Nat) : Phase → Bool
  | .stopping addr _ => addr == te
  | _ => false

def hasInHand (te addr : Nat) : Phase → Bool
  | .found te' pp _ => te' == te && pp.addr == addr
  | _ => false

section Checks
variable {all : List Jobs} {requests : Jobs → JobsWorking.Request} {env : Environment}
  {s : Answering Jobs} {i : Jobs} {run : List Jobs}

/-- `Undisturbed`, by the phase of the job. -/
def undisturbed (all : List Jobs) (s : Answering Jobs) (i : Jobs) : Bool :=
  match s.shared.jobs i with
  | .absent te _ _ | .found te _ _ => all.all fun j => !stopsAt te (s.shared.jobs j)
  | .stopping te pp => all.all fun j => !hasInHand te pp.addr (s.shared.jobs j)
  | .scraping (infoHash :: _) _ _ =>
      infoHash.take torrentHashLen == strncpy torrentHashLen infoHash ||
        (viewOf s.shared.tl (strncpy torrentHashLen infoHash)).isNone
  | _ => true

theorem undisturbed_sound (listed : ∀ j, j ∈ all) (checked : undisturbed all s i = true) :
    Undisturbed s i := by
  unfold undisturbed at checked
  constructor
  · intro te working j pp here
    have apart : ∀ j, (!stopsAt te (s.shared.jobs j)) = true := by
      cases phase : s.shared.jobs i with
      | absent addr pep event =>
          simp only [phase, List.all_eq_true] at checked
          simp only [phase, sectionOf, Option.ite_none_right_eq_some, Option.some.injEq] at working
          exact fun j => working.2 ▸ checked j (listed j)
      | found addr pp event =>
          simp only [phase, List.all_eq_true] at checked
          simp only [phase, sectionOf, Option.some.injEq] at working
          exact fun j => working ▸ checked j (listed j)
      | _ => simp [phase, sectionOf] at working
    simpa [here, stopsAt] using apart j
  · intro te pp here j qq event other same
    simp only [here, List.all_eq_true] at checked
    simpa [other, hasInHand, same] using checked j (listed j)
  · intro infoHash rest sctx torrents here
    simpa [here] using checked

theorem checked_along [DecidableEq Jobs] (listed : ∀ j, j ∈ all)
    (checked : ∀ k : Fin run.length, (replay (answeringStep requests env) opening (run.take k)).all
      (fun s => undisturbed all s run[k]) = true) :
    Along (answeringStep requests env) Undisturbed opening run := by
  refine along_of_prefixes _ _ _ _ fun k s i reached here => undisturbed_sound listed ?_
  obtain ⟨inside, same⟩ := List.getElem?_eq_some_iff.mp here
  have step := checked ⟨k, inside⟩
  rw [reached] at step
  exact same ▸ step

end Checks

section Announces
variable [DecidableEq Jobs] (requests : Jobs → JobsWorking.Request) (env : Environment)
  (run : List Jobs) (final : Answering Jobs)

/-- Jobs of any number of torrents, in turns: where no stop is disturbed, they are told and
leave what they would one after the other. -/
theorem announces_linearize (along : Along (answeringStep requests env) Undisturbed opening run)
    (reached : replay (answeringStep requests env) opening run = some final) :
    ∃ order, Explains requests env order final ∧ InTime requests env run order := by
  obtain ⟨order, ⟨once, related⟩, before⟩ :=
    run_explained (answering_settles requests env) (opening_related requests env) along reached
  refine ⟨order, ⟨once, fun i job is done => ?_, related.stands.idle⟩, ?_⟩
  · exact (related.heard i).settled (by rw [done]; trivial) job is
  · intro begun rest mid i j job split begins is done starting
    refine before begun rest mid i j split begins (fun object told here => ?_) fun object told here => ?_
    · obtain ⟨-, answer, -, member, -⟩ := (here.heard i).settled (by rw [done]; trivial) job is
      exact List.mem_map.mpr ⟨_, member, rfl⟩
    · exact (here.heard j).fresh (by rw [starting]; trivial)

end Announces

/-- A start, a stop of the same peer, the start of another and a scrape. -/
inductive Sample where
  | first
  | stop
  | second
  | scrape
  deriving DecidableEq

def samples : List Sample := [.first, .stop, .second, .scrape]

theorem sample_listed (i : Sample) : i ∈ samples := by
  cases i <;> decide

def stopAndStarts : Sample → JobsWorking.Request
  | .first => .announce (sampleJob (ascii ['5']) eventStart)
  | .stop => .announce (sampleJob (ascii ['5']) eventStop)
  | .second => .announce { sampleJob (ascii ['5']) eventStart with clientaddr := ⟨10, 0, 0, 2⟩ }
  | .scrape => .scrape [mkKv infoHashKey (List.replicate 20 104)] fun _ => cleanMemory

/-- The other start searches and the scrape copies between the sections of the stop. -/
def stoppedOnce : List Sample :=
  List.replicate 5 .first ++ [.stop, .second, .scrape, .stop, .second, .stop, .scrape, .stop,
    .second, .scrape, .stop, .second, .stop, .scrape, .second]

theorem announces_linearize_stop : ∃ final order,
    replay (answeringStep stopAndStarts sampleEnv) opening stoppedOnce = some final ∧
      Explains stopAndStarts sampleEnv order final ∧
        InTime stopAndStarts sampleEnv stoppedOnce order := by
  have reached := (Option.some_get (x := replay (answeringStep stopAndStarts sampleEnv) opening
    stoppedOnce) (by decide +kernel)).symm
  have along : Along (answeringStep stopAndStarts sampleEnv) Undisturbed opening stoppedOnce :=
    checked_along sample_listed (by decide +kernel)
  obtain ⟨order, explained⟩ := announces_linearize stopAndStarts sampleEnv _ _ along reached
  exact ⟨_, order, reached, explained⟩

end Ttracker.ConcurrentAnnounces
