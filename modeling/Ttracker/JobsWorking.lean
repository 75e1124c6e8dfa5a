import Ttracker.Holdings
import Ttracker.ScrapeHandler
import Ttracker.TransitionRuns

/-!
Announce jobs, scrape jobs and calls of `torrent_remove_torrent`, interleaved. Each
section under the list's mutex or under a torrent's lock is one step, and so is
the unlocked peer search. A job is in between its `torrent_list_workon` and its
`torrent_list_jobdone`. `used` is history: each torrent a job acted on, and
whether it was listed then and the job still at work.
-/
namespace Ttracker.JobsWorking
open CLibrary LinkedNodes HttpQuery PeerRequest Torrents TorrentCache AnnounceHandler ScrapeHandler
open Holdings TransitionRuns

inductive Request where
  | announce (job : AnnounceHandler.Job)
  | scrape (list : List HttpUriKv) (fresh : Nat → FreshHash)

/-- A torrent is known to a job by its address. -/
inductive Phase where
  | starting
  | looking (ctx : PeerReq) (clientaddr : InAddr)
  | missed (torrents : List Nat)
  | searching (te : Nat) (pe : PeerEntry) (event : List UInt8)
  | absent (te : Nat) (pep : Node PeerEntry) (event : List UInt8)
  | found (te : Nat) (pp : Node PeerEntry) (event : List UInt8)
  | stopping (te : Nat) (pp : Node PeerEntry)
  | leaving (te : Nat)
  | scraping (hashlist : List (List UInt8)) (sctx : List ScrapeEntry) (torrents : List Nat)
  | copying (te : Nat) (hashlist : List (List UInt8)) (sctx : List ScrapeEntry)
      (torrents : List Nat)
  | done

def Phase.torrents : Phase → List Nat
  | .searching te _ _ | .absent te _ _ | .found te _ _ | .stopping te _ | .leaving te => [te]
  | .scraping _ _ torrents => torrents
  | .copying te _ _ torrents => te :: torrents
  | .missed torrents => torrents
  | .starting | .looking _ _ | .done => []

/-- The job has begun to work on the list and is not done. -/
def Phase.atWork : Phase → Bool
  | .starting | .done => false
  | _ => true

def Phase.working (phase : Phase) : List Unit := if phase.atWork then [()] else []

structure Shared (Jobs Removers : Type) where
  tl : TorrentList
  jobs : Jobs → Phase
  /-- The torrent a call of `torrent_remove_torrent` has to remove. -/
  removing : Removers → Option Nat
  used : List (Nat × Bool)
  fatal : Bool

inductive Action (Jobs Removers : Type) where
  | job (i : Jobs)
  | call (r : Removers) (te : Nat)
  | remove (r : Removers) (corrupt : List (Node TorrentEntry))

section Steps
variable {Jobs Removers : Type} [DecidableEq Jobs] [DecidableEq Removers]

def enter (s : Shared Jobs Removers) (i : Jobs) (tl : TorrentList) (phase : Phase) :
    Shared Jobs Removers :=
  { s with tl := tl, jobs := Function.update s.jobs i phase }

/-- A section on a torrent. Nothing is known of one that is not listed any more. -/
def useTorrent (s : Shared Jobs Removers) (i : Jobs) (addr : Nat)
    (body : TorrentEntry → TorrentEntry × Phase) : Shared Jobs Removers :=
  match s.tl.list.find? fun te => te.addr == addr with
  | none => { s with used := (addr, false) :: s.used }
  | some te => { s with
      tl := { s.tl with list := modifyAt addr (fun _ => (body te.val).1) s.tl.list }
      jobs := Function.update s.jobs i (body te.val).2
      used := (addr, (s.jobs i).atWork) :: s.used }

def start (requests : Jobs → Request) (env : Environment) (s : Shared Jobs Removers) (i : Jobs) :
    Option (Shared Jobs Removers) :=
  match requests i with
  | .announce job =>
      match httpBuildPeerReq env.curl job.httpKvList with
      | .error _ => none
      | .ok ctx =>
          if sanitizePeerReq ctx = none then
            some (enter s i (torrentListWorkon s.tl) (.looking ctx job.clientaddr))
          else some (enter s i s.tl .done)
  | .scrape list fresh =>
      let hashlist := httpBuildPeerReqHashList env.curl list fun k => (fresh k).mem
      some (enter s i (torrentListWorkon s.tl) (.scraping hashlist [] []))

/-- The steps of `_job_handle_announce` and `_job_handle_scrape`. -/
def jobStep (requests : Jobs → Request) (env : Environment) (s : Shared Jobs Removers) (i : Jobs) :
    Option (Shared Jobs Removers) :=
  match s.jobs i with
  | .starting => start requests env s i
  | .looking ctx clientaddr =>
      match torrentLookupTorrent env.db ctx.infoHash s.tl with
      | .error _ => none
      | .ok (tl, none) => some (enter s i tl (.missed []))
      | .ok (tl, some te) =>
          match peerOf clientaddr ctx with
          | .error _ => none
          | .ok pe => some (enter s i tl (.searching te.addr pe ctx.event.bytes))
  | .missed _ => some (enter s i (torrentListJobdone s.tl) .done)
  | .searching te pe event =>
      -- the address for a new peer is set apart here
      let pep := ⟨s.tl.next, pe⟩
      let s := { s with tl := { s.tl with next := s.tl.next + 1 } }
      some (useTorrent s i te fun torrent => (torrent,
        match peerSearchPeer pe torrent.peers with
        | none => .absent te pep event
        | some pp => .found te pp event))
  | .absent te pep event =>
      if wantsStart event then
        some (useTorrent s i te fun torrent =>
          ((torrentAddPeerAndReturnList torrent pep).1, .leaving te))
      else some (enter s i s.tl (.leaving te))
  | .found te pp event =>
      let action := updateAction event
      some (useTorrent s i te fun torrent =>
        ((torrentUpdatePeerAndReturnList torrent pp action).1,
          if action = .stop then .stopping te pp else .leaving te))
  | .stopping te pp =>
      some (useTorrent s i te fun torrent => (torrentRemovePeer torrent pp, .leaving te))
  | .leaving _ => some (enter s i (torrentListJobdone s.tl) .done)
  | .scraping [] _ _ => some (enter s i (torrentListJobdone s.tl) .done)
  | .scraping (infoHash :: rest) sctx torrents =>
      match torrentLookupTorrent env.db infoHash s.tl with
      | .error _ => none
      | .ok (tl, none) => some (enter s i tl (.missed torrents))
      | .ok (tl, some te) => some (enter s i tl (.copying te.addr rest sctx torrents))
  | .copying te rest sctx torrents =>
      some (useTorrent s i te fun torrent =>
        (torrent, .scraping rest (scrapeAddTorrent sctx torrent) (te :: torrents)))
  | .done => none

/-- `torrent_remove_torrent` from its wait loop on: `none` waits, and a negative
number of jobs ends the process. Unlinking an entry that another call has unlinked
in the meantime may leave any list. -/
def removeStep (s : Shared Jobs Removers) (r : Removers) (corrupt : List (Node TorrentEntry)) :
    Option (Shared Jobs Removers) :=
  (s.removing r).bind fun te =>
    if 0 < s.tl.working then none
    else if s.tl.working < 0 then some { s with fatal := true }
    else
      let list := if listed te s.tl.list then remove te s.tl.list else corrupt
      some { s with
        tl := { s.tl with list := list }
        removing := Function.update s.removing r none }

def step (requests : Jobs → Request) (env : Environment) (s : Shared Jobs Removers) :
    Action Jobs Removers → Option (Shared Jobs Removers)
  | .job i => jobStep requests env s i
  | .call r te =>
      if (s.removing r).isNone && listed te s.tl.list then
        some { s with removing := Function.update s.removing r (some te) }
      else none
  | .remove r corrupt => removeStep s r corrupt

end Steps

def begin {Jobs Removers : Type} (tl : TorrentList) : Shared Jobs Removers where
  tl := { tl with working := 0 }
  jobs := fun _ => .starting
  removing := fun _ => none
  used := []
  fatal := false

/-- The counter is the number of jobs at work, and what they look up stays listed. -/
structure Counted {Jobs Removers : Type} [Fintype Jobs] (s : Shared Jobs Removers) : Prop where
  working : s.tl.working = heldBy Phase.working s.jobs ()
  stays : ∀ i, ∀ te ∈ (s.jobs i).torrents, te ∈ addresses s.tl.list
  used : ∀ use ∈ s.used, use.2 = true
  alive : s.fatal = false

section Run
variable {Jobs Removers : Type} [DecidableEq Jobs] [Fintype Jobs] {s : Shared Jobs Removers}

theorem working_count (phase : Phase) : phase.working.count () = phase.atWork.toNat := by
  cases atWork : phase.atWork <;> simp [Phase.working, atWork]

/-- A job that goes on to another phase, with the list as it then is. -/
theorem enter_keeps (counted : Counted s) (i : Jobs) (tl : TorrentList) (phase : Phase)
    (kept : ∀ te ∈ addresses s.tl.list, te ∈ addresses tl.list)
    (working : tl.working + (s.jobs i).atWork.toNat = s.tl.working + phase.atWork.toNat)
    (torrents : ∀ te ∈ phase.torrents, te ∈ addresses tl.list) :
    Counted (enter s i tl phase) := by
  refine { counted with working := ?_, stays := ?_ }
  · have update := heldBy_update Phase.working s.jobs () i phase
    rw [working_count, working_count] at update
    have before := counted.working
    simp only [enter]
    omega
  · intro j te member
    by_cases same : j = i
    · subst same
      exact torrents te (by simpa [enter] using member)
    · exact kept te (counted.stays j te (by simpa [enter, same] using member))

/-- A section on a torrent the job got from a lookup finds it in the list. -/
theorem use_keeps (counted : Counted s) (i : Jobs) (te : Nat)
    (body : TorrentEntry → TorrentEntry × Phase) (own : te ∈ (s.jobs i).torrents)
    (atWork : (s.jobs i).atWork = true) (still : ∀ torrent, (body torrent).2.atWork = true)
    (torrents : ∀ torrent, ∀ other ∈ (body torrent).2.torrents, other ∈ (s.jobs i).torrents) :
    Counted (useTorrent s i te body) := by
  obtain ⟨torrent, found⟩ : ∃ torrent, s.tl.list.find? (fun node => node.addr == te) = some torrent := by
    rw [← Option.isSome_iff_exists, List.find?_isSome]
    obtain ⟨node, member, rfl⟩ := List.mem_map.mp (counted.stays i te own)
    exact ⟨node, member, by simp⟩
  have same := addresses_modifyAt te (fun _ => (body torrent.val).1) s.tl.list
  have entered := enter_keeps counted i
    { s.tl with list := modifyAt te (fun _ => (body torrent.val).1) s.tl.list } (body torrent.val).2
    (fun other listed => same ▸ listed) (by rw [atWork, still])
    (fun other member => same ▸ counted.stays i other (torrents torrent.val other member))
  have result : useTorrent s i te body =
      { enter s i { s.tl with list := modifyAt te (fun _ => (body torrent.val).1) s.tl.list }
          (body torrent.val).2 with used := (te, true) :: s.used } := by
    simp [useTorrent, found, enter, atWork]
  rw [result]
  refine { entered with used := ?_ }
  intro use member
  rcases List.mem_cons.mp member with rfl | old
  · rfl
  · exact counted.used use old

theorem lookup_keeps_listed {db : Database} {infoHash : List UInt8} {tl after : TorrentList}
    {found : Option (Node TorrentEntry)} (lookup : Lookup db infoHash tl after found) :
    ∀ te ∈ addresses tl.list, te ∈ addresses after.list := by
  cases lookup with
  | hit te found => exact fun _ listed => listed
  | unknown missed refused => exact fun _ listed => listed
  | inserted missed fits known => exact fun _ listed => List.mem_cons_of_mem _ listed

theorem start_keeps {requests : Jobs → Request} {env : Environment} {next : Shared Jobs Removers}
    {i : Jobs} (counted : Counted s) (phase : s.jobs i = .starting)
    (taken : start requests env s i = some next) : Counted next := by
  unfold start at taken
  split at taken
  · split at taken
    · contradiction
    · split at taken
      · cases taken
        exact enter_keeps counted i _ _ (fun _ listed => listed)
          (by simp [phase, Phase.atWork, torrentListWorkon]) (by simp [Phase.torrents])
      · cases taken
        exact enter_keeps counted i _ _ (fun _ listed => listed)
          (by simp [phase, Phase.atWork]) (by simp [Phase.torrents])
  · cases taken
    exact enter_keeps counted i _ _ (fun _ listed => listed)
      (by simp [phase, Phase.atWork, torrentListWorkon]) (by simp [Phase.torrents])

/-- Every exit of the two handlers leaves by `torrent_list_jobdone`. -/
theorem jobdone_keeps (counted : Counted s) (i : Jobs) (atWork : (s.jobs i).atWork = true) :
    Counted (enter s i (torrentListJobdone s.tl) .done) :=
  enter_keeps counted i _ _ (fun _ listed => listed)
    (by rw [atWork]; simp [Phase.atWork, torrentListJobdone]) (by simp [Phase.torrents])

theorem looked_keeps {db : Database} {infoHash : List UInt8} {tl : TorrentList}
    {found : Option (Node TorrentEntry)} (counted : Counted s) (i : Jobs) (phase : Phase)
    (looked : torrentLookupTorrent db infoHash s.tl = .ok (tl, found))
    (atWork : (s.jobs i).atWork = true) (still : phase.atWork = true)
    (torrents : ∀ te ∈ phase.torrents, te ∈ (s.jobs i).torrents ∨ some te = found.map Node.addr) :
    Counted (enter s i tl phase) := by
  have lookup := lookup_cases looked
  have kept := lookup_keeps_listed lookup
  refine enter_keeps counted i tl phase kept (by rw [lookup_working lookup, atWork, still]) ?_
  intro te member
  rcases torrents te member with old | new
  · exact kept te (counted.stays i te old)
  · obtain ⟨torrent, rfl, rfl⟩ := Option.map_eq_some_iff.mp new.symm
    exact address_mem (looked_mem lookup)

theorem job_step_keeps {requests : Jobs → Request} {env : Environment}
    {next : Shared Jobs Removers} {i : Jobs} (counted : Counted s)
    (taken : jobStep requests env s i = some next) : Counted next := by
  have atWork : ∀ phase, s.jobs i = phase → phase.atWork = true → (s.jobs i).atWork = true :=
    fun phase same working => same ▸ working
  unfold jobStep at taken
  split at taken
  · next phase => exact start_keeps counted phase taken
  · next ctx clientaddr phase =>
      split at taken
      · contradiction
      · next tl looked =>
          cases taken
          exact looked_keeps counted i _ looked (atWork _ phase rfl) rfl (by simp [Phase.torrents])
      · next tl te looked =>
          split at taken
          · contradiction
          · cases taken
            exact looked_keeps counted i _ looked (atWork _ phase rfl) rfl
              (by simp [Phase.torrents])
  · next torrents phase =>
      cases taken
      exact jobdone_keeps counted i (atWork _ phase rfl)
  · next te pe event phase =>
      cases taken
      have reserved : Counted { s with tl := { s.tl with next := s.tl.next + 1 } } := { counted with }
      refine use_keeps reserved i te _ (by simp [phase, Phase.torrents]) (atWork _ phase rfl) ?_ ?_
      · intro torrent
        dsimp only
        split <;> rfl
      · intro torrent other member
        dsimp only at member
        split at member <;> simpa [phase, Phase.torrents] using member
  · next te pep event phase =>
      split at taken
      · cases taken
        exact use_keeps counted i te _ (by simp [phase, Phase.torrents]) (atWork _ phase rfl)
          (fun _ => rfl) (fun _ _ member => by simpa [phase, Phase.torrents] using member)
      · cases taken
        refine enter_keeps counted i _ _ (fun _ listed => listed)
          (by simp [phase, Phase.atWork]) fun other member => ?_
        exact counted.stays i other (by simpa [phase, Phase.torrents] using member)
  · next te pp event phase =>
      cases taken
      refine use_keeps counted i te _ (by simp [phase, Phase.torrents]) (atWork _ phase rfl) ?_ ?_
      · intro torrent
        dsimp only
        split <;> rfl
      · intro torrent other member
        dsimp only at member
        split at member <;> simpa [phase, Phase.torrents] using member
  · next te pp phase =>
      cases taken
      exact use_keeps counted i te _ (by simp [phase, Phase.torrents]) (atWork _ phase rfl)
        (fun _ => rfl) (fun _ _ member => by simpa [phase, Phase.torrents] using member)
  · next te phase =>
      cases taken
      exact jobdone_keeps counted i (atWork _ phase rfl)
  · next sctx torrents phase =>
      cases taken
      exact jobdone_keeps counted i (atWork _ phase rfl)
  · next infoHash rest sctx torrents phase =>
      split at taken
      · contradiction
      · next tl looked =>
          cases taken
          exact looked_keeps counted i _ looked (atWork _ phase rfl) rfl
            (fun _ member => Or.inl (by simpa [phase, Phase.torrents] using member))
      · next tl te looked =>
          cases taken
          refine looked_keeps counted i _ looked (atWork _ phase rfl) rfl fun other member => ?_
          rcases List.mem_cons.mp member with rfl | old
          · exact Or.inr rfl
          · exact Or.inl (by simpa [phase, Phase.torrents] using old)
  · next te rest sctx torrents phase =>
      cases taken
      exact use_keeps counted i te _ (by simp [phase, Phase.torrents]) (atWork _ phase rfl)
        (fun _ => rfl) (fun _ _ member => by simpa [phase, Phase.torrents] using member)
  · contradiction

variable [DecidableEq Removers]

omit [DecidableEq Jobs] in
theorem remove_keeps {next : Shared Jobs Removers} {r : Removers} {corrupt : List (Node TorrentEntry)}
    (counted : Counted s) (taken : removeStep s r corrupt = some next) : Counted next := by
  obtain ⟨te, _, taken⟩ := Option.bind_eq_some_iff.mp taken
  have working := counted.working
  split at taken
  · contradiction
  · split at taken
    · omega
    · cases taken
      refine { counted with stays := fun i other member => ?_ }
      have idle : (s.jobs i).atWork.toNat = 0 := by
        have below := count_le_heldBy Phase.working s.jobs () i
        rw [working_count] at below
        omega
      have nothing : (s.jobs i).torrents = [] := by
        cases phase : s.jobs i <;> simp [phase, Phase.atWork, Phase.torrents] at idle ⊢
      rw [nothing] at member
      contradiction

theorem step_keeps {requests : Jobs → Request} {env : Environment} {next : Shared Jobs Removers}
    {action : Action Jobs Removers} (counted : Counted s)
    (taken : step requests env s action = some next) : Counted next := by
  cases action with
  | job i => exact job_step_keeps counted taken
  | call r te =>
      simp only [step] at taken
      split at taken
      · cases taken
        exact { counted with }
      · contradiction
  | remove r corrupt => exact remove_keeps counted taken

omit [DecidableEq Jobs] [DecidableEq Removers] in
theorem begin_counted (tl : TorrentList) : Counted (begin tl : Shared Jobs Removers) := by
  refine ⟨?_, by simp [begin, Phase.torrents], by simp [begin], rfl⟩
  have idle := heldBy_empty Phase.working (begin tl : Shared Jobs Removers).jobs () fun _ => rfl
  rw [idle]
  rfl

/-- Whatever the jobs and the calls of `torrent_remove_torrent` do, from any list, the
counter counts the jobs at work, and a torrent they know stays until they are done. -/
theorem jobs_counted (requests : Jobs → Request) (env : Environment) (tl : TorrentList)
    (run : List (Action Jobs Removers)) :
    Throughout (step requests env) Counted (begin tl) run :=
  throughout_always (step requests env) Counted Counted (fun _ counted => counted)
    (fun _ _ _ => step_keeps) (begin tl) run (begin_counted tl)

end Run

end Ttracker.JobsWorking
