import Ttracker.AnnounceHandler
import Ttracker.TransitionRuns
import Mathlib.Logic.Function.Basic

/-!
Announce jobs of one torrent, interleaved. A job searches the peer list without
the lock and keeps the pointer it found for one or two later critical sections;
each of those, the search and the final `free` is one step. The lists `used`,
`printed`, `removed` and `freed` are history: they record the entry each
critical section acted on, the count each reply was sized for and what was
unlinked and freed.
-/
namespace Ttracker.AnnounceRaces
open CLibrary LinkedNodes PeerRequest Torrents AnnounceHandler TransitionRuns

/-- What the handler has copied out of the request before it searches. -/
structure Announce where
  pe : PeerEntry
  event : List UInt8
  deriving DecidableEq

inductive Phase where
  | searching
  | absent
  | found (pp : Node PeerEntry)
  | stopping (pp : Node PeerEntry)
  | unlinked (pp : Node PeerEntry)
  | done
  deriving DecidableEq

structure Shared where
  te : TorrentEntry
  next : Nat
  pc : Nat → Phase
  used : List (Nat × Bool)
  printed : List Int
  removed : List Nat
  freed : List Nat

def handlerStep (jobs : Nat → Announce) (s : Shared) (i : Nat) : Option Shared :=
  match s.pc i with
  | .searching =>
      let phase := match peerSearchPeer (jobs i).pe s.te.peers with
        | none => .absent
        | some pp => .found pp
      some { s with pc := Function.update s.pc i phase }
  | .absent =>
      if wantsStart (jobs i).event then
        let te := (torrentAddPeerAndReturnList s.te ⟨s.next, (jobs i).pe⟩).1
        some { s with
          te := te
          next := s.next + 1
          pc := Function.update s.pc i .done
          printed := te.peerCount :: s.printed }
      else some { s with pc := Function.update s.pc i .done }
  -- from here on `pp` is a pointer from the unlocked search
  | .found pp =>
      let action := updateAction (jobs i).event
      let te := (torrentUpdatePeerAndReturnList s.te pp action).1
      some { s with
        te := te
        pc := Function.update s.pc i (if action = .stop then .stopping pp else .done)
        used := (pp.addr, listed pp.addr s.te.peers) :: s.used
        printed := te.peerCount :: s.printed }
  | .stopping pp =>
      some { s with
        te := torrentRemovePeer s.te pp
        pc := Function.update s.pc i (.unlinked pp)
        used := (pp.addr, listed pp.addr s.te.peers) :: s.used
        removed := pp.addr :: s.removed }
  | .unlinked pp =>
      some { s with pc := Function.update s.pc i .done, freed := pp.addr :: s.freed }
  | .done => none

def start (te : TorrentEntry) : Shared := ⟨te, 0, fun _ => .searching, [], [], [], []⟩

/-- The torrent and its history are as the handlers' comments promise. -/
structure Safe (s : Shared) : Prop where
  counted : s.te.peerCount = s.te.peers.length
  endpoints : KeysDistinct PeerEntry.endpoint s.te.peers
  usedListed : ∀ use ∈ s.used, use.2 = true
  removedOnce : s.removed.Nodup
  freedOnce : s.freed.Nodup
  printedSome : ∀ count ∈ s.printed, count ≠ 0

def Phase.held : Phase → Option (Node PeerEntry)
  | .found pp => some pp
  | .stopping pp => some pp
  | _ => none

/-- The peer a job has unlinked and not yet freed. -/
def Phase.loose : Phase → Option (Node PeerEntry)
  | .unlinked pp => some pp
  | _ => none

/-- A peer is unlinked only while no other job holds a pointer to it. -/
def Exclusive (s : Shared) (i : Nat) : Prop :=
  ∀ pp, s.pc i = .stopping pp → ∀ j, j ≠ i → ∀ qq, (s.pc j).held = some qq → qq.addr ≠ pp.addr

structure Inv (s : Shared) : Prop where
  consistent : Consistent s.te s.next
  usedListed : ∀ use ∈ s.used, use.2 = true
  printedSome : ∀ count ∈ s.printed, count ≠ 0
  removedOld : ∀ a ∈ s.removed, a < s.next
  gone : ∀ a ∈ s.removed, a ∉ addresses s.te.peers
  removedOnce : s.removed.Nodup
  holders : ∀ i pp, (s.pc i).held = some pp → pp ∈ s.te.peers
  looseRemoved : ∀ i pp, (s.pc i).loose = some pp → pp.addr ∈ s.removed ∧ pp.addr ∉ s.freed
  looseOnce : ∀ i j pp qq, (s.pc i).loose = some pp → (s.pc j).loose = some qq →
    pp.addr = qq.addr → i = j
  freedRemoved : ∀ a ∈ s.freed, a ∈ s.removed
  freedOnce : s.freed.Nodup

theorem Inv.safe {s : Shared} (inv : Inv s) : Safe s :=
  ⟨inv.consistent.counted, inv.consistent.endpoints, inv.usedListed, inv.removedOnce,
    inv.freedOnce, inv.printedSome⟩

/-- A torrent with a listed peer prints a reply of positive size. -/
theorem count_ne_zero {te : TorrentEntry} {next : Nat} {pp : Node PeerEntry}
    (consistent : Consistent te next) (member : pp ∈ te.peers) : te.peerCount ≠ 0 := by
  have nonempty := List.length_pos_of_mem member
  have counted := consistent.counted
  omega

theorem update_at {β : Type} (pc : Nat → Phase) (i j : Nat) (phase : Phase) (read : Phase → β) :
    read (Function.update pc i phase j) = if j = i then read phase else read (pc j) := by
  by_cases same : j = i
  · subst same
    simp
  · simp [same]

theorem phase_keeps (s : Shared) (i : Nat) (phase : Phase) (inv : Inv s)
    (held : ∀ pp, phase.held = some pp → pp ∈ s.te.peers) (loose : phase.loose = none) :
    Inv { s with pc := Function.update s.pc i phase } := by
  refine { inv with holders := ?_, looseRemoved := ?_, looseOnce := ?_ }
  · intro j pp
    simp only [update_at s.pc i j phase Phase.held]
    split
    · exact held pp
    · exact inv.holders j pp
  · intro j pp
    simp only [update_at s.pc i j phase Phase.loose, loose]
    split
    · simp
    · exact inv.looseRemoved j pp
  · intro j k pp qq
    simp only [update_at s.pc i j phase Phase.loose, update_at s.pc i k phase Phase.loose, loose]
    split
    · simp
    · split
      · simp
      · exact inv.looseOnce j k pp qq

theorem search_keeps (jobs : Nat → Announce) (s t : Shared) (i : Nat) (inv : Inv s)
    (here : s.pc i = .searching) (taken : handlerStep jobs s i = some t) : Inv t := by
  simp only [handlerStep, here, Option.some.injEq] at taken
  subst taken
  cases searched : peerSearchPeer (jobs i).pe s.te.peers with
  | none => exact phase_keeps s i .absent inv (by simp [Phase.held]) rfl
  | some pp =>
      apply phase_keeps s i (.found pp) inv _ rfl
      intro qq same
      cases same
      exact search_mem searched

theorem insert_keeps (s : Shared) (i : Nat) (pe : PeerEntry) (inv : Inv s)
    (fresh : peerSearchPeer pe s.te.peers = none) :
    Inv { s with
      te := insertPeer s.te ⟨s.next, pe⟩
      next := s.next + 1
      pc := Function.update s.pc i .done
      printed := (insertPeer s.te ⟨s.next, pe⟩).peerCount :: s.printed } := by
  have settled := phase_keeps s i .done inv (by simp [Phase.held]) rfl
  have consistent := insert_consistent pe inv.consistent fresh
  refine { settled with
    consistent := consistent, printedSome := ?_, removedOld := ?_, gone := ?_, holders := ?_ }
  · intro count member
    rcases List.mem_cons.mp member with rfl | old
    · exact count_ne_zero consistent List.mem_cons_self
    · exact inv.printedSome count old
  · exact fun a member => Nat.lt_succ_of_lt (inv.removedOld a member)
  · intro a member listed
    rcases List.mem_cons.mp listed with rfl | old
    · exact (inv.removedOld _ member).false
    · exact inv.gone a member old
  · exact fun j pp held => List.mem_cons_of_mem _ (settled.holders j pp held)

theorem absent_keeps (jobs : Nat → Announce) (s t : Shared) (i : Nat) (inv : Inv s)
    (here : s.pc i = .absent) (taken : handlerStep jobs s i = some t) : Inv t := by
  simp only [handlerStep, here] at taken
  split at taken
  · cases searched : peerSearchPeer (jobs i).pe s.te.peers with
    | none =>
        have inserted := insert_keeps s i (jobs i).pe inv searched
        simp only [torrentAddPeerAndReturnList, searched, Option.some.injEq] at taken
        exact taken ▸ inserted
    | some pp =>
        -- Another start got in between: the second search finds its peer.
        simp only [torrentAddPeerAndReturnList, searched, Option.some.injEq] at taken
        subst taken
        have settled := phase_keeps s i .done inv (by simp [Phase.held]) rfl
        refine { settled with consistent := ?_, printedSome := ?_, removedOld := ?_ }
        · exact consistent_mono inv.consistent (Nat.le_succ _)
        · intro count member
          rcases List.mem_cons.mp member with rfl | old
          · exact count_ne_zero inv.consistent (search_mem searched)
          · exact inv.printedSome count old
        · exact fun a member => Nat.lt_succ_of_lt (inv.removedOld a member)
  · rw [Option.some.injEq] at taken
    subst taken
    exact phase_keeps s i .done inv (by simp [Phase.held]) rfl

theorem used_keeps {s : Shared} {pp : Node PeerEntry} (inv : Inv s) (member : pp ∈ s.te.peers) :
    ∀ use ∈ (pp.addr, listed pp.addr s.te.peers) :: s.used, use.2 = true := by
  intro use present
  rcases List.mem_cons.mp present with rfl | old
  · exact (listed_iff _ _).mpr (address_mem member)
  · exact inv.usedListed use old

theorem found_keeps (jobs : Nat → Announce) (s t : Shared) (i : Nat) (pp : Node PeerEntry)
    (inv : Inv s) (here : s.pc i = .found pp) (taken : handlerStep jobs s i = some t) :
    Inv t := by
  simp only [handlerStep, here, Option.some.injEq] at taken
  have present := inv.holders i pp (by rw [here]; rfl)
  have same := update_peers s.te pp (updateAction (jobs i).event)
  have settled := phase_keeps s i
    (if updateAction (jobs i).event = .stop then .stopping pp else .done) inv
    (by
      split <;> intro qq held
      · cases held
        exact present
      · contradiction)
    (by split <;> rfl)
  have consistent := update_consistent pp (updateAction (jobs i).event) inv.consistent
  subst taken
  refine { settled with
    consistent := consistent, usedListed := used_keeps inv present, printedSome := ?_,
    gone := ?_, holders := ?_ }
  · intro count member
    rcases List.mem_cons.mp member with rfl | old
    · exact count_ne_zero consistent (same.1 ▸ present)
    · exact inv.printedSome count old
  · simpa only [same.1] using inv.gone
  · simpa only [same.1] using settled.holders

theorem stopping_keeps (jobs : Nat → Announce) (s t : Shared) (i : Nat) (pp : Node PeerEntry)
    (inv : Inv s) (here : s.pc i = .stopping pp) (alone : Exclusive s i)
    (taken : handlerStep jobs s i = some t) : Inv t := by
  simp only [handlerStep, here, Option.some.injEq] at taken
  -- the removed address was listed until now, so it cannot have been removed before
  have present := inv.holders i pp (by rw [here]; rfl)
  have unremoved : pp.addr ∉ s.removed := fun member => inv.gone _ member (address_mem present)
  have stays := fun qq => mem_remove_iff pp qq s.te.peers inv.consistent.distinct present
  subst taken
  refine { inv with
    consistent := remove_consistent pp inv.consistent present
    usedListed := used_keeps inv present, removedOnce := ?_, removedOld := ?_, gone := ?_,
    holders := ?_, looseRemoved := ?_, looseOnce := ?_, freedRemoved := ?_ }
  · intro a member
    rcases List.mem_cons.mp member with rfl | old
    · exact inv.consistent.old _ (address_mem present)
    · exact inv.removedOld a old
  · intro a member stillListed
    obtain ⟨node, inside, same⟩ := List.mem_map.mp stillListed
    have left := (stays node).mp inside
    rcases List.mem_cons.mp member with rfl | old
    · exact left.2 same
    · exact inv.gone a old (same ▸ address_mem left.1)
  · exact List.nodup_cons.mpr ⟨unremoved, inv.removedOnce⟩
  · intro j qq
    simp only [update_at s.pc i j (.unlinked pp) Phase.held]
    split
    · simp [Phase.held]
    · next other =>
        exact fun held => (stays qq).mpr ⟨inv.holders j qq held, alone pp here j other qq held⟩
  · intro j qq
    simp only [update_at s.pc i j (.unlinked pp) Phase.loose]
    split
    · intro loose
      cases loose
      exact ⟨List.mem_cons_self, fun freed => unremoved (inv.freedRemoved _ freed)⟩
    · intro loose
      have before := inv.looseRemoved j qq loose
      exact ⟨List.mem_cons_of_mem _ before.1, before.2⟩
  · intro j k qq rr
    simp only [update_at s.pc i j (.unlinked pp) Phase.loose,
      update_at s.pc i k (.unlinked pp) Phase.loose]
    intro first second same
    split at first <;> split at second
    · omega
    · cases first
      exact absurd (same ▸ (inv.looseRemoved k rr second).1) unremoved
    · cases second
      exact absurd (same ▸ (inv.looseRemoved j qq first).1) unremoved
    · exact inv.looseOnce j k qq rr first second same
  · exact fun a member => List.mem_cons_of_mem _ (inv.freedRemoved a member)

theorem free_keeps (jobs : Nat → Announce) (s t : Shared) (i : Nat) (pp : Node PeerEntry)
    (inv : Inv s) (here : s.pc i = .unlinked pp) (taken : handlerStep jobs s i = some t) :
    Inv t := by
  simp only [handlerStep, here, Option.some.injEq] at taken
  have settled := phase_keeps s i .done inv (by simp [Phase.held]) rfl
  have own := inv.looseRemoved i pp (by rw [here]; rfl)
  subst taken
  refine { settled with looseRemoved := ?_, freedRemoved := ?_, freedOnce := ?_ }
  · intro j qq
    simp only [update_at s.pc i j .done Phase.loose]
    split
    · simp [Phase.loose]
    · next other =>
        intro loose
        have before := inv.looseRemoved j qq loose
        refine ⟨before.1, fun freed => ?_⟩
        rcases List.mem_cons.mp freed with same | old
        · exact other (inv.looseOnce j i qq pp loose (by rw [here]; rfl) same)
        · exact before.2 old
  · intro a member
    rcases List.mem_cons.mp member with rfl | old
    · exact own.1
    · exact inv.freedRemoved a old
  · exact List.nodup_cons.mpr ⟨own.2, inv.freedOnce⟩

theorem handler_step_keeps (jobs : Nat → Announce) (s : Shared) (i : Nat) (t : Shared)
    (inv : Inv s) (alone : Exclusive s i) (taken : handlerStep jobs s i = some t) : Inv t := by
  cases here : s.pc i with
  | searching => exact search_keeps jobs s t i inv here taken
  | absent => exact absent_keeps jobs s t i inv here taken
  | found pp => exact found_keeps jobs s t i pp inv here taken
  | stopping pp => exact stopping_keeps jobs s t i pp inv here alone taken
  | unlinked pp => exact free_keeps jobs s t i pp inv here taken
  | done => simp [handlerStep, here] at taken

theorem start_inv (infoHash : List UInt8) (tid : Int) : Inv (start (mkTorrent infoHash tid)) := by
  constructor
  case consistent => exact consistent_mk infoHash tid 0
  all_goals simp [start, Phase.held, Phase.loose]

/-- In every run whose unlinking steps find no other job holding the peer, every
state is safe: any jobs, any number of them, any order. -/
theorem exclusive_runs_safe (jobs : Nat → Announce) (infoHash : List UInt8) (tid : Int)
    (run : List Nat) (final : Shared)
    (along : Along (handlerStep jobs) Exclusive (start (mkTorrent infoHash tid)) run)
    (reached : replay (handlerStep jobs) (start (mkTorrent infoHash tid)) run = some final) :
    Safe final :=
  (replay_invariant (handlerStep jobs) Exclusive Inv
    (fun s i t inv alone taken => handler_step_keeps jobs s i t inv alone taken)
    _ final run (start_inv infoHash tid) along reached).safe

theorem step_frame {jobs : Nat → Announce} {s t : Shared} {i : Nat}
    (taken : handlerStep jobs s i = some t) (j : Nat) (other : j ≠ i) : t.pc j = s.pc j := by
  cases here : s.pc i <;> simp only [handlerStep, here] at taken
  case absent =>
    split at taken <;> cases taken <;> simp [other]
  case done => contradiction
  all_goals
    cases taken
    simp [other]

theorem solo_along (jobs : Nat → Announce) (s : Shared) (i steps : Nat) (rest : List Nat)
    (alone : ∀ j, j ≠ i → (s.pc j).held = none)
    (onward : ∀ t, replay (handlerStep jobs) s (List.replicate steps i) = some t →
      Along (handlerStep jobs) Exclusive t rest) :
    Along (handlerStep jobs) Exclusive s (List.replicate steps i ++ rest) := by
  induction steps generalizing s with
  | zero => exact onward s rfl
  | succ steps ih =>
      intro t taken
      refine ⟨fun pp _ j other qq holds => by simp [alone j other] at holds, ih t ?_ ?_⟩
      · intro j other
        rw [step_frame taken j other]
        exact alone j other
      · intro u reached
        exact onward u (by simpa [List.replicate_succ, replay, taken] using reached)

/-- One client's announces: a start, then stops. -/
def startThenStops : Nat → Announce := fun i =>
  ⟨⟨⟨ascii ['p'], by decide, by decide⟩, 6881, getPeerInfo ⟨10, 0, 0, 1⟩, 5⟩,
    if i = 0 then eventStart else eventStop⟩

theorem exclusive_runs_safe_stop :
    ∃ final, replay (handlerStep startThenStops) (start (mkTorrent [] 7)) [0, 0, 1, 1, 1, 1] =
      some final ∧ Safe final := by
  have reached := (Option.some_get (x := replay (handlerStep startThenStops)
    (start (mkTorrent [] 7)) [0, 0, 1, 1, 1, 1]) (by decide)).symm
  refine ⟨_, reached, exclusive_runs_safe startThenStops [] 7 _ _ ?_ reached⟩
  apply solo_along startThenStops _ 0 2 [1, 1, 1, 1] (fun _ _ => rfl)
  intro t started
  apply solo_along startThenStops t 1 4 []
  · intro j _
    by_cases first : j = 0
    · cases started
      rw [first]
      rfl
    · cases started
      simp [first, start, Phase.held]
  · exact fun _ _ => trivial

/-- Two stops of one peer search before either unlinks it: the second still
prints for it, from a count of zero. -/
theorem raced_stops_unsafe :
    ¬ ∀ (jobs : Nat → Announce) (infoHash : List UInt8) (tid : Int) (run : List Nat)
      (final : Shared),
      replay (handlerStep jobs) (start (mkTorrent infoHash tid)) run = some final →
        Safe final := by
  intro claimed
  have reached := (Option.some_get (x := replay (handlerStep startThenStops)
    (start (mkTorrent [] 7)) [0, 0, 1, 2, 1, 1, 2]) (by decide)).symm
  have safe := claimed startThenStops [] 7 _ _ reached
  exact absurd (safe.printedSome 0 (by decide)) (by decide)

/-- The condition is exact: after an unlink that finds another holder, that
holder's next step acts on a peer that is not listed. -/
theorem shared_unlink_breaks (jobs : Nat → Announce) (s t u : Shared) (i j : Nat)
    (pp qq : Node PeerEntry) (inv : Inv s) (here : s.pc i = .stopping pp) (other : j ≠ i)
    (holds : (s.pc j).held = some qq) (same : qq.addr = pp.addr)
    (unlinked : handlerStep jobs s i = some t) (used : handlerStep jobs t j = some u) :
    ¬ Safe u := by
  have present := inv.holders i pp (by rw [here]; rfl)
  have away : listed qq.addr (remove pp.addr s.te.peers) = false := by
    rw [Bool.eq_false_iff, Ne, listed_iff, same]
    intro member
    obtain ⟨node, inside, here⟩ := List.mem_map.mp member
    exact ((mem_remove_iff pp node _ inv.consistent.distinct present).mp inside).2 here
  simp only [handlerStep, here, Option.some.injEq] at unlinked
  subst unlinked
  have kept : Function.update s.pc i (.unlinked pp) j = s.pc j := Function.update_of_ne other _ _
  intro safe
  have claimed := safe.usedListed (qq.addr, false)
  cases phase : s.pc j with
  | found rr =>
      cases phase ▸ holds
      simp only [handlerStep, kept, phase, Option.some.injEq] at used
      subst used
      simp [torrentRemovePeer, away] at claimed
  | stopping rr =>
      cases phase ▸ holds
      simp only [handlerStep, kept, phase, Option.some.injEq] at used
      subst used
      simp [torrentRemovePeer, away] at claimed
  | searching => simp [phase, Phase.held] at holds
  | absent => simp [phase, Phase.held] at holds
  | unlinked rr => simp [phase, Phase.held] at holds
  | done => simp [phase, Phase.held] at holds

/-- A job run to its end alone leaves the torrent the handler leaves. -/
theorem solo_run (jobs : Nat → Announce) (s : Shared) (i : Nat) (here : s.pc i = .searching) :
    ∃ steps t, replay (handlerStep jobs) s (List.replicate steps i) = some t ∧
      t.pc i = .done ∧ t.te = (announcePeer s.te s.next (jobs i).pe (jobs i).event).1 := by
  have forward : ∀ (steps : Nat) (u v : Shared), handlerStep jobs u i = some v →
      replay (handlerStep jobs) u (List.replicate (steps + 1) i) =
        replay (handlerStep jobs) v (List.replicate steps i) := by
    intro steps u v taken
    simp [List.replicate_succ, replay, taken]
  cases searched : peerSearchPeer (jobs i).pe s.te.peers with
  | none =>
      by_cases start : wantsStart (jobs i).event
      · refine ⟨2, ?_⟩
        rw [forward 1 s _ (by simp [handlerStep, here, searched]; rfl),
          forward 0 _ _ (by simp [handlerStep, start]; rfl)]
        exact ⟨_, rfl, by simp, by simp [announcePeer, searched, start]⟩
      · refine ⟨2, ?_⟩
        rw [forward 1 s _ (by simp [handlerStep, here, searched]; rfl),
          forward 0 _ _ (by simp [handlerStep, start]; rfl)]
        exact ⟨_, rfl, by simp, by simp [announcePeer, searched, start]⟩
  | some pp =>
      by_cases stop : updateAction (jobs i).event = .stop
      · refine ⟨4, ?_⟩
        rw [forward 3 s _ (by simp [handlerStep, here, searched]; rfl),
          forward 2 _ _ (by simp [handlerStep, stop]; rfl),
          forward 1 _ _ (by simp [handlerStep]; rfl),
          forward 0 _ _ (by simp [handlerStep]; rfl)]
        exact ⟨_, rfl, by simp, by simp [announcePeer, searched, stop]⟩
      · refine ⟨2, ?_⟩
        rw [forward 1 s _ (by simp [handlerStep, here, searched]; rfl),
          forward 0 _ _ (by simp [handlerStep, stop]; rfl)]
        exact ⟨_, rfl, by simp, by simp [announcePeer, searched, stop]⟩

end Ttracker.AnnounceRaces
