import Mathlib.Logic.Function.Basic
import Mathlib.Tactic.Common

/-!
A tracker by its purpose: a map from keys to swarms, which announces change and scrapes
read. A swarm lists its peers, the newest first, and counts as it is told. Keys, peers and
what tells two peers apart are arbitrary.
-/
namespace Swarms

inductive Event where
  | start
  | stop
  | complete
  | other
  deriving DecidableEq

structure Swarm (Peer : Type) where
  peers : List Peer
  seeders : Int
  leechers : Int
  downloaded : Int
  deriving DecidableEq

/-- What a client asks with: the key that is searched for, the key a new swarm is kept
under, and whether a swarm that is not listed is to be made. -/
structure Name (Key : Type) where
  asked : Key
  kept : Key
  known : Bool
  deriving DecidableEq

abbrev Tracker (Key Peer : Type) := Key → Option (Swarm Peer)

inductive Request (Key Peer Reason : Type) where
  | unread
  | refused
  | invalid (reason : Reason)
  /-- The peer is missing when its entry could not be made. -/
  | announce (name : Name Key) (peer : Option Peer) (event : Event)
  | scrape (names : List (Name Key))
  deriving DecidableEq

inductive Told (Key Peer Reason : Type) where
  | nothing
  | refused
  | invalid (reason : Reason)
  | missing
  | silent
  | swarm (s : Swarm Peer)
  | files (found : List (Key × Swarm Peer))
  deriving DecidableEq

variable {Key Peer Reason Endpoint : Type} [DecidableEq Key] [BEq Endpoint]

namespace Swarm

def empty : Swarm Peer := ⟨[], 0, 0, 0⟩

def join (whole : Peer → Bool) (s : Swarm Peer) (pe : Peer) : Swarm Peer where
  peers := pe :: s.peers
  seeders := if whole pe then s.seeders + 1 else s.seeders
  leechers := if whole pe then s.leechers else s.leechers + 1
  downloaded := s.downloaded

def leave (endpoint : Peer → Endpoint) (whole : Peer → Bool) (s : Swarm Peer) (pe : Peer) :
    Swarm Peer where
  peers := s.peers.eraseP fun other => endpoint other == endpoint pe
  seeders := if whole pe then s.seeders - 1 else s.seeders
  leechers := if whole pe then s.leechers else s.leechers - 1
  downloaded := if whole pe then s.downloaded - 1 else s.downloaded

def finish (s : Swarm Peer) : Swarm Peer :=
  { s with seeders := s.seeders + 1, downloaded := s.downloaded + 1 }

/-- The swarm after an announce and the swarm the announcer is told. -/
def announce (endpoint : Peer → Endpoint) (whole : Peer → Bool) (s : Swarm Peer) (pe : Peer)
    (event : Event) : Swarm Peer × Option (Swarm Peer) :=
  match s.peers.find? (fun other => endpoint other == endpoint pe), event with
  | none, .start => (s.join whole pe, some (s.join whole pe))
  | none, _ => (s, none)
  | some listed, .stop => (s.leave endpoint whole listed, some s)
  | some _, .complete => (s.finish, some s.finish)
  | some _, _ => (s, some s)

end Swarm

/-! ## Requests -/

/-- The tracker after a search, with the key and the swarm it found. -/
def look (t : Tracker Key Peer) (n : Name Key) : Option (Tracker Key Peer × Key × Swarm Peer) :=
  match t n.asked with
  | some s => some (t, n.asked, s)
  | none => if n.known then some (Function.update t n.kept (some .empty), n.kept, .empty) else none

/-- The entries are collected in front; the first name that is unknown ends it. -/
def scrape : Tracker Key Peer → List (Name Key) → List (Key × Swarm Peer) →
    Tracker Key Peer × Option (List (Key × Swarm Peer))
  | t, [], found => (t, some found)
  | t, n :: rest, found =>
      match look t n with
      | none => (t, none)
      | some (t, k, s) => scrape t rest ((k, s) :: found)

section Steps
variable (endpoint : Peer → Endpoint) (whole : Peer → Bool)

def step (t : Tracker Key Peer) :
    Request Key Peer Reason → Tracker Key Peer × Told Key Peer Reason
  | .unread => (t, .nothing)
  | .refused => (t, .refused)
  | .invalid reason => (t, .invalid reason)
  | .announce n peer event =>
      match look t n with
      | none => (t, .missing)
      | some (t, k, s) =>
          match peer with
          | none => (t, .nothing)
          | some pe =>
              let (s, told) := s.announce endpoint whole pe event
              (Function.update t k (some s), told.elim .silent .swarm)
  | .scrape names =>
      match scrape t names [] with
      | (t, none) => (t, .missing)
      | (t, some found) => (t, .files found)

def run (t : Tracker Key Peer) :
    List (Request Key Peer Reason) → Tracker Key Peer × List (Told Key Peer Reason)
  | [] => (t, [])
  | r :: rest =>
      let (t, told) := step endpoint whole t r
      let (t, answers) := run t rest
      (t, told :: answers)

variable {t after : Tracker Key Peer} {n : Name Key} {found : Key} {s : Swarm Peer}

theorem step_unknown (looked : look t n = none) (peer : Option Peer) (event : Event) :
    step endpoint whole t (.announce n peer event : Request Key Peer Reason) = (t, .missing) := by
  simp only [step, looked]

theorem step_unmade (looked : look t n = some (after, found, s)) (event : Event) :
    step endpoint whole t (.announce n none event : Request Key Peer Reason) = (after, .nothing) := by
  simp only [step, looked]

theorem step_announced (looked : look t n = some (after, found, s)) (pe : Peer) (event : Event) :
    step endpoint whole t (.announce n (some pe) event : Request Key Peer Reason) =
      (Function.update after found (some (s.announce endpoint whole pe event).1),
        (s.announce endpoint whole pe event).2.elim .silent .swarm) := by
  simp only [step, looked]

theorem step_scrape (t : Tracker Key Peer) (names : List (Name Key)) :
    step endpoint whole t (.scrape names : Request Key Peer Reason) =
      ((scrape t names []).1, (scrape t names []).2.elim .missing .files) := by
  rw [step]
  cases scrape t names [] with
  | mk after found => cases found <;> rfl

end Steps

/-! ## Where peers come from -/

section Origins
variable {endpoint : Peer → Endpoint} {whole : Peer → Bool} {t : Tracker Key Peer}
  {history : List (Request Key Peer Reason)} {k : Key}

/-- Only a start brings a peer into a swarm, and into what is told. -/
theorem announce_peers (s : Swarm Peer) (pe : Peer) (event : Event) (p : Peer) :
    (p ∈ (s.announce endpoint whole pe event).1.peers → p ∈ s.peers ∨ p = pe ∧ event = .start) ∧
      ∀ told, (s.announce endpoint whole pe event).2 = some told →
        p ∈ told.peers → p ∈ s.peers ∨ p = pe ∧ event = .start := by
  have joined : p ∈ (s.join whole pe).peers → p ∈ s.peers ∨ p = pe ∧ Event.start = .start := by
    intro member
    rcases List.mem_cons.mp member with rfl | before
    · exact Or.inr ⟨rfl, rfl⟩
    · exact Or.inl before
  unfold Swarm.announce
  cases s.peers.find? (fun other => endpoint other == endpoint pe) with
  | none =>
      cases event with
      | start => exact ⟨joined, fun _ same => Option.some.inj same ▸ joined⟩
      | stop | complete | other => exact ⟨Or.inl, fun _ same => by cases same⟩
  | some listed =>
      cases event with
      | stop => exact ⟨fun member => Or.inl (List.mem_of_mem_eraseP member),
          fun _ same => Option.some.inj same ▸ Or.inl⟩
      | start | complete | other => exact ⟨Or.inl, fun _ same => Option.some.inj same ▸ Or.inl⟩

/-- A search finds the swarm of the key it asks for, or makes one under the key it keeps. -/
inductive Found (t : Tracker Key Peer) (n : Name Key) : Tracker Key Peer → Key → Swarm Peer → Prop where
  | listed (s : Swarm Peer) (here : t n.asked = some s) : Found t n t n.asked s
  | made (absent : t n.asked = none) (known : n.known = true) :
      Found t n (Function.update t n.kept (some .empty)) n.kept .empty

theorem look_cases {n : Name Key} {after : Tracker Key Peer} {found : Key} {s : Swarm Peer}
    (looked : look t n = some (after, found, s)) : Found t n after found s := by
  unfold look at looked
  cases here : t n.asked with
  | some listed =>
      simp only [here] at looked
      cases looked
      exact .listed s here
  | none =>
      cases known : n.known with
      | false => simp [here, known] at looked
      | true =>
          simp only [here, known, if_true] at looked
          cases looked
          exact .made here known

theorem look_keeps {n : Name Key} {after : Tracker Key Peer} {found : Key} {s : Swarm Peer}
    (looked : look t n = some (after, found, s)) :
    after found = some s ∧ ∀ k, after k = t k ∨ after k = some .empty := by
  cases look_cases looked with
  | listed s here => exact ⟨here, fun _ => Or.inl rfl⟩
  | made absent known =>
      refine ⟨Function.update_self _ _ _, fun k => ?_⟩
      by_cases here : k = n.kept
      · subst here
        exact Or.inr (Function.update_self _ _ _)
      · exact Or.inl (Function.update_of_ne here _ _)

theorem look_key {n : Name Key} {after : Tracker Key Peer} {found : Key} {s : Swarm Peer}
    (looked : look t n = some (after, found, s)) (clean : n.asked = n.kept) : found = n.kept := by
  cases look_cases looked with
  | listed s here => exact clean
  | made absent known => rfl

theorem scrape_keeps (names : List (Name Key)) (t : Tracker Key Peer)
    (found : List (Key × Swarm Peer)) (k : Key) :
    (scrape t names found).1 k = t k ∨ (scrape t names found).1 k = some .empty := by
  induction names generalizing t found with
  | nil => exact Or.inl rfl
  | cons n rest ih =>
      unfold scrape
      cases looked : look t n with
      | none => exact Or.inl rfl
      | some result =>
          obtain ⟨after, key, s⟩ := result
          have kept := (look_keeps looked).2 k
          rcases ih after ((key, s) :: found) with same | empty
          · rwa [← same] at kept
          · exact Or.inr empty

theorem look_other {n : Name Key} {after : Tracker Key Peer} {found : Key} {s : Swarm Peer}
    (looked : look t n = some (after, found, s)) (other : k ≠ n.kept) : after k = t k := by
  cases look_cases looked with
  | listed s here => rfl
  | made absent known => exact Function.update_of_ne other _ _

/-- A name that no swarm is kept under is given an empty swarm, whatever was kept where it
is made. -/
theorem scrape_forgets {names : List (Name Key)} {n : Name Key} (known : ∀ m ∈ names, m.known = true)
    (named : n ∈ names) (unlisted : t n.asked = none) (apart : ∀ m ∈ names, n.asked ≠ m.kept)
    (found : List (Key × Swarm Peer)) : (scrape t names found).1 n.kept = some .empty := by
  induction names generalizing t found with
  | nil => contradiction
  | cons m rest ih =>
      obtain ⟨first, others⟩ := List.forall_mem_cons.mp known
      obtain ⟨here, later⟩ := List.forall_mem_cons.mp apart
      unfold scrape
      rcases List.mem_cons.mp named with rfl | behind
      · have made : look t n = some (Function.update t n.kept (some .empty), n.kept, .empty) := by
          simp [look, unlisted, first]
        rw [made]
        -- what the rest of the scrape makes is empty too
        have kept := scrape_keeps rest (Function.update t n.kept (some .empty))
          ((n.kept, .empty) :: found) n.kept
        rwa [Function.update_self, or_self] at kept
      · cases looked : look t m with
        | none =>
            unfold look at looked
            cases listed : t m.asked <;> simp [listed, first] at looked
        | some result =>
            obtain ⟨after, key, s⟩ := result
            exact ih others behind ((look_other looked here).trans unlisted) later _

/-- A start for this key brought the peer. -/
def Started (history : List (Request Key Peer Reason)) (k : Key) (pe : Peer) : Prop :=
  ∃ n, .announce n (some pe) .start ∈ history ∧ n.kept = k

/-- Every peer of the key's swarm was brought by a start. -/
def Honest (history : List (Request Key Peer Reason)) (k : Key) (t : Tracker Key Peer) : Prop :=
  ∀ s, t k = some s → ∀ pe ∈ s.peers, Started history k pe

/-- Announces ask for the key they keep. -/
def Clean (r : Request Key Peer Reason) : Prop :=
  ∀ n peer event, r = .announce n peer event → n.asked = n.kept

/-- What an announce for this key is told was brought by starts. -/
def HonestAnswer (history : List (Request Key Peer Reason)) (k : Key)
    (r : Request Key Peer Reason) (told : Told Key Peer Reason) : Prop :=
  ∀ n peer event s, r = .announce n peer event → n.kept = k → told = .swarm s →
    ∀ pe ∈ s.peers, Started history k pe

omit [DecidableEq Key] in
theorem started_later {pe : Peer} (started : Started history k pe)
    (later : List (Request Key Peer Reason)) : Started (history ++ later) k pe := by
  obtain ⟨n, member, kept⟩ := started
  exact ⟨n, List.mem_append_left _ member, kept⟩

omit [DecidableEq Key] in
theorem honest_kept {after : Tracker Key Peer} (honest : Honest history k t)
    (kept : after k = t k ∨ after k = some .empty) (later : List (Request Key Peer Reason)) :
    Honest (history ++ later) k after := by
  intro s listed pe member
  rcases kept with same | empty
  · exact started_later (honest s (same ▸ listed) pe member) later
  · cases empty.symm.trans listed
    simp [Swarm.empty] at member

variable (endpoint whole)

theorem step_honest {r : Request Key Peer Reason} (clean : Clean r) (honest : Honest history k t) :
    Honest (history ++ [r]) k (step endpoint whole t r).1 ∧
      HonestAnswer (history ++ [r]) k r (step endpoint whole t r).2 := by
  cases r with
  | unread | refused | invalid reason =>
      exact ⟨honest_kept honest (Or.inl rfl) _, fun _ _ _ _ same => by cases same⟩
  | scrape names =>
      rw [step_scrape]
      exact ⟨honest_kept honest (scrape_keeps names t [] k) _, fun _ _ _ _ same => by cases same⟩
  | announce n peer event =>
      cases looked : look t n with
      | none =>
          rw [step_unknown endpoint whole looked]
          exact ⟨honest_kept honest (Or.inl rfl) _, fun _ _ _ _ _ _ same => by cases same⟩
      | some result =>
      obtain ⟨after, found, s⟩ := result
      obtain ⟨listed, kept⟩ := look_keeps looked
      have key := look_key looked (clean n peer event rfl)
      cases peer with
      | none =>
          rw [step_unmade endpoint whole looked]
          exact ⟨honest_kept honest (kept k) _, fun _ _ _ _ _ _ same => by cases same⟩
      | some pe =>
      rw [step_announced endpoint whole looked]
      have before := honest_kept honest (kept k) [.announce n (some pe) event]
      -- the peers of the swarm that was found, and this one if it starts
      have brought : found = k → ∀ p, p ∈ s.peers ∨ p = pe ∧ event = .start →
          Started (history ++ [.announce n (some pe) event]) k p := by
        rintro rfl p (member | ⟨rfl, rfl⟩)
        · exact before s listed p member
        · exact ⟨n, by simp, key.symm⟩
      constructor
      · intro s' listed' p member
        dsimp only at listed'
        by_cases here : k = found
        · subst here
          rw [Function.update_self] at listed'
          cases listed'
          exact brought rfl p ((announce_peers s pe event p).1 member)
        · exact before s' (by rwa [Function.update_of_ne here] at listed') p member
      · intro n' peer' event' s' same here told p member
        cases same
        cases answered : (s.announce endpoint whole pe event).2 with
        | none => simp [answered] at told
        | some shown =>
            simp only [answered, Option.elim_some, Told.swarm.injEq] at told
            subst told
            exact brought (key.trans here) p ((announce_peers s pe event p).2 _ answered member)

/-- In a run every announce for the key is told peers that starts up to then brought. -/
theorem run_honest {rs : List (Request Key Peer Reason)} (clean : ∀ r ∈ rs, Clean r)
    (honest : Honest history k t) :
    Honest (history ++ rs) k (run endpoint whole t rs).1 ∧
      ∀ i r told, rs[i]? = some r → (run endpoint whole t rs).2[i]? = some told →
        HonestAnswer (history ++ rs.take (i + 1)) k r told := by
  induction rs generalizing history t with
  | nil => simpa [run] using honest
  | cons r rest ih =>
      obtain ⟨first, others⟩ := List.forall_mem_cons.mp clean
      obtain ⟨after, answer⟩ := step_honest endpoint whole first honest
      obtain ⟨last, answers⟩ := ih others after
      rw [List.append_assoc] at last
      refine ⟨last, fun i asked told this said => ?_⟩
      cases i with
      | zero =>
          cases this
          cases said
          exact answer
      | succ i =>
          have later := answers i asked told this said
          rwa [List.append_assoc] at later

end Origins

/-! ## Swarms of other keys -/

section Independence
variable {endpoint : Peer → Endpoint} {whole : Peer → Bool} {t u : Tracker Key Peer}
  {K : Key → Prop} {k : Key}

def Backed (K : Key → Prop) (t : Tracker Key Peer) : Prop := ∀ k s, t k = some s → K k

/-- Swarms are made under such keys, and a name that asks for such a key asks for the key it
keeps and is known. -/
structure Fair (K : Key → Prop) (n : Name Key) : Prop where
  kept : n.known = true → K n.kept
  known : K n.asked → n.known = true
  clean : K n.asked → n.asked = n.kept

def names : Request Key Peer Reason → List (Name Key)
  | .announce n _ _ => [n]
  | .scrape ns => ns
  | _ => []

/-- The key is asked for, or a swarm may be made under it. -/
def Names (k : Key) (r : Request Key Peer Reason) : Prop := ∃ n ∈ names r, n.asked = k ∨ n.kept = k

instance (k : Key) : DecidablePred (Names k : Request Key Peer Reason → Prop) :=
  fun _ => inferInstanceAs (Decidable (∃ n ∈ _, _ ∨ _))

theorem look_none_iff {n : Name Key} (backed : Backed K t) (fair : Fair K n) :
    look t n = none ↔ n.known = false := by
  unfold look
  cases listed : t n.asked with
  | some s => simp [fair.known (backed _ _ listed)]
  | none => cases n.known <;> simp

theorem look_backed {n : Name Key} {after : Tracker Key Peer} {found : Key} {s : Swarm Peer}
    (looked : look t n = some (after, found, s)) (backed : Backed K t) (fair : Fair K n) :
    Backed K after ∧ found = n.kept := by
  cases look_cases looked with
  | listed s here => exact ⟨backed, fair.clean (backed _ _ here)⟩
  | made absent known =>
      refine ⟨fun k s listed => ?_, rfl⟩
      by_cases here : k = n.kept
      · subst here
        exact fair.kept known
      · rw [Function.update_of_ne here] at listed
        exact backed k s listed

theorem look_swarm {n : Name Key} {after : Tracker Key Peer} {found : Key} {s : Swarm Peer}
    (looked : look t n = some (after, found, s)) (backed : Backed K t) (fair : Fair K n) :
    s = if n.asked = n.kept then (t n.kept).getD .empty else .empty := by
  cases look_cases looked with
  | listed s here =>
      have clean := fair.clean (backed _ _ here)
      rw [if_pos clean, ← clean, here, Option.getD_some]
  | made absent known =>
      split
      · next clean => rw [← clean, absent, Option.getD_none]
      · rfl

/-- Trackers of one kind of keys miss the same names. -/
theorem look_both {n : Name Key} (backed : Backed K t) (backed' : Backed K u) (fair : Fair K n) :
    look t n = none ∧ look u n = none ∨
      ∃ after s after' s', look t n = some (after, n.kept, s) ∧ look u n = some (after', n.kept, s') := by
  cases looked : look t n with
  | none =>
      have unknown := (look_none_iff backed fair).mp looked
      exact Or.inl ⟨rfl, (look_none_iff backed' fair).mpr unknown⟩
  | some result =>
  cases looked' : look u n with
  | none =>
      have unknown := (look_none_iff backed' fair).mp looked'
      cases looked.symm.trans ((look_none_iff backed fair).mpr unknown)
  | some result' =>
      obtain ⟨after, key, s⟩ := result
      obtain ⟨after', key', s'⟩ := result'
      obtain ⟨-, rfl⟩ := look_backed looked backed fair
      obtain ⟨-, rfl⟩ := look_backed looked' backed' fair
      exact Or.inr ⟨after, s, after', s', rfl, rfl⟩

/-- Trackers that agree on a key agree on it after a search. -/
theorem look_agree {n : Name Key} {after after' : Tracker Key Peer} {found found' : Key}
    {s s' : Swarm Peer} (backed : Backed K t) (backed' : Backed K u) (fair : Fair K n)
    (agree : t k = u k) (looked : look t n = some (after, found, s))
    (looked' : look u n = some (after', found', s')) : after k = after' k ∧ (n.kept = k → s = s') := by
  obtain ⟨-, rfl⟩ := look_backed looked backed fair
  obtain ⟨-, rfl⟩ := look_backed looked' backed' fair
  by_cases here : k = n.kept
  · subst here
    have same : s = s' := by
      rw [look_swarm looked backed fair, look_swarm looked' backed' fair, agree]
    exact ⟨by rw [(look_keeps looked).1, (look_keeps looked').1, same], fun _ => same⟩
  · exact ⟨by rw [look_other looked here, look_other looked' here, agree],
      fun same => absurd same.symm here⟩

theorem scrape_backed {ns : List (Name Key)} (backed : Backed K t) (fair : ∀ n ∈ ns, Fair K n)
    (found : List (Key × Swarm Peer)) : Backed K (scrape t ns found).1 := by
  induction ns generalizing t found with
  | nil => exact backed
  | cons n rest ih =>
      obtain ⟨first, others⟩ := List.forall_mem_cons.mp fair
      unfold scrape
      cases looked : look t n with
      | none => exact backed
      | some result =>
          obtain ⟨after, key, s⟩ := result
          exact ih (look_backed looked backed first).1 others _

theorem scrape_agree {ns : List (Name Key)} (backed : Backed K t) (backed' : Backed K u)
    (fair : ∀ n ∈ ns, Fair K n) (agree : t k = u k) (found found' : List (Key × Swarm Peer)) :
    (scrape t ns found).1 k = (scrape u ns found').1 k := by
  induction ns generalizing t u found found' with
  | nil => exact agree
  | cons n rest ih =>
      obtain ⟨first, others⟩ := List.forall_mem_cons.mp fair
      unfold scrape
      -- what is collected differs, what is left under the key does not
      rcases look_both backed backed' first with ⟨missed, missed'⟩ | ⟨after, s, after', s', looked, looked'⟩
      · rw [missed, missed']
        exact agree
      · rw [looked, looked']
        exact ih (look_backed looked backed first).1 (look_backed looked' backed' first).1
          others (look_agree backed backed' first agree looked looked').1 _ _

theorem scrape_other {ns : List (Name Key)} (apart : ∀ n ∈ ns, k ≠ n.kept)
    (found : List (Key × Swarm Peer)) : (scrape t ns found).1 k = t k := by
  induction ns generalizing t found with
  | nil => rfl
  | cons n rest ih =>
      obtain ⟨here, later⟩ := List.forall_mem_cons.mp apart
      unfold scrape
      cases looked : look t n with
      | none => rfl
      | some result =>
          obtain ⟨after, key, s⟩ := result
          exact (ih later _).trans (look_other looked here)

variable (endpoint whole)

theorem step_backed {r : Request Key Peer Reason} (backed : Backed K t)
    (fair : ∀ n ∈ names r, Fair K n) : Backed K (step endpoint whole t r).1 := by
  cases r with
  | unread | refused | invalid reason => exact backed
  | scrape ns =>
      rw [step_scrape]
      exact scrape_backed backed fair []
  | announce n peer event =>
      have first := fair n List.mem_cons_self
      cases looked : look t n with
      | none =>
          rw [step_unknown _ _ looked]
          exact backed
      | some result =>
      obtain ⟨after, key, s⟩ := result
      obtain ⟨kept, rfl⟩ := look_backed looked backed first
      cases peer with
      | none =>
          rw [step_unmade _ _ looked]
          exact kept
      | some pe =>
          rw [step_announced _ _ looked]
          intro k s' listed
          by_cases here : k = n.kept
          · exact here ▸ kept _ _ (look_keeps looked).1
          · exact kept k s' ((Function.update_of_ne here _ _).symm.trans listed)

/-- A request does the same to a key in trackers that agree on it, and tells an announce for
the key the same. -/
theorem step_agree {r : Request Key Peer Reason} (backed : Backed K t) (backed' : Backed K u)
    (fair : ∀ n ∈ names r, Fair K n) (agree : t k = u k) :
    (step endpoint whole t r).1 k = (step endpoint whole u r).1 k ∧
      ∀ n peer event, r = .announce n peer event → n.kept = k →
        (step endpoint whole t r).2 = (step endpoint whole u r).2 := by
  cases r with
  | unread | refused | invalid reason => exact ⟨agree, fun _ _ _ same => by cases same⟩
  | scrape ns =>
      rw [step_scrape, step_scrape]
      exact ⟨scrape_agree backed backed' fair agree [] [], fun _ _ _ same => by cases same⟩
  | announce n peer event =>
      have first := fair n List.mem_cons_self
      rcases look_both backed backed' first with ⟨missed, missed'⟩ | ⟨after, s, after', s', looked, looked'⟩
      · rw [step_unknown _ _ missed, step_unknown _ _ missed']
        exact ⟨agree, fun _ _ _ _ _ => rfl⟩
      obtain ⟨same, sameSwarm⟩ := look_agree backed backed' first agree looked looked'
      cases peer with
      | none =>
          rw [step_unmade _ _ looked, step_unmade _ _ looked']
          exact ⟨same, fun _ _ _ _ _ => rfl⟩
      | some pe =>
      rw [step_announced _ _ looked, step_announced _ _ looked']
      constructor
      · dsimp only
        by_cases here : k = n.kept
        · rw [here, Function.update_self, Function.update_self, sameSwarm here.symm]
        · rw [Function.update_of_ne here, Function.update_of_ne here, same]
      -- the swarm found is the key's own, or is not there in either
      · rintro _ _ _ ⟨⟩ here
        dsimp only
        rw [sameSwarm here]

theorem step_apart {r : Request Key Peer Reason} (backed : Backed K t)
    (fair : ∀ n ∈ names r, Fair K n) (apart : ¬ Names k r) :
    (step endpoint whole t r).1 k = t k := by
  have others : ∀ n ∈ names r, k ≠ n.kept := fun n member same => apart ⟨n, member, Or.inr same.symm⟩
  cases r with
  | unread | refused | invalid reason => rfl
  | scrape ns =>
      rw [step_scrape]
      exact scrape_other others []
  | announce n peer event =>
      have here := others n List.mem_cons_self
      cases looked : look t n with
      | none => rw [step_unknown _ _ looked]
      | some result =>
          obtain ⟨after, key, s⟩ := result
          obtain ⟨-, rfl⟩ := look_backed looked backed (fair n List.mem_cons_self)
          have kept := look_other looked here
          cases peer with
          | none =>
              rw [step_unmade _ _ looked]
              exact kept
          | some pe =>
              rw [step_announced _ _ looked]
              exact (Function.update_of_ne here _ _).trans kept

theorem run_backed {rs : List (Request Key Peer Reason)} (backed : Backed K t)
    (fair : ∀ r ∈ rs, ∀ n ∈ names r, Fair K n) : Backed K (run endpoint whole t rs).1 := by
  induction rs generalizing t with
  | nil => exact backed
  | cons r rest ih =>
      obtain ⟨first, others⟩ := List.forall_mem_cons.mp fair
      exact ih (step_backed endpoint whole backed first) others

theorem run_projects {rs : List (Request Key Peer Reason)} (backed : Backed K t) (backed' : Backed K u)
    (fair : ∀ r ∈ rs, ∀ n ∈ names r, Fair K n) (agree : t k = u k) :
    (run endpoint whole t rs).1 k =
      (run endpoint whole u (rs.filter fun r => Names k r)).1 k := by
  induction rs generalizing t u with
  | nil => exact agree
  | cons r rest ih =>
      obtain ⟨first, others⟩ := List.forall_mem_cons.mp fair
      have after := step_backed endpoint whole backed first
      -- a request that names the key is in both runs, any other changes nothing under it
      by_cases named : Names k r
      · rw [List.filter_cons_of_pos (by simpa using named)]
        exact ih after (step_backed endpoint whole backed' first) others
          (step_agree endpoint whole backed backed' first agree).1
      · rw [List.filter_cons_of_neg (by simpa using named)]
        exact ih after backed' others ((step_apart endpoint whole backed first named).trans agree)

/-- Runs whose requests for a key are the same leave the same under it. -/
theorem runs_agree {rs rs' : List (Request Key Peer Reason)} (backed : Backed K t)
    (fair : ∀ r ∈ rs, ∀ n ∈ names r, Fair K n) (fair' : ∀ r ∈ rs', ∀ n ∈ names r, Fair K n)
    (same : (rs.filter fun r => Names k r) = rs'.filter fun r => Names k r) :
    (run endpoint whole t rs).1 k = (run endpoint whole t rs').1 k := by
  rw [run_projects endpoint whole backed backed fair rfl,
    run_projects endpoint whole backed backed fair' rfl, same]

theorem run_answer {rs : List (Request Key Peer Reason)} {i : Nat} {r : Request Key Peer Reason}
    (asked : rs[i]? = some r) : (run endpoint whole t rs).2[i]? =
      some (step endpoint whole (run endpoint whole t (rs.take i)).1 r).2 := by
  induction rs generalizing t i with
  | nil => simp at asked
  | cons first rest ih =>
      cases i with
      | zero =>
          cases asked
          rfl
      | succ i => exact ih asked

/-- An announce for a key is told the same after runs whose requests for the key are the same. -/
theorem answers_agree {rs rs' : List (Request Key Peer Reason)} {i j : Nat} {n : Name Key}
    {peer : Option Peer} {event : Event} (backed : Backed K t)
    (fair : ∀ r ∈ rs, ∀ n ∈ names r, Fair K n) (fair' : ∀ r ∈ rs', ∀ n ∈ names r, Fair K n)
    (asked : rs[i]? = some (.announce n peer event)) (asked' : rs'[j]? = some (.announce n peer event))
    (same : ((rs.take i).filter fun r => Names n.kept r) = (rs'.take j).filter fun r => Names n.kept r) :
    (run endpoint whole t rs).2[i]? = (run endpoint whole t rs').2[j]? := by
  have before : ∀ r ∈ rs.take i, ∀ n ∈ names r, Fair K n :=
    fun r member => fair r (List.mem_of_mem_take member)
  have before' : ∀ r ∈ rs'.take j, ∀ n ∈ names r, Fair K n :=
    fun r member => fair' r (List.mem_of_mem_take member)
  have kept := run_backed endpoint whole backed before
  have kept' := run_backed endpoint whole backed before'
  have agree := runs_agree endpoint whole backed before before' same
  obtain ⟨-, told⟩ :=
    step_agree endpoint whole kept kept' (fair _ (List.mem_of_getElem? asked)) agree
  rw [run_answer endpoint whole asked, run_answer endpoint whole asked', told n peer event rfl rfl]

end Independence

end Swarms
