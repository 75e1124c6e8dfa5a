import Ttracker.RetryLoops
import Ttracker.TorrentCache

/-!
The question of `db_query_lookup_torrent` step by step, asked with the mutex
of the torrent list held. A prepared statement is the stream of what
`sqlite3_step` will return; `none` is a caller that is still in the loop.
-/
namespace Ttracker.DatabaseLookups
open CLibrary LinkedNodes PeerRequest Torrents TorrentCache RetryLoops

def sqliteError : Int := 1
def sqliteBusy : Int := 5
def sqliteLocked : Int := 6
def sqliteRow : Int := 100
def sqliteDone : Int := 101

/-- One return of `sqlite3_step`, and what `sqlite3_column_int` then reads. -/
structure Step where
  retcode : Int
  column : Int
  deriving DecidableEq

abbrev Statement := Nat → Step

/-- `sqlite3_prepare_v2` of an SQL text, or its refusal. -/
abbrev Sqlite := List UInt8 → Option Statement

def stepLoop (stmt : Statement) : Nat → Nat → Int → Option Int
  | 0, _, _ => none
  | fuel + 1, maxtry, tid =>
      let retcode := (stmt 0).retcode
      if retcode ≠ sqliteDone ∧ retcode ≠ sqliteError ∧ 0 < maxtry then
        if retcode = sqliteBusy then stepLoop (later stmt) fuel (maxtry - 1) tid
        else if retcode = sqliteRow then stepLoop (later stmt) fuel maxtry (stmt 0).column
        -- any other code is asked again for nothing
        else stepLoop (later stmt) fuel maxtry tid
      else some tid

def maxTry : Nat := 10

def dbQueryLookupTorrent (sqlite : Sqlite) (fuel : Nat) (infoHash : List UInt8) :
    Option (Except Fault Int) :=
  if (lookupSql infoHash).length < queryLen then
    match sqlite (lookupSql infoHash) with
    | none => some (.ok (-1))
    | some stmt => (stepLoop stmt fuel maxTry (-1)).map Except.ok
  else some (.error (.overrun .query))

/-- The torrent list and its mutex. -/
structure Guarded where
  tl : TorrentList
  held : Bool
  deriving DecidableEq

/-- `pthread_mutex_lock` at the moment the mutex is free. -/
def lock (s : Guarded) : Guarded := { s with held := true }

def unlock (s : Guarded) : Guarded := { s with held := false }

def torrentLookupTorrent (sqlite : Sqlite) (fuel : Nat) (infoHash : List UInt8) (s : Guarded) :
    Option (Except Fault (Guarded × Option (Node TorrentEntry))) :=
  let s := lock s
  match torrentDoLookupTorrentInfoHash infoHash s.tl.list with
  | some te => some (.ok (unlock s, some te))
  | none =>
      match dbQueryLookupTorrent sqlite fuel infoHash with
      | none => none
      | some (.error fault) => some (.error fault)
      | some (.ok tid) =>
          if tid = -1 then some (.ok (unlock s, none))
          else
            let te := ⟨s.tl.next, mkTorrent (strncpy torrentHashLen infoHash) tid⟩
            let s := { s with tl := { s.tl with list := te :: s.tl.list, next := s.tl.next + 1 } }
            some (.ok (unlock s, some te))

/-! ## The loop as a retry policy -/

def stepPolicy : Policy Step Int where
  stops answer := answer.retcode == sqliteDone || answer.retcode == sqliteError
  charged answer := answer.retcode == sqliteBusy
  note tid answer := if answer.retcode = sqliteRow then answer.column else tid

theorem step_loop_runs (stmt : Statement) (fuel maxtry : Nat) (tid : Int) :
    stepLoop stmt fuel maxtry tid = stepPolicy.run stmt fuel maxtry tid := by
  induction fuel generalizing stmt maxtry tid with
  | zero => rfl
  | succ fuel ih =>
      by_cases stopped : stepPolicy.stops (stmt 0) = true ∨ maxtry = 0
      · rw [run_stopped stepPolicy stmt fuel maxtry tid stopped]
        apply if_neg
        rintro ⟨notDone, notError, left⟩
        rcases stopped with stops | spent
        · simp [stepPolicy, notDone, notError] at stops
        · omega
      · obtain ⟨goes, left⟩ := not_or.mp stopped
        rw [Bool.not_eq_true] at goes
        obtain ⟨notDone, notError⟩ : (stmt 0).retcode ≠ sqliteDone ∧
            (stmt 0).retcode ≠ sqliteError := by simpa [stepPolicy] using goes
        have taken : (stmt 0).retcode ≠ sqliteDone ∧ (stmt 0).retcode ≠ sqliteError ∧ 0 < maxtry :=
          ⟨notDone, notError, Nat.pos_of_ne_zero left⟩
        simp only [stepLoop, if_pos taken, ih]
        by_cases busy : (stmt 0).retcode = sqliteBusy
        · rw [if_pos busy, run_charged stepPolicy stmt fuel maxtry tid goes left]
          exact beq_iff_eq.mpr busy
        · rw [if_neg busy, run_noted stepPolicy stmt fuel maxtry tid goes left]
          · by_cases row : (stmt 0).retcode = sqliteRow
            · simp [stepPolicy, row]
            · simp [stepPolicy, row]
          · exact beq_eq_false_iff_ne.mpr busy

def LoopEnds (stmt : Statement) : Prop := ∃ fuel tid, stepLoop stmt fuel maxTry (-1) = some tid

/-- SQLITE_DONE, SQLITE_ERROR, or ten times SQLITE_BUSY. -/
def Answered (stmt : Statement) : Prop :=
  (∃ n, (stmt n).retcode = sqliteDone ∨ (stmt n).retcode = sqliteError) ∨
    ∃ n, maxTry ≤ Nat.count (fun k => (stmt k).retcode = sqliteBusy) n

theorem answered_enough (stmt : Statement) :
    Answered stmt ↔ stepPolicy.Enough stmt maxTry := by
  simp [Answered, Policy.Enough, stepPolicy]

theorem loop_ends_iff (stmt : Statement) : LoopEnds stmt ↔ Answered stmt := by
  rw [answered_enough, ← ends_iff stepPolicy stmt maxTry (-1)]
  simp only [LoopEnds, Policy.Ends, step_loop_runs]

/-! ## The mutex of the torrent list -/

/-- Where the question ends, the lookup is the one of an answering database. -/
theorem lookup_answered (sqlite : Sqlite) (fuel : Nat) (infoHash : List UInt8) (s : Guarded)
    (db : Database)
    (answered : dbQueryLookupTorrent sqlite fuel infoHash =
      some (TorrentCache.dbQueryLookupTorrent db infoHash)) :
    torrentLookupTorrent sqlite fuel infoHash s =
      some ((TorrentCache.torrentLookupTorrent db infoHash s.tl).map
        fun looked => (⟨looked.1, false⟩, looked.2)) := by
  unfold torrentLookupTorrent TorrentCache.torrentLookupTorrent
  rw [answered]
  cases found : torrentDoLookupTorrentInfoHash infoHash s.tl.list with
  | some te => simp [lock, unlock, found, Except.map]
  | none =>
      cases asked : TorrentCache.dbQueryLookupTorrent db infoHash with
      | error fault => simp [lock, found, Except.map]
      | ok tid =>
          by_cases refused : tid = -1
          · simp [lock, unlock, found, refused, Except.map]
          · simp [lock, unlock, found, refused, Except.map]

/-- Statements that are all answered make up a database that answers every lookup. -/
theorem answering_database (sqlite : Sqlite)
    (answering : ∀ sql stmt, sqlite sql = some stmt → Answered stmt) :
    ∃ db : Database, ∀ infoHash s, ∃ fuel,
      torrentLookupTorrent sqlite fuel infoHash s =
        some ((TorrentCache.torrentLookupTorrent db infoHash s.tl).map
          fun looked => (⟨looked.1, false⟩, looked.2)) := by
  have asked : ∀ sql, ∃ tid fuel, (sqlite sql).elim (some (-1))
      (fun stmt => stepLoop stmt fuel maxTry (-1)) = some tid := by
    intro sql
    cases prepared : sqlite sql with
    | none => exact ⟨-1, 0, rfl⟩
    | some stmt =>
        obtain ⟨fuel, tid, ended⟩ := (loop_ends_iff stmt).mpr (answering sql stmt prepared)
        exact ⟨tid, fuel, ended⟩
  choose db fuel ended using asked
  refine ⟨db, fun infoHash s => ⟨fuel (lookupSql infoHash), lookup_answered _ _ _ s db ?_⟩⟩
  unfold dbQueryLookupTorrent TorrentCache.dbQueryLookupTorrent
  by_cases fits : (lookupSql infoHash).length < queryLen
  · have answer := ended (lookupSql infoHash)
    rw [if_pos fits, if_pos fits]
    cases prepared : sqlite (lookupSql infoHash) with
    | none =>
        rw [prepared] at answer
        simp only [Option.elim_none, Option.some.injEq] at answer
        rw [answer]
    | some stmt =>
        rw [prepared] at answer
        simp only [Option.elim_some] at answer
        simp only [answer, Option.map_some]
  · rw [if_neg fits, if_neg fits]

/-- The lookup returns, and its caller has given the mutex back. -/
def Releases (sqlite : Sqlite) (infoHash : List UInt8) (s : Guarded) : Prop :=
  ∃ fuel after found,
    torrentLookupTorrent sqlite fuel infoHash s = some (.ok (after, found)) ∧ after.held = false

def Listed (infoHash : List UInt8) (tl : TorrentList) : Prop :=
  ∃ te ∈ tl.list, te.val.infoHash.take torrentHashLen = infoHash.take torrentHashLen

theorem listed_releases (sqlite : Sqlite) (infoHash : List UInt8) (s : Guarded)
    (listed : Listed infoHash s.tl) : Releases sqlite infoHash s := by
  cases found : torrentDoLookupTorrentInfoHash infoHash s.tl.list with
  | some te => exact ⟨0, unlock s, some te, by simp [torrentLookupTorrent, lock, unlock, found], rfl⟩
  | none =>
      obtain ⟨te, member, same⟩ := listed
      exact absurd same ((do_lookup_absent_iff infoHash s.tl.list).mp found te member)

/-- On a miss the mutex is given back exactly when the question is answered. -/
theorem missed_releases_iff (sqlite : Sqlite) (infoHash : List UInt8) (s : Guarded)
    (missed : ¬ Listed infoHash s.tl) :
    Releases sqlite infoHash s ↔
      ∃ fuel tid, dbQueryLookupTorrent sqlite fuel infoHash = some (.ok tid) := by
  have absent : torrentDoLookupTorrentInfoHash infoHash s.tl.list = none :=
    (do_lookup_absent_iff infoHash s.tl.list).mpr fun te member same => missed ⟨te, member, same⟩
  constructor
  · rintro ⟨fuel, after, found, looked, free⟩
    cases asked : dbQueryLookupTorrent sqlite fuel infoHash with
    | none => simp [torrentLookupTorrent, lock, absent, asked] at looked
    | some answer =>
        cases answer with
        | error fault => simp [torrentLookupTorrent, lock, absent, asked] at looked
        | ok tid => exact ⟨fuel, tid, asked⟩
  · rintro ⟨fuel, tid, asked⟩
    by_cases refused : tid = -1
    · exact ⟨fuel, unlock s, none,
        by simp [torrentLookupTorrent, lock, unlock, absent, asked, refused], rfl⟩
    · exact ⟨fuel, _, _, by simp [torrentLookupTorrent, lock, absent, asked, refused]; exact ⟨rfl, rfl⟩,
        rfl⟩

theorem query_answered_iff (sqlite : Sqlite) (infoHash : List UInt8) :
    (∃ fuel tid, dbQueryLookupTorrent sqlite fuel infoHash = some (.ok tid)) ↔
      (lookupSql infoHash).length < queryLen ∧
        ∀ stmt, sqlite (lookupSql infoHash) = some stmt → Answered stmt := by
  by_cases fits : (lookupSql infoHash).length < queryLen
  · cases prepared : sqlite (lookupSql infoHash) with
    | none => simp [dbQueryLookupTorrent, fits, prepared]
    | some stmt =>
        simp only [dbQueryLookupTorrent, fits, prepared, if_true, true_and, Option.some.injEq,
          forall_eq', ← loop_ends_iff, LoopEnds, Option.map_eq_some_iff, Except.ok.injEq,
          exists_eq_right]
  · simp [dbQueryLookupTorrent, fits]

theorem lookup_releases_iff (sqlite : Sqlite) (infoHash : List UInt8) (s : Guarded) :
    (∀ stmt, LoopEnds stmt ↔ Answered stmt) ∧
      (Releases sqlite infoHash s ↔
        Listed infoHash s.tl ∨
          (lookupSql infoHash).length < queryLen ∧
            ∀ stmt, sqlite (lookupSql infoHash) = some stmt → Answered stmt) := by
  refine ⟨loop_ends_iff, ?_⟩
  by_cases listed : Listed infoHash s.tl
  · exact ⟨fun _ => .inl listed, fun _ => listed_releases sqlite infoHash s listed⟩
  · rw [missed_releases_iff sqlite infoHash s listed, query_answered_iff]
    simp [listed]

def lockedDatabase : Statement := fun _ => ⟨sqliteLocked, 0⟩

/-- A table that stays locked never returns a row, is not charged to the ten
tries, and keeps the mutex for ever. -/
theorem locked_table_holds_mutex :
    (∀ n, (lockedDatabase n).retcode ≠ sqliteRow) ∧ ¬ LoopEnds lockedDatabase ∧
      ¬ Releases (fun _ => some lockedDatabase) (List.replicate 40 48)
        ⟨TorrentList.empty, false⟩ := by
  have hangs : ¬ Answered lockedDatabase := by
    rintro (⟨n, done | error⟩ | ⟨n, spent⟩)
    · exact absurd done (by decide : sqliteLocked ≠ sqliteDone)
    · exact absurd error (by decide : sqliteLocked ≠ sqliteError)
    · have never : ∀ k, (lockedDatabase k).retcode ≠ sqliteBusy :=
        fun _ => (by decide : sqliteLocked ≠ sqliteBusy)
      simp [never, maxTry] at spent
  refine ⟨fun _ => (by decide : sqliteLocked ≠ sqliteRow), ?_, ?_⟩
  · rwa [loop_ends_iff]
  · have missed : ¬ Listed (List.replicate 40 48) TorrentList.empty := by
      rintro ⟨te, member, same⟩
      cases member
    rw [missed_releases_iff _ _ _ missed, query_answered_iff]
    rintro ⟨fits, answered⟩
    exact hangs (answered lockedDatabase rfl)

end Ttracker.DatabaseLookups
