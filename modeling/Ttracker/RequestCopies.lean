import Ttracker.PeerRequest

/-!
What the announce builder finds in the list `http_parse_query` accepted, and
whether the strings it copies fit. Both are settled on the query text: the
entry a lookup finds is the last piece with that key.
-/
namespace Ttracker.RequestCopies
open CLibrary HttpQuery PeerRequest

abbrev Pieces := List (List UInt8 × List UInt8)

def keyCount (key : List UInt8) (ps : Pieces) : Nat := ps.countP fun piece => cstr piece.1 == key

/-- The value of the last piece with a key. -/
def lastValue (key : List UInt8) (ps : Pieces) : Option (List UInt8) :=
  (ps.reverse.find? fun piece => cstr piece.1 == key).map fun piece => cstr piece.2

theorem of_memory_short (room : Nat) (mem : List UInt8) (short : mem.length ≤ room) :
    (CString.ofMemory room mem).bytes = cstr mem := by
  have bound := cstr_length_le mem
  exact List.take_of_length_le (by omega)

theorem mk_kv_piece (text : List UInt8) (piece : List UInt8 × List UInt8)
    (member : piece ∈ pieces text) :
    (mkKv piece.1 piece.2).key.bytes = cstr piece.1 ∧
      (mkKv piece.1 piece.2).val.bytes = cstr piece.2 := by
  have lengths := piece_lengths text piece member
  exact ⟨of_memory_short _ _ lengths.1, of_memory_short _ _ lengths.2⟩

def listOf (ps : Pieces) : List HttpUriKv := (ps.map fun piece => mkKv piece.1 piece.2).reverse

theorem key_predicate (text key : List UInt8) :
    ∀ piece ∈ pieces text,
      ((fun np : HttpUriKv => np.key.bytes == key) ∘ fun piece => mkKv piece.1 piece.2) piece =
        (cstr piece.1 == key) := by
  intro piece member
  simp [(mk_kv_piece text piece member).1]

theorem lookup_last (text key : List UInt8) :
    (httpLookupKvKey (listOf (pieces text)) key).map (fun np => np.val.bytes) =
      lastValue key (pieces text) := by
  rw [httpLookupKvKey, listOf, ← List.map_reverse, List.find?_map, lastValue]
  have same : ∀ ps : Pieces, (∀ piece ∈ ps, piece ∈ pieces text) →
      ps.find? ((fun np : HttpUriKv => np.key.bytes == key) ∘ fun piece => mkKv piece.1 piece.2) =
        ps.find? (fun piece => cstr piece.1 == key) := by
    intro ps inside
    induction ps with
    | nil => rfl
    | cons piece rest ih =>
        have here := key_predicate text key piece (inside piece (by simp))
        simp only [List.find?_cons, here]
        rw [ih fun other member => inside other (List.mem_cons_of_mem piece member)]
  rw [same _ fun piece member => List.mem_reverse.mp member]
  cases found : (pieces text).reverse.find? (fun piece => cstr piece.1 == key) with
  | none => rfl
  | some piece =>
      have member := List.mem_reverse.mp (List.mem_of_find?_eq_some found)
      simp [(mk_kv_piece text piece member).2]

theorem lookup_value (text key : List UInt8) (np : HttpUriKv)
    (found : httpLookupKvKey (listOf (pieces text)) key = some np) :
    lastValue key (pieces text) = some np.val.bytes := by
  rw [← lookup_last, found]
  rfl

theorem last_value_isSome (key : List UInt8) (ps : Pieces) :
    (lastValue key ps).isSome ↔ 1 ≤ keyCount key ps := by
  rw [lastValue, Option.isSome_map, keyCount, List.find?_isSome, Nat.one_le_iff_ne_zero,
    ← Nat.pos_iff_ne_zero, List.countP_pos_iff]
  simp only [List.mem_reverse]

theorem accepted_list (input : Buffer) (result : QueryResult)
    (parsed : httpParseQuery input .announce = some result) (accepted : result.ret = 0) :
    result.head = listOf (queryPieces input 14) := by
  obtain ⟨start, offset, built, _⟩ := accepted_pieces input .announce result parsed accepted
  cases offset
  exact built

/-! ## The six lookups of the announce builder -/

/-- Every lookup finds an entry, and building never goes through a NULL entry. -/
def EntriesFound (curl : Unescape) (list : List HttpUriKv) : Prop :=
  (∀ key ∈ builderKeys, (httpLookupKvKey list key).isSome) ∧
    ∀ key, httpBuildPeerReq curl list ≠ .error (.nullEntry key)

def requiredMatches (ps : Pieces) : Nat := (requiredKeys.map fun key => keyCount key ps).sum

/-- How often a required key comes again after its first occurrence. -/
def requiredRepeats (ps : Pieces) : Nat := (requiredKeys.map fun key => keyCount key ps - 1).sum

theorem sum_pred_le (count : List UInt8 → Nat) (keys : List (List UInt8)) :
    (keys.map count).sum ≤ keys.length + (keys.map fun key => count key - 1).sum := by
  induction keys with
  | nil => simp
  | cons key rest ih =>
      simp only [List.map_cons, List.sum_cons, List.length_cons]
      omega

/-- A sum of counts reaches the number of keys plus the repeats exactly when no
count is zero. -/
theorem all_counted_iff (count : List UInt8 → Nat) (keys : List (List UInt8)) :
    (∀ key ∈ keys, 1 ≤ count key) ↔
      keys.length + (keys.map fun key => count key - 1).sum ≤ (keys.map count).sum := by
  induction keys with
  | nil => simp
  | cons key rest ih =>
      have bound := sum_pred_le count rest
      simp only [List.forall_mem_cons, ih, List.map_cons, List.sum_cons, List.length_cons]
      omega

theorem builder_keys_required (key : List UInt8) : key ∈ builderKeys ↔ key ∈ requiredKeys := by
  simp only [builderKeys, requiredKeys, List.mem_cons, List.not_mem_nil, or_false]
  constructor <;> rintro (h | h | h | h | h | h) <;> simp [h]

theorem count_matches_reads (text : List UInt8) :
    countMatches (listOf (pieces text)) = requiredMatches (pieces text) := by
  rw [countMatches, requiredMatches]
  congr 1
  apply List.map_congr_left
  intro key _
  rw [listOf, List.countP_reverse, List.countP_map, keyCount]
  apply List.countP_congr
  intro piece member
  rw [key_predicate text key piece member]

/-- What the counting loop demands of an accepted announce. -/
theorem accepted_matches (input : Buffer) (result : QueryResult)
    (parsed : httpParseQuery input .announce = some result) (accepted : result.ret = 0) :
    httpMaxKeys ≤ requiredMatches (queryPieces input 14) := by
  obtain ⟨start, offset, built, judged⟩ := accepted_pieces input .announce result parsed accepted
  cases offset
  have counted : countMatches result.head = requiredMatches (queryPieces input 14) := by
    rw [built]
    exact count_matches_reads (queryText input 14)
  by_contra few
  rw [judged, judge, if_pos (by omega)] at accepted
  contradiction

theorem lookup_isSome (text key : List UInt8) :
    (httpLookupKvKey (listOf (pieces text)) key).isSome ↔ 1 ≤ keyCount key (pieces text) := by
  rw [← last_value_isSome, ← lookup_last, Option.isSome_map]

theorem entries_found_iff (curl : Unescape) (input : Buffer) (result : QueryResult)
    (parsed : httpParseQuery input .announce = some result) (accepted : result.ret = 0) :
    EntriesFound curl result.head ↔
      httpMaxKeys + requiredRepeats (queryPieces input 14) ≤
        requiredMatches (queryPieces input 14) := by
  rw [accepted_list input result parsed accepted]
  have counted : (∀ key ∈ builderKeys,
      (httpLookupKvKey (listOf (queryPieces input 14)) key).isSome) ↔
        ∀ key ∈ requiredKeys, 1 ≤ keyCount key (queryPieces input 14) := by
    simp only [builder_keys_required, queryPieces, lookup_isSome]
  have exact := all_counted_iff (fun key => keyCount key (queryPieces input 14)) requiredKeys
  constructor
  · intro found
    exact exact.mp (counted.mp found.1)
  · intro enough
    have found := counted.mpr (exact.mpr enough)
    exact ⟨found, found_no_null curl _ found⟩

def Unrepeated (ps : Pieces) : Prop := ∀ key ∈ requiredKeys, keyCount key ps ≤ 1

theorem unrepeated_iff (ps : Pieces) : Unrepeated ps ↔ requiredRepeats ps = 0 := by
  rw [Unrepeated, requiredRepeats, List.sum_eq_zero_iff_forall_eq_nat]
  simp only [List.mem_map, forall_exists_index, and_imp, forall_apply_eq_imp_iff₂]
  exact forall₂_congr fun key _ => by omega

/-- The counting loop adds up all six keys, so its six matches are the six keys if
none of them comes twice, and only then if there are no more than six. -/
theorem unrepeated_entries_found (curl : Unescape) (input : Buffer) (result : QueryResult)
    (parsed : httpParseQuery input .announce = some result) (accepted : result.ret = 0) :
    (Unrepeated (queryPieces input 14) → EntriesFound curl result.head) ∧
      (requiredMatches (queryPieces input 14) = httpMaxKeys →
        EntriesFound curl result.head → Unrepeated (queryPieces input 14)) := by
  have enough := accepted_matches input result parsed accepted
  rw [entries_found_iff curl input result parsed accepted, unrepeated_iff]
  constructor
  · intro unrepeated
    omega
  · intro six found
    omega

/-- The buffer that holds the request line of an announce with this query. -/
def announceOf (query : List UInt8) : Buffer :=
  let line := getAnnounce ++ ascii ['?'] ++ query ++ ascii [' '] ++ http11 ++ [13, 10]
  ⟨line ++ [0], line.length⟩

/-- `key=value` pairs joined by `&`. -/
def queryOf (pairs : List (List UInt8 × List UInt8)) : List UInt8 :=
  ((pairs.map fun pair => pair.1 ++ ascii ['='] ++ pair.2).intersperse (ascii ['&'])).flatten

def plainAnnounce : Buffer :=
  announceOf (queryOf (requiredKeys.map fun key => (key, ascii ['1'])))

theorem parsed_of_ret (input : Buffer) (ret : Int)
    (evaluated : (httpParseQuery input .announce).map QueryResult.ret = some ret) :
    ∃ result, httpParseQuery input .announce = some result ∧ result.ret = ret :=
  Option.map_eq_some_iff.mp evaluated

theorem plain_announce_parsed :
    ∃ result, httpParseQuery plainAnnounce .announce = some result ∧ result.ret = 0 :=
  parsed_of_ret plainAnnounce 0 (by decide +kernel)

theorem unrepeated_entries_found_plain :
    ∃ result, httpParseQuery plainAnnounce .announce = some result ∧
      EntriesFound .total result.head := by
  obtain ⟨result, parsed, accepted⟩ := plain_announce_parsed
  refine ⟨result, parsed, ?_⟩
  apply (unrepeated_entries_found .total plainAnnounce result parsed accepted).1
  have once : requiredKeys.all (fun key => keyCount key (queryPieces plainAnnounce 14) ≤ 1) := by
    decide +kernel
  exact fun key member => by simpa using List.all_eq_true.mp once key member

/-- Six times one required key is counted like all six keys. -/
def repeatedKey : Buffer :=
  announceOf (queryOf (List.replicate 6 (leftKey, ascii ['1'])))

theorem repeated_key_accepted :
    ¬ ∀ (input : Buffer) (result : QueryResult),
      httpParseJobFromRequest input = some .announce →
        httpParseQuery input .announce = some result → result.ret = 0 →
          EntriesFound .total result.head := by
  intro claimed
  obtain ⟨result, parsed, accepted⟩ := parsed_of_ret repeatedKey 0 (by decide +kernel)
  have found := (claimed repeatedKey result (by decide +kernel) parsed accepted).1
    peerIdKey (by decide)
  rw [accepted_list repeatedKey result parsed accepted, queryPieces, lookup_isSome] at found
  exact absurd found (by decide +kernel)

/-! ## What the sanitizer accepts -/

theorem atoi_range (text : List UInt8) : -2 ^ 31 ≤ atoi text ∧ atoi text < 2 ^ 31 := by
  have low := Int.le_bmod (x := strtol text) (m := 2 ^ 32) (by decide)
  have high := Int.bmod_lt (x := strtol text) (m := 2 ^ 32) (by decide)
  simp only [atoi, toInt32]
  omega

/-- Only -1 becomes `ULLONG_MAX`; every other negative number passes the check. -/
theorem counter_accepted_iff (a : Int) (low : -2 ^ 31 ≤ a) (high : a < 2 ^ 31) :
    ¬ (BitVec.ofInt 64 a < 0 ∨ ullongMax ≤ BitVec.ofInt 64 a) ↔ a ≠ -1 := by
  have value : (BitVec.ofInt 64 a).toNat = (a % 2 ^ 64).toNat := BitVec.toNat_ofInt a
  have limit : ullongMax.toNat = 2 ^ 64 - 1 := by decide
  have zero : (0 : BitVec 64).toNat = 0 := rfl
  rw [BitVec.lt_def, BitVec.le_def, value, limit, zero]
  omega

/-- The query text of an announce that `sanitize_peer_req` lets through. -/
structure Acceptable (curl : Unescape) (ps : Pieces) : Prop where
  hash : ∀ value, lastValue infoHashKey ps = some value →
    ∃ decoded, curl.run value = some decoded ∧ 20 ≤ decoded.length
  graphic : ∀ value, lastValue peerIdKey ps = some value → value.all isgraph = true
  port : ∀ value, lastValue portKey ps = some value →
    0x400 ≤ atoi value ∧ atoi value ≤ 0xffff
  counters : ∀ key ∈ [downloadedKey, uploadedKey, leftKey], ∀ value,
    lastValue key ps = some value → atoi value ≠ -1
  event : ∀ value, lastValue eventKey ps = some value → value ∈ knownEvents

theorem event_field_known_iff (text : List UInt8) (event : CString peerEventMax)
    (field : eventField (listOf (pieces text)) = .ok event) :
    event.bytes ∈ knownEvents ↔
      ∀ value, lastValue eventKey (pieces text) = some value → value ∈ knownEvents := by
  have last := lookup_last text eventKey
  unfold eventField at field
  cases found : httpLookupKvKey (listOf (pieces text)) eventKey with
  | none =>
      rw [found] at field last
      rw [copy_into_bytes field, ← last]
      simp [countEvent, knownEvents]
  | some np =>
      rw [found] at field last
      rw [copy_into_bytes field, ← last]
      simp

/-- The sanitizer of a built request reads back as a condition on the query text. -/
theorem built_accepted_iff (curl : Unescape) (text : List UInt8)
    (infoHash peerId port downloaded uploaded left : HttpUriKv)
    (h₁ : httpLookupKvKey (listOf (pieces text)) infoHashKey = some infoHash)
    (h₂ : httpLookupKvKey (listOf (pieces text)) peerIdKey = some peerId)
    (h₃ : httpLookupKvKey (listOf (pieces text)) portKey = some port)
    (h₄ : httpLookupKvKey (listOf (pieces text)) downloadedKey = some downloaded)
    (h₅ : httpLookupKvKey (listOf (pieces text)) uploadedKey = some uploaded)
    (h₆ : httpLookupKvKey (listOf (pieces text)) leftKey = some left)
    (ctx : PeerReq) (built : httpBuildPeerReq curl (listOf (pieces text)) = .ok ctx) :
    ctx.peerId.bytes = peerId.val.bytes ∧
      (sanitizePeerReq ctx = none ↔ Acceptable curl (pieces text)) := by
  rw [build_found curl _ _ _ _ _ _ _ h₁ h₂ h₃ h₄ h₅ h₆] at built
  cases copied : copyInto .peerId peerHashLen peerId.val with
  | error fault => simp [Except.bind, copied] at built
  | ok id =>
  cases field : eventField (listOf (pieces text)) with
  | error fault => simp [Except.bind, copied, field] at built
  | ok event =>
  have same : id.bytes = peerId.val.bytes := copy_into_bytes copied
  simp only [Except.bind, copied, field, Except.ok.injEq] at built
  subst built
  refine ⟨same, ?_⟩
  rw [sanitize_accepts_iff, zeroed_hash_accepted_iff, event_field_known_iff text event field, same]
  have down := atoi_range downloaded.val.bytes
  have up := atoi_range uploaded.val.bytes
  have rest := atoi_range left.val.bytes
  rw [counter_accepted_iff _ down.1 down.2, counter_accepted_iff _ up.1 up.2,
    counter_accepted_iff _ rest.1 rest.2]
  have v₁ := lookup_value text _ _ h₁
  have v₂ := lookup_value text _ _ h₂
  have v₃ := lookup_value text _ _ h₃
  have v₄ := lookup_value text _ _ h₄
  have v₅ := lookup_value text _ _ h₅
  have v₆ := lookup_value text _ _ h₆
  constructor
  · rintro ⟨hash, graphic, inRange, d, u, l, known⟩
    exact ⟨by simpa [v₁] using hash, by simpa [v₂] using graphic, by simpa [v₃] using inRange,
      by simp [v₄, v₅, v₆, d, u, l], known⟩
  · intro fine
    exact ⟨fine.hash _ v₁, fine.graphic _ v₂, fine.port _ v₃,
      fine.counters _ (by simp) _ v₄, fine.counters _ (by simp) _ v₅,
      fine.counters _ (by simp) _ v₆, fine.event⟩

/-! ## The copies into fixed fields -/

/-- No `strcpy` of the announce path runs past its field. -/
def CopiesFit (curl : Unescape) (list : List HttpUriKv) : Prop :=
  (∀ field, httpBuildPeerReq curl list ≠ .error (.overrun field)) ∧
    ∀ ctx, httpBuildPeerReq curl list = .ok ctx → sanitizePeerReq ctx = none →
      ∃ copy, copyPeerId ctx = .ok copy

/-- The bound on each string the builder copies, asked only where it gets to the
copy: the peer id when an info hash was found, the event when all six keys were. -/
structure RequestHolds (ps : Pieces) : Prop where
  peerId : (lastValue infoHashKey ps).isSome → ∀ value,
    lastValue peerIdKey ps = some value → value.length ≤ peerHashLen
  event : (∀ key ∈ builderKeys, (lastValue key ps).isSome) → ∀ value,
    lastValue eventKey ps = some value → value.length ≤ peerEventMax

/-- And, for an accepted request, the peer entry's field, which is one byte shorter. -/
structure FieldsHold (curl : Unescape) (ps : Pieces) : Prop extends RequestHolds ps where
  entry : (∀ key ∈ builderKeys, (lastValue key ps).isSome) → Acceptable curl ps → ∀ value,
    lastValue peerIdKey ps = some value → value.length ≠ peerHashLen

theorem last_value_present (text key : List UInt8) :
    (lastValue key (pieces text)).isSome =
      (httpLookupKvKey (listOf (pieces text)) key).isSome := by
  rw [← lookup_last, Option.isSome_map]

theorem lookup_of_last {text key value : List UInt8}
    (last : lastValue key (pieces text) = some value) :
    ∃ np, httpLookupKvKey (listOf (pieces text)) key = some np ∧ np.val.bytes = value := by
  rw [← lookup_last] at last
  exact Option.map_eq_some_iff.mp last

theorem build_long_peer_id (curl : Unescape) (list : List HttpUriKv) (infoHash peerId : HttpUriKv)
    (hash : httpLookupKvKey list infoHashKey = some infoHash)
    (peer : httpLookupKvKey list peerIdKey = some peerId)
    (long : peerHashLen < peerId.val.bytes.length) :
    httpBuildPeerReq curl list = .error (.overrun .peerId) := by
  have failed : copyInto .peerId peerHashLen peerId.val = .error (.overrun .peerId) := by
    cases copied : copyInto .peerId peerHashLen peerId.val with
    | error fault => rw [(copy_into_error copied).1]
    | ok copy =>
        have fits := (copy_into_ok_iff .peerId peerHashLen peerId.val).mp ⟨copy, copied⟩
        omega
  simp only [httpBuildPeerReq, entryOf, hash, peer]
  simp [bind, Except.bind, failed]

theorem event_field_ok_iff (text : List UInt8) :
    (∃ event, eventField (listOf (pieces text)) = .ok event) ↔
      ∀ value, lastValue eventKey (pieces text) = some value →
        value.length ≤ peerEventMax := by
  have last := lookup_last text eventKey
  unfold eventField
  cases found : httpLookupKvKey (listOf (pieces text)) eventKey with
  | none =>
      rw [found] at last
      rw [← last, copy_into_ok_iff]
      simp only [Option.map_none, reduceCtorEq, false_implies, implies_true, iff_true]
      decide
  | some np =>
      rw [found] at last
      rw [← last, copy_into_ok_iff]
      simp

theorem no_overrun_iff (curl : Unescape) (text : List UInt8) :
    (∀ field, httpBuildPeerReq curl (listOf (pieces text)) ≠ .error (.overrun field)) ↔
      RequestHolds (pieces text) := by
  constructor
  · intro safe
    have short : (lastValue infoHashKey (pieces text)).isSome → ∀ value,
        lastValue peerIdKey (pieces text) = some value → value.length ≤ peerHashLen := by
      intro hash value last
      rw [last_value_present] at hash
      obtain ⟨a, found⟩ := Option.isSome_iff_exists.mp hash
      obtain ⟨np, peer, rfl⟩ := lookup_of_last last
      by_contra long
      exact safe .peerId (build_long_peer_id curl _ a np found peer (by omega))
    refine ⟨short, fun keys => (event_field_ok_iff text).mp ?_⟩
    have hash := keys infoHashKey (by simp [builderKeys])
    simp only [last_value_present] at keys
    simp only [builderKeys, List.forall_mem_cons, Option.isSome_iff_exists] at keys
    obtain ⟨⟨a, ha⟩, ⟨b, hb⟩, ⟨c, hc⟩, ⟨d, hd⟩, ⟨e, he⟩, ⟨f, hf⟩, -⟩ := keys
    obtain ⟨id, copied⟩ := (copy_into_ok_iff .peerId peerHashLen b.val).mpr
      (short hash _ (lookup_value text _ _ hb))
    cases field : eventField (listOf (pieces text)) with
    | ok event => exact ⟨event, rfl⟩
    | error fault =>
        rw [event_field_error field] at field
        exact absurd (by simp [build_found curl _ a b c d e f ha hb hc hd he hf, copied, field,
          Except.bind]) (safe .event)
  · intro hold field failed
    rcases build_error failed with ⟨_, _, _, other⟩ | ⟨hash, np, found, long⟩ | ⟨keys, np, found, long⟩
    · contradiction
    · have short := hold.peerId (by rwa [last_value_present]) _ (lookup_value text _ _ found)
      omega
    · have short := hold.event (fun key member => by rw [last_value_present]; exact keys key member)
        _ (lookup_value text _ _ found)
      omega

/-- A built request's acceptance and peer id, read off the query text. -/
theorem built_reads (curl : Unescape) (text : List UInt8) (ctx : PeerReq)
    (built : httpBuildPeerReq curl (listOf (pieces text)) = .ok ctx) :
    (∀ key ∈ builderKeys, (lastValue key (pieces text)).isSome) ∧
      lastValue peerIdKey (pieces text) = some ctx.peerId.bytes ∧
        (sanitizePeerReq ctx = none ↔ Acceptable curl (pieces text)) := by
  have keys := (build_ok built).1
  have found := keys
  simp only [builderKeys, List.forall_mem_cons, Option.isSome_iff_exists] at found
  obtain ⟨⟨a, ha⟩, ⟨b, hb⟩, ⟨c, hc⟩, ⟨d, hd⟩, ⟨e, he⟩, ⟨f, hf⟩, -⟩ := found
  have accepted := built_accepted_iff curl text a b c d e f ha hb hc hd he hf ctx built
  exact ⟨fun key member => by rw [last_value_present]; exact keys key member,
    accepted.1 ▸ lookup_value text _ _ hb, accepted.2⟩

theorem copies_fit_iff (curl : Unescape) (text : List UInt8) :
    CopiesFit curl (listOf (pieces text)) ↔ FieldsHold curl (pieces text) := by
  constructor
  · intro fit
    refine ⟨(no_overrun_iff curl text).mp fit.1, fun keys acceptable value last => ?_⟩
    cases built : httpBuildPeerReq curl (listOf (pieces text)) with
    | error fault =>
        -- With all keys there, building could only fail by an overrun.
        simp only [last_value_present] at keys
        cases fault with
        | nullEntry key => exact absurd built (found_no_null curl _ keys key)
        | overrun field => exact absurd built (fit.1 field)
    | ok ctx =>
        obtain ⟨_, peer, sane⟩ := built_reads curl text ctx built
        have fits := (copy_into_ok_iff .entryPeerId (peerHashLen - 1) ctx.peerId).mp
          (fit.2 ctx built (sane.mpr acceptable))
        rw [last, Option.some.injEq] at peer
        rw [peer]
        simp only [peerHashLen] at fits ⊢
        omega
  · intro hold
    refine ⟨(no_overrun_iff curl text).mpr hold.toRequestHolds, fun ctx built sane => ?_⟩
    obtain ⟨keys, peer, accepted⟩ := built_reads curl text ctx built
    have different := hold.entry keys (accepted.mp sane) _ peer
    have fits := ctx.peerId.fits
    apply (copy_into_ok_iff .entryPeerId (peerHashLen - 1) ctx.peerId).mpr
    omega

/-- An accepted announce copies safely exactly when its peer id and event are
within their fields wherever the handler reaches the copy. -/
theorem announce_copies_fit_iff (curl : Unescape) (input : Buffer) (result : QueryResult)
    (parsed : httpParseQuery input .announce = some result) (accepted : result.ret = 0) :
    CopiesFit curl result.head ↔ FieldsHold curl (queryPieces input 14) := by
  rw [accepted_list input result parsed accepted]
  exact copies_fit_iff curl (queryText input 14)

theorem announce_copies_fit_plain :
    ∃ result, httpParseQuery plainAnnounce .announce = some result ∧
      CopiesFit .total result.head := by
  obtain ⟨result, parsed, accepted⟩ := plain_announce_parsed
  refine ⟨result, parsed, (announce_copies_fit_iff .total plainAnnounce result parsed accepted).mpr ?_⟩
  have peer : lastValue peerIdKey (queryPieces plainAnnounce 14) = some (ascii ['1']) := by
    decide +kernel
  have event : lastValue eventKey (queryPieces plainAnnounce 14) = none := by
    decide +kernel
  have one : (ascii ['1']).length = 1 := by decide
  refine ⟨⟨?_, ?_⟩, ?_⟩
  · intro _ value last
    rw [peer, Option.some.injEq] at last
    rw [← last, one]
    decide
  · intro _ value last
    rw [event] at last
    contradiction
  · intro _ _ value last
    rw [peer, Option.some.injEq] at last
    rw [← last, one]
    decide

/-- A peer id of 65 characters is copied into 65 bytes without room for its NUL. -/
def longPeerId : Buffer := announceOf (queryOf (requiredKeys.map fun key =>
  (key, if key = peerIdKey then List.replicate 65 97 else ascii ['1'])))

theorem long_peer_id_overruns :
    ¬ ∀ (input : Buffer) (result : QueryResult),
      httpParseJobFromRequest input = some .announce →
        httpParseQuery input .announce = some result → result.ret = 0 →
          CopiesFit .total result.head := by
  intro claimed
  obtain ⟨result, parsed, accepted⟩ := parsed_of_ret longPeerId 0 (by decide +kernel)
  have fit := claimed longPeerId result (by decide +kernel) parsed accepted
  rw [accepted_list longPeerId result parsed accepted] at fit
  have last : lastValue peerIdKey (queryPieces longPeerId 14) =
      some (List.replicate 65 97) := by decide +kernel
  have bound := ((copies_fit_iff .total (queryText longPeerId 14)).mp fit).peerId
    (by decide +kernel) _ last
  rw [List.length_replicate] at bound
  exact absurd bound (by decide)

end Ttracker.RequestCopies
