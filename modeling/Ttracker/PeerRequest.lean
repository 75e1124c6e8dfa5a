import Ttracker.HttpQuery

/-!
From the parsed query to a `struct peer_req`: `http_lookup_kv_key`,
`url_decode`, `http_build_peer_req`, `http_build_peer_req_hash_list` and
`sanitize_peer_req` of http.c, and the copy of the peer id into the peer entry.
A read through a missing entry and a `strcpy` past its field are explicit
faults. libcurl is a parameter that carries its documented result.
-/
namespace Ttracker.PeerRequest
open CLibrary HttpQuery

def torrentHashLen : Nat := 256
def peerHashLen : Nat := 64
def peerEventMax : Nat := 32

def httpLookupKvKey (list : List HttpUriKv) (key : List UInt8) : Option HttpUriKv :=
  list.find? fun np => np.key.bytes == key

/-! ## Decoding the info hash -/

def hexValue (c : UInt8) : UInt8 :=
  if c ≤ 57 then c - 48 else if c ≤ 70 then c - 55 else c - 87

/-- What libcurl documents: `%XX` becomes the byte, everything else stays. -/
def percentDecode : List UInt8 → List UInt8
  | [] => []
  | 37 :: high :: low :: rest =>
      if isxdigit high && isxdigit low then
        (hexValue high * 16 + hexValue low) :: percentDecode rest
      else 37 :: percentDecode (high :: low :: rest)
  | c :: rest => c :: percentDecode rest

/-- `curl_easy_init` and `curl_easy_unescape`: NULL, or the decoded bytes. -/
structure Unescape where
  run : List UInt8 → Option (List UInt8)
  decodes : ∀ text bytes, run text = some bytes → bytes = percentDecode text

def Unescape.total : Unescape := ⟨fun text => some (percentDecode text), by simp⟩

/-- `sprintf(out + i * 2, "%02x", decoded[i])` for the bytes from `i` on. -/
def printHex (out : List UInt8) (i : Nat) : List UInt8 → List UInt8
  | [] => out
  | b :: rest => printHex (store out (i * 2) (hexByte b ++ [0])) (i + 1) rest

def urlDecode (curl : Unescape) (out text : List UInt8) : List UInt8 :=
  match curl.run text with
  | none => out
  | some decoded => if decoded.length < 20 then out else printHex out 0 (decoded.take 20)

theorem print_hex_append (bytes front back : List UInt8) (i : Nat)
    (aligned : front.length = 2 * i) (room : 2 * bytes.length + 1 ≤ back.length)
    (nonempty : bytes ≠ []) :
    printHex (front ++ back) i bytes =
      front ++ hexText bytes ++ 0 :: back.drop (2 * bytes.length + 1) := by
  induction bytes generalizing front back i with
  | nil => contradiction
  | cons b rest ih =>
      simp only [List.length_cons] at room
      have written : store (front ++ back) (i * 2) (hexByte b ++ [0]) =
          (front ++ hexByte b) ++ (0 :: back.drop 3) := by
        have split : front ++ back = front ++ back.take 3 ++ back.drop 3 := by simp
        rw [split, show i * 2 = front.length by omega,
          store_append _ _ _ _ (by simp [hexByte]; omega)]
        simp
      -- the NUL of this `sprintf` is overwritten by the next one's first digit
      rw [printHex, written]
      cases rest with
      | nil => simp [printHex, hexText]
      | cons c tail =>
          rw [ih (front ++ hexByte b) (0 :: back.drop 3) (i + 1)
            (by simp [hexByte]; omega)
            (by simp only [List.length_cons, List.length_drop] at room ⊢; omega) (by simp)]
          have same : (0 :: back.drop 3).drop (2 * (c :: tail).length + 1) =
              back.drop (2 * (b :: c :: tail).length + 1) := by
            simp only [List.length_cons, Nat.mul_add, List.drop_succ_cons, List.drop_drop]
            congr 1
            omega
          rw [same]
          simp [hexText, List.append_assoc]

/-- A value that decodes to at least 20 bytes leaves 40 digits, a NUL and the
rest of the old memory; every other value leaves the memory as it was. -/
theorem url_decode_written (curl : Unescape) (out text decoded : List UInt8)
    (found : curl.run text = some decoded) (long : 20 ≤ decoded.length)
    (room : 41 ≤ out.length) :
    urlDecode curl out text = hexText (decoded.take 20) ++ 0 :: out.drop 41 := by
  have size : (decoded.take 20).length = 20 := by
    rw [List.length_take]
    omega
  have printed := print_hex_append (decoded.take 20) [] out 0 rfl (by omega)
    (by intro empty; simp [empty] at size)
  rw [size] at printed
  simpa [urlDecode, found, Nat.not_lt.mpr long] using printed

theorem url_decode_untouched (curl : Unescape) (out text : List UInt8)
    (short : ∀ decoded, curl.run text = some decoded → decoded.length < 20) :
    urlDecode curl out text = out := by
  unfold urlDecode
  split
  · rfl
  · next decoded found => simp [short decoded found]

/-! ## The client's address -/

/-- `struct in_addr`, its four bytes in network order. -/
structure InAddr where
  a : UInt8
  b : UInt8
  c : UInt8
  d : UInt8
  deriving DecidableEq

theorem length_octet_le (octet : UInt8) : (decimal octet.toNat).length ≤ 3 :=
  length_decimal_le _ 3 (by decide) (by have := octet.toNat_lt; omega)

/-- `inet_ntop(AF_INET, ..)` into `char[INET_ADDRSTRLEN]`, copied out whole. -/
def getPeerInfo (addr : InAddr) : CString 15 where
  bytes := decimal addr.a.toNat ++ [46] ++ decimal addr.b.toNat ++ [46] ++
    decimal addr.c.toNat ++ [46] ++ decimal addr.d.toNat
  fits := by
    have a := length_octet_le addr.a
    have b := length_octet_le addr.b
    have c := length_octet_le addr.c
    have d := length_octet_le addr.d
    simp only [List.length_append, List.length_cons, List.length_nil]
    omega
  nulFree := by
    simp [decimal_nul_free]

/-! ## Building and checking the request -/

/-- The fields of `struct peer_req` the handlers read. -/
structure PeerReq where
  downloaded : BitVec 64
  uploaded : BitVec 64
  left : BitVec 64
  peerId : CString peerHashLen
  infoHash : List UInt8
  event : CString peerEventMax
  port : Int
  deriving DecidableEq

inductive Field where
  | peerId
  | event
  | entryPeerId
  | query
  | peerList
  deriving DecidableEq

/-- `np->data` through a NULL entry, or a write past the end of a field. -/
inductive Fault where
  | nullEntry (key : List UInt8)
  | overrun (field : Field)
  deriving DecidableEq

def entryOf (list : List HttpUriKv) (key : List UInt8) : Except Fault HttpUriKv :=
  match httpLookupKvKey list key with
  | none => .error (.nullEntry key)
  | some np => .ok np

def copyInto (field : Field) (room : Nat) {other : Nat} (src : CString other) :
    Except Fault (CString room) :=
  match strcpy room src with
  | none => .error (.overrun field)
  | some copy => .ok copy

def eventCount : List UInt8 := ascii ['c', 'o', 'u', 'n', 't']
def eventStart : List UInt8 := ascii ['s', 't', 'a', 'r', 't']
def eventStop : List UInt8 := ascii ['s', 't', 'o', 'p']
def eventComplete : List UInt8 := ascii ['c', 'o', 'm', 'p', 'l', 'e', 't', 'e']

def eventCompleted : List UInt8 := eventComplete ++ ascii ['d']

def countEvent : CString 5 := ⟨eventCount, by decide, by decide⟩

/-- The event is optional and reads as "count" when it is missing. -/
def eventField (list : List HttpUriKv) : Except Fault (CString peerEventMax) :=
  match httpLookupKvKey list eventKey with
  | none => copyInto .event peerEventMax countEvent
  | some np => copyInto .event peerEventMax np.val

def httpBuildPeerReq (curl : Unescape) (list : List HttpUriKv) : Except Fault PeerReq := do
  let np ← entryOf list infoHashKey
  -- the request was zeroed with `memset` before anything is written to it
  let infoHash := urlDecode curl (List.replicate (torrentHashLen + 1) 0) np.val.bytes
  let np ← entryOf list peerIdKey
  let peerId ← copyInto .peerId peerHashLen np.val
  let np ← entryOf list portKey
  let port := atoi np.val.bytes
  let np ← entryOf list downloadedKey
  let downloaded := BitVec.ofInt 64 (atoi np.val.bytes)
  let np ← entryOf list uploadedKey
  let uploaded := BitVec.ofInt 64 (atoi np.val.bytes)
  let np ← entryOf list leftKey
  let left := BitVec.ofInt 64 (atoi np.val.bytes)
  let event ← eventField list
  return { downloaded, uploaded, left, peerId, infoHash, event, port }

/-- The hash entries of a scrape, each written over what `xmalloc` returned for
it. The list is filled at its head. -/
def httpBuildPeerReqHashList (curl : Unescape) (list : List HttpUriKv)
    (fresh : Nat → List UInt8) : List (List UInt8) :=
  (list.mapIdx fun i np => urlDecode curl (fresh i) np.val.bytes).reverse

inductive SanitizeError where
  | infoHash
  | peerId
  | port
  | downloaded
  | uploaded
  | left
  | event
  deriving DecidableEq

def sanitizeInfoHash (infoHash : List UInt8) (len : Nat) : Bool := (infoHash.take len).all isxdigit

def ullongMax : BitVec 64 := BitVec.allOnes 64

def knownEvents : List (List UInt8) :=
  [eventCount, eventStart, eventStop, eventComplete]

/-- `none` is the return value 0; an error is -1 with `*error` set. -/
def sanitizePeerReq (ctx : PeerReq) : Option SanitizeError :=
  if !sanitizeInfoHash ctx.infoHash 40 then some .infoHash
  else if !ctx.peerId.bytes.all isgraph then some .peerId
  else if ctx.port < 0x400 ∨ 0xffff < ctx.port then some .port
  -- the three counters are unsigned, so the comparisons with 0 never hold
  else if ctx.downloaded < 0 ∨ ullongMax ≤ ctx.downloaded then some .downloaded
  else if ctx.uploaded < 0 ∨ ullongMax ≤ ctx.uploaded then some .uploaded
  else if ctx.left < 0 ∨ ullongMax ≤ ctx.left then some .left
  else if ctx.event.bytes ∉ knownEvents then some .event
  else none

/-- `strcpy(pe.peer_id, job->peer_req->peer_id)` of `_job_handle_announce`. -/
def copyPeerId (ctx : PeerReq) : Except Fault (CString (peerHashLen - 1)) :=
  copyInto .entryPeerId (peerHashLen - 1) ctx.peerId

/-! ## What building and checking come to -/

/-- The keys in the order `http_build_peer_req` looks them up. -/
def builderKeys : List (List UInt8) :=
  [infoHashKey, peerIdKey, portKey, downloadedKey, uploadedKey,
    leftKey]

theorem copy_into_error {field : Field} {room other : Nat} {src : CString other} {fault : Fault}
    (failed : copyInto field room src = .error fault) :
    fault = .overrun field ∧ room < src.bytes.length := by
  unfold copyInto at failed
  split at failed
  · next missing =>
      have long : ¬ src.bytes.length ≤ room := by
        rw [← strcpy_isSome, missing]
        simp
      exact ⟨(Except.error.inj failed).symm, by omega⟩
  · contradiction

theorem copy_into_ok_iff (field : Field) (room : Nat) {other : Nat} (src : CString other) :
    (∃ copy, copyInto field room src = .ok copy) ↔ src.bytes.length ≤ room := by
  rw [← strcpy_isSome]
  unfold copyInto
  cases strcpy room src <;> simp

theorem copy_into_bytes {field : Field} {room other : Nat} {src : CString other}
    {copy : CString room} (copied : copyInto field room src = .ok copy) :
    copy.bytes = src.bytes := by
  unfold copyInto at copied
  split at copied
  · contradiction
  · next found => exact Except.ok.inj copied ▸ strcpy_bytes _ src _ found

theorem event_field_error {list : List HttpUriKv} {fault : Fault}
    (failed : eventField list = .error fault) : fault = .overrun .event := by
  unfold eventField at failed
  split at failed <;> exact (copy_into_error failed).1

/-- With all six entries there, only the two copies can still go wrong. -/
theorem build_found (curl : Unescape) (list : List HttpUriKv)
    (infoHash peerId port downloaded uploaded left : HttpUriKv)
    (h₁ : httpLookupKvKey list infoHashKey = some infoHash)
    (h₂ : httpLookupKvKey list peerIdKey = some peerId)
    (h₃ : httpLookupKvKey list portKey = some port)
    (h₄ : httpLookupKvKey list downloadedKey = some downloaded)
    (h₅ : httpLookupKvKey list uploadedKey = some uploaded)
    (h₆ : httpLookupKvKey list leftKey = some left) :
    httpBuildPeerReq curl list =
      (copyInto .peerId peerHashLen peerId.val).bind fun id =>
        (eventField list).bind fun event => .ok
          { downloaded := BitVec.ofInt 64 (atoi downloaded.val.bytes)
            uploaded := BitVec.ofInt 64 (atoi uploaded.val.bytes)
            left := BitVec.ofInt 64 (atoi left.val.bytes)
            peerId := id
            infoHash := urlDecode curl (List.replicate (torrentHashLen + 1) 0) infoHash.val.bytes
            event := event
            port := atoi port.val.bytes } := by
  simp only [httpBuildPeerReq, entryOf, h₁, h₂, h₃, h₄, h₅, h₆]
  rfl

theorem found_no_null (curl : Unescape) (list : List HttpUriKv)
    (found : ∀ key ∈ builderKeys, (httpLookupKvKey list key).isSome) (key : List UInt8) :
    httpBuildPeerReq curl list ≠ .error (.nullEntry key) := by
  simp only [builderKeys, List.forall_mem_cons, Option.isSome_iff_exists] at found
  obtain ⟨⟨a, ha⟩, ⟨b, hb⟩, ⟨c, hc⟩, ⟨d, hd⟩, ⟨e, he⟩, ⟨f, hf⟩, -⟩ := found
  rw [build_found curl list a b c d e f ha hb hc hd he hf]
  cases copied : copyInto .peerId peerHashLen b.val with
  | error fault =>
      intro failed
      cases (copy_into_error copied).1.symm.trans (Except.error.inj failed)
  | ok id =>
      cases field : eventField list with
      | error fault =>
          intro failed
          have same : fault = .nullEntry key := by simpa [Except.bind, field] using failed
          rw [event_field_error field] at same
          contradiction
      | ok event => simp [Except.bind]

theorem bind_ok {ε α β : Type} {value : Except ε α} {next : α → Except ε β} {result : β}
    (run : value >>= next = .ok result) :
    ∃ produced, value = .ok produced ∧ next produced = .ok result := by
  cases value with
  | error fault => contradiction
  | ok produced => exact ⟨produced, rfl, run⟩

theorem bind_error {ε α β : Type} {value : Except ε α} {next : α → Except ε β} {fault : ε}
    (run : value >>= next = .error fault) :
    value = .error fault ∨ ∃ produced, value = .ok produced ∧ next produced = .error fault := by
  cases value with
  | error other =>
      cases run
      exact Or.inl rfl
  | ok produced => exact Or.inr ⟨produced, rfl, run⟩

theorem entry_of_ok {list : List HttpUriKv} {key : List UInt8} {np : HttpUriKv}
    (found : entryOf list key = .ok np) : httpLookupKvKey list key = some np := by
  unfold entryOf at found
  split at found
  · contradiction
  · next entry present => rw [present, Except.ok.inj found]

theorem entry_of_error {list : List HttpUriKv} {key : List UInt8} {fault : Fault}
    (failed : entryOf list key = .error fault) :
    httpLookupKvKey list key = none ∧ fault = .nullEntry key := by
  unfold entryOf at failed
  split at failed
  · next missing => exact ⟨missing, (Except.error.inj failed).symm⟩
  · contradiction

/-- Building fails at a missing entry or at a copy that does not fit. -/
theorem build_error {curl : Unescape} {list : List HttpUriKv} {fault : Fault}
    (failed : httpBuildPeerReq curl list = .error fault) :
    (∃ key ∈ builderKeys, httpLookupKvKey list key = none ∧ fault = .nullEntry key) ∨
      ((httpLookupKvKey list infoHashKey).isSome ∧
        ∃ np, httpLookupKvKey list peerIdKey = some np ∧ peerHashLen < np.val.bytes.length) ∨
      ((∀ key ∈ builderKeys, (httpLookupKvKey list key).isSome) ∧
        ∃ np, httpLookupKvKey list eventKey = some np ∧ peerEventMax < np.val.bytes.length) := by
  have missing : ∀ key ∈ builderKeys, entryOf list key = .error fault →
      ∃ key ∈ builderKeys, httpLookupKvKey list key = none ∧ fault = .nullEntry key :=
    fun key member failed => ⟨key, member, entry_of_error failed⟩
  -- one case for each line of the builder, in its order
  rcases bind_error failed with here | ⟨_, hash, failed⟩
  · exact Or.inl (missing infoHashKey (by simp [builderKeys]) here)
  rcases bind_error failed with here | ⟨np, peer, failed⟩
  · exact Or.inl (missing peerIdKey (by simp [builderKeys]) here)
  rcases bind_error failed with here | ⟨_, _, failed⟩
  · exact Or.inr (Or.inl
      ⟨by simp [entry_of_ok hash], np, entry_of_ok peer, (copy_into_error here).2⟩)
  rcases bind_error failed with here | ⟨_, port, failed⟩
  · exact Or.inl (missing portKey (by simp [builderKeys]) here)
  rcases bind_error failed with here | ⟨_, downloaded, failed⟩
  · exact Or.inl (missing downloadedKey (by simp [builderKeys]) here)
  rcases bind_error failed with here | ⟨_, uploaded, failed⟩
  · exact Or.inl (missing uploadedKey (by simp [builderKeys]) here)
  rcases bind_error failed with here | ⟨_, left, failed⟩
  · exact Or.inl (missing leftKey (by simp [builderKeys]) here)
  rcases bind_error failed with here | ⟨_, _, failed⟩
  · refine Or.inr (Or.inr ⟨by simp [builderKeys, entry_of_ok hash, entry_of_ok peer,
      entry_of_ok port, entry_of_ok downloaded, entry_of_ok uploaded, entry_of_ok left], ?_⟩)
    unfold eventField at here
    split at here
    · exact absurd (copy_into_error here).2 (by decide)
    · next np found => exact ⟨np, found, (copy_into_error here).2⟩
  · contradiction

structure BuiltFrom (curl : Unescape) (list : List HttpUriKv) (ctx : PeerReq)
    (hash peer port downloaded uploaded left : HttpUriKv) : Prop where
  hashEntry : httpLookupKvKey list infoHashKey = some hash
  peerEntry : httpLookupKvKey list peerIdKey = some peer
  portEntry : httpLookupKvKey list portKey = some port
  downloadedEntry : httpLookupKvKey list downloadedKey = some downloaded
  uploadedEntry : httpLookupKvKey list uploadedKey = some uploaded
  leftEntry : httpLookupKvKey list leftKey = some left
  infoHash : ctx.infoHash = urlDecode curl (List.replicate (torrentHashLen + 1) 0) hash.val.bytes
  peerId : ctx.peerId.bytes = peer.val.bytes
  port : ctx.port = atoi port.val.bytes
  downloaded : ctx.downloaded = BitVec.ofInt 64 (atoi downloaded.val.bytes)
  uploaded : ctx.uploaded = BitVec.ofInt 64 (atoi uploaded.val.bytes)
  left : ctx.left = BitVec.ofInt 64 (atoi left.val.bytes)

theorem build_from {curl : Unescape} {list : List HttpUriKv} {ctx : PeerReq}
    (built : httpBuildPeerReq curl list = .ok ctx) :
    ∃ hash peer port downloaded uploaded left,
      BuiltFrom curl list ctx hash peer port downloaded uploaded left := by
  obtain ⟨hash, hashEntry, built⟩ := bind_ok built
  obtain ⟨peer, peerEntry, built⟩ := bind_ok built
  obtain ⟨peerId, copied, built⟩ := bind_ok built
  obtain ⟨port, portEntry, built⟩ := bind_ok built
  obtain ⟨downloaded, downloadedEntry, built⟩ := bind_ok built
  obtain ⟨uploaded, uploadedEntry, built⟩ := bind_ok built
  obtain ⟨left, leftEntry, built⟩ := bind_ok built
  obtain ⟨_, _, built⟩ := bind_ok built
  cases built
  exact ⟨hash, peer, port, downloaded, uploaded, left, entry_of_ok hashEntry, entry_of_ok peerEntry,
    entry_of_ok portEntry, entry_of_ok downloadedEntry, entry_of_ok uploadedEntry,
    entry_of_ok leftEntry, rfl, copy_into_bytes copied, rfl, rfl, rfl, rfl⟩

theorem build_ok {curl : Unescape} {list : List HttpUriKv} {ctx : PeerReq}
    (built : httpBuildPeerReq curl list = .ok ctx) :
    (∀ key ∈ builderKeys, (httpLookupKvKey list key).isSome) ∧
      ∃ hash peer, httpLookupKvKey list infoHashKey = some hash ∧
        httpLookupKvKey list peerIdKey = some peer ∧
          ctx.infoHash = urlDecode curl (List.replicate (torrentHashLen + 1) 0) hash.val.bytes ∧
            ctx.peerId.bytes = peer.val.bytes := by
  obtain ⟨hash, peer, port, downloaded, uploaded, left, parts⟩ := build_from built
  refine ⟨?_, hash, peer, parts.hashEntry, parts.peerEntry, parts.infoHash, parts.peerId⟩
  simp [builderKeys, parts.hashEntry, parts.peerEntry, parts.portEntry, parts.downloadedEntry,
    parts.uploadedEntry, parts.leftEntry]

/-- The numbers of a built request are what `atoi` makes of the entries found. -/
theorem build_numbers {curl : Unescape} {list : List HttpUriKv} {ctx : PeerReq}
    (built : httpBuildPeerReq curl list = .ok ctx) :
    (∀ np ∈ httpLookupKvKey list portKey, ctx.port = atoi np.val.bytes) ∧
      (∀ np ∈ httpLookupKvKey list downloadedKey,
        ctx.downloaded = BitVec.ofInt 64 (atoi np.val.bytes)) ∧
      (∀ np ∈ httpLookupKvKey list uploadedKey,
        ctx.uploaded = BitVec.ofInt 64 (atoi np.val.bytes)) ∧
      ∀ np ∈ httpLookupKvKey list leftKey, ctx.left = BitVec.ofInt 64 (atoi np.val.bytes) := by
  obtain ⟨hash, peer, port, downloaded, uploaded, left, parts⟩ := build_from built
  simp [parts.portEntry, parts.downloadedEntry, parts.uploadedEntry, parts.leftEntry, parts.port,
    parts.downloaded, parts.uploaded, parts.left]

theorem sanitize_accepts_iff (ctx : PeerReq) :
    sanitizePeerReq ctx = none ↔
      sanitizeInfoHash ctx.infoHash 40 = true ∧ ctx.peerId.bytes.all isgraph = true ∧
        (0x400 ≤ ctx.port ∧ ctx.port ≤ 0xffff) ∧
        ¬ (ctx.downloaded < 0 ∨ ullongMax ≤ ctx.downloaded) ∧
        ¬ (ctx.uploaded < 0 ∨ ullongMax ≤ ctx.uploaded) ∧
        ¬ (ctx.left < 0 ∨ ullongMax ≤ ctx.left) ∧ ctx.event.bytes ∈ knownEvents := by
  unfold sanitizePeerReq
  constructor
  · intro accepted
    repeat' split at accepted
    all_goals first | contradiction | skip
    next hash graphic port downloaded uploaded left event =>
      exact ⟨by simpa using hash, by simpa using graphic, by omega, downloaded, uploaded, left,
        by simpa using event⟩
  · rintro ⟨hash, graphic, port, downloaded, uploaded, left, event⟩
    have inRange : ¬ (ctx.port < 0x400 ∨ 0xffff < ctx.port) := by omega
    simp only [hash, graphic, inRange, downloaded, uploaded, left, event]
    simp

/-- In the zeroed request an undecoded hash is empty and fails the digit check. -/
theorem zeroed_hash_accepted_iff (curl : Unescape) (text : List UInt8) :
    sanitizeInfoHash (urlDecode curl (List.replicate (torrentHashLen + 1) 0) text) 40 = true ↔
      ∃ decoded, curl.run text = some decoded ∧ 20 ≤ decoded.length := by
  constructor
  · intro accepted
    by_contra short
    rw [url_decode_untouched] at accepted
    · exact absurd accepted (by decide)
    · intro decoded found
      by_contra long
      exact short ⟨decoded, found, by omega⟩
  · rintro ⟨decoded, found, long⟩
    rw [url_decode_written curl _ text decoded found long
      (by rw [List.length_replicate]; decide),
      sanitizeInfoHash]
    have size : (hexText (decoded.take 20)).length = 40 := by
      rw [length_hex_text, List.length_take]
      omega
    rw [← size, List.take_left, List.all_eq_true]
    exact fun c member => lower_hex_isxdigit c (hex_text_lower _ c member)

/-- The key of an accepted announce: 40 digits of the first 20 decoded bytes, then
zeros to the end of the field. -/
theorem accepted_hash {curl : Unescape} {list : List HttpUriKv} {ctx : PeerReq}
    (built : httpBuildPeerReq curl list = .ok ctx) (sane : sanitizePeerReq ctx = none) :
    ∃ np decoded, httpLookupKvKey list infoHashKey = some np ∧
      curl.run np.val.bytes = some decoded ∧ 20 ≤ decoded.length ∧
        ctx.infoHash = hexText (decoded.take 20) ++ 0 :: List.replicate 216 0 := by
  obtain ⟨_, np, _, entry, _, written, _⟩ := build_ok built
  have digits := ((sanitize_accepts_iff ctx).mp sane).1
  rw [written, zeroed_hash_accepted_iff] at digits
  obtain ⟨decoded, found, long⟩ := digits
  refine ⟨np, decoded, entry, found, long, ?_⟩
  rw [written, url_decode_written curl _ _ decoded found long
    (by rw [List.length_replicate]; decide), List.drop_replicate]
  rfl

end Ttracker.PeerRequest
