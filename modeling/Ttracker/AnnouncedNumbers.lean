import Ttracker.AnnounceHandler
import Ttracker.RequestCopies

/-!
The four numbers of an announce on their way from the text to `struct peer_req`
and the peer entry: `atoi` narrows them to `int`, the counters then widen to
`unsigned long long`, and the range test comes last. A number is known here by
the numeral the client wrote.
-/
namespace Ttracker.AnnouncedNumbers
open CLibrary HttpQuery PeerRequest Torrents AnnounceHandler RequestCopies

/-- Digits behind an optional minus sign. -/
structure Numeral where
  negative : Bool
  digits : List UInt8
  nonempty : digits ≠ []
  decimal : ∀ c ∈ digits, isdigit c = true

def Numeral.text (n : Numeral) : List UInt8 := if n.negative then 45 :: n.digits else n.digits

def Numeral.value (n : Numeral) : Int :=
  if n.negative then -(decimalValue n.digits : Int) else decimalValue n.digits

structure Numbers where
  port : Numeral
  downloaded : Numeral
  uploaded : Numeral
  left : Numeral

def Gives (list : List HttpUriKv) (key : List UInt8) (n : Numeral) : Prop :=
  ∃ np, httpLookupKvKey list key = some np ∧ np.val.bytes = n.text

structure Numbers.Given (n : Numbers) (list : List HttpUriKv) : Prop where
  port : Gives list portKey n.port
  downloaded : Gives list downloadedKey n.downloaded
  uploaded : Gives list uploadedKey n.uploaded
  left : Gives list leftKey n.left

structure OthersValid (ctx : PeerReq) : Prop where
  infoHash : sanitizeInfoHash ctx.infoHash 40 = true
  peerId : ctx.peerId.bytes.all isgraph = true
  event : ctx.event.bytes ∈ knownEvents

def CounterInRange (v : Int) : Prop := 0 ≤ v ∧ v ≤ 2 ^ 64 - 2

instance (v : Int) : Decidable (CounterInRange v) := inferInstanceAs (Decidable (_ ∧ _))

/-- A high port, and counters an `unsigned long long` below its maximum can hold. -/
structure Numbers.InRange (n : Numbers) : Prop where
  port : 1024 ≤ n.port.value ∧ n.port.value ≤ 65535
  downloaded : CounterInRange n.downloaded.value
  uploaded : CounterInRange n.uploaded.value
  left : CounterInRange n.left.value

/-- Accepted exactly in range, and then every field is the number denoted. -/
structure NumbersExact (ctx : PeerReq) (addr : InAddr) (n : Numbers) : Prop where
  accepted : sanitizePeerReq ctx = none ↔ n.InRange
  port : sanitizePeerReq ctx = none → ctx.port = n.port.value
  downloaded : sanitizePeerReq ctx = none → (ctx.downloaded.toNat : Int) = n.downloaded.value
  uploaded : sanitizePeerReq ctx = none → (ctx.uploaded.toNat : Int) = n.uploaded.value
  left : sanitizePeerReq ctx = none → (ctx.left.toNat : Int) = n.left.value
  stored : sanitizePeerReq ctx = none → ∀ pe, peerOf addr ctx = .ok pe →
    (pe.left = 0 ↔ n.left.value = 0)

/-! ## One numeral -/

theorem digit_not_space (c : UInt8) (digit : isdigit c = true) : isspace c = false := by
  simp only [isdigit, Bool.and_eq_true, decide_eq_true_eq, UInt8.le_iff_toNat_le] at digit
  simp only [isspace, Bool.or_eq_false_iff, Bool.and_eq_false_iff, decide_eq_false_iff_not,
    UInt8.le_iff_toNat_le, beq_eq_false_iff_ne, ne_eq, ← UInt8.toNat_inj]
  have low : UInt8.toNat 48 = 48 ∧ UInt8.toNat 57 = 57 ∧ UInt8.toNat 32 = 32 ∧
    UInt8.toNat 9 = 9 ∧ UInt8.toNat 13 = 13 := by decide
  omega

theorem digit_not_sign (c : UInt8) (digit : isdigit c = true) : c ≠ 45 ∧ c ≠ 43 := by
  constructor <;> rintro rfl <;> exact absurd digit (by decide)

/-- What `long` can hold of a number. -/
def clamped (v : Int) : Int := max (min v (2 ^ 63 - 1)) (-2 ^ 63)

/-- `strtol` reads the whole numeral and stops at the ends of `long`. -/
theorem strtol_numeral (n : Numeral) : strtol n.text = clamped n.value := by
  have taken : n.digits.takeWhile isdigit = n.digits := by
    apply List.takeWhile_eq_self_iff.mpr
    exact n.decimal
  have counted : (0 : Int) ≤ decimalValue n.digits := Int.natCast_nonneg _
  cases sign : n.negative with
  | true =>
      have blank : isspace 45 = false := by decide
      simp only [Numeral.text, Numeral.value, sign, if_true, strtol, clamped,
        List.dropWhile_cons, blank, Bool.false_eq_true, if_false, List.head?_cons, beq_self_eq_true,
        Bool.true_or, List.drop_one, List.tail_cons, taken]
      omega
  | false =>
      cases digits : n.digits with
      | nil => exact absurd digits n.nonempty
      | cons c rest =>
          have digit : isdigit c = true := n.decimal c (by simp [digits])
          have unsigned := digit_not_sign c digit
          have blank := digit_not_space c digit
          rw [digits] at taken counted
          simp only [Numeral.text, Numeral.value, sign, Bool.false_eq_true, if_false, strtol,
            clamped, digits, List.dropWhile_cons, blank, List.head?_cons, Option.some_beq_some,
            beq_eq_false_iff_ne.mpr unsigned.1, beq_eq_false_iff_ne.mpr unsigned.2, Bool.or_self,
            taken]
          omega

/-- The number as it comes out of `atoi`. -/
def reduced (v : Int) : Int := toInt32 (clamped v)

theorem atoi_numeral (n : Numeral) : atoi n.text = reduced n.value := by
  rw [atoi, strtol_numeral, reduced]

theorem reduced_range (v : Int) : -2 ^ 31 ≤ reduced v ∧ reduced v < 2 ^ 31 := by
  have low := Int.le_bmod (x := clamped v) (m := 2 ^ 32) (by decide)
  have high := Int.bmod_lt (x := clamped v) (m := 2 ^ 32) (by decide)
  simp only [reduced, toInt32]
  omega

theorem reduced_small (v : Int) (low : -2 ^ 31 ≤ v) (high : v < 2 ^ 31) : reduced v = v := by
  have inside : clamped v = v := by
    simp only [clamped]
    omega
  rw [reduced, inside]
  exact Int.bmod_eq_of_le (by omega) (by omega)

theorem reduced_large (v : Int) (large : 2 ^ 63 - 1 ≤ v) : reduced v = -1 := by
  have top : clamped v = 2 ^ 63 - 1 := by
    simp only [clamped]
    omega
  rw [reduced, top]
  decide

/-- The reduction of a number in range, widened to 64 bits, is the number again
exactly when the number was an `int`. -/
theorem widened_exact_iff (v : Int) (range : CounterInRange v) (kept : reduced v ≠ -1) :
    ((BitVec.ofInt 64 (reduced v)).toNat : Int) = v ↔ v < 2 ^ 31 := by
  obtain ⟨low, high⟩ := range
  have value : (BitVec.ofInt 64 (reduced v)).toNat = (reduced v % 2 ^ 64).toNat :=
    BitVec.toNat_ofInt _
  have bounds := reduced_range v
  rw [value]
  constructor
  · intro same
    by_contra wide
    by_cases large : 2 ^ 63 - 1 ≤ v
    · exact kept (reduced_large v large)
    · omega
  · intro small
    have exact := reduced_small v (by omega) small
    omega

/-! ## The four numbers of a built request -/

/-- Where the code does what the text says: in range, and every counter an `int`. -/
structure Numbers.Narrow (n : Numbers) : Prop extends n.InRange where
  downloadedInt : n.downloaded.value < 2 ^ 31
  uploadedInt : n.uploaded.value < 2 ^ 31
  leftInt : n.left.value < 2 ^ 31

/-- One of the reductions fails the check made on it. -/
def Numbers.Refused (n : Numbers) : Prop :=
  (reduced n.port.value < 1024 ∨ 65535 < reduced n.port.value) ∨
    reduced n.downloaded.value = -1 ∨ reduced n.uploaded.value = -1 ∨ reduced n.left.value = -1

structure Reads (ctx : PeerReq) (n : Numbers) : Prop where
  port : ctx.port = reduced n.port.value
  downloaded : ctx.downloaded = BitVec.ofInt 64 (reduced n.downloaded.value)
  uploaded : ctx.uploaded = BitVec.ofInt 64 (reduced n.uploaded.value)
  left : ctx.left = BitVec.ofInt 64 (reduced n.left.value)

theorem built_reads_numbers {curl : Unescape} {list : List HttpUriKv} {ctx : PeerReq} {n : Numbers}
    (given : n.Given list) (built : httpBuildPeerReq curl list = .ok ctx) : Reads ctx n := by
  obtain ⟨port, downloaded, uploaded, left⟩ := build_numbers built
  obtain ⟨a, aEntry, aText⟩ := given.port
  obtain ⟨b, bEntry, bText⟩ := given.downloaded
  obtain ⟨c, cEntry, cText⟩ := given.uploaded
  obtain ⟨d, dEntry, dText⟩ := given.left
  constructor
  · rw [port a aEntry, aText, atoi_numeral]
  · rw [downloaded b bEntry, bText, atoi_numeral]
  · rw [uploaded c cEntry, cText, atoi_numeral]
  · rw [left d dEntry, dText, atoi_numeral]

/-- With the other fields valid only the reductions decide. -/
theorem sanitize_numbers_iff {ctx : PeerReq} {n : Numbers} (reads : Reads ctx n)
    (valid : OthersValid ctx) : sanitizePeerReq ctx = none ↔ ¬ n.Refused := by
  have down := reduced_range n.downloaded.value
  have up := reduced_range n.uploaded.value
  have rest := reduced_range n.left.value
  rw [sanitize_accepts_iff, reads.port, reads.downloaded, reads.uploaded, reads.left,
    counter_accepted_iff _ down.1 down.2, counter_accepted_iff _ up.1 up.2,
    counter_accepted_iff _ rest.1 rest.2]
  simp only [valid.infoHash, valid.peerId, valid.event, Numbers.Refused, not_or]
  constructor
  · rintro ⟨-, -, port, counters⟩
    exact ⟨by omega, counters.1, counters.2.1, counters.2.2.1⟩
  · rintro ⟨port, downloaded, uploaded, left⟩
    exact ⟨trivial, trivial, by omega, downloaded, uploaded, left, trivial⟩

theorem stored_left {ctx : PeerReq} {addr : InAddr} {pe : PeerEntry}
    (stored : peerOf addr ctx = .ok pe) : pe.left = ctx.left.toInt := by
  unfold peerOf at stored
  cases copied : copyPeerId ctx with
  | error fault => simp [copied, Except.map] at stored
  | ok peerId =>
      simp only [copied, Except.map, Except.ok.injEq] at stored
      rw [← stored]

/-- The stored `left` is the reduction itself, so it is zero with it. -/
theorem stored_zero_iff {ctx : PeerReq} {n : Numbers} (reads : Reads ctx n) :
    ctx.left.toInt = 0 ↔ reduced n.left.value = 0 := by
  have bounds := reduced_range n.left.value
  have value : ctx.left.toInt = reduced n.left.value := by
    rw [reads.left, BitVec.toInt_ofInt]
    exact Int.bmod_eq_of_le (by omega) (by omega)
  rw [value]

theorem narrow_numbers_exact {ctx : PeerReq} {addr : InAddr} {n : Numbers} (reads : Reads ctx n)
    (valid : OthersValid ctx) (narrow : n.Narrow) : NumbersExact ctx addr n := by
  obtain ⟨⟨port, downloaded, uploaded, left⟩, downInt, upInt, leftInt⟩ := narrow
  have p := reduced_small n.port.value (by omega) (by omega)
  have d := reduced_small n.downloaded.value (by have := downloaded.1; omega) downInt
  have u := reduced_small n.uploaded.value (by have := uploaded.1; omega) upInt
  have l := reduced_small n.left.value (by have := left.1; omega) leftInt
  have kept : ∀ v, CounterInRange v → reduced v = v → reduced v ≠ -1 := by
    intro v range same
    have low := range.1
    omega
  have dKept := kept _ downloaded d
  have uKept := kept _ uploaded u
  have lKept := kept _ left l
  have accepted : sanitizePeerReq ctx = none := by
    apply (sanitize_numbers_iff reads valid).mpr
    rintro (range | minus | minus | minus)
    · omega
    · exact dKept minus
    · exact uKept minus
    · exact lKept minus
  exact {
    accepted := ⟨fun _ => ⟨port, downloaded, uploaded, left⟩, fun _ => accepted⟩
    port := fun _ => reads.port.trans p
    downloaded := fun _ => by
      rw [reads.downloaded]
      exact (widened_exact_iff _ downloaded dKept).mpr downInt
    uploaded := fun _ => by
      rw [reads.uploaded]
      exact (widened_exact_iff _ uploaded uKept).mpr upInt
    left := fun _ => by
      rw [reads.left]
      exact (widened_exact_iff _ left lKept).mpr leftInt
    stored := fun _ pe stored => by rw [stored_left stored, stored_zero_iff reads, l] }

/-- The numbers of an announce are handled as they are written exactly when all are
in range with counters that are `int`s, or one is out of range and one is refused. -/
theorem numbers_exact_iff (curl : Unescape) (list : List HttpUriKv) (ctx : PeerReq) (addr : InAddr)
    (n : Numbers) (given : n.Given list) (built : httpBuildPeerReq curl list = .ok ctx)
    (valid : OthersValid ctx) :
    NumbersExact ctx addr n ↔ n.Narrow ∨ (¬ n.InRange ∧ n.Refused) := by
  have reads := built_reads_numbers given built
  have decides := sanitize_numbers_iff reads valid
  constructor
  · intro exact
    by_cases accepted : sanitizePeerReq ctx = none
    · have range := exact.accepted.mp accepted
      have kept := decides.mp accepted
      simp only [Numbers.Refused, not_or] at kept
      have d := exact.downloaded accepted
      have u := exact.uploaded accepted
      have l := exact.left accepted
      rw [reads.downloaded, widened_exact_iff _ range.downloaded kept.2.1] at d
      rw [reads.uploaded, widened_exact_iff _ range.uploaded kept.2.2.1] at u
      rw [reads.left, widened_exact_iff _ range.left kept.2.2.2] at l
      exact Or.inl ⟨range, d, u, l⟩
    · refine Or.inr ⟨fun range => accepted (exact.accepted.mpr range), ?_⟩
      by_contra fine
      exact accepted (decides.mpr fine)
  · rintro (narrow | ⟨outside, refused⟩)
    · exact narrow_numbers_exact reads valid narrow
    · have rejected : sanitizePeerReq ctx ≠ none := fun accepted => decides.mp accepted refused
      exact {
        accepted := ⟨fun accepted => absurd accepted rejected, fun range => absurd range outside⟩
        port := fun accepted => absurd accepted rejected
        downloaded := fun accepted => absurd accepted rejected
        uploaded := fun accepted => absurd accepted rejected
        left := fun accepted => absurd accepted rejected
        stored := fun accepted => absurd accepted rejected }

/-! ## Announces that are read -/

def announceLeft (left : Numeral) : Buffer :=
  announceOf (queryOf [(infoHashKey, List.replicate 20 104), (peerIdKey, ascii ['p']),
    (portKey, ascii ['6', '8', '8', '1']), (uploadedKey, ascii ['0']),
    (downloadedKey, ascii ['0']), (leftKey, left.text)])

def zero : Numeral := ⟨false, ascii ['0'], by decide, List.all_eq_true.mp (by decide)⟩

def five : Numeral := ⟨false, ascii ['5'], by decide, List.all_eq_true.mp (by decide)⟩

def wide : Numeral :=
  ⟨false, ascii ['4', '2', '9', '4', '9', '6', '7', '2', '9', '6'], by decide,
    List.all_eq_true.mp (by decide)⟩

def numbersLeft (left : Numeral) : Numbers where
  port := ⟨false, ascii ['6', '8', '8', '1'], by decide, List.all_eq_true.mp (by decide)⟩
  downloaded := zero
  uploaded := zero
  left := left

/-- The request is accepted, gives the four numerals and is valid otherwise. -/
def ReadsAs (n : Numbers) (input : Buffer) : Prop :=
  ∃ result ctx, httpParseQuery input .announce = some result ∧ result.ret = 0 ∧
    n.Given result.head ∧ httpBuildPeerReq .total result.head = .ok ctx ∧ OthersValid ctx

def buildsValid (list : List HttpUriKv) : Bool :=
  match httpBuildPeerReq .total list with
  | .error _ => false
  | .ok ctx => sanitizeInfoHash ctx.infoHash 40 && ctx.peerId.bytes.all isgraph &&
      knownEvents.any fun event => event == ctx.event.bytes

def givesText (list : List HttpUriKv) (key : List UInt8) (n : Numeral) : Bool :=
  (httpLookupKvKey list key).map (fun np => np.val.bytes) == some n.text

def readsAs (n : Numbers) (input : Buffer) : Bool :=
  (httpParseQuery input .announce).any fun result => decide (result.ret = 0 ∧
    buildsValid result.head = true ∧ givesText result.head portKey n.port = true ∧
      givesText result.head downloadedKey n.downloaded = true ∧
        givesText result.head uploadedKey n.uploaded = true ∧
          givesText result.head leftKey n.left = true)

theorem gives_of_text {list : List HttpUriKv} {key : List UInt8} {n : Numeral}
    (evaluated : givesText list key n = true) : Gives list key n :=
  Option.map_eq_some_iff.mp (beq_iff_eq.mp evaluated)

theorem reads_as (n : Numbers) (input : Buffer) (evaluated : readsAs n input = true) :
    ReadsAs n input := by
  obtain ⟨result, parsed, reads⟩ := (Option.any_eq_true _ _).mp evaluated
  obtain ⟨accepted, valid, port, downloaded, uploaded, left⟩ := of_decide_eq_true reads
  unfold buildsValid at valid
  split at valid
  · contradiction
  · next ctx built =>
      rw [Bool.and_eq_true, Bool.and_eq_true, List.any_eq_true] at valid
      obtain ⟨⟨hash, peer⟩, event, member, same⟩ := valid
      exact ⟨result, ctx, parsed, accepted,
        ⟨gives_of_text port, gives_of_text downloaded, gives_of_text uploaded, gives_of_text left⟩,
        built, ⟨hash, peer, beq_iff_eq.mp same ▸ member⟩⟩

theorem numbers_exact_five :
    ∃ list ctx, (numbersLeft five).Given list ∧ httpBuildPeerReq .total list = .ok ctx ∧
      NumbersExact ctx ⟨10, 0, 0, 1⟩ (numbersLeft five) := by
  obtain ⟨result, ctx, _, _, given, built, valid⟩ :=
    reads_as (numbersLeft five) (announceLeft five) (by decide +kernel)
  have exact := numbers_exact_iff .total result.head ctx ⟨10, 0, 0, 1⟩ (numbersLeft five) given
    built valid
  refine ⟨result.head, ctx, given, built, exact.mpr (Or.inl ?_)⟩
  exact ⟨⟨by decide, by decide, by decide, by decide⟩, by decide, by decide, by decide⟩

/-- A `left` of 2 ^ 32 is accepted as 0, so its peer counts as a seeder. -/
theorem wide_left_read_as_zero :
    ¬ ∀ (curl : Unescape) (input : Buffer) (result : QueryResult) (ctx : PeerReq) (addr : InAddr)
      (n : Numbers), httpParseQuery input .announce = some result → result.ret = 0 →
        n.Given result.head → httpBuildPeerReq curl result.head = .ok ctx → OthersValid ctx →
          NumbersExact ctx addr n := by
  intro claimed
  obtain ⟨result, ctx, parsed, accepted, given, built, valid⟩ :=
    reads_as (numbersLeft wide) (announceLeft wide) (by decide +kernel)
  have exact := claimed .total _ result ctx ⟨10, 0, 0, 1⟩ _ parsed accepted given built valid
  have range : (numbersLeft wide).InRange :=
    ⟨by decide, by decide, by decide, by decide⟩
  have left := exact.left (exact.accepted.mpr range)
  rw [(built_reads_numbers given built).left] at left
  exact absurd left (by decide)

end Ttracker.AnnouncedNumbers
