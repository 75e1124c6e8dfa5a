import Ttracker.Buffers
import Ttracker.TransitionRuns
import Mathlib.Logic.Function.Basic

/-!
The buffers of `buffer.c` as byte strings. The abstract machine keeps one byte string
for each buffer and knows neither allocations nor what is in them; every run of it is a
run of the buffers, whatever they held before and whatever `realloc` leaves unset.
-/
namespace Ttracker.BufferTexts
open CLibrary HttpQuery Buffers TransitionRuns

variable {Name : Type} [DecidableEq Name]

inductive Operation (Name : Type) where
  | appendString (b : Name) (c : List UInt8)
  | append (b c : Name)
  | write (b : Name) (data : List UInt8)
  | zero (b : Name)
  | truncate (b : Name)

/-- One call, with what `realloc` leaves in the bytes it adds. -/
def bufferStep (buffers : Name → Buffer) : Unset × Operation Name → Option (Name → Buffer)
  | (unset, .appendString b c) => (bufferAppendStringToBuffer unset (buffers b) c).map
      fun (_, out) => Function.update buffers b out
  | (unset, .append b c) =>
      (if b = c then bufferAppendToItself unset (buffers b)
        else bufferAppendToBuffer unset (buffers b) (buffers c)).map (Function.update buffers b)
  | (unset, .write b data) => (bufferWriteToBuffer unset (buffers b) data data.length).map
      fun (_, out) => Function.update buffers b out
  | (_, .zero b) => some (Function.update buffers b (bufferZeroBuffer (buffers b)))
  | (_, .truncate b) => some (Function.update buffers b (bufferTruncateBuffer (buffers b)))

/-- What the calls do to the strings; `buffer_write_to_buffer` refuses a write of no bytes. -/
def textStep (texts : Name → List UInt8) : Operation Name → Name → List UInt8
  | .appendString b c => Function.update texts b (texts b ++ c)
  | .append b c => Function.update texts b (texts b ++ texts c)
  | .write b data => Function.update texts b (if data = [] then texts b else data)
  | .zero b => Function.update texts b []
  | .truncate b => Function.update texts b []

/-- The machine in which every write replaces. -/
def replacingStep (texts : Name → List UInt8) : Operation Name → Name → List UInt8
  | .write b data => Function.update texts b data
  | operation => textStep texts operation

def Fits (texts : Name → List UInt8) (operation : Operation Name) : Prop :=
  ∀ b, (textStep texts operation b).length + 1 < 2 ^ 31

def Related (buffers : Name → Buffer) (texts : Name → List UInt8) : Prop :=
  ∀ b, Holds (buffers b) (texts b)

def content (b : Buffer) : List UInt8 := b.p.take b.cursor.toNat

theorem holds_content {b : Buffer} {text : List UInt8} (holds : Holds b text) : content b = text := by
  rw [content, holds.cursor, Int.toNat_natCast]
  exact (List.prefix_iff_eq_take.mp holds.stored).symm

theorem holds_inside {b : Buffer} {text : List UInt8} (holds : Holds b text) :
    0 ≤ b.cursor ∧ b.cursor ≤ b.p.length := by
  have inside := holds.stored.length_le
  rw [holds.cursor]
  omega

theorem update_related {buffers : Name → Buffer} {texts : Name → List UInt8}
    (related : Related buffers texts) (b : Name) {out : Buffer} {text : List UInt8}
    (holds : Holds out text) :
    Related (Function.update buffers b out) (Function.update texts b text) := by
  intro other
  by_cases same : other = b
  · subst same
    rw [Function.update_self, Function.update_self]
    exact holds
  · rw [Function.update_of_ne same, Function.update_of_ne same]
    exact related other

theorem step_simulates (buffers : Name → Buffer) (texts : Name → List UInt8)
    (call : Unset × Operation Name) (related : Related buffers texts) (fits : Fits texts call.2) :
    ∃ next, bufferStep buffers call = some next ∧ Related next (textStep texts call.2) := by
  obtain ⟨unset, operation⟩ := call
  cases operation with
  | appendString b c =>
      have small := fits b
      simp only [textStep, Function.update_self, List.length_append] at small
      obtain ⟨out, appended, holds, -⟩ :=
        append_string_holds unset (related b) c (by omega)
      exact ⟨_, by rw [bufferStep, appended, Option.map_some], update_related related b holds⟩
  | append b c =>
      have small := fits b
      simp only [textStep, Function.update_self, List.length_append] at small
      by_cases same : b = c
      · subst same
        obtain ⟨out, appended, holds⟩ := append_itself_holds unset (related b) (by omega)
        exact ⟨_, by rw [bufferStep, if_pos rfl, appended, Option.map_some],
          update_related related b holds⟩
      · obtain ⟨out, appended, holds⟩ :=
          append_buffer_holds unset (related b) (related c) (by omega)
        exact ⟨_, by rw [bufferStep, if_neg same, appended, Option.map_some],
          update_related related b holds⟩
  | write b data =>
      have small := fits b
      simp only [textStep, Function.update_self] at small
      by_cases empty : data = []
      · refine ⟨Function.update buffers b (buffers b), ?_, ?_⟩
        · rw [empty]
          rfl
        · simp only [textStep, if_pos empty]
          exact update_related related b (related b)
      · rw [if_neg empty] at small
        obtain ⟨out, written, holds⟩ := write_holds unset (related b) data data.length
          (List.length_pos_iff.mpr empty) le_rfl (by omega)
        rw [List.take_length] at holds
        refine ⟨_, by rw [bufferStep, written, Option.map_some], ?_⟩
        simp only [textStep, if_neg empty]
        exact update_related related b holds
  | zero b => exact ⟨_, rfl, update_related related b ⟨rfl, List.nil_prefix⟩⟩
  | truncate b => exact ⟨_, rfl, update_related related b ⟨rfl, List.nil_prefix⟩⟩

/-- The NUL behind a string that was just appended is part of the allocation. -/
theorem appended_terminated (buffers next : Name → Buffer) (texts : Name → List UInt8)
    (unset : Unset) (b : Name) (c : List UInt8) (related : Related buffers texts)
    (fits : Fits texts (.appendString b c))
    (taken : bufferStep buffers (unset, .appendString b c) = some next) :
    (next b).p[(next b).cursor.toNat]? = some 0 := by
  have small := fits b
  simp only [textStep, Function.update_self, List.length_append] at small
  obtain ⟨out, appended, holds, terminated⟩ :=
    append_string_holds unset (related b) c (by omega)
  rw [bufferStep, appended, Option.map_some] at taken
  cases taken
  simp only [Function.update_self, holds.cursor, Int.toNat_natCast]
  obtain ⟨rest, shape⟩ := terminated
  rw [← shape, List.append_assoc, List.getElem?_append_right le_rfl]
  simp

def runTexts (run : List (Unset × Operation Name)) : Name → List UInt8 :=
  (run.map Prod.snd).foldl textStep fun _ => []

theorem run_related (start : Name → Buffer) (run : List (Unset × Operation Name))
    (fresh : ∀ b, (start b).cursor = 0)
    (fits : Meets textStep Fits (fun _ => []) (run.map Prod.snd)) :
    ∃ final, replay bufferStep start run = some final ∧ Related final (runTexts run) := by
  rw [runTexts, List.foldl_map]
  exact replay_simulates bufferStep (fun texts call => textStep texts call.2)
    (fun texts call => Fits texts call.2) Related
    (fun buffers texts call related fits => step_simulates buffers texts call related fits)
    start _ run (fun b => empty_holds (fresh b)) (meets_map Prod.snd textStep Fits _ run fits)

/-- Every sequence of operations stays inside the allocations and leaves the texts of the
abstract machine, which knows nothing of what the buffers held before or of unset bytes. -/
theorem buffers_keep_texts (start : Name → Buffer) (run : List (Unset × Operation Name))
    (fresh : ∀ b, (start b).cursor = 0)
    (fits : Meets textStep Fits (fun _ => []) (run.map Prod.snd)) :
    ∃ final, replay bufferStep start run = some final ∧
      (∀ b, (0 ≤ (final b).cursor ∧ (final b).cursor ≤ (final b).p.length) ∧
        content (final b) = runTexts run b) ∧
      (∀ front unset b c, run = front ++ [(unset, .appendString b c)] →
        (final b).p[(final b).cursor.toNat]? = some 0) ∧
      ∀ (other : Name → Buffer) (again : List (Unset × Operation Name)),
        (∀ b, (other b).cursor = 0) → again.map Prod.snd = run.map Prod.snd →
          ∃ last, replay bufferStep other again = some last ∧
            ∀ b, content (last b) = content (final b) := by
  obtain ⟨final, reached, related⟩ := run_related start run fresh fits
  refine ⟨final, reached, ?_, ?_, ?_⟩
  · exact fun b => ⟨holds_inside (related b), holds_content (related b)⟩
  · rintro front unset b c rfl
    rw [List.map_append] at fits
    obtain ⟨before, here⟩ := meets_append _ _ _ _ _ fits
    obtain ⟨middle, reachedMiddle, relatedMiddle⟩ := run_related start front fresh before
    rw [replay_append, reachedMiddle, Option.bind_some] at reached
    obtain ⟨next, taken, ended⟩ := Option.bind_eq_some_iff.mp reached
    cases ended
    exact appended_terminated middle final _ unset b c relatedMiddle here.1 taken
  · intro other again otherFresh same
    obtain ⟨last, reachedLast, relatedLast⟩ := run_related other again otherFresh (same ▸ fits)
    refine ⟨last, reachedLast, fun b => ?_⟩
    rw [holds_content (relatedLast b), holds_content (related b), runTexts, runTexts, same]

def doubledRun : List (Unset × Operation Unit) :=
  [(fun _ _ => 7, .appendString () (ascii ['a', 'b'])), (fun _ _ => 7, .append () ())]

theorem buffers_keep_texts_doubled : ∃ final,
    replay bufferStep (fun _ => mkBuffer) doubledRun = some final ∧
      content (final ()) = ascii ['a', 'b', 'a', 'b'] := by
  have fits : Meets textStep Fits (fun _ => []) (doubledRun.map Prod.snd) :=
    ⟨fun () => by decide, fun () => by decide, trivial⟩
  obtain ⟨final, reached, texts, -⟩ :=
    buffers_keep_texts (fun _ => mkBuffer) doubledRun (fun _ => rfl) fits
  exact ⟨final, reached, (texts ()).2⟩

/-- A buffer keeps its text when no bytes are written to it. -/
theorem empty_write_replaces_nothing :
    ¬ ∀ run : List (Unset × Operation Unit),
      Meets textStep Fits (fun _ => []) (run.map Prod.snd) →
        ∃ final, replay bufferStep (fun _ => mkBuffer) run = some final ∧
          ∀ b, content (final b) = (run.map Prod.snd).foldl replacingStep (fun _ => []) b := by
  intro claimed
  have fits : Meets textStep Fits (fun _ => [])
      [.appendString () (ascii ['a', 'b']), .write () []] :=
    ⟨fun () => by decide, fun () => by decide, trivial⟩
  obtain ⟨final, reached, replaced⟩ := claimed
    [(fun _ _ => 7, .appendString () (ascii ['a', 'b'])), (fun _ _ => 7, .write () [])] fits
  obtain ⟨same, reachedSame, related⟩ := run_related (fun _ => mkBuffer)
    [(fun _ _ => 7, .appendString () (ascii ['a', 'b'])), (fun _ _ => 7, .write () [])]
    (fun _ => rfl) fits
  obtain rfl := Option.some.inj (reached.symm.trans reachedSame)
  have kept := (holds_content (related ())).symm.trans (replaced ())
  exact absurd kept (by decide)

end Ttracker.BufferTexts
