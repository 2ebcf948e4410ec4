import Mathlib.Data.List.Basic
import LoxLex.Proofs.Text.Utf8
import LoxLex.Terminal

/-! # What a terminal shows and takes

What is shown is spelled out apart from what shows it: tokens one behind the other (`listed`), and
errors by a line for each (`LexicalError.reportLine`). A scan is listed by its tokens and an error
reported by its line (`Scan.listing_eq_listed`, `LexicalError.report_eq_reportLine`).

A sink takes the first bytes of what is written, as many as it has room for, however the bytes were
parted into writes (`Sink.Took`). A sink that was offered bytes from the beginning holds the first
of them (`write_offered_snd`), and a write succeeds if all that was offered so far fits
(`write_offered_fst`). So what is written on a terminal, one text behind the other, is judged by the
one text that it makes up (`Terminal.print_offered`), and a console shows the first bytes of the
lines of all its errors, whatever it remembers of them (`Console.took_reportAll`). -/

namespace LoxLex

/-! ### What is shown -/

/-- Tokens as listed: each as it is displayed, with a line end behind it. -/
def listed : List Token → Text
  | [] => []
  | t :: ts => t.display ++ '\n' :: listed ts

/-- A scan is listed by its tokens: `s.listing = listed s.tokens`. -/
theorem Scan.listing_eq_listed (s : Scan) : s.listing = listed s.tokens := by
  rw [listing]
  induction s.tokens with
  | nil => rfl
  | cons t ts ih => rw [List.flatMap_cons, ih, listed, List.append_assoc, List.singleton_append]

namespace LexicalError

/-- The line that says what is wrong on a line of the source. -/
def errorLine (line : Nat) (what : Text) : Text :=
  "[line ".toList ++ Nat.toDigits 10 line ++ "] Error: ".toList ++ what ++ ['\n']

/-- The line that is shown of an error. -/
def reportLine : LexicalError → Text
  | unexpectedCharacter line c =>
    errorLine line ("Unexpected character '".toList ++ c :: "'.".toList)
  | unterminatedString line => errorLine line "Unterminated string.".toList
  | invalidNumber line lexeme =>
    errorLine line ("Invalid number '".toList ++ lexeme ++ "'.".toList)

/-- **The report of every error**: `e.report` is its line, `e.reportLine`. -/
theorem report_eq_reportLine (e : LexicalError) : e.report = e.reportLine := by
  cases e <;> rfl

example : reportLine (.unexpectedCharacter 12 '&') =
    "[line 12] Error: Unexpected character '&'.\n".toList := by
  decide +kernel

end LexicalError

/-- The lines that are shown of errors, one behind the other. -/
def reportLines (es : List LexicalError) : Text := es.flatMap LexicalError.reportLine

/-! ### Sinks -/

namespace Sink

/-- The bytes that a limit leaves: the first ones. -/
def kept (limit : Option Nat) (bytes : Bytes) : Bytes := limit.elim bytes bytes.take

/-- Whether bytes keep to a limit. -/
def Fits (limit : Option Nat) (bytes : Bytes) : Prop := ∀ n ∈ limit, bytes.length ≤ n

/-- How many bytes a sink has room for, if it has a limit. -/
def room (s : Sink) : Option Nat := s.limit.map (· - s.taken.size)

/-- **What a sink took** of some bytes: the first of them, as many as it had room for, behind what
it took before. -/
structure Took (s : Sink) (bytes : Bytes) (after : Sink) : Prop where
  /-- The sink has the limit that it had. -/
  limit_eq : after.limit = s.limit
  /-- It holds what it held, and behind that the first of the bytes. -/
  taken_eq : after.taken.toList = s.taken.toList ++ kept s.room bytes

/-- A sink with a limit that was offered bytes. -/
def offered (limit : Option Nat) (bytes : Bytes) : Sink := ⟨limit, (kept limit bytes).toArray⟩

/-- Whether bytes keep to a limit can be read off their number. -/
instance (limit : Option Nat) (bytes : Bytes) : Decidable (Fits limit bytes) :=
  inferInstanceAs (Decidable (∀ n ∈ limit, bytes.length ≤ n))

variable {limit : Option Nat} {done bytes : Bytes}

/-- The beginning of what keeps to a limit keeps to it. -/
theorem Fits.of_isPrefix (h : Fits limit bytes) (hdone : done <+: bytes) : Fits limit done :=
  fun n hn => Nat.le_trans hdone.length_le (h n hn)

/-- No bytes at all keep to any limit: `Fits limit []`. -/
@[simp] theorem fits_nil : Fits limit [] := fun n _ => n.zero_le

/-- A limit leaves all bytes that keep to it. -/
theorem kept_of_fits (h : Fits limit bytes) : kept limit bytes = bytes := by
  cases limit with
  | none => rfl
  | some n => exact List.take_of_length_le (h n rfl)

/-- A sink that was offered more than it takes has seen all that it takes. -/
theorem offered_of_isPrefix (h : ¬ Fits limit done) (hdone : done <+: bytes) :
    offered limit done = offered limit bytes := by
  obtain ⟨more, rfl⟩ := hdone
  cases limit with
  | none => exact absurd (fun _ hn => nomatch hn) h
  | some n =>
    have hlong : n ≤ done.length := by
      by_contra hshort
      exact h fun k hk => by cases hk; omega
    simp [offered, kept, List.take_append_of_le_length hlong]

/-- A sink that was offered nothing. -/
theorem offered_nil (limit : Option Nat) : offered limit [] = { limit } := by
  cases limit <;> simp [offered, kept]

/-- A sink that took nothing yet has room for its limit: `room { limit } = limit`. -/
@[simp] theorem room_fresh (limit : Option Nat) : room { limit } = limit := by
  cases limit <;> rfl

/-- What is kept of `done ++ bytes` is what is kept of `done`, and what the rest of the limit leaves
of `bytes`. -/
theorem kept_append (limit : Option Nat) (done bytes : Bytes) :
    kept limit (done ++ bytes) =
      kept limit done ++ kept (limit.map (· - (kept limit done).length)) bytes := by
  cases limit with
  | none => rfl
  | some n =>
    have hroom : n - min n done.length = n - done.length := by omega
    simp [kept, List.take_append, hroom]

variable {s after last : Sink}

/-- What a sink took takes up its room. -/
theorem Took.room_eq (h : s.Took bytes after) :
    after.room = s.room.map (· - (kept s.room bytes).length) := by
  have hsize : after.taken.size = s.taken.size + (kept s.room bytes).length := by
    rw [← Array.length_toList, h.taken_eq, List.length_append, Array.length_toList]
  rw [room, h.limit_eq, hsize, room, Option.map_map]
  congr 1
  funext n
  exact Nat.sub_add_eq ..

/-- Of no bytes a sink takes none: `s.Took [] s`. -/
theorem Took.nil : s.Took [] s where
  limit_eq := rfl
  taken_eq := by cases h : s.room <;> simp [kept]

/-- **Two steps.** What was taken of `done` and then of `bytes` was taken of `done ++ bytes`. -/
theorem Took.append (h : s.Took done after) (hmore : after.Took bytes last) :
    s.Took (done ++ bytes) last where
  limit_eq := hmore.limit_eq.trans h.limit_eq
  taken_eq := by
    rw [hmore.taken_eq, h.taken_eq, h.room_eq, kept_append, List.append_assoc]

/-- **A step.** What is written is taken, as far as there is room. -/
theorem took_write (s : Sink) (bytes : Bytes) : s.Took bytes (s.write bytes).2 := by
  obtain ⟨limit, taken⟩ := s
  cases limit with
  | none => exact ⟨rfl, by simp [write, room, kept]⟩
  | some n => exact ⟨rfl, by simp [write, room, kept]⟩

/-- What a sink with a limit takes from the beginning is what it was offered. -/
theorem took_fresh_iff : Took { limit } bytes s ↔ s = offered limit bytes := by
  constructor
  · rintro ⟨hlimit, htaken⟩
    obtain ⟨_, taken⟩ := s
    obtain rfl : _ = limit := hlimit
    rw [room_fresh] at htaken
    rw [offered, Sink.mk.injEq, ← Array.toList_inj]
    exact ⟨rfl, htaken⟩
  · rintro rfl
    exact ⟨rfl, by rw [room_fresh]; rfl⟩

/-- **What is written is offered** behind what was offered before. -/
theorem write_offered_snd :
    ((offered limit done).write bytes).2 = offered limit (done ++ bytes) := by
  have hdone : Took { limit } done (offered limit done) := took_fresh_iff.2 rfl
  exact took_fresh_iff.1 (hdone.append (took_write _ bytes))

/-- **A write succeeds** if all that was offered so far fits. -/
theorem write_offered_fst (h : Fits limit done) :
    ((offered limit done).write bytes).1 = decide (Fits limit (done ++ bytes)) := by
  rw [offered, kept_of_fits h]
  cases limit with
  | none => simp [Fits, write]
  | some n =>
    have hdone : done.length ≤ n := h n rfl
    have hiff : bytes.length ≤ n - done.length ↔ done.length + bytes.length ≤ n := by omega
    simp [Fits, write, hiff]

/-- A write behind what fits. -/
theorem write_offered (h : Fits limit done) :
    (offered limit done).write bytes =
      (decide (Fits limit (done ++ bytes)), offered limit (done ++ bytes)) :=
  Prod.ext (write_offered_fst h) write_offered_snd

end Sink

/-! ### Terminals -/

/-- Whether a text keeps to a limit on the bytes of its UTF-8 form. -/
def Text.Fits (limit : Option Nat) (t : Text) : Prop := Sink.Fits limit (Utf8.encode t)

/-- A terminal with a limit on its output, on which a text was written. -/
def Terminal.offered (limit : Option Nat) (done : Text) (console : Console) : Terminal :=
  ⟨Sink.offered limit (Utf8.encode done), console⟩

variable {limit : Option Nat} {done text : Text} {console : Console}

/-- Whether a text keeps to a limit can be read off its bytes. -/
instance : Decidable (Text.Fits limit done) := inferInstanceAs (Decidable (Sink.Fits ..))

/-- The beginning of a text that keeps to a limit keeps to it. -/
theorem Text.Fits.of_isPrefix (h : Text.Fits limit text) (hdone : done <+: text) :
    Text.Fits limit done := by
  obtain ⟨more, rfl⟩ := hdone
  exact Sink.Fits.of_isPrefix h ⟨Utf8.encode more, (Utf8.encode_append ..).symm⟩

/-- A terminal that does not take a text looks the same whatever comes behind the text. -/
theorem Terminal.offered_of_isPrefix (h : ¬ Text.Fits limit done) (hdone : done <+: text) :
    Terminal.offered limit done console = Terminal.offered limit text console := by
  obtain ⟨more, rfl⟩ := hdone
  rw [offered, offered,
    Sink.offered_of_isPrefix h ⟨Utf8.encode more, (Utf8.encode_append ..).symm⟩]

/-- Writing on a terminal. -/
theorem Terminal.print_offered (h : Text.Fits limit done) (text : Text) :
    (Terminal.offered limit done console).print text =
      (decide (Text.Fits limit (done ++ text)),
        Terminal.offered limit (done ++ text) console) := by
  rw [Terminal.print, Terminal.offered, Sink.write_offered h, ← Utf8.encode_append]
  rfl

/-- Presenting a scan on a terminal. -/
theorem Terminal.present_offered (h : Text.Fits limit done) (s : Scan) :
    (Terminal.offered limit done console).present s =
      (decide (Text.Fits limit (done ++ listed s.tokens)),
        Terminal.offered limit (done ++ listed s.tokens) (console.reportAll s.errors)) := by
  rw [← s.listing_eq_listed]
  exact Terminal.print_offered h s.listing

/-- Presenting a scan on an output that has taken nothing yet. -/
theorem Terminal.present_fresh (s : Scan) :
    Terminal.present { output := { limit }, console } s =
      (decide (Text.Fits limit (listed s.tokens)),
        Terminal.offered limit (listed s.tokens) (console.reportAll s.errors)) := by
  have hfresh : { output := { limit }, console } = Terminal.offered limit [] console := by
    rw [offered, Utf8.encode_nil, Sink.offered_nil]
  have hnil : Text.Fits limit [] := Sink.fits_nil
  rw [hfresh, Terminal.present_offered hnil, List.nil_append]

/-! ### Reports -/

namespace Console

/-- **A console after a report** of errors. -/
structure Reported (c : Console) (es : List LexicalError) (after : Console) : Prop where
  /-- Its stream took the lines of the errors, in order. -/
  took : c.stream.Took (Utf8.encode (reportLines es)) after.stream
  /-- It remembers an error if it did so before, or if there was one. -/
  hadError_iff : after.hadError = true ↔ c.hadError = true ∨ es ≠ []

variable (c : Console) (es fs : List LexicalError)

/-- Errors are reported one list after the other: `es ++ fs` as `es` and then `fs`. -/
theorem reportAll_append : c.reportAll (es ++ fs) = (c.reportAll es).reportAll fs :=
  List.foldl_append

/-- **A step.** The line of an error is offered to the stream. -/
theorem took_report (e : LexicalError) :
    c.stream.Took (Utf8.encode e.reportLine) (c.report e).stream := by
  rw [report, e.report_eq_reportLine]
  exact Sink.took_write ..

/-- **A run.** The lines of errors are offered to the stream, in order. -/
theorem took_reportAll :
    c.stream.Took (Utf8.encode (reportLines es)) (c.reportAll es).stream := by
  induction es generalizing c with
  | nil => exact .nil
  | cons e es ih =>
    rw [reportLines, List.flatMap_cons, Utf8.encode_append]
    exact (c.took_report e).append (ih (c.report e))

/-- What a console shows does not depend on what it remembers. -/
theorem stream_reportAll_congr {c c' : Console} (h : c.stream = c'.stream) :
    (c.reportAll es).stream = (c'.reportAll es).stream := by
  induction es generalizing c c' with
  | nil => exact h
  | cons e es ih => exact ih (by rw [report, report, h])

/-- A console remembers reports, and what it remembered before. -/
theorem hadError_reportAll : (c.reportAll es).hadError = (c.hadError || !es.isEmpty) := by
  induction es generalizing c with
  | nil => simp [reportAll]
  | cons e es ih =>
    have hfirst : (c.report e).hadError = true := rfl
    exact (ih (c.report e)).trans (by rw [hfirst]; simp)

/-- Errors that are reported all together are shown and remembered. -/
theorem reported_reportAll : c.Reported es (c.reportAll es) where
  took := c.took_reportAll es
  hadError_iff := by simp [hadError_reportAll]

end Console

end LoxLex
