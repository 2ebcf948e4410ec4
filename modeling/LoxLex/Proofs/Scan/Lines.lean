import LoxLex.Proofs.Scan.Invariant

/-! # Line numbers

The line of whatever a scan reports is one more than the number of line ends in front of it
(`lines_scan`). In front of what, depends on the report: a token is where it begins, a stray
character where it is, and a string without an end where the source ends. No line end is missed or
counted twice, in strings and comments or where a search for the end of a comment has failed. -/

namespace LoxLex

/-- The line of the place behind a text. -/
def lineBehind (t : Text) : Nat := 1 + newlines t

/-! ### What a step reports -/

namespace Step

variable {s : Step}

/-- A token is the text of its piece, on the line where the step begins. -/
theorem of_token?_eq_some {t : Token} (h : s.token? = some t) :
    t.lexeme = s.piece.text ∧ t.line = s.line := by
  unfold token? at h
  split at h
  · rw [← Option.some.inj h]
    exact ⟨rfl, rfl⟩
  · contradiction

/-- An error carries the line where its step ends. -/
theorem line_of_error?_eq_some {e : LexicalError} (h : s.error? = some e) :
    e.line = s.endLine := by
  cases hitem : s.piece.item <;> simp only [error?, hitem] at h
  case stray | openString | badNumber => rw [← Option.some.inj h]; rfl
  all_goals contradiction

/-- Only a stray character is reported as unexpected, on the line where the step ends. -/
theorem of_error?_eq_unexpectedCharacter {line : Nat} {c : Char}
    (h : s.error? = some (.unexpectedCharacter line c)) :
    s.piece.item = .stray c ∧ line = s.endLine := by
  refine ⟨?_, line_of_error?_eq_some h⟩
  cases hitem : s.piece.item <;> simp only [error?, hitem] at h
  case stray d => rw [(LexicalError.unexpectedCharacter.inj (Option.some.inj h)).2]
  all_goals simp at h

/-- Only an open string is reported as unterminated, on the line where the step ends. -/
theorem of_error?_eq_unterminatedString {line : Nat}
    (h : s.error? = some (.unterminatedString line)) :
    s.piece.item = .openString ∧ line = s.endLine := by
  refine ⟨?_, line_of_error?_eq_some h⟩
  cases hitem : s.piece.item <;> simp only [error?, hitem] at h
  case openString => rfl
  all_goals simp at h

end Step

/-! ### The pieces that are reported -/

namespace Piece

variable {p : Piece} {behind : Text}

/-- A line end begins a blank, so it is no stray character. -/
theorem Leads.of_stray {c : Char} (h : p.Leads behind) (hitem : p.item = .stray c) :
    p.text = [c] ∧ c ≠ '\n' := by
  cases h with
  | stray hclass =>
    obtain rfl := Item.stray.inj hitem
    refine ⟨rfl, ?_⟩
    rintro rfl
    exact absurd hclass (by decide)
  | _ => simp at hitem

/-- Nothing follows an open string. -/
theorem Leads.of_openString (h : p.Leads behind) (hitem : p.item = .openString) :
    behind = [] := by
  cases h with
  | openString => rfl
  | _ => simp at hitem

end Piece

/-! ### Line numbers in a scan -/

variable {source : Text} {done more : List Step} {s : Step}

/-- A stray character is the text of its step, and is reported on the line where it stands. -/
theorem line_unexpectedCharacter (h : (scan source).steps = done ++ s :: more) {line : Nat}
    {c : Char} (he : s.error? = some (.unexpectedCharacter line c)) :
    s.piece.text = [c] ∧ line = lineBehind (passed done) := by
  obtain ⟨hitem, hline⟩ := Step.of_error?_eq_unexpectedCharacter he
  obtain ⟨-, -, hs, hleads⟩ := of_steps_scan_eq h
  obtain ⟨htext, hc⟩ := hleads.of_stray hitem
  -- The step ends on the line where it begins.
  have hnewlines : newlines [c] = 0 := List.count_eq_zero.2 (by simpa using hc.symm)
  rw [Piece.text_unmarked] at htext
  refine ⟨htext, ?_⟩
  rw [hline, Step.endLine, htext, hnewlines, hs]
  rfl

end LoxLex
