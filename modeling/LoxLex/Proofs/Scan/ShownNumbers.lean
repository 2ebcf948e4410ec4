import LoxLex.Proofs.Binary64.Display
import LoxLex.Proofs.Scan.Numbers
import LoxLex.Proofs.Scan.Yield

/-! # Numbers as they are shown

What is shown of a number token is scanned to that number again where numbers are shown in the plain
form; elsewhere the mark of the exponent begins a word (`scan_shown`). Both forms are made of
lexemes side by side, and the plain one denotes the shortest decimal, which rounds to the number. -/

namespace LoxLex

open Binary64

/-! ### Lexemes side by side -/

/-- The tokens, on one line, of lexemes side by side that are the pieces of a text. -/
theorem yieldFrom_ofLexeme (ws : List (TokenKind × Text)) (line : Nat)
    (h : ∀ w ∈ ws, '\n' ∉ w.2) :
    yieldFrom line (ws.map fun w => .ofLexeme w.1 w.2) =
      ⟨ws.map fun w => ⟨w.1, w.2, .ofLexeme w.1 w.2, line⟩, []⟩ := by
  induction ws with
  | nil => rfl
  | cons w ws ih =>
    obtain ⟨hw, hws⟩ := List.forall_mem_cons.1 h
    have hnone : newlines w.2 = 0 := List.count_eq_zero.2 hw
    rw [List.map_cons, yieldFrom_cons, Piece.text_ofLexeme, hnone, Nat.add_zero, ih hws]
    rfl

/-- A source on one line that falls into lexemes is scanned to their tokens, without an error. -/
theorem scan_ofLexeme {source : Text} {ws : List (TokenKind × Text)}
    (hpieces : pieces source = ws.map fun w => .ofLexeme w.1 w.2) (h : ∀ w ∈ ws, '\n' ∉ w.2) :
    (scan source).tokens =
        (ws.map fun w => ⟨w.1, w.2, .ofLexeme w.1 w.2, 1⟩) ++ [Token.endOfInput 1] ∧
      (scan source).errors = [] := by
  have hnone : newlines source = 0 := by
    rw [← joined_pieces source, hpieces]
    refine List.count_eq_zero.2 fun hmem => ?_
    obtain ⟨p, hp, hin⟩ := List.mem_flatMap.1 hmem
    obtain ⟨w, hw, rfl⟩ := List.mem_map.1 hp
    exact h w hw hin
  rw [tokens_scan_eq, errors_scan_eq, hpieces, yieldFrom_ofLexeme ws 1 h, hnone]
  exact ⟨rfl, rfl⟩

/-- A lexeme by itself is scanned to one token. -/
theorem scan_of_isLexeme {kind : TokenKind} {t : Text} (h : IsLexeme kind t)
    (hkind : kind ≠ .string) :
    (scan t).tokens = [⟨kind, t, .ofLexeme kind t, 1⟩, .endOfInput 1] ∧ (scan t).errors = [] := by
  have hpieces : pieces t = [(kind, t)].map fun w => .ofLexeme w.1 w.2 :=
    pieces_eq_iff.2 ⟨⟨Piece.leads_of_isLexeme h, trivial⟩, by simp⟩
  exact scan_ofLexeme hpieces (by simpa using h.blank_not_mem hkind rfl)

/-- A word behind a number is scanned to a token of its own. -/
theorem scan_number_append_word {front back : Text} {c : Char} (hfront : IsLexeme .number front)
    (hback : IsLexeme .identifier (c :: back)) :
    (scan (front ++ c :: back)).tokens =
        [⟨.number, front, .ofLexeme .number front, 1⟩, ⟨.identifier, c :: back, .absent, 1⟩,
          .endOfInput 1] ∧
      (scan (front ++ c :: back)).errors = [] := by
  have hletter : c.isAlpha = true := by
    cases hback with
    | spelling heq => contradiction
    | identifier letter => exact letter
  have hnumber : (Piece.ofLexeme .number front).Leads (c :: back) := by
    refine Piece.leads_of_isLexeme_number hfront ?_ ?_
    · exact stops_cons.2 (Piece.isDigit_eq_false_of_isAlpha hletter)
    · rintro hpoint
      obtain rfl := Option.some.inj hpoint
      contradiction
  have hpieces : pieces (front ++ c :: back) =
      [(TokenKind.number, front), (TokenKind.identifier, c :: back)].map
        fun w => .ofLexeme w.1 w.2 := by
    refine pieces_eq_iff.2 ⟨⟨?_, Piece.leads_of_isLexeme hback, trivial⟩, by simp⟩
    simpa using hnumber
  refine scan_ofLexeme hpieces ?_
  simpa using ⟨hfront.blank_not_mem nofun rfl, by simpa using hback.blank_not_mem nofun rfl⟩

/-! ### What is shown -/

/-- What is shown of a number is scanned to the same number if it is in the plain form, and else to
other tokens; there is never an error. -/
structure Binary64.ScansBack (x : Binary64) (shown : Text) : Prop where
  errors : (scan shown).errors = []
  plain : x.IsFinite → x.InPlainRange →
    (scan shown).tokens = [⟨.number, shown, .number x, 1⟩, .endOfInput 1]
  /-- The exponent is cut off as a word. -/
  exponent : x.IsFinite → ¬ x.InPlainRange →
    ∃ front back, shown = front ++ 'e' :: back ∧
      (scan shown).tokens = [⟨.number, front, .ofLexeme .number front, 1⟩,
        ⟨.identifier, 'e' :: back, .absent, 1⟩, .endOfInput 1]
  infinite : ¬ x.IsFinite →
    x = infinity ∧ (scan shown).tokens = [⟨.identifier, "inf".toList, .absent, 1⟩, .endOfInput 1]

variable {x : Binary64}

/-- The infinity is scanned back as the word `inf`. -/
theorem scansBack_infinity : infinity.ScansBack infinity.display := by
  have hlexeme : IsLexeme .identifier ['i', 'n', 'f'] := .identifier rfl (by simp) (by decide)
  obtain ⟨htokens, herrors⟩ := scan_of_isLexeme hlexeme nofun
  have hfinite : ¬ infinity.IsFinite := by decide
  rw [display_infinity]
  exact ⟨herrors, fun h => absurd h hfinite, fun h => absurd h hfinite, fun _ => ⟨rfl, htokens⟩⟩

/-- A finite number without a sign is scanned back: `x.ScansBack x.display`. -/
theorem scansBack_of_isFinite (hsign : x.isNegative = false) (hfinite : x.IsFinite) :
    x.ScansBack x.display := by
  by_cases hrange : x.InPlainRange
  · obtain ⟨hlexeme, hliteral⟩ := isLexeme_display_of_plain hsign hfinite hrange
    obtain ⟨htokens, herrors⟩ := scan_of_isLexeme hlexeme nofun
    rw [hliteral] at htokens
    exact ⟨herrors, fun _ _ => htokens, fun _ h => absurd hrange h, fun h => absurd hfinite h⟩
  · obtain ⟨front, back, heq, hfront, hback⟩ := exists_display_eq hsign hfinite hrange
    obtain ⟨htokens, herrors⟩ := scan_number_append_word hfront hback
    rw [heq]
    exact ⟨herrors, fun _ h => absurd h hrange, fun _ _ => ⟨front, back, rfl, htokens⟩,
      fun h => absurd hfinite h⟩

/-- What is nearest to some rational number is finite, or the infinity. -/
theorem Binary64.IsNearest.scansBack {q : ℚ} (h : x.IsNearest q) : x.ScansBack x.display := by
  rcases lt_or_ge q overflow with hbelow | hover
  · exact scansBack_of_isFinite h.sign (h.finite hbelow).1
  · rw [h.infinite hover]
    exact scansBack_infinity

/-- **Numbers as they are shown.** What is shown of the value of a number token, whatever the
source, is scanned without an error: in the plain range to the same number, written as it is shown;
for other finite values to a number and a word that begins with the mark of the exponent; and for
the infinity to the word `inf`. -/
theorem scan_shown (source : Text) :
    ∀ t ∈ (scan source).tokens, t.kind = .number →
      ∃ x, t.literal = .number x ∧ x.ScansBack t.literal.display := by
  intro t ht hkind
  obtain ⟨-, x, hliteral, hx⟩ := exists_isNearest_of_mem_tokens ht hkind
  rw [hliteral]
  exact ⟨x, rfl, hx.scansBack⟩

/-- Half below `10^16`, which it is rounded to. -/
theorem scan_shown_at_limit :
    let lexeme := "9999999999999999.5".toList
    let x : Binary64 := ⟨0x4341C37937E08000⟩
    ⟨.number, lexeme, .number x, 1⟩ ∈ (scan lexeme).tokens ∧ x.display = "1e16".toList ∧
      x.ScansBack "1e16".toList := by
  intro lexeme x
  have htoken : ⟨.number, lexeme, .number x, 1⟩ ∈ (scan lexeme).tokens := by decide +kernel
  have hshown : x.display = "1e16".toList := by decide +kernel
  obtain ⟨y, hliteral, hy⟩ := scan_shown lexeme _ htoken rfl
  obtain rfl := Literal.number.inj hliteral
  exact ⟨htoken, hshown, hshown ▸ hy⟩

end LoxLex
