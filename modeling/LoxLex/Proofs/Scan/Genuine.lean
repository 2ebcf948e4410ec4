import LoxLex.Proofs.Piece.Lexeme
import LoxLex.Proofs.Scan.Invariant

/-! # The tokens that scans give

Every token of a scan but the end of input is written by a lexeme of its kind, with the value that
kind and lexeme tell (`genuine_of_mem_tokens`). So whatever is to be said of the tokens of all
sources can be said of lexemes: this is the other direction of `leads_of_isLexeme`. -/

namespace LoxLex

/-! ### What leads is written by a lexeme -/

/-- What spells a reserved word is its spelling. -/
theorem Keyword.spelling_of_ofText?_eq_some {t : Text} {w : Keyword} (h : ofText? t = some w) :
    w.spelling = t := by
  have hfound := List.find?_some h
  simpa using hfound

/-- Punctuation is spelled by its one character. -/
theorem spelling?_of_punctuation {c : Char} {kind : TokenKind}
    (h : CharClass.of c = .punctuation kind) : kind.spelling? = some [c] := by
  -- One case for each row of the table of characters; the others give another class.
  unfold CharClass.of at h
  split at h <;> first | (cases h; rfl) | grind

/-- An operator is spelled by its character, alone or with `=` behind it. -/
theorem spelling?_of_operator {c : Char} {alone withEqual : TokenKind}
    (h : CharClass.of c = .operator alone withEqual) :
    alone.spelling? = some [c] ∧ withEqual.spelling? = some [c, '='] := by
  unfold CharClass.of at h
  split at h <;> first | (cases h; exact ⟨rfl, rfl⟩) | grind

variable {p : Piece} {kind : TokenKind} {literal : Literal} {behind lexeme : Text}

/-- A word is a lexeme of its kind, and carries no value. -/
theorem isLexeme_wordKind {c : Char} {t : Text} (hc : CharClass.of c = .letter)
    (hinside : ∀ d ∈ t, isWordChar d = true) :
    IsLexeme (Piece.wordKind (c :: t)) (c :: t) ∧
      Literal.ofLexeme (Piece.wordKind (c :: t)) (c :: t) = .absent := by
  unfold Piece.wordKind
  cases hword : Keyword.ofText? (c :: t) with
  | some w =>
    -- A word of the table has that kind, and is its own spelling.
    have hspelling : w.spelling = c :: t := Keyword.spelling_of_ofText?_eq_some hword
    exact ⟨.spelling (congrArg some hspelling), rfl⟩
  | none =>
    have hletters : ∀ d ∈ t, d.isAlpha ∨ d.isDigit ∨ d = '-' := by
      intro d hd
      exact isWordChar_iff.1 (hinside d hd)
    exact ⟨.identifier (Piece.isAlpha_of_of_eq_letter hc) hletters hword, rfl⟩

/-- **A piece that is a token is written by a lexeme**, which tells its value. -/
theorem Piece.Leads.isLexeme (h : p.Leads behind) (hitem : p.item = .token kind literal) :
    IsLexeme kind p.text ∧ literal = .ofLexeme kind p.text := by
  cases h with
  | punctuation hclass =>
    obtain ⟨rfl, rfl⟩ := Item.token.inj hitem
    have hspelling := spelling?_of_punctuation hclass
    exact ⟨.spelling hspelling, (Literal.ofLexeme_of_spelling? hspelling _).symm⟩
  | operatorAlone hclass =>
    obtain ⟨rfl, rfl⟩ := Item.token.inj hitem
    have hspelling := (spelling?_of_operator hclass).1
    exact ⟨.spelling hspelling, (Literal.ofLexeme_of_spelling? hspelling _).symm⟩
  | operatorWithEqual hclass =>
    obtain ⟨rfl, rfl⟩ := Item.token.inj hitem
    have hspelling := (spelling?_of_operator hclass).2
    exact ⟨.spelling hspelling, (Literal.ofLexeme_of_spelling? hspelling _).symm⟩
  | slash =>
    obtain ⟨rfl, rfl⟩ := Item.token.inj hitem
    exact ⟨.spelling rfl, rfl⟩
  | string hinside =>
    obtain ⟨rfl, rfl⟩ := Item.token.inj hitem
    exact ⟨.string hinside, (Literal.ofLexeme_string _).symm⟩
  | whole hdigits =>
    obtain ⟨rfl, rfl⟩ := Item.token.inj hitem
    exact ⟨.whole hdigits, (Literal.ofLexeme_whole hdigits).symm⟩
  | fraction hdigits hplaces =>
    obtain ⟨rfl, rfl⟩ := Item.token.inj hitem
    exact ⟨.fraction hdigits hplaces, (Literal.ofLexeme_fraction hdigits hplaces).symm⟩
  | word hclass hinside =>
    obtain ⟨rfl, rfl⟩ := Item.token.inj hitem
    exact (isLexeme_wordKind hclass hinside).imp_right Eq.symm
  | _ => simp at hitem

/-! ### Genuine tokens -/

/-- **Genuine tokens.** A token as a scan may give it: one written by a lexeme, which tells its
value, or the end of input. -/
inductive Token.Genuine : Token → Prop where
  /-- A token with a lexeme. -/
  | ofLexeme {kind : TokenKind} {lexeme : Text} {line : Nat} (written : IsLexeme kind lexeme) :
      Genuine ⟨kind, lexeme, .ofLexeme kind lexeme, line⟩
  /-- The end of input. -/
  | endOfInput (line : Nat) : Genuine (Token.endOfInput line)

/-- No lexeme is written for the end of input. -/
theorem IsLexeme.kind_ne_endOfInput (h : IsLexeme kind lexeme) : kind ≠ .endOfInput := by
  rintro rfl
  cases h with
  | spelling heq => contradiction

/-- The token of a step is genuine. -/
theorem genuine_of_token?_eq_some {source : Text} {done more : List Step} {s : Step}
    (h : (scan source).steps = done ++ s :: more) {t : Token} (ht : s.token? = some t) :
    t.Genuine := by
  obtain ⟨-, -, -, hleads⟩ := of_steps_scan_eq h
  unfold Step.token? at ht
  split at ht
  next kind literal hitem =>
    obtain ⟨hwritten, rfl⟩ := hleads.isLexeme hitem
    rw [← Option.some.inj ht]
    exact .ofLexeme hwritten
  next => contradiction

/-- **The tokens of a scan are genuine.** -/
theorem genuine_of_mem_tokens {source : Text} {t : Token} (h : t ∈ (scan source).tokens) :
    t.Genuine := by
  rcases List.mem_append.1 h with hstep | hend
  · obtain ⟨s, hs, ht⟩ := List.mem_filterMap.1 hstep
    obtain ⟨done, more, hsteps⟩ := List.append_of_mem hs
    exact genuine_of_token?_eq_some hsteps ht
  · rw [List.mem_singleton.1 hend]
    exact .endOfInput _

end LoxLex
