import LoxLex.Proofs.Numeral
import LoxLex.Proofs.Scan.Genuine

/-! # Equal tokens

A text is a lexeme of no more than one kind (`IsLexeme.kind_unique`): by itself it is a piece, and
there is one piece that a text begins with. Kind and lexeme tell the value, and the value is never a
NaN, the only one that differs from itself (`Token.eqv_self_iff`). So two tokens that come from
scans are equal if they have the same lexeme and the same line, whatever stands around them in their
sources (`eqv_iff_of_mem_tokens`). -/

namespace LoxLex

variable {x y : Token} {kind kind₁ kind₂ : TokenKind} {lexeme : Text}

/-! ### Equality of values -/

/-- Of all tokens only those with a NaN differ from themselves. -/
theorem Token.eqv_self_iff (t : Token) :
    t.eqv t = true ↔ ∀ v, t.literal = .number v → v.isNaN = false := by
  obtain ⟨kind, lexeme, literal, line⟩ := t
  cases literal <;> simp [eqv, Literal.eqv, Binary64.eqv]

/-- Equality of tokens is decided field by field. -/
theorem Token.eqv_iff :
    x.eqv y = true ↔ x.kind = y.kind ∧ x.lexeme = y.lexeme ∧ x.literal.eqv y.literal = true ∧
      x.line = y.line := by
  simp [eqv, and_assoc]

/-- A token with a NaN, which no source has. -/
theorem Token.exists_eqv_self_eq_false : ∃ t : Token, t.eqv t = false :=
  ⟨⟨.number, ['0'], .number ⟨0x7FF8000000000000⟩, 1⟩, by decide⟩

/-! ### One kind for each lexeme -/

/-- **No text is a lexeme of two kinds.** -/
theorem IsLexeme.kind_unique (h₁ : IsLexeme kind₁ lexeme) (h₂ : IsLexeme kind₂ lexeme) :
    kind₁ = kind₂ := by
  obtain ⟨hpiece, -⟩ := (Piece.leads_of_isLexeme h₁).unique (Piece.leads_of_isLexeme h₂) rfl
  exact (Item.token.inj (congrArg Piece.item hpiece)).1

/-- No lexeme is empty: `lexeme ≠ []`. -/
theorem IsLexeme.ne_nil (h : IsLexeme kind lexeme) : lexeme ≠ [] :=
  (Piece.leads_of_isLexeme h).text_ne_nil

namespace Token.Genuine

/-- The empty lexeme is that of the end of input. -/
theorem lexeme_eq_nil_iff (h : x.Genuine) : x.lexeme = [] ↔ x.kind = .endOfInput := by
  cases h with
  | ofLexeme written => simp [written.ne_nil, written.kind_ne_endOfInput]
  | endOfInput => simp [Token.endOfInput]

/-- **The lexeme tells the token** but for its line. -/
theorem eq_of_lexeme_eq (hx : x.Genuine) (hy : y.Genuine) (h : x.lexeme = y.lexeme) :
    x.kind = y.kind ∧ x.literal = y.literal := by
  cases hx with
  | ofLexeme hl =>
    cases hy with
    | ofLexeme hm =>
      obtain rfl : _ = _ := h
      obtain rfl := hl.kind_unique hm
      exact ⟨rfl, rfl⟩
    | endOfInput => exact absurd h hl.ne_nil
  | endOfInput =>
    cases hy with
    | ofLexeme hm => exact absurd h.symm hm.ne_nil
    | endOfInput => exact ⟨rfl, rfl⟩

/-- What is written as a reserved word is that word. -/
theorem kind_eq_keyword (h : x.Genuine) {w : Keyword} (hlexeme : x.lexeme = w.spelling) :
    x.kind = .keyword w := by
  have hword : Genuine ⟨.keyword w, w.spelling, .absent, x.line⟩ := ofLexeme (.spelling rfl)
  exact (h.eq_of_lexeme_eq hword hlexeme).1

/-- No number that is read off a lexeme is a NaN. -/
theorem eqv_self (h : x.Genuine) : x.eqv x = true := by
  rw [eqv_self_iff]
  intro v hv
  cases h with
  | @ofLexeme kind lexeme line written =>
    cases kind with
    | number =>
      obtain ⟨v', hvalue, hnearest⟩ := exists_isNearest_of_isLexeme written
      obtain rfl := Literal.number.inj (hvalue.symm.trans hv)
      exact hnearest.isNaN_eq_false
    | _ => contradiction
  | endOfInput => contradiction

end Token.Genuine

/-! ### Tokens of scans -/

/-- **Equality is decided by lexeme and line.** Tokens of any two sources are equal if and only if
they have the same lexeme and the same line, since the lexeme by itself tells kind and value: the
empty one is that of the end of input, and a reserved word is never free. So every token of a source
equals itself, though there are tokens that do not. -/
theorem eqv_iff_of_mem_tokens {s₁ s₂ : Text} (hx : x ∈ (scan s₁).tokens)
    (hy : y ∈ (scan s₂).tokens) :
    (x.eqv y = true ↔ x.lexeme = y.lexeme ∧ x.line = y.line) ∧
      x.eqv x = true ∧ (∃ t : Token, t.eqv t = false) ∧
      (x.lexeme = y.lexeme → x.kind = y.kind ∧ x.literal = y.literal) ∧
      (x.lexeme = [] ↔ x.kind = .endOfInput) ∧
      ∀ w : Keyword, x.lexeme = w.spelling → x.kind = .keyword w := by
  have hxgenuine : x.Genuine := genuine_of_mem_tokens hx
  have hygenuine : y.Genuine := genuine_of_mem_tokens hy
  refine ⟨?_, hxgenuine.eqv_self, Token.exists_eqv_self_eq_false,
    hxgenuine.eq_of_lexeme_eq hygenuine, hxgenuine.lexeme_eq_nil_iff,
    fun _ => hxgenuine.kind_eq_keyword⟩
  rw [Token.eqv_iff]
  constructor
  · rintro ⟨-, hlexeme, -, hline⟩
    exact ⟨hlexeme, hline⟩
  · rintro ⟨hlexeme, hline⟩
    obtain ⟨hkind, hliteral⟩ := hxgenuine.eq_of_lexeme_eq hygenuine hlexeme
    -- The value of `x` equals itself, and it is the value of `y`.
    obtain ⟨-, -, hself, -⟩ := Token.eqv_iff.1 hxgenuine.eqv_self
    exact ⟨hkind, hlexeme, hliteral ▸ hself, hline⟩

/-- Two numbers of the same value, one in front of a sign and one behind a comment that is never
closed: they differ, since they are written in two ways. -/
theorem eqv_iff_of_mem_tokens_same_value :
    let x : Token := ⟨.number, "1.50".toList, .number ⟨0x3FF8000000000000⟩, 1⟩
    let y : Token := ⟨.number, "1.5".toList, .number ⟨0x3FF8000000000000⟩, 1⟩
    (x ∈ (scan "1.50-if".toList).tokens ∧ y ∈ (scan "/*1.5".toList).tokens) ∧
      x.literal = y.literal ∧ x.eqv x = true ∧ x.eqv y = false := by
  intro x y
  have hx : x ∈ (scan "1.50-if".toList).tokens := by decide +kernel
  have hy : y ∈ (scan "/*1.5".toList).tokens := by decide +kernel
  obtain ⟨hiff, hself, -⟩ := eqv_iff_of_mem_tokens hx hy
  have hne : x.eqv y ≠ true := fun heqv => absurd (hiff.1 heqv).1 (by decide)
  exact ⟨⟨hx, hy⟩, rfl, hself, Bool.eq_false_iff.2 hne⟩

end LoxLex
