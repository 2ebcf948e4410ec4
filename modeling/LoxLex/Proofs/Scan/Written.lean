import LoxLex.Proofs.Numeral
import LoxLex.Proofs.Scan.Blank

/-! # Writing tokens and scanning them

Tokens are written one behind the other with text between them that is no token: white space,
comments with the end of their line, and block comments, white space first. `WellWritten` is that
rule. A scan of what was written gives the tokens back, each with the value that its lexeme writes
and on the line where it was written (`ReadBack`, `scan_written`): a lexeme is one piece in front of
white space, and what is between lexemes falls into silent pieces, whatever the comments and strings
hold. -/

namespace LoxLex

/-! ### What stands between tokens -/

/-- Text that holds no token. -/
inductive Trivia : Text → Prop where
  /-- Nothing. -/
  | nil : Trivia []
  /-- A character of white space. -/
  | space {c : Char} {rest : Text} (mem : c ∈ [' ', '\t', '\r', '\n']) (more : Trivia rest) :
      Trivia (c :: rest)
  /-- A line comment with the end of its line. -/
  | lineComment {body rest : Text} (inside : '\n' ∉ body) (more : Trivia rest) :
      Trivia ('/' :: '/' :: (body ++ '\n' :: rest))
  /-- A block comment, up to its first close mark. -/
  | blockComment {body rest : Text} (star : body.head? = some '*') (closes : ClosesAtEnd body)
      (more : Trivia rest) : Trivia ('/' :: (body ++ rest))

/-- Trivia that begin with white space, as they stand between two tokens. -/
inductive Separator : Text → Prop where
  | intro {c : Char} {rest : Text} (mem : c ∈ [' ', '\t', '\r', '\n']) (more : Trivia rest) :
      Separator (c :: rest)

/-- What may stand behind the last token. -/
inductive Ending : Text → Prop where
  /-- Nothing. -/
  | nil : Ending []
  /-- What stands between two tokens. -/
  | separator {gap : Text} (parts : Separator gap) : Ending gap
  /-- A line comment that ends with the source, behind what stands between two tokens. -/
  | lineComment {gap body : Text} (parts : Separator gap) (inside : '\n' ∉ body) :
      Ending (gap ++ '/' :: '/' :: body)

/-! ### What is written -/

/-- A token by its kind and lexeme, with the text that is written behind it. -/
structure Written where
  kind : TokenKind
  lexeme : Text
  gap : Text

/-- The text of tokens that are written one behind the other. -/
def writtenText (ws : List Written) : Text := ws.flatMap fun w => w.lexeme ++ w.gap

/-- The tokens that are written behind `before`, each on the line where it is written. -/
def writtenTokens (before : Text) : List Written → List Token
  | [] => []
  | w :: ws =>
    ⟨w.kind, w.lexeme, .ofLexeme w.kind w.lexeme, lineBehind before⟩ ::
      writtenTokens (before ++ (w.lexeme ++ w.gap)) ws

/-- **The value that a lexeme of a kind writes.** -/
inductive Literal.WrittenBy : TokenKind → Text → Literal → Prop where
  /-- A number is the nearest to what its digits denote. -/
  | number {lexeme : Text} {x : Binary64} (nearest : x.IsNearest (denoted lexeme)) :
      WrittenBy .number lexeme (.number x)
  /-- A string holds what stands between its quotes. -/
  | string {body : Text} : WrittenBy .string ('"' :: (body ++ ['"'])) (.text body)
  /-- Any other token has no value. -/
  | absent {kind : TokenKind} {lexeme : Text} (not_number : kind ≠ .number)
      (not_string : kind ≠ .string) : WrittenBy kind lexeme .absent

/-- **How written tokens are read back**, behind a text `before`: one after the other, each by its
kind and lexeme, with the value that the lexeme writes, on the line where it is written. -/
inductive ReadBack : Text → List Written → List Token → Prop where
  /-- Of nothing there is no token. -/
  | nil {before : Text} : ReadBack before [] []
  /-- A token is read, and then those that are written behind it and its gap. -/
  | cons {before : Text} {w : Written} {ws : List Written} {literal : Literal} {ts : List Token}
      (value : literal.WrittenBy w.kind w.lexeme)
      (more : ReadBack (before ++ (w.lexeme ++ w.gap)) ws ts) :
      ReadBack before (w :: ws) (⟨w.kind, w.lexeme, literal, lineBehind before⟩ :: ts)

/-- **How tokens are written.** Each by a lexeme of its kind, with a separator behind it; the last
may have less behind it, or a line comment that ends with the source. -/
inductive WellWritten : List Written → Prop where
  /-- No token. -/
  | nil : WellWritten []
  /-- The last token. -/
  | last {w : Written} (lexeme : IsLexeme w.kind w.lexeme) (gap : Ending w.gap) : WellWritten [w]
  /-- A token with others behind it. -/
  | cons {w : Written} {ws : List Written} (lexeme : IsLexeme w.kind w.lexeme)
      (gap : Separator w.gap) (more : WellWritten ws) : WellWritten (w :: ws)

/-- `writtenText [] = []`. -/
@[simp] theorem writtenText_nil : writtenText [] = [] := rfl

/-- Tokens are written as the first, its gap, and the others. -/
@[simp] theorem writtenText_cons (w : Written) (ws : List Written) :
    writtenText (w :: ws) = w.lexeme ++ (w.gap ++ writtenText ws) := by
  simp [writtenText]

/-! ### Values -/

/-- The value of a lexeme is the one that it writes. -/
theorem IsLexeme.writtenBy {kind : TokenKind} {lexeme : Text} (h : IsLexeme kind lexeme) :
    (Literal.ofLexeme kind lexeme).WrittenBy kind lexeme := by
  by_cases hnumber : kind = .number
  · subst hnumber
    obtain ⟨x, hvalue, hnearest⟩ := exists_isNearest_of_isLexeme h
    rw [hvalue]
    exact .number hnearest
  · cases h with
    | spelling heq =>
      rw [Literal.ofLexeme_of_spelling? heq]
      refine .absent hnumber ?_
      rintro rfl
      contradiction
    | identifier => exact .absent hnumber TokenKind.noConfusion
    | whole | fraction => contradiction
    | string =>
      rw [Literal.ofLexeme_string]
      exact .string

/-- Well written tokens are read back as the tokens that were written. -/
theorem WellWritten.readBack {ws : List Written} (h : WellWritten ws) (before : Text) :
    ReadBack before ws (writtenTokens before ws) := by
  induction h generalizing before with
  | nil => exact .nil
  | last hlexeme => exact .cons hlexeme.writtenBy .nil
  | cons hlexeme _ _ ih => exact .cons hlexeme.writtenBy (ih _)

/-- A number that is read back is the nearest to what its lexeme denotes. -/
theorem ReadBack.isNearest {before : Text} {ws : List Written} {ts : List Token}
    (h : ReadBack before ws ts) {lexeme : Text} {x : Binary64} {line : Nat}
    (hmem : ⟨.number, lexeme, .number x, line⟩ ∈ ts) : x.IsNearest (denoted lexeme) := by
  induction h with
  | nil => contradiction
  | @cons _ w _ _ _ hvalue _ ih =>
    rcases List.mem_cons.1 hmem with heq | htail
    · obtain ⟨hkind, rfl, rfl, -⟩ := Token.mk.inj heq
      rw [← hkind] at hvalue
      cases hvalue with
      | number hnearest => exact hnearest
    · exact ih htail

/-! ### Trivia fall into silent pieces -/

/-- A text that falls into silent pieces in front of another. -/
inductive FallsSilent (behind : Text) : Text → Prop where
  /-- Nothing does. -/
  | nil : FallsSilent behind []
  /-- A silent piece does, with such a text behind it. -/
  | cons {p : Piece} {t : Text} (silent : p.item.isSilent = true) (leads : p.Leads (t ++ behind))
      (more : FallsSilent behind t) : FallsSilent behind (p.text ++ t)

variable {t gap behind : Text}

/-- A silent piece is no slash. -/
theorem Piece.Leads.text_ne_slash {p : Piece} (h : p.Leads behind)
    (hp : p.item.isSilent = true) : p.text ≠ ['/'] := by
  cases h with
  | lineComment => simp
  | blockComment hstar =>
    intro heq
    rw [(List.cons.inj heq).2] at hstar
    contradiction
  | blank hc =>
    intro heq
    rw [(List.cons.inj heq).1] at hc
    contradiction
  | _ => contradiction

/-- Silent pieces only move what is behind them further down. -/
theorem FallsSilent.yieldFrom_append (h : FallsSilent behind t) (line : Nat) :
    yieldFrom line (pieces (t ++ behind)) = yieldFrom (line + newlines t) (pieces behind) := by
  induction h generalizing line with
  | nil => rfl
  | cons hsilent hleads _ ih =>
    rw [List.append_assoc, pieces_append_of_leads hleads, yieldFrom_cons,
      Piece.yield_of_isSilent hsilent, Yield.nothing_append, ih, newlines_append, Nat.add_assoc]

/-- Silent pieces open no comment in vain. -/
theorem FallsSilent.settled_append (h : FallsSilent behind t) (hbehind : Settled (pieces behind)) :
    Settled (pieces (t ++ behind)) := by
  induction h with
  | nil => exact hbehind
  | cons hsilent hleads _ ih =>
    rw [List.append_assoc, pieces_append_of_leads hleads]
    exact ⟨fun hvain => hleads.text_ne_slash hsilent hvain.1, ih⟩

/-- Silent pieces in front of silent pieces. -/
theorem FallsSilent.append {u : Text} (h : FallsSilent (u ++ behind) t)
    (hu : FallsSilent behind u) : FallsSilent behind (t ++ u) := by
  induction h with
  | nil => exact hu
  | cons hsilent hleads _ ih =>
    rw [List.append_assoc]
    rw [← List.append_assoc] at hleads
    exact .cons hsilent hleads ih

/-- **Trivia** fall into silent pieces, whatever comes behind them. -/
theorem Trivia.fallsSilent (h : Trivia t) (behind : Text) : FallsSilent behind t := by
  induction h with
  | nil => exact .nil
  | @space c _ hmem _ ih =>
    exact .cons (p := { item := .blank, text := [c] }) rfl (.blank (of_eq_blank hmem)) ih
  | @lineComment body _ hinside _ ih =>
    -- the comment is one piece, and the end of its line another
    have hend := FallsSilent.cons (p := .lineEnd) rfl (.blank rfl) ih
    exact .cons (p := { item := .lineComment, text := '/' :: '/' :: body }) rfl
      (.lineComment hinside (stops_cons.2 (by simp))) hend
  | @blockComment body _ hstar hcloses _ ih =>
    exact .cons (p := { item := .blockComment, text := '/' :: body }) rfl
      (.blockComment hstar hcloses) ih

/-- A separator is trivia. -/
theorem Separator.trivia (h : Separator gap) : Trivia gap := by
  obtain ⟨hmem, hmore⟩ := h
  exact .space hmem hmore

/-- What stands behind the last token falls into silent pieces. -/
theorem Ending.fallsSilent (h : Ending gap) : FallsSilent [] gap := by
  cases h with
  | nil => exact .nil
  | separator hgap => exact hgap.trivia.fallsSilent []
  | @lineComment gap body hgap hinside =>
    have hcomment : FallsSilent [] ('/' :: '/' :: body) := by
      have hleads : Piece.Leads ⟨.lineComment, '/' :: '/' :: body, false⟩ ([] ++ []) :=
        .lineComment hinside stops_nil
      simpa using FallsSilent.cons rfl hleads .nil
    exact (hgap.trivia.fallsSilent _).append hcomment

/-! ### A lexeme in front of white space -/

/-- A text that goes on with white space, if it goes on at all. -/
def GoesBlank (behind : Text) : Prop := ∀ c ∈ behind.head?, CharClass.of c = .blank

/-- A separator begins with white space, whatever is behind it. -/
theorem Separator.goesBlank (h : Separator gap) (more : Text) : GoesBlank (gap ++ more) := by
  obtain ⟨hmem, -⟩ := h
  simpa [GoesBlank] using of_eq_blank hmem

/-- What stands behind the last token begins with white space, if there is anything. -/
theorem Ending.goesBlank (h : Ending gap) : GoesBlank gap := by
  cases h with
  | nil => simp [GoesBlank]
  | separator hgap => simpa using hgap.goesBlank []
  | lineComment hgap => exact hgap.goesBlank _

/-- **In front of white space** a lexeme is a piece, the token of its kind. -/
theorem leads_of_goesBlank {kind : TokenKind} {lexeme : Text} (h : IsLexeme kind lexeme)
    (hbehind : GoesBlank behind) : (Piece.ofLexeme kind lexeme).Leads behind := by
  have hleads := Piece.leads_of_isLexeme h
  cases behind with
  | nil => exact hleads
  | cons c behind =>
    have hc : CharClass.of c = .blank := hbehind c rfl
    have hsettled : ¬ (Piece.ofLexeme kind lexeme).OpensInVain [] := by
      rintro ⟨-, hhead⟩
      contradiction
    exact hleads.append_blank hc Item.noConfusion Item.noConfusion (.inl hsettled)

/-- Nothing in front of white space opens a comment in vain. -/
theorem GoesBlank.not_opensInVain (h : GoesBlank behind) (p : Piece) : ¬ p.OpensInVain behind := by
  rintro ⟨-, hhead⟩
  exact absurd (h '*' hhead) (by decide)

/-! ### What was written is scanned -/

/-- A lexeme yields its token, and what is behind the gap comes further down. -/
theorem yieldFrom_lexeme_append {w : Written} (hlexeme : IsLexeme w.kind w.lexeme)
    (hblank : GoesBlank (w.gap ++ behind)) (hgap : FallsSilent behind w.gap) (line : Nat) :
    yieldFrom line (pieces (w.lexeme ++ (w.gap ++ behind))) =
      ⟨[⟨w.kind, w.lexeme, .ofLexeme w.kind w.lexeme, line⟩], []⟩ ++
        yieldFrom (line + newlines (w.lexeme ++ w.gap)) (pieces behind) := by
  have hpieces := pieces_append_of_leads (leads_of_goesBlank hlexeme hblank)
  rw [Piece.text_ofLexeme] at hpieces
  rw [hpieces, yieldFrom_cons, hgap.yieldFrom_append, newlines_append, Nat.add_assoc]
  rfl

/-- A lexeme with a gap behind it opens no comment in vain. -/
theorem settled_lexeme_append {w : Written} (hlexeme : IsLexeme w.kind w.lexeme)
    (hblank : GoesBlank (w.gap ++ behind)) (hgap : FallsSilent behind w.gap)
    (hbehind : Settled (pieces behind)) : Settled (pieces (w.lexeme ++ (w.gap ++ behind))) := by
  have hpieces := pieces_append_of_leads (leads_of_goesBlank hlexeme hblank)
  rw [Piece.text_ofLexeme] at hpieces
  rw [hpieces]
  refine ⟨?_, hgap.settled_append hbehind⟩
  rw [joined_pieces]
  exact hblank.not_opensInVain _

variable {ws : List Written}

/-- **What is written is yielded**, behind any text. -/
theorem WellWritten.yieldFrom_eq (h : WellWritten ws) (before : Text) :
    yieldFrom (lineBehind before) (pieces (writtenText ws)) = ⟨writtenTokens before ws, []⟩ := by
  induction h generalizing before with
  | nil => rw [writtenText_nil, pieces_nil]; rfl
  | @last w hlexeme hgap =>
    have hblank : GoesBlank (w.gap ++ []) := by simpa using hgap.goesBlank
    rw [writtenText_cons, writtenText_nil,
      yieldFrom_lexeme_append hlexeme hblank hgap.fallsSilent, pieces_nil, yieldFrom_nil,
      Yield.append_nothing]
    rfl
  | @cons w ws hlexeme hgap _ ih =>
    have hline : lineBehind before + newlines (w.lexeme ++ w.gap) =
        lineBehind (before ++ (w.lexeme ++ w.gap)) := by
      rw [lineBehind, lineBehind, newlines_append before, Nat.add_assoc]
    rw [writtenText_cons,
      yieldFrom_lexeme_append hlexeme (hgap.goesBlank _) (hgap.trivia.fallsSilent _), hline, ih]
    rfl

/-- What is written opens no comment in vain. -/
theorem WellWritten.settled (h : WellWritten ws) : Settled (pieces (writtenText ws)) := by
  induction h with
  | nil =>
    rw [writtenText_nil, pieces_nil]
    trivial
  | @last w hlexeme hgap =>
    have hblank : GoesBlank (w.gap ++ []) := by simpa using hgap.goesBlank
    rw [writtenText_cons, writtenText_nil]
    exact settled_lexeme_append hlexeme hblank hgap.fallsSilent (by rw [pieces_nil]; trivial)
  | @cons w ws hlexeme hgap _ ih =>
    rw [writtenText_cons]
    exact settled_lexeme_append hlexeme (hgap.goesBlank _) (hgap.trivia.fallsSilent _) ih

/-- **Scanning undoes writing.** Tokens that are written one behind the other, each by a lexeme of
its kind and with separators between, come back from a scan in order: by kind and lexeme, with the
value that the lexeme writes, on the line where each was written. Nothing is reported, and no search
for the end of a comment fails. -/
theorem scan_written (lead : Text) (ws : List Written) (hlead : Trivia lead)
    (hws : WellWritten ws) :
    (∃ ts, ReadBack lead ws ts ∧ (scan (lead ++ writtenText ws)).tokens =
        ts ++ [Token.endOfInput (lineBehind (lead ++ writtenText ws))]) ∧
      (scan (lead ++ writtenText ws)).errors = [] ∧
      ¬ (scan (lead ++ writtenText ws)).SearchFails := by
  have hsilent := hlead.fallsSilent (writtenText ws)
  have hyield : yieldFrom 1 (pieces (lead ++ writtenText ws)) = ⟨writtenTokens lead ws, []⟩ := by
    rw [hsilent.yieldFrom_append]
    exact hws.yieldFrom_eq lead
  refine ⟨⟨writtenTokens lead ws, hws.readBack lead, ?_⟩, ?_, ?_⟩
  · rw [tokens_scan_eq, hyield]
    rfl
  · rw [errors_scan_eq, hyield]
  · rw [searchFails_scan_iff, not_not]
    exact hsilent.settled_append hws.settled

/-- Scanning undoes writing where comments hold quotes, the shortest of them stands in front, and a
string holds a comment that is not closed. The number is `4.5`. -/
theorem scan_written_nested :
    let ws : List Written := [⟨.keyword .printWord, "print".toList, " /* \" */".toList⟩,
      ⟨.string, "\"/*\n\"".toList, "\t".toList⟩, ⟨.number, "4.50".toList, " // 1".toList⟩]
    let ts : List Token := [⟨.keyword .printWord, "print".toList, .absent, 2⟩,
      ⟨.string, "\"/*\n\"".toList, .text "/*\n".toList, 2⟩,
      ⟨.number, "4.50".toList, .number ⟨0x4012000000000000⟩, 3⟩]
    (Trivia "/*/ \n".toList ∧ WellWritten ws) ∧
      (scan "/*/ \nprint /* \" */\"/*\n\"\t4.50 // 1".toList).tokens = ts ++ [.endOfInput 3] ∧
      ReadBack "/*/ \n".toList ws ts ∧
      Binary64.IsNearest ⟨0x4012000000000000⟩ (9 / 2) ∧
      (scan "/*/ \nprint /* \" */\"/*\n\"\t4.50 // 1".toList).errors = [] ∧
      ¬ (scan "/*/ \nprint /* \" */\"/*\n\"\t4.50 // 1".toList).SearchFails := by
  intro ws ts
  have hcloses : ∀ body : Text, closeEnd? body = some body.length → ClosesAtEnd body := by
    intro body h
    simpa using closesAtEnd_of_closeEnd?_eq_some h
  have hlead : Trivia "/*/ \n".toList :=
    @Trivia.blockComment "*/".toList _ rfl (hcloses _ (by decide))
      (.space (by decide) (.space (by decide) .nil))
  have hcomment : Trivia "/* \" */".toList :=
    @Trivia.blockComment "* \" */".toList _ rfl (hcloses _ (by decide)) .nil
  have hnumber : IsLexeme .number "4.50".toList :=
    .fraction (t := ['4']) (u := ['5', '0']) ⟨by decide, List.all_eq_true.1 rfl⟩
      ⟨by decide, List.all_eq_true.1 rfl⟩
  have hending : Ending " // 1".toList :=
    @Ending.lineComment [' '] [' ', '1'] (.intro (by decide) .nil) (by decide)
  have hws : WellWritten ws :=
    .cons (.spelling rfl) (.intro (by decide) hcomment)
      (.cons (@IsLexeme.string "/*\n".toList (by decide)) (.intro (by decide) .nil)
        (.last hnumber hending))
  have htokens : (scan "/*/ \nprint /* \" */\"/*\n\"\t4.50 // 1".toList).tokens =
      ts ++ [.endOfInput 3] := by
    decide +kernel
  obtain ⟨⟨read, hread, heq⟩, herrors, hsearch⟩ := scan_written _ _ hlead hws
  obtain ⟨rfl, -⟩ := List.append_inj' (htokens.symm.trans heq) rfl
  have hnearest : Binary64.IsNearest ⟨0x4012000000000000⟩ (9 / 2) := by
    have hdigits : Nat.ofDigitChars 10 ("4.50".toList.filter Char.isDigit) 0 = 450 := by
      decide +kernel
    have hplaces : ("4.50".toList.dropWhile (· ≠ '.')).countP Char.isDigit = 2 := by decide +kernel
    have hdenoted : denoted "4.50".toList = 9 / 2 := by
      rw [denoted, hdigits, hplaces]
      norm_num
    have hmem : ⟨.number, "4.50".toList, .number ⟨0x4012000000000000⟩, 3⟩ ∈ ts := by simp [ts]
    rw [← hdenoted]
    exact hread.isNearest hmem
  exact ⟨⟨hlead, hws⟩, htokens, hread, hnearest, herrors, hsearch⟩

end LoxLex
