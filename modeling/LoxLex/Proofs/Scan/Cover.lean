import LoxLex.Proofs.Scan.Blank

/-! # Blanks in place of pieces

A stray character or a comment may give way to blanks. What stands in front of it then sees a blank
where it saw the first character, and no piece tells these apart: each looks for one character that
is no blank, or for a close mark, which blanks do not make. So a text that is covered with blanks in
some places has the pieces that it had, but for those that are covered (`Covers.pieces_coverText`).
Two covers are of use: spaces over the characters that are reported as unexpected leave the tokens
and the other errors as they were (`scan_spaced`), and comments are as good as the line ends in them
(`scan_uncommented`). -/

namespace LoxLex

/-! ### Covered texts -/

/-- **Covered texts.** `Covered t u`: the text `u` is `t` with blanks in place of some of its parts,
none of which begins with a blank. -/
inductive Covered : Text → Text → Prop where
  /-- The empty text. -/
  | nil : Covered [] []
  /-- A character that is kept. -/
  | keep (c : Char) {t u : Text} (more : Covered t u) : Covered (c :: t) (c :: u)
  /-- A part that is covered with one blank or more. -/
  | cover {c d : Char} {part gap t u : Text} (class_ne : CharClass.of c ≠ .blank)
      (blanks : ∀ e ∈ d :: gap, CharClass.of e = .blank) (more : Covered t u) :
      Covered (c :: part ++ t) (d :: gap ++ u)

section

variable {t u gap : Text}

/-- Characters that are kept. -/
theorem Covered.append_left (h : Covered t u) (kept : Text) : Covered (kept ++ t) (kept ++ u) := by
  induction kept with
  | nil => exact h
  | cons c kept ih => exact .keep c ih

/-- What stops a run of characters that are no blanks stops it when it is covered. -/
theorem Covered.stops (h : Covered t u) {p : Char → Bool}
    (hp : [' ', '\t', '\r', '\n'].any p = false) (hstops : Stops p t) : Stops p u := by
  cases h with
  | nil => exact stops_nil
  | keep c _ => exact stops_cons.2 (stops_cons.1 hstops)
  | cover _ hblanks _ => exact stops_of_of_eq_blank (hblanks _ (List.mem_cons_self ..)) hp

/-- A line end is not covered. -/
theorem Covered.stops_lineEnd (h : Covered t u) (hstops : Stops (· ≠ '\n') t) :
    Stops (· ≠ '\n') u := by
  cases h with
  | nil => exact stops_nil
  | keep c _ => exact stops_cons.2 (stops_cons.1 hstops)
  | @cover c _ _ _ _ _ hne _ _ =>
    have hc : c = '\n' := by simpa using hstops
    rw [hc] at hne
    exact absurd rfl hne

/-- A character in front that is no blank has been kept. -/
theorem Covered.exists_of_cons {d : Char} (h : Covered t (d :: u))
    (hd : CharClass.of d ≠ .blank) : ∃ rest, t = d :: rest ∧ Covered rest u := by
  cases h with
  | keep _ hmore => exact ⟨_, rfl, hmore⟩
  | cover _ hblanks _ => exact absurd (hblanks d (List.mem_cons_self ..)) hd

/-- Blanks are no part of a close mark. -/
theorem infix_of_blanks_append (hgap : ∀ c ∈ gap, CharClass.of c = .blank)
    (h : closeMark <:+: gap ++ u) : closeMark <:+: u := by
  induction gap with
  | nil => exact h
  | cons c gap ih =>
    obtain ⟨hc, hgap⟩ := List.forall_mem_cons.1 hgap
    apply ih hgap
    rcases List.infix_cons_iff.1 h with ⟨behind, hbehind⟩ | hinside
    · -- a mark that begins here begins with a blank
      rw [← (List.cons.inj hbehind).1] at hc
      exact absurd hc (by decide)
    · exact hinside

/-- A close mark in a covered text has been there before. -/
theorem Covered.infix_of_infix (h : Covered t u) (hmark : closeMark <:+: u) :
    closeMark <:+: t := by
  induction h with
  | nil => exact hmark
  | @keep c t u hmore ih =>
    rcases List.infix_cons_iff.1 hmark with ⟨behind, hbehind⟩ | hinside
    · obtain ⟨rfl, hslash⟩ := List.cons.inj hbehind
      rw [← hslash] at hmore
      obtain ⟨rest, rfl, -⟩ := hmore.exists_of_cons (by decide)
      exact ⟨[], rest, rfl⟩
    · exact (ih hinside).trans (List.suffix_cons ..).isInfix
  | cover _ hblanks _ ih =>
    exact (ih (infix_of_blanks_append hblanks hmark)).trans (List.suffix_append ..).isInfix

/-- **Covering what is behind.** A piece that leads a text leads it when it is covered. -/
theorem Piece.Leads.covered {p : Piece} (h : p.Leads t) (hcover : Covered t u) : p.Leads u := by
  apply h.of_overlooks
  constructor
  case run =>
    intro q hq hstops
    exact hcover.stops (any_blank_of_mem_sought hq) hstops
  case lineEnd =>
    intro _ hstops
    exact hcover.stops_lineEnd hstops
  case point =>
    intro hpoint hhead
    -- a point has been kept, and what is behind it is covered
    obtain ⟨rest, rfl⟩ := List.head?_eq_some_iff.1 hhead
    obtain ⟨before, rfl, hmore⟩ := hcover.exists_of_cons (by decide)
    exact hmore.stops (by decide) (hpoint rfl)
  case mark =>
    intro _ hunclosed hstar hmark
    obtain ⟨rest, rfl⟩ := List.head?_eq_some_iff.1 hstar
    have hinside : closeMark <:+: t := hcover.infix_of_infix hmark
    obtain ⟨before, rfl, -⟩ := hcover.exists_of_cons (by decide)
    exact hunclosed rfl hinside
  case stop =>
    rintro _ rfl
    cases hcover with
    | nil => rfl

end

/-! ### Covered pieces -/

/-- The same tokens, and those of the errors that satisfy `keep`. -/
def Yield.keeping (keep : LexicalError → Bool) (y : Yield) : Yield :=
  ⟨y.tokens, y.errors.filter keep⟩

/-- What is kept of two yields is kept of each:
`(y ++ z).keeping keep = y.keeping keep ++ z.keeping keep`. -/
theorem Yield.keeping_append (keep : LexicalError → Bool) (y z : Yield) :
    (y ++ z).keeping keep = y.keeping keep ++ z.keeping keep := by
  ext1
  · rfl
  · exact List.filter_append ..

/-- **Covers.** `cover` says what blanks to put over a piece, if any. It puts as many line ends over
a piece as there are in it, and covers no blank and no token; of the errors it takes away those that
do not satisfy `keep`. -/
structure Covers (keep : LexicalError → Bool) (cover : Piece → Option Text) : Prop where
  blanks : ∀ p gap, cover p = some gap → gap ≠ [] ∧ ∀ c ∈ gap, CharClass.of c = .blank
  front : ∀ p behind gap, p.Leads behind → cover p = some gap →
    ∃ c part, p.text = c :: part ∧ CharClass.of c ≠ .blank
  newlines_eq : ∀ p behind gap, p.Leads behind → cover p = some gap →
    newlines gap = newlines p.text
  taken : ∀ p gap line, cover p = some gap → (p.yield line).keeping keep = .nothing
  kept : ∀ p line, cover p = none → (p.yield line).keeping keep = p.yield line

/-- Blanks as pieces, one for each character. -/
def blankPieces (gap : Text) : List Piece := gap.map fun c => { item := .blank, text := [c] }

/-- Pieces with blanks in place of those that are covered. -/
def coverPieces (cover : Piece → Option Text) (ps : List Piece) : List Piece :=
  ps.flatMap fun p => ((cover p).map blankPieces).getD [p]

/-- A source with blanks in place of the pieces that are covered. -/
def coverText (cover : Piece → Option Text) (source : Text) : Text :=
  (scan source).steps.flatMap fun s => (cover s.piece.unmarked).getD s.piece.text

section

variable {keep : LexicalError → Bool} {cover : Piece → Option Text} {p : Piece} {ps : List Piece}
  {gap : Text}

/-- A piece that is covered gives way to the blanks over it. -/
theorem coverPieces_cons_some (h : cover p = some gap) :
    coverPieces cover (p :: ps) = blankPieces gap ++ coverPieces cover ps := by
  rw [coverPieces, List.flatMap_cons, h]
  rfl

/-- A piece that is not covered stays. -/
theorem coverPieces_cons_none (h : cover p = none) :
    coverPieces cover (p :: ps) = p :: coverPieces cover ps := by
  rw [coverPieces, List.flatMap_cons, h]
  rfl

/-- Blanks as pieces have the text of the blanks: `joined (blankPieces gap) = gap`. -/
@[simp] theorem joined_blankPieces (gap : Text) : joined (blankPieces gap) = gap := by
  induction gap with
  | nil => rfl
  | cons c gap ih =>
    show c :: joined (blankPieces gap) = c :: gap
    rw [ih]

/-- Blanks lead whatever is behind them. -/
theorem consecutive_blankPieces_append (hgap : ∀ c ∈ gap, CharClass.of c = .blank)
    (h : Consecutive ps) : Consecutive (blankPieces gap ++ ps) := by
  induction gap with
  | nil => exact h
  | cons c gap ih =>
    obtain ⟨hc, hgap⟩ := List.forall_mem_cons.1 hgap
    exact ⟨.blank hc, ih hgap⟩

/-- Blanks yield nothing. -/
theorem yieldFrom_blankPieces (gap : Text) (line : Nat) :
    yieldFrom line (blankPieces gap) = .nothing := by
  induction gap generalizing line with
  | nil => rfl
  | cons c gap ih =>
    show Piece.yield line _ ++ yieldFrom _ (blankPieces gap) = _
    rw [Piece.yield_of_isSilent rfl, ih, Yield.nothing_append]

/-- The text of covered pieces is covered. -/
theorem Covers.covered_joined (hcover : Covers keep cover) (h : Consecutive ps) :
    Covered (joined ps) (joined (coverPieces cover ps)) := by
  induction ps with
  | nil => exact .nil
  | cons p ps ih =>
    obtain ⟨hleads, hps⟩ := h
    cases hp : cover p with
    | none =>
      rw [coverPieces_cons_none hp, joined_cons, joined_cons]
      exact (ih hps).append_left p.text
    | some gap =>
      obtain ⟨hne, hblanks⟩ := hcover.blanks p gap hp
      obtain ⟨d, gap, rfl⟩ := List.exists_cons_of_ne_nil hne
      obtain ⟨c, part, htext, hc⟩ := hcover.front p _ _ hleads hp
      rw [coverPieces_cons_some hp, joined_append, joined_blankPieces, joined_cons, htext]
      exact .cover hc hblanks (ih hps)

/-- Pieces of which each leads the text behind it do so when some are covered. -/
theorem Covers.consecutive (hcover : Covers keep cover) (h : Consecutive ps) :
    Consecutive (coverPieces cover ps) := by
  induction ps with
  | nil => exact h
  | cons p ps ih =>
    obtain ⟨hleads, hps⟩ := h
    cases hp : cover p with
    | none =>
      rw [coverPieces_cons_none hp]
      exact ⟨hleads.covered (hcover.covered_joined hps), ih hps⟩
    | some gap =>
      rw [coverPieces_cons_some hp]
      exact consecutive_blankPieces_append (hcover.blanks p gap hp).2 (ih hps)

/-- Covering pieces moves nothing to another line. -/
theorem Covers.newlines_joined (hcover : Covers keep cover) (h : Consecutive ps) :
    newlines (joined (coverPieces cover ps)) = newlines (joined ps) := by
  induction ps with
  | nil => rfl
  | cons p ps ih =>
    obtain ⟨hleads, hps⟩ := h
    cases hp : cover p with
    | none =>
      rw [coverPieces_cons_none hp, joined_cons, joined_cons, newlines_append, newlines_append,
        ih hps]
    | some gap =>
      rw [coverPieces_cons_some hp, joined_append, joined_cons, newlines_append, newlines_append,
        ih hps, joined_blankPieces, hcover.newlines_eq p _ gap hleads hp]

/-- Covered pieces yield what they yielded, but for the errors that are taken away. -/
theorem Covers.yieldFrom_eq (hcover : Covers keep cover) (h : Consecutive ps) (line : Nat) :
    yieldFrom line (coverPieces cover ps) = (yieldFrom line ps).keeping keep := by
  induction ps generalizing line with
  | nil => rfl
  | cons p ps ih =>
    obtain ⟨hleads, hps⟩ := h
    rw [yieldFrom_cons, Yield.keeping_append]
    cases hp : cover p with
    | none => rw [coverPieces_cons_none hp, yieldFrom_cons, ih hps, hcover.kept p line hp]
    | some gap =>
      rw [coverPieces_cons_some hp, yieldFrom_append, yieldFrom_blankPieces, ih hps,
        hcover.taken p gap line hp, joined_blankPieces, hcover.newlines_eq p _ gap hleads hp]

/-! ### Covered sources -/

/-- A covered source is made up of its covered pieces. -/
theorem coverText_eq (cover : Piece → Option Text) (source : Text) :
    coverText cover source = joined (coverPieces cover (pieces source)) := by
  rw [coverText, ← map_unmarked_piece_steps_scan]
  induction (scan source).steps with
  | nil => rfl
  | cons s steps ih =>
    rw [List.flatMap_cons, List.map_cons, ih]
    cases hs : cover s.piece.unmarked with
    | none => rw [coverPieces_cons_none hs]; rfl
    | some gap => rw [coverPieces_cons_some hs, joined_append, joined_blankPieces]; rfl

/-- **The pieces of a covered source** are those of the source, but for the covered ones. -/
theorem Covers.pieces_coverText (hcover : Covers keep cover) (source : Text) :
    pieces (coverText cover source) = coverPieces cover (pieces source) := by
  rw [coverText_eq]
  exact pieces_joined (hcover.consecutive (consecutive_pieces source))

/-- **The scan of a covered source** gives the same tokens, and of the errors those to keep. -/
theorem Covers.scan_coverText (hcover : Covers keep cover) (source : Text) :
    (scan (coverText cover source)).tokens = (scan source).tokens ∧
      (scan (coverText cover source)).errors = (scan source).errors.filter keep := by
  have hpieces := hcover.pieces_coverText source
  have hconsecutive := consecutive_pieces source
  have hnewlines : newlines (coverText cover source) = newlines source := by
    rw [coverText_eq, hcover.newlines_joined hconsecutive, joined_pieces]
  constructor
  · rw [tokens_scan_eq, tokens_scan_eq source, hpieces, hcover.yieldFrom_eq hconsecutive, hnewlines]
    rfl
  · rw [errors_scan_eq, errors_scan_eq source, hpieces, hcover.yieldFrom_eq hconsecutive]
    rfl

end

/-! ### Spaces over stray characters -/

/-- Whether an error is that of an unexpected character. -/
def LexicalError.isUnexpectedCharacter : LexicalError → Bool
  | unexpectedCharacter .. => true
  | _ => false

/-- A scanned source with a space in place of each character that is reported as unexpected. -/
def Scan.spaced (s : Scan) : Text :=
  s.steps.flatMap fun step =>
    if step.error?.any LexicalError.isUnexpectedCharacter then [' '] else step.piece.text

/-- A space over each stray character. -/
def coverStray (p : Piece) : Option Text :=
  match p.item with
  | .stray _ => some [' ']
  | _ => none

section

variable {p : Piece} {gap : Text}

/-- What `coverStray` covers is a stray character, with one space. -/
theorem of_coverStray_eq_some (h : coverStray p = some gap) :
    (∃ c, p.item = .stray c) ∧ gap = [' '] := by
  unfold coverStray at h
  split at h
  next c hitem => exact ⟨⟨c, hitem⟩, (Option.some.inj h).symm⟩
  next => contradiction

/-- A stray character is no blank. -/
theorem Piece.Leads.class_ne_blank {c : Char} {behind : Text} (h : p.Leads behind)
    (hitem : p.item = .stray c) : CharClass.of c ≠ .blank := by
  cases h with
  | stray hclass =>
    obtain rfl := Item.stray.inj hitem
    rw [hclass]
    exact CharClass.noConfusion
  | _ => simp at hitem

/-- Spaces over stray characters lose the errors of these and nothing else. -/
theorem covers_coverStray : Covers (fun e => !e.isUnexpectedCharacter) coverStray := by
  constructor
  case blanks =>
    intro p gap h
    obtain ⟨-, rfl⟩ := of_coverStray_eq_some h
    refine ⟨List.cons_ne_nil _ _, ?_⟩
    intro c hc
    rw [List.mem_singleton.1 hc]
    rfl
  case front =>
    intro p behind gap hleads h
    obtain ⟨⟨c, hitem⟩, -⟩ := of_coverStray_eq_some h
    exact ⟨c, [], (hleads.of_stray hitem).1, hleads.class_ne_blank hitem⟩
  case newlines_eq =>
    intro p behind gap hleads h
    obtain ⟨⟨c, hitem⟩, rfl⟩ := of_coverStray_eq_some h
    obtain ⟨htext, hc⟩ := hleads.of_stray hitem
    rw [htext]
    exact (List.count_eq_zero.2 (by simpa using hc.symm)).symm
  case taken =>
    intro p gap line h
    obtain ⟨⟨c, hitem⟩, -⟩ := of_coverStray_eq_some h
    obtain ⟨item, text, barren⟩ := p
    obtain rfl : item = .stray c := hitem
    rfl
  case kept =>
    intro p line h
    obtain ⟨item, text, barren⟩ := p
    cases item <;> first | rfl | contradiction

end

/-- A scanned source with spaces is the source with stray characters covered:
`(scan source).spaced = coverText coverStray source`. -/
theorem spaced_scan_eq (source : Text) : (scan source).spaced = coverText coverStray source := by
  have hstep : ∀ s : Step, (if s.error?.any LexicalError.isUnexpectedCharacter then [' ']
      else s.piece.text) = (coverStray s.piece.unmarked).getD s.piece.text := by
    rintro ⟨offset, line, item, text, barren⟩
    cases item <;> rfl
  simp only [Scan.spaced, hstep]
  rfl

/-- **Recovery is local.** With a space in place of each character that is reported as unexpected, a
source has the same tokens and all its other errors. -/
theorem scan_spaced (source : Text) :
    (scan (scan source).spaced).tokens = (scan source).tokens ∧
      (scan (scan source).spaced).errors =
        (scan source).errors.filter (fun e => !e.isUnexpectedCharacter) ∧
      ∀ s ∈ (scan source).steps, ∀ line c, s.error? = some (.unexpectedCharacter line c) →
        s.piece.text = [c] := by
  have hcovered := covers_coverStray.scan_coverText source
  rw [← spaced_scan_eq] at hcovered
  refine ⟨hcovered.1, hcovered.2, ?_⟩
  intro s hs line c herror
  obtain ⟨done, more, hsteps⟩ := List.append_of_mem hs
  exact (line_unexpectedCharacter hsteps herror).1

/-- What is no code is left alone. -/
example : (scan "1é.2 \"#\" // ü".toList).spaced = "1 .2 \"#\" // ü".toList := by decide +kernel

/-! ### Blanks over comments -/

/-- The line ends in a text, or a space if there is none. -/
def lineEndsOrSpace (t : Text) : Text := if '\n' ∈ t then t.filter (· = '\n') else [' ']

/-- A scanned source with each comment reduced to the line ends in it, or to a space. -/
def Scan.uncommented (s : Scan) : Text :=
  s.steps.flatMap fun step =>
    match step.piece.item with
    | .lineComment | .blockComment => lineEndsOrSpace step.piece.text
    | _ => step.piece.text

/-- Line ends or a space over each comment. -/
def coverComment (p : Piece) : Option Text :=
  match p.item with
  | .lineComment | .blockComment => some (lineEndsOrSpace p.text)
  | _ => none

/-- Something is left of every comment: `lineEndsOrSpace t ≠ []`. -/
theorem lineEndsOrSpace_ne_nil (t : Text) : lineEndsOrSpace t ≠ [] := by
  unfold lineEndsOrSpace
  split
  next h => exact List.ne_nil_of_mem (List.mem_filter.2 ⟨h, by simp⟩)
  next => exact List.cons_ne_nil _ _

/-- What is left of a comment is blank. -/
theorem of_mem_lineEndsOrSpace {t : Text} {c : Char} (h : c ∈ lineEndsOrSpace t) :
    CharClass.of c = .blank := by
  unfold lineEndsOrSpace at h
  split at h
  next =>
    have hc : c = '\n' := by simpa using (List.mem_filter.1 h).2
    rw [hc]
    rfl
  next =>
    rw [List.mem_singleton.1 h]
    rfl

/-- What is left of a comment has its line ends: `newlines (lineEndsOrSpace t) = newlines t`. -/
theorem newlines_lineEndsOrSpace (t : Text) : newlines (lineEndsOrSpace t) = newlines t := by
  unfold lineEndsOrSpace
  split
  next => exact List.count_filter (by simp)
  next h => exact (List.count_eq_zero.2 h).symm

section

variable {p : Piece} {gap : Text}

/-- What `coverComment` covers is a comment, with its line ends or a space. -/
theorem of_coverComment_eq_some (h : coverComment p = some gap) :
    (p.item = .lineComment ∨ p.item = .blockComment) ∧ gap = lineEndsOrSpace p.text := by
  unfold coverComment at h
  split at h
  next hitem => exact ⟨.inl hitem, (Option.some.inj h).symm⟩
  next hitem => exact ⟨.inr hitem, (Option.some.inj h).symm⟩
  next => contradiction

/-- A comment begins with a slash. -/
theorem Piece.Leads.exists_of_comment {behind : Text} (h : p.Leads behind)
    (hitem : p.item = .lineComment ∨ p.item = .blockComment) : ∃ part, p.text = '/' :: part := by
  cases h with
  | lineComment => exact ⟨_, rfl⟩
  | blockComment => exact ⟨_, rfl⟩
  | _ => simp at hitem

/-- Blanks over comments lose nothing, no error either. -/
theorem covers_coverComment : Covers (fun _ => true) coverComment := by
  constructor
  case blanks =>
    intro p gap h
    obtain ⟨-, rfl⟩ := of_coverComment_eq_some h
    exact ⟨lineEndsOrSpace_ne_nil _, fun _ => of_mem_lineEndsOrSpace⟩
  case front =>
    intro p behind gap hleads h
    obtain ⟨part, htext⟩ := hleads.exists_of_comment (of_coverComment_eq_some h).1
    exact ⟨'/', part, htext, by decide⟩
  case newlines_eq =>
    intro p behind gap _ h
    obtain ⟨-, rfl⟩ := of_coverComment_eq_some h
    exact newlines_lineEndsOrSpace p.text
  case taken =>
    intro p gap line h
    have hsilent : p.item.isSilent = true := by
      rcases (of_coverComment_eq_some h).1 with hitem | hitem <;> rw [hitem] <;> rfl
    rw [Piece.yield_of_isSilent hsilent]
    rfl
  case kept =>
    intro p line _
    ext1
    · rfl
    · exact List.filter_eq_self.2 fun _ _ => rfl

end

/-- A scanned source without comments is the source with comments covered:
`(scan source).uncommented = coverText coverComment source`. -/
theorem uncommented_scan_eq (source : Text) :
    (scan source).uncommented = coverText coverComment source := by
  have hstep : ∀ s : Step,
      (match s.piece.item with
        | .lineComment | .blockComment => lineEndsOrSpace s.piece.text
        | _ => s.piece.text) = (coverComment s.piece.unmarked).getD s.piece.text := by
    rintro ⟨offset, line, item, text, barren⟩
    cases item <;> rfl
  simp only [Scan.uncommented, hstep]
  rfl

/-- **Comments are white space.** With each comment reduced to the line ends in it, or to a space if
there is none, a source has the same tokens and the same errors. -/
theorem scan_uncommented (source : Text) :
    (scan (scan source).uncommented).tokens = (scan source).tokens ∧
      (scan (scan source).uncommented).errors = (scan source).errors := by
  obtain ⟨htokens, herrors⟩ := covers_coverComment.scan_coverText source
  rw [← uncommented_scan_eq] at htokens herrors
  exact ⟨htokens, herrors.trans (List.filter_eq_self.2 fun _ _ => rfl)⟩

/-- What opens a comment that nothing closes is left alone. -/
example : (scan "a/*\n\"*/b//c\n/* d".toList).uncommented = "a\nb \n/* d".toList := by
  decide +kernel

end LoxLex
