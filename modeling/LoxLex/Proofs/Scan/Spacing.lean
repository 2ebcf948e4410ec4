import LoxLex.Proofs.Scan.Blank
import LoxLex.Proofs.Scan.Cut

/-! # Spaces between pieces

Where a step of its scan begins, and at its end, a source may be spaced out on its line: its tokens
and errors stay as they are (`scan_insert_spaces`). A space is put in behind some pieces of a source
and in front of the others (`Consecutive.exists_insert_space`): it is a piece of its own, unless a
line comment or an open string stands in front of it and takes it in. -/

namespace LoxLex

/-! ### A piece that takes in a space -/

/-- A piece with one more character. -/
def Piece.lengthened (c : Char) (p : Piece) : Piece := { item := p.item, text := p.text ++ [c] }

/-- A lengthened piece has one character more: `p.text ++ [c]`. -/
@[simp] theorem Piece.text_lengthened (c : Char) (p : Piece) :
    (p.lengthened c).text = p.text ++ [c] := rfl

/-- Whether a piece goes on over spaces. -/
def Item.goesOn : Item → Bool
  | lineComment | openString => true
  | _ => false

section

variable {c : Char} {p : Piece} {ps qs : List Piece} {behind : Text}

/-- A line comment and an open string go on over a space. -/
theorem Piece.Leads.lengthened (h : p.Leads behind) (hp : p.item.goesOn = true)
    (hc : c ∈ [' ', '\t', '\r']) : (p.lengthened c).Leads behind := by
  have hline : '\n' ≠ c := by rintro rfl; exact absurd hc (by decide)
  have hquote : '"' ≠ c := by rintro rfl; exact absurd hc (by decide)
  cases h with
  | @lineComment body _ hinside hstops =>
    have hlonger : '\n' ∉ body ++ [c] := by simp [hinside, hline]
    exact .lineComment hlonger hstops
  | @openString body hinside =>
    have hlonger : '"' ∉ body ++ [c] := by simp [hinside, hquote]
    exact .openString hlonger
  | _ => contradiction

/-- Such a piece yields the same with a space more. -/
theorem Piece.yield_lengthened (hp : p.item.goesOn = true) (hc : c ≠ '\n') (line : Nat) :
    (p.lengthened c).yield line = p.yield line := by
  have hnone : newlines [c] = 0 := List.count_eq_zero.2 (by simpa using hc.symm)
  have htext : newlines (p.text ++ [c]) = newlines p.text := by
    rw [newlines_append, hnone, Nat.add_zero]
  obtain ⟨item, text, barren⟩ := p
  cases item with
  | lineComment => rfl
  | openString =>
    show Yield.mk [] [.unterminatedString (line + newlines (text ++ [c]))] = _
    rw [htext]
    rfl
  | _ => contradiction

/-! ### A space behind some pieces -/

/-- Only no pieces make up the empty text. -/
theorem Consecutive.eq_nil_of_joined_eq_nil (h : Consecutive ps) (hnil : joined ps = []) :
    ps = [] := by
  rw [← pieces_joined h, hnil, pieces_nil]

/-- **One space.** Behind some pieces and in front of others there may be a space: the others are
the same, the first yield the same as before, and no comment is opened in vain that was not. -/
theorem Consecutive.exists_insert_space (h : Consecutive (ps ++ qs)) (hc : c ∈ [' ', '\t', '\r']) :
    ∃ rs, Consecutive (rs ++ qs) ∧ joined rs = joined ps ++ [c] ∧
      (Settled (ps ++ qs) → Settled (rs ++ qs)) ∧
      ∀ line, yieldFrom line rs = yieldFrom line ps := by
  have hblank : CharClass.of c = .blank := of_eq_blank (List.mem_append_left ['\n'] hc)
  have hne : c ≠ '\n' := by rintro rfl; exact absurd hc (by decide)
  have hslash : c ≠ '/' := by rintro rfl; exact absurd hc (by decide)
  induction ps with
  | nil =>
    refine ⟨[{ item := .blank, text := [c] }], ⟨.blank hblank, h⟩, rfl, ?_, fun _ => rfl⟩
    exact fun hsettled => ⟨fun hvain => hslash (List.cons.inj hvain.1).1, hsettled⟩
  | cons p ps ih =>
    obtain ⟨hleads, hps⟩ := h
    by_cases hgrows : p.item.goesOn = true ∧ ps = []
    · -- The space belongs to the piece in front of it.
      obtain ⟨hgoes, rfl⟩ := hgrows
      refine ⟨[p.lengthened c], ⟨hleads.lengthened hgoes hc, hps⟩, ?_, ?_, ?_⟩
      · simp
      · refine fun hsettled => ⟨fun hvain => ?_, hsettled.2⟩
        exact hslash (by simpa using congrArg List.getLast? hvain.1)
      · intro line
        rw [yieldFrom_cons, yieldFrom_cons, Piece.yield_lengthened hgoes hne]
        rfl
    · obtain ⟨rs, hrs, htext, hsettled, hyield⟩ := ih hps
      change p.Leads (joined (ps ++ qs)) at hleads
      have hbehind : joined ps = [] → ps = [] := hps.of_append_left.eq_nil_of_joined_eq_nil
      have hopen : p.item ≠ .openString := by
        intro hitem
        have hnil := hleads.of_openString hitem
        rw [joined_append, List.append_eq_nil_iff] at hnil
        exact hgrows ⟨by rw [hitem]; rfl, hbehind hnil.1⟩
      have hline : p.item = .lineComment → joined ps = [] → c = '\n' := by
        intro hitem hnil
        exact absurd ⟨by rw [hitem]; rfl, hbehind hnil⟩ hgrows
      have hspaced : joined (rs ++ qs) = joined ps ++ c :: joined qs := by
        rw [joined_append, htext, List.append_assoc, List.singleton_append]
      rw [joined_append] at hleads
      have hvain : ¬ p.OpensInVain (joined ps) ∨ ¬ closeMark <:+: joined qs := by
        refine or_iff_not_imp_left.2 fun hstar => ?_
        rw [not_not] at hstar
        have hnone : ¬ closeMark <:+: joined ps ++ joined qs := by
          apply hleads.not_closeMark_infix_behind
          exact ⟨hstar.1, by rw [List.head?_append, hstar.2, Option.some_or]⟩
        exact fun hmark => hnone (hmark.trans (List.suffix_append ..).isInfix)
      refine ⟨p :: rs, ⟨?_, hrs⟩, ?_, fun hall => ⟨?_, hsettled hall.2⟩, ?_⟩
      · show p.Leads (joined (rs ++ qs))
        rw [hspaced]
        exact hleads.of_append.append_blank hblank hopen hline hvain
      · rw [joined_cons, htext, joined_cons, List.append_assoc]
      · show ¬ p.OpensInVain (joined (rs ++ qs))
        rw [hspaced]
        rintro ⟨htext, hhead⟩
        -- The star is in front of the space, so it has been there before.
        have hstar := head?_of_head?_append_blank hblank (by decide) hhead
        refine hall.1 ⟨htext, ?_⟩
        show (joined (ps ++ qs)).head? = some '*'
        rw [joined_append, List.head?_append, hstar, Option.some_or]
      · intro line
        rw [yieldFrom_cons, yieldFrom_cons, hyield]

/-- **Spaces.** One after the other, spaces are put in behind some pieces and in front of
others. -/
theorem Consecutive.exists_insert_spaces (h : Consecutive (ps ++ qs)) (gap : Text)
    (hgap : ∀ c ∈ gap, c ∈ [' ', '\t', '\r']) :
    ∃ rs, Consecutive (rs ++ qs) ∧ joined rs = joined ps ++ gap ∧
      ∀ line, yieldFrom line rs = yieldFrom line ps := by
  induction gap generalizing ps with
  | nil => exact ⟨ps, h, by simp, fun _ => rfl⟩
  | cons c gap ih =>
    obtain ⟨hc, hgap⟩ := List.forall_mem_cons.1 hgap
    obtain ⟨rs, hrs, htext, -, hyield⟩ := h.exists_insert_space hc
    obtain ⟨ts, hts, htext', hyield'⟩ := ih hrs hgap
    refine ⟨ts, hts, ?_, fun line => (hyield' line).trans (hyield line)⟩
    rw [htext', htext, List.append_assoc, List.singleton_append]

end

/-- **Spacing is free.** Where a step of the scan of a source begins, and at its end, spaces, tabs
and returns may be put in: the tokens and the errors are the same, each on its line. -/
theorem scan_insert_spaces (front gap back : Text)
    (hcut : (∃ s ∈ (scan (front ++ back)).steps, s.offset = utf8Length front) ∨ back = [])
    (hgap : ∀ c ∈ gap, c = ' ' ∨ c = '\t' ∨ c = '\r') :
    (scan (front ++ gap ++ back)).tokens = (scan (front ++ back)).tokens ∧
      (scan (front ++ gap ++ back)).errors = (scan (front ++ back)).errors := by
  obtain ⟨ps, qs, hpieces, rfl, rfl⟩ := exists_pieces_of_cut hcut
  have hall : Consecutive (ps ++ qs) := hpieces ▸ consecutive_pieces _
  obtain ⟨rs, hrs, htext, hyield⟩ := hall.exists_insert_spaces gap (by simpa using hgap)
  have hspaced : pieces (joined ps ++ gap ++ joined qs) = rs ++ qs :=
    pieces_eq_iff.2 ⟨hrs, by rw [joined_append, htext]⟩
  -- The gap ends no line, so what is behind it stays on its lines.
  have hzero : newlines gap = 0 := by
    refine List.count_eq_zero.2 fun hmem => ?_
    exact absurd (hgap _ hmem) (by decide)
  have hlines : newlines (joined rs) = newlines (joined ps) := by
    rw [htext, newlines_append, hzero, Nat.add_zero]
  have hsame : yieldFrom 1 (rs ++ qs) = yieldFrom 1 (ps ++ qs) := by
    rw [yieldFrom_append, yieldFrom_append, hyield, hlines]
  constructor
  · rw [tokens_scan_eq, tokens_scan_eq (joined ps ++ joined qs), hspaced, hpieces, hsame]
    simp [hzero]
  · rw [errors_scan_eq, errors_scan_eq (joined ps ++ joined qs), hspaced, hpieces, hsame]

/-- The law at the star of a comment that nothing closes, with a string of two lines in front of it
and an open string at the end. -/
theorem scan_insert_spaces_in_comment :
    (∃ s ∈ (scan ("\"é\n\"/".toList ++ "* // \"\n\"".toList)).steps,
        s.offset = utf8Length "\"é\n\"/".toList) ∧
      (∀ c ∈ " \r\t".toList, c = ' ' ∨ c = '\t' ∨ c = '\r') ∧
      (scan ("\"é\n\"/".toList ++ " \r\t".toList ++ "* // \"\n\"".toList)).tokens =
        (scan ("\"é\n\"/".toList ++ "* // \"\n\"".toList)).tokens ∧
      (scan ("\"é\n\"/".toList ++ " \r\t".toList ++ "* // \"\n\"".toList)).errors =
        (scan ("\"é\n\"/".toList ++ "* // \"\n\"".toList)).errors := by
  have hcut : ∃ s ∈ (scan ("\"é\n\"/".toList ++ "* // \"\n\"".toList)).steps,
      s.offset = utf8Length "\"é\n\"/".toList := by decide +kernel
  have hgap : ∀ c ∈ " \r\t".toList, c = ' ' ∨ c = '\t' ∨ c = '\r' := by simp
  exact ⟨hcut, hgap, scan_insert_spaces _ _ _ (.inl hcut) hgap⟩

end LoxLex
