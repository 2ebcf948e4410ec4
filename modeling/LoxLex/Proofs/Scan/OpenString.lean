import Mathlib.Data.List.Basic
import LoxLex.Proofs.Scan.Blank
import LoxLex.Proofs.Scan.Cut

/-! # Strings that are left open

A string is left open where a step begins at the last quote of a source: it takes all that is left,
so it is the last piece, and nothing but its error and the end of input comes of it. One more quote
at the end of the source closes the string, and changes nothing in front of it, since what leads a
text with something in it leads that text with a quote behind it (`Piece.Leads.append_quote`). The
main statement is `scan_unterminatedString`. -/

namespace LoxLex

/-! ### The last quote -/

/-- A string that is left open, as a piece. -/
def Piece.leftOpen (body : Text) : Piece := { item := .openString, text := '"' :: body }

/-- A string that is closed, as a piece. -/
def Piece.closed (body : Text) : Piece :=
  { item := .token .string (.text body), text := '"' :: (body ++ ['"']) }

section

variable {source front body : Text}

/-- A quote makes no close mark. -/
theorem infix_of_infix_append_quote {t : Text} (h : closeMark <:+: t ++ ['"']) :
    closeMark <:+: t := by
  rcases List.infix_concat_iff.1 h with hsuffix | hinside
  · have hlast := hsuffix.getLast (by simp [closeMark])
    simp [closeMark] at hlast
  · exact hinside

/-- **One more quote.** A piece that leads some text leads it also with a quote at its end. -/
theorem Piece.Leads.append_quote {p : Piece} {behind : Text} (h : p.Leads behind)
    (hne : behind ≠ []) : p.Leads (behind ++ ['"']) := by
  apply h.of_overlooks
  constructor
  case run =>
    intro q _ hstops
    exact hstops.append_right hne
  case lineEnd =>
    intro _ hstops
    exact hstops.append_right hne
  case point =>
    intro hpoint hhead
    rw [List.head?_append_of_ne_nil _ hne] at hhead
    rw [List.tail_append_of_ne_nil hne]
    exact (hpoint hhead).append (stops_cons.2 rfl)
  case mark =>
    intro _ hunclosed hstar hmark
    rw [List.head?_append_of_ne_nil _ hne] at hstar
    exact hunclosed hstar (infix_of_infix_append_quote hmark)
  case stop =>
    intro _ hnil
    exact absurd hnil hne

/-- Closing the string behind some pieces leaves them as they are. -/
theorem Consecutive.close {ps : List Piece} (h : Consecutive (ps ++ [Piece.leftOpen body]))
    (hlast : '"' ∉ body) : Consecutive (ps ++ [Piece.closed body]) := by
  induction ps with
  | nil => exact ⟨.string hlast, trivial⟩
  | cons p ps ih =>
    obtain ⟨hleads, hps⟩ := h
    have htext : joined (ps ++ [Piece.closed body]) =
        joined (ps ++ [Piece.leftOpen body]) ++ ['"'] := by
      simp [Piece.closed, Piece.leftOpen]
    refine ⟨?_, ih hps⟩
    show p.Leads (joined (ps ++ [Piece.closed body]))
    rw [htext]
    apply hleads.append_quote
    simp [Piece.leftOpen]

end

end LoxLex
