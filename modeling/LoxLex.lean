import LoxLex.Binary64.Basic
import LoxLex.Binary64.Display
import LoxLex.Binary64.Nearest
import LoxLex.Binary64.Shortest
import LoxLex.CommandLine
import LoxLex.Console
import LoxLex.Decimal
import LoxLex.Files
import LoxLex.LexicalError
import LoxLex.Main
import LoxLex.Numeral
import LoxLex.Piece.Basic
import LoxLex.Piece.CharClass
import LoxLex.Piece.Lemmas
import LoxLex.Program
import LoxLex.Prompt
import LoxLex.Proofs.Piece.CommentEnd
import LoxLex.Proofs.Piece.Front
import LoxLex.Proofs.Piece.Leads
import LoxLex.Proofs.Scan.Cut
import LoxLex.Proofs.Scan.Invariant
import LoxLex.Proofs.Scan.Lines
import LoxLex.Proofs.Scan.Memory
import LoxLex.Proofs.Scan.Munch
import LoxLex.Proofs.Scan.Pieces
import LoxLex.Proofs.Scan.Positions
import LoxLex.Proofs.Text.Offset
import LoxLex.Proofs.Text.Run
import LoxLex.Scan.Basic
import LoxLex.Scan.Cursor
import LoxLex.Scan.Log
import LoxLex.Script
import LoxLex.Session
import LoxLex.Sink
import LoxLex.Terminal
import LoxLex.Text.Basic
import LoxLex.Text.Lines
import LoxLex.Text.Utf8
import LoxLex.Token.Basic
import LoxLex.Token.Kind
import LoxLex.Proofs.Scan.Search
import LoxLex.Proofs.Scan.Yield
import LoxLex.Proofs.Scan.Blank
import LoxLex.Proofs.Piece.Lexeme
import LoxLex.Proofs.Scan.Written
import LoxLex.Proofs.Text.Utf8
import LoxLex.Proofs.Text.Lines
import LoxLex.Proofs.Scan.LineByLine
import LoxLex.Proofs.Terminal.Output
import LoxLex.Proofs.Terminal.Prompt
import LoxLex.Proofs.Scan.Genuine
import LoxLex.Proofs.Scan.Lookahead
import LoxLex.Proofs.Terminal.Listing
import LoxLex.Proofs.Terminal.Program
import LoxLex.Proofs.Terminal.Session
import LoxLex.Proofs.Scan.Unclosed
import LoxLex.Proofs.Scan.Cover
import LoxLex.Proofs.Scan.OpenString
import LoxLex.Proofs.Scan.Spacing
import LoxLex.Proofs.Text.Returns
import LoxLex.Proofs.Scan.Returns
import LoxLex.Proofs.Binary64.Units
import LoxLex.Proofs.Binary64.Rounding
import LoxLex.Proofs.Binary64.Nearest
import LoxLex.Proofs.Numeral
import LoxLex.Proofs.Scan.Numbers
import LoxLex.Proofs.Decimal
import LoxLex.Proofs.Binary64.Shortest
import LoxLex.Proofs.Binary64.Display
import LoxLex.Proofs.Scan.ShownNumbers
import LoxLex.Proofs.Terminal.DamagedLine
import LoxLex.Proofs.Text.Parts
import LoxLex.Proofs.Scan.FileLines
import LoxLex.Proofs.Scan.Account
import LoxLex.Proofs.Scan.Equality
import LoxLex.Proofs.Decimal.Digits
import LoxLex.Proofs.Decimal.Forms
import LoxLex.Proofs.Binary64.Fewest
import LoxLex.Proofs.Binary64.Sign
import LoxLex.Proofs.Binary64.ShownExactly
import LoxLex.Proofs.Text.Slice
import LoxLex.Proofs.Scan.Scanner
import LoxLex.Proofs.Scan.Offsets
import LoxLex.Proofs.Scan.Calls
