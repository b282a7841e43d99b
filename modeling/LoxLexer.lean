import LoxLexer.Cursor
import LoxLexer.Main
import LoxLexer.Source.Directory
import LoxLexer.Proofs.Blanking
import LoxLexer.Proofs.Coverage
import LoxLexer.Proofs.Indexing
import LoxLexer.Proofs.Layout
import LoxLexer.Proofs.LineEndings
import LoxLexer.Proofs.Lines
import LoxLexer.Proofs.LongestMatch
import LoxLexer.Proofs.Outcome
import LoxLexer.Proofs.Restart
import LoxLexer.Proofs.Running
import LoxLexer.Proofs.WellFormed
import LoxLexer.Proofs.Quotes
import LoxLexer.Proofs.Dumping
import LoxLexer.Proofs.Integers
import LoxLexer.Proofs.Decimals
import LoxLexer.Proofs.Unterminated
import LoxLexer.Proofs.Addressing
import LoxLexer.Proofs.Rendering
import LoxLexer.Proofs.Reloading
import LoxLexer.Proofs.Scalars
import LoxLexer.Proofs.Denoting
import LoxLexer.Proofs.LongForms
import LoxLexer.Proofs.Trimming
import LoxLexer.Proofs.Precision
import LoxLexer.Proofs.Typing
import LoxLexer.Proofs.Checking
import LoxLexer.Proofs.Arguments
