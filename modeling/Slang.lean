import Slang.Inspect
import Slang.Session
import Slang.Token.Backward
import Slang.Main
import Slang.Proofs.Linking
import Slang.Proofs.Tokenization
import Slang.Proofs.Redrawing
import Slang.Proofs.Adequacy
import Slang.Proofs.Sessions
import Slang.Proofs.Reordering
import Slang.Proofs.Bracketing
import Slang.Proofs.CommandLine
import Slang.Proofs.Coherence
import Slang.Proofs.Violations
import Slang.Proofs.Locality
import Slang.Proofs.ErrorPlaces
import Slang.Proofs.Seams
import Slang.Proofs.Headers
import Slang.Proofs.Nesting
import Slang.Proofs.Framing
import Slang.Proofs.Absence
import Slang.Proofs.Positions
import Slang.Proofs.Isolation
import Slang.Proofs.Registration
import Slang.Proofs.Display
import Slang.Proofs.Joining
import Slang.Proofs.Lexemes
import Slang.Proofs.Places
import Slang.Proofs.Cursor
import Slang.Proofs.Writes
