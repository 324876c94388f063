import PlatformGate.Outcome
import PlatformGate.Token.Cursor
import PlatformGate.Proofs.Grammar.Accepts
import PlatformGate.Proofs.Query.Contract
import PlatformGate.Proofs.Arena.Places
import PlatformGate.Proofs.Session.Alike
import PlatformGate.Proofs.Account.Entries
import PlatformGate.Proofs.Session.Limits
import PlatformGate.Proofs.Report.Kept
import PlatformGate.Proofs.Names.Interning
import PlatformGate.Proofs.Lexing.Numbers
import PlatformGate.Proofs.Cost.Bounds
import PlatformGate.Proofs.Writing.ReadsBack
import PlatformGate.Proofs.Tiling.Tiles
import PlatformGate.Proofs.Joining.Resumes
import PlatformGate.Proofs.Joining.Clean
import PlatformGate.Proofs.Joining.Inside
import PlatformGate.Proofs.Nesting.Lines
import PlatformGate.Proofs.Arena.Planting
import PlatformGate.Proofs.Recovery.Misuse
import PlatformGate.Proofs.Recovery.Statements
import PlatformGate.Proofs.Recovery.Braces
import PlatformGate.Proofs.Recovery.Scans
import PlatformGate.Proofs.Printing.Lines
import PlatformGate.Proofs.Lexing.Respaced
import PlatformGate.Proofs.Lexing.Munch
import PlatformGate.Proofs.Brackets.Blames
import PlatformGate.Proofs.Grouping.Outcomes
import PlatformGate.Proofs.Writing.Broken
import PlatformGate.Proofs.Building.Outcomes
