import Lox.Main
import Lox.Syntax.Equality
import Lox.Proofs.CommandLine.Prompting
import Lox.Proofs.Evaluation.ForLoop
import Lox.Proofs.Grammar.Blocks
import Lox.Proofs.Grammar.Boundaries
import Lox.Proofs.Grammar.Order
import Lox.Proofs.Grammar.Roles
import Lox.Proofs.Grammar.Termination
import Lox.Proofs.Scopes.Growth
import Lox.Proofs.Scopes.Reachability
import Lox.Proofs.Scopes.Restoration
import Lox.Proofs.Scopes.Sharing
import Lox.Proofs.Sessions.Completion
import Lox.Proofs.Sessions.Faults
import Lox.Proofs.Sessions.Layout
import Lox.Proofs.Sessions.Literals
import Lox.Proofs.Sessions.Parentheses
import Lox.Proofs.Sessions.Renaming
import Lox.Proofs.Sessions.Reporting
import Lox.Proofs.Source.Faults
import Lox.Proofs.Source.Lines
import Lox.Proofs.Source.Spacing
import Lox.Proofs.Source.Tiling
import Lox.Proofs.Syntax.Listings
import Lox.Proofs.Syntax.Programs
