import Abacus.Grammar.Complete
import Abacus.Lexeme.Language
import Abacus.Run
import Abacus.Proofs.Lexeme.Extent
import Abacus.Proofs.Lexeme.MaximalMunch
import Abacus.Proofs.Grammar.Exact
import Abacus.Proofs.Grammar.ViablePrefix
import Abacus.Proofs.Node.Bare
import Abacus.Proofs.Node.Shape
import Abacus.Proofs.Node.Spelling
import Abacus.Proofs.Node.RoundTrip
import Abacus.Proofs.Session.Alike
import Abacus.Proofs.Node.Alike
import Abacus.Proofs.Node.Faults
import Abacus.Proofs.Node.Lines
import Abacus.Proofs.Grammar.Rewriting
import Abacus.Proofs.Lexeme.Joined
import Abacus.Proofs.Lexeme.Layout
import Abacus.Proofs.Lexeme.Tiling
import Abacus.Proofs.Run.Joined
import Abacus.Proofs.Run.Reformatted
import Abacus.Proofs.Run.Respelt
import Abacus.Proofs.Node.Formula
import Abacus.Proofs.Node.Causes
import Abacus.Proofs.Run.Unfolded
import Abacus.Proofs.Run.Causes
import Abacus.Proofs.Sink.Delivery
import Abacus.Proofs.Session.Stepwise
import Abacus.Proofs.Cursor.Calls
import Abacus.Proofs.Node.Action
import Abacus.Proofs.Session.Atomic
import Abacus.Proofs.Run.Journal
import Abacus.Proofs.Node.Frame
import Abacus.Proofs.Grammar.Pieces
import Abacus.Proofs.Grammar.KeptTokens
import Abacus.Proofs.Node.Canonical
import Abacus.Proofs.Scope.History
import Abacus.Proofs.Node.Renaming
import Abacus.Proofs.Session.Commuting
import Abacus.Proofs.Value.Literals
import Abacus.Proofs.Error.Messages
