import Lox.Main
import Lox.Proofs.Frame.Walking
import Lox.Proofs.Grammar.Complete
import Lox.Proofs.Grammar.Faithful
import Lox.Proofs.Grammar.FollowOn
import Lox.Proofs.Grammar.Legible
import Lox.Proofs.Grammar.Origin
import Lox.Proofs.Grammar.Resuming
import Lox.Proofs.Lexical.Agreement
import Lox.Proofs.Loop.Desugaring
import Lox.Proofs.Machine.Discipline
import Lox.Proofs.Machine.Isolation
import Lox.Proofs.Machine.Provenance
import Lox.Proofs.Scope.Occurrences
import Lox.Proofs.Session.Blame
import Lox.Proofs.Session.GlobalNames
import Lox.Proofs.Session.Internal
import Lox.Proofs.Session.KnownNames
import Lox.Proofs.Session.Refused
import Lox.Proofs.Session.Returns
import Lox.Proofs.Session.Writes
import Lox.Proofs.Source.Blanking
import Lox.Proofs.Source.Nesting
import Lox.Syntax.Printer
