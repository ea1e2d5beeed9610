import LispKit.Main
import LispKit.Proofs.Automaton.Precedence
import LispKit.Proofs.Automaton.States
import LispKit.Proofs.Grammar.Following
import LispKit.Proofs.Grammar.Refused
import LispKit.Proofs.Lisp.Definitions
import LispKit.Proofs.Lisp.Keys
import LispKit.Proofs.Lisp.Layout
import LispKit.Proofs.Lisp.Recursion
import LispKit.Proofs.Lisp.TypeChecks
import LispKit.Proofs.Lisp.Verbose
import LispKit.Proofs.Parser.Accepts
import LispKit.Proofs.Parser.Counted
import LispKit.Proofs.Parser.Forever
import LispKit.Proofs.Parser.Lookahead
import LispKit.Proofs.Scanner.Division
import LispKit.Proofs.Scanner.Progress
import LispKit.Proofs.Scanner.Saved
import LispKit.Scanner.Behaviour
import LispKit.Scanner.Session
