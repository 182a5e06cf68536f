import Lox.Main
import Lox.Proofs.Grammar.Bodies
import Lox.Proofs.Grammar.Resuming
import Lox.Proofs.Grammar.Writing
import Lox.Proofs.Machine.Depth
import Lox.Proofs.Machine.Diagnosis
import Lox.Proofs.Machine.Identity
import Lox.Proofs.Machine.Isolation
import Lox.Proofs.Machine.Jumps
import Lox.Proofs.Machine.Layout
import Lox.Proofs.Machine.Loops
import Lox.Proofs.Machine.Readback
import Lox.Proofs.Machine.Roots
import Lox.Proofs.Machine.Truncation
import Lox.Proofs.Machine.WellFormed
import Lox.Proofs.Source.Lines
import Lox.Proofs.Source.Literals
import Lox.Proofs.Source.Spacing
import Lox.Proofs.Terminal.Color
import Lox.Proofs.Terminal.Script
import Lox.Proofs.Terminal.Session
import Lox.Proofs.Tree.Distinction
