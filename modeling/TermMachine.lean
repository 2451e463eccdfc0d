import TermMachine.Main
import TermMachine.Proofs.Machine.Decision
import TermMachine.Proofs.Tree.Closure
import TermMachine.Proofs.Heap.Unfolding
import TermMachine.Proofs.Heap.AppendOnly
import TermMachine.Proofs.Heap.Congruence
import TermMachine.Proofs.Machine.Answer
import TermMachine.Proofs.Machine.Independence
import TermMachine.Proofs.Machine.Naming
import TermMachine.Proofs.Machine.Reset
import TermMachine.Proofs.Machine.WriteMode
import TermMachine.Proofs.Machine.Spelling
import TermMachine.Proofs.Session.Dialogue
import TermMachine.Proofs.Source.Position
import TermMachine.Proofs.Machine.Footprint
import TermMachine.Proofs.Machine.Faithful
import TermMachine.Proofs.Heap.Idempotence
import TermMachine.Proofs.Heap.Symmetry
import TermMachine.Proofs.Heap.Rebinding
import TermMachine.Proofs.Machine.CodeZone
import TermMachine.Proofs.Source.Expectation
import TermMachine.Proofs.Machine.Visits
import TermMachine.Proofs.Session.Agreement
import TermMachine.Proofs.Session.Answer
