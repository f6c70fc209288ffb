import Notebook.Main
import Notebook.Proofs.BracketPairs
import Notebook.Proofs.CalledResults
import Notebook.Proofs.Confinement
import Notebook.Proofs.CursorPlaces
import Notebook.Proofs.DeclaredResults
import Notebook.Proofs.DisplayedValues
import Notebook.Proofs.FunctionDeclarations
import Notebook.Proofs.ImpliedSemicolons
import Notebook.Proofs.ProbedCalls
import Notebook.Proofs.Restart
import Notebook.Proofs.SinglePersistence
import Notebook.Proofs.StatementPartition
import Notebook.Proofs.TurnGroups
import Notebook.Proofs.UnusedBindings
import Notebook.Proofs.WrittenReports
import Notebook.Toolchain.Scripted
