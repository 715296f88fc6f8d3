import TensorTree.Dump
import TensorTree.Forest.Reachable
import TensorTree.Forest.Shape
import TensorTree.Ledger
import TensorTree.LineTable
import TensorTree.Node.Summary
import TensorTree.Print.Expansion
import TensorTree.Print.Settings
import TensorTree.Proofs.Expr.Affixes
import TensorTree.Proofs.Expr.Powers
import TensorTree.Proofs.Expr.Unique
import TensorTree.Proofs.Forest.Admission
import TensorTree.Proofs.Forest.Answers
import TensorTree.Proofs.Forest.Cycles
import TensorTree.Proofs.Forest.Ends
import TensorTree.Proofs.Forest.Frame
import TensorTree.Proofs.Forest.Nesting
import TensorTree.Proofs.Forest.Typing
import TensorTree.Proofs.Forest.Walks
import TensorTree.Proofs.Json.Dump
import TensorTree.Proofs.Ledger
import TensorTree.Proofs.Location.Offsets
import TensorTree.Proofs.Print.Dense
import TensorTree.Proofs.Print.Floats
import TensorTree.Proofs.Print.Layout
import TensorTree.Proofs.Print.Notes
import TensorTree.Proofs.Stmt.Unique
import TensorTree.Proofs.Token.Calls
import TensorTree.Proofs.Token.Comments
import TensorTree.Proofs.Token.Cover
import TensorTree.Proofs.Token.Lines
import TensorTree.Proofs.Token.Place
import TensorTree.Proofs.Token.Rescan
import TensorTree.Text.Pattern.Lemmas
import TensorTree.Token.Scanner
import TensorTree.Version
