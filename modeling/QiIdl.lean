import QiIdl.Main
import QiIdl.Proofs.Package.Reports
import QiIdl.Proofs.Cpp.Agreement
import QiIdl.Proofs.Format.Connections
import QiIdl.Proofs.Grammar.Recovery
import QiIdl.Proofs.Token.Structure
import QiIdl.Proofs.Format.Literals
import QiIdl.Proofs.Ast.Documentation
import QiIdl.Proofs.Package.Aliases
import QiIdl.Proofs.Package.Histories
import QiIdl.Proofs.Doc.Entries
import QiIdl.Proofs.Cpp.Sharing
import QiIdl.Proofs.Cpp.Inheritance
import QiIdl.Proofs.Cpp.Parameters
import QiIdl.Proofs.Output.Lines
import QiIdl.Proofs.Cpp.Guards
import QiIdl.Proofs.Cpp.Comments
import QiIdl.Proofs.Format.Brackets
import QiIdl.Proofs.Ast.Visits
import QiIdl.Proofs.Source.Positions
import QiIdl.Proofs.Compile.Paths
