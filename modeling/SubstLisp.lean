import SubstLisp.CommandLine.Command
import SubstLisp.CommandLine.Options
import SubstLisp.CommandLine.Output
import SubstLisp.CommandLine.Script
import SubstLisp.CommandLine.Session
import SubstLisp.Computation
import SubstLisp.Definition
import SubstLisp.Environment
import SubstLisp.Error
import SubstLisp.Evaluation
import SubstLisp.Event
import SubstLisp.Form.Basic
import SubstLisp.Form.Copy
import SubstLisp.Form.Diagnosis
import SubstLisp.Form.Printer
import SubstLisp.Form.Reader
import SubstLisp.Form.Scanner
import SubstLisp.Form.Substitution
import SubstLisp.Form.Template
import SubstLisp.Host
import SubstLisp.Json.Basic
import SubstLisp.Json.Binary64
import SubstLisp.Json.Reader
import SubstLisp.Json.Writer
import SubstLisp.Machine
import SubstLisp.Main
import SubstLisp.Operator
import SubstLisp.Program
import SubstLisp.Proofs.Arguments
import SubstLisp.Proofs.Calculation
import SubstLisp.Proofs.Completion
import SubstLisp.Proofs.Copies
import SubstLisp.Proofs.Cutoff
import SubstLisp.Proofs.DepthLimit
import SubstLisp.Proofs.Excerpts
import SubstLisp.Proofs.Flags
import SubstLisp.Proofs.Footprint
import SubstLisp.Proofs.Grammar
import SubstLisp.Proofs.History
import SubstLisp.Proofs.Hosts
import SubstLisp.Proofs.JsonText
import SubstLisp.Proofs.JsonTrees
import SubstLisp.Proofs.Labelling
import SubstLisp.Proofs.Letters
import SubstLisp.Proofs.Lines
import SubstLisp.Proofs.Linked
import SubstLisp.Proofs.Nesting
import SubstLisp.Proofs.Normalisation
import SubstLisp.Proofs.Notes
import SubstLisp.Proofs.Numerals
import SubstLisp.Proofs.OneLine
import SubstLisp.Proofs.Operands
import SubstLisp.Proofs.Pieces
import SubstLisp.Proofs.Policies
import SubstLisp.Proofs.Printed
import SubstLisp.Proofs.Propagation
import SubstLisp.Proofs.Readable
import SubstLisp.Proofs.Reference
import SubstLisp.Proofs.Refusals
import SubstLisp.Proofs.Relabelling
import SubstLisp.Proofs.Scanning
import SubstLisp.Proofs.Sessions
import SubstLisp.Proofs.Simulation
import SubstLisp.Proofs.Symbols
import SubstLisp.Proofs.Templates
import SubstLisp.Proofs.Transcripts
import SubstLisp.Proofs.Twins
import SubstLisp.Proofs.View
import SubstLisp.Proofs.Watching
import SubstLisp.Proofs.Window
import SubstLisp.Proofs.Workbench
import SubstLisp.Proofs.Workspace
import SubstLisp.Table
import SubstLisp.Text.Blank
import SubstLisp.Text.Excerpt
import SubstLisp.Text.Numeral
import SubstLisp.Value.Basic
import SubstLisp.Value.Json
