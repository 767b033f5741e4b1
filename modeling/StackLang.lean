import StackLang.CommandLine
import StackLang.Fingerprint
import StackLang.Json
import StackLang.Machine.Request
import StackLang.Main
import StackLang.Report
import StackLang.Workload
import StackLang.Proofs.Course
import StackLang.Proofs.Layout
import StackLang.Proofs.Loop
import StackLang.Proofs.FunctionEnd
import StackLang.Proofs.LoopExit
import StackLang.Proofs.Exchange
import StackLang.Proofs.Declaration
import StackLang.Proofs.Loading
import StackLang.Proofs.Address
import StackLang.Proofs.Source
import StackLang.Proofs.SourceCode
import StackLang.Proofs.Execution
import StackLang.Proofs.Simulation
import StackLang.Proofs.Compilation
import StackLang.Proofs.RoundTrip
import StackLang.Proofs.NestedRun
import StackLang.Proofs.Literal
import StackLang.Proofs.Parsing
import StackLang.Proofs.Origin
import StackLang.Proofs.Faithful
import StackLang.Proofs.Naming
import StackLang.Proofs.Activation
import StackLang.Proofs.Callee
import StackLang.Proofs.ScalarExpression
import StackLang.Proofs.NestedBlock
import StackLang.Proofs.Gain
import StackLang.Proofs.Account
import StackLang.Proofs.Boundary
import StackLang.Proofs.Balance
import StackLang.Proofs.Completion
import StackLang.Proofs.ScopeEnd
import StackLang.Proofs.Renaming
import StackLang.Proofs.Resolution
import StackLang.Proofs.Spelling
import StackLang.Proofs.Coverage
import StackLang.Proofs.Spacing
import StackLang.Proofs.Precedence
import StackLang.Proofs.Closing
import StackLang.Proofs.Recorder
import StackLang.Proofs.Keeping
import StackLang.Proofs.Recording
import StackLang.Proofs.Context
import StackLang.Proofs.Opening
import StackLang.Proofs.OutputFile
import StackLang.Proofs.Conversion
import StackLang.Proofs.ListBlock
import StackLang.Proofs.ListLiteral
import StackLang.Proofs.IndexForm
import StackLang.Proofs.ElementPath
import StackLang.Proofs.Expression
import StackLang.Proofs.StoredWidth
import StackLang.Proofs.Deposit
import StackLang.Proofs.ReservedSize
import StackLang.Proofs.ListCell
import StackLang.Proofs.ListAppend
import StackLang.Proofs.BlockView
import StackLang.Proofs.ListRemoval
import StackLang.Proofs.ListSlice
import StackLang.Proofs.Transfer
import StackLang.Proofs.TextJoin
import StackLang.Proofs.ListExtreme
import StackLang.Proofs.LetterCase
import StackLang.Proofs.ItemText
import StackLang.Proofs.StoredItem
import StackLang.Proofs.FilePart
import StackLang.Proofs.Appending
import StackLang.Proofs.Fuel
import StackLang.Proofs.OperatorSpacing
import StackLang.Proofs.TokenLine
import StackLang.Proofs.EscapedText
import StackLang.Proofs.ListTyping
import StackLang.Proofs.RepeatedRenaming
import StackLang.Proofs.Regeneration
import StackLang.Proofs.CastArgument
import StackLang.Proofs.ArrayBound
import StackLang.Proofs.Reservation
