import StackScript.Main
import StackScript.Proofs.Code.ConstantPools
import StackScript.Proofs.Code.LineBreaks
import StackScript.Proofs.Code.LocalNames
import StackScript.Proofs.Code.Precedence
import StackScript.Proofs.Code.Stages
import StackScript.Proofs.Code.TokenLines
import StackScript.Proofs.Code.Written
import StackScript.Proofs.Compiler.ErrorLines
import StackScript.Proofs.Compiler.Layout
import StackScript.Proofs.Compiler.Nesting
import StackScript.Proofs.Compiler.Outcome
import StackScript.Proofs.Compiler.Recovery
import StackScript.Proofs.Scanning.Keywords
import StackScript.Proofs.Scanning.StringLiteral
import StackScript.Proofs.Semantics.Interpret
import StackScript.Proofs.Semantics.Session
import StackScript.Proofs.Machine.Balance
import StackScript.Proofs.Machine.Concatenation
import StackScript.Proofs.Machine.Cut
import StackScript.Proofs.Machine.Deeper
import StackScript.Proofs.Machine.Isolation
import StackScript.Proofs.Machine.Jumps
import StackScript.Proofs.Machine.LineByLine
import StackScript.Proofs.Machine.PrintedNumber
import StackScript.Proofs.Machine.Rejected
import StackScript.Proofs.Machine.Safety
import StackScript.Proofs.Machine.Strings
import StackScript.Proofs.Machine.Trace
import StackScript.Proofs.Machine.Unwatched
import StackScript.Proofs.Number.Format
import StackScript.Proofs.Number.LongestNumber
