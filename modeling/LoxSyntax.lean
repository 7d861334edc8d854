import LoxSyntax.Trace
import LoxSyntax.TextCursor
import LoxSyntax.TextSession
import LoxSyntax.Main
import LoxSyntax.Proofs.Fences
import LoxSyntax.Proofs.FirstFaults
import LoxSyntax.Proofs.Items
import LoxSyntax.Proofs.Places
import LoxSyntax.Proofs.LongestMatch
import LoxSyntax.Proofs.Layout
import LoxSyntax.Proofs.Moves
import LoxSyntax.Proofs.Respacing
import LoxSyntax.Proofs.Regions
import LoxSyntax.Proofs.Mending
import LoxSyntax.Proofs.Linebreaks
import LoxSyntax.Proofs.StatementWords
import LoxSyntax.Proofs.FaultOrder
import LoxSyntax.Proofs.InputLines
import LoxSyntax.Proofs.PromptLines
import LoxSyntax.Lexing
import LoxSyntax.TokenTape
import LoxSyntax.Machine
import LoxSyntax.Session
import LoxSyntax.Proofs.Terminators
import LoxSyntax.Proofs.Heights
import LoxSyntax.Proofs.Tapes
import LoxSyntax.Proofs.Machines
import LoxSyntax.Proofs.Sessions
import LoxSyntax.Proofs.Traces
import LoxSyntax.Proofs.Renderings
import LoxSyntax.Proofs.NestingLimits
import LoxSyntax.Proofs.Respelling
import LoxSyntax.Proofs.Rereading
import LoxSyntax.Proofs.TextCursors
import LoxSyntax.Proofs.RuleContracts
import LoxSyntax.Proofs.Progress
