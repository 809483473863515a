import TestOrchestrator.Definition.Json
import TestOrchestrator.Main
import TestOrchestrator.Compilation
import TestOrchestrator.GroupRun
import TestOrchestrator.Proofs.Selectable
import TestOrchestrator.Proofs.Members
import TestOrchestrator.Proofs.Recording
import TestOrchestrator.Proofs.Merging
import TestOrchestrator.Proofs.Units
import TestOrchestrator.Proofs.Termination
import TestOrchestrator.Proofs.History
import TestOrchestrator.Proofs.Precedence
import TestOrchestrator.Proofs.Bookkeeping
import TestOrchestrator.Proofs.Accounts
import TestOrchestrator.Proofs.Directives
import TestOrchestrator.Proofs.Inclusion
import TestOrchestrator.Proofs.OpenFiles
import TestOrchestrator.Proofs.ReadBack.Places
import TestOrchestrator.Proofs.ReadBack.QuotedText
import TestOrchestrator.Proofs.ReadBack.PlainText
import TestOrchestrator.Proofs.ReadBack.BlockText
import TestOrchestrator.Proofs.ReadBack.Reading
import TestOrchestrator.Proofs.ReadBack.Marks
import TestOrchestrator.Proofs.ReadBack.Words
import TestOrchestrator.Proofs.ReadBack.Encoding
import TestOrchestrator.Proofs.ReadBack.Tags
import TestOrchestrator.Proofs.ReadBack.Numbers
import TestOrchestrator.Proofs.ReadBack.Leaves
import TestOrchestrator.Proofs.ReadBack.Keys
import TestOrchestrator.Proofs.ReadBack.Printed
import TestOrchestrator.Proofs.ReadBack.Lexing
import TestOrchestrator.Proofs.ReadBack.Characters
import TestOrchestrator.Proofs.ReadBack.Parsing
import TestOrchestrator.Proofs.ReadBack.Fields
import TestOrchestrator.Proofs.ReadBack.Scalars
import TestOrchestrator.Proofs.ReadBack.Mirroring
import TestOrchestrator.Proofs.Unchanged
import TestOrchestrator.Proofs.Expanded
import TestOrchestrator.Proofs.Repetition
import TestOrchestrator.Proofs.ReadBack.Digits
import TestOrchestrator.Proofs.JsonText.Strings
import TestOrchestrator.Proofs.JsonText.Numerals
import TestOrchestrator.Proofs.JsonText.Values
import TestOrchestrator.Proofs.Markup.Reader
import TestOrchestrator.Proofs.Markup.Document
import TestOrchestrator.Proofs.Transcript
import TestOrchestrator.Proofs.Renderings
import TestOrchestrator.Proofs.Invariance
import TestOrchestrator.Proofs.InOrder
import TestOrchestrator.Proofs.Losses
import TestOrchestrator.Proofs.Results
import TestOrchestrator.Proofs.Blame
import TestOrchestrator.Proofs.Reordering
import TestOrchestrator.Proofs.Faults
import TestOrchestrator.Proofs.Searching
import TestOrchestrator.Proofs.SearchPath
import TestOrchestrator.Proofs.Overriding
import TestOrchestrator.Proofs.Texts
import TestOrchestrator.Proofs.Markup.Characters
import TestOrchestrator.Proofs.Markup.Normalization
import TestOrchestrator.Proofs.Markup.Passes
import TestOrchestrator.Proofs.Markup.Recovery
import TestOrchestrator.Proofs.Moments
import TestOrchestrator.Proofs.Decoding
import TestOrchestrator.Proofs.Printouts
import TestOrchestrator.Proofs.Rounding
import TestOrchestrator.Proofs.JsonText.Doubles
import TestOrchestrator.Proofs.Absorption
import TestOrchestrator.Proofs.Consistency
import TestOrchestrator.Proofs.RoundTrip
import TestOrchestrator.Proofs.Judgments
import TestOrchestrator.Proofs.SuiteArgument
import TestOrchestrator.Proofs.Exports
import TestOrchestrator.Proofs.Walks
import TestOrchestrator.Proofs.Tallies
