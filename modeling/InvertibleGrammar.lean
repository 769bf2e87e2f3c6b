import InvertibleGrammar.Proofs.BoundedLoops
import InvertibleGrammar.Proofs.BoundedRuns
import InvertibleGrammar.Proofs.CanonicalNumerals
import InvertibleGrammar.Proofs.Causes
import InvertibleGrammar.Proofs.CheckedJoin
import InvertibleGrammar.Proofs.Concatenation
import InvertibleGrammar.Proofs.CountIntervals
import InvertibleGrammar.Proofs.FaithfulLogs
import InvertibleGrammar.Proofs.FieldLists
import InvertibleGrammar.Proofs.FurthestPositions
import InvertibleGrammar.Proofs.GroupedChoices
import InvertibleGrammar.Proofs.IllFormedBytes
import InvertibleGrammar.Proofs.MaximalRuns
import InvertibleGrammar.Proofs.MoreInput
import InvertibleGrammar.Proofs.NumberLists
import InvertibleGrammar.Proofs.OptionalParts
import InvertibleGrammar.Proofs.Recordings
import InvertibleGrammar.Proofs.Refusals
import InvertibleGrammar.Proofs.Remainder
import InvertibleGrammar.Proofs.Reproduction
import InvertibleGrammar.Proofs.SeparatedLists
import InvertibleGrammar.Proofs.SpacedSheets
import InvertibleGrammar.Proofs.TextAndBytes
import InvertibleGrammar.Proofs.TextCuts
import InvertibleGrammar.Proofs.UserSheets
import InvertibleGrammar.Proofs.WritableRuns
import InvertibleGrammar.Text.Quoted
