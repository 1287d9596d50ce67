import UnicodeTables.Database
import UnicodeTables.Json
import UnicodeTables.Proofs.Builders
import UnicodeTables.Proofs.CodePoint.Canonical
import UnicodeTables.Proofs.DataFile.Normalized
import UnicodeTables.Proofs.Laziness
import UnicodeTables.Proofs.PairingRuns
import UnicodeTables.Proofs.RegexTest.Groups
import UnicodeTables.Proofs.RegexTest.SpelledOut
import UnicodeTables.Proofs.SkippedLines
import UnicodeTables.RegexTest.File
import UnicodeTables.Proofs.Text.IllFormed
import UnicodeTables.Proofs.TextByLine
import UnicodeTables.Proofs.CleanRecords
import UnicodeTables.Proofs.Stopping
import UnicodeTables.Proofs.Ranges
import UnicodeTables.Proofs.RecordOrder
import UnicodeTables.Proofs.LogMessages
import UnicodeTables.Proofs.RecordSupply
import UnicodeTables.Proofs.CodePoint.Checks
import UnicodeTables.Proofs.RegexTest.Passes
import UnicodeTables.Proofs.LocatedFaults
