import LiveSheet.Proofs.Appending
import LiveSheet.Proofs.ArgumentCounts
import LiveSheet.Proofs.Balance
import LiveSheet.Proofs.Completion
import LiveSheet.Proofs.Conservation
import LiveSheet.Proofs.Debouncing
import LiveSheet.Proofs.Departures
import LiveSheet.Proofs.Descent
import LiveSheet.Proofs.Display
import LiveSheet.Proofs.FunctionNames
import LiveSheet.Proofs.Headers
import LiveSheet.Proofs.Incidence
import LiveSheet.Proofs.Inlining
import LiveSheet.Proofs.Loading
import LiveSheet.Proofs.LongestMatch
import LiveSheet.Proofs.Oversized
import LiveSheet.Proofs.ReadingBack
import LiveSheet.Proofs.Relevance
import LiveSheet.Proofs.Removals
import LiveSheet.Proofs.Renaming
import LiveSheet.Proofs.Repairs
import LiveSheet.Proofs.Respelling
import LiveSheet.Proofs.RoundTrip
import LiveSheet.Proofs.SinglePass
import LiveSheet.Proofs.Slots
import LiveSheet.Proofs.Spreading
import LiveSheet.Proofs.StackValues
import LiveSheet.Proofs.Tour
import LiveSheet.Proofs.Validation
import LiveSheet.Proofs.WellNested
import LiveSheet.Registry.Standard
import LiveSheet.Value.Json
import LiveSheet.Value.JsonReader
import LiveSheet.Workspace
