import Playbook.Main
import Playbook.Proofs.EventGrammar
import Playbook.Proofs.Reading
import Playbook.Proofs.EventFault
import Playbook.Proofs.EventRun
import Playbook.Proofs.Composing
import Playbook.Proofs.DocumentFault
import Playbook.Proofs.NodeGraph
import Playbook.Proofs.StreamOfText
import Playbook.Proofs.NodeValue
import Playbook.Proofs.Trail
import Playbook.Proofs.Rendering
import Playbook.Proofs.ScalarText
import Playbook.Proofs.ScalarValue
import Playbook.Proofs.TokenQueue
import Playbook.Proofs.TokenView
import Playbook.Proofs.TokenScan
import Playbook.Proofs.FlowScan
import Playbook.Proofs.BlockScan
import Playbook.Proofs.RenderedTokens
import Playbook.Proofs.EventView
import Playbook.Proofs.RenderedEvents
import Playbook.Proofs.ComposedValue
import Playbook.Proofs.RoundTrip
import Playbook.Proofs.RepairLoop
import Playbook.Proofs.CursorIndependence
import Playbook.Proofs.TokenOrder
import Playbook.Proofs.EventOrder
import Playbook.Proofs.Place
import Playbook.Proofs.SpanNesting
import Playbook.Proofs.TrailPath
import Playbook.Proofs.AnchorScope
import Playbook.Proofs.Anchoring
import Playbook.Proofs.Loop
import Playbook.Proofs.ScanLoops
import Playbook.Proofs.TokenBudget
import Playbook.Proofs.LookAhead
import Playbook.Proofs.ScanEnd
import Playbook.Proofs.LineBreaks
import Playbook.Proofs.Pairing
import Playbook.Proofs.Bare
import Playbook.Proofs.MirroredReading
import Playbook.Proofs.MirroredTokens
import Playbook.Proofs.TokenPositions
import Playbook.Proofs.BareEvents
import Playbook.Proofs.BareNodes
import Playbook.Proofs.LineEndings
import Playbook.Proofs.OpenFiles
import Playbook.Proofs.MergeKeys
import Playbook.Proofs.Peeking
import Playbook.Proofs.ScanOutcome
import Playbook.Proofs.ParseOutcome
import Playbook.Proofs.StreamsInUse
import Playbook.Proofs.TokenPlaces
import Playbook.Proofs.EventPlaces
import Playbook.Proofs.NodePlaces
import Playbook.Proofs.RepairPlaces
import Playbook.Proofs.Classification
import Playbook.Proofs.OpenQuote
import Playbook.Proofs.RepairLines
import Playbook.Proofs.TokenFault
import Playbook.Proofs.MissingColon
import Playbook.Proofs.PendingKeys
import Playbook.Proofs.FollowedReading
import Playbook.Proofs.KeyWords
import Playbook.Proofs.TopLevelKinds
import Playbook.Proofs.NameOrder
import Playbook.Proofs.CandidateSet
import Playbook.Proofs.EscapeCodes
import Playbook.Proofs.QuotedRoundTrip
import Playbook.Proofs.NumberPatterns
import Playbook.Proofs.Numerals
import Playbook.Proofs.LiteralRoundTrip
import Playbook.Proofs.PlainFolding
import Playbook.Proofs.SignedRange
import Playbook.Proofs.BlockProgress
import Playbook.Proofs.EditorPlaces
import Playbook.Proofs.ByteOrderMark
import Playbook.Proofs.DocumentationText
import Playbook.Proofs.ParameterCache
import Playbook.Proofs.RepairBounds
import Playbook.Proofs.ShownOrder
import Playbook.Proofs.LineStart
import Playbook.Proofs.FetchActs
import Playbook.Proofs.KeyNumbers
import Playbook.Proofs.OpenBlocks
import Playbook.Proofs.DocumentSigns
import Playbook.Proofs.OpenCollections
