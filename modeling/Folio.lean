import Folio.Cli.Main
import Folio.Editor.Encoding
import Folio.Editor.Session
import Folio.Proofs.Markup.Whitespace
import Folio.Proofs.Scheduler.Ordering
import Folio.Proofs.Session.Preview
import Folio.Proofs.History.Zipper
import Folio.Proofs.Session.UndoRedo
import Folio.Proofs.Region.Places
import Folio.Proofs.Markup.Marks
import Folio.Proofs.Region.Parts
import Folio.Proofs.Region.Content
import Folio.Proofs.Markup.Spans
import Folio.Proofs.Markup.ReadContent
import Folio.Proofs.Markup.InlineSpans
import Folio.Proofs.Text.Divide
import Folio.Proofs.Markup.LinePieces
import Folio.Proofs.Markup.BlockSpans
import Folio.Proofs.Markup.ContainerSpans
import Folio.Proofs.Markup.Strip
import Folio.Proofs.Markup.DocumentSpans
import Folio.Proofs.Render.Failures
import Folio.Proofs.Render.Stock
import Folio.Proofs.Markup.BlockAgreement
import Folio.Proofs.Markup.StrippedBlocks
import Folio.Proofs.Markup.StrippedContainers
import Folio.Proofs.Markup.Prose
import Folio.Proofs.Render.Prose
import Folio.Proofs.Markup.Reading
import Folio.Proofs.Markup.LineReading
import Folio.Proofs.Markup.BlockReading
import Folio.Proofs.Markup.Alike
import Folio.Proofs.Markup.BlocksAlike
import Folio.Proofs.Markup.EndedBlocks
import Folio.Proofs.Markup.Nesting
import Folio.Proofs.Markup.Quoting
import Folio.Proofs.Session.Buttons
import Folio.Proofs.Render.Checks
import Folio.Proofs.Render.Escaping
import Folio.Proofs.Storage.Histories
import Folio.Proofs.Editor.BlockCommands
import Folio.Proofs.Markup.Protection
import Folio.Proofs.Session.Saving
import Folio.Proofs.Markup.Layout
import Folio.Proofs.Region.SourceMap
import Folio.Proofs.Region.Segments
import Folio.Proofs.Markup.CarriageReturns
import Folio.Proofs.Editor.Additions
import Folio.Proofs.Markup.Continuations
import Folio.Proofs.Markup.WidgetTrees
import Folio.Proofs.Markup.FencedBodies
import Folio.Proofs.Render.BracedValues
import Folio.Proofs.Editor.UploadedImages
import Folio.Proofs.Markup.ExportedMetadata
import Folio.Proofs.Markup.MetadataAgreement
import Folio.Proofs.Render.FencedCode
import Folio.Proofs.Markup.Underscores
import Folio.Proofs.Markup.MarkedItems
import Folio.Proofs.Markup.TightLists
import Folio.Proofs.Session.CommandUndo
import Folio.Proofs.Session.Bursts
import Folio.Proofs.Scheduler.QuietPeriods
import Folio.Proofs.Markup.UnusedMarks
import Folio.Proofs.Session.Refusals
import Folio.Proofs.Render.Containment
import Folio.Proofs.Render.References
import Folio.Proofs.Markup.LeafFaults
import Folio.Proofs.Markup.NestedRegions
import Folio.Proofs.Markup.NestingCounter
import Folio.Proofs.Markup.FenceEnds
import Folio.Proofs.Markup.Lookahead
import Folio.Proofs.Markup.Tiling
