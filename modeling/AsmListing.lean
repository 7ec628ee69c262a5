import AsmListing.Json.Model
import AsmListing.Json.Settings
import AsmListing.Json.Writer
import AsmListing.Listing.Machine
import AsmListing.Listing.Operation
import AsmListing.Proofs.LineIndex
import AsmListing.Proofs.Rows
import AsmListing.Proofs.Layout
import AsmListing.Proofs.Navigation
import AsmListing.Proofs.StoredComments
import AsmListing.Proofs.CommentsBeside
import AsmListing.Proofs.CommentsAbove
import AsmListing.Proofs.JoinedBuffer
import AsmListing.Proofs.Growth
import AsmListing.Proofs.LineFeeds
import AsmListing.Proofs.Presentation
import AsmListing.Proofs.RawImage
import AsmListing.Proofs.NamingRules
import AsmListing.Proofs.OperandLabels
import AsmListing.Proofs.AppendOnly
import AsmListing.Proofs.Boundaries
import AsmListing.Proofs.Position
import AsmListing.Proofs.Needs
import AsmListing.Proofs.Frame
import AsmListing.Proofs.MissingHooks
import AsmListing.Proofs.ColoredText
import AsmListing.Proofs.WrittenJson
import AsmListing.Proofs.JsonForms
import AsmListing.Proofs.TagHistory
import AsmListing.Proofs.Transcript
import AsmListing.Proofs.Nesting
import AsmListing.Proofs.SpelledJson
import AsmListing.Proofs.PartialSettings
import AsmListing.Proofs.EscapedText
import AsmListing.Proofs.Literals
import AsmListing.Proofs.NumberParts
import AsmListing.Proofs.Echoes
import AsmListing.Proofs.MemoryOperands
import AsmListing.Proofs.NoreturnRemarks
import AsmListing.Proofs.ElidedInstructions
import AsmListing.Proofs.SectionRange
import AsmListing.Proofs.LocalVariables
import AsmListing.Proofs.OperandTexts
