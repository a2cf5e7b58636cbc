import AssetSlots.Glob.Language
import AssetSlots.Main
import AssetSlots.Command.Run
import AssetSlots.Proofs.Text.Stripped
import AssetSlots.Proofs.Slot.Marker
import AssetSlots.Proofs.Slot.Fill
import AssetSlots.Proofs.Slot.Expansion
import AssetSlots.Proofs.Slot.Removal
import AssetSlots.Proofs.Slot.Absence
import AssetSlots.Proofs.Pipeline.Passes
import AssetSlots.Proofs.Pipeline.AtOnce
import AssetSlots.Proofs.Pipeline.Stability
import AssetSlots.Proofs.Pipeline.Chunks
import AssetSlots.Proofs.Slot.LastLine
import AssetSlots.Proofs.Slot.LineEnds
import AssetSlots.Proofs.Slot.Commute
import AssetSlots.Proofs.Pipeline.Order
import AssetSlots.Proofs.Fallible
import AssetSlots.Proofs.Lists
import AssetSlots.Proofs.Pipeline.Discovery
import AssetSlots.Proofs.Config.Acceptance
import AssetSlots.Proofs.Config.Nearest
import AssetSlots.Proofs.Command.Agreement
import AssetSlots.Proofs.Command.Effects
import AssetSlots.Proofs.Rule.Fields
import AssetSlots.Proofs.RuleSet.Overlay
import AssetSlots.Proofs.RuleSet.Layers
import AssetSlots.Proofs.Glob.Grammar
import AssetSlots.Proofs.MountTable.Steps
import AssetSlots.Proofs.MountTable.Calls
import AssetSlots.Proofs.Template.Places
import AssetSlots.Proofs.Template.Cutting
import AssetSlots.Proofs.Template.Insertion
import AssetSlots.Proofs.Site.Building
import AssetSlots.Proofs.Glob.Matching
import AssetSlots.Proofs.Disk.Entries
import AssetSlots.Proofs.Folder.Listing
import AssetSlots.Proofs.Folder.Hidden
import AssetSlots.Proofs.Mount.Identity
import AssetSlots.Proofs.Site.Exposure
import AssetSlots.Proofs.MountTable.Declarations
import AssetSlots.Proofs.Config.Validity
import AssetSlots.Proofs.Mount.NormalForm
import AssetSlots.Proofs.RuleSet.History
import AssetSlots.Proofs.Injector.Origin
import AssetSlots.Proofs.Response.MediaType
import AssetSlots.Proofs.Site.Processing
import AssetSlots.Proofs.Disk.Naming
import AssetSlots.Proofs.Command.Watching
import AssetSlots.Proofs.Command.Reachable
