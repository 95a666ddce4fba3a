import ModuleAssets.Main
import ModuleAssets.Proofs.Patch.Edits
import ModuleAssets.Proofs.Sorted
import ModuleAssets.Proofs.Patch.Splice
import ModuleAssets.Proofs.Patch.Positions
import ModuleAssets.Proofs.Patch.Order
import ModuleAssets.Proofs.Environment.Frames
import ModuleAssets.Proofs.Evaluate.Gives
import ModuleAssets.Proofs.Evaluate.Outcomes
import ModuleAssets.Proofs.Syntax.Place
import ModuleAssets.Proofs.Evaluate.Guard
import ModuleAssets.Proofs.Asset.Numbered
import ModuleAssets.Proofs.Asset.Names
import ModuleAssets.Proofs.Syntax.Binding
import ModuleAssets.Proofs.Asset.Keys
import ModuleAssets.Proofs.Syntax.Collected
import ModuleAssets.Proofs.Syntax.Resolution
import ModuleAssets.Proofs.Environment.Knowledge
import ModuleAssets.Proofs.Evaluate.Monotone
import ModuleAssets.Proofs.Evaluate.Concealed
import ModuleAssets.Proofs.Relocation.Flow
import ModuleAssets.Proofs.Relocation.Known
import ModuleAssets.Proofs.Path.Below
import ModuleAssets.Proofs.Relocation.Accepted
import ModuleAssets.Proofs.Relocation.Prepared
import ModuleAssets.Proofs.Relocation.Issued
import ModuleAssets.Proofs.Relocation.References
import ModuleAssets.Proofs.Asset.Content
import ModuleAssets.Proofs.Relocation.Scoped
import ModuleAssets.Proofs.Relocation.Captured
import ModuleAssets.Proofs.Relocation.Spelling
import ModuleAssets.Proofs.Asset.Inside
import ModuleAssets.Proofs.Path.Parting
import ModuleAssets.Proofs.Path.Relative
import ModuleAssets.Proofs.Json.Reading
import ModuleAssets.Proofs.Asset.Persisted
import ModuleAssets.Proofs.Asset.Recorded
import ModuleAssets.Proofs.Files.Delivered
import ModuleAssets.Proofs.Command.Outputs
import ModuleAssets.Proofs.Relocation.Requests
import ModuleAssets.Proofs.Asset.Resumed
import ModuleAssets.Proofs.Command.Resumed
import ModuleAssets.Proofs.Command.Broken
import ModuleAssets.Proofs.Relocation.Itself
import ModuleAssets.Proofs.Relocation.Cited
import ModuleAssets.Proofs.Relocation.Marked
import ModuleAssets.Proofs.Patch.Replaced
import ModuleAssets.Proofs.Patch.Inserted
import ModuleAssets.Proofs.Path.Within
import ModuleAssets.Proofs.Asset.Placed
import ModuleAssets.Proofs.Package.Lookup
import ModuleAssets.Proofs.Relocation.Directories
import ModuleAssets.Proofs.Text.Units
import ModuleAssets.Proofs.Path.LastName
import ModuleAssets.Proofs.Path.ScanBack
import ModuleAssets.Proofs.Path.Accessors
import ModuleAssets.Proofs.Asset.Targets
import ModuleAssets.Proofs.Relocation.SingleAddon
import ModuleAssets.Proofs.Syntax.Unplaced
import ModuleAssets.Proofs.Relocation.Unwrapped
import ModuleAssets.Proofs.Text.LineIndex
import ModuleAssets.Proofs.Package.Upwards
import ModuleAssets.Proofs.Evaluate.Otherwise
