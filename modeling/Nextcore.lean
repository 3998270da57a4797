import Nextcore.Lib.Outcome
import Nextcore.Lib.Word
import Nextcore.Lib.Bytes
import Nextcore.Lib.Machine
import Nextcore.Lib.Slots
import Nextcore.Lib.Span
import Nextcore.GuestMemory.Ledger
import Nextcore.GuestMemory.Effects
import Nextcore.GuestMemory.Calls
import Nextcore.GuestMemory.Invariant
import Nextcore.GuestMemory.Tokens
import Nextcore.GuestMemory.Authority
import Nextcore.GuestMemory.Commit
import Nextcore.GuestMemory.Isolation
import Nextcore.GuestMemory.FirstFit
import Nextcore.KernelCollection.Metadata
import Nextcore.KernelCollection.Reading
import Nextcore.Lib.Sort
import Nextcore.KernelCollection.Parse
import Nextcore.KernelCollection.Inspect
import Nextcore.KernelCollection.Scan
import Nextcore.KernelCollection.WellFormed
import Nextcore.KernelCollection.PanicFree
import Nextcore.KcStaging.Plan
import Nextcore.KcStaging.Stage
import Nextcore.Lib.Patchwork
import Nextcore.KcStaging.Readback
import Nextcore.KcStaging.Layout
import Nextcore.KcStaging.Planner
import Nextcore.KcStaging.Image
import Nextcore.KcStaging.Staged
import Nextcore.Lib.Reader
import Nextcore.Lib.Prefix
import Nextcore.FlatDt.Codec
import Nextcore.FlatDt.Grammar
import Nextcore.FlatDt.Validate
import Nextcore.FlatDt.Accepted
import Nextcore.FlatDt.Encode
import Nextcore.Lib.Text
import Nextcore.FirmwareDt.Parse
import Nextcore.FirmwareDt.Tree
import Nextcore.FirmwareDt.Lossless
import Nextcore.FirmwareDt.Runtime
import Nextcore.RuntimeDt.Prepare
import Nextcore.Lib.Fresh
import Nextcore.RuntimeDt.Bindings
import Nextcore.RuntimeDt.Materialize
import Nextcore.RuntimeDt.Prepared
import Nextcore.RuntimeDt.Cover
import Nextcore.RuntimeDt.Reserve
import Nextcore.Lib.Radix
import Nextcore.Stage1.Tables
import Nextcore.Stage1.Represent
import Nextcore.Stage1.Build
import Nextcore.Stage1.Translate
import Nextcore.Stage1.Capacity
import Nextcore.BootArgs.Encode
import Nextcore.BootArgs.Dram
import Nextcore.Handoff.Plan
import Nextcore.BootArgs.Accepted
import Nextcore.Handoff.Layout
import Nextcore.Handoff.Framebuffer
import Nextcore.Handoff.Staged
import Nextcore.Handoff.Backing
import Nextcore.Lib.Trace
import Nextcore.FixupAudit.Records
import Nextcore.FixupAudit.Audit
import Nextcore.FixupAudit.Verdict
import Nextcore.FixupAudit.Overlaps
import Nextcore.ClassicRebase.Rebase
import Nextcore.ClassicRebase.Image
import Nextcore.ClassicRebase.Applied
import Nextcore.ClassicRebase.Slides
import Nextcore.CoreError
import Nextcore.Lib.Commands
import Nextcore.BootHandoff.Wire
import Nextcore.BootHandoff.RoundTrip
import Nextcore.Acpi.Tables
import Nextcore.Acpi.Scan
import Nextcore.Acpi.Panics
import Nextcore.Acpi.Lookup
import Nextcore.MachoImage.Parse
import Nextcore.MachoImage.Scan
import Nextcore.MachoImage.Loadable
import Nextcore.StartupImage.Parse
import Nextcore.StartupImage.Parsed
import Nextcore.StartupImage.Staged
import Nextcore.Jumpstart.Extract
import Nextcore.Jumpstart.Checks
import Nextcore.Jumpstart.Reads
import Nextcore.Jumpstart.Content
import Nextcore.BootConfig.Document
import Nextcore.BootConfig.Targets
import Nextcore.BootConfig.Agree
import Nextcore.Lib.Sweep
import Nextcore.FixupAudit.Sweep
import Nextcore.FixupAudit.Tally
import Nextcore.FixupAudit.Walks
import Nextcore.FixupAudit.Limits
import Nextcore.FixupAudit.Starts
import Nextcore.FixupAudit.Agreement
import Nextcore.Lib.Record
import Nextcore.BootArgs.Decoded
import Nextcore.XnuBootArgs.Encode
import Nextcore.XnuBootArgs.Decoded
import Nextcore.StartupImage.Transactional
import Nextcore.FixupAudit.Parts
import Nextcore.Lib.Covered
import Nextcore.KcStaging.Accounting
import Nextcore.Lib.Fletcher
import Nextcore.Jumpstart.CheckWords
import Nextcore.BootConfig.Input
import Nextcore.BootConfig.Trace
import Nextcore.Lib.Below
import Nextcore.BootConfig.TraceOrder
import Nextcore.BootConfig.TracePolicy
import Nextcore.BootConfig.Paths
import Nextcore.BootHandoff.Truncated
import Nextcore.BootHandoff.Entries
import Nextcore.Lib.Filled
import Nextcore.DeviceProps.Codec
import Nextcore.DeviceProps.Roundtrip
import Nextcore.Lib.Lines
import Nextcore.SelectedBoot.Record
import Nextcore.Lib.Search
import Nextcore.FixupAudit.Lookup
import Nextcore.FixupAudit.Members
import Nextcore.Lib.Painting
import Nextcore.BootPicker.View
import Nextcore.BootPicker.Shapes
import Nextcore.BootPicker.Scene
import Nextcore.BootPicker.Frame
import Nextcore.BootPicker.Rendered
import Nextcore.BootConfig.Menu
import Nextcore.BootPicker.Session
import Nextcore.Lib.Translation
import Nextcore.Handoff.View
import Nextcore.Handoff.Companions
import Nextcore.Lib.Buffers
import Nextcore.GuestMemory.Refine
import Nextcore.RuntimeDt.Reordered
import Nextcore.GuestMemory.DeviceTree
import Nextcore.Jumpstart.Format
import Nextcore.Jumpstart.Complete
import Nextcore.SelectedBoot.Fields
import Nextcore.SelectedBoot.Written
import Nextcore.SelectedBoot.Distinct
import Nextcore.SelectedBoot.Sealed
