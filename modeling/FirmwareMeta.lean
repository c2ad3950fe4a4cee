import FirmwareMeta.Devicetree.Grammar
import FirmwareMeta.Devicetree.Printer
import FirmwareMeta.FileSystem.Lemmas
import FirmwareMeta.Main
import FirmwareMeta.Proofs.Image.ByteMap
import FirmwareMeta.Proofs.Image.Writing
import FirmwareMeta.Proofs.Update.Reading
import FirmwareMeta.Proofs.Image.IntelHex.Line
import FirmwareMeta.Proofs.Image.Sequence
import FirmwareMeta.Proofs.Text.Line
import FirmwareMeta.Proofs.Image.IntelHex.RoundTrip
import FirmwareMeta.Proofs.Image.Extent
import FirmwareMeta.Proofs.Update.Placement
import FirmwareMeta.Proofs.Update.Verification
import FirmwareMeta.Proofs.Build.Saving
import FirmwareMeta.Proofs.Build.Artifacts
import FirmwareMeta.Proofs.Command.Outputs
import FirmwareMeta.Proofs.Crc32.Parameters
import FirmwareMeta.Proofs.Crc32.Bursts
import FirmwareMeta.Proofs.Update.Corruption
import FirmwareMeta.Proofs.Devicetree.Meaning
import FirmwareMeta.Proofs.Devicetree.Merging
import FirmwareMeta.Proofs.Devicetree.Completeness
import FirmwareMeta.Proofs.Devicetree.Acceptance
import FirmwareMeta.Proofs.Devicetree.Literal
import FirmwareMeta.Proofs.Devicetree.Lexing
import FirmwareMeta.Proofs.Devicetree.Writing
import FirmwareMeta.Proofs.Devicetree.RoundTrip
import FirmwareMeta.Proofs.Install.Layout
import FirmwareMeta.Proofs.Devicetree.Openings
import FirmwareMeta.Proofs.FileSystem.Frames
import FirmwareMeta.Proofs.Command.Making
import FirmwareMeta.Proofs.Command.Repeating
import FirmwareMeta.Proofs.Image.Cells
import FirmwareMeta.Proofs.Image.IntelHex.Contents
import FirmwareMeta.Proofs.Devicetree.Borders
import FirmwareMeta.Proofs.Devicetree.Splitting
import FirmwareMeta.Proofs.Update.Blocks
import FirmwareMeta.Proofs.Devicetree.Paths
import FirmwareMeta.Proofs.Hardware.Labels
import FirmwareMeta.Proofs.Devicetree.Faults
import FirmwareMeta.Proofs.Devicetree.Gaps
import FirmwareMeta.Proofs.Devicetree.Positions
import FirmwareMeta.Proofs.Devicetree.Words
import FirmwareMeta.Proofs.Config.Layout
import FirmwareMeta.Proofs.Config.Integers
import FirmwareMeta.Proofs.Image.Views
import FirmwareMeta.Proofs.Image.Flattening
import FirmwareMeta.Proofs.Build.Payloads
import FirmwareMeta.Proofs.Update.Listing
import FirmwareMeta.Proofs.Command.Dumping
import FirmwareMeta.Proofs.Hardware.Order
import FirmwareMeta.Proofs.Image.IntelHex.Emitter
import FirmwareMeta.Proofs.Build.Descriptions
