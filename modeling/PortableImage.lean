import PortableImage.CommandLine.Program
import PortableImage.Encode.Image
import PortableImage.Main
import PortableImage.Proofs.AddressRuns
import PortableImage.Proofs.Buffer.Algebra
import PortableImage.Proofs.Buffer.Staged
import PortableImage.Proofs.Building
import PortableImage.Proofs.CallStubs
import PortableImage.Proofs.Capture
import PortableImage.Proofs.ChecksumAgreement
import PortableImage.Proofs.ChecksumOfBytes
import PortableImage.Proofs.CommandLine.Grammar
import PortableImage.Proofs.CommandLine.Output
import PortableImage.Proofs.Directory.ExportView
import PortableImage.Proofs.Directory.ImportView
import PortableImage.Proofs.Directory.ResourceView
import PortableImage.Proofs.Duplicates
import PortableImage.Proofs.FileLayout
import PortableImage.Proofs.LabelNames
import PortableImage.Proofs.Labels.Allocation
import PortableImage.Proofs.HeaderFields
import PortableImage.Proofs.Linking
import PortableImage.Proofs.MergedContent
import PortableImage.Proofs.Merging
import PortableImage.Proofs.Pending
import PortableImage.Proofs.Rebasing
import PortableImage.Proofs.Relocation.Complete
import PortableImage.Proofs.Relocation.Exact
import PortableImage.Proofs.Encode.AddressTables
import PortableImage.Proofs.GeneratedDirectories
import PortableImage.Proofs.TableDirectory
import PortableImage.Proofs.Directory.Addressing
import PortableImage.Proofs.Directory.AutoImport
import PortableImage.Proofs.Directory.ImportAdditions
import PortableImage.Proofs.Directory.References
import PortableImage.Proofs.Directory.Reordering
import PortableImage.Proofs.Directory.SlotAssignment
import PortableImage.Proofs.Encode.InPlace
import PortableImage.Proofs.Expr.Canonical
import PortableImage.Proofs.Expr.Labels
import PortableImage.Proofs.Expr.Limits
import PortableImage.Proofs.Field.Early
import PortableImage.Proofs.Field.Inverse
import PortableImage.Proofs.Relocation.PageAddresses
import PortableImage.Proofs.RoundingAgreement
import PortableImage.Proofs.SectionAlignment
import PortableImage.Proofs.SlotReferences
import PortableImage.Proofs.TablesInPlace
