import DeviceTwin.Main
import DeviceTwin.Proofs.CommandLine.Agreement
import DeviceTwin.Proofs.Conversion.Composition
import DeviceTwin.Proofs.Conversion.Definitions
import DeviceTwin.Proofs.Conversion.DepthCap
import DeviceTwin.Proofs.Conversion.Forms
import DeviceTwin.Proofs.Conversion.Identifiers
import DeviceTwin.Proofs.Conversion.Isolation
import DeviceTwin.Proofs.Conversion.Location
import DeviceTwin.Proofs.Conversion.Rendering
import DeviceTwin.Proofs.Conversion.Reordering
import DeviceTwin.Proofs.Conversion.Strictness
import DeviceTwin.Proofs.Descriptor.Acceptance
import DeviceTwin.Proofs.Descriptor.Circularity
import DeviceTwin.Proofs.Descriptor.Inlining
import DeviceTwin.Proofs.Descriptor.MemberOrder
import DeviceTwin.Proofs.Descriptor.NumberFormat
import DeviceTwin.Proofs.Descriptor.Refusal
import DeviceTwin.Proofs.Interface.Faithful
import DeviceTwin.Proofs.Interface.Structure
import DeviceTwin.Proofs.Json.Reader
import DeviceTwin.Proofs.Property.Contribution
import DeviceTwin.Proofs.Descriptor.Collections
import DeviceTwin.Proofs.Descriptor.Session
import DeviceTwin.Proofs.Property.Alternatives
import DeviceTwin.Proofs.Descriptor.Paths
import DeviceTwin.Proofs.Shape.Wrapping
import DeviceTwin.Proofs.Descriptor.Spelling
import DeviceTwin.Proofs.CommandLine.Output
import DeviceTwin.Proofs.Interface.StateNames
import DeviceTwin.Proofs.Text.LeadingInteger
import DeviceTwin.Proofs.Property.Session
import DeviceTwin.Proofs.Device.Session
import DeviceTwin.Proofs.Conversion.Session
