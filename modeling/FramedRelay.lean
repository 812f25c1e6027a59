import FramedRelay.Main
import FramedRelay.Session
import FramedRelay.Proofs.Frame.Line
import FramedRelay.Proofs.Frame.Conversation
import FramedRelay.Proofs.Frame.Deadlines
import FramedRelay.Proofs.Forwarder.Accounting
import FramedRelay.Proofs.Session.Isolation
import FramedRelay.Proofs.Exchange.Extent
import FramedRelay.Proofs.Session.Refusals
import FramedRelay.Proofs.Exchange.Paced
import FramedRelay.Proofs.Exchange.Aborts
import FramedRelay.Proofs.Exchange.Timely
import FramedRelay.Proofs.Forwarder.Bound
import FramedRelay.Proofs.Session.Bounded
import FramedRelay.Proofs.Session.Gate
import FramedRelay.Proofs.Session.Likeness
import FramedRelay.Proofs.Payload.OneLine
import FramedRelay.Proofs.Payload.Compact
import FramedRelay.Proofs.Json.Skimming
import FramedRelay.Proofs.Payload.Validation
import FramedRelay.Proofs.Frame.Causes
import FramedRelay.Proofs.Json.Readable
import FramedRelay.Proofs.Json.Unicode
import FramedRelay.Proofs.Payload.Canonical
import FramedRelay.Proofs.Frame.Limits
import FramedRelay.Proofs.Text.Decimals
import FramedRelay.Proofs.Http.Length
import FramedRelay.Proofs.Http.Reports
import FramedRelay.Proofs.Address.Numerals
import FramedRelay.Proofs.Address.Ipv4
import FramedRelay.Proofs.Address.Ipv6
import FramedRelay.Proofs.Address.Socket
import FramedRelay.Proofs.Destination
import FramedRelay.Proofs.Exchange.Dialling
import FramedRelay.Proofs.Options
import FramedRelay.Proofs.Http.Traces
import FramedRelay.Proofs.CommandLine.Values
import FramedRelay.Proofs.CommandLine.Resolution
