import Eredu.Scheduling.Telemetry
import Eredu.Scheduling.ReadyQueue
import Eredu.Scheduling.Lifecycle
import Eredu.Scheduling.Delivery
import Eredu.Scheduling.Unanimity
import Eredu.Speculation.Distribution
import Eredu.Speculation.Support
import Eredu.Residency.Leases
import Eredu.Residency.Prefetch
import Eredu.Gguf.RoundTrip
import Eredu.Gguf.Gather
import Eredu.Attention.Exactness
import Eredu.Checkpoint.Leases
import Eredu.Checkpoint.Aliases
import Eredu.Checkpoint.Rows
import Eredu.Parameters.Reads
import Eredu.Parameters.Identity
import Eredu.Planning.Feedback
import Eredu.Streaming.TerminalEvent
import Eredu.PromptCache.Endings
import Eredu.PromptCache.Geometry
import Eredu.Session.Authority
import Eredu.Session.SaveAgreement
import Eredu.Voice.Hearing
import Eredu.Voice.Atomicity
import Eredu.Topology.Partition
import Eredu.Capture.Overlap
import Eredu.Session.Commitment
import Eredu.Session.Recovery
