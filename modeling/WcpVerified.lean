import WcpVerified.Library.Transition
import WcpVerified.Library.Store
import WcpVerified.Library.MachineWord
import WcpVerified.Library.Pool
import WcpVerified.Util
import WcpVerified.Heap
import WcpVerified.CopyQueue
import WcpVerified.Proofs.StepProofs
import WcpVerified.Proofs.RingProofs
import WcpVerified.Proofs.RoomProofs
import WcpVerified.Proofs.DescriptorProofs
import WcpVerified.Proofs.LeakProofs
import WcpVerified.Proofs.AccountProofs
import WcpVerified.Proofs.ErrorProofs
import WcpVerified.Proofs.SubmissionProofs
import WcpVerified.Proofs.HeapProofs
import WcpVerified.Proofs.EtaProofs
import WcpVerified.Proofs.CycleProofs
import WcpVerified.Proofs.ProgressProofs
import WcpVerified.Proofs.TruncatedProofs
import WcpVerified.Proofs.WalkProofs
import WcpVerified.Proofs.UnknownProofs
import WcpVerified.Proofs.DestinationProofs
import WcpVerified.Proofs.RetryProofs
import WcpVerified.Proofs.ProgressLineProofs
import WcpVerified.Proofs.RollingBitsetProofs
import WcpVerified.Proofs.EstimateProofs
import WcpVerified.Proofs.HeapClientsProofs
import WcpVerified.Proofs.IterationProofs
import WcpVerified.Proofs.BoundsProofs
import WcpVerified.Proofs.FrameProofs
import WcpVerified.Proofs.CopiedProofs
import WcpVerified.Proofs.OrderProofs
import WcpVerified.Proofs.StallProofs
import WcpVerified.Proofs.ProgramProofs
import WcpVerified.Proofs.SafetyProofs
import WcpVerified.Proofs.MessageProofs
import WcpVerified.Proofs.RingQueueProofs
import WcpVerified.Proofs.DirBufferProofs
