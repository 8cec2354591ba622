import KnowYourMemory.Run
import KnowYourMemory.FullFlag
import KnowYourMemory.SharedSafety
import KnowYourMemory.BufferedRead
import KnowYourMemory.WriteDelivery
import KnowYourMemory.ReverseDelivery
import KnowYourMemory.DirectDelivery
import KnowYourMemory.SharedProgress
import KnowYourMemory.BufferedReadDelivery
import KnowYourMemory.DirectRead
import KnowYourMemory.WriteConnection
import KnowYourMemory.DirectDuplex
import KnowYourMemory.MirroredRings
import KnowYourMemory.ChecksumDelivery
import KnowYourMemory.TailGap
import KnowYourMemory.ReceiveBuffers
import KnowYourMemory.WriteAtomicSetup
import KnowYourMemory.SendWait
import KnowYourMemory.ChecksumLoop
import KnowYourMemory.BatchWait
import KnowYourMemory.FailedSend
import KnowYourMemory.OptionDelivery
import KnowYourMemory.FailedRequests
import KnowYourMemory.RefusedReceive
import KnowYourMemory.AckReceive
import KnowYourMemory.HeadRead
import KnowYourMemory.WithheldHead
import KnowYourMemory.PartialWrite
import KnowYourMemory.BasicRing
import KnowYourMemory.Bench
import KnowYourMemory.SharedReceiveDelivery
import KnowYourMemory.SharedDelivery
import KnowYourMemory.DirectReadDelivery
import KnowYourMemory.RequestBuffers
import KnowYourMemory.LatencyBench
import KnowYourMemory.ReadDuplex
import KnowYourMemory.ReadAnswers
import KnowYourMemory.ReadBench
import KnowYourMemory.BandwidthBench
