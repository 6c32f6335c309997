import KeyValueStore.AcceptorPromise
import KeyValueStore.Agreement
import KeyValueStore.OwnPromise
import KeyValueStore.OwnAcceptance
import KeyValueStore.CommandIntegrity
import KeyValueStore.DecidedReads
import KeyValueStore.AbdRegister
import KeyValueStore.CausalOrder
import KeyValueStore.CmDelivery
import KeyValueStore.MajorityTag
import KeyValueStore.TagUniqueness
import KeyValueStore.CmClockOrder
import KeyValueStore.CmConservation
import KeyValueStore.KeyIsolation
import KeyValueStore.ProposalUniqueness
import KeyValueStore.ExactlyOnce
import KeyValueStore.PrepareSelection
import KeyValueStore.AcceptDecision
import KeyValueStore.PrepareReport
import KeyValueStore.WireKeys
import KeyValueStore.AbdReplica
import KeyValueStore.ReadAfterWrite
import KeyValueStore.QueueOrder
import KeyValueStore.SlotAvailability
import KeyValueStore.LogReplay
import KeyValueStore.LogBounds
import KeyValueStore.CmCodec
import KeyValueStore.AbdConvergence
import KeyValueStore.AbdLocality
import KeyValueStore.ClientList
import KeyValueStore.CmClients
import KeyValueStore.CmConvergence
import KeyValueStore.LogConvergence
import KeyValueStore.MpLocality
import KeyValueStore.MpProgress
import KeyValueStore.MpSequential
import KeyValueStore.ServerLocks
import KeyValueStore.MemoryRefinement
