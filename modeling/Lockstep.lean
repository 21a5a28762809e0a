import Lockstep.Channel
import Lockstep.Config
import Lockstep.Coordinator.Basic
import Lockstep.Coordinator.Call
import Lockstep.Coordinator.Submit
import Lockstep.Divergence
import Lockstep.IdBlock
import Lockstep.Log
import Lockstep.Logged
import Lockstep.Mismatch
import Lockstep.Opinion.Basic
import Lockstep.Opinion.Compare
import Lockstep.Opinion.Wire
import Lockstep.Origin
import Lockstep.Peer.Basic
import Lockstep.Peer.Call
import Lockstep.Peer.Generator
import Lockstep.Peer.Wyrand
import Lockstep.Pool
import Lockstep.Proofs.Channel
import Lockstep.Proofs.Coordinator.Run
import Lockstep.Proofs.Coordinator.Submission
import Lockstep.Proofs.Opinion.Symmetry
import Lockstep.Queue
import Lockstep.Report
import Lockstep.Sample
import Lockstep.SampleMap.Basic
import Lockstep.SampleMap.Lemmas
import Lockstep.Session.Basic
import Lockstep.Session.Call
import Lockstep.Session.Link
import Lockstep.Text.Hex
import Lockstep.Tick
import Lockstep.Trace.Entry
import Lockstep.Trace.Hash
import Lockstep.Proofs.Coordinator.Backlog
import Lockstep.Proofs.Coordinator.Verdict
import Lockstep.Proofs.Coordinator.Survival
import Lockstep.Proofs.Coordinator.Window
import Lockstep.Proofs.Session.Orientation
import Lockstep.Proofs.Coordinator.Progress
import Lockstep.Proofs.Coordinator.Clash
import Lockstep.Proofs.Coordinator.Mirror
import Lockstep.Proofs.Opinion.Pairing
import Lockstep.Proofs.Coordinator.Awaiting
import Lockstep.Proofs.Coordinator.Retransmission
import Lockstep.Proofs.Coordinator.Recording
import Lockstep.Proofs.Trace.Hash
import Lockstep.Proofs.Coordinator.Contents
import Lockstep.Proofs.Exchange.Basic
import Lockstep.Proofs.Peer.Range
import Lockstep.Proofs.Peer.World
import Lockstep.Proofs.Peer.Telling
import Lockstep.Proofs.Exchange.Invariant
import Lockstep.Proofs.Exchange.Agreement
import Lockstep.Proofs.Exchange.Network
import Lockstep.Proofs.Exchange.Corruption
import Lockstep.Proofs.Coordinator.Order
import Lockstep.Proofs.Coordinator.Halted
import Lockstep.Proofs.Session.Terminal
import Lockstep.Proofs.Logged
import Lockstep.Proofs.Opinion.Likeness
import Lockstep.Proofs.Coordinator.InStep
import Lockstep.Proofs.Coordinator.Simulation
import Lockstep.Proofs.Session.Simulation
import Lockstep.Proofs.Coordinator.Pooling
import Lockstep.Proofs.Session.Pooling
import Lockstep.Proofs.Coordinator.Tracing
import Lockstep.Proofs.Session.Tracing
import Lockstep.Proofs.Coordinator.Retention
import Lockstep.Proofs.Coordinator.Diagnostics
import Lockstep.Proofs.Session.Diagnostics
import Lockstep.Proofs.Session.Handoff
import Lockstep.Proofs.Coordinator.Gathering
import Lockstep.Proofs.Session.Gathering
import Lockstep.Proofs.Coordinator.Logging
import Lockstep.Proofs.Ledger
import Lockstep.Proofs.Coordinator.Ledger
import Lockstep.Proofs.Coordinator.Inversion
import Lockstep.Proofs.IdBlock.Partition
import Lockstep.Proofs.Opinion.Least
import Lockstep.Proofs.Opinion.Parting
import Lockstep.Proofs.Opinion.Wire
import Lockstep.Proofs.Peer.Tiling
import Lockstep.Proofs.Coordinator.Indexing
import Lockstep.Proofs.Report
import Lockstep.Proofs.Session.Offset
import Lockstep.Proofs.Trace.Entry
