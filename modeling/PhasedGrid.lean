import PhasedGrid.Main
import PhasedGrid.Proofs.Texts
import PhasedGrid.Proofs.Decimal.Readback
import PhasedGrid.Proofs.Snapshot.Reading
import PhasedGrid.Proofs.Snapshot.Tracking
import PhasedGrid.Proofs.Snapshot.Bookkeeping
import PhasedGrid.Proofs.Snapshot.Turns
import PhasedGrid.Proofs.Snapshot.Likeness
import PhasedGrid.Proofs.Mesh.Basic
import PhasedGrid.Proofs.Mesh.Letters
import PhasedGrid.Proofs.Mesh.Ledger
import PhasedGrid.Proofs.Mesh.Conservation
import PhasedGrid.Proofs.Mesh.Spread
import PhasedGrid.Proofs.Mesh.Completeness
import PhasedGrid.Proofs.Mesh.Provenance
import PhasedGrid.Proofs.Mesh.Rounds
import PhasedGrid.Proofs.Mesh.Cut
import PhasedGrid.Proofs.Mesh.Clusters
import PhasedGrid.Proofs.Mesh.Succession
import PhasedGrid.Proofs.Mesh.Crossing
import PhasedGrid.Proofs.Mesh.Inboxes
import PhasedGrid.Proofs.Mesh.Novelty
import PhasedGrid.Proofs.Mesh.Regrouping
import PhasedGrid.Proofs.Schedule.Orders
import PhasedGrid.Proofs.Schedule.Stores
import PhasedGrid.Proofs.Schedule.Runs
import PhasedGrid.Proofs.Schedule.Driving
import PhasedGrid.Proofs.Schedule.Plays
import PhasedGrid.Proofs.Schedule.Accounts
import PhasedGrid.Proofs.Schedule.Lines
import PhasedGrid.Proofs.Schedule.Armings
import PhasedGrid.Proofs.Schedule.Keeping
import PhasedGrid.Proofs.Snapshot.Calls
import PhasedGrid.Proofs.Snapshot.Knowledge
import PhasedGrid.Proofs.Snapshot.Answers
import PhasedGrid.Proofs.Snapshot.Separation
import PhasedGrid.Proofs.Schedule.Strides
import PhasedGrid.Proofs.Schedule.Flight
import PhasedGrid.Proofs.Schedule.Releases
import PhasedGrid.Proofs.Time.Moments
import PhasedGrid.Proofs.Schedule.Natural
import PhasedGrid.Proofs.Schedule.Walks
import PhasedGrid.Proofs.Schedule.Beats
import PhasedGrid.Proofs.Schedule.Timeline
import PhasedGrid.Proofs.Node.Runs
import PhasedGrid.Proofs.Node.Armings
import PhasedGrid.Proofs.Node.Timeouts
import PhasedGrid.Proofs.Peer.Deliveries
import PhasedGrid.Proofs.Command.Forecasts
import PhasedGrid.Proofs.Decimal.Words
import PhasedGrid.Proofs.Decimal.Rounding
import PhasedGrid.Proofs.Decimal.Shortest
import PhasedGrid.Proofs.Decimal.Exactness
import PhasedGrid.Proofs.Snapshot.Consolidation
import PhasedGrid.Proofs.Schedule.Backdating
import PhasedGrid.Proofs.Schedule.Generations
import PhasedGrid.Proofs.Schedule.Endings
import PhasedGrid.Proofs.Snapshot.Exchange
import PhasedGrid.Proofs.Snapshot.Responses
import PhasedGrid.Proofs.Snapshot.Lineages
import PhasedGrid.Proofs.Snapshot.Retirement
import PhasedGrid.Proofs.Snapshot.Sentinel
import PhasedGrid.Proofs.Node.Scenes
import PhasedGrid.Proofs.Node.Streams
import PhasedGrid.Proofs.Device.Specifications
import PhasedGrid.Proofs.Schedule.Shares
