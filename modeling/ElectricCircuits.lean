import ElectricCircuits.SqlSemantics
import ElectricCircuits.Sequencer.Atomic
import ElectricCircuits.Sequencer.Restart
import ElectricCircuits.Sequencer.Rotation
import ElectricCircuits.CanonicalSound
import ElectricCircuits.Catalog.Writer
import ElectricCircuits.StreamFold
import ElectricCircuits.Replication
import ElectricCircuits.Lifecycle.Segments
import ElectricCircuits.Lifecycle.Subscriptions
import ElectricCircuits.Catalog.Memory
import ElectricCircuits.SnapshotFence
import ElectricCircuits.Handoff
import ElectricCircuits.Sources.Supervisor
import ElectricCircuits.Lifecycle.Consumers
import ElectricCircuits.ElectricAdapter
import ElectricCircuits.Client.SubsetRuns
import ElectricCircuits.Circuit.Runs
import ElectricCircuits.Catalog.Retirement
import ElectricCircuits.AggregateFold
import ElectricCircuits.TxnSpill
import ElectricCircuits.SubqIndex
import ElectricCircuits.PgOutput
import ElectricCircuits.Template
import ElectricCircuits.RowImage
import ElectricCircuits.WhereMeaning
import ElectricCircuits.SqlPushdown
import ElectricCircuits.Lifecycle.Sweep
import ElectricCircuits.Backfill
import ElectricCircuits.Params
import ElectricCircuits.Lifecycle.ReplayBatches
import ElectricCircuits.Client.SubsetPages
import ElectricCircuits.Lifecycle.Dormancy
import ElectricCircuits.Lib.LateReads
import ElectricCircuits.Subquery.Leaves
import ElectricCircuits.Subquery.Feed
import ElectricCircuits.Subquery.Emission
import ElectricCircuits.Subquery.FeedStream
import ElectricCircuits.Subquery.ShapeView
import ElectricCircuits.Subquery.Versions
import ElectricCircuits.Subquery.Walk
import ElectricCircuits.Subquery.Displays
import ElectricCircuits.Subquery.Runs
import ElectricCircuits.Subquery.Converge
import ElectricCircuits.Lib.Incremental
import ElectricCircuits.Subquery.Membership
import ElectricCircuits.Subquery.NodeIndex
import ElectricCircuits.Subquery.Cascade
