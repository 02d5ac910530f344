import LogBroker.Main
import LogBroker.Proofs.Log
import LogBroker.Proofs.TreeMap
import LogBroker.Proofs.Utf8
import LogBroker.Proofs.Partition
import LogBroker.Proofs.Partition.Appends
import LogBroker.Proofs.Partition.AppendOnly
import LogBroker.Proofs.Partition.History
import LogBroker.Proofs.Partition.Contest
import LogBroker.Proofs.Routing
import LogBroker.Proofs.Topic
import LogBroker.Proofs.ConsumerGroup
import LogBroker.Proofs.Distribution.Shares
import LogBroker.Proofs.Bench
import LogBroker.Proofs.Bench.ExactlyOnce
import LogBroker.Proofs.Bench.NothingLost
import LogBroker.Proofs.Delivery.Pending
import LogBroker.Proofs.Delivery.Batches
import LogBroker.Proofs.Delivery.Frame
import LogBroker.Proofs.Broker.Step
import LogBroker.Proofs.Broker.View
import LogBroker.Proofs.Broker.Registry
import LogBroker.Proofs.Broker.Identity
import LogBroker.Proofs.Broker.Partitions
import LogBroker.Proofs.Broker.Polls
import LogBroker.Proofs.Broker.PollOrder
import LogBroker.Proofs.Broker.ExactPoll
import LogBroker.Proofs.Broker.Independence
import LogBroker.Proofs.Broker.Parallel
import LogBroker.Proofs.Broker.Failures
import LogBroker.Proofs.Broker.Accounting
import LogBroker.Proofs.Broker.OneByOne
import LogBroker.Proofs.Broker.Turns
import LogBroker.Proofs.Ownership
import LogBroker.Proofs.Bench.Convergence
import LogBroker.Proofs.Bench.Generation
import LogBroker.Proofs.Bench.Lifecycle
import LogBroker.Proofs.Loads
import LogBroker.Proofs.Run.Insertion
import LogBroker.Proofs.Run.Commuting
import LogBroker.Proofs.Partition.Reservation
import LogBroker.Proofs.Bench.Invisible
import LogBroker.Proofs.ExactlyOnce
import LogBroker.Proofs.KeyOrder
import LogBroker.Proofs.Cursors
import LogBroker.Proofs.Lag
import LogBroker.Proofs.Batches
import LogBroker.Proofs.Partition.Read
import LogBroker.Proofs.Json.Spelling
import LogBroker.Proofs.Json.Reading
import LogBroker.Proofs.Json.Recognition
import LogBroker.Proofs.Config
import LogBroker.Proofs.Checked
import LogBroker.Proofs.Broker.Checked
