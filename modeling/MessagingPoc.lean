import MessagingPoc.Abstractions
import MessagingPoc.Artemis.DeadLetter
import MessagingPoc.Artemis.Publish
import MessagingPoc.Artemis.Selector
import MessagingPoc.DeadLetterCopy
import MessagingPoc.FaultInjectingBus
import MessagingPoc.HandlerFault
import MessagingPoc.Idempotency
import MessagingPoc.IdempotencyStore
import MessagingPoc.InMemory.Bus
import MessagingPoc.InMemory.Competing
import MessagingPoc.InMemory.Copies
import MessagingPoc.InMemory.CounterRange
import MessagingPoc.InMemory.Custody
import MessagingPoc.InMemory.Dedup
import MessagingPoc.InMemory.DeliveryCount
import MessagingPoc.InMemory.Disposal
import MessagingPoc.InMemory.Expiry
import MessagingPoc.InMemory.Failover
import MessagingPoc.InMemory.Forwarding
import MessagingPoc.InMemory.GroupOrder
import MessagingPoc.InMemory.Groups
import MessagingPoc.InMemory.Identity
import MessagingPoc.InMemory.Independence
import MessagingPoc.InMemory.Lane
import MessagingPoc.InMemory.NoLoss
import MessagingPoc.InMemory.Poison
import MessagingPoc.InMemory.Prefetch
import MessagingPoc.InMemory.PriorityOrder
import MessagingPoc.InMemory.Queue
import MessagingPoc.InMemory.Reachable
import MessagingPoc.InMemory.Refinement
import MessagingPoc.InMemory.Selection
import MessagingPoc.InMemory.Settlement
import MessagingPoc.InMemory.Stakes
import MessagingPoc.InMemory.Steps
import MessagingPoc.InMemory.StreamReplay
import MessagingPoc.InMemory.Topics
import MessagingPoc.InMemory.Transient
import MessagingPoc.InMemory.WorkConservation
import MessagingPoc.Kafka.Consumer
import MessagingPoc.Lib.Amqp
import MessagingPoc.Lib.Breaker
import MessagingPoc.Lib.CompareExchange
import MessagingPoc.Lib.CompetingConsumers
import MessagingPoc.Lib.CompetingOrder
import MessagingPoc.Lib.Connection
import MessagingPoc.Lib.Cursor
import MessagingPoc.Lib.Deaths
import MessagingPoc.Lib.Double
import MessagingPoc.Lib.Framing
import MessagingPoc.Lib.Glob
import MessagingPoc.Lib.InsertionMap
import MessagingPoc.Lib.InsertionSet
import MessagingPoc.Lib.Json
import MessagingPoc.Lib.Ledger
import MessagingPoc.Lib.Lookup
import MessagingPoc.Lib.Machine
import MessagingPoc.Lib.Narrow
import MessagingPoc.Lib.Once
import MessagingPoc.Lib.Relay
import MessagingPoc.Lib.RoundRobin
import MessagingPoc.Lib.Search
import MessagingPoc.Lib.StableSort
import MessagingPoc.Lib.Table
import MessagingPoc.NetFaultInjectingBus
import MessagingPoc.RabbitMq.Adapter
import MessagingPoc.RabbitMq.DeadLetter
import MessagingPoc.RabbitMq.FailedSubscribe
import MessagingPoc.RabbitMq.Partition
import MessagingPoc.RabbitMq.Retry
import MessagingPoc.RabbitMq.Topology
import MessagingPoc.RabbitMq.TopologyCache
import MessagingPoc.RabbitMq.Wire
import MessagingPoc.Resilience
import MessagingPoc.Scheduler.Dispatch
import MessagingPoc.Scheduler.Isolation
import MessagingPoc.Scheduler.Net
import MessagingPoc.Scheduler.NetDispatch
import MessagingPoc.Scheduler.Traceless
import MessagingPoc.Scheduler.Ts
import MessagingPoc.Scheduler.TsDispatch
import MessagingPoc.Sse.Cluster
import MessagingPoc.Sse.Connect
import MessagingPoc.Sse.Contract
import MessagingPoc.Sse.EndToEnd
import MessagingPoc.Sse.Wire
import MessagingPoc.TopicMatch
import MessagingPoc.TsBus.Bus
import MessagingPoc.TsBus.Copies
import MessagingPoc.TsBus.Dedup
import MessagingPoc.TsBus.Delivery
import MessagingPoc.TsBus.FanOut
import MessagingPoc.TsBus.Order
import MessagingPoc.TsBus.Queue
import MessagingPoc.TsBus.Refinement
import MessagingPoc.TsBus.Selection
import MessagingPoc.TsBus.Steps
import MessagingPoc.TsBus.Stream
import MessagingPoc.TsBus.Turns
import MessagingPoc.TsBus.WorkConservation
