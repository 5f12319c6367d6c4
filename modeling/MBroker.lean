import MBroker.Lib.CMemory
import MBroker.Lib.Machine
import MBroker.Lib.Counting
import MBroker.Lib.Threads
import MBroker.Lib.Liveness
import MBroker.Lib.External
import MBroker.Lib.Atomic
import MBroker.Lib.Ring
import MBroker.Lib.Framing
import MBroker.Lib.Sorting
import MBroker.Fs.State
import MBroker.Fs.Operations
import MBroker.Fs.View
import MBroker.Fs.Inv
import MBroker.Fs.Calls
import MBroker.Fs.Updates
import MBroker.Fs.Preserve
import MBroker.Fs.Init
import MBroker.Fs.Contents
import MBroker.Fs.Paths
import MBroker.Fs.Consistency
import MBroker.Fs.Catalog
import MBroker.Fs.Blank
import MBroker.Fs.Unlink
import MBroker.Fs.Leaks
import MBroker.Fs.Extents
import MBroker.Fs.Reads
import MBroker.Fs.Writes
import MBroker.Fs.Opens
import MBroker.Fs.Reinit
import MBroker.Fs.Assertions
import MBroker.Fs.Isolation
import MBroker.Fs.FlatStore
import MBroker.Fs.Refinement
import MBroker.Fs.History
import MBroker.Queue.Pcq
import MBroker.Queue.Locks
import MBroker.Queue.Fifo
import MBroker.Queue.Progress
import MBroker.Queue.Termination
import MBroker.Queue.Calls
import MBroker.Broker.Requests
import MBroker.Broker.Workers
import MBroker.Broker.Runs
import MBroker.Broker.Creation
import MBroker.Broker.OpenFiles
import MBroker.Broker.Capacity
import MBroker.Broker.Publishers
import MBroker.Broker.Assertions
import MBroker.Broker.Termination
import MBroker.Broker.Serial
import MBroker.Broker.Service
import MBroker.Broker.ServiceHandlers
import MBroker.Broker.ServiceRuns
import MBroker.Broker.ServiceCreations
import MBroker.Broker.Handles
import MBroker.Broker.Boxes
import MBroker.Broker.BoxHolder
import MBroker.Broker.BoxHolderLock
import MBroker.Protocol.Protocols
import MBroker.Protocol.RegisterPipe
import MBroker.Protocol.RawBytes
import MBroker.Protocol.Manager
import MBroker.Protocol.Messages
import MBroker.Protocol.Clients
import MBroker.Protocol.Listing
import MBroker.Broker.Process
import MBroker.Broker.Delivery
import MBroker.Broker.Completion
import MBroker.Broker.Outcome
import MBroker.Broker.Origins
import MBroker.Broker.Orderly
import MBroker.Broker.OrderlyWorkers
import MBroker.Broker.OrderlyClients
