import ServerCore.Foundation.TransitionSystem
import ServerCore.Foundation.ByteMemory
import ServerCore.Foundation.LinkedChain
import ServerCore.Foundation.Counting
import ServerCore.Foundation.GrowingList
import ServerCore.Foundation.Hands
import ServerCore.Foundation.Blocks
import ServerCore.Foundation.OrderedMap
import ServerCore.Foundation.Projection
import ServerCore.Foundation.Rounds
import ServerCore.Foundation.SharedPtr
import ServerCore.Foundation.Machine
import ServerCore.Foundation.Stock
import ServerCore.Foundation.Progress
import ServerCore.Foundation.HandsCounting
import ServerCore.Foundation.Resources
import ServerCore.Lock.Spinlock
import ServerCore.Lock.ExclusiveLockHolder
import ServerCore.Lock.SpinlockProgress
import ServerCore.Lock.ExclusiveProgress
import ServerCore.ThreadManager.ThreadPool
import ServerCore.ThreadManager.ThreadPoolRun
import ServerCore.ThreadManager.ThreadPoolProgress
import ServerCore.MemoryPool.Heap
import ServerCore.MemoryPool.SegregatedStorage
import ServerCore.MemoryPool.Pool
import ServerCore.MemoryPool.PoolGrowth
import ServerCore.MemoryPool.PoolRun
import ServerCore.MemoryPool.PoolStock
import ServerCore.MemoryPool.Purge
import ServerCore.MemoryPool.GrowthLaws
import ServerCore.MemoryPool.Release
import ServerCore.MemoryPool.FastPoolAllocator
import ServerCore.MemoryPool.SingletonPool
import ServerCore.MemoryPool.SingletonPoolLists
import ServerCore.MemoryPool.SingletonPoolRun
import ServerCore.MemoryPool.RemoteFree
import ServerCore.MemoryPool.RemoteFreeOwner
import ServerCore.MemoryPool.RemoteFreeRun
import ServerCore.MemoryPool.ObjectPool
import ServerCore.MemoryPool.ObjectPoolOwnership
import ServerCore.MemoryPool.ObjectPoolRun
import ServerCore.MemoryPool.ObjectPoolStock
import ServerCore.MemoryPool.ObjectPoolThreads
import ServerCore.MemoryPool.Preallocate
import ServerCore.MemoryPool.ObjectAlignment
import ServerCore.MemoryPool.OutOfMemory
import ServerCore.MemoryPool.ObjectPoolLifetime
import ServerCore.UdpServer.Datagram
import ServerCore.UdpServer.SessionManager
import ServerCore.UdpServer.Steps
import ServerCore.UdpServer.ReceiveBuffers
import ServerCore.UdpServer.ReceiveCredit
import ServerCore.UdpServer.Delivery
import ServerCore.UdpServer.SessionPlaces
import ServerCore.UdpServer.SessionLifetime
import ServerCore.UdpServer.HandlerOrder
import ServerCore.UdpServer.HandlerThreads
import ServerCore.UdpServer.ConcurrentAcks
import ServerCore.UdpServer.SessionTable
import ServerCore.UdpServer.DatagramGrammar
import ServerCore.UdpServer.SessionOwnership
import ServerCore.UdpServer.SessionMemory
import ServerCore.UdpServer.TickEffect
import ServerCore.UdpServer.Activity
import ServerCore.UdpServer.SessionHandlers
import ServerCore.UdpServer.ClientIsolation
import ServerCore.UdpServer.TableRounds
import ServerCore.UdpServer.SessionLedger
import ServerCore.UdpServer.SerialRuns
import ServerCore.UdpServer.PacketData
import ServerCore.UdpServer.PacketCodec
import ServerCore.UdpServer.PacketStorage
import ServerCore.Server.Buffer
import ServerCore.Server.BufferQueue
import ServerCore.Server.BufferHolder
import ServerCore.Server.Receive
import ServerCore.Server.Reassembly
import ServerCore.Server.ReceivePieces
import ServerCore.Server.Configuration
import ServerCore.Server.Send
import ServerCore.Server.SendCapacity
import ServerCore.Server.BufferLocks
import ServerCore.Server.SendServer
import ServerCore.Server.SendCalls
import ServerCore.Server.SendProgress
import ServerCore.Server.IocpWork
import ServerCore.Server.ClientLifetime
import ServerCore.Server.ClientSlots
import ServerCore.Server.ClientManager
import ServerCore.Server.ClientCount
import ServerCore.Server.ContextConservation
import ServerCore.Server.ReceiveToken
import ServerCore.Server.PostReceive
import ServerCore.Server.ReceiveServer
import ServerCore.Server.ReceiveRuns
import ServerCore.Foundation.EventLog
import ServerCore.Server.Callbacks
import ServerCore.Server.CallbackOrder
import ServerCore.Foundation.Linearization
