import KeyServer.Proofs.Server.Clients
import KeyServer.Proofs.Connection.Pipelining
import KeyServer.Proofs.Engine.Refinement
import KeyServer.Proofs.HashTable.Refinement
import KeyServer.Proofs.HashTable.Growth
import KeyServer.Proofs.RankTree.Arrangement
import KeyServer.Proofs.SortedSet.Refinement
import KeyServer.Proofs.DeadlineHeap.Refinement
import KeyServer.Proofs.Engine.Keeping
import KeyServer.Proofs.Engine.Correspondence
import KeyServer.Proofs.Engine.Lifetimes
import KeyServer.Proofs.Response.Exactness
import KeyServer.Proofs.Buffer.Refinement
import KeyServer.Proofs.Engine.Draining
import KeyServer.Proofs.Request.Exactness
import KeyServer.Proofs.Server.Serialisation
import KeyServer.Proofs.Server.Consistency
import KeyServer.Proofs.Server.Eviction
import KeyServer.Proofs.Server.Punctuality
import KeyServer.Proofs.Connection.ReplySizes
import KeyServer.Proofs.WorkerPool.Accounts
import KeyServer.Proofs.SortedSet.Scans
import KeyServer.Proofs.RankTree.Walks
import KeyServer.Proofs.RankTree.Heights
import KeyServer.Proofs.RankTree.Numbers
import KeyServer.Proofs.Response.Brackets
import KeyServer.Proofs.Engine.Replies
import KeyServer.Proofs.Engine.Refusals
import KeyServer.Proofs.Server.Waiting
import KeyServer.Proofs.Connection.Memory
import KeyServer.Proofs.Engine.Listings
import KeyServer.Proofs.Frame.Reading
import KeyServer.Proofs.Command
import KeyServer.Proofs.IdleList.Refinement
