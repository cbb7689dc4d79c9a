import MatrixZht.Lib.Tokens
import MatrixZht.Lib.Numeral
import MatrixZht.Lib.FirstInsert
import MatrixZht.Lib.PriorityQueue
import MatrixZht.Util
import MatrixZht.Messages
import MatrixZht.Record
import MatrixZht.Transfer
import MatrixZht.Steal
import MatrixZht.Store
import MatrixZht.Requests
import MatrixZht.Tokenizers
import MatrixZht.Submit
import MatrixZht.Zht.Novoht
import MatrixZht.Zht.Count
import MatrixZht.Zht.Iterator
import MatrixZht.Zht.Zpack
import MatrixZht.Zht.Server
import MatrixZht.Zht.Client
import MatrixZht.Zht.Texts
import MatrixZht.Zht.Append
import MatrixZht.Zht.Replies
import MatrixZht.Zht.Routing
import MatrixZht.Zht.Refinement
import MatrixZht.Zht.Nulls
import MatrixZht.Zht.Restart
import MatrixZht.Zht.Connections
import MatrixZht.Fetch
import MatrixZht.Framing
import MatrixZht.Neighbors
import MatrixZht.Parents
import MatrixZht.Shapes
import MatrixZht.Cluster.Client
import MatrixZht.Cluster.Moves
import MatrixZht.Cluster.TaskText
import MatrixZht.Cluster.Conserve
import MatrixZht.Cluster.Exact
import MatrixZht.Cluster.Quiescent
import MatrixZht.Cluster.Startup
import MatrixZht.Cluster.Completion
import MatrixZht.Cluster.Cache
import MatrixZht.Cluster.Push
import MatrixZht.Cluster.Placement
import MatrixZht.Cluster.LocalQueue
import MatrixZht.Zht.Calls
import MatrixZht.Zht.Wire
import MatrixZht.Cluster.Dataless
import MatrixZht.Zht.Callbacks
import MatrixZht.Zht.Threads
