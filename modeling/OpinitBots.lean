import OpinitBots.Bytes
import OpinitBots.Store
import OpinitBots.Merkle.Types
import OpinitBots.Merkle.Merkle
import OpinitBots.Merkle.Tree
import OpinitBots.Merkle.Insert
import OpinitBots.Merkle.Finalize
import OpinitBots.Merkle.Frame
import OpinitBots.Merkle.Proofs
import OpinitBots.Merkle.Lifecycle
import OpinitBots.Merkle.Prune
import OpinitBots.Merkle.Wrap
import OpinitBots.Merkle.Resume
import OpinitBots.Merkle.Errors
import OpinitBots.Merkle.Immutable
import OpinitBots.Merkle.Writes
import OpinitBots.Merkle.Recovery
import OpinitBots.Merkle.Reorg
import OpinitBots.Node.Broadcaster
import OpinitBots.Node.Runs
import OpinitBots.Host.Queue
