import AionMiner.Blake2.Leaves
import AionMiner.Blake2.Node
import AionMiner.Cli.Listener
import AionMiner.Cpu.Filter
import AionMiner.Cpu.Ranges
import AionMiner.Cpu.Round
import AionMiner.Cpu.Tags
import AionMiner.Cpu.Verify
import AionMiner.Cuda.Leftover
import AionMiner.Daemon.Batch
import AionMiner.Equihash.PackingRoundTrip
import AionMiner.Miner.Compact
import AionMiner.Miner.Serialize
import AionMiner.Mining.Pickup
import AionMiner.Network.Process
import AionMiner.Payments.Accounts
import AionMiner.Payments.Returns
import AionMiner.Peer.Garbage
import AionMiner.Pool.Current
import AionMiner.Pool.HexStrings
import AionMiner.Pool.Report
import AionMiner.Pool.Verified
import AionMiner.Session.Response
import AionMiner.Session.Work
import AionMiner.Solver.CollisionArrays
import AionMiner.Stratum.Bans
import AionMiner.Stratum.Chunks
import AionMiner.Stratum.Credit
import AionMiner.Stratum.Windows
import AionMiner.VarDiff.Manage
