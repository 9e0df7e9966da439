import BitcoinCanister.Blocktree
import BitcoinCanister.Blocktree.Positions
import BitcoinCanister.Blocktree.Search
import BitcoinCanister.Blocktree.Chains
import BitcoinCanister.Blocktree.Extend
import BitcoinCanister.Blocktree.Runs
import BitcoinCanister.Blocktree.Growth
import BitcoinCanister.UnstableBlocks
import BitcoinCanister.UnstableBlocks.Stability
import BitcoinCanister.State
import BitcoinCanister.State.Calls
import BitcoinCanister.State.Runs
import BitcoinCanister.State.Headers
import BitcoinCanister.State.StableSide
import BitcoinCanister.State.ChainFeed
import BitcoinCanister.BuildBalances
import BitcoinCanister.BuildBalances.Totals
import BitcoinCanister.BuildBalances.Panics
import BitcoinCanister.TestUtils
