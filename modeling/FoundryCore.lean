import FoundryCore.AggregatedOutput
import FoundryCore.Cache.Consume
import FoundryCore.Cache.Filter
import FoundryCore.Cache.Preprocessed
import FoundryCore.ForkDb.Shutdown
import FoundryCore.ForkDb.Updates
import FoundryCore.Remapping
import FoundryCore.Resolver.SourceSets
import FoundryCore.Resolver.StandardJson
import FoundryCore.Sparse
import FoundryCore.WalletBrowser.Disconnect
import FoundryCore.WalletBrowser.SingleAnswer
import FoundryCore.Cache.Entries
import FoundryCore.Compile.Project
import FoundryCore.Cache.Builds
import FoundryCore.Cache.Profiles
import FoundryCore.Compile.Runs
import FoundryCore.Compile.Builds
import FoundryCore.Compile.Profiles
import FoundryCore.ForkDb.Slots
import FoundryCore.ForkDb.Pinned
import FoundryCore.ForkDb.Commit
import FoundryCore.SourceMap.Grammar
import FoundryCore.SourceMap.Text
import FoundryCore.SourceMap.Written
import FoundryCore.SourceMap.RoundTrip
import FoundryCore.Library.Preorder
import FoundryCore.Ast.Basic
import FoundryCore.Ast.Visitor
import FoundryCore.Ast.References
import FoundryCore.Remappings.Find
import FoundryCore.Remappings.Text
import FoundryCore.Library.Find
import FoundryCore.Library.First
import FoundryCore.Remappings.Frames
import FoundryCore.Remappings.Combine
import FoundryCore.Remappings.Order
import FoundryCore.Remappings.Inside
import FoundryCore.Flatten.Updates
import FoundryCore.Bytecode.AllReferences
import FoundryCore.Bytecode.Placeholders
import FoundryCore.Bytecode.Strip
import FoundryCore.Flatten.Deps
import FoundryCore.Flatten.Injective
import FoundryCore.Flatten.Orders
import FoundryCore.Flatten.Combining
import FoundryCore.Flatten.Operators
import FoundryCore.Vyper.Pragmas
import FoundryCore.Cache.Tokens
import FoundryCore.Diagnostics.Filter
import FoundryCore.Diagnostics.Carets
import FoundryCore.Library.Ordering
import FoundryCore.EvmVersion
import FoundryCore.Resolver.Restrictions
import FoundryCore.Resolver.Tree
import FoundryCore.ContractInfo
import FoundryCore.ForkDb.Reference
import FoundryCore.ForkDb.Pass
import FoundryCore.Cache.Written
import FoundryCore.MultiWallet
import FoundryCore.BlockExplorers.SourceTree
import FoundryCore.BlockExplorers.SourceTreeFiles
import FoundryCore.BlockExplorers.Numeric
import FoundryCore.BlockExplorers.Units
import FoundryCore.BlockExplorers.Amounts
import FoundryCore.ForkDb.Progress
import FoundryCore.ForkDb.Fetches
import FoundryCore.ForkDb.Sessions
import FoundryCore.ChannelDb
import FoundryCore.WalletBrowser.Fifo
import FoundryCore.WalletBrowser.Verified
import FoundryCore.Sanitize
import FoundryCore.Compile.Fresh
import FoundryCore.BlockExplorers.Cache
import FoundryCore.ConfigurableArtifacts
