import FlatModules.Build.Scripted
import FlatModules.Main
import FlatModules.Tables
import FlatModules.Proofs.Build.Content
import FlatModules.Proofs.Build.Selection
import FlatModules.Proofs.Tree.Members
import FlatModules.Proofs.Tree.Originals
import FlatModules.Proofs.Tree.Entities
import FlatModules.Proofs.Tree.Exact
import FlatModules.Proofs.Tree.Shelf
import FlatModules.Proofs.Tree.Scoping
import FlatModules.Proofs.Tree.Repeats
import FlatModules.Proofs.Build.Correct
import FlatModules.Proofs.Build.Growth
import FlatModules.Proofs.Build.Clean
import FlatModules.Proofs.Build.Manifest
import FlatModules.Proofs.Build.Levels
import FlatModules.Proofs.Build.Rescan
import FlatModules.Proofs.Build.Cache
import FlatModules.Proofs.Build.Signals
import FlatModules.Proofs.Build.Vouched
import FlatModules.Proofs.Build.Covered
import FlatModules.Proofs.Build.Subtree
import FlatModules.Proofs.Build.Untold
import FlatModules.Proofs.Build.Failing
import FlatModules.Proofs.Build.Incremental
import FlatModules.Proofs.Build.RootPaths
import FlatModules.Proofs.Build.Requiring
import FlatModules.Proofs.Build.Dispatching
import FlatModules.Proofs.Build.Executables
import FlatModules.Proofs.Disk.Replacing
import FlatModules.Proofs.BuildLog.Grammar
import FlatModules.Proofs.BuildLog.Growing
import FlatModules.Proofs.Digest.Unambiguous
import FlatModules.Proofs.Analyzer.ReadBack
