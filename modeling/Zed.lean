import Zed.SumTree.TreeMap.Run
import Zed.Agent.ToolPermissions.Allow
import Zed.DbtUi.Lineage
import Zed.DbtUi.LineageSql.Positions
import Zed.DbtUi.LineageSql.Scoping
import Zed.DbtUi.Xdi.Settled
import Zed.Rpc.Peer.InOrder
import Zed.Text.UndoRedo.Restores
import Zed.DbtUi.El.Mcp.Paging
import Zed.DbtUi.El.Mcp.Catalog
import Zed.StreamingDiff.Rewrites
import Zed.DbtUi.El.ListingCache.Final
import Zed.DbtUi.Xdi.Writes
import Zed.SumTree.Edit
import Zed.DbtUi.Xdi.Names
import Zed.DbtUi.Lineage.Manifest.Mirror
import Zed.DbtUi.Lineage.Scan.Unions
import Zed.DbtUi.Lineage.Scan.Slices
import Zed.DbtUi.El.LocalRunner.Restore
import Zed.DbtUi.Lineage.Layout.Hood
import Zed.DbtUi.El.Mcp.ReadOnly
import Zed.DbtUi.GraphLayout.Boxes
import Zed.Text.History.Merge
import Zed.Text.FragmentBuilder
import Zed.Text.Insertion
import Zed.Editor.BlockMap.Sound
import Zed.Editor.WrapMap.Boundaries
import Zed.Rope.Readers
import Zed.ActionLog.UserEdits
import Zed.ActionLog.Committed
import Zed.Path.Spellings
import Zed.Worktree.Stream.Rounds
import Zed.Fuzzy.Matcher.Reported
import Zed.BufferDiff.Compare.Coverage
import Zed.Worktree.Traversal.Children
import Zed.BufferDiff.Hunks.Reproduced
import Zed.Rope.SetBit
import Zed.DbtUi.Xdi.Digests
import Zed.DbtUi.El.Scaffold.Preserved
import Zed.Language.TextDiff.Unified
import Zed.Agent.StreamingParser
import Zed.SumTree.Tree.Calls
import Zed.SumTree.Tree.Find
import Zed.SumTree.Tree.Update
import Zed.Worktree.Updates
