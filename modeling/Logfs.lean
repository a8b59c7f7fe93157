import Logfs.Lib.Wp
import Logfs.Lib.Loop
import Logfs.Lib.Levels
import Logfs.Lib.OrdMap
import Logfs.Btree.Node
import Logfs.Btree.Tree
import Logfs.Btree.Slots
import Logfs.Btree.Rep
import Logfs.Btree.Stack
import Logfs.Btree.Find
import Logfs.Btree.Query
import Logfs.Btree.Insert
import Logfs.Btree.Siblings
import Logfs.Btree.Remove
import Logfs.Btree.Map
import Logfs.Btree.Invariant
import Logfs.Btree.Absent
import Logfs.Btree.Assert
import Logfs.Btree.Failed
import Logfs.Btree.Merge
import Logfs.Btree.Concat
import Logfs.Btree.Visitor
import Logfs.Btree.Cost
import Logfs.Btree.Compact
import Logfs.Btree.Typed
import Logfs.Lib.Bytes
import Logfs.Lib.Sums
import Logfs.Lib.Bits
import Logfs.Lib.Radix
import Logfs.Lib.Supply
import Logfs.Mkfs.Abi
import Logfs.Mkfs.Super
import Logfs.Mkfs.Device
import Logfs.Mkfs.Segment
import Logfs.Mkfs.Readwrite
import Logfs.Mkfs.Addressing
import Logfs.Mkfs.Journal
import Logfs.Mkfs.Format
import Logfs.Mkfs.Walk
import Logfs.Mkfs.Room
import Logfs.Mkfs.Steps
import Logfs.Mkfs.Acts
import Logfs.Mkfs.Files
import Logfs.Mkfs.Stages
import Logfs.Mkfs.Prepare
import Logfs.Mkfs.Scan
import Logfs.Mkfs.Table
import Logfs.Mkfs.Areas
import Logfs.Mkfs.Space
import Logfs.Mkfs.Recorded
import Logfs.Mkfs.Segfile
import Logfs.Mkfs.Accounts
import Logfs.Mkfs.Decode
import Logfs.Mkfs.Image
import Logfs.Mkfs.Pointers
import Logfs.Mkfs.Commit
import Logfs.Mkfs.Copies
import Logfs.Mkfs.Reserve
import Logfs.Mkfs.Stores
import Logfs.Mkfs.Stale
import Logfs.Mkfs.Interrupted
import Logfs.Mkfs.Sequence
import Logfs.Mkfs.Listed
import Logfs.Mkfs.Indirect
import Logfs.Mkfs.Lookup
import Logfs.Mkfs.Follow
import Logfs.Mkfs.Contents
import Logfs.Mkfs.Finished
import Logfs.Mkfs.Reader
import Logfs.Mkfs.Mount
import Logfs.Mkfs.Crash
import Logfs.Mkfs.Uses
import Logfs.Mkfs.Census
import Logfs.Mkfs.Flash
import Logfs.Mkfs.Budget
import Logfs.Mkfs.Needed
import Logfs.Mkfs.Enough
