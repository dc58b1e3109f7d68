import Ufs370.Lib.Prog
import Ufs370.Lib.Triple
import Ufs370.Lib.Echo
import Ufs370.Lib.Runs
import Ufs370.Lib.WriteBack
import Ufs370.Lib.Bytes
import Ufs370.Lib.LinkedStack
import Ufs370.Lib.IndexForest
import Ufs370.Lib.IndexLayout
import Ufs370.Lib.CString
import Ufs370.Lib.SwapRemove
import Ufs370.Lib.Components
import Ufs370.Lib.Cursor
import Ufs370.Lib.Parts
import Ufs370.Lib.Mounting
import Ufs370.Lib.Lines
import Ufs370.Lib.Namespace
import Ufs370.Basic
import Ufs370.Pager
import Ufs370.PagerLaws
import Ufs370.ReadOnly
import Ufs370.Disk
import Ufs370.FreeBlock
import Ufs370.FreeBlockLaws
import Ufs370.Inode
import Ufs370.Datablock
import Ufs370.AddrLaws
import Ufs370.InodeLaws
import Ufs370.Ownership
import Ufs370.Growth
import Ufs370.Shrinkage
import Ufs370.Layout
import Ufs370.SizeChange
import Ufs370.BlockPartition
import Ufs370.FreeInodeLaws
import Ufs370.InodeHandout
import Ufs370.Sync
import Ufs370.Directory
import Ufs370.ForeachLaws
import Ufs370.Content
import Ufs370.AddrExact
import Ufs370.Iteration
import Ufs370.CacheLaws
import Ufs370.Dirents
import Ufs370.Sys
import Ufs370.HandleLaws
import Ufs370.Lookup
import Ufs370.LookupRefs
import Ufs370.Bytewise
import Ufs370.Handle
import Ufs370.HandlePut
import Ufs370.Opening
import Ufs370.Update
import Ufs370.SeekRead
import Ufs370.Append
import Ufs370.Putc
import Ufs370.FaultyAlloc
import Ufs370.DamagedList
import Ufs370.FailedExpand
import Ufs370.InodeNumbering
import Ufs370.DiskOpen
import Ufs370.FreeInodes
import Ufs370.Files
import Ufs370.File
import Ufs370.Calls
import Ufs370.Mount
import Ufs370.Dirlist
import Ufs370.Times
import Ufs370.BlockMoves
import Ufs370.RefLaws
import Ufs370.Tree
import Ufs370.Descent
import Ufs370.CallRefs
import Ufs370.MountRefs
import Ufs370.Session
import Ufs370.Cwd
import Ufs370.SeekTargets
import Ufs370.WriteFailures
import Ufs370.PagerShape
import Ufs370.FixPath
import Ufs370.MountTruth
import Ufs370.Visits
import Ufs370.Listing
import Ufs370.DirectoryLaws
import Ufs370.EntryUpdates
import Ufs370.DirectoryRuns
import Ufs370.Spared
import Ufs370.Creation
import Ufs370.FailedAllocate
import Ufs370.Absent
import Ufs370.Making
import Ufs370.MkdirPaths
import Ufs370.Rename
import Ufs370.Naming
import Ufs370.Deallocation
import Ufs370.Ancestors
import Ufs370.Hierarchy
import Ufs370.Links
import Ufs370.Unmounted
import Ufs370.Entering
import Ufs370.RenameRuns
import Ufs370.Renaming
import Ufs370.RenameTruth
import Ufs370.Orderly
import Ufs370.Linking
import Ufs370.NameRuns
import Ufs370.NameTruth
import Ufs370.Isolation
import Ufs370.Fgets
import Ufs370.OpenFiles
import Ufs370.SizeRuns
import Ufs370.MountRecords
import Ufs370.MountTable
