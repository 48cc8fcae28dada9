import MyFsck.LinkCounts
import MyFsck.BlockMarks
import MyFsck.Forest
import MyFsck.BlockScan
import MyFsck.Agreement
import MyFsck.BlockMap
import MyFsck.PartitionLoop
import MyFsck.PassOrder
import MyFsck.GroupLoop
import MyFsck.FileMarks
import MyFsck.BootBlock
import MyFsck.AdoptionRuns
import MyFsck.NameLookup
import MyFsck.EbrWalk
import MyFsck.EbrChain
import MyFsck.BitmapLookup
import MyFsck.SuperGeometry
import MyFsck.CleanRuns
import MyFsck.NewEntry
import MyFsck.InodeUpdate
import MyFsck.BitmapFlips
import MyFsck.EntryBounds
import MyFsck.PathCounts
import MyFsck.BitmapsTwice
import MyFsck.DotsTwice
import MyFsck.Reports
import MyFsck.DiskRestored
import MyFsck.SettledRuns
import MyFsck.Main
import MyFsck.Script
