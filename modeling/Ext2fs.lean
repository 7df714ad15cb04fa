import Ext2fs.FileRuns
import Ext2fs.TruncateCorrect
import Ext2fs.ExtentInsert
import Ext2fs.ExtentTruncate
import Ext2fs.InodeCnv
import Ext2fs.LockRules
import Ext2fs.MetaRuns
import Ext2fs.DirRuns
import Ext2fs.ReadDirRuns
import Ext2fs.DirEmpty
import Ext2fs.Fsck.DirBytes
import Ext2fs.JournalBuffers
import Ext2fs.CheckPath
import Ext2fs.FileLimits
import Ext2fs.MountRuns
import Ext2fs.IhashRuns
import Ext2fs.SlotRuns
import Ext2fs.DirtyRuns
import Ext2fs.NewInode
import Ext2fs.Journal
import Ext2fs.Rename
import Ext2fs.LookupReadonly
import Ext2fs.Fsck.Inodes
import Ext2fs.Fsck.InodeRepair
import Ext2fs.Fsck.SbRuns
import Ext2fs.Fsck.SbCarried
import Ext2fs.Fsck.Pass3
import Ext2fs.Fsck.DupCorrect
import Ext2fs.Lib.PtrPlaces
import Ext2fs.Fsck.Visits
import Ext2fs.Fsck.Pool
import Ext2fs.Fsck.Divisors
import Ext2fs.Lib.Tracked
import Ext2fs.Newfs.Layout
import Ext2fs.Newfs.Steps
import Ext2fs.Newfs.LayoutRight
import Ext2fs.Lib.WriteBack
import Ext2fs.Fsck.Pass5
import Ext2fs.Fsck.Pass5Counts
import Ext2fs.Fsck.Pass5Right
import Ext2fs.Lib.Splice
import Ext2fs.Fsck.DirScan
import Ext2fs.Fsck.Pass2
import Ext2fs.Fsck.Pass2Checks
import Ext2fs.Fsck.Pass2Keeps
import Ext2fs.Lib.MaxRuns
import Ext2fs.Bitmap
import Ext2fs.ClusterAcct
import Ext2fs.GroupMap
import Ext2fs.GroupAlloc
import Ext2fs.BlockReserve
import Ext2fs.ExtentUndo
import Ext2fs.Lib.Stopping
import Ext2fs.Newfs.Image
import Ext2fs.Newfs.Maps
import Ext2fs.Newfs.Groups
import Ext2fs.Newfs.FirstInodes
import Ext2fs.Newfs.MapsRight
import Ext2fs.Newfs.Slots
import Ext2fs.Newfs.Values
import Ext2fs.Newfs.Invariants
import Ext2fs.Newfs.Addresses
import Ext2fs.Newfs.Mounted
import Ext2fs.Newfs.Statfs
import Ext2fs.LookupCache
import Ext2fs.SbGroups
import Ext2fs.HashAlloc
import Ext2fs.ExtentPath
import Ext2fs.Metablocks
import Ext2fs.ExtentRemove
import Ext2fs.Blockmap
import Ext2fs.Symlink
import Ext2fs.Fsck.Expand
import Ext2fs.Fsck.PoolRuns
import Ext2fs.NewVolume
import Ext2fs.RepairedVolume
import Ext2fs.VolumeRuns
import Ext2fs.AllocRefine
import Ext2fs.Fsck.Pass5Again
import Ext2fs.CheckedRuns
import Ext2fs.DirPref
import Ext2fs.Fsck.Pass4
import Ext2fs.Lib.References
import Ext2fs.Vnops
import Ext2fs.NameRuns
