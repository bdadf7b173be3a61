import Ttntfs.Vfs.MountSafety
import Ttntfs.Logfile.ClusterMap
import Ttntfs.Logfile.DeletedRanges
import Ttntfs.Platform.InodeTableSafety
import Ttntfs.Platform.SyncSafety
import Ttntfs.Logfile.RecordPlacement
import Ttntfs.Logfile.TornWrites
import Ttntfs.Pagecache.SyncPruning
import Ttntfs.Ntfs.CollationRules
import Ttntfs.Vfs.ReaddirFailures
import Ttntfs.Ntfs.CompressRoundTrip
import Ttntfs.Ntfs.FreeSpace
import Ttntfs.Ntfs.MappingPairsSize
import Ttntfs.Logfile.DecoderAgreement
import Ttntfs.Pagecache.Truncation
import Ttntfs.Pagecache.Transparency
import Ttntfs.Vfs.OffsetRange
import Ttntfs.Ntfs.Trim
import Ttntfs.Ntfs.DecoderSafety
import Ttntfs.Vfs.WriteInode
import Ttntfs.Vfs.FallocatePromise
import Ttntfs.Ntfs.MultiSectorFixup
import Ttntfs.Platform.SubBlockWrites
import Ttntfs.Ntfs.MftBitmap
import Ttntfs.Vfs.SymlinkRoundTrip
import Ttntfs.Vfs.LinkResolution
import Ttntfs.Ntfs.EaRuns
import Ttntfs.Logfile.RestartBounds
import Ttntfs.Logfile.MirrorCopy
import Ttntfs.Logfile.LsnOffsets
