import Parthenope.ElfLayout
import Parthenope.ElfRelocation
import Parthenope.ElfTracker
import Parthenope.ElfAbsolute
import Parthenope.CacheFlush
import Parthenope.InstallMain
import Parthenope.BootstrapJump
import Parthenope.LinkedList
import Parthenope.MenuList
import Parthenope.MenuFormat
import Parthenope.MenuTranslation
import Parthenope.MenuFound
import Parthenope.MenuOffset
import Parthenope.MenuCountdown
import Parthenope.PartitionTable
import Parthenope.CdromTermination
import Parthenope.SfsChecksum
import Parthenope.SfsDescent
import Parthenope.LoadFile
import Parthenope.BlockChecksum
import Parthenope.NodeList
import Parthenope.InstallRoom
import Parthenope.MenuKeys
import Parthenope.MenuModules
import Parthenope.MenuPartition
import Parthenope.MenuSpacing
import Parthenope.CdromRoom
import Parthenope.CdromLogical
import Parthenope.SfsScan
import Parthenope.SfsRoom
import Parthenope.CdromPath
import Parthenope.ElfImage
import Parthenope.ElfRecord
import Parthenope.InstallPartitions
import Parthenope.AosStart
import Parthenope.ArosStart
import Parthenope.DiskBoot
import Parthenope.InstallRerun
import Parthenope.MenuWriter
import Parthenope.FollowingView
import Parthenope.MenuChoice
import Parthenope.CdStart
import Parthenope.DiskStart
import Parthenope.AosVolume
