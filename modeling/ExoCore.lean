import ExoCore.Boot.Mode
import ExoCore.Mem.BestFit
import ExoCore.Mem.Coalesce
import ExoCore.Mem.Accounting
import ExoCore.Vfs.Identity
import ExoCore.Vfs.Paths
import ExoCore.Vfs.Ownership
import ExoCore.Vfs.Extents
import ExoCore.Vfs.Files
import ExoCore.Fat.Offsets
import ExoCore.Fat.Files
import ExoCore.Fat.FailedOpen
import ExoCore.Fat.Sharing
import ExoCore.Elf.Contents
import ExoCore.Proc.Quota
import ExoCore.Proc.Orphans
import ExoCore.Proc.Status
import ExoCore.Proc.Reclaim
import ExoCore.Proc.Descriptors
import ExoCore.Proc.Sound
import ExoCore.ProcTree.Terminated
import ExoCore.ProcTree.Subtree
import ExoCore.Sys.Bodies
import ExoCore.Shell.Dmesg
import ExoCore.Draw.Circle
import ExoCore.Display.Logo
import ExoCore.Display.Desktop
import ExoCore.Display.Rect
import ExoCore.Display.Pixels
