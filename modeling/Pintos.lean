import Pintos.Threads.Placement
import Pintos.Devices.Timer
import Pintos.Threads.Wakeup
import Pintos.Threads.HeldLocks
import Pintos.Threads.Release
import Pintos.Threads.ExitLoop
import Pintos.Devices.Intq
import Pintos.Devices.Partition
import Pintos.Devices.Rtc
import Pintos.Data.Printf
import Pintos.Data.Memmove
import Pintos.Data.Ustar
import Pintos.Data.Arithmetic
import Pintos.Data.Hash
import Pintos.Data.Sort
import Pintos.Threads.Allocator
import Pintos.Filesys.File
import Pintos.Filesys.Growth
import Pintos.Filesys.MapFile
import Pintos.Filesys.Extension
import Pintos.Filesys.FreeMapRace
import Pintos.Filesys.InodeCache
import Pintos.Filesys.DirRace
import Pintos.Userprog.Zombies
import Pintos.Userprog.Handshake
import Pintos.Userprog.Confinement
import Pintos.Filesys.Traversal
import Pintos.Filesys.CreateFails
import Pintos.Userprog.Readdir
import Pintos.Userprog.Descriptors
import Pintos.Userprog.Arguments
import Pintos.Filesys.TreeRuns
import Pintos.Shell.Msh
import Pintos.Shell.Parseline
