import Xv6.Proc.SleepWakeup
import Xv6.Proc.SleepLock
import Xv6.Proc.Times
import Xv6.Proc.Args
import Xv6.Proc.Pushcli
import Xv6.Mem.Entries
import Xv6.Mem.Memmove
import Xv6.Mem.Dealloc
import Xv6.Dev.Console
import Xv6.Dev.Ide
import Xv6.Dev.Printf
import Xv6.Dev.Mp
import Xv6.Dev.Boot
import Xv6.Log.Commit
import Xv6.Log.Group
import Xv6.Fs.Iput
import Xv6.Fs.Names
import Xv6.Files.Chunks
import Xv6.Files.Image
import Xv6.Buf.Tables
import Xv6.User.Tokens
import Xv6.User.Sbrk
import Xv6.User.Grep
