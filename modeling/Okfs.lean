import Okfs.Lib.Runs
import Okfs.Vfs.Dcache
import Okfs.Vfs.Readdir
import Okfs.Vfs.DeleteWhileReading
import Okfs.Vfs.Namespace
import Okfs.Vfs.PathTable
import Okfs.Vfs.Lookup
import Okfs.Vfs.Listing
import Okfs.Vfs.Descriptors
import Okfs.Vfs.Calls
import Okfs.Vfs.CachedOnce
import Okfs.Vfs.OpenFile
import Okfs.Vfs.FileSize
import Okfs.Vfs.Seek
import Okfs.Vfs.StatCache
import Okfs.Vfs.AccessMode
import Okfs.Vfs.TwoPositions
import Okfs.Vfs.FailedOpen
import Okfs.Vfs.WideCalls
import Okfs.Vfs.NameiLaws
import Okfs.Vfs.DirentBytes
import Okfs.Shfs.CommandLine
import Okfs.Shfs.Garbage
import Okfs.Shfs.Truncate
import Okfs.Shfs.Readlink
import Okfs.Shfs.TimeText
import Okfs.Shfs.LsTime
import Okfs.Shfs.LsNames
import Okfs.Shfs.MountOptions
import Okfs.Shfs.MountSpec
import Okfs.Shfs.Handshake
import Okfs.Shfs.ParseDir
import Okfs.Shfs.SentPaths
import Okfs.Vfs.DirNumbers
import Okfs.Vfs.Mount
import Okfs.Task.Shares
import Okfs.Task.Copies
import Okfs.Task.FsClose
import Okfs.Task.Patches
import Okfs.Task.SigHandlers
import Okfs.Task.SigQueue
import Okfs.Task.WaitReap
import Okfs.Task.WaitLookups
import Okfs.Task.WaitGroups
import Okfs.Task.PathArgs
import Okfs.Task.FdSlots
import Okfs.Task.CallNumbers
import Okfs.Task.Umask
import Okfs.Task.Getstr
import Okfs.Task.StopSlave
import Okfs.Shfs.Scripts
import Okfs.Shfs.Replies
import Okfs.Shfs.SentCommands
import Okfs.Shfs.Exchange
import Okfs.Shfs.RemoteFile
import Okfs.Shfs.ShellRead
import Okfs.Shfs.RemoteTimes
import Okfs.Shfs.Statfs
import Okfs.Task.SlaySlaves
import Okfs.Shfs.OverSocket
import Okfs.Vfs.LocalfsInside
import Okfs.Shfs.RemoteTree
import Okfs.Shfs.RemoteListing
