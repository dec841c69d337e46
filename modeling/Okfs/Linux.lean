import Okfs.Lib.ByteMemory
import Mathlib.Data.UInt

/-!
# OKFS — numbers of the kernel's headers

The limits, flags and commands that both the handlers of the filesystems and those of the
tasks read. Registers and structures have them as words of 32 bits.
-/

namespace Okfs

open ByteMemory

def OPEN_MAX : Nat := 256

/-- A limit; `okfs_before_creat` puts it where the call number goes. -/
def NR_OPEN : Nat := 1024

def F_DUPFD : Nat := 0
def F_SETFD : Nat := 2
def F_GETFL : Nat := 3
def F_SETFL : Nat := 4
def F_GETLK : Nat := 5
def F_SETLK : Nat := 6
def F_SETLKW : Nat := 7
def F_SETOWN : Nat := 8
def F_GETOWN : Nat := 9
def F_SETSIG : Nat := 10
def F_GETSIG : Nat := 11
def F_SETLEASE : Nat := 1024
def F_GETLEASE : Nat := 1025
def F_NOTIFY : Nat := 1026
def FD_CLOEXEC : Nat := 1

def SEEK_SET : Int := 0
def SEEK_CUR : Int := 1
def SEEK_END : Int := 2

def O_RDONLY : UInt32 := 0
def O_WRONLY : UInt32 := 1
def O_RDWR : UInt32 := 2
def O_ACCMODE : UInt32 := 3
def O_CREAT : UInt32 := 0o100
def O_EXCL : UInt32 := 0o200
def O_TRUNC : UInt32 := 0o1000
def O_APPEND : UInt32 := 0o2000

def SA_NOCLDSTOP : Word := 1

end Okfs
