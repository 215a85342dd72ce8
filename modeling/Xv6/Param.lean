import Mathlib.Tactic.NormNum

/-!
# Compile-time constants

`param.h` and the sizes of `fs.h`, under their C names.
-/

namespace Xv6

def NPROC : ℕ := 64
def NCPU : ℕ := 8
def NOFILE : ℕ := 16
def NFILE : ℕ := 100
def NINODE : ℕ := 50
def NDEV : ℕ := 10
def MAXARG : ℕ := 32
def MAXOPBLOCKS : ℕ := 10
def LOGSIZE : ℕ := MAXOPBLOCKS * 3
def NBUF : ℕ := MAXOPBLOCKS * 3
def FSSIZE : ℕ := 1000
def BSIZE : ℕ := 512
def DIRSIZ : ℕ := 14
def ROOTINO : ℕ := 1

end Xv6
