import IdeMultiarch.FsNotifier.Util

/-!
# fsnotifier - the system interface

The calls by which the notifier looks at the world outside its own memory.  The world
is a state {lit}`σ` that answers each call and may change with every call, so that
whatever other processes do between two calls is part of the answer function.  A
directory stream is a value {lit}`δ` that {lit}`readdir` hands back updated.
-/

namespace IdeMultiarch
namespace FsNotifier

/-- The values of {lit}`errno` the source distinguishes. -/
inductive Errno
  | EACCES
  | ENOENT
  | ENOSPC
  | ENOTDIR
  | ELOOP
  | ENAMETOOLONG
  | other (code : Nat)
deriving DecidableEq, Repr

/-- {lit}`st_mode`, as far as the source looks at it. -/
inductive FileType
  | reg
  | dir
  | other
deriving DecidableEq, Repr

/-- {lit}`d_type`, as far as the source looks at it. -/
inductive DirentType
  | DT_UNKNOWN
  | DT_DIR
  | other
deriving DecidableEq, Repr

/-- {lit}`struct dirent` -/
structure Dirent where
  name : Bytes
  type : DirentType
deriving DecidableEq, Repr

/-- {lit}`struct inotify_event`; the name is absent when {lit}`len` is zero. -/
structure InotifyEvent where
  wd : Int
  mask : UInt32
  name : Option Bytes
deriving DecidableEq, Repr

/-- {lit}`struct mntent`, as far as the source looks at it. -/
structure Mntent where
  dir : Bytes
  type : Bytes
deriving DecidableEq, Repr

/-! ## Event bits -/

def IN_MODIFY : UInt32 := 0x2
def IN_ATTRIB : UInt32 := 0x4
def IN_MOVED_FROM : UInt32 := 0x40
def IN_MOVED_TO : UInt32 := 0x80
def IN_CREATE : UInt32 := 0x100
def IN_DELETE : UInt32 := 0x200
def IN_DELETE_SELF : UInt32 := 0x400
def IN_MOVE_SELF : UInt32 := 0x800
def IN_UNMOUNT : UInt32 := 0x2000
def IN_Q_OVERFLOW : UInt32 := 0x4000
def IN_IGNORED : UInt32 := 0x8000
def IN_ISDIR : UInt32 := 0x40000000

/-- The C truth value of {lit}`mask & bits`. -/
def anyBit (mask bits : UInt32) : Bool :=
  mask &&& bits != 0

/-! ## System calls -/

/-- The system and library calls of {lit}`inotify.c` and {lit}`main.c` that depend on
the world.  {lit}`getmntent` stands for the loop over the whole mount table, and
{lit}`read` for reading one buffer of events. -/
inductive SysCall (δ : Type)
  | inotifyAddWatch (path : Bytes)
  | inotifyRmWatch (wd : Nat)
  | opendir (path : Bytes)
  | readdir (dir : δ)
  | stat (path : Bytes)
  | realpath (path : Bytes)
  | read
  | getmntent

/-- What a call answers.  The kernel's watch descriptors are not negative. -/
@[reducible]
def SysCall.Answer {δ : Type} : SysCall δ → Type
  | .inotifyAddWatch _ => Except Errno Nat
  | .inotifyRmWatch _ => Except Errno Unit
  | .opendir _ => Except Errno δ
  | .readdir _ => Option (Dirent × δ)
  | .stat _ => Except Errno FileType
  | .realpath _ => Option Bytes
  | .read => Except Errno (List InotifyEvent)
  | .getmntent => Option (List Mntent)

/-- A world that answers system calls. -/
abbrev Os (σ δ : Type) := (c : SysCall δ) → σ → c.Answer × σ

end FsNotifier
end IdeMultiarch
