import NetLibrary.Theory.Files

/-!
# Writing a file and renaming it

The value of a `Status` of `status.h`, and `writeContent`, `renameFile` and `renameSave` of `file.h`. What
the system calls return is an input, and a function is `none` where the files do not allow it: only
failures are possible everywhere.
-/

namespace NetLibrary.File

abbrev FileSystem := Files (List Char) UInt8

/-- The number of an error. -/
abbrev Errno := { e : Nat // e ≠ 0 }

structure Status where
  code : Int := 0
  msg : List Char := []
  deriving DecidableEq, Repr

namespace Status

def ok (s : Status) : Bool := s.code == 0

/-- `ioError(op, name)` after a call that has set `errno`. -/
def ioError (strerror : Errno → List Char) (op : String) (name : List Char) (errno : Errno) : Status where
  code := errno.val
  msg := op.toList ++ ' ' :: name ++ ' ' :: strerror errno

end Status

/-- What the system calls of one `renameSave` return. -/
structure Calls where
  openRet : Except Errno Unit
  writeRet : Except Errno Nat
  unlinkRet : Except Errno Unit
  renameRet : Except Errno Unit
  deriving DecidableEq

/-- The most bytes that one `write` takes. An `int` can hold the number. -/
def maxWrite : Nat := 0x7ffff000

variable (strerror : Errno → List Char) (c : Calls)

def writeContent (fs : FileSystem) (fname : List Char) (cont : List UInt8) : Option (FileSystem × Status) :=
  match c.openRet with
  | .error errno => some (fs, Status.ioError strerror "open" fname errno)
  | .ok () => do
    let (fs, fd) ← fs.openFile fname
    -- `O_TRUNC`
    let fs := fs.setData fd []
    match c.writeRet with
    | .error errno => some (fs, Status.ioError strerror "write" fname errno)
    | .ok r => if r ≤ cont.length ∧ r ≤ maxWrite then some (fs.setData fd (cont.take r), {}) else none

/-- `unlink(fname.c_str())`. -/
def unlink (fs : FileSystem) (fname : List Char) : Option FileSystem :=
  match c.unlinkRet with
  | .error _ => some fs
  | .ok () => if fs.entry fname = none then none else some (fs.unlink fname)

def renameFile (fs : FileSystem) (fname target : List Char) : Option (FileSystem × Status) :=
  match c.renameRet with
  | .error errno => some (fs, Status.ioError strerror "rename" (fname ++ ' ' :: target) errno)
  | .ok () => if fs.entry fname = none then none else some (fs.rename fname target, {})

def renameSave (fs : FileSystem) (newName oldName : List Char) (cont : List UInt8) :
    Option (FileSystem × Status) := do
  let (fs, s) ← writeContent strerror c fs oldName cont
  if s.ok then
    let fs ← unlink c fs newName
    renameFile strerror c fs oldName newName
  else
    return (fs, s)

end NetLibrary.File
