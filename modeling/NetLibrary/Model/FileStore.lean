import NetLibrary.Model.File

/-!
# The files of a program

The other functions of `file.h` for single files, and what a program does with all of them, one call after
the other. Again what the system calls return is an input.
-/

namespace NetLibrary.File

variable (strerror : Errno → List Char)

/-- The loop of `getContent`. `rest` is what the descriptor has still to read. -/
def readLoop (fname : List Char) : List (Except Errno Nat) → List UInt8 → List UInt8 → Option (List UInt8 × Status)
  | [], _, _ => none
  | .error errno :: _, _, cont => some (cont, Status.ioError strerror "read" fname errno)
  | .ok n :: rets, rest, cont =>
    if n = 0 then
      -- 0 is the end of the file
      if rest = [] then some (cont, {}) else none
    else if n ≤ 4096 ∧ n ≤ rest.length then readLoop fname rets (rest.drop n) (cont ++ rest.take n)
    else none

/-- It appends to `cont`, also before a `read` that fails. -/
def getContent (fs : FileSystem) (openRet : Except Errno Unit) (readRets : List (Except Errno Nat))
    (fname : List Char) (cont : List UInt8) : Option (List UInt8 × Status) :=
  match openRet with
  | .error errno => some (cont, Status.ioError strerror "open" fname errno)
  | .ok () => (fs.content fname).bind fun d => readLoop strerror fname readRets d cont

def deleteFile (fs : FileSystem) (unlinkRet : Except Errno Unit) (fname : List Char) :
    Option (FileSystem × Status) :=
  match unlinkRet with
  | .error errno => some (fs, Status.ioError strerror "unlink" fname errno)
  | .ok () => if fs.entry fname = none then none else some (fs.unlink fname, {})

/-- For a `size` that is not null, with what `*size` is afterwards. -/
def getFileSize (fs : FileSystem) (statRet : Except Errno Unit) (fname : List Char) (size : Nat) :
    Option (Nat × Status) :=
  match statRet with
  | .error errno => some (size, Status.ioError strerror "stat" fname errno)
  | .ok () => (fs.content fname).map fun d => (d.length, {})

def fileExist (fs : FileSystem) (accessRet : Except Errno Unit) (fname : List Char) : Option Bool :=
  match accessRet with
  | .error _ => some false
  | .ok () => (fs.content fname).map fun _ => true

/-! ## Runs -/

/-- A call, with what its system calls return. -/
inductive Op
  | writeContent (c : Calls) (fname : List Char) (cont : List UInt8)
  | renameSave (c : Calls) (newName oldName : List Char) (cont : List UInt8)
  | renameFile (c : Calls) (fname target : List Char)
  | deleteFile (unlinkRet : Except Errno Unit) (fname : List Char)
  | getContent (openRet : Except Errno Unit) (readRets : List (Except Errno Nat)) (fname : List Char)
    (cont : List UInt8)
  | getFileSize (statRet : Except Errno Unit) (fname : List Char) (size : Nat)
  | fileExist (accessRet : Except Errno Unit) (fname : List Char)

/-- What the caller gets. -/
inductive Result
  | status (s : Status)
  | content (cont : List UInt8) (s : Status)
  | size (size : Nat) (s : Status)
  | exist (b : Bool)
  deriving DecidableEq, Repr

def exec (fs : FileSystem) : Op → Option (FileSystem × Result)
  | .writeContent c fname cont => (File.writeContent strerror c fs fname cont).map fun r => (r.1, .status r.2)
  | .renameSave c newName oldName cont =>
    (File.renameSave strerror c fs newName oldName cont).map fun r => (r.1, .status r.2)
  | .renameFile c fname target => (File.renameFile strerror c fs fname target).map fun r => (r.1, .status r.2)
  | .deleteFile unlinkRet fname => (File.deleteFile strerror fs unlinkRet fname).map fun r => (r.1, .status r.2)
  | .getContent openRet readRets fname cont =>
    (File.getContent strerror fs openRet readRets fname cont).map fun r => (fs, .content r.1 r.2)
  | .getFileSize statRet fname size => (File.getFileSize strerror fs statRet fname size).map fun r =>
    (fs, .size r.1 r.2)
  | .fileExist accessRet fname => (File.fileExist fs accessRet fname).map fun b => (fs, .exist b)

def Step (fs : FileSystem) (e : Op × Result) (fs' : FileSystem) : Prop := exec strerror fs e.1 = some (fs', e.2)

end NetLibrary.File
