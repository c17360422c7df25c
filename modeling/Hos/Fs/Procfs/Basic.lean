import Hos.Fs.Libgen

/-!
# The store of `procfs.c`

The file system is one list of files, each of them with its whole path as its name.
A file is found by comparing names or inode numbers from the front, and a new one
goes to the end. A pointer to a file is the first file with its name, so it is
given here by the file itself.

What `kmalloc` and `sys_time` return is an argument. A function that copies a path
into a field or a buffer too small for it does not return.
-/

namespace Hos

/-- Error codes of `errno.h` for files. -/
inductive FsError where
  | eperm
  | enoent
  | ebusy
  | eexist
  | enotdir
  | eisdir
  | enfile
  | enotempty
  deriving DecidableEq

/-- The value that a failing call returns. -/
def FsError.ret : FsError → Int
  | eperm => -1
  | enoent => -2
  | ebusy => -16
  | eexist => -17
  | enotdir => -20
  | eisdir => -21
  | enfile => -23
  | enotempty => -39

open FsError

/-- `DT_DIR`. -/
def dtDir : Nat := 4

/-- `DT_REG`. -/
def dtReg : Nat := 8

/-- `O_WRONLY`, `O_RDWR`, `O_CREAT`, `O_EXCL` and `O_DIRECTORY`. -/
def oWronly : Nat := 0o1
def oRdwr : Nat := 0o2
def oCreat : Nat := 0o100
def oExcl : Nat := 0o200
def oDirectory : Nat := 0o200000

/-- `bitmask_check`: some bit of the mask is set. -/
def bitmaskCheck (v mask : Nat) : Bool := v &&& mask != 0

namespace Procfs

/-- `PROCFS_NAME_MAX`. -/
def nameMax : Nat := 255

/-- `PROCFS_MAX_FILES`. -/
def maxFiles : Nat := 1024

/-- `PROCFS_MAGIC_NUMBER`. -/
def magicNumber : Nat := 0xBF

/-- `procfs_file_t`. The handles that are open on it are given by their addresses. -/
structure File where
  magic : Nat
  inode : Int
  flags : Nat
  name : CString
  atime : Nat
  mtime : Nat
  ctime : Nat
  files : List Nat
  deriving DecidableEq

/-- The `vfs_file_t` of an open file. -/
structure Handle where
  addr : Nat
  name : CString
  ino : Int
  flags : Nat

/-- What `kmalloc` returns for a file and for a handle, where null is zero, and the
time. -/
structure Env where
  file : Nat
  handle : Nat
  now : Nat

end Procfs

/-- `procfs_t`. -/
structure Procfs where
  nfiles : Nat
  files : List Procfs.File
  deriving DecidableEq

namespace Procfs

/-- `procfs_check_file`. -/
def File.check (file : File) : Bool := file.magic == magicNumber

def File.isDir (file : File) : Bool := bitmaskCheck file.flags dtDir

/-- `dir_entry.name`. -/
def File.entryName (file : File) : CString := file.name.basename

def findEntryPath (fs : Procfs) (path : CString) : Option File :=
  fs.files.find? fun file => file.check && file.name == path

def findEntryInode (fs : Procfs) (inode : Int) : Option File :=
  fs.files.find? fun file => file.check && file.inode == inode

def getFreeInode (fs : Procfs) : Int :=
  let inode := (List.range' 1 (maxFiles - 1)).find? fun inode : Nat =>
    (fs.findEntryInode inode).isNone
  inode.elim (-1) Int.ofNat

/-- `procfs_check_if_empty`, which is true if the directory is not. -/
def checkIfEmpty (fs : Procfs) (path : CString) : Bool :=
  fs.files.any fun file => file.check && file.name != path && path == file.name.dirname

def createFile (fs : Procfs) (env : Env) (path : CString) (flags : Nat) :
    Option (Procfs × Option File) :=
  if env.file = 0 then some (fs, none)
  -- `strcpy` into `name`
  else if nameMax ≤ path.length then none
  else
    let file : File := {
      magic := magicNumber, inode := fs.getFreeInode, flags := flags, name := path,
      atime := env.now, mtime := env.now, ctime := env.now, files := [] }
    some (⟨u32 (fs.nfiles + 1), fs.files ++ [file]⟩, some file)

def destroyFile (fs : Procfs) (file : File) : Procfs := ⟨sub32 fs.nfiles 1, fs.files.erase file⟩

/-- `procfs_create_file_struct`. -/
def createFileStruct (env : Env) (file : File) : Option Handle :=
  if env.handle = 0 then none else some ⟨env.handle, file.name, file.inode, file.flags⟩

/-- The file is in use by one more handle. -/
def attach (fs : Procfs) (file : File) (handle : Handle) (atime : Nat) : Procfs :=
  { fs with
    files := fs.files.replace file
      { file with atime := atime, files := file.files ++ [handle.addr] } }

/-- The parent that `procfs_mkdir` and `procfs_open` ask for: none for the names whose
`dirname` is `.` or `/`. -/
def checkParent (fs : Procfs) (path : CString) : Except FsError Unit :=
  if path.dirname ≠ cstr "." ∧ path.dirname ≠ cstr "/" then
    match fs.findEntryPath path.dirname with
    | none => .error enoent
    | some parent => if parent.isDir then .ok () else .error enotdir
  else .ok ()

/-- `procfs_mkdir`. -/
def mkdir (fs : Procfs) (env : Env) (path : CString) : Option (Procfs × Int) :=
  if path = cstr "." ∨ path = cstr ".." then some (fs, eperm.ret)
  else if (fs.findEntryPath path).isSome then some (fs, eexist.ret)
  else
    match fs.checkParent path with
    | .error e => some (fs, e.ret)
    | .ok () =>
      (fs.createFile env path dtDir).map fun r => (r.1, if r.2.isNone then enfile.ret else 0)

/-- `procfs_rmdir`. -/
def rmdir (fs : Procfs) (path : CString) : Procfs × Int :=
  if path = cstr "." ∨ path = cstr ".." then (fs, eperm.ret)
  else
    match fs.findEntryPath path with
    | none => (fs, enoent.ret)
    | some file =>
      if !file.isDir then (fs, enotdir.ret)
      else if file.files ≠ [] then (fs, ebusy.ret)
      else if fs.checkIfEmpty file.name then (fs, enotempty.ret)
      else (fs.destroyFile file, 0)

/-- `procfs_unlink`. It goes on only without an entry, and then reads the type from a null
pointer. -/
def unlink (fs : Procfs) (path : CString) : Option (Procfs × Int) :=
  if path = cstr "." ∨ path = cstr ".." then some (fs, eperm.ret)
  else if (fs.findEntryPath path).isSome then some (fs, eexist.ret)
  else none

/-- A new handle for a file that exists. -/
def openFile (fs : Procfs) (env : Env) (file : File) : Procfs × Except FsError Handle :=
  match createFileStruct env file with
  | none => (fs, .error enfile)
  | some handle => (fs.attach file handle env.now, .ok handle)

/-- `procfs_open` for a file that exists. -/
def openExisting (fs : Procfs) (env : Env) (file : File) (flags : Nat) :
    Procfs × Except FsError Handle :=
  if bitmaskCheck flags (oCreat ||| oExcl) then (fs, .error eexist)
  else if bitmaskCheck flags oDirectory then
    if !file.isDir then (fs, .error enotdir)
    else if bitmaskCheck flags oRdwr || bitmaskCheck flags oWronly then (fs, .error eisdir)
    else fs.openFile env file
  else if file.isDir then (fs, .error eisdir)
  else fs.openFile env file

/-- `procfs_open`, which gives the handle or the value of `errno`. -/
def procfsOpen (fs : Procfs) (env : Env) (path : CString) (flags : Nat) :
    Option (Procfs × Except FsError Handle) :=
  match fs.checkParent path with
  | .error e => some (fs, .error e)
  | .ok () =>
    match fs.findEntryPath path with
    | some file => some (fs.openExisting env file flags)
    | none =>
      if bitmaskCheck flags oCreat then
        (fs.createFile env path dtReg).map fun r =>
          match r.2 with
          | none => (r.1, .error enfile)
          | some file =>
            match createFileStruct env file with
            | none => (r.1, .error enfile)
            | some handle => (r.1.attach file handle file.atime, .ok handle)
      else some (fs, .error enoent)

/-- `procfs_close`. The handle leaves the list that it is in. -/
def procfsClose (fs : Procfs) (handle : Nat) : Procfs :=
  { fs with files := fs.files.map fun file => { file with files := file.files.erase handle } }

/-- `procfs_mount_callback`. It asserts that the file and the handle were made. -/
def mountCallback (fs : Procfs) (env : Env) (path : CString) : Option (Procfs × Handle) := do
  let (fs, file) ← fs.createFile env path dtDir
  let file ← file
  let handle ← createFileStruct env file
  some (fs.attach file handle file.atime, handle)

/-- `procfs_init`. -/
def init : Procfs := ⟨0, []⟩

/-- `entry_path` of the functions for entries: `/proc/`, the name of the parent if there
is one, and the name. -/
def entryPath (name : CString) (parent : Option CString) : Option CString :=
  let path := cstr "/proc/" ++ parent.elim [] (· ++ cstr "/") ++ name
  if path.length < CString.pathMax then some path else none

/-- The common part of `proc_mkdir` and `proc_create_entry`. -/
def createEntry (flags : Nat) (fs : Procfs) (env : Env) (name : CString) (parent : Option CString) :
    Option (Procfs × Except FsError File) :=
  (entryPath name parent).bind fun path =>
    if (fs.findEntryPath path).isSome then some (fs, .error eexist)
    else (fs.createFile env path flags).map fun r => (r.1, r.2.elim (.error enfile) .ok)

def procMkdir := createEntry dtDir

def procCreateEntry := createEntry dtReg

/-- `proc_rmdir`. -/
def procRmdir (fs : Procfs) (name : CString) (parent : Option CString) : Option (Procfs × Int) :=
  (entryPath name parent).map fun path =>
    match fs.findEntryPath path with
    | none => (fs, enoent.ret)
    | some file =>
      if !file.isDir then (fs, enotdir.ret)
      else if fs.checkIfEmpty file.name then (fs, enotempty.ret)
      else if file.files ≠ [] then (fs, ebusy.ret)
      else (fs.destroyFile file, 0)

/-- `proc_destroy_entry`. -/
def procDestroyEntry (fs : Procfs) (name : CString) (parent : Option CString) :
    Option (Procfs × Int) :=
  (entryPath name parent).map fun path =>
    match fs.findEntryPath path with
    | none => (fs, enoent.ret)
    | some file =>
      if !bitmaskCheck file.flags dtReg then (fs, enoent.ret)
      else if file.files ≠ [] then (fs, ebusy.ret)
      else (fs.destroyFile file, 0)

end Procfs

end Hos
