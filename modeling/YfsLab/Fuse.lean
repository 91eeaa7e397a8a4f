import YfsLab.Readdir

namespace YfsLab

-- The queries of fuse.cc: those of yfs_client, and the getattr of extent_client.
inductive FuseQuery where
  | extent (q : Query)
  | getattr (id : UInt64)
  deriving DecidableEq, Repr

def FuseAnswer : FuseQuery → Type
  | .extent q => Answer q
  | .getattr _ => Option Attr

abbrev FuseClient := Program FuseQuery FuseAnswer

namespace ExtentClient

def getattr (eid : UInt64) : FuseClient (Option Attr) := Program.query (FuseQuery.getattr eid)

end ExtentClient

namespace YfsClient

structure FileInfo where
  size : UInt64
  atime : UInt64
  mtime : UInt64
  ctime : UInt64

structure DirInfo where
  atime : UInt64
  mtime : UInt64
  ctime : UInt64

-- An error leaves the result as it was; no caller reads it then.
def getfile (inum : UInt64) : FuseClient (Except Status FileInfo) := do
  match ← ExtentClient.getattr inum with
  | none => return .error .IOERR
  | some a => return .ok ⟨a.size.toUInt64,a.atime.toUInt64,a.mtime.toUInt64,a.ctime.toUInt64⟩

def getdir (inum : UInt64) : FuseClient (Except Status DirInfo) := do
  match ← ExtentClient.getattr inum with
  | none => return .error .IOERR
  | some a => return .ok ⟨a.atime.toUInt64,a.mtime.toUInt64,a.ctime.toUInt64⟩

end YfsClient

namespace Fuse
open YfsClient ExtentProtocol

-- struct stat, as far as it is set; the rest stays zero.
structure Stat where
  ino : UInt64
  mode : UInt32
  nlink : UInt64
  atime : UInt64
  mtime : UInt64
  ctime : UInt64
  size : UInt64
  deriving DecidableEq, Repr

-- S_IFREG | 0666 and S_IFDIR | 0777.
def fileMode : UInt32 := 0x8000 ||| 0x1b6
def dirMode : UInt32 := 0x4000 ||| 0x1ff

def getattr (inum : UInt64) : FuseClient (Except Status Stat) := do
  if isfile inum then
    match ← getfile inum with
    | .error ret => return .error ret
    | .ok info => return .ok ⟨inum,fileMode,1,info.atime,info.mtime,info.ctime,info.size⟩
  else
    match ← getdir inum with
    | .error ret => return .error ret
    | .ok info => return .ok ⟨inum,dirMode,2,info.atime,info.mtime,info.ctime,0⟩

inductive Errno where
  | ENOENT | ENOTDIR | ENOSYS
  deriving DecidableEq, Repr

-- struct fuse_entry_param, without the timeouts, which are always 0.0.
structure EntryParam where
  ino : UInt64
  generation : UInt64
  attr : Stat
  deriving DecidableEq, Repr

inductive Reply where
  | err (errno : Errno)
  | attr (st : Stat)
  | entry (e : EntryParam)
  | create (e : EntryParam)
  | open_
  | buf (bytes : List UInt8)
  | statfs (namemax bsize : UInt64)
  deriving DecidableEq, Repr

inductive Request where
  | getattr (ino : UInt64)
  | setattr (ino : UInt64)
  | read (ino : UInt64)
  | write (ino : UInt64)
  | create (parent : UInt64) (name : List UInt8)
  | mknod (parent : UInt64) (name : List UInt8)
  | lookup (parent : UInt64) (name : List UInt8)
  | readdir (ino size off : UInt64)
  | open_ (ino : UInt64)
  | mkdir (parent : UInt64) (name : List UInt8)
  | unlink (parent : UInt64) (name : List UInt8)
  | statfs
  deriving DecidableEq, Repr

-- What the local variables id and e.generation of a handler hold before they are
-- set.
structure Locals where
  id : UInt64
  generation : UInt64
  deriving DecidableEq, Repr

-- `junk` is what the memory behind a string holds.
section Handlers
variable (fmt : DirentFormat) (junk : Nat → UInt8) (stack : Locals)

def ofClient {α : Type} (program : Client α) : FuseClient α := program.lift FuseQuery.extent (fun _ answer => answer)

def fuseserverGetattr (ino : UInt64) : FuseClient Reply := do
  match ← getattr ino with
  | .error _ => return .err .ENOENT
  | .ok st => return .attr st

def fuseserverCreatehelper (parent : UInt64) (name : List UInt8) : FuseClient (Except Status EntryParam) := do
  let (r,id) ← ofClient (createfile junk parent name stack.id)
  match r with
  | .OK =>
    match ← getattr id with
    | .ok st => return .ok ⟨id,0,st⟩
    | .error r => return .error r
  | r => return .error r

def fuseserverCreate (parent : UInt64) (name : List UInt8) : FuseClient Reply := do
  match ← fuseserverCreatehelper junk stack parent name with
  | .ok e => return .create e
  | .error _ => return .err .ENOENT

def fuseserverMknod (parent : UInt64) (name : List UInt8) : FuseClient Reply := do
  match ← fuseserverCreatehelper junk stack parent name with
  | .ok e => return .entry e
  | .error _ => return .err .ENOENT

-- Nobody sets e.generation here.
def fuseserverLookup (parent : UInt64) (name : List UInt8) : FuseClient Reply := do
  let (ret,id) ← ofClient (lookup junk parent name stack.id)
  match ret with
  | .OK =>
    match ← getattr id with
    | .ok st => return .entry ⟨id,stack.generation,st⟩
    | .error _ => return .err .ENOENT
  | _ => return .err .ENOENT

def ofReaddir : Readdir.Reply → Reply
  | .err => .err .ENOTDIR
  | .buf bytes => .buf bytes

-- `none` where the buffer of readdir outgrows the memory.
def handler : Request → FuseClient (Option Reply)
  | .getattr ino => some <$> fuseserverGetattr ino
  | .create parent name => some <$> fuseserverCreate junk stack parent name
  | .mknod parent name => some <$> fuseserverMknod junk stack parent name
  | .lookup parent name => some <$> fuseserverLookup junk stack parent name
  | .readdir ino size off => (Option.map ofReaddir) <$> ofClient (Readdir.fuseserverReaddir fmt junk ino size off)
  | .setattr _ | .read _ | .write _ | .mkdir _ _ | .unlink _ _ => return some (.err .ENOSYS)
  | .open_ _ => return some .open_
  | .statfs => return some (.statfs 255 512)

end Handlers

def statOf (inum : UInt64) (a : Attr) : Stat :=
  if isfile inum then ⟨inum,fileMode,1,a.atime.toUInt64,a.mtime.toUInt64,a.ctime.toUInt64,a.size.toUInt64⟩
  else ⟨inum,dirMode,2,a.atime.toUInt64,a.mtime.toUInt64,a.ctime.toUInt64,0⟩

theorem getattr_eq (inum : UInt64) :
    getattr inum = .ask (.getattr inum) fun answer =>
      match answer with
      | none => .done (.error .IOERR)
      | some a => .done (.ok (statOf inum a)) := by
  unfold getattr statOf
  split
  · refine congrArg (Program.ask (FuseQuery.getattr inum)) (funext fun answer => ?_)
    cases answer <;> rfl
  · refine congrArg (Program.ask (FuseQuery.getattr inum)) (funext fun answer => ?_)
    cases answer <;> rfl

theorem put_getattr (server : ExtentServer) (id : UInt64) (buf : List UInt8) (ino : UInt64) :
    (server.put id buf).getattr ino =
      if ino = id then some ((server.getattr ino).getD ⟨0,0,0,0⟩) else server.getattr ino := by
  by_cases same : ino = id
  · subst same
    rw [if_pos rfl]
    unfold ExtentServer.put ExtentServer.getattr
    cases held : server.attr ino with
    | none => exact ExtentServer.assign_self _ _ _
    | some a => exact held
  · rw [if_neg same]
    exact ExtentServer.put_attr_other server buf same

end Fuse
end YfsLab
