import YfsLab.Lib.Program
import YfsLab.ExtentServer
import YfsLab.Marshall

namespace YfsLab

inductive Status where
  | OK | RPCERR | NOENT | IOERR | FBIG
  deriving DecidableEq, Repr

-- The values of rand(), with RAND_MAX = 2^31 - 1.
abbrev Rand := Fin (2^31)

def Rand.wrap (n : Nat) : Rand := ⟨n % 2^31,Nat.mod_lt _ (Nat.two_pow_pos 31)⟩

-- What yfs_client asks for: the stubs of extent_client, and rand(). Of the
-- status of a stub it only looks at whether it is OK.
inductive Query where
  | get (id : UInt64)
  | put (id : UInt64) (buf : List UInt8)
  | rand
  deriving DecidableEq, Repr

def Answer : Query → Type
  | .get _ => Option (List UInt8)
  | .put _ _ => Bool
  | .rand => Rand

abbrev Client := Program Query Answer

namespace ExtentClient

def get (eid : UInt64) : Client (Option (List UInt8)) := Program.query (Query.get eid)
def put (eid : UInt64) (buf : List UInt8) : Client Bool := Program.query (Query.put eid buf)

end ExtentClient

namespace YfsClient

def rand : Client Rand := Program.query Query.rand

def isfile (inum : UInt64) : Bool := inum &&& 0x80000000 != 0
def isdir (inum : UInt64) : Bool := !isfile inum

-- rand() % 0x7FFFFFFF is an int, isfile << 31 an unsigned int.
def newInum (isfile : UInt32) (rand : Rand) : UInt64 :=
  (UInt32.ofNat (rand.val % 0x7FFFFFFF) ||| (isfile <<< 31)).toUInt64

-- `junk` is what the memory behind a string holds; a reference parameter is
-- passed in and handed back.
variable (junk : Nat → UInt8)

-- lookup and readdir are one get each, and what they make of its answer.
def lookupIn (name : List UInt8) (id : UInt64) : Option (List UInt8) → Status × UInt64
  | none => (.IOERR,id)
  | some buf =>
    match ExtentProtocol.deserialize junk buf [] with
    | (true,fl) =>
      match fl.find? (·.2 == name) with
      | some entry => (.OK,entry.1)
      | none => (.NOENT,id)
    | (false,_) => (.IOERR,id)

def lookup (pId : UInt64) (name : List UInt8) (id : UInt64) : Client (Status × UInt64) := do
  return lookupIn junk name id (← ExtentClient.get pId)

def readdirOf (fl : Filelist) : Option (List UInt8) → Status × Filelist
  | none => (.IOERR,fl)
  | some buf =>
    match ExtentProtocol.deserialize junk buf fl with
    | (true,fl) => (.OK,fl)
    | (false,fl) => (.IOERR,fl)

def readdir (id : UInt64) (fl : Filelist) : Client (Status × Filelist) := do
  return readdirOf junk fl (← ExtentClient.get id)

def writeFile (id : UInt64) : Client (Status × UInt64) := do
  match ← ExtentClient.put id [] with
  | true => return (.OK,id)
  | false => return (.IOERR,id)

def writeEntry (pId : UInt64) (name : List UInt8) (fl : Filelist) (id : UInt64) : Client (Status × UInt64) := do
  match ← ExtentClient.put pId (ExtentProtocol.serialize (fl ++ [(id,name)])) with
  | true => writeFile id
  | false => return (.IOERR,id)

def createfile (pId : UInt64) (name : List UInt8) (id : UInt64) : Client (Status × UInt64) := do
  let (r,id) ← lookup junk pId name id
  match r with
  | .OK => return (.OK,id)
  | .NOENT =>
    let (r,fl) ← readdir junk pId []
    match r with
    | .OK =>
      writeEntry pId name fl (newInum 1 (← rand))
    | _ => return (.IOERR,id)
  | _ => return (.IOERR,id)

theorem isfile_iff (inum : UInt64) : isfile inum = true ↔ inum.toNat.testBit 31 = true := by
  have mask : (inum &&& 0x80000000).toNat = inum.toNat &&& 2^31 := by
    rw [UInt64.toNat_and]; rfl
  rw [isfile,bne_iff_ne,ne_eq,← UInt64.toNat_inj,mask,UInt64.toNat_zero,Nat.and_two_pow]
  cases inum.toNat.testBit 31 <;> simp

theorem isfile_newInum (rand : Rand) : isfile (newInum 1 rand) = true := by
  rw [isfile_iff,newInum,UInt32.toNat_toUInt64,UInt32.toNat_or,Nat.testBit_or]
  have bit : ((1 : UInt32) <<< 31).toNat.testBit 31 = true := by decide
  rw [bit,Bool.or_true]

theorem newInum_ne (rand : Rand) (directory : isdir dir = true) : newInum 1 rand ≠ dir := by
  rintro rfl
  simp [isdir,isfile_newInum] at directory

-- lookup and readdir on a directory, and on an extent that is none.
section Answers
open ExtentProtocol
variable {junk : Nat → UInt8} {fl : Filelist}

theorem lookupIn_sound (sound : Sound fl) (name : List UInt8) (id : UInt64) :
    lookupIn junk name id (some (serialize fl)) =
      match fl.find? (·.2 == name) with | some entry => (.OK,entry.1) | none => (.NOENT,id) := by
  simp only [lookupIn,deserialize_sound junk sound,List.nil_append]

theorem readdirOf_sound (sound : Sound fl) (out : Filelist) :
    readdirOf junk out (some (serialize fl)) = (.OK,out ++ fl) := by
  simp only [readdirOf,deserialize_sound junk sound]

def Unreadable (answer : Option (List UInt8)) : Prop := answer = none ∨ answer = some []

theorem lookupIn_unreadable (unreadable : Unreadable answer) (name : List UInt8) (id : UInt64) :
    lookupIn junk name id answer = (.IOERR,id) := by
  rcases unreadable with rfl | rfl
  · rfl
  · simp only [lookupIn,deserialize_empty]

theorem readdirOf_unreadable (unreadable : Unreadable answer) (out : Filelist) :
    readdirOf junk out answer = (.IOERR,out) := by
  rcases unreadable with rfl | rfl
  · rfl
  · simp only [readdirOf,deserialize_empty]

end Answers
end YfsClient
end YfsLab
