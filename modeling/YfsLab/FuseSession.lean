import YfsLab.Directory
import YfsLab.Mounts

namespace YfsLab.FuseSession
open YfsClient ExtentProtocol Fuse
open Directory (World Represents)
open Mounts (Task fileStat)

-- What one mount is for: the root holds files in the order in which they were
-- made, and there is nothing else.
structure Flat where
  files : Filelist
  draws : Nat
  deriving DecidableEq

def Flat.has (fs : Flat) (ino : UInt64) : Bool := ino = 1 || fs.files.any (·.1 == ino)

def Flat.find (fs : Flat) (parent : UInt64) (name : List UInt8) : Option UInt64 :=
  if parent = 1 then (fs.files.find? (·.2 == name)).map Prod.fst else none

-- A name that is there keeps its inode. The directory takes a new one as long as
-- its PDU fits; an inode is drawn all the same.
def Flat.enter (stream : Nat → Rand) (fs : Flat) (parent : UInt64) (name : List UInt8) : Option UInt64 × Flat :=
  match fs.find parent name with
  | some ino => (some ino,fs)
  | none =>
    if parent = 1 then
      let ino := newInum 1 (stream fs.draws)
      if Creates.Fits 1 (serialize (fs.files ++ [(ino,name)])) then (some ino,⟨fs.files ++ [(ino,name)],fs.draws+1⟩)
      else (none,{fs with draws:=fs.draws+1})
    else (none,fs)

def unset : Attr := ⟨0,0,0,0⟩

def Flat.serve (fmt : DirentFormat) (stream : Nat → Rand) (fs : Flat) (task : Task) : Option Reply × Flat :=
  match task.request with
  | .getattr ino => (some (if fs.has ino then .attr (statOf ino unset) else .err .ENOENT),fs)
  | .create parent name =>
    let (found,fs) := fs.enter stream parent name
    (some (match found with | some ino => .create ⟨ino,0,fileStat ino⟩ | none => .err .ENOENT),fs)
  | .mknod parent name =>
    let (found,fs) := fs.enter stream parent name
    (some (match found with | some ino => .entry ⟨ino,0,fileStat ino⟩ | none => .err .ENOENT),fs)
  | .lookup parent name =>
    (some (match fs.find parent name with | some ino => .entry ⟨ino,task.stack.generation,fileStat ino⟩ | none => .err .ENOENT),fs)
  | .readdir ino size off =>
    (if isfile ino then some (.err .ENOTDIR)
      else (Readdir.fill fmt .empty (if ino = 1 then fs.files else [])).map fun b => .buf (Readdir.replyBufLimited b off size),fs)
  | .setattr _ | .read _ | .write _ | .mkdir _ _ | .unlink _ _ => (some (.err .ENOSYS),fs)
  | .open_ _ => (some .open_,fs)
  | .statfs => (some (.statfs 255 512),fs)

def handle (stream : Nat → Rand) (w : World) : (q : FuseQuery) → FuseAnswer q × World
  | .extent q => Readdir.handle stream w q
  | .getattr id => (w.server.getattr id,w)

section Session
variable (fmt : DirentFormat) (junk : Nat → UInt8) (stream : Nat → Rand)

-- fuse_session_loop: the replies to a list of requests.
def session (w : World) : List Task → List (Option Reply)
  | [] => []
  | task :: tasks =>
    let (reply,w) := (handler fmt junk task.stack task.request).run (handle stream) w
    reply :: session w tasks

def Flat.session (fs : Flat) : List Task → List (Option Reply)
  | [] => []
  | task :: tasks => (fs.serve fmt stream task).1 :: Flat.session (fs.serve fmt stream task).2 tasks

end Session

-- The server holds the files of the mount, each with attributes that were never
-- set, and no PDU of the directory was too large.
structure Refines (fs : Flat) (w : World) : Prop extends Represents fs.files w.server where
  attrs : ∀ ino, w.server.getattr ino = if fs.has ino then some unset else none
  fits : Creates.Fits 1 (serialize fs.files)
  draws : w.draws = fs.draws

variable {fmt : DirentFormat} {junk : Nat → UInt8} {stream : Nat → Rand} {fs : Flat} {w : World} {ino parent : UInt64}
  {name : List UInt8}

theorem initial_refines : Refines ⟨[],0⟩ ⟨.initial,0⟩ where
  toRepresents := Directory.initial_represents
  attrs := by
    intro ino
    simp only [ExtentServer.initial,ExtentServer.getattr,ExtentServer.assign,Flat.has,List.any_nil,Bool.or_false,
      decide_eq_true_eq]
    rfl
  fits := by decide
  draws := rfl

theorem Refines.get_root (refines : Refines fs w) : (Readdir.handle stream w (.get 1)).1 = some (serialize fs.files) := by
  have answer : (Readdir.handle stream w (.get 1)).1 =
      (w.server.get 1).filter fun buf => rpcHeaderSz + (encodes [.string buf]).length ≤ maxPdu := rfl
  have small : rpcHeaderSz + (encodes [.string (serialize fs.files)]).length ≤ maxPdu := by
    have fits := refines.fits
    unfold Creates.Fits at fits
    simp only [encodes,Val.encode,List.flatMap_cons,List.flatMap_nil,List.length_append] at fits ⊢
    omega
  rw [answer,refines.stored,Option.filter_some,if_pos (by simpa using small)]

theorem Refines.get_other (refines : Refines fs w) (other : parent ≠ 1) :
    Unreadable (Readdir.handle stream w (.get parent)).1 := by
  have answer : (Readdir.handle stream w (.get parent)).1 =
      (w.server.get parent).filter fun buf => rpcHeaderSz + (encodes [.string buf]).length ≤ maxPdu := rfl
  rw [answer]
  rcases refines.others parent other with none_ | empty
  · rw [none_]
    exact .inl rfl
  · rw [empty]
    exact .inr rfl

theorem Refines.lookup (refines : Refines fs w) (id : UInt64) :
    lookupIn junk name id (Readdir.handle stream w (.get parent)).1 =
      match fs.find parent name with
      | some ino => (.OK,ino)
      | none => (if parent = 1 then .NOENT else .IOERR,id) := by
  by_cases root : parent = 1
  · subst root
    rw [refines.get_root,lookupIn_sound refines.sound,Flat.find,if_pos rfl]
    cases fs.files.find? (·.2 == name) with
    | none => rfl
    | some entry => rfl
  · rw [lookupIn_unreadable (refines.get_other root),Flat.find,if_neg root]
    rw [if_neg root]

theorem run_ofClient {α : Type} (program : Client α) (w : World) :
    (ofClient program).run (handle stream) w = program.run (Readdir.handle stream) w := by
  apply Program.run_lift
  intro _ _
  rfl

theorem Refines.getattr (refines : Refines fs w) (ino : UInt64) :
    (Fuse.getattr ino).run (handle stream) w = (if fs.has ino then .ok (statOf ino unset) else .error .IOERR,w) := by
  rw [getattr_eq]
  simp only [Program.run,handle]
  rw [refines.attrs ino]
  cases fs.has ino with
  | true => rfl
  | false => rfl

theorem unset_either (there : Prop) [Decidable there] : (if there then some unset else none).getD ⟨0,0,0,0⟩ = unset := by
  split
  · rfl
  · rfl

theorem Refines.grow (refines : Refines fs w) (missing : fs.files.find? (·.2 == name) = none) (named : name ≠ [])
    (rand : Rand) (fits : Creates.Fits 1 (serialize (fs.files ++ [(newInum 1 rand,name)]))) :
    Refines ⟨fs.files ++ [(newInum 1 rand,name)],fs.draws+1⟩
      ⟨(w.server.put 1 (serialize (fs.files ++ [(newInum 1 rand,name)]))).put (newInum 1 rand) [],w.draws+1⟩ where
  toRepresents := by
    have fresh : name ∉ fs.files.map (·.2) := by
      intro listed
      obtain ⟨entry,member,same⟩ := List.mem_map.mp listed
      exact List.find?_eq_none.mp missing entry member (beq_iff_eq.mpr same)
    apply refines.toRepresents.grow fresh named rand
    simp only [Creates.Fits,encodes,Val.encode,List.flatMap_cons,List.flatMap_nil,List.length_append,Words.be32_length,
      maxPdu] at fits
    omega
  attrs := by
    intro ino
    rw [put_getattr,put_getattr,refines.attrs ino]
    simp only [Flat.has,List.any_append,List.any_cons,List.any_nil,Bool.or_false]
    by_cases new : ino = newInum 1 rand
    · subst new
      have other : newInum 1 rand ≠ 1 := newInum_ne rand (by decide)
      simp only [if_true,beq_self_eq_true,Bool.or_true,if_neg other]
      exact congrArg some (unset_either _)
    · have apart : (newInum 1 rand == ino) = false := beq_eq_false_iff_ne.mpr (Ne.symm new)
      simp only [if_neg new,apart,Bool.or_false]
      by_cases root : ino = 1
      · subst root
        rfl
      · exact if_neg root
  fits := fits
  draws := congrArg (· + 1) refines.draws

theorem Refines.enter (junk : Nat → UInt8) (stream : Nat → Rand) (parent : UInt64) (refines : Refines fs w)
    (named : name ≠ []) (id : UInt64) :
    ∃ id' w', (createfile junk parent name id).run (Readdir.handle stream) w =
        ((match (fs.enter stream parent name).1 with | some ino => (.OK,ino) | none => (.IOERR,id')),w') ∧
      Refines (fs.enter stream parent name).2 w' := by
  rw [createfile,Program.run_bind,Readdir.run_lookup,refines.lookup,Flat.enter]
  cases found : fs.find parent name with
  | some ino => exact ⟨id,w,rfl,refines⟩
  | none =>
    by_cases root : parent = 1
    · subst root
      have missing : fs.files.find? (·.2 == name) = none := by
        simpa [Flat.find] using found
      have read : (readdirOf junk [] (Readdir.handle stream w (.get 1)).1) = (.OK,fs.files) := by
        rw [refines.get_root,readdirOf_sound refines.sound,List.nil_append]
      simp only [if_true,Program.run_bind,Readdir.run_readdir,read,Readdir.run_rand,writeEntry]
      have asked : ∀ buf, (ExtentClient.put 1 buf).run (Readdir.handle stream) {w with draws:=w.draws+1} =
          Readdir.handle stream {w with draws:=w.draws+1} (.put 1 buf) := fun _ => rfl
      rw [asked,← refines.draws]
      by_cases fits : Creates.Fits 1 (serialize (fs.files ++ [(newInum 1 (stream w.draws),name)]))
      · have taken : Readdir.handle stream {w with draws:=w.draws+1}
            (.put 1 (serialize (fs.files ++ [(newInum 1 (stream w.draws),name)]))) =
            (true,⟨w.server.put 1 (serialize (fs.files ++ [(newInum 1 (stream w.draws),name)])),w.draws+1⟩) := if_pos fits
        rw [taken]
        simp only [if_pos fits]
        exact ⟨id,_,rfl,refines.draws ▸ refines.grow missing named _ fits⟩
      · have refused : Readdir.handle stream {w with draws:=w.draws+1}
            (.put 1 (serialize (fs.files ++ [(newInum 1 (stream w.draws),name)]))) = (false,{w with draws:=w.draws+1}) :=
          if_neg fits
        rw [refused]
        simp only [if_neg fits]
        exact ⟨_,_,rfl,refines.toRepresents,refines.attrs,refines.fits,rfl⟩
    · simp only [if_neg root]
      exact ⟨id,w,rfl,refines⟩

theorem find_member {fs : Flat} (found : fs.find parent name = some ino) : parent = 1 ∧ (ino,name) ∈ fs.files := by
  unfold Flat.find at found
  split at found
  · rename_i root
    obtain ⟨entry,first,rfl⟩ := Option.map_eq_some_iff.mp found
    have same : entry.2 = name := by simpa using List.find?_some first
    exact ⟨root,same ▸ List.mem_of_find?_eq_some first⟩
  · cases found

theorem enter_member {fs : Flat} (entered : (fs.enter stream parent name).1 = some ino) :
    (ino,name) ∈ (fs.enter stream parent name).2.files := by
  unfold Flat.enter at entered ⊢
  cases found : fs.find parent name with
  | some first =>
    rw [found] at entered
    cases entered
    exact (find_member found).2
  | none =>
    simp only [found] at entered ⊢
    split at entered
    · rename_i root
      rw [if_pos root]
      split at entered
      · rename_i fits
        rw [if_pos fits]
        cases entered
        exact List.mem_append_right _ List.mem_cons_self
      · cases entered
    · cases entered

theorem Refines.listed (refines : Refines fs w) (member : (ino,name) ∈ fs.files) :
    (Fuse.getattr ino).run (handle stream) w = (.ok (fileStat ino),w) := by
  have there : fs.has ino = true := by
    unfold Flat.has
    rw [List.any_eq_true.mpr ⟨_,member,beq_self_eq_true ino⟩,Bool.or_true]
  have file : statOf ino unset = fileStat ino := if_pos (refines.files _ member)
  rw [refines.getattr,if_pos there,file]

theorem Refines.createhelper (junk : Nat → UInt8) (stream : Nat → Rand) (parent : UInt64) (refines : Refines fs w)
    (named : name ≠ []) (stack : Locals) :
    ∃ result w', (fuseserverCreatehelper junk stack parent name).run (handle stream) w = (result,w') ∧
      Refines (fs.enter stream parent name).2 w' ∧
      match (fs.enter stream parent name).1 with
      | some ino => result = .ok ⟨ino,0,fileStat ino⟩
      | none => ∃ status, result = .error status := by
  obtain ⟨id',w',ran,after⟩ := refines.enter junk stream parent named stack.id
  rw [fuseserverCreatehelper,Program.run_bind,run_ofClient,ran]
  cases entered : (fs.enter stream parent name).1 with
  | some ino =>
    simp only [Program.run_bind,after.listed (enter_member entered)]
    exact ⟨_,_,rfl,after,rfl⟩
  | none => exact ⟨_,_,rfl,after,_,rfl⟩

theorem Refines.entered (junk : Nat → UInt8) (stream : Nat → Rand) (parent : UInt64) (refines : Refines fs w)
    (named : name ≠ []) (stack : Locals) (shape : EntryParam → Reply) :
    ∃ w', (do match ← fuseserverCreatehelper junk stack parent name with
              | .ok e => return shape e
              | .error _ => return .err .ENOENT : FuseClient Reply).run (handle stream) w =
        (match (fs.enter stream parent name).1 with | some ino => shape ⟨ino,0,fileStat ino⟩ | none => .err .ENOENT,w') ∧
      Refines (fs.enter stream parent name).2 w' := by
  obtain ⟨result,w',ran,after,told⟩ := refines.createhelper junk stream parent named stack
  rw [Program.run_bind,ran]
  refine ⟨w',?_,after⟩
  cases entered : (fs.enter stream parent name).1 with
  | some ino =>
    rw [entered] at told
    rw [told]
    rfl
  | none =>
    rw [entered] at told
    obtain ⟨status,failed⟩ := told
    rw [failed]
    rfl

theorem Refines.readdir (refines : Refines fs w) (ino size off : UInt64) :
    (Option.map ofReaddir <$> ofClient (Readdir.fuseserverReaddir fmt junk ino size off)).run (handle stream) w =
      (if isfile ino then some (.err .ENOTDIR)
        else (Readdir.fill fmt .empty (if ino = 1 then fs.files else [])).map fun b => .buf (Readdir.replyBufLimited b off size),w) := by
  rw [Program.run_map,run_ofClient]
  cases file : isfile ino with
  | true =>
    rw [Readdir.fuseserverReaddir,isdir,file]
    rfl
  | false =>
    have directory : isdir ino = true := by rw [isdir,file]; rfl
    by_cases root : ino = 1
    · subst root
      have read : (readdirOf junk [] (Readdir.handle stream w (.get 1)).1) = (.OK,fs.files) := by
        rw [refines.get_root,readdirOf_sound refines.sound,List.nil_append]
      rw [Readdir.run_fuseserverReaddir fmt directory read]
      simp only [Option.map_map]
      rfl
    · have read : readdirOf junk [] (Readdir.handle stream w (.get ino)).1 = (.IOERR,[]) :=
        readdirOf_unreadable (refines.get_other root) []
      rw [Readdir.fuseserverReaddir,if_pos directory,Program.run_bind,Readdir.run_readdir,read,if_neg root]
      rfl

def Named : Request → Prop
  | .create _ name | .mknod _ name => name ≠ []
  | _ => True

theorem Refines.serve (junk : Nat → UInt8) (refines : Refines fs w) (task : Task) (named : Named task.request) :
    ∃ w', (handler fmt junk task.stack task.request).run (handle stream) w = ((fs.serve fmt stream task).1,w') ∧
      Refines (fs.serve fmt stream task).2 w' := by
  unfold Flat.serve
  cases same : task.request with
  | getattr ino =>
    refine ⟨w,?_,refines⟩
    rw [handler,Program.run_map,fuseserverGetattr,Program.run_bind,refines.getattr]
    by_cases there : fs.has ino = true
    · simp only [if_pos there]
      rfl
    · simp only [if_neg there]
      rfl
  | create parent name =>
    rw [same] at named
    obtain ⟨w',ran,after⟩ := refines.entered junk stream parent named task.stack .create
    refine ⟨w',?_,after⟩
    have replied : (fuseserverCreate junk task.stack parent name).run (handle stream) w = _ := ran
    rw [handler,Program.run_map,replied]
  | mknod parent name =>
    rw [same] at named
    obtain ⟨w',ran,after⟩ := refines.entered junk stream parent named task.stack .entry
    refine ⟨w',?_,after⟩
    have replied : (fuseserverMknod junk task.stack parent name).run (handle stream) w = _ := ran
    rw [handler,Program.run_map,replied]
  | lookup parent name =>
    refine ⟨w,?_,refines⟩
    rw [handler,Program.run_map,fuseserverLookup,Program.run_bind,run_ofClient,Readdir.run_lookup,refines.lookup]
    cases found : fs.find parent name with
    | some ino =>
      simp only [found,Program.run_bind,refines.listed (find_member found).2]
      rfl
    | none =>
      simp only [found]
      by_cases root : parent = 1
      · simp only [if_pos root]
        rfl
      · simp only [if_neg root]
        rfl
  | readdir ino size off => exact ⟨w,refines.readdir ino size off,refines⟩
  | setattr | read | write | mkdir | unlink | open_ | statfs => exact ⟨w,rfl,refines⟩

theorem session_refines (refines : Refines fs w) (tasks : List Task) (named : ∀ task ∈ tasks, Named task.request) :
    session fmt junk stream w tasks = fs.session fmt stream tasks := by
  induction tasks generalizing fs w with
  | nil => rfl
  | cons task tasks ih =>
    obtain ⟨w',ran,after⟩ := refines.serve junk task (named task List.mem_cons_self)
    rw [session,Flat.session,ran]
    exact congrArg _ (ih after fun other member => named other (List.mem_cons_of_mem _ member))

theorem mount_is_flat (fmt : DirentFormat) (junk : Nat → UInt8) (stream : Nat → Rand) (tasks : List Task)
    (named : ∀ task ∈ tasks, Named task.request) :
    session fmt junk stream ⟨.initial,0⟩ tasks = Flat.session fmt stream ⟨[],0⟩ tasks :=
  session_refines initial_refines tasks named

-- A file is made, made again, looked up under a wrong parent and a right one.
def visit : List Task :=
  [⟨.create 1 [97],⟨3,0⟩⟩,⟨.mknod 1 [97],⟨3,0⟩⟩,⟨.lookup 0x80000000 [97],⟨3,1⟩⟩,⟨.lookup 1 [97],⟨3,8⟩⟩,
   ⟨.getattr 0x80000000,⟨0,0⟩⟩,⟨.getattr 7,⟨0,0⟩⟩,⟨.readdir 7 100 0,⟨0,0⟩⟩,⟨.unlink 1 [97],⟨0,0⟩⟩]

theorem visit_answered : session fuseDirent (fun _ => 0) Rand.wrap ⟨.initial,0⟩ visit =
    [some (.create ⟨0x80000000,0,fileStat 0x80000000⟩),some (.entry ⟨0x80000000,0,fileStat 0x80000000⟩),
     some (.err .ENOENT),some (.entry ⟨0x80000000,8,fileStat 0x80000000⟩),some (.attr (fileStat 0x80000000)),
     some (.err .ENOENT),some (.buf []),some (.err .ENOSYS)] := by
  rw [mount_is_flat fuseDirent (fun _ => 0) Rand.wrap visit (by simp [visit,Named])]
  decide +kernel

end YfsLab.FuseSession
