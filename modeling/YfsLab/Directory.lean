import YfsLab.Lib.Runs
import YfsLab.YfsClient

namespace YfsLab.Directory
open YfsClient ExtentProtocol

-- One yfs_client at work while every extent RPC reaches the server: each query
-- is answered at once, and rand() yields a stream.
structure World where
  server : ExtentServer
  draws : Nat

def handle (stream : Nat → Rand) (w : World) : (q : Query) → Answer q × World
  | .get id => (w.server.get id,w)
  | .put id buf => (true,{w with server:=w.server.put id buf})
  | .rand => (stream w.draws,{w with draws:=w.draws+1})

-- The names of the operations are not empty.
abbrev Name := {name : List UInt8 // name ≠ []}

inductive Op where
  | createfile (pId : UInt64) (name : Name) (id : UInt64)
  | lookup (pId : UInt64) (name : Name) (id : UInt64)
  | readdir (id : UInt64)
  deriving DecidableEq

inductive Result where
  | inum (status : Status) (id : UInt64)
  | listing (status : Status) (fl : Filelist)
  deriving DecidableEq, Repr

section Session
variable (junk : Nat → UInt8) (stream : Nat → Rand)

def perform (w : World) : Op → Result × World
  | .createfile pId name id =>
    let ((status,id),w) := (createfile junk pId name.1 id).run (handle stream) w
    (.inum status id,w)
  | .lookup pId name id =>
    let ((status,id),w) := (lookup junk pId name.1 id).run (handle stream) w
    (.inum status id,w)
  | .readdir id =>
    let ((status,fl),w) := (readdir junk id []).run (handle stream) w
    (.listing status fl,w)

structure Session where
  world : World
  history : List (Op × Result)

def initial : Session := ⟨⟨.initial,0⟩,[]⟩

def next (s : Session) (op : Op) : Session :=
  ⟨(perform junk stream s.world op).2,s.history ++ [(op,(perform junk stream s.world op).1)]⟩

def step (s : Session) (op : Op) : Option Session := some (next junk stream s op)

def Below (s : Session) (op : Op) : Prop :=
  ∀ buf ∈ (next junk stream s op).world.server.data 1, buf.length < maxPdu

instance (s : Session) (op : Op) : Decidable (Below junk stream s op) :=
  inferInstanceAs (Decidable (∀ buf ∈ (next junk stream s op).world.server.data 1, _))

end Session

-- The directory as the results tell it: the first createfile of each name that
-- returned OK in the root, in order.
def recordCreated (created : Filelist) : Op × Result → Filelist
  | (.createfile pId name _,.inum .OK id) =>
    if pId = 1 ∧ name.1 ∉ created.map (·.2) then created ++ [(id,name.1)] else created
  | _ => created

def created (history : List (Op × Result)) : Filelist := history.foldl recordCreated []

def Correct (created : Filelist) (before : ExtentServer) (op : Op) (result : Result) (after : ExtentServer) : Prop :=
  match op with
  | .createfile pId name _ =>
    if pId = 1 then
      ∃ id, result = .inum .OK id ∧ ∀ first, (first,name.1) ∈ created → id = first ∧ after = before
    else (∃ id, result = .inum .IOERR id) ∧ after = before
  | .lookup pId name _ =>
    after = before ∧ if pId = 1 then
      (∀ first, (first,name.1) ∈ created → result = .inum .OK first) ∧
        (name.1 ∉ created.map (·.2) → ∃ id, result = .inum .NOENT id)
    else ∃ id, result = .inum .IOERR id
  | .readdir id =>
    after = before ∧ if id = 1 then result = .listing .OK created else ∃ fl, result = .listing .IOERR fl

variable {junk : Nat → UInt8} {stream : Nat → Rand} {w : World} {pId : UInt64} {name : List UInt8} {fl : Filelist}

theorem run_lookup (id : UInt64) :
    (lookup junk pId name id).run (handle stream) w = (lookupIn junk name id (w.server.get pId),w) := rfl

theorem run_readdir (out : Filelist) :
    (readdir junk pId out).run (handle stream) w = (readdirOf junk out (w.server.get pId),w) := rfl

theorem run_createfile_unreadable (unreadable : Unreadable (w.server.get pId)) (id : UInt64) :
    (createfile junk pId name id).run (handle stream) w = ((.IOERR,id),w) := by
  rw [createfile,Program.run_bind,run_lookup,lookupIn_unreadable unreadable]
  rfl

theorem run_createfile_found (stored : w.server.get pId = some (serialize fl)) (sound : Sound fl) (id : UInt64)
    (found : fl.find? (·.2 == name) = some entry) :
    (createfile junk pId name id).run (handle stream) w = ((.OK,entry.1),w) := by
  rw [createfile,Program.run_bind,run_lookup,stored,lookupIn_sound sound,found]
  rfl

theorem run_createfile_new (stored : w.server.get pId = some (serialize fl)) (sound : Sound fl) (id : UInt64)
    (missing : fl.find? (·.2 == name) = none) :
    (createfile junk pId name id).run (handle stream) w =
      let inum := newInum 1 (stream w.draws)
      ((.OK,inum),⟨(w.server.put pId (serialize (fl ++ [(inum,name)]))).put inum [],w.draws+1⟩) := by
  rw [createfile,Program.run_bind,run_lookup,stored,lookupIn_sound sound,missing]
  simp only [Program.run_bind,run_readdir,stored,readdirOf_sound sound]
  rfl

-- The server represents a directory: its root extent is the serialisation, and
-- no other extent can be read as a directory.
structure Represents (fl : Filelist) (server : ExtentServer) : Prop where
  stored : server.get 1 = some (serialize fl)
  sound : Sound fl
  distinct : (fl.map (·.2)).Nodup
  files : ∀ entry ∈ fl, isfile entry.1 = true
  others : ∀ id, id ≠ 1 → Unreadable (server.get id)

theorem find_missing (missing : name ∉ fl.map (·.2)) : fl.find? (·.2 == name) = none := by
  rw [List.find?_eq_none]
  intro entry member same
  exact missing (List.mem_map.mpr ⟨entry,member,beq_iff_eq.mp same⟩)

theorem find_member {id : UInt64} (distinct : (fl.map (·.2)).Nodup) (member : (id,name) ∈ fl) :
    fl.find? (·.2 == name) = some (id,name) := by
  induction fl with
  | nil => cases member
  | cons entry fl ih =>
    rw [List.map_cons,List.nodup_cons] at distinct
    rcases List.mem_cons.mp member with rfl | later
    · simp
    · have different : entry.2 ≠ name := by
        rintro rfl
        exact distinct.1 (List.mem_map.mpr ⟨_,later,rfl⟩)
      rw [List.find?_cons_of_neg (by simpa using different)]
      exact ih distinct.2 later

theorem perform_correct (represents : Represents fl w.server) (op : Op) :
    Correct fl w.server op (perform junk stream w op).1 (perform junk stream w op).2.server := by
  cases op with
  | createfile pId name id =>
    by_cases root : pId = 1
    · subst root
      simp only [Correct,if_true]
      by_cases known : name.1 ∈ fl.map (·.2)
      · obtain ⟨⟨first,bytes⟩,member,same⟩ := List.mem_map.mp known
        cases same
        have run : (createfile junk 1 name.1 id).run (handle stream) w = _ :=
          run_createfile_found represents.stored represents.sound id (find_member represents.distinct member)
        simp only [perform,run]
        refine ⟨first,rfl,fun again listed => ⟨?_,trivial⟩⟩
        have both := find_member represents.distinct listed
        rw [find_member represents.distinct member] at both
        exact congrArg Prod.fst (Option.some.inj both)
      · have run : (createfile junk 1 name.1 id).run (handle stream) w = _ :=
          run_createfile_new represents.stored represents.sound id (find_missing known)
        simp only [perform,run]
        refine ⟨_,rfl,fun first listed => ?_⟩
        exact absurd (List.mem_map.mpr ⟨_,listed,rfl⟩) known
    · simp only [Correct,if_neg root,perform,run_createfile_unreadable (represents.others pId root)]
      exact ⟨⟨id,rfl⟩,trivial⟩
  | lookup pId name id =>
    by_cases root : pId = 1
    · subst root
      simp only [Correct,if_true,perform,run_lookup,represents.stored,lookupIn_sound represents.sound]
      refine ⟨trivial,fun first listed => ?_,fun missing => ?_⟩
      · rw [find_member represents.distinct listed]
      · rw [find_missing missing]
        exact ⟨id,rfl⟩
    · simp only [Correct,if_neg root,perform,run_lookup,lookupIn_unreadable (represents.others pId root)]
      exact ⟨trivial,id,rfl⟩
  | readdir id =>
    by_cases root : id = 1
    · subst root
      simp only [Correct,if_true,perform,run_readdir,represents.stored,readdirOf_sound represents.sound]
      exact ⟨trivial,rfl⟩
    · simp only [Correct,if_neg root,perform,run_readdir,readdirOf_unreadable (represents.others id root)]
      exact ⟨trivial,[],rfl⟩

@[simp] theorem created_snoc (history : List (Op × Result)) (event : Op × Result) :
    created (history ++ [event]) = recordCreated (created history) event := by
  simp [created]

-- A new file keeps bit 31, so its extent is never the root.
theorem Represents.grow (represents : Represents fl server) (fresh : name ∉ fl.map (·.2)) (named : name ≠ [])
    (rand : Rand) (small : (serialize (fl ++ [(newInum 1 rand,name)])).length + 1 < 2^32) :
    Represents (fl ++ [(newInum 1 rand,name)])
      ((server.put 1 (serialize (fl ++ [(newInum 1 rand,name)]))).put (newInum 1 rand) []) where
  stored := by
    show (ExtentServer.put _ _ _).data 1 = _
    rw [ExtentServer.put_data_other _ _ (newInum_ne rand (by decide)).symm,ExtentServer.put_data_self]
  sound := by
    refine ⟨fun entry member => ?_,small⟩
    rcases List.mem_append.mp member with old | new
    · exact represents.sound.named entry old
    · rw [List.mem_singleton.mp new]
      exact named
  distinct := by
    rw [List.map_append,List.nodup_append]
    refine ⟨represents.distinct,by simp,fun old listed new last => ?_⟩
    rw [List.mem_singleton.mp last]
    rintro rfl
    exact fresh listed
  files := by
    intro entry member
    rcases List.mem_append.mp member with old | new
    · exact represents.files entry old
    · rw [List.mem_singleton.mp new]
      exact isfile_newInum rand
  others := by
    intro id notRoot
    by_cases new : id = newInum 1 rand
    · subst new
      exact .inr (ExtentServer.put_data_self _ _ _)
    · have untouched := represents.others id notRoot
      unfold ExtentServer.get at untouched ⊢
      rwa [ExtentServer.put_data_other _ _ new,ExtentServer.put_data_other _ _ notRoot]

theorem next_represents {s : Session} (represents : Represents (created s.history) s.world.server)
    (below : Below junk stream s op) :
    Represents (created (next junk stream s op).history) (next junk stream s op).world.server := by
  cases op with
  | createfile pId name id =>
    by_cases root : pId = 1
    · subst root
      by_cases known : name.1 ∈ (created s.history).map (·.2)
      · obtain ⟨⟨first,bytes⟩,member,same⟩ := List.mem_map.mp known
        cases same
        have run : (createfile junk 1 name.1 id).run (handle stream) s.world = _ :=
          run_createfile_found represents.stored represents.sound id (find_member represents.distinct member)
        simpa [next,perform,run,recordCreated,known] using represents
      · have run : (createfile junk 1 name.1 id).run (handle stream) s.world = _ :=
          run_createfile_new represents.stored represents.sound id (find_missing known)
        have limit := below (serialize (created s.history ++ [(newInum 1 (stream s.world.draws),name.1)])) (by
          simp only [next,perform,run]
          rw [ExtentServer.put_data_other _ _ (newInum_ne _ (by decide)).symm]
          exact ExtentServer.put_data_self _ _ _)
        have grown := represents.grow known name.2 (stream s.world.draws) (by simp only [maxPdu] at limit; omega)
        simpa [next,perform,run,recordCreated,known] using grown
    · have run : (createfile junk pId name.1 id).run (handle stream) s.world = _ :=
        run_createfile_unreadable (represents.others pId root) id
      simpa [next,perform,run,recordCreated] using represents
  | lookup pId name id => simpa [next,perform,run_lookup,recordCreated] using represents
  | readdir id => simpa [next,perform,run_readdir,recordCreated] using represents

theorem initial_represents : Represents (created initial.history) initial.world.server where
  stored := rfl
  sound := ⟨fun _ none => absurd none List.not_mem_nil,by decide⟩
  distinct := List.nodup_nil
  files := fun _ none => absurd none List.not_mem_nil
  others := fun id notRoot => .inl (if_neg notRoot)

theorem runs_represents (path : Machine.Runs (step junk stream) (Below junk stream) initial ops s) :
    Represents (created s.history) s.world.server := by
  induction path with
  | nil => exact initial_represents
  | snoc _ below taken ih =>
    cases Option.some.inj taken
    exact next_represents ih below

theorem one_client_sees_directory (path : Machine.Runs (step junk stream) (Below junk stream) initial ops s) (op : Op) :
    Correct (created s.history) s.world.server op (perform junk stream s.world op).1
        (perform junk stream s.world op).2.server ∧
      ((created s.history).map (·.2)).Nodup ∧ ∀ entry ∈ created s.history, isfile entry.1 = true :=
  have represents := runs_represents path
  ⟨perform_correct represents op,represents.distinct,represents.files⟩

def silent : Nat → UInt8 := fun _ => 0

def second : Session :=
  next silent Rand.wrap (next silent Rand.wrap initial (.createfile 1 ⟨[97],by decide⟩ 0)) (.createfile 1 ⟨[98],by decide⟩ 0)

theorem two_files_listed :
    (perform silent Rand.wrap second.world (.readdir 1)).1 = .listing .OK [(0x80000000,[97]),(0x80000001,[98])] := by
  have path : Machine.Runs (step silent Rand.wrap) (Below silent Rand.wrap) initial _ second :=
    .snoc (.snoc .nil (by decide +kernel) rfl) (by decide +kernel) rfl
  have listed : created second.history = [(0x80000000,[97]),(0x80000001,[98])] := by decide +kernel
  have correct := (one_client_sees_directory path (.readdir 1)).1
  rw [listed] at correct
  exact correct.2

end YfsLab.Directory
