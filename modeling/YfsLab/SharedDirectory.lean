import Mathlib.Data.List.Perm.Subperm
import YfsLab.Lib.Counting
import YfsLab.Creates

namespace YfsLab.SharedDirectory
open YfsClient ExtentProtocol Creates

def Listed (s : State) : Prop :=
  ∀ call ∈ s.calls, ∀ id, call.phase = .returned .OK id →
    ∃ fl, s.server.get call.pId = some (serialize fl) ∧ (id,call.name) ∈ fl

-- A put of the directory that takes effect replaces what its call has read.
def Fresh (s : State) : Label → Prop
  | .rpc k delivery => ∀ call fl id, s.calls[k]? = some call → call.phase = .writing fl id →
      delivery ≠ .requestLost → s.server.get call.pId = some (serialize fl)
  | _ => True

variable {junk : Nat → UInt8} {s s' : State} {label : Label} {dir dir' : Filelist}

-- While all puts are fresh the directory only grows, and what a call has
-- written or found stays in it.
structure Recorded (s : State) (dir : Filelist) : Prop extends Rooted s dir where
  entries : ∀ (k : Nat) (call : Call), s.calls[k]? = some call →
    ∀ id, call.phase = .filing id ∨ call.phase = .returned .OK id → (id,call.name) ∈ dir

theorem Recorded.goes (recorded : Recorded s dir) (server : ExtentServer)
    (rooted : Rooted (State.goes {s with server:=server} k call phase) dir') (grows : ∀ entry ∈ dir, entry ∈ dir')
    (new : ∀ id, phase = .filing id ∨ phase = .returned .OK id → (id,call.name) ∈ dir') :
    Recorded (State.goes {s with server:=server} k call phase) dir' where
  toRooted := rooted
  entries := by
    intro i other held id settled
    rcases Machine.entry_cases held with ⟨_,rfl⟩ | ⟨_,old⟩
    · exact new id settled
    · exact grows _ (recorded.entries i other old id settled)

theorem Recorded.step (recorded : Recorded s dir) (fresh : Fresh s label) (turn : Turn s dir label s' dir') :
    Recorded s' dir' := by
  have rooted := recorded.toRooted.step turn
  cases turn with
  | create =>
    refine ⟨rooted,fun i other held id settled => ?_⟩
    rcases Machine.entry_append held with old | ⟨_,rfl⟩
    · exact recorded.entries i other old id settled
    · simp at settled
  | refused held at_ => exact recorded.goes s.server rooted (fun _ same => same) (by simp)
  | missed held at_ root missing => exact recorded.goes s.server rooted (fun _ same => same) (by simp)
  | found held at_ root member =>
    refine recorded.goes s.server rooted (fun _ same => same) fun id settled => ?_
    obtain ⟨-,rfl⟩ : True ∧ _ = id := by simpa using settled
    exact member
  | read held at_ root => exact recorded.goes s.server rooted (fun _ same => same) (by simp)
  | draw held at_ root => exact recorded.goes s.server rooted (fun _ same => same) (by simp)
  | write held at_ root isFile effective fits =>
    -- The list that is written extends the one that is there.
    rename_i k call inum delivery fl
    have current := fresh _ _ _ held at_ effective
    rw [root] at current
    cases recorded.unique current
    refine recorded.goes _ rooted (fun entry old => List.mem_append_left _ old) fun id settled => ?_
    have same : inum = id := by
      split at settled
      · simpa using settled
      · simp at settled
    exact same ▸ List.mem_append_right _ List.mem_cons_self
  | unwritten held at_ => exact recorded.goes s.server rooted (fun _ same => same) (by simp)
  | file held at_ root isFile effective =>
    rename_i k call inum delivery
    refine recorded.goes _ rooted (fun _ same => same) fun id settled => ?_
    have same : inum = id := by
      split at settled
      · simpa using settled
      · simp at settled
    exact same ▸ recorded.entries _ _ held _ (.inl at_)
  | unfiled held at_ => exact recorded.goes s.server rooted (fun _ same => same) (by simp)

theorem runs_recorded (path : Machine.Runs (Creates.step junk) Fresh initial labels s) : ∃ dir, Recorded s dir := by
  induction path with
  | nil => exact ⟨[],initial_rooted,fun k call held => by simp [initial] at held⟩
  | snoc _ fresh taken ih =>
    obtain ⟨dir,recorded⟩ := ih
    obtain ⟨dir',turn⟩ := recorded.toRooted.turn taken
    exact ⟨dir',recorded.step fresh turn⟩

theorem runs_listed (path : Machine.Runs (Creates.step junk) Fresh initial labels s) : Listed s := by
  obtain ⟨dir,recorded⟩ := runs_recorded path
  intro call member id returned
  obtain ⟨k,held⟩ := List.mem_iff_getElem?.mp member
  have root := recorded.inside k call held
  rw [returned] at root
  exact ⟨dir,root ▸ recorded.stored,recorded.entries k call held id (.inr returned)⟩

-- The other direction counts: each call lets the directory grow by one entry
-- at most, and only a fresh put does.
def past (call : Call) : Bool :=
  match call.phase with
  | .filing _ | .returned _ _ => true
  | _ => false

def settledCalls (s : State) : Nat := s.calls.countP past

def Sourced (s : State) (fl : Filelist) : Prop := ∀ entry ∈ fl, ∃ call ∈ s.calls, past call = true ∧ call.name = entry.2

structure Counted (s : State) (dir : Filelist) : Prop extends Rooted s dir where
  atMost : dir.length ≤ settledCalls s
  sourced : Sourced s dir
  pending : ∀ (k : Nat) (call : Call) (fl : Filelist), s.calls[k]? = some call → Pending call fl →
    (fl = dir ∨ fl.length < settledCalls s) ∧ Sourced s fl

-- A call that moves on: what becomes of the count and of the sources.
section Moves
variable {k : Nat} {call : Call} {phase : Phase} {fl : Filelist}

theorem past_written (call : Call) (inum : UInt64) (delivery : Delivery) :
    past {call with phase:=if delivery = .delivered then .filing inum else .returned .IOERR inum} = true := by
  by_cases delivered : delivery = .delivered
  · simp [past,delivered]
  · simp [past,delivered]

theorem settled_same (moved : s'.calls = s.calls.set k {call with phase:=phase}) (held : s.calls[k]? = some call)
    (same : past {call with phase:=phase} = past call) : settledCalls s' = settledCalls s := by
  have count := Counting.count_set past {call with phase:=phase} held
  rw [same] at count
  unfold settledCalls
  rw [moved]
  omega

theorem settled_next (moved : s'.calls = s.calls.set k {call with phase:=phase}) (held : s.calls[k]? = some call)
    (old : past call = false) (new : past {call with phase:=phase} = true) :
    settledCalls s' = settledCalls s + 1 := by
  have count := Counting.count_set past {call with phase:=phase} held
  simp only [old,new] at count
  unfold settledCalls
  rw [moved]
  exact count

theorem Sourced.goes (sourced : Sourced s fl) (moved : s'.calls = s.calls.set k {call with phase:=phase})
    (held : s.calls[k]? = some call) (still : past call = true → past {call with phase:=phase} = true) :
    Sourced s' fl := by
  intro entry member
  obtain ⟨source,inside,settled,name⟩ := sourced entry member
  obtain ⟨i,there⟩ := List.mem_iff_getElem?.mp inside
  rw [moved]
  by_cases same : i = k
  · cases same
    cases Option.some.inj (held.symm.trans there)
    exact ⟨_,List.mem_of_getElem? (Machine.entry_self held),still settled,name⟩
  · rw [← Machine.entry_other same] at there
    exact ⟨source,List.mem_of_getElem? there,settled,name⟩

theorem Counted.goes (counted : Counted s dir) (moved : s'.calls = s.calls.set k {call with phase:=phase})
    (held : s.calls[k]? = some call) (still : past call = true → past {call with phase:=phase} = true)
    (rooted : Rooted s' dir') (atMost : dir'.length ≤ settledCalls s') (sourced : Sourced s' dir')
    (kept : (dir' = dir ∧ settledCalls s ≤ settledCalls s') ∨ settledCalls s < settledCalls s')
    (mine : ∀ fl, Pending {call with phase:=phase} fl → fl = dir' ∨ Pending call fl) : Counted s' dir' where
  toRooted := rooted
  atMost := atMost
  sourced := sourced
  pending := by
    -- What was read before the step is stale by as much as the count has grown.
    have old : ∀ (i : Nat) other fl, s.calls[i]? = some other → Pending other fl →
        (fl = dir' ∨ fl.length < settledCalls s') ∧ Sourced s' fl := by
      intro i other fl there waiting
      obtain ⟨stale,source⟩ := counted.pending i other fl there waiting
      refine ⟨?_,source.goes moved held still⟩
      have size := counted.atMost
      rcases stale with rfl | behind
      · rcases kept with ⟨rfl,_⟩ | grown
        · exact .inl rfl
        · exact .inr (by omega)
      · exact .inr (by omega)
    intro i other fl there waiting
    rw [moved] at there
    rcases Machine.entry_cases there with ⟨_,rfl⟩ | ⟨_,before⟩
    · rcases mine fl waiting with rfl | earlier
      · exact ⟨.inl rfl,sourced⟩
      · exact old k _ fl held earlier
    · exact old i other fl before waiting

theorem Counted.waits (counted : Counted s dir) (moved : s'.calls = s.calls.set k {call with phase:=phase})
    (held : s.calls[k]? = some call) (rooted : Rooted s' dir) (same : past {call with phase:=phase} = past call)
    (mine : ∀ fl, Pending {call with phase:=phase} fl → fl = dir ∨ Pending call fl) : Counted s' dir := by
  have count := settled_same moved held same
  have still : past call = true → past {call with phase:=phase} = true := fun settled => same.trans settled
  exact counted.goes moved held still rooted (count ▸ counted.atMost) (counted.sourced.goes moved held still)
    (.inl ⟨rfl,count.ge⟩) mine

theorem Counted.settles (counted : Counted s dir) (moved : s'.calls = s.calls.set k {call with phase:=phase})
    (held : s.calls[k]? = some call) (rooted : Rooted s' dir) (old : past call = false)
    (at_ : phase = .returned status inum) : Counted s' dir := by
  have new : past {call with phase:=phase} = true := by rw [at_]; rfl
  have count := settled_next moved held old new
  have size := counted.atMost
  refine counted.goes moved held (fun _ => new) rooted (by omega) (counted.sourced.goes moved held fun _ => new)
    (.inr (by omega)) ?_
  rintro fl (drawing | ⟨_,writing⟩)
  · simp [at_] at drawing
  · simp [at_] at writing

end Moves

theorem Counted.step (counted : Counted s dir) (turn : Turn s dir label s' dir') : Counted s' dir' := by
  have rooted := counted.toRooted.step turn
  cases turn with
  | create =>
    rename_i pId name inum
    have count : ∀ server, settledCalls ⟨server,s.calls ++ [⟨pId,name,.looking inum⟩]⟩ = settledCalls s := by
      intro server
      simp [settledCalls,past]
    have source : ∀ fl, Sourced s fl → Sourced ⟨s.server,s.calls ++ [⟨pId,name,.looking inum⟩]⟩ fl := by
      intro fl sourced entry member
      obtain ⟨call,inside,settled⟩ := sourced entry member
      exact ⟨call,List.mem_append_left _ inside,settled⟩
    refine ⟨rooted,by rw [count]; exact counted.atMost,source _ counted.sourced,?_⟩
    intro i call fl held waiting
    rcases Machine.entry_append held with old | ⟨_,rfl⟩
    · obtain ⟨stale,sourced⟩ := counted.pending i call fl old waiting
      exact ⟨by rw [count]; exact stale,source fl sourced⟩
    · simp [Pending] at waiting
  | refused held at_ =>
    rename_i k call delivery inum
    have old : past call = false := by
      rcases at_ with at_ | at_
      · simp only [past,at_]
      · simp only [past,at_]
    exact counted.settles rfl held rooted old rfl
  | missed held at_ root missing =>
    exact counted.waits rfl held rooted (by simp only [past,at_]) (by simp [Pending])
  | found held at_ root member => exact counted.settles rfl held rooted (by simp only [past,at_]) rfl
  | read held at_ root =>
    refine counted.waits rfl held rooted (by simp only [past,at_]) fun fl waiting => .inl ?_
    simpa [Pending,eq_comm] using waiting
  | draw held at_ root =>
    refine counted.waits rfl held rooted (by simp only [past,at_]) fun fl waiting => .inr (.inl ?_)
    simpa [Pending,at_] using waiting
  | write held at_ root isFile effective fits =>
    rename_i k call inum delivery fl
    obtain ⟨stale,source⟩ := counted.pending _ _ fl held (.inr ⟨inum,at_⟩)
    have old : past call = false := by simp only [past,at_]
    have new := past_written call inum delivery
    have count : settledCalls (State.goes {s with server:=s.server.put 1 (serialize (fl ++ [(inum,call.name)]))} k call
        (if delivery = .delivered then .filing inum else .returned .IOERR inum)) = settledCalls s + 1 :=
      settled_next rfl held old new
    have size := counted.atMost
    refine counted.goes rfl held (fun _ => new) rooted ?_ ?_ (.inr (by omega)) ?_
    · rw [count,List.length_append,List.length_singleton]
      rcases stale with rfl | behind <;> omega
    · intro entry member
      rcases List.mem_append.mp member with earlier | last
      · exact source.goes rfl held (fun _ => new) entry earlier
      · refine ⟨_,List.mem_of_getElem? (Machine.entry_self held),new,?_⟩
        rw [List.mem_singleton.mp last]
    · rintro other (drawing | ⟨_,writing⟩)
      · simp only at drawing
        split at drawing <;> cases drawing
      · simp only at writing
        split at writing <;> cases writing
  | unwritten held at_ => exact counted.settles rfl held rooted (by simp only [past,at_]) rfl
  | file held at_ root isFile effective =>
    exact counted.waits rfl held rooted (by simp only [past,at_]) (by simp [Pending])
  | unfiled held at_ => exact counted.waits rfl held rooted (by simp only [past,at_]) (by simp [Pending])

theorem runs_counted (path : Machine.Runs (Creates.step junk) ok initial labels s) : ∃ dir, Counted s dir := by
  induction path with
  | nil =>
    refine ⟨[],initial_rooted,Nat.zero_le _,fun entry none => ?_,fun k call fl held => ?_⟩
    · cases none
    · simp [initial] at held
  | snoc _ _ taken ih =>
    obtain ⟨dir,counted⟩ := ih
    obtain ⟨dir',turn⟩ := counted.toRooted.turn taken
    exact ⟨dir',counted.step turn⟩

def Full (s : State) : Prop := ∃ dir, s.server.get 1 = some (serialize dir) ∧ dir.length = settledCalls s

theorem full_iff (rooted : Rooted s dir) : Full s ↔ dir.length = settledCalls s := by
  constructor
  · rintro ⟨other,stored,full⟩
    rwa [rooted.unique stored] at full
  · exact fun full => ⟨dir,rooted.stored,full⟩

theorem fresh_unwritten {k : Nat} {call : Call} (held : s.calls[k]? = some call)
    (elsewhere : ∀ fl id, call.phase ≠ .writing fl id) : Fresh s (.rpc k delivery) := by
  intro other fl id there writing
  cases Option.some.inj (held.symm.trans there)
  exact absurd writing (elsewhere fl id)

theorem full_step (counted : Counted s dir) (turn : Turn s dir label s' dir')
    (fine : ∀ (k : Nat) call, s'.calls[k]? = some call → ∀ id, call.phase ≠ .returned .IOERR id)
    (distinct : ∀ (i j : Nat) one two, s.calls[i]? = some one → s.calls[j]? = some two → one.name = two.name → i = j) :
    Full s' ↔ Full s ∧ Fresh s label := by
  have before := full_iff counted.toRooted
  have after := full_iff (counted.toRooted.step turn)
  cases turn with
  | create =>
    rw [after,before]
    simp [settledCalls,past,Fresh]
  | refused held at_ => exact absurd rfl (fine _ _ (Machine.entry_self held) _)
  | missed held at_ root missing =>
    rw [after,before,settled_same rfl held (by simp only [past,at_])]
    exact (and_iff_left (fresh_unwritten held (by simp [at_]))).symm
  | found held at_ root member =>
    obtain ⟨source,inside,settled,name⟩ := counted.sourced _ member
    obtain ⟨i,there⟩ := List.mem_iff_getElem?.mp inside
    cases distinct i _ _ _ there held name
    cases Option.some.inj (held.symm.trans there)
    simp [past,at_] at settled
  | read held at_ root =>
    rw [after,before,settled_same rfl held (by simp only [past,at_])]
    exact (and_iff_left (fresh_unwritten held (by simp [at_]))).symm
  | draw held at_ root =>
    rw [after,before,settled_same rfl held (by simp only [past,at_])]
    exact (and_iff_left trivial).symm
  | write held at_ root isFile effective fits =>
    rename_i k call inum delivery fl
    have new := past_written call inum delivery
    rw [after,before,settled_next rfl held (by simp only [past,at_]) new,List.length_append,List.length_singleton]
    obtain ⟨stale,_⟩ := counted.pending _ _ fl held (.inr ⟨inum,at_⟩)
    constructor
    · intro full
      rcases stale with rfl | behind
      · refine ⟨by omega,fun other other' id there writing _ => ?_⟩
        cases Option.some.inj (held.symm.trans there)
        cases at_.symm.trans writing
        exact root ▸ counted.stored
      · omega
    · rintro ⟨full,fresh⟩
      have current := fresh _ _ _ held at_ effective
      rw [root] at current
      cases counted.unique current
      omega
  | unwritten held at_ => exact absurd rfl (fine _ _ (Machine.entry_self held) _)
  | file held at_ root isFile effective =>
    rw [after,before,settled_same rfl held (by simp only [past,at_])]
    exact (and_iff_left (fresh_unwritten held (by simp [at_]))).symm
  | unfiled held at_ =>
    rw [after,before,settled_same rfl held (by simp only [past,at_])]
    exact (and_iff_left (fresh_unwritten held (by simp [at_]))).symm

def AllOK (s : State) : Prop := ∀ call ∈ s.calls, ∃ id, call.phase = .returned .OK id

theorem listed_full (counted : Counted s dir) (distinct : (s.calls.map (·.name)).Nodup) (finished : AllOK s)
    (listed : Listed s) : Full s := by
  have all : settledCalls s = s.calls.length := by
    rw [settledCalls,List.countP_eq_length]
    intro call member
    obtain ⟨id,returned⟩ := finished call member
    simp only [past,returned]
  have names : s.calls.map (·.name) ⊆ dir.map (·.2) := by
    intro name member
    obtain ⟨call,inside,rfl⟩ := List.mem_map.mp member
    obtain ⟨id,returned⟩ := finished call inside
    obtain ⟨fl,stored,entry⟩ := listed call inside id returned
    obtain ⟨k,held⟩ := List.mem_iff_getElem?.mp inside
    have root := counted.inside k call held
    rw [returned] at root
    rw [show call.pId = 1 from root] at stored
    cases counted.unique stored
    exact List.mem_map.mpr ⟨_,entry,rfl⟩
  have atLeast := (List.subperm_of_subset distinct names).length_le
  rw [List.length_map,List.length_map] at atLeast
  exact (full_iff counted.toRooted).mpr (Nat.le_antisymm counted.atMost (all ▸ atLeast))

theorem full_fresh (path : Machine.Runs (Creates.step junk) Machine.free initial labels s)
    (distinct : (s.calls.map (·.name)).Nodup) (finished : AllOK s) (full : Full s) :
    Machine.Runs (Creates.step junk) Fresh initial labels s := by
  refine (path.holds_iff Full ⟨[],rfl,rfl⟩ .nil ?_).mp full
  intro earlier before label after later prior _ taken rest
  obtain ⟨dir,counted⟩ := runs_counted prior
  obtain ⟨dir',turn⟩ := counted.toRooted.turn taken
  refine full_step counted turn ?_ ?_
  · intro k call held id failed
    obtain ⟨last,there,_,_,result⟩ := runs_kept rest k call held
    obtain ⟨ok,returned⟩ := finished last (List.mem_of_getElem? there)
    cases (result _ _ failed).symm.trans returned
  · intro i j one two first second name
    have onwards : Machine.Runs (Creates.step junk) Machine.free before _ s :=
      (Machine.Runs.single trivial taken).append rest
    obtain ⟨lastOne,thereOne,_,nameOne,_⟩ := runs_kept onwards i one first
    obtain ⟨lastTwo,thereTwo,_,nameTwo,_⟩ := runs_kept onwards j two second
    have bound := (List.getElem?_eq_some_iff.mp thereOne).1
    refine (List.getElem?_inj (by simpa using bound) distinct).mp ?_
    simp only [List.getElem?_map,thereOne,thereTwo,Option.map_some,nameOne,nameTwo,name]

theorem creates_listed_iff_fresh (path : Machine.Runs (Creates.step junk) Machine.free initial labels s) :
    (Machine.Runs (Creates.step junk) Fresh initial labels s → Listed s) ∧
      ((s.calls.map (·.name)).Nodup → AllOK s → Listed s →
        Machine.Runs (Creates.step junk) Fresh initial labels s) := by
  refine ⟨runs_listed,fun distinct finished listed => ?_⟩
  obtain ⟨dir,counted⟩ := runs_counted path
  exact full_fresh path distinct finished (listed_full counted distinct finished listed)

-- Two clients create the files a and b; rand() yields 0 and 1.
def createA : List Label := [.rpc 0 .delivered,.rpc 0 .delivered,.draw 0 (.wrap 0)]
def createB : List Label := [.rpc 1 .delivered,.rpc 1 .delivered,.draw 1 (.wrap 1)]
def putA : List Label := [.rpc 0 .delivered,.rpc 0 .delivered]
def putB : List Label := [.rpc 1 .delivered,.rpc 1 .delivered]
def both : List Label := [.create 1 [97] 0,.create 1 [98] 0]

def returnedCalls : List Call := [⟨1,[97],.returned .OK 0x80000000⟩,⟨1,[98],.returned .OK 0x80000001⟩]

-- Both read the empty directory before one of them writes it.
theorem interleaved_create_lost :
    ∃ s, Machine.Runs (Creates.step fun _ => 0) Machine.free initial (both ++ createA ++ createB ++ putA ++ putB) s ∧
      (s.calls.map (·.name)).Nodup ∧ (∀ call ∈ s.calls, call.pId = 1 ∧ call.name ≠ []) ∧ AllOK s ∧ ¬ Listed s := by
  have ran : (Machine.exec (Creates.step fun _ => 0) initial (both ++ createA ++ createB ++ putA ++ putB)).map
      (fun s => (s.calls,s.server.get 1)) = some (returnedCalls,some (serialize [(0x80000001,[98])])) := by
    decide +kernel
  obtain ⟨s,path,view⟩ := Machine.exec_free_observed ran
  obtain ⟨calls,stored⟩ := Prod.mk.inj view
  refine ⟨s,path,by rw [calls]; decide,by rw [calls]; decide,by rw [AllOK,calls]; simp [returnedCalls],fun listed => ?_⟩
  obtain ⟨fl,content,member⟩ := listed ⟨1,[97],.returned .OK 0x80000000⟩ (by rw [calls]; decide) _ rfl
  have same := serialize_injective _ fl (by decide +kernel) (Option.some.inj (stored.symm.trans content))
  rw [← same] at member
  exact absurd member (by decide)

theorem sequential_creates_fresh :
    ∃ s, Machine.Runs (Creates.step fun _ => 0) Fresh initial (both ++ createA ++ putA ++ createB ++ putB) s ∧
      s.calls = returnedCalls ∧ Listed s := by
  have ran : (Machine.exec (Creates.step fun _ => 0) initial (both ++ createA ++ putA ++ createB ++ putB)).map
      (fun s => (s.calls,s.server.get 1)) =
      some (returnedCalls,some (serialize [(0x80000000,[97]),(0x80000001,[98])])) := by
    decide +kernel
  obtain ⟨s,path,view⟩ := Machine.exec_free_observed ran
  obtain ⟨calls,stored⟩ := Prod.mk.inj view
  have listed : Listed s := by
    intro call member id returned
    rw [calls] at member
    rcases List.mem_cons.mp member with rfl | last
    · cases returned
      exact ⟨_,stored,by decide⟩
    · cases List.mem_singleton.mp last
      cases returned
      exact ⟨_,stored,by decide⟩
  have fresh := (creates_listed_iff_fresh path).2 (by rw [calls]; decide) (by rw [AllOK,calls]; simp [returnedCalls]) listed
  exact ⟨s,fresh,calls,(creates_listed_iff_fresh path).1 fresh⟩

end YfsLab.SharedDirectory
