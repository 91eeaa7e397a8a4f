import Mathlib.Data.List.Nodup
import YfsLab.Dangling

namespace YfsLab.FreshInums
open YfsClient ExtentProtocol Creates Dangling

-- The clients call createfile one after another, so a call starts when all
-- others have returned; a draw is answered by the stream of the client at work.
structure Unaliased (s : State) : Prop where
  given : ∀ call ∈ s.calls, ∀ fl id, call.phase = .writing fl id →
    ∀ dir, s.server.get 1 = some (serialize dir) → ∀ entry ∈ dir, entry.1 ≠ id
  own : ∀ call ∈ s.calls, ∀ id, call.phase = .filing id →
    ∀ dir, s.server.get 1 = some (serialize dir) → ∀ entry ∈ dir, entry.1 = id → entry.2 = call.name

def drawn : Label → Option Rand
  | .draw _ rand => some rand
  | _ => none

def draws (labels : List Label) : List Rand := labels.filterMap drawn

def residue (rand : Rand) : Nat := rand.val % 0x7FFFFFFF

def Delivered : Label → Prop
  | .rpc _ delivery => delivery = .delivered
  | _ => True

theorem newInum_toNat (rand : Rand) : (newInum 1 rand).toNat = 2^31 + residue rand := by
  have small : residue rand < 2^31 := by unfold residue; omega
  have bit : ((1 : UInt32) <<< 31).toNat = 2^31 := by decide
  have low : (UInt32.ofNat (rand.val % 0x7FFFFFFF)).toNat = residue rand := by
    rw [UInt32.toNat_ofNat']
    exact Nat.mod_eq_of_lt (by unfold residue at small; omega)
  have joined := Words.or_eq_add 1 (residue rand) 31 small
  rw [newInum,UInt32.toNat_toUInt64,UInt32.toNat_or,bit,low,Nat.lor_comm]
  simpa using joined

theorem newInum_eq_iff (one two : Rand) : newInum 1 one = newInum 1 two ↔ residue one = residue two := by
  rw [← UInt64.toNat_inj,newInum_toNat,newInum_toNat]
  omega

theorem nodup_inums (rands : List Rand) : (rands.map (newInum 1)).Nodup ↔ (rands.map residue).Nodup := by
  induction rands with
  | nil => simp
  | cons rand rest ih =>
    simp only [List.map_cons,List.nodup_cons,ih,List.mem_map,newInum_eq_iff]

variable {junk : Nat → UInt8} {s s' : State} {label : Label} {dir dir' : Filelist}

def awaiting : Phase → Option UInt64
  | .writing _ id => some id
  | _ => none

def waiting (s : State) : List UInt64 := s.calls.filterMap fun call => awaiting call.phase

theorem only_entry {T V : Type} {f : T → Option V} {entries : List T} {k : Nat} {entry : T}
    (held : entries[k]? = some entry)
    (others : ∀ (i : Nat) (other : T), i ≠ k → entries[i]? = some other → f other = none) :
    entries.filterMap f = (f entry).toList := by
  induction entries generalizing k with
  | nil => simp at held
  | cons first rest ih =>
    cases k with
    | zero =>
      have none : rest.filterMap f = [] := by
        rw [List.filterMap_eq_nil_iff]
        intro other member
        obtain ⟨i,there⟩ := List.mem_iff_getElem?.mp member
        exact others (i+1) other (by omega) there
      cases Option.some.inj held
      cases here : f entry <;> simp [here,none]
    | succ k =>
      have skipped := others 0 first (by omega) rfl
      rw [List.filterMap_cons_none skipped]
      exact ih held fun i other different there => others (i+1) other (by omega) there

theorem awaiting_returned (returned : ∃ status id, phase = .returned status id) : awaiting phase = none := by
  obtain ⟨status,id,rfl⟩ := returned
  rfl

theorem waiting_moved (single : Single s dir) {k : Nat} {call : Call} (held : s.calls[k]? = some call)
    (running : ∀ status id, call.phase ≠ .returned status id)
    (moved : s'.calls = s.calls.set k {call with phase:=phase}) :
    waiting s = (awaiting call.phase).toList ∧ waiting s' = (awaiting phase).toList := by
  constructor
  · apply only_entry held
    intro i other different there
    exact awaiting_returned (single.rest held running there different)
  · have there : s'.calls[k]? = some {call with phase:=phase} := by
      rw [moved]
      exact Machine.entry_self held
    apply only_entry there
    intro i other different found
    rw [moved,Machine.entry_other different] at found
    exact awaiting_returned (single.rest held running found different)

-- The inums of the directory and of the put that is due, against those that
-- were drawn: all of them, or a part if a put of the directory may fail.
def Accounted (related : List UInt64 → List UInt64 → Prop) (s : State) (dir : Filelist) (labels : List Label) : Prop :=
  related (dir.map (·.1) ++ waiting s) ((draws labels).map (newInum 1))

theorem draws_snoc (labels : List Label) (label : Label) : draws (labels ++ [label]) = draws labels ++ (drawn label).toList := by
  cases new : drawn label <;> simp [draws,new]

theorem Accounted.same {related : List UInt64 → List UInt64 → Prop} (single : Single s dir)
    (accounted : Accounted related s dir labels) {k : Nat} {call : Call} (held : s.calls[k]? = some call)
    (running : ∀ status id, call.phase ≠ .returned status id)
    (moved : s'.calls = s.calls.set k {call with phase:=phase}) (quiet : drawn label = none)
    (equal : dir'.map (·.1) ++ (awaiting phase).toList = dir.map (·.1) ++ (awaiting call.phase).toList) :
    Accounted related s' dir' (labels ++ [label]) := by
  obtain ⟨before,after⟩ := waiting_moved single held running moved
  unfold Accounted at accounted ⊢
  rw [before] at accounted
  rwa [draws_snoc,quiet,after,equal,Option.toList_none,List.append_nil]

theorem Accounted.step {related : List UInt64 → List UInt64 → Prop} (single : Single s dir)
    (accounted : Accounted related s dir labels) (turn : Turn s dir label s' dir')
    (grow : ∀ part all new, related part all → related (part ++ [new]) (all ++ [new]))
    (shrink : ¬ Delivered label → ∀ part all last, related (part ++ [last]) all → related part all) :
    Accounted related s' dir' (labels ++ [label]) := by
  cases turn with
  | create => simpa [Accounted,draws_snoc,drawn,waiting,awaiting] using accounted
  | refused held at_ =>
    rcases at_ with at_ | at_
    · exact accounted.same single held (by simp [at_]) rfl rfl (by simp [at_,awaiting])
    · exact accounted.same single held (by simp [at_]) rfl rfl (by simp [at_,awaiting])
  | missed held at_ => exact accounted.same single held (by simp [at_]) rfl rfl (by simp [at_,awaiting])
  | found held at_ => exact accounted.same single held (by simp [at_]) rfl rfl (by simp [at_,awaiting])
  | read held at_ => exact accounted.same single held (by simp [at_]) rfl rfl (by simp [at_,awaiting])
  | draw held at_ =>
    rename_i k call rand fl root
    obtain ⟨before,after⟩ := waiting_moved single held (by simp [at_])
      (rfl : (s.goes k call (.writing fl (newInum 1 rand))).calls = _)
    unfold Accounted at accounted ⊢
    rw [before,at_] at accounted
    rw [after,draws_snoc]
    simpa [awaiting,drawn] using grow _ _ (newInum 1 rand) accounted
  | write held at_ =>
    -- What the call waited to put is an entry now.
    cases single.current _ _ _ held (.inr ⟨_,at_⟩)
    apply accounted.same single held (by simp [at_]) rfl rfl
    split <;> simp [at_,awaiting]
  | unwritten held at_ =>
    rename_i k call inum fl
    obtain ⟨before,after⟩ := waiting_moved single held (by simp [at_])
      (rfl : (s.goes k call (.returned .IOERR inum)).calls = _)
    unfold Accounted at accounted ⊢
    rw [before,at_] at accounted
    rw [after,draws_snoc]
    simpa [awaiting,drawn] using shrink (by simp [Delivered]) _ _ _ accounted
  | file held at_ =>
    apply accounted.same single held (by simp [at_]) rfl rfl
    simp [at_,awaiting]
  | unfiled held at_ => exact accounted.same single held (by simp [at_]) rfl rfl (by simp [at_,awaiting])

theorem runs_sublist (path : Machine.Runs (Creates.step junk) Alone initial labels s) :
    ∃ dir, Single s dir ∧ Accounted List.Sublist s dir labels := by
  induction path with
  | nil =>
    obtain ⟨dir,single⟩ := runs_single (.nil : Machine.Runs (Creates.step junk) Alone initial [] initial)
    cases initial_rooted.unique single.stored
    exact ⟨[],single,List.Sublist.refl _⟩
  | snoc _ alone taken ih =>
    obtain ⟨dir,single,accounted⟩ := ih
    obtain ⟨dir',turn⟩ := single.toRooted.turn taken
    refine ⟨dir',single.step alone turn,accounted.step single turn ?_ ?_⟩
    · exact fun part all new sub => sub.append (List.Sublist.refl _)
    · exact fun _ part all last sub => (List.sublist_append_left part [last]).trans sub

theorem runs_equal (path : Machine.Runs (Creates.step junk) Alone initial labels s)
    (delivered : ∀ label ∈ labels, Delivered label) : ∃ dir, Single s dir ∧ Accounted Eq s dir labels := by
  induction path with
  | nil =>
    obtain ⟨dir,single⟩ := runs_single (.nil : Machine.Runs (Creates.step junk) Alone initial [] initial)
    cases initial_rooted.unique single.stored
    exact ⟨[],single,rfl⟩
  | @snoc front mid label next _ alone taken ih =>
    obtain ⟨dir,single,accounted⟩ := ih fun label member => delivered label (List.mem_append_left _ member)
    obtain ⟨dir',turn⟩ := single.toRooted.turn taken
    refine ⟨dir',single.step alone turn,accounted.step single turn ?_ ?_⟩
    · exact fun part all new same => by rw [same]
    · exact fun lost => absurd (delivered label (by simp)) lost

theorem unaliased_of_draws (path : Machine.Runs (Creates.step junk) Alone initial labels s)
    (differ : ((draws labels).map residue).Nodup) : Unaliased s := by
  obtain ⟨dir,single,part⟩ := runs_sublist path
  have distinct := ((nodup_inums _).mpr differ).sublist part
  obtain ⟨inums,_,apart⟩ := List.nodup_append.mp distinct
  constructor
  · intro call member fl id writing other stored entry listed
    cases single.unique stored
    have due : id ∈ waiting s := List.mem_filterMap.mpr ⟨call,member,by rw [writing]; rfl⟩
    exact apart entry.1 (List.mem_map.mpr ⟨entry,listed,rfl⟩) id due
  · intro call member id filing other stored entry listed same
    cases single.unique stored
    obtain ⟨k,held⟩ := List.mem_iff_getElem?.mp member
    have mine := single.filed k call id held filing
    have unique := List.inj_on_of_nodup_map inums listed mine same
    rw [unique]

theorem fresh_draw {rand : Rand} (single : Single s dir) (accounted : Accounted Eq s dir labels) {k : Nat} {call : Call}
    (held : s.calls[k]? = some call) (at_ : call.phase = .drawing fl)
    (after : Unaliased (s.goes k call (.writing fl (newInum 1 rand)))) : residue rand ∉ (draws labels).map residue := by
  intro repeated
  obtain ⟨old,member,same⟩ := List.mem_map.mp repeated
  obtain ⟨before,_⟩ := waiting_moved single held (by simp [at_])
    (rfl : (s.goes k call (.writing fl (newInum 1 rand))).calls = _)
  have listed : newInum 1 old ∈ dir.map (·.1) := by
    rw [Accounted,before,at_] at accounted
    simp only [awaiting,Option.toList_none,List.append_nil] at accounted
    rw [accounted]
    exact List.mem_map_of_mem member
  obtain ⟨entry,inside,inum⟩ := List.mem_map.mp listed
  have here : {call with phase:=.writing fl (newInum 1 rand)} ∈ (s.goes k call (.writing fl (newInum 1 rand))).calls :=
    List.mem_of_getElem? (Machine.entry_self held)
  apply after.given _ here fl _ rfl dir single.stored entry inside
  rw [inum,newInum_eq_iff,same]

theorem draws_of_unaliased (path : Machine.Runs (Creates.step junk) Alone initial labels s)
    (delivered : ∀ label ∈ labels, Delivered label)
    (always : ∀ earlier later mid, labels = earlier ++ later →
      Machine.Runs (Creates.step junk) Alone initial earlier mid → Unaliased mid) :
    ((draws labels).map residue).Nodup := by
  induction path with
  | nil => exact List.nodup_nil
  | @snoc front mid label next prior alone taken ih =>
    have before := ih (fun label member => delivered label (List.mem_append_left _ member))
      fun earlier later state equal run => always earlier (later ++ [label]) state (by rw [equal,List.append_assoc]) run
    have after := always (front ++ [label]) [] next (by simp) (.snoc prior alone taken)
    obtain ⟨dir,single,accounted⟩ := runs_equal prior fun label member =>
      delivered label (List.mem_append_left _ member)
    rw [draws_snoc]
    cases new : drawn label with
    | none => simpa [new] using before
    | some rand =>
      obtain ⟨dir',turn⟩ := single.toRooted.turn taken
      cases turn with
      | draw held at_ root =>
        cases Option.some.inj new
        rw [List.map_append,List.nodup_append]
        refine ⟨before,by simp,fun old listed last member => ?_⟩
        simp only [Option.toList_some,List.map_cons,List.map_nil,List.mem_singleton] at member
        rintro rfl
        exact fresh_draw single accounted held at_ after (member ▸ listed)
      | _ => cases new

theorem files_unaliased_iff (path : Machine.Runs (Creates.step junk) Alone initial labels s) :
    (((draws labels).map residue).Nodup → ∀ earlier later mid, labels = earlier ++ later →
      Machine.Runs (Creates.step junk) Alone initial earlier mid → Unaliased mid) ∧
    ((∀ label ∈ labels, Delivered label) →
      ((∀ earlier later mid, labels = earlier ++ later →
        Machine.Runs (Creates.step junk) Alone initial earlier mid → Unaliased mid) ↔
        ((draws labels).map residue).Nodup)) := by
  have enough : ((draws labels).map residue).Nodup → ∀ earlier later mid, labels = earlier ++ later →
      Machine.Runs (Creates.step junk) Alone initial earlier mid → Unaliased mid := by
    intro differ earlier later mid equal run
    apply unaliased_of_draws run
    rw [equal,draws,List.filterMap_append,List.map_append] at differ
    exact differ.of_append_left
  exact ⟨enough,fun delivered => ⟨draws_of_unaliased path delivered,enough⟩⟩

-- Two clients whose rand() starts with the same value, one after the other.
def createOne (k : Nat) (name : List UInt8) (rand : Rand) : List Label :=
  [.create 1 name 0,.rpc k .delivered,.rpc k .delivered,.draw k rand,.rpc k .delivered,.rpc k .delivered]

def sameSeed : List Label := createOne 0 [97] (.wrap 0) ++ createOne 1 [98] (.wrap 0)

theorem same_seed_aliases :
    ∃ s mid, Machine.Runs (Creates.step fun _ => 0) Alone initial sameSeed s ∧
      s.calls = [⟨1,[97],.returned .OK 0x80000000⟩,⟨1,[98],.returned .OK 0x80000000⟩] ∧
      s.server.get 1 = some (serialize [(0x80000000,[97]),(0x80000000,[98])]) ∧
      Machine.Runs (Creates.step fun _ => 0) Alone initial (sameSeed.take 10) mid ∧ ¬ Unaliased mid := by
  have whole : (Machine.exec (Machine.guarded (Creates.step fun _ => 0) Alone) initial sameSeed).map
      (fun s => (s.calls,s.server.get 1)) =
      some ([⟨1,[97],.returned .OK 0x80000000⟩,⟨1,[98],.returned .OK 0x80000000⟩],
        some (serialize [(0x80000000,[97]),(0x80000000,[98])])) := by decide +kernel
  have part : (Machine.exec (Machine.guarded (Creates.step fun _ => 0) Alone) initial (sameSeed.take 10)).map
      (fun s => (s.calls,s.server.get 1)) =
      some ([⟨1,[97],.returned .OK 0x80000000⟩,⟨1,[98],.writing [(0x80000000,[97])] 0x80000000⟩],
        some (serialize [(0x80000000,[97])])) := by decide +kernel
  obtain ⟨s,path,view⟩ := Machine.guarded_observed whole
  obtain ⟨mid,front,seen⟩ := Machine.guarded_observed part
  obtain ⟨calls,stored⟩ := Prod.mk.inj view
  obtain ⟨midCalls,midStored⟩ := Prod.mk.inj seen
  have second : ⟨1,[98],.writing [(0x80000000,[97])] 0x80000000⟩ ∈ mid.calls := by
    rw [midCalls]
    exact List.mem_cons_of_mem _ List.mem_cons_self
  refine ⟨s,mid,path,calls,stored,front,fun unaliased => ?_⟩
  exact unaliased.given _ second _ _ rfl _ midStored (0x80000000,[97]) List.mem_cons_self rfl

def otherSeed : List Label := createOne 0 [97] (.wrap 0) ++ createOne 1 [98] (.wrap 1)

theorem other_seed_unaliased :
    ∃ s, Machine.Runs (Creates.step fun _ => 0) Alone initial otherSeed s ∧
      s.server.get 1 = some (serialize [(0x80000000,[97]),(0x80000001,[98])]) ∧ Unaliased s := by
  have ran : (Machine.exec (Machine.guarded (Creates.step fun _ => 0) Alone) initial otherSeed).map
      (fun s => s.server.get 1) = some (some (serialize [(0x80000000,[97]),(0x80000001,[98])])) := by decide +kernel
  obtain ⟨s,path,stored⟩ := Machine.guarded_observed ran
  exact ⟨s,path,stored,(files_unaliased_iff path).1 (by decide) otherSeed [] s (by simp) path⟩

end YfsLab.FreshInums
