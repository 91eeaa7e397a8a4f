import YfsLab.Lib.Runs
import Mathlib.Data.List.Nodup
import Mathlib.Data.List.Lemmas

namespace YfsLab.ReplyWindow

inductive RpcstateT where
  | NEW
  | INPROGRESS
  | DONE
  | FORGOTTEN
  deriving DecidableEq, Repr

-- rpcs::reply_t. A NULL buffer is the empty one; a stored buffer is the value
-- of the bytes that were copied into it.
structure ReplyT where
  xid : UInt32
  cbPresent : Bool
  buf : List UInt8
  sz : Nat
  deriving DecidableEq, Repr

def ReplyT.fresh (xid : UInt32) : ReplyT := ⟨xid,false,[],0⟩

-- What the out parameters b and sz of checkduplicate_and_update carry: they
-- are written in the DONE branch only.
structure Answer where
  stat : RpcstateT
  out : Option (List UInt8 × Nat)
  deriving DecidableEq, Repr

-- The for loop of checkduplicate_and_update over one client's list. `none` is
-- reaching the end of the list; every other result is a return from inside.
def scan (xid xidRep : UInt32) : List ReplyT → Option Answer × List ReplyT
  | [] => (none,[])
  | it :: rest =>
    if it.xid = xid then
      if it.xid ≤ xidRep then (some ⟨.FORGOTTEN,none⟩,rest)
      else if it.cbPresent then (some ⟨.DONE,some (it.buf,it.sz)⟩,it :: rest)
      else (some ⟨.INPROGRESS,none⟩,it :: rest)
    else if it.xid ≤ xidRep then scan xid xidRep rest
    else ((scan xid xidRep rest).1,it :: (scan xid xidRep rest).2)

def check (xid xidRep : UInt32) (replies : List ReplyT) : Answer × List ReplyT :=
  match scan xid xidRep replies with
  | (some answer,kept) => (answer,kept)
  | (none,kept) => (⟨.NEW,none⟩,kept ++ [.fresh xid])

-- The loop of add_reply: the first entry of the xid gets the copied buffer.
def store (xid : UInt32) (b : List UInt8) (sz : Nat) : List ReplyT → List ReplyT
  | [] => []
  | it :: rest =>
    if it.xid = xid then {it with buf:=b.take sz,sz:=sz,cbPresent:=true} :: rest
    else it :: store xid b sz rest

abbrev Windows := UInt32 → Option (List ReplyT)

def Windows.put (windows : Windows) (clt : UInt32) (replies : List ReplyT) : Windows :=
  fun other => if other = clt then some replies else windows other

@[simp] theorem put_self (windows : Windows) (clt : UInt32) (replies : List ReplyT) :
    windows.put clt replies clt = some replies := by simp [Windows.put]

@[simp] theorem put_other {windows : Windows} {clt other : UInt32} {replies : List ReplyT}
    (different : other ≠ clt) : windows.put clt replies other = windows other := by
  simp [Windows.put,different]

-- The block of dispatch before the check: an unknown client gets an empty list.
def createWindow (windows : Windows) (clt : UInt32) : Windows :=
  match windows clt with
  | none => windows.put clt []
  | some _ => windows

-- The source dereferences reply_window_.find(clt_nonce) without comparing it to
-- end(), so there is no result for a client whose list was not created.
def checkduplicateAndUpdate (windows : Windows) (clt xid xidRep : UInt32) : Option (Answer × Windows) :=
  match windows clt with
  | none => none
  | some replies => some ((check xid xidRep replies).1,windows.put clt (check xid xidRep replies).2)

-- operator[] creates the list of a client that has none.
def addReply (windows : Windows) (clt xid : UInt32) (b : List UInt8) (sz : Nat) : Windows :=
  windows.put clt (store xid b sz ((windows clt).getD []))

-- The three critical sections of reply_window_m_ that dispatch goes through.
inductive Operation where
  | create (clt : UInt32)
  | check (clt xid xidRep : UInt32)
  | add (clt xid : UInt32) (b : List UInt8) (sz : Nat)
  deriving DecidableEq, Repr

def step (windows : Windows) : Operation → Option Windows
  | .create clt => some (createWindow windows clt)
  | .check clt xid xidRep => (checkduplicateAndUpdate windows clt xid xidRep).map Prod.snd
  | .add clt xid b sz => some (addReply windows clt xid b sz)

def initial : Windows := fun _ => none

def find (xid : UInt32) (replies : List ReplyT) : Option ReplyT := replies.find? (fun it => it.xid = xid)

theorem find_append (xid : UInt32) (left right : List ReplyT) :
    find xid (left ++ right) = (find xid left).or (find xid right) := by
  simp [find,List.find?_append]

theorem scan_answer (xid xidRep : UInt32) (replies : List ReplyT) :
    (scan xid xidRep replies).1 = (find xid replies).map (fun it =>
      if xid ≤ xidRep then ⟨.FORGOTTEN,none⟩
      else if it.cbPresent then ⟨.DONE,some (it.buf,it.sz)⟩ else ⟨.INPROGRESS,none⟩) := by
  induction replies with
  | nil => rfl
  | cons it rest ih =>
    by_cases same : it.xid = xid
    · subst same
      simp only [scan,find,List.find?_cons,if_true,decide_true,Option.map_some]
      split
      · rfl
      · split <;> rfl
    · simp only [scan,same,if_false,find,List.find?_cons,decide_false]
      split
      · simpa [find] using ih
      · simpa [find] using ih

theorem check_answer (xid xidRep : UInt32) (replies : List ReplyT) :
    (check xid xidRep replies).1 = ((find xid replies).map (fun it =>
      if xid ≤ xidRep then ⟨.FORGOTTEN,none⟩
      else if it.cbPresent then ⟨.DONE,some (it.buf,it.sz)⟩ else ⟨.INPROGRESS,none⟩)).getD ⟨.NEW,none⟩ := by
  rw [← scan_answer]
  unfold check
  split
  · rename_i result; rw [result]; rfl
  · rename_i result; rw [result]; rfl

theorem scan_sublist (xid xidRep : UInt32) (replies : List ReplyT) :
    (scan xid xidRep replies).2.Sublist replies := by
  induction replies with
  | nil => exact .slnil
  | cons it rest ih =>
    simp only [scan]
    split
    · split
      · exact List.sublist_cons_self _ _
      · split <;> exact List.Sublist.refl _
    · split
      · exact ih.cons _
      · exact ih.cons_cons _

theorem scan_prunes (reached : (scan xid xidRep replies).1 = none) :
    ∀ it ∈ (scan xid xidRep replies).2, ¬ it.xid ≤ xidRep ∧ it.xid ≠ xid := by
  induction replies with
  | nil => simp [scan]
  | cons head rest ih =>
    simp only [scan] at reached ⊢
    split at reached
    · split at reached
      · cases reached
      · split at reached <;> cases reached
    · rename_i different
      split at reached
      · rename_i small
        simpa only [different,small,if_true,if_false] using ih reached
      · rename_i large
        simp only [different,large,if_false]
        intro it member
        rcases List.mem_cons.mp member with rfl | inner
        · exact ⟨large,different⟩
        · exact ih reached it inner

theorem scan_find (unacknowledged : ¬ xid ≤ xidRep) :
    find xid (scan checked xidRep replies).2 = find xid replies := by
  induction replies with
  | nil => rfl
  | cons it rest ih =>
    have erased : it.xid ≤ xidRep → find xid (it :: rest) = find xid rest := by
      intro small
      have different : it.xid ≠ xid := fun same => unacknowledged (same ▸ small)
      simp [find,different]
    simp only [scan]
    split
    · split
      · rename_i small; exact (erased small).symm
      · split <;> rfl
    · split
      · rename_i small; rw [erased small]; exact ih
      · simp only [find,List.find?_cons] at ih ⊢
        rw [ih]

theorem check_find {entry : ReplyT} (unacknowledged : ¬ xid ≤ xidRep) (found : find xid replies = some entry) :
    find xid (check checked xidRep replies).2 = some entry := by
  have kept : find xid (scan checked xidRep replies).2 = some entry := (scan_find unacknowledged).trans found
  unfold check
  split
  · rename_i result; simpa [result] using kept
  · rename_i result
    rw [result] at kept
    simp [find_append,kept]

theorem store_find_self (found : find xid replies = some entry) :
    find xid (store xid b sz replies) = some {entry with buf:=b.take sz,sz:=sz,cbPresent:=true} := by
  induction replies with
  | nil => simp [find] at found
  | cons it rest ih =>
    by_cases same : it.xid = xid
    · simp_all [find,store]
    · have inner : find xid rest = some entry := by simpa [find,same] using found
      simpa [find,store,same] using ih inner

theorem store_find_other (different : other ≠ xid) :
    find xid (store other b sz replies) = find xid replies := by
  induction replies with
  | nil => rfl
  | cons it rest ih =>
    by_cases same : it.xid = other
    · simp [find,store,same,different]
    · simp only [find,store,same,if_false,List.find?_cons] at ih ⊢
      rw [ih]

theorem store_xids (xid : UInt32) (b : List UInt8) (sz : Nat) (replies : List ReplyT) :
    (store xid b sz replies).map ReplyT.xid = replies.map ReplyT.xid := by
  induction replies with
  | nil => rfl
  | cons it rest ih =>
    by_cases same : it.xid = xid <;> simp [store,same,ih]

def Distinct (windows : Windows) : Prop :=
  ∀ clt replies, windows clt = some replies → (replies.map ReplyT.xid).Nodup

theorem check_distinct (distinct : (replies.map ReplyT.xid).Nodup) :
    ((check xid xidRep replies).2.map ReplyT.xid).Nodup := by
  have kept := distinct.sublist ((scan_sublist xid xidRep replies).map ReplyT.xid)
  unfold check
  split
  · rename_i result; rw [result] at kept; exact kept
  · rename_i result
    have reached : (scan xid xidRep replies).1 = none := by rw [result]
    have pruned := scan_prunes reached
    rw [result] at kept pruned
    simp only [List.map_append,List.map_cons,List.map_nil,ReplyT.fresh]
    refine List.nodup_append.mpr ⟨kept,List.nodup_singleton _,?_⟩
    intro a member b single
    obtain ⟨it,inside,rfl⟩ := List.mem_map.mp member
    rw [List.mem_singleton.mp single]
    exact (pruned it inside).2

theorem put_distinct (distinct : Distinct windows) (fresh : (replies.map ReplyT.xid).Nodup) :
    Distinct (windows.put clt replies) := by
  intro other found held
  by_cases same : other = clt
  · subst same
    rw [put_self] at held
    exact Option.some.inj held ▸ fresh
  · rw [put_other same] at held
    exact distinct other found held

theorem step_distinct (distinct : Distinct windows) (taken : step windows operation = some next) :
    Distinct next := by
  cases operation with
  | create clt =>
    cases Option.some.inj taken
    unfold createWindow
    split
    · exact put_distinct distinct List.nodup_nil
    · exact distinct
  | check clt xid xidRep =>
    simp only [step,checkduplicateAndUpdate] at taken
    split at taken
    · cases taken
    · rename_i replies held
      cases Option.some.inj taken
      exact put_distinct distinct (check_distinct (distinct clt replies held))
  | add clt xid b sz =>
    cases Option.some.inj taken
    apply put_distinct distinct
    rw [store_xids]
    cases held : windows clt with
    | none => exact List.nodup_nil
    | some replies => exact distinct clt replies held

theorem runs_distinct (path : Machine.Runs step ok initial operations windows) : Distinct windows :=
  path.invariant (by simp [Distinct,initial]) (fun _ _ _ distinct _ taken => step_distinct distinct taken)

def Stored (holds : UInt32 → UInt32 → List UInt8 → Prop) (windows : Windows) : Prop :=
  ∀ clt replies, windows clt = some replies → ∀ it ∈ replies, it.cbPresent = true → holds clt it.xid it.buf

section Stored
variable {holds : UInt32 → UInt32 → List UInt8 → Prop}

theorem put_stored (stored : Stored holds windows)
    (fresh : ∀ it ∈ replies, it.cbPresent = true → holds clt it.xid it.buf) :
    Stored holds (windows.put clt replies) := by
  intro other found held
  by_cases same : other = clt
  · subst same
    rw [put_self] at held
    exact Option.some.inj held ▸ fresh
  · rw [put_other same] at held
    exact stored other found held

theorem create_stored (stored : Stored holds windows) : Stored holds (createWindow windows clt) := by
  unfold createWindow
  split
  · exact put_stored stored (fun it member => by cases member)
  · exact stored

theorem check_stored (stored : Stored holds windows)
    (answered : checkduplicateAndUpdate windows clt xid xidRep = some (answer,after)) : Stored holds after := by
  unfold checkduplicateAndUpdate at answered
  split at answered
  · cases answered
  · rename_i replies held
    obtain ⟨_,rfl⟩ := Prod.mk.inj (Option.some.inj answered)
    refine put_stored stored (fun it member present => stored clt replies held it ?_ present)
    unfold check at member
    have kept := scan_sublist xid xidRep replies
    split at member
    · rename_i result; rw [result] at kept; exact kept.mem member
    · rename_i result
      rw [result] at kept
      rcases List.mem_append.mp member with old | new
      · exact kept.mem old
      · rw [List.mem_singleton.mp new] at present; cases present

theorem done_stored (stored : Stored holds windows)
    (answered : checkduplicateAndUpdate windows clt xid xidRep = some (answer,after)) (done : answer.stat = .DONE) :
    holds clt xid (answer.out.getD ([],0)).1 := by
  unfold checkduplicateAndUpdate at answered
  split at answered
  · cases answered
  · rename_i replies held
    obtain ⟨rfl,_⟩ := Prod.mk.inj (Option.some.inj answered)
    rw [check_answer] at done ⊢
    cases entry : find xid replies with
    | none => rw [entry] at done; cases done
    | some it =>
      have member := List.mem_of_find?_eq_some entry
      have key : it.xid = xid := by simpa using List.find?_some entry
      rw [entry,Option.map_some,Option.getD_some] at done
      split at done
      · cases done
      · split at done
        · rename_i above present
          simpa [above,present,key] using stored clt replies held it member present
        · cases done

theorem store_mem (member : it ∈ store xid b sz replies) :
    it ∈ replies ∨ (it.xid = xid ∧ it.buf = b.take sz) := by
  induction replies with
  | nil => cases member
  | cons head rest ih =>
    simp only [store] at member
    split at member
    · rename_i same
      rcases List.mem_cons.mp member with rfl | inner
      · exact .inr ⟨same,rfl⟩
      · exact .inl (List.mem_cons_of_mem _ inner)
    · rcases List.mem_cons.mp member with rfl | inner
      · exact .inl List.mem_cons_self
      · exact (ih inner).imp_left (List.mem_cons_of_mem _)

theorem add_stored (stored : Stored holds windows) (fresh : holds clt xid (b.take sz)) :
    Stored holds (addReply windows clt xid b sz) := by
  refine put_stored stored (fun it member present => ?_)
  rcases store_mem member with old | ⟨same,bytes⟩
  · cases held : windows clt with
    | none => simp [held] at old
    | some replies => exact stored clt replies held it (by simpa [held] using old) present
  · rw [same,bytes]; exact fresh

end Stored

def lastAdded (clt xid : UInt32) : Option (List UInt8 × Nat) → Operation → Option (List UInt8 × Nat)
  | earlier,.add clt' xid' b sz => if clt' = clt ∧ xid' = xid then some (b.take sz,sz) else earlier
  | earlier,_ => earlier

def lastReply (clt xid : UInt32) (operations : List Operation) : Option (List UInt8 × Nat) :=
  operations.foldl (lastAdded clt xid) none

theorem lastReply_snoc (clt xid : UInt32) (operations : List Operation) (operation : Operation) :
    lastReply clt xid (operations ++ [operation]) = lastAdded clt xid (lastReply clt xid operations) operation := by
  simp [lastReply]

def Acknowledges (clt xid : UInt32) : Operation → Prop
  | .check clt' _ xidRep => clt' = clt ∧ xid ≤ xidRep
  | _ => False

-- What the server remembers of one request: nothing stored yet, or a reply.
def ReplyT.remembered (entry : ReplyT) : Option (List UInt8 × Nat) :=
  if entry.cbPresent then some (entry.buf,entry.sz) else none

def Remembers (windows : Windows) (clt xid : UInt32) (reply : Option (List UInt8 × Nat)) : Prop :=
  ∃ replies entry, windows clt = some replies ∧ find xid replies = some entry ∧ entry.remembered = reply

def remembering : Option (List UInt8 × Nat) → Answer
  | none => ⟨.INPROGRESS,none⟩
  | some reply => ⟨.DONE,some reply⟩

theorem step_remembers (remembers : Remembers windows clt xid reply)
    (unacknowledged : ¬ Acknowledges clt xid operation) (taken : step windows operation = some next) :
    Remembers next clt xid (lastAdded clt xid reply operation) := by
  obtain ⟨replies,entry,held,found,stored⟩ := remembers
  cases operation with
  | create clt' =>
    cases Option.some.inj taken
    refine ⟨replies,entry,?_,found,stored⟩
    unfold createWindow
    cases known : windows clt' with
    | none =>
      have different : clt ≠ clt' := by rintro rfl; simp [held] at known
      exact (put_other different).trans held
    | some _ => exact held
  | check clt' xid' xidRep =>
    simp only [step,checkduplicateAndUpdate] at taken
    split at taken
    · cases taken
    · rename_i others heldOther
      cases Option.some.inj taken
      by_cases same : clt = clt'
      · subst same
        cases Option.some.inj (held.symm.trans heldOther)
        have above : ¬ xid ≤ xidRep := fun small => unacknowledged ⟨rfl,small⟩
        exact ⟨_,entry,put_self _ _ _,check_find above found,stored⟩
      · exact ⟨replies,entry,(put_other same).trans held,found,stored⟩
  | add clt' xid' b sz =>
    cases Option.some.inj taken
    by_cases same : clt = clt'
    · subst same
      by_cases target : xid' = xid
      · subst target
        refine ⟨_,{entry with buf:=b.take sz,sz:=sz,cbPresent:=true},put_self _ _ _,?_,?_⟩
        · rw [held]; exact store_find_self found
        · simp [lastAdded,ReplyT.remembered]
      · refine ⟨_,entry,put_self _ _ _,?_,?_⟩
        · rw [held]; exact (store_find_other target).trans found
        · simpa [lastAdded,target] using stored
    · refine ⟨replies,entry,(put_other same).trans held,found,?_⟩
      have elsewhere : ¬ (clt' = clt ∧ xid' = xid) := fun both => same both.1.symm
      simpa only [lastAdded,elsewhere,if_false] using stored

theorem runs_remembers (start : Remembers opened clt xid none)
    (path : Machine.Runs step (fun _ operation => ¬ Acknowledges clt xid operation) opened operations now) :
    Remembers now clt xid (lastReply clt xid operations) := by
  induction path with
  | nil => exact start
  | snoc _ allowed taken ih =>
    rw [lastReply_snoc]
    exact step_remembers ih allowed taken

theorem new_remembers (answered : checkduplicateAndUpdate windows clt xid xidRep = some (⟨.NEW,out⟩,opened)) :
    Remembers opened clt xid none := by
  unfold checkduplicateAndUpdate at answered
  split at answered
  · cases answered
  · rename_i replies held
    obtain ⟨answer,rfl⟩ := Prod.mk.inj (Option.some.inj answered)
    refine ⟨_,.fresh xid,put_self _ _ _,?_,rfl⟩
    rw [check_answer] at answer
    have passed := scan_answer xid xidRep replies
    cases entry : find xid replies with
    | some it =>
      rw [entry,Option.map_some,Option.getD_some] at answer
      split at answer
      · cases answer
      · split at answer <;> cases answer
    | none =>
      rw [entry] at passed
      have pruned := scan_prunes passed
      have absent : find xid (scan xid xidRep replies).2 = none := by
        simp only [find,List.find?_eq_none,decide_eq_true_eq]
        exact fun it member => (pruned it member).2
      have grown : (check xid xidRep replies).2 = (scan xid xidRep replies).2 ++ [.fresh xid] := by
        unfold check
        split
        · rename_i result; rw [result] at passed; cases passed
        · rename_i result; rw [result]
      rw [grown,find_append,absent]
      simp [find,ReplyT.fresh]

theorem remembers_answer (remembers : Remembers windows clt xid reply) (unacknowledged : ¬ xid ≤ xidRep) :
    (checkduplicateAndUpdate windows clt xid xidRep).map Prod.fst = some (remembering reply) := by
  obtain ⟨replies,entry,held,found,rfl⟩ := remembers
  simp only [checkduplicateAndUpdate,held,Option.map_some,Option.some.injEq]
  rw [check_answer,found,Option.map_some,Option.getD_some,if_neg unacknowledged]
  unfold ReplyT.remembered
  split <;> rfl

theorem forgotten_acknowledged
    (answered : checkduplicateAndUpdate windows clt xid xidRep = some (answer,after))
    (forgotten : answer.stat = .FORGOTTEN) : xid ≤ xidRep := by
  unfold checkduplicateAndUpdate at answered
  split at answered
  · cases answered
  · rename_i replies held
    obtain ⟨rfl,_⟩ := Prod.mk.inj (Option.some.inj answered)
    rw [check_answer] at forgotten
    cases entry : find xid replies with
    | none => rw [entry] at forgotten; cases forgotten
    | some it =>
      rw [entry,Option.map_some,Option.getD_some] at forgotten
      split at forgotten
      · rename_i below; exact below
      · split at forgotten <;> cases forgotten

theorem unacknowledged_replies_remembered :
    (∀ operations between (windows opened now : Windows) clt xid firstRep xidRep out,
      Machine.Runs step Machine.free initial operations windows →
      checkduplicateAndUpdate windows clt xid firstRep = some (⟨.NEW,out⟩,opened) →
      Machine.Runs step (fun _ operation => ¬ Acknowledges clt xid operation) opened between now →
      xidRep < xid →
      (checkduplicateAndUpdate now clt xid xidRep).map Prod.fst =
        some (remembering (lastReply clt xid between))) ∧
    ∀ operations windows, Machine.Runs step Machine.free initial operations windows → Distinct windows := by
  refine ⟨?_,fun _ _ path => runs_distinct path⟩
  intro operations between windows opened now clt xid firstRep xidRep out _ answered path below
  have remembers := runs_remembers (new_remembers answered) path
  exact remembers_answer remembers (by simpa using below)

-- Client 7 has request 3 answered while request 4 acknowledges 2, client 8
-- acknowledges its own 3 and a second reply replaces the first.
theorem remembered_between_clients :
    (Machine.exec step initial [.create 7,.create 8,.check 7 3 0,.add 7 3 [9] 1,.check 7 4 2,
        .check 8 3 3,.add 7 3 [1,2,5] 2]).bind
      (fun now => (checkduplicateAndUpdate now 7 3 2).map Prod.fst) = some ⟨.DONE,some ([1,2],2)⟩ ∧
    ∃ windows, Machine.exec step initial [.create 7,.create 8] = some windows ∧ Distinct windows :=
  ⟨unacknowledged_replies_remembered.1 [.create 7,.create 8]
      [.add 7 3 [9] 1,.check 7 4 2,.check 8 3 3,.add 7 3 [1,2,5] 2] _ _ _ 7 3 0 2 none
      (Machine.exec_free rfl) rfl
      (Machine.exec_runs rfl (by simp [Acknowledges])) (by decide),
    ⟨_,rfl,unacknowledged_replies_remembered.2 [.create 7,.create 8] _ (Machine.exec_free rfl)⟩⟩

-- An entry that the request acknowledges behind the entry of the request
-- itself: the loop returns before it gets there.
def StaleBehind (xid xidRep : UInt32) (replies : List ReplyT) : Prop :=
  ∃ it stale, [it,stale].Sublist replies ∧ it.xid = xid ∧ stale.xid ≤ xidRep

theorem staleBehind_cons : StaleBehind xid xidRep (head :: rest) ↔
    (head.xid = xid ∧ ∃ stale ∈ rest, stale.xid ≤ xidRep) ∨ StaleBehind xid xidRep rest := by
  constructor
  · intro stale
    obtain ⟨it,old,order,same,small⟩ := stale
    rcases List.sublist_cons_iff.mp order with inner | ⟨tail,equal,inner⟩
    · exact .inr ⟨it,old,inner,same,small⟩
    · cases equal
      exact .inl ⟨same,old,List.singleton_sublist.mp inner,small⟩
  · intro either
    rcases either with ⟨same,old,member,small⟩ | ⟨it,old,order,same,small⟩
    · exact ⟨head,old,(List.singleton_sublist.mpr member).cons_cons head,same,small⟩
    · exact ⟨it,old,order.cons head,same,small⟩

theorem scan_clean_iff (later : ¬ xid ≤ xidRep) :
    (∀ it ∈ (scan xid xidRep replies).2, ¬ it.xid ≤ xidRep) ↔ ¬ StaleBehind xid xidRep replies := by
  induction replies with
  | nil =>
    refine iff_of_true (by simp [scan]) (fun stale => ?_)
    obtain ⟨_,_,order,_⟩ := stale
    cases order
  | cons head rest ih =>
    rw [staleBehind_cons]
    by_cases same : head.xid = xid
    · -- The loop returns here and keeps all that is behind.
      have large : ¬ head.xid ≤ xidRep := same ▸ later
      have stays : (scan xid xidRep (head :: rest)).2 = head :: rest := by
        simp only [scan,same,later,if_true,if_false]
        split <;> rfl
      have inner : StaleBehind xid xidRep rest → ∃ stale ∈ rest, stale.xid ≤ xidRep := by
        intro stale
        obtain ⟨it,old,order,_,small⟩ := stale
        exact ⟨old,order.subset (by simp),small⟩
      rw [stays,List.forall_mem_cons]
      constructor
      · intro clean either
        have found : ∃ stale ∈ rest, stale.xid ≤ xidRep := either.elim And.right inner
        obtain ⟨old,member,small⟩ := found
        exact clean.2 old member small
      · intro none
        exact ⟨large,fun old member small => none (.inl ⟨same,old,member,small⟩)⟩
    · simp only [scan,same,if_false,false_and,false_or]
      split
      · exact ih
      · rename_i large
        rw [List.forall_mem_cons,ih]
        exact and_iff_right large

theorem scan_keeps (later : ¬ xid ≤ xidRep) (large : ¬ it.xid ≤ xidRep) (member : it ∈ replies) :
    it ∈ (scan xid xidRep replies).2 := by
  induction replies with
  | nil => cases member
  | cons head rest ih =>
    simp only [scan]
    split
    · rename_i same
      rw [if_neg (same ▸ later)]
      split <;> exact member
    · split
      · rename_i small
        rcases List.mem_cons.mp member with rfl | inner
        · exact absurd small large
        · exact ih inner
      · rcases List.mem_cons.mp member with rfl | inner
        · exact List.mem_cons_self
        · exact List.mem_cons_of_mem _ (ih inner)

theorem check_entries (xid xidRep : UInt32) (replies : List ReplyT) :
    (check xid xidRep replies).2 = (scan xid xidRep replies).2 ∨
      (check xid xidRep replies).2 = (scan xid xidRep replies).2 ++ [.fresh xid] := by
  unfold check
  split
  · rename_i result; exact .inl (by rw [result])
  · rename_i result; exact .inr (by rw [result])

theorem check_clean_iff (later : ¬ xid ≤ xidRep) :
    (∀ it ∈ (check xid xidRep replies).2, ¬ it.xid ≤ xidRep) ↔ ¬ StaleBehind xid xidRep replies := by
  rw [← scan_clean_iff later]
  rcases check_entries xid xidRep replies with same | grown
  · rw [same]
  · rw [grown,List.forall_mem_append]
    exact and_iff_left (by simpa [ReplyT.fresh] using later)

theorem check_keeps (later : ¬ xid ≤ xidRep) (large : ¬ it.xid ≤ xidRep) (member : it ∈ replies) :
    it ∈ (check xid xidRep replies).2 := by
  have kept := scan_keeps later large member
  rcases check_entries xid xidRep replies with same | grown
  · exact same ▸ kept
  · exact grown ▸ List.mem_append_left _ kept

theorem acknowledged_dropped_iff :
    ∀ operations (windows : Windows) clt replies xid xidRep,
      Machine.Runs step Machine.free initial operations windows → windows clt = some replies → xidRep < xid →
      ((∃ answer after kept, checkduplicateAndUpdate windows clt xid xidRep = some (answer,after) ∧
          after clt = some kept ∧ (∀ it ∈ kept, ¬ it.xid ≤ xidRep) ∧
          ∀ it ∈ replies, xidRep < it.xid → it ∈ kept) ↔
        ¬ StaleBehind xid xidRep replies) := by
  intro operations windows clt replies xid xidRep _ held below
  have later : ¬ xid ≤ xidRep := by simpa using below
  have answered : checkduplicateAndUpdate windows clt xid xidRep =
      some ((check xid xidRep replies).1,windows.put clt (check xid xidRep replies).2) := by
    simp [checkduplicateAndUpdate,held]
  rw [← check_clean_iff later]
  constructor
  · intro dropped
    obtain ⟨answer,after,kept,result,there,clean,_⟩ := dropped
    obtain ⟨_,rfl⟩ := Prod.mk.inj (Option.some.inj (answered.symm.trans result))
    rw [put_self] at there
    exact Option.some.inj there ▸ clean
  · intro clean
    refine ⟨_,_,_,answered,put_self _ _ _,clean,?_⟩
    intro it member large
    exact check_keeps later (by simpa using large) member

-- Request 2 is answered and 5 acknowledges it. A second copy of 2 then comes
-- in behind 5, and the retransmission of 5 stops at its own entry.
theorem acknowledged_reply_stays :
    ∃ (windows after : Windows) (answer : Answer) (replies kept : List ReplyT),
      Machine.Runs step Machine.free initial
        [.create 7,.check 7 2 0,.add 7 2 [9] 1,.check 7 5 3,.check 7 2 0] windows ∧
      windows 7 = some replies ∧ (3 : UInt32) < 5 ∧
      checkduplicateAndUpdate windows 7 5 3 = some (answer,after) ∧ after 7 = some kept ∧
      ¬ ∀ it ∈ kept, ¬ it.xid ≤ 3 :=
  ⟨_,_,_,_,_,Machine.exec_free rfl,rfl,by decide,rfl,rfl,by decide⟩

theorem acknowledged_dropped_in_order :
    (∃ windows replies, Machine.exec step initial [.create 7,.check 7 2 0,.add 7 2 [9] 1] = some windows ∧
      windows 7 = some replies ∧
      ∃ answer after kept, checkduplicateAndUpdate windows 7 5 3 = some (answer,after) ∧
        after 7 = some kept ∧ (∀ it ∈ kept, ¬ it.xid ≤ 3) ∧ ∀ it ∈ replies, 3 < it.xid → it ∈ kept) := by
  refine ⟨_,_,rfl,rfl,(acknowledged_dropped_iff [.create 7,.check 7 2 0,.add 7 2 [9] 1] _ 7 _ 5 3
    (Machine.exec_free rfl) rfl (by decide)).mpr ?_⟩
  rintro ⟨_,_,order,_⟩
  -- The window holds one entry.
  have both : 2 ≤ 1 := order.length_le
  omega

end YfsLab.ReplyWindow
