import YfsLab.Lib.OrderedMap
import Mathlib.Order.Compare
import Mathlib.Data.List.Nodup

namespace YfsLab.Accept

-- The part of a connection that tcpsconn looks at.
structure Connection where
  dead : Bool
  refno : Int
  deriving DecidableEq, Repr

-- What connection::decref leaves: `none` is a connection that deletes itself.
-- The assertion on refno_ holds wherever process_accept calls it.
def decref (c : Connection) : Option Connection :=
  if c.refno-1 = 0 ∧ c.dead = true then none else some {c with refno:=c.refno-1}

abbrev Conns := OrderedMap (compare : Int → Int → Ordering) Connection

-- isdead() && ref() == 1.
def collectable (c : Connection) : Bool := c.dead && c.refno == 1

-- The variables of process_accept. The iterator i is known by the fd it stands
-- on, `none` being end(); `decrefs` is a history of what each decref left.
structure Loop where
  conns : Conns
  i : Option Int
  decrefs : List (Int × Option Connection)

-- i++. The iterator of an erased element can no longer be used: there is no
-- result.
def increment (conns : Conns) (fd : Int) : Option (Option Int) := (conns.find fd).map fun _ => conns.next fd

def turn (l : Loop) (fd : Int) : Option Loop :=
  match l.conns.find fd with
  | none => none
  | some c =>
    let l := if collectable c then {l with conns:=l.conns.erase fd,decrefs:=l.decrefs ++ [(fd,decref c)]} else l
    (increment l.conns fd).map fun i => {l with i:=i}

def collect : Nat → Loop → Option Loop
  | 0,l => some l
  | n+1,l =>
    match l.i with
    | none => some l
    | some fd => (turn l fd).bind (collect n)

-- process_accept after accept() has returned the fd of the connection ch. No
-- run has more turns than there are connections.
def processAccept (conns : Conns) (channo : Int) (ch : Connection) : Option Loop :=
  (collect (conns.entries.length+1) ⟨conns,conns.first,[]⟩).map fun l => {l with conns:=l.conns.assign channo ch}

section Turns
variable {l : Loop} {before rest : List (Int × Connection)} {fd : Int} {c : Connection}

theorem turn_kept (split : l.conns.entries = before ++ (fd,c) :: rest) (kept : collectable c = false) :
    turn l fd = some {l with i:=rest.head?.map Prod.fst} := by
  have here := OrderedMap.find_split split
  simp only [turn,here,kept,Bool.false_eq_true,if_false,increment,Option.map_some,OrderedMap.next_split split]

theorem turn_erased (split : l.conns.entries = before ++ (fd,c) :: rest) (gone : collectable c = true) : turn l fd = none := by
  have here := OrderedMap.find_split split
  simp only [turn,here,gone,if_true,increment,OrderedMap.find_erase,Option.map_none]

theorem collect_kept (n : Nat) (split : l.conns.entries = before ++ rest) (i : l.i = rest.head?.map Prod.fst)
    (enough : rest.length < n) (kept : ∀ entry ∈ rest, collectable entry.2 = false) : collect n l = some {l with i:=none} := by
  induction rest generalizing n l before with
  | nil =>
    obtain ⟨m,rfl⟩ : ∃ m, n = m+1 := ⟨n-1,by omega⟩
    have ended : l.i = none := i
    have same : {l with i:=none} = l := by cases l; cases ended; rfl
    rw [same]
    simp only [collect,ended]
  | cons entry rest ih =>
    obtain ⟨m,rfl⟩ : ∃ m, n = m+1 := ⟨n-1,by omega⟩
    have standing : l.i = some entry.1 := i
    simp only [collect,standing,turn_kept split (kept entry List.mem_cons_self),Option.bind_some]
    have moved : l.conns.entries = (before ++ [entry]) ++ rest := by simpa using split
    refine ih m moved rfl (by simpa using enough) ?_
    exact fun later inside => kept later (List.mem_cons_of_mem _ inside)

theorem collect_erased (n : Nat) (split : l.conns.entries = before ++ rest) (i : l.i = rest.head?.map Prod.fst)
    (enough : rest.length < n) (gone : ∃ entry ∈ rest, collectable entry.2 = true) : collect n l = none := by
  induction rest generalizing n l before with
  | nil => simp at gone
  | cons entry rest ih =>
    obtain ⟨m,rfl⟩ : ∃ m, n = m+1 := ⟨n-1,by omega⟩
    have standing : l.i = some entry.1 := i
    cases dead : collectable entry.2 with
    | true => simp only [collect,standing,turn_erased split dead,Option.bind_none]
    | false =>
      simp only [collect,standing,turn_kept split dead,Option.bind_some]
      have moved : l.conns.entries = (before ++ [entry]) ++ rest := by simpa using split
      refine ih m moved rfl (by simpa using enough) ?_
      obtain ⟨found,inside,old⟩ := gone
      rcases List.mem_cons.mp inside with rfl | later
      · rw [dead] at old; cases old
      · exact ⟨found,later,old⟩

end Turns

-- What the loop is for: the connections that only the map still holds.
def collected (conns : Conns) : List (Int × Connection) := conns.entries.filter fun entry => collectable entry.2
def kept (conns : Conns) : List (Int × Connection) := conns.entries.filter fun entry => !collectable entry.2

theorem accept_collects_iff (conns : Conns) (channo : Int) (ch : Connection) :
    (∃ l, processAccept conns channo ch = some l ∧ l.i = none ∧
      l.conns.entries = OrderedMap.insert compare channo ch (kept conns) ∧
      l.decrefs = (collected conns).map fun entry => (entry.1,decref entry.2)) ↔
    ∀ entry ∈ conns.entries, ¬ (entry.2.dead = true ∧ entry.2.refno = 1) := by
  have dead : ∀ entry : Int × Connection, collectable entry.2 = true ↔ entry.2.dead = true ∧ entry.2.refno = 1 := by
    intro entry
    simp [collectable]
  have starts : (⟨conns,conns.first,[]⟩ : Loop).conns.entries = [] ++ conns.entries := rfl
  constructor
  · intro ends entry inside gone
    obtain ⟨l,result,_⟩ := ends
    have stuck := collect_erased (conns.entries.length+1) starts rfl (Nat.lt_succ_self _) ⟨entry,inside,(dead entry).mpr gone⟩
    simp only [processAccept,stuck,Option.map_none] at result
    cases result
  · intro alive
    have none_ : ∀ entry ∈ conns.entries, collectable entry.2 = false :=
      fun entry inside => by simpa using mt (dead entry).mp (alive entry inside)
    have ended := collect_kept (conns.entries.length+1) starts rfl (Nat.lt_succ_self _) none_
    refine ⟨⟨conns.assign channo ch,none,[]⟩,by simp only [processAccept,ended,Option.map_some],rfl,?_,?_⟩
    · have all : kept conns = conns.entries := List.filter_eq_self.mpr fun entry inside => by simp [none_ entry inside]
      rw [all]
      rfl
    · have nothing : collected conns = [] := List.filter_eq_nil_iff.mpr fun entry inside => by simp [none_ entry inside]
      rw [nothing]
      rfl

def oneDead : Conns := ⟨[(4,⟨false,2⟩),(5,⟨true,1⟩)],by decide⟩

theorem erased_iterator_advanced :
    processAccept oneDead 7 ⟨false,1⟩ = none ∧
      ¬ ∃ l, processAccept oneDead 7 ⟨false,1⟩ = some l ∧ l.i = none ∧
        l.conns.entries = OrderedMap.insert compare 7 ⟨false,1⟩ (kept oneDead) ∧
        l.decrefs = (collected oneDead).map fun entry => (entry.1,decref entry.2) := by
  have stuck : processAccept oneDead 7 ⟨false,1⟩ = none := by
    have whole : (⟨oneDead,oneDead.first,[]⟩ : Loop).conns.entries = [] ++ oneDead.entries := rfl
    have gone := collect_erased 3 whole rfl (by decide) ⟨_,List.mem_cons_of_mem _ List.mem_cons_self,rfl⟩
    simp only [processAccept,show oneDead.entries.length = 2 from rfl,gone,Option.map_none]
  refine ⟨stuck,fun ends => ?_⟩
  obtain ⟨l,result,_⟩ := ends
  rw [stuck] at result
  cases result

theorem referenced_kept :
    ∃ l, processAccept ⟨[(4,⟨false,1⟩),(5,⟨true,2⟩)],by decide⟩ 3 ⟨false,1⟩ = some l ∧
      l.conns.entries = [(3,⟨false,1⟩),(4,⟨false,1⟩),(5,⟨true,2⟩)] ∧ l.decrefs = [] := by
  obtain ⟨l,result,_,entries,decrefs⟩ :=
    (accept_collects_iff ⟨[(4,⟨false,1⟩),(5,⟨true,2⟩)],by decide⟩ 3 ⟨false,1⟩).mpr (by decide)
  exact ⟨l,result,entries,decrefs⟩

end YfsLab.Accept
