import Mathlib.Data.List.Basic

-- Finite maps as their entries in the order of the keys; a list that is not in
-- order is no map.
@[ext] structure OrderedMap {K : Type*} (cmp : K → K → Ordering) (V : Type*) where
  entries : List (K × V)
  sorted : entries.Pairwise fun one two => cmp one.1 two.1 = .lt

namespace OrderedMap
variable {K V : Type*} {cmp : K → K → Ordering}

theorem trans_comap {T : Type*} (trans : Std.TransCmp cmp) (f : T → K) :
    Std.TransCmp fun one two => cmp (f one) (f two) where
  eq_swap := trans.eq_swap
  isLE_trans := trans.isLE_trans

def empty : OrderedMap cmp V := ⟨[],List.Pairwise.nil⟩

-- Past the smaller keys, then before a greater one or in place of an equal one.
def insert (cmp : K → K → Ordering) (key : K) (value : V) : List (K × V) → List (K × V)
  | [] => [(key,value)]
  | entry :: rest =>
    match cmp entry.1 key with
    | .lt => entry :: insert cmp key value rest
    | .gt => (key,value) :: entry :: rest
    | .eq => (entry.1,value) :: rest

theorem insert_key {key : K} {value : V} {entries : List (K × V)} (member : found ∈ insert cmp key value entries) :
    found.1 = key ∨ ∃ old ∈ entries, old.1 = found.1 := by
  induction entries with
  | nil =>
    rw [insert,List.mem_singleton] at member
    exact .inl (by rw [member])
  | cons entry rest ih =>
    rw [insert] at member
    split at member
    · rcases List.mem_cons.mp member with rfl | later
      · exact .inr ⟨_,List.mem_cons_self,rfl⟩
      · rcases ih later with same | ⟨old,inside,same⟩
        · exact .inl same
        · exact .inr ⟨old,List.mem_cons_of_mem _ inside,same⟩
    · rcases List.mem_cons.mp member with rfl | later
      · exact .inl rfl
      · exact .inr ⟨found,later,rfl⟩
    · rcases List.mem_cons.mp member with rfl | later
      · exact .inr ⟨_,List.mem_cons_self,rfl⟩
      · exact .inr ⟨found,List.mem_cons_of_mem _ later,rfl⟩

theorem insert_sorted [Std.TransCmp cmp] (key : K) (value : V) {entries : List (K × V)}
    (sorted : entries.Pairwise fun one two => cmp one.1 two.1 = .lt) :
    (insert cmp key value entries).Pairwise fun one two => cmp one.1 two.1 = .lt := by
  induction entries with
  | nil => simp [insert]
  | cons entry rest ih =>
    obtain ⟨above,sorted⟩ := List.pairwise_cons.mp sorted
    rw [insert]
    split
    · rename_i less
      refine List.pairwise_cons.mpr ⟨fun found member => ?_,ih sorted⟩
      rcases insert_key member with same | ⟨old,inside,same⟩
      · rw [same]; exact less
      · rw [← same]; exact above old inside
    · rename_i greater
      have before : cmp key entry.1 = .lt := Std.OrientedCmp.gt_iff_lt.mp greater
      refine List.pairwise_cons.mpr ⟨fun found member => ?_,List.pairwise_cons.mpr ⟨above,sorted⟩⟩
      rcases List.mem_cons.mp member with rfl | later
      · exact before
      · exact Std.TransCmp.lt_trans before (above found later)
    · exact List.pairwise_cons.mpr ⟨above,sorted⟩

def assign [Std.TransCmp cmp] (d : OrderedMap cmp V) (key : K) (value : V) : OrderedMap cmp V :=
  ⟨insert cmp key value d.entries,insert_sorted key value d.sorted⟩

theorem insert_last {key : K} {value : V} {entries : List (K × V)}
    (below : ∀ entry ∈ entries, cmp entry.1 key = .lt) : insert cmp key value entries = entries ++ [(key,value)] := by
  induction entries with
  | nil => rfl
  | cons entry rest ih =>
    rw [insert,below entry List.mem_cons_self,List.cons_append,ih fun later inside => below later (List.mem_cons_of_mem _ inside)]

-- A key above all others comes last, so entries given in order are kept as they are.
theorem assign_next [Std.TransCmp cmp] (d : OrderedMap cmp V) (key : K) (value : V)
    (sorted : (d.entries ++ (key,value) :: rest).Pairwise fun one two => cmp one.1 two.1 = .lt) :
    (d.assign key value).entries = d.entries ++ [(key,value)] := by
  apply insert_last
  intro entry inside
  exact (List.pairwise_append.mp sorted).2.2 entry inside (key,value) List.mem_cons_self

-- Looking a key up, erasing it, and the keys in their order: what an iterator
-- over the map goes by.
section Keys

def find (d : OrderedMap cmp V) (key : K) : Option V := (d.entries.find? fun entry => cmp entry.1 key = .eq).map Prod.snd

def erase (d : OrderedMap cmp V) (key : K) : OrderedMap cmp V :=
  ⟨d.entries.filter fun entry => cmp entry.1 key ≠ .eq,d.sorted.filter _⟩

def first (d : OrderedMap cmp V) : Option K := d.entries.head?.map Prod.fst

def next (d : OrderedMap cmp V) (key : K) : Option K := (d.entries.find? fun entry => cmp key entry.1 = .lt).map Prod.fst

variable {d : OrderedMap cmp V} {before rest : List (K × V)} {key : K} {value : V}

theorem around (split : d.entries = before ++ (key,value) :: rest) :
    (∀ entry ∈ before, cmp entry.1 key = .lt) ∧ ∀ entry ∈ rest, cmp key entry.1 = .lt := by
  have sorted := d.sorted
  rw [split] at sorted
  obtain ⟨_,after,below⟩ := List.pairwise_append.mp sorted
  exact ⟨fun entry inside => below entry inside _ List.mem_cons_self,(List.pairwise_cons.mp after).1⟩

theorem find_split [Std.ReflCmp cmp] (split : d.entries = before ++ (key,value) :: rest) : d.find key = some value := by
  obtain ⟨below,_⟩ := around split
  have skipped : before.find? (fun entry => cmp entry.1 key = .eq) = none :=
    List.find?_eq_none.mpr fun entry inside => by simp [below entry inside]
  simp [find,split,List.find?_append,skipped,Std.ReflCmp.compare_self]

theorem find_erase (d : OrderedMap cmp V) (key : K) : (d.erase key).find key = none := by
  rw [find,List.find?_eq_none.mpr]
  · rfl
  · intro entry inside
    exact of_decide_eq_true (List.mem_filter.mp inside).2 |> fun other => by simpa using other

theorem next_split [Std.OrientedCmp cmp] (split : d.entries = before ++ (key,value) :: rest) :
    d.next key = rest.head?.map Prod.fst := by
  obtain ⟨below,above⟩ := around split
  have skipped : (before ++ [(key,value)]).find? (fun entry => cmp key entry.1 = .lt) = none := by
    refine List.find?_eq_none.mpr fun entry inside => ?_
    rcases List.mem_append.mp inside with earlier | here
    · have greater : cmp key entry.1 = .gt := Std.OrientedCmp.gt_iff_lt.mpr (below entry earlier)
      simp [greater]
    · rw [List.mem_singleton.mp here]
      simp [Std.ReflCmp.compare_self]
  rw [next,split,List.append_cons,List.find?_append,skipped,Option.none_or]
  cases rest with
  | nil => rfl
  | cons entry rest => simp [above entry List.mem_cons_self]

end Keys

-- What an assignment does to the lookups and to what the values hold.
section Assign
variable {key other : K} {value : V}

theorem insert_split [Std.TransCmp cmp] [Std.LawfulEqCmp cmp] (key : K) {entries : List (K × V)}
    (sorted : entries.Pairwise fun one two => cmp one.1 two.1 = .lt) :
    ∃ before rest, (∀ value, insert cmp key value entries = before ++ (key,value) :: rest) ∧
      ((entries = before ++ rest ∧ ∀ entry ∈ entries, cmp entry.1 key ≠ .eq) ∨
        ∃ old, entries = before ++ (key,old) :: rest) := by
  induction entries with
  | nil => exact ⟨[],[],fun _ => rfl,.inl ⟨rfl,by simp⟩⟩
  | cons entry tail ih =>
    obtain ⟨above,sorted⟩ := List.pairwise_cons.mp sorted
    cases order : cmp entry.1 key with
    | lt =>
      obtain ⟨before,rest,inserted,place⟩ := ih sorted
      refine ⟨entry :: before,rest,fun value => ?_,?_⟩
      · rw [insert,order]
        exact congrArg (entry :: ·) (inserted value)
      · rcases place with ⟨split,absent⟩ | ⟨old,split⟩
        · refine .inl ⟨by rw [split]; rfl,fun found member => ?_⟩
          rcases List.mem_cons.mp member with rfl | later
          · simp [order]
          · exact absent found later
        · exact .inr ⟨old,by rw [split]; rfl⟩
    | gt =>
      refine ⟨[],entry :: tail,fun value => by rw [insert,order]; rfl,.inl ⟨rfl,fun found member => ?_⟩⟩
      rcases List.mem_cons.mp member with rfl | later
      · simp [order]
      · have before : cmp key entry.1 = .lt := Std.OrientedCmp.gt_iff_lt.mp order
        have behind : cmp found.1 key = .gt := Std.OrientedCmp.gt_iff_lt.mpr (Std.TransCmp.lt_trans before (above found later))
        simp [behind]
    | eq =>
      have same : entry.1 = key := Std.LawfulEqCmp.eq_of_compare order
      exact ⟨[],tail,fun value => by rw [insert,order,← same]; rfl,.inr ⟨entry.2,by rw [← same]; rfl⟩⟩

variable [Std.TransCmp cmp] [Std.LawfulEqCmp cmp] (d : OrderedMap cmp V)

@[simp] theorem find_assign_self (key : K) (value : V) : (d.assign key value).find key = some value := by
  obtain ⟨before,rest,inserted,_⟩ := insert_split key d.sorted
  exact find_split (inserted value)

theorem find_assign_other (different : other ≠ key) : (d.assign key value).find other = d.find other := by
  obtain ⟨before,rest,inserted,place⟩ := insert_split key d.sorted
  have skipped : ∀ held : V, (decide (cmp (key,held).1 other = .eq)) = false := fun held =>
    decide_eq_false fun equal => different (Std.LawfulEqCmp.eq_of_compare equal).symm
  have after : (d.assign key value).entries = before ++ (key,value) :: rest := inserted value
  rcases place with ⟨split,_⟩ | ⟨old,split⟩
  · simp [find,after,split,List.find?_append,skipped]
  · simp [find,after,split,List.find?_append,skipped]

theorem flatMap_assign {T : Type*} (f : V → List T) (key : K) :
    ∃ others, (d.entries.flatMap fun entry => f entry.2).Perm (((d.find key).map f).getD [] ++ others) ∧
      ∀ value, ((d.assign key value).entries.flatMap fun entry => f entry.2).Perm (f value ++ others) := by
  obtain ⟨before,rest,inserted,place⟩ := insert_split key d.sorted
  have moved : ∀ value, ((before ++ (key,value) :: rest).flatMap fun entry => f entry.2).Perm
      (f value ++ (before ++ rest).flatMap fun entry => f entry.2) := fun value => by
    simp only [List.flatMap_append,List.flatMap_cons]
    exact List.perm_append_comm_assoc _ _ _
  refine ⟨(before ++ rest).flatMap fun entry => f entry.2,?_,fun value => ?_⟩
  · rcases place with ⟨split,absent⟩ | ⟨old,split⟩
    · have missing : d.find key = none := by
        rw [find,List.find?_eq_none.mpr]
        · rfl
        · exact fun entry member => by simpa using absent entry member
      rw [missing,split]
      exact List.Perm.refl _
    · rw [find_split split,split]
      exact moved old
  · have after : (d.assign key value).entries = before ++ (key,value) :: rest := inserted value
    rw [after]
    exact moved value

end Assign
end OrderedMap
