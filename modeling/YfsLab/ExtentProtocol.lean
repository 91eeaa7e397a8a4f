import YfsLab.Lib.Words

namespace YfsLab

-- extent_protocol::filelist: the ids and names of a directory, in order.
abbrev Filelist := List (UInt64 × List UInt8)

namespace ExtentProtocol

-- The objects serialize appends are in host order.
def entryBytes (entry : UInt64 × List UInt8) : List UInt8 :=
  Words.leBytes 8 entry.1.toNat ++ Words.leBytes 4 (UInt32.ofNat entry.2.length).toNat ++ entry.2

def serialize (fl : Filelist) : List UInt8 :=
  Words.leBytes 4 (UInt32.ofNat fl.length).toNat ++ fl.flatMap entryBytes

-- What can be read through c_str(): the string, its terminating zero, and
-- whatever the memory holds after it.
def memory (junk : Nat → UInt8) (buf : List UInt8) (i : Nat) : UInt8 :=
  match buf[i]? with
  | some b => b
  | none => if i = buf.length then 0 else junk i

def slice (mem : Nat → UInt8) (p n : Nat) : List UInt8 := (List.range n).map fun i => mem (p+i)

def load32 (mem : Nat → UInt8) (p : UInt32) : UInt32 := UInt32.ofNat (Words.leValue (slice mem p.toNat 4))
def load64 (mem : Nat → UInt8) (p : UInt32) : UInt64 := UInt64.ofNat (Words.leValue (slice mem p.toNat 8))

-- The loop of deserialize with `left` entries to go. The entries pushed before
-- a failed test stay in the list.
def readEntries (mem : Nat → UInt8) (sizeBuf : UInt32) : Nat → UInt32 → Filelist → Bool × Filelist
  | 0,_,fl => (true,fl)
  | left+1,p,fl =>
    let id := load64 mem p
    let p := p + 8
    if p ≥ sizeBuf then (false,fl) else
    let sizeName := load32 mem p
    let p := p + 4
    if p ≥ sizeBuf then (false,fl) else
    let name := slice mem p.toNat sizeName.toNat
    let p := p + sizeName
    -- i == size_fl - 1 adds one to the bound.
    if p ≥ sizeBuf + (if left = 0 then 1 else 0) then (false,fl) else
    readEntries mem sizeBuf left p (fl ++ [(id,name)])

-- extent_protocol::deserialize. The first test is made in size_t.
def deserialize (junk : Nat → UInt8) (buf : List UInt8) (fl : Filelist) : Bool × Filelist :=
  let mem := memory junk buf
  let sizeBuf := UInt32.ofNat buf.length
  let sizeFl := load32 mem 0
  if sizeFl.toNat * (4 + 8) + 4 > sizeBuf.toNat then (false,fl)
  else readEntries mem sizeBuf sizeFl.toNat 4 fl

@[simp] theorem entryBytes_length (entry : UInt64 × List UInt8) :
    (entryBytes entry).length = 12 + entry.2.length := by
  simp only [entryBytes,List.length_append,Words.leBytes_length]

theorem serialize_length (fl : Filelist) : (serialize fl).length = 4 + (fl.flatMap entryBytes).length := by
  simp [serialize]

theorem entries_length (fl : Filelist) : 12 * fl.length ≤ (fl.flatMap entryBytes).length := by
  induction fl with
  | nil => simp
  | cons entry fl ih => simp only [List.flatMap_cons,List.length_append,List.length_cons,entryBytes_length]; omega

theorem memory_middle (junk : Nat → UInt8) (front middle rest : List UInt8) (i : Nat) (inside : i < middle.length) :
    memory junk (front ++ middle ++ rest) (front.length + i) = middle[i] := by
  unfold memory
  rw [List.append_assoc,List.getElem?_append_right (by omega),Nat.add_sub_cancel_left,
    List.getElem?_append_left inside,List.getElem?_eq_getElem inside]

theorem slice_middle (junk : Nat → UInt8) (front middle rest : List UInt8) :
    slice (memory junk (front ++ middle ++ rest)) front.length middle.length = middle := by
  apply List.ext_getElem
  · simp [slice]
  · intro i bound inside
    simpa [slice] using memory_middle junk front middle rest i inside

theorem load32_middle (junk : Nat → UInt8) (front rest : List UInt8) (p x : UInt32) (at_ : p.toNat = front.length) :
    load32 (memory junk (front ++ Words.leBytes 4 x.toNat ++ rest)) p = x := by
  have there := slice_middle junk front (Words.leBytes 4 x.toNat) rest
  rw [Words.leBytes_length] at there
  rw [load32,at_,there,Words.leValue_leBytes 4 _ (by have := x.toNat_lt; omega),UInt32.ofNat_toNat]

theorem load64_middle (junk : Nat → UInt8) (front rest : List UInt8) (p : UInt32) (x : UInt64)
    (at_ : p.toNat = front.length) :
    load64 (memory junk (front ++ Words.leBytes 8 x.toNat ++ rest)) p = x := by
  have there := slice_middle junk front (Words.leBytes 8 x.toNat) rest
  rw [Words.leBytes_length] at there
  rw [load64,at_,there,Words.leValue_leBytes 8 _ (by have := x.toNat_lt; omega),UInt64.ofNat_toNat]

theorem advance (p by_ : UInt32) (at_ : p.toNat = n) (small : n + by_.toNat < 2^32) : (p + by_).toNat = n + by_.toNat := by
  rw [UInt32.toNat_add,at_,Nat.mod_eq_of_lt small]

theorem size_toNat (buf : List UInt8) (small : buf.length < 2^32) : (UInt32.ofNat buf.length).toNat = buf.length := by
  rw [UInt32.toNat_ofNat']; exact Nat.mod_eq_of_lt small

-- What a round reads of an entry that serialize wrote, and where it gets to.
structure EntryRead (mem : Nat → UInt8) (front : List UInt8) (entry : UInt64 × List UInt8) (p : UInt32) : Prop where
  id : load64 mem p = entry.1
  size : load32 mem (p+8) = UInt32.ofNat entry.2.length
  name : slice mem (p+8+4).toNat (UInt32.ofNat entry.2.length).toNat = entry.2
  named : (UInt32.ofNat entry.2.length).toNat = entry.2.length
  afterId : (p + 8).toNat = front.length + 8
  afterSize : (p + 8 + 4).toNat = front.length + 12
  afterName : (p + 8 + 4 + UInt32.ofNat entry.2.length).toNat = (front ++ entryBytes entry).length

theorem entry_read (junk : Nat → UInt8) (front tail : List UInt8) (entry : UInt64 × List UInt8) (p : UInt32)
    (at_ : p.toNat = front.length) (small : (front ++ entryBytes entry ++ tail).length < 2^32) :
    EntryRead (memory junk (front ++ entryBytes entry ++ tail)) front entry p := by
  obtain ⟨id,name⟩ := entry
  simp only [List.length_append,entryBytes_length] at small
  have named : (UInt32.ofNat name.length).toNat = name.length := size_toNat name (by omega)
  have afterId : (p + 8).toNat = front.length + 8 := advance p 8 at_ (by simp; omega)
  have afterSize : (p + 8 + 4).toNat = front.length + 12 := advance (p+8) 4 afterId (by simp; omega)
  have afterName : (p + 8 + 4 + UInt32.ofNat name.length).toNat = (front ++ entryBytes (id,name)).length := by
    rw [advance (p+8+4) _ afterSize (by omega),named,List.length_append,entryBytes_length,Nat.add_assoc]
  have idRead : load64 (memory junk (front ++ entryBytes (id,name) ++ tail)) p = id := by
    have := load64_middle junk front (Words.leBytes 4 (UInt32.ofNat name.length).toNat ++ name ++ tail) p id at_
    simpa only [entryBytes,List.append_assoc] using this
  have sizeRead : load32 (memory junk (front ++ entryBytes (id,name) ++ tail)) (p+8) = UInt32.ofNat name.length := by
    have := load32_middle junk (front ++ Words.leBytes 8 id.toNat) (name ++ tail) (p+8) (UInt32.ofNat name.length)
      (by simp [afterId])
    simpa only [entryBytes,List.append_assoc] using this
  have nameRead : slice (memory junk (front ++ entryBytes (id,name) ++ tail)) (p+8+4).toNat
      (UInt32.ofNat name.length).toNat = name := by
    have := slice_middle junk (front ++ Words.leBytes 8 id.toNat ++ Words.leBytes 4 (UInt32.ofNat name.length).toNat)
      name tail
    rw [named,afterSize]
    simpa [entryBytes,List.append_assoc] using this
  exact ⟨idRead,sizeRead,nameRead,named,afterId,afterSize,afterName⟩

-- One round of the loop on an entry that serialize wrote. The second test
-- refuses an empty name at the very end, and the bound of the third one wraps.
theorem readEntries_entry (junk : Nat → UInt8) (front tail : List UInt8) (entry : UInt64 × List UInt8)
    (left : Nat) (p : UInt32) (out : Filelist) (at_ : p.toNat = front.length)
    (small : (front ++ entryBytes entry ++ tail).length < 2^32) :
    let buf := front ++ entryBytes entry ++ tail
    let next := p + 8 + 4 + UInt32.ofNat entry.2.length
    next.toNat = (front ++ entryBytes entry).length ∧
    readEntries (memory junk buf) (UInt32.ofNat buf.length) (left+1) p out =
      if (entry.2 = [] ∧ tail = []) ∨
          (buf.length + (if left = 0 then 1 else 0)) % 2^32 ≤ (front ++ entryBytes entry).length then (false,out)
      else readEntries (memory junk buf) (UInt32.ofNat buf.length) left next (out ++ [entry]) := by
  obtain ⟨idRead,sizeRead,nameRead,named,afterId,afterSize,afterName⟩ := entry_read junk front tail entry p at_ small
  obtain ⟨id,name⟩ := entry
  have total : (front ++ entryBytes (id,name) ++ tail).length = front.length + 12 + name.length + tail.length := by
    simp only [List.length_append,entryBytes_length]; omega
  have size := size_toNat _ small
  rw [total] at size
  rw [total] at small
  have firstTest : ¬ p + 8 ≥ UInt32.ofNat (front ++ entryBytes (id,name) ++ tail).length := by
    rw [ge_iff_le,UInt32.le_iff_toNat_le,total,size,afterId]; omega
  have secondTest : p + 8 + 4 ≥ UInt32.ofNat (front ++ entryBytes (id,name) ++ tail).length ↔
      name = [] ∧ tail = [] := by
    rw [ge_iff_le,UInt32.le_iff_toNat_le,total,size,afterSize,← List.length_eq_zero_iff,← List.length_eq_zero_iff]
    omega
  have thirdTest : p + 8 + 4 + UInt32.ofNat name.length ≥
      UInt32.ofNat (front ++ entryBytes (id,name) ++ tail).length + (if left = 0 then 1 else 0) ↔
      ((front ++ entryBytes (id,name) ++ tail).length + (if left = 0 then 1 else 0)) % 2^32 ≤
        (front ++ entryBytes (id,name)).length := by
    rw [ge_iff_le,UInt32.le_iff_toNat_le,afterName,UInt32.toNat_add,total,size]
    split <;> rfl
  refine ⟨afterName,?_⟩
  simp only [readEntries,idRead,sizeRead,nameRead,if_neg firstTest,thirdTest]
  by_cases ending : name = [] ∧ tail = []
  · rw [if_pos (secondTest.mpr ending),if_pos (.inl ending)]
  · rw [if_neg (fun test => ending (secondTest.mp test))]
    simp only [ending,false_or]

-- The lists that are read back from the end of a string of `size` bytes: the
-- last name is not empty, and one can be added to the size.
def Readable (fl : Filelist) (size : Nat) : Prop := ∀ entry ∈ fl.getLast?, entry.2 ≠ [] ∧ size + 1 < 2^32

instance : Decidable (Readable fl size) := inferInstanceAs (Decidable (∀ entry ∈ fl.getLast?,_))

theorem readEntries_entries (junk : Nat → UInt8) (front : List UInt8) (fl : Filelist) (p : UInt32) (out : Filelist)
    (at_ : p.toNat = front.length) (small : (front ++ fl.flatMap entryBytes).length < 2^32) :
    let buf := front ++ fl.flatMap entryBytes
    readEntries (memory junk buf) (UInt32.ofNat buf.length) fl.length p out =
      if Readable fl buf.length then (true,out ++ fl) else (false,out ++ fl.dropLast) := by
  induction fl generalizing front p out with
  | nil => simp [readEntries,Readable]
  | cons entry fl ih =>
    have shape : front ++ (entry :: fl).flatMap entryBytes = front ++ entryBytes entry ++ fl.flatMap entryBytes := by
      rw [List.flatMap_cons,List.append_assoc]
    rw [shape] at small
    simp only [shape,List.length_cons]
    obtain ⟨next,round⟩ := readEntries_entry junk front (fl.flatMap entryBytes) entry fl.length p out at_ small
    rw [round]
    cases fl with
    | nil =>
      by_cases readable : Readable [entry] (front ++ entryBytes entry ++ [].flatMap entryBytes).length
      · obtain ⟨named,room⟩ := readable entry (by simp)
        have accepted : ¬ ((entry.2 = [] ∧ [].flatMap entryBytes = []) ∨
            ((front ++ entryBytes entry ++ [].flatMap entryBytes).length + 1) % 2^32 ≤
              (front ++ entryBytes entry).length) := by
          rw [Nat.mod_eq_of_lt room]
          simp [named]
        rw [if_pos readable,List.length_nil,if_pos rfl,if_neg accepted]
        rfl
      · rw [if_neg readable,if_pos,List.dropLast_singleton,List.append_nil]
        simp only [Readable,List.getLast?_singleton,Option.mem_some_iff,forall_eq'] at readable
        simp only [List.flatMap_nil,List.append_nil,List.length_nil,if_true,and_true] at readable small ⊢
        by_cases named : entry.2 = []
        · exact .inl named
        · have full : ¬ (front ++ entryBytes entry).length + 1 < 2^32 := fun room => readable ⟨named,room⟩
          exact .inr (by omega)
    | cons second rest =>
      have more := entries_length (second :: rest)
      simp only [List.length_cons] at more
      have going : ¬ ((entry.2 = [] ∧ (second :: rest).flatMap entryBytes = []) ∨
          ((front ++ entryBytes entry ++ (second :: rest).flatMap entryBytes).length +
            (if (second :: rest).length = 0 then 1 else 0)) % 2^32 ≤ (front ++ entryBytes entry).length) := by
        rw [if_neg (by simp),Nat.add_zero,Nat.mod_eq_of_lt small,List.length_append]
        rintro (⟨_,none⟩ | short)
        · rw [none] at more
          simp at more
        · omega
      have same : ∀ size, Readable (entry :: second :: rest) size ↔ Readable (second :: rest) size := by
        intro size
        rw [Readable,Readable,List.getLast?_cons_cons]
      rw [if_neg going,ih (front ++ entryBytes entry) _ _ next small]
      simp only [same,List.dropLast_cons_cons,List.append_assoc,List.singleton_append]

theorem deserialize_serialize (junk : Nat → UInt8) (fl out : Filelist) (small : (serialize fl).length < 2^32) :
    deserialize junk (serialize fl) out =
      if Readable fl (serialize fl).length then (true,out ++ fl) else (false,out ++ fl.dropLast) := by
  have entries := entries_length fl
  have length := serialize_length fl
  have count : (UInt32.ofNat fl.length).toNat = fl.length := by
    rw [UInt32.toNat_ofNat']; exact Nat.mod_eq_of_lt (by omega)
  have sizeFl : load32 (memory junk (serialize fl)) 0 = UInt32.ofNat fl.length := by
    have := load32_middle junk [] (fl.flatMap entryBytes) 0 (UInt32.ofNat fl.length) rfl
    simpa only [serialize,List.nil_append] using this
  unfold deserialize
  simp only [sizeFl,count]
  rw [size_toNat _ small,if_neg (by omega)]
  exact readEntries_entries junk _ fl 4 out (by simp) small

theorem round_trip_iff (junk : Nat → UInt8) (fl : Filelist) (small : (serialize fl).length < 2^32) :
    deserialize junk (serialize fl) [] = (true,fl) ↔ Readable fl (serialize fl).length := by
  rw [deserialize_serialize junk fl [] small]
  by_cases readable : Readable fl (serialize fl).length
  · rw [if_pos readable]
    exact iff_of_true rfl readable
  · rw [if_neg readable]
    exact iff_of_false (by simp) readable

theorem two_names_read_back :
    deserialize (fun _ => 0) (serialize [(7,[]),(8,[97,0])]) [] = (true,[(7,[]),(8,[97,0])]) :=
  (round_trip_iff (fun _ => 0) [(7,[]),(8,[97,0])] (by decide)).mpr (by decide)

theorem empty_name_refused :
    (serialize [(8,[97,0]),(7,[])]).length < 2^32 ∧
      ∀ junk, deserialize junk (serialize [(8,[97,0]),(7,[])]) [] = (false,[(8,[97,0])]) := by
  refine ⟨by decide,fun junk => ?_⟩
  rw [deserialize_serialize junk _ [] (by decide),if_neg (by decide)]
  rfl

theorem leBytes_injective (width : Nat) (smallM : m < 256^width) (smallN : n < 256^width)
    (same : Words.leBytes width m = Words.leBytes width n) : m = n := by
  have values := congrArg Words.leValue same
  rwa [Words.leValue_leBytes width m smallM,Words.leValue_leBytes width n smallN] at values

theorem entry_injective (one two : UInt64 × List UInt8) (smallOne : one.2.length < 2^32) (smallTwo : two.2.length < 2^32)
    (same : entryBytes one ++ front = entryBytes two ++ rest) : one = two ∧ front = rest := by
  obtain ⟨idOne,nameOne⟩ := one
  obtain ⟨idTwo,nameTwo⟩ := two
  simp only [entryBytes,List.append_assoc] at same
  obtain ⟨ids,same⟩ := List.append_inj same (by simp)
  obtain ⟨sizes,same⟩ := List.append_inj same (by simp)
  have id := leBytes_injective 8 (by have := idOne.toNat_lt; omega) (by have := idTwo.toNat_lt; omega) ids
  have size := leBytes_injective 4 (by have := (UInt32.ofNat nameOne.length).toNat_lt; omega)
    (by have := (UInt32.ofNat nameTwo.length).toNat_lt; omega) sizes
  rw [size_toNat nameOne smallOne,size_toNat nameTwo smallTwo] at size
  obtain ⟨name,tail⟩ := List.append_inj same size
  exact ⟨Prod.ext (UInt64.toNat_inj.mp id) name,tail⟩

theorem entries_injective (one two : Filelist) (counts : one.length = two.length)
    (small : (one.flatMap entryBytes).length < 2^32) (same : one.flatMap entryBytes = two.flatMap entryBytes) :
    one = two := by
  induction one generalizing two with
  | nil => exact (List.length_eq_zero_iff.mp counts.symm).symm
  | cons entry one ih =>
    cases two with
    | nil => cases counts
    | cons other two =>
      have sized := congrArg List.length same
      simp only [List.flatMap_cons,List.length_append,entryBytes_length] at small sized
      rw [List.flatMap_cons,List.flatMap_cons] at same
      obtain ⟨rfl,tails⟩ := entry_injective entry other (by omega) (by omega) same
      rw [ih two (by simpa using counts) (by omega) tails]

theorem serialize_injective (one two : Filelist) (small : (serialize one).length < 2^32)
    (same : serialize one = serialize two) : one = two := by
  have lengths := congrArg List.length same
  have entriesOne := entries_length one
  have entriesTwo := entries_length two
  simp only [serialize_length] at lengths small
  obtain ⟨counts,entries⟩ := List.append_inj same (by simp)
  have count := leBytes_injective 4 (by have := (UInt32.ofNat one.length).toNat_lt; omega)
    (by have := (UInt32.ofNat two.length).toNat_lt; omega) counts
  rw [UInt32.toNat_ofNat',UInt32.toNat_ofNat',Nat.mod_eq_of_lt (by omega),Nat.mod_eq_of_lt (by omega)] at count
  exact entries_injective one two count (by omega) entries

-- Directories whose names are all non-empty stay readable when they grow.
structure Sound (fl : Filelist) : Prop where
  named : ∀ entry ∈ fl, entry.2 ≠ []
  bounded : (serialize fl).length + 1 < 2^32

theorem deserialize_sound (junk : Nat → UInt8) (sound : Sound fl) (out : Filelist) :
    deserialize junk (serialize fl) out = (true,out ++ fl) := by
  have bounded := sound.bounded
  rw [deserialize_serialize junk fl out (by omega),if_pos]
  intro entry last
  exact ⟨sound.named entry (List.mem_of_getLast? last),bounded⟩

theorem deserialize_empty (junk : Nat → UInt8) (out : Filelist) : deserialize junk [] out = (false,out) := by
  unfold deserialize
  rw [if_pos]
  simp

end ExtentProtocol
end YfsLab
