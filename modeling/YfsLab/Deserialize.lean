import YfsLab.ExtentProtocol

namespace YfsLab.Deserialize
open ExtentProtocol

-- What the loop does besides filling the list: it reads n bytes at cbuf + p, or
-- moves p.
inductive Event where
  | access (p : UInt32) (n : Nat)
  | cursor (p : UInt32)
  deriving DecidableEq, Repr

-- The loop of deserialize with what it does written down.
def readLogged (mem : Nat → UInt8) (sizeBuf : UInt32) : Nat → UInt32 → Filelist → (Bool × Filelist) × List Event
  | 0,_,fl => ((true,fl),[])
  | left+1,p,fl =>
    let id := load64 mem p
    let log := [.access p 8,.cursor (p+8)]
    let p := p + 8
    if p ≥ sizeBuf then ((false,fl),log) else
    let sizeName := load32 mem p
    let log := log ++ [.access p 4,.cursor (p+4)]
    let p := p + 4
    if p ≥ sizeBuf then ((false,fl),log) else
    let name := slice mem p.toNat sizeName.toNat
    let log := log ++ [.access p sizeName.toNat,.cursor (p+sizeName)]
    let p := p + sizeName
    if p ≥ sizeBuf + (if left = 0 then 1 else 0) then ((false,fl),log) else
    let rest := readLogged mem sizeBuf left p (fl ++ [(id,name)])
    (rest.1,log ++ rest.2)

theorem readLogged_result (mem : Nat → UInt8) (sizeBuf : UInt32) (left : Nat) (p : UInt32) (fl : Filelist) :
    (readLogged mem sizeBuf left p fl).1 = readEntries mem sizeBuf left p fl := by
  induction left generalizing p fl with
  | zero => rfl
  | succ left ih =>
    simp only [readLogged,readEntries]
    split
    · rfl
    · split
      · rfl
      · by_cases full : p + 8 + 4 + load32 mem (p+8) ≥ sizeBuf + (if left = 0 then 1 else 0)
        · simp only [if_pos full]
        · simp only [if_neg full,ih]

def count (buf : List UInt8) : Nat := Words.leValue (buf.take 4)

-- Every access is inside the string and the cursor does not go back. It has
-- wrapped if it goes back, since it moves by less than 2^32.
def Bounded (size : Nat) : UInt32 → List Event → Prop
  | _,[] => True
  | p,.access q n :: rest => (∀ i < n, q.toNat + i < size) ∧ Bounded size p rest
  | p,.cursor q :: rest => p ≤ q ∧ Bounded size q rest

-- The bytes behind the count are enough for `left` entries, or stop after fewer
-- entries where a test notices: between two of them, behind the id of the next
-- or behind its size.
def Complete (left : Nat) (rest : List UInt8) : Prop :=
  ∃ (entries : Filelist) (tail : List UInt8), rest = entries.flatMap entryBytes ++ tail ∧
    (entries.length = left ∨ (entries.length < left ∧ (tail.length = 0 ∨ tail.length = 8 ∨ tail.length = 12)))

theorem load32_at (junk : Nat → UInt8) (front size rest : List UInt8) (p : UInt32) (at_ : p.toNat = front.length)
    (width : size.length = 4) : load32 (memory junk (front ++ size ++ rest)) p = UInt32.ofNat (Words.leValue size) := by
  have there := slice_middle junk front size rest
  rw [width] at there
  rw [load32,at_,there]

theorem entry_of_bytes (id size name : List UInt8) (wide : id.length = 8) (four : size.length = 4)
    (named : name.length = Words.leValue size) :
    entryBytes (UInt64.ofNat (Words.leValue id),name) = id ++ size ++ name := by
  have idSmall := Words.leValue_lt id
  have sizeSmall := Words.leValue_lt size
  rw [wide] at idSmall
  rw [four] at sizeSmall
  have idBack : (UInt64.ofNat (Words.leValue id)).toNat = Words.leValue id := by
    rw [UInt64.toNat_ofNat']; exact Nat.mod_eq_of_lt (by omega)
  have sizeBack : (UInt32.ofNat name.length).toNat = Words.leValue size := by
    rw [UInt32.toNat_ofNat',named]; exact Nat.mod_eq_of_lt (by omega)
  have idBytes := Words.leBytes_leValue id
  have sizeBytes := Words.leBytes_leValue size
  rw [wide] at idBytes
  rw [four] at sizeBytes
  rw [entryBytes,idBack,sizeBack,idBytes,sizeBytes]

section Round
variable {mem : Nat → UInt8} {sizeBuf p : UInt32} {left : Nat} {fl : Filelist}

def round (mem : Nat → UInt8) (p : UInt32) : List Event :=
  [.access p 8,.cursor (p+8),.access (p+8) 4,.cursor (p+8+4),.access (p+8+4) (load32 mem (p+8)).toNat,
    .cursor (p+8+4+load32 mem (p+8))]

theorem readLogged_id (ends : p + 8 ≥ sizeBuf) :
    readLogged mem sizeBuf (left+1) p fl = ((false,fl),[.access p 8,.cursor (p+8)]) := by
  simp only [readLogged,if_pos ends]

theorem readLogged_size (goes : ¬ p + 8 ≥ sizeBuf) (ends : p + 8 + 4 ≥ sizeBuf) :
    readLogged mem sizeBuf (left+1) p fl =
      ((false,fl),[.access p 8,.cursor (p+8),.access (p+8) 4,.cursor (p+8+4)]) := by
  simp only [readLogged,if_neg goes,if_pos ends,List.cons_append,List.nil_append]

theorem readLogged_name (goes : ¬ p + 8 ≥ sizeBuf) (further : ¬ p + 8 + 4 ≥ sizeBuf)
    (ends : p + 8 + 4 + load32 mem (p+8) ≥ sizeBuf + (if left = 0 then 1 else 0)) :
    readLogged mem sizeBuf (left+1) p fl = ((false,fl),round mem p) := by
  simp only [readLogged,if_neg goes,if_neg further,if_pos ends,round,List.cons_append,List.nil_append]

theorem readLogged_next (goes : ¬ p + 8 ≥ sizeBuf) (further : ¬ p + 8 + 4 ≥ sizeBuf)
    (stays : ¬ p + 8 + 4 + load32 mem (p+8) ≥ sizeBuf + (if left = 0 then 1 else 0)) :
    readLogged mem sizeBuf (left+1) p fl =
      ((readLogged mem sizeBuf left (p+8+4+load32 mem (p+8))
          (fl ++ [(load64 mem p,slice mem (p+8+4).toNat (load32 mem (p+8)).toNat)])).1,
        round mem p ++ (readLogged mem sizeBuf left (p+8+4+load32 mem (p+8))
          (fl ++ [(load64 mem p,slice mem (p+8+4).toNat (load32 mem (p+8)).toNat)])).2) := by
  simp only [readLogged,if_neg goes,if_neg further,if_neg stays,round,List.cons_append,List.nil_append]

theorem readLogged_starts : ∃ later, (readLogged mem sizeBuf (left+1) p fl).2 = .access p 8 :: later := by
  by_cases first : p + 8 ≥ sizeBuf
  · exact ⟨_,by rw [readLogged_id first]⟩
  · by_cases second : p + 8 + 4 ≥ sizeBuf
    · exact ⟨_,by rw [readLogged_size first second]⟩
    · by_cases third : p + 8 + 4 + load32 mem (p+8) ≥ sizeBuf + (if left = 0 then 1 else 0)
      · exact ⟨_,by rw [readLogged_name first second third]; rfl⟩
      · exact ⟨_,by rw [readLogged_next first second third]; rfl⟩

theorem readLogged_sized (goes : ¬ p + 8 ≥ sizeBuf) :
    ∃ later, (readLogged mem sizeBuf (left+1) p fl).2 = .access p 8 :: .cursor (p+8) :: .access (p+8) 4 :: later := by
  by_cases second : p + 8 + 4 ≥ sizeBuf
  · exact ⟨_,by rw [readLogged_size goes second]⟩
  · by_cases third : p + 8 + 4 + load32 mem (p+8) ≥ sizeBuf + (if left = 0 then 1 else 0)
    · exact ⟨_,by rw [readLogged_name goes second third]; rfl⟩
    · exact ⟨_,by rw [readLogged_next goes second third]; rfl⟩

theorem readLogged_named (goes : ¬ p + 8 ≥ sizeBuf) (further : ¬ p + 8 + 4 ≥ sizeBuf) :
    ∃ later, (readLogged mem sizeBuf (left+1) p fl).2 = round mem p ++ later := by
  by_cases third : p + 8 + 4 + load32 mem (p+8) ≥ sizeBuf + (if left = 0 then 1 else 0)
  · exact ⟨[],by rw [readLogged_name goes further third,List.append_nil]⟩
  · exact ⟨_,by rw [readLogged_next goes further third]⟩

end Round

theorem complete_short (nonempty : rest ≠ []) (short : rest.length < 12) :
    Complete (left+1) rest ↔ rest.length = 8 := by
  have positive := List.length_pos_iff.mpr nonempty
  constructor
  · intro complete
    obtain ⟨entries,tail,rfl,counted⟩ := complete
    cases entries with
    | nil =>
      simp only [List.flatMap_nil,List.nil_append,List.length_nil] at short positive counted ⊢
      omega
    | cons entry others =>
      simp only [List.flatMap_cons,List.length_append,entryBytes_length] at short
      omega
  · intro eight
    exact ⟨[],rest,rfl,.inr ⟨Nat.succ_pos _,.inr (.inl eight)⟩⟩

theorem complete_cons (small : (entryBytes entry ++ rest).length < 2^32) :
    Complete (left+1) (entryBytes entry ++ rest) ↔ Complete left rest := by
  have long := entryBytes_length entry
  constructor
  · intro complete
    obtain ⟨entries,tail,same,counted⟩ := complete
    cases entries with
    | nil =>
      -- Too long to stop inside the entry, unless there is nothing behind it.
      have sized := congrArg List.length same
      simp only [List.flatMap_nil,List.nil_append,List.length_append,List.length_nil] at sized counted
      have empty : rest = [] := List.length_eq_zero_iff.mp (by omega)
      refine ⟨[],[],by simp [empty],?_⟩
      rcases Nat.eq_zero_or_pos left with none | some
      · exact .inl none.symm
      · exact .inr ⟨some,.inl rfl⟩
    | cons first others =>
      have sized := congrArg List.length same
      simp only [List.flatMap_cons,List.length_append,entryBytes_length] at sized small
      rw [List.flatMap_cons,List.append_assoc] at same
      obtain ⟨rfl,behind⟩ := entry_injective entry first (by omega) (by omega) same
      exact ⟨others,tail,behind,by simpa using counted⟩
  · intro complete
    obtain ⟨entries,tail,rfl,counted⟩ := complete
    exact ⟨entry :: entries,tail,by simp,by simpa using counted⟩

theorem not_complete_long {id size body : List UInt8} (wide : id.length = 8) (four : size.length = 4) (nonempty : body ≠ [])
    (long : body.length < Words.leValue size) (small : (id ++ size ++ body).length < 2^32) :
    ¬ Complete (left+1) (id ++ size ++ body) := by
  intro complete
  obtain ⟨entries,tail,same,counted⟩ := complete
  have positive := List.length_pos_iff.mpr nonempty
  have sized := congrArg List.length same
  simp only [List.length_append,wide,four] at sized small
  cases entries with
  | nil =>
    simp only [List.flatMap_nil,List.length_nil] at sized counted
    omega
  | cons first others =>
    simp only [List.flatMap_cons,List.length_append,entryBytes_length] at sized
    simp only [List.flatMap_cons,entryBytes,List.append_assoc] at same
    obtain ⟨_,same⟩ := List.append_inj same (by simp [wide])
    obtain ⟨sizes,_⟩ := List.append_inj same (by simp [four])
    have named : Words.leValue size = first.2.length := by
      have fits : first.2.length < 2^32 := by omega
      rw [sizes,Words.leValue_leBytes 4 _ (by have := (UInt32.ofNat first.2.length).toNat_lt; omega),
        size_toNat first.2 fits]
    omega

theorem complete_none (rest : List UInt8) : Complete 0 rest := ⟨[],rest,rfl,.inl rfl⟩

theorem complete_empty (left : Nat) : Complete left [] := by
  rcases Nat.eq_zero_or_pos left with none | some
  · exact none ▸ complete_none []
  · exact ⟨[],[],rfl,.inr ⟨some,.inl rfl⟩⟩

theorem access_inside (at_ : p.toNat + n ≤ size) : ∀ i < n, UInt32.toNat p + i < size := by
  intro i low
  omega

theorem access_outside (positive : 0 < n) (reaches : size < UInt32.toNat p + n) : ¬ ∀ i < n, p.toNat + i < size := by
  intro inside
  have last := inside (n-1) (by omega)
  omega

theorem le_advance (at_ : UInt32.toNat p = n) (small : n + by_.toNat < 2^32) : p ≤ p + by_ := by
  rw [UInt32.le_iff_toNat_le,advance p by_ at_ small,at_]
  exact Nat.le_add_right _ _

theorem bounded_round (at_ : p.toNat = n) (small : size < 2^32) (inside : n + 12 + (load32 mem (p+8)).toNat ≤ size) :
    Bounded size p (round mem p ++ later) ↔ Bounded size (p+8+4+load32 mem (p+8)) later := by
  have afterId : (p + 8).toNat = n + 8 := advance p 8 at_ (by simp; omega)
  have afterSize : (p + 8 + 4).toNat = n + 12 := advance (p+8) 4 afterId (by simp; omega)
  simp only [round,List.cons_append,List.nil_append,Bounded]
  rw [and_iff_right (access_inside (by omega)),and_iff_right (le_advance at_ (by simp; omega)),
    and_iff_right (access_inside (by omega)),and_iff_right (le_advance afterId (by simp; omega)),
    and_iff_right (access_inside (by omega)),and_iff_right (le_advance afterSize (by omega))]

theorem not_past {size : Nat} (bounded : size < 2^32) (at_ : UInt32.toNat p = n) : p ≥ UInt32.ofNat size ↔ size ≤ n := by
  have same : (UInt32.ofNat size).toNat = size := by
    rw [UInt32.toNat_ofNat']; exact Nat.mod_eq_of_lt bounded
  rw [ge_iff_le,UInt32.le_iff_toNat_le,same,at_]

-- The whole loop on what is left of the string: it stays inside exactly if the
-- rest is complete, and then it returns true only after `left` entries.
structure Exact (left : Nat) (fl : Filelist) (rest : List UInt8) (size : Nat) (p : UInt32)
    (out : (Bool × Filelist) × List Event) : Prop where
  inside : Bounded size p out.2 ↔ Complete left rest
  entries : Complete left rest → out.1.1 = true →
    ∃ added, out.1.2 = fl ++ added ∧ added.length = left ∧ added.flatMap entryBytes <+: rest

theorem exact_of_refused (inside : Bounded size p out.2) (complete : Complete left rest) (refused : out.1.1 = false) :
    Exact left fl rest size p out :=
  ⟨iff_of_true inside complete,fun _ accepted => by rw [refused] at accepted; cases accepted⟩

theorem exact_of_outside (outside : ¬ Bounded size p out.2) (incomplete : ¬ Complete left rest) :
    Exact left fl rest size p out :=
  ⟨iff_of_false outside incomplete,fun complete => absurd complete incomplete⟩

theorem short_round (junk : Nat → UInt8) (at_ : p.toNat = front.length) (small : (front ++ rest).length < 2^32)
    (nonempty : rest ≠ []) (short : rest.length < 12) :
    Exact (left+1) fl rest (front ++ rest).length p
      (readLogged (memory junk (front ++ rest)) (UInt32.ofNat (front ++ rest).length) (left+1) p fl) := by
  have shape : Complete (left+1) rest ↔ rest.length = 8 := complete_short nonempty short
  have total : (front ++ rest).length = front.length + rest.length := List.length_append
  rcases Nat.lt_or_ge rest.length 8 with cut | whole
  · -- The id is cut off.
    refine exact_of_outside ?_ (fun complete => by have := shape.mp complete; omega)
    obtain ⟨later,log⟩ := @readLogged_starts (memory junk (front ++ rest)) (UInt32.ofNat (front ++ rest).length) p left fl
    rw [log]
    exact fun bounded => access_outside (by decide) (by omega) bounded.1
  · have afterId : (p + 8).toNat = front.length + 8 := by
      rcases Nat.lt_or_ge (front.length + 8) (2^32) with fits | full
      · exact advance p 8 at_ (by simpa using fits)
      · omega
    rcases Nat.eq_or_lt_of_le whole with eight | cut
    · have ends : p + 8 ≥ UInt32.ofNat (front ++ rest).length := (not_past small afterId).mpr (by omega)
      rw [readLogged_id ends]
      refine exact_of_refused ?_ (shape.mpr eight.symm) rfl
      exact ⟨access_inside (by omega),le_advance at_ (by simp; omega),trivial⟩
    · -- The size is cut off.
      refine exact_of_outside ?_ (fun complete => by have := shape.mp complete; omega)
      have goes : ¬ p + 8 ≥ UInt32.ofNat (front ++ rest).length := mt (not_past small afterId).mp (by omega)
      obtain ⟨later,log⟩ := @readLogged_sized (memory junk (front ++ rest)) (UInt32.ofNat (front ++ rest).length) p left fl
        goes
      rw [log]
      exact fun bounded => access_outside (by decide) (by omega) bounded.2.2.1

theorem Exact.cons {entry : UInt64 × List UInt8} (small : (entryBytes entry ++ tail).length < 2^32)
    (exact_ : Exact left (fl ++ [entry]) tail size next out) (moved : Bounded size p log ↔ Bounded size next out.2) :
    Exact (left+1) fl (entryBytes entry ++ tail) size p (out.1,log) := by
  refine ⟨moved.trans (exact_.inside.trans (complete_cons small).symm),?_⟩
  intro complete accepted
  obtain ⟨added,listed,counted,front⟩ := exact_.entries ((complete_cons small).mp complete) accepted
  refine ⟨entry :: added,?_,by simp [counted],?_⟩
  · simpa using listed
  · rw [List.flatMap_cons]
    exact (List.prefix_append_right_inj _).mpr front

theorem entry_round (junk : Nat → UInt8) {entry : UInt64 × List UInt8} (at_ : p.toNat = front.length)
    (small : (front ++ entryBytes entry ++ tail).length < 2^32) (nonempty : entry.2 ≠ [] ∨ tail ≠ [])
    (behind : left = 0 ∨ tail ≠ [] → Exact left (fl ++ [entry]) tail (front ++ entryBytes entry ++ tail).length
      (p + 8 + 4 + UInt32.ofNat entry.2.length)
      (readLogged (memory junk (front ++ entryBytes entry ++ tail))
        (UInt32.ofNat (front ++ entryBytes entry ++ tail).length) left (p + 8 + 4 + UInt32.ofNat entry.2.length)
        (fl ++ [entry]))) :
    Exact (left+1) fl (entryBytes entry ++ tail) (front ++ entryBytes entry ++ tail).length p
      (readLogged (memory junk (front ++ entryBytes entry ++ tail))
        (UInt32.ofNat (front ++ entryBytes entry ++ tail).length) (left+1) p fl) := by
  have read := entry_read junk front tail entry p at_ small
  have total : (front ++ entryBytes entry ++ tail).length = front.length + 12 + entry.2.length + tail.length := by
    simp only [List.length_append,entryBytes_length]; omega
  have inner : (entryBytes entry ++ tail).length < 2^32 := by
    simp only [List.length_append,entryBytes_length] at small ⊢
    omega
  have nameRead := read.name
  rw [← read.size] at nameRead behind
  have inside : ∀ later, Bounded (front ++ entryBytes entry ++ tail).length p
      (round (memory junk (front ++ entryBytes entry ++ tail)) p ++ later) ↔ Bounded (front ++ entryBytes entry ++ tail).length
        (p + 8 + 4 + load32 (memory junk (front ++ entryBytes entry ++ tail)) (p+8)) later :=
    fun later => bounded_round at_ small (by rw [read.size,read.named]; omega)
  have goes : ¬ p + 8 ≥ UInt32.ofNat (front ++ entryBytes entry ++ tail).length :=
    mt (not_past small read.afterId).mp (by omega)
  have further : ¬ p + 8 + 4 ≥ UInt32.ofNat (front ++ entryBytes entry ++ tail).length := by
    refine mt (not_past small read.afterSize).mp ?_
    have left : 0 < entry.2.length + tail.length := by
      rcases nonempty with name | behind
      · have := List.length_pos_iff.mpr name; omega
      · have := List.length_pos_iff.mpr behind; omega
    omega
  have afterName : (p + 8 + 4 + load32 (memory junk (front ++ entryBytes entry ++ tail)) (p+8)).toNat =
      front.length + 12 + entry.2.length := by
    rw [read.size,read.afterName,List.length_append,entryBytes_length,Nat.add_assoc]
  have ends : p + 8 + 4 + load32 (memory junk (front ++ entryBytes entry ++ tail)) (p+8) ≥
      UInt32.ofNat (front ++ entryBytes entry ++ tail).length ↔ tail = [] := by
    rw [not_past small afterName,total,← List.length_eq_zero_iff]
    omega
  by_cases third : p + 8 + 4 + load32 (memory junk (front ++ entryBytes entry ++ tail)) (p+8) ≥
      UInt32.ofNat (front ++ entryBytes entry ++ tail).length + (if left = 0 then 1 else 0)
  · -- Refused: nothing is left to do, or nothing is left of the string.
    rw [readLogged_name goes further third]
    refine exact_of_refused ?_ ?_ rfl
    · rw [← List.append_nil (round _ p)]
      exact (inside []).mpr trivial
    · apply (complete_cons inner).mpr
      rcases Nat.eq_zero_or_pos left with none | some
      · exact none ▸ complete_none tail
      · rw [if_neg (by omega),UInt32.add_zero,ends] at third
        exact third ▸ complete_empty left
  · have going : left = 0 ∨ tail ≠ [] := by
      rcases Nat.eq_zero_or_pos left with none | some
      · exact .inl none
      · rw [if_neg (by omega),UInt32.add_zero,ends] at third
        exact .inr third
    rw [readLogged_next goes further third,read.id,nameRead]
    exact Exact.cons inner (behind going) (inside _)

theorem loop_exact (junk : Nat → UInt8) (left : Nat) (front rest : List UInt8) (p : UInt32) (fl : Filelist)
    (at_ : p.toNat = front.length) (small : (front ++ rest).length < 2^32) (more : left = 0 ∨ rest ≠ []) :
    Exact left fl rest (front ++ rest).length p
      (readLogged (memory junk (front ++ rest)) (UInt32.ofNat (front ++ rest).length) left p fl) := by
  induction left generalizing front rest p fl with
  | zero => exact ⟨iff_of_true trivial (complete_none rest),fun _ _ => ⟨[],by simp [readLogged],rfl,by simp⟩⟩
  | succ left ih =>
    have nonempty : rest ≠ [] := more.resolve_left (Nat.succ_ne_zero left)
    rcases Nat.lt_or_ge rest.length 12 with short | long
    · exact short_round junk at_ small nonempty short
    obtain ⟨id,size,body,rfl,wide,four⟩ : ∃ id size body, rest = id ++ size ++ body ∧ id.length = 8 ∧ size.length = 4 := by
      refine ⟨rest.take 8,(rest.drop 8).take 4,rest.drop 12,?_,by simp; omega,by simp; omega⟩
      rw [List.append_assoc,← List.drop_drop (i:=4) (j:=8),List.take_append_drop,List.take_append_drop]
    have total : (front ++ (id ++ size ++ body)).length = front.length + 12 + body.length := by
      simp only [List.length_append,wide,four]; omega
    have afterId : (p + 8).toNat = front.length + 8 := advance p 8 at_ (by simp; omega)
    have afterSize : (p + 8 + 4).toNat = front.length + 12 := advance (p+8) 4 afterId (by simp; omega)
    have bounded : (id ++ size ++ body).length < 2^32 := by
      simp only [List.length_append] at small ⊢
      omega
    have goes : ¬ p + 8 ≥ UInt32.ofNat (front ++ (id ++ size ++ body)).length :=
      mt (not_past small afterId).mp (by omega)
    have second := not_past small afterSize
    by_cases there : body = []
    · -- Twelve bytes: the second test sees the end.
      subst there
      have ends : p + 8 + 4 ≥ UInt32.ofNat (front ++ (id ++ size ++ [])).length :=
        second.mpr (by simp only [List.length_nil] at total; omega)
      rw [readLogged_size goes ends]
      refine exact_of_refused ?_ ⟨[],_,rfl,.inr ⟨Nat.succ_pos _,.inr (.inr (by simp [wide,four]))⟩⟩ rfl
      exact ⟨access_inside (by omega),le_advance at_ (by simp; omega),access_inside (by omega),
        le_advance afterId (by simp; omega),trivial⟩
    have sizeRead : load32 (memory junk (front ++ (id ++ size ++ body))) (p+8) = UInt32.ofNat (Words.leValue size) := by
      have := load32_at junk (front ++ id) size body (p+8) (by simp [afterId,wide]) four
      simpa only [List.append_assoc] using this
    have sizeSmall := Words.leValue_lt size
    rw [four] at sizeSmall
    have named : (UInt32.ofNat (Words.leValue size)).toNat = Words.leValue size := by
      rw [UInt32.toNat_ofNat']; exact Nat.mod_eq_of_lt (by omega)
    have positive := List.length_pos_iff.mpr there
    rcases Nat.lt_or_ge body.length (Words.leValue size) with cut | fits
    · -- The name is cut off: it is built before the third test.
      refine exact_of_outside ?_ (not_complete_long wide four there cut bounded)
      have further : ¬ p + 8 + 4 ≥ UInt32.ofNat (front ++ (id ++ size ++ body)).length := mt second.mp (by omega)
      obtain ⟨later,log⟩ := @readLogged_named (memory junk (front ++ (id ++ size ++ body))) _ p left fl goes further
      rw [log]
      simp only [round,List.cons_append,List.nil_append,Bounded,sizeRead,named]
      intro inside
      exact access_outside (by omega) (by omega) inside.2.2.2.2.1
    · -- A complete entry.
      have split : id ++ size ++ body =
          entryBytes (UInt64.ofNat (Words.leValue id),body.take (Words.leValue size)) ++ body.drop (Words.leValue size) := by
        rw [entry_of_bytes id size _ wide four (by rw [List.length_take]; exact Nat.min_eq_left fits),List.append_assoc (id ++ size),List.take_append_drop]
      have nonempty : body.take (Words.leValue size) ≠ [] ∨ body.drop (Words.leValue size) ≠ [] := by
        by_contra both
        obtain ⟨none,behind⟩ := not_or.mp both
        have whole := List.take_append_drop (Words.leValue size) body
        rw [not_not.mp none,not_not.mp behind] at whole
        exact there whole.symm
      rw [split] at small ⊢
      rw [← List.append_assoc] at small ⊢
      refine entry_round junk at_ small nonempty (fun going => ?_)
      exact ih _ _ _ _ (entry_read junk front _ _ p at_ small).afterName small going

def logged (junk : Nat → UInt8) (buf : List UInt8) (fl : Filelist) : (Bool × Filelist) × List Event :=
  let mem := memory junk buf
  let sizeBuf := UInt32.ofNat buf.length
  let sizeFl := load32 mem 0
  if sizeFl.toNat * (4 + 8) + 4 > sizeBuf.toNat then ((false,fl),[])
  else readLogged mem sizeBuf sizeFl.toNat 4 fl

theorem logged_result (junk : Nat → UInt8) (buf : List UInt8) (fl : Filelist) :
    (logged junk buf fl).1 = deserialize junk buf fl := by
  unfold logged deserialize
  dsimp only
  split
  · rfl
  · exact readLogged_result _ _ _ _ _

-- All accesses of the loop are inside the string, p does not go back, and a
-- string that is accepted starts with the entries that were appended.
structure Safe (junk : Nat → UInt8) (buf : List UInt8) (fl : Filelist) : Prop where
  inside : Bounded buf.length 4 (logged junk buf fl).2
  canonical : (deserialize junk buf fl).1 = true →
    ∃ added, (deserialize junk buf fl).2 = fl ++ added ∧ serialize added <+: buf

def WellFormed (buf : List UInt8) : Prop :=
  buf.length < 4 + 12 * count buf ∨ Complete (count buf) (buf.drop 4)

theorem logged_short (short : buf.length < 4) : logged junk buf fl = ((false,fl),[]) := by
  have size := size_toNat buf (by omega)
  unfold logged
  dsimp only
  rw [if_pos (by omega)]

theorem count_read (junk : Nat → UInt8) (head rest : List UInt8) (four : head.length = 4) :
    (load32 (memory junk (head ++ rest)) 0).toNat = count (head ++ rest) ∧
      Words.leBytes 4 (count (head ++ rest)) = head ∧ count (head ++ rest) < 2^32 := by
  have taken : (head ++ rest).take 4 = head := by rw [← four]; exact List.take_left
  have small := Words.leValue_lt head
  have bytes := Words.leBytes_leValue head
  rw [four] at small bytes
  have read := load32_at junk [] head rest 0 rfl four
  rw [List.nil_append] at read
  refine ⟨?_,by rw [count,taken]; exact bytes,by rw [count,taken]; omega⟩
  rw [read,count,taken,UInt32.toNat_ofNat']
  exact Nat.mod_eq_of_lt (by omega)

theorem deserialize_safe_iff (junk : Nat → UInt8) (buf : List UInt8) (fl : Filelist) (small : buf.length < 2^32) :
    Safe junk buf fl ↔ WellFormed buf := by
  have refused : logged junk buf fl = ((false,fl),[]) → Safe junk buf fl := by
    intro log
    have result := logged_result junk buf fl
    rw [log] at result
    exact ⟨by rw [log]; trivial,fun accepted => by rw [← result] at accepted; cases accepted⟩
  rcases Nat.lt_or_ge buf.length 4 with short | long
  · exact iff_of_true (refused (logged_short short)) (.inl (by omega))
  obtain ⟨head,rest,rfl,four⟩ : ∃ head rest, buf = head ++ rest ∧ head.length = 4 :=
    ⟨buf.take 4,buf.drop 4,(List.take_append_drop 4 buf).symm,by simp; omega⟩
  obtain ⟨read,headBytes,counted⟩ := count_read junk head rest four
  have behind : (head ++ rest).drop 4 = rest := by rw [← four]; exact List.drop_left
  have total : (head ++ rest).length = 4 + rest.length := by rw [List.length_append,four]
  have size := size_toNat (head ++ rest) small
  by_cases fails : (head ++ rest).length < 4 + 12 * count (head ++ rest)
  · refine iff_of_true (refused ?_) (.inl fails)
    unfold logged
    dsimp only
    rw [if_pos (by omega)]
  · have log : logged junk (head ++ rest) fl = readLogged (memory junk (head ++ rest))
        (UInt32.ofNat (head ++ rest).length) (count (head ++ rest)) 4 fl := by
      unfold logged
      dsimp only
      rw [if_neg (by omega),read]
    have more : count (head ++ rest) = 0 ∨ rest ≠ [] := by
      rcases Nat.eq_zero_or_pos (count (head ++ rest)) with none | some
      · exact .inl none
      · exact .inr (List.length_pos_iff.mp (by omega))
    have exact_ := loop_exact junk (count (head ++ rest)) head rest 4 fl (by simp [four]) small more
    have form : WellFormed (head ++ rest) ↔ Complete (count (head ++ rest)) rest := by
      rw [WellFormed,behind]
      exact or_iff_right fails
    rw [← log] at exact_
    rw [form,← exact_.inside]
    constructor
    · exact Safe.inside
    · intro inside
      refine ⟨inside,fun accepted => ?_⟩
      rw [← logged_result] at accepted ⊢
      obtain ⟨added,listed,entries,front⟩ := exact_.entries (exact_.inside.mp inside) accepted
      refine ⟨added,listed,?_⟩
      have first : Words.leBytes 4 (UInt32.ofNat added.length).toNat = head := by
        rw [entries,UInt32.toNat_ofNat',Nat.mod_eq_of_lt counted]
        exact headBytes
      rw [serialize,first]
      exact (List.prefix_append_right_inj head).mpr front

theorem long_name_read_outside :
    ([1,0,0,0] ++ [7,0,0,0,0,0,0,0] ++ [100,0,0,0] ++ [97] : List UInt8).length < 2^32 ∧
      ∀ junk, ¬ Safe junk ([1,0,0,0] ++ [7,0,0,0,0,0,0,0] ++ [100,0,0,0] ++ [97]) [] := by
  refine ⟨by decide,fun junk safe => ?_⟩
  have form := (deserialize_safe_iff junk _ [] (by decide)).mp safe
  rcases form with short | complete
  · exact absurd short (by decide)
  · have one : count ([1,0,0,0] ++ [7,0,0,0,0,0,0,0] ++ [100,0,0,0] ++ [97]) = 0 + 1 := by decide
    rw [one] at complete
    have there : Complete (0+1) ([7,0,0,0,0,0,0,0] ++ [100,0,0,0] ++ [97]) := complete
    exact not_complete_long rfl rfl (by simp) (by decide) (by decide) there

theorem two_names_inside : Safe (fun _ => 0) (serialize [(7,[]),(8,[97,0])] ++ [1]) [] := by
  have form : WellFormed (serialize [(7,[]),(8,[97,0])] ++ [1]) :=
    .inr ⟨[(7,[]),(8,[97,0])],[1],by decide,.inl (by decide)⟩
  exact (deserialize_safe_iff (fun _ => 0) _ [] (by decide)).mpr form

end YfsLab.Deserialize
