import Mathlib.Data.List.TakeWhile
import Mathlib.Order.Bounds.Defs
import Mathlib.Tactic.Common

namespace YfsLab.XidRepWindow

def insertXid (xid : UInt32) : List UInt32 → List UInt32
  | [] => [xid]
  | it :: rest => if it > xid then xid :: it :: rest else it :: insertXid xid rest

-- The compress loop. `passed` is the part of the list before the iterator and
-- the second argument starts at the element it points to. The inner while pops
-- the front as long as front + 1 is that element; once everything before the
-- iterator is gone the front is that element itself and the loop stops.
def compress (passed : List UInt32) : List UInt32 → List UInt32
  | [] => passed
  | it :: rest => compress (passed.dropWhile (fun front => front + 1 == it) ++ [it]) rest

def compressList : List UInt32 → List UInt32
  | [] => []
  | front :: rest => compress [front] rest

-- rpcc::update_xid_rep on xid_rep_window_. front() of an empty list is not
-- defined in the source; the window starts as [0] and never becomes empty.
def updateXidRep (xid : UInt32) : List UInt32 → List UInt32
  | [] => []
  | front :: rest => if xid ≤ front then front :: rest else compressList (insertXid xid (front :: rest))

def initial : List UInt32 := [0]

theorem mem_insertXid : it ∈ insertXid xid window ↔ it = xid ∨ it ∈ window := by
  induction window with
  | nil => simp [insertXid]
  | cons head rest ih =>
    simp only [insertXid]
    split
    · simp
    · simp only [List.mem_cons,ih]; tauto

theorem insertXid_sorted (sorted : window.Pairwise (· ≤ ·)) : (insertXid xid window).Pairwise (· ≤ ·) := by
  induction window with
  | nil => simp [insertXid]
  | cons head rest ih =>
    obtain ⟨low,tail⟩ := List.pairwise_cons.mp sorted
    simp only [insertXid]
    split
    · rename_i larger
      refine List.pairwise_cons.mpr ⟨?_,sorted⟩
      intro it member
      rcases List.mem_cons.mp member with rfl | inner
      · exact UInt32.le_of_lt larger
      · exact UInt32.le_trans (UInt32.le_of_lt larger) (low it inner)
    · rename_i notLarger
      refine List.pairwise_cons.mpr ⟨?_,ih tail⟩
      intro it member
      rcases mem_insertXid.mp member with rfl | inner
      · simpa using notLarger
      · exact low it inner

-- The iterator never skips a possible pop: before it the list is compressed,
-- so if its element is front + 1 then everything before it equals the front.
theorem front_repeated {front it : UInt32} (head : front < 0xffffffff) (sorted : (front :: before ++ it :: rest).Pairwise (· ≤ ·))
    (closed : ∀ it ∈ before, it ≠ front + 1) (next : it = front + 1) : ∀ x ∈ front :: before, x + 1 = it := by
  have below := List.pairwise_append.mp sorted
  intro x member
  have upper : x ≤ it := below.2.2 x member it (by simp)
  rcases List.mem_cons.mp member with rfl | inner
  · exact next.symm
  · have lower : front ≤ x := (List.pairwise_cons.mp below.1).1 x inner
    have different := closed x inner
    grind

theorem compress_spec (bounded : ∀ it ∈ front :: before ++ rest, it < 0xffffffff)
    (sorted : (front :: before ++ rest).Pairwise (· ≤ ·)) (closed : ∀ it ∈ before, it ≠ front + 1) :
    ∃ top above, compress (front :: before) rest = top :: above ∧ (top :: above).Pairwise (· ≤ ·) ∧
      (∀ it ∈ above, it ≠ top + 1) ∧ front ≤ top ∧
      (∀ xid, front < xid → xid ≤ top → xid ∈ rest) ∧
      (∀ xid, top < xid → (xid ∈ top :: above ↔ xid ∈ front :: before ++ rest)) := by
  induction rest generalizing front before with
  | nil =>
    refine ⟨front,before,rfl,by simpa using sorted,closed,UInt32.le_refl _,?_,by simp⟩
    intro xid low high
    exact absurd high (by simpa using low)
  | cons it rest ih =>
    have head : front < 0xffffffff := bounded front (by simp)
    have lowIt : front ≤ it := by
      have below := List.pairwise_append.mp sorted
      exact below.2.2 front (by simp) it (by simp)
    by_cases next : it = front + 1
    · have equal := front_repeated head sorted closed next
      have dropped : (front :: before).dropWhile (fun front => front + 1 == it) = [] := by
        rw [List.dropWhile_eq_nil_iff]
        intro x member
        simpa using equal x member
      have tailSorted : (it :: [] ++ rest).Pairwise (· ≤ ·) :=
        sorted.sublist (List.sublist_append_right (front :: before) (it :: rest))
      obtain ⟨top,above,result,order,gap,high,filled,same⟩ := @ih it []
        (fun x member => bounded x (List.mem_append_right _ (by simpa using member))) tailSorted (by simp)
      refine ⟨top,above,?_,order,gap,UInt32.le_trans lowIt high,?_,?_⟩
      · rw [compress,dropped]; exact result
      · intro xid low upper
        by_cases atIt : xid = it
        · simp [atIt]
        · have beyond : it < xid := by grind
          exact List.mem_cons_of_mem _ (filled xid beyond upper)
      · intro xid beyond
        rw [same xid beyond]
        have notBefore : xid ∉ front :: before := by
          intro member
          have := equal xid member
          grind
        simp only [List.cons_append,List.nil_append,List.mem_cons,List.mem_append] at notBefore ⊢
        tauto
    · have stays : (front :: before).dropWhile (fun front => front + 1 == it) = front :: before := by
        have : (front + 1 == it) = false := by simpa using fun equal : front + 1 = it => next equal.symm
        simp [this]
      obtain ⟨top,above,result,order,gap,high,filled,same⟩ := @ih front (before ++ [it])
        (by simpa using bounded) (by simpa using sorted) (by
          intro x member
          rcases List.mem_append.mp member with old | new
          · exact closed x old
          · rw [List.mem_singleton.mp new]; exact next)
      refine ⟨top,above,?_,order,gap,high,?_,?_⟩
      · rw [compress,stays]; exact result
      · exact fun xid low upper => List.mem_cons_of_mem _ (filled xid low upper)
      · intro xid beyond
        rw [same xid beyond]
        simp

-- What the window says about the xids handed to update_xid_rep so far.
structure Prefix (passed : UInt32 → Prop) (front : UInt32) (above : List UInt32) : Prop where
  sorted : (front :: above).Pairwise (· ≤ ·)
  gap : ∀ it ∈ above, it ≠ front + 1
  below : ∀ xid, 1 ≤ xid → xid ≤ front → passed xid
  higher : ∀ xid, front < xid → (xid ∈ above ↔ passed xid)

theorem initial_prefix : Prefix (fun _ => False) 0 [] := by
  refine ⟨by simp,by simp,?_,by simp⟩
  intro xid low high
  grind

theorem Prefix.bounded {passed : UInt32 → Prop} (kept : Prefix passed front above)
    (limit : ∀ it, passed it → it < 0xffffffff) : ∀ it ∈ front :: above, it < 0xffffffff := by
  have frontSmall : front < 0xffffffff := by
    by_cases zero : 1 ≤ front
    · exact limit front (kept.below front zero (UInt32.le_refl _))
    · grind
  intro it member
  rcases List.mem_cons.mp member with rfl | inner
  · exact frontSmall
  · have low : front ≤ it := (List.pairwise_cons.mp kept.sorted).1 it inner
    by_cases equal : it = front
    · exact equal ▸ frontSmall
    · exact limit it ((kept.higher it (by grind)).mp inner)

theorem updateXidRep_prefix {passed : UInt32 → Prop} (kept : Prefix passed front above)
    (limit : ∀ it, passed it → it < 0xffffffff) (small : xid < 0xffffffff) :
    ∃ front' above', updateXidRep xid (front :: above) = front' :: above' ∧
      Prefix (fun it => passed it ∨ it = xid) front' above' := by
  by_cases old : xid ≤ front
  · refine ⟨front,above,by simp [updateXidRep,old],kept.sorted,kept.gap,?_,?_⟩
    · exact fun it low high => .inl (kept.below it low high)
    · intro it high
      have different : it ≠ xid := by grind
      simp [kept.higher it high,different]
  · -- The front stays in front: xid is inserted behind it.
    have bounded := kept.bounded limit
    have fresh : front < xid := by simpa using old
    have inserted : insertXid xid (front :: above) = front :: insertXid xid above := by
      simp [insertXid,UInt32.not_lt.mpr (UInt32.le_of_lt fresh)]
    have sortedAll : (front :: [] ++ insertXid xid above).Pairwise (· ≤ ·) := by
      simpa [inserted] using @insertXid_sorted xid (front :: above) kept.sorted
    have boundedAll : ∀ it ∈ front :: [] ++ insertXid xid above, it < 0xffffffff := by
      intro it member
      rcases List.mem_cons.mp member with rfl | inner
      · exact bounded it (by simp)
      · rcases mem_insertXid.mp inner with rfl | older
        · exact small
        · exact bounded it (by simp [older])
    obtain ⟨top,rest,result,order,gap,high,filled,same⟩ := compress_spec boundedAll sortedAll (by simp)
    refine ⟨top,rest,by simp [updateXidRep,old,inserted,compressList,result],order,gap,?_,?_⟩
    · intro it low upper
      by_cases beneath : it ≤ front
      · exact .inl (kept.below it low beneath)
      · have beyond : front < it := by simpa using beneath
        rcases mem_insertXid.mp (filled it beyond upper) with equal | older
        · exact .inr equal
        · exact .inl ((kept.higher it beyond).mp older)
    · intro it beyond
      have past : front < it := UInt32.lt_of_le_of_lt high beyond
      have notTop : it ≠ top := by grind
      have notFront : it ≠ front := by grind
      have members := same it beyond
      simp only [List.cons_append,List.nil_append,List.mem_cons,notTop,notFront,false_or,mem_insertXid] at members
      rw [members,kept.higher it past]
      tauto

def updates (xids window : List UInt32) : List UInt32 := xids.foldl (fun window xid => updateXidRep xid window) window

theorem updates_prefix {passed : UInt32 → Prop} (kept : Prefix passed front above)
    (limit : ∀ it, passed it → it < 0xffffffff) (small : ∀ xid ∈ xids, xid < 0xffffffff) :
    ∃ front' above', updates xids (front :: above) = front' :: above' ∧
      Prefix (fun it => passed it ∨ it ∈ xids) front' above' := by
  induction xids generalizing passed front above with
  | nil => exact ⟨front,above,rfl,by simpa using kept⟩
  | cons xid rest ih =>
    obtain ⟨middle,between,result,held⟩ := updateXidRep_prefix kept limit (small xid (by simp))
    have bounded : ∀ it, passed it ∨ it = xid → it < 0xffffffff := by
      intro it known
      rcases known with older | same
      · exact limit it older
      · exact same ▸ small xid (by simp)
    obtain ⟨front',above',whole,final⟩ := ih held bounded (fun it member => small it (List.mem_cons_of_mem _ member))
    refine ⟨front',above',?_,?_⟩
    · rw [← whole,← result]; rfl
    · simpa only [or_assoc,← List.mem_cons] using final

theorem Prefix.next_missing {passed : UInt32 → Prop} (kept : Prefix passed front above) (head : front < 0xffffffff) :
    ¬ passed (front + 1) := by
  intro known
  have beyond : front < front + 1 := by grind
  exact kept.gap _ ((kept.higher _ beyond).mpr known) rfl

theorem Prefix.front_greatest {passed : UInt32 → Prop} (kept : Prefix passed front above) (head : front < 0xffffffff) :
    IsGreatest {k : UInt32 | ∀ xid, 1 ≤ xid → xid ≤ k → passed xid} front := by
  refine ⟨kept.below,?_⟩
  intro k filled
  by_contra larger
  have next : front + 1 ≤ k := by grind
  have positive : 1 ≤ front + 1 := by grind
  exact kept.next_missing head (filled (front + 1) positive next)

theorem updates_contiguous (xids : List UInt32) (small : ∀ xid ∈ xids, xid < 0xffffffff) :
    ∃ front above, updates xids initial = front :: above ∧ (front :: above).Pairwise (· ≤ ·) ∧
      IsGreatest {k : UInt32 | ∀ xid, 1 ≤ xid → xid ≤ k → xid ∈ xids} front ∧
      {xid | xid ∈ front :: above ∧ front < xid} = {xid | xid ∈ xids ∧ front < xid} := by
  obtain ⟨front,above,result,kept⟩ := updates_prefix initial_prefix (fun _ impossible => impossible.elim) small
  simp only [false_or] at kept
  have head := kept.bounded small front (by simp)
  refine ⟨front,above,result,kept.sorted,kept.front_greatest head,?_⟩
  ext xid
  constructor
  · intro inside
    obtain ⟨member,beyond⟩ := inside
    have above : xid ∈ above := by
      rcases List.mem_cons.mp member with rfl | inner
      · exact absurd beyond (UInt32.lt_irrefl _)
      · exact inner
    exact ⟨(kept.higher xid beyond).mp above,beyond⟩
  · intro inside
    obtain ⟨known,beyond⟩ := inside
    exact ⟨List.mem_cons_of_mem _ ((kept.higher xid beyond).mpr known),beyond⟩

-- Every xid twice and 4 before 3: the front is 2 until 3 comes.
theorem updates_contiguous_repeated :
    updates [2,4,1,4,2,1] initial = [2,4,4] ∧ updates [2,4,1,4,2,1,3] initial = [4,4] ∧
    ∃ front above, updates [2,4,1,4,2,1,3] initial = front :: above ∧ (front :: above).Pairwise (· ≤ ·) ∧
      IsGreatest {k : UInt32 | ∀ xid, 1 ≤ xid → xid ≤ k → xid ∈ [2,4,1,4,2,1,3]} front ∧
      {xid | xid ∈ front :: above ∧ front < xid} = {xid | xid ∈ [2,4,1,4,2,1,3] ∧ front < xid} :=
  ⟨by decide +kernel,by decide +kernel,updates_contiguous _ (by simp)⟩

end YfsLab.XidRepWindow
