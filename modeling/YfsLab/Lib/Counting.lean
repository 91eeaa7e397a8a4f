import Mathlib.Data.Set.Card

namespace Counting

-- How counts change when one entry of a list or one value of a function does.
-- All are equations between sums: what was counted before stands on the other
-- side, so nothing is subtracted.
section Lists
variable {T : Type*} {entries : List T} {i : Nat} {old : T}

theorem count_set (property : T → Bool) (new : T) (held : entries[i]? = some old) :
    (entries.set i new).countP property + (if property old then 1 else 0) =
      entries.countP property + (if property new then 1 else 0) := by
  obtain ⟨bound,here⟩ := List.getElem?_eq_some_iff.mp held
  rw [List.countP_set bound,here]
  cases was : property old with
  | false => simp
  | true =>
    have counted := List.countP_pos_iff.mpr ⟨old,List.mem_of_getElem? held,was⟩
    simp only [if_true]
    omega

theorem count_erase [BEq T] [LawfulBEq T] (property : T → Bool) (member : old ∈ entries) :
    (entries.erase old).countP property + (if property old then 1 else 0) = entries.countP property := by
  rw [(List.perm_cons_erase member).countP_eq,List.countP_cons]

theorem count_eraseIdx (property : T → Bool) (held : entries[i]? = some old) :
    (entries.eraseIdx i).countP property + (if property old then 1 else 0) = entries.countP property := by
  induction entries generalizing i with
  | nil => cases held
  | cons first rest ih =>
    cases i with
    | zero =>
      cases Option.some.inj held
      rw [List.eraseIdx_cons_zero,List.countP_cons]
    | succ i =>
      have counted := ih held
      rw [List.eraseIdx_cons_succ,List.countP_cons,List.countP_cons]
      omega

theorem sum_set (weight : T → Nat) (new : T) (held : entries[i]? = some old) :
    ((entries.set i new).map weight).sum + weight old = (entries.map weight).sum + weight new := by
  induction entries generalizing i with
  | nil => cases held
  | cons first rest ih =>
    cases i with
    | zero =>
      cases Option.some.inj held
      simp only [List.set_cons_zero,List.map_cons,List.sum_cons]
      omega
    | succ i =>
      have summed := ih held
      simp only [List.set_cons_succ,List.map_cons,List.sum_cons]
      omega

theorem one_place {property : T → Bool} {j : Nat} {other : T} (most : entries.countP property ≤ 1)
    (first : entries[i]? = some old) (holds : property old = true) (second : entries[j]? = some other)
    (holds' : property other = true) : i = j := by
  induction entries generalizing i j with
  | nil => cases first
  | cons entry rest ih =>
    rw [List.countP_cons] at most
    have later : ∀ {n : Nat} {found : T}, rest[n]? = some found → property found = true → 0 < rest.countP property :=
      fun there held => List.countP_pos_iff.mpr ⟨_,List.mem_of_getElem? there,held⟩
    cases i with
    | zero =>
      cases j with
      | zero => rfl
      | succ j =>
        cases Option.some.inj first
        have more := later second holds'
        rw [if_pos holds] at most
        omega
    | succ i =>
      cases j with
      | zero =>
        cases Option.some.inj second
        have more := later first holds
        rw [if_pos holds'] at most
        omega
      | succ j => rw [ih (by omega) first second]

theorem count_set_value [BEq T] [LawfulBEq T] [DecidableEq T] (value new : T) (held : entries[i]? = some old) :
    (entries.set i new).count value + (if old = value then 1 else 0) =
      entries.count value + (if new = value then 1 else 0) := by
  simpa only [List.count,beq_iff_eq] using count_set (· == value) new held

theorem count_concat [BEq T] [LawfulBEq T] [DecidableEq T] (value new : T) :
    (entries ++ [new]).count value = entries.count value + (if new = value then 1 else 0) := by
  simp only [List.count_append,List.count_singleton,beq_iff_eq]

-- No more entries are counted than of another list where each has a partner
-- with its key, and no two have the same key.
theorem count_le_keys {T' K : Type*} {others : List T'} {property : T → Bool} {property' : T' → Bool}
    (key : T → K) (key' : T' → K) (apart : ((entries.filter property).map key).Nodup)
    (covered : ∀ entry ∈ entries, property entry = true → ∃ other ∈ others, property' other = true ∧ key' other = key entry) :
    entries.countP property ≤ others.countP property' := by
  have inside : (entries.filter property).map key ⊆ (others.filter property').map key' := by
    intro k member
    obtain ⟨entry,chosen,rfl⟩ := List.mem_map.mp member
    obtain ⟨there,holds⟩ := List.mem_filter.mp chosen
    obtain ⟨other,found,holds',same⟩ := covered entry there holds
    exact List.mem_map.mpr ⟨other,List.mem_filter.mpr ⟨found,holds'⟩,same⟩
  have fewer := (apart.subperm inside).length_le
  rwa [List.length_map,List.length_map,← List.countP_eq_length_filter,← List.countP_eq_length_filter] at fewer

theorem count_le_places {others : List T} {property : T → Bool}
    (kept : ∀ (i : Nat) entry, entries[i]? = some entry → property entry = true →
      ∃ other, others[i]? = some other ∧ property other = true) :
    entries.countP property ≤ others.countP property := by
  induction entries generalizing others with
  | nil => exact Nat.zero_le _
  | cons entry rest ih =>
    cases others with
    | nil =>
      have none_ : (entry :: rest).countP property = 0 := by
        apply List.countP_eq_zero.mpr
        intro old member holds
        obtain ⟨i,there⟩ := List.mem_iff_getElem?.mp member
        obtain ⟨other,missing,_⟩ := kept i old there holds
        cases missing
      exact Nat.le_of_eq none_
    | cons other others =>
      have fewer := ih fun i old there holds => kept (i+1) old there holds
      have first : property entry = true → property other = true := by
        intro holds
        obtain ⟨other',same,holds'⟩ := kept 0 entry rfl holds
        cases Option.some.inj same
        exact holds'
      rw [List.countP_cons,List.countP_cons]
      cases was : property entry with
      | false => simp only [Bool.false_eq_true,if_false]; omega
      | true => simp only [first was,if_true]; omega

end Lists

-- The keys at which a function on a finite type has a value.
section Functions
variable {K V : Type*} [Finite K] [DecidableEq K] [DecidableEq V]

noncomputable def keys (f : K → V) (value : V) : Nat := {key | f key = value}.ncard

theorem keys_update (f : K → V) (key : K) (new value : V) :
    keys (fun other => if other = key then new else f other) value + (if f key = value then 1 else 0) =
      keys f value + (if new = value then 1 else 0) := by
  have finite : ∀ s : Set K, s.Finite := fun s => s.toFinite
  have apart : ∀ g : K → V, {other | g other = value} =
      if g key = value then insert key {other | other ≠ key ∧ g other = value} else {other | other ≠ key ∧ g other = value} := by
    intro g
    split
    · rename_i here
      ext other
      by_cases same : other = key
      · simp [same,here]
      · simp [same]
    · rename_i there
      ext other
      by_cases same : other = key
      · simp [same,there]
      · simp [same]
  have count : ∀ g : K → V, keys g value = {other | other ≠ key ∧ g other = value}.ncard + (if g key = value then 1 else 0) := by
    intro g
    unfold keys
    rw [apart g]
    split
    · rw [Set.ncard_insert_of_notMem (by simp) (finite _)]
    · rfl
  have rest : {other | other ≠ key ∧ (if other = key then new else f other) = value} =
      {other | other ≠ key ∧ f other = value} := by
    ext other
    by_cases same : other = key
    · simp [same]
    · simp [same]
  rw [count f,count (fun other => if other = key then new else f other),rest,if_pos rfl]
  omega

end Functions
end Counting
