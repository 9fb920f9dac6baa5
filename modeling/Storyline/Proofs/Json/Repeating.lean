import Storyline.Proofs.Json.Loosening
import Storyline.Proofs.Json.Merging

/-!
# Members that are repeated

Of members that share a name the merged object has the last.  Two objects agree on given
names if they have the same members of each; so do merged objects if the last members of
each of the names are the same.
-/

namespace Storyline

namespace Json

variable {names : List String} {name : String} {members members' : Members}

/-! ## Objects that agree -/

/-- The members of each of the names are the same, in the same order. -/
def Agree (names : List String) (j j' : Json) : Prop :=
  ∃ members members', j = object members ∧ j' = object members' ∧
    ∀ name ∈ names, members'.filter (fun m ↦ m.1 == name) = members.filter fun m ↦ m.1 == name

theorem count_eq_length_filter (name : String) (members : Members) :
    count name members = (members.filter fun m ↦ m.1 == name).length :=
  List.countP_eq_length_filter

theorem lookup_eq_head_filter (name : String) (members : Members) :
    members.lookup name = (members.filter fun m ↦ m.1 == name).head?.map Prod.snd := by
  induction members with
  | nil => rfl
  | cons m members ih =>
      obtain ⟨first, v⟩ := m
      rw [List.lookup_cons, List.filter_cons]
      by_cases heq : first = name
      · subst heq
        simp
      · rw [beq_eq_false_iff_ne.mpr (Ne.symm heq), if_neg (by simpa using heq)]
        exact ih

namespace Agree

variable {j j' : Json}

theorem sameRecord {K : String → Json → Json → Prop} (h : Agree names j j')
    (hK : ∀ name j, K name j j) : SameRecord K names j j' := by
  obtain ⟨members, members', rfl, rfl, hfilter⟩ := h
  intro r hr
  obtain ⟨hcount, hslot⟩ := fieldsOf_eq_some_iff.mp hr
  refine ⟨_, fieldsOf_eq_some_iff.mpr ⟨fun name hname ↦ ?_, fun name ↦ rfl⟩, fun name hname ↦ ?_⟩
  · rw [count_eq_length_filter, hfilter name hname, ← count_eq_length_filter]
    exact hcount name hname
  · rw [hslot name, lookup_eq_head_filter name members', hfilter name hname, ← lookup_eq_head_filter]
    exact matches_refl hK name _

theorem tagged {style : TagStyle} {tag : String} {variants : List String} {t : Tag} {rest : Json}
    (h : Agree (tag :: names) j j') (hj : tagged style tag variants j = some (t, rest)) :
    ∃ rest', Json.tagged style tag variants j' = some (t, rest') ∧ Agree names rest rest' := by
  obtain ⟨members, members', rfl, rfl, hfilter⟩ := h
  unfold Json.tagged at hj ⊢
  dsimp only at hj ⊢
  rw [hfilter tag List.mem_cons_self]
  split at hj
  next =>
    obtain ⟨t, ht, hj⟩ := Option.bind_eq_some_iff.mp hj
    obtain ⟨rfl, rfl⟩ := Prod.mk.inj (Option.some.inj hj)
    refine ⟨_, Option.bind_eq_some_iff.mpr ⟨t, ht, rfl⟩, _, _, rfl, rfl, fun name hname ↦ ?_⟩
    rw [List.filter_comm, hfilter name (List.mem_cons_of_mem tag hname), List.filter_comm]
  next => exact nomatch hj

theorem noFields (h : Agree names j j') : noFields j' = true := by
  obtain ⟨members, members', rfl, rfl, -⟩ := h
  rfl

end Agree

/-! ## Last members -/

/-- The last of the members of the name. -/
def last (name : String) (members : Members) : Option Json := members.reverse.lookup name

theorem any_eq_isSome_lookup (name : String) (members : Members) :
    members.any (fun m ↦ m.1 == name) = (members.lookup name).isSome := by
  induction members with
  | nil => rfl
  | cons m members ih =>
      obtain ⟨first, v⟩ := m
      rw [List.any_cons, List.lookup_cons, ih]
      by_cases heq : first = name
      · simp [heq]
      · rw [beq_eq_false_iff_ne.mpr heq, beq_eq_false_iff_ne.mpr (Ne.symm heq), Bool.false_or]

theorem lookup_merged (name : String) (members : Members) :
    (mergedMembers members).lookup name = (last name members).map merged := by
  induction members with
  | nil => rfl
  | cons m members ih =>
      obtain ⟨first, v⟩ := m
      rw [mergedMembers, keepLast, last, List.reverse_cons, List.lookup_append, ← last,
        any_eq_isSome_lookup]
      by_cases heq : name = first
      · subst heq
        rw [ih]
        cases hlast : last name members with
        | none => simp
        | some w => simp [ih, hlast]
      · have hne : (name == first) = false := beq_eq_false_iff_ne.mpr heq
        have hnone : List.lookup name [(first, v)] = none := by rw [List.lookup_cons, hne]; rfl
        rw [hnone, Option.or_none, ← ih]
        split
        · rfl
        · rw [List.lookup_cons, hne]

/-- Loosened, and the last of repeated members stays the last, as far as its name is listed. -/
def Settled (names : List String) (j j' : Json) : Prop :=
  Loosened names j j' ∧ ∀ members members', j = object members → j' = object members' →
    ∀ name ∈ names, last name members' = last name members

theorem filter_merged (name : String) (members : Members) :
    (mergedMembers members).filter (fun m ↦ m.1 == name) =
      ((last name members).map fun v ↦ (name, merged v)).toList := by
  have hcount := count_mergedMembers_le name members
  have hlookup := lookup_merged name members
  rw [count_eq_length_filter] at hcount
  rw [lookup_eq_head_filter] at hlookup
  have hname : ∀ m ∈ (mergedMembers members).filter (fun m ↦ m.1 == name), m.1 = name := fun m hm ↦
    beq_iff_eq.mp (List.mem_filter.mp hm).2
  revert hcount hlookup hname
  generalize (mergedMembers members).filter (fun m ↦ m.1 == name) = ms
  intro hcount hlookup hname
  match ms with
  | [] =>
      have hnone : last name members = none := Option.map_eq_none_iff.mp hlookup.symm
      simp [hnone]
  | [(n, v)] =>
      obtain ⟨w, hw, rfl⟩ := Option.map_eq_some_iff.mp hlookup.symm
      obtain rfl : n = name := hname _ List.mem_cons_self
      simp [hw]
  | _ :: _ :: _ => simp at hcount

theorem Settled.agree {j j' : Json} (h : Settled names j j') : Agree names (merged j) (merged j') := by
  obtain ⟨⟨members, members', -, rfl, rfl, -⟩, hlast⟩ := h
  refine ⟨_, _, rfl, rfl, fun name hname ↦ ?_⟩
  rw [filter_merged, filter_merged, hlast _ _ rfl rfl name hname]

/-! ## Swapped members -/

/-- A swapped member is merged away, or swapped in what is merged. -/
theorem mergedMembers_swapped (name : String) (before after : Members) :
    (∃ ms, ∀ v, mergedMembers (before ++ (name, v) :: after) = ms) ∨
      ∃ front back, ∀ v, mergedMembers (before ++ (name, v) :: after) = front ++ (name, merged v) :: back := by
  induction before with
  | nil =>
      cases hany : (mergedMembers after).any fun m ↦ m.1 == name with
      | true => exact .inl ⟨mergedMembers after, fun v ↦ by simp [mergedMembers, keepLast, hany]⟩
      | false => exact .inr ⟨[], mergedMembers after, fun v ↦ by simp [mergedMembers, keepLast, hany]⟩
  | cons m before ih =>
      obtain ⟨first, w⟩ := m
      rcases ih with ⟨ms, hms⟩ | ⟨front, back, hms⟩
      · exact .inl ⟨keepLast first (merged w) ms, fun v ↦ congrArg _ (hms v)⟩
      · right
        cases hany : (front ++ (name, Json.null) :: back).any fun m ↦ m.1 == first with
        | true =>
            refine ⟨front, back, fun v ↦ ?_⟩
            rw [List.cons_append, mergedMembers, hms, keepLast, if_pos]
            rwa [List.any_append, List.any_cons] at hany ⊢
        | false =>
            refine ⟨(first, merged w) :: front, back, fun v ↦ ?_⟩
            rw [List.cons_append, mergedMembers, hms, keepLast, if_neg]
            · rfl
            · rw [List.any_append, List.any_cons] at hany ⊢
              exact Bool.eq_false_iff.mp hany

theorem Swapped.merged {v v' j j' : Json} (h : Swapped names name v v' j j') :
    merged j' = merged j ∨ Swapped names name (merged v) (merged v') (merged j) (merged j') := by
  cases h with
  | member before after =>
      rcases mergedMembers_swapped name before after with ⟨ms, hms⟩ | ⟨front, back, hms⟩
      · exact .inl (congrArg Json.object ((hms v').trans (hms v).symm))
      · right
        rw [Json.merged, Json.merged, hms, hms]
        exact .member front back
  | place before after hplace =>
      right
      rw [Json.merged, Json.merged, mergedItems_eq_map, mergedItems_eq_map, List.map_append,
        List.map_append, List.map_cons, List.map_cons]
      exact .place _ _ (by rwa [List.length_map])

end Json

end Storyline
