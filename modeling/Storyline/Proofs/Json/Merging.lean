import Storyline.Proofs.Json.Rereading

/-!
# Values with merged members

Merging keeps the last member of each name.  The members that a value gives once are
those of the merged value, and a value none of whose objects repeats a name is the
merged one.
-/

namespace Storyline

namespace Json

theorem mergedItems_eq_map (items : List Json) : mergedItems items = items.map merged := by
  induction items with
  | nil => rfl
  | cons item items ih => exact congrArg _ ih

theorem forall₂_mergedItems (items : List Json) :
    List.Forall₂ (fun j j' ↦ j' = merged j) items (mergedItems items) := by
  induction items with
  | nil => exact .nil
  | cons item items ih => exact .cons rfl ih

theorem any_mergedMembers (name : String) (members : Members) :
    (mergedMembers members).any (fun m ↦ m.1 == name) = members.any (fun m ↦ m.1 == name) := by
  induction members with
  | nil => rfl
  | cons m members ih =>
      obtain ⟨first, value⟩ := m
      rw [mergedMembers, keepLast, List.any_cons, ← ih]
      split
      next hlater =>
        by_cases heq : first = name
        · subst heq
          simp [hlater]
        · simp [heq]
      next => rw [List.any_cons]

theorem filter_mergedMembers (p : String → Bool) (members : Members) :
    (mergedMembers members).filter (fun m ↦ p m.1) = mergedMembers (members.filter (fun m ↦ p m.1)) := by
  induction members with
  | nil => rfl
  | cons m members ih =>
      obtain ⟨name, value⟩ := m
      rw [List.filter_cons, mergedMembers, keepLast]
      cases hp : p name with
      | false =>
          simp only [Bool.false_eq_true, if_false]
          rw [← ih]
          split
          next => rfl
          next => rw [List.filter_cons, if_neg (by simp [hp])]
      | true =>
          have hany : ((mergedMembers members).filter fun m ↦ p m.1).any (fun m ↦ m.1 == name) =
              (mergedMembers members).any fun m ↦ m.1 == name := by
            rw [List.any_filter]
            congr 1
            funext m
            by_cases heq : m.1 = name
            · simp [heq, hp]
            · simp [heq]
          simp only [if_true, mergedMembers, keepLast, ← ih, hany]
          split
          next => rfl
          next => rw [List.filter_cons, if_pos hp]

theorem count_mergedMembers_le (name : String) (members : Members) :
    count name (mergedMembers members) ≤ 1 := by
  induction members with
  | nil => exact Nat.zero_le _
  | cons m members ih =>
      obtain ⟨first, value⟩ := m
      rw [mergedMembers, keepLast]
      split
      next => exact ih
      next hlater =>
        rw [count, List.countP_cons]
        by_cases heq : first = name
        · subst heq
          have hzero : (mergedMembers members).countP (fun m ↦ m.1 == first) = 0 :=
            List.countP_eq_zero.mpr fun m hm h ↦ hlater (List.any_eq_true.mpr ⟨m, hm, h⟩)
          simp [hzero]
        · have hne : (first == name) = false := by simpa using heq
          simpa [hne, count] using ih

theorem lookup_mergedMembers {name : String} {members : Members} (h : count name members ≤ 1) :
    (mergedMembers members).lookup name = (members.lookup name).map merged := by
  induction members with
  | nil => rfl
  | cons m members ih =>
      obtain ⟨first, value⟩ := m
      rw [count, List.countP_cons] at h
      rw [mergedMembers, keepLast, List.lookup_cons]
      by_cases heq : first = name
      · subst heq
        have hzero : count first members = 0 := by simpa [count] using h
        have hnone : (mergedMembers members).any (fun m ↦ m.1 == first) = false := by
          rw [any_mergedMembers]
          exact List.any_eq_false.mpr fun m hm ↦ by simpa using List.countP_eq_zero.mp hzero m hm
        simp [hnone]
      · have hne : (name == first) = false := by simpa using Ne.symm heq
        have hrest := ih (Nat.le_trans (Nat.le_add_right _ _) h)
        rw [hne]
        split
        next => exact hrest
        next =>
          rw [List.lookup_cons, hne]
          exact hrest

theorem sameRecord_merged (names : List String) (j : Json) :
    SameRecord (fun _ j j' ↦ j' = merged j) names j (merged j) := by
  intro r hr
  cases j with
  | object members =>
      obtain ⟨hcount, hslot⟩ := fieldsOf_eq_some_iff.mp hr
      refine ⟨_, fieldsOf_eq_some_iff.mpr ⟨fun name _ ↦ count_mergedMembers_le name members,
        fun name ↦ rfl⟩, fun name hname ↦ ?_⟩
      rw [hslot name, lookup_mergedMembers (hcount name hname)]
      cases members.lookup name with
      | none => trivial
      | some v => rfl
  | array items =>
      obtain ⟨hlength, hslot⟩ := itemsOf_eq_some_iff.mp hr
      refine ⟨_, itemsOf_eq_some_iff.mpr ⟨?_, fun name ↦ rfl⟩, fun name _ ↦ ?_⟩
      · rw [mergedItems_eq_map, List.length_map]
        exact hlength
      · rw [hslot name, mergedItems_eq_map, List.zip_map_right]
        have hlookup : ∀ ms : Members, (ms.map (Prod.map id merged)).lookup name =
            (ms.lookup name).map merged := by
          intro ms
          induction ms with
          | nil => rfl
          | cons m ms ih =>
              rw [List.map_cons, List.lookup_cons, List.lookup_cons, ih]
              simp only [Prod.map_fst, id_eq]
              split <;> rfl
        rw [hlookup]
        cases (names.zip items).lookup name with
        | none => trivial
        | some v => rfl
  | _ => exact nomatch hr

theorem faithful_merged : Faithful fun j j' ↦ j' = merged j where
  scalar := by
    rintro j j' rfl hj
    cases j <;> first | rfl | exact nomatch hj
  array := by
    rintro items j' rfl
    exact ⟨_, rfl, forall₂_mergedItems items⟩
  object := by
    rintro members j' rfl
    exact ⟨_, rfl⟩
  choice := by
    rintro j j' rfl s hs
    unfold asChoice at hs
    split at hs
    · exact hs
    · exact hs
    · exact hs
    · exact nomatch hs

theorem tagged_merged {style : TagStyle} {tag : String} {variants : List String} {j rest : Json}
    {t : Tag} (h : tagged style tag variants j = some (t, rest)) :
    tagged style tag variants (merged j) = some (t, merged rest) := by
  have htag : ∀ {value t}, asTag style variants value = some t →
      asTag style variants (merged value) = some t := fun {value t} ht ↦
    faithful_merged.asTag style variants rfl ht
  cases j with
  | object members =>
      unfold tagged at h
      dsimp only at h
      split at h
      next name value hfilter =>
        obtain ⟨t, ht, h⟩ := Option.bind_eq_some_iff.mp h
        obtain ⟨rfl, rfl⟩ := Prod.mk.inj (Option.some.inj h)
        have hmerged : (mergedMembers members).filter (fun m ↦ m.1 == tag) = [(name, merged value)] := by
          rw [filter_mergedMembers (fun n ↦ n == tag), hfilter]
          rfl
        unfold tagged merged
        dsimp only
        rw [hmerged]
        refine Option.bind_eq_some_iff.mpr ⟨t, htag ht, ?_⟩
        rw [filter_mergedMembers fun n ↦ n != tag]
        rfl
      next => exact nomatch h
  | array items =>
      cases items with
      | nil => exact nomatch h
      | cons first items =>
          obtain ⟨t, ht, h⟩ := Option.bind_eq_some_iff.mp h
          obtain ⟨rfl, rfl⟩ := Prod.mk.inj (Option.some.inj h)
          exact Option.bind_eq_some_iff.mpr ⟨t, htag ht, rfl⟩
  | _ => exact nomatch h

theorem noFields_merged {j : Json} (h : noFields j = true) : noFields (merged j) = true := by
  cases j with
  | object members => rfl
  | array items =>
      cases items with
      | nil => rfl
      | cons _ _ => exact nomatch h
  | _ => exact nomatch h

/-! ## Objects without repetitions -/

mutual

/-- The objects in a value, each by its members. -/
def objects : Json → List Members
  | .array items => objectsOfItems items
  | .object members => members :: objectsOfMembers members
  | _ => []

def objectsOfItems : List Json → List Members
  | [] => []
  | item :: rest => objects item ++ objectsOfItems rest

def objectsOfMembers : List (String × Json) → List Members
  | [] => []
  | (_, value) :: rest => objects value ++ objectsOfMembers rest

end

/-- The object gives some name twice. -/
def Repeats (members : Members) : Prop := ¬(members.map Prod.fst).Nodup

mutual

theorem merged_eq_self {j : Json} (h : ∀ members ∈ objects j, ¬Repeats members) : merged j = j := by
  cases j with
  | array items => exact congrArg array (mergedItems_eq_self h)
  | object members =>
      rw [objects, List.forall_mem_cons, Repeats, not_not] at h
      exact congrArg object (mergedMembers_eq_self h.1 h.2)
  | _ => rfl

theorem mergedItems_eq_self {items : List Json}
    (h : ∀ members ∈ objectsOfItems items, ¬Repeats members) : mergedItems items = items := by
  cases items with
  | nil => rfl
  | cons item items =>
      rw [objectsOfItems, List.forall_mem_append] at h
      exact congrArg₂ List.cons (merged_eq_self h.1) (mergedItems_eq_self h.2)

theorem mergedMembers_eq_self {members : List (String × Json)} (hnodup : (members.map Prod.fst).Nodup)
    (h : ∀ ms ∈ objectsOfMembers members, ¬Repeats ms) : mergedMembers members = members := by
  cases members with
  | nil => rfl
  | cons m members =>
      obtain ⟨name, value⟩ := m
      rw [objectsOfMembers, List.forall_mem_append] at h
      rw [List.map_cons, List.nodup_cons] at hnodup
      have hnone : members.any (fun m ↦ m.1 == name) = false :=
        List.any_eq_false.mpr fun m hm heq ↦
          hnodup.1 (List.mem_map.mpr ⟨m, hm, beq_iff_eq.mp heq⟩)
      rw [mergedMembers, keepLast, merged_eq_self h.1, mergedMembers_eq_self hnodup.2 h.2, hnone]
      rfl

end

end Json

end Storyline
