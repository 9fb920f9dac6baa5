import Mathlib.Data.List.Perm.Basic
import Storyline.Proofs.Json.Rereading

/-!
# Members in another order, and further ones

An object is loosened by giving its members in another order and adding some that are
not among given names.  The fields of those names are the same, with their tag and
without, and with one of them swapped for another value the other fields are.
-/

namespace Storyline

namespace Json

variable {K : String → Json → Json → Prop} {names : List String} {members members' : Members}

/-! ## Loosened objects -/

/-- The members are given in any order, with others whose names are not listed. -/
def Loosened (names : List String) (j j' : Json) : Prop :=
  ∃ members members' extra, j = object members ∧ j' = object members' ∧
    members'.Perm (members ++ extra) ∧ ∀ m ∈ extra, m.1 ∉ names

theorem Loosened.refl (names : List String) (members : Members) :
    Loosened names (object members) (object members) :=
  ⟨members, members, [], rfl, rfl, by simp, by simp⟩

theorem Loosened.mono {names' : List String} {j j' : Json} (h : Loosened names j j')
    (hsub : names' ⊆ names) : Loosened names' j j' := by
  obtain ⟨members, members', extra, rfl, rfl, hperm, hextra⟩ := h
  exact ⟨members, members', extra, rfl, rfl, hperm, fun m hm hname ↦ hextra m hm (hsub hname)⟩

theorem Loosened.filter {j j' : Json} (h : Loosened names j j') (p : String → Bool) :
    ∃ members members', j = object members ∧ j' = object members' ∧
      Loosened names (object (members.filter fun m ↦ p m.1)) (object (members'.filter fun m ↦ p m.1)) := by
  obtain ⟨members, members', extra, rfl, rfl, hperm, hextra⟩ := h
  refine ⟨members, members', rfl, rfl, _, _, extra.filter fun m ↦ p m.1, rfl, rfl, ?_, ?_⟩
  · rw [← List.filter_append]
    exact hperm.filter _
  · exact fun m hm ↦ hextra m (List.mem_of_mem_filter hm)

theorem count_of_perm {extra : Members} (hperm : members'.Perm (members ++ extra)) {name : String}
    (hextra : ∀ m ∈ extra, m.1 ≠ name) : count name members' = count name members := by
  have hnone : extra.countP (fun m ↦ m.1 == name) = 0 :=
    List.countP_eq_zero.mpr fun m hm ↦ by simpa using hextra m hm
  rw [count, hperm.countP_eq, List.countP_append, hnone]
  rfl

theorem lookup_eq_some_of_count {name : String} {v : Json} (h : count name members ≤ 1)
    (hv : (name, v) ∈ members) : members.lookup name = some v := by
  induction members with
  | nil => exact absurd hv (by simp)
  | cons m members ih =>
      obtain ⟨first, w⟩ := m
      rw [count, List.countP_cons] at h
      rw [List.lookup_cons]
      by_cases heq : first = name
      · subst heq
        simp only [beq_self_eq_true, if_true] at h ⊢
        rcases List.mem_cons.mp hv with hv | hv
        · rw [(Prod.mk.inj hv).2]
        · have hpos : 0 < members.countP fun m ↦ m.1 == first :=
            List.countP_pos_iff.mpr ⟨_, hv, by simp⟩
          omega
      · have hne : (name == first) = false := beq_eq_false_iff_ne.mpr (Ne.symm heq)
        rw [hne]
        rcases List.mem_cons.mp hv with hv | hv
        · exact absurd (Prod.mk.inj hv).1.symm heq
        · exact ih (Nat.le_trans (Nat.le_add_right _ _) h) hv

theorem lookup_of_perm {extra : Members} (hperm : members'.Perm (members ++ extra)) {name : String}
    (hextra : ∀ m ∈ extra, m.1 ≠ name) (h : count name members ≤ 1) :
    members'.lookup name = members.lookup name := by
  have h' : count name members' ≤ 1 := Nat.le_trans (Nat.le_of_eq (count_of_perm hperm hextra)) h
  cases hlookup : members.lookup name with
  | some v =>
      exact lookup_eq_some_of_count h'
        (hperm.mem_iff.mpr (List.mem_append_left _ (mem_of_lookup hlookup)))
  | none =>
      refine List.lookup_eq_none_iff.mpr fun m hm ↦ ?_
      rcases List.mem_append.mp (hperm.mem_iff.mp hm) with hm | hm
      · exact List.lookup_eq_none_iff.mp hlookup m hm
      · exact bne_iff_ne.mpr (hextra m hm).symm

/-- Whoever asks only for the named fields is told the same of objects that give them
alike. -/
theorem fieldsOf_congr (hcount : ∀ name ∈ names, count name members' = count name members)
    (hlookup : (∀ name ∈ names, count name members ≤ 1) →
      ∀ name ∈ names, members'.lookup name = members.lookup name)
    {α : Type} {f : Record → Option α}
    (hf : ∀ {r r' : Record}, (∀ name ∈ names, r name = r' name) → f r = f r') :
    (fieldsOf names members' >>= f) = (fieldsOf names members >>= f) := by
  by_cases hone : ∀ name ∈ names, count name members ≤ 1
  · rw [fieldsOf_eq_some_iff.mpr ⟨hone, fun _ ↦ rfl⟩,
      fieldsOf_eq_some_iff.mpr ⟨fun name hname ↦ hcount name hname ▸ hone name hname, fun _ ↦ rfl⟩]
    exact hf fun _ hname ↦ by rw [hlookup hone _ hname]
  · have hnone : ∀ {ms : Members}, (¬∀ name ∈ names, count name ms ≤ 1) → fieldsOf names ms = none :=
      fun h ↦ Option.eq_none_iff_forall_ne_some.mpr fun r hr ↦ h (fieldsOf_eq_some_iff.mp hr).1
    rw [hnone hone, hnone fun h ↦ hone fun name hname ↦ hcount name hname ▸ h name hname]

theorem fieldsOf_perm {extra : Members} (hperm : members'.Perm (members ++ extra))
    (hextra : ∀ m ∈ extra, m.1 ∉ names) {α : Type} {f : Record → Option α}
    (hf : ∀ {r r' : Record}, (∀ name ∈ names, r name = r' name) → f r = f r') :
    (fieldsOf names members' >>= f) = (fieldsOf names members >>= f) :=
  have hne : ∀ name ∈ names, ∀ m ∈ extra, m.1 ≠ name := fun _ hname m hm h ↦ hextra m hm (h ▸ hname)
  fieldsOf_congr (fun name hname ↦ count_of_perm hperm (hne name hname))
    (fun hone name hname ↦ lookup_of_perm hperm (hne name hname) (hone name hname)) hf

theorem sameRecord_of_perm {extra : Members} (hperm : members'.Perm (members ++ extra))
    (hextra : ∀ m ∈ extra, m.1 ∉ names) (hK : ∀ name j, K name j j) :
    SameRecord K names (object members) (object members') := by
  intro r hr
  have hne : ∀ name ∈ names, ∀ m ∈ extra, m.1 ≠ name := fun name hname m hm h ↦ hextra m hm (h ▸ hname)
  obtain ⟨hcount, hslot⟩ := fieldsOf_eq_some_iff.mp hr
  refine ⟨_, fieldsOf_eq_some_iff.mpr ⟨fun name hname ↦ ?_, fun name ↦ rfl⟩, fun name hname ↦ ?_⟩
  · exact Nat.le_trans (Nat.le_of_eq (count_of_perm hperm (hne name hname))) (hcount name hname)
  · rw [hslot name, lookup_of_perm hperm (hne name hname) (hcount name hname)]
    cases members.lookup name with
    | none => trivial
    | some v => exact hK name v

theorem Loosened.sameRecord {j j' : Json} (h : Loosened names j j') (hK : ∀ name j, K name j j) :
    SameRecord K names j j' := by
  obtain ⟨members, members', extra, rfl, rfl, hperm, hextra⟩ := h
  exact sameRecord_of_perm hperm hextra hK

theorem Loosened.tagged {style : TagStyle} {tag : String} {variants : List String} {j j' rest : Json}
    {t : Tag} (h : Loosened names j j') (htag : tag ∈ names)
    (hj : tagged style tag variants j = some (t, rest)) :
    ∃ rest', tagged style tag variants j' = some (t, rest') ∧ Loosened names rest rest' := by
  obtain ⟨members, members', extra, rfl, rfl, hperm, hextra⟩ := h
  unfold Json.tagged at hj
  dsimp only at hj
  split at hj
  next name value hfilter =>
    obtain ⟨t, ht, hj⟩ := Option.bind_eq_some_iff.mp hj
    obtain ⟨rfl, rfl⟩ := Prod.mk.inj (Option.some.inj hj)
    have hnone : extra.filter (fun m ↦ m.1 == tag) = [] :=
      List.filter_eq_nil_iff.mpr fun m hm hname ↦ hextra m hm (beq_iff_eq.mp hname ▸ htag)
    have hperm' : (members'.filter fun m ↦ m.1 == tag).Perm [(name, value)] := by
      have := hperm.filter fun m ↦ m.1 == tag
      rwa [List.filter_append, hnone, hfilter, List.append_nil] at this
    refine ⟨object (members'.filter fun m ↦ m.1 != tag), ?_, ?_⟩
    · unfold Json.tagged
      dsimp only
      rw [List.perm_singleton.mp hperm']
      exact Option.bind_eq_some_iff.mpr ⟨t, ht, rfl⟩
    · refine ⟨_, _, extra.filter fun m ↦ m.1 != tag, rfl, rfl, ?_, fun m hm ↦ ?_⟩
      · rw [← List.filter_append]
        exact hperm.filter _
      · exact hextra m (List.mem_of_mem_filter hm)
  next => exact nomatch hj

/-! ## Swapped fields -/

/-- One field of a record has another value: the member of an object, or the item of an
array at its place. -/
inductive Swapped (names : List String) (name : String) (v v' : Json) : Json → Json → Prop
  | member (before after : Members) : Swapped names name v v'
    (object (before ++ (name, v) :: after)) (object (before ++ (name, v') :: after))
  | place (before after : List Json) (h : names[before.length]? = some name) : Swapped names name v v'
    (array (before ++ v :: after)) (array (before ++ v' :: after))

/-- One item of a list is another, as related. -/
def Among (R : Json → Json → Prop) (v v' : Json) : Prop :=
  ∃ before j j' after, v = array (before ++ j :: after) ∧ v' = array (before ++ j' :: after) ∧ R j j'

theorem Among.forall₂ {R : Json → Json → Prop} {v v' : Json} (h : Among R v v') :
    ∃ items items', v = array items ∧ v' = array items' ∧
      List.Forall₂ (fun j j' ↦ j = j' ∨ R j j') items items' := by
  obtain ⟨before, j, j', after, rfl, rfl, hj⟩ := h
  refine ⟨_, _, rfl, rfl, List.rel_append ?_ (.cons (.inr hj) ?_)⟩
  · exact List.forall₂_same.mpr fun _ _ ↦ .inl rfl
  · exact List.forall₂_same.mpr fun _ _ ↦ .inl rfl

variable {name : String} {v v' : Json}

theorem matches_refl (hK : ∀ name j, K name j j) (name : String) (slot : Slot) :
    slot.Matches (K name) slot := by
  cases slot with
  | given v => exact hK name v
  | omitted | cut => trivial

/-- Only the slot of the swapped value changes. -/
theorem matches_lookup (hv : K name v v') (hK : ∀ name j, K name j j) (before after : Members)
    (missing : Slot) (n : String) :
    Slot.Matches (K n) (((before ++ (name, v) :: after).lookup n).elim missing .given)
      (((before ++ (name, v') :: after).lookup n).elim missing .given) := by
  rw [List.lookup_append, List.lookup_append, List.lookup_cons, List.lookup_cons]
  cases before.lookup n with
  | some w => exact matches_refl hK n _
  | none =>
      by_cases hn : n = name
      · subst hn
        simpa using show Slot.Matches (K n) (.given v) (.given v') from hv
      · have hne : (n == name) = false := beq_eq_false_iff_ne.mpr hn
        rw [hne]
        exact matches_refl hK n _

theorem zip_swapped {before : List Json} (after : List Json) (h : names[before.length]? = some name) :
    ∃ front back, ∀ w, names.zip (before ++ w :: after) = front ++ (name, w) :: back := by
  induction before generalizing names with
  | nil =>
      cases names with
      | nil => exact nomatch h
      | cons first names =>
          obtain rfl := Option.some.inj h
          exact ⟨[], names.zip after, fun w ↦ rfl⟩
  | cons item before ih =>
      cases names with
      | nil => exact nomatch h
      | cons first names =>
          have hplace : names[before.length]? = some name := by simpa using h
          obtain ⟨front, back, hzip⟩ := ih hplace
          exact ⟨(first, item) :: front, back, fun w ↦ congrArg _ (hzip w)⟩

theorem Swapped.sameRecord {j j' : Json} (h : Swapped names name v v' j j') (hv : K name v v')
    (hK : ∀ name j, K name j j) : SameRecord K names j j' := by
  intro r hr
  cases h with
  | member before after =>
      obtain ⟨hcount, hslot⟩ := fieldsOf_eq_some_iff.mp hr
      refine ⟨_, fieldsOf_eq_some_iff.mpr ⟨fun n hn ↦ ?_, fun n ↦ rfl⟩, fun n _ ↦ ?_⟩
      · refine Nat.le_trans (Nat.le_of_eq ?_) (hcount n hn)
        simp only [count, List.countP_append, List.countP_cons]
      · rw [hslot n]
        exact matches_lookup hv hK before after .omitted n
  | place before after hplace =>
      obtain ⟨hlength, hslot⟩ := itemsOf_eq_some_iff.mp hr
      refine ⟨_, itemsOf_eq_some_iff.mpr ⟨?_, fun n ↦ rfl⟩, fun n _ ↦ ?_⟩
      · rwa [List.length_append, List.length_cons, ← List.length_cons (a := v), ← List.length_append]
      · obtain ⟨front, back, hzip⟩ := zip_swapped after hplace
        rw [hslot n, hzip, hzip]
        exact matches_lookup hv hK front back .cut n

theorem lookup_swapped {before after : Members} (w : Json)
    (h : count name (before ++ (name, v) :: after) ≤ 1) (n : String) :
    (before ++ (name, w) :: after).lookup n =
      if n = name then some w else (before ++ (name, v) :: after).lookup n := by
  split
  next hn =>
    subst hn
    refine lookup_eq_some_of_count (Nat.le_trans (Nat.le_of_eq ?_) h) (by simp)
    simp only [count, List.countP_append, List.countP_cons]
  next hn =>
    have hne : (n == name) = false := beq_eq_false_iff_ne.mpr hn
    simp only [List.lookup_append, List.lookup_cons, hne]

theorem count_zip_le (name : String) (h : names.Nodup) (items : List Json) : count name (names.zip items) ≤ 1 := by
  refine Nat.le_trans ?_ (List.nodup_iff_count.mp h name)
  clear h
  induction names generalizing items with
  | nil => exact Nat.zero_le _
  | cons first names ih =>
      cases items with
      | nil => exact Nat.zero_le _
      | cons item items =>
          simp only [count, List.zip_cons_cons, List.countP_cons, List.count_cons]
          exact Nat.add_le_add_right (ih items) _

/-- What a record holds at a swapped field, and what it holds instead. -/
theorem Swapped.slot {j j' : Json} (h : Swapped names name v v' j j') (hname : name ∈ names)
    (hnodup : names.Nodup) {r : Record} (hr : record names j = some r) :
    r name = .given v ∧ record names j' = some fun n ↦ if n = name then .given v' else r n := by
  have hslot : ∀ {before after : Members} {missing : Slot},
      count name (before ++ (name, v) :: after) ≤ 1 →
      (∀ n, r n = ((before ++ (name, v) :: after).lookup n).elim missing .given) →
      r name = .given v ∧ ∀ n, (if n = name then .given v' else r n) =
        ((before ++ (name, v') :: after).lookup n).elim missing .given := by
    intro before after missing hcount hr
    refine ⟨by rw [hr, lookup_swapped v hcount, if_pos rfl]; rfl, fun n ↦ ?_⟩
    rw [hr, lookup_swapped v' hcount]
    split <;> rfl
  cases h with
  | member before after =>
      obtain ⟨hcount, hr⟩ := fieldsOf_eq_some_iff.mp hr
      obtain ⟨hgiven, hr'⟩ := hslot (hcount name hname) hr
      refine ⟨hgiven, fieldsOf_eq_some_iff.mpr ⟨fun n hn ↦ Nat.le_trans (Nat.le_of_eq ?_) (hcount n hn), hr'⟩⟩
      simp only [count, List.countP_append, List.countP_cons]
  | place before after hplace =>
      obtain ⟨hlength, hr⟩ := itemsOf_eq_some_iff.mp hr
      obtain ⟨front, back, hzip⟩ := zip_swapped after hplace
      have hcount := count_zip_le name hnodup (before ++ v :: after)
      rw [hzip] at hcount hr
      obtain ⟨hgiven, hr'⟩ := hslot hcount hr
      refine ⟨hgiven, itemsOf_eq_some_iff.mpr ⟨by simpa using hlength, fun n ↦ ?_⟩⟩
      rw [hzip]
      exact hr' n

theorem Swapped.split (h : Swapped names name v v' (object members) (object members')) :
    ∃ before after, members = before ++ (name, v) :: after ∧ members' = before ++ (name, v') :: after := by
  generalize hj : object members = j, hj' : object members' = j' at h
  cases h with
  | member before after => exact ⟨before, after, Json.object.inj hj, Json.object.inj hj'⟩
  | place => exact nomatch hj

theorem Swapped.object {j' : Json} (h : Swapped names name v v' (object members) j') :
    ∃ members', j' = .object members' := by
  generalize hj : Json.object members = j at h
  cases h with
  | member => exact ⟨_, rfl⟩
  | place => exact nomatch hj

theorem Swapped.filter_of_pos (h : Swapped names name v v' (.object members) (.object members'))
    {p : String → Bool} (hp : p name = true) :
    Swapped names name v v' (.object (members.filter fun m ↦ p m.1))
      (.object (members'.filter fun m ↦ p m.1)) := by
  obtain ⟨before, after, rfl, rfl⟩ := h.split
  simp only [List.filter_append, List.filter_cons, hp, if_true]
  exact .member _ _

theorem Swapped.filter_of_neg (h : Swapped names name v v' (.object members) (.object members'))
    {p : String → Bool} (hp : p name = false) :
    (members'.filter fun m ↦ p m.1) = members.filter fun m ↦ p m.1 := by
  obtain ⟨before, after, rfl, rfl⟩ := h.split
  simp [hp]

/-- The tag itself is swapped, and says something else. -/
theorem Swapped.tag {style : TagStyle} {tag : String} {variants : List String} {rest : Json}
    {t t' : Tag} (h : Swapped names tag v v' (.object members) (.object members'))
    (hj : Json.tagged style tag variants (.object members) = some (t, rest))
    (hv : asTag style variants v' = some t') :
    Json.tagged style tag variants (.object members') = some (t', rest) := by
  obtain ⟨before, after, rfl, rfl⟩ := h.split
  unfold Json.tagged at hj ⊢
  simp only [List.filter_append, List.filter_cons, beq_self_eq_true, bne_self_eq_false, if_true,
    Bool.false_eq_true, if_false] at hj ⊢
  split at hj
  next first value hfilter =>
    obtain ⟨hbefore, hafter⟩ : before.filter (fun m ↦ m.1 == tag) = [] ∧
        after.filter (fun m ↦ m.1 == tag) = [] := by
      have hlength := congrArg List.length hfilter
      simp only [List.length_append, List.length_cons, List.length_nil] at hlength
      constructor <;> apply List.eq_nil_of_length_eq_zero <;> omega
    obtain ⟨_, _, hj⟩ := Option.bind_eq_some_iff.mp hj
    obtain ⟨-, rfl⟩ := Prod.mk.inj (Option.some.inj hj)
    rw [hbefore, hafter]
    exact Option.bind_eq_some_iff.mpr ⟨t', hv, rfl⟩
  next => exact nomatch hj

theorem Swapped.tagged {style : TagStyle} {tag : String} {variants : List String} {j j' rest : Json}
    {t : Tag} (h : Swapped (tag :: names) name v v' j j') (hname : name ≠ tag)
    (hj : tagged style tag variants j = some (t, rest)) :
    ∃ rest', tagged style tag variants j' = some (t, rest') ∧ Swapped names name v v' rest rest' := by
  cases h with
  | member before after =>
      have hne : (name == tag) = false := beq_eq_false_iff_ne.mpr hname
      have hother : (name != tag) = true := bne_iff_ne.mpr hname
      unfold Json.tagged at hj ⊢
      simp only [List.filter_append, List.filter_cons, hne, hother, Bool.false_eq_true, if_false,
        if_true] at hj ⊢
      split at hj
      next =>
        obtain ⟨t, ht, hj⟩ := Option.bind_eq_some_iff.mp hj
        obtain ⟨rfl, rfl⟩ := Prod.mk.inj (Option.some.inj hj)
        exact ⟨_, Option.bind_eq_some_iff.mpr ⟨t, ht, rfl⟩, .member _ _⟩
      next => exact nomatch hj
  | place before after hplace =>
      cases before with
      | nil => exact absurd (Option.some.inj hplace).symm hname
      | cons first before =>
          obtain ⟨t, ht, hj⟩ := Option.bind_eq_some_iff.mp hj
          obtain ⟨rfl, rfl⟩ := Prod.mk.inj (Option.some.inj hj)
          refine ⟨_, Option.bind_eq_some_iff.mpr ⟨t, ht, rfl⟩, .place before after ?_⟩
          simpa using hplace

theorem Swapped.noFields {j j' : Json} (h : Swapped names name v v' j j')
    (hj : noFields j = true) : Json.noFields j' = true := by
  cases h with
  | member => rfl
  | place before after =>
      cases before <;> exact nomatch hj

theorem Loosened.noFields {j j' : Json} (h : Loosened names j j') : Json.noFields j' = true := by
  obtain ⟨members, members', extra, -, rfl, -⟩ := h
  rfl

/-! ## Varied records -/

/-- An object is loosened, or one field has another value, as the relation for its name
allows. -/
inductive Varied (P : String → Json → Json → Prop) (names : List String) (j j' : Json) : Prop
  | loosened (h : Loosened names j j')
  | swapped {name : String} {v v' : Json} (hv : P name v v') (h : Swapped names name v v' j j')

namespace Varied

variable {P : String → Json → Json → Prop} {j j' : Json}

theorem object (h : Varied P names (object members) j') : ∃ members', j' = .object members' := by
  cases h with
  | loosened h =>
      obtain ⟨_, members', _, -, rfl, -⟩ := h
      exact ⟨members', rfl⟩
  | swapped hv h => exact h.object

/-- Of an object, fewer fields are varied. -/
theorem mono {names' : List String} (h : Varied P names (.object members) j') (hsub : names' ⊆ names) :
    Varied P names' (.object members) j' := by
  cases h with
  | loosened h => exact .loosened (h.mono hsub)
  | swapped hv h =>
      obtain ⟨members', rfl⟩ := h.object
      obtain ⟨before, after, rfl, rfl⟩ := h.split
      exact .swapped hv (.member before after)

theorem filter (h : Varied P names (.object members) (.object members')) (p : String → Bool) :
    Varied P names (.object (members.filter fun m ↦ p m.1)) (.object (members'.filter fun m ↦ p m.1)) := by
  cases h with
  | loosened h =>
      obtain ⟨ms, ms', hms, hms', h⟩ := h.filter p
      obtain rfl := Json.object.inj hms
      obtain rfl := Json.object.inj hms'
      exact .loosened h
  | @swapped name _ _ hv h =>
      cases hp : p name with
      | true => exact .swapped hv (h.filter_of_pos hp)
      | false => exact h.filter_of_neg hp ▸ .loosened (.refl names _)

theorem tagged {style : TagStyle} {tag : String} {variants : List String} {rest : Json} {t : Tag}
    (h : Varied P (tag :: names) j j') (htag : ∀ v v', ¬P tag v v')
    (hj : tagged style tag variants j = some (t, rest)) :
    ∃ rest', Json.tagged style tag variants j' = some (t, rest') ∧ Varied P names rest rest' := by
  cases h with
  | loosened h =>
      obtain ⟨rest', hrest', h⟩ := h.tagged List.mem_cons_self hj
      exact ⟨rest', hrest', .loosened (h.mono (List.subset_cons_self _ _))⟩
  | @swapped name v v' hv h =>
      obtain ⟨rest', hrest', h⟩ := h.tagged (fun hname ↦ htag v v' (hname ▸ hv)) hj
      exact ⟨rest', hrest', .swapped hv h⟩

theorem noFields (h : Varied P names j j') (hj : noFields j = true) : Json.noFields j' = true := by
  cases h with
  | loosened h => exact h.noFields
  | swapped _ h => exact h.noFields hj

theorem sameRecord (h : Varied P names j j') :
    SameRecord (fun name v v' ↦ v = v' ∨ P name v v') names j j' := by
  cases h with
  | loosened h => exact h.sameRecord fun _ _ ↦ .inl rfl
  | swapped hv h => exact h.sameRecord (.inr hv) fun _ _ ↦ .inl rfl

end Varied

end Json

end Storyline
