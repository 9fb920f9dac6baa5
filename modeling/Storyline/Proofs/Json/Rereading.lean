import Mathlib.Data.List.Forall2
import Storyline.Json.Record

/-!
# What is read again from another value

Two values may differ in what no reader looks at.  A relation between values is faithful
if it leaves scalars and the shape of brackets alone.  What is read of a value by its
scalars, its items and its fields is then read of every value that it is related to.
-/

namespace Storyline

variable {α β γ : Type}

theorem mapM_eq_some_iff {f : α → Option β} {as : List α} {bs : List β} :
    as.mapM f = some bs ↔ List.Forall₂ (fun a b ↦ f a = some b) as bs := by
  induction as generalizing bs with
  | nil => simp [eq_comm]
  | cons a as ih =>
      rw [List.mapM_cons]
      cases hf : f a with
      | none =>
          refine ⟨fun h ↦ (nomatch h), fun h ↦ ?_⟩
          cases h with
          | cons ha _ => simp [hf] at ha
      | some b =>
          cases has : as.mapM f with
          | none =>
              refine ⟨fun h ↦ (nomatch h), fun h ↦ ?_⟩
              cases h with
              | cons _ hrest => simp [ih.mpr hrest] at has
          | some cs =>
              have hcs := ih.mp has
              constructor
              · intro h
                obtain rfl : b :: cs = bs := by simpa using h
                exact .cons hf hcs
              · intro h
                cases h with
                | @cons _ c _ ds hc hrest =>
                    obtain rfl : b = c := by simpa [hf] using hc
                    obtain rfl : cs = ds := by simpa [has] using ih.mpr hrest
                    rfl

namespace Json

/-- What the first reader reads, the second reads of every related value. -/
def Keeps (R : Json → Json → Prop) (read read' : Json → Option α) : Prop :=
  ∀ ⦃j j' : Json⦄, R j j' → ∀ ⦃a : α⦄, read j = some a → read' j' = some a

def isScalar : Json → Bool
  | array _ | object _ => false
  | _ => true

structure Faithful (R : Json → Json → Prop) : Prop where
  scalar : ∀ {j j'}, R j j' → j.isScalar = true → j' = j
  array : ∀ {items j'}, R (array items) j' → ∃ items', j' = array items' ∧ List.Forall₂ R items items'
  object : ∀ {members j'}, R (object members) j' → ∃ members', j' = object members'
  choice : Keeps R asChoice asChoice

theorem faithful_eq : Faithful Eq where
  scalar h _ := h.symm
  array h := ⟨_, h.symm, List.forall₂_refl _⟩
  object h := ⟨_, h.symm⟩
  choice := fun _ _ h _ ha ↦ h ▸ ha

variable {R : Json → Json → Prop} {read read' : Json → Option α}

theorem Keeps.mapM (h : Keeps R read read') {items items' : List Json} {as : List α}
    (hitems : List.Forall₂ R items items') (has : items.mapM read = some as) :
    items'.mapM read' = some as := by
  rw [mapM_eq_some_iff] at has ⊢
  induction hitems generalizing as with
  | nil =>
      cases has
      exact .nil
  | cons hitem _ ih =>
      cases has with
      | cons ha hrest => exact .cons (h hitem ha) (ih hrest)

theorem Keeps.nullable (h : Keeps R read read') (hnull : ∀ {j j'}, R j j' → (j' = null ↔ j = null)) :
    Keeps R (nullable read) (nullable read') := by
  intro j j' hj o ho
  by_cases hne : j = null
  · obtain rfl := hne
    obtain rfl := (hnull hj).mpr rfl
    exact ho
  · have hne' : j' ≠ null := fun h ↦ hne ((hnull hj).mp h)
    have hsome : ∀ {f : Json → Option α} {j : Json}, j ≠ null → Json.nullable f j = some <$> f j := by
      rintro f (_ | _ | _ | _ | _ | _) hne <;> first | rfl | exact absurd rfl hne
    rw [hsome hne] at ho
    rw [hsome hne']
    obtain ⟨a, ha, rfl⟩ := Option.map_eq_some_iff.mp ho
    exact Option.map_eq_some_iff.mpr ⟨a, h hj ha, rfl⟩

namespace Faithful

theorem null_iff (hR : Faithful R) {j j' : Json} (h : R j j') : j' = null ↔ j = null := by
  constructor
  · rintro rfl
    cases j with
    | array items =>
        obtain ⟨items', h, -⟩ := hR.array h
        exact nomatch h
    | object members =>
        obtain ⟨members', h⟩ := hR.object h
        exact nomatch h
    | _ => exact (hR.scalar h rfl).symm
  · rintro rfl
    exact hR.scalar h rfl

theorem asBool (hR : Faithful R) : Keeps R asBool asBool := by
  intro j j' h b hb
  cases j with
  | bool b => exact hR.scalar h rfl ▸ hb
  | _ => exact nomatch hb

theorem asString (hR : Faithful R) : Keeps R asString asString := by
  intro j j' h s hs
  cases j with
  | string s => exact hR.scalar h rfl ▸ hs
  | _ => exact nomatch hs

theorem asFloat (hR : Faithful R) : Keeps R asFloat asFloat := by
  intro j j' h x hx
  cases j with
  | number n => exact hR.scalar h rfl ▸ hx
  | _ => exact nomatch hx

theorem asWord (hR : Faithful R) : Keeps R asWord asWord := by
  intro j j' h n hn
  cases j with
  | number n => exact hR.scalar h rfl ▸ hn
  | _ => exact nomatch hn

theorem asTag (hR : Faithful R) (style : TagStyle) (variants : List String) :
    Keeps R (asTag style variants) (asTag style variants) := by
  intro j j' h t ht
  cases j with
  | string s => exact hR.scalar h rfl ▸ ht
  | number n => exact hR.scalar h rfl ▸ ht
  | _ => exact nomatch ht

theorem asList (hR : Faithful R) (h : Keeps R read read') : Keeps R (asList read) (asList read') := by
  intro j j' hj as has
  cases j with
  | array items =>
      obtain ⟨items', rfl, hitems⟩ := hR.array hj
      exact h.mapM hitems has
  | _ => exact nomatch has

theorem nullable (hR : Faithful R) (h : Keeps R read read') :
    Keeps R (nullable read) (nullable read') :=
  h.nullable hR.null_iff

end Faithful

theorem Keeps.bind {f : α → Option β} (h : Keeps R read read') :
    Keeps R (fun j ↦ read j >>= f) fun j ↦ read' j >>= f := by
  intro j j' hj b hb
  obtain ⟨a, ha, hb⟩ := Option.bind_eq_some_iff.mp hb
  exact Option.bind_eq_some_iff.mpr ⟨a, h hj ha, hb⟩

end Json

/-! ## Fields -/

def Slot.Matches (R : Json → Json → Prop) : Slot → Slot → Prop
  | given value, given value' => R value value'
  | omitted, omitted => True
  | cut, cut => True
  | _, _ => False

namespace Slot.Matches

variable {R : Json → Json → Prop} {read read' : Json → Option α} {slot slot' : Slot} {a default : α}

theorem required (h : slot.Matches R slot') (hread : Json.Keeps R read read')
    (ha : slot.required read = some a) : slot'.required read' = some a :=
  match slot, slot', h with
  | .given _, .given _, h => hread h ha

theorem withDefault (h : slot.Matches R slot') (hread : Json.Keeps R read read')
    (ha : slot.withDefault default read = some a) : slot'.withDefault default read' = some a :=
  match slot, slot', h with
  | .given _, .given _, h => hread h ha
  | .omitted, .omitted, _ | .cut, .cut, _ => ha

theorem optional {o : Option α} (h : slot.Matches R slot')
    (hnull : ∀ {j j' : Json}, R j j' → (j' = .null ↔ j = .null)) (hread : Json.Keeps R read read')
    (ho : slot.optional read = some o) : slot'.optional read' = some o :=
  match slot, slot', h with
  | .given _, .given _, h => hread.nullable hnull h ho
  | .omitted, .omitted, _ => ho

end Slot.Matches

namespace Record

variable {K : String → Json → Json → Prop} {names : List String} {read read' : Json → Option α}

/-- What the first reader reads of the named fields, the second reads of all that match,
each by the relation for its name. -/
def Keeps (K : String → Json → Json → Prop) (names : List String) (f f' : Record → Option α) :
    Prop :=
  ∀ ⦃r r' : Record⦄, (∀ name ∈ names, (r name).Matches (K name) (r' name)) →
    ∀ ⦃a : α⦄, f r = some a → f' r' = some a

theorem keeps_required {name : String} (hname : name ∈ names) (h : Json.Keeps (K name) read read') :
    Keeps K names (fun r ↦ (r name).required read) fun r ↦ (r name).required read' :=
  fun _ _ hr _ ha ↦ (hr name hname).required h ha

theorem keeps_withDefault {name : String} {default : α} (hname : name ∈ names)
    (h : Json.Keeps (K name) read read') :
    Keeps K names (fun r ↦ (r name).withDefault default read)
      fun r ↦ (r name).withDefault default read' :=
  fun _ _ hr _ ha ↦ (hr name hname).withDefault h ha

theorem keeps_optional {name : String} (hname : name ∈ names)
    (hnull : ∀ {j j' : Json}, K name j j' → (j' = .null ↔ j = .null))
    (h : Json.Keeps (K name) read read') :
    Keeps K names (fun r ↦ (r name).optional read) fun r ↦ (r name).optional read' :=
  fun _ _ hr _ ha ↦ (hr name hname).optional hnull h ha

theorem keeps_pure (a : α) : Keeps K names (fun _ ↦ some a) fun _ ↦ some a :=
  fun _ _ _ _ ha ↦ ha

theorem Keeps.bind {f f' : Record → Option α} {g g' : Record → α → Option β}
    (hf : Keeps K names f f') (hg : ∀ a, Keeps K names (fun r ↦ g r a) fun r ↦ g' r a) :
    Keeps K names (fun r ↦ f r >>= g r) fun r ↦ f' r >>= g' r := by
  intro r r' hr b hb
  obtain ⟨a, ha, hb⟩ := Option.bind_eq_some_iff.mp hb
  exact Option.bind_eq_some_iff.mpr ⟨a, hf hr ha, hg a hr hb⟩

theorem Keeps.map {f f' : Record → Option α} {g : α → β} (hf : Keeps K names f f') :
    Keeps K names (fun r ↦ g <$> f r) fun r ↦ g <$> f' r := by
  intro r r' hr b hb
  obtain ⟨a, ha, rfl⟩ := Option.map_eq_some_iff.mp hb
  exact Option.map_eq_some_iff.mpr ⟨a, hf hr ha, rfl⟩

end Record

namespace Json

variable {K : String → Json → Json → Prop}

theorem fieldsOf_eq_some_iff {names : List String} {members : Members} {r : Record} :
    fieldsOf names members = some r ↔ (∀ name ∈ names, count name members ≤ 1) ∧
      ∀ name, r name = (members.lookup name).elim .omitted .given := by
  unfold fieldsOf
  split
  next hall =>
    have hcount : ∀ name ∈ names, count name members ≤ 1 := by simpa using hall
    rw [Option.some.injEq]
    constructor
    · rintro rfl
      refine ⟨hcount, fun name ↦ ?_⟩
      beta_reduce
      cases members.lookup name <;> rfl
    · rintro ⟨-, h⟩
      funext name
      rw [h name]
      cases members.lookup name <;> rfl
  next hall =>
    refine ⟨fun h ↦ absurd h.symm (Option.some_ne_none r), fun h ↦ absurd h.1 ?_⟩
    simpa using hall

theorem itemsOf_eq_some_iff {names : List String} {items : List Json} {r : Record} :
    itemsOf names items = some r ↔ items.length ≤ names.length ∧
      ∀ name, r name = ((names.zip items).lookup name).elim .cut .given := by
  unfold itemsOf
  split
  next hlength =>
    rw [Option.some.injEq]
    constructor
    · rintro rfl
      refine ⟨hlength, fun name ↦ ?_⟩
      beta_reduce
      cases (names.zip items).lookup name <;> rfl
    · rintro ⟨-, h⟩
      funext name
      rw [h name]
      cases (names.zip items).lookup name <;> rfl
  next hlength =>
    exact ⟨fun h ↦ absurd h.symm (Option.some_ne_none r), fun h ↦ absurd h.1 hlength⟩

/-- The named fields of a value match those of the other, each by the relation for its
name. -/
def SameRecord (K : String → Json → Json → Prop) (names : List String) (j j' : Json) : Prop :=
  ∀ ⦃r : Record⦄, record names j = some r →
    ∃ r', record names j' = some r' ∧ ∀ name ∈ names, (r name).Matches (K name) (r' name)

theorem SameRecord.read {names : List String} {j j' : Json} (h : SameRecord K names j j')
    {f f' : Record → Option α} (hf : Record.Keeps K names f f') {a : α}
    (ha : (record names j >>= f) = some a) : (record names j' >>= f') = some a := by
  obtain ⟨r, hr, ha⟩ := Option.bind_eq_some_iff.mp ha
  obtain ⟨r', hr', hmatch⟩ := h hr
  exact Option.bind_eq_some_iff.mpr ⟨r', hr', hf hmatch ha⟩

theorem sameRecord_refl {names : List String} (hK : ∀ name j, K name j j) (j : Json) :
    SameRecord K names j j := by
  refine fun r hr ↦ ⟨r, hr, fun name _ ↦ ?_⟩
  cases r name with
  | given value => exact hK name value
  | omitted | cut => trivial

/-! ## Depths -/

theorem depth_lt_of_mem {items : List Json} {j : Json} (h : j ∈ items) : depth j < depth (.array items) := by
  have hle : depth j ≤ depthItems items := by
    induction items with
    | nil => simp at h
    | cons item items ih =>
        rcases List.mem_cons.mp h with rfl | h
        · exact Nat.le_max_left _ _
        · exact Nat.le_trans (ih h) (Nat.le_max_right _ _)
  exact Nat.lt_succ_of_le hle

theorem depth_lt_of_mem_members {members : Members} {m : String × Json} (h : m ∈ members) :
    depth m.2 < depth (.object members) := by
  have hle : depth m.2 ≤ depthMembers members := by
    induction members with
    | nil => simp at h
    | cons first members ih =>
        rcases List.mem_cons.mp h with rfl | h
        · exact Nat.le_max_left _ _
        · exact Nat.le_trans (ih h) (Nat.le_max_right _ _)
  exact Nat.lt_succ_of_le hle

theorem depth_object_le {members : Members} {n : Nat} (h : ∀ m ∈ members, depth m.2 ≤ n) :
    depth (.object members) ≤ n + 1 := by
  have hle : depthMembers members ≤ n := by
    induction members with
    | nil => exact Nat.zero_le _
    | cons m members ih =>
        exact Nat.max_le.mpr ⟨h m List.mem_cons_self,
          ih fun m' hm ↦ h m' (List.mem_cons_of_mem m hm)⟩
  exact Nat.succ_le_succ hle

theorem mem_of_lookup {name : String} {v : Json} {members : Members}
    (h : members.lookup name = some v) : (name, v) ∈ members := by
  induction members with
  | nil => simp at h
  | cons m members ih =>
      rw [List.lookup_cons] at h
      split at h
      next heq =>
        obtain rfl := Option.some.inj h
        exact beq_iff_eq.mp heq ▸ List.mem_cons_self
      next => exact List.mem_cons_of_mem _ (ih h)

theorem depth_lt_of_record {names : List String} {j v : Json} {r : Record} {name : String}
    (h : record names j = some r) (hv : r name = .given v) : depth v < depth j := by
  cases j with
  | object members =>
      rw [(fieldsOf_eq_some_iff.mp h).2 name] at hv
      cases hlookup : members.lookup name with
      | none => rw [hlookup] at hv; exact nomatch hv
      | some w =>
          rw [hlookup] at hv
          obtain rfl := Slot.given.inj hv
          exact depth_lt_of_mem_members (mem_of_lookup hlookup)
  | array items =>
      rw [(itemsOf_eq_some_iff.mp h).2 name] at hv
      cases hlookup : (names.zip items).lookup name with
      | none => rw [hlookup] at hv; exact nomatch hv
      | some w =>
          rw [hlookup] at hv
          obtain rfl := Slot.given.inj hv
          exact depth_lt_of_mem (List.of_mem_zip (mem_of_lookup hlookup)).2
  | _ => exact nomatch h

theorem depth_le_of_tagged {style : TagStyle} {tag : String} {variants : List String} {j rest : Json}
    {t : Tag} (h : tagged style tag variants j = some (t, rest)) :
    depth rest ≤ depth j ∧ 0 < depth j := by
  cases j with
  | object members =>
      refine ⟨?_, Nat.succ_pos _⟩
      unfold tagged at h
      dsimp only at h
      split at h
      next =>
        obtain ⟨t, -, h⟩ := Option.bind_eq_some_iff.mp h
        obtain ⟨-, rfl⟩ := Prod.mk.inj (Option.some.inj h)
        refine depth_object_le fun m hm ↦ ?_
        exact Nat.le_of_lt_succ (depth_lt_of_mem_members (List.mem_of_mem_filter hm))
      next => exact nomatch h
  | array items =>
      refine ⟨?_, Nat.succ_pos _⟩
      cases items with
      | nil => exact nomatch h
      | cons first items =>
          obtain ⟨t, -, h⟩ := Option.bind_eq_some_iff.mp h
          obtain ⟨-, rfl⟩ := Prod.mk.inj (Option.some.inj h)
          exact Nat.succ_le_succ (Nat.le_max_right _ _)
  | _ => exact nomatch h

/-- The relation at values that nest at most as deep as given. -/
theorem Faithful.within {R : Json → Json → Prop} (hR : Faithful R) (n : Nat) :
    Faithful fun j j' ↦ R j j' ∧ depth j' ≤ n where
  scalar h := hR.scalar h.1
  array h := by
    obtain ⟨items', rfl, hitems⟩ := hR.array h.1
    refine ⟨items', rfl, ?_⟩
    rw [List.forall₂_iff_get] at hitems ⊢
    refine ⟨hitems.1, fun i hi hi' ↦ ⟨hitems.2 i hi hi', ?_⟩⟩
    exact Nat.le_of_lt (Nat.lt_of_lt_of_le (depth_lt_of_mem (List.get_mem items' ⟨i, hi'⟩)) h.2)
  object h := hR.object h.1
  choice := fun _ _ h ↦ hR.choice h.1

theorem SameRecord.within {names : List String} {j j' : Json} (h : SameRecord K names j j') {n : Nat}
    (hn : depth j' ≤ n + 1) : SameRecord (fun name j j' ↦ K name j j' ∧ depth j' ≤ n) names j j' := by
  intro r hr
  obtain ⟨r', hr', hmatch⟩ := h hr
  refine ⟨r', hr', fun name hname ↦ ?_⟩
  have hslot := hmatch name hname
  have hdepth : ∀ v, r' name = .given v → depth v ≤ n := fun v hv ↦
    Nat.le_of_lt_succ (Nat.lt_of_lt_of_le (depth_lt_of_record hr' hv) hn)
  revert hslot hdepth
  generalize r name = slot, r' name = slot'
  intro hslot hdepth
  exact match slot, slot', hslot with
    | .given _, .given v, hslot => ⟨hslot, hdepth v rfl⟩
    | .omitted, .omitted, _ | .cut, .cut, _ => trivial

end Json

end Storyline
