import Storyline.Proofs.Json.Skipping
import Storyline.Proofs.Script.Addresses

/-!
# What a script is read off

A script is read straight from text, but it says no more than a value would: the value
of the text, but for its unknown members, which are only scanned.
-/

namespace Storyline

open Json

/-! ## Sketches -/

namespace Grammar

variable {α β : Type} {s t rest : Bytes}

/-- A value as a member of a script's object: what no script asks for is only scanned,
and may then be any value. -/
def Sketched (depth : Nat) (name : String) : Grammar Json := fun j s rest ↦
  if name ∈ Reader.scriptFields then Value depth j s rest else Scanned () s rest

/-- An object or an array whose unknown members are only scanned. -/
def Sketch (depth : Nat) : Grammar Json := fun j s rest ↦
  (∃ items, j = .array items ∧ Value depth j s rest) ∨
    ∃ members below t, j = .object members ∧ depth = below + 1 ∧ s = 0x7b :: t ∧
      Braced (fun _ name ↦ Sketched below name) members t rest

theorem solid_sketched (depth : Nat) (name : String) : Solid (Sketched depth name) where
  opens h := by
    unfold Sketched at h
    split at h
    · exact (Reader.solid_value depth).opens h
    · exact solid_scanned.opens h
  shrinks h := by
    unfold Sketched at h
    split at h
    · exact (Reader.solid_value depth).shrinks h
    · exact solid_scanned.shrinks h

end Grammar

/-- The document is a text of the value, its unknown members apart. -/
def Json.Sketches (j : Json) (document : Bytes) : Prop :=
  Grammar.Whole (Grammar.Sketch nestingLimit) j document

/-- What is written out is a sketch. -/
theorem Json.Written.sketches {j : Json} {document : Bytes} (h : j.Written document)
    (hj : j.isScalar = false) : j.Sketches document := by
  obtain ⟨rest, ⟨t, hblanks, h⟩, hrest⟩ := h
  refine ⟨rest, ⟨t, hblanks, ?_⟩, hrest⟩
  cases j with
  | array items => exact .inl ⟨items, rfl, h⟩
  | object members =>
      obtain ⟨below, u, hdepth, rfl, hmembers⟩ := Reader.value_object_iff.mp h
      refine .inr ⟨members, below, u, rfl, hdepth, rfl, hmembers.mono fun h ↦ ?_⟩
      unfold Grammar.Sketched
      split
      · exact h
      · exact Grammar.scanned_of_value h
  | _ => exact nomatch hj

/-! ## Scripts -/

/-- What a field of a script is read as. -/
def Reader.ScriptField.ofJson (name : String) (j : Json) : Option Reader.ScriptField :=
  match name with
  | "bgm" => .bgm <$> Json.nullable Address.ofPlain j
  | "background" => .background <$> Json.nullable Address.ofPlain j
  | "actions" => .entries <$> asList Entry.ofJson j
  | _ => some .other

namespace Script

def ofRecord (r : Record) : Option Script := do
  let bgm ← (r "bgm").optional Address.ofPlain
  let background ← (r "background").optional Address.ofPlain
  let entries ← (r "actions").required (asList Entry.ofJson)
  pure ⟨bgm, background, entries⟩

/-- The script that a value stands for, as it is read straight from text. -/
def ofJson (j : Json) : Option Script := record Reader.scriptFields j >>= ofRecord

end Script

namespace Reader

open Grammar

variable {α : Type} {s t rest : Bytes} {depth : Nat}

theorem reads_entry (depth : Nat) :
    Reads (entry depth) (Told (fun j e ↦ Entry.ofJson j = some e) depth) := by
  refine ((reads_taggedValue depth).choose .mismatched Entry.ofJson).congr fun e s rest ↦ ?_
  constructor
  · rintro ⟨j, ⟨hj, -⟩, he⟩
    exact ⟨j, hj, he⟩
  · rintro ⟨j, hj, he⟩
    obtain ⟨⟨t, fields⟩, htag, -⟩ := Option.bind_eq_some_iff.mp he
    exact ⟨j, ⟨hj, marked_of_tagged htag fun _ _ ↦ rfl⟩, he⟩

theorem reads_entries (depth : Nat) : Reads (arrayOf entry depth)
    (Told (fun j es ↦ Json.asList Entry.ofJson j = some es) depth) := by
  refine (reads_arrayOf reads_entry depth).congr fun es s rest ↦ ?_
  have hlist : ∀ j : Json, (∃ items, j = .array items ∧
      List.Forall₂ (fun j e ↦ Entry.ofJson j = some e) items es) ↔ Json.asList Entry.ofJson j = some es := by
    intro j
    cases j with
    | array items => simp [Json.asList, mapM_eq_some_iff]
    | _ => simp [Json.asList]
  simp only [Told, hlist]

theorem reads_scriptField (depth : Nat) (name : String) : Reads (scriptField depth name) fun a s rest ↦
    ∃ j, Sketched depth name j s rest ∧ ScriptField.ofJson name j = some a := by
  have hmap : ∀ {α : Type} {read : Reader α} {f : Json → Option α} (g : α → ScriptField),
      Reads read (Told (fun j a ↦ f j = some a) depth) →
        Reads (g <$> read) (Told (fun j a ↦ g <$> f j = some a) depth) := by
    intro α read f g h
    refine (h.map g).congr fun b s rest ↦ ?_
    constructor
    · rintro ⟨a, ⟨j, hj, ha⟩, rfl⟩
      exact ⟨j, hj, by simp [ha]⟩
    · rintro ⟨j, hj, hb⟩
      obtain ⟨a, ha, rfl⟩ := Option.map_eq_some_iff.mp hb
      exact ⟨a, ⟨j, hj, ha⟩, rfl⟩
  unfold scriptField Sketched ScriptField.ofJson
  split
  · exact hmap _ (reads_nullable (reads_address depth))
  · exact hmap _ (reads_nullable (reads_address depth))
  · exact hmap _ (reads_entries depth)
  next hbgm hbackground hactions =>
    have hname : name ∉ scriptFields := by
      simp only [scriptFields, List.mem_cons, List.not_mem_nil, or_false, not_or]
      exact ⟨hbgm, hbackground, hactions⟩
    refine (reads_skip.map fun _ ↦ ScriptField.other).congr fun a s rest ↦ ?_
    simp only [hname, if_false, Option.some.injEq, exists_and_right]
    constructor
    · rintro ⟨⟨_, hx⟩, ha⟩
      exact ⟨⟨.null, hx⟩, ha⟩
    · rintro ⟨⟨_, hx⟩, ha⟩
      exact ⟨⟨(), hx⟩, ha⟩

theorem reads_scriptMember (depth : Nat) (seen : List String) (name : String) :
    Reads (scriptMember depth seen name) fun a s rest ↦
      (∃ j, Sketched depth name j s rest ∧ ScriptField.ofJson name j = some a) ∧
        (name ∈ scriptFields → name ∉ seen ∧ True) := by
  unfold scriptMember
  split
  next hseen =>
    rw [Bool.and_eq_true, List.contains_iff_mem, List.contains_iff_mem] at hseen
    refine (reads_fail .mismatched).congr fun a s rest ↦ ⟨False.elim, fun h ↦ ?_⟩
    exact (h.2 hseen.1).1 hseen.2
  next hseen =>
    refine (reads_scriptField depth name).congr fun a s rest ↦ ⟨fun h ↦ ⟨h, fun hname ↦ ⟨?_, trivial⟩⟩, And.left⟩
    simpa [hname] using hseen

/-- The fields of a script, each read by its name. -/
abbrev FieldsTold (members : Json.Members) (fields : List (String × ScriptField)) : Prop :=
  List.Forall₂ (fun v a ↦ v.1 = a.1 ∧ ScriptField.ofJson v.1 v.2 = some a.2) members fields

theorem count_of_told {name : String} {members : Json.Members} {fields : List (String × ScriptField)}
    (h : FieldsTold members fields) :
    fields.countP (fun m ↦ m.1 == name) = Json.count name members := by
  unfold Json.count
  induction h with
  | nil => rfl
  | cons hm _ ih => simp only [List.countP_cons, ih, hm.1]

theorem scriptMembers_eq_ok_iff {depth : Nat} {fields : List (String × ScriptField)} :
    objectRest (scriptMember depth) s = .ok (fields, rest) ↔
      ∃ members, Braced (fun _ name ↦ Sketched depth name) members s rest ∧
        FieldsTold members fields ∧ ∀ name ∈ scriptFields, Json.count name members ≤ 1 := by
  have hsolid : ∀ name, Solid fun a s rest ↦
      ∃ j, Sketched depth name j s rest ∧ ScriptField.ofJson name j = some a := fun name ↦
    ⟨fun h ↦ (solid_sketched depth name).opens h.choose_spec.1,
      fun h ↦ (solid_sketched depth name).shrinks h.choose_spec.1⟩
  rw [objectRest_eq_ok_iff (reads_scriptMember depth) fun _ name ↦ (hsolid name).and,
    braced_along (G := fun _ name a s rest ↦
      ∃ j, Sketched depth name j s rest ∧ ScriptField.ofJson name j = some a), along_once_nil]
  have htold : Braced (fun _ name a s rest ↦
      ∃ j, Sketched depth name j s rest ∧ ScriptField.ofJson name j = some a) fields s rest ↔ _ :=
    braced_told
  rw [htold, ← exists_and_right]
  refine exists_congr fun members ↦ ?_
  constructor
  · rintro ⟨⟨hmembers, hfields⟩, hcount, -⟩
    exact ⟨hmembers, hfields, fun name hname ↦ count_of_told hfields ▸ hcount name hname⟩
  · rintro ⟨hmembers, hfields, hcount⟩
    exact ⟨⟨hmembers, hfields⟩, fun name hname ↦ (count_of_told hfields).symm ▸ hcount name hname,
      fun _ _ _ ↦ trivial⟩

/-- What is picked from the fields of a script is what the value has under the name. -/
theorem findSome_of_told {β : Type} (name : String) (pick : ScriptField → Option β)
    (read : Json → Option (Option β))
    (hread : ∀ {j a}, ScriptField.ofJson name j = some a → read j = some (pick a))
    (hother : ∀ {n j a}, n ≠ name → ScriptField.ofJson n j = some a → pick a = none)
    {members : Json.Members} {fields : List (String × ScriptField)} (h : FieldsTold members fields)
    (hcount : Json.count name members ≤ 1) :
    (members.lookup name).elim (some none) read = some ((fields.map Prod.snd).findSome? pick) := by
  induction h with
  | nil => rfl
  | @cons m a members fields hm hrest ih =>
      obtain ⟨n, v⟩ := m
      obtain ⟨n', a⟩ := a
      obtain ⟨rfl, ha⟩ := hm
      rw [Json.count, List.countP_cons] at hcount
      rw [List.lookup_cons, List.map_cons, List.findSome?_cons]
      by_cases hn : n = name
      · subst hn
        simp only [beq_self_eq_true, if_true] at hcount ⊢
        have hnone : members.lookup n = none := by
          refine List.lookup_eq_none_iff.mpr fun m hm ↦ bne_iff_ne.mpr fun heq ↦ ?_
          have hpos : 0 < members.countP fun m ↦ m.1 == n :=
            List.countP_pos_iff.mpr ⟨m, hm, by simp [← heq]⟩
          omega
        rw [hnone] at ih
        rw [Option.elim_some, hread ha, ← Option.some.inj (ih (by rw [Json.count]; omega))]
        cases pick a <;> rfl
      · rw [beq_eq_false_iff_ne.mpr (Ne.symm hn), hother hn ha]
        exact ih (Nat.le_trans (Nat.le_add_right _ _) hcount)

theorem ofJson_other {name : String} (hname : name ∉ scriptFields) (j : Json) :
    ScriptField.ofJson name j = some .other := by
  simp only [scriptFields, List.mem_cons, List.not_mem_nil, or_false, not_or] at hname
  unfold ScriptField.ofJson
  split
  · exact absurd rfl hname.1
  · exact absurd rfl hname.2.1
  · exact absurd rfl hname.2.2
  · rfl

/-- A field is picked under its own name only. -/
theorem picks_of_ne {name : String} {j : Json} {a : ScriptField} (h : ScriptField.ofJson name j = some a) :
    (name ≠ "bgm" → a.bgm? = none) ∧ (name ≠ "background" → a.background? = none) ∧
      (name ≠ "actions" → a.entries? = none) := by
  unfold ScriptField.ofJson at h
  split at h
  · obtain ⟨o, -, rfl⟩ := Option.map_eq_some_iff.mp h
    exact ⟨fun hne ↦ absurd rfl hne, fun _ ↦ rfl, fun _ ↦ rfl⟩
  · obtain ⟨o, -, rfl⟩ := Option.map_eq_some_iff.mp h
    exact ⟨fun _ ↦ rfl, fun hne ↦ absurd rfl hne, fun _ ↦ rfl⟩
  · obtain ⟨es, -, rfl⟩ := Option.map_eq_some_iff.mp h
    exact ⟨fun _ ↦ rfl, fun _ ↦ rfl, fun hne ↦ absurd rfl hne⟩
  · obtain rfl := Option.some.inj h
    exact ⟨fun _ ↦ rfl, fun _ ↦ rfl, fun _ ↦ rfl⟩

theorem scriptOf_eq_ofRecord {members : Json.Members} {fields : List (String × ScriptField)}
    (h : FieldsTold members fields) (hcount : ∀ name ∈ scriptFields, Json.count name members ≤ 1)
    {r : Record} (hr : ∀ name, r name = (members.lookup name).elim .omitted .given) :
    scriptOf (fields.map Prod.snd) = Script.ofRecord r := by
  have hbgm := findSome_of_told "bgm" ScriptField.bgm? (Json.nullable Address.ofPlain)
    (fun ha ↦ by obtain ⟨o, ho, rfl⟩ := Option.map_eq_some_iff.mp ha; exact ho)
    (fun hn ha ↦ (picks_of_ne ha).1 hn) h (hcount _ (by decide))
  have hbackground := findSome_of_told "background" ScriptField.background?
    (Json.nullable Address.ofPlain)
    (fun ha ↦ by obtain ⟨o, ho, rfl⟩ := Option.map_eq_some_iff.mp ha; exact ho)
    (fun hn ha ↦ (picks_of_ne ha).2.1 hn) h (hcount _ (by decide))
  have hentries := findSome_of_told "actions" ScriptField.entries?
    (fun j ↦ some <$> Json.asList Entry.ofJson j)
    (fun ha ↦ by obtain ⟨es, hes, rfl⟩ := Option.map_eq_some_iff.mp ha; simp [hes, ScriptField.entries?])
    (fun hn ha ↦ (picks_of_ne ha).2.2 hn) h (hcount _ (by decide))
  have hoptional : ∀ {β : Type} {read : Json → Option β} (o : Option Json),
      (o.elim Slot.omitted Slot.given).optional read = o.elim (some none) (Json.nullable read) := by
    rintro β read (_ | _) <;> rfl
  have hrequired : ∀ {β : Type} {read : Json → Option β} (o : Option Json),
      (o.elim Slot.omitted Slot.given).required read = (o.elim (some none) fun j ↦ some <$> read j).join := by
    rintro β read (_ | j)
    · rfl
    · change read j = (some <$> read j).join
      cases read j <;> rfl
  simp only [scriptOf, Script.ofRecord, hr, hoptional, hrequired, hbgm, hbackground, hentries]
  rfl

theorem script_object_iff {members : Json.Members} {script : Script} :
    Script.ofJson (.object members) = some script ↔ ∃ fields, FieldsTold members fields ∧
      (∀ name ∈ scriptFields, Json.count name members ≤ 1) ∧
        scriptOf (fields.map Prod.snd) = some script := by
  constructor
  · intro h
    obtain ⟨r, hr, h⟩ := Option.bind_eq_some_iff.mp h
    obtain ⟨hcount, hr⟩ := Json.fieldsOf_eq_some_iff.mp hr
    have htold : FieldsTold members
        (members.map fun m ↦ (m.1, (ScriptField.ofJson m.1 m.2).getD .other)) := by
      rw [FieldsTold, List.forall₂_map_right_iff, List.forall₂_same]
      rintro ⟨name, j⟩ hm
      refine ⟨rfl, ?_⟩
      suffices hsome : (ScriptField.ofJson name j).isSome = true by
        obtain ⟨a, ha⟩ := Option.isSome_iff_exists.mp hsome
        simp [ha]
      by_cases hname : name ∈ scriptFields
      · have hgiven : r name = .given j := by
          rw [hr, Json.lookup_eq_some_of_count (hcount name hname) hm]
          rfl
        obtain ⟨o, ho, h⟩ := Option.bind_eq_some_iff.mp h
        obtain ⟨o', ho', h⟩ := Option.bind_eq_some_iff.mp h
        obtain ⟨es, hes, -⟩ := Option.bind_eq_some_iff.mp h
        simp only [scriptFields, List.mem_cons, List.not_mem_nil, or_false] at hname
        rcases hname with rfl | rfl | rfl
        · rw [hgiven] at ho
          exact Option.isSome_of_mem (Option.map_eq_some_iff.mpr ⟨o, ho, rfl⟩)
        · rw [hgiven] at ho'
          exact Option.isSome_of_mem (Option.map_eq_some_iff.mpr ⟨o', ho', rfl⟩)
        · rw [hgiven] at hes
          exact Option.isSome_of_mem (Option.map_eq_some_iff.mpr ⟨es, hes, rfl⟩)
      · rw [ofJson_other hname]
        rfl
    exact ⟨_, htold, hcount, (scriptOf_eq_ofRecord htold hcount hr).trans h⟩
  · rintro ⟨fields, htold, hcount, h⟩
    refine Option.bind_eq_some_iff.mpr ⟨_, Json.fieldsOf_eq_some_iff.mpr ⟨hcount, fun name ↦ rfl⟩, ?_⟩
    exact (scriptOf_eq_ofRecord htold hcount fun _ ↦ rfl).symm.trans h

/-- A script in an array is read place by place. -/
theorem ofJson_array (items : List Json) : Script.ofJson (.array items) =
    if items.length ≤ 3 then
      (scriptFields.zip items).mapM (fun v ↦ ScriptField.ofJson v.1 v.2) >>= scriptOf
    else none := by
  match items with
  | [] => rfl
  | [bgm] =>
      change (Json.nullable Address.ofPlain bgm).bind _ =
        ((ScriptField.bgm <$> Json.nullable Address.ofPlain bgm).bind _).bind _
      cases Json.nullable Address.ofPlain bgm <;> rfl
  | [bgm, background] =>
      change (Json.nullable Address.ofPlain bgm).bind (fun _ ↦
          (Json.nullable Address.ofPlain background).bind _) =
        ((ScriptField.bgm <$> Json.nullable Address.ofPlain bgm).bind fun _ ↦
          (ScriptField.background <$> Json.nullable Address.ofPlain background).bind _).bind _
      cases Json.nullable Address.ofPlain bgm <;>
        cases Json.nullable Address.ofPlain background <;> rfl
  | [bgm, background, entries] =>
      change (Json.nullable Address.ofPlain bgm).bind (fun _ ↦
          (Json.nullable Address.ofPlain background).bind fun _ ↦
            (Json.asList Entry.ofJson entries).bind _) =
        ((ScriptField.bgm <$> Json.nullable Address.ofPlain bgm).bind fun _ ↦
          (ScriptField.background <$> Json.nullable Address.ofPlain background).bind fun _ ↦
            (ScriptField.entries <$> Json.asList Entry.ofJson entries).bind _).bind _
      rcases Json.nullable Address.ofPlain bgm with _ | _ | _ <;>
        rcases Json.nullable Address.ofPlain background with _ | _ | _ <;>
        cases Json.asList Entry.ofJson entries <;> rfl
  | bgm :: background :: entries :: extra :: rest =>
      have hlong : ¬ (bgm :: background :: entries :: extra :: rest).length ≤ 3 := by
        simp only [List.length_cons]
        omega
      have hnone : record scriptFields (.array (bgm :: background :: entries :: extra :: rest)) = none := by
        unfold record itemsOf
        exact if_neg hlong
      rw [if_neg hlong]
      exact congrArg (Option.bind · Script.ofRecord) hnone

theorem scriptPlaces_eq_ok_iff {depth : Nat} {script : Script} :
    (do
      let fields ← placesRest true (scriptFields.map (scriptField depth))
      ofOption .mismatched (scriptOf fields) : Reader Script) s = .ok (script, rest) ↔
      ∃ items, Bracketed (Value depth) items s rest ∧ Script.ofJson (.array items) = some script := by
  have hfield : ∀ name ∈ scriptFields, Reads (scriptField depth name)
      (Told (fun j a ↦ ScriptField.ofJson name j = some a) depth) := by
    intro name hname
    refine (reads_scriptField depth name).congr fun a s rest ↦ ?_
    simp only [Sketched, hname, if_true, Told]
  simp only [bind_eq_ok_iff, scriptFields, placesRest_eq_ok_iff hfield, ofOption_eq_ok_iff, ofJson_array,
    Placed, ← mapM_eq_some_iff]
  constructor
  · rintro ⟨fields, _, ⟨items, hitems, hlength, hfields⟩, ha, rfl⟩
    exact ⟨items, hitems, (if_pos hlength).trans (Option.bind_eq_some_iff.mpr ⟨fields, hfields, ha⟩)⟩
  · rintro ⟨items, hitems, h⟩
    split at h
    next hlength =>
      obtain ⟨fields, hfields, ha⟩ := Option.bind_eq_some_iff.mp h
      exact ⟨fields, rest, ⟨items, hitems, hlength, hfields⟩, ha, rfl⟩
    next => exact nomatch h

theorem reads_script (depth : Nat) : Reads (script (depth + 1)) fun a s rest ↦
    ∃ j, Sketch (depth + 1) j s rest ∧ Script.ofJson j = some a := by
  refine ⟨fun {a s rest} hread ↦ ?_, ?_⟩
  · simp only [script, bind_eq_ok_iff, peekToken_eq_ok_iff] at hread
    obtain ⟨b, t, ⟨hblanks, -, u, rfl⟩, hread⟩ := hread
    refine ⟨_, hblanks, ?_⟩
    split at hread
    next hb =>
      obtain rfl := beq_iff_eq.mp hb
      simp only [bind_eq_ok_iff, advance_eq_ok_iff, scriptMembers_eq_ok_iff, ofOption_eq_ok_iff] at hread
      obtain ⟨-, v, rfl, fields, _, ⟨members, hmembers, htold, hcount⟩, ha, rfl⟩ := hread
      exact ⟨.object members, .inr ⟨members, depth, u, rfl, rfl, rfl, hmembers⟩,
        script_object_iff.mpr ⟨fields, htold, hcount, ha⟩⟩
    next =>
    split at hread
    next hb =>
      obtain rfl := beq_iff_eq.mp hb
      rw [bind_eq_ok_iff] at hread
      simp only [advance_eq_ok_iff, scriptPlaces_eq_ok_iff] at hread
      obtain ⟨-, v, rfl, items, hitems, ha⟩ := hread
      exact ⟨.array items, .inl ⟨items, rfl, value_array_iff.mpr ⟨depth, u, rfl, rfl, hitems⟩⟩, ha⟩
    next => exact (mismatch_eq_ok_iff.mp hread).elim
  · rintro a s rest ⟨t, hblanks, j, ⟨items, rfl, hj⟩ | ⟨members, below, u, rfl, hdepth, rfl, hj⟩, ha⟩ -
    · obtain ⟨below, u, hdepth, rfl, hj⟩ := value_array_iff.mp hj
      obtain rfl := Nat.succ.inj hdepth
      simp only [script, bind_eq_ok_iff (x := peekToken), peekToken_eq_ok_iff]
      refine ⟨0x5b, _, ⟨hblanks, rfl, u, rfl⟩, ?_⟩
      rw [if_neg (by decide), if_pos (by decide), bind_eq_ok_iff]
      simp only [advance_eq_ok_iff, scriptPlaces_eq_ok_iff]
      exact ⟨(), u, rfl, items, hj, ha⟩
    · obtain rfl := Nat.succ.inj hdepth
      obtain ⟨fields, htold, hcount, ha⟩ := script_object_iff.mp ha
      simp only [script, bind_eq_ok_iff, peekToken_eq_ok_iff]
      refine ⟨0x7b, _, ⟨hblanks, rfl, u, rfl⟩, ?_⟩
      rw [if_pos (by decide)]
      simp only [bind_eq_ok_iff, advance_eq_ok_iff, scriptMembers_eq_ok_iff, ofOption_eq_ok_iff]
      exact ⟨(), u, rfl, fields, rest, ⟨members, hj, htold, hcount⟩, ha, rfl⟩

end Reader

/-- A script is read off each text of its value, whose unknown members need not be values. -/
theorem Script.read_eq_ok_iff {document : Bytes} {script : Script} :
    Script.read document = .ok script ↔ ∃ j : Json, j.Sketches document ∧ Script.ofJson j = some script := by
  refine (Reader.run_eq_ok_iff (Reader.reads_script 126)).trans ?_
  constructor
  · rintro ⟨rest, ⟨t, hblanks, j, hj, ha⟩, hrest⟩
    exact ⟨j, ⟨rest, ⟨t, hblanks, hj⟩, hrest⟩, ha⟩
  · rintro ⟨j, ⟨rest, ⟨t, hblanks, hj⟩, hrest⟩, ha⟩
    exact ⟨rest, ⟨t, hblanks, j, hj, ha⟩, hrest⟩

/-! ## One text, one script -/

/-- What a script is read off: the value, but nothing in its unknown members. -/
def Json.known : Json → Json
  | .object members =>
    .object (members.map fun m ↦ (m.1, if m.1 ∈ Reader.scriptFields then m.2 else .null))
  | other => other

theorem Script.ofJson_known (j : Json) : ofJson j.known = ofJson j := by
  cases j with
  | object members =>
      refine fieldsOf_congr (fun name _ ↦ ?_) (fun hone name hname ↦ ?_) fun {r r'} h ↦ ?_
      · rw [count, List.countP_map]
        rfl
      · clear hone
        induction members with
        | nil => rfl
        | cons m members ih =>
            rw [List.map_cons, List.lookup_cons, List.lookup_cons, ih]
            split
            next heq => rw [← beq_iff_eq.mp heq, if_pos hname]
            next => rfl
      · rw [ofRecord, ofRecord, h "bgm" (by decide), h "background" (by decide), h "actions" (by decide)]
  | _ => rfl

namespace Reader

open Grammar

variable {s rest : Bytes} {depth : Nat}

def outlineMember (depth : Nat) (name : String) : Reader Json :=
  if name ∈ scriptFields then value depth else (fun _ ↦ .null) <$> skip

/-- The value of a text, but nothing in the unknown members of an object. -/
def outline (depth : Nat) : Reader Json := do
  if (← peekToken) == 0x7b then
    advance
    .object <$> objectRest fun _ ↦ outlineMember depth
  else value (depth + 1)

theorem reads_outlineMember (depth : Nat) (name : String) :
    Reads (outlineMember depth name) fun k s rest ↦ ∃ j, Sketched depth name j s rest ∧
      k = if name ∈ scriptFields then j else .null := by
  unfold outlineMember Sketched
  split
  · refine (reads_value depth).congr fun k s rest ↦ ?_
    simp
  · refine (reads_skip.map fun _ ↦ Json.null).congr fun k s rest ↦ ?_
    simp only [exists_and_right, eq_comm (a := k)]
    exact ⟨fun ⟨⟨_, hx⟩, hk⟩ ↦ ⟨⟨.null, hx⟩, hk⟩, fun ⟨⟨_, hx⟩, hk⟩ ↦ ⟨⟨(), hx⟩, hk⟩⟩

theorem outlineMembers_eq_ok_iff {members : Json.Members} :
    objectRest (fun _ ↦ outlineMember depth) s = .ok (members, rest) ↔
      ∃ ms, Braced (fun _ name ↦ Sketched depth name) ms s rest ∧
        members = ms.map fun m ↦ (m.1, if m.1 ∈ scriptFields then m.2 else .null) := by
  have hsolid : ∀ name, Solid fun k s rest ↦ ∃ j, Sketched depth name j s rest ∧
      k = if name ∈ scriptFields then j else .null := fun name ↦
    ⟨fun h ↦ (solid_sketched depth name).opens h.choose_spec.1,
      fun h ↦ (solid_sketched depth name).shrinks h.choose_spec.1⟩
  rw [objectRest_eq_ok_iff (fun _ ↦ reads_outlineMember depth) fun _ ↦ hsolid, braced_told]
  refine exists_congr fun ms ↦ and_congr_right fun _ ↦ ?_
  rw [eq_comm, ← List.forall₂_eq_eq_eq, List.forall₂_map_left_iff]
  refine ⟨fun h ↦ h.imp ?_, fun h ↦ h.imp ?_⟩
  · rintro ⟨name, v⟩ ⟨name', a⟩ ⟨rfl, rfl⟩
    rfl
  · rintro ⟨name, v⟩ ⟨name', a⟩ h
    obtain ⟨rfl, rfl⟩ := Prod.mk.inj h
    exact ⟨rfl, rfl⟩

theorem reads_outline (depth : Nat) : Reads (outline depth) fun k s rest ↦
    (∃ j, Sketch (depth + 1) j s rest ∧ k = j.known) ∨ Scalar k s rest := by
  refine ⟨fun {k s rest} hread ↦ ?_, ?_⟩
  · simp only [outline, bind_eq_ok_iff, peekToken_eq_ok_iff] at hread
    obtain ⟨b, t, ⟨hblanks, hb, u, rfl⟩, hread⟩ := hread
    split at hread
    next hbrace =>
      obtain rfl := beq_iff_eq.mp hbrace
      simp only [bind_eq_ok_iff, advance_eq_ok_iff, map_eq_ok_iff, outlineMembers_eq_ok_iff] at hread
      obtain ⟨-, v, rfl, _, ⟨ms, hms, rfl⟩, rfl⟩ := hread
      exact ⟨_, hblanks, .inl ⟨.object ms, .inr ⟨ms, depth, u, rfl, rfl, rfl, hms⟩, rfl⟩⟩
    next hbrace =>
      obtain ⟨t, ht, hk⟩ := (reads_value (depth + 1)).sound hread
      refine ⟨t, hblanks.trans ht, ?_⟩
      rcases hk with hk | ⟨items, v, rfl, rfl, hitems⟩ | ⟨members, v, rfl, rfl, -⟩
      · exact .inr hk
      · exact .inl ⟨.array items, .inl ⟨items, rfl, .inr (.inl ⟨items, v, rfl, rfl, hitems⟩)⟩, rfl⟩
      · cases ht with
        | nil => exact absurd rfl hbrace
        | cons hspace => exact absurd hb (by simp [hspace])
  · have hvalue : ∀ {k s t rest}, Blanks s t → Value (depth + 1) k t rest → (∀ u, t ≠ 0x7b :: u) →
        Ends rest → outline depth s = .ok (k, rest) := by
      intro k s t rest hblanks hk hbrace hrest
      obtain ⟨b, u, rfl, hb, -⟩ := (solid_value (depth + 1)).opens hk
      simp only [outline, bind_eq_ok_iff, peekToken_eq_ok_iff]
      refine ⟨b, _, ⟨hblanks, hb, u, rfl⟩, ?_⟩
      rw [if_neg fun h ↦ hbrace u (by rw [beq_iff_eq.mp h])]
      exact (reads_value (depth + 1)).complete ⟨_, .nil _, hk⟩ hrest
    rintro k s rest ⟨t, hblanks, ⟨j, hj, rfl⟩ | hk⟩ hrest
    · rcases hj with ⟨items, rfl, hj⟩ | ⟨ms, below, u, rfl, hdepth, rfl, hms⟩
      · obtain ⟨_, u, -, rfl, -⟩ := value_array_iff.mp hj
        exact hvalue hblanks hj (fun _ h ↦ absurd (List.cons.inj h).1 (by decide)) hrest
      · obtain rfl := Nat.succ.inj hdepth
        simp only [outline, bind_eq_ok_iff, peekToken_eq_ok_iff]
        refine ⟨0x7b, _, ⟨hblanks, rfl, u, rfl⟩, ?_⟩
        rw [if_pos (by decide)]
        simp only [bind_eq_ok_iff, advance_eq_ok_iff, map_eq_ok_iff, outlineMembers_eq_ok_iff]
        exact ⟨(), u, rfl, _, ⟨ms, hms, rfl⟩, rfl⟩
    · obtain ⟨b, u, rfl, -, -, -, hbrace⟩ := scalar_head hk
      exact hvalue hblanks (.inl hk) (fun _ h ↦ hbrace (List.cons.inj h).1) hrest

end Reader

theorem Json.Sketches.known_eq {j j' : Json} {document : Bytes} (h : j.Sketches document)
    (h' : j'.Sketches document) : j.known = j'.known := by
  have hrun : ∀ {j : Json}, j.Sketches document →
      Reader.run (Reader.outline 126) document = .ok j.known := by
    rintro j ⟨rest, ⟨t, hblanks, hj⟩, hrest⟩
    exact (Reader.run_eq_ok_iff (Reader.reads_outline 126)).mpr
      ⟨rest, ⟨t, hblanks, .inl ⟨j, hj, rfl⟩⟩, hrest⟩
  exact Except.ok.inj ((hrun h).symm.trans (hrun h'))

/-- Whatever its unknown members may be, a text is read as the script of its value. -/
theorem Script.read_of_sketches {j : Json} {document : Bytes} (h : j.Sketches document)
    {script : Script} : Script.read document = .ok script ↔ Script.ofJson j = some script := by
  rw [Script.read_eq_ok_iff]
  constructor
  · rintro ⟨j', h', hj'⟩
    rwa [← ofJson_known, h.known_eq h', ofJson_known]
  · exact fun hj ↦ ⟨j, h, hj⟩

end Storyline
