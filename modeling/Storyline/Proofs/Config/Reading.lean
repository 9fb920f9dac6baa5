import Storyline.Config.Reader
import Storyline.Proofs.Json.Places
import Storyline.Proofs.Json.Skipping

/-!
# What settings are read off

Settings in an object are read member by member, in any order.  A duration is read off a
number, and what has no known name is only scanned.
-/

namespace Storyline

open Json

/-! ## Fields -/

/-- The duration that a value stands for, as a number of seconds. -/
def Json.asDuration : Json → Option Duration
  | .number n => Duration.ofWrittenSeconds? n.toBinary64
  | _ => none

/-- What a field of the settings is read as. -/
def Config.Field.ofJson (name : String) (j : Json) : Option Config.Field :=
  match name with
  | "layoutSettle" => .layoutSettle <$> j.asDuration
  | "motionSettle" => .motionSettle <$> j.asDuration
  | "talkDwell" => .talkDwell <$> j.asDuration
  | "telopDwell" => .telopDwell <$> j.asDuration
  | "voicePoll" => .voicePoll <$> j.asDuration
  | "voiceTail" => .voiceTail <$> j.asDuration
  | "fastForwardInterval" => .fastForwardInterval <$> j.asDuration
  | "shakeFrame" => .shakeFrame <$> j.asDuration
  | "shakeMagnitude" =>
    match j with
    | .number n => some (.shakeMagnitude n.toBinary32)
    | _ => none
  | "coverDuration" => .coverDuration <$> j.asDuration
  | "shakeDuration" => .shakeDuration <$> j.asDuration
  | _ => some .other

namespace Grammar

/-- A value that is asked for by name; any other is only scanned, and may be any value. -/
def Asked (names : List String) (depth : Nat) (name : String) : Grammar Json := fun j s rest ↦
  if name ∈ names then Value depth j s rest else Scanned () s rest

theorem solid_asked (names : List String) (depth : Nat) (name : String) :
    Solid (Asked names depth name) where
  opens h := by
    unfold Asked at h
    split at h
    · exact (Reader.solid_value depth).opens h
    · exact solid_scanned.opens h
  shrinks h := by
    unfold Asked at h
    split at h
    · exact (Reader.solid_value depth).shrinks h
    · exact solid_scanned.shrinks h

end Grammar

namespace Reader

open Grammar Config

variable {s rest : Bytes} {depth : Nat}

theorem reads_numeric : Reads numeric Numeral where
  sound h := by
    simp only [numeric, bind_eq_ok_iff, peekToken_eq_ok_iff] at h
    obtain ⟨b, t, ⟨hblanks, -, u, rfl⟩, h⟩ := h
    split at h
    next => exact ⟨_, hblanks, numeral_of_reads h⟩
    next => exact (mismatch_eq_ok_iff.mp h).elim
  complete := by
    rintro n s rest ⟨t, hblanks, h⟩ hrest
    obtain ⟨b, u, rfl, hb⟩ := numeral_head h
    simp only [numeric, bind_eq_ok_iff, peekToken_eq_ok_iff]
    refine ⟨b, _, ⟨hblanks, (numeral_byte hb).1, u, rfl⟩, ?_⟩
    rw [if_pos hb]
    exact reads_numeral h hrest.stops

theorem value_number_iff {n : Number} : Value depth (.number n) s rest ↔ Numeral n s rest := by
  have hscalar : Scalar (.number n) s rest ↔ Numeral n s rest :=
    ⟨fun h ↦ by cases h with | number h => exact h, .number⟩
  cases depth with
  | zero => exact hscalar
  | succ depth => simp [Value, hscalar]

/-- A number of which something is read is a value of which it is. -/
theorem reads_of_numeral {α : Type} {read : Reader α} {f : Number → Option α} {g : Json → Option α}
    (h : Reads read fun a s rest ↦ ∃ n, Numeral n s rest ∧ f n = some a)
    (hg : ∀ j a, g j = some a ↔ ∃ n, j = .number n ∧ f n = some a) (depth : Nat) :
    Reads read (Told (fun j a ↦ g j = some a) depth) := by
  refine h.congr fun a s rest ↦ ?_
  simp only [Told, hg]
  constructor
  · rintro ⟨n, hn, ha⟩
    exact ⟨.number n, value_number_iff.mpr hn, n, rfl, ha⟩
  · rintro ⟨_, hj, n, rfl, ha⟩
    exact ⟨n, value_number_iff.mp hj, ha⟩

theorem reads_duration (depth : Nat) :
    Reads duration (Told (fun j d ↦ Json.asDuration j = some d) depth) := by
  refine reads_of_numeral (reads_numeric.choose .mismatched fun n ↦
    Duration.ofWrittenSeconds? n.toBinary64) (fun j d ↦ ?_) depth
  cases j <;> simp [Json.asDuration]

/-- A field that is made of what is read. -/
theorem reads_made {α β : Type} {read : Reader α} {f : Json → Option α} (g : α → β)
    (h : Reads read (Told (fun j a ↦ f j = some a) depth)) :
    Reads (g <$> read) (Told (fun j b ↦ g <$> f j = some b) depth) := by
  refine (h.map g).congr fun b s rest ↦ ?_
  constructor
  · rintro ⟨a, ⟨j, hj, ha⟩, rfl⟩
    exact ⟨j, hj, by simp [ha]⟩
  · rintro ⟨j, hj, hb⟩
    obtain ⟨a, ha, rfl⟩ := Option.map_eq_some_iff.mp hb
    exact ⟨a, ⟨j, hj, ha⟩, rfl⟩

theorem ofJson_unknown {name : String} (hname : name ∉ fieldNames) (j : Json) :
    Field.ofJson name j = some .other := by
  simp only [fieldNames, List.mem_cons, List.not_mem_nil, or_false, not_or] at hname
  unfold Field.ofJson
  split
  all_goals simp_all

/-- The magnitude of shakes is any number. -/
theorem reads_magnitude (depth : Nat) : Reads ((fun n ↦ Field.shakeMagnitude n.toBinary32) <$> numeric)
    (Told (fun j a ↦ Field.ofJson "shakeMagnitude" j = some a) depth) := by
  have hread : Reads ((fun n ↦ Field.shakeMagnitude n.toBinary32) <$> numeric) fun a s rest ↦
      ∃ n, Numeral n s rest ∧ some (Field.shakeMagnitude n.toBinary32) = some a :=
    (reads_numeric.map _).congr fun a s rest ↦ by simp
  refine reads_of_numeral hread (fun j a ↦ ?_) depth
  cases j <;> simp [Field.ofJson]

theorem reads_configField (depth : Nat) (name : String) : Reads (configField name) fun a s rest ↦
    ∃ j, Asked fieldNames depth name j s rest ∧ Field.ofJson name j = some a := by
  by_cases hname : name ∈ fieldNames
  · have hasked : Asked fieldNames depth name = Value depth := by
      funext j s rest
      exact if_pos hname
    rw [hasked]
    simp only [fieldNames, List.mem_cons, List.not_mem_nil, or_false] at hname
    rcases hname with rfl | rfl | rfl | rfl | rfl | rfl | rfl | rfl | rfl | rfl | rfl
    case inr.inr.inr.inr.inr.inr.inr.inr.inl => exact reads_magnitude depth
    all_goals exact reads_made _ (reads_duration depth)
  · have hskip : configField name = (fun _ ↦ Field.other) <$> skip := by
      simp only [fieldNames, List.mem_cons, List.not_mem_nil, or_false, not_or] at hname
      unfold configField
      split
      all_goals simp_all
    rw [hskip]
    refine (reads_skip.map fun _ ↦ Field.other).congr fun a s rest ↦ ?_
    simp only [Asked, hname, if_false, ofJson_unknown hname, Option.some.injEq, exists_and_right]
    constructor
    · rintro ⟨⟨_, hx⟩, ha⟩
      exact ⟨⟨.null, hx⟩, ha⟩
    · rintro ⟨⟨_, hx⟩, ha⟩
      exact ⟨⟨(), hx⟩, ha⟩

/-- A known name is read once. -/
theorem reads_configMember (depth : Nat) (seen : List String) (name : String) :
    Reads (configMember seen name) fun a s rest ↦
      (∃ j, Asked fieldNames depth name j s rest ∧ Field.ofJson name j = some a) ∧
        (name ∈ fieldNames → name ∉ seen ∧ True) := by
  unfold configMember
  split
  next hseen =>
    rw [Bool.and_eq_true, List.contains_iff_mem, List.contains_iff_mem] at hseen
    refine (reads_fail .mismatched).congr fun a s rest ↦ ⟨False.elim, fun h ↦ ?_⟩
    exact (h.2 hseen.1).1 hseen.2
  next hseen =>
    refine (reads_configField depth name).congr fun a s rest ↦ ⟨fun h ↦ ⟨h, fun hname ↦ ⟨?_, trivial⟩⟩, And.left⟩
    simpa [hname] using hseen

/-- The fields of settings, each read by its name. -/
abbrev FieldsRead (members : Json.Members) (fields : List (String × Field)) : Prop :=
  List.Forall₂ (fun v a ↦ v.1 = a.1 ∧ Field.ofJson v.1 v.2 = some a.2) members fields

theorem configMembers_eq_ok_iff {fields : List (String × Field)} :
    objectRest configMember s = .ok (fields, rest) ↔
      ∃ members, Braced (fun _ name ↦ Asked fieldNames depth name) members s rest ∧
        FieldsRead members fields ∧
          ∀ name ∈ fieldNames, fields.countP (fun m ↦ m.1 == name) ≤ 1 := by
  have hsolid : ∀ name, Solid fun a s rest ↦
      ∃ j, Asked fieldNames depth name j s rest ∧ Field.ofJson name j = some a := fun name ↦
    ⟨fun h ↦ (solid_asked fieldNames depth name).opens h.choose_spec.1,
      fun h ↦ (solid_asked fieldNames depth name).shrinks h.choose_spec.1⟩
  rw [objectRest_eq_ok_iff (reads_configMember depth) fun _ name ↦ (hsolid name).and,
    braced_along (G := fun _ name a s rest ↦
      ∃ j, Asked fieldNames depth name j s rest ∧ Field.ofJson name j = some a), along_once_nil]
  have htold : Braced (fun _ name a s rest ↦
      ∃ j, Asked fieldNames depth name j s rest ∧ Field.ofJson name j = some a) fields s rest ↔ _ :=
    braced_told
  rw [htold, ← exists_and_right]
  simp only [implies_true, and_true, and_assoc, FieldsRead]

end Reader

namespace Config

open Reader Grammar

/-- Settings are read off any text of an object with their fields. -/
theorem read_object {members : Json.Members} {fields : List (String × Field)} {document : Bytes}
    (h : (Json.object members).Written document) (hfields : FieldsRead members fields)
    (hcount : ∀ name ∈ fieldNames, fields.countP (fun m ↦ m.1 == name) ≤ 1) :
    read document = .ok (ofFields (fields.map Prod.snd)) := by
  obtain ⟨rest, ⟨t, hblanks, hobject⟩, hrest⟩ := h
  obtain ⟨below, u, -, rfl, hmembers⟩ := value_object_iff.mp hobject
  have hasked : Braced (fun _ name ↦ Asked fieldNames below name) members u rest := by
    refine hmembers.mono fun hvalue ↦ ?_
    unfold Asked
    split
    · exact hvalue
    · exact scanned_of_value hvalue
  have hread : config document = .ok (ofFields (fields.map Prod.snd), rest) := by
    simp only [config, bind_eq_ok_iff, peekToken_eq_ok_iff]
    refine ⟨0x7b, _, ⟨hblanks, rfl, u, rfl⟩, ?_⟩
    rw [if_pos (by decide)]
    simp only [bind_eq_ok_iff, advance_eq_ok_iff, pure_eq_ok_iff]
    exact ⟨(), u, rfl, fields, rest, configMembers_eq_ok_iff.mpr ⟨members, hasked, hfields, hcount⟩, rfl, rfl⟩
  change (config document >>= fun p ↦ if p.2.all isSpace then pure p.1 else throw .malformed) = _
  rw [hread]
  change (if rest.all isSpace = true then _ else _) = _
  rw [if_pos (blanks_nil_iff.mp hrest)]
  rfl

end Config

end Storyline
