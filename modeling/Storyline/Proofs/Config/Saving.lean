import Storyline.Proofs.Duration.Rereading
import Storyline.Proofs.Config.Reading
import Storyline.Proofs.Json.Printing

/-!
# Settings saved and loaded

Settings are written out as a value, and a text of it can be read back.  The magnitude of shakes
comes back as it was; a duration may come back a nanosecond shorter.
-/

namespace Storyline

open Json

/-! ## Magnitudes -/

namespace BinaryFormat

/-- A magnitude denotes what fits the fraction, a number of places up. -/
theorem units_eq (f : BinaryFormat) (m : ℕ) : ∃ q k, f.units m = q * 2 ^ k ∧ q ≤ 2 * 2 ^ f.fraction ∧
    k ≤ m / 2 ^ f.fraction := by
  have hpos := Nat.two_pow_pos f.fraction
  have hmod := Nat.mod_lt m hpos
  by_cases hsmall : m < 2 ^ f.fraction
  · exact ⟨m, 0, by rw [units_of_lt hsmall, Nat.pow_zero, Nat.mul_one], by omega, Nat.zero_le _⟩
  · exact ⟨_, _, units_of_le (Nat.le_of_not_lt hsmall), by omega, Nat.sub_le _ _⟩

end BinaryFormat

namespace Binary

/-- A narrow float is a wide one as well, and narrowed again it is itself. -/
theorem narrow_widen {m : Binary32} (h : m.isFinite = true) :
    (m.widen : Binary64).isFinite = true ∧ (m.widen : Binary64).narrow = m := by
  obtain ⟨q, k, hunits, hq, hk⟩ := BinaryFormat.units_eq .single m.magnitude
  have hbelow : m.magnitude < BinaryFormat.single.infinity := of_decide_eq_true h
  have hexponent : k ≤ 255 := by
    refine hk.trans (Nat.le_of_lt_succ ?_)
    rw [Nat.div_lt_iff_lt_mul (Nat.two_pow_pos _)]
    exact hbelow.trans (by decide)
  have hones : BinaryFormat.double.one = 2 ^ 925 * BinaryFormat.single.one := by
    rw [BinaryFormat.one_double, show BinaryFormat.single.one = 2 ^ 149 from rfl, ← Nat.pow_add]
  obtain ⟨w, hw, hwide⟩ := BinaryFormat.exists_units .double (q := q) (hq.trans (by decide)) (k + 925)
  have hratio : BinaryFormat.single.units m.magnitude * BinaryFormat.double.one =
      BinaryFormat.double.units w * BinaryFormat.single.one := by
    rw [hunits, hwide, hones, Nat.pow_add]
    simp only [Nat.mul_assoc]
  have hfinite : (⟨m.negative, w⟩ : Binary64).isFinite = true := isFinite_of_le hw (by omega)
  have hwiden : (m.widen : Binary64) = ⟨m.negative, w⟩ := by
    simp only [widen, isNaN_of_isFinite h, isInfinite_of_isFinite h, Bool.false_eq_true, if_false, ofRatio]
    rw [units, BinaryFormat.nearest_exact BinaryFormat.one_pos (of_decide_eq_true hfinite) hratio]
  rw [hwiden]
  refine ⟨hfinite, ?_⟩
  simp only [narrow, isNaN_of_isFinite hfinite, isInfinite_of_isFinite hfinite, Bool.false_eq_true, if_false,
    ofRatio]
  rw [units, BinaryFormat.nearest_exact BinaryFormat.one_pos hbelow hratio.symm]

end Binary

namespace Config

variable {c c' : Config} {document : Bytes}

/-! ## Reading back -/

/-- The durations of the settings, in the order of the file. -/
def durations (c : Config) : List Duration :=
  [c.layoutSettle, c.motionSettle, c.talkDwell, c.telopDwell, c.voicePoll, c.voiceTail,
    c.fastForwardInterval, c.shakeFrame, c.coverDuration, c.shakeDuration]

/-- The settings with each duration changed in the same way. -/
def mapDurations (f : Duration → Duration) (c : Config) : Config where
  layoutSettle := f c.layoutSettle
  motionSettle := f c.motionSettle
  talkDwell := f c.talkDwell
  telopDwell := f c.telopDwell
  voicePoll := f c.voicePoll
  voiceTail := f c.voiceTail
  fastForwardInterval := f c.fastForwardInterval
  shakeFrame := f c.shakeFrame
  shakeMagnitude := c.shakeMagnitude
  coverDuration := f c.coverDuration
  shakeDuration := f c.shakeDuration

@[simp]
theorem durations_mapDurations (f : Duration → Duration) (c : Config) :
    (c.mapDurations f).durations = c.durations.map f := rfl

@[simp]
theorem shakeMagnitude_mapDurations (f : Duration → Duration) (c : Config) :
    (c.mapDurations f).shakeMagnitude = c.shakeMagnitude := rfl

/-- The settings, field by field, in the order of the file. -/
def fields (c : Config) : List (String × Field) :=
  [("layoutSettle", .layoutSettle c.layoutSettle), ("motionSettle", .motionSettle c.motionSettle),
    ("talkDwell", .talkDwell c.talkDwell), ("telopDwell", .telopDwell c.telopDwell),
    ("voicePoll", .voicePoll c.voicePoll), ("voiceTail", .voiceTail c.voiceTail),
    ("fastForwardInterval", .fastForwardInterval c.fastForwardInterval),
    ("shakeFrame", .shakeFrame c.shakeFrame), ("shakeMagnitude", .shakeMagnitude c.shakeMagnitude),
    ("coverDuration", .coverDuration c.coverDuration), ("shakeDuration", .shakeDuration c.shakeDuration)]

theorem ofFields_fields (c : Config) : ofFields (c.fields.map Prod.snd) = c := by
  simp only [ofFields, fields, List.map_cons, List.map_nil, List.foldl_cons, List.foldl_nil, put]

theorem count_fields (c : Config) (name : String) : c.fields.countP (fun m ↦ m.1 == name) ≤ 1 := by
  have hnames : c.fields.map Prod.fst = fieldNames := rfl
  have hcount : (c.fields.map Prod.fst).count name ≤ 1 := by
    rw [hnames]
    exact List.nodup_iff_count_le_one.mp (by decide) name
  rwa [List.count, List.countP_map] at hcount

/-- Durations below `2 ^ 20` seconds and a finite magnitude. -/
structure Moderate (c : Config) : Prop where
  durations : ∀ d ∈ c.durations, d.nanos < 2 ^ 20 * Duration.nanosPerSecond
  magnitude : c.shakeMagnitude.isFinite = true

/-- The settings are read off a text of others. -/
def Reloads (c c' : Config) : Prop := ∃ document, c.toJson.Written document ∧ read document = .ok c'

theorem asDuration_secondsJson {d : Duration} (h : d.nanos < 2 ^ 20 * Duration.nanosPerSecond) :
    (secondsJson d).asDuration = some d.reread := by
  simp only [secondsJson, Json.asDuration, Number.toBinary64]
  exact Duration.ofWrittenSeconds_toSeconds h

/-- What is written for a duration is read as the field that it is written for. -/
theorem ofJson_secondsJson {name : String} {make : Duration → Field} {d e : Duration}
    (hname : ∀ j, Field.ofJson name j = make <$> j.asDuration)
    (h : (secondsJson d).asDuration = some e) : Field.ofJson name (secondsJson d) = some (make e) := by
  rw [hname, h]
  rfl

theorem ofJson_magnitude {m : Binary32} (h : m.isFinite = true) :
    Field.ofJson "shakeMagnitude" (.number (.real m.widen)) = some (.shakeMagnitude m) := by
  simp only [Field.ofJson, Number.toBinary32, (Binary.narrow_widen h).2]

/-- What is written for the fields is read as the fields, the durations changed as each is by itself. -/
theorem fieldsRead_toJson {f : Duration → Duration}
    (hd : ∀ d ∈ c.durations, (secondsJson d).asDuration = some (f d))
    (hm : c.shakeMagnitude.isFinite = true) :
    ∃ members, c.toJson = .object members ∧ Reader.FieldsRead members (c.mapDurations f).fields := by
  simp only [durations, List.forall_mem_cons, List.not_mem_nil] at hd
  obtain ⟨h₁, h₂, h₃, h₄, h₅, h₆, h₇, h₈, h₉, h₁₀, -⟩ := hd
  refine ⟨_, rfl, ?_⟩
  refine .cons ⟨rfl, ofJson_secondsJson (fun _ ↦ rfl) h₁⟩ ?_
  refine .cons ⟨rfl, ofJson_secondsJson (fun _ ↦ rfl) h₂⟩ ?_
  refine .cons ⟨rfl, ofJson_secondsJson (fun _ ↦ rfl) h₃⟩ ?_
  refine .cons ⟨rfl, ofJson_secondsJson (fun _ ↦ rfl) h₄⟩ ?_
  refine .cons ⟨rfl, ofJson_secondsJson (fun _ ↦ rfl) h₅⟩ ?_
  refine .cons ⟨rfl, ofJson_secondsJson (fun _ ↦ rfl) h₆⟩ ?_
  refine .cons ⟨rfl, ofJson_secondsJson (fun _ ↦ rfl) h₇⟩ ?_
  refine .cons ⟨rfl, ofJson_secondsJson (fun _ ↦ rfl) h₈⟩ ?_
  refine .cons ⟨rfl, ofJson_magnitude hm⟩ ?_
  refine .cons ⟨rfl, ofJson_secondsJson (fun _ ↦ rfl) h₉⟩ ?_
  exact .cons ⟨rfl, ofJson_secondsJson (fun _ ↦ rfl) h₁₀⟩ .nil

/-- Whatever text is written, each duration is read back by itself. -/
theorem read_written (h : c.Moderate) (hdocument : c.toJson.Written document) :
    read document = .ok (c.mapDurations Duration.reread) := by
  obtain ⟨members, hmembers, hfields⟩ :=
    fieldsRead_toJson (fun d hd ↦ asDuration_secondsJson (h.durations d hd)) h.magnitude
  rw [hmembers] at hdocument
  rw [read_object hdocument hfields fun name _ ↦ count_fields _ name, ofFields_fields]

theorem fits_toJson (hd : ∀ d ∈ c.durations, d.toSeconds.isFinite = true)
    (hm : (c.shakeMagnitude.widen : Binary64).isFinite = true) : c.toJson.Fits := by
  simp only [durations, List.forall_mem_cons, List.not_mem_nil] at hd
  obtain ⟨h₁, h₂, h₃, h₄, h₅, h₆, h₇, h₈, h₉, h₁₀, -⟩ := hd
  unfold toJson
  refine fits_object ?_
  simp only [List.forall_mem_cons, List.not_mem_nil, secondsJson]
  have hnumber : ∀ {x : Binary64}, x.isFinite = true → (Json.number (.real x)).Fits := by
    intro x hx n hn
    obtain rfl := List.mem_singleton.mp hn
    exact hx
  exact ⟨hnumber h₁, hnumber h₂, hnumber h₃, hnumber h₄, hnumber h₅, hnumber h₆, hnumber h₇,
    hnumber h₈, hnumber hm, hnumber h₉, hnumber h₁₀, nofun⟩

/-- Settings can be written. -/
theorem written_print_toJson (h : c.Moderate) : c.toJson.Written c.print := by
  have hd : ∀ d ∈ c.durations, d.toSeconds.isFinite = true := fun d hd ↦ Duration.isFinite_toSeconds
    ((h.durations d hd).trans_le (Nat.mul_le_mul_right _ (by decide)))
  exact Json.written_print (show (1 : ℕ) ≤ nestingLimit by decide)
    (fits_toJson hd (Binary.narrow_widen h.magnitude).1)

/-! ## Saving and loading again and again -/

theorem mapDurations_comp (f g : Duration → Duration) (c : Config) :
    (c.mapDurations f).mapDurations g = c.mapDurations (g ∘ f) := rfl

theorem mapDurations_congr {f g : Duration → Duration} (h : ∀ d ∈ c.durations, f d = g d) :
    c.mapDurations f = c.mapDurations g := by
  simp only [durations, List.forall_mem_cons, List.not_mem_nil] at h
  obtain ⟨h₁, h₂, h₃, h₄, h₅, h₆, h₇, h₈, h₉, h₁₀, -⟩ := h
  simp only [mapDurations, h₁, h₂, h₃, h₄, h₅, h₆, h₇, h₈, h₉, h₁₀]

/-- Durations that do not become longer stay moderate. -/
theorem Moderate.mapDurations (h : c.Moderate) {f : Duration → Duration}
    (hf : ∀ d ∈ c.durations, (f d).nanos ≤ d.nanos) : (c.mapDurations f).Moderate where
  durations := by
    rw [durations_mapDurations, List.forall_mem_map]
    exact fun d hd ↦ (hf d hd).trans_lt (h.durations d hd)
  magnitude := h.magnitude

/-- After any number of rounds each duration is what it becomes by itself. -/
theorem eq_mapDurations_iterate (h : c.Moderate) {rounds : ℕ → Config} (hstart : rounds 0 = c)
    (hrounds : ∀ i, (rounds i).Reloads (rounds (i + 1))) (i : ℕ) :
    rounds i = c.mapDurations (Duration.reread^[i]) := by
  induction i with
  | zero => exact hstart
  | succ i ih =>
    obtain ⟨document, hdocument, hread⟩ := hrounds i
    rw [ih] at hdocument
    have hmoderate : (c.mapDurations (Duration.reread^[i])).Moderate :=
      h.mapDurations fun d hd ↦ Duration.nanos_iterate_reread_le (h.durations d hd) i
    rw [read_written hmoderate hdocument] at hread
    rw [← Except.ok.inj hread, mapDurations_comp, Function.iterate_succ']

/-- What may become of a duration that is saved and loaded: it is kept or loses a nanosecond.
It is kept if and only if the product that is computed in reading it back is not below it; so
it is if what is written is not below it, and if it is a whole number of the
five-hundred-and-twelfth parts of a second. -/
structure Recovers (d e : Duration) : Prop where
  cases : e = d ∨ e.nanos + 1 = d.nanos
  kept_iff : e = d ↔ (d.nanos : ℚ) ≤ (d.toSeconds.mul (.ofNat Duration.nanosPerSecond)).value
  kept_of_le : (d.nanos : ℚ) ≤ d.toSeconds.value * Duration.nanosPerSecond → e = d
  kept_of_dvd : 1953125 ∣ d.nanos → e = d

theorem recovers_reread {d : Duration} (h : d.nanos < 2 ^ 20 * Duration.nanosPerSecond) :
    Recovers d d.reread where
  cases := Duration.reread_cases h
  kept_iff := Duration.reread_eq_iff h
  kept_of_le := Duration.reread_of_le h
  kept_of_dvd := Duration.reread_of_dvd h

/-- Durations that are changed by themselves are compared one by one. -/
theorem forall₂_mapDurations {R : Duration → Duration → Prop} {f : Duration → Duration}
    (h : ∀ d ∈ c.durations, R d (f d)) : List.Forall₂ R c.durations (c.mapDurations f).durations := by
  rw [durations_mapDurations, List.forall₂_map_right_iff, List.forall₂_same]
  exact h

/-- **Saved settings lose a nanosecond at most.**  Settings with durations below `2 ^ 20` seconds
and a finite magnitude can be saved, and whatever text of them is saved can be loaded.  The
magnitude is loaded as it was, and each duration is kept or loses a nanosecond.  However often the
settings are saved and loaded, no duration becomes longer or falls below the last
five-hundred-and-twelfth part of a second, and after `1953124` rounds nothing changes. -/
theorem saved_settings_recover (c : Config)
    (hd : ∀ d ∈ c.durations, d.nanos < 2 ^ 20 * Duration.nanosPerSecond)
    (hm : c.shakeMagnitude.isFinite = true) :
    c.toJson.Written c.print ∧
    (∀ saved, c.toJson.Written saved → ∃ c', read saved = .ok c' ∧
      c'.shakeMagnitude = c.shakeMagnitude ∧ List.Forall₂ Recovers c.durations c'.durations) ∧
    ∀ rounds : ℕ → Config, rounds 0 = c → (∀ i, (rounds i).Reloads (rounds (i + 1))) → ∀ i,
      (rounds i).shakeMagnitude = c.shakeMagnitude ∧
      List.Forall₂ (fun d e ↦ e.nanos ≤ d.nanos ∧ d.nanos ≤ e.nanos + d.nanos % 1953125)
        c.durations (rounds i).durations ∧
      (1953124 ≤ i → rounds (i + 1) = rounds i) := by
  have h : c.Moderate := ⟨hd, hm⟩
  refine ⟨written_print_toJson h, fun saved hsaved ↦ ?_, fun rounds hstart hrounds i ↦ ?_⟩
  · exact ⟨_, read_written h hsaved, shakeMagnitude_mapDurations _ _,
      forall₂_mapDurations fun d hmem ↦ recovers_reread (hd d hmem)⟩
  · have hrounds := eq_mapDurations_iterate h hstart hrounds
    rw [hrounds i, hrounds (i + 1)]
    refine ⟨shakeMagnitude_mapDurations _ _, forall₂_mapDurations fun d hmem ↦ ?_, fun hi ↦ ?_⟩
    · exact ⟨Duration.nanos_iterate_reread_le (hd d hmem) i, Duration.le_nanos_iterate_reread (hd d hmem) i⟩
    · exact mapDurations_congr fun d hmem ↦ Duration.iterate_reread_settles (hd d hmem) hi

/-- Settings in which models take fifteen nanoseconds to appear. -/
def fleeting : Config := { standard with layoutSettle := ⟨15⟩ }

theorem fleeting_recovers : fleeting.toJson.Written fleeting.print ∧
    ∃ c', read fleeting.print = .ok c' ∧ List.Forall₂ Recovers fleeting.durations c'.durations := by
  obtain ⟨hprint, hload, -⟩ := saved_settings_recover fleeting (by decide) (by decide)
  obtain ⟨c', hread, -, hdurations⟩ := hload _ hprint
  exact ⟨hprint, c', hread, hdurations⟩

/-- A settings file in which models take a little more than fifteen nanoseconds to appear. -/
def fleetingSettings : Bytes := "\x7b\"layoutSettle\":1.55e-8\x7d".toUTF8.toList

/-- Settings that have been loaded need not be the same when they are saved and loaded again. -/
theorem fleetingSettings_shortened :
    ¬∀ (document saved : Bytes) (c c' : Config), read document = .ok c →
      (∀ d ∈ c.durations, d.nanos < 2 ^ 20 * Duration.nanosPerSecond) →
      c.shakeMagnitude.isFinite = true → c.toJson.Written saved → read saved = .ok c' → c' = c := by
  intro h
  have hmoderate : fleeting.Moderate := ⟨by decide, by decide⟩
  have hread : (read fleetingSettings).toOption = some fleeting := by decide +kernel
  have hok : read fleetingSettings = .ok fleeting := by
    cases hr : read fleetingSettings with
    | error e =>
      rw [hr] at hread
      cases hread
    | ok c =>
      rw [hr] at hread
      exact congrArg Except.ok (Option.some.inj hread)
  have hprint := written_print_toJson hmoderate
  have hsame := h _ _ _ _ hok hmoderate.durations hmoderate.magnitude hprint (read_written hmoderate hprint)
  have hshort : Duration.reread ⟨15⟩ = ⟨14⟩ := by decide +kernel
  have hlayout := congrArg Config.layoutSettle hsame
  simp only [mapDurations, fleeting, hshort] at hlayout
  exact absurd hlayout (by decide)

end Config

end Storyline
