import Storyline.Json.Skip
import Storyline.Proofs.Json.Values

/-!
# The grammar of what is skipped

A value that is only scanned may be less than well formed: its strings need not be
text, its numbers may be too large and it may nest at any depth.  Every well-formed
value can be skipped.
-/

namespace Storyline

open Reader (isSpace isDigit hexFour shortEscape)

namespace Grammar

/-- An escape with four hexadecimal digits need not be a character. -/
inductive ScannedEscape : Bytes → Bytes → Prop
  | short {b c : UInt8} (hb : shortEscape b = some c) (s : Bytes) : ScannedEscape (b :: s) s
  | unit {a b c d : UInt8} {n : Nat} (hn : hexFour a b c d = some n) (s : Bytes) :
    ScannedEscape (0x75 :: a :: b :: c :: d :: s) s

/-- The bytes of a string behind its opening quote need not be text. -/
inductive ScannedSpelling : Bytes → Bytes → Prop
  | close (s : Bytes) : ScannedSpelling (0x22 :: s) s
  | plain {b : UInt8} {s rest : Bytes} (hquote : b ≠ 0x22) (hslash : b ≠ 0x5c)
    (hcontrol : ¬b < 0x20) (h : ScannedSpelling s rest) : ScannedSpelling (b :: s) rest
  | escape {s t rest : Bytes} (hc : ScannedEscape s t) (h : ScannedSpelling t rest) :
    ScannedSpelling (0x5c :: s) rest

/-- A number behind its sign may be of any size. -/
def ScannedNumber (s rest : Bytes) : Prop :=
  ∃ ds fraction exponent t u, Leading ds s t ∧ Fraction fraction t u ∧ Exponent exponent u rest

inductive ScannedScalar : Bytes → Bytes → Prop
  | null (rest : Bytes) : ScannedScalar (0x6e :: Reader.nullRest ++ rest) rest
  | true (rest : Bytes) : ScannedScalar (0x74 :: Reader.trueRest ++ rest) rest
  | false (rest : Bytes) : ScannedScalar (0x66 :: Reader.falseRest ++ rest) rest
  | string {s rest : Bytes} (h : ScannedSpelling s rest) : ScannedScalar (0x22 :: s) rest
  | number {s rest : Bytes} (h : ScannedNumber s rest) : ScannedScalar s rest
  | negative {s rest : Bytes} (h : ScannedNumber s rest) : ScannedScalar (0x2d :: s) rest

/-- The name of a member, only scanned, and the colon behind it. -/
def ScannedLabel (s rest : Bytes) : Prop :=
  ∃ t u, Blanks s (0x22 :: t) ∧ ScannedSpelling t u ∧ Blanks u (0x3a :: rest)

inductive ScannedMembers (G : Grammar Unit) : Bytes → Bytes → Prop
  | last {s t u rest : Bytes} (hname : ScannedLabel s t) (ha : Padded G () t u)
    (hclose : Blanks u (0x7d :: rest)) : ScannedMembers G s rest
  | more {s t u v rest : Bytes} (hname : ScannedLabel s t) (ha : Padded G () t u)
    (hcomma : Blanks u (0x2c :: v)) (hms : ScannedMembers G v rest) : ScannedMembers G s rest

/-- A scanned value in which brackets nest less deep than given. -/
def ScannedWithin : Nat → Grammar Unit
  | 0 => fun _ _ _ ↦ False
  | depth + 1 => fun _ s rest ↦
    ScannedScalar s rest ∨
      (∃ items t, s = 0x5b :: t ∧ Bracketed (ScannedWithin depth) items t rest) ∨
      ∃ t, s = 0x7b :: t ∧ (Blanks t (0x7d :: rest) ∨ ScannedMembers (ScannedWithin depth) t rest)

/-- A value that can be skipped. -/
def Scanned : Grammar Unit := fun _ s rest ↦ ∃ depth, ScannedWithin depth () s rest

/-! ## Where it begins and ends -/

variable {s t u rest : Bytes}

theorem scannedEscape_length (h : ScannedEscape s rest) : rest.length < s.length := by
  cases h <;> simp only [List.length_cons] <;> omega

theorem ScannedSpelling.length (h : ScannedSpelling s rest) : rest.length < s.length := by
  induction h with
  | close => exact Nat.lt_succ_self _
  | plain _ _ _ _ ih => exact Nat.lt_succ_of_lt ih
  | escape hc _ ih => exact Nat.lt_succ_of_lt (Nat.lt_trans ih (scannedEscape_length hc))

theorem ScannedNumber.length (h : ScannedNumber s rest) : rest.length < s.length := by
  obtain ⟨ds, f, e, t, u, hds, hf, he⟩ := h
  have := hds.1.shrinks
  have := fraction_length hf
  have := exponent_length he
  omega

theorem scannedNumber_head (h : ScannedNumber s rest) : ∃ d t, s = d :: t ∧ isDigit d = true := by
  obtain ⟨ds, f, e, t, u, hds, -⟩ := h
  exact Reader.digits_head hds.1

theorem solid_scannedScalar : Solid fun (_ : Unit) s rest ↦ ScannedScalar s rest where
  opens h := by
    cases h with
    | null | true | false => exact ⟨_, _, rfl, by decide⟩
    | string h => exact ⟨0x22, _, rfl, by decide⟩
    | negative h => exact ⟨0x2d, _, rfl, by decide⟩
    | number h =>
        obtain ⟨d, t, rfl, hd⟩ := scannedNumber_head h
        obtain ⟨hspace, -, hclose, -⟩ := Reader.numeral_byte (b := d) (by simp [hd])
        exact ⟨d, t, rfl, hspace, hclose⟩
  shrinks h := by
    cases h with
    | null | true | false =>
        simp only [List.cons_append, List.length_cons, List.length_append]
        omega
    | string h => exact Nat.lt_succ_of_lt h.length
    | negative h => exact Nat.lt_succ_of_lt h.length
    | number h => exact h.length

theorem scannedLabel_length (h : ScannedLabel s rest) : rest.length < s.length := by
  obtain ⟨t, u, hquote, hname, hcolon⟩ := h
  have := hquote.length
  have := hname.length
  have := hcolon.length
  simp only [List.length_cons] at *
  omega

theorem scannedMembers_length {G : Grammar Unit} (hG : Solid G) (h : ScannedMembers G s rest) :
    rest.length < s.length := by
  induction h with
  | last hname ha hclose =>
      have := scannedLabel_length hname
      have := Padded.shrinks hG ha
      have := hclose.length
      simp only [List.length_cons] at this
      omega
  | more hname ha hcomma _ ih =>
      have := scannedLabel_length hname
      have := Padded.shrinks hG ha
      have := hcomma.length
      simp only [List.length_cons] at this
      omega

theorem scannedMembers_open {G : Grammar Unit} (h : ScannedMembers G s rest) :
    ∃ t, Blanks s (0x22 :: t) := by
  cases h with
  | last hname | more hname =>
      obtain ⟨t, u, hquote, -⟩ := hname
      exact ⟨t, hquote⟩

theorem scannedMembers_iff_of_blanks (h : Blanks s t) {G : Grammar Unit} :
    ScannedMembers G s rest ↔ ScannedMembers G t rest := by
  have hlabel : ∀ {rest}, ScannedLabel s rest ↔ ScannedLabel t rest := fun {rest} ↦
    ⟨fun ⟨v, w, hquote, hname⟩ ↦ ⟨v, w, h.behind hquote rfl, hname⟩,
      fun ⟨v, w, hquote, hname⟩ ↦ ⟨v, w, h.trans hquote, hname⟩⟩
  constructor
  · rintro (⟨hname, ha, hclose⟩ | ⟨hname, ha, hcomma, hms⟩)
    · exact .last (hlabel.mp hname) ha hclose
    · exact .more (hlabel.mp hname) ha hcomma hms
  · rintro (⟨hname, ha, hclose⟩ | ⟨hname, ha, hcomma, hms⟩)
    · exact .last (hlabel.mpr hname) ha hclose
    · exact .more (hlabel.mpr hname) ha hcomma hms

theorem solid_scannedWithin (depth : Nat) : Solid (ScannedWithin depth) := by
  induction depth with
  | zero => exact ⟨False.elim, False.elim⟩
  | succ depth ih =>
      refine ⟨?_, ?_⟩
      · rintro _ s rest (h | ⟨items, t, rfl, -⟩ | ⟨t, rfl, -⟩)
        · exact solid_scannedScalar.opens (a := ()) h
        · exact ⟨0x5b, t, rfl, by decide⟩
        · exact ⟨0x7b, t, rfl, by decide⟩
      · rintro _ s rest (h | ⟨items, t, rfl, h⟩ | ⟨t, rfl, h | h⟩)
        · exact solid_scannedScalar.shrinks (a := ()) h
        · exact Nat.lt_succ_of_lt (bracketed_shrinks ih h)
        · exact Nat.lt_succ_of_lt h.length
        · exact Nat.lt_succ_of_lt (scannedMembers_length ih h)

theorem solid_scanned : Solid Scanned where
  opens h := (solid_scannedWithin _).opens h.choose_spec
  shrinks h := (solid_scannedWithin _).shrinks h.choose_spec

/-! ## How deep it nests -/

theorem items_of_short {G H : Grammar Unit} (hG : Solid G) {n : Nat}
    (h : ∀ {a s rest}, s.length ≤ n → G a s rest → H a s rest) {as : List Unit} (hs : s.length ≤ n)
    (has : Items G as s rest) : Items H as s rest := by
  have hpadded : ∀ {a : Unit} {s rest : Bytes}, s.length ≤ n → Padded G a s rest → Padded H a s rest := by
    rintro a s rest hs ⟨t, hblanks, ha⟩
    exact ⟨t, hblanks, h (Nat.le_trans hblanks.length hs) ha⟩
  induction has with
  | last ha hclose => exact .last (hpadded hs ha) hclose
  | more ha hcomma _ ih =>
      have := Padded.shrinks hG ha
      have := hcomma.length
      simp only [List.length_cons] at this
      exact .more (hpadded hs ha) hcomma (ih (by omega))

theorem scannedMembers_of_short {G H : Grammar Unit} (hG : Solid G) {n : Nat}
    (h : ∀ {a s rest}, s.length ≤ n → G a s rest → H a s rest) (hs : s.length ≤ n)
    (hms : ScannedMembers G s rest) : ScannedMembers H s rest := by
  have hpadded : ∀ {s rest : Bytes}, s.length ≤ n → Padded G () s rest → Padded H () s rest := by
    rintro s rest hs ⟨t, hblanks, ha⟩
    exact ⟨t, hblanks, h (Nat.le_trans hblanks.length hs) ha⟩
  induction hms with
  | last hname ha hclose =>
      have := scannedLabel_length hname
      exact .last hname (hpadded (by omega) ha) hclose
  | more hname ha hcomma _ ih =>
      have := scannedLabel_length hname
      have := Padded.shrinks hG ha
      have := hcomma.length
      simp only [List.length_cons] at this
      exact .more hname (hpadded (by omega) ha) hcomma (ih (by omega))

/-- Brackets cannot nest deeper than the text is long. -/
theorem scannedWithin_of_length {depth n : Nat} (hs : s.length ≤ n) (h : ScannedWithin depth () s rest) :
    ScannedWithin n () s rest := by
  induction depth generalizing n s rest with
  | zero => exact h.elim
  | succ depth ih =>
      cases n with
      | zero => exact absurd ((solid_scannedWithin _).shrinks h) (by omega)
      | succ n =>
          rcases h with h | ⟨items, t, rfl, h⟩ | ⟨t, rfl, h | h⟩
          · exact .inl h
          · refine .inr (.inl ⟨items, t, rfl, h.imp_right fun h ↦ ?_⟩)
            exact items_of_short (solid_scannedWithin depth) ih (Nat.le_of_succ_le_succ hs) h
          · exact .inr (.inr ⟨t, rfl, .inl h⟩)
          · refine .inr (.inr ⟨t, rfl, .inr ?_⟩)
            exact scannedMembers_of_short (solid_scannedWithin depth) ih (Nat.le_of_succ_le_succ hs) h

/-! ## Well-formed values -/

theorem scannedSpelling_of_spelling {cs : Bytes} (h : Spelling cs s rest) : ScannedSpelling s rest := by
  induction h with
  | close s => exact .close s
  | plain hquote hslash hcontrol _ ih => exact .plain hquote hslash hcontrol ih
  | escape hc _ ih =>
      cases hc with
      | short hb => exact .escape (.short hb _) ih
      | unicode hn => exact .escape (.unit hn _) ih
      | surrogates hn _ _ hm => exact .escape (.unit hn _) (.escape (.unit hm _) ih)

theorem scannedScalar_of_scalar {j : Json} (h : Scalar j s rest) : ScannedScalar s rest := by
  cases h with
  | null => exact .null rest
  | true => exact .true rest
  | false => exact .false rest
  | number h =>
      rcases h with ⟨ds, f, e, t, u, hds, hf, he, -⟩ | ⟨t, rfl, ds, f, e, u, v, hds, hf, he, -⟩
      · exact .number ⟨ds, f, e, t, u, hds, hf, he⟩
      · exact .negative ⟨ds, f, e, u, v, hds, hf, he⟩
  | string h =>
      obtain ⟨t, rfl, bytes, hspelling, -⟩ := h
      exact .string (scannedSpelling_of_spelling hspelling)

theorem scannedWithin_of_value {depth : Nat} {j : Json} (h : Value depth j s rest) :
    ScannedWithin (depth + 1) () s rest := by
  induction depth generalizing j s rest with
  | zero => exact .inl (scannedScalar_of_scalar h)
  | succ depth ih =>
      have hpadded : ∀ {j s rest}, Padded (Value depth) j s rest →
          Padded (ScannedWithin (depth + 1)) () s rest := by
        rintro j s rest ⟨t, hblanks, h⟩
        exact ⟨t, hblanks, ih h⟩
      rcases h with h | ⟨items, t, rfl, rfl, h⟩ | ⟨members, t, rfl, rfl, h⟩
      · exact .inl (scannedScalar_of_scalar h)
      · refine .inr (.inl ⟨items.map fun _ ↦ (), t, rfl, ?_⟩)
        rcases h with ⟨rfl, hclose⟩ | h
        · exact .inl ⟨rfl, hclose⟩
        · refine .inr ?_
          induction h with
          | last ha hclose => exact .last (hpadded ha) hclose
          | more ha hcomma _ ih => exact .more (hpadded ha) hcomma ih
      · refine .inr (.inr ⟨t, rfl, ?_⟩)
        rcases h with ⟨rfl, hclose⟩ | h
        · exact .inl hclose
        · refine .inr ?_
          have hlabel : ∀ {name s rest}, Label name s rest → ScannedLabel s rest := by
            rintro name s rest ⟨t, ⟨_, hquote, u, rfl, bytes, hname, -⟩, hcolon⟩
            exact ⟨u, t, hquote, scannedSpelling_of_spelling hname, hcolon⟩
          generalize ([] : List String) = seen at h
          induction h with
          | last hname ha hclose => exact .last (hlabel hname) (hpadded ha) hclose
          | more hname ha hcomma _ ih => exact .more (hlabel hname) (hpadded ha) hcomma ih

/-- What is well formed can be skipped. -/
theorem scanned_of_value {depth : Nat} {j : Json} (h : Value depth j s rest) : Scanned () s rest :=
  ⟨depth + 1, scannedWithin_of_value h⟩

end Grammar

namespace Reader

open Grammar

variable {s t u rest : Bytes} {b : UInt8} {x : Unit}

theorem scanDigits_eq_ok_iff :
    scanDigits s = .ok (x, rest) ↔ (∃ ds, Digits ds s rest) ∧ ∀ d ∈ rest.head?, isDigit d = false := by
  simp only [scanDigits, bind_eq_ok_iff, digits_eq_ok_iff]
  constructor
  · rintro ⟨ds, t, ⟨rfl, hds, hrest⟩, h⟩
    split at h
    · simp at h
    next hne =>
      obtain ⟨-, rfl⟩ := pure_eq_ok_iff.mp h
      exact ⟨⟨ds, rfl, fun h ↦ hne h, hds⟩, hrest⟩
  · rintro ⟨⟨ds, rfl, hne, hds⟩, hrest⟩
    refine ⟨ds, rest, ⟨rfl, hds, hrest⟩, ?_⟩
    split
    · exact absurd rfl hne
    · exact pure_eq_ok_iff.mpr ⟨rfl, rfl⟩

theorem exponent_of_scan (h : scanExponent s = .ok (x, rest)) : ∃ e, Exponent e s rest := by
  unfold scanExponent at h
  simp only [bind_eq_ok_iff, peek_eq_ok_iff] at h
  obtain ⟨o, t, ⟨ho, rfl⟩, h⟩ := h
  have hread : ∀ {b : UInt8}, b = 0x65 ∨ b = 0x45 → s.head? = some b →
      (∃ (x : Unit) (t : Bytes), s.tail = t ∧ ∃ negative u, exponentSign t = .ok (negative, u) ∧
        (∃ ds, Digits ds u rest) ∧ ∀ d ∈ rest.head?, isDigit d = false) → ∃ e, Exponent e s rest := by
    rintro b hb hs ⟨-, t, rfl, negative, u, hsign, ⟨ds, hds⟩, -⟩
    obtain ⟨t, rfl⟩ := List.head?_eq_some_iff.mp hs
    exact ⟨_, .some hb (sign_of_reads hsign) hds⟩
  split at h
  next =>
    simp only [bind_eq_ok_iff, advance_eq_ok_iff, scanDigits_eq_ok_iff] at h
    exact hread (.inl rfl) ho h
  next =>
    simp only [bind_eq_ok_iff, advance_eq_ok_iff, scanDigits_eq_ok_iff] at h
    exact hread (.inr rfl) ho h
  next =>
    obtain ⟨-, rfl⟩ := pure_eq_ok_iff.mp h
    exact ⟨_, .none _⟩

theorem scan_exponent {e : Option Int} (h : Exponent e s rest)
    (hrest : ∀ b ∈ rest.head?, isDigit b = false ∧ b ≠ 0x65 ∧ b ≠ 0x45) :
    scanExponent s = .ok (x, rest) := by
  unfold scanExponent
  simp only [bind_eq_ok_iff, peek_eq_ok_iff]
  refine ⟨s.head?, s, ⟨rfl, rfl⟩, ?_⟩
  cases h with
  | none =>
      generalize ho : s.head? = o
      split
      next => exact absurd rfl (hrest _ ho).2.1
      next => exact absurd rfl (hrest _ ho).2.2
      next => exact pure_eq_ok_iff.mpr ⟨rfl, rfl⟩
  | @some b negative ds s t _ he hsign hds =>
      have hread := reads_sign hsign (digits_head hds)
      rcases he with rfl | rfl
      all_goals
        simp only [List.head?_cons, bind_eq_ok_iff, advance_eq_ok_iff, scanDigits_eq_ok_iff]
        exact ⟨(), s, rfl, negative, t, hread, ⟨ds, hds⟩, fun b hb ↦ (hrest b hb).1⟩

theorem number_of_scan (h : scanNumber s = .ok (x, rest)) : ScannedNumber s rest := by
  simp only [scanNumber, bind_eq_ok_iff, digits_eq_ok_iff] at h
  obtain ⟨ds, t, ⟨rfl, hds, -⟩, h⟩ := h
  split at h
  · simp at h
  · simp at h
  next hne hzero =>
    simp only [bind_eq_ok_iff, peek_eq_ok_iff] at h
    obtain ⟨o, u, ⟨ho, rfl⟩, h⟩ := h
    have hleading : Leading ds (ds ++ t) t := ⟨⟨rfl, fun h ↦ hne h, hds⟩, hzero⟩
    split at h
    next hpoint =>
      simp only [bind_eq_ok_iff, advance_eq_ok_iff, scanDigits_eq_ok_iff] at h
      obtain ⟨-, v, rfl, -, w, ⟨⟨fs, hfs⟩, -⟩, h⟩ := h
      obtain ⟨e, he⟩ := exponent_of_scan h
      obtain ⟨t, rfl⟩ := List.head?_eq_some_iff.mp (ho.trans (beq_iff_eq.mp hpoint))
      exact ⟨ds, some fs, e, _, w, hleading, ⟨t, rfl, hfs⟩, he⟩
    next =>
      obtain ⟨e, he⟩ := exponent_of_scan h
      exact ⟨ds, none, e, t, t, hleading, rfl, he⟩

theorem scan_number (h : ScannedNumber s rest) (hrest : Stops rest) :
    scanNumber s = .ok (x, rest) := by
  obtain ⟨ds, f, e, t, u, ⟨⟨rfl, hne, hds⟩, hzero⟩, hf, he⟩ := h
  have hexponent := scan_exponent (x := x) he fun b hb ↦ ⟨(hrest b hb).1, (hrest b hb).2.2⟩
  have hu : ∀ b ∈ u.head?, isDigit b = false ∧ b ≠ 0x2e := by
    cases he with
    | none => exact fun b hb ↦ ⟨(hrest b hb).1, (hrest b hb).2.1⟩
    | some he =>
        intro b hb
        obtain rfl := Option.some.inj hb
        rcases he with rfl | rfl <;> decide
  have ht : ∀ b ∈ t.head?, isDigit b = false := by
    cases f with
    | none =>
        obtain rfl : t = u := hf
        exact fun b hb ↦ (hu b hb).1
    | some fs =>
        obtain ⟨v, rfl, -⟩ := hf
        intro b hb
        obtain rfl := Option.some.inj hb
        decide
  simp only [scanNumber, bind_eq_ok_iff, digits_eq_ok_iff]
  refine ⟨ds, t, ⟨rfl, hds, ht⟩, ?_⟩
  split
  · exact absurd rfl hne
  · exact absurd rfl (hzero _ _)
  simp only [bind_eq_ok_iff, peek_eq_ok_iff]
  refine ⟨t.head?, t, ⟨rfl, rfl⟩, ?_⟩
  cases f with
  | none =>
      obtain rfl : t = u := hf
      have hpoint : ¬(t.head? == some 0x2e) = true := fun h ↦ (hu _ (beq_iff_eq.mp h)).2 rfl
      rw [if_neg hpoint]
      exact hexponent
  | some fs =>
      obtain ⟨v, rfl, hfs⟩ := hf
      rw [if_pos (by simp)]
      simp only [bind_eq_ok_iff, advance_eq_ok_iff, scanDigits_eq_ok_iff]
      exact ⟨(), v, rfl, (), u, ⟨⟨fs, hfs⟩, fun b hb ↦ (hu b hb).1⟩, hexponent⟩

theorem scanEscape_eq_ok_iff : scanEscape s = .ok (x, rest) ↔ ScannedEscape s rest := by
  simp only [scanEscape, bind_eq_ok_iff, next_eq_ok_iff]
  constructor
  · rintro ⟨b, t, rfl, h⟩
    split at h
    next hu =>
      simp only [bind_eq_ok_iff, hexUnit_eq_ok_iff, pure_eq_ok_iff] at h
      obtain ⟨n, u, ⟨a, b', c, d, rfl, hn⟩, -, rfl⟩ := h
      exact beq_iff_eq.mp hu ▸ .unit hn u
    next =>
      simp only [bind_eq_ok_iff, ofOption_eq_ok_iff, pure_eq_ok_iff] at h
      obtain ⟨c, u, ⟨hc, rfl⟩, -, rfl⟩ := h
      exact .short hc _
  · intro h
    cases h with
    | @short b c hb =>
        refine ⟨b, rest, rfl, ?_⟩
        split
        next hu => exact absurd hb (by simp [beq_iff_eq.mp hu, shortEscape])
        next =>
          simp only [bind_eq_ok_iff, ofOption_eq_ok_iff, pure_eq_ok_iff]
          exact ⟨c, rest, ⟨hb, rfl⟩, trivial, rfl⟩
    | @unit a b c d n hn =>
        refine ⟨0x75, _, rfl, ?_⟩
        rw [if_pos (by decide)]
        simp only [bind_eq_ok_iff, hexUnit_eq_ok_iff, pure_eq_ok_iff]
        exact ⟨n, rest, ⟨a, b, c, d, rfl, hn⟩, trivial, rfl⟩

theorem spelling_of_scan {bound : Bytes} (h : scanString bound s = .ok (x, rest)) :
    ScannedSpelling s rest := by
  induction bound generalizing s with
  | nil => simp [scanString] at h
  | cons _ bound ih =>
      simp only [scanString, bind_eq_ok_iff, next_eq_ok_iff] at h
      obtain ⟨b, t, rfl, h⟩ := h
      split at h
      next hquote =>
        obtain ⟨-, rfl⟩ := pure_eq_ok_iff.mp h
        exact beq_iff_eq.mp hquote ▸ .close _
      next hquote =>
      split at h
      next hslash =>
        simp only [bind_eq_ok_iff, scanEscape_eq_ok_iff] at h
        obtain ⟨-, u, hc, h⟩ := h
        exact beq_iff_eq.mp hslash ▸ .escape hc (ih h)
      next hslash =>
      split at h
      · simp at h
      next hcontrol => exact .plain (by simpa using hquote) (by simpa using hslash) hcontrol (ih h)

theorem scan_spelling {bound : Bytes} (h : ScannedSpelling s rest) (hs : s.length ≤ bound.length) :
    scanString bound s = .ok (x, rest) := by
  induction h generalizing bound with
  | close s =>
      cases bound with
      | nil => simp at hs
      | cons _ bound =>
          simp only [scanString, bind_eq_ok_iff, next_eq_ok_iff]
          exact ⟨0x22, _, rfl, by simp⟩
  | @plain b s rest hquote hslash hcontrol _ ih =>
      cases bound with
      | nil => simp at hs
      | cons _ bound =>
          simp only [scanString, bind_eq_ok_iff, next_eq_ok_iff]
          refine ⟨b, s, rfl, ?_⟩
          rw [if_neg (by simpa using hquote), if_neg (by simpa using hslash), if_neg hcontrol]
          exact ih (Nat.le_of_succ_le_succ hs)
  | @escape s t rest hc _ ih =>
      cases bound with
      | nil => simp at hs
      | cons _ bound =>
          have hread := ih (Nat.le_trans (Nat.le_of_lt (scannedEscape_length hc)) (Nat.le_of_succ_le_succ hs))
          simp only [scanString, bind_eq_ok_iff, next_eq_ok_iff]
          refine ⟨0x5c, s, rfl, ?_⟩
          rw [if_neg (by decide), if_pos (by decide)]
          simp only [bind_eq_ok_iff, scanEscape_eq_ok_iff]
          exact ⟨(), t, hc, hread⟩

theorem scanString_eq_ok_iff : (do scanString (← get) : Reader Unit) s = .ok (x, rest) ↔
    ScannedSpelling s rest := by
  simp only [bind_eq_ok_iff, get_eq_ok_iff]
  constructor
  · rintro ⟨t, u, ⟨rfl, rfl⟩, h⟩
    exact spelling_of_scan h
  · intro h
    exact ⟨s, s, ⟨rfl, rfl⟩, scan_spelling h (Nat.le_refl _)⟩

theorem scanLabel_eq_ok_iff {f : Reader Unit} :
    (do token 0x22; scanString (← get); token 0x3a; f : Reader Unit) s = .ok (x, rest) ↔
      ∃ t, ScannedLabel s t ∧ f t = .ok (x, rest) := by
  rw [bind_eq_ok_iff]
  simp only [token_eq_ok_iff (show isSpace 0x22 = false from rfl)]
  constructor
  · rintro ⟨-, t, hquote, h⟩
    simp only [bind_eq_ok_iff, get_eq_ok_iff, token_eq_ok_iff (show isSpace 0x3a = false from rfl)] at h
    obtain ⟨u, v, ⟨rfl, rfl⟩, _, w, hname, _, y, hcolon, h⟩ := h
    exact ⟨y, ⟨t, w, hquote, spelling_of_scan hname, hcolon⟩, h⟩
  · rintro ⟨y, ⟨t, w, hquote, hname, hcolon⟩, h⟩
    refine ⟨(), t, hquote, ?_⟩
    simp only [bind_eq_ok_iff, get_eq_ok_iff, token_eq_ok_iff (show isSpace 0x3a = false from rfl)]
    exact ⟨t, t, ⟨rfl, rfl⟩, (), w, scan_spelling hname (Nat.le_refl _), (), y, hcolon, h⟩

theorem members_of_scan {scan : Reader Unit} {G : Grammar Unit} (h : Reads scan G) {bound : Bytes}
    (hread : scanMembers scan bound s = .ok (x, rest)) : ScannedMembers G s rest := by
  induction bound generalizing s with
  | nil => simp [scanMembers] at hread
  | cons _ bound ih =>
      rw [scanMembers, scanLabel_eq_ok_iff] at hread
      simp only [bind_eq_ok_iff, peekToken_eq_ok_iff, advance_eq_ok_iff] at hread
      obtain ⟨t, hname, _, u, ha, b, v, ⟨hblanks, -, w, rfl⟩, -, y, rfl, hread⟩ := hread
      split at hread
      next hclose =>
        obtain ⟨-, rfl⟩ := pure_eq_ok_iff.mp hread
        exact .last hname (h.sound ha) (beq_iff_eq.mp hclose ▸ hblanks)
      next =>
      split at hread
      next hcomma => exact .more hname (h.sound ha) (beq_iff_eq.mp hcomma ▸ hblanks) (ih hread)
      next => simp at hread

theorem scan_members {scan : Reader Unit} {G : Grammar Unit} (h : Reads scan G) (hG : Solid G)
    {bound : Bytes} (hms : ScannedMembers G s rest) (hs : s.length ≤ bound.length) :
    scanMembers scan bound s = .ok (x, rest) := by
  induction hms generalizing bound with
  | @last s t u rest hname ha hclose =>
      have hshort := scannedLabel_length hname
      cases bound with
      | nil => exact absurd hshort (by simp_all)
      | cons _ bound =>
          rw [scanMembers, scanLabel_eq_ok_iff]
          simp only [bind_eq_ok_iff, peekToken_eq_ok_iff, advance_eq_ok_iff]
          refine ⟨t, hname, (), u, h.complete ha (.of_blanks hclose (ends_cons (.inr (.inr rfl)))),
            0x7d, _, ⟨hclose, rfl, rest, rfl⟩, (), rest, rfl, ?_⟩
          simp
  | @more s t u v rest hname ha hcomma _ ih =>
      have hshort := scannedLabel_length hname
      have hvalue := Padded.shrinks hG ha
      have hcommaShort := hcomma.length
      cases bound with
      | nil => exact absurd hshort (by simp_all)
      | cons _ bound =>
          rw [scanMembers, scanLabel_eq_ok_iff]
          simp only [bind_eq_ok_iff, peekToken_eq_ok_iff, advance_eq_ok_iff]
          refine ⟨t, hname, (), u, h.complete ha (.of_blanks hcomma (ends_cons (.inl rfl))), 0x2c, _,
            ⟨hcomma, rfl, v, rfl⟩, (), v, rfl, ?_⟩
          rw [if_neg (by decide), if_pos (by decide)]
          refine ih ?_
          simp only [List.length_cons] at hs hcommaShort
          omega

/-- A scanned scalar that does not begin with a digit. -/
theorem scalar_of_scan (h : scanScalar b (b :: s) = .ok (x, rest)) : ScannedScalar (b :: s) rest := by
  simp only [scanScalar, bind_eq_ok_iff, advance_eq_ok_iff] at h
  obtain ⟨-, t, ht, h⟩ := h
  obtain rfl : s = t := ht
  split at h
  next hb =>
    obtain rfl := literal_eq_ok_iff.mp h
    exact beq_iff_eq.mp hb ▸ .null rest
  next =>
  split at h
  next hb =>
    obtain rfl := literal_eq_ok_iff.mp h
    exact beq_iff_eq.mp hb ▸ .true rest
  next =>
  split at h
  next hb =>
    obtain rfl := literal_eq_ok_iff.mp h
    exact beq_iff_eq.mp hb ▸ .false rest
  next =>
  split at h
  next hb => exact beq_iff_eq.mp hb ▸ .string (scanString_eq_ok_iff.mp h)
  next =>
  split at h
  next hb => exact beq_iff_eq.mp hb ▸ .negative (number_of_scan h)
  next => simp at h

theorem scan_scalar (h : ScannedScalar (b :: s) rest) (hb : isDigit b = false) (hrest : Stops rest) :
    scanScalar b (b :: s) = .ok (x, rest) := by
  unfold scanScalar
  rw [bind_eq_ok_iff]
  refine ⟨(), s, rfl, ?_⟩
  generalize hs : b :: s = r at h
  cases h with
  | null | true | false =>
      obtain ⟨rfl, rfl⟩ := List.cons.inj hs
      simp [literal_eq_ok_iff]
  | string h =>
      obtain ⟨rfl, rfl⟩ := List.cons.inj hs
      rw [if_neg (by decide), if_neg (by decide), if_neg (by decide), if_pos (by decide)]
      exact scanString_eq_ok_iff.mpr h
  | negative h =>
      obtain ⟨rfl, rfl⟩ := List.cons.inj hs
      rw [if_neg (by decide), if_neg (by decide), if_neg (by decide), if_neg (by decide),
        if_pos (by decide)]
      exact scan_number h hrest
  | number h =>
      obtain ⟨d, t, rfl, hd⟩ := scannedNumber_head h
      obtain ⟨rfl, rfl⟩ := List.cons.inj hs
      exact absurd hd (by simp [hb])

theorem reads_scanValue (bound : Bytes) : Reads (scanValue bound) (ScannedWithin bound.length) := by
  induction bound with
  | nil => exact reads_fail _
  | cons c bound ih =>
      have hsolid := solid_scannedWithin bound.length
      refine ⟨fun {x s rest} h ↦ ?_, ?_⟩
      · simp only [scanValue, bind_eq_ok_iff, peekToken_eq_ok_iff] at h
        obtain ⟨b, t, ⟨hblanks, -, u, rfl⟩, h⟩ := h
        refine ⟨_, hblanks, ?_⟩
        split at h
        next hb =>
          simp only [bind_eq_ok_iff, advance_eq_ok_iff, arrayRest_eq_ok_iff ih hsolid,
            pure_eq_ok_iff] at h
          obtain ⟨-, v, rfl, items, w, hitems, -, rfl⟩ := h
          exact .inr (.inl ⟨items, u, by rw [beq_iff_eq.mp hb], hitems⟩)
        next =>
        split at h
        next hb =>
          simp only [bind_eq_ok_iff, advance_eq_ok_iff, peekToken_eq_ok_iff] at h
          obtain ⟨-, v, rfl, c, t, ⟨hinside, -, w, rfl⟩, h⟩ := h
          refine .inr (.inr ⟨u, by rw [beq_iff_eq.mp hb], ?_⟩)
          split at h
          next hc =>
            obtain rfl := advance_eq_ok_iff.mp h
            exact .inl (beq_iff_eq.mp hc ▸ hinside)
          next =>
            simp only [bind_eq_ok_iff, get_eq_ok_iff] at h
            obtain ⟨p, q, ⟨rfl, rfl⟩, h⟩ := h
            exact .inr ((scannedMembers_iff_of_blanks hinside).mpr (members_of_scan ih h))
        next =>
        split at h
        next => exact .inl (.number (number_of_scan h))
        next => exact .inl (scalar_of_scan h)
      · rintro x s rest ⟨t, hblanks, h⟩ hrest
        simp only [scanValue, bind_eq_ok_iff, peekToken_eq_ok_iff]
        rcases h with h | ⟨items, u, rfl, h⟩ | ⟨u, rfl, h⟩
        · obtain ⟨b, u, rfl, hb, hclose⟩ := solid_scannedScalar.opens (a := ()) h
          refine ⟨b, _, ⟨hblanks, hb, u, rfl⟩, ?_⟩
          have hbrackets : b ≠ 0x5b ∧ b ≠ 0x7b := by
            generalize hs : b :: u = r at h
            cases h with
            | number h =>
                obtain ⟨d, t, rfl, hd⟩ := scannedNumber_head h
                obtain ⟨rfl, -⟩ := List.cons.inj hs
                obtain ⟨-, hopen, -, hbrace, -⟩ := numeral_byte (b := b) (by simp [hd])
                exact ⟨hopen, hbrace⟩
            | _ =>
                obtain ⟨rfl, -⟩ := List.cons.inj hs
                decide
          rw [if_neg (by simpa using hbrackets.1), if_neg (by simpa using hbrackets.2)]
          cases hdigit : isDigit b with
          | true =>
              rw [if_pos rfl]
              generalize hs : b :: u = r at h
              cases h with
              | number h => exact scan_number h hrest.stops
              | _ =>
                  obtain ⟨rfl, -⟩ := List.cons.inj hs
                  exact absurd hdigit (by decide)
          | false =>
              rw [if_neg (by decide)]
              exact scan_scalar h hdigit hrest.stops
        · refine ⟨0x5b, _, ⟨hblanks, rfl, u, rfl⟩, ?_⟩
          rw [if_pos (by decide)]
          simp only [bind_eq_ok_iff, advance_eq_ok_iff, arrayRest_eq_ok_iff ih hsolid, pure_eq_ok_iff]
          exact ⟨(), u, rfl, items, rest, h, trivial, rfl⟩
        · refine ⟨0x7b, _, ⟨hblanks, rfl, u, rfl⟩, ?_⟩
          rw [if_neg (by decide), if_pos (by decide)]
          simp only [bind_eq_ok_iff, advance_eq_ok_iff, peekToken_eq_ok_iff]
          refine ⟨(), u, rfl, ?_⟩
          rcases h with hclose | h
          · refine ⟨0x7d, _, ⟨hclose, rfl, rest, rfl⟩, ?_⟩
            simp
          · obtain ⟨v, hquote⟩ := scannedMembers_open h
            refine ⟨0x22, _, ⟨hquote, rfl, v, rfl⟩, ?_⟩
            rw [if_neg (by decide)]
            simp only [bind_eq_ok_iff, get_eq_ok_iff]
            exact ⟨_, _, ⟨rfl, rfl⟩, scan_members ih hsolid
              ((scannedMembers_iff_of_blanks hquote).mp h) (Nat.le_refl _)⟩

/-- What is skipped is what can be skipped. -/
theorem reads_skip : Reads skip Scanned where
  sound h := by
    simp only [skip, bind_eq_ok_iff, get_eq_ok_iff] at h
    obtain ⟨t, u, ⟨rfl, rfl⟩, h⟩ := h
    obtain ⟨v, hblanks, h⟩ := (reads_scanValue _).sound h
    exact ⟨v, hblanks, _, h⟩
  complete := by
    rintro x s rest ⟨t, hblanks, depth, h⟩ hrest
    simp only [skip, bind_eq_ok_iff, get_eq_ok_iff]
    exact ⟨s, s, ⟨rfl, rfl⟩, (reads_scanValue s).complete
      ⟨t, hblanks, scannedWithin_of_length hblanks.length h⟩ hrest⟩

end Reader

end Storyline
