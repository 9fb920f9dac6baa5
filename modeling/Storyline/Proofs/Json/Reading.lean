import Mathlib.Data.List.TakeWhile
import Storyline.Proofs.Json.Grammar

/-!
# Reading by the grammar

A reader reads a grammar if what it takes off a text is what the grammar says, and if
it takes whatever the grammar says off a text that then ends or goes on with a blank, a
comma or a closing bracket.  The reader of values reads the grammar of values.
-/

namespace Storyline

namespace Reader

open Grammar

variable {α β : Type} {s t u rest : Bytes} {b : UInt8}

/-! ## Steps of readers -/

@[simp]
theorem bind_eq_ok_iff {x : Reader α} {f : α → Reader β} {c : β} :
    (x >>= f) s = .ok (c, rest) ↔ ∃ a t, x s = .ok (a, t) ∧ f a t = .ok (c, rest) := by
  change (x s >>= fun p ↦ f p.1 p.2) = _ ↔ _
  cases x s with
  | error fault => simp [bind, Except.bind]
  | ok p =>
      obtain ⟨a, t⟩ := p
      simp [bind, Except.bind, and_assoc]

@[simp]
theorem pure_eq_ok_iff {a c : α} : (pure a : Reader α) s = .ok (c, rest) ↔ a = c ∧ s = rest := by
  change Except.ok (a, s) = _ ↔ _
  simp

@[simp]
theorem map_eq_ok_iff {x : Reader α} {f : α → β} {c : β} :
    (f <$> x) s = .ok (c, rest) ↔ ∃ a, x s = .ok (a, rest) ∧ f a = c := by
  rw [map_eq_pure_bind, bind_eq_ok_iff]
  simp only [pure_eq_ok_iff]
  exact ⟨fun ⟨a, t, hx, hc, ht⟩ ↦ ⟨a, ht ▸ hx, hc⟩, fun ⟨a, hx, hc⟩ ↦ ⟨a, rest, hx, hc, rfl⟩⟩

@[simp]
theorem fail_eq_ok_iff {fault : Fault} {a : α} : fail fault s = .ok (a, rest) ↔ False := by
  simp [fail]

@[simp]
theorem ofOption_eq_ok_iff {fault : Fault} {o : Option α} {a : α} :
    ofOption fault o s = .ok (a, rest) ↔ o = some a ∧ s = rest := by
  cases o <;> simp [ofOption]

@[simp]
theorem get_eq_ok_iff : (get : Reader Bytes) s = .ok (t, rest) ↔ s = t ∧ s = rest := by
  change Except.ok (s, s) = _ ↔ _
  simp

@[simp]
theorem peek_eq_ok_iff {o : Option UInt8} : peek s = .ok (o, rest) ↔ s.head? = o ∧ s = rest := by
  simp [peek]

@[simp]
theorem advance_eq_ok_iff {x : Unit} : advance s = .ok (x, rest) ↔ s.tail = rest := by
  simp [advance]

@[simp]
theorem next_eq_ok_iff : next s = .ok (b, rest) ↔ s = b :: rest := by
  cases s <;> simp [next]

/-! ## Blanks -/

theorem blanks_dropWhile (s : Bytes) : Blanks s (s.dropWhile isSpace) := by
  induction s with
  | nil => exact .nil _
  | cons b s ih =>
      rw [List.dropWhile_cons]
      split
      next hb => exact .cons hb ih
      next => exact .nil _

theorem dropWhile_of_blanks (h : Blanks s (b :: t)) (hb : isSpace b = false) :
    s.dropWhile isSpace = b :: t := by
  generalize hr : b :: t = r at h
  induction h with
  | nil => simp [← hr, hb]
  | cons hspace _ ih => rw [List.dropWhile_cons, if_pos hspace, ih hr]

theorem blanks_nil_iff : Blanks s [] ↔ s.all isSpace = true := by
  constructor
  · intro h
    generalize hr : ([] : Bytes) = r at h
    induction h with
    | nil => simp [← hr]
    | cons hb _ ih => simp [hb, ih hr]
  · intro h
    have hdrop : s.dropWhile isSpace = [] := List.dropWhile_eq_nil_iff.mpr (by simpa using h)
    exact hdrop ▸ blanks_dropWhile s

@[simp]
theorem peekToken_eq_ok_iff :
    peekToken s = .ok (b, t) ↔ Blanks s t ∧ isSpace b = false ∧ ∃ u, t = b :: u := by
  have hskip : ∀ {x : Unit} {t : Bytes}, skipBlank s = .ok (x, t) ↔ s.dropWhile isSpace = t := by
    simp [skipBlank]
  unfold peekToken
  simp only [bind_eq_ok_iff, hskip, peek_eq_ok_iff]
  constructor
  · rintro ⟨-, u, hu, o, v, ⟨ho, rfl⟩, h⟩
    have hblanks : Blanks s u := hu ▸ blanks_dropWhile s
    cases u with
    | nil => obtain rfl := ho; simp at h
    | cons c u =>
        obtain rfl := ho
        obtain ⟨rfl, rfl⟩ := pure_eq_ok_iff.mp h
        refine ⟨hblanks, ?_, u, rfl⟩
        simpa [hu] using List.head?_dropWhile_not isSpace s
  · rintro ⟨hblanks, hb, u, rfl⟩
    exact ⟨(), _, dropWhile_of_blanks hblanks hb, some b, _, ⟨rfl, rfl⟩, pure_eq_ok_iff.mpr ⟨rfl, rfl⟩⟩

/-! ## Numbers -/

/-- The text does not go on with a number. -/
def Stops (s : Bytes) : Prop :=
  ∀ b ∈ s.head?, isDigit b = false ∧ b ≠ 0x2e ∧ b ≠ 0x65 ∧ b ≠ 0x45

/-- The text ends, or goes on with a blank, a comma or a closing bracket. -/
def Ends (s : Bytes) : Prop :=
  ∀ b ∈ s.head?, isSpace b = true ∨ b = 0x2c ∨ b = 0x5d ∨ b = 0x7d

theorem Ends.stops (h : Ends s) : Stops s := by
  intro b hb
  rcases h b hb with hspace | rfl | rfl | rfl
  · simp only [isSpace, Bool.or_eq_true, beq_iff_eq] at hspace
    rcases hspace with ((rfl | rfl) | rfl) | rfl <;> decide
  all_goals decide

theorem Ends.of_blanks (h : Blanks s t) (ht : Ends t) : Ends s := by
  cases h with
  | nil => exact ht
  | cons hb => exact fun c hc ↦ .inl (Option.some.inj hc ▸ hb)

theorem ends_cons (hb : b = 0x2c ∨ b = 0x5d ∨ b = 0x7d) : Ends (b :: s) :=
  fun _ hc ↦ Option.some.inj hc ▸ .inr hb

theorem digits_eq_ok_iff {ds : Bytes} : digits s = .ok (ds, rest) ↔
    s = ds ++ rest ∧ (∀ d ∈ ds, isDigit d = true) ∧ ∀ d ∈ rest.head?, isDigit d = false := by
  have htake : digits s = .ok (ds, rest) ↔ s.takeWhile isDigit = ds ∧ s.dropWhile isDigit = rest := by
    simp [digits]
  rw [htake]
  constructor
  · rintro ⟨rfl, rfl⟩
    refine ⟨(List.takeWhile_append_dropWhile).symm, fun d ↦ List.mem_takeWhile_imp, fun d hd ↦ ?_⟩
    simpa [Option.mem_def.mp hd] using List.head?_dropWhile_not isDigit s
  · rintro ⟨rfl, hds, hrest⟩
    have hstop : rest.takeWhile isDigit = [] ∧ rest.dropWhile isDigit = rest := by
      cases rest with
      | nil => exact ⟨rfl, rfl⟩
      | cons b rest => simp [hrest b rfl]
    rw [List.takeWhile_append_of_pos hds, List.dropWhile_append_of_pos hds, hstop.1, hstop.2]
    exact ⟨List.append_nil _, rfl⟩

theorem someDigits_eq_ok_iff {ds : Bytes} :
    someDigits s = .ok (ds, rest) ↔ Digits ds s rest ∧ ∀ d ∈ rest.head?, isDigit d = false := by
  unfold someDigits
  simp only [bind_eq_ok_iff, peek_eq_ok_iff]
  constructor
  · rintro ⟨o, t, ⟨ho, rfl⟩, h⟩
    cases o with
    | none => simp at h
    | some b =>
        dsimp only at h
        split at h
        next hb =>
          obtain ⟨rfl, hds, hrest⟩ := digits_eq_ok_iff.mp h
          refine ⟨⟨rfl, ?_, hds⟩, hrest⟩
          rintro rfl
          exact absurd hb (by simp [hrest b ho])
        next => simp at h
  · rintro ⟨⟨rfl, hne, hds⟩, hrest⟩
    obtain ⟨d, ds, rfl⟩ := List.exists_cons_of_ne_nil hne
    refine ⟨some d, _, ⟨rfl, rfl⟩, ?_⟩
    dsimp only
    rw [if_pos (hds d List.mem_cons_self)]
    exact digits_eq_ok_iff.mpr ⟨rfl, hds, hrest⟩

theorem digits_head {ds : Bytes} (h : Digits ds s rest) : ∃ d t, s = d :: t ∧ isDigit d = true := by
  obtain ⟨rfl, hne, hds⟩ := h
  obtain ⟨d, ds, rfl⟩ := List.exists_cons_of_ne_nil hne
  exact ⟨d, ds ++ rest, rfl, hds d List.mem_cons_self⟩

theorem leadingDigits_eq_ok_iff {ds : Bytes} :
    leadingDigits s = .ok (ds, rest) ↔ Leading ds s rest ∧ ∀ d ∈ rest.head?, isDigit d = false := by
  unfold leadingDigits
  simp only [bind_eq_ok_iff, someDigits_eq_ok_iff]
  constructor
  · rintro ⟨ds', t, ⟨hds, hrest⟩, h⟩
    split at h
    · simp at h
    next hzero =>
      obtain ⟨rfl, rfl⟩ := pure_eq_ok_iff.mp h
      exact ⟨⟨hds, hzero⟩, hrest⟩
  · rintro ⟨⟨hds, hzero⟩, hrest⟩
    refine ⟨ds, rest, ⟨hds, hrest⟩, ?_⟩
    split
    · exact absurd rfl (hzero _ _)
    · simp

theorem fraction_of_reads {f : Option Bytes} (h : fractionPart s = .ok (f, rest)) :
    Fraction f s rest := by
  unfold fractionPart at h
  simp only [bind_eq_ok_iff, peek_eq_ok_iff] at h
  obtain ⟨o, t, ⟨ho, rfl⟩, h⟩ := h
  split at h
  next hpoint =>
    simp only [bind_eq_ok_iff, advance_eq_ok_iff, map_eq_ok_iff, someDigits_eq_ok_iff] at h
    obtain ⟨-, t, rfl, ds, ⟨hds, -⟩, rfl⟩ := h
    cases s with
    | nil => subst ho; simp at hpoint
    | cons b s =>
        subst ho
        obtain rfl : b = 0x2e := by simpa using hpoint
        exact ⟨s, rfl, hds⟩
  next =>
    obtain ⟨rfl, rfl⟩ := pure_eq_ok_iff.mp h
    rfl

theorem reads_fraction {f : Option Bytes} (h : Fraction f s rest)
    (hrest : ∀ b ∈ rest.head?, isDigit b = false ∧ b ≠ 0x2e) : fractionPart s = .ok (f, rest) := by
  unfold fractionPart
  simp only [bind_eq_ok_iff, peek_eq_ok_iff]
  refine ⟨s.head?, s, ⟨rfl, rfl⟩, ?_⟩
  cases f with
  | none =>
      obtain rfl : s = rest := h
      have hne : (s.head? == some 0x2e) = false := by
        cases s with
        | nil => rfl
        | cons b s => simpa using (hrest b rfl).2
      simp [hne]
  | some ds =>
      obtain ⟨t, rfl, hds⟩ := h
      simp only [List.head?_cons, beq_self_eq_true, if_true, bind_eq_ok_iff, advance_eq_ok_iff,
        map_eq_ok_iff, someDigits_eq_ok_iff]
      exact ⟨(), t, rfl, ds, ⟨hds, fun b hb ↦ (hrest b hb).1⟩, rfl⟩

theorem sign_of_reads {negative : Bool} (h : exponentSign s = .ok (negative, rest)) :
    Sign negative s rest := by
  unfold exponentSign at h
  simp only [bind_eq_ok_iff, peek_eq_ok_iff] at h
  obtain ⟨o, t, ⟨ho, rfl⟩, h⟩ := h
  split at h
  next =>
    obtain ⟨t, rfl⟩ := List.head?_eq_some_iff.mp ho
    simp only [bind_eq_ok_iff, advance_eq_ok_iff, pure_eq_ok_iff] at h
    obtain ⟨-, u, rfl, rfl, rfl⟩ := h
    exact .plus _
  next =>
    obtain ⟨t, rfl⟩ := List.head?_eq_some_iff.mp ho
    simp only [bind_eq_ok_iff, advance_eq_ok_iff, pure_eq_ok_iff] at h
    obtain ⟨-, u, rfl, rfl, rfl⟩ := h
    exact .minus _
  next =>
    obtain ⟨rfl, rfl⟩ := pure_eq_ok_iff.mp h
    exact .none _

theorem reads_sign {negative : Bool} (h : Sign negative s rest)
    (hrest : ∃ d t, rest = d :: t ∧ isDigit d = true) :
    exponentSign s = .ok (negative, rest) := by
  obtain ⟨d, t, rfl, hd⟩ := hrest
  unfold exponentSign
  simp only [bind_eq_ok_iff, peek_eq_ok_iff]
  refine ⟨s.head?, s, ⟨rfl, rfl⟩, ?_⟩
  cases h with
  | none =>
      generalize ho : (d :: t).head? = o
      split
      next => obtain rfl := Option.some.inj ho; exact absurd hd (by decide)
      next => obtain rfl := Option.some.inj ho; exact absurd hd (by decide)
      next => exact pure_eq_ok_iff.mpr ⟨rfl, rfl⟩
  | plus | minus => simp

theorem exponent_of_reads {e : Option Int} (h : exponentPart s = .ok (e, rest)) :
    Exponent e s rest := by
  unfold exponentPart at h
  simp only [bind_eq_ok_iff, peek_eq_ok_iff] at h
  obtain ⟨o, t, ⟨ho, rfl⟩, h⟩ := h
  have hread : ∀ {b : UInt8}, b = 0x65 ∨ b = 0x45 → s.head? = some b →
      (∃ (x : Unit) (t : Bytes), s.tail = t ∧ ∃ negative u, exponentSign t = .ok (negative, u) ∧
        ∃ ds v, (Digits ds u v ∧ ∀ d ∈ v.head?, isDigit d = false) ∧
          some (if negative then -(valueOfDigits ds : Int) else (valueOfDigits ds : Int)) = e ∧
            v = rest) → Exponent e s rest := by
    rintro b hb hs ⟨-, t, rfl, negative, u, hsign, ds, v, ⟨hds, -⟩, rfl, rfl⟩
    obtain ⟨t, rfl⟩ := List.head?_eq_some_iff.mp hs
    exact .some hb (sign_of_reads hsign) hds
  split at h
  next =>
    simp only [bind_eq_ok_iff, advance_eq_ok_iff, someDigits_eq_ok_iff, pure_eq_ok_iff] at h
    exact hread (.inl rfl) ho h
  next =>
    simp only [bind_eq_ok_iff, advance_eq_ok_iff, someDigits_eq_ok_iff, pure_eq_ok_iff] at h
    exact hread (.inr rfl) ho h
  next =>
    obtain ⟨rfl, rfl⟩ := pure_eq_ok_iff.mp h
    exact .none _

theorem reads_exponent {e : Option Int} (h : Exponent e s rest)
    (hrest : ∀ b ∈ rest.head?, isDigit b = false ∧ b ≠ 0x65 ∧ b ≠ 0x45) :
    exponentPart s = .ok (e, rest) := by
  unfold exponentPart
  simp only [bind_eq_ok_iff, peek_eq_ok_iff]
  refine ⟨s.head?, s, ⟨rfl, rfl⟩, ?_⟩
  cases h with
  | none =>
      generalize ho : s.head? = o
      split
      next => exact absurd rfl (hrest _ ho).2.1
      next => exact absurd rfl (hrest _ ho).2.2
      next => exact pure_eq_ok_iff.mpr ⟨rfl, rfl⟩
  | @some b negative ds s t _ he hsign hds =>
      have hread := reads_sign hsign (digits_head hds)
      rcases he with rfl | rfl
      all_goals
        simp only [List.head?_cons, bind_eq_ok_iff, advance_eq_ok_iff, someDigits_eq_ok_iff, pure_eq_ok_iff]
        exact ⟨(), s, rfl, negative, t, hread, ds, rest, ⟨hds, fun b hb ↦ (hrest b hb).1⟩, rfl, rfl⟩

theorem unsigned_of_reads {negative : Bool} {n : Number}
    (h : unsignedNumber negative s = .ok (n, rest)) : Unsigned negative n s rest := by
  unfold unsignedNumber at h
  simp only [bind_eq_ok_iff, leadingDigits_eq_ok_iff, ofOption_eq_ok_iff] at h
  obtain ⟨ds, t, ⟨hds, -⟩, f, u, hf, e, v, he, hn, rfl⟩ := h
  exact ⟨ds, f, e, t, u, hds, fraction_of_reads hf, exponent_of_reads he, hn⟩

theorem reads_unsigned {negative : Bool} {n : Number} (h : Unsigned negative n s rest)
    (hrest : Stops rest) : unsignedNumber negative s = .ok (n, rest) := by
  obtain ⟨ds, f, e, t, u, hds, hf, he, hn⟩ := h
  have hu : ∀ b ∈ u.head?, isDigit b = false ∧ b ≠ 0x2e := by
    cases he with
    | none => exact fun b hb ↦ ⟨(hrest b hb).1, (hrest b hb).2.1⟩
    | some he =>
        intro b hb
        obtain rfl := Option.some.inj hb
        rcases he with rfl | rfl <;> decide
  have ht : ∀ b ∈ t.head?, isDigit b = false := by
    cases f with
    | none =>
        obtain rfl : t = u := hf
        exact fun b hb ↦ (hu b hb).1
    | some fs =>
        obtain ⟨v, rfl, -⟩ := hf
        intro b hb
        obtain rfl := Option.some.inj hb
        decide
  unfold unsignedNumber
  simp only [bind_eq_ok_iff, leadingDigits_eq_ok_iff, ofOption_eq_ok_iff]
  exact ⟨ds, t, ⟨hds, ht⟩, f, u, reads_fraction hf hu, e, rest,
    reads_exponent he fun b hb ↦ ⟨(hrest b hb).1, (hrest b hb).2.2⟩, hn, rfl⟩

theorem numeral_of_reads {n : Number} (h : number s = .ok (n, rest)) : Numeral n s rest := by
  unfold number at h
  simp only [bind_eq_ok_iff, peek_eq_ok_iff] at h
  obtain ⟨o, t, ⟨ho, rfl⟩, h⟩ := h
  split at h
  next hminus =>
    obtain ⟨t, rfl⟩ := List.head?_eq_some_iff.mp (ho.trans (beq_iff_eq.mp hminus))
    simp only [bind_eq_ok_iff, advance_eq_ok_iff] at h
    obtain ⟨-, u, rfl, h⟩ := h
    exact .inr ⟨t, rfl, unsigned_of_reads h⟩
  next => exact .inl (unsigned_of_reads h)

theorem unsigned_head {negative : Bool} {n : Number} (h : Unsigned negative n s rest) :
    ∃ d t, s = d :: t ∧ isDigit d = true := by
  obtain ⟨ds, f, e, t, u, hds, -⟩ := h
  exact digits_head hds.1

theorem reads_numeral {n : Number} (h : Numeral n s rest) (hrest : Stops rest) :
    number s = .ok (n, rest) := by
  unfold number
  simp only [bind_eq_ok_iff, peek_eq_ok_iff]
  refine ⟨s.head?, s, ⟨rfl, rfl⟩, ?_⟩
  rcases h with h | ⟨t, rfl, h⟩
  · obtain ⟨d, t, rfl, hd⟩ := unsigned_head h
    have hne : (some d == some 0x2d) = false := by
      rw [beq_eq_false_iff_ne]
      rintro hd'
      obtain rfl := Option.some.inj hd'
      exact absurd hd (by decide)
    simp only [List.head?_cons, hne]
    exact reads_unsigned h hrest
  · simp only [List.head?_cons, beq_self_eq_true, if_true, bind_eq_ok_iff, advance_eq_ok_iff]
    exact ⟨(), t, rfl, reads_unsigned h hrest⟩

/-! ## Strings -/

@[simp]
theorem hexUnit_eq_ok_iff {n : Nat} :
    hexUnit s = .ok (n, rest) ↔ ∃ a b c d, s = a :: b :: c :: d :: rest ∧ hexFour a b c d = some n := by
  simp only [hexUnit, bind_eq_ok_iff, next_eq_ok_iff, ofOption_eq_ok_iff]
  constructor
  · rintro ⟨a, t, rfl, b, t, rfl, c, t, rfl, d, t, rfl, hn, rfl⟩
    exact ⟨a, b, c, d, rfl, hn⟩
  · rintro ⟨a, b, c, d, rfl, hn⟩
    exact ⟨a, _, rfl, b, _, rfl, c, _, rfl, d, _, rfl, hn, rfl⟩

theorem escape_eq_ok_iff {cs : Bytes} : escape s = .ok (cs, rest) ↔ Escape cs s rest := by
  unfold escape
  simp only [bind_eq_ok_iff, next_eq_ok_iff]
  constructor
  · rintro ⟨b, t, rfl, h⟩
    split at h
    next hu =>
      obtain rfl := beq_iff_eq.mp hu
      unfold unicodeEscape at h
      simp only [bind_eq_ok_iff, hexUnit_eq_ok_iff] at h
      obtain ⟨n, u, ⟨a, b, c, d, rfl, hn⟩, h⟩ := h
      split at h
      · simp at h
      next htrailing =>
      split at h
      next hleading =>
        simp only [bind_eq_ok_iff, next_eq_ok_iff] at h
        obtain ⟨x, v, rfl, h⟩ := h
        split at h
        · simp at h
        next hslash =>
        simp only [bind_eq_ok_iff, next_eq_ok_iff] at h
        obtain ⟨y, w, rfl, h⟩ := h
        split at h
        · simp at h
        next hu =>
        simp only [bind_eq_ok_iff, hexUnit_eq_ok_iff] at h
        obtain ⟨m, z, ⟨a', b', c', d', rfl, hm⟩, h⟩ := h
        split at h
        next hsecond =>
          obtain ⟨rfl, rfl⟩ := pure_eq_ok_iff.mp h
          obtain rfl : x = 0x5c := by simpa using hslash
          obtain rfl : y = 0x75 := by simpa using hu
          exact .surrogates hn (by simpa using htrailing) hleading hm hsecond _
        · simp at h
      next hleading =>
        obtain ⟨rfl, rfl⟩ := pure_eq_ok_iff.mp h
        exact .unicode hn (by simpa using htrailing) (by simpa using hleading) _
    next =>
      simp only [map_eq_ok_iff, ofOption_eq_ok_iff] at h
      obtain ⟨c, ⟨hc, rfl⟩, rfl⟩ := h
      exact .short hc _
  · intro h
    cases h with
    | short hb =>
        refine ⟨_, _, rfl, ?_⟩
        split
        next hu =>
          obtain rfl := beq_iff_eq.mp hu
          exact absurd hb (by simp [shortEscape])
        next => simpa using hb
    | @unicode a b c d n hn htrailing hleading s =>
        refine ⟨0x75, _, rfl, ?_⟩
        rw [if_pos (by decide), unicodeEscape, bind_eq_ok_iff]
        refine ⟨n, rest, hexUnit_eq_ok_iff.mpr ⟨a, b, c, d, rfl, hn⟩, ?_⟩
        simp [htrailing, hleading]
    | @surrogates a b c d a' b' c' d' n m hn htrailing hleading hm hsecond s =>
        refine ⟨0x75, _, rfl, ?_⟩
        rw [if_pos (by decide), unicodeEscape, bind_eq_ok_iff]
        refine ⟨n, _, hexUnit_eq_ok_iff.mpr ⟨a, b, c, d, rfl, hn⟩, ?_⟩
        simp only [htrailing, hleading, if_true, Bool.false_eq_true, if_false, bind_eq_ok_iff,
          next_eq_ok_iff]
        refine ⟨0x5c, _, rfl, ?_⟩
        simp only [bne_self_eq_false, Bool.false_eq_true, if_false, bind_eq_ok_iff, next_eq_ok_iff]
        refine ⟨0x75, _, rfl, ?_⟩
        simp only [bne_self_eq_false, Bool.false_eq_true, if_false, bind_eq_ok_iff,
          hexUnit_eq_ok_iff]
        refine ⟨m, rest, ⟨a', b', c', d', rfl, hm⟩, ?_⟩
        simp [hsecond]

theorem spelling_of_reads {bound cs : Bytes} (h : stringBytes bound s = .ok (cs, rest)) :
    Spelling cs s rest := by
  induction bound generalizing s cs with
  | nil => simp [stringBytes] at h
  | cons _ bound ih =>
      simp only [stringBytes, bind_eq_ok_iff, next_eq_ok_iff] at h
      obtain ⟨b, t, rfl, h⟩ := h
      split at h
      next hquote =>
        obtain ⟨rfl, rfl⟩ := pure_eq_ok_iff.mp h
        exact beq_iff_eq.mp hquote ▸ .close _
      next hquote =>
      split at h
      next hslash =>
        simp only [bind_eq_ok_iff, escape_eq_ok_iff, map_eq_ok_iff] at h
        obtain ⟨cs, u, hc, ds, hds, rfl⟩ := h
        exact beq_iff_eq.mp hslash ▸ .escape hc (ih hds)
      next hslash =>
      split at h
      · simp at h
      next hcontrol =>
      simp only [map_eq_ok_iff] at h
      obtain ⟨cs, hcs, rfl⟩ := h
      exact .plain (by simpa using hquote) (by simpa using hslash) hcontrol (ih hcs)

theorem escape_length {cs : Bytes} (h : Escape cs s rest) : rest.length < s.length := by
  cases h <;> simp only [List.length_cons] <;> omega

theorem spelling_length {cs : Bytes} (h : Spelling cs s rest) : rest.length < s.length := by
  induction h with
  | close => simp
  | plain _ _ _ _ ih => exact Nat.lt_succ_of_lt ih
  | escape hc _ ih => exact Nat.lt_succ_of_lt (Nat.lt_trans ih (escape_length hc))

theorem reads_spelling {bound cs : Bytes} (h : Spelling cs s rest) (hs : s.length ≤ bound.length) :
    stringBytes bound s = .ok (cs, rest) := by
  induction h generalizing bound with
  | close s =>
      cases bound with
      | nil => simp at hs
      | cons _ bound =>
          simp only [stringBytes, bind_eq_ok_iff, next_eq_ok_iff]
          exact ⟨0x22, _, rfl, by simp⟩
  | @plain b cs s rest hquote hslash hcontrol _ ih =>
      cases bound with
      | nil => simp at hs
      | cons _ bound =>
          simp only [stringBytes, bind_eq_ok_iff, next_eq_ok_iff]
          refine ⟨b, s, rfl, ?_⟩
          rw [if_neg (by simpa using hquote), if_neg (by simpa using hslash), if_neg hcontrol,
            map_eq_ok_iff]
          exact ⟨cs, ih (Nat.le_of_succ_le_succ hs), rfl⟩
  | @escape cs ds s t rest hc _ ih =>
      cases bound with
      | nil => simp at hs
      | cons _ bound =>
          have hread := ih (Nat.le_trans (Nat.le_of_lt (escape_length hc)) (Nat.le_of_succ_le_succ hs))
          simp only [stringBytes, bind_eq_ok_iff, next_eq_ok_iff]
          refine ⟨0x5c, s, rfl, ?_⟩
          rw [if_neg (by decide), if_pos (by decide), bind_eq_ok_iff]
          exact ⟨cs, t, escape_eq_ok_iff.mpr hc, map_eq_ok_iff.mpr ⟨ds, hread, rfl⟩⟩

@[simp]
theorem stringRest_eq_ok_iff {text : String} :
    stringRest s = .ok (text, rest) ↔ Unquoted text s rest := by
  simp only [stringRest, bind_eq_ok_iff, get_eq_ok_iff, ofOption_eq_ok_iff]
  constructor
  · rintro ⟨t, u, ⟨rfl, rfl⟩, bytes, v, hread, htext, rfl⟩
    exact ⟨bytes, spelling_of_reads hread, htext⟩
  · rintro ⟨bytes, hspelling, htext⟩
    exact ⟨s, s, ⟨rfl, rfl⟩, bytes, rest, reads_spelling hspelling (Nat.le_refl _), htext, rfl⟩

end Reader

end Storyline
