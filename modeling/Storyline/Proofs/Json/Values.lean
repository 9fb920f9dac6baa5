import Storyline.Proofs.Json.Reading

/-!
# Reading brackets and values

A reader reads a grammar if it takes off a text what the grammar says, wherever the
text then ends or goes on with a blank, a comma or a closing bracket.  Readers of
brackets read the grammars of brackets if the readers inside do, and the reader of
values reads the grammar of values.
-/

namespace Storyline

namespace Grammar

open Reader (isSpace)

variable {α : Type} {s t u rest : Bytes} {b : UInt8}

/-! ## Where grammars begin and end -/

theorem Blanks.length (h : Blanks s t) : t.length ≤ s.length := by
  induction h with
  | nil => exact Nat.le_refl _
  | cons _ _ ih => exact Nat.le_succ_of_le ih

theorem Blanks.trans (h : Blanks s t) (h' : Blanks t u) : Blanks s u := by
  induction h with
  | nil => exact h'
  | cons hb _ ih => exact .cons hb (ih h')

theorem Blanks.behind (h : Blanks s t) (h' : Blanks s (b :: u)) (hb : isSpace b = false) :
    Blanks t (b :: u) := by
  induction h with
  | nil => exact h'
  | cons hc _ ih =>
      cases h' with
      | nil => exact absurd hc (by simp [hb])
      | cons _ h' => exact ih h'

/-- The grammar takes at least one byte, the first of which is neither a blank nor
the end of an array. -/
structure Solid (G : Grammar α) : Prop where
  opens : ∀ {a s rest}, G a s rest → ∃ b t, s = b :: t ∧ isSpace b = false ∧ b ≠ 0x5d
  shrinks : ∀ {a s rest}, G a s rest → rest.length < s.length

theorem Padded.shrinks {G : Grammar α} (hG : Solid G) {a : α} (h : Padded G a s rest) :
    rest.length < s.length := by
  obtain ⟨t, hblanks, h⟩ := h
  exact Nat.lt_of_lt_of_le (hG.shrinks h) hblanks.length

theorem padded_of_blanks (h : Blanks s t) {G : Grammar α} {a : α} (ha : Padded G a t rest) :
    Padded G a s rest := by
  obtain ⟨u, hblanks, ha⟩ := ha
  exact ⟨u, h.trans hblanks, ha⟩

theorem padded_iff_of_blanks (h : Blanks s t) {G : Grammar α} (hG : Solid G) {a : α} :
    Padded G a s rest ↔ Padded G a t rest := by
  refine ⟨?_, padded_of_blanks h⟩
  rintro ⟨u, hblanks, ha⟩
  obtain ⟨b, v, rfl, hb, -⟩ := hG.opens ha
  exact ⟨_, h.behind hblanks hb, ha⟩

theorem items_iff_of_blanks (h : Blanks s t) {G : Grammar α} (hG : Solid G) {as : List α} :
    Items G as s rest ↔ Items G as t rest := by
  constructor
  · rintro (⟨ha, hclose⟩ | ⟨ha, hcomma, has⟩)
    · exact .last ((padded_iff_of_blanks h hG).mp ha) hclose
    · exact .more ((padded_iff_of_blanks h hG).mp ha) hcomma has
  · rintro (⟨ha, hclose⟩ | ⟨ha, hcomma, has⟩)
    · exact .last (padded_of_blanks h ha) hclose
    · exact .more (padded_of_blanks h ha) hcomma has

theorem items_open {G : Grammar α} (hG : Solid G) {as : List α} (h : Items G as s rest) :
    ∃ b t, Blanks s (b :: t) ∧ isSpace b = false ∧ b ≠ 0x5d := by
  have hopen : ∀ {a t}, Padded G a s t → ∃ b u, Blanks s (b :: u) ∧ isSpace b = false ∧ b ≠ 0x5d := by
    rintro a t ⟨u, hblanks, ha⟩
    obtain ⟨b, v, rfl, hb, hne⟩ := hG.opens ha
    exact ⟨b, v, hblanks, hb, hne⟩
  cases h with
  | last ha => exact hopen ha
  | more ha => exact hopen ha

theorem Unquoted.shrinks {text : String} (h : Unquoted text s rest) : rest.length < s.length := by
  obtain ⟨bytes, hspelling, -⟩ := h
  exact Reader.spelling_length hspelling

theorem label_shrinks {name : String} (h : Label name s rest) : rest.length < s.length := by
  obtain ⟨t, ⟨u, hblanks, v, rfl, hname⟩, hcolon⟩ := h
  have := hblanks.length
  have := hname.shrinks
  have := hcolon.length
  simp only [List.length_cons] at *
  omega

theorem label_iff_of_blanks (h : Blanks s t) {name : String} :
    Label name s rest ↔ Label name t rest := by
  constructor
  · rintro ⟨u, ⟨v, hblanks, w, rfl, hname⟩, hcolon⟩
    exact ⟨u, ⟨_, h.behind hblanks rfl, w, rfl, hname⟩, hcolon⟩
  · rintro ⟨u, hname, hcolon⟩
    exact ⟨u, padded_of_blanks h hname, hcolon⟩

theorem members_iff_of_blanks (h : Blanks s t) {G : List String → String → Grammar α}
    {seen : List String} {ms : List (String × α)} :
    Members G seen ms s rest ↔ Members G seen ms t rest := by
  constructor
  · rintro (⟨hname, ha, hclose⟩ | ⟨hname, ha, hcomma, hms⟩)
    · exact .last ((label_iff_of_blanks h).mp hname) ha hclose
    · exact .more ((label_iff_of_blanks h).mp hname) ha hcomma hms
  · rintro (⟨hname, ha, hclose⟩ | ⟨hname, ha, hcomma, hms⟩)
    · exact .last ((label_iff_of_blanks h).mpr hname) ha hclose
    · exact .more ((label_iff_of_blanks h).mpr hname) ha hcomma hms

theorem members_open {G : List String → String → Grammar α} {seen : List String}
    {ms : List (String × α)} (h : Members G seen ms s rest) : ∃ t, Blanks s (0x22 :: t) := by
  cases h with
  | last hname | more hname =>
      obtain ⟨t, ⟨u, hblanks, v, rfl, -⟩, -⟩ := hname
      exact ⟨v, hblanks⟩

theorem Digits.shrinks {ds : Bytes} (h : Digits ds s rest) : rest.length < s.length := by
  obtain ⟨rfl, hne, -⟩ := h
  have := List.length_pos_iff.mpr hne
  rw [List.length_append]
  omega

theorem fraction_length {f : Option Bytes} (h : Fraction f s rest) : rest.length ≤ s.length := by
  cases f with
  | none => exact Nat.le_of_eq (congrArg List.length (Eq.symm h))
  | some ds =>
      obtain ⟨t, rfl, hds⟩ := h
      exact Nat.le_succ_of_le (Nat.le_of_lt hds.shrinks)

theorem exponent_length {e : Option Int} (h : Exponent e s rest) : rest.length ≤ s.length := by
  cases h with
  | none => exact Nat.le_refl _
  | some _ hsign hds =>
      have := hds.shrinks
      cases hsign <;> simp only [List.length_cons] <;> omega

theorem numeral_shrinks {n : Number} (h : Numeral n s rest) : rest.length < s.length := by
  have hunsigned : ∀ {negative s}, Unsigned negative n s rest → rest.length < s.length := by
    rintro negative s ⟨ds, f, e, t, u, hds, hf, he, -⟩
    have := hds.1.shrinks
    have := fraction_length hf
    have := exponent_length he
    omega
  rcases h with h | ⟨t, rfl, h⟩
  · exact hunsigned h
  · exact Nat.lt_succ_of_lt (hunsigned h)

theorem items_shrink {G : Grammar α} (hG : Solid G) {as : List α} (h : Items G as s rest) :
    rest.length < s.length := by
  induction h with
  | last ha hclose =>
      have := Padded.shrinks hG ha
      have := hclose.length
      simp only [List.length_cons] at this
      omega
  | more ha hcomma _ ih =>
      have := Padded.shrinks hG ha
      have := hcomma.length
      simp only [List.length_cons] at this
      omega

theorem bracketed_shrinks {G : Grammar α} (hG : Solid G) {as : List α}
    (h : Bracketed G as s rest) : rest.length < s.length := by
  rcases h with ⟨-, hclose⟩ | h
  · exact hclose.length
  · exact items_shrink hG h

theorem members_shrink {G : List String → String → Grammar α}
    (hG : ∀ seen name, Solid (G seen name)) {seen : List String} {ms : List (String × α)}
    (h : Members G seen ms s rest) : rest.length < s.length := by
  induction h with
  | last hname ha hclose =>
      have := label_shrinks hname
      have := Padded.shrinks (hG _ _) ha
      have := hclose.length
      simp only [List.length_cons] at this
      omega
  | more hname ha hcomma _ ih =>
      have := label_shrinks hname
      have := Padded.shrinks (hG _ _) ha
      have := hcomma.length
      simp only [List.length_cons] at this
      omega

theorem braced_shrinks {G : List String → String → Grammar α}
    (hG : ∀ seen name, Solid (G seen name)) {ms : List (String × α)} (h : Braced G ms s rest) :
    rest.length < s.length := by
  rcases h with ⟨-, hclose⟩ | h
  · exact hclose.length
  · exact members_shrink hG h

theorem Braced.mono {G H : List String → String → Grammar α}
    (h : ∀ {seen name a s rest}, G seen name a s rest → H seen name a s rest)
    {ms : List (String × α)} (hms : Braced G ms s rest) : Braced H ms s rest := by
  rcases hms with hnone | hms
  · exact .inl hnone
  refine .inr ?_
  generalize ([] : List String) = seen at hms ⊢
  induction hms with
  | last hname ha hclose =>
      obtain ⟨t, hblanks, ha⟩ := ha
      exact .last hname ⟨t, hblanks, h ha⟩ hclose
  | more hname ha hcomma _ ih =>
      obtain ⟨t, hblanks, ha⟩ := ha
      exact .more hname ⟨t, hblanks, h ha⟩ hcomma ih

theorem mem_bracketed {G : Grammar α} {as : List α} (h : Bracketed G as s rest) {a : α}
    (ha : a ∈ as) : ∃ t u, G a t u := by
  rcases h with ⟨rfl, -⟩ | h
  · exact absurd ha (by simp)
  · induction h with
    | last hfirst =>
        obtain ⟨t, -, hfirst⟩ := hfirst
        exact ⟨t, _, List.mem_singleton.mp ha ▸ hfirst⟩
    | more hfirst _ _ ih =>
        obtain ⟨t, -, hfirst⟩ := hfirst
        rcases List.mem_cons.mp ha with rfl | ha
        · exact ⟨t, _, hfirst⟩
        · exact ih ha

theorem mem_braced {G : List String → String → Grammar α} {ms : List (String × α)}
    (h : Braced G ms s rest) {m : String × α} (hm : m ∈ ms) : ∃ seen t u, G seen m.1 m.2 t u := by
  rcases h with ⟨rfl, -⟩ | h
  · exact absurd hm (by simp)
  · generalize ([] : List String) = seen at h
    induction h with
    | last _ hfirst =>
        obtain ⟨t, -, hfirst⟩ := hfirst
        obtain rfl := List.mem_singleton.mp hm
        exact ⟨_, t, _, hfirst⟩
    | more _ hfirst _ _ ih =>
        obtain ⟨t, -, hfirst⟩ := hfirst
        rcases List.mem_cons.mp hm with rfl | hm
        · exact ⟨_, t, _, hfirst⟩
        · exact ih hm

end Grammar

namespace Reader

open Grammar

variable {α β : Type} {s t u rest : Bytes} {b : UInt8}

/-! ## Readers and grammars -/

structure Reads (read : Reader α) (G : Grammar α) : Prop where
  sound : ∀ {a s rest}, read s = .ok (a, rest) → Padded G a s rest
  complete : ∀ {a s rest}, Padded G a s rest → Ends rest → read s = .ok (a, rest)

/-- What cannot be read at all. -/
theorem reads_fail (fault : Fault) : Reads (fail fault : Reader α) fun _ _ _ ↦ False where
  sound h := (fail_eq_ok_iff.mp h).elim
  complete h := h.elim fun _ h ↦ h.2.elim

/-- A reader whose results are looked through. -/
theorem Reads.choose {read : Reader α} {G : Grammar α} (h : Reads read G) (fault : Fault)
    (f : α → Option β) :
    Reads (do let a ← read; ofOption fault (f a)) fun c s rest ↦ ∃ a, G a s rest ∧ f a = some c where
  sound hread := by
    simp only [bind_eq_ok_iff, ofOption_eq_ok_iff] at hread
    obtain ⟨a, t, ha, hc, rfl⟩ := hread
    obtain ⟨u, hblanks, ha⟩ := h.sound ha
    exact ⟨u, hblanks, a, ha, hc⟩
  complete := by
    rintro c s rest ⟨t, hblanks, a, ha, hc⟩ hrest
    simp only [bind_eq_ok_iff, ofOption_eq_ok_iff]
    exact ⟨a, rest, h.complete ⟨t, hblanks, ha⟩ hrest, hc, rfl⟩

theorem Reads.congr {read : Reader α} {G H : Grammar α} (h : Reads read G)
    (heq : ∀ a s rest, G a s rest ↔ H a s rest) : Reads read H := by
  have hGH : G = H := by
    funext a s rest
    exact propext (heq a s rest)
  exact hGH ▸ h

/-! ## Documents -/

theorem run_eq_ok_iff {read : Reader α} {G : Grammar α} (h : Reads read G) {document : Bytes}
    {a : α} : run read document = .ok a ↔ Whole G a document := by
  have hrun : run read document =
      (read document >>= fun p ↦ if p.2.all isSpace then pure p.1 else throw .malformed) := rfl
  rw [hrun]
  cases hread : read document with
  | error fault =>
      refine ⟨fun h ↦ (nomatch h), ?_⟩
      rintro ⟨rest, ha, hrest⟩
      have hends : Ends rest := .of_blanks hrest fun b hb ↦ (nomatch hb)
      rw [h.complete ha hends] at hread
      exact absurd hread (by simp)
  | ok p =>
      obtain ⟨c, rest⟩ := p
      change (if rest.all isSpace = true then pure c else throw Fault.malformed) = Except.ok a ↔ _
      constructor
      · intro hok
        split at hok
        next hrest =>
          obtain rfl : c = a := Except.ok.inj hok
          exact ⟨rest, h.sound hread, blanks_nil_iff.mpr hrest⟩
        next => exact absurd hok (by simp)
      · rintro ⟨rest', ha, hrest⟩
        have hends : Ends rest' := .of_blanks hrest fun b hb ↦ (nomatch hb)
        rw [h.complete ha hends] at hread
        obtain ⟨rfl, rfl⟩ : a = c ∧ rest' = rest := by simpa using hread
        rw [if_pos (blanks_nil_iff.mp hrest)]
        rfl

/-! ## Brackets -/

theorem token_eq_ok_iff {x : Unit} (hb : isSpace b = false) :
    token b s = .ok (x, rest) ↔ Blanks s (b :: rest) := by
  simp only [token, bind_eq_ok_iff, peekToken_eq_ok_iff]
  constructor
  · rintro ⟨c, t, ⟨hblanks, -, u, rfl⟩, h⟩
    split at h
    next hc =>
      obtain rfl : u = rest := by simpa using h
      exact beq_iff_eq.mp hc ▸ hblanks
    next => simp at h
  · intro h
    refine ⟨b, b :: rest, ⟨h, hb, rest, rfl⟩, ?_⟩
    simp

theorem items_of_reads {read : Reader α} {G : Grammar α} (h : Reads read G) {bound : Bytes}
    {as : List α} (hread : items read bound s = .ok (as, rest)) : Items G as s rest := by
  induction bound generalizing s as with
  | nil => simp [items] at hread
  | cons _ bound ih =>
      simp only [items, bind_eq_ok_iff, peekToken_eq_ok_iff, advance_eq_ok_iff] at hread
      obtain ⟨a, t, ha, b, u, ⟨hblanks, -, v, rfl⟩, -, w, rfl, hread⟩ := hread
      split at hread
      next hclose =>
        obtain ⟨rfl, rfl⟩ := pure_eq_ok_iff.mp hread
        exact .last (h.sound ha) (beq_iff_eq.mp hclose ▸ hblanks)
      next =>
      split at hread
      next hcomma =>
        obtain ⟨as, has, rfl⟩ := map_eq_ok_iff.mp hread
        exact .more (h.sound ha) (beq_iff_eq.mp hcomma ▸ hblanks) (ih has)
      next => simp at hread

theorem reads_items {read : Reader α} {G : Grammar α} (h : Reads read G) (hG : Solid G)
    {bound : Bytes} {as : List α} (has : Items G as s rest) (hs : s.length ≤ bound.length) :
    items read bound s = .ok (as, rest) := by
  induction has generalizing bound with
  | @last a s t rest ha hclose =>
      have hshort := Padded.shrinks hG ha
      cases bound with
      | nil => simp at hs; subst hs; simp at hshort
      | cons _ bound =>
          simp only [items, bind_eq_ok_iff, peekToken_eq_ok_iff, advance_eq_ok_iff]
          refine ⟨a, t, h.complete ha (.of_blanks hclose (ends_cons (.inr (.inl rfl)))), 0x5d, _,
            ⟨hclose, rfl, rest, rfl⟩, (), rest, rfl, ?_⟩
          simp
  | @more a as s t u rest ha hcomma _ ih =>
      have hshort := Padded.shrinks hG ha
      have hcommaShort := hcomma.length
      cases bound with
      | nil => simp at hs; subst hs; simp at hshort
      | cons _ bound =>
          simp only [items, bind_eq_ok_iff, peekToken_eq_ok_iff, advance_eq_ok_iff]
          refine ⟨a, t, h.complete ha (.of_blanks hcomma (ends_cons (.inl rfl))), 0x2c, _,
            ⟨hcomma, rfl, u, rfl⟩, (), u, rfl, ?_⟩
          rw [if_neg (by decide), if_pos (by decide), map_eq_ok_iff]
          refine ⟨as, ih ?_, rfl⟩
          simp only [List.length_cons] at hs hcommaShort
          omega

theorem arrayRest_eq_ok_iff {read : Reader α} {G : Grammar α} (h : Reads read G) (hG : Solid G)
    {as : List α} : arrayRest read s = .ok (as, rest) ↔ Bracketed G as s rest := by
  simp only [arrayRest, bind_eq_ok_iff, peekToken_eq_ok_iff]
  constructor
  · rintro ⟨b, t, ⟨hblanks, hb, u, rfl⟩, hread⟩
    split at hread
    next hclose =>
      simp only [bind_eq_ok_iff, advance_eq_ok_iff, pure_eq_ok_iff] at hread
      obtain ⟨-, v, rfl, rfl, rfl⟩ := hread
      exact .inl ⟨rfl, beq_iff_eq.mp hclose ▸ hblanks⟩
    next =>
      simp only [bind_eq_ok_iff, get_eq_ok_iff] at hread
      obtain ⟨v, w, ⟨rfl, rfl⟩, hread⟩ := hread
      exact .inr ((items_iff_of_blanks hblanks hG).mpr (items_of_reads h hread))
  · rintro (⟨rfl, hclose⟩ | hitems)
    · refine ⟨0x5d, _, ⟨hclose, rfl, rest, rfl⟩, ?_⟩
      simp
    · obtain ⟨b, t, hblanks, hb, hne⟩ := items_open hG hitems
      refine ⟨b, _, ⟨hblanks, hb, t, rfl⟩, ?_⟩
      rw [if_neg (by simpa using hne)]
      simp only [bind_eq_ok_iff, get_eq_ok_iff]
      exact ⟨_, _, ⟨rfl, rfl⟩,
        reads_items h hG ((items_iff_of_blanks hblanks hG).mp hitems) (Nat.le_refl _)⟩

/-- The name of a member is read with the quotes around it and the colon behind it. -/
theorem label_eq_ok_iff {f : String → Reader β} {c : β} :
    (do token 0x22; let name ← stringRest; token 0x3a; f name : Reader β) s = .ok (c, rest) ↔
      ∃ name t, Label name s t ∧ f name t = .ok (c, rest) := by
  simp only [bind_eq_ok_iff, token_eq_ok_iff (show isSpace 0x22 = false from rfl),
    token_eq_ok_iff (show isSpace 0x3a = false from rfl), stringRest_eq_ok_iff]
  constructor
  · rintro ⟨-, t, hquote, name, u, hname, -, v, hcolon, hread⟩
    exact ⟨name, v, ⟨u, ⟨_, hquote, t, rfl, hname⟩, hcolon⟩, hread⟩
  · rintro ⟨name, v, ⟨u, ⟨_, hquote, t, rfl, hname⟩, hcolon⟩, hread⟩
    exact ⟨(), t, hquote, name, u, hname, (), v, hcolon, hread⟩

theorem members_of_reads {member : List String → String → Reader α}
    {G : List String → String → Grammar α} (h : ∀ seen name, Reads (member seen name) (G seen name))
    {bound : Bytes} {seen : List String} {ms : List (String × α)}
    (hread : memberList member bound seen s = .ok (ms, rest)) : Members G seen ms s rest := by
  induction bound generalizing seen s ms with
  | nil => simp [memberList] at hread
  | cons _ bound ih =>
      rw [memberList, label_eq_ok_iff] at hread
      simp only [bind_eq_ok_iff, peekToken_eq_ok_iff, advance_eq_ok_iff] at hread
      obtain ⟨name, t, hname, a, u, ha, b, v, ⟨hblanks, -, w, rfl⟩, -, x, rfl, hread⟩ := hread
      split at hread
      next hclose =>
        obtain ⟨rfl, rfl⟩ := pure_eq_ok_iff.mp hread
        exact .last hname ((h seen name).sound ha) (beq_iff_eq.mp hclose ▸ hblanks)
      next =>
      split at hread
      next hcomma =>
        obtain ⟨ms, hms, rfl⟩ := map_eq_ok_iff.mp hread
        exact .more hname ((h seen name).sound ha) (beq_iff_eq.mp hcomma ▸ hblanks) (ih hms)
      next => simp at hread

theorem reads_members {member : List String → String → Reader α}
    {G : List String → String → Grammar α} (h : ∀ seen name, Reads (member seen name) (G seen name))
    (hG : ∀ seen name, Solid (G seen name)) {bound : Bytes} {seen : List String}
    {ms : List (String × α)} (hms : Members G seen ms s rest) (hs : s.length ≤ bound.length) :
    memberList member bound seen s = .ok (ms, rest) := by
  induction hms generalizing bound with
  | @last seen name a s t u rest hname ha hclose =>
      have hshort := label_shrinks hname
      cases bound with
      | nil => exact absurd hshort (by simp_all)
      | cons _ bound =>
          rw [memberList, label_eq_ok_iff]
          simp only [bind_eq_ok_iff, peekToken_eq_ok_iff, advance_eq_ok_iff]
          refine ⟨name, t, hname, a, u, (h seen name).complete ha
            (.of_blanks hclose (ends_cons (.inr (.inr rfl)))), 0x7d, _, ⟨hclose, rfl, rest, rfl⟩,
            (), rest, rfl, ?_⟩
          simp
  | @more seen name a ms s t u v rest hname ha hcomma _ ih =>
      have hshort := label_shrinks hname
      have hvalue := Padded.shrinks (hG seen name) ha
      have hcommaShort := hcomma.length
      cases bound with
      | nil => exact absurd hshort (by simp_all)
      | cons _ bound =>
          rw [memberList, label_eq_ok_iff]
          simp only [bind_eq_ok_iff, peekToken_eq_ok_iff, advance_eq_ok_iff]
          refine ⟨name, t, hname, a, u, (h seen name).complete ha
            (.of_blanks hcomma (ends_cons (.inl rfl))), 0x2c, _, ⟨hcomma, rfl, v, rfl⟩,
            (), v, rfl, ?_⟩
          rw [if_neg (by decide), if_pos (by decide), map_eq_ok_iff]
          refine ⟨ms, ih ?_, rfl⟩
          simp only [List.length_cons] at hs hcommaShort
          omega

theorem objectRest_eq_ok_iff {member : List String → String → Reader α}
    {G : List String → String → Grammar α} (h : ∀ seen name, Reads (member seen name) (G seen name))
    (hG : ∀ seen name, Solid (G seen name)) {ms : List (String × α)} :
    objectRest member s = .ok (ms, rest) ↔ Braced G ms s rest := by
  simp only [objectRest, bind_eq_ok_iff, peekToken_eq_ok_iff]
  constructor
  · rintro ⟨b, t, ⟨hblanks, hb, u, rfl⟩, hread⟩
    split at hread
    next hclose =>
      simp only [bind_eq_ok_iff, advance_eq_ok_iff, pure_eq_ok_iff] at hread
      obtain ⟨-, v, rfl, rfl, rfl⟩ := hread
      exact .inl ⟨rfl, beq_iff_eq.mp hclose ▸ hblanks⟩
    next =>
      simp only [bind_eq_ok_iff, get_eq_ok_iff] at hread
      obtain ⟨v, w, ⟨rfl, rfl⟩, hread⟩ := hread
      exact .inr ((members_iff_of_blanks hblanks).mpr (members_of_reads h hread))
  · rintro (⟨rfl, hclose⟩ | hmembers)
    · refine ⟨0x7d, _, ⟨hclose, rfl, rest, rfl⟩, ?_⟩
      simp
    · obtain ⟨t, hblanks⟩ := members_open hmembers
      refine ⟨0x22, _, ⟨hblanks, rfl, t, rfl⟩, ?_⟩
      rw [if_neg (by decide)]
      simp only [bind_eq_ok_iff, get_eq_ok_iff]
      exact ⟨_, _, ⟨rfl, rfl⟩,
        reads_members h hG ((members_iff_of_blanks hblanks).mp hmembers) (Nat.le_refl _)⟩

/-! ## Values -/

theorem literal_eq_ok_iff {name : Bytes} {x : Unit} :
    literal name s = .ok (x, rest) ↔ s = name ++ rest := by
  induction name generalizing s with
  | nil => simp [literal]
  | cons b name ih =>
      simp only [literal, bind_eq_ok_iff, next_eq_ok_iff]
      constructor
      · rintro ⟨c, t, rfl, h⟩
        split at h
        next hc =>
          rw [ih] at h
          exact beq_iff_eq.mp hc ▸ h ▸ rfl
        next => simp at h
      · rintro rfl
        refine ⟨b, name ++ rest, rfl, ?_⟩
        rw [if_pos (by simp), ih]

/-- The first byte of a scalar tells of which kind it is. -/
theorem scalar_of_reads {j : Json} (h : scalar b (b :: s) = .ok (j, rest)) :
    Scalar j (b :: s) rest := by
  unfold scalar at h
  split at h
  next hb =>
    obtain rfl := beq_iff_eq.mp hb
    simp only [bind_eq_ok_iff, advance_eq_ok_iff, literal_eq_ok_iff, pure_eq_ok_iff] at h
    obtain ⟨-, t, ht, -, u, hu, rfl, rfl⟩ := h
    obtain rfl : s = nullRest ++ u := by simpa [← hu] using ht
    exact .null _
  next =>
  split at h
  next hb =>
    obtain rfl := beq_iff_eq.mp hb
    simp only [bind_eq_ok_iff, advance_eq_ok_iff, literal_eq_ok_iff, pure_eq_ok_iff] at h
    obtain ⟨-, t, ht, -, u, hu, rfl, rfl⟩ := h
    obtain rfl : s = trueRest ++ u := by simpa [← hu] using ht
    exact .true _
  next =>
  split at h
  next hb =>
    obtain rfl := beq_iff_eq.mp hb
    simp only [bind_eq_ok_iff, advance_eq_ok_iff, literal_eq_ok_iff, pure_eq_ok_iff] at h
    obtain ⟨-, t, ht, -, u, hu, rfl, rfl⟩ := h
    obtain rfl : s = falseRest ++ u := by simpa [← hu] using ht
    exact .false _
  next =>
  split at h
  next hb =>
    obtain rfl := beq_iff_eq.mp hb
    simp only [bind_eq_ok_iff, advance_eq_ok_iff, map_eq_ok_iff, stringRest_eq_ok_iff] at h
    obtain ⟨-, t, rfl, text, htext, rfl⟩ := h
    exact .string ⟨s, rfl, htext⟩
  next =>
  split at h
  next =>
    obtain ⟨n, hn, rfl⟩ := map_eq_ok_iff.mp h
    exact .number (numeral_of_reads hn)
  next => simp at h

theorem numeral_head {n : Number} (h : Numeral n s rest) :
    ∃ b t, s = b :: t ∧ (b == 0x2d || isDigit b) = true := by
  rcases h with h | ⟨t, rfl, -⟩
  · obtain ⟨d, t, rfl, hd⟩ := unsigned_head h
    exact ⟨d, t, rfl, by simp [hd]⟩
  · exact ⟨0x2d, t, rfl, rfl⟩

/-- The byte that a number begins with begins nothing else. -/
theorem numeral_byte (hb : (b == 0x2d || isDigit b) = true) :
    isSpace b = false ∧ b ≠ 0x5b ∧ b ≠ 0x5d ∧ b ≠ 0x7b ∧ b ≠ 0x6e ∧ b ≠ 0x74 ∧ b ≠ 0x66 ∧ b ≠ 0x22 := by
  rw [Bool.or_eq_true, beq_iff_eq] at hb
  rcases hb with rfl | hb
  · decide
  · have hne : ∀ c : UInt8, isDigit c = false → b ≠ c := fun c hc h ↦ by simp [← h, hb] at hc
    refine ⟨?_, hne _ rfl, hne _ rfl, hne _ rfl, hne _ rfl, hne _ rfl, hne _ rfl, hne _ rfl⟩
    have h20 := hne 0x20 rfl
    have h0a := hne 0x0a rfl
    have h09 := hne 0x09 rfl
    have h0d := hne 0x0d rfl
    simp [isSpace, h20, h0a, h09, h0d]

theorem scalar_head {j : Json} (h : Scalar j s rest) :
    ∃ b t, s = b :: t ∧ isSpace b = false ∧ b ≠ 0x5b ∧ b ≠ 0x5d ∧ b ≠ 0x7b := by
  cases h with
  | null | true | false => exact ⟨_, _, rfl, by decide⟩
  | string h =>
      obtain ⟨t, rfl, -⟩ := h
      exact ⟨0x22, t, rfl, by decide⟩
  | number h =>
      obtain ⟨b, t, rfl, hb⟩ := numeral_head h
      obtain ⟨hspace, hopen, hclose, hbrace, -⟩ := numeral_byte hb
      exact ⟨b, t, rfl, hspace, hopen, hclose, hbrace⟩

theorem reads_scalar {j : Json} (h : Scalar j (b :: s) rest) (hrest : Stops rest) :
    scalar b (b :: s) = .ok (j, rest) := by
  unfold scalar
  generalize hs : b :: s = r at h
  cases h with
  | null | true | false =>
      obtain ⟨rfl, rfl⟩ := List.cons.inj hs
      simp [literal_eq_ok_iff]
  | string h =>
      obtain ⟨t, rfl, htext⟩ := h
      obtain ⟨rfl, rfl⟩ := List.cons.inj hs
      simpa using htext
  | number h =>
      subst hs
      obtain ⟨c, t, hc, hb⟩ := numeral_head h
      obtain ⟨rfl, rfl⟩ := List.cons.inj hc
      obtain ⟨-, -, -, -, hn, ht, hf, hquote⟩ := numeral_byte hb
      rw [if_neg (by simpa using hn), if_neg (by simpa using ht), if_neg (by simpa using hf),
        if_neg (by simpa using hquote), if_pos hb, map_eq_ok_iff]
      exact ⟨_, reads_numeral h hrest, rfl⟩

theorem solid_quoted : Solid Quoted where
  opens h := by
    obtain ⟨t, rfl, -⟩ := h
    exact ⟨0x22, t, rfl, rfl, by decide⟩
  shrinks h := by
    obtain ⟨t, rfl, htext⟩ := h
    exact Nat.lt_succ_of_lt htext.shrinks

theorem solid_scalar : Solid Scalar where
  opens h := by
    obtain ⟨b, t, rfl, hspace, -, hclose, -⟩ := scalar_head h
    exact ⟨b, t, rfl, hspace, hclose⟩
  shrinks h := by
    cases h with
    | null | true | false =>
        simp only [List.cons_append, List.length_cons, List.length_append]
        omega
    | number h => exact numeral_shrinks h
    | string h => exact solid_quoted.shrinks h

theorem solid_value (depth : Nat) : Solid (Value depth) := by
  induction depth with
  | zero => exact solid_scalar
  | succ depth ih =>
      refine ⟨?_, ?_⟩
      · rintro j s rest (h | ⟨items, t, rfl, rfl, -⟩ | ⟨members, t, rfl, rfl, -⟩)
        · exact solid_scalar.opens h
        · exact ⟨0x5b, t, rfl, by decide⟩
        · exact ⟨0x7b, t, rfl, by decide⟩
      · rintro j s rest (h | ⟨items, t, rfl, rfl, h⟩ | ⟨members, t, rfl, rfl, h⟩)
        · exact solid_scalar.shrinks h
        · exact Nat.lt_succ_of_lt (bracketed_shrinks ih h)
        · exact Nat.lt_succ_of_lt (braced_shrinks (fun _ _ ↦ ih) h)

theorem reads_value (depth : Nat) : Reads (value depth) (Value depth) := by
  induction depth with
  | zero =>
      refine ⟨fun {j s rest} h ↦ ?_, ?_⟩
      · simp only [value, bind_eq_ok_iff, peekToken_eq_ok_iff] at h
        obtain ⟨b, t, ⟨hblanks, -, u, rfl⟩, h⟩ := h
        split at h
        · simp at h
        · exact ⟨_, hblanks, scalar_of_reads h⟩
      · rintro j s rest ⟨t, hblanks, h⟩ hrest
        obtain ⟨b, u, rfl, hb, hopen, -, hbrace⟩ := scalar_head h
        simp only [value, bind_eq_ok_iff, peekToken_eq_ok_iff]
        refine ⟨b, _, ⟨hblanks, hb, u, rfl⟩, ?_⟩
        rw [if_neg (by simp [hopen, hbrace])]
        exact reads_scalar h hrest.stops
  | succ depth ih =>
      have harray : ∀ {items : List Json} {s rest : Bytes},
          arrayRest (value depth) s = .ok (items, rest) ↔ Bracketed (Value depth) items s rest :=
        arrayRest_eq_ok_iff ih (solid_value depth)
      have hobject : ∀ {members : Json.Members} {s rest : Bytes},
          objectRest (fun _ _ ↦ value depth) s = .ok (members, rest) ↔
            Braced (fun _ _ ↦ Value depth) members s rest :=
        objectRest_eq_ok_iff (fun _ _ ↦ ih) fun _ _ ↦ solid_value depth
      refine ⟨fun {j s rest} h ↦ ?_, ?_⟩
      · simp only [value, bind_eq_ok_iff, peekToken_eq_ok_iff] at h
        obtain ⟨b, t, ⟨hblanks, -, u, rfl⟩, h⟩ := h
        refine ⟨_, hblanks, ?_⟩
        split at h
        next hb =>
          simp only [bind_eq_ok_iff, advance_eq_ok_iff, map_eq_ok_iff, harray] at h
          obtain ⟨-, v, rfl, items, hitems, rfl⟩ := h
          exact .inr (.inl ⟨items, u, rfl, by rw [beq_iff_eq.mp hb], hitems⟩)
        next =>
        split at h
        next hb =>
          simp only [bind_eq_ok_iff, advance_eq_ok_iff, map_eq_ok_iff, hobject] at h
          obtain ⟨-, v, rfl, members, hmembers, rfl⟩ := h
          exact .inr (.inr ⟨members, u, rfl, by rw [beq_iff_eq.mp hb], hmembers⟩)
        next => exact .inl (scalar_of_reads h)
      · rintro j s rest ⟨t, hblanks, h⟩ hrest
        simp only [value, bind_eq_ok_iff, peekToken_eq_ok_iff]
        rcases h with h | ⟨items, u, rfl, rfl, h⟩ | ⟨members, u, rfl, rfl, h⟩
        · obtain ⟨b, u, rfl, hb, hopen, -, hbrace⟩ := scalar_head h
          refine ⟨b, _, ⟨hblanks, hb, u, rfl⟩, ?_⟩
          rw [if_neg (by simpa using hopen), if_neg (by simpa using hbrace)]
          exact reads_scalar h hrest.stops
        · refine ⟨0x5b, _, ⟨hblanks, rfl, u, rfl⟩, ?_⟩
          rw [if_pos (by decide)]
          simp only [bind_eq_ok_iff, advance_eq_ok_iff, map_eq_ok_iff, harray]
          exact ⟨(), u, rfl, items, h, rfl⟩
        · refine ⟨0x7b, _, ⟨hblanks, rfl, u, rfl⟩, ?_⟩
          rw [if_neg (by decide), if_pos (by decide)]
          simp only [bind_eq_ok_iff, advance_eq_ok_iff, map_eq_ok_iff, hobject]
          exact ⟨(), u, rfl, members, h, rfl⟩

end Reader

/-- What is read is what is written. -/
theorem Json.read_eq_ok_iff {document : Bytes} {j : Json} :
    Json.read document = .ok j ↔ j.Written document :=
  Reader.run_eq_ok_iff (Reader.reads_value nestingLimit)

end Storyline
