import Mathlib.Data.List.Forall2
import Storyline.Action.Reader
import Storyline.Proofs.Json.Values

/-!
# Reading tagged values

A reader that looks at the tag where it stands reads the values whose tag is marked: it
stands once, as a name that is accepted.
-/

namespace Storyline

/-! ## Members told by the names before them -/

/-- Each member has the property, told the names before it. -/
def Along {α : Type} (P : List String → String → α → Prop) :
    List String → List (String × α) → Prop
  | _, [] => True
  | seen, (name, a) :: ms => P seen name a ∧ Along P (name :: seen) ms

namespace Grammar

variable {α : Type} {s rest : Bytes}

theorem Solid.and {G : Grammar α} (hG : Solid G) {P : α → Prop} :
    Solid fun a s rest ↦ G a s rest ∧ P a where
  opens h := hG.opens h.1
  shrinks h := hG.shrinks h.1

theorem members_along {G : List String → String → Grammar α} {P : List String → String → α → Prop}
    {seen : List String} {ms : List (String × α)} :
    Members (fun seen name a s rest ↦ G seen name a s rest ∧ P seen name a) seen ms s rest ↔
      Members G seen ms s rest ∧ Along P seen ms := by
  constructor
  · intro h
    induction h with
    | last hname ha hclose =>
        obtain ⟨t, hblanks, ha, hP⟩ := ha
        exact ⟨.last hname ⟨t, hblanks, ha⟩ hclose, hP, trivial⟩
    | more hname ha hcomma _ ih =>
        obtain ⟨t, hblanks, ha, hP⟩ := ha
        exact ⟨.more hname ⟨t, hblanks, ha⟩ hcomma ih.1, hP, ih.2⟩
  · rintro ⟨h, hP⟩
    induction h with
    | last hname ha hclose =>
        obtain ⟨t, hblanks, ha⟩ := ha
        exact .last hname ⟨t, hblanks, ha, hP.1⟩ hclose
    | more hname ha hcomma _ ih =>
        obtain ⟨t, hblanks, ha⟩ := ha
        exact .more hname ⟨t, hblanks, ha, hP.1⟩ hcomma (ih hP.2)

theorem braced_along {G : List String → String → Grammar α} {P : List String → String → α → Prop}
    {ms : List (String × α)} :
    Braced (fun seen name a s rest ↦ G seen name a s rest ∧ P seen name a) ms s rest ↔
      Braced G ms s rest ∧ Along P [] ms := by
  constructor
  · rintro (⟨rfl, hclose⟩ | h)
    · exact ⟨.inl ⟨rfl, hclose⟩, trivial⟩
    · exact ⟨.inr (members_along.mp h).1, (members_along.mp h).2⟩
  · rintro ⟨⟨rfl, hclose⟩ | h, hP⟩
    · exact .inl ⟨rfl, hclose⟩
    · exact .inr (members_along.mpr ⟨h, hP⟩)

end Grammar

theorem along_once {α : Type} {names : List String} {Q : String → α → Prop} {seen : List String}
    {ms : List (String × α)} :
    Along (fun seen name a ↦ name ∈ names → name ∉ seen ∧ Q name a) seen ms ↔
      (∀ name ∈ names, ms.countP (fun m ↦ m.1 == name) ≤ if name ∈ seen then 0 else 1) ∧
        ∀ m ∈ ms, m.1 ∈ names → Q m.1 m.2 := by
  induction ms generalizing seen with
  | nil => simp [Along]
  | cons m ms ih =>
      obtain ⟨first, a⟩ := m
      simp only [Along, ih, List.countP_cons, List.mem_cons, beq_iff_eq, forall_eq_or_imp]
      constructor
      · rintro ⟨hfirst, hcount, hrest⟩
        refine ⟨fun name hname ↦ ?_, fun hname ↦ (hfirst hname).2, hrest⟩
        have hle := hcount name hname
        by_cases heq : first = name
        · subst heq
          rw [if_pos (.inl rfl)] at hle
          rw [if_neg (hfirst hname).1]
          simp only [if_true]
          omega
        · simpa [heq, Ne.symm heq] using hle
      · rintro ⟨hcount, hfirst, hrest⟩
        refine ⟨fun hname ↦ ⟨fun hseen ↦ ?_, hfirst hname⟩, fun name hname ↦ ?_, hrest⟩
        · simpa [hseen] using hcount first hname
        · have hle := hcount name hname
          by_cases heq : first = name
          · subst heq
            rw [if_pos (.inl rfl)]
            simp only [if_true] at hle
            split at hle <;> omega
          · simpa [heq, Ne.symm heq] using hle

/-- The members give each of the names at most once, with the property. -/
theorem along_once_nil {α : Type} {names : List String} {Q : String → α → Prop}
    {ms : List (String × α)} :
    Along (fun seen name a ↦ name ∈ names → name ∉ seen ∧ Q name a) [] ms ↔
      (∀ name ∈ names, ms.countP (fun m ↦ m.1 == name) ≤ 1) ∧ ∀ m ∈ ms, m.1 ∈ names → Q m.1 m.2 := by
  rw [along_once]
  simp

/-! ## Tags -/

namespace Json

/-- The tag of a value, if it is an object or an array, is an accepted name; an
object has it at most once. -/
def Marked (tag : String) (accepts : String → Bool) : Json → Prop
  | object members =>
    count tag members ≤ 1 ∧
      ∀ m ∈ members, m.1 = tag → ∃ name, m.2 = string name ∧ accepts name = true
  | array items => ∃ name rest, items = string name :: rest ∧ accepts name = true
  | _ => True

end Json

namespace Reader

open Grammar

variable {α : Type} {s t rest : Bytes} {b : UInt8} {tag : String} {accepts : String → Bool}

theorem mismatch_eq_ok_iff {a : α} : mismatch s = .ok (a, rest) ↔ False := by
  simp only [mismatch, bind_eq_ok_iff, iff_false]
  rintro ⟨b, t, -, h⟩
  split at h
  · simp at h
  · simp at h

theorem string_eq_ok_iff {text : String} : string s = .ok (text, rest) ↔ Padded Quoted text s rest := by
  simp only [string, bind_eq_ok_iff, peekToken_eq_ok_iff]
  constructor
  · rintro ⟨b, t, ⟨hblanks, -, u, rfl⟩, h⟩
    split at h
    next hb =>
      simp only [bind_eq_ok_iff, advance_eq_ok_iff, stringRest_eq_ok_iff] at h
      obtain ⟨-, v, rfl, h⟩ := h
      exact ⟨_, hblanks, u, by rw [beq_iff_eq.mp hb], h⟩
    next => exact (mismatch_eq_ok_iff.mp h).elim
  · rintro ⟨t, hblanks, u, rfl, h⟩
    refine ⟨0x22, _, ⟨hblanks, rfl, u, rfl⟩, ?_⟩
    rw [if_pos (by decide)]
    simp only [bind_eq_ok_iff, advance_eq_ok_iff, stringRest_eq_ok_iff]
    exact ⟨(), u, rfl, h⟩

theorem tagName_eq_ok_iff {j : Json} : tagName accepts s = .ok (j, rest) ↔
    ∃ name, j = .string name ∧ Padded Quoted name s rest ∧ accepts name = true := by
  simp only [tagName, bind_eq_ok_iff, string_eq_ok_iff]
  constructor
  · rintro ⟨name, t, hname, h⟩
    split at h
    next hok =>
      obtain ⟨rfl, rfl⟩ := pure_eq_ok_iff.mp h
      exact ⟨name, rfl, hname, hok⟩
    next => simp at h
  · rintro ⟨name, rfl, hname, hok⟩
    refine ⟨name, rest, hname, ?_⟩
    simp [hok]

theorem value_string_iff {depth : Nat} {text : String} :
    Value depth (.string text) s rest ↔ Quoted text s rest := by
  have hscalar : Scalar (.string text) s rest ↔ Quoted text s rest :=
    ⟨fun h ↦ by cases h with | string h => exact h, .string⟩
  cases depth with
  | zero => exact hscalar
  | succ depth => simp [Value, hscalar]

theorem reads_tagName (depth : Nat) : Reads (tagName accepts) fun j s rest ↦
    Value depth j s rest ∧ ∃ name, j = .string name ∧ accepts name = true where
  sound h := by
    obtain ⟨name, rfl, ⟨t, hblanks, hname⟩, hok⟩ := tagName_eq_ok_iff.mp h
    exact ⟨t, hblanks, value_string_iff.mpr hname, name, rfl, hok⟩
  complete := by
    rintro j s rest ⟨t, hblanks, hname, name, rfl, hok⟩ -
    exact tagName_eq_ok_iff.mpr ⟨name, rfl, ⟨t, hblanks, value_string_iff.mp hname⟩, hok⟩

theorem reads_taggedMember (depth : Nat) (seen : List String) (name : String) :
    Reads (taggedMember tag accepts depth seen name) fun j s rest ↦ Value depth j s rest ∧
      (name ∈ [tag] → name ∉ seen ∧ ∃ text, j = .string text ∧ accepts text = true) := by
  unfold taggedMember
  split
  next htag =>
    obtain rfl := beq_iff_eq.mp htag
    split
    next hseen =>
      refine (reads_fail .mismatched).congr fun j s rest ↦ ⟨False.elim, fun h ↦ ?_⟩
      exact (h.2 (List.mem_singleton.mpr rfl)).1 (by simpa using hseen)
    next hseen =>
      refine (reads_tagName depth).congr fun j s rest ↦ ?_
      simp [show name ∉ seen by simpa using hseen]
  next htag =>
    refine (reads_value depth).congr fun j s rest ↦ ?_
    simp [show name ≠ tag by simpa using htag]

theorem taggedItems_eq_ok_iff (depth : Nat) {j : Json} :
    (do
      if (← peekToken) == 0x5d then fail .mismatched
      else
        let first ← tagName accepts
        let b ← peekToken
        advance
        if b == 0x5d then pure (.array [first])
        else if b == 0x2c then
          let rest ← items (value depth) (← get)
          pure (.array (first :: rest))
        else fail .malformed : Reader Json) s = .ok (j, rest) ↔
      ∃ name items, j = .array (.string name :: items) ∧ accepts name = true ∧
        Items (Value depth) (.string name :: items) s rest := by
  simp only [bind_eq_ok_iff, peekToken_eq_ok_iff]
  constructor
  · rintro ⟨b, t, ⟨hs, -, u, rfl⟩, h⟩
    split at h
    · simp at h
    simp only [bind_eq_ok_iff, advance_eq_ok_iff, peekToken_eq_ok_iff] at h
    obtain ⟨first, t, hfirst, c, v, ⟨ht, -, w, rfl⟩, -, x, rfl, h⟩ := h
    obtain ⟨y, hy, hfirst, name, rfl, hname⟩ := (reads_tagName depth).sound hfirst
    have hpadded : Padded (Value depth) (.string name) s t := ⟨y, hs.trans hy, hfirst⟩
    split at h
    next hc =>
      obtain rfl := beq_iff_eq.mp hc
      obtain ⟨rfl, rfl⟩ := pure_eq_ok_iff.mp h
      exact ⟨name, [], rfl, hname, .last hpadded ht⟩
    next =>
    split at h
    next hc =>
      obtain rfl := beq_iff_eq.mp hc
      simp only [bind_eq_ok_iff, get_eq_ok_iff] at h
      obtain ⟨p, q, ⟨rfl, rfl⟩, items, r, hitems, h⟩ := h
      obtain ⟨rfl, rfl⟩ := pure_eq_ok_iff.mp h
      exact ⟨name, items, rfl, hname, .more hpadded ht (items_of_reads (reads_value depth) hitems)⟩
    next => simp at h
  · rintro ⟨name, items, rfl, hname, hitems⟩
    have htag : ∀ {t b u}, Padded (Value depth) (.string name) s t → Blanks t (b :: u) →
        b = 0x2c ∨ b = 0x5d ∨ b = 0x7d → ∃ c v, (Blanks s (c :: v) ∧ isSpace c = false ∧ c ≠ 0x5d) ∧
          tagName accepts (c :: v) = .ok (.string name, t) := by
      rintro t b u ⟨v, hv, hvalue⟩ ht hb
      obtain ⟨w, rfl, htext⟩ := value_string_iff.mp hvalue
      refine ⟨0x22, w, ⟨hv, rfl, by decide⟩, (reads_tagName depth).complete ?_ ?_⟩
      · exact ⟨_, .nil _, hvalue, name, rfl, hname⟩
      · exact .of_blanks ht (ends_cons hb)
    cases hitems with
    | @last _ _ t _ hfirst hclose =>
        obtain ⟨c, v, ⟨hs, hc, hne⟩, hread⟩ := htag hfirst hclose (.inr (.inl rfl))
        refine ⟨c, _, ⟨hs, hc, v, rfl⟩, ?_⟩
        rw [if_neg (by simpa using hne)]
        simp only [bind_eq_ok_iff, advance_eq_ok_iff, peekToken_eq_ok_iff]
        refine ⟨_, t, hread, 0x5d, _, ⟨hclose, rfl, rest, rfl⟩, (), rest, rfl, ?_⟩
        simp
    | @more _ _ _ t u _ hfirst hcomma hitems =>
        obtain ⟨c, v, ⟨hs, hc, hne⟩, hread⟩ := htag hfirst hcomma (.inl rfl)
        refine ⟨c, _, ⟨hs, hc, v, rfl⟩, ?_⟩
        rw [if_neg (by simpa using hne)]
        simp only [bind_eq_ok_iff, advance_eq_ok_iff, peekToken_eq_ok_iff]
        refine ⟨_, t, hread, 0x2c, _, ⟨hcomma, rfl, u, rfl⟩, (), u, rfl, ?_⟩
        rw [if_neg (by decide), if_pos (by decide)]
        simp only [bind_eq_ok_iff, get_eq_ok_iff, pure_eq_ok_iff]
        exact ⟨u, u, ⟨rfl, rfl⟩, items, rest,
          reads_items (reads_value depth) (solid_value depth) hitems (Nat.le_refl _), rfl, rfl⟩

theorem reads_taggedValue (depth : Nat) : Reads (taggedValue tag accepts depth) fun j s rest ↦
    Value depth j s rest ∧ j.Marked tag accepts := by
  have hscalar : ∀ {j s rest}, Scalar j s rest → j.Marked tag accepts := by
    intro j s rest h
    cases h <;> trivial
  cases depth with
  | zero =>
      refine (reads_value 0).congr fun j s rest ↦ ⟨fun h ↦ ⟨h, hscalar h⟩, And.left⟩
  | succ depth =>
      have hobject : ∀ {members : Json.Members} {s rest : Bytes},
          objectRest (taggedMember tag accepts depth) s = .ok (members, rest) ↔
            Braced (fun _ _ ↦ Value depth) members s rest ∧
              (Json.object members).Marked tag accepts := by
        intro members s rest
        rw [objectRest_eq_ok_iff (reads_taggedMember depth) fun _ _ ↦ (solid_value depth).and,
          braced_along (G := fun _ _ ↦ Value depth), along_once_nil]
        simp [Json.Marked, Json.count]
      refine ⟨fun {j s rest} h ↦ ?_, ?_⟩
      · simp only [taggedValue, bind_eq_ok_iff, peekToken_eq_ok_iff] at h
        obtain ⟨b, t, ⟨hblanks, -, u, rfl⟩, h⟩ := h
        refine ⟨_, hblanks, ?_⟩
        split at h
        next hb =>
          obtain rfl := beq_iff_eq.mp hb
          rw [bind_eq_ok_iff] at h
          obtain ⟨x, v, hv, h⟩ := h
          obtain rfl : u = v := advance_eq_ok_iff.mp hv
          obtain ⟨name, items, rfl, hname, hitems⟩ := (taggedItems_eq_ok_iff depth).mp h
          exact ⟨.inr (.inl ⟨_, u, rfl, rfl, .inr hitems⟩), name, items, rfl, hname⟩
        next =>
        split at h
        next hb =>
          obtain rfl := beq_iff_eq.mp hb
          simp only [bind_eq_ok_iff, advance_eq_ok_iff, map_eq_ok_iff, hobject] at h
          obtain ⟨-, v, rfl, members, ⟨hmembers, hmarked⟩, rfl⟩ := h
          exact ⟨.inr (.inr ⟨members, u, rfl, rfl, hmembers⟩), hmarked⟩
        next =>
          have hj := scalar_of_reads h
          exact ⟨.inl hj, hscalar hj⟩
      · rintro j s rest ⟨t, hblanks, hj, hmarked⟩ hrest
        simp only [taggedValue, bind_eq_ok_iff, peekToken_eq_ok_iff]
        rcases hj with hj | ⟨items, u, rfl, rfl, hitems⟩ | ⟨members, u, rfl, rfl, hmembers⟩
        · obtain ⟨b, u, rfl, hb, hopen, -, hbrace⟩ := scalar_head hj
          refine ⟨b, _, ⟨hblanks, hb, u, rfl⟩, ?_⟩
          rw [if_neg (by simpa using hopen), if_neg (by simpa using hbrace)]
          exact reads_scalar hj hrest.stops
        · refine ⟨0x5b, _, ⟨hblanks, rfl, u, rfl⟩, ?_⟩
          rw [if_pos (by decide)]
          obtain ⟨name, more, rfl, hname⟩ := hmarked
          obtain ⟨hnil, -⟩ | hitems := hitems
          · exact (List.cons_ne_nil _ _ hnil).elim
          rw [bind_eq_ok_iff]
          exact ⟨(), u, advance_eq_ok_iff.mpr rfl,
            (taggedItems_eq_ok_iff depth).mpr ⟨name, more, rfl, hname, hitems⟩⟩
        · refine ⟨0x7b, _, ⟨hblanks, rfl, u, rfl⟩, ?_⟩
          rw [if_neg (by decide), if_pos (by decide)]
          simp only [bind_eq_ok_iff, advance_eq_ok_iff, map_eq_ok_iff, hobject]
          exact ⟨(), u, rfl, members, ⟨hmembers, hmarked⟩, rfl⟩

/-! ## What is read off values -/

theorem marked_of_tagged {variants : List String} {j fields : Json} {t : Json.Tag}
    (h : Json.tagged .named tag variants j = some (t, fields))
    (haccepts : ∀ name, Json.Tag.ofName variants name = t → accepts name = true) :
    j.Marked tag accepts := by
  have hname : ∀ {value t'}, Json.asTag .named variants value = some t' → t' = t →
      ∃ name, value = .string name ∧ accepts name = true := by
    rintro value t' hvalue rfl
    unfold Json.asTag at hvalue
    split at hvalue
    next name => exact ⟨name, rfl, haccepts name (Option.some.inj hvalue)⟩
    next => simp at hvalue
    next => exact nomatch hvalue
  cases j with
  | object members =>
      unfold Json.tagged at h
      dsimp only at h
      split at h
      next first value hfilter =>
        obtain ⟨t', ht, h⟩ := Option.bind_eq_some_iff.mp h
        refine ⟨?_, fun m hm htag ↦ ?_⟩
        · rw [Json.count, List.countP_eq_length_filter, hfilter]
          exact Nat.le_refl 1
        · have hmem : m ∈ members.filter fun m ↦ m.1 == tag :=
            List.mem_filter.mpr ⟨hm, beq_iff_eq.mpr htag⟩
          rw [hfilter, List.mem_singleton] at hmem
          subst hmem
          exact hname ht (Prod.mk.inj (Option.some.inj h)).1
      next => exact nomatch h
  | array items =>
      cases items with
      | nil => exact nomatch h
      | cons first items =>
          obtain ⟨t', ht, h⟩ := Option.bind_eq_some_iff.mp h
          obtain ⟨name, rfl, hok⟩ := hname ht (Prod.mk.inj (Option.some.inj h)).1
          exact ⟨name, items, rfl, hok⟩
  | _ => exact nomatch h

theorem value_array_iff {depth : Nat} {items : List Json} :
    Value depth (.array items) s rest ↔
      ∃ below t, depth = below + 1 ∧ s = 0x5b :: t ∧ Bracketed (Value below) items t rest := by
  cases depth with
  | zero => exact ⟨fun h ↦ (nomatch h), fun ⟨_, _, h, _⟩ ↦ (nomatch h)⟩
  | succ depth =>
      constructor
      · rintro (h | ⟨items, t, h, rfl, hitems⟩ | ⟨_, _, h, -⟩)
        · exact nomatch h
        · obtain rfl := Json.array.inj h
          exact ⟨depth, t, rfl, rfl, hitems⟩
        · exact nomatch h
      · rintro ⟨below, t, hdepth, rfl, hitems⟩
        obtain rfl := Nat.succ.inj hdepth
        exact .inr (.inl ⟨items, t, rfl, rfl, hitems⟩)

theorem value_object_iff {depth : Nat} {members : Json.Members} :
    Value depth (.object members) s rest ↔
      ∃ below t, depth = below + 1 ∧ s = 0x7b :: t ∧
        Braced (fun _ _ ↦ Value below) members t rest := by
  cases depth with
  | zero => exact ⟨fun h ↦ (nomatch h), fun ⟨_, _, h, _⟩ ↦ (nomatch h)⟩
  | succ depth =>
      constructor
      · rintro (h | ⟨_, _, h, -⟩ | ⟨members, t, h, rfl, hmembers⟩)
        · exact nomatch h
        · exact nomatch h
        · obtain rfl := Json.object.inj h
          exact ⟨depth, t, rfl, rfl, hmembers⟩
      · rintro ⟨below, t, hdepth, rfl, hmembers⟩
        obtain rfl := Nat.succ.inj hdepth
        exact .inr (.inr ⟨members, t, rfl, rfl, hmembers⟩)

/-- Values of which something is true. -/
def Told (P : Json → α → Prop) (depth : Nat) : Grammar α :=
  fun a s rest ↦ ∃ j, Value depth j s rest ∧ P j a

theorem solid_told (P : Json → α → Prop) (depth : Nat) : Solid (Told P depth) where
  opens h := (solid_value depth).opens h.choose_spec.1
  shrinks h := (solid_value depth).shrinks h.choose_spec.1

theorem items_told {P : Json → α → Prop} {depth : Nat} {as : List α} :
    Items (Told P depth) as s rest ↔
      ∃ items, Items (Value depth) items s rest ∧ List.Forall₂ P items as := by
  constructor
  · intro h
    induction h with
    | last ha hclose =>
        obtain ⟨t, hblanks, j, hj, hP⟩ := ha
        exact ⟨[j], .last ⟨t, hblanks, hj⟩ hclose, .cons hP .nil⟩
    | more ha hcomma _ ih =>
        obtain ⟨t, hblanks, j, hj, hP⟩ := ha
        obtain ⟨items, hitems, hrest⟩ := ih
        exact ⟨j :: items, .more ⟨t, hblanks, hj⟩ hcomma hitems, .cons hP hrest⟩
  · rintro ⟨items, h, hP⟩
    induction h generalizing as with
    | last hj hclose =>
        obtain ⟨t, hblanks, hj⟩ := hj
        cases hP with
        | cons hP hrest =>
            cases hrest
            exact .last ⟨t, hblanks, _, hj, hP⟩ hclose
    | more hj hcomma _ ih =>
        obtain ⟨t, hblanks, hj⟩ := hj
        cases hP with
        | cons hP hrest => exact .more ⟨t, hblanks, _, hj, hP⟩ hcomma (ih hrest)

theorem bracketed_told {P : Json → α → Prop} {depth : Nat} {as : List α} :
    Bracketed (Told P depth) as s rest ↔
      ∃ items, Bracketed (Value depth) items s rest ∧ List.Forall₂ P items as := by
  constructor
  · rintro (⟨rfl, hclose⟩ | h)
    · exact ⟨[], .inl ⟨rfl, hclose⟩, .nil⟩
    · obtain ⟨items, hitems, hP⟩ := items_told.mp h
      exact ⟨items, .inr hitems, hP⟩
  · rintro ⟨items, ⟨rfl, hclose⟩ | hitems, hP⟩
    · cases hP
      exact .inl ⟨rfl, hclose⟩
    · exact .inr (items_told.mpr ⟨items, hitems, hP⟩)

/-- A reader of items reads the arrays of what they are told of. -/
theorem reads_arrayOf {item : Nat → Reader α} {P : Json → α → Prop}
    (h : ∀ depth, Reads (item depth) (Told P depth)) (depth : Nat) :
    Reads (arrayOf item depth)
      (Told (fun j as ↦ ∃ items, j = .array items ∧ List.Forall₂ P items as) depth) := by
  cases depth with
  | zero =>
      refine ⟨fun {as s rest} hread ↦ ?_, ?_⟩
      · simp only [arrayOf, bind_eq_ok_iff] at hread
        obtain ⟨b, t, -, hread⟩ := hread
        split at hread
        · simp at hread
        · exact (mismatch_eq_ok_iff.mp hread).elim
      · rintro as s rest ⟨t, -, j, hj, items, rfl, -⟩
        cases hj
  | succ depth =>
      have hitems : ∀ {as s rest}, arrayRest (item depth) s = .ok (as, rest) ↔
          ∃ items, Bracketed (Value depth) items s rest ∧ List.Forall₂ P items as := by
        intro as s rest
        rw [arrayRest_eq_ok_iff (h depth) (solid_told P depth), bracketed_told]
      refine ⟨fun {as s rest} hread ↦ ?_, ?_⟩
      · simp only [arrayOf, bind_eq_ok_iff, peekToken_eq_ok_iff] at hread
        obtain ⟨b, t, ⟨hblanks, -, u, rfl⟩, hread⟩ := hread
        split at hread
        next hb =>
          obtain rfl := beq_iff_eq.mp hb
          simp only [bind_eq_ok_iff, advance_eq_ok_iff, hitems] at hread
          obtain ⟨-, v, rfl, items, hread, hP⟩ := hread
          exact ⟨_, hblanks, _, value_array_iff.mpr ⟨depth, u, rfl, rfl, hread⟩, items, rfl, hP⟩
        next => exact (mismatch_eq_ok_iff.mp hread).elim
      · rintro as s rest ⟨t, hblanks, j, hj, items, rfl, hP⟩ -
        obtain ⟨below, u, hdepth, rfl, hj⟩ := value_array_iff.mp hj
        obtain rfl := Nat.succ.inj hdepth
        simp only [arrayOf, bind_eq_ok_iff, peekToken_eq_ok_iff]
        refine ⟨0x5b, _, ⟨hblanks, rfl, u, rfl⟩, ?_⟩
        rw [if_pos (by decide)]
        simp only [bind_eq_ok_iff, advance_eq_ok_iff, hitems]
        exact ⟨(), u, rfl, items, hj, hP⟩

/-- A document read through the values that it may hold. -/
theorem run_told_iff {read : Reader α} {P : Json → α → Prop}
    (h : Reads read (Told P nestingLimit)) {document : Bytes} {a : α} :
    run read document = .ok a ↔ ∃ j : Json, j.Written document ∧ P j a := by
  rw [run_eq_ok_iff h]
  constructor
  · rintro ⟨rest, ⟨t, hblanks, j, hj, hP⟩, hrest⟩
    exact ⟨j, ⟨rest, ⟨t, hblanks, hj⟩, hrest⟩, hP⟩
  · rintro ⟨j, ⟨rest, ⟨t, hblanks, hj⟩, hrest⟩, hP⟩
    exact ⟨rest, ⟨t, hblanks, j, hj, hP⟩, hrest⟩

end Reader

end Storyline
