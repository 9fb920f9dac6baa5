import Storyline.Proofs.Json.Tags

/-!
# Members, places and what may be null

Readers that tell of each member of an object, that give each place of an array a reader
of its own, or that admit `null` besides what they read.
-/

namespace Storyline

theorem Json.asChoice_eq_some_iff {j : Json} {name : String} : asChoice j = some name ↔
    j = .string name ∨ j = .object [(name, .null)] ∨ j = .object [(name, .object [])] := by
  constructor
  · intro h
    unfold asChoice at h
    split at h
    next => exact .inl (Option.some.inj h ▸ rfl)
    next => exact .inr (.inl (Option.some.inj h ▸ rfl))
    next => exact .inr (.inr (Option.some.inj h ▸ rfl))
    next => exact nomatch h
  · rintro (rfl | rfl | rfl) <;> rfl

namespace Grammar

variable {α β : Type} {s rest : Bytes}

/-- Members that are told of, one by one. -/
theorem braced_told {G : String → Grammar β} {T : String → β → α → Prop} {as : List (String × α)} :
    Braced (fun _ name a s rest ↦ ∃ v, G name v s rest ∧ T name v a) as s rest ↔
      ∃ vs, Braced (fun _ name ↦ G name) vs s rest ∧
        List.Forall₂ (fun v a ↦ v.1 = a.1 ∧ T v.1 v.2 a.2) vs as := by
  constructor
  · rintro (⟨rfl, hclose⟩ | h)
    · exact ⟨[], .inl ⟨rfl, hclose⟩, .nil⟩
    · suffices h : ∃ vs, Grammar.Members (fun _ name ↦ G name) [] vs s rest ∧
          List.Forall₂ (fun v a ↦ v.1 = a.1 ∧ T v.1 v.2 a.2) vs as from
        ⟨h.choose, .inr h.choose_spec.1, h.choose_spec.2⟩
      generalize ([] : List String) = seen at h ⊢
      induction h with
      | @last seen name a s t u rest hname ha hclose =>
          obtain ⟨x, hblanks, v, hv, hT⟩ := ha
          exact ⟨[(name, v)], .last hname ⟨x, hblanks, hv⟩ hclose, .cons ⟨rfl, hT⟩ .nil⟩
      | @more seen name a ms s t u v rest hname ha hcomma _ ih =>
          obtain ⟨x, hblanks, w, hw, hT⟩ := ha
          obtain ⟨vs, hvs, hrest⟩ := ih
          exact ⟨(name, w) :: vs, .more hname ⟨x, hblanks, hw⟩ hcomma hvs, .cons ⟨rfl, hT⟩ hrest⟩
  · rintro ⟨vs, ⟨rfl, hclose⟩ | h, hT⟩
    · cases hT
      exact .inl ⟨rfl, hclose⟩
    · refine .inr ?_
      generalize ([] : List String) = seen at h ⊢
      induction h generalizing as with
      | last hname hv hclose =>
          obtain ⟨x, hblanks, hv⟩ := hv
          cases hT with
          | @cons _ a _ _ hT hrest =>
              cases hrest
              obtain ⟨name', a⟩ := a
              obtain ⟨rfl, hT⟩ := hT
              exact .last hname ⟨x, hblanks, _, hv, hT⟩ hclose
      | more hname hv hcomma _ ih =>
          obtain ⟨x, hblanks, hv⟩ := hv
          cases hT with
          | @cons _ a _ _ hT hrest =>
              obtain ⟨name', a⟩ := a
              obtain ⟨rfl, hT⟩ := hT
              exact .more hname ⟨x, hblanks, _, hv, hT⟩ hcomma (ih hrest)

end Grammar

namespace Reader

open Grammar

variable {α : Type} {s t rest : Bytes}

theorem Reads.map {β : Type} {read : Reader α} {G : Grammar α} (h : Reads read G) (f : α → β) :
    Reads (f <$> read) fun b s rest ↦ ∃ a, G a s rest ∧ f a = b where
  sound hread := by
    obtain ⟨a, ha, rfl⟩ := map_eq_ok_iff.mp hread
    obtain ⟨t, hblanks, ha⟩ := h.sound ha
    exact ⟨t, hblanks, a, ha, rfl⟩
  complete := by
    rintro b s rest ⟨t, hblanks, a, ha, rfl⟩ hrest
    exact map_eq_ok_iff.mpr ⟨a, h.complete ⟨t, hblanks, ha⟩ hrest, rfl⟩

/-! ## What may be null -/

theorem value_null (depth : Nat) : Value depth .null (0x6e :: nullRest ++ rest) rest := by
  cases depth with
  | zero => exact .null rest
  | succ depth => exact .inl (.null rest)

theorem eq_of_value_null {depth : Nat} (h : Value depth .null s rest) : s = 0x6e :: nullRest ++ rest := by
  have hscalar : Scalar .null s rest := by
    cases depth with
    | zero => exact h
    | succ depth =>
        rcases h with h | ⟨_, _, h, -⟩ | ⟨_, _, h, -⟩
        · exact h
        · exact nomatch h
        · exact nomatch h
  cases hscalar
  rfl

/-- Nothing but `null` begins as it does. -/
theorem null_of_value {depth : Nat} {j : Json} (h : Value depth j (0x6e :: s) rest) : j = .null := by
  have hscalar : ∀ {t}, Scalar j t rest → t = 0x6e :: s → j = .null := by
    intro t h ht
    cases h with
    | null => rfl
    | true | false => exact absurd (List.cons.inj ht).1 (by decide)
    | string h =>
        obtain ⟨u, rfl, -⟩ := h
        exact absurd (List.cons.inj ht).1 (by decide)
    | number h =>
        obtain ⟨b, u, rfl, hb⟩ := numeral_head h
        exact absurd (List.cons.inj ht).1 (numeral_byte hb).2.2.2.2.1
  cases depth with
  | zero => exact hscalar h rfl
  | succ depth =>
      rcases h with h | ⟨_, _, -, h, -⟩ | ⟨_, _, -, h, -⟩
      · exact hscalar h rfl
      · exact absurd (List.cons.inj h).1 (by decide)
      · exact absurd (List.cons.inj h).1 (by decide)

theorem reads_nullable {f : Json → Option α} {read : Reader α} {depth : Nat}
    (h : Reads read (Told (fun j a ↦ f j = some a) depth)) :
    Reads (nullable read) (Told (fun j o ↦ Json.nullable f j = some o) depth) := by
  have hsome : ∀ {j}, j ≠ Json.null → Json.nullable f j = some <$> f j := by
    rintro (_ | _ | _ | _ | _ | _) hne <;> first | rfl | exact absurd rfl hne
  refine ⟨fun {o s rest} hread ↦ ?_, ?_⟩
  · simp only [nullable, bind_eq_ok_iff, peekToken_eq_ok_iff] at hread
    obtain ⟨b, t, ⟨hblanks, hb, u, rfl⟩, hread⟩ := hread
    split at hread
    next hn =>
      simp only [bind_eq_ok_iff, advance_eq_ok_iff, literal_eq_ok_iff, pure_eq_ok_iff] at hread
      obtain ⟨-, v, hv, -, w, rfl, rfl, rfl⟩ := hread
      obtain rfl : u = nullRest ++ w := hv
      exact ⟨_, hblanks, .null, beq_iff_eq.mp hn ▸ value_null depth, rfl⟩
    next hn =>
      obtain ⟨a, ha, rfl⟩ := map_eq_ok_iff.mp hread
      obtain ⟨t, ht, j, hj, ha⟩ := h.sound ha
      refine ⟨t, hblanks.trans ht, j, hj, ?_⟩
      have hne : j ≠ .null := by
        rintro rfl
        obtain rfl := eq_of_value_null hj
        have hhead := hblanks.behind (hblanks.trans ht) rfl
        cases hhead with
        | nil => exact hn rfl
        | cons hspace => exact absurd hb (by simp [hspace])
      simp only [hsome hne, ha]
      rfl
  · rintro o s rest ⟨t, hblanks, j, hj, ho⟩ hrest
    obtain ⟨b, u, rfl, hb, -⟩ := (solid_value depth).opens hj
    simp only [nullable, bind_eq_ok_iff, peekToken_eq_ok_iff]
    refine ⟨b, _, ⟨hblanks, hb, u, rfl⟩, ?_⟩
    by_cases hn : b = 0x6e
    · subst hn
      obtain rfl := null_of_value hj
      obtain rfl : u = nullRest ++ rest := (List.cons.inj (eq_of_value_null hj)).2
      rw [if_pos (by decide)]
      simp only [bind_eq_ok_iff, advance_eq_ok_iff, literal_eq_ok_iff, pure_eq_ok_iff]
      exact ⟨(), _, rfl, (), rest, rfl, Option.some.inj ho, rfl⟩
    · rw [if_neg (by simpa using hn)]
      have hne : j ≠ .null := by
        rintro rfl
        exact hn (List.cons.inj (eq_of_value_null hj)).1
      simp only [hsome hne] at ho
      obtain ⟨a, ha, rfl⟩ := Option.map_eq_some_iff.mp ho
      exact map_eq_ok_iff.mpr ⟨a, h.complete ⟨_, .nil _, j, hj, ha⟩ hrest, rfl⟩

/-! ## Fixed places -/

/-- What may stand behind an item of an array. -/
def Further (G : Grammar α) : Grammar (List α) := fun as s rest ↦
  (as = [] ∧ Blanks s (0x5d :: rest)) ∨ ∃ t, Blanks s (0x2c :: t) ∧ Items G as t rest

theorem items_cons_iff {G : Grammar α} {a : α} {as : List α} :
    Items G (a :: as) s rest ↔ ∃ t, Padded G a s t ∧ Further G as t rest := by
  constructor
  · intro h
    cases h with
    | last ha hclose => exact ⟨_, ha, .inl ⟨rfl, hclose⟩⟩
    | more ha hcomma has => exact ⟨_, ha, .inr ⟨_, hcomma, has⟩⟩
  · rintro ⟨t, ha, ⟨rfl, hclose⟩ | ⟨u, hcomma, has⟩⟩
    · exact .last ha hclose
    · exact .more ha hcomma has

theorem Further.ends {G : Grammar α} {as : List α} (h : Further G as s rest) : Ends s := by
  rcases h with ⟨-, h⟩ | ⟨t, h, -⟩
  · exact .of_blanks h (ends_cons (.inr (.inl rfl)))
  · exact .of_blanks h (ends_cons (.inl rfl))

/-- The items of an array, as many as there are places at most, each told at its place. -/
def Placed (T : String → Json → α → Prop) (names : List String) (items : List Json) (as : List α) :
    Prop :=
  items.length ≤ names.length ∧ List.Forall₂ (fun v a ↦ T v.1 v.2 a) (names.zip items) as

theorem placed_cons_iff {T : String → Json → α → Prop} {name : String} {names : List String}
    {v : Json} {items : List Json} {as : List α} : Placed T (name :: names) (v :: items) as ↔
      ∃ a as', T name v a ∧ Placed T names items as' ∧ as = a :: as' := by
  unfold Placed
  rw [List.length_cons, List.length_cons, Nat.succ_le_succ_iff, List.zip_cons_cons]
  constructor
  · rintro ⟨hlength, h⟩
    cases h with
    | cons ha has => exact ⟨_, _, ha, ⟨hlength, has⟩, rfl⟩
  · rintro ⟨a, as', ha, ⟨hlength, has⟩, rfl⟩
    exact ⟨hlength, .cons ha has⟩

variable {T : String → Json → α → Prop} {place : String → Reader α} {depth : Nat} {names : List String}

theorem placed_nil_iff {as : List α} : Placed T names [] as ↔ as = [] := by
  simp [Placed]

/-- A place, and those behind it. -/
theorem place_eq_ok_iff {name : String} (h : Reads (place name) (Told (T name) depth))
    (hrest : ∀ {s rest as}, placesRest false (names.map place) s = .ok (as, rest) ↔
      ∃ items, Further (Value depth) items s rest ∧ Placed T names items as)
    ⦃s rest : Bytes⦄ ⦃as : List α⦄ :
    (do let x ← place name; (x :: ·) <$> placesRest false (names.map place) : Reader (List α)) s =
        .ok (as, rest) ↔
      ∃ v items, Items (Value depth) (v :: items) s rest ∧ Placed T (name :: names) (v :: items) as := by
  simp only [bind_eq_ok_iff, map_eq_ok_iff, hrest, items_cons_iff, placed_cons_iff]
  constructor
  · rintro ⟨a, t, ha, as, ⟨items, hitems, has⟩, rfl⟩
    obtain ⟨u, hblanks, v, hv, ha⟩ := h.sound ha
    exact ⟨v, items, ⟨t, ⟨u, hblanks, hv⟩, hitems⟩, a, as, ha, has, rfl⟩
  · rintro ⟨v, items, ⟨t, ⟨u, hblanks, hv⟩, hitems⟩, a, as, ha, has, rfl⟩
    exact ⟨a, t, h.complete ⟨u, hblanks, v, hv, ha⟩ hitems.ends, as, ⟨items, hitems, has⟩, rfl⟩

theorem items_ne_nil {G : Grammar α} {as : List α} (h : Items G as s rest) : as ≠ [] := by
  cases h <;> exact List.cons_ne_nil _ _

theorem placesRest_further_iff (h : ∀ name ∈ names, Reads (place name) (Told (T name) depth))
    {as : List α} : placesRest false (names.map place) s = .ok (as, rest) ↔
      ∃ items, Further (Value depth) items s rest ∧ Placed T names items as := by
  induction names generalizing s rest as with
  | nil =>
      simp only [List.map_nil, placesRest, bind_eq_ok_iff, pure_eq_ok_iff,
        token_eq_ok_iff (show isSpace 0x5d = false from rfl)]
      constructor
      · rintro ⟨-, t, hclose, rfl, rfl⟩
        exact ⟨[], .inl ⟨rfl, hclose⟩, placed_nil_iff.mpr rfl⟩
      · rintro ⟨items, ⟨rfl, hclose⟩ | ⟨t, -, hitems⟩, has⟩
        · exact ⟨(), rest, hclose, (placed_nil_iff.mp has).symm, rfl⟩
        · exact absurd (List.length_eq_zero_iff.mp (Nat.le_zero.mp has.1)) (items_ne_nil hitems)
  | cons name names ih =>
      have hplace := place_eq_ok_iff
        (h name List.mem_cons_self) (ih fun n hn ↦ h n (List.mem_cons_of_mem _ hn))
      simp only [List.map_cons, placesRest, bind_eq_ok_iff, peekToken_eq_ok_iff]
      constructor
      · rintro ⟨b, t, ⟨hblanks, -, u, rfl⟩, hread⟩
        split at hread
        next hb =>
          simp only [bind_eq_ok_iff, advance_eq_ok_iff, pure_eq_ok_iff] at hread
          obtain ⟨-, v, rfl, rfl, rfl⟩ := hread
          exact ⟨[], .inl ⟨rfl, beq_iff_eq.mp hb ▸ hblanks⟩, placed_nil_iff.mpr rfl⟩
        next =>
        rw [if_neg Bool.false_ne_true] at hread
        split at hread
        next hb =>
          simp only [bind_eq_ok_iff, advance_eq_ok_iff, peekToken_eq_ok_iff] at hread
          obtain ⟨-, v, rfl, c, w, ⟨hv, -, -⟩, hread⟩ := hread
          split at hread
          · simp at hread
          obtain ⟨v, items, hitems, has⟩ := hplace.mp hread
          exact ⟨v :: items, .inr ⟨_, beq_iff_eq.mp hb ▸ hblanks,
            (items_iff_of_blanks hv (solid_value depth)).mpr hitems⟩, has⟩
        next => simp at hread
      · rintro ⟨items, ⟨rfl, hclose⟩ | ⟨t, hcomma, hitems⟩, has⟩
        · refine ⟨0x5d, _, ⟨hclose, rfl, rest, rfl⟩, ?_⟩
          simp [placed_nil_iff.mp has]
        · refine ⟨0x2c, _, ⟨hcomma, rfl, t, rfl⟩, ?_⟩
          rw [if_neg (by decide), if_neg Bool.false_ne_true, if_pos (by decide)]
          obtain ⟨b, u, hblanks, hb, hne⟩ := items_open (solid_value depth) hitems
          simp only [bind_eq_ok_iff, advance_eq_ok_iff, peekToken_eq_ok_iff]
          refine ⟨(), t, rfl, b, _, ⟨hblanks, hb, u, rfl⟩, ?_⟩
          rw [if_neg (by simpa using hne)]
          obtain ⟨v, items, rfl⟩ := List.exists_cons_of_ne_nil (items_ne_nil hitems)
          exact hplace.mpr ⟨v, items, (items_iff_of_blanks hblanks (solid_value depth)).mp hitems, has⟩

/-- The items of an array, read place by place. -/
theorem placesRest_eq_ok_iff {name : String}
    (h : ∀ n ∈ name :: names, Reads (place n) (Told (T n) depth)) {as : List α} :
    placesRest true ((name :: names).map place) s = .ok (as, rest) ↔
      ∃ items, Bracketed (Value depth) items s rest ∧ Placed T (name :: names) items as := by
  have hplace := place_eq_ok_iff
    (h name List.mem_cons_self) (placesRest_further_iff fun n hn ↦ h n (List.mem_cons_of_mem _ hn))
  simp only [List.map_cons, placesRest, bind_eq_ok_iff, peekToken_eq_ok_iff]
  constructor
  · rintro ⟨b, t, ⟨hblanks, -, u, rfl⟩, hread⟩
    split at hread
    next hb =>
      simp only [bind_eq_ok_iff, advance_eq_ok_iff, pure_eq_ok_iff] at hread
      obtain ⟨-, v, rfl, rfl, rfl⟩ := hread
      exact ⟨[], .inl ⟨rfl, beq_iff_eq.mp hb ▸ hblanks⟩, placed_nil_iff.mpr rfl⟩
    next =>
      rw [if_pos trivial] at hread
      obtain ⟨v, items, hitems, has⟩ := hplace.mp hread
      exact ⟨v :: items, .inr ((items_iff_of_blanks hblanks (solid_value depth)).mpr hitems), has⟩
  · rintro ⟨items, ⟨rfl, hclose⟩ | hitems, has⟩
    · refine ⟨0x5d, _, ⟨hclose, rfl, rest, rfl⟩, ?_⟩
      simp [placed_nil_iff.mp has]
    · obtain ⟨b, t, hblanks, hb, hne⟩ := items_open (solid_value depth) hitems
      refine ⟨b, _, ⟨hblanks, hb, t, rfl⟩, ?_⟩
      rw [if_neg (by simpa using hne), if_pos trivial]
      obtain ⟨v, items, rfl⟩ := List.exists_cons_of_ne_nil (items_ne_nil hitems)
      exact hplace.mpr ⟨v, items, (items_iff_of_blanks hblanks (solid_value depth)).mp hitems, has⟩

end Reader

end Storyline
