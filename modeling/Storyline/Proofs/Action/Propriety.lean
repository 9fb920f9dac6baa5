import Storyline.Proofs.Action.Printing
import Storyline.Proofs.Playback.Places

/-!
# Actions that are read are proper

Numbers of characters are read within their bounds, and of a value whose numbers are
such as are read, only finite numbers of seconds are.
-/

namespace Storyline

open Json

namespace Json

theorem asWord_lt {j : Json} {n : Nat} (h : asWord j = some n) : n < 2 ^ 16 := by
  unfold asWord at h
  split at h
  next =>
    split at h
    next hrange =>
      obtain rfl := Option.some.inj h
      omega
    next => exact nomatch h
  next => exact nomatch h

theorem Fits.asFloat {j : Json} (hj : j.Fits) {x : Binary64} (h : asFloat j = some x) :
    x.isFinite = true := by
  cases j with
  | number n =>
      obtain rfl := Option.some.inj h
      have hn := hj n (by simp [numbers])
      cases n with
      | real x => exact hn
      | whole n =>
          obtain ⟨hmin, hmax⟩ := hn
          exact Binary.isFinite_ofInt (by omega)
  | _ => cases h

theorem mem_asList {α : Type} {read : Json → Option α} {j : Json} {as : List α} (h : asList read j = some as)
    {a : α} (ha : a ∈ as) : ∃ items item, j = .array items ∧ item ∈ items ∧ read item = some a := by
  cases j with
  | array items =>
      have hread := mapM_eq_some_iff.mp h
      refine ⟨items, ?_⟩
      clear h
      induction hread with
      | nil => exact absurd ha (by simp)
      | @cons item b items as hb _ ih =>
          rcases List.mem_cons.mp ha with rfl | ha
          · exact ⟨item, rfl, List.mem_cons_self, hb⟩
          · obtain ⟨item', -, hmem, hread⟩ := ih ha
            exact ⟨item', rfl, List.mem_cons_of_mem item hmem, hread⟩
  | _ => exact nomatch h

theorem Fits.given {names : List String} {j v : Json} (hj : j.Fits) {r : Record}
    (h : record names j = some r) {name : String} (hv : r name = .given v) : v.Fits := by
  cases j with
  | object members =>
      rw [(fieldsOf_eq_some_iff.mp h).2 name] at hv
      cases hlookup : members.lookup name with
      | none => rw [hlookup] at hv; exact nomatch hv
      | some w =>
          rw [hlookup] at hv
          obtain rfl := Slot.given.inj hv
          exact hj.member _ (mem_of_lookup hlookup)
  | array items =>
      rw [(itemsOf_eq_some_iff.mp h).2 name] at hv
      cases hlookup : (names.zip items).lookup name with
      | none => rw [hlookup] at hv; exact nomatch hv
      | some w =>
          rw [hlookup] at hv
          obtain rfl := Slot.given.inj hv
          exact hj.item _ (List.of_mem_zip (mem_of_lookup hlookup)).2
  | _ => exact nomatch h

theorem Fits.tagged {style : TagStyle} {tag : String} {variants : List String} {j rest : Json} {t : Tag}
    (hj : j.Fits) (h : tagged style tag variants j = some (t, rest)) : rest.Fits := by
  cases j with
  | object members =>
      unfold Json.tagged at h
      dsimp only at h
      split at h
      next =>
        obtain ⟨t, -, h⟩ := Option.bind_eq_some_iff.mp h
        obtain ⟨-, rfl⟩ := Prod.mk.inj (Option.some.inj h)
        exact fits_object fun m hm ↦ hj.member m (List.mem_of_mem_filter hm)
      next => exact nomatch h
  | array items =>
      cases items with
      | nil => exact nomatch h
      | cons first items =>
          obtain ⟨t, -, h⟩ := Option.bind_eq_some_iff.mp h
          obtain ⟨-, rfl⟩ := Prod.mk.inj (Option.some.inj h)
          exact fits_array fun item hitem ↦ hj.item item (List.mem_cons_of_mem first hitem)
  | _ => exact nomatch h

end Json

/-! ## Fields -/

namespace Slot

variable {α : Type} {read : Json → Option α} {slot : Slot} {a default : α}

theorem of_required (h : slot.required read = some a) : ∃ v, slot = .given v ∧ read v = some a :=
  match slot, h with
  | .given v, h => ⟨v, rfl, h⟩

theorem of_withDefault (h : slot.withDefault default read = some a) :
    a = default ∨ ∃ v, slot = .given v ∧ read v = some a :=
  match slot, h with
  | .given v, h => .inr ⟨v, rfl, h⟩
  | .omitted, h | .cut, h => .inl (Option.some.inj h).symm

end Slot

/-! ## Cues -/

namespace Cue

variable {j : Json} {c : Cue}

theorem proper_of_character {make : CharacterId → Cue} (h : ofCharacter make j = some c)
    (hmake : ∀ character < 2 ^ 16, (make character).Proper) : c.Proper := by
  obtain ⟨r, -, h⟩ := Option.bind_eq_some_iff.mp h
  obtain ⟨character, hcharacter, rfl⟩ := Option.map_eq_some_iff.mp h
  obtain ⟨v, -, hv⟩ := Slot.of_required hcharacter
  exact hmake character (asWord_lt hv)

theorem proper_of_duration {make : Binary64 → Cue} (hj : j.Fits) (h : ofDuration make j = some c)
    (hmake : ∀ x : Binary64, x.isFinite = true → (make x).Proper) : c.Proper := by
  obtain ⟨r, hr, h⟩ := Option.bind_eq_some_iff.mp h
  obtain ⟨x, hx, rfl⟩ := Option.map_eq_some_iff.mp h
  obtain ⟨v, hslot, hv⟩ := Slot.of_required hx
  exact hmake x ((hj.given hr hslot).asFloat hv)

theorem proper_tremble (axis : Axis) : ∀ character < 2 ^ 16, (tremble axis character).Proper :=
  fun _ h ↦ ⟨by simpa [characters] using h, by simp [seconds]⟩

theorem proper_model {change : ModelChange} (h : change.character < 2 ^ 16) : (model change).Proper :=
  ⟨by simpa [characters] using h, by simp [seconds]⟩

theorem proper_cover (cover : Cover) (visible : Bool) (x : Binary64) (h : x.isFinite = true) :
    (Cue.cover cover visible x).Proper :=
  ⟨by simp [characters], by simpa [seconds] using h⟩

theorem proper_shake (shake : Shake) (x : Binary64) (h : x.isFinite = true) :
    (Cue.shake shake x).Proper :=
  ⟨by simp [characters], by simpa [seconds] using h⟩

theorem proper_delay {x : Binary64} (h : x.isFinite = true) : (delay x).Proper :=
  ⟨by simp [characters], by simpa [seconds] using h⟩

theorem proper_talk {line : Line} (h : ∀ id ∈ line.characterIds, id < 2 ^ 16) : (talk line).Proper :=
  ⟨h, by simp [seconds]⟩

/-- A cue without characters and seconds is proper. -/
theorem proper_plain (hcharacters : c.characters = []) (hseconds : c.seconds = []) : c.Proper :=
  ⟨by simp [hcharacters], by simp [hseconds]⟩

theorem proper_of_change {change : CharacterId → Option Cue} {slot : Slot}
    (h : (slot.required asWord >>= change) = some c)
    (hchange : ∀ character < 2 ^ 16, change character = some c → c.Proper) : c.Proper := by
  obtain ⟨character, hcharacter, h⟩ := Option.bind_eq_some_iff.mp h
  obtain ⟨v, -, hv⟩ := Slot.of_required hcharacter
  exact hchange character (asWord_lt hv) h

theorem proper_ofKind {kind : String} (hj : j.Fits) (h : ofKind kind j = some c) : c.Proper := by
  unfold ofKind at h
  split at h
  next =>
    obtain ⟨line, hline, rfl⟩ := Option.map_eq_some_iff.mp h
    obtain ⟨r, -, hline⟩ := Option.bind_eq_some_iff.mp hline
    obtain ⟨text, -, hline⟩ := Option.bind_eq_some_iff.mp hline
    obtain ⟨ids, hids, hline⟩ := Option.bind_eq_some_iff.mp hline
    obtain ⟨names, -, hline⟩ := Option.bind_eq_some_iff.mp hline
    obtain ⟨voice, -, hline⟩ := Option.bind_eq_some_iff.mp hline
    obtain rfl := Option.some.inj hline
    refine proper_talk fun id hid ↦ ?_
    rcases Slot.of_withDefault hids with rfl | ⟨v, -, hv⟩
    · exact absurd hid (by simp)
    · obtain ⟨items, item, -, -, hread⟩ := mem_asList hv hid
      exact asWord_lt hread
  next =>
    obtain ⟨r, -, h⟩ := Option.bind_eq_some_iff.mp h
    obtain ⟨text, -, rfl⟩ := Option.map_eq_some_iff.mp h
    exact proper_plain rfl rfl
  next =>
    obtain ⟨r, -, h⟩ := Option.bind_eq_some_iff.mp h
    refine proper_of_change h fun character hlt h ↦ ?_
    obtain ⟨model, -, h⟩ := Option.bind_eq_some_iff.mp h
    obtain ⟨position, -, h⟩ := Option.bind_eq_some_iff.mp h
    obtain rfl := Option.some.inj h
    exact proper_model hlt
  next => exact proper_of_character h fun _ hlt ↦ proper_model hlt
  next =>
    obtain ⟨r, -, h⟩ := Option.bind_eq_some_iff.mp h
    refine proper_of_change h fun character hlt h ↦ ?_
    obtain ⟨position, -, h⟩ := Option.bind_eq_some_iff.mp h
    obtain rfl := Option.some.inj h
    exact proper_model hlt
  next =>
    obtain ⟨r, -, h⟩ := Option.bind_eq_some_iff.mp h
    refine proper_of_change h fun character hlt h ↦ ?_
    obtain ⟨motion, -, h⟩ := Option.bind_eq_some_iff.mp h
    obtain rfl := Option.some.inj h
    exact proper_model hlt
  next =>
    obtain ⟨r, -, h⟩ := Option.bind_eq_some_iff.mp h
    refine proper_of_change h fun character hlt h ↦ ?_
    obtain ⟨expression, -, h⟩ := Option.bind_eq_some_iff.mp h
    obtain rfl := Option.some.inj h
    exact proper_model hlt
  next => exact proper_of_character h (proper_tremble _)
  next => exact proper_of_character h (proper_tremble _)
  next => exact proper_of_duration hj h (proper_cover _ _)
  next => exact proper_of_duration hj h (proper_cover _ _)
  next => exact proper_of_duration hj h (proper_cover _ _)
  next => exact proper_of_duration hj h (proper_cover _ _)
  next => exact proper_of_duration hj h (proper_shake _)
  next => exact proper_of_duration hj h (proper_shake _)
  iterate 3
    next =>
      obtain ⟨r, -, h⟩ := Option.bind_eq_some_iff.mp h
      obtain ⟨path, -, rfl⟩ := Option.map_eq_some_iff.mp h
      exact proper_plain rfl rfl
  next =>
    obtain ⟨r, hr, h⟩ := Option.bind_eq_some_iff.mp h
    obtain ⟨x, hx, rfl⟩ := Option.map_eq_some_iff.mp h
    obtain ⟨v, hslot, hv⟩ := Slot.of_required hx
    exact proper_delay ((hj.given hr hslot).asFloat hv)
  iterate 2
    next =>
      unfold ofNothing at h
      split at h
      · obtain rfl := Option.some.inj h
        exact proper_plain rfl rfl
      · exact nomatch h
  next => exact nomatch h

end Cue

/-! ## Actions -/

namespace Action

theorem proper_ofJsonWithin {n : Nat} {style : TagStyle} {j : Json} {a : Action} (hj : j.Fits)
    (h : ofJsonWithin style n j = some a) : ∀ c ∈ a.cues, c.Proper := by
  induction n generalizing style j a with
  | zero => exact nomatch h
  | succ n ih =>
      obtain ⟨kind, rest, htag, hkind⟩ := ofJsonWithin_succ_iff.mp h
      have hrest := hj.tagged htag
      have hparts : ∀ {as}, partsOfJson (ofJsonWithin .numbered n) rest = some as → Proper as := by
        intro as has c hc
        obtain ⟨r, hr, has⟩ := Option.bind_eq_some_iff.mp has
        obtain ⟨v, hslot, hv⟩ := Slot.of_required has
        obtain ⟨b, hb, hc⟩ := mem_cuesOfList.mp hc
        obtain ⟨items, item, rfl, hitem, hread⟩ := mem_asList hv hb
        exact ih ((hrest.given hr hslot).item item hitem) hread c hc
      unfold ofKind at hkind
      split at hkind
      next =>
        obtain ⟨as, has, rfl⟩ := Option.map_eq_some_iff.mp hkind
        exact hparts has
      next =>
        obtain ⟨as, has, rfl⟩ := Option.map_eq_some_iff.mp hkind
        exact hparts has
      next =>
        obtain ⟨c, hc, rfl⟩ := Option.map_eq_some_iff.mp hkind
        intro c' hc'
        obtain rfl := List.mem_singleton.mp hc'
        exact Cue.proper_ofKind hrest hc

theorem proper_of_mapM {style : TagStyle} {items : List Json} {as : List Action}
    (hitems : ∀ item ∈ items, item.Fits) (h : items.mapM (ofJson style) = some as) : Proper as := by
  intro c hc
  obtain ⟨a, ha, hc⟩ := mem_cuesOfList.mp hc
  obtain ⟨_, item, heq, hitem, hread⟩ := mem_asList (j := .array items) h ha
  obtain rfl := Json.array.inj heq
  exact proper_ofJsonWithin (hitems item hitem) hread c hc

end Action

namespace Json

mutual

theorem fits_merged {j : Json} (h : j.Fits) : (merged j).Fits := by
  cases j with
  | array items => exact fits_mergedItems h
  | object members => exact fits_mergedMembers h
  | _ => exact h

theorem fits_mergedItems {items : List Json} (h : ∀ n ∈ numbersOfItems items, n.Fits) :
    ∀ n ∈ numbersOfItems (mergedItems items), n.Fits := by
  cases items with
  | nil => exact h
  | cons item items =>
      rw [numbersOfItems, List.forall_mem_append] at h
      rw [mergedItems, numbersOfItems, List.forall_mem_append]
      exact ⟨fits_merged h.1, fits_mergedItems h.2⟩

theorem fits_mergedMembers {members : List (String × Json)}
    (h : ∀ n ∈ numbersOfMembers members, n.Fits) :
    ∀ n ∈ numbersOfMembers (mergedMembers members), n.Fits := by
  cases members with
  | nil => exact h
  | cons m members =>
      obtain ⟨name, value⟩ := m
      rw [numbersOfMembers, List.forall_mem_append] at h
      rw [mergedMembers, keepLast]
      split
      · exact fits_mergedMembers h.2
      · rw [numbersOfMembers, List.forall_mem_append]
        exact ⟨fits_merged h.1, fits_mergedMembers h.2⟩

end

end Json

end Storyline
