import Storyline.Proofs.Action.Rereading
import Storyline.Proofs.Json.Repeating

/-!
# Actions with other members

The object of an action may give its members in another order, and further ones that are
not fields of its kind; so may those of the parts of a block or a fork.  Straight from
text the same action is read.  Of a merged value it is too, as long as the last of
repeated members stays the last.
-/

namespace Storyline

open Json

namespace Json

variable {tag : String} {variants : List String} {j rest : Json}

theorem asTag_numbered {style : TagStyle} {t : Tag} (h : asTag style variants j = some t) :
    asTag .numbered variants j = some t := by
  cases style with
  | numbered => exact h
  | named =>
      cases j with
      | string s => exact h
      | number n =>
          cases n with
          | whole n => exact absurd h (by simp [asTag])
          | real x => exact nomatch h
      | _ => exact nomatch h

/-- A tag that is read as a name is also read where it may be a number. -/
theorem tagged_numbered {style : TagStyle} {t : Tag}
    (h : tagged style tag variants j = some (t, rest)) :
    tagged .numbered tag variants j = some (t, rest) := by
  cases j with
  | object members =>
      unfold tagged at h ⊢
      dsimp only at h ⊢
      split at h
      next =>
        obtain ⟨t, ht, h⟩ := Option.bind_eq_some_iff.mp h
        exact Option.bind_eq_some_iff.mpr ⟨t, asTag_numbered ht, h⟩
      next => exact nomatch h
  | array items =>
      cases items with
      | nil => exact nomatch h
      | cons first items =>
          obtain ⟨t, ht, h⟩ := Option.bind_eq_some_iff.mp h
          exact Option.bind_eq_some_iff.mpr ⟨t, asTag_numbered ht, h⟩
  | _ => exact nomatch h

end Json

namespace Action

/-- Another value for the same action: with the members of its object given otherwise, as
allowed with the names that matter to its kind, or with a part of a block or a fork told
otherwise. -/
inductive Alike (P : List String → Json → Json → Prop) : Json → Json → Prop
  | members {kind : String} {rest j j' : Json}
    (hkind : tagged .numbered "type" kinds (merged j) = some (.known kind, rest))
    (h : P ("type" :: fieldNames kind) j j') : Alike P j j'
  | part {kind : String} {rest p p' j j' : Json} {before after : List Json}
    (hkind : tagged .numbered "type" kinds (merged j) = some (.known kind, rest))
    (hparts : kind = "blocking" ∨ kind = "forkTask") (hp : Alike P p p')
    (h : Swapped ["type", "actions"] "actions" (.array (before ++ p :: after))
      (.array (before ++ p' :: after)) j j') : Alike P j j'

/-- The parts are related place by place, and all other fields are the same. -/
def PartsBy (R : Json → Json → Prop) (name : String) : Json → Json → Prop :=
  if name = "actions" then fun v v' ↦ v = v' ∨
    ∃ items items', v = .array items ∧ v' = .array items' ∧ List.Forall₂ R items items'
  else Eq

variable {R : Json → Json → Prop}

theorem partsBy_refl (name : String) (j : Json) : PartsBy R name j j := by
  unfold PartsBy
  split
  · exact .inl rfl
  · rfl

theorem partsBy_array {items items' : List Json} (h : List.Forall₂ R items items') :
    PartsBy R "actions" (.array items) (.array items') := by
  unfold PartsBy
  rw [if_pos rfl]
  exact .inr ⟨items, items', rfl, rfl, h⟩

theorem forall₂_middle (hR : ∀ j, R j j) {before after : List Json} {p p' : Json} (hp : R p p') :
    List.Forall₂ R (before ++ p :: after) (before ++ p' :: after) :=
  List.rel_append (List.forall₂_same.mpr fun j _ ↦ hR j)
    (.cons hp (List.forall₂_same.mpr fun j _ ↦ hR j))

/-- It is enough that the relation keeps tags and fields. -/
theorem faithful_of_tagged (hR : ∀ j, R j j)
    (htagged : ∀ {j j' style kind rest}, R j j' →
      Json.tagged style "type" kinds j = some (.known kind, rest) →
        ∃ rest', Json.tagged style "type" kinds j' = some (.known kind, rest') ∧
          SameRecord (PartsBy R) (fieldNames kind) rest rest' ∧
          (noFields rest = true → noFields rest' = true)) :
    Faithful R (PartsBy R) where
  fields name hname := by
    rw [show PartsBy R name = Eq from if_neg hname]
    exact Json.faithful_eq
  parts {items v'} h := by
    rw [show PartsBy R "actions" = _ from if_pos rfl] at h
    rcases h with rfl | ⟨_, items', heq, rfl, h⟩
    · exact ⟨items, rfl, List.forall₂_same.mpr fun j _ ↦ hR j⟩
    · obtain rfl := Json.array.inj heq
      exact ⟨items', rfl, h⟩
  tagged := htagged

theorem fieldNames_of_parts {kind : String} (h : kind = "blocking" ∨ kind = "forkTask") :
    fieldNames kind = ["actions"] := by
  rcases h with rfl | rfl <;> rfl

/-- Straight from text, an action is read of every value that is loosened. -/
theorem keeps_loosened (style : TagStyle) : Keeps (Alike Loosened) (ofJson style) (ofJson style) := by
  intro j j' h a ha
  refine reread (R := fun j j' ↦ j = j' ∨ Alike Loosened j j')
    (faithful_of_tagged (fun _ ↦ .inl rfl) fun {j j' style kind rest} h htag ↦ ?_) style (.inr h) ha
  obtain rfl | h := h
  · exact ⟨rest, htag, sameRecord_refl partsBy_refl rest, id⟩
  have hsame : ∀ {kind' rest'}, tagged .numbered "type" kinds (merged j) = some (.known kind', rest') →
      kind' = kind := by
    intro kind' rest' h
    have heq := h.symm.trans (tagged_numbered (tagged_merged htag))
    exact Tag.known.inj (Prod.mk.inj (Option.some.inj heq)).1
  cases h with
  | members hkind h =>
      obtain rfl := hsame hkind
      obtain ⟨rest', htag', h⟩ := h.tagged List.mem_cons_self htag
      exact ⟨rest', htag', (h.mono (List.subset_cons_self _ _)).sameRecord partsBy_refl, fun _ ↦ h.noFields⟩
  | part hkind hparts hp h =>
      obtain rfl := hsame hkind
      obtain ⟨rest', htag', h⟩ := h.tagged (by decide) htag
      rw [fieldNames_of_parts hparts]
      exact ⟨rest', htag', h.sameRecord (partsBy_array (forall₂_middle (fun _ ↦ .inl rfl) (.inr hp)))
        partsBy_refl, h.noFields⟩

/-- Of a merged value, an action is read of every value that is settled. -/
theorem keeps_settled (style : TagStyle) :
    Keeps (Alike Settled) (fun j ↦ ofJson style (merged j)) fun j ↦ ofJson style (merged j) := by
  intro j j' h a ha
  let R : Json → Json → Prop := fun k k' ↦
    ∃ j j', k = merged j ∧ k' = merged j' ∧ (j = j' ∨ Alike Settled j j')
  refine reread (R := fun k k' ↦ k = k' ∨ R k k') (faithful_of_tagged (fun _ ↦ .inl rfl)
    fun {k k' style kind rest} h htag ↦ ?_) style (.inr ⟨j, j', rfl, rfl, .inr h⟩) ha
  obtain rfl | ⟨j, j', rfl, rfl, rfl | h⟩ := h
  · exact ⟨rest, htag, sameRecord_refl partsBy_refl rest, id⟩
  · exact ⟨rest, htag, sameRecord_refl partsBy_refl rest, id⟩
  have hsame : ∀ {kind' rest'}, tagged .numbered "type" kinds (merged j) = some (.known kind', rest') →
      kind' = kind := by
    intro kind' rest' h
    exact Tag.known.inj (Prod.mk.inj (Option.some.inj (h.symm.trans (tagged_numbered htag)))).1
  cases h with
  | members hkind h =>
      obtain rfl := hsame hkind
      obtain ⟨rest', htag', h⟩ := h.agree.tagged htag
      exact ⟨rest', htag', h.sameRecord partsBy_refl, fun _ ↦ h.noFields⟩
  | part hkind hparts hp h =>
      obtain rfl := hsame hkind
      rcases h.merged with heq | h
      · exact ⟨rest, heq ▸ htag, sameRecord_refl partsBy_refl rest, id⟩
      · obtain ⟨rest', htag', h⟩ := h.tagged (by decide) htag
        rw [fieldNames_of_parts hparts]
        refine ⟨rest', htag', h.sameRecord ?_ partsBy_refl, h.noFields⟩
        rw [merged, merged, mergedItems_eq_map, mergedItems_eq_map, List.map_append, List.map_append]
        exact partsBy_array (forall₂_middle (fun _ ↦ .inl rfl) (.inr ⟨_, _, rfl, rfl, .inr hp⟩))

end Action

end Storyline
