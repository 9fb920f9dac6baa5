import Mathlib.Data.List.Forall2
import Mathlib.Data.List.Infix
import Mathlib.Data.List.Nodup
import Storyline.Action.Basic

/-!
# Places in a story

Every action stands at a place of its story: its index in its list, and before
that the place of the action whose parts this list is.  Performing an action
takes up the action itself and, of a block, all parts in the order of the
document; the parts of a fork are left to a timeline of their own.
-/

namespace Storyline

/-- A place, the innermost index first; the story itself stands at the empty place. -/
abbrev Place := List Nat

namespace Action

theorem mem_cuesOfList {cue : Cue} {parts : List Action} :
    cue ∈ cuesOfList parts ↔ ∃ part ∈ parts, cue ∈ part.cues := by
  induction parts with
  | nil => simp [cuesOfList]
  | cons part rest ih => simp [cuesOfList, ih]

/-- The actions in the list at a place. -/
def partsAt (story : List Action) : Place → List Action
  | [] => story
  | n :: home =>
    match (partsAt story home)[n]? with
    | some action => action.parts
    | none => []

/-- The action at a place. -/
def at? (story : List Action) : Place → Option Action
  | [] => none
  | n :: home => (partsAt story home)[n]?

mutual

/-- What is taken up, and at which step, when an action is performed. -/
def scan (step : Option Nat) : Action → List (Action × Option Nat)
  | cue c => [(cue c, step)]
  | block parts => (block parts, step) :: scanAll parts
  | fork parts => [(fork parts, step)]

def scanAll : List Action → List (Action × Option Nat)
  | [] => []
  | part :: rest => scan none part ++ scanAll rest

end

mutual

/-- The places of what is taken up when the action at a place is performed. -/
def places (place : Place) : Action → List Place
  | cue _ => [place]
  | block parts => place :: placesAll place 0 parts
  | fork _ => [place]

/-- The places of the parts of a block from an index on. -/
def placesAll (home : Place) (n : Nat) : List Action → List Place
  | [] => []
  | part :: rest => places (n :: home) part ++ placesAll home (n + 1) rest

end

section

variable {story : List Action} {action : Action} {place : Place}

theorem partsAt_of_at? (h : at? story place = some action) : partsAt story place = action.parts := by
  cases place with
  | nil => cases h
  | cons n home =>
      have h : (partsAt story home)[n]? = some action := h
      rw [partsAt, h]

theorem at?_cons (h : at? story place = some action) (n : Nat) :
    at? story (n :: place) = action.parts[n]? := congrArg (·[n]?) (partsAt_of_at? h)

/-! ## What is taken up stands where it should -/

mutual

theorem at?_places {story : List Action} {action : Action} {place : Place} (step : Option Nat)
    (h : at? story place = some action) :
    List.Forall₂ (fun place e ↦ at? story place = some e.1) (places place action)
      (scan step action) := by
  cases action with
  | cue c => exact .cons h .nil
  | block parts =>
      refine .cons h (at?_placesAll fun i ↦ ?_)
      rw [at?_cons h, Nat.zero_add]
      rfl
  | fork parts => exact .cons h .nil

theorem at?_placesAll {story parts : List Action} {home : Place} {n : Nat}
    (h : ∀ i, at? story ((n + i) :: home) = parts[i]?) :
    List.Forall₂ (fun place e ↦ at? story place = some e.1) (placesAll home n parts)
      (scanAll parts) := by
  cases parts with
  | nil => exact .nil
  | cons part rest =>
      refine List.rel_append (at?_places none (h 0)) (at?_placesAll fun i ↦ ?_)
      rw [Nat.add_right_comm]
      exact h (i + 1)

end

theorem length_places (h : at? story place = some action) (step : Option Nat) :
    (places place action).length = (scan step action).length := (at?_places step h).length_eq

/-! ## Nothing is taken up twice -/

mutual

theorem suffix_of_mem_places {action : Action} {place other : Place}
    (h : other ∈ places place action) : place <:+ other := by
  cases action with
  | cue | fork => rw [List.mem_singleton.mp h]
  | block parts =>
      rcases List.mem_cons.mp h with rfl | h
      · exact List.suffix_rfl
      · obtain ⟨i, -, hi⟩ := suffix_of_mem_placesAll h
        exact (List.suffix_cons i place).trans hi

theorem suffix_of_mem_placesAll {parts : List Action} {home other : Place} {n : Nat}
    (h : other ∈ placesAll home n parts) : ∃ i, n ≤ i ∧ (i :: home) <:+ other := by
  cases parts with
  | nil => cases h
  | cons part rest =>
      rcases List.mem_append.mp h with h | h
      · exact ⟨n, Nat.le_refl n, suffix_of_mem_places h⟩
      · obtain ⟨i, hi, hsuffix⟩ := suffix_of_mem_placesAll h
        exact ⟨i, Nat.le_of_succ_le hi, hsuffix⟩

end

theorem index_eq_of_suffix {i j : Nat} {home other : Place} (hi : (i :: home) <:+ other)
    (hj : (j :: home) <:+ other) : i = j := by
  have hsame := (List.suffix_of_suffix_length_le hi hj (by simp)).eq_of_length (by simp)
  exact (List.cons.inj hsame).1

theorem length_lt_of_suffix {n : Nat} {home other : Place} (h : (n :: home) <:+ other) :
    home.length < other.length := h.length_le

mutual

theorem nodup_places (action : Action) (place : Place) : (places place action).Nodup := by
  cases action with
  | cue | fork => exact List.nodup_singleton _
  | block parts =>
      refine List.nodup_cons.mpr ⟨fun h ↦ ?_, nodup_placesAll parts place 0⟩
      obtain ⟨i, -, hi⟩ := suffix_of_mem_placesAll h
      exact Nat.lt_irrefl _ (length_lt_of_suffix hi)

theorem nodup_placesAll (parts : List Action) (home : Place) (n : Nat) :
    (placesAll home n parts).Nodup := by
  cases parts with
  | nil => exact .nil
  | cons part rest =>
      refine List.nodup_append.mpr
        ⟨nodup_places part _, nodup_placesAll rest home (n + 1), fun x hx y hy hxy ↦ ?_⟩
      obtain ⟨i, hi, hsuffix⟩ := suffix_of_mem_placesAll hy
      have := index_eq_of_suffix (suffix_of_mem_places hx) (hxy ▸ hsuffix)
      omega

end

/-! ## Only blocks are entered -/

mutual

/-- Whatever stands between an action and what is taken up with it is a block. -/
theorem exists_block_above {story : List Action} {action : Action} {place home other : Place}
    {n : Nat} (h : at? story place = some action) (hmem : other ∈ places place action)
    (hhome : place <:+ home) (hsuffix : (n :: home) <:+ other) :
    ∃ parts, at? story home = some (.block parts) := by
  have hself : other ≠ place := by
    rintro rfl
    exact absurd hhome.length_le (Nat.not_le.mpr (length_lt_of_suffix hsuffix))
  cases action with
  | cue | fork => exact absurd (List.mem_singleton.mp hmem) hself
  | block parts =>
      by_cases hsame : home = place
      · exact ⟨parts, hsame ▸ h⟩
      · have hlt : place.length < home.length :=
          Nat.lt_of_le_of_ne hhome.length_le fun he ↦ hsame (hhome.eq_of_length he).symm
        refine exists_block_above_all (fun i ↦ ?_) ((List.mem_cons.mp hmem).resolve_left hself)
          hlt hsuffix
        rw [at?_cons h, Nat.zero_add]
        rfl

theorem exists_block_above_all {story parts : List Action} {place home other : Place} {k n : Nat}
    (h : ∀ i, at? story ((k + i) :: place) = parts[i]?) (hmem : other ∈ placesAll place k parts)
    (hlt : place.length < home.length) (hsuffix : (n :: home) <:+ other) :
    ∃ parts, at? story home = some (.block parts) := by
  cases parts with
  | nil => cases hmem
  | cons part rest =>
      rcases List.mem_append.mp hmem with hmem | hmem
      · exact exists_block_above (h 0) hmem (List.suffix_of_suffix_length_le
          (suffix_of_mem_places hmem) ((List.suffix_cons n home).trans hsuffix) hlt) hsuffix
      · refine exists_block_above_all (fun i ↦ ?_) hmem hlt hsuffix
        rw [Nat.add_right_comm]
        exact h (i + 1)

end

end

end Action

end Storyline
