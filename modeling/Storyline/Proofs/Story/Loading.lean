import Storyline.Proofs.Action.Rereading
import Storyline.Proofs.Json.Faults
import Storyline.Proofs.Json.Merging
import Storyline.Proofs.Json.Tags
import Storyline.Story

/-!
# Loading a story and reading it straight

A story is loaded by way of its value, and a list of actions can also be read straight
from its text.  Both say the same of a text, except that loading overlooks all but the
last of the members that an object gives under one name.
-/

namespace Storyline

open Json

namespace Action

theorem marked_of_ofJson {j : Json} {a : Action} (h : ofJson .named j = some a) :
    j.Marked "type" fun kind ↦ kinds.contains kind := by
  obtain ⟨kind, rest, htag, -⟩ := ofJson_eq_some_iff.mp h
  refine Reader.marked_of_tagged htag fun name hname ↦ ?_
  unfold Tag.ofName at hname
  split at hname
  next hmem => simpa using hmem
  next => exact nomatch hname

theorem reads_action (depth : Nat) :
    Reader.Reads (Reader.action depth) (Reader.Told (fun j a ↦ ofJson .named j = some a) depth) := by
  refine ((Reader.reads_taggedValue depth).choose .mismatched (ofJson .named)).congr fun a s rest ↦ ?_
  constructor
  · rintro ⟨j, ⟨hj, -⟩, ha⟩
    exact ⟨j, hj, ha⟩
  · rintro ⟨j, hj, ha⟩
    exact ⟨j, ⟨hj, marked_of_ofJson ha⟩, ha⟩

theorem read_eq_ok_iff {document : Bytes} {a : Action} :
    read document = .ok a ↔ ∃ j : Json, j.Written document ∧ ofJson .named j = some a :=
  Reader.run_told_iff (reads_action nestingLimit)

theorem readList_eq_ok_iff {document : Bytes} {as : List Action} :
    readList document = .ok as ↔
      ∃ items, (Json.array items).Written document ∧ items.mapM (ofJson .named) = some as := by
  rw [readList, Reader.run_told_iff (Reader.reads_arrayOf reads_action nestingLimit)]
  constructor
  · rintro ⟨j, hj, items, rfl, has⟩
    exact ⟨items, hj, mapM_eq_some_iff.mpr has⟩
  · rintro ⟨items, hitems, has⟩
    exact ⟨_, hitems, items, rfl, mapM_eq_some_iff.mp has⟩

/-- An action outlives the merging of repeated members: it has none that it reads. -/
theorem faithful_merged : Faithful (fun j j' ↦ j' = merged j) fun _ j j' ↦ j' = merged j where
  fields _ _ := Json.faithful_merged
  parts h := ⟨_, h, forall₂_mergedItems _⟩
  tagged := by
    rintro j j' style kind rest rfl h
    exact ⟨_, tagged_merged h, sameRecord_merged _ _, noFields_merged⟩

end Action

namespace Story

variable {pacing : Pacing} {document : Bytes}

theorem load_of_scalar {j : Json} (h : j.Written document) (hj : j.isScalar = true) :
    load pacing document = .error .neither := by
  rw [load, Json.read_eq_ok_iff.mpr h]
  cases j <;> first | rfl | exact nomatch hj

theorem load_of_array {items : List Json} (h : (Json.array items).Written document) :
    load pacing document = ofValues items := by
  rw [load, Json.read_eq_ok_iff.mpr h]

theorem load_of_object {members : Members} (h : (Json.object members).Written document) :
    load pacing document = loadScript pacing document := by
  rw [load, Json.read_eq_ok_iff.mpr h]

theorem load_of_fault {fault : Fault} (h : Json.read document = .error fault) :
    load pacing document = .error (.json fault) := by
  rw [load, h]

theorem loadScript_eq_ok_iff {actions : List Action} : loadScript pacing document = .ok actions ↔
    ∃ script, Script.read document = .ok script ∧ script.story pacing = actions := by
  unfold loadScript
  cases Script.read document <;> simp

theorem ofValues_eq_ok_iff {items : List Json} {as : List Action} :
    ofValues items = .ok as ↔ (mergedItems items).mapM (Action.ofJson .named) = some as := by
  unfold ofValues
  cases (mergedItems items).mapM (Action.ofJson .named) <;> simp

/-- What is read straight as a list of actions is loaded as that list. -/
theorem load_of_readList {actions : List Action} (h : Action.readList document = .ok actions) :
    load pacing document = .ok actions := by
  obtain ⟨items, hitems, has⟩ := Action.readList_eq_ok_iff.mp h
  rw [load_of_array hitems, ofValues_eq_ok_iff]
  exact (Action.reread Action.faithful_merged .named).mapM (forall₂_mergedItems items) has

theorem loadScript_ne_neither : loadScript pacing document ≠ .error .neither := by
  unfold loadScript
  split <;> simp

/-- How loading a story relates to what its text holds and to reading it straight.  It
is unsupported exactly if it holds a value that is neither a list nor an object;
without a value it is malformed or truncated, whatever else may be wrong before; an
object is loaded as a script; a list of actions is loaded as it is read straight, and
only a list in which some object repeats a name can be loaded but not so read. -/
theorem load_agrees_with_reading (pacing : Pacing) (document : Bytes) :
    (load pacing document = .error .neither ↔
      ∃ j : Json, j.Written document ∧ j.isScalar = true) ∧
    ((¬∃ j : Json, j.Written document) →
      load pacing document = .error (.json .malformed) ∨
        load pacing document = .error (.json .truncated)) ∧
    (∀ members, (Json.object members).Written document →
      load pacing document = loadScript pacing document) ∧
    (∀ actions, Action.readList document = .ok actions → load pacing document = .ok actions) ∧
    ∀ items actions fault, (Json.array items).Written document → load pacing document = .ok actions →
      Action.readList document = .error fault → ∃ members ∈ (Json.array items).objects, Repeats members := by
  refine ⟨⟨fun h ↦ ?_, fun ⟨j, hj, hscalar⟩ ↦ load_of_scalar hj hscalar⟩, fun h ↦ ?_,
    fun members h ↦ load_of_object h, fun actions h ↦ load_of_readList h, fun items actions fault hitems h hread ↦ ?_⟩
  · cases hread : Json.read document with
    | error fault =>
        rw [load_of_fault hread] at h
        exact nomatch h
    | ok j =>
        have hj := Json.read_eq_ok_iff.mp hread
        refine ⟨j, hj, ?_⟩
        cases j with
        | array items =>
            rw [load_of_array hj, ofValues] at h
            split at h <;> exact nomatch h
        | object members =>
            rw [load_of_object hj] at h
            exact absurd h loadScript_ne_neither
        | _ => rfl
  · cases hread : Json.read document with
    | error fault =>
        rw [load_of_fault hread]
        rcases Json.read_error hread with rfl | rfl
        · exact .inl rfl
        · exact .inr rfl
    | ok j => exact absurd ⟨j, Json.read_eq_ok_iff.mp hread⟩ h
  · by_contra hnone
    have hself : mergedItems items = items :=
      mergedItems_eq_self fun members hmem hrepeats ↦ hnone ⟨members, hmem, hrepeats⟩
    rw [load_of_array hitems, ofValues_eq_ok_iff, hself] at h
    have hok := Action.readList_eq_ok_iff.mpr ⟨items, hitems, h⟩
    exact nomatch hok.symm.trans hread

end Story

end Storyline
