import Storyline.Proofs.Json.Loosening
import Storyline.Proofs.Json.Places
import Storyline.Script.Reader

/-!
# Reading addresses

The kind of an address is a choice, which straight from text is narrower than in a value;
all else of an address is read off its members.
-/

namespace Storyline

open Json

namespace Address

/-- The kind of the address, if it is written as an object, holds `null` and not an
object without members. -/
def plain : Json → Bool
  | .object members => members.all fun m ↦ m.1 != "type" ||
    match m.2 with
    | .object [(_, .object [])] => false
    | _ => true
  | _ => true

/-- An address as it is read straight from text. -/
def ofPlain (j : Json) : Option Address := if plain j then Address.ofJson j else none

theorem ofJson_object (members : Members) : Address.ofJson (.object members) =
    if count "type" members ≤ 1 then
      ((members.lookup "type").map asChoice).elim (some .bandori) (· >>= AddressKind.ofKey?) >>=
        fun kind ↦ AddressTarget.ofMembers (without ["type"] members) >>= fun target ↦
          some ⟨kind, target⟩
    else none := by
  unfold Address.ofJson fieldsOf
  simp only [List.all_cons, List.all_nil, Bool.and_true, decide_eq_true_eq]
  split
  · simp only [Option.bind_eq_bind, Option.bind_some]
    cases members.lookup "type" <;> rfl
  · rfl

end Address

namespace Reader

open Grammar

variable {s t rest : Bytes}

/-- A choice that is read straight from text, by its value. -/
def Chosen (accepts : String → Bool) (v j : Json) : Prop :=
  ∃ name, accepts name = true ∧ (v = .string name ∨ v = .object [(name, .null)]) ∧ j = .string name

theorem reads_choice (accepts : String → Bool) (depth : Nat) :
    Reads (choice accepts depth) fun j s rest ↦ ∃ v, Value depth v s rest ∧ Chosen accepts v j where
  sound {j s rest} h := by
    simp only [choice, bind_eq_ok_iff, peekToken_eq_ok_iff] at h
    obtain ⟨b, t, ⟨hblanks, -, u, rfl⟩, h⟩ := h
    split at h
    next hb =>
      obtain ⟨name, rfl, ⟨v, hv, hname⟩, hok⟩ := tagName_eq_ok_iff.mp h
      exact ⟨v, hblanks.trans hv, .string name, value_string_iff.mpr hname, name, hok, .inl rfl, rfl⟩
    next =>
    split at h
    next hb =>
      rw [Bool.and_eq_true, beq_iff_eq, decide_eq_true_eq] at hb
      obtain ⟨rfl, hdepth⟩ := hb
      obtain ⟨below, rfl⟩ := Nat.exists_eq_succ_of_ne_zero (Nat.ne_zero_of_lt hdepth)
      simp only [bind_eq_ok_iff, advance_eq_ok_iff, tagName_eq_ok_iff, peekToken_eq_ok_iff,
        token_eq_ok_iff (show isSpace 0x3a = false from rfl)] at h
      obtain ⟨-, v, rfl, _, w, ⟨name, rfl, hname, hok⟩, -, x, hcolon, c, y, ⟨hnull, -, z, rfl⟩, h⟩ := h
      split at h
      next hc =>
        simp only [bind_eq_ok_iff, advance_eq_ok_iff, literal_eq_ok_iff, pure_eq_ok_iff,
          token_eq_ok_iff (show isSpace 0x7d = false from rfl)] at h
        obtain ⟨-, v', hv', -, w', rfl, -, x', hclose, rfl, rfl⟩ := h
        obtain rfl : z = nullRest ++ w' := hv'
        refine ⟨_, hblanks, .object [(name, .null)], ?_, name, hok, .inr rfl, rfl⟩
        refine value_object_iff.mpr ⟨below, u, rfl, rfl, .inr (.last ⟨w, hname, hcolon⟩ ?_ hclose)⟩
        exact ⟨_, beq_iff_eq.mp hc ▸ hnull, value_null below⟩
      next => exact (mismatch_eq_ok_iff.mp h).elim
    next => simp at h
  complete := by
    rintro j s rest ⟨t, hblanks, v, hv, name, hok, hform, rfl⟩ -
    simp only [choice, bind_eq_ok_iff, peekToken_eq_ok_iff]
    rcases hform with rfl | rfl
    · obtain ⟨u, rfl, hname⟩ := value_string_iff.mp hv
      refine ⟨0x22, _, ⟨hblanks, rfl, u, rfl⟩, ?_⟩
      rw [if_pos (by decide)]
      exact tagName_eq_ok_iff.mpr ⟨name, rfl, ⟨_, .nil _, u, rfl, hname⟩, hok⟩
    · obtain ⟨below, u, rfl, rfl, hbraced⟩ := value_object_iff.mp hv
      refine ⟨0x7b, _, ⟨hblanks, rfl, u, rfl⟩, ?_⟩
      rw [if_neg (by decide), if_pos (by simp)]
      have hmembers := Or.resolve_left hbraced fun h ↦ List.cons_ne_nil _ _ h.1
      cases hmembers with
      | more _ _ _ hrest => cases hrest
      | last hlabel hnull hclose =>
          obtain ⟨w, hname, hcolon⟩ := hlabel
          obtain ⟨x, hblanks, hnull⟩ := hnull
          obtain rfl := eq_of_value_null hnull
          simp only [bind_eq_ok_iff, advance_eq_ok_iff, tagName_eq_ok_iff, peekToken_eq_ok_iff,
            token_eq_ok_iff (show isSpace 0x3a = false from rfl)]
          refine ⟨(), u, rfl, .string name, w, ⟨name, rfl, hname, hok⟩, (), _, hcolon, 0x6e, _,
            ⟨hblanks, rfl, _, rfl⟩, ?_⟩
          rw [if_pos (by decide)]
          simp only [bind_eq_ok_iff, advance_eq_ok_iff, literal_eq_ok_iff, pure_eq_ok_iff,
            token_eq_ok_iff (show isSpace 0x7d = false from rfl)]
          exact ⟨(), _, rfl, (), _, rfl, (), rest, hclose, trivial, rfl⟩

/-- The kind of an address is read as the choice that it is, and all else as it stands. -/
def AddressTold (name : String) (v j : Json) : Prop :=
  if name = "type" then Chosen (fun key ↦ (AddressKind.ofKey? key).isSome) v j else v = j

theorem reads_addressMember (depth : Nat) (seen : List String) (name : String) :
    Reads (addressMember depth seen name) fun j s rest ↦ Told (AddressTold name) depth j s rest ∧
      (name ∈ ["type"] → name ∉ seen ∧ True) := by
  unfold addressMember AddressTold
  split
  next htype =>
    obtain rfl := beq_iff_eq.mp htype
    split
    next hseen =>
      refine (reads_fail .mismatched).congr fun j s rest ↦ ⟨False.elim, fun h ↦ ?_⟩
      exact (h.2 (List.mem_singleton.mpr rfl)).1 (by simpa using hseen)
    next hseen =>
      refine (reads_choice _ depth).congr fun j s rest ↦ ?_
      simp [Told, show "type" ∉ seen by simpa using hseen]
  next htype =>
    have hne : name ≠ "type" := by simpa using htype
    refine (reads_value depth).congr fun j s rest ↦ ?_
    simp [Told, hne]

/-- The kind of an address that is read is a choice, if it is given. -/
theorem choice_of_ofJson {members : Json.Members} {address : Address} {v : Json}
    (h : Address.ofJson (.object members) = some address) (hv : ("type", v) ∈ members) :
    ∃ key, Json.asChoice v = some key ∧ (AddressKind.ofKey? key).isSome = true := by
  rw [Address.ofJson_object] at h
  split at h
  next hcount =>
    obtain ⟨kind, hkind, -⟩ := Option.bind_eq_some_iff.mp h
    rw [Json.lookup_eq_some_of_count hcount hv] at hkind
    obtain ⟨key, hkey, hkind⟩ := Option.bind_eq_some_iff.mp hkind
    exact ⟨key, hkey, Option.isSome_of_mem hkind⟩
  next => exact nomatch h

theorem ofJson_of_told {members choices : Json.Members}
    (h : List.Forall₂ (fun v a ↦ v.1 = a.1 ∧ AddressTold v.1 v.2 a.2) members choices) :
    Address.ofJson (.object choices) = Address.ofJson (.object members) := by
  have hcount : Json.count "type" choices = Json.count "type" members := by
    unfold Json.count
    induction h with
    | nil => rfl
    | cons hm _ ih => simp only [List.countP_cons, ih, hm.1]
  have hlookup : (choices.lookup "type").map Json.asChoice = (members.lookup "type").map Json.asChoice := by
    induction h with
    | nil => rfl
    | @cons v a vs as hm hrest ih =>
        obtain ⟨name, v⟩ := v
        obtain ⟨name', a⟩ := a
        obtain ⟨rfl, hm⟩ := hm
        simp only [List.lookup_cons]
        by_cases hname : name = "type"
        · subst hname
          obtain ⟨key, -, rfl | rfl, rfl⟩ := by simpa [AddressTold] using hm
          · rfl
          · rfl
        · rw [beq_eq_false_iff_ne.mpr (Ne.symm hname)]
          refine ih ?_
          simpa [Json.count, List.countP_cons, hname] using hcount
  have hwithout : without ["type"] choices = without ["type"] members := by
    clear hcount hlookup
    unfold without
    induction h with
    | nil => rfl
    | @cons v a vs as hm _ ih =>
        obtain ⟨name, v⟩ := v
        obtain ⟨name', a⟩ := a
        obtain ⟨rfl, hm⟩ := hm
        by_cases hname : name = "type"
        · simpa [hname] using ih
        · obtain rfl : v = a := by simpa [AddressTold, hname] using hm
          simpa [hname] using ih
  rw [Address.ofJson_object, Address.ofJson_object, hcount, hlookup, hwithout]

/-- What an address is read as, and whether it is one straight from text. -/
theorem ofPlain_object_iff {members : Json.Members} {address : Address} :
    Address.ofPlain (.object members) = some address ↔ ∃ choices : Json.Members,
      List.Forall₂ (fun v a ↦ v.1 = a.1 ∧ AddressTold v.1 v.2 a.2) members choices ∧
        Json.count "type" choices ≤ 1 ∧ Address.ofJson (.object choices) = some address := by
  constructor
  · intro h
    unfold Address.ofPlain at h
    split at h
    next hplain =>
      let choice : Json → Json := fun v ↦ (Json.asChoice v).elim v .string
      have htold : List.Forall₂ (fun v a ↦ v.1 = a.1 ∧ AddressTold v.1 v.2 a.2) members
          (members.map fun m ↦ (m.1, if m.1 = "type" then choice m.2 else m.2)) := by
        rw [List.forall₂_map_right_iff, List.forall₂_same]
        rintro ⟨name, v⟩ hm
        refine ⟨rfl, ?_⟩
        unfold AddressTold
        split
        next hname =>
          obtain rfl := hname
          obtain ⟨key, hchoice, hkey⟩ := choice_of_ofJson h hm
          refine ⟨key, hkey, ?_, by simp [choice, hchoice]⟩
          rcases Json.asChoice_eq_some_iff.mp hchoice with hv | hv | rfl
          · exact .inl hv
          · exact .inr hv
          · exact absurd (List.all_eq_true.mp hplain _ hm) (by simp)
        next => rfl
      have hchoices := (ofJson_of_told htold).trans h
      refine ⟨_, htold, ?_, hchoices⟩
      rw [Address.ofJson_object] at hchoices
      exact of_not_not fun hcount ↦ by simp [if_neg hcount] at hchoices
    next => exact nomatch h
  · rintro ⟨choices, htold, -, h⟩
    rw [ofJson_of_told htold] at h
    unfold Address.ofPlain
    rw [if_pos, h]
    clear h
    simp only [Address.plain]
    induction htold with
    | nil => rfl
    | @cons m a _ _ hm _ ih =>
        obtain ⟨name, v⟩ := m
        rw [List.all_cons, ih, Bool.and_true]
        by_cases hname : name = "type"
        · subst hname
          obtain ⟨key, -, rfl | rfl, -⟩ := by simpa [AddressTold] using hm.2
          · rfl
          · rfl
        · simp [hname]

theorem reads_address (depth : Nat) :
    Reads (address depth) (Told (fun j a ↦ Address.ofPlain j = some a) depth) := by
  cases depth with
  | zero =>
      refine ⟨fun {a s rest} hread ↦ ?_, ?_⟩
      · simp only [address, bind_eq_ok_iff] at hread
        obtain ⟨b, t, -, hread⟩ := hread
        split at hread
        · simp at hread
        · exact (mismatch_eq_ok_iff.mp hread).elim
      · rintro a s rest ⟨t, -, j, hj, ha⟩ -
        cases hj <;> cases ha
  | succ depth =>
      have hobject : ∀ {choices s rest}, objectRest (addressMember depth) s = .ok (choices, rest) ↔
          ∃ members, Braced (fun _ _ ↦ Value depth) members s rest ∧
            List.Forall₂ (fun v a ↦ v.1 = a.1 ∧ AddressTold v.1 v.2 a.2) members choices ∧
              Json.count "type" choices ≤ 1 := by
        intro choices s rest
        rw [objectRest_eq_ok_iff (reads_addressMember depth) fun _ name ↦
          (solid_told (AddressTold name) depth).and,
          braced_along (G := fun _ name ↦ Told (AddressTold name) depth), along_once_nil]
        have htold : Braced (fun _ name ↦ Told (AddressTold name) depth) choices s rest ↔ _ := braced_told
        rw [htold, ← exists_and_right]
        simp [Json.count, and_assoc]
      refine ⟨fun {a s rest} hread ↦ ?_, ?_⟩
      · simp only [address, bind_eq_ok_iff, peekToken_eq_ok_iff] at hread
        obtain ⟨b, t, ⟨hblanks, -, u, rfl⟩, hread⟩ := hread
        split at hread
        next hb =>
          obtain rfl := beq_iff_eq.mp hb
          simp only [bind_eq_ok_iff, advance_eq_ok_iff, hobject, ofOption_eq_ok_iff] at hread
          obtain ⟨-, v, rfl, choices, _, ⟨members, hmembers, htold, hcount⟩, ha, rfl⟩ := hread
          exact ⟨_, hblanks, .object members, value_object_iff.mpr ⟨depth, u, rfl, rfl, hmembers⟩,
            ofPlain_object_iff.mpr ⟨choices, htold, hcount, ha⟩⟩
        next => exact (mismatch_eq_ok_iff.mp hread).elim
      · rintro a s rest ⟨t, hblanks, j, hj, ha⟩ -
        cases j with
        | object members =>
            obtain ⟨below, u, hdepth, rfl, hj⟩ := value_object_iff.mp hj
            obtain rfl := Nat.succ.inj hdepth
            obtain ⟨choices, htold, hcount, ha⟩ := ofPlain_object_iff.mp ha
            simp only [address, bind_eq_ok_iff, peekToken_eq_ok_iff]
            refine ⟨0x7b, _, ⟨hblanks, rfl, u, rfl⟩, ?_⟩
            rw [if_pos (by decide)]
            simp only [bind_eq_ok_iff, advance_eq_ok_iff, hobject, ofOption_eq_ok_iff]
            exact ⟨(), u, rfl, choices, rest, ⟨members, hj, htold, hcount⟩, ha, rfl⟩
        | _ => cases ha

end Reader

end Storyline
