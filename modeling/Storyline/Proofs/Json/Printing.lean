import Mathlib.Tactic.IntervalCases
import Mathlib.Tactic.Ring
import Storyline.Json.Printer
import Storyline.Proofs.Json.Rereading
import Storyline.Proofs.Json.Values
import Storyline.Proofs.Rounding

/-!
# Printed values

The text that a value is printed as is one of its texts, if its numbers are such as are
read: whole numbers within 64 bits and finite floats.
-/

namespace Storyline

open Reader (isDigit digitValue valueOfDigits numberOf hexFour)
open Grammar

namespace Json

variable {rest : Bytes}

/-! ## Digits -/

theorem digitBytes_of_lt {n : Nat} (h : n < 10) : digitBytes n = [UInt8.ofNat (0x30 + n)] := by
  rw [digitBytes, Nat.toDigits_of_lt_base h]
  interval_cases n <;> rfl

theorem digitBytes_of_le {n : Nat} (h : 10 ≤ n) :
    digitBytes n = digitBytes (n / 10) ++ digitBytes (n % 10) := by
  rw [digitBytes, Nat.toDigits_of_base_le (by decide) h, List.map_append, digitBytes, digitBytes,
    Nat.toDigits_of_lt_base (Nat.mod_lt n (by decide))]

theorem valueOfDigits_append (ds es : Bytes) :
    valueOfDigits (ds ++ es) = valueOfDigits ds * 10 ^ es.length + valueOfDigits es := by
  have hfold : ∀ (es : Bytes) (n : Nat), es.foldl (fun n d ↦ 10 * n + digitValue d) n =
      n * 10 ^ es.length + valueOfDigits es := by
    intro es
    induction es with
    | nil => simp [valueOfDigits]
    | cons e es ih =>
        intro n
        rw [valueOfDigits, List.foldl_cons, List.foldl_cons, ih, ih, List.length_cons, pow_succ]
        ring
  rw [valueOfDigits, List.foldl_append, hfold]
  rfl

theorem isDigit_digitBytes {n : Nat} : ∀ d ∈ digitBytes n, isDigit d = true := by
  induction n using Nat.strongRecOn with
  | _ n ih =>
      by_cases h : n < 10
      · rw [digitBytes_of_lt h]
        intro d hd
        obtain rfl := List.mem_singleton.mp hd
        interval_cases n <;> rfl
      · have hle := Nat.le_of_not_lt h
        rw [digitBytes_of_le hle]
        intro d hd
        rcases List.mem_append.mp hd with hd | hd
        · exact ih (n / 10) (Nat.div_lt_self (by omega) (by decide)) d hd
        · exact ih (n % 10) (Nat.lt_of_lt_of_le (Nat.mod_lt n (by decide)) hle) d hd

theorem valueOfDigits_digitBytes (n : Nat) : valueOfDigits (digitBytes n) = n := by
  induction n using Nat.strongRecOn with
  | _ n ih =>
      by_cases h : n < 10
      · rw [digitBytes_of_lt h]
        interval_cases n <;> rfl
      · have hle := Nat.le_of_not_lt h
        have hlast := Nat.mod_lt n (show 0 < 10 by decide)
        rw [digitBytes_of_le hle, valueOfDigits_append, ih (n / 10) (Nat.div_lt_self (by omega) (by decide)),
          ih (n % 10) (Nat.lt_of_lt_of_le hlast hle), digitBytes_of_lt hlast]
        simp only [List.length_singleton, pow_one]
        omega

theorem digitBytes_ne_nil (n : Nat) : digitBytes n ≠ [] := by
  rw [digitBytes, Ne, List.map_eq_nil_iff]
  exact Nat.toDigits_ne_nil

/-- No zero stands in front of other digits. -/
theorem digitBytes_head (n : Nat) : ∀ d more, digitBytes n ≠ 0x30 :: d :: more := by
  induction n using Nat.strongRecOn with
  | _ n ih =>
      intro d more heq
      by_cases h : n < 10
      · rw [digitBytes_of_lt h] at heq
        exact absurd heq (by simp)
      · have hle := Nat.le_of_not_lt h
        rw [digitBytes_of_le hle] at heq
        cases hfront : digitBytes (n / 10) with
        | nil => exact digitBytes_ne_nil _ hfront
        | cons e es =>
            rw [hfront] at heq
            obtain ⟨rfl, -⟩ := List.cons.inj heq
            cases es with
            | cons e' es => exact ih (n / 10) (Nat.div_lt_self (by omega) (by decide)) e' es hfront
            | nil =>
                have hzero : n / 10 = 0 := by
                  rw [← valueOfDigits_digitBytes (n / 10), hfront]
                  rfl
                omega

theorem digits_print (n : Nat) (rest : Bytes) : Digits (digitBytes n) (digitBytes n ++ rest) rest :=
  ⟨rfl, digitBytes_ne_nil n, isDigit_digitBytes⟩

theorem leading_print (n : Nat) : Leading (digitBytes n) (digitBytes n ++ rest) rest :=
  ⟨digits_print n rest, digitBytes_head n⟩

/-! ## Numbers -/

end Json

/-- A number as it is read: whole within 64 bits, or finite. -/
def Number.Fits : Number → Prop
  | .whole n => -2 ^ 63 ≤ n ∧ n < 2 ^ 64
  | .real x => x.isFinite = true

namespace Json

variable {rest : Bytes}

theorem reduceTwos_spec (u places : Nat) :
    (reduceTwos u places).1 * 2 ^ (places - (reduceTwos u places).2) = u ∧
      (reduceTwos u places).2 ≤ places := by
  induction places generalizing u with
  | zero => simp [reduceTwos]
  | succ places ih =>
      rw [reduceTwos]
      split
      next heven =>
        obtain ⟨hvalue, hle⟩ := ih (u / 2)
        refine ⟨?_, Nat.le_succ_of_le hle⟩
        rw [Nat.succ_sub hle, pow_succ, ← Nat.mul_assoc, hvalue]
        omega
      next => simp

theorem mul_two_pow_pred {n k u : Nat} (h : n * 2 ^ k = u) (hk : 0 < k) : n * 2 * 2 ^ (k - 1) = u := by
  rw [Nat.mul_assoc, ← Nat.pow_succ', Nat.succ_eq_add_one, Nat.sub_add_cancel hk, h]

/-- The decimal expansion of a finite float denotes the float. -/
theorem ofDecimal_expansion {x : Binary64} (hx : x.isFinite = true) {n places : Nat}
    (h : n * 2 ^ (1074 - places) = x.units) (hpos : 0 < places) (hle : places ≤ 1074) :
    Binary.ofDecimal x.negative (n * 5 ^ places) (-(places : Int)) = x := by
  have hmagnitude : x.magnitude < BinaryFormat.double.infinity := of_decide_eq_true hx
  unfold Binary.ofDecimal
  split
  next hzero =>
    have hn : n = 0 := by
      rcases Nat.mul_eq_zero.mp hzero with hn | hfive
      · exact hn
      · exact absurd hfive (Nat.ne_of_gt (Nat.pow_pos (by decide)))
    rw [hn, Nat.zero_mul] at h
    have hmagnitude : x.magnitude = 0 := BinaryFormat.eq_zero_of_units h.symm
    exact congrArg (Binary.mk x.negative) hmagnitude.symm
  next hne =>
    rw [if_neg (by omega), Int.neg_neg, Int.toNat_natCast]
    have hsmall : ¬400 + Nat.log2 (n * 5 ^ places) < places := by
      have hpow : 2 ^ places ≤ n * 5 ^ places :=
        Nat.le_trans (Nat.pow_le_pow_left (by decide) places)
          (Nat.le_mul_of_pos_left _ (Nat.pos_of_ne_zero fun hn ↦ hne (by simp [hn])))
      have := (Nat.le_log2 hne).mpr hpow
      omega
    rw [if_neg hsmall]
    refine congrArg (Binary.mk x.negative) (BinaryFormat.nearest_exact (Nat.pow_pos (by decide)) hmagnitude ?_)
    have hsplit : 1074 = 1074 - places + places := by omega
    have hten : (10 : Nat) ^ places = 2 ^ places * 5 ^ places := Nat.mul_pow 2 5 places
    change _ = x.units * _
    rw [BinaryFormat.one_double, ← h, hten, hsplit, Nat.pow_add, ← hsplit]
    ring

theorem numberOf_expansion {x : Binary64} (hx : x.isFinite = true) {n places : Nat}
    (h : n * 2 ^ (1074 - places) = x.units) (hpos : 0 < places) (hle : places ≤ 1074) {ds : Bytes}
    {fraction : Option Bytes} {exponent : Option Int}
    (hsome : (fraction.isNone && exponent.isNone) = false)
    (hvalue : valueOfDigits (ds ++ fraction.getD []) = n * 5 ^ places)
    (hexponent : exponent.getD 0 - (fraction.getD []).length = -(places : Int)) :
    numberOf x.negative ds fraction exponent = some (.real x) := by
  unfold numberOf
  simp only [hsome, Bool.false_and, Bool.false_eq_true, if_false, hvalue, hexponent,
    ofDecimal_expansion hx h hpos hle, hx, if_true]

theorem numeral_signed {negative : Bool} {n : Number} {s : Bytes} (h : Unsigned negative n s rest) :
    Numeral n ((if negative then [0x2d] else []) ++ s) rest := by
  cases negative with
  | false => exact .inl h
  | true => exact .inr ⟨s, rfl, h⟩

theorem numeral_printFloat {x : Binary64} (hx : x.isFinite = true) :
    Numeral (.real x) (printFloat x ++ rest) rest := by
  have hlog : Nat.log2 BinaryFormat.double.one = 1074 := by
    rw [BinaryFormat.one_double, Nat.log2_two_pow]
  obtain ⟨hvalue, hle⟩ := reduceTwos_spec x.units 1074
  unfold printFloat
  rw [hlog]
  generalize reduceTwos x.units 1074 = p at hvalue hle
  obtain ⟨n, places⟩ := p
  cases places with
  | zero =>
      have hdouble : n * 2 * 2 ^ (1074 - 1) = x.units := by
        simpa only [Nat.sub_zero] using mul_two_pow_pred hvalue (by simp)
      have hnumber : numberOf x.negative (digitBytes n) (some [0x30]) none = some (.real x) := by
        refine numberOf_expansion hx hdouble (by decide) (by decide) rfl ?_ rfl
        rw [Option.getD_some, valueOfDigits_append, valueOfDigits_digitBytes]
        simp only [List.length_singleton, pow_one]
        change n * 10 + 0 = n * 2 * 5
        omega
      have hunsigned : Unsigned x.negative (.real x) (digitBytes n ++ [0x2e, 0x30] ++ rest) rest := by
        refine ⟨digitBytes n, some [0x30], none, [0x2e, 0x30] ++ rest, rest, ?_, ?_, .none _, hnumber⟩
        · rw [List.append_assoc]
          exact leading_print n
        · exact ⟨_, rfl, rfl, List.cons_ne_nil _ _, fun d hd ↦ List.mem_singleton.mp hd ▸ rfl⟩
      simpa only [List.append_assoc] using numeral_signed hunsigned
  | succ places =>
      have hnumber : numberOf x.negative (digitBytes (n * 5 ^ (places + 1))) none
          (some (-((places + 1 : Nat) : Int))) = some (.real x) := by
        refine numberOf_expansion hx hvalue (Nat.succ_pos _) hle rfl ?_ ?_
        · rw [Option.getD_none, List.append_nil, valueOfDigits_digitBytes]
        · simp
      have hexponent : Exponent (some (-((places + 1 : Nat) : Int)))
          ([0x65, 0x2d] ++ digitBytes (places + 1) ++ rest) rest := by
        have hread := Exponent.some (.inl rfl) (.minus _) (digits_print (places + 1) rest)
        rw [valueOfDigits_digitBytes] at hread
        exact hread
      have hunsigned : Unsigned x.negative (.real x)
          (digitBytes (n * 5 ^ (places + 1)) ++ [0x65, 0x2d] ++ digitBytes (places + 1) ++ rest) rest := by
        refine ⟨digitBytes (n * 5 ^ (places + 1)), none, some _, _, _, ?_, rfl, hexponent, hnumber⟩
        simp only [List.append_assoc]
        exact leading_print _
      simpa only [List.append_assoc] using numeral_signed hunsigned

theorem numeral_print {n : Number} (h : n.Fits) : Numeral n (printNumber n ++ rest) rest := by
  cases n with
  | real x =>
      rw [printNumber, if_pos (show x.isFinite = true from h)]
      exact numeral_printFloat h
  | whole n =>
      obtain ⟨hmin, hmax⟩ := h
      have hnumber : numberOf (decide (n < 0)) (digitBytes n.natAbs) none none = some (.whole n) := by
        unfold numberOf
        rw [valueOfDigits_digitBytes]
        by_cases hneg : n < 0
        · have hrange : 0 < n.natAbs ∧ n.natAbs ≤ 2 ^ 63 := by omega
          have habs : -(n.natAbs : Int) = n := by omega
          simp only [decide_eq_true hneg, decide_eq_true hrange, Option.isNone_none, Bool.not_true,
            Bool.and_true, Bool.and_false, Bool.false_and, Bool.false_eq_true, if_false, if_true, habs]
        · have hrange : n.natAbs < 2 ^ 64 := by omega
          have habs : (n.natAbs : Int) = n := by omega
          simp only [decide_eq_false hneg, decide_eq_true hrange, Option.isNone_none, Bool.not_false,
            Bool.and_true, if_true, habs]
      have hunsigned : Unsigned (decide (n < 0)) (.whole n) (digitBytes n.natAbs ++ rest) rest :=
        ⟨digitBytes n.natAbs, none, none, rest, rest, leading_print _, rfl, .none _, hnumber⟩
      have hsigned := numeral_signed hunsigned
      simp only [decide_eq_true_eq] at hsigned
      rw [printNumber, List.append_assoc]
      exact hsigned

/-! ## Strings -/

theorem hexFour_printByte : ∀ n < 32,
    hexFour 0x30 0x30 (hexDigit (n / 16)) (hexDigit (n % 16)) = some n ∧
      String.utf8EncodeChar (Char.ofNat n) = [UInt8.ofNat n] := by
  decide

theorem spelling_printByte {b : UInt8} {cs s : Bytes} (h : Spelling cs s rest) :
    Spelling (b :: cs) (printByte b ++ s) rest := by
  unfold printByte
  split
  next hquote =>
    have hshort : Reader.shortEscape b = some b := by
      rcases Bool.or_eq_true_iff.mp hquote with hb | hb <;> rw [beq_iff_eq.mp hb] <;> rfl
    exact .escape (.short hshort _) h
  next hquote =>
  rw [Bool.not_eq_true, Bool.or_eq_false_iff, beq_eq_false_iff_ne, beq_eq_false_iff_ne] at hquote
  split
  next hcontrol =>
    have hlt : b.toNat < 32 := UInt8.lt_iff_toNat_lt.mp hcontrol
    obtain ⟨hhex, hbytes⟩ := hexFour_printByte b.toNat hlt
    have hescape := Escape.unicode hhex (by simp [Reader.isTrailing]; omega)
      (by simp [Reader.isLeading]; omega) s
    rw [hbytes, UInt8.ofNat_toNat] at hescape
    exact .escape hescape h
  next hcontrol => exact .plain hquote.1 hquote.2 hcontrol h

theorem toList_loop (bytes : ByteArray) (i : Nat) (r : Bytes) :
    ByteArray.toList.loop bytes i r = r.reverse ++ bytes.data.toList.drop i := by
  fun_induction ByteArray.toList.loop bytes i r with
  | case1 i r h ih =>
      rw [ih, List.drop_eq_getElem_cons (show i < bytes.data.toList.length by simpa using h)]
      simp [ByteArray.get!, h]
  | case2 i r h =>
      rw [List.drop_eq_nil_of_le (show bytes.data.toList.length ≤ i by simpa using h)]
      simp

theorem toByteArray_ofString (s : String) : (Bytes.ofString s).toByteArray = s.toByteArray := by
  apply ByteArray.ext
  rw [← Array.toList_inj, List.toList_data_toByteArray, Bytes.ofString, ByteArray.toList, toList_loop]
  rfl

theorem fromUTF8_ofString (s : String) :
    String.fromUTF8? (Bytes.ofString s).toByteArray = some s := by
  rw [toByteArray_ofString, String.fromUTF8?, dif_pos s.isValidUTF8]
  rfl

theorem quoted_print (s : String) : Quoted s (printString s ++ rest) rest := by
  have hspelling : ∀ bytes : Bytes, Spelling bytes (bytes.flatMap printByte ++ 0x22 :: rest) rest := by
    intro bytes
    induction bytes with
    | nil => exact .close rest
    | cons b bytes ih =>
        rw [List.flatMap_cons, List.append_assoc]
        exact spelling_printByte ih
  refine ⟨(Bytes.ofString s).flatMap printByte ++ [0x22] ++ rest, rfl, Bytes.ofString s, ?_,
    fromUTF8_ofString s⟩
  rw [List.append_assoc]
  exact hspelling _

/-! ## Values -/

mutual

/-- The numbers in a value. -/
def numbers : Json → List Number
  | .number n => [n]
  | .array items => numbersOfItems items
  | .object members => numbersOfMembers members
  | _ => []

def numbersOfItems : List Json → List Number
  | [] => []
  | item :: rest => numbers item ++ numbersOfItems rest

def numbersOfMembers : List (String × Json) → List Number
  | [] => []
  | (_, value) :: rest => numbers value ++ numbersOfMembers rest

end

/-- A value as it is read: all its numbers are such. -/
def Fits (j : Json) : Prop := ∀ n ∈ numbers j, n.Fits

theorem label_print (name : String) (s : Bytes) : Label name (printString name ++ 0x3a :: s) s :=
  ⟨_, ⟨_, .nil _, quoted_print name⟩, .nil _⟩

theorem bracketed_print {G : Grammar Json} {items : List Json}
    (h : ∀ item ∈ items, ∀ rest, G item (print item ++ rest) rest) (rest : Bytes) :
    Bracketed G items (commaJoin (printItems items) ++ 0x5d :: rest) rest := by
  cases items with
  | nil => exact .inl ⟨rfl, .nil _⟩
  | cons item items =>
      refine .inr ?_
      induction items generalizing item with
      | nil => exact .last ⟨_, .nil _, h item List.mem_cons_self _⟩ (.nil _)
      | cons second items ih =>
          have hmore := ih second fun j hj ↦ h j (List.mem_cons_of_mem item hj)
          refine .more ⟨_, .nil _, ?_⟩ (.nil _) hmore
          change G item (print item ++ 0x2c :: commaJoin (printItems (second :: items)) ++ _) _
          rw [List.append_assoc]
          exact h item List.mem_cons_self _

theorem braced_print {G : Grammar Json} {members : Members}
    (h : ∀ m ∈ members, ∀ rest, G m.2 (print m.2 ++ rest) rest) (rest : Bytes) :
    Braced (fun _ _ ↦ G) members (commaJoin (printMembers members) ++ 0x7d :: rest) rest := by
  cases members with
  | nil => exact .inl ⟨rfl, .nil _⟩
  | cons m members =>
      refine .inr ?_
      generalize ([] : List String) = seen
      induction members generalizing m seen with
      | nil =>
          obtain ⟨name, value⟩ := m
          refine .last ?_ ⟨_, .nil _, h _ List.mem_cons_self _⟩ (.nil _)
          change Label name (printString name ++ 0x3a :: print value ++ _) _
          rw [List.append_assoc]
          exact label_print name _
      | cons second members ih =>
          obtain ⟨name, value⟩ := m
          have hmore := ih second (fun m hm ↦ h m (List.mem_cons_of_mem _ hm)) (name :: seen)
          refine .more ?_ ⟨_, .nil _, h _ List.mem_cons_self _⟩ (.nil _) hmore
          change Label name (printString name ++ 0x3a :: print value ++
            0x2c :: commaJoin (printMembers (second :: members)) ++ _) _
          rw [List.append_assoc, List.append_assoc]
          exact label_print name _

theorem Fits.item {items : List Json} (h : Fits (.array items)) : ∀ item ∈ items, item.Fits := by
  intro item hitem n hn
  refine h n ?_
  change n ∈ numbersOfItems items
  clear h
  induction items with
  | nil => simp at hitem
  | cons first items ih =>
      rw [numbersOfItems, List.mem_append]
      rcases List.mem_cons.mp hitem with rfl | hitem
      · exact .inl hn
      · exact .inr (ih hitem)

theorem Fits.member {members : Members} (h : Fits (.object members)) : ∀ m ∈ members, m.2.Fits := by
  intro m hm n hn
  refine h n ?_
  change n ∈ numbersOfMembers members
  clear h
  induction members with
  | nil => simp at hm
  | cons first members ih =>
      rw [numbersOfMembers, List.mem_append]
      rcases List.mem_cons.mp hm with rfl | hm
      · exact .inl hn
      · exact .inr (ih hm)

theorem scalar_print {j : Json} (hj : j.Fits) (h : j.isScalar = true) (rest : Bytes) :
    Scalar j (print j ++ rest) rest := by
  cases j with
  | null => exact .null rest
  | bool b => cases b <;> [exact .false rest; exact .true rest]
  | number n => exact .number (numeral_print (hj n (by simp [numbers])))
  | string s => exact .string (quoted_print s)
  | array items | object members => exact nomatch h

theorem value_print {j : Json} {depth : Nat} (hdepth : j.depth ≤ depth) (hj : j.Fits) (rest : Bytes) :
    Value depth j (print j ++ rest) rest := by
  induction depth generalizing j rest with
  | zero =>
      cases j with
      | array items | object members => exact nomatch hdepth
      | _ => exact scalar_print hj rfl rest
  | succ depth ih =>
      cases j with
      | array items =>
          refine .inr (.inl ⟨items, commaJoin (printItems items) ++ [0x5d] ++ rest, rfl, rfl, ?_⟩)
          rw [List.append_assoc]
          refine bracketed_print (fun item hitem rest ↦ ih ?_ (hj.item item hitem) rest) rest
          exact Nat.le_of_lt_succ (Nat.lt_of_lt_of_le (depth_lt_of_mem hitem) hdepth)
      | object members =>
          refine .inr (.inr ⟨members, commaJoin (printMembers members) ++ [0x7d] ++ rest, rfl, rfl, ?_⟩)
          rw [List.append_assoc]
          refine braced_print (fun m hm rest ↦ ih ?_ (hj.member m hm) rest) rest
          exact Nat.le_of_lt_succ (Nat.lt_of_lt_of_le (depth_lt_of_mem_members hm) hdepth)
      | _ => exact .inl (scalar_print hj rfl rest)

/-- A value prints as one of its texts. -/
theorem written_print {j : Json} (hdepth : j.depth ≤ nestingLimit) (hj : j.Fits) :
    j.Written (print j) := by
  have hvalue := value_print hdepth hj []
  rw [List.append_nil] at hvalue
  exact ⟨[], ⟨_, .nil _, hvalue⟩, .nil _⟩

/-! ## Values that are read -/

theorem fits_array {items : List Json} (h : ∀ item ∈ items, item.Fits) : Fits (.array items) := by
  intro n hn
  change n ∈ numbersOfItems items at hn
  induction items with
  | nil => exact absurd hn (by simp [numbersOfItems])
  | cons item items ih =>
      rw [numbersOfItems, List.mem_append] at hn
      rcases hn with hn | hn
      · exact h item List.mem_cons_self n hn
      · exact ih (fun j hj ↦ h j (List.mem_cons_of_mem item hj)) hn

theorem fits_object {members : Members} (h : ∀ m ∈ members, m.2.Fits) : Fits (.object members) := by
  intro n hn
  change n ∈ numbersOfMembers members at hn
  induction members with
  | nil => exact absurd hn (by simp [numbersOfMembers])
  | cons m members ih =>
      rw [numbersOfMembers, List.mem_append] at hn
      rcases hn with hn | hn
      · exact h m List.mem_cons_self n hn
      · exact ih (fun m' hm ↦ h m' (List.mem_cons_of_mem m hm)) hn

theorem numeral_fits {n : Number} {s : Bytes} (h : Numeral n s rest) : n.Fits := by
  have hunsigned : ∀ {negative s}, Unsigned negative n s rest → n.Fits := by
    rintro negative s ⟨ds, fraction, exponent, t, u, -, -, -, hn⟩
    unfold numberOf at hn
    dsimp only at hn
    split at hn
    next hwhole =>
      obtain rfl := Option.some.inj hn
      simp only [Bool.and_eq_true, decide_eq_true_eq] at hwhole
      have hlt := hwhole.2
      exact ⟨by omega, by omega⟩
    next =>
    split at hn
    next hwhole =>
      obtain rfl := Option.some.inj hn
      simp only [Bool.and_eq_true, decide_eq_true_eq] at hwhole
      have hle := hwhole.2
      exact ⟨by omega, by omega⟩
    next =>
    split at hn
    next hfinite =>
      obtain rfl := Option.some.inj hn
      exact hfinite
    next => exact nomatch hn
  rcases h with h | ⟨t, -, h⟩
  · exact hunsigned h
  · exact hunsigned h

theorem fits_of_value {depth : Nat} {j : Json} {s : Bytes} (h : Value depth j s rest) : j.Fits := by
  have hscalar : ∀ {j s rest}, Scalar j s rest → j.Fits := by
    intro j s rest h n hn
    cases h with
    | number h =>
        obtain rfl := List.mem_singleton.mp hn
        exact numeral_fits h
    | _ => exact absurd hn (by simp [numbers])
  induction depth generalizing j s rest with
  | zero => exact hscalar h
  | succ depth ih =>
      rcases h with h | ⟨items, t, rfl, -, h⟩ | ⟨members, t, rfl, -, h⟩
      · exact hscalar h
      · refine fits_array fun item hitem ↦ ?_
        obtain ⟨u, v, hitem⟩ := mem_bracketed h hitem
        exact ih hitem
      · refine fits_object fun m hm ↦ ?_
        obtain ⟨seen, u, v, hm⟩ := mem_braced h hm
        exact ih hm

/-- The numbers of what is written are such as are read. -/
theorem Written.fits {j : Json} {document : Bytes} (h : j.Written document) : j.Fits := by
  obtain ⟨rest, ⟨t, -, h⟩, -⟩ := h
  exact fits_of_value h

end Json

end Storyline
