import Storyline.Json.Reader

/-!
# The grammar of values

What a text may be, told without a reader.  A grammar says what may stand at the
front of a text and what is left behind it; the grammars of numbers, strings and
brackets are put together to that of values, in which brackets nest at most as deep
as given.
-/

namespace Storyline

open Reader (isSpace isDigit hexFour isLeading isTrailing shortEscape numberOf valueOfDigits)

/-- What may stand at the front of a text, and the text behind it. -/
abbrev Grammar (α : Type) := α → Bytes → Bytes → Prop

namespace Grammar

variable {α : Type}

/-! ## Blanks -/

inductive Blanks : Bytes → Bytes → Prop
  | nil (s : Bytes) : Blanks s s
  | cons {b : UInt8} {s rest : Bytes} (hb : isSpace b = true) (h : Blanks s rest) :
    Blanks (b :: s) rest

/-- With blanks in front. -/
def Padded (G : Grammar α) : Grammar α := fun a s rest ↦ ∃ t, Blanks s t ∧ G a t rest

/-- A whole text, with blanks on both sides. -/
def Whole (G : Grammar α) (a : α) (document : Bytes) : Prop :=
  ∃ rest, Padded G a document rest ∧ Blanks rest []

/-! ## Numbers -/

/-- At least one digit. -/
def Digits : Grammar Bytes := fun ds s rest ↦
  s = ds ++ rest ∧ ds ≠ [] ∧ ∀ d ∈ ds, isDigit d = true

/-- The digits before the point: a zero stands alone. -/
def Leading : Grammar Bytes := fun ds s rest ↦
  Digits ds s rest ∧ ∀ d more, ds ≠ 0x30 :: d :: more

def Fraction : Grammar (Option Bytes)
  | none, s, rest => s = rest
  | some ds, s, rest => ∃ t, s = 0x2e :: t ∧ Digits ds t rest

/-- The sign of an exponent; true means a minus. -/
inductive Sign : Grammar Bool
  | none (s : Bytes) : Sign false s s
  | plus (s : Bytes) : Sign false (0x2b :: s) s
  | minus (s : Bytes) : Sign true (0x2d :: s) s

inductive Exponent : Grammar (Option Int)
  | none (s : Bytes) : Exponent none s s
  | some {e : UInt8} {negative : Bool} {ds s t rest : Bytes} (he : e = 0x65 ∨ e = 0x45)
    (hsign : Sign negative s t) (hds : Digits ds t rest) :
    Exponent (some (if negative then -(valueOfDigits ds : Int) else (valueOfDigits ds : Int)))
      (e :: s) rest

/-- A number behind its sign. -/
def Unsigned (negative : Bool) : Grammar Number := fun n s rest ↦
  ∃ ds fraction exponent t u, Leading ds s t ∧ Fraction fraction t u ∧ Exponent exponent u rest ∧
    numberOf negative ds fraction exponent = some n

def Numeral : Grammar Number := fun n s rest ↦
  Unsigned false n s rest ∨ ∃ t, s = 0x2d :: t ∧ Unsigned true n t rest

/-! ## Strings -/

/-- What stands behind a backslash: a letter, or the hexadecimal digits of a character
or of the two surrogates that make one. -/
inductive Escape : Grammar Bytes
  | short {b c : UInt8} (hb : shortEscape b = some c) (s : Bytes) : Escape [c] (b :: s) s
  | unicode {a b c d : UInt8} {n : Nat} (hn : hexFour a b c d = some n)
    (htrailing : isTrailing n = false) (hleading : isLeading n = false) (s : Bytes) :
    Escape (String.utf8EncodeChar (Char.ofNat n)) (0x75 :: a :: b :: c :: d :: s) s
  | surrogates {a b c d a' b' c' d' : UInt8} {n m : Nat} (hn : hexFour a b c d = some n)
    (htrailing : isTrailing n = false) (hleading : isLeading n = true)
    (hm : hexFour a' b' c' d' = some m) (hsecond : isTrailing m = true) (s : Bytes) :
    Escape (String.utf8EncodeChar (Char.ofNat (0x10000 + (n - 0xd800) * 0x400 + (m - 0xdc00))))
      (0x75 :: a :: b :: c :: d :: 0x5c :: 0x75 :: a' :: b' :: c' :: d' :: s) s

/-- The bytes of a string behind its opening quote, up to and with the closing one. -/
inductive Spelling : Grammar Bytes
  | close (s : Bytes) : Spelling [] (0x22 :: s) s
  | plain {b : UInt8} {cs s rest : Bytes} (hquote : b ≠ 0x22) (hslash : b ≠ 0x5c)
    (hcontrol : ¬b < 0x20) (h : Spelling cs s rest) : Spelling (b :: cs) (b :: s) rest
  | escape {cs ds s t rest : Bytes} (hc : Escape cs s t) (h : Spelling ds t rest) :
    Spelling (cs ++ ds) (0x5c :: s) rest

/-- A string behind its opening quote. -/
def Unquoted : Grammar String := fun text s rest ↦
  ∃ bytes, Spelling bytes s rest ∧ String.fromUTF8? bytes.toByteArray = some text

def Quoted : Grammar String := fun text s rest ↦ ∃ t, s = 0x22 :: t ∧ Unquoted text t rest

/-! ## Brackets -/

/-- Items behind an opening bracket, at least one, up to and with the closing one. -/
inductive Items (G : Grammar α) : Grammar (List α)
  | last {a : α} {s t rest : Bytes} (ha : Padded G a s t) (hclose : Blanks t (0x5d :: rest)) :
    Items G [a] s rest
  | more {a : α} {as : List α} {s t u rest : Bytes} (ha : Padded G a s t)
    (hcomma : Blanks t (0x2c :: u)) (has : Items G as u rest) : Items G (a :: as) s rest

/-- An array behind its opening bracket. -/
def Bracketed (G : Grammar α) : Grammar (List α) := fun as s rest ↦
  (as = [] ∧ Blanks s (0x5d :: rest)) ∨ Items G as s rest

/-- The name of a member, and the colon behind it. -/
def Label : Grammar String := fun name s rest ↦
  ∃ t, Padded Quoted name s t ∧ Blanks t (0x3a :: rest)

/-- Members behind an opening bracket, at least one, up to and with the closing one.
What the value of a member may be depends on the names before it and on its own. -/
inductive Members (G : List String → String → Grammar α) :
    List String → Grammar (List (String × α))
  | last {seen : List String} {name : String} {a : α} {s t u rest : Bytes} (hname : Label name s t)
    (ha : Padded (G seen name) a t u) (hclose : Blanks u (0x7d :: rest)) :
    Members G seen [(name, a)] s rest
  | more {seen : List String} {name : String} {a : α} {ms : List (String × α)}
    {s t u v rest : Bytes} (hname : Label name s t) (ha : Padded (G seen name) a t u)
    (hcomma : Blanks u (0x2c :: v)) (hms : Members G (name :: seen) ms v rest) :
    Members G seen ((name, a) :: ms) s rest

/-- An object behind its opening bracket. -/
def Braced (G : List String → String → Grammar α) : Grammar (List (String × α)) :=
  fun ms s rest ↦ (ms = [] ∧ Blanks s (0x7d :: rest)) ∨ Members G [] ms s rest

/-! ## Values -/

/-- A value that is neither an array nor an object. -/
inductive Scalar : Grammar Json
  | null (rest : Bytes) : Scalar .null (0x6e :: Reader.nullRest ++ rest) rest
  | true (rest : Bytes) : Scalar (.bool Bool.true) (0x74 :: Reader.trueRest ++ rest) rest
  | false (rest : Bytes) : Scalar (.bool Bool.false) (0x66 :: Reader.falseRest ++ rest) rest
  | number {n : Number} {s rest : Bytes} (h : Numeral n s rest) : Scalar (.number n) s rest
  | string {text : String} {s rest : Bytes} (h : Quoted text s rest) : Scalar (.string text) s rest

/-- A value in which brackets nest at most as deep as given. -/
def Value : Nat → Grammar Json
  | 0 => Scalar
  | depth + 1 => fun j s rest ↦
    Scalar j s rest ∨
      (∃ items t, j = .array items ∧ s = 0x5b :: t ∧ Bracketed (Value depth) items t rest) ∨
      ∃ members t, j = .object members ∧ s = 0x7b :: t ∧
        Braced (fun _ _ ↦ Value depth) members t rest

end Grammar

/-- A document is a text of a value. -/
def Json.Written (j : Json) (document : Bytes) : Prop :=
  Grammar.Whole (Grammar.Value nestingLimit) j document

end Storyline
