import Storyline.Json.Reader

/-!
# Faults of the text

A reader that asks for no shape has no fault to find but with the text.  So it is with
the reader of values: what it refuses is malformed or truncated.
-/

namespace Storyline

namespace Reader

variable {α β : Type}

/-- No text is refused for the shape of its value. -/
def Textual (read : Reader α) : Prop := ∀ s, read s ≠ .error .mismatched

/-! ## Steps of readers -/

theorem Textual.bind {x : Reader α} {f : α → Reader β} (hx : Textual x) (hf : ∀ a, Textual (f a)) :
    Textual (x >>= f) := by
  intro s
  change (x s >>= fun p ↦ f p.1 p.2) ≠ _
  cases h : x s with
  | error fault => exact fun h' ↦ hx s (h.trans (congrArg _ (Except.error.inj h')))
  | ok p => exact hf p.1 p.2

theorem Textual.map {x : Reader α} (f : α → β) (hx : Textual x) : Textual (f <$> x) := by
  rw [map_eq_pure_bind]
  exact hx.bind fun a s h ↦ nomatch h

theorem textual_pure (a : α) : Textual (pure a : Reader α) := fun _ h ↦ nomatch h

theorem textual_fail {fault : Fault} (h : fault ≠ .mismatched) : Textual (fail fault : Reader α) :=
  fun _ h' ↦ h (Except.error.inj h')

theorem textual_ofOption (o : Option α) : Textual (ofOption .malformed o) := by
  cases o with
  | none => exact textual_fail (by decide)
  | some a => exact textual_pure a

theorem textual_get : Textual (get : Reader Bytes) := fun _ h ↦ nomatch h

theorem textual_peek : Textual peek := fun _ h ↦ nomatch h

theorem textual_advance : Textual advance := fun _ h ↦ nomatch h

theorem textual_next : Textual next := by
  intro s
  cases s <;> simp [next]

theorem textual_peekToken : Textual peekToken := by
  refine .bind (fun _ h ↦ nomatch h) fun _ ↦ textual_peek.bind fun o ↦ ?_
  cases o with
  | none => exact textual_fail (by decide)
  | some b => exact textual_pure b

theorem Textual.ite {c : Prop} [Decidable c] {x y : Reader α} (hx : Textual x) (hy : Textual y) :
    Textual (if c then x else y) := by
  split
  · exact hx
  · exact hy

theorem textual_malformed : Textual (fail .malformed : Reader α) := textual_fail (by decide)

theorem textual_token (b : UInt8) : Textual (token b) :=
  textual_peekToken.bind fun _ ↦ textual_advance.ite textual_malformed

theorem textual_literal (name : Bytes) : Textual (literal name) := by
  induction name with
  | nil => exact textual_pure ()
  | cons b name ih => exact textual_next.bind fun _ ↦ ih.ite textual_malformed

/-! ## Scalars -/

theorem textual_someDigits : Textual someDigits := by
  refine textual_peek.bind fun o ↦ ?_
  cases o with
  | none => exact textual_fail (by decide)
  | some b => exact .ite (fun _ h ↦ nomatch h) textual_malformed

theorem textual_leadingDigits : Textual leadingDigits := by
  refine textual_someDigits.bind fun ds ↦ ?_
  split
  · exact textual_malformed
  · exact textual_pure ds

theorem textual_fractionPart : Textual fractionPart :=
  textual_peek.bind fun _ ↦
    .ite (textual_advance.bind fun _ ↦ textual_someDigits.map _) (textual_pure none)

theorem textual_exponentSign : Textual exponentSign := by
  refine textual_peek.bind fun o ↦ ?_
  split
  · exact textual_advance.bind fun _ ↦ textual_pure false
  · exact textual_advance.bind fun _ ↦ textual_pure true
  · exact textual_pure false

theorem textual_exponentPart : Textual exponentPart := by
  have hread : Textual (do
      advance
      let negative ← exponentSign
      let n := valueOfDigits (← someDigits)
      pure (some (if negative then -(n : Int) else (n : Int)))) :=
    textual_advance.bind fun _ ↦ textual_exponentSign.bind fun _ ↦
      textual_someDigits.bind fun _ ↦ textual_pure _
  refine textual_peek.bind fun o ↦ ?_
  split
  · exact hread
  · exact hread
  · exact textual_pure none

theorem textual_number : Textual number := by
  have hunsigned : ∀ negative, Textual (unsignedNumber negative) := fun negative ↦
    textual_leadingDigits.bind fun _ ↦ textual_fractionPart.bind fun _ ↦
      textual_exponentPart.bind fun _ ↦ textual_ofOption _
  exact textual_peek.bind fun _ ↦ .ite (textual_advance.bind fun _ ↦ hunsigned true) (hunsigned false)

theorem textual_hexUnit : Textual hexUnit :=
  textual_next.bind fun _ ↦ textual_next.bind fun _ ↦ textual_next.bind fun _ ↦
    textual_next.bind fun _ ↦ textual_ofOption _

theorem textual_escape : Textual escape := by
  have hunicode : Textual unicodeEscape := by
    refine textual_hexUnit.bind fun n ↦ textual_malformed.ite (.ite ?_ (textual_pure _))
    refine textual_next.bind fun _ ↦ textual_malformed.ite ?_
    refine textual_next.bind fun _ ↦ textual_malformed.ite ?_
    exact textual_hexUnit.bind fun _ ↦ (textual_pure _).ite textual_malformed
  exact textual_next.bind fun _ ↦ hunicode.ite ((textual_ofOption _).map _)

theorem textual_stringRest : Textual stringRest := by
  have hbytes : ∀ bound, Textual (stringBytes bound) := by
    intro bound
    induction bound with
    | nil => exact textual_fail (by decide)
    | cons _ bound ih =>
        refine textual_next.bind fun b ↦ (textual_pure []).ite (.ite ?_ ?_)
        · exact textual_escape.bind fun cs ↦ ih.map _
        · exact textual_malformed.ite (ih.map _)
  exact textual_get.bind fun s ↦ (hbytes s).bind fun _ ↦ textual_ofOption _

theorem textual_scalar (b : UInt8) : Textual (scalar b) := by
  have hliteral : ∀ (name : Bytes) (j : Json),
      Textual (do advance; literal name; pure j : Reader Json) := fun name j ↦
    textual_advance.bind fun _ ↦ (textual_literal name).bind fun _ ↦ textual_pure j
  exact (hliteral _ _).ite ((hliteral _ _).ite ((hliteral _ _).ite
    (.ite (textual_advance.bind fun _ ↦ textual_stringRest.map _)
      ((textual_number.map _).ite textual_malformed))))

/-! ## Brackets and values -/

theorem textual_arrayRest {item : Reader α} (h : Textual item) : Textual (arrayRest item) := by
  have hitems : ∀ bound, Textual (items item bound) := by
    intro bound
    induction bound with
    | nil => exact textual_fail (by decide)
    | cons _ bound ih =>
        exact h.bind fun x ↦ textual_peekToken.bind fun _ ↦ textual_advance.bind fun _ ↦
          (textual_pure [x]).ite ((ih.map _).ite textual_malformed)
  exact textual_peekToken.bind fun _ ↦
    .ite (textual_advance.bind fun _ ↦ textual_pure []) (textual_get.bind hitems)

theorem textual_objectRest {member : List String → String → Reader α}
    (h : ∀ seen name, Textual (member seen name)) : Textual (objectRest member) := by
  have hmembers : ∀ bound seen, Textual (memberList member bound seen) := by
    intro bound
    induction bound with
    | nil => exact fun _ ↦ textual_fail (by decide)
    | cons _ bound ih =>
        exact fun seen ↦ (textual_token _).bind fun _ ↦ textual_stringRest.bind fun name ↦
          (textual_token _).bind fun _ ↦ (h seen name).bind fun x ↦
            textual_peekToken.bind fun _ ↦ textual_advance.bind fun _ ↦
              (textual_pure [(name, x)]).ite (((ih (name :: seen)).map _).ite textual_malformed)
  exact textual_peekToken.bind fun _ ↦
    .ite (textual_advance.bind fun _ ↦ textual_pure []) (textual_get.bind fun s ↦ hmembers s [])

theorem textual_value (depth : Nat) : Textual (value depth) := by
  induction depth with
  | zero => exact textual_peekToken.bind fun b ↦ textual_malformed.ite (textual_scalar b)
  | succ depth ih =>
      exact textual_peekToken.bind fun b ↦
        .ite (textual_advance.bind fun _ ↦ (textual_arrayRest ih).map _)
          (.ite (textual_advance.bind fun _ ↦ (textual_objectRest fun _ _ ↦ ih).map _)
            (textual_scalar b))

end Reader

/-- A document that holds no value is malformed or truncated. -/
theorem Json.read_error {document : Bytes} {fault : Fault} (h : Json.read document = .error fault) :
    fault = .malformed ∨ fault = .truncated := by
  have hrun : Json.read document = (Reader.value nestingLimit document >>= fun p ↦
      if p.2.all Reader.isSpace then pure p.1 else throw .malformed) := rfl
  have hne : fault ≠ .mismatched := by
    rintro rfl
    rw [hrun] at h
    cases hread : Reader.value nestingLimit document with
    | error fault =>
        rw [hread] at h
        exact Reader.textual_value _ _ (hread.trans (congrArg _ (Except.error.inj h)))
    | ok p =>
        rw [hread] at h
        change (if p.2.all Reader.isSpace = true then pure p.1 else throw Fault.malformed) =
          Except.error Fault.mismatched at h
        split at h
        · exact nomatch h
        · exact nomatch h
  cases fault with
  | malformed => exact .inl rfl
  | truncated => exact .inr rfl
  | mismatched => exact absurd rfl hne

end Storyline
