import Storyline.Playback.Basic

/-!
# Accounts

What remains of a session when the time of its events is forgotten: the stage
with its shakes at rest, the backlog, the calls of the sound player in their
order, and the numbers given out.  An action is told by changing the account as
if the action ended as soon as it begins.
-/

namespace Storyline

/-- The stage as it is when no target is shaken. -/
def Stage.atRest (s : Stage) : Stage :=
  { s with
    screenShake := { s.screenShake with duration := .zero, offset := Stage.still }
    dialogShake := { s.dialogShake with duration := .zero, offset := Stage.still } }

/-- A change of a model is a change of the list of models. -/
theorem ModelChange.apply_layouts (change : ModelChange) :
    ∃ f : List Layout → Option (List Layout), ∀ s : Stage,
      change.apply s = (f s.layouts).map (fun layouts ↦ { s with layouts := layouts }) := by
  have modify : ∀ (c : CharacterId) (g : Layout → Layout),
      ∃ f : List Layout → Option (List Layout), ∀ s : Stage,
        Stage.modifyLayout c g s = (f s.layouts).map (fun layouts ↦ { s with layouts := layouts }) := by
    intro c g
    refine ⟨fun layouts ↦ if (layouts.find? (fun l ↦ l.character == c)).isSome then
      some (Stage.modifyFirst c g layouts) else none, fun s ↦ ?_⟩
    simp only [Stage.modifyLayout, Stage.layout?]
    split <;> simp [*]
  cases change with
  | «show» c model position =>
      refine ⟨fun layouts ↦ some (if (layouts.find? (fun l ↦ l.character == c)).isSome then
        Stage.modifyFirst c (Layout.reshow model position) layouts
        else layouts ++ [Layout.fresh c model position]), fun s ↦ ?_⟩
      simp only [ModelChange.apply, Stage.showModel, Stage.layout?]
      split <;> simp [*]
  | hide c =>
      refine ⟨fun layouts ↦ let kept := layouts.filter (fun l ↦ l.character != c)
        if kept.length = layouts.length then none else some kept, fun s ↦ ?_⟩
      simp only [ModelChange.apply, Stage.hideModel]
      split <;> simp [*]
  | move c position => exact modify c _
  | act c motion => exact modify c _
  | express c expression => exact modify c _

/-! ## What endings do to the stage -/

namespace Ending

/-- Whether an ending takes a title away. -/
def clears (text : String) : Ending → Bool
  | clearTelop other _ => other == text
  | _ => false

/-- Whether an ending makes a cover disappear that was shown under a stamp. -/
def hides (cover : Cover) (stamp : Nat) : Ending → Bool
  | coverShown shown shownStamp _ => shown.other == cover && decide (stamp < shownStamp)
  | _ => false

@[simp] theorem clears_release (text : String) (t : Ticket) : (release t).clears text = false := rfl

@[simp] theorem hides_release (cover : Cover) (stamp : Nat) (t : Ticket) :
    (release t).hides cover stamp = false := rfl

@[simp] theorem clears_clearTelop (text other : String) (t : Ticket) :
    (clearTelop other t).clears text = (other == text) := rfl

@[simp] theorem hides_clearTelop (cover : Cover) (stamp : Nat) (text : String) (t : Ticket) :
    (clearTelop text t).hides cover stamp = false := rfl

@[simp] theorem clears_coverShown (text : String) (cover : Cover) (stamp : Nat) (t : Ticket) :
    (coverShown cover stamp t).clears text = false := rfl

@[simp] theorem hides_coverShown (cover shown : Cover) (stamp shownStamp : Nat) (t : Ticket) :
    (coverShown shown shownStamp t).hides cover stamp =
      (shown.other == cover && decide (stamp < shownStamp)) := rfl

theorem hides_mono {cover : Cover} {m n : Nat} {e : Ending} (h : e.hides cover m = false)
    (hmn : m ≤ n) : e.hides cover n = false := by
  cases e with
  | coverShown shown stamp ticket =>
      simp only [hides, Bool.and_eq_false_iff, decide_eq_false_iff_not] at h ⊢
      exact h.imp_right fun h ↦ by omega
  | _ => rfl

end Ending

def CoverState.after (cover : Cover) (es : List Ending) (s : CoverState) : CoverState :=
  { s with visible := s.visible && !es.any (fun e ↦ e.hides cover s.stamp) }

/-- A cover disappears when the other one has been shown after it. -/
theorem CoverState.after_coverShown (cover shown : Cover) (stamp : Nat) (ticket : Ticket)
    (s : CoverState) :
    s.after cover [.coverShown shown stamp ticket] =
      if shown.other = cover ∧ s.visible = true ∧ s.stamp < stamp then { s with visible := false }
      else s := by
  obtain ⟨visible, transition, own⟩ := s
  by_cases hcover : shown.other = cover <;> by_cases hlt : own < stamp <;> cases visible <;>
    simp [after, hcover, hlt]

/-- The stage after some endings, in any order. -/
def Stage.after (es : List Ending) (s : Stage) : Stage :=
  { s with
    telop := s.telop.filter (fun text ↦ !es.any (fun e ↦ e.clears text))
    blackCover := s.blackCover.after .black es
    whiteCover := s.whiteCover.after .white es }

namespace Stage

theorem after_nil (s : Stage) : s.after [] = s := by
  obtain ⟨_, _, _, _, _, _, telop, _, _, _, _⟩ := s
  cases telop <;> simp [after, CoverState.after]

theorem after_append (es fs : List Ending) (s : Stage) :
    s.after (es ++ fs) = (s.after es).after fs := by
  simp only [after, CoverState.after, List.any_append, Bool.not_or, Bool.and_assoc,
    Option.filter_filter]

end Stage

/-! ## Accounts -/

structure Account where
  serial : Nat
  stage : Stage
  backlog : List Line
  calls : List AudioCall

def Session.account (s : Session) : Account :=
  ⟨s.serial, s.stage.atRest, s.backlog, s.calls.map Prod.snd⟩

def Account.after (es : List Ending) (a : Account) : Account :=
  { a with stage := a.stage.after es }

namespace Cue

/-- How many numbers of the session's counter a cue takes. -/
def numbers : Cue → Nat
  | .talk _ | .telop _ | .cover .. | .shake .. => 1
  | _ => 0

/-- What a cue changes on the stage when it begins, under the next number. -/
def change (serial : Nat) : Cue → Stage → Stage
  | .talk line, s => s.setTalk line
  | .telop text, s => s.setTelop text
  | .model m, s => (m.apply s).getD s
  | .cover c visible seconds, s => s.startCover c visible (.ofSeconds seconds) serial
  | .shake target _, s => s.startShake target .zero serial
  | .scenery kind path, s => s.setScenery path kind
  | _, s => s

/-- What is done when a cue ends. -/
def ending (serial : Nat) (ticket : Ticket) : Cue → Ending
  | .telop text => .clearTelop text ticket
  | .cover c true _ => .coverShown c serial ticket
  | _ => .release ticket

def lines : Cue → List Line
  | .talk line => [line]
  | _ => []

/-- The calls of a cue, with the voices in the cache. -/
def calls (voices : VoiceCache) : Cue → List AudioCall
  | .talk line =>
    match line.voicePath.bind voices.get? with
    | some blob => [.stop .voice, .play .voice (.blob blob) false]
    | none => []
  | .scenery .bgm path => [.stop .bgm, .play .bgm (.path path) true]
  | .scenery .se path => [.play .se (.path path) false]
  | _ => []

end Cue

namespace Stage

/-- Shows the place in the story, on the main timeline. -/
def announce (step : Option Nat) (s : Stage) : Stage :=
  match step with
  | some n => s.setStep n
  | none => s

/-- Endings that are still to come may as well come first: the stage after all
of them and the new one is the same. -/
theorem change_after (cue : Cue) {serial : Nat} {es : List Ending} (s : Stage)
    (h : ∀ e ∈ es, ∀ cover, e.hides cover serial = false) (t u : Ticket) :
    (cue.change serial s).after (es ++ [cue.ending serial t]) =
      (cue.change serial (s.after es)).after [cue.ending serial u] := by
  have hnot : ∀ cover, es.any (fun e ↦ e.hides cover serial) = false := fun cover ↦
    List.any_eq_false.mpr fun e he ↦ by simp [h e he cover]
  rw [after_append]
  have hrelease : ∀ (s : Stage) (t : Ticket), s.after [.release t] = s := by
    intro s t
    refine Eq.trans ?_ s.after_nil
    simp [after, CoverState.after]
  cases cue with
  | talk line => simp only [Cue.ending, hrelease]; rfl
  | telop text =>
      simp [Cue.change, Cue.ending, after, CoverState.after, setTelop, Option.filter_some]
  | model change =>
      obtain ⟨f, hf⟩ := change.apply_layouts
      simp only [Cue.change, Cue.ending, hrelease, hf]
      change (((f s.layouts).map _).getD s).after es = ((f s.layouts).map _).getD _
      cases f s.layouts <;> rfl
  | tremble axis character => simp only [Cue.ending, hrelease]; rfl
  | cover cover visible seconds =>
      cases cover <;> cases visible <;>
        simp [Cue.change, Cue.ending, after, CoverState.after, startCover, setCover, Stage.cover,
          Cover.other, hnot]
  | shake shake seconds => simp only [Cue.ending, hrelease]; cases shake <;> rfl
  | scenery scenery path => simp only [Cue.ending, hrelease]; cases scenery <;> rfl
  | delay seconds => simp only [Cue.ending, hrelease]; rfl
  | waitForAll => simp only [Cue.ending, hrelease]; rfl
  | waitForTap => simp only [Cue.ending, hrelease]; rfl

end Stage

/-! ## Telling -/

namespace Action

mutual

/-- Whether nothing in an action is a fork. -/
def forkFree : Action → Bool
  | cue _ => true
  | block parts => forkFreeAll parts
  | fork _ => false

def forkFreeAll : List Action → Bool
  | [] => true
  | part :: rest => forkFree part && forkFreeAll rest

end

end Action

namespace Account

def announce (step : Option Nat) (a : Account) : Account :=
  { a with stage := a.stage.announce step }

/-- An account when a cue has begun. -/
def begin (audible : Bool) (voices : VoiceCache) (cue : Cue) (a : Account) :
    Account where
  serial := a.serial + cue.numbers
  stage := cue.change a.serial a.stage
  backlog := a.backlog ++ cue.lines
  calls := if audible then a.calls ++ cue.calls voices else a.calls

def tellCue (audible : Bool) (voices : VoiceCache) (cue : Cue) (a : Account) : Account :=
  (a.begin audible voices cue).after [cue.ending a.serial default]

/-- An account when a scope has been opened. -/
def enter (step : Option Nat) (a : Account) : Account :=
  { a.announce step with serial := a.serial + 1 }

mutual

/-- Tells an action; what a fork does is not told. -/
def tell (audible : Bool) (voices : VoiceCache) : Action → Option Nat → Account → Account
  | .cue cue, step, a => (a.announce step).tellCue audible voices cue
  | .block parts, step, a => tellAll audible voices parts (a.enter step)
  | .fork _, step, a => a.enter step

def tellAll (audible : Bool) (voices : VoiceCache) : List Action → Account → Account
  | [], a => a
  | part :: rest, a => tellAll audible voices rest (tell audible voices part none a)

end

/-- Tells the errands of a walk. -/
def tellWalk (audible : Bool) (voices : VoiceCache) (errands : List Errand) (a : Account) :
    Account :=
  errands.foldl (fun a errand ↦ match errand with
    | .perform action _ step => tell audible voices action step a
    | _ => a) a

theorem after_append (es fs : List Ending) (a : Account) :
    a.after (es ++ fs) = (a.after es).after fs := by
  simp only [after, Stage.after_append]

theorem after_nil (a : Account) : a.after [] = a := by
  simp only [after, Stage.after_nil]

theorem after_comm (es fs : List Ending) (a : Account) :
    (a.after es).after fs = (a.after fs).after es := by
  have hany : ∀ f : Ending → Bool, (es ++ fs).any f = (fs ++ es).any f := by
    intro f
    rw [List.any_append, List.any_append, Bool.or_comm]
  rw [← after_append, ← after_append]
  simp only [after, Stage.after, CoverState.after, hany]

/-- Some endings change nothing. -/
theorem after_eq_self {es : List Ending} (h : ∀ e ∈ es, ∀ text, e.clears text = false)
    (h' : ∀ e ∈ es, ∀ cover stamp, e.hides cover stamp = false) (a : Account) : a.after es = a := by
  have hclears : ∀ text, es.any (fun e ↦ e.clears text) = false := fun text ↦
    List.any_eq_false.mpr fun e he ↦ by simp [h e he text]
  have hhides : ∀ cover stamp, es.any (fun e ↦ e.hides cover stamp) = false := fun cover stamp ↦
    List.any_eq_false.mpr fun e he ↦ by simp [h' e he cover stamp]
  refine Eq.trans ?_ a.after_nil
  simp [after, Stage.after, CoverState.after, hclears, hhides]

theorem tellCue_still {audible : Bool} {voices : VoiceCache} {cue : Cue} (a : Account)
    (hbegin : a.begin audible voices cue = { a with backlog := a.backlog ++ [], calls := if audible then a.calls ++ [] else a.calls })
    (hending : cue.ending a.serial default = .release default) :
    a.tellCue audible voices cue = a := by
  unfold tellCue
  rw [hbegin, hending, after_eq_self (by simp) (by simp)]
  cases audible <;> simp

/-- A cue is told in the same way before and after the endings that are still
to come. -/
theorem begin_after (audible : Bool) (voices : VoiceCache) (cue : Cue)
    {es : List Ending} (a : Account) (h : ∀ e ∈ es, ∀ cover, e.hides cover a.serial = false)
    (t : Ticket) :
    ((a.begin audible voices cue).after es).after [cue.ending a.serial t] =
      (a.after es).tellCue audible voices cue := by
  rw [← after_append]
  simp only [after, tellCue, begin, Stage.change_after cue a.stage h t default]

end Account

end Storyline
