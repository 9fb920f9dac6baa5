import Storyline.Player
import Storyline.Text.Blank

/-!
# A player in a terminal

What a terminal shows of a playback: a line of text for each part of the stage
that has changed, and the answers to what is typed.
-/

namespace Storyline.Terminal

def help : String := "<enter> next | a auto play | f fast forward | b backlog | q quit"

def onOff (on : Bool) : String := if on then "true" else "false"

/-- A text that is new. -/
def news (before after : Option String) (write : String → String) : List String :=
  match after with
  | some text => if before = after then [] else [write text]
  | none => []

def layoutText (l : Layout) : String := toString l.character ++ "@" ++ l.position.name

def lineText (line : Line) : String :=
  "\n" ++ " & ".intercalate line.characterNames ++ ": " ++ line.text

/-- What has changed between two stages, in lines of text. -/
def changes (before after : Stage) : List String :=
  news before.background after.background ("[background] " ++ ·) ++
    news before.bgm after.bgm ("[bgm] " ++ ·) ++
    (if before.layouts = after.layouts then []
      else ["[stage] " ++ ", ".intercalate (after.layouts.map layoutText)]) ++
    (if before.blackCover.visible = after.blackCover.visible then []
      else ["[black cover] " ++ onOff after.blackCover.visible]) ++
    (if before.whiteCover.visible = after.whiteCover.visible then []
      else ["[white cover] " ++ onOff after.whiteCover.visible]) ++
    news before.telop after.telop (fun text ↦ "\n  == " ++ text ++ " ==\n") ++
    (if before.talk = after.talk then [] else (after.talk.map lineText).toList)

def backlogLines (lines : List Line) : List String :=
  lines.zipIdx.map (fun l ↦ "  " ++ toString l.2 ++ ". " ++ l.1.text)

/-- What typing a line does: the player after it, what is shown, and whether to
go on. -/
def typed (text : String) (p : Player) : Player × List String × Bool :=
  let s := p.playback.session
  match Text.trim text with
  | "" => ((p.step true .next).1, [], true)
  | "a" =>
    let p := (p.step true (.autoPlay !s.autoPlay)).1
    (p, ["auto play: " ++ onOff p.playback.session.autoPlay], true)
  | "f" =>
    let p := (p.step true (.fastForward !s.fastForward)).1
    (p, ["fast forward: " ++ onOff p.playback.session.fastForward], true)
  | "b" => (p, backlogLines s.backlog, true)
  | "q" => (p, [], false)
  | _ => (p, [help], true)

end Storyline.Terminal
