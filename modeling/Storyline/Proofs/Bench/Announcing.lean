import Storyline.Proofs.Bench.Reach
import Storyline.Proofs.Playback.Announcing
import Storyline.Proofs.Player.Reach

/-!
# No silent change of the stage

Whatever a bench or a player is asked for, whatever tasks there are and in
whatever order they have their turns, all that happens to the session is made of
single operations, each of which announces the change that it makes to the stage.
-/

namespace Storyline

/-- Asked for, a change of a model other than a showing reports whether it was made. -/
theorem StageCommand.edit_change {change : ModelChange}
    (h : ∀ character model position, change ≠ .show character model position) :
    (StageCommand.change change).edit.Makes change.apply := by
  intro s
  cases change with
  | «show» character model position => exact absurd rfl (h character model position)
  | _ => cases hs : ModelChange.apply _ s <;> simp [edit, apply, isConfirmed, reply, hs]

namespace Bench

open Playback
open Session (Operation InPlace)

variable {b b' : Bench} {p q : Playback} {m n : Machine} {r : Request} {response : Response}

/-- A request that hands over no change which works on the stage and then
reports nothing. -/
def Request.IsFrank (r : Request) : Prop :=
  ∀ command, r = .presentIf command → command.edit.Honest

/-- All that is done to a session from outside between the turns of its tasks;
the ready tasks may be put in any order, and others be woken with them. -/
inductive Deals : Playback → Playback → Prop
  | request {b b' : Bench} {r : Request} {response : Response} (hr : r.IsFrank)
    (h : b.handle r = .ok (b', response)) : Deals b.playback b'.playback
  | launch (actions : List Action) {p : Playback} : Deals p (Player.launch actions p)
  | stop {p : Playback} : Deals p (Player.stopped p)
  | cacheVoice (path : String) (content : Bytes) {p : Playback} :
    Deals p (p.update fun s ↦ { s with voices := s.voices.insert path content })
  | order (queue : List Nat) {p : Playback} : Deals p { p with queue := queue }

/-- A command that is announced if its reply confirms it is a change in place. -/
theorem handlePresentIf_session (command : StageCommand) (b : Bench) :
    (b.handlePresentIf command).1.session = b.session.edit command.edit := by
  have hsession : (b.handlePresentIf command).1.session =
      (if !b.session.cancelled && command.isConfirmed b.session.stage
        then Session.present command.apply else Session.amend command.apply) b.session := rfl
  rw [hsession]
  generalize b.session = s
  cases hc : s.cancelled <;> cases hreply : command.isConfirmed s.stage <;>
    simp [Session.edit, Session.present, Session.amend, StageCommand.edit, hc, hreply]

theorem operates_handlePresentIf {command : StageCommand} (h : command.edit.Honest) :
    Operates b.playback (b.handlePresentIf command).1.playback := by
  have hop : Operation b.session (b.session.edit command.edit) := .edit (.asked command h)
  rw [← handlePresentIf_session] at hop
  exact .single hop

theorem operates_ticket (released : Bool) (k : Nat) :
    Operates b.playback (b.handleTicket released k).1.playback := by
  rw [handleTicket]
  split
  · exact .refl _
  next ticket _ =>
    cases released with
    | true => exact operates_release ticket
    | false => exact .refl _

theorem operates_dropPark (k : Nat) (park : Park) :
    Operates b.playback (b.handleDropPark k park).1.playback := by
  rw [handleDropPark]
  split
  · exact .apart rfl rfl rfl
  · exact .refl _

/-- Whatever a bench is asked for is made of operations. -/
theorem operates_handle (hr : r.IsFrank) (h : b.handle r = .ok (b', response)) :
    Operates b.playback b'.playback := by
  have hfst {c : Bench × Response} (h : (Except.ok c : Except Missing _) = .ok (b', response)) :
      b' = c.1 := by rw [Except.ok.inj h]
  cases r with
  | scope parent =>
    cases parent with
    | none => exact hfst h ▸ .apart rfl rfl rfl
    | some k =>
      obtain ⟨id, -, h⟩ := exists_of_bind h
      exact hfst h ▸ .apart rfl rfl rfl
  | dropScope k =>
    obtain ⟨id, -, h⟩ := exists_of_bind h
    exact hfst h ▸ .refl _
  | enter k tapBlocking =>
    obtain ⟨id, -, h⟩ := exists_of_bind h
    exact hfst h ▸ operates_enter id tapBlocking
  | release k => exact hfst h ▸ operates_ticket true k
  | dropTicket k => exact hfst h ▸ operates_ticket false k
  | reset k =>
    obtain ⟨id, -, h⟩ := exists_of_bind h
    exact hfst h ▸ operates_resetScope id
  | resetScopes => exact hfst h ▸ operates_resetScopes
  | drained k | untilDrained k | perform k | walk k =>
    obtain ⟨id, -, h⟩ := exists_of_bind h
    exact hfst h ▸ .of_eq rfl
  | sleep | cancelled => exact hfst h ▸ .of_eq rfl
  | spawn d path => exact hfst h ▸ operates_spawn none _
  | skip => exact hfst h ▸ operates_skip
  | serial | park => exact hfst h ▸ .apart rfl rfl rfl
  | unpark k =>
    obtain ⟨park, -, h⟩ := exists_of_bind h
    exact hfst h ▸ operates_unpark park.id
  | unparkId id => exact hfst h ▸ operates_unpark id
  | dropPark k =>
    obtain ⟨park, -, h⟩ := exists_of_bind h
    exact hfst h ▸ operates_dropPark k park
  | next => exact hfst h ▸ operates_tap
  | present command => exact hfst h ▸ operates_present command.apply
  | presentIf command =>
    exact hfst h ▸ operates_handlePresentIf (hr command rfl)
  | backlog line => exact hfst h ▸ .apart rfl rfl rfl
  | playVoice path => exact hfst h ▸ operations_playVoice path b.session
  | voice path => exact hfst h ▸ .refl _
  | autoPlay on => exact hfst h ▸ operates_setAutoPlay on
  | fastForward on => exact hfst h ▸ operates_setFastForward on
  | advance ms => exact hfst h ▸ operates_advance ms
  | shutdown => exact hfst h ▸ operates_shutdown

theorem Deals.operates (h : Deals p q) : Operates p q := by
  cases h with
  | request hr hh => exact operates_handle hr hh
  | launch actions =>
    exact Operates.trans (q := { p with status := .playing }) (.of_eq rfl)
      ((operates_spawn none _).trans (operates_spawn _ _))
  | stop =>
    rw [Player.stopped]
    refine operates_shutdown.trans ?_
    split <;> exact .of_eq rfl
  | cacheVoice | order => exact .apart rfl rfl rfl

/-- **No silent change of the stage.**  The changes that are made in place leave
every stage alone on which they report nothing.  So an operation that changes the
stage announces it, once, and one after the end of the session changes and
announces nothing; the same is true of operations in any number and order.  And
from whatever moment, all that tasks do in whatever order they have their turns,
and all that is done to them from outside, is made of such operations. -/
theorem no_silent_change (h : Machine.Runs Deals m n) :
    (∀ e, InPlace e → e.Honest) ∧
    (∀ s s', Operation s s' → s'.stage ≠ s.stage → s'.revision = s.revision + 1) ∧
    (∀ s s', Relation.ReflTransGen Operation s s' → s.Announces s') ∧
    Relation.ReflTransGen Operation m.playback.session n.playback.session := by
  refine ⟨fun e he ↦ he.honest, fun s s' hop ↦ hop.announced, fun s s' ↦ ?_, ?_⟩
  · exact Session.announces_of_operations
  · exact h.operates fun p q hd ↦ hd.operates

/-- A model is shown on a new bench and then moved in place: two changes, and two
announcements. -/
theorem shown_and_moved_announced :
    ∃ b b' : Bench, Machine.Runs Deals (.resting b.playback) (.resting b'.playback) ∧
      b.session.revision = 0 ∧ b'.session.revision = 2 ∧
      b.session.stage = .empty ∧ b'.session.stage.layouts = [.fresh 1 "m" .left] ∧
      Relation.ReflTransGen Operation b.session b'.session := by
  let b : Bench := .new .standard ⟨true, false, none, fun _ _ ↦ .zero⟩ .empty
  let shown : Bench := (b.handlePresent (.change (.show 1 "m" .center))).1
  have hshow : Deals b.playback shown.playback :=
    .request (r := .present (.change (.show 1 "m" .center))) nofun rfl
  have hhonest : (StageCommand.change (.move 1 .left)).edit.Honest :=
    (StageCommand.edit_change fun _ _ _ h ↦ by cases h).honest
  have hmove : Deals shown.playback (shown.handlePresentIf (.change (.move 1 .left))).1.playback :=
    .request (r := .presentIf (.change (.move 1 .left))) (fun _ h ↦ by cases h; exact hhonest) rfl
  have hruns := (Machine.Runs.single (.act hshow)).trans (.single (.act hmove))
  exact ⟨b, _, hruns, rfl, rfl, rfl, by decide, (no_silent_change hruns).2.2.2⟩

end Bench

end Storyline
