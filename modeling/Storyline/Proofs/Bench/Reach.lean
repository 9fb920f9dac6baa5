import Storyline.Bench
import Storyline.Proofs.Playback.Settings
import Storyline.Proofs.Playback.Yielding
import Storyline.Proofs.Player.Reach

/-!
# Runs of a bench

A run of a bench goes by requests, and between them tasks have turns and time
passes.  No task of a bench is owned by the session, and each of them gives way
when the session ends.
-/

namespace Storyline

namespace Bench

open Playback

/-- The small steps of the runs in which only some requests occur. -/
inductive Step (permits : Request → Prop) : Bench → Bench → Prop
  | passes {b : Bench} {p : Playback} (h : b.playback.Passes p) :
    Step permits b { b with playback := p }
  | request {b b' : Bench} {r : Request} {response : Response} (hr : permits r)
    (h : b.handle r = .ok (b', response)) : Step permits b b'
  | note {b : Bench} : Step permits b (b.notePark .resumed)

inductive Reaches (permits : Request → Prop) (b : Bench) : Bench → Prop
  | refl : Reaches permits b b
  | step {c d : Bench} (h : Reaches permits b c) (hs : Step permits c d) : Reaches permits b d

variable {permits : Request → Prop} {b b' c : Bench}

theorem Reaches.trans (h : Reaches permits b b') (h' : Reaches permits b' c) :
    Reaches permits b c := by
  induction h' with
  | refl => exact h
  | step _ hs ih => exact ih.step hs

theorem passes_settle (p : Playback) : p.Passes p.settle := Player.reaches_settle

/-- A request is carried out by small steps. -/
theorem reaches_step {settled : Bool} {r : Request} {response : Response} (hr : permits r)
    (h : b.step settled r = .ok (b', response)) : Reaches permits b b' := by
  unfold step at h
  cases hh : b.handle r with
  | error e => simp [hh, bind, Except.bind] at h
  | ok handled =>
      obtain ⟨c, response'⟩ := handled
      simp only [hh, bind, Except.bind, pure, Except.pure, Except.ok.injEq, Prod.mk.injEq] at h
      obtain ⟨rfl, -⟩ := h
      have hc : Reaches permits b c := Reaches.refl.step (.request hr hh)
      cases settled with
      | false => exact hc.step .note
      | true => exact (hc.step (.passes (passes_settle c.playback))).step .note

/-- Carries out requests, running what is ready after those that are marked. -/
def follow (rs : List (Bool × Request)) (b : Bench) : Except Missing Bench :=
  rs.foldlM (fun b r ↦ (b.step r.1 r.2).map Prod.fst) b

theorem reaches_follow {rs : List (Bool × Request)} (hrs : ∀ r ∈ rs, permits r.2)
    (h : b.follow rs = .ok b') : Reaches permits b b' := by
  induction rs generalizing b with
  | nil => exact Except.ok.inj h ▸ .refl
  | cons r rest ih =>
      unfold follow at h
      rw [List.foldlM_cons] at h
      cases hstep : b.step r.1 r.2 with
      | error e => simp [hstep, Except.map, bind, Except.bind] at h
      | ok reached =>
          simp only [hstep, Except.map, bind, Except.bind] at h
          have hfirst : Reaches permits b reached.1 := reaches_step (hrs r (by simp)) hstep
          exact hfirst.trans (ih (fun x hx ↦ hrs x (by simp [hx])) h)

/-! ## What a request does -/

/-- What a request other than the end of the session does to the tasks; only one
lets time pass. -/
inductive Handled (r : Request) (b b' : Bench) : Prop
  | stirs (h : b.playback.Stirs b'.playback)
    (hc : b'.session.cancelled = b.session.cancelled) (hb : b'.tasks = b.tasks)
  | passes (ms : Nat) (hr : r = .advance ms) (h : b.playback.Passes b'.playback)
    (hb : b'.tasks = b.tasks)
  | spawns (agenda : List Errand) (hy : ∀ e ∈ agenda, e.Yields)
    (h : b'.playback = b.playback.spawn none agenda) (hb : b'.tasks = b.tasks)
  | starts (asks : Bool) (scope : Option Nat) (agenda : List Errand)
    (hy : ∀ e ∈ agenda, e.Yields) (h : b'.playback = b.playback.addTask false asks scope agenda)
    (hb : b'.tasks = b.tasks ++ [b.playback.spawned])

variable {r : Request}

theorem carries_amend {s : Session} (f : Stage → Stage) : s.Carries [] (s.amend f) := by
  unfold Session.amend
  split
  · exact .refl s
  · exact Session.carries_of_eq rfl (Nat.le_refl _) rfl (fun _ h ↦ h) rfl rfl rfl rfl

/-- A new session takes the place of the old one, with its signals. -/
theorem Handled.touch {s : Session} {signals : List Signal} (h : b.session.Carries signals s)
    (hc : s.cancelled = b.session.cancelled) (hp : b'.playback = b.playback.touch s signals)
    (hb : b'.tasks = b.tasks) : Handled r b b' :=
  .stirs (hp ▸ .of_touch h) (by rw [session, hp, touch_session]; exact hc) hb

theorem Handled.start (asks : Bool) (scope : Option Nat) {agenda : List Errand}
    (hy : ∀ e ∈ agenda, e.Yields) : Handled r b (b.start asks scope agenda).1 :=
  .starts asks scope agenda hy rfl rfl

theorem exists_of_bind {α β : Type} {x : Except Missing α} {f : α → Except Missing β} {y : β}
    (h : (x >>= f) = .ok y) : ∃ a, x = .ok a ∧ f a = .ok y := by
  cases x with
  | error e => cases h
  | ok a => exact ⟨a, rfl, h⟩

theorem handled_scope (parent : Option Nat) : Handled r b (b.handleScope parent).1 :=
  .touch (Session.carries_openScope parent) rfl rfl rfl

theorem handled_ticket (released : Bool) (n : Nat) : Handled r b (b.handleTicket released n).1 := by
  unfold handleTicket
  split
  · exact .stirs (.refl _) rfl rfl
  · cases released with
    | true =>
        exact .stirs (stirs_release _ _) (Session.cancelled_eq (settings_release _)) rfl
    | false => exact .stirs (.refl _) rfl rfl

theorem handled_unpark (id : Nat) : Handled r b (b.handleUnpark id).1 :=
  .touch (Session.carries_unpark id) rfl rfl rfl

theorem handled_dropPark (n : Nat) (park : Park) : Handled r b (b.handleDropPark n park).1 := by
  unfold handleDropPark
  split
  · exact .touch (Session.carries_abandon park.id) rfl rfl rfl
  · exact .stirs (.refl _) rfl rfl

theorem handled_presentIf (command : StageCommand) : Handled r b (b.handlePresentIf command).1 := by
  unfold handlePresentIf
  dsimp only
  split
  · exact .touch (Session.carries_present _) (Session.cancelled_eq (Session.settings_present _ _))
      rfl rfl
  · refine .touch (carries_amend command.apply) ?_ rfl rfl
    unfold Session.amend
    split <;> rfl

theorem handled {response : Response} (ho : Player.AtRest b.playback)
    (hr : r ≠ .shutdown) (h : b.handle r = .ok (b', response)) : Handled r b b' := by
  have hfst : ∀ {c : Bench × Response}, (Except.ok c : Except Missing _) = .ok (b', response) →
      b' = c.1 := fun h ↦ by rw [Except.ok.inj h]
  cases r with
  | scope parent =>
      cases parent with
      | none => exact hfst h ▸ handled_scope none
      | some n =>
          obtain ⟨id, -, h⟩ := exists_of_bind h
          exact hfst h ▸ handled_scope (some id)
  | dropScope n =>
      obtain ⟨id, -, h⟩ := exists_of_bind h
      exact hfst h ▸ .stirs (.refl _) rfl rfl
  | enter n tapBlocking =>
      obtain ⟨id, -, h⟩ := exists_of_bind h
      exact hfst h ▸ .stirs (stirs_enter _ id tapBlocking)
        (Session.cancelled_eq (settings_enter id tapBlocking)) rfl
  | release n => exact hfst h ▸ handled_ticket true n
  | dropTicket n => exact hfst h ▸ handled_ticket false n
  | reset n =>
      obtain ⟨id, -, h⟩ := exists_of_bind h
      exact hfst h ▸ .touch (Session.carries_resetScope id) rfl rfl rfl
  | resetScopes =>
      exact hfst h ▸ .touch Session.carries_resetScopes rfl resetScopes_eq_touch rfl
  | drained n tally =>
      obtain ⟨id, -, h⟩ := exists_of_bind h
      exact hfst h ▸ .start false (some id) (by simp [Errand.Yields])
  | untilDrained n =>
      obtain ⟨id, -, h⟩ := exists_of_bind h
      exact hfst h ▸ .start true (some id) (by simp [Errand.Yields])
  | sleep d => exact hfst h ▸ .start true none (by simp [Errand.Yields])
  | cancelled => exact hfst h ▸ .start false none (by simp [Errand.Yields])
  | perform n action step =>
      obtain ⟨id, -, h⟩ := exists_of_bind h
      exact hfst h ▸ .start false (some id) (by simp [Errand.Yields])
  | walk n actions indexed =>
      obtain ⟨id, -, h⟩ := exists_of_bind h
      exact hfst h ▸ .start false (some id) (walk_yields id indexed actions)
  | spawn d path => exact hfst h ▸ .spawns _ (by simp [Errand.Yields]) rfl rfl
  | skip => exact hfst h ▸ .touch Session.carries_skip rfl rfl rfl
  | serial => exact hfst h ▸ .touch Session.carries_nextSerial rfl rfl rfl
  | park =>
      exact hfst h ▸ .touch Session.carries_park rfl rfl rfl
  | unpark n =>
      obtain ⟨park, -, h⟩ := exists_of_bind h
      exact hfst h ▸ handled_unpark park.id
  | unparkId id => exact hfst h ▸ handled_unpark id
  | dropPark n =>
      obtain ⟨park, -, h⟩ := exists_of_bind h
      exact hfst h ▸ handled_dropPark n park
  | next =>
      exact hfst h ▸ .touch Session.carries_takeTap rfl tap_eq_touch rfl
  | present command =>
      exact hfst h ▸ .touch (Session.carries_present _)
        (Session.cancelled_eq (Session.settings_present _ _)) rfl rfl
  | presentIf command => exact hfst h ▸ handled_presentIf command
  | backlog line => exact hfst h ▸ .touch (Session.carries_pushBacklog line) rfl rfl rfl
  | playVoice path =>
      exact hfst h ▸ .touch (Session.carries_playVoice path)
        (Session.cancelled_eq (Session.settings_playVoice _ path)) rfl rfl
  | voice path => exact hfst h ▸ .stirs (.refl _) rfl rfl
  | autoPlay on =>
      refine hfst h ▸ .touch (Session.carries_setAutoPlay on) ?_ (setAutoPlay_eq_touch on) rfl
      unfold Session.setAutoPlay
      split <;> rfl
  | fastForward on =>
      refine hfst h ▸ .touch (Session.carries_setFastForward on) ?_ (setFastForward_eq_touch on) rfl
      unfold Session.setFastForward
      split <;> rfl
  | advance ms => exact hfst h ▸ .passes ms rfl (Player.reaches_advance ms ho).1 rfl
  | shutdown => exact absurd rfl hr

end Bench

end Storyline
