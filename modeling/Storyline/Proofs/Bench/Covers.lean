import Storyline.Proofs.Bench.Shutdown
import Storyline.Proofs.Playback.Covers
import Storyline.Proofs.Player.Tickets

/-!
# The covers of a session

Whatever is started in a session, and in whatever order the ready tasks have
their turns, the covers exclude each other once their showings have ended, as
long as the clock can show when a voice is to be looked at.
-/

namespace Storyline

namespace Bench

open Playback Machine
open Session (Veils cover_of_shown)

/-- Whether a command sets a cover by hand. -/
def setsCover : StageCommand → Bool
  | .cover .. => true
  | _ => false

/-- Requests that neither end the session, nor let time pass, nor set a cover. -/
def Request.isMeek : Request → Bool
  | .shutdown | .advance _ => false
  | .present command | .presentIf command => !setsCover command
  | _ => true

/-- What is done to a running session from outside: requests, the start of a
story, voices for the cache, and another order for the tasks that are ready. -/
inductive Acts : Playback → Playback → Prop
  | request {b b' : Bench} {r : Request} {response : Response} (hr : r.isMeek = true)
    (h : b.handle r = .ok (b', response)) : Acts b.playback b'.playback
  | launch (actions : List Action) {p : Playback} : Acts p (Player.launch actions p)
  | cacheVoice (path : String) (content : Bytes) {p : Playback} :
    Acts p (p.update fun s ↦ { s with voices := s.voices.insert path content })
  | reorder {p : Playback} {queue : List Nat} (h : queue.Perm p.queue) :
    Acts p { p with queue := queue }

variable {b b' : Bench} {p q : Playback} {r : Request}

theorem cover_apply {command : StageCommand} (h : setsCover command = false) (c : Cover)
    (s : Stage) : (command.apply s).cover c = s.cover c := by
  cases command with
  | change m =>
      have hstage : (StageCommand.change m).apply s = (m.apply s).getD s := rfl
      rw [hstage]
      cases happly : m.apply s with
      | none => rfl
      | some s' => exact Stage.cover_eq_of_face (m.face_apply happly) c
  | layout | offset => rfl
  | cover => cases h
  | shake k d => exact Stage.cover_setShake _ _ _ _
  | background path => cases c <;> rfl

theorem cover_present {f : Stage → Stage} (hf : ∀ (c : Cover) (s : Stage), (f s).cover c = s.cover c)
    (s : Session) (c : Cover) :
    (s.present f).stage.cover c = s.stage.cover c ∧ (s.amend f).stage.cover c = s.stage.cover c := by
  unfold Session.present Session.amend
  split
  · exact ⟨rfl, rfl⟩
  · exact ⟨hf c s.stage, hf c s.stage⟩

theorem cover_touch {s : Session} {signals : List Signal} (h : q = p.touch s signals)
    (hstage : s.stage = p.session.stage) (c : Cover) :
    q.session.stage.cover c = p.session.stage.cover c := by
  rw [h, touch_session, hstage]

/-- Such requests leave the covers as they are. -/
theorem cover_handle {response : Response} (hr : r.isMeek = true)
    (h : b.handle r = .ok (b', response)) (c : Cover) :
    b'.session.stage.cover c = b.session.stage.cover c := by
  have hfst : ∀ {d : Bench × Response}, (Except.ok d : Except Missing _) = .ok (b', response) →
      b' = d.1 := fun h ↦ by rw [Except.ok.inj h]
  cases r with
  | shutdown | advance => cases hr
  | scope parent =>
      cases parent with
      | none => rw [hfst h]; rfl
      | some n =>
          obtain ⟨id, -, h⟩ := exists_of_bind h
          rw [hfst h]
          rfl
  | dropScope n | drained n | untilDrained n | perform n | walk n =>
      obtain ⟨id, -, h⟩ := exists_of_bind h
      rw [hfst h]
      rfl
  | enter n tapBlocking =>
      obtain ⟨id, -, h⟩ := exists_of_bind h
      rw [hfst h]
      exact cover_of_shown (shown_enter id tapBlocking) c
  | release n =>
      rw [hfst h, handleTicket]
      split
      · rfl
      · exact cover_of_shown (shown_release _) c
  | dropTicket n =>
      rw [hfst h, handleTicket]
      split <;> rfl
  | reset n =>
      obtain ⟨id, -, h⟩ := exists_of_bind h
      rw [hfst h]
      exact cover_touch (resetScope_eq_touch id) rfl c
  | resetScopes =>
      rw [hfst h]
      exact cover_touch resetScopes_eq_touch rfl c
  | unpark n =>
      obtain ⟨park, -, h⟩ := exists_of_bind h
      rw [hfst h]
      exact cover_touch (unpark_eq_touch park.id) rfl c
  | unparkId id =>
      rw [hfst h]
      exact cover_touch (unpark_eq_touch id) rfl c
  | dropPark n =>
      obtain ⟨park, -, h⟩ := exists_of_bind h
      rw [hfst h, handleDropPark]
      split <;> rfl
  | spawn d path =>
      rw [hfst h]
      exact congrArg (fun s : Session ↦ s.stage.cover c) (spawn_session _ _)
  | skip =>
      rw [hfst h]
      exact cover_touch skip_eq_touch rfl c
  | next =>
      rw [hfst h]
      exact cover_touch tap_eq_touch rfl c
  | present command =>
      rw [hfst h]
      exact (cover_present (cover_apply (by simpa [Request.isMeek] using hr)) _ c).1
  | presentIf command =>
      have hcommand : setsCover command = false := by simpa [Request.isMeek] using hr
      have hboth := cover_present (cover_apply hcommand) b.session c
      rw [hfst h, handlePresentIf]
      dsimp only
      split
      · exact hboth.1
      · exact hboth.2
  | playVoice path =>
      rw [hfst h]
      exact cover_of_shown (Session.shown_playVoice path) c
  | autoPlay on =>
      rw [hfst h]
      refine cover_touch (setAutoPlay_eq_touch on) ?_ c
      unfold Session.setAutoPlay
      split <;> rfl
  | fastForward on =>
      rw [hfst h]
      refine cover_touch (setFastForward_eq_touch on) ?_ c
      unfold Session.setFastForward
      split <;> rfl
  | sleep | cancelled | serial | park | backlog | voice =>
      obtain rfl := hfst h
      rfl

theorem meek_request {response : Response} (hp : Player.AtRest b.playback) (hr : r.isMeek = true)
    (h : b.handle r = .ok (b', response)) : Meek b.playback b'.playback := by
  have hcovers := cover_handle hr h
  cases handled hp (by rintro rfl; cases hr) h with
  | stirs hst hc => exact .of_stirs hst hp hc hcovers
  | passes ms hadvance => subst hadvance; cases hr
  | spawns agenda hy hplayback => exact hplayback ▸ meek_spawn none hp (.inl hy)
  | starts asks scope agenda hy hplayback =>
      rw [hplayback]
      exact
        { rest := .of_orderly (Orderly.addTask false asks scope agenda hp)
          veils := .refl _
          running := id
          moment := rfl
          outcomes := rfl
          tasks := ⟨[_], rfl, fun t ht ↦ by
            rw [List.mem_singleton.mp ht]
            exact ⟨.inl ⟨by simp, hy⟩, rfl⟩⟩ }

theorem atRest_reorder {queue : List Nat} (h : queue.Perm p.queue) (hp : Player.AtRest p) :
    Player.AtRest { p with queue := queue } :=
  { (hp : p.Orderly p.session.moment none 0) with
    nodup_queue := h.nodup_iff.mpr hp.nodup_queue
    queued := fun id hid ↦ hp.queued id (h.mem_iff.mp hid)
    resting := fun t ht hne hnot ↦ hp.resting t ht hne fun hin ↦ hnot (h.mem_iff.mpr hin) }

theorem Acts.meek (h : Acts p q) (hp : Player.AtRest p) : Meek p q := by
  cases h with
  | request hr hh => exact meek_request hp hr hh
  | launch actions =>
      have hplaying : Meek p { p with status := .playing } :=
        { rest := Orderly.withStatus hp .playing
          veils := .refl _
          running := id
          moment := rfl
          outcomes := rfl
          tasks := ⟨[], (List.append_nil _).symm, by simp⟩ }
      have hticker : Meek _ (Playback.spawn none [.fastForward] { p with status := .playing }) :=
        meek_spawn none hplaying.rest (.inr (by simp [Errand.performs]))
      exact (hplaying.trans hticker).trans
        (meek_spawn (some Player.root) hticker.rest (.inl (timeline_yields actions)))
  | cacheVoice path content =>
      exact .of_stirs (.of_update (Session.carries_voices _)) hp rfl fun _ ↦ rfl
  | reorder hperm =>
      exact
        { rest := atRest_reorder hperm hp
          veils := .refl _
          running := id
          moment := rfl
          outcomes := rfl
          tasks := ⟨[], (List.append_nil _).symm, by simp⟩ }

/-! ## Runs of benches and players -/

/-- A run of a bench is a run of the machine. -/
theorem runs_reaches {permits : Request → Prop}
    (hpermits : ∀ r, permits r → r.isMeek = true ∨ ∃ ms, r = .advance ms) (hb : Running b)
    (h : Reaches permits b b') : Runs Acts (resting b.playback) (resting b'.playback) := by
  have hgoes : ∀ r, permits r → r ≠ .shutdown := by
    rintro r hr rfl
    rcases hpermits _ hr with h | ⟨ms, h⟩ <;> cases h
  induction h with
  | refl => exact .refl
  | @step c d h hs ih =>
      refine ih.trans ?_
      have hc := hb.reaches hgoes h
      cases hs with
      | passes hp => exact runs_passes hp
      | @request _ r response hr hh =>
          rcases hpermits _ hr with hmeek | ⟨ms, rfl⟩
          · exact .single (.act (.request hmeek hh))
          · have hadvance : d.playback = c.playback.advance ms := by rw [← (Prod.mk.inj (Except.ok.inj hh)).1]; rfl
            rw [hadvance]
            exact runs_passes (Player.reaches_advance ms hc.rest).1
      | note => exact .refl

/-- A run of a player that goes on is a run of the machine. -/
theorem runs_player {actions : List Action} {permits : Player.Command → Prop}
    (hpermits : ∀ c, permits c → c.continues = true) (h : Player.Reaches actions permits p q) :
    Runs Acts (resting p) (resting q) := by
  have hrequest : ∀ {p : Playback} {b' : Bench} {r : Request} {response : Response},
      r.isMeek = true → (⟨p, [], [], [], []⟩ : Bench).handle r = .ok (b', response) →
      Runs Acts (resting p) (resting b'.playback) :=
    fun hr hh ↦ .single (.act (Acts.request (b := ⟨_, [], [], [], []⟩) hr hh))
  induction h with
  | refl => exact .refl
  | step h hs ih =>
      refine ih.trans ?_
      cases hs with
      | turn hq => exact runs_runTask hq
      | move hq hnext => exact .single (.move hq hnext)
      | rest hq hle hnext => exact .single (.rest hq hle hnext)
      | start => exact .single (.act (.launch actions))
      | next => exact hrequest (r := .next) rfl rfl
      | autoPlay on => exact hrequest (r := .autoPlay on) rfl rfl
      | fastForward on => exact hrequest (r := .fastForward on) rfl rfl
      | cacheVoice path content => exact .single (.act (.cacheVoice path content))
      | stop hc => rcases hc with hc | hc <;> cases hpermits _ hc

theorem runs_new (actions : List Action) (config : Config) (host : Host) (voices : VoiceCache) :
    Runs Acts (resting (new config host voices).playback)
      (resting (Player.new actions config host voices).playback) :=
  .single (.act (Acts.request (r := .scope none) (b := new config host voices) rfl rfl))

theorem underway_new (config : Config) (host : Host) (voices : VoiceCache) :
    Underway (resting (new config host voices).playback) where
  cast := ⟨by simp [resting, new, Playback.new], by simp [resting]⟩
  running := rfl
  whole := by simp [resting, new, Playback.new]
  accounted := fun c hc ↦ by cases c <;> cases hc

/-- In a session that goes on the covers exclude each other: a showing that is no
longer suspended, and not lost, leaves no older cover from then on; of two covers
that are seen the later one is still coming up, or its showing has been lost; and
without such showings at most one cover is seen. -/
theorem covers_exclude {config : Config} {host : Host} {voices : VoiceCache} {m : Machine}
    (hr : Runs Acts (resting (new config host voices).playback) m) :
    (∀ (c : Cover) (task : Task) (n k l : Machine), m.upcoming = some c →
      m.running = some task → Beat m n → Runs Acts n k →
      ¬Suspends ⟨task.id, c, m.playback.session.serial⟩ k →
      ¬Lost ⟨task.id, c, m.playback.session.serial⟩ k → Runs Acts k l →
      l.playback.session.stage.Clear c m.playback.session.serial) ∧
    (∀ c : Cover, (m.playback.session.stage.cover c).visible = true →
      (m.playback.session.stage.cover c.other).visible = true →
      (m.playback.session.stage.cover c.other).stamp < (m.playback.session.stage.cover c).stamp →
      ∃ id, Suspends ⟨id, c, (m.playback.session.stage.cover c).stamp⟩ m ∨
        Lost ⟨id, c, (m.playback.session.stage.cover c).stamp⟩ m) ∧
    ((∀ w, ¬Suspends w m) → (∀ w, ¬Lost w m) →
      ¬(m.playback.session.stage.blackCover.visible = true ∧
        m.playback.session.stage.whiteCover.visible = true)) := by
  have hacts : ∀ p q, Acts p q → Player.AtRest p → Meek p q := fun _ _ ↦ Acts.meek
  obtain ⟨hu, hs⟩ := hr.underway hacts (sound_resting (running_new config host voices).rest)
    (underway_new config host voices)
  refine ⟨fun c task n k l hup htask hb hk hended hlost hl ↦ ?_,
    fun c hc hother hlt ↦ hu.later hc hother hlt, fun hended hlost ↦ ?_⟩
  · exact Runs.clear hacts hs hu hb hup htask hk hended hlost hl
  · exact hu.alone (c := .black) hended hlost

/-- A white cover at once and a black one over five seconds, one after the other. -/
def coverings : List (Bool × Request) :=
  [(true, .scope none),
    (true, .walk 0 [.cue (.cover .white true (.ofNat 0)), .cue (.cover .black true (.ofNat 5))] false)]

theorem coverings_exclude :
    ∃ b, (new .standard ⟨true, true, none, fun _ _ ↦ .zero⟩ .empty).follow coverings = .ok b ∧
      b.session.stage.blackCover.visible = true ∧ b.session.stage.whiteCover.visible = true ∧
      ∃ id, Suspends ⟨id, .black, b.session.stage.blackCover.stamp⟩ (resting b.playback) ∨
        Lost ⟨id, .black, b.session.stage.blackCover.stamp⟩ (resting b.playback) := by
  have hstate :
      ((new .standard ⟨true, true, none, fun _ _ ↦ .zero⟩ .empty).follow coverings).toOption.map
        (fun b ↦ (b.session.stage.blackCover, b.session.stage.whiteCover)) =
          some (⟨true, ⟨5 * 10 ^ 9⟩, 2⟩, ⟨true, ⟨0⟩, 1⟩) := by decide +kernel
  cases hb : (new .standard ⟨true, true, none, fun _ _ ↦ .zero⟩ .empty).follow coverings with
  | error e => simp [hb, Except.toOption] at hstate
  | ok b =>
      simp only [hb, Except.toOption, Option.map_some, Option.some.injEq, Prod.mk.injEq] at hstate
      obtain ⟨hblack, hwhite⟩ := hstate
      have hreach : Reaches (fun r ↦ r.isMeek = true) _ b :=
        reaches_follow (by simp [coverings, Request.isMeek]) hb
      have hruns := runs_reaches (fun r hr ↦ .inl hr) (running_new _ _ _) hreach
      refine ⟨b, rfl, by rw [hblack], by rw [hwhite], (covers_exclude hruns).2.1 .black ?_ ?_ ?_⟩
      · exact congrArg CoverState.visible hblack
      · exact congrArg CoverState.visible hwhite
      · change b.session.stage.whiteCover.stamp < b.session.stage.blackCover.stamp
        rw [hblack, hwhite]
        decide

/-! ## A showing that is lost -/

/-- A black cover comes up over a white one, together with a line that has a voice. -/
def veiledLine : List Action :=
  [.cue (.cover .white true (.ofNat 0)),
    .block [.cue (.cover .black true (.ofNat 5)), .cue (.talk Player.watchedLine)]]

/-- Both covers can be seen though none is coming up. -/
theorem veiledLine_shows_both :
    ¬∀ (config : Config) (host : Host) (voices : VoiceCache) (m : Machine),
      Runs Acts (resting (new config host voices).playback) m → (∀ w, ¬Suspends w m) →
      ¬(m.playback.session.stage.blackCover.visible = true ∧
        m.playback.session.stage.whiteCover.visible = true) := by
  intro h
  let q := (Player.new veiledLine Player.patient Player.quietHost Player.watchedVoices).follow
    [(true, .autoPlay true), (true, .start)]
  have hstate : q.playback.session.stage.blackCover.visible = true ∧
      q.playback.session.stage.whiteCover.visible = true ∧
      (q.playback.tasks.all fun t ↦ t.pauses.all fun x ↦ x.ending = .nothing) = true := by
    decide +kernel
  have hruns : Runs Acts (resting (new Player.patient Player.quietHost Player.watchedVoices).playback)
      (resting q.playback) :=
    (runs_new veiledLine _ _ _).trans (runs_player (fun _ hc ↦ hc)
      (Player.reaches_follow (by decide) (Player.new_atRest _ _ _ _)))
  generalize q.playback = p at hstate hruns
  refine h _ _ _ _ hruns (fun w hw ↦ ?_) ⟨hstate.1, hstate.2.1⟩
  rcases hw with ⟨t, ht, -, q, hq, ticket, hending⟩ | ⟨task, hrun, -⟩
  · have hnothing := List.all_eq_true.mp (List.all_eq_true.mp hstate.2.2 t ht) q hq
    rw [hending] at hnothing
    simp at hnothing
  · cases hrun

end Bench

end Storyline
