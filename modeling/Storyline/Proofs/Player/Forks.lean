import Storyline.Proofs.Forks.Passing
import Storyline.Proofs.Player.Outcome

/-!
# Forks cannot disturb the main timeline

A story whose forks have no lines and no titles in them is reported to its
player just as it would be with empty forks, whatever the player does.  Both
stories have the same solo, and each of them mirrors it at every moment.
-/

namespace Storyline

namespace Player

/-- What a player reports of the main timeline after a command. -/
structure Report where
  time : Nat
  step : Option Nat
  talk : Option Line
  telop : Option String
  status : Status
  backlog : List Line
  /-- How many actions are parked. -/
  pendingTaps : Nat
  /-- The counts of the root scope. -/
  outstanding : Nat
  outstandingTaps : Nat
  /-- All calls on the voice channel so far, with their times. -/
  voiceCalls : List (Nat × AudioCall)
deriving DecidableEq

def report (p : Player) : Report where
  time := p.playback.session.now
  step := p.playback.session.stage.step
  talk := p.playback.session.stage.talk
  telop := p.playback.session.stage.telop
  status := p.status
  backlog := p.playback.session.backlog
  pendingTaps := p.playback.session.taps.length
  outstanding := p.playback.session.pending root .actions
  outstandingTaps := p.playback.session.pending root .taps
  voiceCalls := p.playback.session.voiceCalls

/-- The response to each command, and the report after it.  What is ready runs
after the marked commands. -/
def trace (p : Player) : List (Bool × Command) → List (Response × Report)
  | [] => []
  | c :: cs => ((p.step c.1 c.2).2, (p.step c.1 c.2).1.report) :: trace (p.step c.1 c.2).1 cs

/-- Whether a command shows forks: in the document or on the stage. -/
def Command.showsForks : Command → Bool
  | .showActions | .showStage => true
  | _ => false

/-- A player of a story and one of its solo, which have come as far. -/
structure Mirrors (N : Naming) (p v : Player) : Prop where
  playback : p.playback.Mirrors N v.playback
  root : (root, root) ∈ N.ids
  actions : v.actions = p.actions.map Action.solo
  tapless : ∀ action ∈ p.actions, action.forksTapless = true
  dropped : p.dropped = v.dropped

end Player

namespace Playback

variable {N : Naming} {p v : Playback}

/-! ## Commands between turns -/

theorem Mirrors.tap (h : p.Mirrors N v) : p.tap.Mirrors N v.tap := by
  rw [tap_eq_touch, tap_eq_touch]
  exact h.touch h.session.takeTap (Abreast.tap_signals h.session)

theorem Mirrors.setAutoPlay (h : p.Mirrors N v) (on : Bool) :
    (p.setAutoPlay on).Mirrors N (v.setAutoPlay on) := by
  rw [setAutoPlay_eq_touch, setAutoPlay_eq_touch, h.session.cancelled]
  refine h.touch (h.session.setAutoPlay on) ?_
  split
  · exact .nil
  · exact Abreast.signal .autoPlay

theorem Mirrors.setFastForward (h : p.Mirrors N v) (on : Bool) :
    (p.setFastForward on).Mirrors N (v.setFastForward on) := by
  rw [setFastForward_eq_touch, setFastForward_eq_touch, h.session.cancelled]
  refine h.touch (h.session.setFastForward on) ?_
  split
  · exact .nil
  · exact Abreast.signal .fastForward

/-- The tasks of the session are aborted in both playbacks. -/
theorem Mirrors.abortOwned (h : p.Mirrors N v) : p.abortOwned.Mirrors N v.abortOwned := by
  have howned := (h.tasks.filter (p := Task.owned) (q := Task.owned) fun ht ↦ ht.owned).map
    (f := Task.id) (g := Task.id) (S := fun a b ↦ (a, b) ∈ N.tasks) (P := (· ∈ N.strayTasks))
    (fun ht ↦ ht.id) fun ht ↦ ht.id
  have htasks := h.tasks.map (S := N.SameTask) (P := N.StrayTask)
    (f := fun t ↦ { t with aborted := t.aborted || t.owned })
    (g := fun t ↦ { t with aborted := t.aborted || t.owned })
    (fun ht ↦ { ht with aborted := by rw [ht.aborted, ht.owned] }) fun ht ↦ { ht with }
  unfold Playback.abortOwned
  dsimp only
  rw [wakeAll_eq, wakeAll_eq]
  exact { h with tasks := htasks, queue := h.enqueue howned }

theorem Mirrors.shutdown (h : p.Mirrors N v) : p.shutdown.Mirrors N v.shutdown := by
  cases hc : v.session.cancelled with
  | true =>
      unfold Playback.shutdown
      rw [if_pos (h.session.cancelled.trans hc), if_pos hc]
      exact h
  | false =>
      rw [shutdown_eq hc, shutdown_eq (h.session.cancelled.trans hc)]
      refine Mirrors.abortOwned (h.touch h.session.cancel (.pair .cancel (Weave.append ?_ ?_)))
      · exact (Weave.of_forall₂ (Q := fun _ ↦ False) h.session.taps).map (fun ht ↦ .tap ht.id)
          False.elim
      · exact Abreast.resetSignals h.session.scopes

theorem Mirrors.stop (h : p.Mirrors N v) : (Player.stopped p).Mirrors N (Player.stopped v) := by
  have hshut := h.shutdown
  unfold Player.stopped
  dsimp only
  rw [hshut.status]
  split
  · exact hshut
  · exact hshut.withStatus .stopped

/-- The walk of a story and that of its solo, with the wait at its end. -/
theorem sameTimeline {actions : List Action} (htapless : ∀ a ∈ actions, a.forksTapless = true)
    (hroot : (Player.root, Player.root) ∈ N.ids) :
    List.Forall₂ N.SameErrand (Player.timeline actions)
      (Player.timeline (actions.map Action.solo)) := by
  refine List.rel_append ?_ (.cons (.drain hroot .actions true .completed) .nil)
  unfold walk
  rw [List.zipIdx_map, List.map_map, List.forall₂_map_left_iff, List.forall₂_map_right_iff,
    List.forall₂_same]
  exact fun a ha ↦ .perform (htapless a.1 (List.fst_mem_of_mem_zipIdx ha)) hroot (some a.2)

theorem Mirrors.launch (h : p.Mirrors N v) {actions : List Action}
    (htapless : ∀ a ∈ actions, a.forksTapless = true)
    (hroot : (Player.root, Player.root) ∈ N.ids) :
    ∃ M, N ≤ M ∧ (Player.launch actions p).Mirrors M
      (Player.launch (actions.map Action.solo) v) := by
  obtain ⟨L, hle, hticker⟩ := (h.withStatus .playing).spawn (.cons .fastForward .nil) none none
  obtain ⟨M, hle', hmain⟩ := hticker.spawn (sameTimeline htapless (hle.ids hroot))
    (some Player.root) (some Player.root)
  exact ⟨M, hle.trans hle', hmain⟩

end Playback

namespace Player

variable {N : Naming} {p v : Player}

namespace Mirrors

theorem withPlayback {M : Naming} (h : p.Mirrors N v) (hle : N ≤ M) {q w : Playback}
    (hq : q.Mirrors M w) : Mirrors M { p with playback := q } { v with playback := w } :=
  { h with playback := hq, root := hle.ids h.root }

/-- Mirrors report the same. -/
theorem report (h : p.Mirrors N v) : p.report = v.report := by
  have hs := h.playback.session
  have hstep : p.playback.session.stage.step = v.playback.session.stage.step :=
    congrArg Prod.fst hs.front
  have htalk : p.playback.session.stage.talk = v.playback.session.stage.talk :=
    congrArg (·.2.1) hs.front
  have htelop : p.playback.session.stage.telop = v.playback.session.stage.telop :=
    congrArg (·.2.2) hs.front
  unfold Player.report Player.status
  rw [hs.now, hstep, htalk, htelop, h.playback.status, hs.backlog, hs.taps.length_eq,
    hs.pending h.root, hs.pending h.root, hs.calls]

theorem start (h : p.Mirrors N v) :
    ∃ M, N ≤ M ∧ p.obeyStart.1.Mirrors M v.obeyStart.1 ∧ p.obeyStart.2 = v.obeyStart.2 := by
  unfold obeyStart Player.start Player.status
  rw [h.playback.session.host, h.playback.status]
  split
  next q hq =>
    split at hq
    · cases hq
    split at hq
    next hrun hs =>
      obtain ⟨M, hle, hlaunched⟩ := h.playback.launch h.tapless h.root
      rw [if_neg hrun, if_pos hs]
      rw [← Except.ok.inj hq]
      exact ⟨M, hle, h.actions ▸ h.withPlayback hle hlaunched, rfl⟩
    next hrun hs =>
      rw [if_neg hrun, if_neg hs]
      rw [← Except.ok.inj hq]
      exact ⟨N, le_rfl, h, rfl⟩
  next e hq =>
    split at hq
    next hrun =>
      rw [if_pos hrun]
      rw [← Except.error.inj hq]
      exact ⟨N, le_rfl, h, rfl⟩
    · split at hq <;> cases hq

theorem obey (h : p.Mirrors N v) (hp : AtRest p.playback) (hv : AtRest v.playback) {c : Command}
    (hc : c.showsForks = false) :
    ∃ M, N ≤ M ∧ (p.obey c).1.Mirrors M (v.obey c).1 ∧ (p.obey c).2 = (v.obey c).2 := by
  unfold Player.obey
  rw [h.dropped]
  split
  · exact ⟨N, le_rfl, h, rfl⟩
  have hs := h.playback.session
  cases c with
  | start => exact h.start
  | next =>
      refine ⟨N, le_rfl, h.withPlayback le_rfl h.playback.tap, ?_⟩
      exact congrArg Response.flag hs.nextTap
  | stop => exact ⟨N, le_rfl, h.withPlayback le_rfl h.playback.stop, rfl⟩
  | autoPlay on =>
      have hset := h.playback.setAutoPlay on
      exact ⟨N, le_rfl, h.withPlayback le_rfl hset, congrArg Response.flag hset.session.autoPlay⟩
  | fastForward on =>
      have hset := h.playback.setFastForward on
      exact ⟨N, le_rfl, h.withPlayback le_rfl hset, congrArg Response.flag hset.session.fastForward⟩
  | advance ms =>
      obtain ⟨M, hle, hlater⟩ := h.playback.advance hp hv ms
      exact ⟨M, hle, h.withPlayback hle hlater, rfl⟩
  | cacheVoice path content =>
      exact ⟨N, le_rfl,
        h.withPlayback le_rfl (h.playback.withSession (hs.cacheVoice path content)), rfl⟩
  | drop =>
      exact ⟨N, le_rfl, { h.withPlayback le_rfl h.playback.stop with dropped := rfl }, rfl⟩
  | showActions => cases hc
  | showStage => cases hc
  | showBacklog => exact ⟨N, le_rfl, h, congrArg Response.backlog hs.backlog⟩

theorem step (h : p.Mirrors N v) (hp : AtRest p.playback) (hv : AtRest v.playback) (settled : Bool)
    {c : Command} (hc : c.showsForks = false) :
    ∃ M, N ≤ M ∧ (p.step settled c).1.Mirrors M (v.step settled c).1 ∧
      (p.step settled c).2 = (v.step settled c).2 := by
  obtain ⟨L, hle, hobeyed, hresponse⟩ := h.obey hp hv hc
  cases settled with
  | false => exact ⟨L, hle, hobeyed, hresponse⟩
  | true =>
      have hp' : AtRest (p.obey c).1.playback :=
        (reaches_obey (c := c) trivial hp : Reaches _ (fun _ ↦ True) _ _).atRest hp
      have hv' : AtRest (v.obey c).1.playback :=
        (reaches_obey (c := c) trivial hv : Reaches _ (fun _ ↦ True) _ _).atRest hv
      obtain ⟨M, hle', hsettled⟩ := hobeyed.playback.settle (settle_queue_of_atRest hp')
        (settle_queue_of_atRest hv')
      exact ⟨M, hle.trans hle', hobeyed.withPlayback hle' hsettled, hresponse⟩

theorem trace {cs : List (Bool × Command)} (h : p.Mirrors N v) (hp : AtRest p.playback)
    (hv : AtRest v.playback) (hcs : ∀ c ∈ cs, c.2.showsForks = false) : p.trace cs = v.trace cs := by
  induction cs generalizing N p v with
  | nil => rfl
  | cons c cs ih =>
      obtain ⟨M, -, hstep, hresponse⟩ := h.step hp hv c.1 (hcs c List.mem_cons_self)
      have hp' : AtRest (p.step c.1 c.2).1.playback :=
        (reaches_step c.1 trivial hp : Reaches _ (fun _ ↦ True) _ _).atRest hp
      have hv' : AtRest (v.step c.1 c.2).1.playback :=
        (reaches_step c.1 trivial hv : Reaches _ (fun _ ↦ True) _ _).atRest hv
      unfold Player.trace
      rw [hresponse, hstep.report, ih hstep hp' hv' fun x hx ↦ hcs x (List.mem_cons_of_mem _ hx)]

end Mirrors

theorem mirrors_new {actions : List Action} (htapless : ∀ a ∈ actions, a.forksTapless = true)
    (config : Config) (host : Host) (voices : VoiceCache) :
    Mirrors ⟨[(root, root)], [], [], [], []⟩ (new actions config host voices)
      (new (actions.map Action.solo) config host voices) where
  playback :=
    { session :=
        { config := rfl
          host := rfl
          now := rfl
          front := rfl
          backlog := rfl
          autoPlay := rfl
          fastForward := rfl
          skips := rfl
          cancelled := rfl
          voices := rfl
          calls := rfl
          voiceEnd := rfl
          scopes := .pair ⟨List.mem_cons_self, rfl, rfl⟩ .nil
          taps := .nil
          ids := ⟨List.pairwise_singleton _ _, fun _ hx ↦
            List.mem_singleton.mp hx ▸ ⟨Nat.zero_lt_one, Nat.zero_lt_one⟩⟩
          timers := ⟨.nil, fun _ hx ↦ (List.not_mem_nil hx).elim⟩
          strays := fun _ hb ↦ (List.not_mem_nil hb).elim }
      status := rfl
      tasks := .nil
      queue := .nil
      spawned := ⟨.nil, fun _ hx ↦ (List.not_mem_nil hx).elim⟩
      strays := fun _ hb ↦ (List.not_mem_nil hb).elim }
  root := List.mem_cons_self
  actions := rfl
  tapless := htapless
  dropped := rfl

/-- Forks without lines and titles cannot disturb the main timeline: whatever
commands are given, the responses and reports are those of the story with empty
forks. -/
theorem forks_undisturbing {actions : List Action} (config : Config) (host : Host)
    (voices : VoiceCache) {cs : List (Bool × Command)}
    (htapless : ∀ a ∈ actions, a.forksTapless = true) (hcs : ∀ c ∈ cs, c.2.showsForks = false) :
    (new actions config host voices).trace cs =
      (new (actions.map Action.hollow) config host voices).trace cs := by
  have hhollow : ∀ a ∈ actions.map Action.hollow, a.forksTapless = true := by
    intro a ha
    obtain ⟨old, hold, rfl⟩ := List.mem_map.mp ha
    exact old.forksTapless_hollow (htapless old hold)
  have hsolo : (actions.map Action.hollow).map Action.solo = actions.map Action.solo := by
    rw [List.map_map]
    exact List.map_congr_left fun a _ ↦ a.solo_hollow
  have hmirrors := mirrors_new hhollow config host voices
  rw [hsolo] at hmirrors
  calc (new actions config host voices).trace cs
      = (new (actions.map Action.solo) config host voices).trace cs :=
        (mirrors_new htapless config host voices).trace (new_atRest _ _ _ _) (new_atRest _ _ _ _) hcs
    _ = (new (actions.map Action.hollow) config host voices).trace cs :=
        (hmirrors.trace (new_atRest _ _ _ _) (new_atRest _ _ _ _) hcs).symm

/-- Behind a title and a line a ship comes into sight, shaking the screen. -/
def arrival : List Action :=
  [.fork [.cue (.scenery .background "harbour"),
      .block [.cue (.shake .screen (.ofNat 1)), .cue (.delay (.ofNat 2))], .cue .waitForTap],
    .cue (.telop "Morning"), .cue (.talk ⟨"There it is.", [1], ["Ann"], none⟩)]

def landing : List (Bool × Command) :=
  [(true, .start), (true, .advance 500), (true, .next), (true, .fastForward true),
    (true, .advance 3000), (true, .stop)]

theorem arrival_undisturbing :
    let seen := fun story ↦
      ((new story .standard plainHost .empty).follow landing).playback.session.stage.background
    (∀ a ∈ arrival, a.forksTapless = true) ∧ (∀ c ∈ landing, c.2.showsForks = false) ∧
      seen arrival = some "harbour" ∧ seen (arrival.map Action.hollow) = none ∧
      (new arrival .standard plainHost .empty).trace landing =
        (new (arrival.map Action.hollow) .standard plainHost .empty).trace landing :=
  ⟨by decide, by decide, by decide +kernel, by decide +kernel,
    forks_undisturbing .standard plainHost .empty (by decide) (by decide)⟩

end Player

end Storyline
