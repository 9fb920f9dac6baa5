import Storyline.Proofs.Playback.Custody
import Storyline.Proofs.Player.DocumentOrder

/-!
# A player tends its tickets

Throughout every run of a player, whatever it is asked, tickets are handled by single
operations, and its scopes count those that are out and those that have been lost.
-/

namespace Storyline

open Relation
open Session (Handling Solvent)

namespace Player

open Playback Machine

variable {actions : List Action} {config : Config} {host : Host} {voices : VoiceCache}
  {p q : Playback} {m n : Machine}

theorem solvent_new (actions : List Action) (config : Config) (host : Host) (voices : VoiceCache) :
    Solvent ((new actions config host voices).playback.session,
      (new actions config host voices).playback.tickets) := by
  have hkept : Kept config 0 (new actions config host voices).playback := kept_new actions host voices
  exact ⟨[], (hkept.ledger (Nat.le_refl 0)).books.reckons⟩

theorem tickets_timeline (actions : List Action) : (timeline actions).flatMap Errand.tickets = [] := by
  rw [timeline, List.flatMap_append, tickets_walk]
  rfl

theorem tickets_shutdown (p : Playback) : p.shutdown.tickets = p.tickets := by
  cases hc : p.session.cancelled with
  | true => rw [shutdown, if_pos hc]
  | false =>
    have htouched : p.Stirs (p.touch p.session.cancel p.session.endSignals) :=
      .of_touch Session.carries_cancel
    rw [← htouched.tickets, shutdown_eq hc, abortOwned, wakeAll_eq, tickets, List.flatMap_map]
    rfl

theorem handles_shutdown (p : Playback) : Handles False [] [] p p.shutdown := by
  cases hc : p.session.cancelled with
  | true =>
    rw [shutdown, if_pos hc]
    exact .refl [] p
  | false =>
    obtain ⟨calls, voiceEnd, hcancel⟩ := p.session.cancel_eq
    have hreset : ReflTransGen (Handling False) (p.session, [] ++ p.tickets)
        (p.session.resetScopes, [] ++ p.tickets) := .single .reset
    rw [Handles, tickets_shutdown, shutdown_session hc, hcancel]
    exact hreset.tail (.apart rfl (Nat.le_refl _))

/-- Between turns no ticket is lost. -/
theorem Acts.handles (ha : Acts actions p q) : Handles False [] [] p q := by
  cases ha with
  | start hs =>
    have hplaying : Handles False [] [] p ({ p with status := .playing } : Playback) :=
      .of_perm rfl (Nat.le_refl _) (.refl _)
    exact (hplaying.trans (handles_spawn_nil rfl none)).trans
      (handles_spawn_nil (tickets_timeline actions) (some root))
  | next =>
    refine .of_stirs p.stirs_tap ?_
    rw [tap_eq_touch, touch_session]
    rfl
  | autoPlay on =>
    refine .of_stirs (p.stirs_setAutoPlay on) ?_
    rw [setAutoPlay_eq_touch, touch_session, Session.setAutoPlay]
    split <;> rfl
  | fastForward on =>
    refine .of_stirs (p.stirs_setFastForward on) ?_
    rw [setFastForward_eq_touch, touch_session, Session.setFastForward]
    split <;> rfl
  | cacheVoice path content => exact .of_perm rfl (Nat.le_refl _) (.refl _)
  | stop =>
    refine (handles_shutdown p).trans ?_
    rw [stopped]
    split
    · exact .refl [] _
    · exact .of_perm rfl (Nat.le_refl _) (.refl _)

/-- The main timeline has its place in the root. -/
theorem sits_timeline {s : Session} (h : root ∈ s.scopes.map Scope.id) (actions : List Action) :
    ∀ e ∈ timeline actions, e.Sits s := by
  intro e he
  rcases List.mem_append.mp he with he | he
  · exact sits_walk h true actions e he
  · rw [List.mem_singleton.mp he]
    rfl

/-- A machine that keeps account of its tickets. -/
structure Tended (actions : List Action) (m : Machine) : Prop where
  followed : Followed actions m
  seated : Seated m
  rooted : root ∈ m.playback.session.scopes.map Scope.id
  solvent : Solvent (m.playback.session, m.playback.tickets)

theorem Acts.seated (ha : Acts actions p q) (hp : AtRest p) (h : Seated (resting p))
    (hroot : root ∈ p.session.scopes.map Scope.id) : Seated (resting q) := by
  have hscopes := ha.handles.scopes
  refine ⟨?_, ?_, fun _ hjob ↦ by cases hjob⟩
  · rcases ha.leaves with hleaves | ⟨rfl, -⟩
    · intro t ht e he
      obtain ⟨old, hold, -, hagenda, -⟩ := hleaves.tasks t ht
      exact (h.tasks old hold e (hagenda ▸ he)).carry hscopes
    · have hsession : (resting (launch actions p)).playback.session = p.session :=
        launch_session actions p
      rw [hsession]
      exact sits_spawn (sits_spawn h.tasks (by simp [Errand.Sits])) (sits_timeline hroot actions)
  · rw [show (resting q).playback.turn = .none from (ha.atRest hp).idle rfl]
    simp [Turn.none]

/-- Whatever a machine does, tickets are handled by single operations. -/
theorem Tended.handles (h : Tended actions m) (hs : Machine.Sound m)
    (hstep : Machine.Step (Acts actions) m n) :
    Handles m.Loses [] [] m.playback n.playback := by
  cases hstep with
  | beat hb =>
    exact hb.handles hs h.followed.cast h.seated id fun hrun hc ↦
      absurd (h.followed.live.ended hc).1 hrun
  | act ha => exact ha.handles.mono False.elim
  | @move p time =>
    obtain ⟨queue, hmoved⟩ := moveTo_eq time p
    rw [hmoved]
    exact .of_perm rfl (Nat.le_refl _) (.refl _)
  | rest => exact .of_perm rfl (Nat.le_refl _) (.refl _)

theorem Tended.step (h : Tended actions m) (hs : Machine.Sound m)
    (hstep : Machine.Step (Acts actions) m n) :
    Tended actions n := by
  have hhandles := h.handles hs hstep
  refine ⟨followed_step (fun _ _ ↦ id) hs h.followed hstep, ?_, hhandles.scopes h.rooted,
    Session.solvent_of_handling hhandles h.solvent⟩
  cases hstep with
  | beat hb => exact hb.seated hs h.seated
  | act ha => exact ha.seated hs.orderly h.seated h.rooted
  | @move p time =>
    obtain ⟨queue, hmoved⟩ := moveTo_eq time p
    rw [hmoved]
    exact ⟨h.seated.tasks, h.seated.agenda, h.seated.jobs⟩
  | rest => exact ⟨h.seated.tasks, h.seated.agenda, h.seated.jobs⟩

theorem tended_new (actions : List Action) (config : Config) (host : Host) (voices : VoiceCache) :
    Tended actions (resting (new actions config host voices).playback) where
  followed := followed_new actions config host voices
  seated := ⟨by simp [resting, new, Playback.new], by simp [resting, new, Playback.new, Turn.none],
    by simp [resting]⟩
  rooted := by simp [resting, new, Playback.new, Session.openScope, Session.new, Scope.fresh, root]
  solvent := solvent_new actions config host voices

theorem tended_runs
    (hr : Runs (Acts actions) (resting (new actions config host voices).playback) m) :
    Tended actions m ∧ Machine.Sound m :=
  hr.induct (fun _ _ ha hp ↦ ha.atRest hp) (sound_resting (new_atRest actions config host voices))
    (tended_new actions config host voices) fun _ _ hs h hstep ↦ h.step hs hstep

end Player

end Storyline
