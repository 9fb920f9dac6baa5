import Storyline.Proofs.Bench.Covers
import Storyline.Proofs.Playback.Billing
import Storyline.Proofs.Player.DocumentOrder

/-!
# The title of a player

Until a player is stopped, the title on screen is the one that has been taken up
last, as long as it waits and no other one of its text comes to its end that was
waiting before.
-/

namespace Storyline

namespace Machine

open Playback

variable {p q : Playback}

theorem Untold.trans {r : Playback} (h : Untold p q) (h' : Untold q r) : Untold p r where
  spares := h.spares.trans h'.spares
  reparks := h.reparks.trans h'.reparks
  outcomes := List.Subset.trans h.outcomes h'.outcomes
  outOfTime := h'.outOfTime ∘ h.outOfTime

theorem untold_of_stirs (h : p.Stirs q) (htitle : q.title = p.title) : Untold p q where
  spares := .of_stirs h htitle
  reparks := .of_stirs h
  outcomes := h.outcomes ▸ List.Subset.refl _
  outOfTime := by
    unfold Session.OutOfTime
    rw [h.config, h.now]
    exact id

theorem untold_spawn (scope : Option Nat) {agenda : List Errand} (h : ∀ e ∈ agenda, e.Sparing) :
    Untold p (p.spawn scope agenda) where
  spares := spares_spawn scope h
  reparks := reparks_spawn scope agenda
  outcomes := by
    unfold spawn
    split <;> exact List.Subset.refl _
  outOfTime := by
    rw [spawn_session]
    exact id

end Machine

namespace Player

open Playback Machine

/-- What is asked of a player that is not stopped. -/
def Ongoing (actions : List Action) (p q : Playback) : Prop :=
  Acts actions p q ∧ q.session.cancelled = false

variable {actions : List Action} {config : Config} {host : Host} {voices : VoiceCache}
  {p q : Playback} {m : Machine}

theorem timeline_sparing (actions : List Action) : ∀ e ∈ timeline actions, e.Sparing := by
  intro e he
  rcases List.mem_append.mp he with he | he
  · exact walk_sparing root true actions e he
  · rw [List.mem_singleton.mp he]
    exact fun _ ↦ rfl

theorem untold_launch (actions : List Action) (p : Playback) : Untold p (launch actions p) := by
  have hplaying : Untold p { p with status := .playing } :=
    ⟨⟨rfl, rfl, fun x hx ↦ .inr ⟨x, hx, rfl, rfl⟩, [], (List.append_nil _).symm, by simp⟩,
      .of_parks (Nat.le_refl _) rfl, List.Subset.refl _, id⟩
  exact (hplaying.trans (untold_spawn none (by simp [Errand.Sparing]))).trans
    (untold_spawn (some root) (timeline_sparing actions))

theorem cancelled_stopped (p : Playback) : (stopped p).session.cancelled = true := by
  have hshutdown : p.shutdown.session.cancelled = true := by
    cases hc : p.session.cancelled with
    | true =>
        unfold shutdown
        rw [if_pos hc]
        exact hc
    | false =>
        rw [shutdown_session hc]
        exact p.session.closed_cancel.cancelled
  unfold stopped
  dsimp only
  split <;> exact hshutdown

theorem Ongoing.meek (h : Ongoing actions p q) (hp : AtRest p) : Meek p q ∧ Untold p q := by
  obtain ⟨hacts, hgoes⟩ := h
  have hrequest : ∀ {b' : Bench} {r : Bench.Request} {response : Bench.Response},
      r.isMeek = true → (⟨p, [], [], [], []⟩ : Bench).handle r = .ok (b', response) →
      Meek p b'.playback :=
    fun hr hh ↦ Bench.Acts.meek (Bench.Acts.request (b := ⟨p, [], [], [], []⟩) hr hh) hp
  cases hacts with
  | start => exact ⟨Bench.Acts.meek (.launch actions) hp, untold_launch actions p⟩
  | next =>
      refine ⟨hrequest (r := .next) rfl rfl, untold_of_stirs p.stirs_tap ?_⟩
      rw [tap_eq_touch]
      simp [Playback.title, Session.takeTap]
  | autoPlay on =>
      refine ⟨hrequest (r := .autoPlay on) rfl rfl, untold_of_stirs (p.stirs_setAutoPlay on) ?_⟩
      rw [setAutoPlay_eq_touch]
      simp only [Playback.title, touch_session, Session.setAutoPlay]
      split <;> rfl
  | fastForward on =>
      refine ⟨hrequest (r := .fastForward on) rfl rfl, untold_of_stirs (p.stirs_setFastForward on) ?_⟩
      rw [setFastForward_eq_touch]
      simp only [Playback.title, touch_session, Session.setFastForward]
      split <;> rfl
  | cacheVoice path content =>
      exact ⟨Bench.Acts.meek (.cacheVoice path content) hp,
        untold_of_stirs (.of_update (Session.carries_voices _)) rfl⟩
  | stop =>
      rw [cancelled_stopped] at hgoes
      cases hgoes

theorem running_reaches (hrest : AtRest p) (hp : p.session.cancelled = false)
    (h : Reaches actions (fun c ↦ c.continues = true) p q) : q.session.cancelled = false :=
  ((Bench.runs_player (fun _ hc ↦ hc) h).induct
    (I := fun k ↦ k.playback.session.cancelled = false) (fun _ _ ha hp ↦ (ha.meek hp).rest)
    (sound_resting hrest) hp
    fun _ _ hk hI hstep ↦ hstep.running (fun _ _ ha hp ↦ ha.meek hp) hk hI).1

/-- A run of a player that goes on. -/
theorem runs_ongoing (hrest : AtRest p) (hp : p.session.cancelled = false)
    (h : Reaches actions (fun c ↦ c.continues = true) p q) :
    Runs (Ongoing actions) (resting p) (resting q) := by
  induction h with
  | refl => exact .refl
  | @step q r h hs ih =>
      have hr : r.session.cancelled = false := running_reaches hrest hp (h.step hs)
      refine ih.trans ?_
      cases hs with
      | turn hq => exact runs_runTask hq
      | move hq hnext => exact .single (.move hq hnext)
      | rest hq hle hnext => exact .single (.rest hq hle hnext)
      | start _ _ hs => exact .single (.act ⟨.start hs, hr⟩)
      | next => exact .single (.act ⟨.next, hr⟩)
      | autoPlay on => exact .single (.act ⟨.autoPlay on, hr⟩)
      | fastForward on => exact .single (.act ⟨.fastForward on, hr⟩)
      | cacheVoice path content => exact .single (.act ⟨.cacheVoice path content, hr⟩)
      | stop hc => rcases hc with hc | hc <;> cases hc

theorem titled_new (actions : List Action) (config : Config) (host : Host) (voices : VoiceCache) :
    Titled (resting (new actions config host voices).playback) where
  cast := ⟨by simp [resting, new, Playback.new], by simp [resting]⟩
  running := rfl
  whole := by simp [resting, new, Playback.new]
  distinct := fun id ↦ Nat.zero_le _
  errands := by simp [resting, new, Playback.new]
  agenda := by simp [resting, new, Playback.new, Turn.none]
  waiting := by simp [resting, new, Playback.new]
  turning := by simp [resting, new, Playback.new, Turn.none]
  blank := fun _ ↦ rfl

/-- Until a player is stopped there is no title on screen before one has been taken
up, and otherwise there is one that has been taken up last.  It is on screen, or
there is none and one of its mates has come to its end: the title itself, or one of
the same text that was waiting when it was taken up.  Once a mate has come to its
end, unless it fell with its task because the clock could not show when to look at
a voice, there is no title until the next one. -/
theorem title_is_waiting (hr : Runs (Ongoing actions) (resting (new actions config host voices).playback) m) :
    (m.titles = [] ∧ m.title = none ∨ ∃ l n task text, Latest (Ongoing actions)
      (resting (new actions config host voices).playback) l n m task text) ∧
    ∀ l n task text, Latest (Ongoing actions)
        (resting (new actions config host voices).playback) l n m task text →
      ((m.title = some text ∨
          m.title = none ∧ ∃ w, l.Mates task text w ∧ ¬Billed w m) ∧
        ∀ w k, l.Mates task text w → Runs (Ongoing actions) n k → ¬Billed w k →
          ¬Fallen w.task k → Runs (Ongoing actions) k m → m.title = none) := by
  have hacts : ∀ p q, Ongoing actions p q → AtRest p → Meek p q ∧ Untold p q :=
    fun _ _ h hp ↦ h.meek hp
  have hs := sound_resting (new_atRest actions config host voices)
  have ht := titled_new actions config host voices
  refine ⟨(hr.latest hacts hs ht).imp_left fun hnone ↦ ⟨hnone, ?_⟩, fun l n task text hlatest ↦ ⟨?_, ?_⟩⟩
  · exact (hr.titled hacts hs ht).1.blank hnone
  · exact (hlatest.shows hacts hs ht).cases
  · exact fun w k hmate hk hended hfell hm ↦ hlatest.untitled hacts hs ht hmate hk hended hfell hm

/-- A title that is taken up and waits. -/
def curtain : List Action := [.cue (.telop "Act I")]

theorem curtain_is_waiting :
    let p := ((new curtain .standard plainHost .empty).follow [(true, .start)]).playback
    ∃ l n task text, Latest (Ongoing curtain)
      (resting (new curtain .standard plainHost .empty).playback) l n (resting p) task text ∧
        ((resting p).title = some text ∨
          (resting p).title = none ∧ ∃ w, l.Mates task text w ∧ ¬Billed w (resting p)) := by
  intro p
  have hrest := new_atRest curtain .standard plainHost .empty
  have hruns : Runs (Ongoing curtain) (resting (new curtain .standard plainHost .empty).playback)
      (resting p) := runs_ongoing hrest rfl (reaches_follow (by decide) hrest)
  have htitles : p.titles = ["Act I"] := by decide +kernel
  obtain ⟨hlast, hshown⟩ := title_is_waiting hruns
  obtain ⟨l, n, task, text, hlatest⟩ := hlast.resolve_left fun h ↦ by
    cases (show p.titles = [] from h.1).symm.trans htitles
  exact ⟨l, n, task, text, hlatest, (hshown l n task text hlatest).1⟩

/-! ## Two titles of one text -/

/-- A title in a fork, and later the same title on the main timeline. -/
def echoes : List Action :=
  [.fork [.cue (.telop "Echo")], .cue (.delay (.ofNat 1)), .cue (.telop "Echo")]

/-- The title that an errand takes up, with its scope and step. -/
def titleOf : Errand → Option (String × Nat × Option Nat)
  | .perform (.cue (.telop text)) scope step => some (text, scope, step)
  | _ => none

theorem eq_perform_of_titleOf {errand : Errand} {text : String} {scope : Nat} {step : Option Nat}
    (h : titleOf errand = some (text, scope, step)) :
    errand = .perform (.cue (.telop text)) scope step := by
  unfold titleOf at h
  split at h
  · cases h
    rfl
  · cases h

/-- While a title waits that has been taken up last, another one of its text takes
it away. -/
theorem echoes_go_dark :
    ¬∀ (actions : List Action) (config : Config) (host : Host) (voices : VoiceCache)
      (l n m : Machine) (task : Task) (text : String),
        Latest (Ongoing actions) (resting (new actions config host voices).playback) l n m task text →
        m.running = none → m.playback.queue = [] →
        Billed ⟨task.id, l.playback.session.serial, text⟩ m → m.title = some text := by
  intro h
  let p := ((new echoes .standard plainHost .empty).follow
    [(true, .autoPlay true), (true, .start), (true, .advance 999)]).playback
  let q := p.moveTo 1000
  -- the turn in which the main timeline takes up its title, and the time until the other one ends
  let looked := fun (t : Task) ↦
    t.pauses.foldl (fun p pause ↦ p.revisit pause) (({ q with queue := [] } : Playback).begun t)
  let walked := fun (t : Task) ↦ (looked t).updateTurn fun u ↦ { u with agenda := u.agenda.tail }
  let shown := fun (t : Task) ↦ ((walked t).note (.cue (.telop "Echo")) 0 (some 2)).performCue
    (.telop "Echo") 0 [0] (some 2)
  let later := fun (t : Task) ↦ ((shown t).endTurn t).advance 1500
  have hmoves : p.queue = [] ∧ p.nextDue = some 1000 ∧ q.queue = [1] := by decide +kernel
  have hfacts : (q.task? 1).map (fun t ↦ decide (t.aborted = false ∧ (looked t).turn.isFree = true ∧
      (looked t).turn.agenda.head?.bind titleOf = some ("Echo", 0, some 2) ∧
      (walked t).isOver = false ∧ (shown t).turn.isFree = false ∧ (later t).queue = [] ∧
      (later t).title = none ∧ (later t).titles = (shown t).titles ∧
      ∃ u ∈ (later t).tasks, u.id = t.id ∧ ∃ x ∈ u.pauses,
        x.park? = some (walked t).session.serial ∧ x.ending.clears "Echo" = true)) = some true := by
    decide +kernel
  have hrest := new_atRest echoes .standard plainHost .empty
  have hbefore : Runs (Ongoing echoes) (resting (new echoes .standard plainHost .empty).playback)
      (resting p) := runs_ongoing hrest rfl (reaches_follow (by decide) hrest)
  clear_value p
  obtain ⟨t, ht, hfacts⟩ := Option.map_eq_some_iff.mp hfacts
  obtain ⟨hwhole, hfree, hfirst, hgoes, hheld, hidle, hnone, htitles, u, hu, hid, x, hx, hpark, hclears⟩ :=
    of_decide_eq_true hfacts
  obtain ⟨errand, hhead, herrand⟩ := Option.bind_eq_some_iff.mp hfirst
  obtain ⟨rest, hagenda⟩ := List.head?_eq_some_iff.mp hhead
  rw [eq_perform_of_titleOf herrand] at hagenda
  let l : Machine := ⟨walked t, some t, [.perform (.cue (.telop "Echo")) 0 [0] (some 2)]⟩
  have htail : walked t = (looked t).updateTurn fun u ↦ { u with agenda := rest } := by
    simp only [walked, updateTurn, hagenda, List.tail_cons]
  have hl : Runs (Ongoing echoes) (resting (new echoes .standard plainHost .empty).playback) l := by
    refine hbefore.trans ((Runs.single (.move hmoves.1 hmoves.2.1)).trans
      ((Runs.beat (.take hmoves.2.2 ht hwhole)).trans ((runs_revisitAll t.pauses _).trans ?_)))
    change Runs _ _ ⟨walked t, _, _⟩
    rw [htail]
    exact .beat (.walk hfree hagenda)
  have hn : Beat l ⟨shown t, some t, []⟩ := .cue hgoes
  have hended : Runs (Ongoing echoes) ⟨shown t, some t, []⟩ (resting ((shown t).endTurn t)) :=
    .beat (.finish (.inl hheld))
  have hacts : ∀ p q, Ongoing echoes p q → AtRest p → Meek p q ∧ Untold p q :=
    fun _ _ h hp ↦ h.meek hp
  have hsound := (((hl.trans (.beat hn)).trans hended).titled hacts (sound_resting hrest)
    (titled_new echoes .standard plainHost .empty)).2
  have hafter : Runs (Ongoing echoes) ⟨shown t, some t, []⟩ (resting (later t)) :=
    hended.trans (runs_passes (reaches_advance 1500 hsound.orderly).1)
  have hlatest : Latest (Ongoing echoes) _ l _ (resting (later t)) t "Echo" :=
    ⟨hl, if_neg (fun hover ↦ by cases hgoes.symm.trans hover), rfl, hn, hafter, htitles⟩
  have hbilled : Billed ⟨t.id, l.playback.session.serial, "Echo"⟩ (resting (later t)) :=
    .inl ⟨u, hu, hid, x, hx, hpark, Ending.exists_of_clears hclears⟩
  have hon := h _ _ _ _ _ _ _ _ _ hlatest rfl hidle hbilled
  cases hon.symm.trans (show (resting (later t)).title = none from hnone)

end Player

end Storyline
