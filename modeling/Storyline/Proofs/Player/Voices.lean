import Storyline.Proofs.Bench.Steadiness
import Storyline.Proofs.Playback.Caches
import Storyline.Proofs.Playback.Sounding
import Storyline.Proofs.Player.Unfailing
import Storyline.Proofs.Voice.Prefetching

/-!
# Stories whose voices have been fetched

A player looks up the voices of its story only.  So if all of them have been fetched, every
line with a voice is heard and stays for its voice, whatever the player is asked, and no
other voice in the cache makes a difference.
-/

namespace Storyline

namespace Action

variable {story : List Action} {action : Action} {place : Place} {path : String}

/-- What stands in a story names voices of the story only. -/
theorem voicePaths_at? (h : at? story place = some action) (hpath : path ∈ action.voicePaths) :
    path ∈ story.flatMap voicePaths := by
  have hparts : ∀ home, path ∈ (partsAt story home).flatMap voicePaths →
      path ∈ story.flatMap voicePaths := by
    intro home
    induction home with
    | nil => exact id
    | cons n home ih =>
        unfold partsAt
        split
        next outer houter =>
          refine fun hin ↦ ih (List.mem_flatMap.mpr ⟨outer, List.mem_of_getElem? houter, ?_⟩)
          rw [voicePaths_eq]
          exact List.mem_append_right _ hin
        next => simp
  cases place with
  | nil => cases h
  | cons n home => exact hparts home (List.mem_flatMap.mpr ⟨action, List.mem_of_getElem? h, hpath⟩)

end Action

namespace Prefetch

variable {fetch : Fetcher} {cache : VoiceCache} {actions : List Action} {p : Prefetch} {path : String}

/-- Without a new failure every voice of the story is in the cache. -/
theorem Exact.complete (h : Exact fetch cache actions p) (hnone : p.cache.errors = cache.errors)
    (hpath : path ∈ actions.flatMap Action.voicePaths) : ∃ blob, p.cache.get? path = some blob := by
  obtain ⟨new, hnew, hperm, -⟩ := h.errors
  obtain rfl : new = [] := by simpa [hnone] using hnew
  cases hold : cache.get? path with
  | some blob =>
      refine ⟨blob, (h.kept path fun hmem ↦ ?_).trans hold⟩
      rw [((h.whole path).mp hmem).2] at hold
      cases hold
  | none =>
      obtain ⟨f, hf, rfl⟩ := List.mem_map.mp ((h.whole path).mpr ⟨hpath, hold⟩)
      have hgood : failure? f = none := List.filterMap_eq_nil_iff.mp hperm.nil_eq.symm f hf
      cases hresult : f.result with
      | ok blob => exact ⟨blob, by rw [h.fetched f hf, hresult]; rfl⟩
      | error e => simp [failure?, hresult] at hgood

end Prefetch

namespace Machine

open Playback

variable {acts : Playback → Playback → Prop} {start m : Machine} {d : Dispatch}

/-- What has been taken up was taken up by a beat, on the way from the start to a machine. -/
structure TakenUp (acts : Playback → Playback → Prop) (start m : Machine) (d : Dispatch) (p : Playback)
    (n : Machine) : Prop where
  goes : p.isOver = false
  time : d.time = p.session.now
  beat : ∃ task scopes jobs,
    Runs acts start ⟨p, some task, .perform d.action d.scope scopes d.step :: jobs⟩ ∧
      Beat ⟨p, some task, .perform d.action d.scope scopes d.step :: jobs⟩ n
  later : Runs acts n m

theorem exists_takenUp (hacts : ∀ p q, acts p q → q.dispatches = p.dispatches)
    (hr : Runs acts start m) (hnone : start.playback.dispatches = []) (hd : d ∈ m.playback.dispatches) :
    ∃ p n, TakenUp acts start m d p n := by
  induction hr with
  | refl => simp [hnone] at hd
  | @step k l hr hs ih =>
      have hold : d ∈ k.playback.dispatches → ∃ p n, TakenUp acts start l d p n := fun hd ↦ by
        obtain ⟨p, n, h⟩ := ih hd
        exact ⟨p, n, { h with later := h.later.step hs }⟩
      cases hs with
      | beat hb =>
          rcases hb.takesUp with ⟨hsame, -⟩ | ⟨e, scopes, jobs, hjobs, hgoes, htime, hmore, -⟩
          · exact hold (hsame ▸ hd)
          · rcases List.mem_append.mp (hmore ▸ hd) with hd | hd
            · exact hold hd
            · obtain rfl := List.mem_singleton.mp hd
              obtain ⟨p, running, _⟩ := k
              subst hjobs
              cases running with
              | none => cases hb
              | some task => exact ⟨p, l, hgoes, htime, ⟨task, scopes, jobs, hr, hb⟩, .refl⟩
      | act ha => exact hold (hacts _ _ ha ▸ hd)
      | @move p time =>
          obtain ⟨queue, hmoved⟩ := moveTo_eq time p
          rw [hmoved] at hd
          exact hold hd
      | rest => exact hold hd

end Machine

namespace Player

open Playback Machine

variable {actions : List Action} {config : Config} {host : Host} {voices other : VoiceCache}
  {p q : Playback} {m n : Machine} {park : Nat} {kind : Dwell}

/-- What is asked of a player that leaves the voices in the cache as they are. -/
def Steers (actions : List Action) (p q : Playback) : Prop :=
  Acts actions p q ∧ q.session.voices = p.session.voices

theorem runs_acts (hr : Runs (Steers actions) m n) : Runs (Acts actions) m n := by
  induction hr with
  | refl => exact .refl
  | step _ hs ih =>
      refine ih.step ?_
      cases hs with
      | beat hb => exact .beat hb
      | act ha => exact .act ha.1
      | move hq hnext => exact .move hq hnext
      | rest hq hle hnext => exact .rest hq hle hnext

theorem Acts.dispatches (h : Acts actions p q) : q.dispatches = p.dispatches := by
  rcases h.leaves with hleaves | ⟨rfl, -⟩
  · exact hleaves.dispatches
  · exact (spawn_dispatches _ _).trans (spawn_dispatches _ _)

/-! ## Lines that have been taken up -/

/-- What is asked of a player that goes on afterwards went on before. -/
theorem Acts.doing (h : Acts actions p q) (hgoes : q.session.cancelled = false) :
    p.session.cancelled = false ∧ Bench.Doing p q := by
  have hrequest : ∀ {b' : Bench} {r : Bench.Request} {response : Bench.Response}, r.isMeek = true →
      (⟨p, [], [], [], []⟩ : Bench).handle r = .ok (b', response) → Bench.Doing p b'.playback :=
    fun hr hh ↦ .act (.request hr hh)
  cases h with
  | start => exact ⟨launch_session actions p ▸ hgoes, .act (.launch actions)⟩
  | next =>
      rw [tap_eq_touch, touch_session] at hgoes
      exact ⟨hgoes, hrequest (r := .next) rfl rfl⟩
  | autoPlay on =>
      refine ⟨?_, hrequest (r := .autoPlay on) rfl rfl⟩
      rw [setAutoPlay_eq_touch, touch_session, Session.setAutoPlay] at hgoes
      split at hgoes <;> exact hgoes
  | fastForward on =>
      refine ⟨?_, hrequest (r := .fastForward on) rfl rfl⟩
      rw [setFastForward_eq_touch, touch_session, Session.setFastForward] at hgoes
      split at hgoes <;> exact hgoes
  | cacheVoice path content => exact ⟨hgoes, .act (.cacheVoice path content)⟩
  | stop => cases (cancelled_stopped p).symm.trans hgoes

/-- As long as a player goes on, its run is steady. -/
theorem steady_runs (hr : Runs (Acts actions) (resting (new actions config host voices).playback) m)
    (hgoes : m.playback.session.cancelled = false) : Bench.Steady m := by
  induction hr with
  | refl =>
      exact (Bench.steady_new config host voices).runs (Bench.runs_doing (Bench.runs_new actions _ _ _))
  | step _ hs ih =>
      cases hs with
      | beat hb => exact (ih ((Session.cancelled_eq hb.settings).symm.trans hgoes)).step (.beat hb)
      | act ha =>
          obtain ⟨hgoes, hdoing⟩ := ha.doing hgoes
          exact (ih hgoes).step (.act hdoing)
      | @move p time hq hnext =>
          have hsame : (p.moveTo time).session.cancelled = p.session.cancelled := by
            obtain ⟨queue, hmoved⟩ := moveTo_eq time p
            rw [hmoved]
          exact (ih (hsame.symm.trans hgoes)).step (.move hq hnext)
      | rest hq hle hnext => exact (ih hgoes).step (.rest hq hle hnext)

/-- What is asked of a player adds tasks that have not begun to wait, or none. -/
theorem Acts.awaits {P : Wait → Prop} (h : Acts actions p q) (hp : AtRest p)
    (hawaits : (resting p).Awaits P) : (resting q).Awaits P := by
  refine .resting (h.atRest hp) fun t ht x hx ↦ ?_
  rcases h.leaves with hleaves | ⟨rfl, -⟩
  · obtain ⟨old, hold, -, -, hpauses⟩ := hleaves.tasks t ht
    exact hawaits.tasks old hold x (hpauses ▸ hx)
  · have hext : Extends true p (launch actions p) := extends_launch actions p
    obtain ⟨new, hnew, hadded⟩ := hext.tasks
    rcases List.mem_append.mp (hnew ▸ ht) with ht | ht
    · exact hawaits.tasks t ht x hx
    · rw [(hadded t ht).pauses] at hx
      cases hx

theorem Acts.serial (h : Acts actions p q) : p.session.serial ≤ q.session.serial := by
  rcases h.leaves with hleaves | ⟨rfl, -⟩
  · exact hleaves.serial
  · rw [launch_session]

/-- However a player is run, also to its end, what is parked stays in the way in which it
has been parked. -/
theorem dwellsAs_runs (hr : Runs (Acts actions) n m) (hs : Machine.Sound n) (hf : Followed actions n)
    (hpast : park < n.playback.session.serial) (hawaits : n.Awaits (Wait.DwellsAs park kind)) :
    m.Awaits (Wait.DwellsAs park kind) := by
  refine (hr.induct (I := fun k ↦ Followed actions k ∧ park < k.playback.session.serial ∧
    k.Awaits (Wait.DwellsAs park kind)) (fun _ _ ha hp ↦ ha.atRest hp) hs ⟨hf, hpast, hawaits⟩
    fun k l hk ⟨hf, hpast, hawaits⟩ hstep ↦ ?_).1.2.2
  refine ⟨followed_step (fun _ _ h ↦ h) hk hf hstep, ?_⟩
  cases hstep with
  | beat hb =>
      exact ⟨Nat.lt_of_lt_of_le hpast (hb.onward hk hf.cast).serial,
        hb.awaits (abides_dwellsAs hpast) hk hawaits⟩
  | act ha => exact ⟨Nat.lt_of_lt_of_le hpast ha.serial, ha.awaits hk.orderly hawaits⟩
  | @move p time hq hnext =>
      obtain ⟨queue, hmoved⟩ := moveTo_eq time p
      have hrest : AtRest (p.moveTo time) := .of_orderly (Orderly.moveTo hk.orderly hq hnext)
      rw [hmoved] at hrest ⊢
      exact ⟨hpast, .resting hrest hawaits.tasks⟩
  | @rest p time hq hle hnext =>
      have hrest : AtRest (p.update fun s ↦ { s with now := time }) :=
        .of_orderly (Orderly.rest hk.orderly hq hnext)
      exact ⟨hpast, .resting hrest hawaits.tasks⟩

/-- What becomes of a line that is taken up: its voice is played and the line stays for it,
or it has none, and the sound is left alone and the line stays for a fixed time. -/
structure Heard (voices : VoiceCache) (line : Line) (p : Playback) (n m : Machine) : Prop where
  takes : Takes line p n
  voiced : ∀ path, line.voicePath = some path → ∃ blob, voices.get? path = some blob ∧
    n.playback.session.heard = p.session.sounding blob ∧
      m.Awaits (Wait.DwellsAs p.session.serial .voice)
  unvoiced : line.voicePath = none → n.playback.session.heard = p.session.heard ∧
    m.Awaits (Wait.DwellsAs p.session.serial (.fixed p.session.config.talkDwell))

/-! ## Other voices -/

theorem holding_launch (actions : List Action) :
    (launch actions p).holding other = launch actions (p.holding other) := by
  unfold launch
  rw [holding_spawn, holding_spawn]
  rfl

theorem holding_shutdown : p.shutdown.holding other = (p.holding other).shutdown := by
  cases hc : p.session.cancelled with
  | true =>
      have hc' : (p.holding other).session.cancelled = true := hc
      rw [shutdown, if_pos hc, shutdown, if_pos hc']
  | false =>
      have hc' : (p.holding other).session.cancelled = false := hc
      have hcancel : p.session.cancel.holding other = (p.session.holding other).cancel := by
        rw [Session.cancel_eq_farewell, Session.cancel_eq_farewell]
        rfl
      have habort : ∀ q : Playback, q.abortOwned.holding other = (q.holding other).abortOwned := by
        intro q
        rw [abortOwned, abortOwned, wakeAll_eq, wakeAll_eq]
        rfl
      rw [shutdown_eq hc, shutdown_eq hc', habort, holding_touch, hcancel]
      rfl

theorem holding_stopped : (stopped p).holding other = stopped (p.holding other) := by
  have hstatus : (p.shutdown.holding other).status = p.shutdown.status := rfl
  unfold stopped
  dsimp only
  rw [← holding_shutdown, hstatus]
  split <;> rfl

/-- What is asked of a player can be asked of it with other voices too. -/
theorem Steers.holding (h : Steers actions p q) :
    Runs (Steers actions) (resting (p.holding other)) (resting (q.holding other)) := by
  obtain ⟨hacts, -⟩ := h
  have hact : ∀ q', q.holding other = q' → Acts actions (p.holding other) q' →
      Runs (Steers actions) (resting (p.holding other)) (resting (q.holding other)) := by
    rintro _ rfl ha
    exact .single (.act ⟨ha, rfl⟩)
  cases hacts with
  | start hs => exact hact _ (holding_launch actions) (.start hs)
  | next => exact hact _ holding_tap .next
  | autoPlay on => exact hact _ (holding_setAutoPlay on) (.autoPlay on)
  | fastForward on => exact hact _ (holding_setFastForward on) (.fastForward on)
  | cacheVoice path content => exact .refl
  | stop => exact hact _ holding_stopped .stop

/-- What has been taken up names voices of the story. -/
theorem Followed.voicePaths (h : Followed actions m) {d : Dispatch} (hd : d ∈ m.playback.dispatches)
    {path : String} (hpath : path ∈ d.action.voicePaths) : path ∈ actions.flatMap Action.voicePaths := by
  obtain ⟨c, hc⟩ := h.charted
  obtain ⟨i, hi, rfl⟩ := List.mem_iff_get.mp hd
  have hlt : i.1 < c.places.length := by
    rw [hc.records.located.length_eq]
    exact i.2
  have hplace := hc.records.located.get hlt i.2
  exact Action.voicePaths_at? hplace hpath

/-- The next line to be taken up has the same voice in both caches. -/
theorem Followed.agrees (h : Followed actions m) (hs : Machine.Sound m)
    (hsame : ∀ path ∈ actions.flatMap Action.voicePaths, other.get? path = m.playback.session.voices.get? path) :
    m.Agrees other := by
  intro cue scope scopes step jobs hjobs hover path hpath
  refine hsame path ?_
  obtain ⟨p, running, _⟩ := m
  subst hjobs
  cases running with
  | none => exact absurd (hs.idle rfl) (by simp)
  | some task =>
      have hb : Beat ⟨p, some task, .perform (.cue cue) scope scopes step :: jobs⟩ _ := .cue hover
      have hstep : Machine.Step (Acts actions) _ _ := .beat hb
      have hnext := followed_step (fun _ _ h ↦ h) hs h hstep
      have hserves : Serves true (p.note (.cue cue) scope step)
          ((p.note (.cue cue) scope step).performCue cue scope scopes step) := serves_performCue _ _ _ _
      have htold := hserves.dispatches.trans (Effect.note (.cue cue) scope step hover).dispatches
      refine hnext.voicePaths (d := ⟨p.session.now, scope, step, .cue cue⟩) ?_ ?_
      · rw [htold]
        exact List.mem_append_right _ (List.mem_singleton.mpr rfl)
      · simp [Action.voicePaths, Action.cues, hpath]

/-- What holds of every moment of a run that leaves the voices in the cache as they are. -/
structure Steered (actions : List Action) (voices : VoiceCache) (m : Machine) : Prop where
  followed : Followed actions m
  kept : m.playback.session.voices = voices
  sounds : m.playback.Sounds voices

theorem Steers.sounds (h : Steers actions p q) (hp : p.Sounds voices) : q.Sounds voices := by
  obtain ⟨hacts, -⟩ := h
  have htouch : ∀ {s : Session} {signals : List Signal}, s.host = p.session.host →
      s.cancelled = p.session.cancelled → s.calls = p.session.calls → (p.touch s signals).Sounds voices := by
    intro s signals hhost hended hcalls
    refine hp.carry ?_ ?_ ?_ touch_dispatches <;> rwa [touch_session]
  cases hacts with
  | start =>
      have hsession := launch_session actions p
      exact hp.carry (congrArg _ hsession) (congrArg _ hsession) (congrArg _ hsession)
        ((spawn_dispatches _ _).trans (spawn_dispatches _ _))
  | next =>
      rw [tap_eq_touch]
      exact htouch rfl rfl rfl
  | autoPlay on =>
      rw [setAutoPlay_eq_touch, Session.setAutoPlay]
      split <;> exact htouch rfl rfl rfl
  | fastForward on =>
      rw [setFastForward_eq_touch, Session.setFastForward]
      split <;> exact htouch rfl rfl rfl
  | cacheVoice path content => exact hp.carry rfl rfl rfl rfl
  | stop =>
      have hshut : p.shutdown.Sounds voices := by
        cases hc : p.session.cancelled with
        | true => rwa [shutdown, if_pos hc]
        | false => exact hp.ended hc (shutdown_session hc) (shutdown_dispatches p)
      unfold stopped
      dsimp only
      split
      · exact hshut
      · exact hshut.carry rfl rfl rfl rfl

theorem Steered.step (h : Steered actions voices m) (hs : Machine.Sound m)
    (hstep : Machine.Step (Steers actions) m n) : Steered actions voices n := by
  have hfollowed := followed_step (fun _ _ h ↦ h.1) hs h.followed hstep
  cases hstep with
  | beat hb =>
      exact ⟨hfollowed, (congrArg Settings.voices hb.settings).trans h.kept, hb.sounds h.kept h.sounds⟩
  | act ha => exact ⟨hfollowed, ha.2.trans h.kept, ha.sounds h.sounds⟩
  | @move p time =>
      obtain ⟨queue, hmoved⟩ := moveTo_eq time p
      rw [hmoved] at hfollowed ⊢
      exact ⟨hfollowed, h.kept, h.sounds.carry rfl rfl rfl rfl⟩
  | rest => exact ⟨hfollowed, h.kept, h.sounds.carry rfl rfl rfl rfl⟩

theorem steered_runs (hr : Runs (Steers actions) (resting (new actions config host voices).playback) m) :
    Steered actions voices m ∧ Machine.Sound m := by
  have hsilent : (new actions config host voices).playback.Sounds voices :=
    ⟨none, rfl, by simp [new, Playback.new, Session.new, Session.openScope]⟩
  exact hr.induct (fun _ _ ha hp ↦ ha.1.atRest hp) (sound_resting (new_atRest actions config host voices))
    ⟨followed_new actions config host voices, rfl, hsilent⟩ fun _ _ hk h hstep ↦ h.step hk hstep

/-- With other voices in the cache, but the same ones for the story, a run is the same. -/
theorem holding_runs
    (hr : Runs (Steers actions) (resting (new actions config host voices).playback) m)
    (hsame : ∀ path ∈ actions.flatMap Action.voicePaths, other.get? path = voices.get? path) :
    Runs (Steers actions) (resting (new actions config host other).playback) (m.holding other) := by
  induction hr with
  | refl => exact .refl
  | @step k l hr hs ih =>
      obtain ⟨hsteered, hsound⟩ := steered_runs hr
      refine ih.trans ?_
      cases hs with
      | beat hb =>
          refine .beat (hb.holding (hsteered.followed.agrees hsound ?_))
          rwa [hsteered.kept]
      | act ha => exact ha.holding
      | @move p time hq hnext =>
          have hmoved : (p.moveTo time).holding other = (p.holding other).moveTo time := by
            rw [moveTo, moveTo, wakeAll_eq, wakeAll_eq]
            rfl
          have hstep : Machine.Step (Steers actions) (resting (p.holding other))
            (resting ((p.holding other).moveTo time)) := .move hq hnext
          rw [← hmoved] at hstep
          exact .single hstep
      | @rest p time hq hle hnext => exact .single (.rest (p := p.holding other) hq hle hnext)

/-! ## The story is heard -/

theorem mem_voicePaths_of_line {line : Line} {path : String} (hpath : line.voicePath = some path) :
    path ∈ Action.voicePaths (.cue (.talk line)) := by
  simp [Action.voicePaths, Action.cues, Cue.voicePath, hpath]

/-- With all voices of the story in the cache, every line that has been taken up is heard. -/
theorem heard_runs
    (hr : Runs (Steers actions) (resting (new actions config host voices).playback) m)
    (hall : ∀ path ∈ actions.flatMap Action.voicePaths, ∃ blob, voices.get? path = some blob)
    {d : Dispatch} (hd : d ∈ m.playback.dispatches) {line : Line} (hline : d.action = .cue (.talk line)) :
    ∃ p n, TakenUp (Steers actions) (resting (new actions config host voices).playback) m d p n ∧
      Heard voices line p n m := by
  obtain ⟨p, n, htaken⟩ := exists_takenUp (fun _ _ h ↦ h.1.dispatches) hr rfl hd
  refine ⟨p, n, htaken, ?_⟩
  obtain ⟨task, scopes, jobs, hbefore, hb⟩ := htaken.beat
  rw [hline] at hbefore hb
  obtain ⟨hsteered, hsound⟩ := steered_runs hbefore
  have hkept : p.session.voices = voices := hsteered.kept
  have hgoes : p.session.cancelled = false := by
    have hover := htaken.goes
    simp only [isOver, Bool.or_eq_false_iff] at hover
    exact hover.1
  have hsteady := steady_runs (runs_acts hbefore) hgoes
  have htakes := hb.takes hsteady.cast hsteady.distinct htaken.goes
  have hstays : m.Awaits (Wait.DwellsAs p.session.serial (p.dwellOf line)) :=
    dwellsAs_runs (runs_acts htaken.later) (hb.sound hsound)
      (followed_step (fun _ _ h ↦ h) hsound hsteered.followed (.beat hb)) htakes.serial
      (htakes.waits.imp fun _ hw ↦ hw.dwellsAs)
  constructor
  case takes => exact htakes
  case voiced =>
    intro path hpath
    obtain ⟨blob, hblob⟩ :=
      hall path ((steered_runs hr).1.followed.voicePaths hd (hline ▸ mem_voicePaths_of_line hpath))
    have hvoice : p.session.voiceOf line = some blob := by
      rw [Session.voiceOf, hpath, hkept]
      exact hblob
    rw [dwellOf, hvoice] at hstays
    exact ⟨blob, hblob, htakes.heard.trans (speak_of_voice hvoice), hstays⟩
  case unvoiced =>
    intro hnone
    have hvoice : p.session.voiceOf line = none := by rw [Session.voiceOf, hnone]; rfl
    rw [dwellOf, hvoice] at hstays
    exact ⟨htakes.heard.trans (by rw [speak_of_none hvoice]), hstays⟩

/-- A player of a story whose voices are all in the cache, at some moment of its run. -/
structure Voiced (actions : List Action) (config : Config) (host : Host) (voices : VoiceCache)
    (m : Machine) : Prop where
  fetched : ∀ path ∈ actions.flatMap Action.voicePaths, ∃ blob, voices.get? path = some blob
  /-- Whatever has been taken up names voices of the story. -/
  within : ∀ d ∈ m.playback.dispatches, ∀ path ∈ d.action.voicePaths,
    path ∈ actions.flatMap Action.voicePaths
  /-- The sound player has been called for what has been taken up, and for the end. -/
  sounds : m.playback.Sounds voices
  /-- A line with a voice stops the voice before and plays its own once, and any other line
  calls nothing. -/
  calls : ∀ d ∈ m.playback.dispatches, ∀ line, d.action = .cue (.talk line) →
    (∀ path, line.voicePath = some path → ∃ blob, voices.get? path = some blob ∧
      d.calls voices = [(d.time, .stop .voice), (d.time, .play .voice (.blob blob) false)]) ∧
    (line.voicePath = none → d.calls voices = [])
  /-- A line stays for its voice, or for a fixed time if it has none. -/
  heard : ∀ d ∈ m.playback.dispatches, ∀ line, d.action = .cue (.talk line) →
    ∃ p n, TakenUp (Steers actions) (resting (new actions config host voices).playback) m d p n ∧
      Heard voices line p n m
  /-- No other voice is looked up: without it, or with another blob for it, all is the same. -/
  apart : ∀ other : VoiceCache,
    (∀ path ∈ actions.flatMap Action.voicePaths, other.get? path = voices.get? path) →
      Runs (Steers actions) (resting (new actions config host other).playback) (m.holding other)

/-- If no fetch of a story's voices fails, a player that has been given them plays every
line with its voice, whatever it is asked, and looks up no other voice. -/
theorem prefetch_covers {fetch : Fetcher} {cache : VoiceCache} {actions : List Action} {config : Config}
    {host : Host} {m : Machine}
    (hnone : (Prefetch.run fetch cache actions).cache.errors = cache.errors)
    (hr : Runs (Steers actions)
      (resting (new actions config host (Prefetch.run fetch cache actions).cache).playback) m) :
    Voiced actions config host (Prefetch.run fetch cache actions).cache m := by
  have hall : ∀ path ∈ actions.flatMap Action.voicePaths,
      ∃ blob, (Prefetch.run fetch cache actions).cache.get? path = some blob := fun path ↦
    (Prefetch.exact_run fetch cache actions).complete hnone
  obtain ⟨hsteered, -⟩ := steered_runs hr
  have hwithin : ∀ d ∈ m.playback.dispatches, ∀ path ∈ d.action.voicePaths,
      path ∈ actions.flatMap Action.voicePaths := fun d hd path ↦ hsteered.followed.voicePaths hd
  refine ⟨hall, hwithin, hsteered.sounds, fun d hd line hline ↦ ⟨fun path hpath ↦ ?_, fun hpath ↦ ?_⟩,
    fun d hd line ↦ heard_runs hr hall hd, fun other ↦ holding_runs hr⟩
  · obtain ⟨blob, hblob⟩ := hall path (hwithin d hd path (hline ▸ mem_voicePaths_of_line hpath))
    refine ⟨blob, hblob, ?_⟩
    simp [Dispatch.calls, hline, Cue.calls, hpath, hblob]
  · simp [Dispatch.calls, hline, Cue.calls, hpath]

/-- Commands that cache no voice. -/
theorem runs_steers {permits : Command → Prop} (hpermits : ∀ path content, ¬permits (.cacheVoice path content))
    (h : Reaches actions permits p q) : Runs (Steers actions) (resting p) (resting q) := by
  induction h with
  | refl => exact .refl
  | @step k l _ hs ih =>
      refine ih.trans ?_
      cases hs with
      | turn hq => exact runs_runTask hq
      | move hq hnext => exact .single (.move hq hnext)
      | rest hq hle hnext => exact .single (.rest hq hle hnext)
      | start _ _ hs => exact .single (.act ⟨.start hs, congrArg Session.voices (launch_session _ _)⟩)
      | next =>
          refine .single (.act ⟨.next, ?_⟩)
          rw [tap_eq_touch, touch_session]
          rfl
      | autoPlay on =>
          refine .single (.act ⟨.autoPlay on, ?_⟩)
          rw [setAutoPlay_eq_touch, touch_session, Session.setAutoPlay]
          split <;> rfl
      | fastForward on =>
          refine .single (.act ⟨.fastForward on, ?_⟩)
          rw [setFastForward_eq_touch, touch_session, Session.setFastForward]
          split <;> rfl
      | cacheVoice path content hc => exact absurd hc (hpermits path content)
      | stop =>
          have hshut : k.shutdown.session.voices = k.session.voices := by
            cases hc : k.session.cancelled with
            | true => rw [shutdown, if_pos hc]
            | false =>
                rw [shutdown_session hc, Session.cancel_eq_farewell]
                rfl
          refine .single (.act ⟨.stop, ?_⟩)
          unfold stopped
          dsimp only
          split <;> exact hshut

/-- Two lines with voices, one of them in a fork, and one without. -/
def callAndAnswer : List Action :=
  [.fork [.cue (.talk watchedLine)],
    .block [.cue (.talk ⟨"Who is there?", [2], ["Bea"], none⟩),
      .cue (.talk ⟨"It is me.", [1], ["Ann"], some "me"⟩)]]

/-- A fetcher that finds a blob as long as the path, after a while. -/
def finding : Fetcher := fun path ↦ ⟨some 20, .ok (List.replicate path.length 0)⟩

theorem callAndAnswer_is_heard :
    let voices := (Prefetch.run finding .empty callAndAnswer).cache
    let p := ((new callAndAnswer .standard plainHost voices).follow
      [(true, .start), (true, .autoPlay true), (true, .next), (true, .fastForward true),
        (true, .advance 1000), (true, .stop)]).playback
    voices.errors = [] ∧ Voiced callAndAnswer .standard plainHost voices (resting p) ∧
      p.session.calls =
        [(0, .stop .voice), (0, .play .voice (.blob [0, 0]) false), (0, .stop .voice),
          (0, .play .voice (.blob [0, 0, 0, 0, 0]) false), (1000, .stop .voice), (1000, .stop .bgm),
          (1000, .stop .se)] := by
  intro voices p
  have hreach : Reaches callAndAnswer (fun c ↦ ∀ path content, c ≠ .cacheVoice path content)
      (new callAndAnswer .standard plainHost voices).playback p :=
    reaches_follow (by simp) (new_atRest callAndAnswer .standard plainHost voices)
  have hnone : voices.errors = [] := by decide +kernel
  exact ⟨hnone, prefetch_covers hnone (runs_steers (by simp) hreach), by decide +kernel⟩

end Player

end Storyline
