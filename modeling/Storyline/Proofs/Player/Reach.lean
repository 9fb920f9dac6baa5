import Storyline.Proofs.Playback.Commands

/-!
# Runs of a player

A run of a player goes by small steps: turns of tasks, moves of the clock while
nothing is ready, and commands.  What the steps preserve holds throughout every
run.
-/

namespace Storyline

namespace Player

open Playback

/-- The end of a session on demand. -/
def stopped (p : Playback) : Playback :=
  let p := p.shutdown
  if p.status.isFinal then p else { p with status := .stopped }

/-- The small steps of the runs in which only some commands occur. -/
inductive Step (actions : List Action) (permits : Command → Prop) : Playback → Playback → Prop
  | turn {p : Playback} {id : Nat} {rest : List Nat} (hq : p.queue = id :: rest) :
    Step actions permits p (runTask id { p with queue := rest })
  | move {p : Playback} {time : Nat} (hq : p.queue = []) (hnext : p.nextDue = some time) :
    Step actions permits p (p.moveTo time)
  | rest {p : Playback} {time : Nat} (hq : p.queue = []) (hle : p.session.now ≤ time)
    (hnext : ∀ next, p.nextDue = some next → time < next) :
    Step actions permits p (p.update fun s ↦ { s with now := time })
  | start {p : Playback} (hc : permits .start) (hrun : p.session.host.canRun = true)
    (hs : p.status = .notStarted) : Step actions permits p (launch actions p)
  | next {p : Playback} (hc : permits .next) : Step actions permits p p.tap
  | autoPlay {p : Playback} (on : Bool) (hc : permits (.autoPlay on)) :
    Step actions permits p (p.setAutoPlay on)
  | fastForward {p : Playback} (on : Bool) (hc : permits (.fastForward on)) :
    Step actions permits p (p.setFastForward on)
  | cacheVoice {p : Playback} (path : String) (content : Bytes)
    (hc : permits (.cacheVoice path content)) :
    Step actions permits p
      (p.update fun s ↦ { s with voices := s.voices.insert path content })
  | stop {p : Playback} (hc : permits .stop ∨ permits .drop) : Step actions permits p (stopped p)

/-- What can be reached by such steps. -/
inductive Reaches (actions : List Action) (permits : Command → Prop) (p : Playback) :
    Playback → Prop
  | refl : Reaches actions permits p p
  | step {q r : Playback} (h : Reaches actions permits p q) (hs : Step actions permits q r) :
    Reaches actions permits p r

/-- A playback that is in order between turns. -/
def AtRest (p : Playback) : Prop := p.Orderly p.session.moment none 0

theorem AtRest.of_orderly {m : Moment} {p : Playback} (h : p.Orderly m none 0) : AtRest p := by
  unfold AtRest
  rwa [h.moment]

section

variable {actions : List Action} {permits : Command → Prop} {p q r : Playback}

theorem Step.atRest (hs : Step actions permits p q) (h : AtRest p) : AtRest q := by
  cases hs with
  | turn hq => exact .of_orderly (h.runTask hq)
  | move hq hnext => exact .of_orderly (h.moveTo hq hnext)
  | rest hq hle hnext => exact .of_orderly (Orderly.rest h hq hnext)
  | start hc hrun hs => exact .of_orderly (h.launch actions)
  | next hc => exact .of_orderly (h.stirs p.stirs_tap)
  | autoPlay on hc => exact .of_orderly (h.stirs (p.stirs_setAutoPlay on))
  | fastForward on hc => exact .of_orderly (h.stirs (p.stirs_setFastForward on))
  | cacheVoice path content hc =>
      exact .of_orderly (h.stirs (.of_update (Session.carries_voices _)))
  | stop hc =>
      unfold stopped
      dsimp only
      split
      · exact .of_orderly h.shutdown
      · exact .of_orderly (h.shutdown.withStatus .stopped)

theorem Reaches.trans (h : Reaches actions permits p q) (h' : Reaches actions permits q r) :
    Reaches actions permits p r := by
  induction h' with
  | refl => exact h
  | step _ hs ih => exact ih.step hs

theorem Reaches.single (hs : Step actions permits p q) : Reaches actions permits p q :=
  Reaches.refl.step hs

/-- What every step preserves holds of all that is reached. -/
theorem Reaches.induct {I : Playback → Prop} (h : Reaches actions permits p q) (hp : AtRest p)
    (h0 : I p) (hstep : ∀ q r, AtRest q → I q → Step actions permits q r → I r) :
    I q ∧ AtRest q := by
  induction h with
  | refl => exact ⟨h0, hp⟩
  | step _ hs ih => exact ⟨hstep _ _ ih.2 ih.1 hs, hs.atRest ih.2⟩

theorem Reaches.atRest (h : Reaches actions permits p q) (hp : AtRest p) : AtRest q :=
  (h.induct (I := fun _ ↦ True) hp trivial fun _ _ _ _ _ ↦ trivial).2

/-! ## Runs by commands -/

theorem reaches_runReady (bound : Nat) : Reaches actions permits p (runReady bound p) := by
  induction bound generalizing p with
  | zero => exact .refl
  | succ bound ih =>
      unfold runReady
      split
      · exact .refl
      next id rest hq => exact (Reaches.single (.turn hq)).trans ih

theorem reaches_settle : Reaches actions permits p p.settle := reaches_runReady _

theorem settle_queue_of_atRest (h : AtRest p) : p.settle.queue = [] := settle_queue h

/-- While time passes, the clock is moved only when nothing is ready. -/
theorem reaches_passTime {target : Nat} (bound : Nat) (h : AtRest p) (hq : p.queue = [])
    (hnow : p.session.now ≤ target) (hbound : target ≤ p.session.now + bound) :
    Reaches actions permits p (passTime target bound p) ∧
      (passTime target bound p).queue = [] ∧ (passTime target bound p).session.now = target := by
  have hrest : (∀ next, p.nextDue = some next → target < next) →
      Reaches actions permits p (p.update fun s ↦ { s with now := target }) ∧
        (p.update fun s ↦ { s with now := target }).queue = [] ∧
        (p.update fun s ↦ { s with now := target }).session.now = target :=
    fun hnext ↦ ⟨.single (.rest hq hnow hnext), hq, rfl⟩
  induction bound generalizing p with
  | zero =>
      refine hrest fun next hnext ↦ ?_
      have := lt_nextDue hnext
      omega
  | succ bound ih =>
      unfold passTime
      split
      next due hdue =>
        have hlt := lt_nextDue hdue
        split
        next hle =>
          have hmoved := h.moveTo hq hdue
          have hsettled := settle_orderly hmoved
          have hnow' : (p.moveTo due).settle.session.now = due :=
            congrArg Moment.now hsettled.moment
          have hstep : Reaches actions permits p (p.moveTo due).settle :=
            (Reaches.single (.move hq hdue)).trans reaches_settle
          obtain ⟨hreach, hqueue, hend⟩ := ih (.of_orderly hsettled) (settle_queue hmoved)
            (by omega) (by omega) fun hnext ↦
              ⟨.single (.rest (settle_queue hmoved) (by omega) hnext), settle_queue hmoved, rfl⟩
          exact ⟨hstep.trans hreach, hqueue, hend⟩
        next hle =>
          refine hrest fun next hnext ↦ ?_
          rw [hdue] at hnext
          exact Option.some.inj hnext ▸ Nat.lt_of_not_le hle
      next hnone =>
        exact hrest fun next hnext ↦ by rw [hnone] at hnext; cases hnext

theorem reaches_advance (ms : Nat) (h : AtRest p) :
    Reaches actions permits p (p.advance ms) ∧ (p.advance ms).queue = [] ∧
      (p.advance ms).session.now = p.session.now + ms := by
  have hsettled := settle_orderly h
  have hnow : p.settle.session.now = p.session.now := congrArg Moment.now hsettled.moment
  unfold advance
  dsimp only
  obtain ⟨hreach, hqueue, hend⟩ :
      Reaches actions permits p.settle (passTime (p.settle.session.now + ms) ms p.settle) ∧ _ ∧ _ :=
    reaches_passTime ms (.of_orderly hsettled) (settle_queue h) (Nat.le_add_right _ _)
      (Nat.le_refl _)
  exact ⟨reaches_settle.trans hreach, hqueue, by rw [hend, hnow]⟩

theorem obeyStart_eq (p : Player) :
    p.obeyStart.1 =
      if p.playback.session.host.canRun = true ∧ p.playback.status = .notStarted then
        p.mapPlayback (launch p.actions)
      else p := by
  unfold obeyStart Player.start status
  by_cases hrun : p.playback.session.host.canRun = true <;>
    by_cases hs : p.playback.status = .notStarted <;> simp [hrun, hs]

theorem reaches_obey {p : Player} {c : Command} (hc : permits c) (h : AtRest p.playback) :
    Reaches p.actions permits p.playback (p.obey c).1.playback := by
  unfold obey
  split
  · exact .refl
  cases c with
  | start =>
      dsimp only
      rw [obeyStart_eq]
      split
      next hs => exact .single (.start hc hs.1 hs.2)
      next => exact .refl
  | next => exact .single (.next hc)
  | stop => exact .single (.stop (.inl hc))
  | autoPlay on => exact .single (.autoPlay on hc)
  | fastForward on => exact .single (.fastForward on hc)
  | advance ms => exact (reaches_advance ms h).1
  | cacheVoice path content => exact .single (.cacheVoice path content hc)
  | drop => exact .single (.stop (.inr hc))
  | showActions => exact .refl
  | showStage => exact .refl
  | showBacklog => exact .refl

theorem reaches_step {p : Player} {c : Command} (settled : Bool) (hc : permits c)
    (h : AtRest p.playback) :
    Reaches p.actions permits p.playback (p.step settled c).1.playback := by
  have hobey := reaches_obey hc h
  cases settled with
  | false => exact hobey
  | true => exact hobey.trans reaches_settle

theorem obey_actions (c : Command) (p : Player) : (p.obey c).1.actions = p.actions := by
  unfold obey
  split
  · rfl
  cases c with
  | start =>
      dsimp only
      rw [obeyStart_eq]
      split <;> rfl
  | _ => rfl

theorem step_actions (settled : Bool) (c : Command) (p : Player) :
    (p.step settled c).1.actions = p.actions := by
  cases settled <;> exact obey_actions c p

end

/-- Carries out commands, running what is ready after those that are marked. -/
def follow (cs : List (Bool × Command)) (p : Player) : Player :=
  cs.foldl (fun p c ↦ (p.step c.1 c.2).1) p

theorem follow_actions (cs : List (Bool × Command)) (p : Player) :
    (p.follow cs).actions = p.actions := by
  induction cs generalizing p with
  | nil => rfl
  | cons c cs ih => exact (ih _).trans (step_actions c.1 c.2 p)

theorem reaches_follow {permits : Command → Prop} {cs : List (Bool × Command)} {p : Player}
    (hcs : ∀ c ∈ cs, permits c.2) (h : AtRest p.playback) :
    Reaches p.actions permits p.playback (p.follow cs).playback := by
  induction cs generalizing p with
  | nil => exact .refl
  | cons c cs ih =>
      have hstep := reaches_step c.1 (hcs c (by simp)) h
      have hrest := ih (p := (p.step c.1 c.2).1) (fun c hc ↦ hcs c (by simp [hc]))
        (hstep.atRest h)
      rw [step_actions] at hrest
      exact hstep.trans hrest

theorem launch_session (actions : List Action) (p : Playback) :
    (launch actions p).session = p.session := by
  unfold launch spawn
  by_cases hc : p.session.cancelled = true <;> simp [hc, addTask]

theorem new_atRest (actions : List Action) (config : Config) (host : Host) (voices : VoiceCache) :
    AtRest (new actions config host voices).playback where
  moment := rfl
  nodup_ids := .nil
  id_lt := by simp [new, Playback.new]
  idle := fun _ ↦ rfl
  running_mem := by simp
  nodup_queue := .nil
  queued := by simp [new, Playback.new]
  numbered := ⟨by simp [new, Playback.new, Session.openScope, Session.new],
    by simp [new, Playback.new, Session.openScope, Session.new, Scope.fresh]⟩
  resting := by simp [new, Playback.new]
  punctual := by simp [new, Playback.new]
  empty := by simp
  turn_punctual := by simp [new, Playback.new, Turn.none]
  visited := by simp [new, Playback.new, Turn.none]
  unvisited := by simp

/-- What every step preserves holds of a new player, however it is run. -/
theorem follow_induct {actions : List Action} {config : Config} {host : Host}
    {voices : VoiceCache} {permits : Command → Prop} {cs : List (Bool × Command)}
    {I : Playback → Prop} (hcs : ∀ c ∈ cs, permits c.2)
    (h0 : I (new actions config host voices).playback)
    (hstep : ∀ q r, AtRest q → I q → Step actions permits q r → I r) :
    let q := ((new actions config host voices).follow cs).playback
    I q ∧ AtRest q :=
  (reaches_follow hcs (new_atRest actions config host voices)).induct
    (new_atRest actions config host voices) h0 hstep

end Player

namespace Playback

/-- Tasks have turns and time passes, and nothing else happens. -/
def Passes (p q : Playback) : Prop := Player.Reaches [] (fun _ ↦ False) p q

/-- What turns and moves of the clock preserve is preserved by time passing. -/
theorem Passes.induct {I : Playback → Prop} {p q : Playback} (h : p.Passes q)
    (hp : Player.AtRest p) (h0 : I p)
    (hturn : ∀ (r : Playback) (id : Nat) (rest : List Nat), Player.AtRest r → I r →
      r.queue = id :: rest → I (runTask id { r with queue := rest }))
    (hlater : ∀ (r r' : Playback) (time : Nat), I r →
      r'.session = { r.session with now := time } → r'.tasks = r.tasks →
      r'.outcomes = r.outcomes → I r') : I q ∧ Player.AtRest q := by
  refine Player.Reaches.induct h hp h0 fun r r' hr hI hs ↦ ?_
  cases hs with
  | turn hq => exact hturn r _ _ hr hI hq
  | @move time hq hnext =>
      refine hlater r _ time hI ?_ ?_ ?_ <;> unfold moveTo <;> dsimp only <;> rw [wakeAll_eq] <;> rfl
  | @rest time hq hle hnext => exact hlater r _ time hI rfl rfl rfl
  | start hc | next hc | autoPlay on hc | fastForward on hc | cacheVoice path content hc =>
      exact hc.elim
  | stop hc => exact (hc.elim id id).elim

end Playback

end Storyline
