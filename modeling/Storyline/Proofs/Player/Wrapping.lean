import Storyline.Proofs.Player.Forks
import Storyline.Proofs.Wrapping.Commands

/-!
# A block around one action

An action that holds up its timeline may be wrapped: a block with nothing else in it
takes its place.  A wrapped action goes on in the turn after the one in which it ends,
so tasks that are ready at the same time may change their order.  Apart from that nothing
can be told: whatever a player of one story reports, with some order of the ready tasks,
a player of the other one reports with some order too.
-/

namespace Storyline

namespace Player

open Playback (Agree Echoes KeepsPace Matching matching_agree)

/-- What a player shows after a command. -/
structure View where
  time : Nat
  stage : Stage
  status : Status
  backlog : List Line
  pendingTaps : Nat
  /-- All calls of the sound player so far, with their times. -/
  calls : List (Nat × AudioCall)

def view (p : Player) : View where
  time := p.playback.session.now
  stage := p.playback.session.stage
  status := p.status
  backlog := p.playback.session.backlog
  pendingTaps := p.playback.session.taps.length
  calls := p.playback.session.calls

/-- Two views that are the same, but for stamps that stand for each other. -/
structure View.Same (stamps : List (Nat × Nat)) (x y : View) : Prop where
  time : x.time = y.time
  stage : Stage.Same stamps x.stage y.stage
  status : x.status = y.status
  backlog : x.backlog = y.backlog
  pendingTaps : x.pendingTaps = y.pendingTaps
  calls : x.calls = y.calls

/-- The pairs rename one kind of stamps to the other and keep their order. -/
def Ascending (stamps : List (Nat × Nat)) : Prop :=
  stamps.Pairwise fun x y ↦ x.1 < y.1 ∧ x.2 < y.2

/-- The same responses and the same views. -/
def SameSeen (stamps : List (Nat × Nat)) : List (Response × View) → List (Response × View) → Prop :=
  List.Forall₂ fun x y ↦ x.1 = y.1 ∧ x.2.Same stamps y.2

/-! ## Runs with turns in any order -/

/-- What a command may make of the playback. -/
def Obeys (c : Command) (p : Player) (q : Playback) : Prop :=
  match c with
  | .advance ms => p.playback.Advances ms q
  | c => q = (p.obey c).1.playback

/-- A command, and turns until nothing is ready if it is marked. -/
inductive Steps : Bool × Command → Player → Player → Prop
  | obeys {c : Command} {p : Player} {q : Playback} (h : p.Obeys c q) :
    Steps (false, c) p { (p.obey c).1 with playback := q }
  | settles {c : Command} {p : Player} {q r : Playback} (h : p.Obeys c q) (hr : q.Quiets r) :
    Steps (true, c) p { (p.obey c).1 with playback := r }

/-- The response to each command, and what is seen after it. -/
inductive Watches : Player → List (Bool × Command) → List (Response × View) → Prop
  | nil {p : Player} : Watches p [] []
  | cons {p q : Player} {c : Bool × Command} {cs : List (Bool × Command)}
    {seen : List (Response × View)} (h : p.Steps c q) (hrest : q.Watches cs seen) :
    Watches p (c :: cs) (((p.obey c.2).2, q.view) :: seen)

/-- What is seen when the tasks have their turns in the order in which they became ready. -/
def watch (p : Player) : List (Bool × Command) → List (Response × View)
  | [] => []
  | c :: cs => ((p.step c.1 c.2).2, (p.step c.1 c.2).1.view) :: watch (p.step c.1 c.2).1 cs

/-- All commands but those that switch on fast-forward or show the document or the stamps. -/
def Command.isPlain : Command → Bool
  | .fastForward on => !on
  | .showActions | .showStage => false
  | _ => true

variable {p v q : Player} {c : Command}

theorem obeyStart_dropped (p : Player) : p.obeyStart.1.dropped = p.dropped := by
  rw [obeyStart_eq]
  split <;> rfl

theorem obeyStart_response (p : Player) :
    p.obeyStart.2 = if p.playback.session.host.canRun = true then .nothing else .refused .noRuntime := by
  unfold obeyStart Player.start
  by_cases hrun : p.playback.session.host.canRun = true <;> by_cases hs : p.status = .notStarted <;>
    simp [hrun, hs]

theorem obey_dropped (h : p.dropped = v.dropped) (c : Command) :
    (p.obey c).1.dropped = (v.obey c).1.dropped := by
  unfold obey
  rw [h]
  split
  · exact h
  cases c with
  | start => exact (p.obeyStart_dropped.trans h).trans v.obeyStart_dropped.symm
  | drop => rfl
  | _ => exact h

theorem obeys_obey (h : AtRest p.playback) (c : Command) : p.Obeys c (p.obey c).1.playback := by
  cases c with
  | advance ms =>
      unfold Obeys obey
      rw [Command.isForPlayer, Bool.and_false, if_neg Bool.false_ne_true]
      exact Playback.advances_advance h ms
  | _ => rfl

theorem steps_step (h : AtRest p.playback) (c : Bool × Command) : p.Steps c (p.step c.1 c.2).1 := by
  obtain ⟨settled, c⟩ := c
  have hobeys := obeys_obey h c
  have hobeyed : AtRest (p.obey c).1.playback :=
    (reaches_obey (c := c) trivial h : Reaches _ (fun _ ↦ True) _ _).atRest h
  cases settled with
  | false => exact .obeys hobeys
  | true => exact .settles hobeys (Playback.quiets_settle hobeyed)

theorem watches_watch {cs : List (Bool × Command)} (h : AtRest p.playback) :
    p.Watches cs (p.watch cs) := by
  induction cs generalizing p with
  | nil => exact .nil
  | cons c cs ih =>
      have hstep : AtRest (p.step c.1 c.2).1.playback :=
        (reaches_step c.1 trivial h : Reaches _ (fun _ ↦ True) _ _).atRest h
      exact .cons (steps_step h c) (ih hstep)

/-! ## Runs that match -/

section generic

variable {ι : Type} [Preorder ι] {R S : ι → Playback → Playback → Prop} {i : ι}
  {A : ι → Player → Player → Prop} {V : ι → View → View → Prop} {G : ι → Prop}

theorem obeys_matched (hM : Matching R S) (h : KeepsPace R S i p.playback v.playback)
    (hobey : (∀ ms, c ≠ .advance ms) → KeepsPace R S i (p.obey c).1.playback (v.obey c).1.playback)
    {b : Playback} (hb : p.Obeys c b) :
    ∃ j b', i ≤ j ∧ v.Obeys c b' ∧ KeepsPace R S j b b' := by
  cases c with
  | advance ms => exact hM.advances h hb
  | _ =>
      obtain rfl := hb
      exact ⟨i, _, le_rfl, rfl, hobey (by simp)⟩

/-- A step of one player is matched by one of the other. -/
theorem steps_matched (hM : Matching R S) (h : KeepsPace R S i p.playback v.playback)
    {settled : Bool}
    (hobey : (∀ ms, c ≠ .advance ms) → KeepsPace R S i (p.obey c).1.playback (v.obey c).1.playback)
    (hs : p.Steps (settled, c) q) :
    ∃ j b, i ≤ j ∧ v.Steps (settled, c) { (v.obey c).1 with playback := b } ∧
      KeepsPace R S j q.playback b ∧ q = { (p.obey c).1 with playback := q.playback } := by
  cases hs with
  | obeys hb =>
      obtain ⟨j, b', hle, hb', hpace⟩ := obeys_matched hM h hobey hb
      exact ⟨j, b', hle, .obeys hb', hpace, rfl⟩
  | settles hb hr =>
      obtain ⟨j, b', hle, hb', hpace⟩ := obeys_matched hM h hobey hb
      obtain ⟨k, r', hle', hr', hpace'⟩ := hM.quiets hpace hr
      exact ⟨k, r', hle.trans hle', .settles hb' hr', hpace', rfl⟩

/-- Whatever one player does is done by the other, with the same responses and views. -/
structure Simulates (A : ι → Player → Player → Prop) (V : ι → View → View → Prop) (G : ι → Prop) :
    Prop where
  step : ∀ {i p v c q}, A i p v → c.2.isPlain = true → p.Steps c q →
    ∃ j w, i ≤ j ∧ v.Steps c w ∧ A j q w
  response : ∀ {i p v c}, A i p v → c.isPlain = true → (p.obey c).2 = (v.obey c).2
  view : ∀ {i p v}, A i p v → V i p.view v.view
  mono : ∀ {i j x y}, i ≤ j → V i x y → V j x y
  good : ∀ {i p v}, A i p v → G i

theorem Simulates.watches (hA : Simulates A V G) (h : A i p v) {cs : List (Bool × Command)}
    (hcs : ∀ c ∈ cs, c.2.isPlain = true) {seen : List (Response × View)} (hseen : p.Watches cs seen) :
    ∃ j seen', i ≤ j ∧ G j ∧ v.Watches cs seen' ∧
      List.Forall₂ (fun x y ↦ x.1 = y.1 ∧ V j x.2 y.2) seen seen' := by
  -- the stamps of later views extend those of earlier ones, so that the last renaming serves for all
  induction hseen generalizing i v with
  | nil => exact ⟨i, [], le_rfl, hA.good h, .nil, .nil⟩
  | @cons p q c cs seen hs _ ih =>
      have hc := hcs c List.mem_cons_self
      obtain ⟨j, w, hle, hw, hnext⟩ := hA.step h hc hs
      obtain ⟨k, seen', hle', hgood, hwatches, hsame⟩ :=
        ih hnext fun c hc ↦ hcs c (List.mem_cons_of_mem _ hc)
      exact ⟨k, _, hle.trans hle', hgood, .cons hw hwatches,
        .cons ⟨hA.response h hc, hA.mono hle' (hA.view hnext)⟩ hsame⟩

end generic

/-! ## The players of both stories -/

/-- A player of a story with wrapped actions and one of the story itself, which have come
as far. -/
structure Alongside (N : Wrapping) (p v : Player) : Prop where
  actions : Action.WrapsAll true p.actions v.actions
  dropped : p.dropped = v.dropped
  pace : KeepsPace Agree Echoes N p.playback v.playback

namespace Alongside

variable {N : Wrapping}

theorem view (h : Alongside N p v) : p.view.Same N.ids v.view := by
  have hechoes := h.pace.echoes
  have htaps : p.playback.session.taps.length = v.playback.session.taps.length := by
    cases h.pace with
    | goes h =>
        obtain ⟨D, ht⟩ := h.related.twins
        exact ht.session.taps.length_eq
    | ended _ hp hv => rw [hp.closed.taps, hv.closed.taps]
  exact ⟨hechoes.session.now, hechoes.session.stage, hechoes.status, hechoes.session.backlog, htaps,
    hechoes.session.calls⟩

/-! ## Commands -/

/-- What is done to both playbacks while they go on. -/
theorem goesOn {b b' q w : Playback} (h : Playback.Joined Agree N b b') (ha : Acts [] b q)
    (ha' : Acts [] b' w) (hqw : Agree N q w) : KeepsPace Agree Echoes N q w :=
  .goes ⟨hqw, h.left.ongoing ⟨ha, hqw.running.1⟩, h.right.ongoing ⟨ha', hqw.running.2⟩⟩

theorem start (h : Alongside N p v) :
    KeepsPace Agree Echoes N p.obeyStart.1.playback v.obeyStart.1.playback := by
  have hstatus := h.pace.echoes.status
  rw [obeyStart_eq, obeyStart_eq, h.pace.echoes.session.host, hstatus]
  split
  next hstarts =>
    cases h.pace with
    | goes hj =>
        have hspawned := (hj.left.unstarted (hstatus.trans hstarts.2)).2
        exact .goes ⟨hj.related.launch h.actions hspawned, hj.left.launch _, hj.right.launch _⟩
    | ended _ _ hv =>
        have hfinal := hv.final
        rw [hstarts.2] at hfinal
        cases hfinal
  next => exact h.pace

/-- What a stop puts an end to is done to both playbacks or to neither. -/
theorem unlessEnded (h : Alongside N p v) {f : Playback → Playback} (hacts : ∀ b, Acts [] b (f b))
    (hagree : ∀ {b b'}, Agree N b b' → Agree N (f b) (f b'))
    (hended : ∀ b, b.session.Closed → f b = b) :
    KeepsPace Agree Echoes N (f p.playback) (f v.playback) := by
  cases h.pace with
  | goes hj => exact goesOn hj (hacts _) (hacts _) (hagree hj.related)
  | ended _ hp hv =>
      rw [hended _ hp.closed, hended _ hv.closed]
      exact h.pace

theorem next (h : Alongside N p v) : KeepsPace Agree Echoes N p.playback.tap v.playback.tap :=
  h.unlessEnded (fun _ ↦ .next) Agree.tap fun _ hclosed ↦ Playback.tap_closed hclosed

theorem tapped (h : Alongside N p v) : p.playback.tapped = v.playback.tapped := by
  cases h.pace with
  | goes hj => exact hj.related.tapped
  | ended _ hp hv => simp [Playback.tapped, hp.closed.nextTap, hv.closed.nextTap]

/-- A stop ends both stories, if they have not ended before. -/
theorem stop (h : Alongside N p v) :
    KeepsPace Agree Echoes N (stopped p.playback) (stopped v.playback) := by
  cases h.pace with
  | goes hj =>
      obtain ⟨hp, hv⟩ := hj.related.owning
      have hrest : ∀ b : Playback, AtRest b → AtRest (stopped b) :=
        fun b ↦ (Acts.stop : Acts [] b (stopped b)).atRest
      exact .ended hj.related.stopped hp.stopped hv.stopped (hrest _ hj.left.rest) (hrest _ hj.right.rest)
  | ended _ hp hv =>
      rw [Playback.stopped_of_ended hp, Playback.stopped_of_ended hv]
      exact h.pace

theorem autoPlay (h : Alongside N p v) (on : Bool) :
    KeepsPace Agree Echoes N (p.playback.setAutoPlay on) (v.playback.setAutoPlay on) :=
  h.unlessEnded (f := fun b ↦ b.setAutoPlay on) (fun _ ↦ .autoPlay on) (fun hagree ↦ hagree.setAutoPlay on)
    fun _ hclosed ↦ if_pos hclosed.cancelled

theorem slow (h : Alongside N p v) :
    KeepsPace Agree Echoes N (p.playback.setFastForward false) (v.playback.setFastForward false) :=
  h.unlessEnded (f := fun b ↦ b.setFastForward false) (fun _ ↦ .fastForward false) Agree.setSlow
    fun _ hclosed ↦ if_pos hclosed.cancelled

theorem cacheVoice (h : Alongside N p v) (path : String) (content : Bytes) :
    KeepsPace Agree Echoes N
      (p.playback.update fun s ↦ { s with voices := s.voices.insert path content })
      (v.playback.update fun s ↦ { s with voices := s.voices.insert path content }) := by
  cases h.pace with
  | goes hj =>
      exact goesOn hj (.cacheVoice path content) (.cacheVoice path content)
        (hj.related.cacheVoice path content)
  | ended hechoes hp hv left right =>
      have hstep : ∀ b : Playback, Step [] (fun _ ↦ True) b
          (b.update fun s ↦ { s with voices := s.voices.insert path content }) :=
        fun _ ↦ .cacheVoice path content trivial
      exact .ended { hechoes with session := { hechoes.session with } } (hp.step (hstep _)).1
        (hv.step (hstep _)).1 ((hstep _).atRest left) ((hstep _).atRest right)

/-- A command other than a wait does the same to both players. -/
theorem obey (h : Alongside N p v) (hc : c.isPlain = true) (hwait : ∀ ms, c ≠ .advance ms) :
    KeepsPace Agree Echoes N (p.obey c).1.playback (v.obey c).1.playback := by
  unfold Player.obey
  rw [h.dropped]
  split
  · exact h.pace
  cases c with
  | start => exact h.start
  | next => exact h.next
  | stop => exact h.stop
  | autoPlay on => exact h.autoPlay on
  | fastForward on =>
      obtain rfl : on = false := by simpa [Command.isPlain] using hc
      exact h.slow
  | advance ms => exact absurd rfl (hwait ms)
  | cacheVoice path content => exact h.cacheVoice path content
  | drop => exact h.stop
  | showActions | showStage => cases hc
  | showBacklog => exact h.pace

/-- It is answered in the same way. -/
theorem response (h : Alongside N p v) (hc : c.isPlain = true) : (p.obey c).2 = (v.obey c).2 := by
  unfold Player.obey
  rw [h.dropped]
  split
  · rfl
  cases c with
  | start =>
      rw [obeyStart_response, obeyStart_response, h.pace.echoes.session.host]
  | next => exact congrArg Response.flag h.tapped
  | autoPlay on => exact congrArg Response.flag (h.autoPlay on).echoes.session.autoPlay
  | fastForward on =>
      obtain rfl : on = false := by simpa [Command.isPlain] using hc
      exact congrArg Response.flag h.slow.echoes.session.fastForward
  | showActions | showStage => cases hc
  | showBacklog => exact congrArg Response.backlog h.pace.echoes.session.backlog
  | _ => rfl

/-- The players stay alongside each other, whatever becomes of them. -/
theorem after (h : Alongside N p v) {M : Wrapping} {b b' : Playback}
    (hpace : KeepsPace Agree Echoes M b b') (c : Command) :
    Alongside M { (p.obey c).1 with playback := b } { (v.obey c).1 with playback := b' } where
  actions := by
    rw [obey_actions, obey_actions]
    exact h.actions
  dropped := obey_dropped h.dropped c
  pace := hpace

end Alongside

theorem simulates_wrapped :
    Simulates Alongside (fun N x y ↦ x.Same N.ids y) (fun N ↦ Ascending N.ids) where
  step := fun {_ p v c q} h hc hs ↦ by
    obtain ⟨M, b, hle, hv, hpace, hq⟩ := steps_matched matching_agree h.pace (h.obey hc) hs
    rw [hq]
    exact ⟨M, _, hle, hv, h.after hpace c.2⟩
  response := fun h hc ↦ h.response hc
  view := fun h ↦ h.view
  mono := fun hle hsame ↦ { hsame with stage := hsame.stage.mono hle.ids }
  good := fun h ↦ h.pace.echoes.ascending

theorem simulates_unwrapped :
    Simulates (fun N p v ↦ Alongside N v p) (fun N x y ↦ y.Same N.ids x) (fun N ↦ Ascending N.ids) where
  step := fun {_ p v c q} h hc hs ↦ by
    obtain ⟨M, b, hle, hv, hpace, hq⟩ :=
      steps_matched matching_agree.flip h.pace.flip (fun hwait ↦ (h.obey hc hwait).flip) hs
    rw [hq]
    exact ⟨M, _, hle, hv, h.after hpace.flip c.2⟩
  response := fun h hc ↦ (h.response hc).symm
  view := fun h ↦ h.view
  mono := fun hle hsame ↦ { hsame with stage := hsame.stage.mono hle.ids }
  good := fun h ↦ h.pace.echoes.ascending

/-! ## New players -/

/-- The roots stand for each other, and the main timeline works in them. -/
def rootNames : Wrapping := ⟨[(root, root)], [], [(root, mainTask)]⟩

theorem sameRoom_root : rootNames.SameRoom mainTask root root := ⟨List.mem_cons_self, List.mem_cons_self⟩

theorem twins_new (config : Config) (host : Host) (voices : VoiceCache) :
    ((Session.new config host voices).openScope none).2.Twins rootNames .none
      ((Session.new config host voices).openScope none).2 where
  config := rfl
  host := rfl
  now := rfl
  armed := rfl
  draws := rfl
  stage := ⟨rfl, fun c ↦ by cases c <;> exact ⟨rfl, rfl, List.mem_cons_self⟩,
    fun k ↦ by cases k <;> exact ⟨rfl, rfl, List.mem_cons_self⟩⟩
  backlog := rfl
  autoPlay := rfl
  slow' := rfl
  slow := rfl
  skips := rfl
  goes' := rfl
  goes := rfl
  voices := rfl
  calls := rfl
  voiceEnd := rfl
  taps := .nil
  ids := ⟨List.pairwise_singleton _ _, by simp [rootNames, root, Session.openScope, Session.new]⟩
  scopes :=
    { nodup' := by simp [Session.openScope, Session.new]
      nodup := by simp [Session.openScope, Session.new]
      lt' := by simp [Session.openScope, Session.new, Scope.fresh]
      lt := by simp [Session.openScope, Session.new, Scope.fresh]
      apart := by simp [rootNames, Naming.Apart]
      homes_lt := by simp [rootNames, root, Session.openScope, Session.new]
      homes_eq := by simp [rootNames]
      rooms := by
        rintro o scope' scope ⟨hid, hhome⟩
        obtain ⟨rfl, rfl⟩ := Prod.mk.inj (List.mem_singleton.mp hid)
        refine ⟨_, _, rfl, rfl, fun tally ↦ ?_, fun tally ↦ ?_, fun tally ↦ ?_⟩ <;> cases tally <;> rfl
      taken := fun _ _ hd ↦ nomatch hd
      distinct := fun _ _ _ _ hd ↦ nomatch hd }

theorem alongside_new {actions' actions : List Action} (hwraps : Action.WrapsAll true actions' actions)
    (config : Config) (host : Host) (voices : VoiceCache) :
    Alongside rootNames (new actions' config host voices) (new actions config host voices) where
  actions := hwraps
  dropped := rfl
  pace := .goes
    { related := ⟨⟨.none, ⟨twins_new config host voices, rfl⟩, .nil, rfl, fun _ _ ↦ rfl⟩, sameRoom_root⟩
      left := Playback.regular_new actions' config host voices
      right := Playback.regular_new actions config host voices }

/-- Let some actions of a story that hold up their timelines be wrapped, in the main list
or in those of forks.  A player whose tasks have their turns in the order in which they
became ready is one of those that take them in any order.  Whatever a player of the
wrapped story reports, with its tasks in any order, a player of the story reports as well,
and the other way round: the same responses and views up to a renaming of the stamps
that keeps their order.  If the order makes no difference to the story, then neither does
the wrapping. -/
theorem wrapping_in_any_order {actions' actions : List Action} (config : Config) (host : Host)
    (voices : VoiceCache) {cs : List (Bool × Command)}
    (hwraps : Action.WrapsAll true actions' actions) (hcs : ∀ c ∈ cs, c.2.isPlain = true) :
    let p := new actions' config host voices
    let v := new actions config host voices
    (p.Watches cs (p.watch cs) ∧ v.Watches cs (v.watch cs)) ∧
    (∀ seen', p.Watches cs seen' →
      ∃ seen stamps, v.Watches cs seen ∧ Ascending stamps ∧ SameSeen stamps seen' seen) ∧
    (∀ seen, v.Watches cs seen →
      ∃ seen' stamps, p.Watches cs seen' ∧ Ascending stamps ∧ SameSeen stamps seen' seen) ∧
    ((∀ seen, v.Watches cs seen → seen = v.watch cs) →
      ∃ stamps, Ascending stamps ∧ SameSeen stamps (p.watch cs) (v.watch cs)) := by
  intro p v
  have halongside : Alongside rootNames p v := alongside_new hwraps config host voices
  have hwatch : p.Watches cs (p.watch cs) := watches_watch (new_atRest actions' config host voices)
  have hwatch' : v.Watches cs (v.watch cs) := watches_watch (new_atRest actions config host voices)
  have hmatched : ∀ seen', p.Watches cs seen' →
      ∃ seen stamps, v.Watches cs seen ∧ Ascending stamps ∧ SameSeen stamps seen' seen := by
    intro seen' hseen
    obtain ⟨N, seen, -, hstamps, hwatches, hsame⟩ := simulates_wrapped.watches halongside hcs hseen
    exact ⟨seen, N.ids, hwatches, hstamps, hsame⟩
  refine ⟨⟨hwatch, hwatch'⟩, hmatched, fun seen hseen ↦ ?_, fun hfixed ↦ ?_⟩
  · obtain ⟨N, seen', -, hstamps, hwatches, hsame⟩ := simulates_unwrapped.watches halongside hcs hseen
    exact ⟨seen', N.ids, hwatches, hstamps, hsame.flip.imp fun _ _ h ↦ ⟨h.1.symm, h.2⟩⟩
  · obtain ⟨seen, stamps, hwatches, hstamps, hsame⟩ := hmatched _ hwatch
    obtain rfl := hfixed seen hwatches
    exact ⟨stamps, hstamps, hsame⟩

/-! ## A change of order -/

theorem SameSeen.backgrounds {stamps : List (Nat × Nat)} {seen' seen : List (Response × View)}
    (h : SameSeen stamps seen' seen) :
    seen'.map (fun x ↦ x.2.stage.background) = seen.map fun x ↦ x.2.stage.background := by
  induction h with
  | nil => rfl
  | cons hx _ ih => rw [List.map_cons, List.map_cons, ih, (List.cons.inj hx.2.stage.scenery).1]

/-- Behind its opening a story forks twice over, for a change of the background.  It waits for
a model that settles at once, and changes the background as well. -/
def dissolve (opening : Action) : List Action :=
  [opening, .fork [.fork [.cue (.scenery .background "inner")]],
    .cue (.model (.show 1 "m" .center)), .cue .waitForAll, .cue (.scenery .background "main")]

def promptConfig : Config := { Config.standard with layoutSettle := .ofMillis 0 }

def greeting : Action := .cue (.talk ⟨"Hello.", [1], ["Ann"], none⟩)

/-- A player of a story that is tapped on once. -/
def tappedOnce : List (Bool × Command) := [(true, .start), (true, .next)]

theorem dissolve_wraps : Action.WrapsAll true (dissolve (.block [greeting])) (dissolve greeting) :=
  .cons (.wrap rfl) (.cons (.fork _ (.cons (.fork _ (.cons (.cue _ _) (.nil _))) (.nil _)))
    (.cons (.cue _ _) (.cons (.cue _ _) (.cons (.cue _ _) (.nil _)))))

/-- The greeting wrapped, the main timeline is ready earlier, and the background that is seen in
the end is that of the fork.  With another order of turns this is seen in the story as well. -/
theorem dissolve_in_any_order :
    let p := new (dissolve (.block [greeting])) promptConfig plainHost .empty
    let v := new (dissolve greeting) promptConfig plainHost .empty
    Action.WrapsAll true (dissolve (.block [greeting])) (dissolve greeting) ∧
      (∀ c ∈ tappedOnce, c.2.isPlain = true) ∧
      (p.watch tappedOnce).map (fun x ↦ x.2.stage.background) = [none, some "inner"] ∧
      ∃ seen stamps, v.Watches tappedOnce seen ∧ Ascending stamps ∧
        SameSeen stamps (p.watch tappedOnce) seen :=
  have hplain : ∀ c ∈ tappedOnce, c.2.isPlain = true := by decide
  have hrun := wrapping_in_any_order promptConfig plainHost .empty dissolve_wraps hplain
  ⟨dissolve_wraps, hplain, by decide +kernel, hrun.2.1 _ hrun.1.1⟩

/-- In the order in which the tasks became ready, the two stories do not show the same. -/
theorem wrapping_changes_order :
    Action.WrapsAll true (dissolve (.block [greeting])) (dissolve greeting) ∧
      (∀ c ∈ tappedOnce, c.2.isPlain = true) ∧
      ¬∃ stamps, SameSeen stamps
        ((new (dissolve (.block [greeting])) promptConfig plainHost .empty).watch tappedOnce)
        ((new (dissolve greeting) promptConfig plainHost .empty).watch tappedOnce) := by
  refine ⟨dissolve_wraps, by decide, ?_⟩
  rintro ⟨stamps, hsame⟩
  have hwrapped : ((new (dissolve (.block [greeting])) promptConfig plainHost .empty).watch
      tappedOnce).map (fun x ↦ x.2.stage.background) = [none, some "inner"] := by decide +kernel
  have hplain : ((new (dissolve greeting) promptConfig plainHost .empty).watch tappedOnce).map
      (fun x ↦ x.2.stage.background) = [none, some "main"] := by decide +kernel
  have hbackgrounds := hsame.backgrounds
  rw [hwrapped, hplain] at hbackgrounds
  exact absurd hbackgrounds (by decide)

end Player

end Storyline
