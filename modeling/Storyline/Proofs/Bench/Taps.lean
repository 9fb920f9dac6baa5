import Storyline.Proofs.Bench.Shutdown
import Storyline.Proofs.Playback.Stack

/-!
# Tapping

Whatever a bench has been asked for, and whatever its tasks have performed, a tap
resumes the latest parked action that somebody waits for.  The dead actions above
it leave the stack with it and those below stay.  What has left the stack, by a
tap or otherwise, never comes back to it.
-/

namespace Storyline

namespace Bench

open Playback

/-- The parked actions of the bench whose fate is open. -/
def holding (b : Bench) : List Nat := (b.parks.filter (·.state = .parked)).map Park.id

/-- The parked actions that somebody waits for: the bench, or a pause of a task. -/
def awaited (b : Bench) : List Nat := b.holding ++ b.playback.parks

/-- A bench at a moment of the turn of a task, or between turns. -/
structure Scene where
  bench : Bench
  running : Option Task
  jobs : List Job

namespace Scene

def still (b : Bench) : Scene := ⟨b, none, []⟩

def machine (x : Scene) : Machine := ⟨x.bench.playback, x.running, x.jobs⟩

/-- What a bench holds, with the tasks at a moment. -/
def of (b : Bench) (m : Machine) : Scene := ⟨{ b with playback := m.playback }, m.running, m.jobs⟩

/-- Tasks have turns and time passes; between turns requests are carried out. -/
inductive Step : Scene → Scene → Prop
  | machine {b : Bench} {m n : Machine} (h : Machine.Step (fun _ _ ↦ False) m n) :
    Step (of b m) (of b n)
  | request {b b' : Bench} {r : Request} {response : Response} (h : b.handle r = .ok (b', response)) :
    Step (still b) (still b')
  | note {b : Bench} : Step (still b) (still (b.notePark .resumed))

inductive Runs (x : Scene) : Scene → Prop
  | refl : Runs x x
  | step {y z : Scene} (h : Runs x y) (hs : Step y z) : Runs x z

theorem Runs.trans {x y z : Scene} (h : Runs x y) (h' : Runs y z) : Runs x z := by
  induction h' with
  | refl => exact h
  | step _ hs ih => exact ih.step hs

theorem runs_of_machine {b : Bench} {m n : Machine} (h : Machine.Runs (fun _ _ ↦ False) m n) :
    Runs (of b m) (of b n) := by
  induction h with
  | refl => exact .refl
  | step _ hs ih => exact ih.step (.machine hs)

/-- Every run of a bench is one of these. -/
theorem runs_of_reaches {permits : Request → Prop} {b b' : Bench} (h : Reaches permits b b') :
    Runs (still b) (still b') := by
  induction h with
  | refl => exact .refl
  | @step c d _ hs ih =>
      refine ih.trans ?_
      cases hs with
      | passes hp => exact runs_of_machine (b := c) (Machine.runs_passes hp)
      | request _ hh => exact Runs.refl.step (.request hh)
      | note => exact Runs.refl.step .note

end Scene

/-! ## What a request does to the stack -/

/-- The stack is kept, and nothing comes back to it. -/
structure Keeps (b b' : Bench) : Prop where
  stacked : b.playback.Stacked b.holding [] → b'.playback.Stacked b'.holding []
  onward : b.session.Onward b'.session
  numbered : (∀ park ∈ b.parks, park.id < b.session.serial) →
    ∀ park ∈ b'.parks, park.id < b'.session.serial

section

variable {b b' c : Bench} {p q : Playback}

theorem Keeps.trans (h : Keeps b b') (h' : Keeps b' c) : Keeps b c :=
  ⟨fun hb ↦ h'.stacked (h.stacked hb), h.onward.trans h'.onward, fun hb ↦ h'.numbered (h.numbered hb)⟩

theorem Keeps.of_piles (h : Piles [] [] b.playback b'.playback) (hb : b'.parks = b.parks) :
    Keeps b b' where
  stacked := by
    have hholding : b'.holding = b.holding := by rw [holding, hb, holding]
    rw [hholding]
    exact h.keeps
  onward := h.onto.onward
  numbered := fun hlt park hpark ↦
    Nat.lt_of_lt_of_le (hlt park (hb ▸ hpark)) h.onto.serial

theorem Keeps.of_sinks (h : Sinks b.playback b'.playback) (hb : b'.parks = b.parks) : Keeps b b' :=
  .of_piles (.of_sinks h) hb

/-- A session takes the place of the old one that has parked nothing. -/
theorem sinks_touch {s : Session} {signals : List Signal} (h : p.session.Carries signals s)
    (htaps : s.taps.Sublist p.session.taps) (hc : s.cancelled = p.session.cancelled)
    (hq : q = p.touch s signals) : Sinks p q := by
  subst hq
  refine ⟨.of_touch h, ?_, ?_⟩ <;> rw [touch_session]
  · exact htaps
  · exact hc

theorem holding_notePark {state : ParkState} (hstate : state ≠ .parked) (b : Bench) :
    (b.notePark state).holding = b.holding.filter (fun id ↦ b.session.isParked id) := by
  unfold holding notePark
  simp only [List.filter_map, List.map_map, List.filter_filter]
  induction b.parks with
  | nil => rfl
  | cons park rest ih =>
      by_cases hparked : park.state = .parked <;> cases hon : b.session.isParked park.id <;>
        simp_all [Function.comp_def]

/-- What is off the stack is not waited for. -/
theorem keeps_notePark {state : ParkState} (hstate : state ≠ .parked) : Keeps b (b.notePark state) where
  stacked := by
    intro h
    have hheld := holding_notePark hstate b
    rw [hheld]
    refine ⟨h.stack.vacate ?_ fun id hin hnot ↦ ?_, h.closed, h.whole⟩
    · exact (List.filter_sublist.append (List.Sublist.refl _))
    · simp only [List.nil_append, List.mem_append, List.mem_filter, not_or, not_and] at hin hnot
      exact eq_false_of_ne_true (hnot.1 (hin.resolve_right hnot.2))
  onward := .of_ids (Nat.le_refl _) rfl
  numbered := by
    intro h park hpark
    obtain ⟨old, hold, rfl⟩ := List.mem_map.mp hpark
    split <;> exact h old hold

theorem keeps_unpark (id : Nat) : Keeps b (b.handleUnpark id).1 := by
  have hunparked : Keeps b (b.mapPlayback (.unpark id)) :=
    .of_sinks (sinks_touch (Session.carries_unpark id) List.filter_sublist rfl
      (unpark_eq_touch id)) rfl
  exact hunparked.trans (keeps_notePark (by simp))

theorem keeps_park : Keeps b b.handlePark.1 where
  stacked := by
    intro h
    have hheld : b.handlePark.1.holding = b.holding ++ [b.session.serial] := by
      simp [holding, handlePark, Session.park]
    refine ⟨(Session.Stacked.park h.stack).perm ?_, fun hover id hid ↦ ?_, h.whole⟩
    · rw [hheld, List.nil_append, List.append_assoc]
      exact List.perm_middle
    · have hgone := h.closed hover id hid
      have hlt : id < b.session.serial :=
        h.stack.numbered id (List.mem_append_right _ (List.mem_append_right _ hid))
      exact Session.stacks_park.onward.spent id hlt hgone
  onward := Session.stacks_park.onward
  numbered := by
    intro h park hpark
    rcases List.mem_append.mp hpark with hpark | hpark
    · exact Nat.lt_succ_of_lt (h park hpark)
    · rw [List.mem_singleton.mp hpark]
      exact Nat.lt_succ_self _

theorem keeps_dropPark {n : Nat} {park : Park} (hpark : b.parkAt n = .ok park) :
    Keeps b (b.handleDropPark n park).1 := by
  have hn : b.parks[n]? = some park := by
    unfold parkAt at hpark
    split at hpark
    next other hn => exact Except.ok.inj hpark ▸ hn
    next => cases hpark
  unfold handleDropPark
  split
  case isFalse => exact .of_piles (.refl [] _) rfl
  case isTrue hstate =>
    obtain ⟨hlt, hget⟩ := List.getElem?_eq_some_iff.mp hn
    have hsplit : b.parks = b.parks.take n ++ park :: b.parks.drop (n + 1) := by
      rw [← hget, List.getElem_cons_drop, List.take_append_drop]
    have hset : b.parks.set n { park with state := .dropped } =
        b.parks.take n ++ { park with state := .dropped } :: b.parks.drop (n + 1) :=
      List.set_eq_take_append_cons_drop.trans (if_pos hlt)
    have hids : (b.session.abandon park.id).taps.map Parked.id = b.session.taps.map Parked.id :=
      b.session.abandon_ids park.id
    refine ⟨fun h ↦ ⟨?_, fun hover id hid ↦ ?_, h.whole⟩, .of_ids (Nat.le_refl _) hids, ?_⟩
    · refine Session.Stacked.abandon (h.stack.perm ?_)
      unfold holding
      dsimp only
      rw [hset]
      conv_rhs => rw [hsplit]
      simp only [List.filter_append, List.filter_cons, hstate, decide_true, if_true, List.map_append,
        List.map_cons, List.nil_append, List.append_assoc, List.cons_append]
      exact List.perm_middle.symm
    · have hgone := h.closed hover id hid
      exact Session.isParked_eq_false.mpr (hids.symm ▸ Session.isParked_eq_false.mp hgone)
    · intro h other hother
      have hother : other ∈ b.parks.set n { park with state := .dropped } := hother
      rcases List.mem_or_eq_of_mem_set hother with hother | rfl
      · exact h other hother
      · exact h park (List.mem_of_getElem? hn)

theorem keeps_shutdown : Keeps b (b.mapPlayback .shutdown) := by
  cases hc : b.playback.session.cancelled with
  | true =>
      have hsame : b.playback.shutdown = b.playback := by
        unfold Playback.shutdown
        rw [if_pos hc]
      refine .of_piles ?_ rfl
      dsimp only [mapPlayback]
      rw [hsame]
      exact .refl [] _
  | false =>
      have hsession : b.playback.shutdown.session = b.playback.session.cancel := shutdown_session hc
      obtain ⟨calls, voiceEnd, hcancel⟩ := b.playback.session.cancel_eq
      have htaps : b.playback.shutdown.session.taps = [] := by rw [hsession, hcancel]
      have hserial : b.playback.shutdown.session.serial = b.playback.session.serial := by
        rw [hsession, hcancel]
        rfl
      have hnone : ∀ id, b.playback.shutdown.session.isParked id = false := by
        simp [Session.isParked, htaps]
      have hparks : b.playback.shutdown.parks = b.playback.parks := by
        have hturn : b.playback.shutdown.turn.pauses = b.playback.turn.pauses := by
          rw [shutdown_eq hc, abortOwned, wakeAll_eq]
          exact touch_pauses
        simp only [Playback.parks]
        rw [hturn, shutdown_tasks hc, List.flatMap_map]
        rfl
      refine ⟨fun h ↦ ⟨⟨?_, ?_, ?_, ?_, ?_⟩, fun _ id _ ↦ hnone id, fun t _ _ ↦ ?_⟩,
        ⟨Nat.le_of_eq hserial.symm, fun id _ _ ↦ hnone id⟩,
        fun h park hpark ↦ Nat.lt_of_lt_of_eq (h park hpark) hserial.symm⟩
      · exact (hparks.symm ▸ h.stack.single : _)
      · exact fun id hid ↦ hserial.symm ▸ h.stack.numbered id (hparks ▸ hid)
      all_goals dsimp only [mapPlayback]
      · simp [htaps]
      · simp [htaps]
      · simp [htaps]
      · rw [hsession, hcancel]

theorem keeps_handle {r : Request} {response : Response} (hb : Machine.Sound (.resting b.playback))
    (hcast : Machine.Cast (.resting b.playback)) (h : b.handle r = .ok (b', response)) : Keeps b b' := by
  have hfst : ∀ {c : Bench × Response}, (Except.ok c : Except Missing _) = .ok (b', response) →
      b' = c.1 := fun h ↦ by rw [Except.ok.inj h]
  have hsmooth : ∀ {c : Bench}, b.playback.Smooth c.playback → c.parks = b.parks → Keeps b c :=
    fun h hparks ↦ .of_piles (.of_smooth h) hparks
  cases r with
  | scope parent =>
      have hopened : ∀ parent, Keeps b (b.handleScope parent).1 := fun parent ↦
        .of_sinks (sinks_touch (Session.carries_openScope parent) (.refl _) rfl rfl) rfl
      cases parent with
      | none => exact hfst h ▸ hopened none
      | some n =>
          obtain ⟨id, -, h⟩ := exists_of_bind h
          exact hfst h ▸ hopened (some id)
  | dropScope n =>
      obtain ⟨id, -, h⟩ := exists_of_bind h
      exact hfst h ▸ hsmooth (.refl _) rfl
  | enter n tapBlocking =>
      obtain ⟨id, -, h⟩ := exists_of_bind h
      exact hfst h ▸ hsmooth (smooth_enter _ id tapBlocking) rfl
  | release n | dropTicket n =>
      rw [hfst h, handleTicket]
      split
      · exact hsmooth (.refl _) rfl
      · first
          | exact hsmooth (smooth_release _ _) rfl
          | exact hsmooth (.refl _) rfl
  | reset n =>
      obtain ⟨id, -, h⟩ := exists_of_bind h
      exact hfst h ▸ .of_sinks (sinks_touch (Session.carries_resetScope id) (.refl _) rfl
        (resetScope_eq_touch id)) rfl
  | resetScopes =>
      exact hfst h ▸ .of_sinks (sinks_touch Session.carries_resetScopes (.refl _) rfl
        resetScopes_eq_touch) rfl
  | drained n | untilDrained n | perform n | walk n =>
      obtain ⟨id, -, h⟩ := exists_of_bind h
      exact hfst h ▸ .of_piles (piles_addTask _ _ _ _) rfl
  | sleep | cancelled => exact hfst h ▸ .of_piles (piles_addTask _ _ _ _) rfl
  | spawn d path => exact hfst h ▸ .of_piles (piles_spawn _ _) rfl
  | skip => exact hfst h ▸ .of_sinks (sinks_touch Session.carries_skip (.refl _) rfl rfl) rfl
  | serial => exact hfst h ▸ .of_sinks (sinks_touch Session.carries_nextSerial (.refl _) rfl rfl) rfl
  | park => exact hfst h ▸ keeps_park
  | unpark n =>
      obtain ⟨park, -, h⟩ := exists_of_bind h
      exact hfst h ▸ keeps_unpark park.id
  | unparkId id => exact hfst h ▸ keeps_unpark id
  | dropPark n =>
      obtain ⟨park, hpark, h⟩ := exists_of_bind h
      exact hfst h ▸ keeps_dropPark hpark
  | next =>
      exact hfst h ▸ .of_sinks (sinks_touch Session.carries_takeTap (Session.takeTap_sublist _) rfl
        tap_eq_touch) rfl
  | present command => exact hfst h ▸ hsmooth (smooth_present _ _) rfl
  | presentIf command =>
      rw [hfst h, handlePresentIf]
      dsimp only
      split
      · exact hsmooth (smooth_present _ _) rfl
      · refine .of_sinks (sinks_touch (carries_amend _) ?_ ?_ rfl) rfl <;> unfold Session.amend <;>
          split <;> rfl
  | backlog line =>
      exact hfst h ▸ .of_sinks (sinks_touch (Session.carries_pushBacklog line) (.refl _) rfl rfl) rfl
  | playVoice path =>
      have hlevel := Session.level_playVoice (s := b.session) path
      exact hfst h ▸ .of_sinks (sinks_touch (Session.carries_playVoice path)
        (hlevel.taps ▸ .refl _) (congrArg Pace.cancelled hlevel.pace) rfl) rfl
  | voice path => exact hfst h ▸ hsmooth (.refl _) rfl
  | autoPlay on =>
      refine hfst h ▸ .of_sinks (sinks_touch (Session.carries_setAutoPlay on) ?_ ?_
        (setAutoPlay_eq_touch on)) rfl <;> unfold Session.setAutoPlay <;> split <;>
          rfl
  | fastForward on =>
      refine hfst h ▸ .of_sinks (sinks_touch (Session.carries_setFastForward on) ?_ ?_
        (setFastForward_eq_touch on)) rfl <;> unfold Session.setFastForward <;> split <;>
          rfl
  | advance ms =>
      rw [hfst h]
      have hpasses : b.playback.Passes (b.playback.advance ms) :=
        (Player.reaches_advance ms hb.orderly).1
      have hruns : Machine.Runs (fun _ _ ↦ False) (.resting b.playback)
          (.resting (b.playback.advance ms)) := Machine.runs_passes hpasses
      have honward := hruns.onward hb hcast
      exact ⟨fun hs ↦ (hruns.stacked hb hcast hs).1.2, honward, fun hlt park hpark ↦
        Nat.lt_of_lt_of_le (hlt park hpark) honward.serial⟩
  | shutdown => exact hfst h ▸ keeps_shutdown

/-- What is at rest after a request, and every task plays its part. -/
theorem sound_handle {r : Request} {response : Response} (hb : Machine.Sound (.resting b.playback))
    (hcast : Machine.Cast (.resting b.playback)) (h : b.handle r = .ok (b', response)) :
    Machine.Sound (.resting b'.playback) ∧ Machine.Cast (.resting b'.playback) := by
  have hrest : Player.AtRest b.playback := hb.orderly
  have hplays : ∀ {q : Playback}, (∀ t ∈ q.tasks, t.Cast) → Machine.Cast (.resting q) :=
    fun h ↦ ⟨h, fun hrun ↦ absurd rfl hrun⟩
  have hadded : ∀ {owned asks : Bool} {scope : Option Nat} {agenda : List Errand},
      (∀ e ∈ agenda, e.Yields) → Player.AtRest (b.playback.addTask owned asks scope agenda) ∧
        ∀ t ∈ (b.playback.addTask owned asks scope agenda).tasks, t.Cast := by
    intro owned asks scope agenda hy
    refine ⟨.of_orderly (Orderly.addTask owned asks scope agenda hrest), fun t ht ↦ ?_⟩
    rcases List.mem_append.mp ht with ht | ht
    · exact hcast.tasks t ht
    · rw [List.mem_singleton.mp ht]
      exact .inl ⟨by simp, hy⟩
  by_cases hr : r = .shutdown
  · subst hr
    have hb' : b' = b.mapPlayback .shutdown := by rw [← (Prod.mk.inj (Except.ok.inj h)).1]
    subst hb'
    refine ⟨Machine.sound_resting (.of_orderly (Orderly.shutdown hrest)), hplays fun t ht ↦ ?_⟩
    have ht : t ∈ b.playback.shutdown.tasks := ht
    cases hc : b.playback.session.cancelled with
    | true =>
        unfold Playback.shutdown at ht
        rw [if_pos hc] at ht
        exact hcast.tasks t ht
    | false =>
        rw [shutdown_tasks hc] at ht
        obtain ⟨old, hold, rfl⟩ := List.mem_map.mp ht
        exact hcast.tasks old hold
  · cases handled hrest hr h with
    | stirs hst =>
        exact ⟨Machine.sound_resting (.of_orderly (Orderly.stirs hrest hst)),
          hplays (hst.tasks ▸ hcast.tasks)⟩
    | passes ms hadvance hpasses =>
        have hruns : Machine.Runs (fun _ _ ↦ False) _ _ := Machine.runs_passes hpasses
        exact (hruns.induct (fun _ _ hf ↦ hf.elim) hb hcast fun k l hk hcast hstep ↦
          hstep.cast (fun _ _ hf ↦ hf.elim) hk hcast).symm
    | spawns agenda hy hspawned =>
        rw [hspawned]
        unfold spawn
        split
        · exact ⟨hb, hcast⟩
        · exact ⟨Machine.sound_resting (hadded hy).1, hplays (hadded hy).2⟩
    | starts asks scope agenda hy hadd =>
        exact hadd ▸ ⟨Machine.sound_resting (hadded hy).1, hplays (hadded hy).2⟩

end

/-! ## Every run -/

/-- What holds at every moment. -/
structure Tidy (x : Scene) : Prop where
  sound : x.machine.Sound
  cast : x.machine.Cast
  stacked : x.bench.playback.Stacked x.bench.holding []
  numbered : ∀ park ∈ x.bench.parks, park.id < x.bench.session.serial

theorem tidy_new (config : Config) (host : Host) (voices : VoiceCache) :
    Tidy (.still (new config host voices)) where
  sound := Machine.sound_resting (running_new config host voices).rest
  cast := ⟨by simp [Scene.still, Scene.machine, new, Playback.new], fun hrun ↦ absurd rfl hrun⟩
  stacked := by
    refine ⟨⟨?_, ?_, ?_, ?_, ?_⟩, ?_, ?_⟩ <;>
      simp [Scene.still, holding, Playback.parks, new, Playback.new, Session.new, Turn.none]
  numbered := by simp [Scene.still, new]

section

variable {x y : Scene}

theorem Tidy.step (h : Tidy x) (hs : x.Step y) : Tidy y ∧ x.bench.session.Onward y.bench.session := by
  cases hs with
  | @machine b m n hstep =>
      have hruns : Machine.Runs (fun _ _ ↦ False) m n := .single hstep
      obtain ⟨⟨hcast, hstacked⟩, hsound⟩ := hruns.stacked h.sound h.cast h.stacked
      have honward := hruns.onward h.sound h.cast
      exact ⟨⟨hsound, hcast, hstacked, fun park hpark ↦
        Nat.lt_of_lt_of_le (h.numbered park hpark) honward.serial⟩, honward⟩
  | @request b b' r response hh =>
      have hkeeps := keeps_handle h.sound h.cast hh
      obtain ⟨hsound, hcast⟩ := sound_handle h.sound h.cast hh
      exact ⟨⟨hsound, hcast, hkeeps.stacked h.stacked, hkeeps.numbered h.numbered⟩, hkeeps.onward⟩
  | @note b =>
      have hkeeps : Keeps b (b.notePark .resumed) := keeps_notePark (by simp)
      exact ⟨⟨h.sound, h.cast, hkeeps.stacked h.stacked, hkeeps.numbered h.numbered⟩, hkeeps.onward⟩

theorem Tidy.runs (h : Tidy x) (hr : x.Runs y) : Tidy y ∧ x.bench.session.Onward y.bench.session := by
  induction hr with
  | refl => exact ⟨h, .of_ids (Nat.le_refl _) rfl⟩
  | step _ hs ih =>
      obtain ⟨htidy, honward⟩ := ih
      obtain ⟨htidy', honward'⟩ := htidy.step hs
      exact ⟨htidy', honward.trans honward'⟩

/-- Off the stack for good. -/
def Spent (id : Nat) (x : Scene) : Prop := ∀ y, x.Runs y → y.bench.session.isParked id = false

theorem Tidy.spent {id : Nat} (h : Tidy x) (hid : id < x.bench.session.serial)
    (hp : x.bench.session.isParked id = false) : Spent id x :=
  fun _ hr ↦ (h.runs hr).2.spent id hid hp

/-- What a tap does, with or without anything to resume. -/
inductive Tapped (b : Bench) : Bool → Bench → Prop
  | latest {below dead : List Parked} {t : Parked} (htaps : b.session.taps = below ++ t :: dead)
    (hlive : t.id ∈ b.awaited) (hdead : ∀ d ∈ dead, d.id ∉ b.awaited) :
    Tapped b true { b with
      playback := (b.playback.update fun s ↦ { s with taps := below }).raise (.tap t.id) }
  | none (hdead : ∀ t ∈ b.session.taps, t.id ∉ b.awaited) :
    Tapped b false { b with playback := b.playback.update fun s ↦ { s with taps := [] } }

theorem Tapped.subset {b b' : Bench} {on : Bool} (h : Tapped b on b') :
    b'.session.taps ⊆ b.session.taps := by
  cases h with
  | @latest below dead t htaps =>
      rw [htaps]
      simp only [session, raise_eq]
      exact List.subset_append_left _ _
  | none => exact List.nil_subset _

/-- The law of the stack at a moment. -/
structure Lawful (x : Scene) : Prop where
  /-- Actions lie on the stack in the order in which they have been parked. -/
  ordered : x.bench.session.taps.Pairwise (fun t u ↦ t.id < u.id)
  live : ∀ t ∈ x.bench.session.taps, t.live = true ↔ t.id ∈ x.bench.awaited
  single : x.bench.awaited.Nodup
  /-- Between turns a tap tells whether a live action is on the stack, and resumes the latest one. -/
  next : ∀ b, x = .still b → ∃ b',
    b.handle .next = .ok (b', .flag (b.session.taps.any Parked.live)) ∧
      Tapped b (b.session.taps.any Parked.live) b' ∧
      ∀ t ∈ b.session.taps, t ∉ b'.session.taps → Spent t.id (.still b')
  unparked : ∀ b n park, x = .still b → b.parkAt n = .ok park →
    ∃ b', b.handle (.unpark n) = .ok (b', .nothing) ∧ Spent park.id (.still b')
  /-- In a turn, an action whose wait ends, by a tap or by playing by itself, leaves
  nothing on the stack, even if its wait ends as soon as it has begun. -/
  resumed : ∀ m, Machine.Beat x.machine m → m.running ≠ none → ∀ id < m.playback.session.serial,
    id ∈ x.bench.awaited ∨ x.bench.session.serial ≤ id → id ∉ (Scene.of x.bench m).bench.awaited →
      Spent id (.of x.bench m)

theorem any_live {b : Bench} (h : b.playback.Stacked b.holding []) :
    ∃ b', b.handle .next = .ok (b', .flag (b.session.taps.any Parked.live)) ∧
      Tapped b (b.session.taps.any Parked.live) b' := by
  have hlive : ∀ t ∈ b.session.taps, t.live = true ↔ t.id ∈ b.awaited := h.stack.live
  have hdies : ∀ t ∈ b.session.taps, t.live = false → t.id ∉ b.awaited := fun t ht hdead hin ↦ by
    rw [(hlive t ht).mpr hin] at hdead
    cases hdead
  refine ⟨b.mapPlayback .tap, ?_⟩
  have hhandle : b.handle .next = .ok (b.mapPlayback .tap, .flag b.playback.tapped) := rfl
  unfold mapPlayback at hhandle ⊢
  rcases h.tap_cases with ⟨below, t, dead, htaps, hon, hdead, htapped, htap⟩ | ⟨hdead, htapped, htap⟩
  · have htaps : b.session.taps = below ++ t :: dead := htaps
    have hany : b.session.taps.any Parked.live = true := by simp [htaps, hon]
    rw [hhandle, hany, htapped, htap]
    exact ⟨rfl, .latest htaps ((hlive t (by simp [htaps])).mp hon) fun d hd ↦
      hdies d (by simp [htaps, hd]) (hdead d hd)⟩
  · have hany : b.session.taps.any Parked.live = false :=
      List.any_eq_false.mpr fun t ht ↦ by simp [hdead t ht]
    rw [hhandle, hany, htapped, htap]
    exact ⟨rfl, .none fun t ht ↦ hdies t ht (hdead t ht)⟩

/-- In a turn only what is waited for goes onto the stack or stays live on it. -/
theorem Tidy.resumed {m : Machine} {id : Nat} (h : Tidy x) (hb : Machine.Beat x.machine m)
    (hm : m.running ≠ none) (hid : id < m.playback.session.serial)
    (hbefore : id ∈ x.bench.awaited ∨ x.bench.session.serial ≤ id)
    (hafter : id ∉ (Scene.of x.bench m).bench.awaited) : Spent id (.of x.bench m) := by
  have hstep : x.Step (.of x.bench m) := Scene.Step.machine (b := x.bench) (.beat hb)
  have htidy := (h.step hstep).1
  refine htidy.spent hid ?_
  by_contra hparked
  obtain ⟨t, ht, rfl⟩ := Session.mem_of_isParked (by simpa using hparked)
  have hdead : t.live = false := by
    cases hlive : t.live with
    | false => rfl
    | true => exact absurd ((htidy.stacked.stack.live t ht).mp hlive) hafter
  rcases (hb.piles h.sound h.cast hm).onto.taps t ht with hold | ⟨-, hlive⟩
  · have hlt := h.stacked.stack.issued t hold
    rcases hbefore with hbefore | hge
    · have hlive := (h.stacked.stack.live t hold).mpr hbefore
      rw [hdead] at hlive
      cases hlive
    · have hge : x.bench.playback.session.serial ≤ t.id := hge
      omega
  · rw [hdead] at hlive
    cases hlive

theorem Tidy.lawful (h : Tidy x) : Lawful x where
  ordered := h.stacked.stack.ascending
  live := h.stacked.stack.live
  single := h.stacked.stack.single
  next := by
    rintro b rfl
    obtain ⟨b', hhandle, htapped⟩ := any_live h.stacked
    refine ⟨b', hhandle, htapped, fun t ht hgone ↦ ?_⟩
    obtain ⟨htidy, honward⟩ := h.step (.request hhandle)
    refine htidy.spent (Nat.lt_of_lt_of_le (h.stacked.stack.issued t ht) honward.serial) ?_
    refine Session.isParked_eq_false.mpr fun hin ↦ ?_
    obtain ⟨u, hu, he⟩ := List.mem_map.mp hin
    exact hgone (h.stacked.stack.eq_of_id ht (htapped.subset hu) he ▸ hu)
  unparked := by
    rintro b n park rfl hpark
    have hhandle : b.handle (.unpark n) = .ok (b.handleUnpark park.id) := by
      simp only [handle, hpark]
      rfl
    obtain ⟨htidy, honward⟩ := h.step (.request hhandle)
    refine ⟨_, hhandle, htidy.spent ?_ ?_⟩
    · refine Nat.lt_of_lt_of_le (h.numbered park ?_) honward.serial
      unfold parkAt at hpark
      split at hpark
      next other hn => exact Except.ok.inj hpark ▸ List.mem_of_getElem? hn
      next => cases hpark
    · exact isParked_unpark_self b.playback park.id
  resumed := fun m hb hm id hid hbefore hafter ↦ h.resumed hb hm hid hbefore hafter

end

/-- At every moment of every run the stack keeps its law. -/
theorem tap_resumes_latest {config : Config} {host : Host} {voices : VoiceCache} {x : Scene}
    (h : Scene.Runs (.still (new config host voices)) x) : Lawful x :=
  ((tidy_new config host voices).runs h).1.lawful

/-- A line that waits for a tap, and two parked actions, the later of which is
dropped. -/
def pile : List (Bool × Request) :=
  [(true, .scope none), (true, .perform 0 (.cue (.talk ⟨"Hello.", [1], ["Ann"], none⟩)) none),
    (false, .park), (false, .park), (false, .dropPark 1)]

theorem pile_resumes_latest :
    ∃ b, (new .standard ⟨true, true, none, fun _ _ ↦ .zero⟩ .empty).follow pile = .ok b ∧
      b.session.taps.map Parked.live = [true, true, false] ∧ Lawful (.still b) := by
  have hstate : ((new .standard ⟨true, true, none, fun _ _ ↦ .zero⟩ .empty).follow pile).toOption.map
      (fun b ↦ b.session.taps.map Parked.live) = some [true, true, false] := by decide +kernel
  cases hb : (new .standard ⟨true, true, none, fun _ _ ↦ .zero⟩ .empty).follow pile with
  | error e => simp [hb, Except.toOption] at hstate
  | ok b =>
      simp only [hb, Except.toOption, Option.map_some, Option.some.injEq] at hstate
      exact ⟨b, rfl, hstate, tap_resumes_latest
        (Scene.runs_of_reaches (reaches_follow (fun _ _ ↦ trivial) hb : Reaches (fun _ ↦ True) _ _))⟩

end Bench

end Storyline
