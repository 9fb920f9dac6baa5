import Mathlib.Algebra.Order.BigOperators.Group.List
import Mathlib.Algebra.Order.Group.Nat
import Storyline.Proofs.Playback.Tolls

/-!
# The ticker of fast-forward

While fast-forward stays on, its ticker takes a tick at every multiple of the
interval.  A tick ends all sleeps and the latest wait for a tap, so that less is
charged for afterwards if there was any.
-/

namespace Storyline

namespace Session

/-- The next tick of a ticker that has begun at a time and has taken all skips. -/
def nextTick (start : Nat) (s : Session) : Option Nat :=
  s.config.fastForwardInterval.period.tickFrom start (s.skips + 1)

def TickDue (start : Nat) (s : Session) : Prop := ∃ due, s.nextTick start = some due ∧ due ≤ s.now

theorem TickDue.congr {start : Nat} {s s' : Session} (h : s'.TickDue start) (hnow : s'.now = s.now)
    (hskips : s'.skips = s.skips) (hconfig : s'.config = s.config) : s.TickDue start := by
  unfold TickDue nextTick at h ⊢
  rwa [← hnow, ← hskips, ← hconfig]

/-- What a turn of the ticker does: it may take a tick. -/
inductive Ticked (start : Nat) (s s' : Session) : Prop
  | stays (hskips : s'.skips = s.skips) (htaps : s'.taps = s.taps)
  | ticks (hdue : s.TickDue start) (hskips : s'.skips = s.skips + 1)
    (htaps : s'.taps = s.takeTap.taps)

end Session

/-- Whether a tap or a skip can still end a wait. -/
def Pause.IsHeld (s : Session) (x : Pause) : Prop :=
  match x.wait with
  | .tap park _ _ => s.isParked park = true
  | .sleep _ skips => s.skips ≤ skips
  | _ => False

/-- The ticker of fast-forward has yet to begin, or it waits for its next tick. -/
inductive Ticker (start : Nat) (s : Session) : List Errand → List Pause → Prop
  | begins (hnow : s.now = start) (hskips : s.skips = 0) : Ticker start s [.fastForward] []
  | waits {timer : Timer} (hdue : timer.due = s.nextTick start) :
    Ticker start s [] [⟨.forward (some (start, s.skips + 1, timer)), .nothing, []⟩]

section

variable {start : Nat} {s s' : Session} {r : Rate} {t : Task} {agenda : List Errand}
  {pauses : List Pause}

theorem Session.Ticked.fades (h : s.Ticked start s') (hserial : s.serial ≤ s'.serial) :
    s.Fades s' := by
  cases h with
  | stays hskips htaps =>
      exact .of_sublist hserial (Nat.le_of_eq hskips.symm) (htaps ▸ List.Subset.refl _)
  | ticks _ hskips htaps =>
      exact .of_sublist hserial (hskips ▸ Nat.le_succ _) (htaps ▸ Session.takeTap_subset)

theorem Ticker.congr (h : Ticker start s agenda pauses)
    (hnow : s'.now = s.now ∨ agenda = []) (hskips : s'.skips = s.skips)
    (hconfig : s'.config = s.config) : Ticker start s' agenda pauses := by
  cases h with
  | begins hstart hzero => exact .begins ((hnow.resolve_right (by simp)).trans hstart) (hskips.trans hzero)
  | waits hdue =>
      rw [← hskips]
      exact .waits (by rw [hdue, Session.nextTick, Session.nextTick, hskips, hconfig])

theorem isDue_iff {timer : Timer} (h : timer.due = s.nextTick start) :
    timer.isDue s.now = true ↔ s.TickDue start := by
  unfold Timer.isDue Session.TickDue
  rw [h]
  cases s.nextTick start <;> simp

theorem Ticker.toll (h : Ticker start s agenda pauses)
    (s' : Session) :
    (agenda.map (Errand.toll r)).sum + (pauses.map (Pause.toll r s')).sum = r.ticker := by
  cases h <;> simp [Errand.toll, Pause.toll, Wait.toll]

theorem Task.toll_ticker (h : Ticker start s t.agenda t.pauses) (s' : Session) :
    t.toll r s' = r.ticker := Ticker.toll h s'

end

namespace Playback

variable {p q : Playback} {start : Nat} {s s' : Session} {r : Rate} {task t : Task}

/-! ## A look at the ticker -/

/-- A tick skips and taps, and leaves the status as it is. -/
theorem fastForwardTick_facts (p : Playback) : p.fastForwardTick.status = p.status ∧
    p.fastForwardTick.session.skips = p.session.skips + 1 ∧
    p.fastForwardTick.session.taps = p.session.takeTap.taps := by
  refine ⟨?_, ?_, ?_⟩
  · rw [fastForwardTick, tap_eq_touch, touch_status, skip_eq_touch, touch_status,
      resetScopes_eq_touch, touch_status]
  · rw [fastForwardTick_session]
    rfl
  · rw [fastForwardTick_session]
    rfl

theorem lookAtForward_none (hon : p.session.fastForward = true)
    (hfires : (p.session.config.fastForwardInterval.period.tickFrom p.session.now 1).isSome = true) :
    p.lookAtForward none = p.waitForTick p.session.now 1 := by
  obtain ⟨due, hdue⟩ := Option.isSome_iff_exists.mp hfires
  simp [lookAtForward, hon, hdue]

theorem lookAtForward_due {ticks : Nat} {timer : Timer} (hon : p.session.fastForward = true)
    (hdue : timer.isDue p.session.now = true) :
    p.lookAtForward (some (start, ticks, timer)) = p.fastForwardTick.waitForTick start (ticks + 1) := by
  unfold lookAtForward
  rw [if_neg (by simp [hon])]
  dsimp only
  rw [if_pos hdue]

theorem lookAtForward_undue {ticks : Nat} {timer : Timer} (hon : p.session.fastForward = true)
    (hdue : ¬timer.isDue p.session.now = true) :
    p.lookAtForward (some (start, ticks, timer)) =
      (p, .waits (.forward (some (start, ticks, timer)))) := by
  unfold lookAtForward
  rw [if_neg (by simp [hon])]
  dsimp only
  rw [if_neg hdue]

/-- The ticker sets its timer for its next tick, after a tick if it was due. -/
theorem look_ticker {agenda : List Errand} {pauses : List Pause}
    (h : Ticker start p.session agenda pauses) (hon : p.session.fastForward = true)
    (hfires : (p.session.config.fastForwardInterval.period.tickFrom start 1).isSome = true) :
    ∃ ticker q timer,
      (agenda = [.fastForward] ∧ pauses = [] ∧ ticker = none ∨
        agenda = [] ∧ pauses = [⟨.forward ticker, .nothing, []⟩]) ∧
      p.look (.forward ticker) = (q, .waits (.forward (some (start, q.session.skips + 1, timer)))) ∧
      timer.due = q.session.nextTick start ∧ q.status = p.status ∧ p.session.Ticked start q.session := by
  cases h with
  | begins hnow hskips =>
      rw [← hnow] at hfires
      refine ⟨none, p.arm, p.timer (p.session.nextTick start), .inl ⟨rfl, rfl, rfl⟩, ?_, rfl, rfl,
        .stays rfl rfl⟩
      have hone : p.arm.session.skips + 1 = 1 := congrArg (· + 1) hskips
      rw [look, lookAtForward_none hon hfires, hone, Session.nextTick, hskips, hnow]
      rfl
  | @waits timer hdue =>
      by_cases htick : timer.isDue p.session.now = true
      · obtain ⟨hstatus, hskips, htaps⟩ := p.fastForwardTick_facts
        have hlook : p.lookAtForward (some (start, p.session.skips + 1, timer)) =
            p.fastForwardTick.waitForTick start (p.session.skips + 1 + 1) := lookAtForward_due hon htick
        generalize p.fastForwardTick = ticked at hstatus hskips htaps hlook
        refine ⟨some (start, p.session.skips + 1, timer), ticked.arm,
          ticked.timer (ticked.session.nextTick start), .inr ⟨rfl, rfl⟩, ?_, rfl, hstatus,
          .ticks ((isDue_iff hdue).mp htick) hskips htaps⟩
        rw [look, hlook, ← hskips]
        rfl
      · exact ⟨some (start, p.session.skips + 1, timer), p, timer, .inr ⟨rfl, rfl⟩,
          lookAtForward_undue hon htick, hdue, rfl, .stays rfl rfl⟩

/-! ## The turn of the ticker -/

/-- The playback while the ticker looks: it has left the table. -/
def vacated (task : Task) (p : Playback) : Playback :=
  (p.modifyTask task.id (fun t ↦ { t with agenda := [], pauses := [] })).updateTurn (fun _ ↦ .none)

/-- A turn that has not failed puts its task back, if there is something to wait for. -/
theorem endTurn_put (task : Task) (hgoes : p.turn.failed = false) (hne : p.turn.pauses ≠ []) :
    (p.endTurn task).session = p.session ∧ (p.endTurn task).status = p.status ∧
      (p.endTurn task).tasks = p.tasks.map (fun t ↦ if t.id == task.id then
        { t with agenda := p.turn.agenda, pauses := p.turn.pauses } else t) := by
  unfold endTurn
  dsimp only
  rw [if_neg (by simp [hgoes]), if_neg (by simpa using hne)]
  split
  · unfold wake
    split <;> exact ⟨rfl, rfl, rfl⟩
  · exact ⟨rfl, rfl, rfl⟩

/-- The ticker waits again after its turn. -/
theorem takeTurn_ticker {ticker : Option (Nat × Nat × Timer)} {w : Wait}
    (hticker : task.agenda = [.fastForward] ∧ task.pauses = [] ∧ ticker = none ∨
      task.agenda = [] ∧ task.pauses = [⟨.forward ticker, .nothing, []⟩])
    (hlook : (p.vacated task).look (.forward ticker) = (q, .waits w)) :
    (takeTurn task p).session = q.session ∧ (takeTurn task p).status = q.status ∧
      (takeTurn task p).tasks = p.tasks.map (fun t ↦ if t.id == task.id then
        { t with agenda := [], pauses := [⟨w, .nothing, []⟩] } else t) := by
  have hworked : p.worked task = q.leave ⟨w, .nothing, []⟩ := by
    have hsuspend : (p.vacated task).suspend (.forward ticker) .nothing [] =
        q.leave ⟨w, .nothing, []⟩ := by
      unfold suspend
      rw [hlook]
    rcases hticker with ⟨hagenda, hpauses, rfl⟩ | ⟨hagenda, hpauses⟩
    · rw [← hsuspend]
      simp only [worked, hagenda, hpauses, List.foldl_nil, proceed]
      have hfree : (p.begun task).turn.isFree = true := by
        simp [begun, updateTurn, Turn.ofTask, Turn.isFree, hpauses]
      rw [if_pos hfree]
      simp [begun, vacated, begin, updateTurn, Turn.ofTask, Turn.none, hpauses]
    · rw [← hsuspend]
      have hgoes : (p.begun task).turn.failed = false := rfl
      simp only [worked, hagenda, hpauses, List.foldl_cons, List.foldl_nil, proceed]
      rw [revisit_eq hgoes]
      simp [begun, vacated, aside, updateTurn, Turn.ofTask, Turn.none, hpauses, hagenda]
  have hst : (p.vacated task).Stirs q := by
    have hst := (p.vacated task).stirs_look (.forward ticker)
    rwa [hlook] at hst
  let left := q.leave ⟨w, .nothing, []⟩
  have hpauses : left.turn.pauses = [⟨w, .nothing, []⟩] :=
    congrArg (· ++ [(⟨w, .nothing, []⟩ : Pause)]) hst.pauses
  have hagenda : left.turn.agenda = [] := hst.agenda
  obtain ⟨hsession, hstatus, htasks⟩ :=
    endTurn_put (p := left) task hst.failed (by simp [hpauses])
  rw [takeTurn_eq, hworked]
  refine ⟨hsession, hstatus, htasks.trans ?_⟩
  have hsame : left.tasks = (p.vacated task).tasks := hst.tasks
  rw [hpauses, hagenda, hsame]
  simp only [vacated, modifyTask, updateTurn, List.map_map]
  refine List.map_congr_left fun t _ ↦ ?_
  by_cases he : t.id = task.id <;> simp [he]

/-! ## The turns beside it -/

/-- What is charged is charged for a ticker. -/
def perTicker : Rate := ⟨0, 0, 1⟩

/-- The other tasks stay as they are in a turn. -/
theorem takeTurn_others (ht : t ∈ p.tasks) (hne : t.id ≠ task.id) : t ∈ (takeTurn task p).tasks := by
  have hbegun : t ∈ (p.begun task).tasks := List.mem_map.mpr ⟨t, ht, by simp [hne]⟩
  have hworked : Extends true (p.begun task) (p.worked task) :=
    (extends_revisitAll (.inl rfl)).trans (extends_proceed (.inl rfl))
  obtain ⟨new, hnew, -⟩ := hworked.tasks
  rw [takeTurn_eq]
  exact Machine.endTurn_others (hnew ▸ List.mem_append_left _ hbegun) hne

/-- Fast-forward is on and has one ticker, which has begun at a time. -/
structure Races (id start : Nat) (p : Playback) : Prop where
  past : p.Past
  on : p.session.fastForward = true
  fires : (p.session.config.fastForwardInterval.period.tickFrom start 1).isSome = true
  ticker : ∃ t ∈ p.tasks, t.id = id ∧ Ticker start p.session t.agenda t.pauses
  sole : p.toll perTicker ≤ 1

/-- No other task waits for a tick. -/
theorem Races.awaitsTick {id : Nat} (h : Races id start p) (htask : task ∈ p.tasks)
    (hne : task.id ≠ id) : ∀ x ∈ task.pauses, x.wait.awaitsTick = false := by
  intro x hx
  by_contra hawaits
  obtain ⟨t, ht, hid, hticker⟩ := h.ticker
  have hone : 1 ≤ task.toll perTicker p.session := by
    have hpause : x.toll perTicker p.session = 1 := by
      obtain ⟨wait, ending, scopes⟩ := x
      cases wait <;> first | rfl | simp [Wait.awaitsTick] at hawaits
    refine Nat.le_trans (Nat.le_of_eq hpause.symm) (Nat.le_trans ?_ (Nat.le_add_left _ _))
    exact List.le_sum_of_mem (List.mem_map_of_mem hx)
  have hsole := h.sole
  obtain ⟨before, after, htasks⟩ := List.append_of_mem ht
  have hother : task ∈ before ++ after := by
    rw [htasks] at htask
    simp only [List.mem_append, List.mem_cons] at htask ⊢
    refine htask.imp_right fun h ↦ h.resolve_left fun he ↦ hne (he ▸ hid)
  have hle : task.toll perTicker p.session ≤
      ((before ++ after).map (Task.toll perTicker p.session)).sum :=
    List.le_sum_of_mem (List.mem_map_of_mem hother)
  simp only [toll, tollAt, htasks, List.map_append, List.map_cons, List.sum_append, List.sum_cons,
    Task.toll_ticker hticker p.session] at hsole hle
  simp only [perTicker] at hsole hle hone
  omega

/-- In its turn the ticker takes a tick if one is due; no other is due then. -/
theorem Races.takeTurn {id : Nat} {rest : List Nat} (h : Races id start p) (ho : Player.AtRest p)
    (hq : p.queue = task.id :: rest) (htask : task ∈ p.tasks) (hid : task.id = id) :
    let q := Playback.takeTurn task { p with queue := rest }
    (∃ t ∈ q.tasks, t.id = id ∧ Ticker start q.session t.agenda t.pauses) ∧
      p.session.Ticked start q.session ∧ p.session.Fades q.session ∧ ¬q.session.TickDue start ∧ q.Past ∧
      ∀ r, q.toll r = p.tollAt r q.session := by
  obtain ⟨t, ht, htid, hticker⟩ := h.ticker
  obtain rfl := List.inj_on_of_nodup_map ho.nodup_ids ht htask (htid.trans hid.symm)
  let left : Playback := { p with queue := rest }
  obtain ⟨ticker, q, timer, hkind, hlook, hdue, -, hticked⟩ :=
    look_ticker (p := left.vacated t) hticker h.on h.fires
  have hpunctual : (Wait.forward ticker).Punctual (left.vacated t).session.moment := by
    rcases hkind with ⟨-, -, rfl⟩ | ⟨-, hpauses⟩
    · trivial
    · exact ho.punctual t ht ⟨.forward ticker, .nothing, []⟩ (by simp [hpauses])
  have hsettled := (look_waits hpunctual hlook).1
  have hserial : p.session.serial ≤ q.session.serial := by
    have hst := (left.vacated t).stirs_look (.forward ticker)
    rw [hlook] at hst
    exact hst.serial
  obtain ⟨hsession, -, htasks⟩ := takeTurn_ticker (p := left) hkind hlook
  have hturn : (Playback.takeTurn t left).turn = .none := (ho.takeTurn hq ht).idle rfl
  have hidle : p.turn = .none := ho.idle rfl
  generalize Playback.takeTurn t left = after at hsession htasks hturn
  change after.tasks = p.tasks.map _ at htasks
  have hafter : Ticker start after.session []
      [⟨.forward (some (start, q.session.skips + 1, timer)), .nothing, []⟩] := by
    rw [hsession]
    exact .waits hdue
  refine ⟨⟨_, htasks ▸ List.mem_map_of_mem ht, ?_, ?_⟩, ?_, ?_, ?_, ?_, ?_⟩
  · simp [hid]
  · simpa using hafter
  · rw [hsession]
    exact hticked
  · rw [hsession]
    exact hticked.fades hserial
  · rw [hsession, ← isDue_iff hdue]
    simpa [Wait.Settled] using hsettled.2
  · intro park hpark
    rw [hsession]
    refine Nat.lt_of_lt_of_le (h.past park ?_) hserial
    simp only [parks, hturn, hidle, Turn.none, List.flatMap_nil, List.nil_append, htasks] at hpark ⊢
    obtain ⟨x, hx, hpark⟩ := List.mem_flatMap.mp hpark
    obtain ⟨old, hold, rfl⟩ := List.mem_map.mp hx
    split at hpark
    · cases hpark
    · exact List.mem_flatMap.mpr ⟨old, hold, hpark⟩
  · intro r
    have hsum := sum_modifyTask (Task.toll r q.session)
      (g := fun t ↦ { t with
        agenda := [], pauses := [⟨.forward (some (start, q.session.skips + 1, timer)), .nothing, []⟩] })
      ho.nodup_ids ht
    have hput : Task.toll r q.session { t with
        agenda := [], pauses := [⟨.forward (some (start, q.session.skips + 1, timer)), .nothing, []⟩] } =
        r.ticker := by simp [Task.toll, Pause.toll, Wait.toll]
    rw [hput, Task.toll_ticker hticker] at hsum
    simp only [toll, tollAt, hturn, hidle, hsession, htasks, Turn.none, List.map_nil, List.sum_nil]
    omega

theorem runTask_eq (hnodup : (p.tasks.map Task.id).Nodup) (htask : task ∈ p.tasks)
    (hwhole : task.aborted = false) : runTask task.id p = takeTurn task p := by
  unfold runTask
  split
  next hnone =>
    have := List.find?_eq_none.mp hnone task htask
    simp at this
  next other hsome =>
    obtain ⟨hother, hid⟩ := Orderly.task?_eq hsome
    obtain rfl := List.inj_on_of_nodup_map hnodup hother htask hid
    rw [if_neg (by simp [hwhole])]

/-- In a turn a tick is taken if it is due and the ticker has its turn; otherwise
nothing is added to what is charged. -/
theorem Races.runTask {id other : Nat} {rest : List Nat} (h : Races id start p)
    (ho : Player.AtRest p) (hwhole : ∀ t ∈ p.tasks, t.aborted = false) (hq : p.queue = other :: rest) :
    let q := Playback.runTask other { p with queue := rest }
    Races id start q ∧
      ((q.session.skips = p.session.skips ∧ ∀ r, r.held ≤ r.ahead → q.toll r ≤ p.toll r) ∨
        p.session.TickDue start ∧ ¬q.session.TickDue start ∧ p.session.Fades q.session ∧
          q.session.skips = p.session.skips + 1 ∧ q.session.taps = p.session.takeTap.taps ∧
            ∀ r, q.toll r = p.tollAt r q.session) := by
  obtain ⟨task, htask, rfl⟩ := List.mem_map.mp (ho.queued other (by simp [hq])).1
  have hmoment := (ho.runTask hq).moment
  have hsettings := settings_runTask (p := { p with queue := rest }) task.id
  have hrun : Playback.runTask task.id { p with queue := rest } =
      Playback.takeTurn task { p with queue := rest } :=
    runTask_eq (p := { p with queue := rest }) ho.nodup_ids htask (hwhole task htask)
  rw [hrun] at hmoment hsettings ⊢
  intro q
  have hconfig : q.session.config = p.session.config := congrArg Moment.config hmoment
  have hon : q.session.fastForward = true := (congrArg Settings.fastForward hsettings).trans h.on
  by_cases hid : task.id = id
  · obtain ⟨hticker, hticked, hfades, hundue, hpast, htoll⟩ := h.takeTurn ho hq htask hid
    have hle : ∀ r, q.toll r ≤ p.toll r := by
      intro r
      rw [htoll r]
      exact tollAt_le h.past hfades
    refine ⟨⟨hpast, hon, hconfig.symm ▸ h.fires, hticker, Nat.le_trans (hle _) h.sole⟩, ?_⟩
    cases hticked with
    | stays hskips htaps => exact .inl ⟨hskips, fun r _ ↦ hle r⟩
    | ticks hdue hskips htaps => exact .inr ⟨hdue, hundue, hfades, hskips, htaps, htoll⟩
  · have hpays : ∀ r, r.held ≤ r.ahead → Pays r 0 p q :=
      fun r hr ↦ pays_takeTurn hr ho hq htask (h.awaitsTick htask hid)
    have hticks := hpays perTicker (Nat.le_refl _)
    obtain ⟨t, ht, htid, hticker⟩ := h.ticker
    have hnow : q.session.now = p.session.now := congrArg Moment.now hmoment
    have hstays : t ∈ q.tasks :=
      takeTurn_others (p := { p with queue := rest }) ht fun he ↦ hid (he ▸ htid)
    refine ⟨⟨hticks.reparks.past h.past, hon, hconfig.symm ▸ h.fires,
      ⟨t, hstays, htid, hticker.congr (.inl hnow) hticks.skips hconfig⟩,
      Nat.le_trans (hticks.toll h.past) h.sole⟩, .inl ⟨hticks.skips, fun r hr ↦ (hpays r hr).toll h.past⟩⟩

/-- Whatever is asked of the playback, fast-forward stays on. -/
theorem Races.stirs {id : Nat} (h : Races id start p) (hst : p.Stirs q)
    (hf : p.session.Fades q.session) (hskips : q.session.skips = p.session.skips)
    (hon : q.session.fastForward = true) : Races id start q where
  past := (Reparks.of_stirs hst).past h.past
  on := hon
  fires := hst.config ▸ h.fires
  ticker := by
    obtain ⟨t, ht, hid, hticker⟩ := h.ticker
    exact ⟨t, hst.tasks ▸ ht, hid, hticker.congr (.inl hst.now) hskips hst.config⟩
  sole := Nat.le_trans (toll_le_of_stirs h.past hst hf) h.sole

/-- At rest the ticker waits for a tick that is still to come. -/
theorem Races.atRest {id : Nat} (h : Races id start p) (ho : Player.AtRest p) (hq : p.queue = []) :
    ¬p.session.TickDue start ∧
      ∃ t ∈ p.tasks, t.id = id ∧ Ticker start p.session [] t.pauses ∧ t.agenda = [] := by
  obtain ⟨t, ht, hid, hticker⟩ := h.ticker
  obtain ⟨hne, hsettled⟩ := ho.resting t ht (by simp) (by simp [hq])
  generalize hagenda : t.agenda = agenda, hpauses : t.pauses = pauses at hticker
  cases hticker with
  | begins => exact absurd hpauses hne
  | @waits timer hdue =>
      obtain ⟨-, hundue⟩ : p.session.fastForward = true ∧ timer.isDue p.session.now = false :=
        hsettled ⟨.forward (some (start, p.session.skips + 1, timer)), .nothing, []⟩ (by simp [hpauses])
      refine ⟨fun htick ↦ ?_, t, ht, hid, hpauses ▸ .waits hdue, hagenda⟩
      rw [(isDue_iff hdue).mpr htick] at hundue
      cases hundue

/-- While time passes, the ticker waits. -/
theorem Races.later {id time : Nat} (h : Races id start p) (ho : Player.AtRest p) (hq : p.queue = [])
    (hsession : q.session = { p.session with now := time }) (htasks : q.tasks = p.tasks)
    (hturn : q.turn = p.turn) : Races id start q := by
  have hf : p.session.Fades q.session := by
    rw [hsession]
    exact .of_sublist (Nat.le_refl _) (Nat.le_refl _) (List.Subset.refl _)
  have hparks : q.parks = p.parks := by simp only [parks, hturn, htasks]
  refine ⟨fun park hpark ↦ ?_, ?_, ?_, ?_, Nat.le_trans (toll_le h.past hf ?_ ?_ htasks) h.sole⟩
  · rw [hparks] at hpark
    exact Nat.lt_of_lt_of_le (h.past park hpark) hf.serial
  · rw [hsession]
    exact h.on
  · rw [hsession]
    exact h.fires
  · obtain ⟨-, t, ht, hid, hticker, hagenda⟩ := h.atRest ho hq
    refine ⟨t, htasks ▸ ht, hid, ?_⟩
    rw [hagenda]
    exact hticker.congr (.inr rfl) (by rw [hsession]) (by rw [hsession])
  · rw [hturn]
  · rw [hturn]

/-! ## What a tick ends -/

/-- A tap takes the latest parked action off the stack, if there is one. -/
theorem exists_taken (hne : s.taps ≠ []) (hnodup : (s.taps.map Parked.id).Nodup) :
    ∃ x ∈ s.taps, s.takeTap.isParked x.id = false := by
  have hlength : s.takeTap.taps.length < s.taps.length := by
    have hdrop := (List.dropWhile_sublist (fun t : Parked ↦ !t.live) (l := s.taps.reverse)).length_le
    have hpos := List.length_pos_iff.mpr hne
    simp only [Session.takeTap, List.length_reverse, List.length_tail] at hdrop ⊢
    omega
  obtain ⟨x, hx⟩ := List.exists_mem_of_length_pos (l := s.taps.drop s.takeTap.taps.length)
    (by rw [List.length_drop]; omega)
  refine ⟨x, List.mem_of_mem_drop hx, ?_⟩
  rw [Session.taps_eq_takeTap_append, List.map_append] at hnodup
  refine List.any_eq_false.mpr fun y hy he ↦ ?_
  exact (List.nodup_append.mp hnodup).2.2 y.id (List.mem_map_of_mem hy) x.id
    (List.mem_map_of_mem hx) (by simpa using he)

theorem tollAt_lt (hp : p.Past) (hf : p.session.Fades s') (ht : t ∈ p.tasks) {x : Pause}
    (hx : x ∈ t.pauses) (hlt : x.toll r s' < x.toll r p.session) : p.tollAt r s' < p.toll r := by
  have hpause : ∀ u ∈ p.tasks, ∀ y ∈ u.pauses, y.toll r s' ≤ y.toll r p.session :=
    fun u hu y hy ↦ pause_toll_le hp hf (.inr ⟨u, hu, hy⟩)
  have hturn : (p.turn.pauses.map (Pause.toll r s')).sum ≤
      (p.turn.pauses.map (Pause.toll r p.session)).sum :=
    sum_map_le fun y hy ↦ pause_toll_le hp hf (.inl hy)
  have hone : t.toll r s' < t.toll r p.session :=
    Nat.add_lt_add_left (List.sum_lt_sum _ _ (hpause t ht) ⟨x, hx, hlt⟩) _
  have htasks : (p.tasks.map (Task.toll r s')).sum < (p.tasks.map (Task.toll r p.session)).sum :=
    List.sum_lt_sum _ _ (fun u hu ↦ Nat.add_le_add_left (sum_map_le (hpause u hu)) _) ⟨t, ht, hone⟩
  unfold toll tollAt
  omega

/-- A tick ends a wait that a tap or a skip could still end. -/
theorem toll_ticked (hp : p.Past) (hf : p.session.Fades s')
    (hskips : s'.skips = p.session.skips + 1) (htaps : s'.taps = p.session.takeTap.taps)
    (hnodup : (p.session.taps.map Parked.id).Nodup)
    (hwaiters : p.session.taps.map Parked.id ⊆ p.tasks.flatMap Task.parks) (hr : 0 < r.held)
    (ht : t ∈ p.tasks) {x : Pause} (hx : x ∈ t.pauses) (hheld : x.IsHeld p.session) :
    p.tollAt r s' < p.toll r := by
  obtain ⟨wait, ending, scopes⟩ := x
  cases wait with
  | tap park kind auto =>
      have hparked : p.session.isParked park = true := hheld
      obtain ⟨y, hy, -⟩ := List.any_eq_true.mp hparked
      obtain ⟨gone, hgone, hout⟩ := exists_taken (List.ne_nil_of_mem hy) hnodup
      -- somebody waits for the action that the tap has taken
      obtain ⟨u, hu, hid⟩ := List.mem_flatMap.mp (hwaiters (List.mem_map_of_mem hgone))
      obtain ⟨⟨wait, ending, scopes⟩, hz, hid⟩ := List.mem_flatMap.mp hid
      refine tollAt_lt hp hf hu hz ?_
      cases wait with
      | tap other kind auto =>
          obtain rfl : gone.id = other := by simpa [Pause.parks, Pause.park?] using hid
          have hbefore : p.session.isParked gone.id = true :=
            List.any_eq_true.mpr ⟨gone, hgone, by simp⟩
          have hafter : s'.isParked gone.id = false := by
            unfold Session.isParked at hout ⊢
            rw [htaps, hout]
          simpa [Pause.toll, Wait.toll, hbefore, hafter] using hr
      | _ => simp [Pause.parks, Pause.park?] at hid
  | sleep timer skips =>
      have hle : p.session.skips ≤ skips := hheld
      refine tollAt_lt hp hf ht hx (Nat.mul_lt_mul_of_pos_left ?_ hr)
      omega
  | _ => exact hheld.elim

/-- What is charged for what is left of a story, and for what is ahead of it. -/
def perLeft : Rate := ⟨1, 1, 0⟩

def perAhead : Rate := ⟨1, 0, 0⟩

/-- A wait that can be ended is charged for beside what is ahead. -/
theorem toll_lt_of_held (ht : t ∈ p.tasks) {x : Pause} (hx : x ∈ t.pauses)
    (hheld : x.IsHeld p.session) : p.toll perAhead < p.toll perLeft := by
  have herrands : ∀ agenda : List Errand,
      (agenda.map (Errand.toll perAhead)).sum = (agenda.map (Errand.toll perLeft)).sum :=
    fun agenda ↦ congrArg List.sum (List.map_congr_left fun e _ ↦ by cases e <;> rfl)
  have hpause : ∀ x : Pause, x.toll perAhead p.session ≤ x.toll perLeft p.session := by
    intro ⟨wait, ending, scopes⟩
    cases wait <;> simp [Pause.toll, Wait.toll, perAhead, perLeft]
  have hlt : x.toll perAhead p.session < x.toll perLeft p.session := by
    obtain ⟨wait, ending, scopes⟩ := x
    cases wait with
    | tap park kind auto =>
        have hparked : p.session.isParked park = true := hheld
        simp [Pause.toll, Wait.toll, perAhead, perLeft, hparked]
    | sleep timer skips =>
        have hle : p.session.skips ≤ skips := hheld
        simp only [Pause.toll, Wait.toll, perAhead, perLeft]
        omega
    | _ => exact hheld.elim
  have htask : ∀ u ∈ p.tasks, u.toll perAhead p.session ≤ u.toll perLeft p.session :=
    fun u _ ↦ Nat.add_le_add (Nat.le_of_eq (herrands u.agenda)) (sum_map_le fun y _ ↦ hpause y)
  have hone : t.toll perAhead p.session < t.toll perLeft p.session :=
    Nat.add_lt_add_of_le_of_lt (Nat.le_of_eq (herrands t.agenda))
      (List.sum_lt_sum _ _ (fun y _ ↦ hpause y) ⟨x, hx, hlt⟩)
  exact Nat.add_lt_add_of_le_of_lt
    (Nat.add_le_add (Nat.le_of_eq (herrands p.turn.agenda)) (sum_map_le fun y _ ↦ hpause y))
    (List.sum_lt_sum _ _ htask ⟨t, ht, hone⟩)

/-- If no wait can be ended, only what is ahead is charged for. -/
theorem toll_of_not_held (hidle : p.turn = .none)
    (h : ∀ t ∈ p.tasks, ∀ x ∈ t.pauses, ¬x.IsHeld p.session) : p.toll perLeft = p.toll perAhead := by
  have hpause : ∀ t ∈ p.tasks, ∀ x ∈ t.pauses,
      x.toll perLeft p.session = x.toll perAhead p.session := by
    intro t ht x hx
    have hnot := h t ht x hx
    obtain ⟨wait, ending, scopes⟩ := x
    cases wait with
    | tap park kind auto =>
        have hnot : ¬p.session.isParked park = true := hnot
        simp [Pause.toll, Wait.toll, hnot]
    | sleep timer skips =>
        have hnot : ¬p.session.skips ≤ skips := hnot
        simp only [Pause.toll, Wait.toll, perLeft, perAhead]
        omega
    | _ => rfl
  simp only [toll, tollAt, hidle, Turn.none, List.map_nil, List.sum_nil]
  refine congrArg (0 + 0 + List.sum ·) (List.map_congr_left fun t ht ↦ ?_)
  exact congrArg ((t.agenda.map (Errand.toll perLeft)).sum + List.sum ·)
    (List.map_congr_left (hpause t ht))

end Playback

end Storyline
