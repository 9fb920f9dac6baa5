import Storyline.Proofs.Playback.Pace

/-!
# How actions unfold

Performing an action leaves pauses and tasks behind, and nothing else that
concerns the times.  What it leaves behind is what the timetable says of the
action: when it returns and settles, and which actions it takes up.
-/

namespace Storyline

open Timetable

/-- The waits that occur while a story plays by itself and without voices. -/
def Wait.Tame : Wait → Prop
  | .tap _ (.fixed _) (.dwelling _) | .drained .. | .frame .. | .forward none => True
  | .sleep _ skips => skips = 0
  | _ => False

/-- An action whose voices cannot be played. -/
def Action.Unvoiced (voices : VoiceCache) (action : Action) : Prop :=
  ∀ path ∈ action.voicePaths, voices.contains path = false

def Errand.Tame (voices : VoiceCache) : Errand → Prop
  | .perform action _ _ => action.Unvoiced voices
  | _ => True

/-- Where an errand is at home: what is performed belongs to a walk, and whatever
only takes time to a task without a scope. -/
def Errand.BelongsTo (scope : Option Nat) : Errand → Prop
  | perform _ x _ | drain x _ _ _ => scope = some x
  | _ => scope = none

def Errand.isDrain : Errand → Bool
  | drain .. => true
  | _ => false

/-- A new task of a story; it does not complete the story. -/
structure Task.Fresh (voices : VoiceCache) (t : Task) : Prop where
  pauses : t.pauses = []
  agenda : ∀ e ∈ t.agenda, e.Tame voices ∧ e.BelongsTo t.scope ∧ e.isDrain = false

def Action.isWait : Action → Bool
  | .cue .waitForAll | .cue .waitForTap => true
  | _ => false

theorem Timer.isDue_iff_come {t : Timer} {now : Nat} : t.isDue now = true ↔ Come now t.due := by
  unfold Timer.isDue
  cases t.due <;> simp

/-- What has been left behind owes this. -/
def owed (now : Nat) (qs : List Pause) (ts : List Task) : List (Ticket × Option Nat) :=
  qs.flatMap Pause.debts ++ ts.flatMap (Task.debts now)

namespace Playback

/-- Part of a turn that leaves pauses and tasks behind and takes up actions. -/
structure Effect (qs : List Pause) (ts : List Task) (ds : List Dispatch) (p q : Playback) :
    Prop where
  moment : q.session.moment = p.session.moment
  pace : q.session.pace = p.session.pace
  parked : ∀ id, p.session.isParked id = true → q.session.isParked id = true
  serial : p.session.serial ≤ q.session.serial
  status : q.status = p.status
  failed : q.turn.failed = p.turn.failed
  agenda : q.turn.agenda = p.turn.agenda
  pauses : q.turn.pauses = p.turn.pauses ++ qs
  tasks : q.tasks = p.tasks ++ ts
  dispatches : q.dispatches = p.dispatches ++ ds
  times : ∀ d ∈ ds, d.time = p.session.now
  tame : ∀ x ∈ qs, x.wait.Tame
  onward : ∀ x ∈ qs, x.ending ≠ .completed
  waiting : ∀ x ∈ qs, ∀ id ∈ x.parks, q.session.isParked id = true

namespace Effect

variable {qs qs' : List Pause} {ts ts' : List Task} {ds ds' : List Dispatch} {p q r : Playback}

theorem of_smooth (h : p.Smooth q) : Effect [] [] [] p q where
  moment := h.stirs.moment
  pace := h.level.pace
  parked := fun id hid ↦ by rwa [Session.isParked, h.level.taps]
  serial := h.stirs.serial
  status := h.status
  failed := h.stirs.failed
  agenda := h.stirs.agenda
  pauses := by rw [h.stirs.pauses, List.append_nil]
  tasks := by rw [h.stirs.tasks, List.append_nil]
  dispatches := by rw [h.stirs.dispatches, List.append_nil]
  times := by simp
  tame := by simp
  onward := by simp
  waiting := by simp

theorem trans (h : Effect qs ts ds p q) (h' : Effect qs' ts' ds' q r) :
    Effect (qs ++ qs') (ts ++ ts') (ds ++ ds') p r where
  moment := h'.moment.trans h.moment
  pace := h'.pace.trans h.pace
  parked := fun id hid ↦ h'.parked id (h.parked id hid)
  serial := Nat.le_trans h.serial h'.serial
  status := h'.status.trans h.status
  failed := h'.failed.trans h.failed
  agenda := h'.agenda.trans h.agenda
  pauses := by rw [h'.pauses, h.pauses, List.append_assoc]
  tasks := by rw [h'.tasks, h.tasks, List.append_assoc]
  dispatches := by rw [h'.dispatches, h.dispatches, List.append_assoc]
  times := by
    intro d hd
    rcases List.mem_append.mp hd with hd | hd
    · exact h.times d hd
    · exact (h'.times d hd).trans (congrArg Moment.now h.moment)
  tame := by
    intro x hx
    rcases List.mem_append.mp hx with hx | hx
    · exact h.tame x hx
    · exact h'.tame x hx
  onward := by
    intro x hx
    rcases List.mem_append.mp hx with hx | hx
    · exact h.onward x hx
    · exact h'.onward x hx
  waiting := by
    intro x hx id hid
    rcases List.mem_append.mp hx with hx | hx
    · exact h'.parked id (h.waiting x hx id hid)
    · exact h'.waiting x hx id hid

theorem now (h : Effect qs ts ds p q) : q.session.now = p.session.now :=
  congrArg Moment.now h.moment

/-- Whatever is owed for what has been left behind is out. -/
theorem mem_tickets {now : Nat} {d : Ticket × Option Nat} (h : Effect qs ts ds p q)
    (hd : d ∈ owed now qs ts) : d.1 ∈ q.tickets := by
  have hmap : (owed now qs ts).map Prod.fst =
      qs.flatMap Pause.tickets ++ ts.flatMap Task.tickets := by
    simp only [owed, List.map_append, List.map_flatMap, Pause.map_debts, Task.map_debts]
  have hmem := List.mem_map_of_mem (f := Prod.fst) hd
  rw [hmap] at hmem
  simp only [tickets, h.pauses, h.tasks, List.flatMap_append, List.mem_append] at hmem ⊢
  exact hmem.elim (fun hq ↦ .inl (.inl (.inr hq))) fun ht ↦ .inr (.inr ht)

theorem after_smooth (h : Effect qs ts ds q r) (hp : p.Smooth q) : Effect qs ts ds p r :=
  (of_smooth hp).trans h

theorem leave {pause : Pause} (hp : p.Smooth q) (htame : pause.wait.Tame)
    (hending : pause.ending ≠ .completed)
    (hwaiting : ∀ id ∈ pause.parks, q.session.isParked id = true) :
    Effect [pause] [] [] p (q.leave pause) := by
  have h : Effect [pause] [] [] q (q.leave pause) := by
    refine ⟨rfl, rfl, fun _ h ↦ h, Nat.le_refl _, rfl, rfl, rfl, rfl,
      by simp [Playback.leave, updateTurn], by simp [Playback.leave, updateTurn], by simp,
      by simpa using htame, by simpa using hending, fun x hx ↦ ?_⟩
    rw [List.mem_singleton.mp hx]
    exact hwaiting
  exact h.after_smooth hp

theorem spawn (scope : Option Nat) (agenda : List Errand) (hp : p.Smooth q)
    (hc : q.session.cancelled = false) :
    Effect [] [⟨q.spawned, true, false, scope, false, agenda, []⟩] [] p (q.spawn scope agenda) := by
  have h : Effect [] [⟨q.spawned, true, false, scope, false, agenda, []⟩] [] q
      (q.spawn scope agenda) := by
    unfold Playback.spawn
    rw [if_neg (by simp [hc])]
    exact ⟨rfl, rfl, fun _ h ↦ h, Nat.le_refl _, rfl, rfl, rfl, by simp [addTask], rfl,
      by simp [addTask], by simp, by simp, by simp, by simp⟩
  exact h.after_smooth hp

theorem note (action : Action) (scope : Nat) (step : Option Nat) (hover : p.isOver = false) :
    Effect [] [] [⟨p.session.now, scope, step, action⟩] p (p.note action scope step) := by
  unfold Playback.note
  rw [if_neg (by simp [hover])]
  exact ⟨rfl, rfl, fun _ h ↦ h, Nat.le_refl _, rfl, rfl, rfl, by simp, by simp, rfl, by simp,
    by simp, by simp, by simp⟩

end Effect

/-! ## Waits for timers -/

section timers

variable {p : Playback}

/-- A sleep is over at once or leaves a pause behind. -/
theorem effect_sleep {ending : Ending} (d : Duration) (scopes : List Nat)
    (hc : p.session.cancelled = false) (hskips : p.session.skips = 0) (hending : ending ≠ .completed) :
    (Effect [] [] [] p (p.sleep d ending scopes) ∧ Come p.session.now (d.endFrom p.session.now)) ∨
      ∃ timer : Timer, timer.due = d.endFrom p.session.now ∧
        Effect [⟨.sleep timer 0, ending, scopes⟩] [] [] p (p.sleep d ending scopes) := by
  have hlook : p.arm.look (.sleep (p.timer (d.endFrom p.session.now)) p.session.skips) =
      (p.arm, if (p.timer (d.endFrom p.session.now)).isDue p.session.now then .ends true
        else .waits (.sleep (p.timer (d.endFrom p.session.now)) p.session.skips)) := by
    simp only [look, lookAtSleep, arm, update, hc, bne_self_eq_false, Bool.or_false,
      Bool.false_eq_true, if_false]
    split <;> rfl
  unfold Playback.sleep suspend
  simp only [hlook]
  by_cases hdue : (p.timer (d.endFrom p.session.now)).isDue p.session.now = true
  · left
    simp only [hdue, if_true]
    exact ⟨.of_smooth (p.smooth_arm.trans (smooth_finish _ hending)),
      Timer.isDue_iff_come.mp hdue⟩
  · right
    simp only [hdue, Bool.false_eq_true, if_false, hskips]
    exact ⟨_, rfl, .leave p.smooth_arm rfl hending (by simp [Pause.parks, Pause.park?])⟩

/-- An action that is parked dwells while it plays by itself. -/
theorem effect_park {ending : Ending} (d : Duration) (scopes : List Nat)
    (hc : p.session.cancelled = false) (hauto : p.session.autoPlay = true)
    (hfresh : ∀ t ∈ p.session.taps, t.id < p.session.serial) (hending : ending ≠ .completed) :
    (Effect [] [] [] p (p.park (.fixed d) ending scopes) ∧
        Come p.session.now (d.endFrom p.session.now)) ∨
      ∃ (park : Nat) (timer : Timer), timer.due = d.endFrom p.session.now ∧
        Effect [⟨.tap park (.fixed d) (.dwelling timer), ending, scopes⟩] [] [] p
          (p.park (.fixed d) ending scopes) := by
  obtain ⟨q, hq⟩ : ∃ q, q = p.update (fun s ↦ s.park.2) := ⟨_, rfl⟩
  have hst : p.Stirs q := hq ▸ p.stirs_park
  have hparked : q.session.isParked p.session.serial = true := by
    rw [hq]
    simp [update, Session.park, Session.isParked]
  have hlook : q.look (.tap p.session.serial (.fixed d) .off) =
      q.dwell p.session.serial (.fixed d) d := by
    have hc' : q.session.cancelled = false := by rw [hq]; exact hc
    have hauto' : q.session.autoPlay = true := by rw [hq]; exact hauto
    simp [look, lookAtTap, hc', hauto', hparked, beginLingering]
  have hdwell : p.park (.fixed d) ending scopes =
      q.suspend (.tap p.session.serial (.fixed d) .off) ending scopes := by
    rw [hq]
    rfl
  rw [hdwell]
  unfold suspend
  rw [hlook]
  unfold dwell
  dsimp only
  rw [hst.now]
  by_cases hdue : (q.timer (d.endFrom p.session.now)).isDue p.session.now = true
  · left
    simp only [hdue, if_true, moveOn]
    refine ⟨?_, Timer.isDue_iff_come.mp hdue⟩
    -- the action has been on the stack for a moment only
    have htaps : (q.arm.unpark p.session.serial).session.taps = p.session.taps := by
      rw [unpark_eq_touch, touch_session, hq]
      simp only [arm, update, Session.park, Session.unpark, List.filter_append]
      rw [List.filter_eq_self.mpr fun t ht ↦ by simpa using Nat.ne_of_lt (hfresh t ht)]
      simp
    have hsmooth : p.Smooth (q.arm.unpark p.session.serial) := by
      refine ⟨(hst.trans q.stirs_arm).trans (stirs_unpark _ _), ⟨?_, htaps⟩, ?_⟩
      · rw [unpark_eq_touch, touch_session, hq]
        rfl
      · rw [unpark_eq_touch, touch_status, hq]
        rfl
    exact .of_smooth (hsmooth.trans (smooth_finish _ hending))
  · right
    simp only [hdue, Bool.false_eq_true, if_false]
    refine ⟨p.session.serial, q.timer (d.endFrom p.session.now), rfl, ?_⟩
    have hstirs := hst.trans q.stirs_arm
    refine ⟨hstirs.moment, by rw [hq]; rfl, ?_, hstirs.serial, by rw [hq]; rfl, hstirs.failed,
      hstirs.agenda, ?_, ?_, ?_, by simp, by simp [Wait.Tame], by simpa using hending, ?_⟩
    · intro id hid
      rw [hq]
      simp only [Session.isParked, leave, updateTurn, arm, update, Session.park,
        List.any_append] at hid ⊢
      simp [hid]
    · rw [← hstirs.pauses]
      rfl
    · rw [List.append_nil]
      exact hstirs.tasks
    · rw [List.append_nil]
      exact hstirs.dispatches
    · intro x hx id hid
      rw [List.mem_singleton.mp hx] at hid
      obtain rfl : id = p.session.serial := by simpa [Pause.parks, Pause.park?] using hid
      exact hparked

end timers

/-! ## What is left behind -/

/-- A clearing that is right for the scopes from `lo` to below `hi`, which nobody
else knows of. -/
def Agrees (now lo hi : Nat) (debts : List (Ticket × Option Nat)) (X : Clearing) : Prop :=
  ∀ x, lo ≤ x → x < hi → X x = clears now debts x

/-- What has been left behind in a scope, with new scopes from `lo` to below `hi`:
its tickets there are released by the times `own`, its pauses are over by the times
`ret`, once the scope is clear if it has to wait for that, and it takes up the
given actions. -/
structure Plays (c : Config) (voices : VoiceCache) (now s lo hi : Nat) (own ret : Nat → Prop)
    (waits : Prop) (evs : List (Nat × Action)) (qs : List Pause) (ts : List Task)
    (ds : List Dispatch) : Prop where
  scopes : ∀ d ∈ owed now qs ts, d.1.scope = s ∨ lo ≤ d.1.scope ∧ d.1.scope < hi
  minds : ∀ q ∈ qs, ∀ x ∈ q.minds, x = s ∨ lo ≤ x ∧ x < hi
  taskMinds : ∀ t ∈ ts, ∀ x ∈ t.minds, lo ≤ x ∧ x < hi
  apart : ts.Pairwise (fun t u ↦ ∀ x ∈ t.minds, x ∉ u.minds)
  aside : ∀ q ∈ qs, ∀ x ∈ q.minds, ∀ t ∈ ts, x ∉ t.minds
  fresh : ∀ t ∈ ts, t.Fresh voices
  own : ∀ n, now ≤ n → ((∀ d ∈ owed now qs ts, d.1.scope = s → Come n d.2) ↔ own n)
  past : ∀ X, Agrees now lo hi (owed now qs ts) X → ∀ n, now ≤ n →
    (waits → ∀ tally, Come n (X s tally)) → ((∀ q ∈ qs, Come n (q.wait.past X now)) ↔ ret n)
  events : ∀ X, Agrees now lo hi (owed now qs ts) X →
    (ds.map (fun d ↦ (d.time, d.action)) ++
      ts.flatMap (fun t ↦ (prospect c X now t.home t.pauses t.agenda).1)).Perm evs

theorem owed_append {now : Nat} {qs qs' : List Pause} {ts ts' : List Task} :
    (owed now (qs ++ qs') (ts ++ ts')).Perm (owed now qs ts ++ owed now qs' ts') := by
  simp only [owed, List.flatMap_append, List.append_assoc]
  exact (List.perm_append_comm_assoc _ _ _).append_left _

namespace Plays

variable {c : Config} {voices : VoiceCache} {now s lo mid hi : Nat} {own own' ret ret' : Nat → Prop}
  {waits waits' : Prop} {evs evs' : List (Nat × Action)} {qs qs' : List Pause} {ts ts' : List Task}
  {ds ds' : List Dispatch}

theorem mem_owed_append {d : Ticket × Option Nat} :
    d ∈ owed now (qs ++ qs') (ts ++ ts') ↔ d ∈ owed now qs ts ∨ d ∈ owed now qs' ts' := by
  rw [owed_append.mem_iff, List.mem_append]

/-- One after the other, in the same scope. -/
theorem append (h : Plays c voices now s lo mid own ret waits evs qs ts ds)
    (h' : Plays c voices now s mid hi own' ret' waits' evs' qs' ts' ds') (hs : s < lo)
    (hlo : lo ≤ mid) (hmid : mid ≤ hi) :
    Plays c voices now s lo hi (fun n ↦ own n ∧ own' n) (fun n ↦ ret n ∧ ret' n) (waits ∨ waits')
      (evs ++ evs') (qs ++ qs') (ts ++ ts') (ds ++ ds') := by
  -- on its own scopes each part owes all that is owed
  have hagree : ∀ X, Agrees now lo hi (owed now (qs ++ qs') (ts ++ ts')) X →
      Agrees now lo mid (owed now qs ts) X ∧ Agrees now mid hi (owed now qs' ts') X := by
    intro X hX
    constructor
    · intro x hx hxmid
      rw [hX x hx (by omega)]
      funext tally
      refine ext_come fun n ↦ ?_
      simp only [come_clears]
      refine and_congr_right fun _ ↦ ⟨fun hall d hd ↦ hall d (mem_owed_append.mpr (.inl hd)), ?_⟩
      intro hall d hd hdx
      refine hall d ((mem_owed_append.mp hd).resolve_right fun hd' ↦ ?_) hdx
      rcases h'.scopes d hd' with he | he <;> omega
    · intro x hx hxhi
      rw [hX x (by omega) hxhi]
      funext tally
      refine ext_come fun n ↦ ?_
      simp only [come_clears]
      refine and_congr_right fun _ ↦ ⟨fun hall d hd ↦ hall d (mem_owed_append.mpr (.inr hd)), ?_⟩
      intro hall d hd hdx
      refine hall d ((mem_owed_append.mp hd).resolve_left fun hd' ↦ ?_) hdx
      rcases h.scopes d hd' with he | he <;> omega
  constructor
  case scopes =>
    intro d hd
    rcases mem_owed_append.mp hd with hd | hd
    · exact (h.scopes d hd).imp_right fun he ↦ by omega
    · exact (h'.scopes d hd).imp_right fun he ↦ by omega
  case minds =>
    intro q hq x hx
    rcases List.mem_append.mp hq with hq | hq
    · exact (h.minds q hq x hx).imp_right fun he ↦ by omega
    · exact (h'.minds q hq x hx).imp_right fun he ↦ by omega
  case taskMinds =>
    intro t ht x hx
    rcases List.mem_append.mp ht with ht | ht
    · have := h.taskMinds t ht x hx
      omega
    · have := h'.taskMinds t ht x hx
      omega
  case apart =>
    refine List.pairwise_append.mpr ⟨h.apart, h'.apart, fun t ht u hu x hx hxu ↦ ?_⟩
    have hxt := h.taskMinds t ht x hx
    have hxu := h'.taskMinds u hu x hxu
    omega
  case aside =>
    intro q hq x hx t ht hxt
    rcases List.mem_append.mp hq with hq | hq <;> rcases List.mem_append.mp ht with ht | ht
    · exact h.aside q hq x hx t ht hxt
    · have hq := h.minds q hq x hx
      have ht := h'.taskMinds t ht x hxt
      omega
    · have hq := h'.minds q hq x hx
      have ht := h.taskMinds t ht x hxt
      omega
    · exact h'.aside q hq x hx t ht hxt
  case fresh =>
    intro t ht
    rcases List.mem_append.mp ht with ht | ht
    · exact h.fresh t ht
    · exact h'.fresh t ht
  case own =>
    intro n hn
    rw [← h.own n hn, ← h'.own n hn]
    simp only [mem_owed_append]
    constructor
    · exact fun hall ↦ ⟨fun d hd ↦ hall d (.inl hd), fun d hd ↦ hall d (.inr hd)⟩
    · exact fun hall d hd ↦ hd.elim (hall.1 d) (hall.2 d)
  case past =>
    intro X hX n hn hwaits
    obtain ⟨hleft, hright⟩ := hagree X hX
    rw [← h.past X hleft n hn fun hw ↦ hwaits (.inl hw),
      ← h'.past X hright n hn fun hw ↦ hwaits (.inr hw)]
    exact List.forall_mem_append
  case events =>
    intro X hX
    obtain ⟨hleft, hright⟩ := hagree X hX
    refine .trans ?_ ((h.events X hleft).append (h'.events X hright))
    simp only [List.map_append, List.flatMap_append, List.append_assoc]
    exact (List.perm_append_comm_assoc _ _ _).append_left _

/-- Nothing is left behind, and nothing is to be waited for. -/
theorem nothing (hret : ∀ n, now ≤ n → ret n) (hown : ∀ n, now ≤ n → own n)
    (hevs : ds.map (fun d ↦ (d.time, d.action)) = evs) :
    Plays c voices now s lo hi own ret waits evs [] [] ds where
  scopes := by simp [owed]
  minds := by simp
  taskMinds := by simp
  apart := .nil
  aside := by simp
  fresh := by simp
  own := fun n hn ↦ ⟨fun _ ↦ hown n hn, fun _ ↦ by simp [owed]⟩
  past := fun X _ n hn _ ↦ ⟨fun _ ↦ hret n hn, fun _ ↦ by simp⟩
  events := fun X _ ↦ by simp [hevs]

/-- A task that only owes, and takes nothing up. -/
theorem task {t : Task} (hscope : t.scope = none) (hfresh : t.Fresh voices)
    (hidle : actionsOf t.agenda = [])
    (hscopes : ∀ d ∈ t.debts now, d.1.scope = s)
    (hown : ∀ n, now ≤ n → ((∀ d ∈ t.debts now, Come n d.2) ↔ own n)) (hret : ∀ n, now ≤ n → ret n) :
    Plays c voices now s lo hi own ret waits [] [] [t] [] where
  scopes := by
    intro d hd
    simp only [owed, List.flatMap_nil, List.nil_append, List.flatMap_singleton] at hd
    exact .inl (hscopes d hd)
  minds := by simp
  taskMinds := by
    intro u hu x hx
    rw [List.mem_singleton.mp hu] at hx
    simp [Task.minds, hscope, hfresh.pauses] at hx
  apart := List.pairwise_singleton _ _
  aside := by simp
  fresh := by
    intro u hu
    rwa [List.mem_singleton.mp hu]
  own := by
    intro n hn
    rw [← hown n hn]
    simp only [owed, List.flatMap_nil, List.nil_append, List.flatMap_singleton]
    exact ⟨fun hall d hd ↦ hall d hd (hscopes d hd), fun hall d hd _ ↦ hall d hd⟩
  past := fun X _ n hn _ ↦ ⟨fun _ ↦ hret n hn, fun _ ↦ by simp⟩
  events := by
    intro X _
    simp [prospect_idle hidle]

/-- A pause of a holder. -/
theorem held {q : Pause} {ticket : Ticket} (htickets : q.tickets = [ticket])
    (hscope : ticket.scope = s) (hminds : ∀ x ∈ q.minds, x = s)
    (hover : ∀ X n, now ≤ n → (Come n (q.wait.past X now) ↔ Come n q.wait.due)) :
    Plays c voices now s lo hi (fun n ↦ Come n q.wait.due) (fun n ↦ Come n q.wait.due) waits []
      [q] [] [] where
  scopes := by
    intro d hd
    simp only [owed, List.flatMap_singleton, Pause.debts, htickets, List.map_cons, List.map_nil,
      List.flatMap_nil, List.append_nil, List.mem_singleton] at hd
    exact .inl (hd ▸ hscope)
  minds := by
    intro x hx y hy
    rw [List.mem_singleton.mp hx] at hy
    exact .inl (hminds y hy)
  taskMinds := by simp
  apart := .nil
  aside := by simp
  fresh := by simp
  own := by
    intro n hn
    simp [owed, Pause.debts, htickets, hscope]
  past := by
    intro X _ n hn _
    simpa using hover X n hn
  events := fun X _ ↦ by simp

/-- Nothing is left behind of a wait for the counts of the scope, or a pause. -/
theorem drained {tally : Tally} {guarded : Bool} {ending : Ending} {scopes : List Nat}
    (hending : ending.ticket? = none) (hret : ∀ n, now ≤ n → ret n) (hown : ∀ n, now ≤ n → own n) :
    Plays c voices now s lo hi own ret True [] [⟨.drained s tally guarded, ending, scopes⟩] [] [] where
  scopes := by simp [owed, Pause.debts, Pause.tickets, hending]
  minds := by simp [Pause.minds]
  taskMinds := by simp
  apart := .nil
  aside := by simp
  fresh := by simp
  own := fun n hn ↦ ⟨fun _ ↦ hown n hn, fun _ ↦ by simp [owed, Pause.debts, Pause.tickets, hending]⟩
  past := by
    intro X _ n hn hwaits
    refine ⟨fun _ ↦ hret n hn, fun _ q hq ↦ ?_⟩
    rw [List.mem_singleton.mp hq]
    exact hwaits trivial tally
  events := fun X _ ↦ by simp

/-- A block is over when the scope of its parts is clear and they have returned. -/
theorem enclose {inner : Nat} {l : List Pause}
    (h : Plays c voices now inner lo mid own ret True evs qs ts ds) (hinner : inner < lo)
    (hs : s < inner) (hlo : lo ≤ mid) (hmid : mid ≤ hi)
    (hl : (l = [] ∧ ∀ d ∈ owed now qs ts, d.1.scope ≠ inner) ∨
      ∃ guarded scopes, l = [⟨.drained inner .actions guarded, .nothing, scopes⟩]) :
    Plays c voices now s inner hi (fun _ ↦ True) (fun n ↦ own n ∧ ret n) False evs (qs ++ l) ts ds := by
  have howed : owed now (qs ++ l) ts = owed now qs ts := by
    rcases hl with ⟨rfl, -⟩ | ⟨guarded, scopes, rfl⟩
    · rw [List.append_nil]
    · simp [owed, Pause.debts, Pause.tickets, Ending.ticket?]
  have hminds : ∀ q ∈ l, ∀ x ∈ q.minds, x = inner := by
    rcases hl with ⟨rfl, -⟩ | ⟨guarded, scopes, rfl⟩ <;> simp [Pause.minds]
  have hagree : ∀ X, Agrees now inner hi (owed now qs ts) X → Agrees now lo mid (owed now qs ts) X :=
    fun X hX x hx hxmid ↦ hX x (by omega) (by omega)
  have hclear : ∀ X, Agrees now inner hi (owed now qs ts) X → ∀ n, now ≤ n →
      (Come n (X inner .actions) ↔ own n) ∧ (own n → ∀ tally, Come n (X inner tally)) := by
    intro X hX n hn
    rw [hX inner (Nat.le_refl _) (by omega), ← h.own n hn]
    refine ⟨?_, fun hall tally ↦ come_clears.mpr ⟨hn, fun d hd hx _ ↦ hall d hd hx⟩⟩
    rw [come_clears]
    exact ⟨fun hall d hd hx ↦ hall.2 d hd hx rfl, fun hall ↦ ⟨hn, fun d hd hx _ ↦ hall d hd hx⟩⟩
  constructor
  case scopes =>
    rw [howed]
    intro d hd
    rcases h.scopes d hd with he | he <;> omega
  case minds =>
    intro q hq x hx
    rcases List.mem_append.mp hq with hq | hq
    · rcases h.minds q hq x hx with he | he <;> omega
    · have := hminds q hq x hx
      omega
  case taskMinds =>
    intro t ht x hx
    have := h.taskMinds t ht x hx
    omega
  case apart => exact h.apart
  case aside =>
    intro q hq x hx t ht hxt
    rcases List.mem_append.mp hq with hq | hq
    · exact h.aside q hq x hx t ht hxt
    · have hq := hminds q hq x hx
      have ht := h.taskMinds t ht x hxt
      omega
  case fresh => exact h.fresh
  case own =>
    rw [howed]
    refine fun n hn ↦ ⟨fun _ ↦ trivial, fun _ d hd hds ↦ ?_⟩
    rcases h.scopes d hd with he | he <;> omega
  case past =>
    rw [howed]
    intro X hX n hn _
    obtain ⟨hactions, hall⟩ := hclear X hX n hn
    rw [List.forall_mem_append]
    constructor
    · rintro ⟨hqs, hrest⟩
      have hown : own n := by
        rcases hl with ⟨-, hnone⟩ | ⟨guarded, scopes, rfl⟩
        · exact (h.own n hn).mp fun d hd hx ↦ absurd hx (hnone d hd)
        · exact hactions.mp (hrest _ (List.mem_singleton.mpr rfl))
      exact ⟨hown, (h.past X (hagree X hX) n hn fun _ ↦ hall hown).mp hqs⟩
    · rintro ⟨hown, hret⟩
      refine ⟨(h.past X (hagree X hX) n hn fun _ ↦ hall hown).mpr hret, fun q hq ↦ ?_⟩
      rcases hl with ⟨rfl, -⟩ | ⟨guarded, scopes, rfl⟩
      · cases hq
      · rw [List.mem_singleton.mp hq]
        exact hactions.mpr hown
  case events =>
    rw [howed]
    exact fun X hX ↦ h.events X (hagree X hX)

theorem weaken (h : Plays c voices now s lo hi own ret waits evs qs ts ds)
    (hown : ∀ n, now ≤ n → (own n ↔ own' n)) (hret : ∀ n, now ≤ n → (ret n ↔ ret' n))
    (hwaits : waits → waits') (hevs : evs.Perm evs') :
    Plays c voices now s lo hi own' ret' waits' evs' qs ts ds :=
  { h with
    own := fun n hn ↦ (h.own n hn).trans (hown n hn)
    past := fun X hX n hn hw ↦ (h.past X hX n hn fun hw' ↦ hw (hwaits hw')).trans (hret n hn)
    events := fun X hX ↦ (h.events X hX).trans hevs }

end Plays

end Playback

end Storyline
