import Mathlib.Algebra.Order.Group.Nat
import Storyline.Proofs.Playback.Conclusion
import Storyline.Proofs.Playback.FastForward
import Storyline.Proofs.Player.Schedule

/-!
# Fast-forward comes to the end

While fast-forward stays on, a story is completed after as many ticks as it has
actions, however long they take.  Whenever nothing is ready and the story is not
over, something is waited for that a tick can end; so there are never more ticks
than there are actions that the ticks have ended.
-/

namespace Storyline

/-- A ticket is held by a wait that a tap or a skip can end, if the wait is not over. -/
theorem Pause.isHeld_of_settled {s : Session} {x : Pause} (h : x.wait.Settled s)
    (hholder : x.isHolder = true) : x.IsHeld s := by
  obtain ⟨wait, ending, scopes⟩ := x
  cases wait with
  | tap park kind auto => cases auto <;> exact h.2.1
  | sleep timer skips => exact Nat.le_of_eq h.2.2
  | _ => cases hholder

theorem Pause.Fits.ends_nothing {x : Pause} (h : x.Fits .ticker) : x.ending = .nothing := by
  obtain ⟨wait, ending, scopes⟩ := x
  cases wait <;> first | exact h.1 | exact h.elim

theorem Pause.Fits.drained {x : Pause} (h : x.Fits .timeline) (hholder : ¬x.isHolder = true) :
    ∃ scope tally guarded, x.wait = .drained scope tally guarded := by
  obtain ⟨wait, ending, scopes⟩ := x
  cases wait with
  | tap | sleep => exact absurd rfl hholder
  | drained scope tally guarded => exact ⟨scope, tally, guarded, rfl⟩
  | _ => exact h.elim

/-- Without tickets nothing is counted. -/
theorem Session.Books.pending_eq_zero {s : Session} {parks : List Nat} (h : s.Books [] parks)
    (scope : Nat) (tally : Tally) : s.pending scope tally = 0 := by
  unfold pending
  split
  next sc hsc =>
    have hbalanced := h.balanced sc (List.mem_of_find?_eq_some hsc)
    cases tally with
    | actions => exact hbalanced.actions
    | taps => exact hbalanced.taps
  next => rfl

namespace Player

open Playback Machine

variable {actions : List Action} {config : Config} {id start time bound : Nat} {p q : Playback}

/-! ## While the story is playing -/

/-- At rest a ticket is held by a wait that can be ended. -/
theorem held_of_ticket (hl : p.Ledger .timeline [root] [] []) (ho : AtRest p) (hq : p.queue = [])
    (hne : p.tickets ≠ []) : ∃ t ∈ p.tasks, ∃ x ∈ t.pauses, x.IsHeld p.session := by
  rw [(atRest_tickets hl ho hq).1] at hne
  obtain ⟨ticket, hticket⟩ := List.exists_mem_of_ne_nil _ hne
  obtain ⟨x, hx, hticket⟩ := List.mem_flatMap.mp hticket
  obtain ⟨t, ht, hx⟩ := List.mem_flatMap.mp hx
  obtain ⟨kind, hfits⟩ := hl.tasks t ht
  have hholder : x.isHolder = true := by
    rw [← (hfits.pauses x hx).holder]
    exact Option.isSome_of_mem (Option.mem_toList.mp hticket)
  have hsettled := (ho.resting t ht (by simp) (by simp [hq])).2 x hx
  exact ⟨t, ht, x, hx, Pause.isHeld_of_settled hsettled hholder⟩

/-- At rest, while the story is playing, something is waited for that a tick can end. -/
theorem held_of_playing (hl : p.Ledger .timeline [root] [] []) (ho : AtRest p) (hq : p.queue = [])
    (hgoes : Going (resting p)) (htime : ¬p.session.OutOfTime) (hplays : p.status = .playing) :
    ∃ t ∈ p.tasks, ∃ x ∈ t.pauses, x.IsHeld p.session := by
  cases hgoes.concluding with
  | ended hover => exact absurd hplays hover
  | outOfTime hout => exact absurd hout htime
  | turns hrun => exact absurd rfl hrun
  | @waits t ht hp ha hends =>
      obtain ⟨hne, hsettled⟩ := ho.resting t ht (by simp) (by simp [hq])
      obtain ⟨kind, hfits⟩ := hl.tasks t ht
      cases kind with
      | ticker =>
          -- what only ticks does not end the story
          exfalso
          rcases hends with ⟨e, he, scope, tally, guarded, rfl⟩ | ⟨x, hx, hends⟩
          · exact hfits.agenda _ he
          · have hnothing := (hfits.pauses x hx).ends_nothing
            rw [hends] at hnothing
            cases hnothing
      | timeline =>
          obtain ⟨x, hx⟩ := List.exists_mem_of_ne_nil _ hne
          by_cases hholder : x.isHolder = true
          · exact ⟨t, ht, x, hx, Pause.isHeld_of_settled (hsettled x hx) hholder⟩
          · refine held_of_ticket hl ho hq fun hnone ↦ ?_
            obtain ⟨scope, tally, guarded, hwait⟩ := (hfits.pauses x hx).drained hholder
            have hpending := hsettled x hx
            rw [hwait] at hpending
            have hbooks := hl.books
            rw [hnone] at hbooks
            exact hpending.2 (hbooks.pending_eq_zero scope tally)

/-! ## Ticks against what is left -/

/-- A story that goes on while its ticker takes ticks.  Together with what is left to
be ended there are never more ticks than a bound. -/
structure Chase (id start bound : Nat) (p : Playback) : Prop where
  races : Races id start p
  going : Going (resting p)
  left : p.status = .playing → p.session.skips + p.toll perLeft ≤ bound
  /-- A tick that finds nothing to end any more has been paid for by a wait that is
  over since the clock was moved. -/
  ahead : p.status = .playing → p.session.TickDue start → p.session.skips + p.toll perAhead < bound

theorem Chase.stirs (h : Chase id start bound p) (hst : p.Stirs q)
    (hf : p.session.Fades q.session) (hskips : q.session.skips = p.session.skips)
    (hon : q.session.fastForward = true) (hstatus : q.status = p.status)
    (hrunning : q.session.cancelled = p.session.cancelled) : Chase id start bound q where
  races := h.races.stirs hst hf hskips hon
  going := h.going.stirs hst hstatus hrunning
  left := by
    intro hplays
    have hle := h.left (hstatus ▸ hplays)
    have htoll := toll_le_of_stirs (r := perLeft) h.races.past hst hf
    omega
  ahead := by
    intro hplays hdue
    have hlt := h.ahead (hstatus ▸ hplays) (hdue.congr hst.now hskips hst.config)
    have htoll := toll_le_of_stirs (r := perAhead) h.races.past hst hf
    omega

/-- A tick ends something, if anything is waited for that it can end. -/
theorem tollAt_lt_of_tick {s : Session} (hp : p.Past) (hl : p.Ledger .timeline [root] [] [])
    (ho : AtRest p) (hf : p.session.Fades s) (hskips : s.skips = p.session.skips + 1)
    (htaps : s.taps = p.session.takeTap.taps)
    (hheld : ∃ t ∈ p.tasks, ∃ x ∈ t.pauses, x.IsHeld p.session) :
    p.tollAt perLeft s < p.toll perLeft := by
  obtain ⟨t, ht, x, hx, hheld⟩ := hheld
  have hwaiters := hl.books.taps_subset
  simp only [List.nil_append, parks, show p.turn = .none from ho.idle rfl, Turn.none,
    List.flatMap_nil] at hwaiters
  exact toll_ticked hp hf hskips htaps hl.books.taps_nodup hwaiters Nat.one_pos ht hx hheld

theorem Chase.runTask {other : Nat} {rest : List Nat} (h : Chase id start bound p)
    (hl : p.Ledger .timeline [root] [] []) (ho : AtRest p) (hq : p.queue = other :: rest) :
    Chase id start bound (Playback.runTask other { p with queue := rest }) := by
  obtain ⟨hraces, hturn⟩ := h.races.runTask ho hl.whole hq
  have hgoing := h.going.runTask ho hq
  have hmoment := (ho.runTask hq).moment
  have hplays : (Playback.runTask other { p with queue := rest }).status = .playing →
      p.status = .playing := by
    intro hplays
    rcases status_runTask ho hq with he | he
    · exact he ▸ hplays
    · cases he.symm.trans hplays
  generalize Playback.runTask other { p with queue := rest } = q at *
  rcases hturn with ⟨hskips, htoll⟩ | ⟨hdue, hundue, hfades, hskips, htaps, htoll⟩
  · refine ⟨hraces, hgoing, fun hs ↦ ?_, fun hs hdue ↦ ?_⟩
    · have hle := h.left (hplays hs)
      have := htoll perLeft (Nat.le_refl _)
      omega
    · have hlt := h.ahead (hplays hs)
        (hdue.congr (congrArg Moment.now hmoment) hskips (congrArg Moment.config hmoment))
      have := htoll perAhead (Nat.zero_le _)
      omega
  · refine ⟨hraces, hgoing, fun hs ↦ ?_, fun _ hdue ↦ absurd hdue hundue⟩
    have hle := h.left (hplays hs)
    have hlt := h.ahead (hplays hs) hdue
    rw [hskips, htoll perLeft]
    by_cases hheld : ∃ t ∈ p.tasks, ∃ x ∈ t.pauses, x.IsHeld p.session
    · have hended := tollAt_lt_of_tick h.races.past hl ho hfades hskips htaps hheld
      omega
    · have hsame : p.toll perLeft = p.toll perAhead :=
        toll_of_not_held (ho.idle rfl) fun t ht x hx hx' ↦ hheld ⟨t, ht, x, hx, hx'⟩
      have hended := tollAt_le (r := perLeft) h.races.past hfades
      omega

/-- When the clock is moved while the story is playing, a wait pays for the next tick. -/
theorem Chase.later {next : Nat} (h : Chase id start bound p) (hl : p.Ledger .timeline [root] [] [])
    (ho : AtRest p) (hq : p.queue = []) (htime : ¬p.session.OutOfTime) (hle : p.session.now ≤ next)
    (hsession : q.session = { p.session with now := next }) (htasks : q.tasks = p.tasks)
    (hturn : q.turn = p.turn) (hstatus : q.status = p.status) : Chase id start bound q := by
  have hf : p.session.Fades q.session := by
    rw [hsession]
    exact .of_sublist (Nat.le_refl _) (Nat.le_refl _) (List.Subset.refl _)
  have htoll : ∀ r, q.toll r ≤ p.toll r := fun r ↦
    toll_le h.races.past hf (congrArg Turn.agenda hturn) (congrArg Turn.pauses hturn) htasks
  have hskips : q.session.skips = p.session.skips := by rw [hsession]
  refine ⟨h.races.later ho hq hsession htasks hturn, h.going.later hle hsession htasks hstatus,
    fun hs ↦ ?_, fun hs _ ↦ ?_⟩
  · have hleft := h.left (hstatus ▸ hs)
    have := htoll perLeft
    omega
  · have hplays := hstatus ▸ hs
    obtain ⟨t, ht, x, hx, hheld⟩ := held_of_playing hl ho hq h.going htime hplays
    have hpaid := toll_lt_of_held ht hx hheld
    have hleft := h.left hplays
    have := htoll perAhead
    omega

/-! ## Whole runs -/

/-- The commands of a run in which fast-forward stays on. -/
def Command.races : Command → Bool
  | .fastForward false => false
  | c => c.continues

theorem Command.continues_of_races {c : Command} (h : c.races = true) : c.continues = true := by
  cases c <;> first | rfl | cases h

/-- Until the given time the story goes on while its ticker takes ticks. -/
structure Chased (config : Config) (time id start bound : Nat) (p : Playback) : Prop where
  kept : Kept config time p
  status : p.status = .playing ∨ p.status = .completed
  chase : p.session.now ≤ time → Chase id start bound p

theorem Step.mono {permits permits' : Command → Prop} (h : ∀ c, permits c → permits' c)
    (hs : Step actions permits p q) : Step actions permits' p q := by
  cases hs with
  | turn hq => exact .turn hq
  | move hq hnext => exact .move hq hnext
  | rest hq hle hnext => exact .rest hq hle hnext
  | start hc hrun hs => exact .start (h _ hc) hrun hs
  | next hc => exact .next (h _ hc)
  | autoPlay on hc => exact .autoPlay on (h _ hc)
  | fastForward on hc => exact .fastForward on (h _ hc)
  | cacheVoice path content hc => exact .cacheVoice path content (h _ hc)
  | stop hc => exact .stop (hc.imp (h _) (h _))

theorem not_outOfTime (hpoll : (config.voicePoll.period.tickFrom time 1).isSome = true)
    (hconfig : p.session.config = config) (hnow : p.session.now ≤ time) : ¬p.session.OutOfTime := by
  have hsome := Duration.tickFrom_isSome hnow hpoll
  rw [← hconfig] at hsome
  exact Option.isSome_iff_ne_none.mp hsome

/-- What is asked of the player between turns ends waits, and leaves fast-forward on. -/
theorem Chased.stirs (h : Chased config time id start bound p) (hkept : Kept config time q)
    (hst : p.Stirs q) (htaps : q.session.taps ⊆ p.session.taps)
    (hskips : q.session.skips = p.session.skips)
    (hon : p.session.fastForward = true → q.session.fastForward = true)
    (hrunning : q.session.cancelled = p.session.cancelled) (hstatus : q.status = p.status) :
    Chased config time id start bound q := by
  refine ⟨hkept, h.status.imp hstatus.trans hstatus.trans, fun hle ↦ ?_⟩
  have hchase := h.chase (hst.now ▸ hle)
  exact hchase.stirs hst (.of_sublist hst.serial (Nat.le_of_eq hskips.symm) htaps) hskips
    (hon hchase.races.on) hstatus hrunning

theorem Step.chased (hpoll : (config.voicePoll.period.tickFrom time 1).isSome = true)
    (hs : Step actions (fun c ↦ c.races = true) p q) (ho : AtRest p)
    (h : Chased config time id start bound p) : Chased config time id start bound q := by
  have hkept : Kept config time q :=
    (hs.mono fun _ ↦ Command.continues_of_races).kept hpoll ho h.kept
  have htime : p.session.now ≤ time → ¬p.session.OutOfTime := not_outOfTime hpoll h.kept.config
  cases hs with
  | turn hq =>
      have hnow := congrArg Moment.now (ho.runTask hq).moment
      refine ⟨hkept, ?_, fun hle ↦ ?_⟩
      · exact (status_runTask ho hq).elim (fun he ↦ h.status.imp he.trans he.trans) .inr
      · have hle := Nat.le_trans (Nat.le_of_eq hnow.symm) hle
        exact (h.chase hle).runTask (h.kept.ledger hle) ho hq
  | @move next hq hnext =>
      have hlt := lt_nextDue hnext
      obtain ⟨queue, hmoved⟩ := moveTo_eq next p
      rw [hmoved] at hkept ⊢
      refine ⟨hkept, h.status, fun hle ↦ ?_⟩
      have hle := Nat.le_trans (Nat.le_of_lt hlt) hle
      exact (h.chase hle).later (h.kept.ledger hle) ho hq (htime hle) (Nat.le_of_lt hlt) rfl rfl rfl rfl
  | @rest next hq hnext =>
      refine ⟨hkept, h.status, fun hle ↦ ?_⟩
      have hle := Nat.le_trans hnext hle
      exact (h.chase hle).later (h.kept.ledger hle) ho hq (htime hle) hnext rfl rfl rfl rfl
  | start hc hrun hs => rcases h.status with he | he <;> cases hs.symm.trans he
  | next hc =>
      have htap : p.tap.session = p.session.takeTap ∧ p.tap.status = p.status := by
        rw [tap_eq_touch]
        exact ⟨touch_session, touch_status⟩
      obtain ⟨hsession, hstatus⟩ := htap
      exact h.stirs hkept p.stirs_tap (hsession ▸ Session.takeTap_subset) (hsession ▸ rfl)
        (fun hon ↦ hsession ▸ hon) (hsession ▸ rfl) hstatus
  | autoPlay on hc =>
      have hset : (p.session.setAutoPlay on).taps = p.session.taps ∧
          (p.session.setAutoPlay on).skips = p.session.skips ∧
          (p.session.setAutoPlay on).fastForward = p.session.fastForward ∧
          (p.session.setAutoPlay on).cancelled = p.session.cancelled := by
        unfold Session.setAutoPlay
        split <;> exact ⟨rfl, rfl, rfl, rfl⟩
      obtain ⟨htaps, hskips, hon, hrunning⟩ := hset
      refine h.stirs hkept (p.stirs_setAutoPlay on) ?_ ?_ ?_ ?_ ?_ <;> rw [setAutoPlay_eq_touch]
      · exact touch_session ▸ htaps ▸ List.Subset.refl _
      · exact touch_session ▸ hskips
      · exact touch_session ▸ hon.trans
      · exact touch_session ▸ hrunning
      · exact touch_status
  | fastForward on hc =>
      obtain rfl : on = true := by
        cases on with
        | true => rfl
        | false => cases hc
      have hset : (p.session.setFastForward true).taps = p.session.taps ∧
          (p.session.setFastForward true).skips = p.session.skips ∧
          (p.session.fastForward = true → (p.session.setFastForward true).fastForward = true) ∧
          (p.session.setFastForward true).cancelled = p.session.cancelled := by
        unfold Session.setFastForward
        split
        · exact ⟨rfl, rfl, fun hon ↦ hon, rfl⟩
        · exact ⟨rfl, rfl, fun _ ↦ rfl, rfl⟩
      obtain ⟨htaps, hskips, hon, hrunning⟩ := hset
      refine h.stirs hkept (p.stirs_setFastForward true) ?_ ?_ ?_ ?_ ?_ <;> rw [setFastForward_eq_touch]
      · exact touch_session ▸ htaps ▸ List.Subset.refl _
      · exact touch_session ▸ hskips
      · exact touch_session ▸ hon
      · exact touch_session ▸ hrunning
      · exact touch_status
  | cacheVoice path content hc =>
      exact h.stirs hkept (.of_update (Session.carries_voices _)) (List.Subset.refl _) rfl
        (fun hon ↦ hon) rfl rfl
  | stop hc => rcases hc with hc | hc <;> cases hc

/-- Before the start there is nothing to do, and no tick has been taken. -/
def Fresh (p : Playback) : Prop := p.status = .notStarted → p.tasks = [] ∧ p.session.skips = 0

theorem Fresh.stirs (h : Fresh p) (hst : p.Stirs q) (hskips : q.session.skips = p.session.skips)
    (hstatus : q.status = p.status) : Fresh q := fun hs ↦
  let ⟨htasks, hzero⟩ := h (hstatus.symm.trans hs)
  ⟨hst.tasks.trans htasks, hskips.trans hzero⟩

theorem Step.fresh (hs : Step actions (fun c ↦ c.continues = true) p q) (ho : AtRest p)
    (h : Fresh p) : Fresh q := by
  cases hs with
  | @turn id rest hq =>
      intro hs
      have hbefore : p.status = .notStarted := by
        rcases status_runTask ho hq with he | he
        · exact he.symm.trans hs
        · cases he.symm.trans hs
      have hmem := (ho.queued id (by simp [hq])).1
      rw [(h hbefore).1] at hmem
      cases hmem
  | @move next hq hnext =>
      obtain ⟨queue, hmoved⟩ := moveTo_eq next p
      rw [hmoved]
      exact h
  | rest => exact h
  | start hc hrun hs =>
      intro hs
      have hplaying : (launch actions p).status = .playing :=
        (spawn_status _ _).trans (spawn_status _ _)
      cases hplaying.symm.trans hs
  | next hc =>
      refine h.stirs p.stirs_tap ?_ ?_ <;> rw [tap_eq_touch]
      · rw [touch_session]
        rfl
      · exact touch_status
  | autoPlay on hc =>
      refine h.stirs (p.stirs_setAutoPlay on) ?_ ?_ <;> rw [setAutoPlay_eq_touch]
      · rw [touch_session, Session.setAutoPlay]
        split <;> rfl
      · exact touch_status
  | fastForward on hc =>
      refine h.stirs (p.stirs_setFastForward on) ?_ ?_ <;> rw [setFastForward_eq_touch]
      · rw [touch_session, Session.setFastForward]
        split <;> rfl
      · exact touch_status
  | cacheVoice path content hc => exact h.stirs (.of_update (Session.carries_voices _)) rfl rfl
  | stop hc => rcases hc with hc | hc <;> cases hc

/-- At the start all actions of the story are ahead. -/
theorem chase_launch (hl : p.Ledger .timeline [root] [] []) (ho : AtRest p) (h : Fresh p)
    (hs : p.status = .notStarted) (hon : p.session.fastForward = true)
    (hfires : (p.session.config.fastForwardInterval.period.tickFrom p.session.now 1).isSome = true) :
    Chase p.spawned p.session.now (Action.sizeOfList actions) (launch actions p) := by
  obtain ⟨hnone, hskips⟩ := h hs
  have hrunning := hl.books.running
  obtain ⟨ticker, hticker⟩ : ∃ ticker : Task,
    ticker = ⟨p.spawned, true, false, none, false, [.fastForward], []⟩ := ⟨_, rfl⟩
  obtain ⟨main, hmain⟩ : ∃ main : Task,
    main = ⟨p.spawned + 1, true, false, some root, false, timeline actions, []⟩ := ⟨_, rfl⟩
  have htasks : (launch actions p).tasks = [ticker, main] := by
    simp [launch, spawn, addTask, hrunning, hnone, hticker, hmain]
  have hturn : (launch actions p).turn = .none := (ho.launch actions).idle rfl
  have hsession := launch_session actions p
  have htoll : ∀ r, (launch actions p).toll r = r.ticker + r.ahead * Action.sizeOfList actions := by
    intro r
    have htimeline : ((timeline actions).map (Errand.toll r)).sum =
        r.ahead * Action.sizeOfList actions := by
      rw [timeline, List.map_append, List.sum_append, toll_walk]
      rfl
    simp [toll, tollAt, hturn, Turn.none, htasks, hticker, hmain, Task.toll, Errand.toll, htimeline]
  have hzero : (launch actions p).session.skips = 0 := hsession ▸ hskips
  constructor
  case races =>
    refine ⟨?_, hsession ▸ hon, hsession ▸ hfires, ⟨ticker, by simp [htasks], by rw [hticker], ?_⟩, ?_⟩
    · have hparks : (launch actions p).parks = [] := by
        simp [parks, hturn, Turn.none, htasks, hticker, hmain, Task.parks]
      simp [Past, hparks]
    · rw [hticker, hsession]
      exact .begins rfl hskips
    · rw [htoll]
      exact Nat.le_of_eq (by simp [perTicker])
  case going =>
    refine ⟨⟨fun t ht ↦ ?_, fun hrun ↦ absurd rfl hrun⟩, ?_, fun t ht ↦ ?_, ?_⟩
    · change t ∈ (launch actions p).tasks at ht
      rw [htasks] at ht
      rcases List.mem_cons.mp ht with rfl | ht
      · exact .inr (by simp [hticker, Errand.performs])
      · rw [List.mem_singleton.mp ht, hmain]
        exact .inl ⟨by simp, timeline_yields actions⟩
    · have hends : Errand.drain root .actions true .completed ∈ main.agenda := by
        rw [hmain]
        exact List.mem_append_right _ (List.mem_singleton.mpr rfl)
      exact .waits (t := main) (by simp [resting, htasks]) (by simp [hmain])
        (hmain ▸ timeline_yields actions) (.inl ⟨_, hends, root, .actions, true, rfl⟩)
    · change t ∈ (launch actions p).tasks at ht
      rw [htasks] at ht
      rcases List.mem_cons.mp ht with rfl | ht
      · rw [hticker]
      · rw [List.mem_singleton.mp ht, hmain]
    · exact (congrArg Session.cancelled hsession).trans hrunning
  case left =>
    intro _
    rw [hzero, htoll]
    exact Nat.le_of_eq (by simp [perLeft])
  case ahead =>
    rintro - ⟨due, hdue, hle⟩
    rw [hsession, Session.nextTick, hskips] at hdue
    rw [hsession] at hle
    exact absurd hle (Nat.not_le.mpr (Duration.start_lt_tickFrom hdue))

section

variable {host : Host} {voices : VoiceCache}

/-- From the start on, as long as the clock can show when a voice is to be looked at. -/
theorem chased_launch (hpoll : (config.voicePoll.period.tickFrom time 1).isSome = true)
    (hp : Reaches actions (fun c ↦ c.continues = true) (new actions config host voices).playback p)
    (hs : p.status = .notStarted) (hon : p.session.fastForward = true)
    (hfires : (config.fastForwardInterval.period.tickFrom p.session.now 1).isSome = true) :
    Chased config time p.spawned p.session.now (Action.sizeOfList actions) (launch actions p) ∧
      AtRest (launch actions p) := by
  have hrest := new_atRest actions config host voices
  obtain ⟨⟨hkept, hfresh⟩, ho⟩ := hp.induct (I := fun r ↦ Kept config time r ∧ Fresh r) hrest
    ⟨kept_new actions host voices, fun _ ↦ ⟨rfl, rfl⟩⟩
    fun q r hq h hstep ↦ ⟨hstep.kept hpoll hq h.1, hstep.fresh hq h.2⟩
  have hsession := launch_session actions p
  refine ⟨⟨⟨hsession ▸ hkept.config, fun hle ↦ ?_⟩, .inl ?_, fun hle ↦ ?_⟩, .of_orderly (ho.launch actions)⟩
  · exact ledger_launch actions (hkept.ledger (hsession ▸ hle))
  · exact (spawn_status _ _).trans (spawn_status _ _)
  · exact chase_launch (hkept.ledger (hsession ▸ hle)) ho hfresh hs hon (hkept.config.symm ▸ hfires)

/-- At rest, a story that is still playing waits for something that a tick can end. -/
theorem Chased.held (h : Chased config time id start bound p) (ho : AtRest p) (hle : p.session.now ≤ time)
    (hpoll : (config.voicePoll.period.tickFrom time 1).isSome = true) (hq : p.queue = [])
    (hplays : p.status = .playing) : ∃ t ∈ p.tasks, ∃ x ∈ t.pauses, x.IsHeld p.session :=
  held_of_playing (h.kept.ledger hle) ho hq (h.chase hle).going
    (not_outOfTime hpoll h.kept.config hle) hplays

/-- At rest the ticks to come are counted anew, against what is left then. -/
theorem Chased.anew (h : Chased config time id start bound p) (ho : AtRest p) (hq : p.queue = [])
    (hle : p.session.now ≤ time) :
    Chased config time id start (p.session.skips + p.toll perLeft) p := by
  have hchase := h.chase hle
  exact ⟨h.kept, h.status, fun _ ↦ ⟨hchase.races, hchase.going, fun _ ↦ Nat.le_refl _,
    fun _ hdue ↦ absurd hdue (hchase.races.atRest ho hq).1⟩⟩

/-- Fast-forward that stays on completes every story, whatever is waited for and
whatever else is asked of the player, as long as the clock can show when a voice is to
be looked at.  All ticks come in time; at rest the story is over after as many of them
as it has actions, and before that something is waited for that a tick can end.  A tick
ends such a wait, if there is one, and takes nothing up; so between two times at rest
the ticks are no more than the actions, settlings and waits that have come to their end. -/
theorem fast_forward_completes {q : Playback}
    (hp : Reaches actions (fun c ↦ c.continues = true) (new actions config host voices).playback p)
    (hs : p.status = .notStarted) (hon : p.session.fastForward = true)
    (hfires : (config.fastForwardInterval.period.tickFrom p.session.now 1).isSome = true)
    (hq : Reaches actions (fun c ↦ c.races = true) (launch actions p) q)
    (hpoll : (config.voicePoll.period.tickFrom q.session.now 1).isSome = true) :
    (q.queue = [] →
      (Action.sizeOfList actions ≤ q.session.skips → q.status = .completed) ∧
      (∀ n due, config.fastForwardInterval.period.tickFrom p.session.now n = some due →
        due ≤ q.session.now → n ≤ q.session.skips) ∧
      (q.status = .playing → ∃ t ∈ q.tasks, ∃ x ∈ t.pauses, x.IsHeld q.session) ∧
      ∀ r, Reaches actions (fun c ↦ c.races = true) q r → r.status = .playing →
        (config.voicePoll.period.tickFrom r.session.now 1).isSome = true →
          r.session.skips + r.toll perLeft ≤ q.session.skips + q.toll perLeft) ∧
    ∀ id rest, q.queue = id :: rest →
      let r := runTask id { q with queue := rest }
      r.session.skips = q.session.skips ∨ r.session.skips = q.session.skips + 1 ∧
        ((∃ t ∈ q.tasks, ∃ x ∈ t.pauses, x.IsHeld q.session) → r.toll perLeft < q.toll perLeft) := by
  obtain ⟨hlaunched, horest⟩ := chased_launch hpoll hp hs hon hfires
  obtain ⟨hchased, ho⟩ := hq.induct horest hlaunched fun r r' hr h hstep ↦ hstep.chased hpoll hr h
  have hchase := hchased.chase (Nat.le_refl _)
  refine ⟨fun hqueue ↦ ⟨fun hall ↦ ?_, fun n due hdue hle ↦ ?_, hchased.held ho (Nat.le_refl _) hpoll hqueue,
    fun r hr hplays hpoll' ↦ ?_⟩, fun id rest hqueue ↦ ?_⟩
  · refine hchased.status.resolve_left fun hplays ↦ ?_
    obtain ⟨t, ht, x, hx, hheld⟩ := hchased.held ho (Nat.le_refl _) hpoll hqueue hplays
    have hlt := toll_lt_of_held ht hx hheld
    have hle := hchase.left hplays
    omega
  · by_contra hlt
    obtain ⟨next, hnext, hbefore⟩ := Duration.tickFrom_mono (Nat.lt_of_not_le hlt) hdue
    refine (hchase.races.atRest ho hqueue).1 ⟨next, ?_, Nat.le_trans hbefore hle⟩
    rw [Session.nextTick, hchased.kept.config]
    exact hnext
  · obtain ⟨time, hqtime, hrtime, hlast⟩ : ∃ time, q.session.now ≤ time ∧ r.session.now ≤ time ∧
        (config.voicePoll.period.tickFrom time 1).isSome = true := by
      rcases Nat.le_total q.session.now r.session.now with hle | hle
      · exact ⟨_, hle, Nat.le_refl _, hpoll'⟩
      · exact ⟨_, Nat.le_refl _, hle, hpoll⟩
    obtain ⟨hlaunched, -⟩ := chased_launch hlast hp hs hon hfires
    obtain ⟨hchased, -⟩ := hq.induct horest hlaunched fun r r' hr h hstep ↦ hstep.chased hlast hr h
    obtain ⟨hend, -⟩ := hr.induct ho (hchased.anew ho hqueue hqtime)
      fun r r' hr h hstep ↦ hstep.chased hlast hr h
    exact (hend.chase hrtime).left hplays
  · have hl := hchased.kept.ledger (Nat.le_refl _)
    obtain ⟨-, hturn⟩ := hchase.races.runTask ho hl.whole hqueue
    refine hturn.imp And.left ?_
    rintro ⟨-, -, hfades, hskips, htaps, htoll⟩
    refine ⟨hskips, fun hheld ↦ ?_⟩
    rw [htoll perLeft]
    exact tollAt_lt_of_tick hchase.races.past hl ho hfades hskips htaps hheld

end

/-- What is asked of a player after its start. -/
theorem reaches_follow_start {permits : Command → Prop} {cs : List (Bool × Command)} {p : Player}
    (settled : Bool) (ho : AtRest p.playback) (hdropped : p.dropped = false)
    (hrun : p.playback.session.host.canRun = true) (hs : p.playback.status = .notStarted)
    (hcs : ∀ c ∈ cs, permits c.2) :
    Reaches p.actions permits (launch p.actions p.playback)
      ((p.step settled .start).1.follow cs).playback := by
  have hstart : Reaches p.actions permits _ _ := reaches_start settled hdropped hrun hs
  have hlaunched : AtRest (launch p.actions p.playback) := .of_orderly (ho.launch p.actions)
  have hreach := reaches_follow hcs (hstart.atRest hlaunched)
  rw [step_actions] at hreach
  exact hstart.trans hreach

/-- A story that would take ages, with a line that nobody taps. -/
def marathon : List Action :=
  [.block [.cue (.delay (.ofNat (10 ^ 12))), .cue (.talk watchedLine)], .cue (.telop "The end")]

theorem marathon_completes :
    let p := ((new marathon .standard plainHost .empty).follow [(true, .fastForward true)]).playback
    ∃ q, Reaches marathon (fun c ↦ c.races = true) (launch marathon p) q ∧
      q.session.now = 800 ∧ q.session.skips = 4 ∧ q.status = .completed := by
  intro p
  let ready := (new marathon .standard plainHost .empty).follow [(true, .fastForward true)]
  let q := ((ready.step true .start).1.follow [(true, .advance 800)]).playback
  have hrest := new_atRest marathon .standard plainHost .empty
  have hp : Reaches marathon (fun c ↦ c.continues = true)
      (new marathon .standard plainHost .empty).playback p := reaches_follow (by decide) hrest
  have hq : Reaches marathon (fun c ↦ c.races = true) (launch marathon p) q :=
    reaches_follow_start (p := ready) true (hp.atRest hrest) rfl rfl rfl (by decide)
  have hskips : q.session.skips = 4 := by decide +kernel
  obtain ⟨hends, -⟩ := fast_forward_completes hp rfl rfl (by decide) hq (by decide +kernel)
  exact ⟨q, hq, by decide +kernel, hskips, (hends (by decide +kernel)).1 (by rw [hskips]; decide)⟩

/-- A line whose voice cannot be watched is not even ended by fast-forward. -/
theorem watched_outlasts_ticks :
    ¬∀ (actions : List Action) (config : Config) (host : Host) (voices : VoiceCache) (p q : Playback),
      Reaches actions (fun c ↦ c.continues = true) (new actions config host voices).playback p →
        p.status = .notStarted → p.session.fastForward = true →
        (config.fastForwardInterval.period.tickFrom p.session.now 1).isSome = true →
        Reaches actions (fun c ↦ c.races = true) (launch actions p) q → q.queue = [] →
        Action.sizeOfList actions ≤ q.session.skips → q.status = .completed := by
  intro h
  let ready := (new watched patient quietHost watchedVoices).follow
    [(true, .autoPlay true), (true, .fastForward true)]
  let q := ((ready.step true .start).1.follow [(true, .advance 200)]).playback
  have hrest := new_atRest watched patient quietHost watchedVoices
  have hp : Reaches watched (fun c ↦ c.continues = true)
      (new watched patient quietHost watchedVoices).playback ready.playback :=
    reaches_follow (by decide) hrest
  have hq : Reaches watched (fun c ↦ c.races = true) (launch watched ready.playback) q :=
    reaches_follow_start (p := ready) true (hp.atRest hrest) rfl rfl rfl (by decide)
  have hover : q.status = .completed := h watched patient quietHost watchedVoices ready.playback q hp
    rfl rfl (by decide) hq (by decide +kernel) (by decide +kernel)
  exact absurd hover (by decide +kernel)

end Player

end Storyline
