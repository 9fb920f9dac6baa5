import Storyline.Proofs.Playback.Prospects

/-!
# Prospects within a turn

While a task has its turn, its prospects are those of what it has not yet done:
of the pauses that are left and of the rest of its agenda.  Every step of a turn
of the timeline keeps to the plan.
-/

namespace Storyline

open Timetable

namespace Playback

/-- The running task, as its turn would leave it now. -/
def current (task : Task) (p : Playback) : Task :=
  { task with agenda := p.turn.agenda, pauses := p.turn.pauses }

/-- A task of the timeline is in the middle of its turn. -/
structure Midturn (c : Config) (voices : VoiceCache) (plan : List (Nat × Action))
    (finish : Option Nat) (root : Nat) (ids : List Nat) (task : Task) (rest : List Task)
    (p : Playback) : Prop where
  ledger : p.Ledger .timeline ids [] []
  sound : p.turn.failed = false
  tasks : p.tasks.Perm ({ task with agenda := [], pauses := [] } :: rest)
  prospects : Prospects c voices plan finish root p.session p.status p.dispatches
    (p.current task :: rest)

namespace Midturn

variable {c : Config} {voices : VoiceCache} {plan : List (Nat × Action)} {finish : Option Nat}
  {root : Nat} {ids : List Nat} {task : Task} {rest : List Task} {p q r : Playback}

theorem steady (h : Midturn c voices plan finish root ids task rest p) : p.Steady c voices :=
  ⟨h.prospects.config, h.prospects.pace, h.sound⟩

/-- The tickets that are out are those that the tasks owe for. -/
theorem mem_tickets (h : Midturn c voices plan finish root ids task rest p) {t : Ticket} :
    t ∈ p.tickets ↔ ∃ d ∈ (p.current task :: rest).flatMap (Task.debts p.session.now), d.1 = t := by
  have hmap : ((p.current task :: rest).flatMap (Task.debts p.session.now)).map Prod.fst =
      (p.current task :: rest).flatMap Task.tickets := by
    simp only [List.map_flatMap, Task.map_debts]
  have htickets : t ∈ p.tickets ↔ t ∈ (p.current task :: rest).flatMap Task.tickets := by
    simp only [tickets, List.mem_append, (h.tasks.flatMap_right _).mem_iff, List.flatMap_cons]
    simp [Task.tickets, current]
  rw [htickets, ← hmap, List.mem_map]

theorem clear_of_pending (h : Midturn c voices plan finish root ids task rest p) {x : Nat}
    {tally : Tally} (hzero : p.session.pending x tally = 0) :
    Come p.session.now (outlook p.session.now (p.current task :: rest) x tally) := by
  have hnone := (h.ledger.pending_eq_zero h.steady.skips).mp hzero
  refine come_outlook.mpr ⟨Nat.le_refl _, fun d hd hx hregards ↦ ?_⟩
  exact absurd hregards (by simp [hnone d.1 (h.mem_tickets.mpr ⟨d, hd, rfl⟩) hx])

theorem scope_lt (h : Midturn c voices plan finish root ids task rest p)
    {d : Ticket × Option Nat}
    (hd : d ∈ (p.current task :: rest).flatMap (Task.debts p.session.now)) :
    d.1.scope < p.session.serial := by
  obtain ⟨sc, hsc, hid, -⟩ := h.ledger.books.issued d.1 (h.mem_tickets.mpr ⟨d, hd, rfl⟩)
  exact hid ▸ h.ledger.books.numbered.lt sc hsc

end Midturn

/-! ## Looking at a pause -/

/-- A pause that has been waited for long enough. -/
def IsOver (p : Playback) (q : Pause) : Prop :=
  match q.wait with
  | .tap _ _ (.dwelling timer) | .sleep timer _ => Come p.session.now timer.due
  | .drained x tally _ => p.session.pending x tally = 0
  | _ => False

/-- A look at a pause of the timeline ends it if it is over, and changes nothing
otherwise. -/
theorem suspend_cases {c : Config} {voices : VoiceCache} {p : Playback} {pause : Pause}
    (h : p.Steady c voices) (hfits : pause.Fits .timeline) (htame : pause.wait.Tame)
    (hwaiting : ∀ id ∈ pause.parks, p.session.isParked id = true) :
    p.suspend pause.wait pause.ending pause.scopes = p.leave pause ∨
      ∃ q, p.suspend pause.wait pause.ending pause.scopes = q.finish pause.ending ∧ p.Stirs q ∧
        q.session.pace = p.session.pace ∧ q.status = p.status ∧
        (∀ id, id ∉ pause.parks → p.session.isParked id = true → q.session.isParked id = true) ∧
        p.IsOver pause := by
  obtain ⟨wait, ending, scopes⟩ := pause
  cases wait with
  | tap park dwelling auto =>
      cases auto with
      | off => cases dwelling <;> exact htame.elim
      | listening start ticks timer => cases dwelling <;> exact htame.elim
      | dwelling timer =>
          have hparked := hwaiting park (by simp [Pause.parks, Pause.park?])
          by_cases hdue : timer.isDue p.session.now = true
          · right
            refine ⟨p.unpark park, ?_, p.stirs_unpark park, ?_, ?_, ?_,
              Timer.isDue_iff_come.mp hdue⟩
            · simp [suspend, look, lookAtTap, h.running, hparked, h.autoPlay, hdue, moveOn]
            · rw [unpark_eq_touch, touch_session]
              rfl
            · rw [unpark_eq_touch, touch_status]
            · intro id hid hparked
              rw [unpark_eq_touch, touch_session]
              obtain ⟨t, ht, he⟩ := List.any_eq_true.mp hparked
              refine List.any_eq_true.mpr ⟨t, List.mem_filter.mpr ⟨ht, ?_⟩, he⟩
              simp only [Pause.parks, Pause.park?, Option.toList_some, List.mem_singleton] at hid
              simpa [show t.id = id by simpa using he] using hid
          · left
            simp [suspend, look, lookAtTap, h.running, hparked, h.autoPlay, hdue]
  | sleep timer skips =>
      obtain rfl : skips = 0 := htame
      by_cases hdue : timer.isDue p.session.now = true
      · right
        refine ⟨p, ?_, .refl p, rfl, rfl, fun _ _ h ↦ h, Timer.isDue_iff_come.mp hdue⟩
        simp [suspend, look, lookAtSleep, h.running, hdue]
      · left
        simp [suspend, look, lookAtSleep, h.running, hdue, h.skips]
  | drained x tally guarded =>
      dsimp only
      rw [suspend_drained h.running]
      split
      next hzero => exact .inr ⟨p, rfl, .refl p, rfl, rfl, fun _ _ h ↦ h, hzero⟩
      next => exact .inl rfl
  | _ => exact hfits.elim

theorem level_finish (p : Playback) (ending : Ending) :
    p.session.Level (p.finish ending).session := by
  by_cases he : ending = .completed
  · subst he
    simp only [finish]
    split <;> exact .refl _
  · exact (p.smooth_finish he).level

theorem finish_status (p : Playback) (ending : Ending) :
    (p.finish ending).status =
      if ending = .completed ∧ p.status = .playing then .completed else p.status := by
  by_cases he : ending = .completed
  · subst he
    simp only [finish, true_and]
    split <;> rfl
  · rw [if_neg fun hc ↦ he hc.1]
    exact (p.smooth_finish he).status

theorem waitEnd_perm {X : Clearing} {now : Nat} {l l' : List Pause} (h : l.Perm l') :
    waitEnd X now l = waitEnd X now l' :=
  ext_come fun n ↦ by simp only [come_waitEnd, h.mem_iff]

/-- A pause that is over makes no difference to the others. -/
theorem waitEnd_over {X : Clearing} {now : Nat} {pause : Pause} {l l' : List Pause}
    (h : l.Perm (pause :: l')) (hover : ∀ n, now ≤ n → Come n (pause.wait.past X now)) :
    waitEnd X now l' = waitEnd X now l := by
  refine ext_come fun n ↦ ?_
  rw [waitEnd_perm h, come_waitEnd, come_waitEnd, List.forall_mem_cons]
  exact and_congr_right fun hn ↦ ⟨fun hall ↦ ⟨hover n hn, hall⟩, fun hall ↦ hall.2⟩

namespace Midturn

variable {c : Config} {voices : VoiceCache} {plan : List (Nat × Action)} {finish : Option Nat}
  {root : Nat} {ids : List Nat} {task : Task} {rest : List Task} {p q : Playback}

/-- A pause that is over is over by what the tasks owe. -/
theorem past_of_isOver (h : Midturn c voices plan finish root ids task rest p) {pause : Pause}
    (hover : p.IsOver pause) {n : Nat} (hn : p.session.now ≤ n) :
    Come n (pause.wait.past (outlook p.session.now (p.current task :: rest)) p.session.now) := by
  obtain ⟨wait, ending, scopes⟩ := pause
  cases wait with
  | tap park kind auto =>
      cases auto with
      | dwelling timer => exact come_later.mpr ⟨come_some.mpr hn, hover.mono hn⟩
      | _ => exact hover.elim
  | sleep timer skips => exact come_later.mpr ⟨come_some.mpr hn, hover.mono hn⟩
  | drained x tally guarded => exact (h.clear_of_pending hover).mono hn
  | _ => exact hover.elim

/-- The debts of a pause that is over have been paid. -/
theorem paid_of_isOver {pause : Pause} (hfits : pause.Fits .timeline) (hover : p.IsOver pause)
    {n : Nat} (hn : p.session.now ≤ n) : ∀ d ∈ pause.debts, Come n d.2 := by
  intro d hd
  obtain ⟨t, ht, rfl⟩ := List.mem_map.mp hd
  obtain ⟨wait, ending, scopes⟩ := pause
  cases wait with
  | tap park kind auto =>
      cases auto with
      | dwelling timer => exact hover.mono hn
      | _ => exact hover.elim
  | sleep timer skips => exact hover.mono hn
  | drained x tally guarded =>
      have hnone : ending.ticket? = none := hfits
      simp [Pause.tickets, hnone] at ht
  | _ => exact hover.elim

/-- Nobody else waits for the parked action of a pause of the turn. -/
theorem parks_apart (h : Midturn c voices plan finish root ids task rest p) {pause : Pause}
    {others : List Pause} (hpauses : p.turn.pauses = pause :: others) {id : Nat}
    (hid : id ∈ others.flatMap Pause.parks ∨ ∃ t ∈ rest, ∃ q ∈ t.pauses, id ∈ q.parks) :
    id ∉ pause.parks := by
  have hnodup := h.ledger.books.parks_nodup
  rw [List.nil_append, parks, hpauses, List.flatMap_cons, List.append_assoc] at hnodup
  refine fun hmem ↦ (List.nodup_append.mp hnodup).2.2 id hmem id (List.mem_append.mpr ?_) rfl
  rcases hid with hid | ⟨t, ht, q, hq, hid⟩
  · exact .inl hid
  · refine .inr (List.mem_flatMap.mpr ⟨t, ?_, List.mem_flatMap.mpr ⟨q, hq, hid⟩⟩)
    exact h.tasks.mem_iff.mpr (List.mem_cons_of_mem _ ht)

/-- The pauses of a turn may stand in any order. -/
theorem reorder (h : Midturn c voices plan finish root ids task rest p)
    (hledger : q.Ledger .timeline ids [] []) (hsound : q.turn.failed = false)
    (hsession : q.session = p.session) (hstatus : q.status = p.status) (htasks : q.tasks = p.tasks)
    (hdispatches : q.dispatches = p.dispatches) (hagenda : q.turn.agenda = p.turn.agenda)
    (hpauses : q.turn.pauses.Perm p.turn.pauses) :
    Midturn c voices plan finish root ids task rest q := by
  refine ⟨hledger, hsound, htasks ▸ h.tasks, ?_⟩
  have hcur := h.prospects.regular _ List.mem_cons_self
  have hmem : ∀ x, x ∈ (q.current task).pauses ↔ x ∈ (p.current task).pauses := fun _ ↦ hpauses.mem_iff
  have hagenda : (q.current task).agenda = (p.current task).agenda := hagenda
  have hpauses : (q.current task).pauses.Perm (p.current task).pauses := hpauses
  rw [hsession, hstatus, hdispatches]
  refine h.prospects.revise rfl rfl (Nat.le_refl _) ?_ rfl ?_ ?_ ?_ ?_ ?_ ?_
  · exact fun t ht ↦ (h.prospects.regular t (List.mem_cons_of_mem _ ht)).waiting
  · exact ⟨fun x hx ↦ hcur.tame x ((hmem x).mp hx), fun x hx ↦ hcur.beside x ((hmem x).mp hx),
      fun x hx ↦ hcur.waiting x ((hmem x).mp hx), hagenda ▸ hcur.agenda⟩
  · intro x hx
    rcases List.mem_append.mp hx with hx | hx
    · exact List.mem_append_left _ hx
    · exact List.mem_append_right _ ((hpauses.flatMap_right _).mem_iff.mp hx)
  · intro n hn x tally
    have hdebts : ∀ d, d ∈ (q.current task).debts p.session.now ↔
        d ∈ (p.current task).debts p.session.now := by
      intro d
      rw [Task.debts, Task.debts, hagenda, List.mem_append, List.mem_append,
        (hpauses.flatMap_right Pause.debts).mem_iff]
    simp only [hdebts]
  · intro _
    simp only [Task.prospect, Storyline.prospect, hagenda]
    rw [waitEnd_perm (l := (q.current task).pauses) hpauses]
    rfl
  · intro hf
    exact ⟨⟨hagenda ▸ hf.agenda, fun x hx ↦ hf.pauses x ((hmem x).mp hx)⟩, rfl⟩
  · refine fun hl ↦ .inl ⟨?_, rfl⟩
    rcases hl with ⟨steps, hscope, hagenda', hsteps, honward⟩ | ⟨scopes, hscope, hagenda', hone⟩
    · exact .walking steps hscope (hagenda.trans hagenda') hsteps
        fun x hx ↦ honward x ((hmem x).mp hx)
    · refine .closing scopes hscope (hagenda.trans hagenda') ?_
      exact List.perm_singleton.mp (hpauses.trans (.of_eq hone))

/-- A pause of the turn that is over is left out. -/
theorem leaveOut {pause : Pause} {others : List Pause}
    (h : Midturn c voices plan finish root ids task rest p)
    (hledger : q.Ledger .timeline ids [] []) (hsound : q.turn.failed = false)
    (hmoment : q.session.moment = p.session.moment) (hpace : q.session.pace = p.session.pace)
    (hserial : p.session.serial ≤ q.session.serial)
    (hparked : ∀ id, id ∉ pause.parks → p.session.isParked id = true → q.session.isParked id = true)
    (hstatus : q.status = if pause.ending = .completed ∧ p.status = .playing then .completed
      else p.status)
    (htasks : q.tasks = p.tasks) (hdispatches : q.dispatches = p.dispatches)
    (hagenda : q.turn.agenda = p.turn.agenda) (hbefore : p.turn.pauses = pause :: others)
    (hpauses : q.turn.pauses = others) (hover : p.IsOver pause) :
    Midturn c voices plan finish root ids task rest q := by
  refine ⟨hledger, hsound, htasks ▸ h.tasks, ?_⟩
  have hcur := h.prospects.regular _ List.mem_cons_self
  have hagenda : (q.current task).agenda = (p.current task).agenda := hagenda
  have hpauses : (q.current task).pauses = others := hpauses
  have hbefore' : (p.current task).pauses = pause :: others := hbefore
  have hmem : ∀ x ∈ others, x ∈ (p.current task).pauses := fun x hx ↦ by simp [hbefore', hx]
  have hkept := fun id hid hids ↦ hparked id (h.parks_apart hbefore hid) hids
  have hfits := h.ledger.pauses pause (by simp [hbefore])
  rw [hdispatches]
  refine h.prospects.revise hmoment hpace hserial ?_ rfl ?_ ?_ ?_ ?_ ?_ ?_
  · intro t ht x hx id hid
    exact hkept id (.inr ⟨t, ht, x, hx, hid⟩)
      ((h.prospects.regular t (List.mem_cons_of_mem _ ht)).waiting x hx id hid)
  · refine ⟨?_, ?_, ?_, hagenda ▸ hcur.agenda⟩ <;> rw [hpauses] <;> intro x hx
    · exact hcur.tame x (hmem x hx)
    · exact hcur.beside x (hmem x hx)
    · exact fun id hid ↦ hkept id (.inl (List.mem_flatMap.mpr ⟨x, hx, hid⟩))
        (hcur.waiting x (hmem x hx) id hid)
  · intro x hx
    rcases List.mem_append.mp hx with hx | hx
    · exact List.mem_append_left _ hx
    · refine List.mem_append_right _ ?_
      rw [hpauses] at hx
      rw [hbefore', List.flatMap_cons]
      exact List.mem_append_right _ hx
  · intro n hn x tally
    have hpaid := paid_of_isOver hfits hover hn
    simp only [Task.debts, hagenda, hpauses, hbefore', List.flatMap_cons, List.mem_append]
    constructor
    · rintro hall d ((hd | hd) | hd) hx hr
      · exact hpaid d hd
      · exact hall d (.inl hd) hx hr
      · exact hall d (.inr hd) hx hr
    · rintro hall d (hd | hd) hx hr
      · exact hall d (.inl (.inr hd)) hx hr
      · exact hall d (.inr hd) hx hr
  · intro _
    simp only [Task.prospect, Storyline.prospect, hagenda]
    rw [hpauses, waitEnd_over (l := (p.current task).pauses) (.of_eq hbefore')
      fun n hn ↦ h.past_of_isOver hover hn]
    rfl
  · intro hf
    refine ⟨⟨hagenda ▸ hf.agenda, fun x hx ↦ hf.pauses x (hmem x (hpauses ▸ hx))⟩, ?_⟩
    rw [hstatus, if_neg fun hc ↦ hf.pauses pause (by simp [hbefore']) hc.1]
  · rintro (⟨steps, hscope, hagenda', hsteps, honward⟩ | ⟨scopes, hscope, hagenda', hone⟩)
    · refine .inl ⟨.walking steps hscope (hagenda.trans hagenda') hsteps
        fun x hx ↦ honward x (hmem x (hpauses ▸ hx)), ?_⟩
      rw [hstatus, if_neg fun hc ↦ honward pause (by simp [hbefore']) hc.1]
    · -- the last pause of the leading task is over, and with it the story
      rw [hbefore'] at hone
      obtain ⟨rfl, rfl⟩ := List.cons.inj hone
      right
      refine ⟨⟨by simp [hagenda.trans hagenda'], by simp [hpauses]⟩, fun hs ↦ ⟨?_, ?_⟩, fun hs ↦ ?_⟩
      · rw [hstatus, if_pos ⟨rfl, hs⟩]
      · have hclear := h.clear_of_pending hover
        obtain ⟨u, hu, hle⟩ : Come p.session.now (waitEnd
            (outlook p.session.now (p.current task :: rest)) p.session.now (p.current task).pauses) := by
          rw [come_waitEnd, hbefore']
          exact ⟨Nat.le_refl _, by simpa [Wait.past] using hclear⟩
        simp only [Task.prospect, Storyline.prospect, hu, hagenda', Task.home, hscope,
          Option.getD_some]
        exact come_later.mpr ⟨come_some.mpr hle, hclear⟩
      · rw [hstatus, if_neg fun hc ↦ hs hc.2]

/-- A look at the first pause keeps to the plan. -/
theorem revisit {pause : Pause} {others : List Pause}
    (h : Midturn c voices plan finish root ids task rest p) (hawaits : p.Awaits (pause :: others)) :
    Midturn c voices plan finish root ids task rest (p.revisit pause) := by
  have hledger := h.ledger.revisit hawaits
  obtain ⟨done, hdone⟩ := hawaits.resolve_left (by simp [h.sound])
  rw [List.cons_append] at hdone
  have hmem : pause ∈ p.turn.pauses := by simp [hdone]
  have hcur := h.prospects.regular _ List.mem_cons_self
  have hfits := h.ledger.pauses pause hmem
  obtain ⟨p', hp'⟩ : ∃ p', p' = p.updateTurn (fun t ↦ { t with pauses := t.pauses.tail }) := ⟨_, rfl⟩
  have hrevisit : p.revisit pause = p'.suspend pause.wait pause.ending pause.scopes := by
    rw [hp']
    simp [Playback.revisit, h.sound]
  have hpauses' : p'.turn.pauses = others ++ done := by simp [hp', updateTurn, hdone]
  have hsession : p'.session = p.session := hp' ▸ rfl
  have hsteady : p'.Steady c voices := ⟨hp' ▸ h.steady.config, hp' ▸ h.steady.pace, hp' ▸ h.sound⟩
  rw [hrevisit] at hledger ⊢
  rcases suspend_cases hsteady hfits (hcur.tame pause hmem) (hsession ▸ hcur.waiting pause hmem) with
    he | ⟨r, he, hst, hpace, hstatus, hparked, hover⟩
  · rw [he] at hledger ⊢
    refine h.reorder hledger ?_ ?_ ?_ ?_ ?_ ?_ ?_
    · exact hsteady.sound
    · exact hsession
    · exact hp' ▸ rfl
    · exact hp' ▸ rfl
    · exact hp' ▸ rfl
    · exact hp' ▸ rfl
    · have hleft : (p'.leave pause).turn.pauses = p'.turn.pauses ++ [pause] := rfl
      rw [hleft, hpauses', hdone]
      exact List.perm_append_singleton _ _
  · rw [he] at hledger ⊢
    have hfinish := r.stirs_finish pause.ending
    have hlevel := r.level_finish pause.ending
    have hboth := hst.trans hfinish
    have hfrom : ∀ {x : Playback}, p'.Stirs x → x.tasks = p.tasks ∧ x.dispatches = p.dispatches ∧
        x.turn.agenda = p.turn.agenda := by
      intro x hx
      rw [hx.tasks, hx.dispatches, hx.agenda, hp']
      exact ⟨rfl, rfl, rfl⟩
    obtain ⟨htasks, hdispatches, hagenda⟩ := hfrom hboth
    refine h.leaveOut hledger ?_ ?_ ?_ ?_ ?_ ?_ htasks hdispatches hagenda hdone ?_ ?_
    · exact hboth.failed.trans hsteady.sound
    · rw [hboth.moment, hsession]
    · rw [hlevel.pace, hpace, hsession]
    · rw [← hsession]
      exact hboth.serial
    · intro id hid hids
      rw [Session.isParked, hlevel.taps]
      exact hparked id hid (hsession ▸ hids)
    · rw [r.finish_status, hstatus, hp']
      rfl
    · rw [hboth.pauses, hpauses']
    · unfold IsOver at hover ⊢
      rwa [hsession] at hover

end Midturn

end Playback

end Storyline
