import Storyline.Proofs.Playback.Midturn

/-!
# Errands keep to the plan

What a task takes up in its turn, and what is ahead of it and of the tasks that
come of it, are what was ahead of it before.
-/

namespace Storyline

open Timetable

namespace Timetable

variable {c : Config} {n t : Nat} {pend : Option Nat} {action : Action}

/-- Once the walk goes on, the ticket of an action is out for as long as its change
has not settled. -/
theorem come_holds_iff (h : Come n (resumes c t pend action)) :
    Come n (holds c t action) ↔ Come n (settled c t action) := by
  cases action with
  | cue cue =>
      rw [holds, come_later]
      refine and_iff_right ?_
      by_cases hcue : cue = .waitForAll
      · subst hcue
        exact (come_later.mp h).1
      · have he : resumes c t pend (.cue cue) = cueReturn c t cue := by
          rw [resumes, returns]
          simpa using hcue
        exact he ▸ h
  | block parts => exact Iff.rfl
  | fork parts => exact Iff.rfl

theorem resumes_eq (h : action.isWait = false) : resumes c t pend action = returns c t action := by
  unfold resumes
  split
  · cases h
  · rfl

end Timetable

theorem Action.eq_of_isWait {action : Action} (h : action.isWait = true) :
    ∃ cue tally, action = .cue cue ∧
      (cue = .waitForAll ∧ tally = Tally.actions ∨ cue = .waitForTap ∧ tally = .taps) := by
  unfold isWait at h
  split at h
  · exact ⟨_, _, rfl, .inl ⟨rfl, rfl⟩⟩
  · exact ⟨_, _, rfl, .inr ⟨rfl, rfl⟩⟩
  · cases h

/-- A task with a scope owes for its pauses only. -/
theorem Task.Regular.debts {voices : VoiceCache} {s : Session} {t : Task} (h : t.Regular voices s)
    (hscope : t.scope ≠ none) (now : Nat) : t.debts now = t.pauses.flatMap Pause.debts := by
  have hnone : t.agenda.flatMap (Errand.debts now) = [] := by
    refine List.flatMap_eq_nil_iff.mpr fun e he ↦ ?_
    have hat := (h.agenda e he).2
    cases e with
    | sleep d ending scopes => exact absurd hat hscope
    | _ => rfl
  rw [Task.debts, hnone, List.append_nil]

namespace Playback

/-- The errands of a turn that are left. -/
def leaveErrands (agenda : List Errand) (p : Playback) : Playback :=
  p.updateTurn (fun t ↦ { t with agenda := agenda })

namespace Midturn

variable {c : Config} {voices : VoiceCache} {plan : List (Nat × Action)} {finish : Option Nat}
  {root : Nat} {ids : List Nat} {task : Task} {others : List Task} {p q : Playback}
  {errand : Errand} {rest : List Errand} {qs : List Pause} {ts : List Task} {ds : List Dispatch}

theorem taken (h : Midturn c voices plan finish root ids task others p)
    (hagenda : p.turn.agenda = errand :: rest) :
    (p.leaveErrands rest).Ledger .timeline ids (errand.tickets ++ []) [] := by
  refine { h.ledger with books := h.ledger.books.perm ?_ (.refl _), agenda := ?_ }
  · refine List.perm_iff_count.mpr fun t ↦ ?_
    simp only [tickets, leaveErrands, updateTurn, hagenda, List.flatMap_cons, List.count_append,
      List.nil_append, List.append_nil]
    omega
  · exact fun e he ↦ h.ledger.agenda e (hagenda ▸ List.mem_cons_of_mem _ he)

theorem steadyLeft (h : Midturn c voices plan finish root ids task others p) (agenda : List Errand) :
    (p.leaveErrands agenda).Steady c voices := ⟨h.steady.config, h.steady.pace, h.sound⟩

/-- What has been left behind, seen from the tasks. -/
theorem current_left (heffect : Effect qs ts ds (p.leaveErrands rest) q)
    (hpauses : p.turn.pauses = []) :
    q.current task = { task with agenda := rest, pauses := qs } := by
  unfold current
  rw [heffect.agenda, heffect.pauses]
  simp [leaveErrands, updateTurn, hpauses]

theorem regular_left (h : Midturn c voices plan finish root ids task others p)
    (hagenda : p.turn.agenda = errand :: rest) (hpauses : p.turn.pauses = [])
    (hledger : q.Ledger .timeline ids [] []) (heffect : Effect qs ts ds (p.leaveErrands rest) q) :
    (q.current task).Regular voices q.session := by
  have hcur := h.prospects.regular _ List.mem_cons_self
  have hbeside : ∀ x ∈ qs, ¬x.wait.Ticks := by
    intro x hx hticks
    have hfits := hledger.pauses x (by simp [heffect.pauses, hx])
    obtain ⟨wait, ending, scopes⟩ := x
    cases wait <;> first | exact hticks | exact hfits
  rw [current_left heffect hpauses]
  refine ⟨heffect.tame, fun x hx hticks ↦ absurd hticks (hbeside x hx), heffect.waiting, fun e he ↦ ?_⟩
  exact hcur.agenda e (by simp [current, hagenda, show e ∈ rest from he])

section performed

variable {action : Action} {scope : Nat} {step : Option Nat} {own ret : Nat → Prop} {waits : Prop}

theorem scope_of_perform (h : Midturn c voices plan finish root ids task others p)
    (hagenda : p.turn.agenda = .perform action scope step :: rest) : task.scope = some scope :=
  ((h.prospects.regular _ List.mem_cons_self).agenda (.perform action scope step)
    (by simp [current, hagenda])).2

/-- A task that is about to perform owes nothing. -/
theorem mem_debts_before (h : Midturn c voices plan finish root ids task others p)
    (hagenda : p.turn.agenda = .perform action scope step :: rest) (hpauses : p.turn.pauses = [])
    {now : Nat} {d : Ticket × Option Nat} :
    d ∈ (p.current task :: others).flatMap (Task.debts now) ↔ d ∈ others.flatMap (Task.debts now) := by
  have hcur := h.prospects.regular _ List.mem_cons_self
  rw [List.flatMap_cons, hcur.debts (by simp [current, h.scope_of_perform hagenda])]
  simp [current, hpauses]

theorem mem_debts_after (h : Midturn c voices plan finish root ids task others p)
    (hagenda : p.turn.agenda = .perform action scope step :: rest) (hpauses : p.turn.pauses = [])
    (hledger : q.Ledger .timeline ids [] []) (heffect : Effect qs ts ds (p.leaveErrands rest) q)
    {now : Nat} {d : Ticket × Option Nat} :
    d ∈ (q.current task :: ts ++ others).flatMap (Task.debts now) ↔
      d ∈ owed now qs ts ∨ d ∈ others.flatMap (Task.debts now) := by
  have hleft := h.regular_left hagenda hpauses hledger heffect
  rw [List.flatMap_append, List.flatMap_cons,
    hleft.debts (by simp [current, h.scope_of_perform hagenda]), current_left heffect hpauses,
    List.mem_append, owed]

/-- On the new scopes only what has been left behind is owed. -/
theorem agrees_left (h : Midturn c voices plan finish root ids task others p)
    (hagenda : p.turn.agenda = .perform action scope step :: rest) (hpauses : p.turn.pauses = [])
    (hledger : q.Ledger .timeline ids [] []) (heffect : Effect qs ts ds (p.leaveErrands rest) q) :
    Agrees p.session.now p.session.serial q.session.serial (owed p.session.now qs ts)
      (outlook p.session.now (q.current task :: ts ++ others)) := by
  intro x hlo _
  funext tally
  refine ext_come fun n ↦ ?_
  rw [come_outlook, come_clears]
  simp only [h.mem_debts_after hagenda hpauses hledger heffect]
  refine and_congr_right fun _ ↦ ⟨fun hall d hd ↦ hall d (.inl hd), ?_⟩
  rintro hall d (hd | hd) hdx
  · exact hall d hd hdx
  · have hbelow := h.scope_lt ((h.mem_debts_before hagenda hpauses).mpr hd)
    omega

theorem follows_left (hagenda : p.turn.agenda = errand :: rest) (hpauses : p.turn.pauses = [])
    (heffect : Effect qs ts ds (p.leaveErrands rest) q) (h : (p.current task).Follows) :
    (q.current task).Follows := by
  rw [current_left heffect hpauses]
  exact ⟨fun e he ↦ h.agenda e (by simp [current, hagenda, show e ∈ rest from he]), heffect.onward⟩

theorem leads_left (hagenda : p.turn.agenda = .perform action scope step :: rest)
    (hpauses : p.turn.pauses = []) (heffect : Effect qs ts ds (p.leaveErrands rest) q)
    (h : (p.current task).Leads root) : (q.current task).Leads root := by
  rw [current_left heffect hpauses]
  rcases h with ⟨steps, hscope, hagenda', hsteps, -⟩ | ⟨scopes, -, hagenda', -⟩
  · have hagenda' : p.turn.agenda = steps ++ [closing root] := hagenda'
    rw [hagenda] at hagenda'
    cases steps with
    | nil => cases hagenda'
    | cons first steps =>
        obtain ⟨-, hrest⟩ := List.cons.inj hagenda'
        exact .walking steps hscope hrest (fun e he ↦ hsteps e (List.mem_cons_of_mem _ he))
          heffect.onward
  · have hagenda' : p.turn.agenda = [] := hagenda'
    rw [hagenda] at hagenda'
    cases hagenda'

/-- The actions of the walk are over when those before it are and what is owed for its
own. -/
theorem come_actions_left (h : Midturn c voices plan finish root ids task others p)
    (hagenda : p.turn.agenda = .perform action scope step :: rest) (hpauses : p.turn.pauses = [])
    (hledger : q.Ledger .timeline ids [] []) (heffect : Effect qs ts ds (p.leaveErrands rest) q)
    (hown : ∀ n, p.session.now ≤ n → ((∀ d ∈ owed p.session.now qs ts, d.1.scope = scope → Come n d.2) ↔
      Come n (holds c p.session.now action)))
    {n : Nat} (hn : p.session.now ≤ n) :
    Come n (outlook p.session.now (q.current task :: ts ++ others) scope .actions) ↔
      Come n (outlook p.session.now (p.current task :: others) scope .actions) ∧
        Come n (holds c p.session.now action) := by
  rw [come_outlook, come_outlook, ← hown n hn]
  simp only [h.mem_debts_after hagenda hpauses hledger heffect, h.mem_debts_before hagenda hpauses]
  constructor
  · rintro ⟨-, hall⟩
    exact ⟨⟨hn, fun d hd ↦ hall d (.inr hd)⟩, fun d hd hdx ↦ hall d (.inl hd) hdx rfl⟩
  · rintro ⟨⟨-, hothers⟩, howed⟩
    refine ⟨hn, ?_⟩
    rintro d (hd | hd) hdx hr
    · exact howed d hd hdx
    · exact hothers d hd hdx hr

/-- What is ahead of a task that performs an action are the events of the action and
what is ahead of it afterwards. -/
theorem prospect_left (hagenda : p.turn.agenda = .perform action scope step :: rest)
    (hpauses : p.turn.pauses = []) (hscope : task.scope = some scope)
    (heffect : Effect qs ts ds (p.leaveErrands rest) q) {X X' : Clearing}
    (hactions : ∀ n, p.session.now ≤ n → (Come n (X' scope .actions) ↔
      Come n (X scope .actions) ∧ Come n (holds c p.session.now action)))
    (hresumes : ∀ n, p.session.now ≤ n →
      ((∀ x ∈ qs, Come n (x.wait.past X' p.session.now)) ↔
        Come n (resumes c p.session.now (X scope .actions) action))) :
    ((p.current task).prospect c X p.session.now).1 = events c action p.session.now ++
        ((q.current task).prospect c X' p.session.now).1 ∧
      ((q.current task).prospect c X' p.session.now).2 =
        ((p.current task).prospect c X p.session.now).2 := by
  have hwait : waitEnd X' p.session.now qs =
      resumes c p.session.now (X scope .actions) action := by
    refine ext_come fun n ↦ ?_
    rw [come_waitEnd]
    constructor
    · rintro ⟨hn, hall⟩
      exact (hresumes n hn).mp hall
    · rintro ⟨u, hu, hle⟩
      have hn := Nat.le_trans (le_of_resumes hu) hle
      exact ⟨hn, (hresumes n hn).mpr ⟨u, hu, hle⟩⟩
  -- ahead of the task is what is ahead of its walk after the action
  have hwalk : ∀ u, resumes c p.session.now (X scope .actions) action = some u →
      later (some u) (X' scope .actions) =
        later (some u) (later (X scope .actions) (settled c p.session.now action)) := by
    intro u hu
    have hle := le_of_resumes hu
    refine ext_come fun n ↦ ?_
    simp only [come_later, come_some]
    refine and_congr_right fun hn ↦ ?_
    rw [hactions n (Nat.le_trans hle hn), come_holds_iff ⟨u, hu, hn⟩]
  have hcur : (p.current task).prospect c X p.session.now =
      (walkEvents c (action :: actionsOf rest) p.session.now (X scope .actions),
        walkEnd c (action :: actionsOf rest) p.session.now (X scope .actions)) := by
    have hend : waitEnd X p.session.now [] = some p.session.now := rfl
    simp only [Task.prospect, Storyline.prospect, current, hagenda, hpauses, hend, Task.home,
      hscope, Option.getD_some]
    rfl
  rw [hcur, current_left heffect hpauses]
  simp only [Task.prospect, Storyline.prospect, hwait, Task.home, hscope, Option.getD_some,
    walkEvents, walkEnd]
  cases hu : resumes c p.session.now (X scope .actions) action with
  | none => exact ⟨rfl, rfl⟩
  | some u =>
      obtain ⟨hevents, hend⟩ := walk_congr (c := c) (actionsOf rest) (hwalk u hu)
      exact ⟨congrArg _ hevents.symm, hend⟩

/-- An action that goes by the timetable keeps to the plan. -/
theorem performed (h : Midturn c voices plan finish root ids task others p)
    (hagenda : p.turn.agenda = .perform action scope step :: rest) (hpauses : p.turn.pauses = [])
    (hledger : q.Ledger .timeline ids [] []) (heffect : Effect qs ts ds (p.leaveErrands rest) q)
    (hplays : Plays c voices p.session.now scope p.session.serial q.session.serial
      (fun n ↦ Come n (holds c p.session.now action)) ret waits (events c action p.session.now)
      qs ts ds)
    (hresumes : ∀ n, p.session.now ≤ n →
      ((∀ x ∈ qs, Come n (x.wait.past (outlook p.session.now (q.current task :: ts ++ others))
        p.session.now)) ↔
        Come n (resumes c p.session.now
          (outlook p.session.now (p.current task :: others) scope .actions) action))) :
    Midturn c voices plan finish root ids task (ts ++ others) q := by
  have hscope := h.scope_of_perform hagenda
  have hcur := h.prospects.roles _ List.mem_cons_self
  have hlt : scope < p.session.serial :=
    h.prospects.minds_lt _ List.mem_cons_self scope (by simp [Task.minds, current, hscope])
  have hagrees := h.agrees_left hagenda hpauses hledger heffect
  obtain ⟨hevents, hend⟩ := prospect_left hagenda hpauses hscope heffect
    (fun n hn ↦ h.come_actions_left hagenda hpauses hledger heffect hplays.own hn) hresumes
  have hfresh : ∀ t ∈ ts, t.Regular voices q.session ∧ t.Follows := by
    intro t ht
    have hfresh := hplays.fresh t ht
    exact ⟨⟨by simp [hfresh.pauses], by simp [hfresh.pauses], by simp [hfresh.pauses],
      fun e he ↦ ⟨(hfresh.agenda e he).1, (hfresh.agenda e he).2.1⟩⟩,
      fun e he ↦ (hfresh.agenda e he).2.2, by simp [hfresh.pauses]⟩
  have hminds : ∀ x ∈ (q.current task).minds,
      x = scope ∨ p.session.serial ≤ x ∧ x < q.session.serial ∧ ∀ t ∈ ts, x ∉ t.minds := by
    intro x hx
    rw [current_left heffect hpauses] at hx
    rcases List.mem_append.mp hx with hx | hx
    · exact .inl (by simpa [hscope, eq_comm] using hx)
    · obtain ⟨y, hy, hx⟩ := List.mem_flatMap.mp hx
      exact (hplays.minds y hy x hx).imp_right fun hin ↦ ⟨hin.1, hin.2, hplays.aside y hy x hx⟩
  have hplan : Prospects c voices plan finish root q.session q.status (p.dispatches ++ ds)
      ((q.current task :: ts) ++ others) := by
    refine h.prospects.replace heffect.moment heffect.pace heffect.serial ?_ ?_ ?_ ?_ ?_
      heffect.times ?_ ?_ ?_ ?_
    · intro t ht x hx id hid
      exact heffect.parked id
        ((h.prospects.regular t (List.mem_cons_of_mem _ ht)).waiting x hx id hid)
    · intro t ht
      rcases List.mem_cons.mp ht with rfl | ht
      · exact h.regular_left hagenda hpauses hledger heffect
      · exact (hfresh t ht).1
    · refine List.pairwise_cons.mpr ⟨fun t ht x hx hxt ↦ ?_, hplays.apart⟩
      rcases hminds x hx with rfl | ⟨-, -, hnot⟩
      · exact absurd (hplays.taskMinds t ht x hxt).1 (Nat.not_le.mpr hlt)
      · exact hnot t ht hxt
    · intro t ht x hx
      rcases List.mem_cons.mp ht with rfl | ht
      · rcases hminds x hx with rfl | ⟨hlo, hhi, -⟩
        · exact ⟨.inl (by simp [Task.minds, current, hscope]), Nat.lt_of_lt_of_le hlt heffect.serial⟩
        · exact ⟨.inr hlo, hhi⟩
      · obtain ⟨hlo, hhi⟩ := hplays.taskMinds t ht x hx
        exact ⟨.inr hlo, hhi⟩
    · intro x hx hserial
      funext tally
      refine ext_come fun n ↦ ?_
      rw [come_outlook, come_outlook]
      simp only [h.mem_debts_after hagenda hpauses hledger heffect,
        h.mem_debts_before hagenda hpauses]
      refine and_congr_right fun _ ↦ ⟨fun hall d hd ↦ hall d (.inr hd), ?_⟩
      rintro hall d (hd | hd) hdx
      · rcases hplays.scopes d hd with hds | hds
        · exact absurd (by simp [Task.minds, current, hscope, ← hdx, hds]) hx
        · omega
      · exact hall d hd hdx
    · rw [hevents, List.flatMap_cons]
      refine .trans ?_ ((hplays.events _ hagrees).append_right _)
      rw [List.append_assoc]
      exact List.perm_append_comm.append_left _
    · intro t ht
      rcases List.mem_cons.mp ht with rfl | ht
      · exact hcur.imp (follows_left hagenda hpauses heffect) (leads_left hagenda hpauses heffect)
      · exact .inl (hfresh t ht).2
    · intro t ht hleads
      rcases List.mem_cons.mp ht with rfl | ht
      · refine hend.trans (h.prospects.ends _ List.mem_cons_self (hcur.resolve_left fun hf ↦ ?_))
        exact (follows_left hagenda hpauses heffect hf).not_leads hleads
      · exact absurd hleads (hfresh t ht).2.not_leads
    · rw [heffect.status]
      rcases h.prospects.status with ⟨hs, t, ht, hleads⟩ | hdone
      · rcases List.mem_cons.mp ht with rfl | ht
        · exact .inl ⟨hs, _, by simp, leads_left hagenda hpauses heffect hleads⟩
        · exact .inl ⟨hs, t, by simp [ht], hleads⟩
      · exact .inr hdone
  refine ⟨hledger, heffect.failed.trans h.sound, ?_, ?_⟩
  · rw [heffect.tasks]
    exact (h.tasks.append_right ts).trans (List.perm_append_comm.cons _)
  · rw [heffect.dispatches]
    exact hplan

/-- The tickets that are out in the scope of a walk that has nothing to wait for are
those of settlings, and need no tap. -/
theorem tapless (h : Midturn c voices plan finish root ids task others p)
    (hagenda : p.turn.agenda = .perform action scope step :: rest) {d : Ticket × Option Nat}
    (hd : d ∈ others.flatMap (Task.debts p.session.now)) (hds : d.1.scope = scope) :
    d.1.tapEpoch = none := by
  obtain ⟨t, ht, hd⟩ := List.mem_flatMap.mp hd
  obtain ⟨kind, hfits⟩ := h.ledger.tasks t (h.tasks.mem_iff.mpr (List.mem_cons_of_mem _ ht))
  have hnot : scope ∉ t.minds := (List.pairwise_cons.mp h.prospects.apart).1 t ht scope
    (by simp [Task.minds, current, h.scope_of_perform hagenda])
  rcases List.mem_append.mp hd with hd | hd
  · obtain ⟨x, hx, hd⟩ := List.mem_flatMap.mp hd
    obtain ⟨ticket, hticket, rfl⟩ := List.mem_map.mp hd
    have hx' := hfits.pauses x hx
    obtain ⟨wait, ending, scopes⟩ := x
    cases kind with
    | ticker => simp [hx'.ticker.1] at hticket
    | timeline =>
        cases wait with
        | tap park dwelling auto =>
            refine absurd (List.mem_append_right _ (List.mem_flatMap.mpr ⟨_, hx, ?_⟩)) hnot
            exact List.mem_map.mpr ⟨ticket, hticket, hds⟩
        | sleep timer skips =>
            obtain ⟨ticket', he, htap, -⟩ := hx'
            obtain rfl : ticket = ticket' := by simpa [Pause.tickets, he] using hticket
            exact htap
        | drained x tally guarded =>
            have hnone : ending.ticket? = none := hx'
            simp [Pause.tickets, hnone] at hticket
        | _ => exact hx'.elim
  · obtain ⟨e, he, hd⟩ := List.mem_flatMap.mp hd
    have he' := hfits.agenda e he
    cases e with
    | sleep d ending scopes =>
        obtain ⟨ticket, hticket, rfl⟩ := List.mem_map.mp hd
        cases kind with
        | ticker => exact he'.elim
        | timeline =>
            obtain ⟨ticket', he, htap, -⟩ := he'
            obtain rfl : ticket = ticket' := by simpa [he] using hticket
            exact htap
    | _ => cases hd

/-- A wait for a count is over when the timetable says so. -/
theorem wait_resumes {cue : Cue} {tally : Tally}
    (hcue : cue = .waitForAll ∧ tally = .actions ∨ cue = .waitForTap ∧ tally = .taps)
    (h : Midturn c voices plan finish root ids task others p)
    (hagenda : p.turn.agenda = .perform (.cue cue) scope step :: rest) (hpauses : p.turn.pauses = [])
    (hledger : q.Ledger .timeline ids [] []) (heffect : Effect qs ts ds (p.leaveErrands rest) q)
    (hqs : (qs = [] ∧ ∀ t ∈ p.tickets, t.scope = scope → tally.regards t = false) ∨
      ∃ scopes, qs = [⟨.drained scope tally true, .nothing, scopes⟩]) (hts : ts = [])
    {n : Nat} (hn : p.session.now ≤ n) :
    (∀ x ∈ qs, Come n (x.wait.past (outlook p.session.now (q.current task :: ts ++ others))
      p.session.now)) ↔
      Come n (resumes c p.session.now
        (outlook p.session.now (p.current task :: others) scope .actions) (.cue cue)) := by
  have hsame : Come n (outlook p.session.now (q.current task :: ts ++ others) scope tally) ↔
      Come n (outlook p.session.now (p.current task :: others) scope tally) := by
    have howed : owed p.session.now qs ts = [] := by
      rcases hqs with ⟨rfl, -⟩ | ⟨scopes, rfl⟩ <;>
        simp [hts, owed, Pause.debts, Pause.tickets, Ending.ticket?]
    simp only [come_outlook, h.mem_debts_after hagenda hpauses hledger heffect, howed,
      h.mem_debts_before hagenda hpauses, List.not_mem_nil, false_or]
  have hclear : (∀ d ∈ (p.current task :: others).flatMap (Task.debts p.session.now),
      d.1.scope = scope → tally.regards d.1 = false) →
      Come n (outlook p.session.now (p.current task :: others) scope tally) := fun hnone ↦
    come_outlook.mpr ⟨hn, fun d hd hds hr ↦ absurd hr (by simp [hnone d hd hds])⟩
  rcases hcue with ⟨rfl, rfl⟩ | ⟨rfl, rfl⟩
  · simp only [resumes, come_later, come_some, hn, true_and]
    rcases hqs with ⟨rfl, hnone⟩ | ⟨scopes, rfl⟩
    · simp only [List.not_mem_nil, false_implies, implies_true, true_iff]
      exact hclear fun d hd hds ↦ hnone d.1 (h.mem_tickets.mpr ⟨d, hd, rfl⟩) hds
    · simpa [Wait.past] using hsame
  · -- no action of the walk waits for a tap any more
    have hnone := hclear fun d hd hds ↦ by
      simp [Tally.regards, h.tapless hagenda ((h.mem_debts_before hagenda hpauses).mp hd) hds]
    simp only [resumes, returns, cueReturn, come_some, hn, iff_true]
    rcases hqs with ⟨rfl, -⟩ | ⟨scopes, rfl⟩
    · simp
    · simpa [Wait.past] using hsame.mpr hnone

/-- To perform an action keeps to the plan. -/
theorem performs (h : Midturn c voices plan finish root ids task others p)
    (hagenda : p.turn.agenda = .perform action scope step :: rest) (hpauses : p.turn.pauses = []) :
    ∃ others', Midturn c voices plan finish root ids task others'
      ((p.leaveErrands rest).begin (.perform action scope step)) := by
  have herrand := h.ledger.agenda (.perform action scope step) (by simp [hagenda])
  have hvoice : action.Unvoiced voices := ((h.prospects.regular _ List.mem_cons_self).agenda
    (.perform action scope step) (by simp [current, hagenda])).1
  have hq := (h.taken hagenda).begin herrand
  have hledger : (p.leaveErrands rest).Ledger .timeline (scope :: ids) [] [] :=
    { h.taken hagenda with known := List.cons_subset.mpr ⟨herrand, h.ledger.known⟩ }
  have hsteady := h.steadyLeft rest
  obtain ⟨qs, ts, ds, heffect, hplays⟩ :=
    unfolds_perform action [scope] step hledger List.mem_cons_self hsteady hvoice
  refine ⟨_, h.performed hagenda hpauses hq heffect hplays fun n hn ↦ ?_⟩
  by_cases hwait : action.isWait = true
  · obtain ⟨cue, tally, rfl, hcue⟩ := Action.eq_of_isWait hwait
    have hperform : perform (.cue cue) scope [scope] step (p.leaveErrands rest) =
        ((p.leaveErrands rest).note (.cue cue) scope step).performCue cue scope [scope] step := by
      rw [perform]
    have hnote : ((p.leaveErrands rest).note (.cue cue) scope step).turn.pauses = [] ∧
        ((p.leaveErrands rest).note (.cue cue) scope step).tasks = p.tasks ∧
        ((p.leaveErrands rest).note (.cue cue) scope step).tickets = p.tickets := by
      have htickets : (p.leaveErrands rest).tickets = p.tickets := by
        simp [tickets, leaveErrands, updateTurn, hagenda, Errand.tickets]
      unfold note
      split <;> exact ⟨hpauses, rfl, htickets⟩
    have hpauses' := heffect.pauses
    have htasks' := heffect.tasks
    have hbefore : (p.leaveErrands rest).turn.pauses = [] := hpauses
    rw [hperform, hbefore, List.nil_append] at hpauses'
    rw [hperform, show (p.leaveErrands rest).tasks = p.tasks from rfl] at htasks'
    refine wait_resumes hcue h hagenda hpauses hq heffect ?_ ?_ hn <;>
      rcases effect_wait hcue [scope] step (hledger.note (.cue cue) scope step) List.mem_cons_self
        (hsteady.note (.cue cue) step) with ⟨hover, hnone⟩ | hleft
    · left
      rw [hover.pauses, hnote.1] at hpauses'
      exact ⟨hpauses'.symm, hnote.2.2 ▸ hnone⟩
    · right
      rw [hleft.pauses, hnote.1] at hpauses'
      exact ⟨[scope], hpauses'.symm⟩
    · rw [hover.tasks, hnote.2.1] at htasks'
      simpa using htasks'
    · rw [hleft.tasks, hnote.2.1] at htasks'
      simpa using htasks'
  · have hpast := hplays.past _ (h.agrees_left hagenda hpauses hq heffect) n hn
      fun hw ↦ absurd hw hwait
    rw [resumes_eq (by simpa using hwait)]
    exact hpast

end performed

/-- To sleep keeps to the plan: what was owed at its end is owed now. -/
theorem sleeps {d : Duration} {ending : Ending} {scopes : List Nat}
    (h : Midturn c voices plan finish root ids task others p)
    (hagenda : p.turn.agenda = .sleep d ending scopes :: rest) (hpauses : p.turn.pauses = []) :
    Midturn c voices plan finish root ids task others
      ((p.leaveErrands rest).begin (.sleep d ending scopes)) := by
  obtain ⟨ticket, hticket, htap, hmem⟩ :=
    h.ledger.agenda (.sleep d ending scopes) (by simp [hagenda])
  have hscope : task.scope = none := ((h.prospects.regular _ List.mem_cons_self).agenda
    (.sleep d ending scopes) (by simp [current, hagenda])).2
  have hledger := (h.taken hagenda).begin ⟨ticket, hticket, htap, hmem⟩
  have hsteady := h.steadyLeft rest
  have hending : ending ≠ .completed := by
    rintro rfl
    cases hticket
  obtain ⟨qs, heffect, hminds, hpaid⟩ : ∃ qs,
      Effect qs [] [] (p.leaveErrands rest) ((p.leaveErrands rest).sleep d ending scopes) ∧
      qs.flatMap Pause.minds = [] ∧
      ∀ n, p.session.now ≤ n → ∀ x (tally : Tally),
        (∀ e ∈ qs.flatMap Pause.debts, e.1.scope = x → tally.regards e.1 = true → Come n e.2) ↔
          (ticket.scope = x → tally.regards ticket = true → Come n (d.endFrom p.session.now)) := by
    rcases effect_sleep d scopes hsteady.running hsteady.skips hending with
      ⟨heffect, hcome⟩ | ⟨timer, hdue, heffect⟩
    · have hcome : Come p.session.now (d.endFrom p.session.now) := hcome
      exact ⟨[], heffect, rfl, fun n hn x tally ↦ by simp [hcome.mono hn]⟩
    · have hdue : timer.due = d.endFrom p.session.now := hdue
      refine ⟨_, heffect, by simp [Pause.minds], fun n _ x tally ↦ ?_⟩
      simp [Pause.debts, Pause.tickets, hticket, Wait.due, hdue]
  have hleft : ((p.leaveErrands rest).begin (.sleep d ending scopes)).current task =
      { task with agenda := rest, pauses := qs } := current_left heffect hpauses
  have hregular := h.regular_left hagenda hpauses hledger heffect
  refine ⟨hledger, heffect.failed.trans h.sound, ?_, ?_⟩
  · have htasks := heffect.tasks
    rw [List.append_nil] at htasks
    exact (List.Perm.of_eq htasks).trans h.tasks
  have hdispatches : ((p.leaveErrands rest).begin (.sleep d ending scopes)).dispatches =
      p.dispatches := heffect.dispatches.trans (List.append_nil _)
  rw [hdispatches]
  refine h.prospects.revise heffect.moment heffect.pace heffect.serial ?_ rfl hregular ?_ ?_ ?_ ?_ ?_
  · intro t ht x hx id hid
    exact heffect.parked id ((h.prospects.regular t (List.mem_cons_of_mem _ ht)).waiting x hx id hid)
  · have hnone : (((p.leaveErrands rest).begin (.sleep d ending scopes)).current task).minds = [] := by
      rw [hleft, Task.minds, hscope, hminds]
      rfl
    simp [hnone]
  · intro n hn x tally
    have hbefore : (p.current task).debts p.session.now =
        (ticket, d.endFrom p.session.now) :: rest.flatMap (Errand.debts p.session.now) := by
      simp [Task.debts, current, hagenda, hpauses, Errand.debts, hticket]
    rw [hleft, hbefore, Task.debts, List.forall_mem_append, List.forall_mem_cons, hpaid n hn x tally]
  · exact fun hne ↦ absurd hscope hne
  · exact fun hf ↦ ⟨follows_left hagenda hpauses heffect hf, heffect.status⟩
  · intro hl
    have hroot : task.scope = some root := hl.scope
    rw [hscope] at hroot
    cases hroot

theorem closing_of_drain {x : Nat} {tally : Tally} {guarded : Bool} {ending : Ending}
    (h : Midturn c voices plan finish root ids task others p)
    (hagenda : p.turn.agenda = .drain x tally guarded ending :: rest) :
    p.turn.agenda = [closing root] ∧ task.scope = some root ∧ (p.current task).Leads root := by
  rcases h.prospects.roles _ List.mem_cons_self with hf | hl
  · exact absurd (hf.agenda (.drain x tally guarded ending) (by simp [current, hagenda]))
      (by simp [Errand.isDrain])
  · refine ⟨?_, hl.scope, hl⟩
    rcases hl with ⟨steps, -, hsteps, hperform, -⟩ | ⟨scopes, -, hnil, -⟩
    · have hsteps : p.turn.agenda = steps ++ [closing root] := hsteps
      cases steps with
      | nil => exact hsteps
      | cons first steps =>
          rw [hagenda] at hsteps
          obtain ⟨rfl, -⟩ := List.cons.inj hsteps
          exact absurd (hperform _ List.mem_cons_self) (by simp [Errand.isPerform])
    · have hnil : p.turn.agenda = [] := hnil
      rw [hagenda] at hnil
      cases hnil

/-- The pause before the end of the story. -/
def lastPause (root : Nat) : Pause := ⟨.drained root .actions true, .completed, [root]⟩

theorem lastPause_left (h : Midturn c voices plan finish root ids task others p)
    (hagenda : p.turn.agenda = [closing root]) (hpauses : p.turn.pauses = []) :
    Midturn c voices plan finish root ids task others ((p.leaveErrands []).leave (lastPause root)) := by
  obtain ⟨-, hscope, hleads⟩ := h.closing_of_drain hagenda
  have hcur := h.prospects.regular _ List.mem_cons_self
  have hleft : ((p.leaveErrands []).leave (lastPause root)).current task =
      { task with agenda := [], pauses := [lastPause root] } := by
    simp [current, leave, leaveErrands, updateTurn, hpauses]
  refine ⟨(h.taken hagenda).leave rfl, h.sound, h.tasks, ?_⟩
  refine h.prospects.revise rfl rfl (Nat.le_refl _) ?_ rfl ?_ ?_ ?_ ?_ ?_ ?_
  · exact fun t ht ↦ (h.prospects.regular t (List.mem_cons_of_mem _ ht)).waiting
  · rw [hleft]
    refine ⟨?_, ?_, ?_, by simp⟩ <;> intro x hx <;> rw [List.mem_singleton.mp hx]
    · trivial
    · exact fun hticks ↦ hticks.elim
    · simp [lastPause, Pause.parks, Pause.park?]
  · rw [hleft]
    simp [Task.minds, current, hscope, Pause.minds, lastPause]
  · intro n _ x tally
    rw [hleft]
    simp [Task.debts, current, hagenda, hpauses, Errand.debts, Pause.debts, Pause.tickets, lastPause,
      closing, Ending.ticket?]
  · intro _
    rw [hleft]
    generalize outlook p.session.now (p.current task :: others) = X
    have hbefore : waitEnd X p.session.now [] = some p.session.now := rfl
    have hafter : waitEnd X p.session.now [lastPause root] =
        later (X root .actions) (some p.session.now) := rfl
    have hdone : actionsOf [closing root] = [] := rfl
    have hnil : actionsOf [] = [] := rfl
    simp only [Task.prospect, Storyline.prospect, current, hagenda, hpauses, hbefore, hafter,
      Task.home, hscope, Option.getD_some, hdone, hnil]
    cases X root .actions with
    | none => rfl
    | some u =>
        simp only [later, walkEvents, walkEnd, Prod.mk.injEq, true_and, Option.some.injEq]
        omega
  · exact fun hf ↦ absurd hleads hf.not_leads
  · intro _
    rw [hleft]
    exact .inl ⟨.closing [root] hscope rfl rfl, rfl⟩

/-- To wait for the last count keeps to the plan. -/
theorem closes (h : Midturn c voices plan finish root ids task others p)
    (hagenda : p.turn.agenda = [closing root]) (hpauses : p.turn.pauses = []) :
    Midturn c voices plan finish root ids task others ((p.leaveErrands []).begin (closing root)) := by
  have hledger := (h.taken hagenda).begin (h.ledger.agenda (closing root) (by simp [hagenda]))
  have hleft := h.lastPause_left hagenda hpauses
  have hbegin : (p.leaveErrands []).begin (closing root) =
      if p.session.pending root .actions = 0 then (p.leaveErrands []).finish .completed
      else (p.leaveErrands []).leave (lastPause root) :=
    suspend_drained (p := p.leaveErrands []) h.steady.running
  rw [hbegin] at hledger ⊢
  split at hledger
  next hzero =>
    rw [if_pos hzero]
    have hstirs := (p.leaveErrands []).stirs_finish .completed
    have hlevel := (p.leaveErrands []).level_finish .completed
    have hpaused : ((p.leaveErrands []).leave (lastPause root)).turn.pauses = [lastPause root] := by
      simp [leave, leaveErrands, updateTurn, hpauses]
    refine hleft.leaveOut hledger (hstirs.failed.trans h.sound) hstirs.moment hlevel.pace
      hstirs.serial ?_ ?_ hstirs.tasks hstirs.dispatches hstirs.agenda hpaused
      (hstirs.pauses.trans hpauses) hzero
    · intro id _ hid
      rw [Session.isParked, hlevel.taps]
      exact hid
    · rw [finish_status]
      rfl
  next hpending =>
    rw [if_neg hpending]
    exact hleft

/-- Whatever a task of the timeline begins keeps to the plan. -/
theorem begins (h : Midturn c voices plan finish root ids task others p)
    (hagenda : p.turn.agenda = errand :: rest) (hpauses : p.turn.pauses = []) :
    ∃ others', Midturn c voices plan finish root ids task others'
      ((p.leaveErrands rest).begin errand) := by
  cases errand with
  | perform action scope step => exact h.performs hagenda hpauses
  | sleep d ending scopes => exact ⟨_, h.sleeps hagenda hpauses⟩
  | drain x tally guarded ending =>
      obtain ⟨hclosing, -, -⟩ := h.closing_of_drain hagenda
      obtain ⟨rfl, he, hrest⟩ : rest = [] ∧ Errand.drain x tally guarded ending = closing root ∧
          rest = [] := by
        rw [hagenda] at hclosing
        obtain ⟨he, hrest⟩ := List.cons.inj hclosing
        exact ⟨hrest, he, hrest⟩
      rw [he]
      exact ⟨_, h.closes hclosing hpauses⟩
  | awaitEnd => exact (h.ledger.agenda .awaitEnd (by simp [hagenda])).elim
  | animate shake stamp d => exact (h.ledger.agenda (.animate shake stamp d) (by simp [hagenda])).elim
  | fastForward => exact (h.ledger.agenda .fastForward (by simp [hagenda])).elim

/-- The errands that a turn begins keep to the plan. -/
theorem proceeds {agenda : List Errand} (h : Midturn c voices plan finish root ids task others p)
    (hagenda : p.turn.agenda = agenda) :
    ∃ others', Midturn c voices plan finish root ids task others' (proceed agenda p) := by
  induction agenda generalizing p others with
  | nil => exact ⟨_, h⟩
  | cons errand rest ih =>
      simp only [proceed]
      split
      next hfree =>
        have hpauses : p.turn.pauses = [] := by
          simp only [Turn.isFree, Bool.and_eq_true, List.isEmpty_iff] at hfree
          exact hfree.1
        obtain ⟨others', hbegun⟩ := h.begins hagenda hpauses
        exact ih hbegun (costs_begin errand rfl).agenda
      next => exact ⟨_, h⟩

theorem revisits {pauses : List Pause} (h : Midturn c voices plan finish root ids task others p)
    (hawaits : p.Awaits pauses) :
    Midturn c voices plan finish root ids task others
      (pauses.foldl (fun p pause ↦ p.revisit pause) p) := by
  induction pauses generalizing p with
  | nil => exact h
  | cons pause rest ih => exact ih (h.revisit hawaits) (revisit_awaits hawaits)

end Midturn

end Playback

end Storyline
