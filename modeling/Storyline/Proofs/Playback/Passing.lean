import Storyline.Proofs.Playback.Course
import Storyline.Proofs.Playback.Planned

/-!
# Time passes by the plan

While nothing is ready, every task that walks waits for a timer in the end, its own
or that of somebody who holds a ticket.  So nothing that is ahead of it comes
before the next timer, and the clock may move on to there.
-/

namespace Storyline

open Timetable

namespace Playback

namespace Planned

variable {c : Config} {voices : VoiceCache} {plan : List (Nat × Action)} {finish : Option Nat}
  {root : Nat} {m : Moment} {p q : Playback} {t : Task} {time bound n : Nat}

/-- No timer is due before a time. -/
def Undue (bound : Nat) (p : Playback) : Prop :=
  ∀ t ∈ p.tasks, ∀ x ∈ t.pauses, ∀ timer, x.wait.timer? = some timer →
    ∀ due, timer.due = some due → bound ≤ due

/-- While nothing is ready, tickets are owed for pauses only. -/
theorem resting_debts (h : Planned c voices plan finish root p) (ho : p.Orderly m none 0)
    (hq : p.queue = []) (now : Nat) (ht : t ∈ p.tasks) :
    t.debts now = t.pauses.flatMap Pause.debts := by
  obtain ⟨kind, hfits⟩ := h.ledger.tasks t ht
  have hnone : t.agenda.flatMap (Errand.debts now) = [] := by
    refine List.flatMap_eq_nil_iff.mpr fun e he ↦ ?_
    have htickets := hfits.spent (ho.resting t ht (by simp) (by simp [hq])).1 e he
    rw [← Errand.map_debts now, List.map_eq_nil_iff] at htickets
    exact htickets
  rw [Task.debts, hnone, List.append_nil]

theorem exists_debt (h : Planned c voices plan finish root p) (ho : p.Orderly m none 0) {x : Nat}
    {tally : Tally} (hpending : p.session.pending x tally ≠ 0) :
    ∃ d ∈ p.tasks.flatMap (Task.debts p.session.now), d.1.scope = x ∧ tally.regards d.1 = true := by
  have hturn : p.turn = .none := ho.idle rfl
  have hskips : p.session.skips = 0 := congrArg Pace.skips h.prospects.pace
  have htickets : p.tickets = (p.tasks.flatMap (Task.debts p.session.now)).map Prod.fst := by
    simp only [tickets, hturn, Turn.none, List.flatMap_nil, List.nil_append, List.map_flatMap,
      Task.map_debts]
  refine Classical.byContradiction fun hnone ↦ ?_
  refine hpending ((h.ledger.pending_eq_zero hskips).mpr fun ticket hmem hx ↦ ?_)
  rw [htickets] at hmem
  obtain ⟨d, hd, rfl⟩ := List.mem_map.mp hmem
  exact Bool.eq_false_iff.mpr fun hr ↦ hnone ⟨d, hd, hx, hr⟩

/-- A debt is paid when a timer is due. -/
theorem bound_le_of_debt (h : Planned c voices plan finish root p) (ho : p.Orderly m none 0)
    (hq : p.queue = []) (hundue : Undue bound p) {d : Ticket × Option Nat}
    (hd : d ∈ p.tasks.flatMap (Task.debts p.session.now)) (hcome : Come n d.2) : bound ≤ n := by
  obtain ⟨t, ht, hd⟩ := List.mem_flatMap.mp hd
  rw [h.resting_debts ho hq p.session.now ht] at hd
  obtain ⟨x, hx, hd⟩ := List.mem_flatMap.mp hd
  obtain ⟨ticket, -, rfl⟩ := List.mem_map.mp hd
  obtain ⟨due, hdue, hle⟩ := hcome
  refine Nat.le_trans ?_ hle
  obtain ⟨wait, ending, scopes⟩ := x
  cases wait with
  | tap park kind auto =>
      cases auto with
      | dwelling timer => exact hundue t ht _ hx timer rfl due hdue
      | _ => cases hdue
  | sleep timer skips => exact hundue t ht _ hx timer rfl due hdue
  | _ => cases hdue

/-- The waits of a walk are not over before a timer is due. -/
theorem bound_le_of_waitEnd (h : Planned c voices plan finish root p) (ho : p.Orderly m none 0)
    (hq : p.queue = []) (hundue : Undue bound p) (ht : t ∈ p.tasks) (hscope : t.scope ≠ none)
    (hcome : Come n (waitEnd (outlook p.session.now p.tasks) p.session.now t.pauses)) :
    bound ≤ n := by
  obtain ⟨hne, hsettled⟩ := ho.resting t ht (by simp) (by simp [hq])
  obtain ⟨x, hx⟩ := List.exists_mem_of_ne_nil _ hne
  have hregular := h.prospects.regular t ht
  have hpast := (come_waitEnd.mp hcome).2 x hx
  have htame := hregular.tame x hx
  have hbeside := hregular.beside x hx
  have hset := hsettled x hx
  obtain ⟨wait, ending, scopes⟩ := x
  cases wait with
  | tap park kind auto =>
      cases auto with
      | dwelling timer =>
          obtain ⟨due, hdue, hle⟩ := (come_later.mp hpast).2
          exact Nat.le_trans (hundue t ht _ hx timer rfl due hdue) hle
      | _ => cases kind <;> exact htame.elim
  | sleep timer skips =>
      obtain ⟨due, hdue, hle⟩ := (come_later.mp hpast).2
      exact Nat.le_trans (hundue t ht _ hx timer rfl due hdue) hle
  | drained y tally guarded =>
      obtain ⟨d, hd, hy, hr⟩ := h.exists_debt ho hset.2
      exact h.bound_le_of_debt ho hq hundue hd ((come_outlook.mp hpast).2 d hd hy hr)
  | frame => exact absurd (hbeside trivial) hscope
  | forward => exact absurd (hbeside trivial) hscope
  | cancelled => exact htame.elim

section later

variable (h : Planned c voices plan finish root p) (ho : p.Orderly m none 0) (hq : p.queue = [])
  (hle : p.session.now ≤ time) (hundue : Undue time p)

include h ho hq hle

theorem come_outlook_later {x : Nat} {tally : Tally} (hn : time ≤ n) :
    Come n (outlook time p.tasks x tally) ↔ Come n (outlook p.session.now p.tasks x tally) := by
  have hdebts : p.tasks.flatMap (Task.debts time) = p.tasks.flatMap (Task.debts p.session.now) := by
    rw [List.flatMap_def, List.flatMap_def]
    refine congrArg List.flatten (List.map_congr_left fun t ht ↦ ?_)
    rw [h.resting_debts ho hq _ ht, h.resting_debts ho hq _ ht]
  rw [come_outlook, come_outlook, hdebts]
  exact and_congr_left fun _ ↦ ⟨fun _ ↦ Nat.le_trans hle hn, fun _ ↦ hn⟩

include hundue

/-- What is ahead of a walk is the same at a later time. -/
theorem prospect_later (ht : t ∈ p.tasks) (hscope : t.scope ≠ none) :
    t.prospect c (outlook time p.tasks) time =
      t.prospect c (outlook p.session.now p.tasks) p.session.now := by
  have hpast : ∀ n, time ≤ n → ∀ x : Pause,
      (Come n (x.wait.past (outlook time p.tasks) time) ↔
        Come n (x.wait.past (outlook p.session.now p.tasks) p.session.now)) := by
    intro n hn x
    obtain ⟨wait, ending, scopes⟩ := x
    have hnow := Nat.le_trans hle hn
    cases wait with
    | tap park kind auto => cases auto <;> simp [Wait.past, hn, hnow]
    | drained x tally guarded => exact h.come_outlook_later ho hq hle hn
    | _ => simp [Wait.past, hn, hnow]
  have hend : waitEnd (outlook time p.tasks) time t.pauses =
      waitEnd (outlook p.session.now p.tasks) p.session.now t.pauses := by
    refine ext_come fun n ↦ ⟨fun hcome ↦ ?_, fun hcome ↦ ?_⟩
    · obtain ⟨hn, hall⟩ := come_waitEnd.mp hcome
      exact come_waitEnd.mpr ⟨Nat.le_trans hle hn, fun x hx ↦ (hpast n hn x).mp (hall x hx)⟩
    · have hn := h.bound_le_of_waitEnd ho hq hundue ht hscope hcome
      exact come_waitEnd.mpr ⟨hn, fun x hx ↦ (hpast n hn x).mpr ((come_waitEnd.mp hcome).2 x hx)⟩
  unfold Task.prospect Storyline.prospect
  rw [hend]
  cases hu : waitEnd (outlook p.session.now p.tasks) p.session.now t.pauses with
  | none => rfl
  | some u =>
      have hlong := h.bound_le_of_waitEnd ho hq hundue ht hscope ⟨u, hu, Nat.le_refl u⟩
      have hsame : later (some u) (outlook time p.tasks t.home .actions) =
          later (some u) (outlook p.session.now p.tasks t.home .actions) := by
        refine ext_come fun n ↦ ?_
        rw [come_later, come_later, come_some]
        exact and_congr_right fun hn ↦ h.come_outlook_later ho hq hle (Nat.le_trans hlong hn)
      obtain ⟨hevents, hend⟩ := walk_congr (c := c) (actionsOf t.agenda) hsame
      exact Prod.ext hevents hend

/-- The clock moves on by the plan. -/
theorem later (hsession : q.session = { p.session with now := time }) (hstatus : q.status = p.status)
    (htasks : q.tasks = p.tasks) (hdispatches : q.dispatches = p.dispatches)
    (hturn : q.turn = p.turn) : Planned c voices plan finish root q := by
  refine ⟨h.ledger.later (ho.idle rfl) hsession htasks hturn, ?_⟩
  rw [hsession, hstatus, htasks, hdispatches]
  have hplan := h.prospects
  constructor
  case config => exact hplan.config
  case pace => exact hplan.pace
  case regular => exact fun t ht ↦ { hplan.regular t ht with }
  case apart => exact hplan.apart
  case minds_lt => exact hplan.minds_lt
  case past => exact fun d hd ↦ Nat.le_trans (hplan.past d hd) hle
  case ordered => exact hplan.ordered
  case events =>
    refine .trans (.append_left _ (.of_eq ?_)) hplan.events
    rw [List.flatMap_def, List.flatMap_def]
    refine congrArg List.flatten (List.map_congr_left fun t ht ↦ ?_)
    by_cases hscope : t.scope = none
    · rw [(hplan.regular t ht).events_idle hscope, (hplan.regular t ht).events_idle hscope]
    · exact congrArg Prod.fst (h.prospect_later ho hq hle hundue ht hscope)
  case roles => exact hplan.roles
  case ends =>
    intro t ht hleads
    rw [← hplan.ends t ht hleads]
    exact congrArg Prod.snd (h.prospect_later ho hq hle hundue ht (by simp [hleads.scope]))
  case status => exact hplan.status.imp_right fun ⟨hs, hcome⟩ ↦ ⟨hs, hcome.mono hle⟩

end later

section rest

variable (h : Planned c voices plan finish root p) (ho : p.Orderly m none 0) (hq : p.queue = [])

include ho hq in
theorem undue_succ : Undue (p.session.now + 1) p := fun t ht x hx _ htimer _ hdue ↦
  ((ho.resting t ht (by simp) (by simp [hq])).2 x hx).timer_lt htimer hdue

include h ho hq

/-- While nothing is ready, all that is due by the plan has been taken up. -/
theorem dispatched : (p.dispatches.map (fun d ↦ (d.time, d.action))).Perm
    (plan.filter (fun e ↦ decide (e.1 ≤ p.session.now))) := by
  have hplan := h.prospects
  have hahead : ∀ e ∈ p.tasks.flatMap
      (fun t ↦ (t.prospect c (outlook p.session.now p.tasks) p.session.now).1),
      p.session.now < e.1 := by
    intro e he
    obtain ⟨t, ht, he⟩ := List.mem_flatMap.mp he
    by_cases hscope : t.scope = none
    · rw [(hplan.regular t ht).events_idle hscope] at he
      cases he
    · unfold Task.prospect Storyline.prospect at he
      cases hu : waitEnd (outlook p.session.now p.tasks) p.session.now t.pauses with
      | none => simp [hu] at he
      | some u =>
          rw [hu] at he
          have hlong := h.bound_le_of_waitEnd ho hq (undue_succ ho hq) ht hscope
            ⟨u, hu, Nat.le_refl u⟩
          exact Nat.lt_of_lt_of_le hlong (le_of_mem_walkEvents _ he)
  have hsplit := hplan.events.filter (fun e ↦ decide (e.1 ≤ p.session.now))
  rw [List.filter_append, List.filter_eq_self.mpr, List.filter_eq_nil_iff.mpr,
    List.append_nil] at hsplit
  · exact hsplit
  · intro e he
    simpa using hahead e he
  · intro e he
    obtain ⟨d, hd, rfl⟩ := List.mem_map.mp he
    simpa using hplan.past d hd

/-- While nothing is ready, the story is completed if the plan is over, and plays
otherwise. -/
theorem status_eq : (p.status = .completed ∧ Come p.session.now finish) ∨
    (p.status = .playing ∧ ¬Come p.session.now finish) := by
  have hplan := h.prospects
  refine hplan.status.symm.imp_right fun ⟨hs, t, ht, hleads⟩ ↦ ⟨hs, fun hcome ↦ ?_⟩
  rw [← hplan.ends t ht hleads] at hcome
  unfold Task.prospect Storyline.prospect at hcome
  cases hu : waitEnd (outlook p.session.now p.tasks) p.session.now t.pauses with
  | none => simp [hu] at hcome
  | some u =>
      rw [hu] at hcome
      have hlong := h.bound_le_of_waitEnd ho hq (undue_succ ho hq) ht (by simp [hleads.scope])
        ⟨u, hu, Nat.le_refl u⟩
      exact Nat.not_succ_le_self _ (Nat.le_trans hlong (le_of_come_walkEnd hcome))

end rest

end Planned

end Playback

end Storyline
