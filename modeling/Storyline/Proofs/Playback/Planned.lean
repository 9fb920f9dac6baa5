import Storyline.Proofs.Playback.Errands
import Storyline.Proofs.Playback.Tickers

/-!
# Playing to a plan

Between turns, what has been taken up and what is ahead of the tasks make up the
plan of the story.  Turns keep to the plan, and so does the clock, which moves
only when nothing is ready and no wait is over.
-/

namespace Storyline

open Timetable

namespace Playback

/-- A playback that goes by a plan, between turns. -/
structure Planned (c : Config) (voices : VoiceCache) (plan : List (Nat × Action))
    (finish : Option Nat) (root : Nat) (p : Playback) : Prop where
  ledger : p.Ledger .timeline [root] [] []
  prospects : Prospects c voices plan finish root p.session p.status p.dispatches p.tasks

section tasks

variable {task : Task} {l others : List Task}

theorem ne_of_perm (h : l.Perm (task :: others)) (hnodup : (l.map Task.id).Nodup) :
    ∀ t ∈ others, t.id ≠ task.id := by
  have hids := (h.map Task.id).nodup_iff.mp hnodup
  rw [List.map_cons, List.nodup_cons] at hids
  exact fun t ht he ↦ hids.1 (he ▸ List.mem_map_of_mem ht)

theorem map_perm {g : Task → Task} (h : l.Perm (task :: others)) (hnodup : (l.map Task.id).Nodup) :
    (l.map (fun t ↦ if t.id == task.id then g t else t)).Perm (g task :: others) := by
  have hothers : others.map (fun t ↦ if t.id == task.id then g t else t) = others := by
    refine (List.map_congr_left fun t ht ↦ ?_).trans (List.map_id others)
    simp [ne_of_perm h hnodup t ht]
  have hmap := h.map (fun t ↦ if t.id == task.id then g t else t)
  rw [List.map_cons, hothers] at hmap
  simpa using hmap

theorem filter_perm (h : l.Perm (task :: others)) (hnodup : (l.map Task.id).Nodup) :
    (l.filter (fun t ↦ t.id != task.id)).Perm others := by
  have hothers : others.filter (fun t ↦ t.id != task.id) = others :=
    List.filter_eq_self.mpr fun t ht ↦ by simpa using ne_of_perm h hnodup t ht
  have hfilter := h.filter (fun t ↦ t.id != task.id)
  rw [List.filter_cons_of_neg (by simp), hothers] at hfilter
  exact hfilter

end tasks

section turn

variable {c : Config} {voices : VoiceCache} {plan : List (Nat × Action)} {finish : Option Nat}
  {root : Nat} {p w : Playback} {task : Task} {others : List Task}

/-- The end of a turn keeps to the plan: the task is put back as it is, or has
nothing ahead of it. -/
theorem endTurn_prospects
    (h : Prospects c voices plan finish root w.session w.status w.dispatches
      (w.current task :: others))
    (htasks : w.tasks.Perm ({ task with agenda := [], pauses := [] } :: others))
    (hnodup : (w.tasks.map Task.id).Nodup)
    (hparks : w.turn.failed = true → w.turn.pauses.filterMap Pause.park? = [])
    (hover : w.turn.failed = true ∨ w.turn.pauses = [] →
      (w.current task).debts w.session.now = [] ∧ actionsOf w.turn.agenda = [] ∧
        ¬(w.current task).Leads root) :
    Prospects c voices plan finish root (w.endTurn task).session (w.endTurn task).status
      (w.endTurn task).dispatches (w.endTurn task).tasks := by
  have hdrop : w.turn.failed = true ∨ w.turn.pauses = [] →
      Prospects c voices plan finish root w.session w.status w.dispatches
        (w.tasks.filter (fun t ↦ t.id != task.id)) := by
    intro hended
    obtain ⟨hdebts, hidle, hleads⟩ := hover hended
    exact (h.drop hdebts hidle hleads).perm (filter_perm htasks hnodup).symm
  unfold Playback.endTurn
  dsimp only
  split
  next hf =>
    unfold abandonAll
    rw [hparks hf]
    exact hdrop (.inl hf)
  next hf =>
    split
    next hnil => exact hdrop (.inr (by simpa using hnil))
    next hnil =>
      have hback : Prospects c voices plan finish root w.session w.status w.dispatches
          (w.tasks.map (fun t ↦ if t.id == task.id then
            { t with agenda := w.turn.agenda, pauses := w.turn.pauses } else t)) :=
        h.perm (map_perm (g := fun t ↦ { t with agenda := w.turn.agenda, pauses := w.turn.pauses })
          htasks hnodup).symm
      split
      · unfold wake
        split <;> exact hback
      · exact hback

end turn

namespace Planned

variable {c : Config} {voices : VoiceCache} {plan : List (Nat × Action)} {finish : Option Nat}
  {root : Nat} {m : Moment} {p : Playback} {task : Task} {others : List Task} {rest : List Nat}

/-- At the beginning of a turn the table holds an empty entry for the task. -/
theorem begun_perm (hids : (p.tasks.map Task.id).Nodup) (h : p.tasks.Perm (task :: others)) :
    (begun task { p with queue := rest }).tasks.Perm
      ({ task with agenda := [], pauses := [] } :: others) :=
  map_perm (g := fun t ↦ { t with agenda := [], pauses := [] }) h hids

/-- The turn of a task of the timeline. -/
theorem timelineTurn (h : Planned c voices plan finish root p) (ho : p.Orderly m none 0)
    (hq : p.queue = task.id :: rest) (htask : task ∈ p.tasks)
    (hbegun : (begun task { p with queue := rest }).Ledger .timeline [root] [] [])
    (hperm : p.tasks.Perm (task :: others)) :
    Planned c voices plan finish root (takeTurn task { p with queue := rest }) := by
  have hmid : Midturn c voices plan finish root [root] task others
      (begun task { p with queue := rest }) :=
    ⟨hbegun, rfl, begun_perm ho.nodup_ids hperm, h.prospects.perm hperm⟩
  have hawaits : (begun task { p with queue := rest }).Awaits task.pauses :=
    .inr ⟨[], (List.append_nil _).symm⟩
  have hagenda := revisitAll_agenda (p := begun task { p with queue := rest }) task.pauses
  obtain ⟨others', hworked⟩ := (hmid.revisits hawaits).proceeds hagenda
  have hworked : Midturn c voices plan finish root [root] task others'
      (worked task { p with queue := rest }) := hworked
  have howorked : (worked task { p with queue := rest }).Orderly m (some task.id) 0 :=
    ((ho.beginTurn hq htask).revisitAll task.pauses (ho.punctual task htask)).proceed task.agenda
  rw [takeTurn_eq]
  refine ⟨?_, endTurn_prospects hworked.prospects hworked.tasks howorked.nodup_ids ?_ ?_⟩
  · exact h.ledger.takeTurn_of_begun ho hq htask hbegun fun hf ↦ by simp [hworked.sound] at hf
  · exact fun hf ↦ by simp [hworked.sound] at hf
  · intro hended
    have hnil := hended.resolve_left (by simp [hworked.sound])
    have hdone : (worked task { p with queue := rest }).turn.agenda = [] :=
      proceed_agenda hagenda (by
        have hfree : (worked task { p with queue := rest }).turn.isFree = true := by
          simp [Turn.isFree, hnil, hworked.sound]
        exact hfree)
    refine ⟨by simp [Task.debts, current, hnil, hdone], by rw [hdone]; rfl, ?_⟩
    rintro (⟨steps, -, hagenda', -, -⟩ | ⟨scopes, -, -, hpauses'⟩)
    · have hagenda' : (worked task { p with queue := rest }).turn.agenda = steps ++ [closing root] :=
        hagenda'
      rw [hdone] at hagenda'
      simp at hagenda'
    · have hpauses' : (worked task { p with queue := rest }).turn.pauses = _ := hpauses'
      rw [hnil] at hpauses'
      cases hpauses'

/-- A ticker with a scope has nothing to do. -/
theorem idle_of_scope {s : Session} (hregular : task.Regular voices s)
    (hpauses : ∀ x ∈ task.pauses, x.Fits .ticker) (hagenda : ∀ e ∈ task.agenda, e.Fits .ticker s)
    (hscope : task.scope ≠ none) : task.pauses = [] ∧ task.agenda = [] := by
  constructor
  · refine List.eq_nil_iff_forall_not_mem.mpr fun x hx ↦ hscope ?_
    exact hregular.beside x hx (hpauses x hx).ticks.1
  · refine List.eq_nil_iff_forall_not_mem.mpr fun e he ↦ hscope ?_
    have hat := (hregular.agenda e he).2
    have hfit := hagenda e he
    cases e <;> first | exact hat | exact hfit.elim

/-- A ticker owes nothing and takes up nothing. -/
theorem ticker_idle (root now : Nat) {s : Session} (hpauses : ∀ x ∈ task.pauses, x.Fits .ticker)
    (hagenda : ∀ e ∈ task.agenda, e.Fits .ticker s) :
    task.debts now = [] ∧ task.pauses.flatMap Pause.minds = [] ∧ actionsOf task.agenda = [] ∧
      ¬task.Leads root := by
  refine ⟨?_, ?_, ?_, ?_⟩
  · rw [Task.debts, List.append_eq_nil_iff]
    constructor
    · refine List.flatMap_eq_nil_iff.mpr fun x hx ↦ ?_
      rw [Pause.debts, (hpauses x hx).ticker.1]
      rfl
    · refine List.flatMap_eq_nil_iff.mpr fun e he ↦ ?_
      have hfit := hagenda e he
      cases e <;> first | rfl | exact hfit.elim
  · refine List.flatMap_eq_nil_iff.mpr fun x hx ↦ ?_
    have hticks := (hpauses x hx).ticks.1
    obtain ⟨wait, ending, scopes⟩ := x
    cases wait <;> first | rfl | exact hticks.elim
  · refine List.filterMap_eq_nil_iff.mpr fun e he ↦ ?_
    have hfit := hagenda e he
    cases e <;> first | rfl | exact hfit.elim
  · rintro (⟨steps, -, hlast, -, -⟩ | ⟨scopes, -, -, hlast⟩)
    · exact hagenda (closing root) (by simp [hlast])
    · exact hpauses _ (by rw [hlast]; exact List.mem_singleton.mpr rfl)

/-- The turn of a ticker. -/
theorem tickerTurn (h : Planned c voices plan finish root p) (ho : p.Orderly m none 0)
    (hq : p.queue = task.id :: rest) (htask : task ∈ p.tasks)
    (hbegun : (begun task { p with queue := rest }).Ledger .ticker [root] [] [])
    (hperm : p.tasks.Perm (task :: others)) :
    Planned c voices plan finish root (takeTurn task { p with queue := rest }) := by
  obtain ⟨w, hw⟩ : ∃ w, w = worked task { p with queue := rest } := ⟨_, rfl⟩
  have hplan := h.prospects.perm hperm
  have hregular := hplan.regular task List.mem_cons_self
  have hpauses : ∀ x ∈ task.pauses, x.Fits .ticker := hbegun.pauses
  have hagenda : ∀ e ∈ task.agenda, e.Fits .ticker p.session := hbegun.agenda
  have hforward : p.session.fastForward = false := congrArg Pace.fastForward h.prospects.pace
  have hwaits : ∀ x ∈ task.pauses, x.wait.Ticks ∧ x.wait.Tame ∧ x.ending = .nothing :=
    fun x hx ↦ ⟨(hpauses x hx).ticks.1, hregular.tame x hx, (hpauses x hx).ticks.2⟩
  have hstart : (begun task { p with queue := rest }).Aside (begun task { p with queue := rest }) :=
    ⟨rfl, .refl _, Nat.le_refl _, rfl, rfl, rfl, hwaits⟩
  have haside : (begun task { p with queue := rest }).Aside w := by
    rw [hw]
    exact (hstart.revisitAll hforward hwaits).proceed hforward hagenda
  have hworked : w.Ledger .ticker [root] [] [] := by
    rw [hw]
    exact (hbegun.revisitAll (.inr ⟨[], (List.append_nil _).symm⟩)).proceed (revisitAll_agenda task.pauses)
  have howorked : w.Orderly m (some task.id) 0 := by
    rw [hw]
    exact ((ho.beginTurn hq htask).revisitAll task.pauses (ho.punctual task htask)).proceed task.agenda
  have hsubset : w.turn.agenda ⊆ task.agenda := hw ▸ worked_agenda
  have hidle : (w.current task).debts w.session.now = [] ∧
      (w.current task).pauses.flatMap Pause.minds = [] ∧ actionsOf (w.current task).agenda = [] ∧
        ¬(w.current task).Leads root :=
    ticker_idle root w.session.now hworked.pauses hworked.agenda
  have hbefore := ticker_idle root p.session.now hpauses hagenda
  have hsame : task.scope ≠ none → w.current task = task := by
    intro hscope
    obtain ⟨hnone, hnone'⟩ := idle_of_scope hregular hpauses hagenda hscope
    have hempty : ({ task with agenda := [], pauses := [] } : Task) = task := by
      rw [← hnone, ← hnone']
    have hleft : w.current task = { task with agenda := [], pauses := [] } := by
      rw [hw]
      simp [current, worked, hnone, hnone', proceed, begun, updateTurn, Turn.ofTask]
    exact hleft.trans hempty
  have hplanned : Prospects c voices plan finish root w.session w.status w.dispatches
      (w.current task :: others) := by
    have hmoment : w.session.moment = p.session.moment := haside.moment
    have htaps : w.session.taps = p.session.taps := haside.level.taps
    have hnow : w.session.now = p.session.now := congrArg Moment.now hmoment
    have hdispatches : w.dispatches = p.dispatches := haside.dispatches
    rw [hdispatches]
    refine hplan.revise hmoment haside.level.pace haside.serial ?_ rfl ?_ ?_ ?_ ?_ ?_ ?_
    · intro t ht x hx id hid
      rw [Session.isParked, htaps]
      exact (hplan.regular t (List.mem_cons_of_mem _ ht)).waiting x hx id hid
    · refine ⟨fun x hx ↦ (haside.pauses x hx).2.1, fun x hx _ ↦ ?_, fun x hx id hid ↦ ?_,
        fun e he ↦ hregular.agenda e (hsubset he)⟩
      · by_cases hscope : task.scope = none
        · exact hscope
        · rw [hsame hscope, (idle_of_scope hregular hpauses hagenda hscope).1] at hx
          cases hx
      · rw [(hworked.pauses x hx).ticker.2] at hid
        cases hid
    · intro x hx
      rw [Task.minds, hidle.2.1, List.append_nil] at hx
      exact List.mem_append_left _ hx
    · intro n _ x tally
      rw [hbefore.1, ← hnow, hidle.1]
    · exact fun hscope ↦ by rw [hsame hscope]
    · refine fun hf ↦ ⟨⟨fun e he ↦ hf.agenda e (hsubset he), fun x hx ↦ ?_⟩, haside.status⟩
      rw [(haside.pauses x hx).2.2]
      simp
    · exact fun hl ↦ absurd hl hbefore.2.2.2
  rw [takeTurn_eq, ← hw]
  refine ⟨?_, endTurn_prospects hplanned ?_ howorked.nodup_ids ?_ fun _ ↦ ⟨hidle.1, hidle.2.2⟩⟩
  · rw [hw, ← takeTurn_eq]
    exact h.ledger.takeTurn_of_begun ho hq htask hbegun fun _ ↦ rfl
  · rw [haside.tasks]
    exact begun_perm ho.nodup_ids hperm
  · refine fun _ ↦ List.filterMap_eq_nil_iff.mpr fun x hx ↦ ?_
    simpa [Pause.parks] using (hworked.pauses x hx).ticker.2

/-- Every turn keeps to the plan. -/
theorem runTask {id : Nat} (h : Planned c voices plan finish root p) (ho : p.Orderly m none 0)
    (hq : p.queue = id :: rest) :
    Planned c voices plan finish root (Playback.runTask id { p with queue := rest }) := by
  unfold Playback.runTask
  split
  next hnone =>
    obtain ⟨t, ht, he⟩ := List.mem_map.mp (ho.queued id (by simp [hq])).1
    have := List.find?_eq_none.mp hnone t ht
    simp [he] at this
  next task hsome =>
    obtain ⟨htask, rfl⟩ := Orderly.task?_eq (p := { p with queue := rest }) hsome
    have htask : task ∈ p.tasks := htask
    rw [if_neg (by simp [h.ledger.whole task htask])]
    obtain ⟨l, r, hlr⟩ := List.append_of_mem htask
    have hperm : p.tasks.Perm (task :: (l ++ r)) := hlr ▸ List.perm_middle
    obtain ⟨kind, hbegun⟩ := h.ledger.beginTurn rest (ho.idle rfl) ho.nodup_ids htask
    cases kind with
    | timeline => exact h.timelineTurn ho hq htask hbegun hperm
    | ticker => exact h.tickerTurn ho hq htask hbegun hperm

end Planned

end Playback

end Storyline
