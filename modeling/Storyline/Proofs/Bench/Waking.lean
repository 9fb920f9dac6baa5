import Storyline.Proofs.Bench.Covers
import Storyline.Proofs.Playback.Waiters

/-!
# Waking at zero

However many tasks wait for the counts of whatever scopes, and in whatever order
scopes are entered, released and reset and the ready tasks have their turns: none of
them is left waiting for a count that is zero, and none goes on before its count is.
-/

namespace Storyline

namespace Bench

open Playback Machine

/-- What is known of the waits for counts at a moment. -/
structure Wakes (m : Machine) : Prop where
  /-- When nothing is ready, whoever waits for a count waits for one that is not zero. -/
  quiet : m.running = none → m.playback.queue = [] → ∀ t ∈ m.playback.tasks, ∀ x ∈ t.pauses,
    ∀ scope tally guarded, x.wait = .drained scope tally guarded →
      0 < m.playback.session.pending scope tally
  /-- A wait stands until a look finds its count at zero, or its task fails. -/
  stands : ∀ n, Machine.Step Acts m n → ∀ id scope tally guarded,
    m.waiters.count (id, .drained scope tally guarded) ≤
        n.waiters.count (id, .drained scope tally guarded) ∨
      (Polls id scope tally guarded m n ∧ m.waiters.count (id, .drained scope tally guarded) =
        n.waiters.count (id, .drained scope tally guarded) + 1) ∨
      (id, .failed) ∈ n.playback.outcomes
  /-- A look at a wait changes nothing. -/
  looks : ∀ p task x jobs n, m = ⟨p, some task, .look x :: jobs⟩ → Beat m n → p.turn.failed = false →
    ∀ scope tally guarded, x.wait = .drained scope tally guarded →
      n.playback = if p.session.pending scope tally = 0 then p.aside.finish x.ending
        else p.aside.leave x
  /-- An action that waits for the count of its scope waits for what others have left
  there, and changes no count. -/
  performs : ∀ p task job jobs n, m = ⟨p, some task, job :: jobs⟩ → Beat m n → p.isOver = false →
    ∀ scope tally scopes, job.awaits? = some (scope, tally, scopes) →
      n.playback.session.scopes = p.session.scopes ∧
        n.playback.turn.pauses = p.turn.pauses ++
          if p.session.pending scope tally = 0 then []
          else [⟨.drained scope tally true, .nothing, scopes⟩]
  /-- So does a task that begins to wait. -/
  begins : ∀ p task scope tally guarded ending rest n, m = ⟨p, some task, []⟩ → Beat m n →
    p.turn.isFree = true → p.turn.agenda = .drain scope tally guarded ending :: rest →
      n.playback =
        if p.session.pending scope tally = 0 then
          (p.updateTurn fun t ↦ { t with agenda := rest }).finish ending
        else
          (p.updateTurn fun t ↦ { t with agenda := rest }).leave
            ⟨.drained scope tally guarded, ending, [scope]⟩

section

variable {m n : Machine} {p q : Playback} {task : Task} {jobs : List Job} {scope : Nat} {tally : Tally}

theorem stands_of_extends (htasks : p.tasks <+: q.tasks) (w : Nat × Wait) :
    (resting p).waiters.count w ≤ (resting q).waiters.count w := by
  rw [count_resting, count_resting]
  exact (htasks.sublist.flatMap Task.waiters).count_le w

theorem performs_wait {job : Job} {scopes : List Nat} (hs : Machine.Sound ⟨p, some task, job :: jobs⟩)
    (hb : Beat ⟨p, some task, job :: jobs⟩ n) (hgoes : p.isOver = false)
    (hjob : job.awaits? = some (scope, tally, scopes)) :
    n.playback.session.scopes = p.session.scopes ∧
      n.playback.turn.pauses = p.turn.pauses ++
        if p.session.pending scope tally = 0 then []
        else [⟨.drained scope tally true, .nothing, scopes⟩] := by
  have hnumbered : p.session.Numbered := hs.orderly.numbered
  cases hb with
  | look | block | fork => cases hjob
  | skip hover => cases hgoes.symm.trans hover
  | @cue p task cue inner outer step jobs =>
      obtain ⟨hcue, rfl, rfl⟩ :
          (cue = .waitForAll ∧ tally = .actions ∨ cue = .waitForTap ∧ tally = .taps) ∧
            inner = scope ∧ outer = scopes := by
        cases cue <;> simp_all [Job.awaits?]
      have hnoted := note_session (p := p) (.cue cue) inner step
      have hperformed := performCue_waits (p := p.note (.cue cue) inner step) (hnoted ▸ hnumbered)
        ((note_isOver (.cue cue) inner step).trans hgoes) hcue inner outer step
      rwa [hnoted, note_turn] at hperformed
  | close =>
      obtain ⟨rfl, rfl, rfl⟩ := by simpa [Job.awaits?] using hjob
      exact performCue_waits hnumbered hgoes (.inl ⟨rfl, rfl⟩) _ _ none

theorem stands (hu : Underway m) (hs : Machine.Sound m) (hstep : Machine.Step Acts m n) (id scope : Nat)
    (tally : Tally) (guarded : Bool) :
    m.waiters.count (id, .drained scope tally guarded) ≤
        n.waiters.count (id, .drained scope tally guarded) ∨
      (Polls id scope tally guarded m n ∧ m.waiters.count (id, .drained scope tally guarded) =
        n.waiters.count (id, .drained scope tally guarded) + 1) ∨
      (id, .failed) ∈ n.playback.outcomes := by
  cases hstep with
  | beat hb => exact hb.waits hs hu.cast hu.whole hu.running
  | act ha =>
      obtain ⟨new, hnew, -⟩ := (ha.meek hs.orderly).tasks
      exact .inl (stands_of_extends ⟨new, hnew.symm⟩ _)
  | @move p time =>
      obtain ⟨queue, hmoved⟩ := moveTo_eq time p
      rw [hmoved]
      exact .inl (Nat.le_refl _)
  | rest => exact .inl (Nat.le_refl _)

theorem begins_wait {guarded : Bool} {ending : Ending} {rest : List Errand}
    (hb : Beat ⟨p, some task, []⟩ n) (hc : p.session.cancelled = false) (hfree : p.turn.isFree = true)
    (hagenda : p.turn.agenda = .drain scope tally guarded ending :: rest) :
    n.playback =
      if p.session.pending scope tally = 0 then
        (p.updateTurn fun t ↦ { t with agenda := rest }).finish ending
      else
        (p.updateTurn fun t ↦ { t with agenda := rest }).leave
          ⟨.drained scope tally guarded, ending, [scope]⟩ := by
  cases hb with
  | walk _ hfirst => cases hfirst.symm.trans hagenda
  | @begin _ _ errand other _ hfirst =>
      obtain ⟨rfl, rfl⟩ := List.cons.inj (hfirst.symm.trans hagenda)
      exact suspend_drained (p := p.updateTurn fun t ↦ { t with agenda := other }) hc
  | finish hheld =>
      rcases hheld with hheld | hnone
      · cases hheld.symm.trans hfree
      · cases hnone.symm.trans hagenda

end

/-- Whatever is done in a session that goes on, waits for counts end at zero and only there. -/
theorem waits_end_at_zero {config : Config} {host : Host} {voices : VoiceCache} {m : Machine}
    (hr : Machine.Runs Acts (resting (new config host voices).playback) m) : Wakes m := by
  have hacts : ∀ p q, Acts p q → Player.AtRest p → Meek p q := fun _ _ ↦ Acts.meek
  obtain ⟨hu, hs⟩ := hr.underway hacts (sound_resting (running_new config host voices).rest)
    (underway_new config host voices)
  constructor
  case quiet =>
    intro hrest hq t ht x hx scope tally guarded hwait
    have hsettled := hs.orderly.resting t ht (by simp [hrest]) (by simp [hq])
    have hwaits := hsettled.2 x hx
    rw [hwait] at hwaits
    exact Nat.pos_of_ne_zero hwaits.2
  case stands => exact fun n hstep ↦ stands hu hs hstep
  case looks =>
    rintro p task x jobs n rfl hb hf scope tally guarded hwait
    cases hb with
    | look => exact revisit_drained hf hu.running hwait
  case performs =>
    rintro p task job jobs n rfl hb hgoes scope tally scopes hjob
    exact performs_wait hs hb hgoes hjob
  case begins =>
    rintro p task scope tally guarded ending rest n rfl hb hfree hagenda
    exact begins_wait hb hu.running hfree hagenda

/-- Three tasks wait for the actions of a scope, one of them as an action of it. -/
def patients : List (Bool × Request) :=
  [(true, .scope none), (true, .enter 0 false), (true, .drained 0 .actions), (true, .untilDrained 0),
    (true, .perform 0 (.cue .waitForAll) none)]

theorem patients_end_at_zero :
    ∃ b, (new .standard ⟨true, true, none, fun _ _ ↦ .zero⟩ .empty).follow patients = .ok b ∧
      b.playback.queue = [] ∧
      (resting b.playback).waiters = [(0, .drained 0 .actions false), (1, .drained 0 .actions true),
        (2, .drained 0 .actions true)] ∧
      Wakes (resting b.playback) := by
  have hstate :
      ((new .standard ⟨true, true, none, fun _ _ ↦ .zero⟩ .empty).follow patients).toOption.map
        (fun b ↦ (b.playback.queue, (resting b.playback).waiters)) =
          some ([], [(0, .drained 0 .actions false), (1, .drained 0 .actions true),
            (2, .drained 0 .actions true)]) := by decide +kernel
  cases hb : (new .standard ⟨true, true, none, fun _ _ ↦ .zero⟩ .empty).follow patients with
  | error e => simp [hb, Except.toOption] at hstate
  | ok b =>
      simp only [hb, Except.toOption, Option.map_some, Option.some.injEq, Prod.mk.injEq] at hstate
      have hreach : Reaches (fun r ↦ r.isMeek = true) _ b :=
        reaches_follow (by simp [patients, Request.isMeek]) hb
      exact ⟨b, rfl, hstate.1, hstate.2, waits_end_at_zero
        (runs_reaches (fun r hr ↦ .inl hr) (running_new _ _ _) hreach)⟩

end Bench

end Storyline
