import Storyline.Proofs.Player.DocumentOrder
import Storyline.Proofs.Player.Schedule
import Storyline.Proofs.Script.Itinerary

/-!
# A script that plays by itself

If the story of a script plays by itself, its lines and titles come up one after
the other, each when the start lies as far back as the spans before it take.
-/

namespace Storyline

open Timetable

/-! ## Sorted lists of moments -/

section

variable {α : Type} {l l' : List (Nat × α)} {n : Nat}

/-- What of a sorted list has come by a time is its beginning. -/
theorem filter_prefix_of_sorted (h : l.Pairwise (fun x y ↦ x.1 ≤ y.1)) :
    l.filter (fun x ↦ decide (x.1 ≤ n)) <+: l := by
  induction l with
  | nil => exact List.prefix_rfl
  | cons x l ih =>
      obtain ⟨hx, hl⟩ := List.pairwise_cons.mp h
      by_cases hn : x.1 ≤ n
      · rw [List.filter_cons_of_pos (by simpa using hn)]
        exact (List.prefix_cons_inj x).mpr (ih hl)
      · rw [List.filter_cons_of_neg (by simpa using hn), List.filter_eq_nil_iff.mpr]
        · exact List.nil_prefix
        · intro y hy hle
          exact hn (Nat.le_trans (hx y hy) (by simpa using hle))

/-- Sorted lists of the same moments are the same, if they go through the same
things in the same order. -/
theorem eq_of_perm_of_prefix {things : List α} (hperm : l.Perm l')
    (hl : l.Pairwise (fun x y ↦ x.1 ≤ y.1)) (hl' : l'.Pairwise (fun x y ↦ x.1 ≤ y.1))
    (h : l.map Prod.snd <+: things) (h' : l'.map Prod.snd <+: things) : l = l' := by
  have htimes : l.map Prod.fst = l'.map Prod.fst :=
    (hperm.map Prod.fst).eq_of_pairwise (fun a b _ _ hab hba ↦ Nat.le_antisymm hab hba)
      (List.pairwise_map.mpr hl) (List.pairwise_map.mpr hl')
  have hlength : (l.map Prod.snd).length = (l'.map Prod.snd).length := by
    simpa using hperm.length_eq
  have hthings : l.map Prod.snd = l'.map Prod.snd :=
    (List.prefix_of_prefix_length_le h h' (Nat.le_of_eq hlength)).eq_of_length hlength
  rw [List.zip_of_prod htimes hthings]
  exact (List.zip_of_prod rfl rfl).symm

end

/-! ## What the dispatches show -/

/-- A line or a title, as it has been taken up. -/
def Dispatch.shown? (d : Dispatch) : Option (Nat × Cue) := Storyline.shown? (d.time, d.action)

/-- The line or the title that an action is. -/
def Action.tapBlocking? : Action → Option Cue
  | .cue c => if c.isTapBlocking then some c else none
  | _ => none

theorem shown?_eq (x : Nat × Action) : shown? x = x.2.tapBlocking?.map (x.1, ·) := by
  obtain ⟨t, action⟩ := x
  cases action with
  | cue cue =>
      simp only [shown?, Action.tapBlocking?]
      split <;> rfl
  | block | fork => rfl

theorem Dispatch.line?_eq (d : Dispatch) : d.action.line? = d.shown?.bind (·.2.line?) := by
  obtain ⟨t, scope, step, action⟩ := d
  cases action with
  | cue cue => cases cue <;> rfl
  | block | fork => rfl

theorem map_snd_filterMap_shown (l : List (Nat × Action)) :
    (l.filterMap shown?).map Prod.snd = (l.map Prod.snd).filterMap Action.tapBlocking? := by
  rw [List.map_filterMap, List.filterMap_map]
  refine List.filterMap_congr fun x _ ↦ ?_
  rw [shown?_eq, Option.map_map]
  exact Option.map_id'

theorem filter_filterMap_shown (n : Nat) (l : List (Nat × Action)) :
    (l.filter (fun e ↦ decide (e.1 ≤ n))).filterMap shown? =
      (l.filterMap shown?).filter (fun x ↦ decide (x.1 ≤ n)) := by
  induction l with
  | nil => rfl
  | cons e l ih =>
      have hshown := shown?_eq e
      cases hcue : e.2.tapBlocking? with
      | none =>
          rw [hcue] at hshown
          rw [List.filterMap_cons_none hshown, ← ih, List.filter_cons]
          split
          · exact List.filterMap_cons_none hshown
          · rfl
      | some cue =>
          rw [hcue] at hshown
          rw [List.filterMap_cons_some hshown, List.filter_cons, List.filter_cons, ← ih]
          dsimp only
          split
          · exact List.filterMap_cons_some hshown
          · rfl

theorem shows_until (c : Config) (cues : List Cue) (t : Nat) :
    (shows c cues t).map Prod.snd <+: cues.filter Cue.isTapBlocking := by
  induction cues generalizing t with
  | nil => exact List.prefix_rfl
  | cons cue rest ih =>
      rw [shows, List.map_append, List.filter_cons]
      have hrest : ((cueReturn c t cue).elim [] (shows c rest)).map Prod.snd <+:
          rest.filter Cue.isTapBlocking := by
        cases cueReturn c t cue with
        | none => exact List.nil_prefix
        | some u => exact ih u
      split
      · exact (List.prefix_cons_inj cue).mpr hrest
      · exact hrest

namespace Action

variable {actions : List Action}

theorem filterMap_tapBlocking (actions : List Action) :
    actions.filterMap tapBlocking? = (actions.filterMap cue?).filter Cue.isTapBlocking := by
  rw [← List.filterMap_eq_filter, List.filterMap_filterMap]
  refine List.filterMap_congr fun action _ ↦ ?_
  cases action with
  | cue cue =>
      simp only [tapBlocking?, cue?, Option.bind_some, Option.guard]
  | block | fork => rfl

/-- In a script there is nothing to tap on inside of forks, and nothing is deeper. -/
theorem Scripted.partsAt (h : ∀ a ∈ actions, a.Scripted) (n : Nat) (home : Place) :
    ∀ a ∈ partsAt actions (n :: home), a.parts = [] ∧ a.tapBlocking? = none := by
  induction home generalizing n with
  | nil =>
      intro a ha
      simp only [Action.partsAt] at ha
      split at ha
      next action haction =>
        cases h action (List.mem_of_getElem? haction) with
        | cue hc => cases ha
        | @fork cues _ hcues =>
            obtain ⟨cue, hcue, rfl⟩ := List.mem_map.mp ha
            exact ⟨rfl, by simp [tapBlocking?, (hcues cue hcue).2]⟩
      next => cases ha
  | cons m home ih =>
      intro a ha
      rw [Action.partsAt] at ha
      split at ha
      next action haction =>
        rw [(ih m action (List.mem_of_getElem? haction)).1] at ha
        cases ha
      next => cases ha

end Action

namespace Chart

variable {actions : List Action} {dispatches : List Dispatch} {c : Chart}

/-- Without blocks a passage is told at once. -/
theorem Records.told_eq (h : c.Records actions dispatches) (hs : ∀ a ∈ actions, a.Scripted)
    {x : Passage} (hx : x ∈ c.passages) :
    ∃ d, x.told = [d] ∧ d.action = x.action := by
  obtain ⟨d, rest, htold, -⟩ := h.begun x hx
  have hplan : x.plan = [(x.action, x.strand.step x.index)] := by
    have hfound : (Action.partsAt actions x.home)[x.index]? = some x.action := h.found x hx
    have hmem := List.mem_of_getElem? hfound
    unfold Passage.plan
    cases haction : x.action with
    | cue | fork => rfl
    | block parts =>
        rw [haction] at hmem
        cases hhome : x.home with
        | nil =>
            rw [hhome] at hmem
            cases hs _ hmem
        | cons n home =>
            rw [hhome] at hmem
            have hparts : parts = [] := (Action.Scripted.partsAt hs n home _ hmem).1
            rw [hparts]
            rfl
  have hreads := h.reads x hx
  rw [htold, List.map_cons, hplan, List.cons_prefix_cons, List.prefix_nil, List.map_eq_nil_iff]
    at hreads
  exact ⟨d, by rw [htold, hreads.2], congrArg Prod.fst hreads.1⟩

/-- The lines and titles of a script are taken up in their order. -/
theorem Records.shown (h : c.Records actions dispatches) (hs : ∀ a ∈ actions, a.Scripted) :
    (dispatches.filterMap Dispatch.shown?).map Prod.snd <+:
      (actions.filterMap Action.cue?).filter Cue.isTapBlocking := by
  have htold : (dispatches.map Dispatch.action) = c.passages.map Passage.action := by
    rw [h.told, List.map_flatMap, List.map_eq_flatMap]
    refine List.flatMap_congr fun x hx ↦ ?_
    obtain ⟨d, hd, haction⟩ := h.told_eq hs hx
    rw [hd, List.map_singleton, haction]
  have hmain : (c.passages.map Passage.action).filterMap Action.tapBlocking? =
      ((c.along []).map Passage.action).filterMap Action.tapBlocking? := by
    rw [List.filterMap_map, List.filterMap_map, along, List.filterMap_filter]
    refine List.filterMap_congr fun x hx ↦ ?_
    cases hhome : x.home with
    | nil => simp
    | cons n home =>
        have hfound : (Action.partsAt actions x.home)[x.index]? = some x.action := h.found x hx
        rw [hhome] at hfound
        simpa using (Action.Scripted.partsAt hs n home _ (List.mem_of_getElem? hfound)).2
  have hindex : (c.along []).map Passage.index = List.range (c.along []).length := h.inOrder []
  have hfound : ∀ x ∈ c.along [], actions[x.index]? = some x.action := by
    intro x hx
    obtain ⟨hx, hhome⟩ := List.mem_filter.mp hx
    have hfound := h.found x hx
    rwa [Passage.place, of_decide_eq_true hhome] at hfound
  have hcues : (dispatches.filterMap Dispatch.shown?).map Prod.snd =
      (dispatches.map Dispatch.action).filterMap Action.tapBlocking? := by
    have := map_snd_filterMap_shown (dispatches.map fun d ↦ (d.time, d.action))
    rwa [List.filterMap_map, List.map_map] at this
  rw [hcues, htold, hmain, map_action_eq_take hindex hfound, ← Action.filterMap_tapBlocking]
  exact (List.take_prefix _ actions).filterMap _

end Chart

namespace Player

open Playback Machine

variable {c : Config} {host : Host} {voices : VoiceCache} {p : Playback}

/-- The dispatches of a script that plays to its plan. -/
theorem shown_of_planned (script : Script) {start : Nat} {pend finish : Option Nat} {chart : Chart}
    (hplanned : Planned c voices (walkEvents c (script.story (.ofConfig c)) start pend) finish root p)
    (hend : AtRest p) (hq : p.queue = [])
    (hchart : chart.Records (script.story (.ofConfig c)) p.dispatches) :
    p.dispatches.filterMap Dispatch.shown? = ((script.showings c).filterMap (timed start)).filter
      (fun x ↦ decide (x.1 ≤ p.session.now)) := by
  have hscripted := (script.rendered_story (.ofConfig c)).scripted
  obtain ⟨cues, hcues⟩ : ∃ cues, cues = (script.story (.ofConfig c)).filterMap Action.cue? := ⟨_, rfl⟩
  have hshows : (walkEvents c (script.story (.ofConfig c)) start pend).filterMap shown? =
      shows c cues start := hcues ▸ shown_walkEvents hscripted
  have hsorted : (shows c cues start).Pairwise (fun x y ↦ x.1 ≤ y.1) := shows_ordered
  rw [← script.shown_story start pend, hshows]
  refine eq_of_perm_of_prefix ?_ ?_ (hsorted.sublist List.filter_sublist)
    (hcues ▸ hchart.shown hscripted)
    (((filter_prefix_of_sorted hsorted).map _).trans (shows_until c _ start))
  · have hperm := (hplanned.dispatched hend hq).filterMap shown?
    rwa [List.filterMap_map, filter_filterMap_shown, hshows] at hperm
  · refine (hplanned.prospects.ordered).filterMap _ fun d e hde x hx y hy ↦ ?_
    rw [Dispatch.shown?, shown?_eq] at hx hy
    obtain ⟨cue, -, rfl⟩ := Option.map_eq_some_iff.mp hx
    obtain ⟨cue', -, rfl⟩ := Option.map_eq_some_iff.mp hy
    exact hde

/-- A script that plays by itself shows its lines and titles one after the other,
each when the start lies as many milliseconds back as the spans before it take; the
backlog has the lines that have been shown, and the last one is on screen.  What
would be shown beyond the times of the clock is never shown. -/
theorem script_shows_on_time {document : Bytes} {actions : List Action}
    {before after : List (Bool × Command)} (settled : Bool)
    (hload : Story.loadScript (.ofConfig c) document = .ok actions)
    (hrun : host.canRun = true) (hvoices : ∀ action ∈ actions, action.Unvoiced voices)
    (hbefore : ∀ c ∈ before, c.2.prepares = true) (hafter : ∀ c ∈ after, c.2.passes = true)
    (hauto : ((new actions c host voices).follow before).playback.session.autoPlay = true) :
    ∃ script, Script.read document = .ok script ∧
      let ready := (new actions c host voices).follow before
      let start := ready.playback.session.now
      let p := ((ready.step settled .start).1.follow after).playback
      p.queue = [] →
        let shown := ((script.showings c).filterMap (timed start)).filter
          (fun x ↦ decide (x.1 ≤ p.session.now))
        p.dispatches.filterMap Dispatch.shown? = shown ∧
          p.session.backlog = shown.filterMap (·.2.line?) ∧
          p.session.stage.talk = p.session.backlog.getLast? ∧
          ∀ x ∈ script.showings c,
            timed start x = some (start + (x.1.map Duration.millis).sum, x.2) ∨
              timed start x = none ∧ 1000 * 2 ^ 63 ≤ start + (x.1.map Duration.millis).sum := by
  obtain ⟨script, hread, rfl⟩ := Story.read_of_loadScript hload
  refine ⟨script, hread, ?_⟩
  intro ready start p hq shown
  obtain ⟨hplanned, hend⟩ := planned_follow settled hrun hvoices hbefore hafter hauto
  have hreach : Reaches (script.story (.ofConfig c)) (fun _ ↦ True)
      (new (script.story (.ofConfig c)) c host voices).playback p := by
    have hnew := new_atRest (script.story (.ofConfig c)) c host voices
    have hready : Reaches (script.story (.ofConfig c)) (fun _ ↦ True) _ ready.playback :=
      reaches_follow (fun _ _ ↦ trivial) hnew
    have hstart : Reaches ready.actions (fun _ ↦ True) _ (ready.step settled .start).1.playback :=
      reaches_step settled trivial (hready.atRest hnew)
    rw [follow_actions] at hstart
    have hafter : Reaches (ready.step settled .start).1.actions (fun _ ↦ True) _ p :=
      reaches_follow (fun _ _ ↦ trivial) ((hready.trans hstart).atRest hnew)
    rw [step_actions, follow_actions] at hafter
    exact (hready.trans hstart).trans hafter
  obtain ⟨⟨-, -, chart, hchart⟩, -⟩ := followed_runs (fun _ _ h ↦ h) (runs_reaches hreach)
    (sound_resting (new_atRest _ c host voices)) (followed_new _ c host voices)
  have hshown := shown_of_planned script hplanned hend hq hchart.records
  have hbacklog : p.session.backlog = p.dispatches.filterMap (·.action.line?) :=
    congrArg Recital.backlog hchart.recital
  have htalk : p.session.stage.talk = (p.dispatches.filterMap (·.action.line?)).getLast? :=
    congrArg Recital.talk hchart.recital
  refine ⟨hshown, ?_, htalk.trans (congrArg _ hbacklog.symm), fun x _ ↦ ?_⟩
  · have hlines : p.dispatches.filterMap (·.action.line?) =
        (p.dispatches.filterMap Dispatch.shown?).filterMap (·.2.line?) := by
      rw [List.filterMap_filterMap]
      exact List.filterMap_congr fun d _ ↦ d.line?_eq
    rw [hbacklog, hlines, hshown]
  · unfold timed
    rcases Duration.arrival_cases x.1 start with h | ⟨h, hlong⟩
    · exact .inl (by rw [h]; rfl)
    · exact .inr ⟨by rw [h]; rfl, hlong⟩

theorem matinee_on_time :
    let p := ((((new (Story.matineeScript.story (.ofConfig .standard)) .standard plainHost
      .empty).follow [(true, .advance 40), (true, .autoPlay true)]).step true .start).1.follow
        [(true, .advance 9000)]).playback
    p.dispatches.filterMap Dispatch.shown? =
        [(1040, .talk ⟨"Hi", [], ["Ann"], none⟩), (7040, .telop "Night")] ∧
      p.session.backlog = [⟨"Hi", [], ["Ann"], none⟩] := by
  intro p
  have hq : p.queue = [] := by decide +kernel
  have hauto : ((new (Story.matineeScript.story (.ofConfig .standard)) .standard plainHost
      .empty).follow [(true, .advance 40), (true, .autoPlay true)]).playback.session.autoPlay =
        true := by decide +kernel
  have hbefore : ∀ c ∈ [(true, Command.advance 40), (true, .autoPlay true)],
      c.2.prepares = true := by decide
  have hafter : ∀ c ∈ [(true, Command.advance 9000)], c.2.passes = true := by decide
  have hload := Story.loadScript_matinee (.ofConfig .standard)
  obtain ⟨script, hread, hshows⟩ := script_shows_on_time true hload rfl (fun _ _ _ _ ↦ rfl)
    hbefore hafter hauto
  obtain rfl : Story.matineeScript = script := Except.ok.inj (Story.read_matinee.symm.trans hread)
  obtain ⟨hshown, hbacklog, -⟩ := hshows hq
  constructor
  · rw [hshown]
    decide +kernel
  · rw [hbacklog]
    decide +kernel

end Player

end Storyline
