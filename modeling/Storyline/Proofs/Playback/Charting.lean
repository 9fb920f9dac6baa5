import Storyline.Proofs.Playback.Covers
import Storyline.Proofs.Playback.Passages
import Storyline.Proofs.Playback.Serving

/-!
# Charting a run

While a story is played, a chart tells where every task stands that plays a
timeline, and which part of an item is being performed.  A timeline takes up an
item only when nothing of the item before is left to be done; an item that has
been taken up in part is the last of its timeline, and its task is performing it
or has failed.
-/

namespace Storyline

/-- What is still taken up by a job. -/
def Job.plan : Job → List (Action × Option Nat)
  | .perform action _ _ step => action.scan step
  | _ => []

theorem plan_blockJobs (parts : List Action) (scope : Nat) (scopes : List Nat) :
    (blockJobs parts scope scopes).flatMap Job.plan = Action.scanAll parts := by
  induction parts with
  | nil => rfl
  | cons part rest ih =>
      have hcons : blockJobs (part :: rest) scope scopes =
          .perform part scope scopes none :: blockJobs rest scope scopes := rfl
      rw [hcons, List.flatMap_cons, ih]
      rfl

/-- The agenda of a timeline from an item on; the main timeline completes the story. -/
def Strand.agenda (actions : List Action) (s : Strand) (n : Nat) : List Errand :=
  (Playback.walk s.scope s.home.isEmpty (Action.partsAt actions s.home)).drop n ++
    if s.home.isEmpty then [.drain Player.root .actions true .completed] else []

namespace Chart

/-- The main timeline has taken up everything. -/
structure Complete (actions : List Action) (c : Chart) : Prop where
  count : c.count [] = actions.length
  whole : ∀ x ∈ c.along [], x.Whole

/-- Where a task stands: it serves, or it plays a timeline and has the rest of it
before it, or it waits for the end of the story. -/
inductive Stands (actions : List Action) (c : Chart) (id : Nat) (agenda : List Errand)
    (pauses : List Pause) : Prop
  | idle (hid : ∀ s ∈ c.strands, s.task ≠ id) (h : Playback.Idle agenda pauses)
  | walks {s : Strand} (hs : s ∈ c.strands) (hid : s.task = id)
    (hagenda : agenda = s.agenda actions (c.count s.home))
    (hwhole : ∀ x ∈ c.along s.home, x.Whole) (hpauses : ∀ q ∈ pauses, q.ending ≠ .completed)
  | concludes {s : Strand} (hs : s ∈ c.strands) (hid : s.task = id) (hroot : s.home = [])
    (hagenda : agenda = []) (h : c.Complete actions)

/-- The step, the line and the lines that the dispatches have told. -/
def recital (dispatches : List Dispatch) : Recital :=
  ⟨(dispatches.filterMap Dispatch.step).getLast?,
    (dispatches.filterMap (·.action.line?)).getLast?, dispatches.filterMap (·.action.line?)⟩

theorem recital_append (dispatches : List Dispatch) (d : Dispatch) :
    recital (dispatches ++ [d]) = (recital dispatches).tell d.step d.action.line? := by
  cases hstep : d.step <;> cases hline : d.action.line? <;>
    simp [recital, Recital.tell, List.filterMap_append, hstep, hline]

end Chart

namespace Machine

open Playback
open Chart (Stands Complete)

/-- What the running task is doing: it looks at its pauses, or it is about to
take up the next item of its timeline with nothing else left to do, or it goes
on with the item taken up last. -/
inductive Phase (actions : List Action) (c : Chart) (p : Playback) (id : Nat) (jobs : List Job) :
    Prop
  | serves (hjobs : ∀ job ∈ jobs, job.isLook = true)
    (h : Stands actions c id p.turn.agenda p.turn.pauses)
  | begins {s : Strand} {action : Action} (hs : s ∈ c.strands) (hid : s.task = id)
    (haction : (Action.partsAt actions s.home)[c.count s.home]? = some action)
    (hjobs : jobs = [.perform action s.scope [s.scope] (s.step (c.count s.home))])
    (hagenda : p.turn.agenda = s.agenda actions (c.count s.home + 1))
    (hwhole : ∀ x ∈ c.along s.home, x.Whole) (hpauses : p.turn.pauses = [])
    (hfailed : p.turn.failed = false)
  | performs {before : List Passage} {x : Passage} (hlast : c.passages = before ++ [x])
    (hid : x.strand.task = id) (hjobs : ∀ job ∈ jobs, job.isLook = false)
    (hagenda : p.turn.agenda = x.strand.agenda actions (c.count x.home))
    (hwhole : ∀ y ∈ before, y.home = x.home → y.Whole)
    (hplan : (p.turn.failed = true ∧ p.session.OutOfTime) ∨
      x.plan = x.told.map Dispatch.item ++ jobs.flatMap Job.plan)
    (hpauses : ∀ q ∈ p.turn.pauses, q.ending ≠ .completed)

/-- The task of a passage has failed, for want of time. -/
def Abandoned (x : Passage) (m : Machine) : Prop :=
  (x.strand.task, .failed) ∈ m.playback.outcomes ∧ m.playback.session.OutOfTime

/-- The chart of a run. -/
structure Charted (actions : List Action) (c : Chart) (m : Machine) : Prop where
  records : c.Records actions m.playback.dispatches
  tasks : ∀ t ∈ m.playback.tasks, m.running.map Task.id ≠ some t.id →
    Stands actions c t.id t.agenda t.pauses
  phase : ∀ task, m.running = some task → Phase actions c m.playback task.id m.jobs
  fates : ∀ x ∈ c.passages, x.Whole ∨ x.index + 1 = c.count x.home ∧
    ((∃ task, m.running = some task ∧ task.id = x.strand.task) ∨ Abandoned x m)
  numbered : ∀ s ∈ c.strands, s.task < m.playback.spawned ∧ s.scope < m.playback.session.serial
  completed : m.playback.status = .completed → c.Complete actions
  unstarted : m.playback.status = .notStarted → c.strands = []
  recital : m.playback.session.recital = Chart.recital m.playback.dispatches
  rooted : Player.root < m.playback.session.serial

/-- The session owns all tasks, and when it has ended all of them are aborted. -/
structure Live (m : Machine) : Prop where
  owned : ∀ t ∈ m.playback.tasks, t.owned = true
  ended : m.playback.session.cancelled = true →
    m.running = none ∧ ∀ t ∈ m.playback.tasks, t.aborted = true

section

variable {actions : List Action} {c c' : Chart} {p q : Playback} {m n : Machine} {task : Task}
  {jobs jobs' : List Job} {id : Nat} {agenda : List Errand} {pauses : List Pause} {s : Strand}

/-! ## The agenda of a timeline -/

theorem agenda_of_some {n : Nat} {action : Action}
    (h : (Action.partsAt actions s.home)[n]? = some action) :
    s.agenda actions n = .perform action s.scope (s.step n) :: s.agenda actions (n + 1) := by
  obtain ⟨hlt, hget⟩ := List.getElem?_eq_some_iff.mp h
  have hwalk : n < (Playback.walk s.scope s.home.isEmpty (Action.partsAt actions s.home)).length := by
    simpa [Playback.walk] using hlt
  unfold Strand.agenda
  rw [List.drop_eq_getElem_cons hwalk, List.cons_append]
  congr 1
  simp [Playback.walk, hget, Strand.step]

theorem agenda_of_none {n : Nat} (h : (Action.partsAt actions s.home)[n]? = none) :
    s.agenda actions n =
      if s.home.isEmpty then [.drain Player.root .actions true .completed] else [] := by
  have hle : (Playback.walk s.scope s.home.isEmpty (Action.partsAt actions s.home)).length ≤ n := by
    simpa [Playback.walk] using List.getElem?_eq_none_iff.mp h
  rw [Strand.agenda, List.drop_eq_nil_of_le hle, List.nil_append]

theorem count_le (h : c.Records actions p.dispatches) (home : Place) :
    c.count home ≤ (Action.partsAt actions home).length := by
  by_contra hlt
  have hin : (Action.partsAt actions home).length ∈ (c.along home).map Passage.index := by
    rw [h.inOrder home]
    exact List.mem_range.mpr (Nat.lt_of_not_le hlt)
  obtain ⟨x, hx, hindex⟩ := List.mem_map.mp hin
  obtain ⟨hmem, hhome⟩ := Chart.mem_along.mp hx
  have hfound := h.found x hmem
  have hat : (Action.partsAt actions x.home)[x.index]? = some x.action := hfound
  rw [hhome, hindex, List.getElem?_eq_none (Nat.le_refl _)] at hat
  cases hat

/-- A task that stands somewhere begins an errand that serves, or takes up the
next item of its timeline, or waits for the end of the story. -/
theorem stands_cases {errand : Errand} {rest : List Errand} (hr : c.Records actions p.dispatches)
    (h : Stands actions c id (errand :: rest) pauses) :
    (Errand.Serves errand ∧ Stands actions c id rest pauses) ∨
    (∃ s ∈ c.strands, ∃ action, s.task = id ∧
      (Action.partsAt actions s.home)[c.count s.home]? = some action ∧
      errand = .perform action s.scope (s.step (c.count s.home)) ∧
      rest = s.agenda actions (c.count s.home + 1) ∧ ∀ x ∈ c.along s.home, x.Whole) ∨
    (errand = .drain Player.root .actions true .completed ∧ c.Complete actions ∧
      ∀ pauses, Stands actions c id rest pauses) := by
  cases h with
  | idle hid h =>
      exact .inl ⟨h.agenda errand (by simp),
        .idle hid ⟨fun e he ↦ h.agenda e (List.mem_cons_of_mem _ he), h.pauses⟩⟩
  | @walks s hs hid hagenda hwhole hpauses =>
      cases hnext : (Action.partsAt actions s.home)[c.count s.home]? with
      | some action =>
          rw [agenda_of_some hnext] at hagenda
          obtain ⟨rfl, rfl⟩ := List.cons.inj hagenda
          exact .inr (.inl ⟨s, hs, action, hid, hnext, rfl, rfl, hwhole⟩)
      | none =>
          rw [agenda_of_none hnext] at hagenda
          split at hagenda
          next hroot =>
            have hroot : s.home = [] := List.isEmpty_iff.mp hroot
            obtain ⟨rfl, rfl⟩ := List.cons.inj hagenda
            rw [hroot] at hnext hwhole
            have hcomplete : c.Complete actions :=
              ⟨Nat.le_antisymm (count_le hr []) (List.getElem?_eq_none_iff.mp hnext), hwhole⟩
            exact .inr (.inr ⟨rfl, hcomplete, fun _ ↦ .concludes hs hid hroot rfl hcomplete⟩)
          next => cases hagenda
  | concludes _ _ _ hagenda => cases hagenda

/-- A task stands where it stood if no new pause ends the story. -/
theorem stands_keep {pauses' : List Pause} (h : Stands actions c id agenda pauses)
    (hp : ∀ x ∈ pauses', x ∈ pauses ∨ x.ending ≠ .completed) : Stands actions c id agenda pauses' := by
  cases h with
  | idle hid h => exact .idle hid ⟨h.agenda, fun x hx ↦ (hp x hx).elim (h.pauses x) fun h ↦ h⟩
  | walks hs hid hagenda hwhole hpauses =>
      exact .walks hs hid hagenda hwhole fun x hx ↦ (hp x hx).elim (hpauses x) fun h ↦ h
  | concludes hs hid hroot hagenda h => exact .concludes hs hid hroot hagenda h

/-- A task that has nothing left to do of the item taken up last stands somewhere. -/
theorem Phase.stands (hr : c.Records actions p.dispatches) (h : Phase actions c p id [])
    (hf : p.turn.failed = false) : Stands actions c id p.turn.agenda p.turn.pauses := by
  cases h with
  | serves _ h => exact h
  | begins _ _ _ hjobs => cases hjobs
  | @performs before x hlast hid _ hagenda hwhole hplan hpauses =>
      have hx := hr.strand x (Chart.Records.last_mem hlast)
      refine .walks hx hid hagenda (fun y hy ↦ ?_) hpauses
      obtain ⟨hmem, hhome⟩ := Chart.mem_along.mp hy
      rw [hlast] at hmem
      rcases List.mem_append.mp hmem with hmem | hmem
      · exact hwhole y hmem hhome
      · rw [List.mem_singleton.mp hmem]
        have hplan := hplan.resolve_left (by simp [hf])
        rw [List.flatMap_nil, List.append_nil] at hplan
        exact hplan.symm

/-! ## Serving -/

/-- A part of a turn that takes nothing up leaves the chart as it is. -/
theorem Charted.serve (closing : Bool) (h : Charted actions c ⟨p, some task, jobs⟩)
    (hserves : Serves closing p q) (hext : Extends true p q)
    (hserial : p.session.serial ≤ q.session.serial)
    (hrecital : q.session.recital = p.session.recital)
    (hclosing : closing = true → c.Complete actions) (hphase : Phase actions c q task.id jobs') :
    Charted actions c ⟨q, some task, jobs'⟩ where
  records := hserves.dispatches ▸ h.records
  tasks := by
    obtain ⟨new, hnew, hidle⟩ := hserves.tasks
    intro t ht hne
    have ht : t ∈ q.tasks := ht
    rw [hnew] at ht
    rcases List.mem_append.mp ht with ht | ht
    · exact h.tasks t ht hne
    · obtain ⟨hid, hidle⟩ := hidle t ht
      refine .idle (fun s hs ↦ ?_) hidle
      exact Nat.ne_of_lt (Nat.lt_of_lt_of_le (h.numbered s hs).1 hid)
  phase := fun t ht ↦ Option.some.inj ht ▸ hphase
  fates := fun x hx ↦ (h.fates x hx).imp_right fun ⟨hindex, hfate⟩ ↦ ⟨hindex, hfate.imp_right
    fun ⟨hfailed, htime⟩ ↦ ⟨hext.outcomes.symm ▸ hfailed, hext.outOfTime.mpr htime⟩⟩
  numbered := fun s hs ↦ ⟨Nat.lt_of_lt_of_le (h.numbered s hs).1 hserves.spawned,
    Nat.lt_of_lt_of_le (h.numbered s hs).2 hserial⟩
  completed := fun hs ↦ hserves.status.elim (fun he ↦ h.completed (he ▸ hs))
    fun hc ↦ hclosing hc.1
  unstarted := fun hs ↦ hserves.status.elim (fun he ↦ h.unstarted (he ▸ hs)) fun hc ↦ by
    have hs : q.status = .notStarted := hs
    rw [hc.2] at hs
    cases hs
  recital := hrecital.trans (h.recital.trans (congrArg Chart.recital hserves.dispatches.symm))
  rooted := Nat.lt_of_lt_of_le h.rooted hserial

/-! ## Taking up an action -/

/-- The chart after an action has been taken up in the passage of a timeline. -/
structure TakesUp (actions : List Action) (c c' : Chart) (id : Nat)
    (agenda : List Errand) (plan : List (Action × Option Nat)) (before : List Passage)
    (x : Passage) : Prop where
  strands : c'.strands = c.strands
  last : c'.passages = before ++ [x]
  place : ∃ place, c'.places = c.places ++ [place]
  task : x.strand.task = id
  agenda : agenda = x.strand.agenda actions (c'.count x.home)
  whole : ∀ y ∈ before, y.home = x.home → y.Whole
  plan : x.plan = x.told.map Dispatch.item ++ plan
  latest : x.index + 1 = c'.count x.home
  others : ∀ home ≠ x.home, c'.along home = c.along home
  unfinished : ¬c.Complete actions ∨ x.home ≠ []

/-- The running task begins an item or goes on with the one taken up last. -/
theorem Charted.exists_takesUp {action : Action} {scope : Nat} {scopes : List Nat}
    {step : Option Nat} {rest : List (Action × Option Nat)} {d : Dispatch}
    (h : Charted actions c ⟨p, some task, .perform action scope scopes step :: jobs⟩)
    (hf : p.turn.failed = false) (hscan : action.scan step = (action, step) :: rest)
    (hd : d.item = (action, step)) (hscope : d.scope = scope) :
    ∃ c' before x, c'.Records actions (p.dispatches ++ [d]) ∧
      TakesUp actions c c' task.id p.turn.agenda (rest ++ jobs.flatMap Job.plan) before x ∧
      (∀ job ∈ jobs, job.isLook = false) ∧ ∀ q ∈ p.turn.pauses, q.ending ≠ .completed := by
  cases h.phase task rfl with
  | serves hjobs =>
      have := hjobs _ (List.mem_cons_self ..)
      cases this
  | @begins s first hs hid haction hjobs hagenda hwhole hpauses hfailed =>
      obtain ⟨hjob, rfl⟩ := List.cons.inj hjobs
      obtain ⟨rfl, rfl, -, rfl⟩ := Job.perform.inj hjob
      have hpauses : p.turn.pauses = [] := hpauses
      have hcount : (c.begin s action d).count s.home = c.count s.home + 1 := by
        simp [Chart.count, Chart.along_begin]
      refine ⟨c.begin s action d, c.passages, ⟨s, c.count s.home, action, [d]⟩,
        h.records.begins hs haction hscope hd, ?_, by simp, by simp [hpauses]⟩
      exact
        { strands := rfl
          last := rfl
          place := ⟨_, Chart.places_begin⟩
          task := hid
          agenda := hagenda.trans (congrArg _ hcount.symm)
          whole := fun y hy hhome ↦ hwhole y (Chart.mem_along.mpr ⟨hy, hhome⟩)
          plan := by simp [Passage.plan, hscan, hd]
          latest := hcount.symm
          others := fun home hne ↦ by
            have hne : s.home ≠ home := Ne.symm hne
            rw [Chart.along_begin, if_neg hne, List.append_nil]
          unfinished := by
            by_cases hroot : s.home = []
            · refine .inl fun hcomplete ↦ ?_
              have hlt := (List.getElem?_eq_some_iff.mp haction).1
              rw [hroot, hcomplete.count] at hlt
              exact Nat.lt_irrefl _ hlt
            · exact .inr hroot }
  | @performs before x hlast hid hjobs hagenda hwhole hplan hpauses =>
      have hplan := hplan.resolve_left (by simp [hf])
      have hnext : x.plan = (x.extend d).told.map Dispatch.item ++ (rest ++ jobs.flatMap Job.plan) := by
        rw [hplan, List.flatMap_cons]
        simp [Job.plan, hscan, Passage.extend, hd]
      have hnot : ¬x.Whole := by
        intro hwhole
        rw [Passage.Whole, hplan, List.flatMap_cons] at hwhole
        simp [Job.plan, hscan] at hwhole
      have hmem := Chart.Records.last_mem hlast
      have hprefix : (x.told ++ [d]).map Dispatch.item <+: x.plan := ⟨_, hnext.symm⟩
      have hcount := Chart.count_resume (d := d) hlast
      refine ⟨c.resume before x d, before, x.extend d, h.records.resumes hlast hprefix, ?_,
        fun job hjob ↦ hjobs job (List.mem_cons_of_mem _ hjob), hpauses⟩
      exact
        { strands := rfl
          last := rfl
          place := Chart.places_resume h.records hlast hprefix
          task := hid
          agenda := hagenda.trans (congrArg _ (hcount x.home).symm)
          whole := hwhole
          plan := hnext
          latest := ((h.fates x hmem).resolve_left hnot).1.trans (hcount x.home).symm
          others := fun home hne ↦ Chart.along_resume_ne hlast (Ne.symm hne)
          unfinished := by
            by_cases hroot : x.home = []
            · exact .inl fun hcomplete ↦
                hnot (hcomplete.whole x (Chart.mem_along.mpr ⟨hmem, hroot⟩))
            · exact .inr hroot }

section

variable {plan : List (Action × Option Nat)} {before : List Passage} {x : Passage}

theorem TakesUp.complete (h : TakesUp actions c c' id agenda plan before x)
    (hc : c.Complete actions) : c'.Complete actions := by
  have hsame := h.others [] (Ne.symm (h.unfinished.resolve_left (not_not_intro hc)))
  exact ⟨by rw [Chart.count, hsame]; exact hc.count, hsame ▸ hc.whole⟩

/-- The other tasks stand where they stood. -/
theorem TakesUp.stands {other : Nat} {agenda' : List Errand} (hr : c.Records actions p.dispatches)
    (h : TakesUp actions c c' id agenda plan before x) (hx : x.strand ∈ c.strands)
    (hne : other ≠ id) (hs : Stands actions c other agenda' pauses) :
    Stands actions c' other agenda' pauses := by
  cases hs with
  | idle hid hidle => exact .idle (h.strands ▸ hid) hidle
  | @walks s hs hid hagenda hwhole hpauses =>
      have hother : s.home ≠ x.home := by
        intro he
        obtain rfl := List.inj_on_of_nodup_map hr.homes hs hx he
        exact hne (hid.symm.trans h.task)
      have hsame := h.others s.home hother
      refine .walks (h.strands ▸ hs) hid ?_ (hsame ▸ hwhole) hpauses
      rw [Chart.count, hsame]
      exact hagenda
  | concludes hs hid hroot hagenda hc =>
      exact .concludes (h.strands ▸ hs) hid hroot hagenda (h.complete hc)

end

/-- A part of a turn in which an action is taken up. -/
theorem Charted.takeUp {action : Action} {scope : Nat} {scopes : List Nat} {step : Option Nat}
    {rest : List (Action × Option Nat)}
    (h : Charted actions c ⟨p, some task, .perform action scope scopes step :: jobs⟩)
    (hover : p.isOver = false) (hscan : action.scan step = (action, step) :: rest)
    (hserves : Serves false (p.note action scope step) q) (hext : Extends true p q)
    (hserial : p.session.serial ≤ q.session.serial)
    (hagenda : q.turn.agenda = p.turn.agenda)
    (hrecital : q.session.recital = p.session.recital.tell step action.line?)
    (hlooks : (∀ job ∈ jobs, job.isLook = false) → ∀ job ∈ jobs', job.isLook = false)
    (hjobs : jobs'.flatMap Job.plan = rest ++ jobs.flatMap Job.plan) :
    ∃ c' place, Charted actions c' ⟨q, some task, jobs'⟩ ∧ c'.strands = c.strands ∧
      c'.places = c.places ++ [place] ∧
      q.dispatches = p.dispatches ++ [⟨p.session.now, scope, step, action⟩] := by
  have hf : p.turn.failed = false := by
    simp only [isOver, Bool.or_eq_false_iff] at hover
    exact hover.2
  obtain ⟨c', before, x, hrecords, htakes, hnone, hpauses⟩ :=
    h.exists_takesUp (d := ⟨p.session.now, scope, step, action⟩) hf hscan rfl rfl
  obtain ⟨place, hplace⟩ := htakes.place
  have hnote : p.note action scope step =
      { p with dispatches := p.dispatches ++ [⟨p.session.now, scope, step, action⟩] } := by
    unfold note
    rw [if_neg (by simp [hover])]
  rw [hnote] at hserves
  have hdispatches : q.dispatches = p.dispatches ++ [⟨p.session.now, scope, step, action⟩] :=
    hserves.dispatches
  have hx : x ∈ c'.passages := Chart.Records.last_mem htakes.last
  have hxs : x.strand ∈ c.strands := htakes.strands ▸ hrecords.strand x hx
  refine ⟨c', place, ?_, htakes.strands, hplace, hdispatches⟩
  constructor
  case records => exact hdispatches.symm ▸ hrecords
  case tasks =>
    obtain ⟨new, hnew, hidle⟩ := hserves.tasks
    intro t ht hne
    have ht : t ∈ q.tasks := ht
    rw [hnew] at ht
    rcases List.mem_append.mp ht with ht | ht
    · refine htakes.stands h.records hxs (fun he ↦ hne ?_) (h.tasks t ht hne)
      exact congrArg some he.symm
    · obtain ⟨hid, hidle⟩ := hidle t ht
      refine .idle (fun s hs ↦ ?_) hidle
      exact Nat.ne_of_lt (Nat.lt_of_lt_of_le (h.numbered s (htakes.strands ▸ hs)).1 hid)
  case phase =>
    intro t ht
    obtain rfl := Option.some.inj ht
    refine .performs htakes.last htakes.task (hlooks hnone) (hagenda.trans htakes.agenda)
      htakes.whole (.inr ?_) fun q hq ↦ ?_
    · exact htakes.plan.trans (congrArg _ hjobs.symm)
    · exact (hserves.pauses.resolve_left (by simp) q hq).elim (hpauses q) id
  case fates =>
    intro y hy
    rw [htakes.last] at hy
    rcases List.mem_append.mp hy with hy | hy
    · by_cases hhome : y.home = x.home
      · exact .inl (htakes.whole y hy hhome)
      · have hmem : y ∈ c'.along y.home :=
          Chart.mem_along.mpr ⟨htakes.last ▸ List.mem_append_left _ hy, rfl⟩
        rw [htakes.others _ hhome] at hmem
        have hcount : c'.count y.home = c.count y.home :=
          congrArg List.length (htakes.others _ hhome)
        rw [hcount]
        exact (h.fates y (Chart.mem_along.mp hmem).1).imp_right fun ⟨hindex, hfate⟩ ↦
          ⟨hindex, hfate.imp_right fun ⟨hfailed, htime⟩ ↦
            ⟨hext.outcomes.symm ▸ hfailed, hext.outOfTime.mpr htime⟩⟩
    · rw [List.mem_singleton.mp hy]
      exact .inr ⟨htakes.latest, .inl ⟨task, rfl, htakes.task.symm⟩⟩
  case numbered =>
    intro s hs
    have hold := h.numbered s (htakes.strands ▸ hs)
    exact ⟨Nat.lt_of_lt_of_le hold.1 hserves.spawned, Nat.lt_of_lt_of_le hold.2 hserial⟩
  case completed =>
    intro hs
    have hsame : q.status = p.status := hserves.status.resolve_right (by simp)
    exact htakes.complete (h.completed (hsame ▸ hs))
  case unstarted =>
    intro hs
    have hsame : q.status = p.status := hserves.status.resolve_right (by simp)
    exact htakes.strands.trans (h.unstarted (hsame ▸ hs))
  case recital =>
    have hrecital' := congrArg (Recital.tell step action.line?) h.recital
    rw [← Chart.recital_append p.dispatches ⟨p.session.now, scope, step, action⟩] at hrecital'
    exact hrecital.trans (hrecital'.trans (congrArg Chart.recital hdispatches.symm))
  case rooted => exact Nat.lt_of_lt_of_le h.rooted hserial

/-- A fork that has been taken up becomes a task of its own. -/
theorem Charted.fork {parts : List Action} {inner : Nat} {places : List Place} {place : Place}
    {dispatches : List Dispatch} {d : Dispatch} (h : Charted actions c ⟨p, some task, jobs⟩)
    (hdispatches : p.dispatches = dispatches ++ [d]) (hfork : d.action = .fork parts)
    (hplaces : c.places = places ++ [place])
    (hold : ∀ s ∈ c.strands, s.home = [] ∨ s.home ∈ places)
    (hinner : ∀ s ∈ c.strands, s.scope < inner) (hserial : inner < p.session.serial)
    (hids : ∀ t ∈ p.tasks, t.id < p.spawned) (htask : task.id < p.spawned)
    (hc : p.session.cancelled = false) :
    Charted actions (c.fork ⟨p.spawned, inner, place⟩)
      ⟨p.spawn (some inner) (Playback.walk inner false parts), some task, jobs⟩ := by
  have hrecords : (c.fork ⟨p.spawned, inner, place⟩).Records actions p.dispatches := by
    rw [hdispatches]
    exact Chart.Records.forks (hdispatches ▸ h.records) hplaces hold hfork
      (fun s hs ↦ Nat.ne_of_lt (h.numbered s hs).1) (fun s hs ↦ Nat.ne_of_lt (hinner s hs))
  have hat : Action.at? actions place = some (.fork parts) :=
    hfork ▸ Chart.Records.at?_last (hdispatches ▸ h.records) hplaces
  have hhome : ∃ n home, place = n :: home := by
    cases place with
    | nil => cases hat
    | cons n home => exact ⟨n, home, rfl⟩
  obtain ⟨k, home, rfl⟩ := hhome
  have hspawn : p.spawn (some inner) (Playback.walk inner false parts) =
      p.addTask true false (some inner) (Playback.walk inner false parts) := by
    unfold spawn
    rw [if_neg (by simp [hc])]
  have hstrand : ∀ s ∈ c.strands, s ∈ (c.fork ⟨p.spawned, inner, k :: home⟩).strands :=
    fun s hs ↦ List.mem_append_left _ hs
  have hstands : ∀ {id : Nat} {agenda : List Errand} {pauses : List Pause}, id < p.spawned →
      Stands actions c id agenda pauses →
      Stands actions (c.fork ⟨p.spawned, inner, k :: home⟩) id agenda pauses := by
    intro id agenda pauses hlt hs
    cases hs with
    | idle hid hidle =>
        refine .idle (fun s hs ↦ ?_) hidle
        rcases List.mem_append.mp hs with hs | hs
        · exact hid s hs
        · rw [List.mem_singleton.mp hs]
          exact Nat.ne_of_gt hlt
    | walks hs hid hagenda hwhole hpauses => exact .walks (hstrand _ hs) hid hagenda hwhole hpauses
    | concludes hs hid hroot hagenda h =>
        exact .concludes (hstrand _ hs) hid hroot hagenda ⟨h.count, h.whole⟩
  have hempty : c.along (k :: home) = [] := by
    refine List.filter_eq_nil_iff.mpr fun x hx hxhome ↦ ?_
    have hstrand := h.records.strand x hx
    have hin := hold _ hstrand
    have hxhome : x.home = k :: home := by simpa using hxhome
    rw [show x.strand.home = k :: home from hxhome] at hin
    have hnodup := h.records.nodup_places
    rw [hplaces, List.nodup_append] at hnodup
    exact hnodup.2.2 _ (hin.resolve_left (by simp)) _ (List.mem_singleton.mpr rfl) rfl
  have hagenda : Playback.walk inner false parts =
      Strand.agenda actions ⟨p.spawned, inner, k :: home⟩ (c.count (k :: home)) := by
    rw [Chart.count, hempty, Strand.agenda, Action.partsAt_of_at? hat]
    simp [Action.parts]
  rw [hspawn]
  constructor
  case records => exact hrecords
  case tasks =>
    intro t ht hne
    rcases List.mem_append.mp ht with ht | ht
    · exact hstands (hids t ht) (h.tasks t ht hne)
    · rw [List.mem_singleton.mp ht]
      exact .walks (List.mem_append_right _ (List.mem_singleton.mpr rfl)) rfl hagenda
        (fun x hx ↦ by rw [show Chart.along _ (c.fork _) = _ from hempty] at hx; cases hx) (by simp)
  case phase =>
    intro other hother
    obtain rfl := Option.some.inj hother
    cases h.phase task rfl with
    | serves hjobs h => exact .serves hjobs (hstands htask h)
    | begins hs hid haction hjobs hagenda hwhole hpauses hfailed =>
        exact .begins (hstrand _ hs) hid haction hjobs hagenda hwhole hpauses hfailed
    | performs hlast hid hjobs hagenda hwhole hplan hpauses =>
        exact .performs hlast hid hjobs hagenda hwhole hplan hpauses
  case fates => exact h.fates
  case numbered =>
    intro s hs
    rcases List.mem_append.mp hs with hs | hs
    · exact ⟨Nat.lt_succ_of_lt (h.numbered s hs).1, (h.numbered s hs).2⟩
    · rw [List.mem_singleton.mp hs]
      exact ⟨Nat.lt_succ_self _, hserial⟩
  case completed => exact fun hs ↦ ⟨(h.completed hs).count, (h.completed hs).whole⟩
  case unstarted =>
    -- A fork is taken up in a passage, and a passage belongs to a timeline.
    intro hs
    have hnone : c.strands = [] := h.unstarted hs
    have hpassages : c.passages = [] := by
      refine List.eq_nil_iff_forall_not_mem.mpr fun x hx ↦ ?_
      have hx := h.records.strand x hx
      rw [hnone] at hx
      cases hx
    rw [Chart.places, hpassages] at hplaces
    simp at hplaces
  case recital => exact h.recital
  case rooted => exact h.rooted

/-! ## Turns -/

/-- Outside of turns a story stays as it is. -/
structure Leaves (p q : Playback) : Prop where
  dispatches : q.dispatches = p.dispatches
  recital : q.session.recital = p.session.recital
  tasks : ∀ t ∈ q.tasks, ∃ old ∈ p.tasks, old.id = t.id ∧ old.agenda = t.agenda ∧
    old.pauses = t.pauses
  outcomes : p.outcomes ⊆ q.outcomes
  outOfTime : p.session.OutOfTime → q.session.OutOfTime
  spawned : p.spawned ≤ q.spawned
  serial : p.session.serial ≤ q.session.serial
  status : q.status = p.status ∨ q.status = .stopped

theorem Charted.leave (h : Charted actions c (resting p)) (hq : Leaves p q) :
    Charted actions c (resting q) where
  records := hq.dispatches.symm ▸ h.records
  tasks := by
    intro t ht _
    obtain ⟨old, hold, hid, hagenda, hpauses⟩ := hq.tasks t ht
    have hstands := h.tasks old hold (by simp [resting])
    rwa [hid, hagenda, hpauses] at hstands
  phase := by simp [resting]
  fates := fun x hx ↦ (h.fates x hx).imp_right fun ⟨hindex, hfate⟩ ↦ ⟨hindex, hfate.imp
    (fun ⟨task, hrun, _⟩ ↦ by cases hrun)
    fun ⟨hfailed, htime⟩ ↦ ⟨hq.outcomes hfailed, hq.outOfTime htime⟩⟩
  numbered := fun s hs ↦ ⟨Nat.lt_of_lt_of_le (h.numbered s hs).1 hq.spawned,
    Nat.lt_of_lt_of_le (h.numbered s hs).2 hq.serial⟩
  completed := fun hs ↦ h.completed (hq.status.elim (fun he ↦ he ▸ hs) fun he ↦ by
    have hs : q.status = .completed := hs
    rw [he] at hs
    cases hs)
  unstarted := fun hs ↦ h.unstarted (hq.status.elim (fun he ↦ he ▸ hs) fun he ↦ by
    have hs : q.status = .notStarted := hs
    rw [he] at hs
    cases hs)
  recital := hq.recital.trans (h.recital.trans (congrArg Chart.recital hq.dispatches.symm))
  rooted := Nat.lt_of_lt_of_le h.rooted hq.serial

theorem Charted.take {rest : List Nat} (h : Charted actions c (resting p)) (htask : task ∈ p.tasks) :
    Charted actions c
      ⟨({ p with queue := rest } : Playback).begun task, some task, task.pauses.map .look⟩ where
  records := h.records
  tasks := by
    intro t ht hne
    rcases mem_modifyTask ht with ⟨old, -, hid, rfl⟩ | ⟨hold, -⟩
    · exact absurd (congrArg some hid.symm) hne
    · exact h.tasks t hold (by simp [resting])
  phase := by
    intro t ht
    obtain rfl := Option.some.inj ht
    refine .serves (fun job hjob ↦ ?_) (h.tasks task htask (by simp [resting]))
    obtain ⟨x, -, rfl⟩ := List.mem_map.mp hjob
    rfl
  fates := fun x hx ↦ (h.fates x hx).imp_right fun ⟨hindex, hfate⟩ ↦ ⟨hindex, hfate.imp_left
    fun ⟨task, hrun, _⟩ ↦ by cases hrun⟩
  numbered := h.numbered
  completed := h.completed
  unstarted := h.unstarted
  recital := h.recital
  rooted := h.rooted

/-- A failed task leaves its failure behind. -/
theorem endTurn_failed (hf : p.turn.failed = true) :
    (task.id, .failed) ∈ (p.endTurn task).outcomes := by
  unfold endTurn
  dsimp only
  rw [if_pos hf, (abandonAll_stirs _).outcomes]
  exact List.mem_append_right _ (List.mem_singleton.mpr rfl)

/-- What is not taken up at the end of a turn has been abandoned. -/
theorem Phase.whole_or_failed (hr : c.Records actions p.dispatches) {x : Passage}
    (hx : x ∈ c.passages) (hid : x.strand.task = id) (h : Phase actions c p id []) :
    x.Whole ∨ p.turn.failed = true ∧ p.session.OutOfTime := by
  have hstrand := hr.strand x hx
  have hsame : ∀ {s : Strand}, s ∈ c.strands → s.task = id → x ∈ c.along s.home := by
    intro s hs hs'
    have he := List.inj_on_of_nodup_map hr.tasks hstrand hs (hid.trans hs'.symm)
    exact Chart.mem_along.mpr ⟨hx, congrArg Strand.home he⟩
  cases h with
  | serves _ h =>
      left
      cases h with
      | idle hnot => exact absurd hid (hnot _ hstrand)
      | walks hs hs' _ hwhole => exact hwhole x (hsame hs hs')
      | concludes hs hs' hroot _ h => exact h.whole x (hroot ▸ hsame hs hs')
  | begins _ _ _ hjobs => cases hjobs
  | @performs before y hlast hid' _ _ hwhole hplan =>
      have hy := Chart.Records.last_mem hlast
      rcases hplan with hfailed | hplan
      · exact .inr hfailed
      left
      rw [hlast] at hx
      rcases List.mem_append.mp hx with hx | hx
      · exact hwhole x hx (Chart.mem_along.mp (hsame (hr.strand y hy) hid')).2
      · rw [List.mem_singleton.mp hx]
        rw [List.flatMap_nil, List.append_nil] at hplan
        exact hplan.symm

theorem Charted.finish (h : Charted actions c ⟨p, some task, []⟩) :
    Charted actions c (resting (p.endTurn task)) := by
  have hphase := h.phase task rfl
  obtain ⟨hdispatches, hspawned⟩ := endTurn_dispatches (p := p) task
  obtain ⟨⟨taps, hsession⟩, hstatus⟩ := endTurn_session (p := p) task
  constructor
  case records => exact hdispatches.symm ▸ h.records
  case tasks =>
    intro t ht _
    rcases mem_endTurn ht with ⟨hold, hne⟩ | ⟨hid, hagenda, hpauses, hf, -⟩
    · exact h.tasks t hold fun he ↦ hne (Option.some.inj he).symm
    · rw [hid, hagenda, hpauses]
      exact hphase.stands h.records hf
  case phase => simp [resting]
  case fates =>
    intro x hx
    rcases h.fates x hx with hwhole | ⟨hindex, ⟨task', hrun, hid⟩ | ⟨hfailed, htime⟩⟩
    · exact .inl hwhole
    · obtain rfl := Option.some.inj hrun
      rcases hphase.whole_or_failed h.records hx hid.symm with hwhole | ⟨hf, htime⟩
      · exact .inl hwhole
      · exact .inr ⟨hindex, .inr ⟨hid ▸ endTurn_failed hf, outOfTime_endTurn htime⟩⟩
    · exact .inr ⟨hindex, .inr ⟨endTurn_outcomes hfailed, outOfTime_endTurn htime⟩⟩
  case numbered =>
    intro s hs
    have hserial : (p.endTurn task).session.serial = p.session.serial := by rw [hsession]
    exact ⟨hspawned.symm ▸ (h.numbered s hs).1, hserial.symm ▸ (h.numbered s hs).2⟩
  case completed => exact fun hs ↦ h.completed (hstatus.symm.trans hs)
  case unstarted => exact fun hs ↦ h.unstarted (hstatus.symm.trans hs)
  case recital =>
    have hrecital : (p.endTurn task).session.recital = p.session.recital := by rw [hsession]; rfl
    exact hrecital.trans (h.recital.trans (congrArg Chart.recital hdispatches.symm))
  case rooted =>
    have hserial : (p.endTurn task).session.serial = p.session.serial := by rw [hsession]
    exact hserial.symm ▸ h.rooted

theorem Charted.look {pause : Pause} (h : Charted actions c ⟨p, some task, .look pause :: jobs⟩)
    (hcast : Casting p (.look pause :: jobs)) :
    Charted actions c ⟨p.revisit pause, some task, jobs⟩ := by
  have hext : Extends true p (p.revisit pause) := extends_revisit (.inl rfl)
  have hserial : p.session.serial ≤ (p.revisit pause).session.serial := by
    have hb : Beat ⟨p, some task, .look pause :: jobs⟩ ⟨p.revisit pause, some task, jobs⟩ := .look
    exact hb.veils.serial
  cases h.phase task rfl with
  | begins _ _ _ hjobs => cases hjobs
  | performs _ _ hjobs =>
      have := hjobs _ (List.mem_cons_self ..)
      cases this
  | serves hjobs hstands =>
      have hjobs' : ∀ job ∈ jobs, job.isLook = true := fun job hjob ↦ hjobs job (by simp [hjob])
      by_cases hf : p.turn.failed = true
      · have hsame : p.revisit pause = p := by
          unfold revisit
          rw [if_pos hf]
        rw [hsame]
        exact h.serve false (.refl p) (.refl p) (Nat.le_refl _) rfl (by simp)
          (.serves hjobs' hstands)
      obtain ⟨done, hdone⟩ := hcast.awaits.resolve_left hf
      have hin : pause ∈ p.turn.pauses := by
        have hdone : p.turn.pauses = pause :: (looks jobs ++ done) := hdone
        simp [hdone]
      have hagenda := revisit_agenda (p := p) pause
      have hplain : pause.ending ≠ .completed →
          Charted actions c ⟨p.revisit pause, some task, jobs⟩ := by
        intro hending
        have hserves : Serves false p (p.revisit pause) := serves_revisit (.inr hending)
        refine h.serve false hserves hext hserial (recital_revisit pause) (by simp) (.serves hjobs' ?_)
        rw [hagenda]
        exact stands_keep hstands (hserves.pauses.resolve_left (by simp))
      cases hstands with
      | idle hid hidle => exact hplain (hidle.pauses pause hin)
      | walks hs hid hagenda hwhole hpauses => exact hplain (hpauses pause hin)
      | concludes hs hid hroot hnil hc =>
          refine h.serve true (serves_revisit (.inl rfl)) hext hserial
            (recital_revisit pause) (fun _ ↦ hc) (.serves hjobs' ?_)
          exact .concludes hs hid hroot (hagenda.trans hnil) hc

theorem isFree_iff : p.turn.isFree = true ↔ p.turn.pauses = [] ∧ p.turn.failed = false := by
  simp [Turn.isFree]

/-- A task that is free takes up the next item of its timeline, or serves. -/
theorem Charted.start {errand : Errand} {rest : List Errand} (h : Charted actions c ⟨p, some task, []⟩)
    (hfree : p.turn.isFree = true) (hagenda : p.turn.agenda = errand :: rest) :
    (∀ action scope step, errand = .perform action scope step →
      Charted actions c ⟨p.updateTurn (fun t ↦ { t with agenda := rest }), some task,
        [.perform action scope [scope] step]⟩) ∧
    ((∀ action scope step, errand ≠ .perform action scope step) →
      Charted actions c
        ⟨(p.updateTurn (fun t ↦ { t with agenda := rest })).begin errand, some task, []⟩) := by
  obtain ⟨hpauses, hf⟩ := isFree_iff.mp hfree
  have hstands := (h.phase task rfl).stands h.records hf
  rw [hagenda, hpauses] at hstands
  have hset : ∀ closing, Serves closing p (p.updateTurn (fun t ↦ { t with agenda := rest })) :=
    fun _ ↦ .of_turn fun _ ↦ List.Subset.refl _
  have hextset : Extends true p (p.updateTurn (fun t ↦ { t with agenda := rest })) :=
    .of_subset rfl rfl rfl (List.Subset.refl _) rfl
  have hbegin : ∀ closing, (closing = true ∨ Errand.Serves errand) →
      (closing = true → c.Complete actions) →
      (∀ pauses, closing = true ∨ (∀ x ∈ pauses, x ∈ ([] : List Pause) ∨ x.ending ≠ .completed) →
        Stands actions c task.id rest pauses) →
      (∀ action scope step, errand ≠ .perform action scope step) →
      Charted actions c
        ⟨(p.updateTurn (fun t ↦ { t with agenda := rest })).begin errand, some task, []⟩ := by
    intro closing hserves hclosing hleft hother
    have hbegun := (hset closing).trans (serves_begin hother hserves)
    refine h.serve closing hbegun (hextset.trans (extends_begin (.inl rfl)))
      (veils_begin (p := p.updateTurn fun t ↦ { t with agenda := rest }) hother).serial
      (recital_begin hother) hclosing (.serves (by simp) ?_)
    rw [(costs_begin (p := p.updateTurn (fun t ↦ { t with agenda := rest })) errand rfl).agenda]
    refine hleft _ (hbegun.pauses.imp_right fun hp x hx ↦ ?_)
    exact hpauses ▸ hp x hx
  rcases stands_cases h.records hstands with
    ⟨hserves, hleft⟩ | ⟨s, hs, action, hid, haction, rfl, rfl, hwhole⟩ | ⟨rfl, hc, hleft⟩
  · refine ⟨fun action scope step he ↦ ?_, hbegin false (.inr hserves) (by simp) fun pauses hp ↦ ?_⟩
    · rw [he] at hserves
      exact hserves.elim
    · exact stands_keep hleft (hp.resolve_left (by simp))
  · refine ⟨fun first scope step he ↦ ?_, fun hother ↦ absurd rfl (hother _ _ _)⟩
    obtain ⟨rfl, rfl, rfl⟩ := Errand.perform.inj he
    exact h.serve false (hset false) hextset (Nat.le_refl _) rfl (by simp)
      (.begins hs hid haction rfl rfl hwhole hpauses hf)
  · exact ⟨fun action scope step he ↦ (by cases he),
      hbegin true (.inl rfl) (fun _ ↦ hc) fun pauses _ ↦ hleft pauses⟩

/-- A failed task leaves out what it has not yet taken up. -/
theorem Charted.skip {action : Action} {scope : Nat} {scopes : List Nat} {step : Option Nat}
    (h : Charted actions c ⟨p, some task, .perform action scope scopes step :: jobs⟩)
    (hplays : Plays p) (hf : p.turn.failed = true) : Charted actions c ⟨p, some task, jobs⟩ := by
  refine h.serve false (.refl p) (.refl p) (Nat.le_refl _) rfl (by simp) ?_
  cases h.phase task rfl with
  | serves hjobs =>
      have := hjobs _ (List.mem_cons_self ..)
      cases this
  | begins _ _ _ _ _ _ _ hok =>
      have hok : p.turn.failed = false := hok
      rw [hf] at hok
      cases hok
  | performs hlast hid hjobs hagenda hwhole _ hpauses =>
      exact .performs hlast hid (fun job hjob ↦ hjobs job (List.mem_cons_of_mem _ hjob)) hagenda
        hwhole (.inl ⟨hf, hplays.failed hf⟩) hpauses

theorem Charted.close {scope : Nat} {scopes : List Nat}
    (h : Charted actions c ⟨p, some task, .close scope scopes :: jobs⟩) :
    Charted actions c ⟨p.performCue .waitForAll scope scopes none, some task, jobs⟩ := by
  by_cases hover : p.isOver = true
  · rw [performCue_over hover]
    refine h.serve false (.refl p) (.refl p) (Nat.le_refl _) rfl (by simp) ?_
    cases h.phase task rfl with
    | serves hjobs =>
        have := hjobs _ (List.mem_cons_self ..)
        cases this
    | begins _ _ _ hjobs => cases hjobs
    | performs hlast hid hjobs hagenda hwhole hplan hpauses =>
        exact .performs hlast hid (fun job hjob ↦ hjobs job (List.mem_cons_of_mem _ hjob)) hagenda
          hwhole hplan hpauses
  have hgoes := isOver_eq_false hover
  have hserves : Serves false p (p.performCue .waitForAll scope scopes none) :=
    serves_performCue _ _ _ _
  refine h.serve false hserves (extends_performCue _ _ _ _) (veils_performCue _ _ _ _ hgoes).serial
    ((recital_performCue _ _ _ _ hgoes).trans (Recital.tell_none _)) (by simp) ?_
  cases h.phase task rfl with
  | serves hjobs =>
      have := hjobs _ (List.mem_cons_self ..)
      cases this
  | begins _ _ _ hjobs => cases hjobs
  | performs hlast hid hjobs hagenda hwhole hplan hpauses =>
      have hf : p.turn.failed = false := by
        simp only [isOver, Bool.or_eq_false_iff] at hgoes
        exact hgoes.2
      refine .performs hlast hid (fun job hjob ↦ hjobs job (List.mem_cons_of_mem _ hjob))
        ((performCue_agenda _ _ _ _).trans hagenda) hwhole
        (.inr (hplan.resolve_left (by simp [hf]))) fun x hx ↦ ?_
      exact (hserves.pauses.resolve_left (by simp) x hx).elim (hpauses x) fun h ↦ h

theorem Live.running (h : Live m) (hrun : m.running ≠ none) :
    m.playback.session.cancelled = false := by
  cases hc : m.playback.session.cancelled with
  | false => rfl
  | true => exact absurd (h.ended hc).1 hrun

theorem runTask_dropped {id : Nat} (rest : List Nat)
    (hgone : ∀ task, p.task? id = some task → task.aborted = true) :
    ∃ tasks, runTask id { p with queue := rest } = { p with queue := rest, tasks := tasks } ∧
      tasks ⊆ p.tasks := by
  unfold runTask
  split
  · exact ⟨p.tasks, rfl, List.Subset.refl _⟩
  next task hsome =>
    rw [if_pos (hgone task hsome)]
    exact ⟨_, rfl, List.filter_subset_self _⟩

theorem Beat.live (h : Live m) (hb : Beat m n) : Live n := by
  have hb' := hb
  have hwithin : m.running ≠ none → n.running ≠ none → Live n := by
    intro hm hn
    refine ⟨fun t ht ↦ ?_, fun hc ↦ ?_⟩
    · obtain ⟨new, hnew, hadded⟩ := (hb.extends hm hn).tasks
      rcases List.mem_append.mp (hnew ▸ ht) with ht | ht
      · exact h.owned t ht
      · exact (hadded t ht).owned
    · rw [Session.cancelled_eq hb.settings, h.running hm] at hc
      cases hc
  cases hb with
  | @take p id rest task hq htask hwhole =>
      refine ⟨fun t ht ↦ ?_, fun hc ↦ ?_⟩
      · obtain ⟨old, hold, -, howned, -⟩ := modifyTask_same ht
        exact howned.trans (h.owned old hold)
      · have haborted := (h.ended hc).2 task (Orderly.task?_eq htask).1
        rw [hwhole] at haborted
        cases haborted
  | @drop p id rest hq hgone =>
      obtain ⟨tasks, hdropped, hsub⟩ := runTask_dropped (p := p) rest hgone
      rw [hdropped]
      exact ⟨fun t ht ↦ h.owned t (hsub ht),
        fun hc ↦ ⟨rfl, fun t ht ↦ (h.ended hc).2 t (hsub ht)⟩⟩
  | finish =>
      refine ⟨fun t ht ↦ ?_, fun hc ↦ ?_⟩
      · obtain ⟨old, hold, -, howned, -⟩ := endTurn_same ht
        exact howned.trans (h.owned old hold)
      · rw [Session.cancelled_eq hb'.settings, h.running (by simp)] at hc
        cases hc
  | _ => exact hwithin (by simp) (by simp)

/-- Every beat has its chart. -/
theorem Beat.charted (hs : Sound m) (hcast : Cast m) (hlive : Live m) (h : Charted actions c m)
    (hb : Beat m n) : ∃ c', Charted actions c' n := by
  have hb' := hb
  cases hb with
  | take hq htask => exact ⟨c, h.take (Orderly.task?_eq htask).1⟩
  | @drop p id rest hq hgone =>
      obtain ⟨tasks, hdropped, hsub⟩ := runTask_dropped (p := p) rest hgone
      rw [hdropped]
      exact ⟨c, h.leave
        { dispatches := rfl
          recital := rfl
          tasks := fun t ht ↦ ⟨t, hsub ht, rfl, rfl, rfl⟩
          outcomes := List.Subset.refl _
          outOfTime := fun htime ↦ htime
          spawned := Nat.le_refl _
          serial := Nat.le_refl _
          status := .inl rfl }⟩
  | look => exact ⟨c, h.look (hcast.running (by simp))⟩
  | walk hfree hagenda => exact ⟨c, (h.start hfree hagenda).1 _ _ _ rfl⟩
  | begin hfree hagenda hother => exact ⟨c, (h.start hfree hagenda).2 hother⟩
  | @skip p task action scope scopes step jobs hover =>
      have hcasting : Casting p (.perform action scope scopes step :: jobs) := hcast.running (by simp)
      have hc : p.session.cancelled = false := hlive.running (by simp)
      refine ⟨c, h.skip (hcasting.plays rfl).1 ?_⟩
      simpa [isOver, hc] using hover
  | @cue p task cue scope scopes step jobs hover =>
      have hgoes := (note_isOver (p := p) (.cue cue) scope step).trans hover
      have hrecital := recital_performCue cue scope scopes step hgoes
      rw [note_session] at hrecital
      obtain ⟨c', place, hcharted, -⟩ := h.takeUp hover rfl (serves_performCue cue scope scopes step)
        (hb'.extends (by simp) (by simp)) hb'.veils.serial
        ((performCue_agenda _ _ _ _).trans (congrArg Turn.agenda (note_turn _ _ _))) hrecital
        (fun hjobs ↦ hjobs) rfl
      exact ⟨c', hcharted⟩
  | @block p task parts scope scopes step jobs hover =>
      have hc : (p.note (.block parts) scope step).session.cancelled = false := by
        rw [note_session]
        exact hlive.running (by simp)
      have hrecital := recital_openWithin scope step hc
      rw [note_session] at hrecital
      have hlooks : (∀ job ∈ jobs, job.isLook = false) →
          ∀ job ∈ blockJobs parts p.session.serial (p.session.serial :: scopes) ++ jobs,
            job.isLook = false :=
        fun hjobs job hjob ↦
          (List.mem_append.mp hjob).elim (isLook_blockJobs _ _ _ job) (hjobs job)
      obtain ⟨c', place, hcharted, -⟩ := h.takeUp hover rfl (serves_openWithin scope step)
        (hb'.extends (by simp) (by simp)) hb'.veils.serial (openWithin_agenda _ _ _) hrecital
        hlooks (by rw [List.flatMap_append, plan_blockJobs])
      exact ⟨c', hcharted⟩
  | @fork p task parts scope scopes step jobs hover =>
      have hc : (p.note (.fork parts) scope step).session.cancelled = false := by
        rw [note_session]
        exact hlive.running (by simp)
      have hrecital := recital_openWithin scope step hc
      rw [note_session] at hrecital
      have hstirs := stirs_openWithin (p.note (.fork parts) scope step) scope step
      have hopened : Extends true p ((p.note (.fork parts) scope step).openWithin scope step) :=
        (extends_note _ _ _).trans (.of_stirs hstirs)
      obtain ⟨c', place, hcharted, hstrands, hplaces, hdispatches⟩ :=
        h.takeUp hover rfl (serves_openWithin scope step) hopened
          (note_session (p := p) (.fork parts) scope step ▸ hstirs.serial)
          (openWithin_agenda _ _ _) hrecital (fun hjobs ↦ hjobs) rfl
      have ho := (hs.orderly.note (.fork parts) scope step).stirs hstirs
      have hlt := serial_openWithin (p := p.note (.fork parts) scope step) scope step
      rw [note_session] at hlt
      refine ⟨_, hcharted.fork hdispatches rfl hplaces (fun s hs ↦ ?_) (fun s hs ↦ ?_) hlt ho.id_lt
        ho.running_lt ?_⟩
      · exact (h.records.forked s (hstrands ▸ hs)).imp_right And.left
      · exact (h.numbered s (hstrands ▸ hs)).2
      · exact (Session.cancelled_eq (settings_openWithin _ _)).trans hc
  | close => exact ⟨c, h.close⟩
  | finish => exact ⟨c, h.finish⟩

end

end Machine

end Storyline
