import Storyline.Proofs.Playback.Turns
import Storyline.Proofs.Player.Reach
import Storyline.Proofs.Player.Telling

/-!
# The outcome of a story

A story without forks has one outcome: whenever it is completed, its account is
the one that its actions tell.  The main timeline carries what is left of the
tale; the tickers and settlings beside it tell nothing.
-/

namespace Storyline

namespace Playback

/-! ## Turns that tell nothing -/

/-- A turn that has told nothing since it began, and will tell nothing. -/
structure Inert (p₁ p : Playback) : Prop where
  same : p₁.session.SameTale p.session
  status : p.status = p₁.status
  tasks : p.tasks = p₁.tasks
  pauses : ∀ q ∈ p.turn.pauses, q.ending.isInert = true
  agenda : ∀ e ∈ p.turn.agenda, e.isInert = true

namespace Inert

variable {p₁ p : Playback}

theorem mute {q : Playback} (h : p₁.Inert p) (hq : p.Mute q) : p₁.Inert q where
  same := h.same.trans hq.same
  status := hq.status.trans h.status
  tasks := hq.stirs.tasks.trans h.tasks
  pauses := by
    rw [hq.stirs.pauses]
    exact h.pauses
  agenda := by
    rw [hq.stirs.agenda]
    exact h.agenda

theorem leave {pause : Pause} (h : p₁.Inert p) (hinert : pause.ending.isInert = true) :
    p₁.Inert (p.leave pause) :=
  { h with
    pauses := by
      intro x hx
      rcases List.mem_append.mp hx with hx | hx
      · exact h.pauses x hx
      · rwa [List.mem_singleton.mp hx] }

theorem suspend {wait : Wait} {ending : Ending} {scopes : List Nat} (h : p₁.Inert p)
    (hinert : ending.isInert = true) : p₁.Inert (p.suspend wait ending scopes) := by
  have hmute := (p.looked_look wait).mute
  unfold Playback.suspend
  split
  next q w hlook =>
    rw [hlook] at hmute
    exact (h.mute hmute).leave hinert
  next q ran hlook =>
    rw [hlook] at hmute
    split
    · refine (h.mute hmute).mute ?_
      cases ending with
      | nothing => exact .refl q
      | release ticket => exact q.mute_release ticket
      | _ => cases hinert
    · exact h.mute hmute
  next q hlook =>
    rw [hlook] at hmute
    have hleft : p₁.Inert (q.leave ⟨wait, ending, scopes⟩) := (h.mute hmute).leave hinert
    exact ⟨hleft.same, hleft.status, hleft.tasks, hleft.pauses, hleft.agenda⟩

theorem revisit {pause : Pause} (h : p₁.Inert p) (hinert : pause.ending.isInert = true) :
    p₁.Inert (p.revisit pause) := by
  unfold Playback.revisit
  split
  · exact h
  · exact suspend { h with pauses := fun x hx ↦ h.pauses x (List.mem_of_mem_tail hx) } hinert

theorem revisitAll {pauses : List Pause} (h : p₁.Inert p)
    (hinert : ∀ x ∈ pauses, x.ending.isInert = true) :
    p₁.Inert (pauses.foldl (fun p pause ↦ p.revisit pause) p) := by
  induction pauses generalizing p with
  | nil => exact h
  | cons pause rest ih =>
      exact ih (h.revisit (hinert pause (by simp))) fun x hx ↦ hinert x (by simp [hx])

theorem begin {errand : Errand} (h : p₁.Inert p) (hinert : errand.isInert = true) :
    p₁.Inert (p.begin errand) := by
  cases errand with
  | sleep d ending scopes => exact (h.mute p.mute_arm).suspend hinert
  | animate shake stamp d => exact (h.mute p.mute_arm).suspend rfl
  | fastForward => exact h.suspend rfl
  | _ => cases hinert

theorem proceed {agenda : List Errand} (h : p₁.Inert p)
    (hinert : ∀ e ∈ agenda, e.isInert = true) : p₁.Inert (Playback.proceed agenda p) := by
  induction agenda generalizing p with
  | nil => exact h
  | cons errand rest ih =>
      simp only [Playback.proceed]
      split
      · have hrest : ∀ e ∈ rest, e.isInert = true := fun e he ↦ hinert e (by simp [he])
        exact ih (begin { h with agenda := hrest } (hinert errand (by simp))) hrest
      · exact h

end Inert

/-! ## Turns of the main timeline -/

namespace Tells

variable {o : Outset} {rest : Account → Account} {target : Account} {p : Playback}

theorem revisit {pause : Pause} {others : List Pause} (h : p.Tells o rest target)
    (hawaits : p.Awaits (pause :: others)) : (p.revisit pause).Tells o rest target := by
  unfold Playback.revisit
  split
  · exact h
  next hf =>
    obtain ⟨done, hdone⟩ := hawaits.resolve_left hf
    have hmem : pause ∈ p.turn.pauses := by simp [hdone]
    refine suspend _ ?_ (h.plain pause hmem) (h.stamps pause hmem)
    refine { h with
      plain := fun x hx ↦ h.plain x (List.mem_of_mem_tail hx)
      stamps := fun x hx ↦ h.stamps x (List.mem_of_mem_tail hx)
      tale := h.tale.imp_right fun htale ↦ ?_ }
    -- the pause may as well stand behind the others
    have htail : (p.updateTurn (fun t ↦ { t with pauses := t.pauses.tail })).tale.after
        [pause.ending] = p.tale := by
      simp only [Playback.tale, updateTurn, hdone, List.cons_append, List.tail_cons, List.map_cons]
      rw [Account.after_comm, ← Account.after_append, List.singleton_append]
    rw [htail]
    exact htale

theorem revisitAll {pauses : List Pause} (h : p.Tells o rest target) (hawaits : p.Awaits pauses) :
    (pauses.foldl (fun p pause ↦ p.revisit pause) p).Tells o rest target := by
  induction pauses generalizing p with
  | nil => exact h
  | cons pause others ih => exact ih (h.revisit hawaits) (revisit_awaits hawaits)

end Tells

/-- An errand of the main timeline but its last. -/
def IsStep (errand : Errand) : Prop :=
  ∃ action scope step, errand = .perform action scope step ∧ action.forkFree = true

/-- The last errand of the main timeline. -/
def lastErrand : Errand := .drain Player.root .actions true .completed

/-- Where the main timeline stands: what is left of the tale is in its agenda
and its pauses, or all is told and only the last count has to be waited for. -/
inductive Stands (audible : Bool) (voices : VoiceCache) (target a : Account) :
    List Errand → List Pause → Prop
  | walking {steps : List Errand} {pauses : List Pause} (hsteps : ∀ e ∈ steps, IsStep e)
    (hplain : ∀ q ∈ pauses, q.ending.isPlain = true)
    (hstamps : ∀ q ∈ pauses, ∀ cover, q.ending.hides cover a.serial = false)
    (htale : (a.after (pauses.map Pause.ending)).tellWalk audible voices steps = target) :
    Stands audible voices target a (steps ++ [lastErrand]) pauses
  | draining {scopes : List Nat} (htold : a = target) :
    Stands audible voices target a [] [⟨.drained Player.root .actions true, .completed, scopes⟩]

/-- The turn of the main timeline is over: it has failed, it stands somewhere, or
the story is completed. -/
inductive Arrives (o : Outset) (target : Account) (p : Playback) : Prop
  | failed (hb : p.Bears o) (hs : p.status = .playing) (hf : p.turn.failed = true)
  | stands (hb : p.Bears o) (hs : p.status = .playing)
    (h : Stands o.audible o.voices target p.session.account p.turn.agenda p.turn.pauses)
    (hne : p.turn.pauses ≠ [])
  | completed (hb : p.Bears o) (hs : p.status = .completed) (hnil : p.turn.pauses = [])
    (h : p.session.account = target)

section walk

variable {o : Outset} {target : Account} {p : Playback}

/-- The last errand completes the story, or waits for the last count. -/
theorem finishWalk {scopes : List Nat} (hb : p.Bears o) (hs : p.status = .playing)
    (hagenda : p.turn.agenda = []) (hpauses : p.turn.pauses = []) (htold : p.session.account = target) :
    (p.suspend (.drained Player.root .actions true) .completed scopes).Arrives o target := by
  rw [suspend_drained hb.cancelled]
  split
  · have hfinish : p.finish .completed = { p with status := .completed } := by
      simp [finish, hs]
    rw [hfinish]
    exact .completed ⟨hb.cancelled, hb.audible, hb.voices, hb.tasks⟩ rfl hpauses htold
  · refine .stands ⟨hb.cancelled, hb.audible, hb.voices, hb.tasks⟩ hs ?_ (by simp [leave, updateTurn])
    have hleft : (p.leave ⟨.drained Player.root .actions true, .completed, scopes⟩).turn.pauses =
        [⟨.drained Player.root .actions true, .completed, scopes⟩] := by
      simp [leave, updateTurn, hpauses]
    have hleft' : (p.leave ⟨.drained Player.root .actions true, .completed, scopes⟩).turn.agenda =
        [] := hagenda
    rw [hleft, hleft']
    exact .draining htold

/-- An action that has not ended, or has failed, holds the main timeline. -/
theorem held_arrives {steps : List Errand} (hsteps : ∀ e ∈ steps, IsStep e)
    (ho : o.status = .playing)
    (h : p.Tells o (Account.tellWalk o.audible o.voices steps) target)
    (hagenda : p.turn.agenda = steps ++ [lastErrand]) (hfree : ¬p.turn.isFree = true) :
    p.Arrives o target := by
  by_cases hf : p.turn.failed = true
  · exact .failed h.toBears (h.status.trans ho) hf
  · refine .stands h.toBears (h.status.trans ho) ?_ ?_
    · rw [hagenda]
      exact .walking hsteps h.plain h.stamps (h.tale.resolve_left hf)
    · intro hnil
      simp [Turn.isFree, hnil, hf] at hfree

/-- The main timeline goes on with its walk until an action holds it. -/
theorem walk_arrives {steps : List Errand} (hsteps : ∀ e ∈ steps, IsStep e)
    (ho : o.status = .playing)
    (h : p.Tells o (Account.tellWalk o.audible o.voices steps) target)
    (hagenda : p.turn.agenda = steps ++ [lastErrand]) :
    (proceed (steps ++ [lastErrand]) p).Arrives o target := by
  induction steps generalizing p with
  | nil =>
      simp only [List.nil_append, proceed]
      split
      next hfree =>
        simp only [Turn.isFree, Bool.and_eq_true, List.isEmpty_iff, Bool.not_eq_true'] at hfree
        have htold : p.session.account = target := by
          have htale := h.tale.resolve_left (by simp [hfree.2])
          simpa [Account.tellWalk, Playback.tale, hfree.1, Account.after_nil] using htale
        exact finishWalk (p := p.updateTurn (fun t ↦ { t with agenda := [] }))
          ⟨h.cancelled, h.audible, h.voices, h.tasks⟩ (h.status.trans ho) rfl hfree.1 htold
      next hfree => exact held_arrives hsteps ho h hagenda hfree
  | cons step others ih =>
      obtain ⟨action, scope, place, rfl, hfork⟩ := hsteps step (by simp)
      simp only [List.cons_append, proceed]
      split
      next hfree =>
        have hset : (p.updateTurn (fun t ↦ { t with agenda := others ++ [lastErrand] })).Tells o
            (fun a ↦ Account.tellWalk o.audible o.voices others
              (Account.tell o.audible o.voices action place a)) target := { h with }
        refine ih (fun e he ↦ hsteps e (by simp [he]))
          (hset.perform action scope [scope] place hfork) ?_
        exact (costs_begin (.perform action scope place) rfl).agenda
      next hfree => exact held_arrives hsteps ho h hagenda hfree

/-- The turn of the main timeline, after it has begun. -/
theorem turn_arrives {p₁ : Playback} {agenda : List Errand} {pauses : List Pause}
    (hb : p₁.Bears o) (ho : o.status = .playing) (hs : p₁.status = .playing)
    (hfailed : p₁.turn.failed = false)
    (h : Stands o.audible o.voices target p₁.session.account agenda pauses)
    (hagenda : p₁.turn.agenda = agenda) (hpauses : p₁.turn.pauses = pauses) :
    (proceed agenda (pauses.foldl (fun p pause ↦ p.revisit pause) p₁)).Arrives o target := by
  cases h with
  | @walking steps _ hsteps hplain hstamps htale =>
      have htells : p₁.Tells o (Account.tellWalk o.audible o.voices steps) target :=
        { hb with
          status := hs.trans ho.symm
          plain := hpauses ▸ hplain
          stamps := hpauses ▸ hstamps
          tale := .inr (by rw [Playback.tale, hpauses]; exact htale) }
      refine walk_arrives hsteps ho (htells.revisitAll (.inr ⟨[], by simp [hpauses]⟩)) ?_
      rw [revisitAll_agenda, hagenda]
  | draining htold =>
      simp only [List.foldl_cons, List.foldl_nil, proceed, Playback.revisit, hfailed,
        Bool.false_eq_true, if_false]
      exact finishWalk ⟨hb.cancelled, hb.audible, hb.voices, hb.tasks⟩ hs hagenda
        (by simp [updateTurn, hpauses]) htold

end walk

end Playback

namespace Player

open Playback

/-! ## Between turns -/

/-- The number of the task that runs the main timeline. -/
def mainTask : Nat := 1

/-- A story that is being told, or has been. -/
structure Underway (audible : Bool) (voices : VoiceCache) (target : Account) (p : Playback) :
    Prop where
  timeline : ∀ t ∈ p.tasks, t.id = mainTask →
    p.status = .playing ∧ Stands audible voices target p.session.account t.agenda t.pauses
  cancelled : p.session.cancelled = false
  audible : p.session.host.audible = audible
  voices : p.session.voices = voices
  started : p.status ≠ .notStarted
  others : ∀ t ∈ p.tasks, t.id ≠ mainTask → t.Inert
  told : p.status = .completed → p.session.account = target

/-- A story that has not been started. -/
structure Unstarted (audible : Bool) (voices : VoiceCache) (a : Account) (p : Playback) : Prop where
  cancelled : p.session.cancelled = false
  audible : p.session.host.audible = audible
  voices : p.session.voices = voices
  status : p.status = .notStarted
  tasks : p.tasks = []
  spawned : p.spawned = 0
  account : p.session.account = a

section

variable {audible : Bool} {voices : VoiceCache} {target a : Account} {p q : Playback}

theorem Underway.session (h : Underway audible voices target p)
    (hs : p.session.SameTale q.session) (htasks : q.tasks = p.tasks) (hstatus : q.status = p.status) :
    Underway audible voices target q where
  cancelled := hs.cancelled.trans h.cancelled
  audible := (congrArg Host.audible hs.host).trans h.audible
  voices := hs.voices.trans h.voices
  started := hstatus ▸ h.started
  others := htasks ▸ h.others
  timeline := by
    rw [htasks, hstatus, hs.account]
    exact h.timeline
  told := by
    rw [hstatus, hs.account]
    exact h.told

theorem Unstarted.session (h : Unstarted audible voices a p)
    (hs : p.session.SameTale q.session) (htasks : q.tasks = p.tasks) (hstatus : q.status = p.status)
    (hspawned : q.spawned = p.spawned) : Unstarted audible voices a q where
  cancelled := hs.cancelled.trans h.cancelled
  audible := (congrArg Host.audible hs.host).trans h.audible
  voices := hs.voices.trans h.voices
  status := hstatus.trans h.status
  tasks := htasks.trans h.tasks
  spawned := hspawned.trans h.spawned
  account := hs.account.trans h.account

/-- A turn beside the main timeline leaves the tale as it is. -/
theorem Underway.inertTurn {task : Task} {rest : List Nat} (h : Underway audible voices target p)
    (htask : task ∈ p.tasks) (hid : task.id ≠ mainTask) :
    Underway audible voices target (takeTurn task { p with queue := rest }) := by
  have hinert := h.others task htask hid
  obtain ⟨p₁, hp₁⟩ : ∃ p₁, p₁ = ({ p with queue := rest }.modifyTask task.id
    (fun t ↦ { t with agenda := [], pauses := [] })).updateTurn (fun _ ↦ .ofTask task) := ⟨_, rfl⟩
  have h₁ : p₁.Inert p₁ := by
    refine ⟨.refl _, rfl, rfl, ?_, ?_⟩ <;> rw [hp₁]
    · exact hinert.pauses
    · exact hinert.agenda
  have h₃ : p₁.Inert (proceed task.agenda
      (task.pauses.foldl (fun p pause ↦ p.revisit pause) p₁)) :=
    (h₁.revisitAll hinert.pauses).proceed hinert.agenda
  obtain ⟨p₃, hp₃⟩ : ∃ p₃, p₃ = proceed task.agenda
      (task.pauses.foldl (fun p pause ↦ p.revisit pause) p₁) := ⟨_, rfl⟩
  have hq : takeTurn task { p with queue := rest } = p₃.endTurn task := by rw [hp₃, hp₁]; rfl
  rw [← hp₃] at h₃
  rw [hq]
  obtain ⟨⟨taps, hsession⟩, hstatus⟩ := endTurn_session (p := p₃) task
  have hsame : p.session.SameTale (p₃.endTurn task).session := by
    rw [hsession]
    have hold : p₁.session = p.session := by rw [hp₁]; rfl
    exact ⟨⟨(h₃.same.cancelled).trans (by rw [hold]), h₃.same.voices.trans (by rw [hold]),
      h₃.same.host.trans (by rw [hold])⟩, h₃.same.account.trans (by rw [hold])⟩
  have hstatus' : (p₃.endTurn task).status = p.status := by
    rw [hstatus, h₃.status, hp₁]
    rfl
  -- the table holds the other tasks as they were
  have hmem : ∀ t ∈ (p₃.endTurn task).tasks, (t ∈ p.tasks ∧ t.id ≠ task.id) ∨
      (t.id = task.id ∧ t.Inert) := by
    intro t ht
    rcases mem_endTurn ht with ⟨hold, hne⟩ | ⟨he, hagenda, hpauses, -⟩
    · rw [h₃.tasks, hp₁] at hold
      rcases mem_modifyTask hold with ⟨old, -, he, rfl⟩ | ⟨hold, -⟩
      · exact absurd he hne
      · exact .inl ⟨hold, hne⟩
    · exact .inr ⟨he, hagenda ▸ h₃.agenda, hpauses ▸ h₃.pauses⟩
  constructor
  case cancelled => exact hsame.cancelled.trans h.cancelled
  case audible => exact (congrArg Host.audible hsame.host).trans h.audible
  case voices => exact hsame.voices.trans h.voices
  case started => exact hstatus' ▸ h.started
  case others =>
    intro t ht hne
    rcases hmem t ht with ⟨hold, -⟩ | ⟨-, hinert⟩
    · exact h.others t hold hne
    · exact hinert
  case timeline =>
    intro t ht he
    rcases hmem t ht with ⟨hold, -⟩ | ⟨he', -⟩
    · rw [hstatus', hsame.account]
      exact h.timeline t hold he
    · exact absurd (he'.symm.trans he) hid
  case told =>
    rw [hstatus', hsame.account]
    exact h.told

/-- A turn of the main timeline tells some of the tale. -/
theorem Underway.mainTurn {task : Task} {rest : List Nat} (h : Underway audible voices target p)
    (htask : task ∈ p.tasks) (hid : task.id = mainTask) :
    Underway audible voices target (takeTurn task { p with queue := rest }) := by
  obtain ⟨hstatus, hstands⟩ := h.timeline task htask hid
  obtain ⟨p₁, hp₁⟩ : ∃ p₁, p₁ = ({ p with queue := rest }.modifyTask task.id
    (fun t ↦ { t with agenda := [], pauses := [] })).updateTurn (fun _ ↦ .ofTask task) := ⟨_, rfl⟩
  have hsession : p₁.session = p.session := by rw [hp₁]; rfl
  obtain ⟨o, ho⟩ : ∃ o : Outset, o = ⟨audible, voices, .playing, p₁.tasks⟩ := ⟨_, rfl⟩
  have hb : p₁.Bears o := by
    rw [ho]
    exact ⟨hsession ▸ h.cancelled, hsession ▸ h.audible, hsession ▸ h.voices, [], by simp, by simp⟩
  have harrives : (proceed task.agenda
      (task.pauses.foldl (fun p pause ↦ p.revisit pause) p₁)).Arrives o target := by
    refine turn_arrives hb (by rw [ho]) ?_ ?_ ?_ ?_ ?_
    · rw [hp₁]; exact hstatus
    · rw [hp₁]; rfl
    · rw [ho, hsession]; exact hstands
    · rw [hp₁]; rfl
    · rw [hp₁]; rfl
  obtain ⟨p₃, hp₃⟩ : ∃ p₃, p₃ = proceed task.agenda
      (task.pauses.foldl (fun p pause ↦ p.revisit pause) p₁) := ⟨_, rfl⟩
  have hq : takeTurn task { p with queue := rest } = p₃.endTurn task := by rw [hp₃, hp₁]; rfl
  rw [← hp₃] at harrives
  rw [hq]
  obtain ⟨⟨taps, hsession₃⟩, hstatus₃⟩ := endTurn_session (p := p₃) task
  have haccount : (p₃.endTurn task).session.account = p₃.session.account := by rw [hsession₃]; rfl
  have hothers : p₃.Bears o → ∀ t ∈ (p₃.endTurn task).tasks, t.id ≠ mainTask → t.Inert := by
    intro hb t ht hne
    rcases mem_endTurn ht with ⟨hold, -⟩ | ⟨he, -⟩
    · obtain ⟨new, htasks, hnew⟩ := hb.tasks
      rw [htasks, ho, hp₁] at hold
      rcases List.mem_append.mp hold with hold | hold
      · rcases mem_modifyTask hold with ⟨old, -, he, rfl⟩ | ⟨hold, -⟩
        · exact absurd (he.trans hid) hne
        · exact h.others t hold hne
      · exact hnew t hold
    · exact absurd (he.trans hid) hne
  have hbears : p₃.Bears o → (p₃.endTurn task).session.cancelled = false ∧
      (p₃.endTurn task).session.host.audible = audible ∧
      (p₃.endTurn task).session.voices = voices := by
    intro hb
    rw [hsession₃]
    exact ⟨hb.cancelled, hb.audible.trans (by rw [ho]), hb.voices.trans (by rw [ho])⟩
  have hgone : p₃.turn.failed = true ∨ p₃.turn.pauses = [] → p₃.Bears o →
      ∀ t ∈ (p₃.endTurn task).tasks, t.id ≠ mainTask := by
    intro hend hb t ht he
    rcases mem_endTurn ht with ⟨-, hne⟩ | ⟨-, -, -, hf, hne⟩
    · exact hne (he.trans hid.symm)
    · rcases hend with hend | hend
      · rw [hf] at hend; cases hend
      · exact hne hend
  cases harrives with
  | failed hb hs hf =>
      obtain ⟨hc, ha, hv⟩ := hbears hb
      refine ⟨fun t ht he ↦ absurd he (hgone (.inl hf) hb t ht), hc, ha, hv, ?_, hothers hb, ?_⟩ <;>
        simp [hstatus₃, hs]
  | stands hb hs hstands hne =>
      obtain ⟨hc, ha, hv⟩ := hbears hb
      refine ⟨fun t ht he ↦ ?_, hc, ha, hv, by simp [hstatus₃, hs], hothers hb, by simp [hstatus₃, hs]⟩
      refine ⟨hstatus₃.trans hs, ?_⟩
      rcases mem_endTurn ht with ⟨-, hne⟩ | ⟨-, hagenda, hpauses, -⟩
      · exact absurd (he.trans hid.symm) hne
      · rw [haccount, hagenda, hpauses]
        rw [ho] at hstands
        exact hstands
  | completed hb hs hnil htold =>
      obtain ⟨hc, ha, hv⟩ := hbears hb
      exact ⟨fun t ht he ↦ absurd he (hgone (.inr hnil) hb t ht), hc, ha, hv,
        by simp [hstatus₃, hs], hothers hb, fun _ ↦ haccount.trans htold⟩

/-- What the actions of a story tell, from the account of a new session on. -/
def storyAccount (audible : Bool) (voices : VoiceCache) (actions : List Action) : Account :=
  Account.tellWalk audible voices (timeline actions) ⟨1, Stage.empty.atRest, [], []⟩

theorem timeline_eq (actions : List Action) :
    timeline actions = walk root true actions ++ [lastErrand] := rfl

theorem walk_isStep {actions : List Action} (h : ∀ action ∈ actions, action.forkFree = true)
    (scope : Nat) : ∀ e ∈ walk scope true actions, IsStep e := by
  intro e he
  obtain ⟨⟨action, n⟩, hmem, rfl⟩ := List.mem_map.mp he
  exact ⟨action, scope, _, rfl, h action (List.fst_mem_of_mem_zipIdx hmem)⟩

theorem Unstarted.launch {actions : List Action} (hfork : ∀ action ∈ actions, action.forkFree = true)
    (h : Unstarted audible voices a p)
    (ha : Account.tellWalk audible voices (timeline actions) a = target) :
    Underway audible voices target (Player.launch actions p) := by
  have htasks : (Player.launch actions p).tasks =
      [⟨0, true, false, none, false, [.fastForward], []⟩,
        ⟨1, true, false, some root, false, timeline actions, []⟩] := by
    simp [Player.launch, spawn, addTask, h.cancelled, h.tasks, h.spawned]
  have hsession : (Player.launch actions p).session = p.session := by
    simp [Player.launch, spawn, addTask, h.cancelled]
  have hstatus : (Player.launch actions p).status = .playing := by
    simp [Player.launch, spawn, addTask, h.cancelled]
  refine ⟨fun t ht he ↦ ⟨hstatus, ?_⟩, hsession ▸ h.cancelled, hsession ▸ h.audible,
    hsession ▸ h.voices, by simp [hstatus], fun t ht hne ↦ ?_, by simp [hstatus]⟩
  · rw [htasks] at ht
    rcases List.mem_cons.mp ht with rfl | ht
    · cases he
    · rw [List.mem_singleton.mp ht, hsession, h.account, timeline_eq]
      refine .walking (walk_isStep hfork root) (by simp) (by simp) ?_
      rw [List.map_nil, Account.after_nil, ← ha, timeline_eq, Account.tellWalk, Account.tellWalk,
        List.foldl_append]
      rfl
  · rw [htasks] at ht
    rcases List.mem_cons.mp ht with rfl | ht
    · exact ⟨by simp [Errand.isInert], by simp⟩
    · rw [List.mem_singleton.mp ht] at hne
      exact absurd rfl hne

/-- A turn leaves the tale of a story as it is. -/
theorem Underway.runTask {id : Nat} {rest : List Nat} (h : Underway audible voices target p) :
    Underway audible voices target (runTask id { p with queue := rest }) := by
  unfold Playback.runTask
  split
  · exact h.session (.refl _) rfl rfl
  next task hsome =>
    obtain ⟨htask, -⟩ := Orderly.task?_eq hsome
    split
    · have hmem : ∀ t ∈ ({ p with queue := rest }.removeTask id).tasks, t ∈ p.tasks :=
        fun t ht ↦ (List.mem_filter.mp ht).1
      exact ⟨fun t ht ↦ h.timeline t (hmem t ht), h.cancelled, h.audible, h.voices, h.started,
        fun t ht ↦ h.others t (hmem t ht), h.told⟩
    · by_cases hid : task.id = mainTask
      · exact h.mainTurn htask hid
      · exact h.inertTurn htask hid

end

/-- The commands that set the pace of a story, or only look at it. -/
def Command.paces : Command → Bool
  | .stop | .drop | .cacheVoice .. => false
  | _ => true

theorem Step.underway {actions : List Action} {audible : Bool} {voices : VoiceCache}
    {target a : Account} {p q : Playback}
    (hfork : ∀ action ∈ actions, action.forkFree = true)
    (ha : Account.tellWalk audible voices (timeline actions) a = target)
    (hs : Step actions (fun c ↦ c.paces = true) p q) (hrest : AtRest p)
    (h : Unstarted audible voices a p ∨ Underway audible voices target p) :
    Unstarted audible voices a q ∨ Underway audible voices target q := by
  -- all steps but turns and the start leave the tasks and the tale as they are
  have hkeeps : p.session.SameTale q.session → q.tasks = p.tasks → q.status = p.status →
      q.spawned = p.spawned → Unstarted audible voices a q ∨ Underway audible voices target q :=
    fun hsame htasks hstatus hspawned ↦
      h.imp (fun h ↦ h.session hsame htasks hstatus hspawned) fun h ↦ h.session hsame htasks hstatus
  cases hs with
  | turn hq =>
      rcases h with h | h
      · obtain ⟨hmem, -⟩ := hrest.queued _ (by rw [hq]; exact List.mem_cons_self)
        simp [h.tasks] at hmem
      · exact .inr h.runTask
  | move hq hnext =>
      refine hkeeps ?_ ?_ ?_ ?_ <;> simp only [moveTo, wakeAll_eq]
      · exact ⟨⟨rfl, rfl, rfl⟩, rfl⟩
      all_goals rfl
  | rest hq hle hnext => exact hkeeps ⟨⟨rfl, rfl, rfl⟩, rfl⟩ rfl rfl rfl
  | start hc hrun hs =>
      rcases h with h | h
      · exact .inr (h.launch hfork ha)
      · exact absurd hs h.started
  | next hc =>
      have hmute := p.mute_tap
      exact hkeeps hmute.same hmute.stirs.tasks hmute.status hmute.stirs.spawned
  | autoPlay on hc =>
      have hst := p.stirs_setAutoPlay on
      refine hkeeps ?_ hst.tasks ?_ hst.spawned <;> rw [setAutoPlay_eq_touch]
      · rw [touch_session]
        unfold Session.setAutoPlay
        split <;> exact ⟨⟨rfl, rfl, rfl⟩, rfl⟩
      · exact touch_status
  | fastForward on hc =>
      have hst := p.stirs_setFastForward on
      refine hkeeps ?_ hst.tasks ?_ hst.spawned <;> rw [setFastForward_eq_touch]
      · rw [touch_session]
        unfold Session.setFastForward
        split <;> exact ⟨⟨rfl, rfl, rfl⟩, rfl⟩
      · exact touch_status
  | cacheVoice path content hc => cases hc
  | stop hc => rcases hc with hc | hc <;> cases hc

/-- A completed story has been told as its actions say. -/
theorem account_of_completed {actions : List Action} {config : Config} {host : Host}
    {voices : VoiceCache} {cs : List (Bool × Command)}
    (hfork : ∀ action ∈ actions, action.forkFree = true) (hcs : ∀ c ∈ cs, c.2.paces = true)
    (hcompleted : ((new actions config host voices).follow cs).status = .completed) :
    ((new actions config host voices).follow cs).playback.session.account =
      storyAccount host.audible voices actions := by
  have hnew : Unstarted host.audible voices ⟨1, Stage.empty.atRest, [], []⟩
      (new actions config host voices).playback := ⟨rfl, rfl, rfl, rfl, rfl, rfl, rfl⟩
  have htarget : Account.tellWalk host.audible voices (timeline actions)
      ⟨1, Stage.empty.atRest, [], []⟩ = storyAccount host.audible voices actions := rfl
  obtain ⟨h, -⟩ := follow_induct hcs (.inl hnew) fun q r hrest h hs ↦
    Step.underway hfork htarget hs hrest h
  rcases h with h | h
  · rw [status, h.status] at hcompleted
    cases hcompleted
  · exact h.told hcompleted

/-- Two completed runs of a story without forks have made the same calls, keep
the same backlog and leave the same stage, shakes at rest.  Neither the commands
nor the settings matter, nor how the targets of shakes were moved. -/
theorem completed_runs_agree {actions : List Action} {config config' : Config} {host host' : Host}
    {voices : VoiceCache} {cs ds : List (Bool × Command)}
    (hfork : ∀ action ∈ actions, action.forkFree = true)
    (haudible : host.audible = host'.audible) (hcs : ∀ c ∈ cs, c.2.paces = true)
    (hds : ∀ c ∈ ds, c.2.paces = true)
    (hc : ((new actions config host voices).follow cs).status = .completed)
    (hd : ((new actions config' host' voices).follow ds).status = .completed) :
    let s := ((new actions config host voices).follow cs).playback.session
    let s' := ((new actions config' host' voices).follow ds).playback.session
    s.calls.map Prod.snd = s'.calls.map Prod.snd ∧ s.backlog = s'.backlog ∧
      s.stage.atRest = s'.stage.atRest := by
  intro s s'
  have h : s.account = s'.account :=
    (account_of_completed hfork hcs hc).trans
      (haudible ▸ (account_of_completed hfork hds hd).symm)
  exact ⟨congrArg Account.calls h, congrArg Account.backlog h, congrArg Account.stage h⟩

/-- A title and a line together, which a listener may tap on or leave alone. -/
def evening : List Action :=
  [.block [.cue (.telop "Evening"), .cue (.talk ⟨"Hello.", [1], ["Ann"], none⟩)]]

/-- A host that runs tasks, is heard, and does not move what is shaken. -/
def plainHost : Host := ⟨true, true, none, fun _ _ ↦ .zero⟩

theorem evening_runs_agree :
    let tapped := (new evening .standard plainHost .empty).follow
      [(true, .start), (true, .next), (true, .next)]
    let alone := (new evening .standard plainHost .empty).follow
      [(false, .autoPlay true), (false, .start), (true, .advance 6000)]
    (∀ action ∈ evening, action.forkFree = true) ∧ tapped.status = .completed ∧
      alone.status = .completed ∧
      tapped.playback.session.calls.map Prod.snd = alone.playback.session.calls.map Prod.snd ∧
      tapped.playback.session.backlog = alone.playback.session.backlog ∧
      tapped.playback.session.stage.atRest = alone.playback.session.stage.atRest :=
  ⟨by decide, by decide +kernel, by decide +kernel,
    completed_runs_agree (by decide) rfl (by decide) (by decide) (by decide +kernel)
      (by decide +kernel)⟩

end Player

end Storyline
