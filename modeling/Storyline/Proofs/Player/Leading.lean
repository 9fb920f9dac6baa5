import Storyline.Proofs.Player.Lodging

/-!
# The main timeline leads

Only the main timeline completes the story.  It performs its actions, then waits for
what is left in the root, and with the end of this wait the story is completed and its
task ends.  The task can also be lost on the way, and then the story is never completed.
-/

namespace Storyline

def Errand.ending? : Errand → Option Ending
  | .sleep _ ending _ | .drain _ _ _ ending => some ending
  | _ => none

/-- A task that does not end the story. -/
structure Plain (agenda : List Errand) (pauses : List Pause) : Prop where
  agenda : ∀ e ∈ agenda, e.ending? ≠ some .completed
  pauses : ∀ x ∈ pauses, x.ending ≠ .completed

namespace Playback

/-- Part of a turn in which the story does not end, unless the turn is closing it. -/
structure Plainly (closing : Bool) (p q : Playback) : Prop where
  status : closing = true ∨ q.status = p.status
  spawned : p.spawned ≤ q.spawned
  tasks : ∃ new, q.tasks = p.tasks ++ new ∧ ∀ t ∈ new, p.spawned ≤ t.id ∧ Plain t.agenda t.pauses
  pauses : closing = true ∨ ∀ x ∈ q.turn.pauses, x ∈ p.turn.pauses ∨ x.ending ≠ .completed

variable {closing : Bool} {p q r : Playback}

theorem Errand.Serves.plain {e : Errand} (h : Errand.Serves e) : e.ending? ≠ some .completed := by
  cases e with
  | sleep | drain => exact fun he ↦ h (Option.some.inj he)
  | _ => simp [Errand.ending?]

theorem Plainly.of_serves (h : Serves closing p q) : Plainly closing p q where
  status := h.status.symm.imp_left And.left
  spawned := h.spawned
  tasks := by
    obtain ⟨new, hnew, hidle⟩ := h.tasks
    refine ⟨new, hnew, fun t ht ↦ ⟨(hidle t ht).1, ⟨fun e he ↦ ?_, (hidle t ht).2.pauses⟩⟩⟩
    exact ((hidle t ht).2.agenda e he).plain
  pauses := h.pauses

theorem Plainly.trans (h : Plainly closing p q) (h' : Plainly closing q r) : Plainly closing p r where
  status := h.status.elim .inl fun hs ↦ h'.status.imp_right fun hs' ↦ hs'.trans hs
  spawned := Nat.le_trans h.spawned h'.spawned
  tasks := by
    obtain ⟨new, hnew, hplain⟩ := h.tasks
    obtain ⟨new', hnew', hplain'⟩ := h'.tasks
    refine ⟨new ++ new', by rw [hnew', hnew, List.append_assoc], fun t ht ↦ ?_⟩
    rcases List.mem_append.mp ht with ht | ht
    · exact hplain t ht
    · exact ⟨Nat.le_trans h.spawned (hplain' t ht).1, (hplain' t ht).2⟩
  pauses := h.pauses.elim .inl fun hp ↦ h'.pauses.imp_right fun hq x hx ↦ (hq x hx).elim (hp x) .inr

theorem plainly_note (action : Action) (scope : Nat) (step : Option Nat) :
    Plainly closing p (p.note action scope step) := by
  unfold note
  split <;>
    exact ⟨.inr rfl, Nat.le_refl _, ⟨[], (List.append_nil _).symm, by simp⟩, .inr fun _ ↦ .inl⟩

theorem plainly_walk (scope : Option Nat) (inner : Nat) (parts : List Action) :
    Plainly closing p (p.spawn scope (walk inner false parts)) := by
  unfold spawn
  split
  · exact .of_serves (.refl p)
  · refine ⟨.inr rfl, Nat.le_succ _, ⟨[_], rfl, fun t ht ↦ ?_⟩, .inr fun _ ↦ .inl⟩
    rw [List.mem_singleton.mp ht]
    refine ⟨Nat.le_refl _, fun e he ↦ ?_, by simp⟩
    obtain ⟨a, -, rfl⟩ := List.mem_map.mp he
    simp [Errand.ending?]

/-- What is added to the outcomes at the end of a turn. -/
theorem mem_outcomes_endTurn {task : Task} {id : Nat} {outcome : Outcome}
    (h : (id, outcome) ∈ (p.endTurn task).outcomes) :
    (id, outcome) ∈ p.outcomes ∨ id = task.id ∧ (outcome = .failed ↔ p.turn.failed = true) := by
  unfold endTurn at h
  dsimp only at h
  split at h
  next hf =>
    rw [(abandonAll_stirs _).outcomes] at h
    refine (List.mem_append.mp h).imp_right fun h ↦ ?_
    obtain ⟨rfl, rfl⟩ := Prod.mk.inj (List.mem_singleton.mp h)
    exact ⟨rfl, by simp [hf]⟩
  next hf =>
    split at h
    · refine (List.mem_append.mp h).imp_right fun h ↦ ?_
      obtain ⟨rfl, rfl⟩ := Prod.mk.inj (List.mem_singleton.mp h)
      refine ⟨rfl, ?_⟩
      unfold outcomeOf
      split <;> simp [hf]
    · left
      split at h
      · unfold wake at h
        split at h <;> exact h
      · exact h

end Playback

namespace Machine

open Playback

variable {p : Playback} {task : Task} {job : Job} {jobs : List Job} {m n : Machine}

/-- The story ends only in a beat that looks at a pause before its end or begins an errand
that ends it. -/
theorem Beat.plainly (closing : Bool) (hb : Beat m n) (hm : m.running ≠ none) (hn : n.running ≠ none)
    (h : closing = true ∨ (∀ x, .look x ∈ m.jobs → x.ending ≠ .completed) ∧
      (m.jobs = [] → ∀ e rest, m.playback.turn.agenda = e :: rest → e.ending? ≠ some .completed)) :
    Plainly closing m.playback n.playback := by
  have hset : ∀ (p : Playback) (rest : List Errand),
      Serves closing p (p.updateTurn fun t ↦ { t with agenda := rest }) :=
    fun p rest ↦ .of_turn fun _ ↦ List.Subset.refl _
  cases hb with
  | take | drop => exact absurd rfl hm
  | look => exact .of_serves (serves_revisit (h.imp_right fun h ↦ h.1 _ List.mem_cons_self))
  | walk => exact .of_serves (hset _ _)
  | @begin p task errand rest hfree hagenda hother =>
      refine .of_serves ((hset p rest).trans (serves_begin hother (h.imp_right fun h ↦ ?_)))
      have hplain := h.2 rfl errand rest hagenda
      cases errand with
      | perform action scope step => exact absurd rfl (hother action scope step)
      | sleep | drain => exact fun he ↦ hplain (congrArg some he)
      | _ => trivial
  | skip => exact .of_serves (.refl _)
  | cue => exact (plainly_note _ _ _).trans (.of_serves (serves_performCue _ _ _ _))
  | block => exact (plainly_note _ _ _).trans (.of_serves (serves_openWithin _ _))
  | fork =>
      exact ((plainly_note _ _ _).trans (.of_serves (serves_openWithin _ _))).trans (plainly_walk _ _ _)
  | @close p task scope scopes => exact .of_serves (serves_performCue (p := p) .waitForAll scope scopes none)
  | finish => exact absurd rfl hn

/-- In the midst of a turn the task that runs stays the same. -/
theorem Beat.running_eq (hb : Beat m n) (hm : m.running ≠ none) (hn : n.running ≠ none) :
    n.running = m.running := by
  cases hb with
  | take | drop => exact absurd rfl hm
  | finish => exact absurd rfl hn
  | _ => rfl

/-- No new look is taken up in the midst of a turn. -/
theorem Beat.looks_subset (hb : Beat m n) (hm : m.running ≠ none) (hn : n.running ≠ none) {x : Pause}
    (hx : .look x ∈ n.jobs) : .look x ∈ m.jobs := by
  obtain ⟨p, running, jobs⟩ := m
  obtain ⟨task, rfl⟩ := Option.ne_none_iff_exists'.mp hm
  cases jobs with
  | cons job jobs =>
      obtain ⟨q, new, rfl, -, hnew⟩ := hb.of_job
      exact List.mem_cons_of_mem _ ((List.mem_append.mp hx).resolve_left (hnew x))
  | nil =>
      cases hb with
      | walk => simp at hx
      | begin => exact hx
      | finish => exact absurd rfl hn

end Machine

namespace Player

open Playback Machine

/-- The pause of the main timeline when all its actions are over. -/
def lastPause : Pause := ⟨.drained root .actions true, .completed, [root]⟩

/-- What the main timeline has before it: actions and then the end of the story, or the
wait for the last count. -/
inductive Leads (agenda : List Errand) (pauses : List Pause) : Prop
  | walks {steps : List Errand} (hagenda : agenda = steps ++ [lastErrand])
    (hsteps : ∀ e ∈ steps, e.performs = true) (hpauses : ∀ x ∈ pauses, x.ending ≠ .completed)
  | waits (hagenda : agenda = []) (hpauses : pauses = [lastPause])

/-- Nothing is performed in the root any more, and no action counts there. -/
structure RootSpent (m : Machine) : Prop where
  shut : Shut root m.playback m.jobs
  zero : m.playback.session.pending root .actions = 0

/-- Where the main timeline stands. -/
inductive Leading (m : Machine) : Prop
  | unstarted (hs : m.playback.status = .notStarted) (hspawned : m.playback.spawned = 0)
    (hnone : m.playback.outcomes = [])
  | rests {t : Task} (ht : t ∈ m.playback.tasks) (hid : t.id = mainTask)
    (hrun : m.running.map Task.id ≠ some mainTask) (hs : m.playback.status = .playing)
    (h : Leads t.agenda t.pauses)
  | turns {task : Task} (hrun : m.running = some task) (hid : task.id = mainTask)
    (hs : m.playback.status = .playing) (h : Leads m.playback.turn.agenda m.playback.turn.pauses)
    (hlooks : m.playback.turn.agenda ≠ [] → ∀ x, .look x ∈ m.jobs → x.ending ≠ .completed)
    (hlast : m.playback.turn.agenda = [] → m.playback.turn.failed = false ∧
      (m.jobs = [] ∨ m.jobs = [.look lastPause]))
  | ends {task : Task} (hrun : m.running = some task) (hid : task.id = mainTask)
    (hs : m.playback.status = .completed) (hagenda : m.playback.turn.agenda = [])
    (hpauses : m.playback.turn.pauses = []) (hgoes : m.playback.turn.failed = false)
    (hjobs : m.jobs = []) (hspent : RootSpent m)
  | closed (hs : m.playback.status = .completed) (hgone : ∀ t ∈ m.playback.tasks, t.id ≠ mainTask)
    (hspent : RootSpent m)
  | lost (hs : m.playback.status = .playing) (hgone : ∀ t ∈ m.playback.tasks, t.id ≠ mainTask)
    (hfailed : (mainTask, .failed) ∈ m.playback.outcomes)

/-- The main timeline leads, and the other tasks do not end the story. -/
structure Led (m : Machine) : Prop where
  leading : Leading m
  others : ∀ t ∈ m.playback.tasks, t.id ≠ mainTask → Plain t.agenda t.pauses
  turn : ∀ task, m.running = some task → task.id ≠ mainTask →
    Plain m.playback.turn.agenda m.playback.turn.pauses ∧ ∀ x, .look x ∈ m.jobs → x.ending ≠ .completed
  whole : (mainTask, .failed) ∈ m.playback.outcomes →
    m.playback.status = .playing ∧ ∀ t ∈ m.playback.tasks, t.id ≠ mainTask
  numbered : m.playback.status ≠ .notStarted → mainTask < m.playback.spawned

variable {actions : List Action} {config : Config} {host : Host} {voices : VoiceCache}
  {p q : Playback} {m n : Machine} {task : Task} {jobs : List Job} {agenda : List Errand}
  {pauses : List Pause}

theorem Leads.extend {pauses' : List Pause} (h : Leads agenda pauses) (hne : agenda ≠ [])
    (hp : ∀ x ∈ pauses', x ∈ pauses ∨ x.ending ≠ .completed) : Leads agenda pauses' := by
  cases h with
  | walks hagenda hsteps hpauses =>
      exact .walks hagenda hsteps fun x hx ↦ (hp x hx).elim (hpauses x) id
  | waits hagenda => exact absurd hagenda hne

/-- An errand of the main timeline is one of its actions or the last one. -/
theorem Leads.cases {e : Errand} {rest : List Errand} (h : Leads (e :: rest) pauses) :
    (∃ action scope step, e = .perform action scope step ∧ ∀ pauses',
      (∀ x ∈ pauses', x ∈ pauses) → Leads rest pauses' ∧ rest ≠ []) ∨ e = lastErrand ∧ rest = [] := by
  cases h with
  | waits hagenda => cases hagenda
  | @walks steps hagenda hsteps hpauses =>
      cases steps with
      | nil => exact .inr (List.cons.inj hagenda)
      | cons first steps =>
          obtain ⟨rfl, rfl⟩ := List.cons.inj hagenda
          have hperforms := hsteps e List.mem_cons_self
          cases e with
          | perform action scope step =>
              refine .inl ⟨action, scope, step, rfl, fun pauses' hsub ↦ ⟨?_, by simp⟩⟩
              exact .walks rfl (fun x hx ↦ hsteps x (List.mem_cons_of_mem _ hx))
                fun x hx ↦ hpauses x (hsub x hx)
          | _ => cases hperforms

/-- A look at the last count, or the last errand, completes the story or goes on waiting. -/
theorem leading_last (hid : task.id = mainTask) (hgoes : p.session.cancelled = false)
    (hs : p.status = .playing) (hagenda : p.turn.agenda = []) (hpauses : p.turn.pauses = [])
    (hf : p.turn.failed = false) (hrooted : root < p.session.serial)
    (hapart : ∀ t ∈ p.tasks, ∀ e ∈ t.agenda, e.room? ≠ some root) :
    Leading ⟨p.suspend lastPause.wait lastPause.ending lastPause.scopes, some task, []⟩ := by
  change Leading ⟨p.suspend (.drained root .actions true) .completed [root], some task, []⟩
  rw [suspend_drained hgoes]
  split
  next hzero =>
    have hfinish : p.finish .completed = { p with status := .completed } := by simp [finish, hs]
    rw [hfinish]
    exact .ends rfl hid rfl hagenda hpauses hf rfl ⟨⟨hrooted, hapart, by simp [hagenda], by simp⟩, hzero⟩
  next =>
    have hleft : (p.leave lastPause).turn.pauses = [lastPause] := by
      simp [leave, updateTurn, hpauses]
    exact .turns rfl hid hs (.waits hagenda hleft) (fun hne ↦ absurd hagenda hne)
      fun _ ↦ ⟨hf, .inl rfl⟩

/-- In a turn of the main timeline it goes on leading. -/
theorem leading_turn (hb : Beat m n) (hrun : m.running = some task) (hn : n.running ≠ none)
    (hgoes : m.playback.session.cancelled = false) (hid : task.id = mainTask)
    (hs : m.playback.status = .playing) (h : Leads m.playback.turn.agenda m.playback.turn.pauses)
    (hlooks : m.playback.turn.agenda ≠ [] → ∀ x, .look x ∈ m.jobs → x.ending ≠ .completed)
    (hlast : m.playback.turn.agenda = [] → m.playback.turn.failed = false ∧
      (m.jobs = [] ∨ m.jobs = [.look lastPause])) (hrooted : root < m.playback.session.serial)
    (hapart : ∀ t ∈ m.playback.tasks, ∀ e ∈ t.agenda, e.room? ≠ some root) : Leading n := by
  obtain ⟨p, running, jobs⟩ := m
  obtain rfl : running = some task := hrun
  cases jobs with
  | cons job jobs =>
      by_cases hnil : p.turn.agenda = []
      · -- nothing is left but the look at the last count
        obtain ⟨hf, hjobs⟩ := hlast hnil
        obtain ⟨rfl, rfl⟩ := List.cons.inj (hjobs.resolve_left (by simp))
        have hpauses : p.turn.pauses = [lastPause] := by
          cases h with
          | walks hagenda => simp [show p.turn.agenda = _ from hnil] at hagenda
          | waits _ hpauses => exact hpauses
        cases hb with
        | look =>
            rw [revisit_eq hf]
            exact leading_last (p := p.aside) hid hgoes hs hnil (by simp [aside, updateTurn, hpauses]) hf
              hrooted hapart
      · have hplain := hb.plainly false (by simp) hn
          (.inr ⟨hlooks hnil, fun hjobs ↦ by cases hjobs⟩)
        obtain ⟨q, new, rfl, hagenda, hnew⟩ := hb.of_job
        have hne : q.turn.agenda ≠ [] := hagenda ▸ hnil
        refine .turns rfl hid ((hplain.status.resolve_left (by simp)).trans hs) ?_ (fun _ x hx ↦ ?_)
          fun h ↦ absurd h hne
        · exact hagenda ▸ h.extend hnil (hplain.pauses.resolve_left (by simp))
        · exact hlooks hnil x (List.mem_cons_of_mem _ ((List.mem_append.mp hx).resolve_left (hnew x)))
  | nil =>
      cases hb with
      | @walk p task action scope step rest hfree hagenda =>
          have h : Leads p.turn.agenda p.turn.pauses := h
          rw [hagenda] at h
          rcases h.cases with ⟨_, _, _, -, hrest⟩ | ⟨he, -⟩
          · obtain ⟨hleads, hne⟩ := hrest _ fun _ hx ↦ hx
            exact .turns rfl hid hs hleads (fun _ x hx ↦ by simp at hx) fun h ↦ absurd h hne
          · cases he
      | @begin p task errand rest hfree hagenda hother =>
          have h : Leads p.turn.agenda p.turn.pauses := h
          rw [hagenda] at h
          rcases h.cases with ⟨action, scope, step, he, -⟩ | ⟨rfl, rfl⟩
          · exact absurd he (hother action scope step)
          · obtain ⟨hpauses, hf⟩ := isFree_iff.mp hfree
            exact leading_last (p := p.updateTurn fun t ↦ { t with agenda := [] }) hid hgoes hs rfl
              hpauses hf hrooted hapart
      | finish => exact absurd rfl hn

/-- At the end of its turn the main timeline goes on leading, or it is lost. -/
theorem leading_finish (hmem : task.id ∈ p.tasks.map Task.id)
    (hheld : p.turn.isFree = false ∨ p.turn.agenda = []) (hid : task.id = mainTask)
    (hs : p.status = .playing) (h : Leads p.turn.agenda p.turn.pauses) :
    Leading (resting (p.endTurn task)) := by
  have hstatus : (p.endTurn task).status = .playing := (endTurn_session task).2.trans hs
  by_cases hf : p.turn.failed = true
  · refine .lost hstatus (fun t ht ↦ ?_) (hid ▸ endTurn_failed hf)
    rcases mem_endTurn ht with ⟨-, hne⟩ | ⟨-, -, -, hgoes, -⟩
    · exact hid ▸ hne
    · cases hf.symm.trans hgoes
  have hne : p.turn.pauses ≠ [] := by
    intro hnil
    have hagenda := hheld.resolve_left (by simp [Turn.isFree, hnil, hf])
    cases h with
    | walks he => simp [hagenda] at he
    | waits _ he => simp [hnil] at he
  obtain ⟨t, ht, hid', hagenda, hpauses⟩ := (endTurn_keeps hmem hne).resolve_left fun h ↦ hf h.1
  exact .rests ht (hid'.trans hid) (by simp [resting]) hstatus (hagenda ▸ hpauses ▸ h)

/-- A task that runs is in the table. -/
theorem running_ne (hs : Machine.Sound m) (hgone : ∀ t ∈ m.playback.tasks, t.id ≠ mainTask)
    (hrun : m.running = some task) : task.id ≠ mainTask := by
  obtain ⟨t, ht, he⟩ := List.mem_map.mp (hs.orderly.running_mem _ (congrArg (Option.map Task.id) hrun))
  exact he ▸ hgone t ht

theorem beat_spent (hs : Machine.Sound m) (hwhole : ∀ t ∈ m.playback.tasks, t.aborted = false)
    (hb : Beat m n) (h : RootSpent m) : RootSpent n := by
  obtain ⟨hshut, hpending⟩ := hb.shut hs hwhole h.shut
  exact ⟨hshut, Nat.le_zero.mp (h.zero ▸ hpending .actions)⟩

/-- While the main timeline has its turn, nothing else is performed in the root. -/
theorem Leads.apart (hs : Machine.Sound m) (hl : Housed m) (hrun : m.running = some task)
    (h : Leads m.playback.turn.agenda m.playback.turn.pauses) :
    ∀ t ∈ m.playback.tasks, ∀ e ∈ t.agenda, e.room? ≠ some root := by
  have hsite : (⟨some root, [root]⟩ : Site) ∈ m.sites := by
    cases h with
    | walks hagenda => exact mem_sites_errand (e := lastErrand) (hagenda ▸ List.mem_append_right _ (by simp))
    | waits _ hpauses =>
        have hmem : lastPause.site ∈ m.playback.turn.pauses.map Pause.site := by simp [hpauses]
        exact List.mem_append_left _ (List.mem_append_right _ hmem)
  have hocc : Occupies task.id task.scope ⟨some root, [root]⟩ m := .turns hrun rfl rfl hsite
  have hhome : task.scope ≠ none := fun hnone ↦ by
    cases (hl.idle task.id _ (hnone ▸ hocc))
  have huses : Uses task.id root m := ⟨task.scope, _, hhome, hocc, by simp⟩
  intro t ht e he hroom
  have hocc' : Occupies t.id t.scope e.site m :=
    .waits ht rfl rfl (List.mem_append_left _ (List.mem_map_of_mem he))
  have hhome' : t.scope ≠ none := fun hnone ↦ by
    cases hroom.symm.trans (hl.idle t.id _ (hnone ▸ hocc'))
  obtain ⟨home, hhome''⟩ := Option.ne_none_iff_exists'.mp hhome'
  have hmem := (hl.inmost t.id home e.site root (hhome'' ▸ hocc') hroom).1
  have hid := hl.apart t.id task.id root ⟨t.scope, _, hhome', hocc', hmem⟩ huses
  obtain ⟨-, hnil⟩ := hs.orderly.empty t ht (by rw [hrun, Option.map_some, hid])
  rw [hnil] at he
  cases he

theorem led_turn (hs : Machine.Sound m) (hl : Lodged m) (hm : m.running ≠ none)
    (hn : n.running ≠ none) (hb : Beat m n) (h : Led m) : Led n := by
  obtain ⟨task, hrun⟩ := Option.ne_none_iff_exists'.mp hm
  have hstarted : m.playback.status ≠ .notStarted := fun he ↦ hb.tasks_ne_nil hs (hl.unstarted he)
  have hsame := hb.running_eq hm hn
  have hext := hb.extends hm hn
  have hadds := hb.plainly true hm hn (.inl rfl)
  obtain ⟨new, hnew, hadded⟩ := hadds.tasks
  have hnumber : ∀ t ∈ new, t.id ≠ mainTask :=
    fun t ht ↦ Nat.ne_of_gt (Nat.lt_of_lt_of_le (h.numbered hstarted) (hadded t ht).1)
  have hgone : (∀ t ∈ m.playback.tasks, t.id ≠ mainTask) → ∀ t ∈ n.playback.tasks, t.id ≠ mainTask :=
    fun hgone t ht ↦ (List.mem_append.mp (hnew ▸ ht)).elim (hgone t) (hnumber t)
  have hplain : task.id ≠ mainTask → Plainly false m.playback n.playback := by
    intro hne
    obtain ⟨hturn, hlooks⟩ := h.turn task hrun hne
    refine hb.plainly false hm hn (.inr ⟨hlooks, fun _ e rest he ↦ hturn.agenda e ?_⟩)
    exact he ▸ List.mem_cons_self
  constructor
  case leading =>
    cases h.leading with
    | unstarted hs => exact absurd hs hstarted
    | @rests t ht hid hother hs h =>
        have hne : task.id ≠ mainTask := fun he ↦ hother (by rw [hrun, Option.map_some, he])
        refine .rests (hnew ▸ List.mem_append_left _ ht) hid (hsame ▸ hother) ?_ h
        exact ((hplain hne).status.resolve_left (by simp)).trans hs
    | turns hrun hid hs h hlooks hlast =>
        exact leading_turn hb hrun hn hl.running hid hs h hlooks hlast hl.rooted
          (h.apart ‹_› hl.housed hrun)
    | @ends task' hrun' _ _ hagenda _ _ hjobs =>
        obtain ⟨p, running, jobs⟩ := m
        obtain rfl : running = some task' := hrun'
        obtain rfl : jobs = [] := hjobs
        cases hb with
        | walk _ he | begin _ he => cases he.symm.trans hagenda
        | finish => exact absurd rfl hn
    | closed hs hnone hspent =>
        exact .closed (hb.status.elim (fun he ↦ he.trans hs) id) (hgone hnone) (beat_spent ‹_› hl.whole hb hspent)
    | lost hs hnone hfailed =>
        have hne := running_ne ‹_› hnone hrun
        exact .lost (((hplain hne).status.resolve_left (by simp)).trans hs) (hgone hnone)
          (hext.outcomes ▸ hfailed)
  case others =>
    intro t ht hne
    exact (List.mem_append.mp (hnew ▸ ht)).elim (fun ht ↦ h.others t ht hne) fun ht ↦ (hadded t ht).2
  case turn =>
    intro other hother hne
    obtain rfl : task = other := Option.some.inj (hrun.symm.trans (hsame.symm.trans hother))
    obtain ⟨hturn, hlooks⟩ := h.turn task hrun hne
    refine ⟨⟨fun e he ↦ hturn.agenda e (hb.agenda hm hn he), fun x hx ↦ ?_⟩,
      fun x hx ↦ hlooks x (hb.looks_subset hm hn hx)⟩
    exact ((hplain hne).pauses.resolve_left (by simp) x hx).elim (hturn.pauses x) id
  case whole =>
    intro hfailed
    obtain ⟨hs', hnone⟩ := h.whole (hext.outcomes ▸ hfailed)
    exact ⟨((hplain (running_ne hs hnone hrun)).status.resolve_left (by simp)).trans hs', hgone hnone⟩
  case numbered => exact fun _ ↦ Nat.lt_of_lt_of_le (h.numbered hstarted) hadds.spawned

/-- Every beat is led. -/
theorem led_beat (hs : Machine.Sound m) (hl : Lodged m) (hb : Beat m n) (h : Led m) : Led n := by
  have hstarted : m.playback.status ≠ .notStarted := fun he ↦ hb.tasks_ne_nil hs (hl.unstarted he)
  have hb' := hb
  cases hb with
  | @take p id rest task hq htask hwhole =>
      have hmem := (Orderly.task?_eq htask).1
      have hgone : (∀ t ∈ p.tasks, t.id ≠ mainTask) →
          ∀ t ∈ (({ p with queue := rest } : Playback).begun task).tasks, t.id ≠ mainTask := by
        intro hgone t ht
        rcases mem_modifyTask ht with ⟨old, hold, -, rfl⟩ | ⟨hold, -⟩
        · exact hgone old hold
        · exact hgone t hold
      constructor
      case leading =>
        cases h.leading with
        | unstarted hs => exact absurd hs hstarted
        | @rests t ht hid hother hplays hleads =>
            by_cases he : t.id = task.id
            · obtain rfl := List.inj_on_of_nodup_map hs.orderly.nodup_ids ht hmem he
              refine .turns rfl hid hplays hleads (fun hne x hx ↦ ?_) fun hnil ↦ ⟨rfl, .inr ?_⟩
              · obtain ⟨y, hy, he⟩ := List.mem_map.mp hx
                cases hleads with
                | walks _ _ hpauses => exact Job.look.inj he ▸ hpauses y hy
                | waits hagenda => exact absurd hagenda hne
              · cases hleads with
                | walks hagenda => simp [show t.agenda = [] from hnil] at hagenda
                | waits _ hpauses => rw [hpauses, List.map_singleton]
            · refine .rests (List.mem_map.mpr ⟨t, ht, by simp [he]⟩) hid ?_ hplays hleads
              exact fun hrun ↦ he (hid.trans (Option.some.inj hrun).symm)
        | turns hrun | ends hrun => cases hrun
        | closed hplays hnone hspent => exact .closed hplays (hgone hnone) (beat_spent hs hl.whole hb' hspent)
        | lost hs hnone hfailed => exact .lost hs (hgone hnone) hfailed
      case others =>
        intro t ht hne
        rcases mem_modifyTask ht with ⟨old, -, -, rfl⟩ | ⟨hold, -⟩
        · exact ⟨by simp, by simp⟩
        · exact h.others t hold hne
      case turn =>
        intro other hother hne
        obtain rfl := Option.some.inj hother
        refine ⟨h.others task hmem hne, fun x hx ↦ ?_⟩
        obtain ⟨y, hy, he⟩ := List.mem_map.mp hx
        exact Job.look.inj he ▸ (h.others task hmem hne).pauses y hy
      case whole => exact fun hfailed ↦ ⟨(h.whole hfailed).1, hgone (h.whole hfailed).2⟩
      case numbered => exact h.numbered
  | @drop p id rest hq hgone =>
      rw [runTask_gone (p := p) hl.whole hgone]
      refine ⟨?_, h.others, fun _ hrun ↦ (by cases hrun), h.whole, h.numbered⟩
      cases h.leading with
      | unstarted hs hspawned hnone => exact .unstarted hs hspawned hnone
      | rests ht hid hrun hs h => exact .rests ht hid hrun hs h
      | turns hrun | ends hrun => cases hrun
      | closed hs hnone hspent =>
          exact .closed hs hnone ⟨⟨hspent.shut.past, hspent.shut.tasks, hspent.shut.agenda, hspent.shut.jobs⟩,
            hspent.zero⟩
      | lost hs hnone hfailed => exact .lost hs hnone hfailed
  | @finish p task hheld =>
      have hstatus : (p.endTurn task).status = p.status := (endTurn_session task).2
      have hmem : task.id ∈ p.tasks.map Task.id := hs.orderly.running_mem _ rfl
      have hgone : (∀ t ∈ p.tasks, t.id ≠ mainTask) → ∀ t ∈ (p.endTurn task).tasks, t.id ≠ mainTask := by
        intro hgone t ht
        rcases mem_endTurn ht with ⟨hold, -⟩ | ⟨he, -⟩
        · exact hgone t hold
        · exact he ▸ running_ne (m := ⟨p, some task, []⟩) hs hgone rfl
      have hlost : p.turn.failed = true ∨ p.turn.pauses = [] → task.id = mainTask →
          ∀ t ∈ (p.endTurn task).tasks, t.id ≠ mainTask := by
        intro hend hid t ht
        rcases mem_endTurn ht with ⟨-, hne⟩ | ⟨-, -, -, hf, hne⟩
        · exact hid ▸ hne
        · rcases hend with hend | hend
          · cases hend.symm.trans hf
          · exact absurd hend hne
      constructor
      case leading =>
        cases h.leading with
        | unstarted hs => exact absurd hs hstarted
        | @rests t ht hid hother hplays hleads =>
            have hne : t.id ≠ task.id := fun he ↦ hother (by rw [Option.map_some, ← he, hid])
            exact .rests (endTurn_others ht hne) hid (by simp [resting]) (hstatus.trans hplays) hleads
        | turns hrun hid hplays hleads =>
            obtain rfl := Option.some.inj hrun
            exact leading_finish hmem hheld hid hplays hleads
        | ends hrun hid hover _ hpauses _ _ hspent =>
            obtain rfl := Option.some.inj hrun
            exact .closed (hstatus.trans hover) (hlost (.inr hpauses) hid) (beat_spent hs hl.whole hb' hspent)
        | closed hover hnone hspent =>
            exact .closed (hstatus.trans hover) (hgone hnone) (beat_spent hs hl.whole hb' hspent)
        | lost hs hnone hfailed => exact .lost (hstatus.trans hs) (hgone hnone) (endTurn_outcomes hfailed)
      case others =>
        intro t ht hne
        rcases mem_endTurn ht with ⟨hold, -⟩ | ⟨he, hagenda, hpauses, -⟩
        · exact h.others t hold hne
        · exact hagenda ▸ hpauses ▸ (h.turn task rfl (he ▸ hne)).1
      case turn => exact fun _ hrun ↦ by cases hrun
      case whole =>
        intro hfailed
        rcases mem_outcomes_endTurn hfailed with hold | ⟨hid, hf⟩
        · obtain ⟨hplays, hnone⟩ := h.whole hold
          exact ⟨hstatus.trans hplays, hgone hnone⟩
        · refine ⟨hstatus.trans ?_, hlost (.inl (hf.mp rfl)) hid.symm⟩
          cases h.leading with
          | unstarted hs => exact absurd hs hstarted
          | rests _ _ hother => exact absurd (congrArg some hid.symm) hother
          | turns _ _ hplays => exact hplays
          | ends _ _ _ _ _ hgoes => cases (hf.mp rfl).symm.trans hgoes
          | closed _ hnone => exact absurd hid.symm (running_ne hs hnone rfl)
          | lost hplays => exact hplays
      case numbered =>
        exact fun _ ↦ Nat.lt_of_lt_of_le (h.numbered hstarted) (Nat.le_of_eq (endTurn_dispatches task).2.symm)
  | _ => exact led_turn hs hl (by simp) (by simp) hb' h

/-! ## Between turns -/

/-- Between turns the main timeline stands where it stood. -/
theorem Led.resting (h : Led (resting p)) (ha : Adjoins p q) (htasks : q.tasks = p.tasks)
    (hstatus : q.status = p.status) (hspawned : q.spawned = p.spawned)
    (houtcomes : q.outcomes = p.outcomes) : Led (resting q) := by
  have hspent : RootSpent (Machine.resting p) → RootSpent (Machine.resting q) := fun hspent ↦
    ⟨⟨Nat.lt_of_lt_of_le hspent.shut.past ha.serial, htasks ▸ hspent.shut.tasks,
      ha.agenda ▸ hspent.shut.agenda, hspent.shut.jobs⟩, (ha.pending .actions).trans hspent.zero⟩
  refine ⟨?_, htasks ▸ h.others, fun _ hrun ↦ (by cases hrun), ?_, ?_⟩
  · cases h.leading with
    | unstarted hs hnumber hnone =>
        exact .unstarted (hstatus.trans hs) (hspawned.trans hnumber) (houtcomes.trans hnone)
    | rests ht hid hrun hs h => exact .rests (htasks ▸ ht) hid hrun (hstatus.trans hs) h
    | turns hrun | ends hrun => cases hrun
    | closed hs hnone hover => exact .closed (hstatus.trans hs) (htasks ▸ hnone) (hspent hover)
    | lost hs hnone hfailed => exact .lost (hstatus.trans hs) (htasks ▸ hnone) (houtcomes ▸ hfailed)
  · change (mainTask, .failed) ∈ q.outcomes → q.status = .playing ∧ ∀ t ∈ q.tasks, t.id ≠ mainTask
    rw [houtcomes, hstatus, htasks]
    exact h.whole
  · change q.status ≠ .notStarted → mainTask < q.spawned
    rw [hstatus, hspawned]
    exact h.numbered

theorem led_launch (hgoes : p.session.cancelled = false) (h : Led (resting p)) (hs : p.status = .notStarted)
    (hnone : p.tasks = []) : Led (resting (launch actions p)) := by
  obtain ⟨hspawned, houtcomes⟩ : p.spawned = 0 ∧ p.outcomes = [] := by
    cases h.leading with
    | unstarted _ hspawned hnone => exact ⟨hspawned, hnone⟩
    | rests ht => cases hnone ▸ ht
    | turns hrun | ends hrun => cases hrun
    | closed hs' | lost hs' => cases hs.symm.trans hs'
  have hlaunch : launch actions p =
      { p with
        status := .playing
        tasks := [⟨0, true, false, none, false, [.fastForward], []⟩,
          ⟨1, true, false, some root, false, timeline actions, []⟩]
        spawned := 2
        queue := p.queue ++ [0] ++ [1] } := by
    simp [launch, spawn, hgoes, addTask, hnone, hspawned]
  rw [hlaunch]
  refine ⟨.rests (List.mem_cons_of_mem _ List.mem_cons_self) rfl (by simp [Machine.resting]) rfl ?_, ?_,
    fun _ hrun ↦ (by cases hrun), fun hfailed ↦ ?_, fun _ ↦ (by decide : 1 < 2)⟩
  · refine .walks (timeline_eq actions) (fun e he ↦ ?_) (by simp)
    obtain ⟨a, -, rfl⟩ := List.mem_map.mp he
    rfl
  · intro t ht hne
    rcases List.mem_cons.mp ht with rfl | ht
    · exact ⟨by simp [Errand.ending?], by simp⟩
    · rw [List.mem_singleton.mp ht] at hne
      exact absurd rfl hne
  · simp [Machine.resting, houtcomes] at hfailed

theorem led_step (hs : Machine.Sound m) (hl : Lodged m) (h : Led m)
    (hstep : Machine.Step (Ongoing actions) m n) : Led n := by
  cases hstep with
  | beat hb => exact led_beat hs hl hb h
  | @act p q ha =>
      rcases ha.cases with ⟨rfl, hnot⟩ | ⟨hst, hrooms, hstatus⟩
      · exact led_launch hl.running h hnot (hl.unstarted hnot)
      · exact h.resting (.of_stirs hst hrooms) hst.tasks hstatus hst.spawned hst.outcomes
  | @move p time hq hnext =>
      obtain ⟨queue, hmoved⟩ := moveTo_eq time p
      rw [hmoved]
      exact h.resting (.of_later (Nat.le_of_lt (lt_nextDue hnext)) rfl rfl rfl rfl) rfl rfl rfl rfl
  | rest hq hle => exact h.resting (.of_later hle rfl rfl rfl rfl) rfl rfl rfl rfl

/-- Throughout a run that goes on the main timeline leads. -/
theorem led_runs (hr : Runs (Ongoing actions) (resting (new actions config host voices).playback) m) :
    Led m := by
  have hnew := new_atRest actions config host voices
  refine (hr.induct (I := fun k ↦ Led k ∧ Lodged k) (fun _ _ ha hp ↦ ha.1.atRest hp) (sound_resting hnew)
    ⟨⟨.unstarted rfl rfl rfl, ?_, fun _ hrun ↦ (by cases hrun), ?_, fun hs ↦ absurd rfl hs⟩, lodged_new ..⟩
    fun k l hk ⟨h, hl⟩ hstep ↦ ⟨led_step hk hl h hstep, lodged_step hk hl hstep⟩).1.1
  · exact fun t ht ↦ by cases ht
  · exact fun hfailed ↦ by cases hfailed

end Player

end Storyline
