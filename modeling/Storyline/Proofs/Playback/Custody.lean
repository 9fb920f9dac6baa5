import Storyline.Proofs.Playback.Handling
import Storyline.Proofs.Playback.Sites

/-!
# Custody of tickets

From one moment of a run to the next, tickets are handled by single operations.  What
is performed is performed in a scope that there is; a task that has its turn takes its
tickets along and puts back those that it still holds, unless it fails.
-/

namespace Storyline

/-- An errand for which there is what it needs: a scope to perform an action in.  What
waits for a count holds no ticket. -/
def Errand.Sits (s : Session) : Errand → Prop
  | perform _ scope _ => scope ∈ s.scopes.map Scope.id
  | drain _ _ _ ending => ending.ticket? = none
  | _ => True

def Job.Sits (s : Session) : Job → Prop
  | look _ => True
  | perform _ scope _ _ | close scope _ => scope ∈ s.scopes.map Scope.id

/-- A scope stays, however often it is reset. -/
theorem Session.Resets.scopes {s s' : Session} (h : s.Resets s') :
    s.scopes.map Scope.id ⊆ s'.scopes.map Scope.id := by
  intro id hid
  obtain ⟨k, -, hepochs⟩ := h
  obtain ⟨sc, hsc⟩ : ∃ sc, s.scope? id = some sc := by
    obtain ⟨sc, hsc, he⟩ := List.mem_map.mp hid
    exact Option.isSome_iff_exists.mp (List.find?_isSome.mpr ⟨sc, hsc, by simp [he]⟩)
  have hepoch : s'.epoch? id = some (sc.actions.epoch + k) :=
    hepochs id sc.actions.epoch (by rw [epoch?, hsc]; rfl)
  obtain ⟨sc', hsc', -⟩ := Option.map_eq_some_iff.mp hepoch
  exact List.mem_map.mpr ⟨sc', List.mem_of_find?_eq_some hsc', by simpa using List.find?_some hsc'⟩

theorem Errand.Sits.carry {s s' : Session} {e : Errand} (h : e.Sits s)
    (hscopes : s.scopes.map Scope.id ⊆ s'.scopes.map Scope.id) : e.Sits s' := by
  cases e <;> first | exact h | exact hscopes h

theorem Job.Sits.carry {s s' : Session} {job : Job} (h : job.Sits s)
    (hscopes : s.scopes.map Scope.id ⊆ s'.scopes.map Scope.id) : job.Sits s' := by
  cases job <;> first | exact h | exact hscopes h

/-- What has nothing to do in a scope. -/
theorem Errand.sits_of_room {s : Session} {e : Errand} (h : e.room? = none) : e.Sits s := by
  cases e with
  | perform | drain => cases h
  | _ => trivial

theorem Playback.sits_walk {s : Session} {scope : Nat} (h : scope ∈ s.scopes.map Scope.id)
    (indexed : Bool) (actions : List Action) : ∀ e ∈ walk scope indexed actions, e.Sits s := by
  intro e he
  obtain ⟨a, -, rfl⟩ := List.mem_map.mp he
  exact h

/-- A walk holds no tickets yet. -/
theorem Playback.tickets_walk (scope : Nat) (indexed : Bool) (actions : List Action) :
    (walk scope indexed actions).flatMap Errand.tickets = [] := by
  refine List.flatMap_eq_nil_iff.mpr fun e he ↦ ?_
  obtain ⟨a, -, rfl⟩ := List.mem_map.mp he
  rfl

/-- A task that is added finds what it needs. -/
theorem Playback.sits_spawn {p : Playback} {s : Session} {scope : Option Nat} {agenda : List Errand}
    (h : ∀ t ∈ p.tasks, ∀ e ∈ t.agenda, e.Sits s) (ha : ∀ e ∈ agenda, e.Sits s) :
    ∀ t ∈ (p.spawn scope agenda).tasks, ∀ e ∈ t.agenda, e.Sits s := by
  intro t ht e he
  rw [spawn] at ht
  split at ht
  · exact h t ht e he
  · rcases List.mem_append.mp ht with ht | ht
    · exact h t ht e he
    · rw [List.mem_singleton.mp ht] at he
      exact ha e he

theorem Playback.serial_mem_openWithin {p : Playback} (scope : Nat) (step : Option Nat) :
    p.session.serial ∈ (p.openWithin scope step).session.scopes.map Scope.id := by
  have hserial := serial_passed (p := p) scope step ((p.announce step).session.ticket scope false)
  rw [← hserial]
  simp [openWithin, update, Session.openScope, Scope.fresh]

namespace Machine

open Playback

/-- All that is still to be done has its place. -/
structure Seated (m : Machine) : Prop where
  tasks : ∀ t ∈ m.playback.tasks, ∀ e ∈ t.agenda, e.Sits m.playback.session
  agenda : ∀ e ∈ m.playback.turn.agenda, e.Sits m.playback.session
  jobs : ∀ job ∈ m.jobs, job.Sits m.playback.session

variable {m n : Machine} {p q : Playback} {task : Task}

/-- Tasks that are added have nothing to do in a scope. -/
theorem Seated.tasks_lodges {room : Option Nat} (h : Seated m) (hl : m.playback.Lodges room q)
    (hscopes : m.playback.session.scopes.map Scope.id ⊆ q.session.scopes.map Scope.id) :
    ∀ t ∈ q.tasks, ∀ e ∈ t.agenda, e.Sits q.session := by
  obtain ⟨new, hnew, hadded⟩ := hl
  intro t ht e he
  rcases List.mem_append.mp (hnew ▸ ht) with ht | ht
  · exact (h.tasks t ht e he).carry hscopes
  · exact Errand.sits_of_room ((hadded t ht).2.2 e he).apart

theorem Beat.seated (hs : Sound m) (h : Seated m) (hb : Beat m n) : Seated n := by
  have hscopes := hb.resets.scopes
  -- between turns there is no turn
  have hidle (hn : n.running = none) : ∀ e ∈ n.playback.turn.agenda, e.Sits n.playback.session := by
    rw [(hb.sound hs).orderly.idle (congrArg (Option.map Task.id) hn)]
    simp [Turn.none]
  have hagenda (hm : m.running ≠ none) (hn : n.running ≠ none) :
      ∀ e ∈ n.playback.turn.agenda, e.Sits n.playback.session :=
    fun e he ↦ (h.agenda e (hb.agenda hm hn he)).carry hscopes
  -- a part of a turn that lodges its tasks, with some of the jobs left to do
  have hworks {room : Option Nat} {P : Pause → Prop} (hm : m.running ≠ none) (hn : n.running ≠ none)
      (hw : Works room P m.playback n.playback) (hjobs : ∀ job ∈ n.jobs, job ∈ m.jobs) : Seated n :=
    ⟨h.tasks_lodges hw.tasks hscopes, hagenda hm hn,
      fun job hjob ↦ (h.jobs job (hjobs job hjob)).carry hscopes⟩
  cases hb with
  | @take p id rest task hq htask hwhole =>
    refine ⟨fun t ht e he ↦ ?_, h.tasks task (Orderly.task?_eq htask).1, fun job hjob ↦ ?_⟩
    · rcases mem_modifyTask ht with ⟨old, -, -, rfl⟩ | ⟨hold, -⟩
      · cases he
      · exact h.tasks t hold e he
    · obtain ⟨x, -, rfl⟩ := List.mem_map.mp hjob
      trivial
  | @drop p id rest hq hgone =>
    refine ⟨fun t ht e he ↦ (h.tasks t ?_ e he).carry hscopes, hidle rfl, fun _ hjob ↦ by cases hjob⟩
    rw [resting, runTask] at ht
    split at ht
    · exact ht
    next task htask =>
      rw [if_pos (hgone task htask)] at ht
      exact List.mem_of_mem_filter ht
  | look =>
    exact hworks (by simp) (by simp) (show Works none _ _ _ from works_revisit lasting_true trivial)
      fun job hjob ↦ List.mem_cons_of_mem _ hjob
  | @walk p task action scope step rest hfree hagenda' =>
    refine ⟨h.tasks, hagenda (by simp) (by simp), fun job hjob ↦ ?_⟩
    rw [List.mem_singleton.mp hjob]
    exact h.agenda (.perform action scope step) (by simp [hagenda'])
  | begin _ _ hother =>
    exact hworks (by simp) (by simp)
      (show Works none _ _ _ from works_errand lasting_true _ hother fun _ _ ↦ trivial) (by simp)
  | skip => exact ⟨h.tasks, h.agenda, fun job hjob ↦ h.jobs job (List.mem_cons_of_mem _ hjob)⟩
  | cue =>
    exact hworks (by simp) (by simp) (works_cue lasting_true _ _ fun _ _ _ _ ↦ trivial)
      fun job hjob ↦ List.mem_cons_of_mem _ hjob
  | @close p task scope scopes jobs =>
    have hclosed : Works (some scope) (fun _ ↦ True) p (p.performCue .waitForAll scope scopes none) :=
      works_performCue lasting_true .waitForAll none fun _ _ _ _ ↦ trivial
    exact hworks (by simp) (by simp) hclosed fun job hjob ↦ List.mem_cons_of_mem _ hjob
  | @block p task parts scope scopes step jobs hover =>
    have hopen : Works (some scope) (fun _ ↦ True) p
        ((p.note (.block parts) scope step).openWithin scope step) :=
      works_open (.block parts) scope step
    refine ⟨h.tasks_lodges hopen.tasks hscopes, hagenda (by simp) (by simp), fun job hjob ↦ ?_⟩
    rcases List.mem_append.mp hjob with hjob | hjob
    · have hinner := serial_mem_openWithin (p := p.note (.block parts) scope step) scope step
      rw [note_session] at hinner
      rcases List.mem_append.mp hjob with hjob | hjob
      · obtain ⟨part, -, rfl⟩ := List.mem_map.mp hjob
        exact hinner
      · rw [List.mem_singleton.mp hjob]
        exact hinner
    · exact (h.jobs job (List.mem_cons_of_mem _ hjob)).carry hscopes
  | @fork p task parts scope scopes step jobs hover =>
    have hopen : Works (some scope) (fun _ ↦ True) p
        ((p.note (.fork parts) scope step).openWithin scope step) :=
      works_open (.fork parts) scope step
    have hinner := serial_mem_openWithin (p := p.note (.fork parts) scope step) scope step
    rw [note_session] at hinner
    have hsession := spawn_session (p := (p.note (.fork parts) scope step).openWithin scope step)
      (some p.session.serial) (Playback.walk p.session.serial false parts)
    refine ⟨?_, hagenda (by simp) (by simp), fun job hjob ↦
      (h.jobs job (List.mem_cons_of_mem _ hjob)).carry hscopes⟩
    dsimp only at hscopes ⊢
    rw [hsession] at hscopes ⊢
    exact sits_spawn (h.tasks_lodges hopen.tasks hscopes) (sits_walk hinner false parts)
  | @finish p task hheld =>
    refine ⟨fun t ht e he ↦ ?_, hidle rfl, fun _ hjob ↦ by cases hjob⟩
    rcases mem_endTurn ht with ⟨hold, -⟩ | ⟨-, hsame, -⟩
    · exact (h.tasks t hold e he).carry hscopes
    · exact (h.agenda e (hsame ▸ he)).carry hscopes

end Machine

namespace Playback

variable {loses : Prop} {hand : List Ticket} {p : Playback} {task : Task}

/-- The entry of the running task holds nothing. -/
theorem tickets_endTask (outcome : Outcome)
    (hempty : ∀ t ∈ p.tasks, t.id = task.id → t.pauses = [] ∧ t.agenda = []) :
    (p.endTask task outcome).tasks.flatMap Task.tickets = p.tasks.flatMap Task.tickets :=
  flatMap_endTask Task.tickets fun t ht he ↦ by simp [Task.tickets, hempty t ht he]

theorem handles_abandonAll (pauses : List Pause) :
    Handles loses hand hand p (p.abandonAll pauses) := by
  have hst := p.abandonAll_stirs pauses
  obtain ⟨taps, hsession⟩ := p.abandonAll_session pauses
  refine .of_stirs hst ?_
  rw [hsession]
  rfl

/-- At the end of its turn a task puts back what it holds; only if it has failed, that is lost. -/
theorem handles_endTurn (ho : p.Orderly p.session.moment (some task.id) 0)
    (hloses : p.turn.failed = true → loses) (hfree : p.turn.isFree = true → p.turn.agenda = []) :
    Handles loses hand hand p (p.endTurn task) := by
  have hempty : ∀ t ∈ p.tasks, t.id = task.id → t.pauses = [] ∧ t.agenda = [] :=
    fun t ht he ↦ ho.empty t ht (by rw [he])
  have hended (outcome : Outcome) :
      ((p.updateTurn fun _ ↦ .none).endTask task outcome).tickets = p.tasks.flatMap Task.tickets := by
    have hnone : ((p.updateTurn fun _ ↦ .none).endTask task outcome).turn = .none := rfl
    rw [tickets, hnone]
    exact tickets_endTask (p := p.updateTurn fun _ ↦ .none) outcome hempty
  rw [endTurn]
  dsimp only
  split
  next hf =>
    refine Handles.trans ?_ (handles_abandonAll (p := (p.updateTurn fun _ ↦ .none).endTask task .failed) _)
    rw [Handles, hended]
    refine .head (.order ?_) (Session.handling_lose (hloses hf)
      (p.turn.pauses.flatMap Pause.tickets ++ p.turn.agenda.flatMap Errand.tickets))
    refine List.perm_iff_count.mpr fun t ↦ ?_
    simp only [tickets, List.count_append]
    omega
  next hf =>
    split
    next hnil =>
      have hagenda := hfree (by simp [Turn.isFree, hnil, hf])
      have hpauses : p.turn.pauses = [] := by simpa using hnil
      refine .of_perm rfl (Nat.le_refl _) ?_
      rw [hended, tickets, hpauses, hagenda]
      exact .refl _
    next =>
      obtain ⟨entry, hentry, hid⟩ := List.mem_map.mp (ho.running_mem task.id rfl)
      obtain ⟨hpauses, hagenda⟩ := hempty entry hentry hid
      have hback : Handles loses hand hand p ((p.updateTurn fun _ ↦ .none).modifyTask task.id
          (fun t ↦ { t with agenda := p.turn.agenda, pauses := p.turn.pauses })) := by
        refine .of_perm rfl (Nat.le_refl _) (List.perm_iff_count.mpr fun t ↦ ?_)
        have hcount := count_modifyTask (p := p.updateTurn fun _ ↦ .none)
          (g := fun t ↦ { t with agenda := p.turn.agenda, pauses := p.turn.pauses })
          Task.tickets t ho.nodup_ids hentry
        rw [hid] at hcount
        simp only [tickets, updateTurn, Turn.none, Task.tickets, hpauses, hagenda, modifyTask,
          List.flatMap_nil, List.nil_append, List.count_append, List.append_nil,
          List.count_nil] at hcount ⊢
        omega
      split
      · refine hback.trans ?_
        rw [wake]
        split
        · exact .refl hand _
        · exact .of_perm rfl (Nat.le_refl _) (.refl _)
      · exact hback

/-- What an aborted task holds is lost when it would have its turn. -/
theorem handles_removeTask (hloses : loses) (id : Nat) :
    Handles loses hand hand p (p.removeTask id) := by
  have hparts : (p.tasks.filter (fun t ↦ t.id != id) ++ p.tasks.filter (fun t ↦ !(t.id != id))).Perm
      p.tasks := List.filter_append_perm _ p.tasks
  have htickets := hparts.flatMap_right Task.tickets
  refine .head (.order (List.perm_iff_count.mpr fun t ↦ ?_)) (Session.handling_lose hloses
    ((p.tasks.filter (fun t ↦ !(t.id != id))).flatMap Task.tickets))
  have hcount := htickets.count_eq t
  simp only [tickets, removeTask, List.flatMap_append, List.count_append] at hcount ⊢
  omega

end Playback

namespace Machine

open Playback

variable {m n : Machine}

/-- Tickets may be lost: the running task has failed, or a task has been aborted. -/
def Loses (m : Machine) : Prop :=
  m.playback.turn.failed = true ∨ ∃ t ∈ m.playback.tasks, t.aborted = true

/-- From one beat to the next, tickets are handled by single operations. -/
theorem Beat.handles {loses : Prop} (hs : Sound m) (hc : Cast m) (h : Seated m)
    (hloses : m.Loses → loses) (hgoes : m.running ≠ none → m.playback.session.cancelled = true → loses)
    (hb : Beat m n) : Handles loses [] [] m.playback n.playback := by
  have hset (p : Playback) (rest : List Errand) (loses : Prop) {hand hand' : List Ticket}
      (ha : (hand ++ p.turn.agenda.flatMap Errand.tickets).Perm
        (hand' ++ rest.flatMap Errand.tickets)) :
      Handles loses hand hand' p (p.updateTurn (fun t ↦ { t with agenda := rest })) := by
    refine .of_perm rfl (Nat.le_refl _) (List.perm_iff_count.mpr fun t ↦ ?_)
    have hcount := ha.count_eq t
    simp only [tickets, updateTurn, List.count_append] at hcount ⊢
    omega
  cases hb with
  | @take p id rest task hq htask =>
    have hqueue : Handles loses [] [] p { p with queue := rest } :=
      .of_perm rfl (Nat.le_refl _) (.refl _)
    exact hqueue.trans (handles_begun hs.orderly.nodup_ids (Orderly.task?_eq htask).1
      (hs.orderly.idle rfl))
  | @drop p id rest hq hgone =>
    have hqueue : Handles loses [] [] p { p with queue := rest } :=
      .of_perm rfl (Nat.le_refl _) (.refl _)
    refine hqueue.trans ?_
    rw [resting, runTask]
    split
    · exact .refl [] _
    next task htask =>
      have haborted := hgone task htask
      rw [if_pos haborted]
      exact handles_removeTask (hloses (.inr ⟨task, (Orderly.task?_eq htask).1, haborted⟩)) id
  | @look p task pause jobs =>
    have hawaits : p.Awaits (pause :: looks jobs) := (hc.running (by simp)).awaits
    exact handles_revisit (hgoes (by simp)) hawaits
  | @walk p task action scope step rest hfree hagenda =>
    exact hset p rest _ (by simp [hagenda, Errand.tickets])
  | @begin p task errand rest hfree hagenda hother =>
    have hsits := h.agenda errand (by simp [hagenda])
    have htaken : Handles loses [] errand.tickets p
        (p.updateTurn (fun t ↦ { t with agenda := rest })) := hset p rest _ (by simp [hagenda])
    refine htaken.trans ?_
    have hbegun : Handles loses (errand.tickets ++ []) [] _ _ :=
      handles_begin (p := p.updateTurn (fun t ↦ { t with agenda := rest })) (hgoes (by simp))
        hother fun scope tally guarded ending he ↦ by
          rw [he] at hsits
          exact hsits
    rwa [List.append_nil] at hbegun
  | skip => exact .refl [] _
  | @cue p task cue scope scopes step jobs hover =>
    have hscope := h.jobs (.perform (.cue cue) scope scopes step) (by simp)
    rw [← note_session (.cue cue) scope step] at hscope
    exact (handles_note _ _ _).trans (handles_performCue hscope cue scopes step)
  | @block p task parts scope scopes step jobs hover =>
    have hscope := h.jobs (.perform (.block parts) scope scopes step) (by simp)
    rw [← note_session (.block parts) scope step] at hscope
    exact (handles_note _ _ _).trans (handles_openWithin hscope step)
  | @fork p task parts scope scopes step jobs hover =>
    have hscope := h.jobs (.perform (.fork parts) scope scopes step) (by simp)
    rw [← note_session (.fork parts) scope step] at hscope
    exact ((handles_note _ _ _).trans (handles_openWithin hscope step)).trans
      (handles_spawn_nil (tickets_walk _ _ _) _)
  | @close p task scope scopes jobs =>
    exact handles_performCue (h.jobs (.close scope scopes) (by simp)) .waitForAll scopes none
  | @finish p task hheld =>
    refine handles_endTurn hs.orderly (fun hf ↦ hloses (.inl hf)) fun hfree ↦ hheld.resolve_left (by simp [hfree])

end Machine

end Storyline
