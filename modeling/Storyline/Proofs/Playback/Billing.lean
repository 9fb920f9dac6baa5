import Storyline.Proofs.Playback.Covers
import Storyline.Proofs.Playback.Titles

/-!
# The title on screen

A title that has been taken up is on screen until it comes to its end, or another
one does that has its text and was waiting already.  A title that waits is known
by the task that performs it and by the number that it is parked under, so its
waiting can be followed throughout a run.
-/

namespace Storyline

namespace Machine

open Playback

def title (m : Machine) : Option String := m.playback.title

def titles (m : Machine) : List String := m.playback.titles

/-- The title that the next beat takes up. -/
def herald (m : Machine) : Option String :=
  if m.playback.isOver then none else m.jobs.head?.bind Job.title?

/-- The showing of a title is suspended. -/
def Billed (w : Titling) (m : Machine) : Prop := Holds w.task (Pause.Bills w.park w.text) m

/-- The session goes on, and every title that waits to be taken away is parked by
a task that performs actions. -/
structure Titled (m : Machine) : Prop where
  cast : Cast m
  running : m.playback.session.cancelled = false
  whole : ∀ t ∈ m.playback.tasks, t.aborted = false
  distinct : Distinct m
  errands : ∀ t ∈ m.playback.tasks, ∀ e ∈ t.agenda, e.Sparing
  agenda : ∀ e ∈ m.playback.turn.agenda, e.Sparing
  waiting : ∀ t ∈ m.playback.tasks, ∀ x ∈ t.pauses, x.Sparing ∨
    x.park?.isSome = true ∧ (∀ q ∈ t.pauses, q.Yields) ∧ ∀ e ∈ t.agenda, e.Yields
  turning : ∀ x ∈ m.playback.turn.pauses, x.Sparing ∨ x.park?.isSome = true ∧ Plays m.playback
  blank : m.titles = [] → m.title = none

section

variable {p q : Playback} {m n : Machine} {w : Titling} {text : String}

theorem bills_of_not_sparing {x : Pause} (h : ¬x.Sparing) (hpark : x.park?.isSome = true) :
    ∃ park text, x.Bills park text := by
  obtain ⟨text, htext⟩ := not_forall.mp h
  obtain ⟨park, hpark⟩ := Option.isSome_iff_exists.mp hpark
  exact ⟨park, text, hpark, Ending.exists_of_clears (by simpa using htext)⟩

theorem not_sparing_of_bills {x : Pause} {park : Nat} (h : x.Bills park text) : ¬x.Sparing := by
  obtain ⟨-, ticket, hending⟩ := h
  intro hsparing
  have := hsparing text
  simp [hending, Ending.clears] at this

/-- A title that is suspended is so in a task that performs actions. -/
theorem Titled.keeps (h : Titled m) (hw : Billed w m) :
    Keeps w.task (Pause.Bills w.park w.text) m := by
  rcases hw with ⟨t, ht, hid, x, hx, hbills⟩ | ⟨task, hrun, hid, x, hx, hbills⟩
  · obtain ⟨-, hp, ha⟩ := (h.waiting t ht x hx).resolve_left (not_sparing_of_bills hbills)
    exact .waits ht hid hp ha hx hbills
  · obtain ⟨-, hplays⟩ := (h.turning x hx).resolve_left (not_sparing_of_bills hbills)
    exact .turns hrun hid hplays hx hbills

/-! ## What a beat does to titles -/

theorem herald_eq_none (h : ∀ job, m.jobs.head? = some job → job.title? = none) :
    m.herald = none := by
  unfold herald
  split
  · rfl
  · cases hjob : m.jobs.head? with
    | none => rfl
    | some job => exact h job hjob

/-- A look that finds a waiting title at its end takes its text away. -/
theorem Ends.title {id park : Nat} (hc : m.playback.session.cancelled = false)
    (h : Ends id (Pause.Bills park text) m n) : n.title = m.title.filter (fun t ↦ t ≠ text) := by
  cases h with
  | @intro p q task pause jobs ran hid hbills hgoes hlook =>
      obtain ⟨-, ticket, hending⟩ := hbills
      have htitle := (p.aside.spares_look pause.wait).title
      have hsettings := (p.aside.looked_look pause.wait).settings
      obtain rfl := look_ran (p := p.aside) hc hlook
      rw [hlook] at htitle hsettings
      have hfinish := title_clearTelop text ticket ((Session.cancelled_eq hsettings).trans hc)
      rw [← hending, htitle] at hfinish
      exact hfinish

/-- After its end a title is not parked any more. -/
theorem Ends.gone {id park : Nat} (hc : Cast m) (hd : Distinct m)
    (h : Ends id (Pause.Bills park text) m n) :
    park < m.playback.session.serial ∧ park ∉ n.playback.parks := by
  cases h with
  | @intro p q task pause jobs ran hid hbills hgoes hlook =>
      have hawaits : p.Awaits (pause :: looks jobs) := (hc.running (by simp)).awaits
      obtain ⟨done, hdone⟩ := hawaits.resolve_left (by simp [hgoes])
      have hdone : p.turn.pauses = pause :: (looks jobs ++ done) := hdone
      have hst := p.aside.stirs_look pause.wait
      rw [hlook] at hst
      have hleft : (if ran then q.finish pause.ending else q).parks = p.aside.parks := by
        have hended : p.aside.Stirs (if ran then q.finish pause.ending else q) := by
          split
          · exact hst.trans (q.stirs_finish pause.ending)
          · exact hst
        simp only [parks, hended.pauses, hended.tasks]
      have hsum : p.parks.count park = p.aside.parks.count park + 1 := by
        have hown : pause.parks = [park] := by rw [Pause.parks, hbills.1, Option.toList_some]
        simp only [parks, aside, updateTurn, hdone, List.tail_cons, List.flatMap_cons, hown,
          List.count_append, List.count_singleton_self]
        omega
      have hone : p.parks.count park ≤ if park < p.session.serial then 1 else 0 := hd park
      split at hone
      next hpast =>
        refine ⟨hpast, ?_⟩
        change park ∉ (if ran then q.finish pause.ending else q).parks
        rw [hleft]
        exact List.count_eq_zero.mp (by omega)
      next => omega

/-- A look at a pause has nothing to do with titles, or finds a waiting one at its
end. -/
theorem Titled.look {task : Task} {pause : Pause} {jobs : List Job}
    (h : Titled ⟨p, some task, .look pause :: jobs⟩) :
    Spares p (p.revisit pause) ∨
      ∃ w, Billed w ⟨p, some task, .look pause :: jobs⟩ ∧
        Ends w.task (Pause.Bills w.park w.text) ⟨p, some task, .look pause :: jobs⟩
          ⟨p.revisit pause, some task, jobs⟩ := by
  by_cases hf : p.turn.failed = true
  · rw [revisit_failed hf]
    exact .inl (.refl p)
  have hgoes : p.turn.failed = false := by simpa using hf
  have hawaits : p.Awaits (pause :: looks jobs) := (h.cast.running (by simp)).awaits
  obtain ⟨done, hdone⟩ := hawaits.resolve_left hf
  have hmem : pause ∈ p.turn.pauses := hdone ▸ List.mem_cons_self
  have haside : Spares p p.aside := .of_turn fun t x hx ↦ List.mem_of_mem_tail hx
  rw [revisit_eq hgoes]
  by_cases hends : ∃ q ran, p.aside.look pause.wait = (q, .ends ran)
  · by_cases hsparing : pause.Sparing
    · exact .inl (haside.trans (spares_suspend hsparing))
    obtain ⟨park, text, hbills⟩ := bills_of_not_sparing hsparing
      ((h.turning pause hmem).resolve_left hsparing).1
    obtain ⟨q, ran, hlook⟩ := hends
    refine .inr ⟨⟨task.id, park, text⟩, .inr ⟨task, rfl, rfl, pause, hmem, hbills⟩, ?_⟩
    rw [suspend_of_ends hlook]
    exact .intro rfl hbills hgoes hlook
  · left
    have hlook : ∀ q ran, p.aside.look pause.wait ≠ (q, .ends ran) :=
      fun q ran hq ↦ hends ⟨q, ran, hq⟩
    refine ⟨title_suspend_of_goes hlook, ?_, fun x hx ↦ .inr ?_, [], ?_, by simp⟩
    · exact congrArg (List.filterMap _) suspend_tasks.2
    · rcases suspend_left hx with hx | hbecomes
      · exact ⟨x, List.mem_of_mem_tail hx, rfl, rfl⟩
      · exact ⟨pause, hmem, hbecomes.park, hbecomes.ending⟩
    · rw [suspend_tasks.1, List.append_nil]
      rfl

/-- A task that takes up a title performs actions. -/
theorem plays_of_herald (hc : Cast m) (hm : m.running ≠ none) (h : m.herald = some text) :
    Plays m.playback := by
  obtain ⟨p, running, jobs⟩ := m
  cases jobs with
  | nil => simp [herald] at h
  | cons job jobs =>
      have hcasting : Casting p (job :: jobs) := hc.running hm
      refine (hcasting.plays ?_).1
      unfold herald at h
      split at h
      · cases h
      · cases job with
        | look pause => cases h
        | _ => rfl

/-- A title that is taken up. -/
structure Heralds (text : String) (m n : Machine) : Prop where
  titles : n.titles = m.titles ++ [text]
  tasks : n.playback.tasks = m.playback.tasks
  serial : m.playback.session.serial < n.playback.session.serial
  pauses : ∀ x ∈ n.playback.turn.pauses, x ∈ m.playback.turn.pauses ∨
    x.Bills m.playback.session.serial text
  title : (n.title = some text ∧
    ∃ x ∈ n.playback.turn.pauses, x.Bills m.playback.session.serial text) ∨
      n.title = none ∧ n.playback.turn.pauses = m.playback.turn.pauses

/-- Within a turn a title is taken up, a waiting one comes to its end, or nothing
has to do with titles. -/
theorem Beat.turnTitle (hb : Beat m n) (hm : m.running ≠ none) (hn : n.running ≠ none)
    (h : Titled m) :
    (m.herald = none ∧ (Spares m.playback n.playback ∨
      ∃ w, Billed w m ∧ Ends w.task (Pause.Bills w.park w.text) m n)) ∨
      ∃ text, m.herald = some text ∧ Heralds text m n := by
  have hset : ∀ (p : Playback) (rest : List Errand),
      Spares p (p.updateTurn fun t ↦ { t with agenda := rest }) :=
    fun p rest ↦ .of_turn fun _ ↦ List.Subset.refl _
  cases hb with
  | take | drop => exact absurd rfl hm
  | look => exact .inl ⟨herald_eq_none (by simp [Job.title?]), h.look⟩
  | walk => exact .inl ⟨herald_eq_none (by simp), .inl (hset _ _)⟩
  | @begin p task errand rest hfree hfirst hother =>
      have hsparing : errand.Sparing := h.agenda errand (hfirst ▸ List.mem_cons_self)
      exact .inl ⟨herald_eq_none (by simp), .inl ((hset p rest).trans (spares_begin hother hsparing))⟩
  | skip hover => exact .inl ⟨if_pos hover, .inl (.refl _)⟩
  | @cue p task cue scope scopes step jobs hover =>
      have hherald : herald ⟨p, some task, .perform (.cue cue) scope scopes step :: jobs⟩ = cue.title? :=
        if_neg (by simp [hover])
      rw [hherald]
      cases hcue : cue.title? with
      | none =>
          have hnote : Spares p (p.note (.cue cue) scope step) := spares_note scope step hcue
          exact .inl ⟨rfl, .inl (hnote.trans (spares_performCue _ _ _ hcue))⟩
      | some text =>
          obtain rfl : cue = .telop text := by
            cases cue with
            | telop other => rw [Option.some.inj hcue]
            | _ => cases hcue
          have hperform := performCue_telop (p := p.note (.cue (.telop text)) scope step) text scope
            scopes step ((note_isOver (p := p) _ _ _).trans hover)
          obtain ⟨htitles, htasks, hserial, hpauses, htitle⟩ := hperform
          rw [note_session] at hserial
          rw [note_session, note_turn] at hpauses htitle
          refine .inr ⟨text, rfl, ?_, ?_, hserial, hpauses, htitle⟩
          · exact htitles.trans (titles_note (.cue (.telop text)) scope step hover)
          · refine htasks.trans ?_
            unfold note
            split <;> rfl
  | block =>
      exact .inl ⟨herald_eq_none (by simp [Job.title?, Action.title?]),
        .inl ((spares_note _ _ rfl).trans (spares_openWithin _ _))⟩
  | fork =>
      exact .inl ⟨herald_eq_none (by simp [Job.title?, Action.title?]),
        .inl (((spares_note _ _ rfl).trans (spares_openWithin _ _)).trans
          (spares_spawn _ (walk_sparing _ _ _)))⟩
  | @close p task scope scopes =>
      have hclose : Spares p (p.performCue .waitForAll scope scopes none) :=
        spares_performCue _ _ _ rfl
      exact .inl ⟨herald_eq_none (by simp [Job.title?]), .inl hclose⟩
  | finish => exact absurd rfl hn

/-- A look that ends a wait leaves the other pauses and the tasks as they are. -/
theorem Ends.left {id : Nat} {P : Pause → Prop} (h : Ends id P m n) :
    n.playback.turn.pauses ⊆ m.playback.turn.pauses ∧ n.playback.tasks = m.playback.tasks ∧
      n.titles = m.titles := by
  cases h with
  | @intro p q task pause jobs ran hid hP hgoes hlook =>
      have hst := p.aside.stirs_look pause.wait
      rw [hlook] at hst
      have hended : p.aside.Stirs (if ran then q.finish pause.ending else q) := by
        split
        · exact hst.trans (q.stirs_finish pause.ending)
        · exact hst
      refine ⟨fun x hx ↦ ?_, hended.tasks, congrArg (List.filterMap _) hended.dispatches⟩
      have hx : x ∈ (if ran then q.finish pause.ending else q).turn.pauses := hx
      rw [hended.pauses] at hx
      exact List.mem_of_mem_tail hx

/-- The pauses that a beat leaves take no title away, or did so before, or are of
the title that it takes up; new tasks have nothing to do with titles. -/
theorem Beat.left (hb : Beat m n) (hm : m.running ≠ none) (hn : n.running ≠ none) (h : Titled m) :
    (∀ x ∈ n.playback.turn.pauses, x.Sparing ∨
      (∃ y ∈ m.playback.turn.pauses, x.park? = y.park? ∧ x.ending = y.ending) ∨
        ∃ text, m.herald = some text ∧ x.Bills m.playback.session.serial text) ∧
      ∃ new, n.playback.tasks = m.playback.tasks ++ new ∧
        ∀ t ∈ new, t.pauses = [] ∧ ∀ e ∈ t.agenda, e.Sparing := by
  rcases hb.turnTitle hm hn h with ⟨-, hspares | ⟨w, -, hends⟩⟩ | ⟨text, hherald, htaken⟩
  · exact ⟨fun x hx ↦ (hspares.pauses x hx).imp_right .inl, hspares.tasks⟩
  · obtain ⟨hpauses, htasks, -⟩ := hends.left
    exact ⟨fun x hx ↦ .inr (.inl ⟨x, hpauses hx, rfl, rfl⟩), [],
      by rw [htasks, List.append_nil], by simp⟩
  · refine ⟨fun x hx ↦ .inr ?_, [], by rw [htaken.tasks, List.append_nil], by simp⟩
    exact (htaken.pauses x hx).imp (fun hx ↦ ⟨x, hx, rfl, rfl⟩) fun hx ↦ ⟨text, hherald, hx⟩

/-- The titles of a run are never taken back. -/
theorem Beat.titles (hb : Beat m n) (h : Titled m) : n.titles = m.titles ++ m.herald.toList := by
  have hsame : m.herald = none → n.titles = m.titles → n.titles = m.titles ++ m.herald.toList := by
    intro hherald htitles
    rw [hherald, Option.toList_none, List.append_nil, htitles]
  have hwithin : m.running ≠ none → n.running ≠ none → n.titles = m.titles ++ m.herald.toList := by
    intro hm hn
    rcases hb.turnTitle hm hn h with ⟨hherald, hspares | ⟨w, -, hends⟩⟩ | ⟨text, hherald, htaken⟩
    · exact hsame hherald hspares.titles
    · exact hsame hherald hends.left.2.2
    · rw [hherald, Option.toList_some]
      exact htaken.titles
  cases hb with
  | take => exact hsame (herald_eq_none (by simp [resting])) rfl
  | @drop p id rest hq hgone =>
      refine hsame (herald_eq_none (by simp [resting])) ?_
      rw [runTask_gone (p := p) h.whole hgone]
      rfl
  | finish =>
      exact hsame (herald_eq_none (by simp)) (congrArg (List.filterMap _) (endTurn_dispatches _).1)
  | _ => exact hwithin (by simp) (by simp)

/-- From one beat to the next the title on screen stays, or is taken away by a
waiting title of its text, or makes way for the next one. -/
theorem Beat.title (hb : Beat m n) (h : Titled m) :
    (m.herald = none ∧ (n.title = m.title ∨
      ∃ w, Billed w m ∧ Ends w.task (Pause.Bills w.park w.text) m n)) ∨
      ∃ text task, m.herald = some text ∧ m.running = some task ∧
        m.playback.session.serial < n.playback.session.serial ∧
        ((n.title = some text ∧ Billed ⟨task.id, m.playback.session.serial, text⟩ n) ∨
          n.title = none ∧ n.playback.parks = m.playback.parks) := by
  have hwithin : ∀ task, m.running = some task → n.running = m.running →
      (m.herald = none ∧ (n.title = m.title ∨
        ∃ w, Billed w m ∧ Ends w.task (Pause.Bills w.park w.text) m n)) ∨
        ∃ text task, m.herald = some text ∧ m.running = some task ∧
          m.playback.session.serial < n.playback.session.serial ∧
          ((n.title = some text ∧ Billed ⟨task.id, m.playback.session.serial, text⟩ n) ∨
            n.title = none ∧ n.playback.parks = m.playback.parks) := by
    intro task hm hn
    have hn' : n.running = some task := hn.trans hm
    rcases hb.turnTitle (by simp [hm]) (by simp [hn']) h with
      ⟨hherald, hspares | hends⟩ | ⟨text, hherald, htaken⟩
    · exact .inl ⟨hherald, .inl hspares.title⟩
    · exact .inl ⟨hherald, .inr hends⟩
    · refine .inr ⟨text, task, hherald, hm, htaken.serial, htaken.title.imp ?_ ?_⟩
      · exact fun ⟨htitle, hbilled⟩ ↦ ⟨htitle, .inr ⟨task, hn', rfl, hbilled⟩⟩
      · rintro ⟨htitle, hpauses⟩
        exact ⟨htitle, by simp only [parks, hpauses, htaken.tasks]⟩
  cases hb with
  | take => exact .inl ⟨herald_eq_none (by simp [resting]), .inl rfl⟩
  | @drop p id rest hq hgone =>
      refine .inl ⟨herald_eq_none (by simp [resting]), .inl ?_⟩
      rw [runTask_gone (p := p) h.whole hgone]
      rfl
  | @finish p task =>
      obtain ⟨taps, hend⟩ := (endTurn_session (p := p) task).1
      refine .inl ⟨herald_eq_none (by simp), .inl ?_⟩
      change (p.endTurn task).session.stage.telop = p.session.stage.telop
      rw [hend]
  | _ => exact hwithin _ rfl rfl

/-- A title that is suspended was so before, or has just been taken up. -/
theorem Beat.billed (hb : Beat m n) (h : Titled m) (hw : Billed w n) :
    Billed w m ∨ ∃ task, m.herald = some w.text ∧ m.running = some task ∧
      w = ⟨task.id, m.playback.session.serial, w.text⟩ := by
  have hwithin : ∀ task, m.running = some task → n.running = m.running →
      Billed w m ∨ ∃ task, m.herald = some w.text ∧ m.running = some task ∧
        w = ⟨task.id, m.playback.session.serial, w.text⟩ := by
    intro task hm hn
    obtain ⟨hpauses, new, hnew, hadded⟩ := hb.left (by simp [hm]) (by simp [hn, hm]) h
    rcases hw with ⟨t, ht, hid, x, hx, hbills⟩ | ⟨other, hrun, hid, x, hx, hbills⟩
    · rcases List.mem_append.mp (hnew ▸ ht) with ht | ht
      · exact .inl (.inl ⟨t, ht, hid, x, hx, hbills⟩)
      · rw [(hadded t ht).1] at hx
        cases hx
    · obtain rfl : task = other := Option.some.inj (hm.symm.trans (hn.symm.trans hrun))
      rcases hpauses x hx with hsparing | ⟨y, hy, hpark, hending⟩ | ⟨text, hherald, hown⟩
      · exact absurd hsparing (not_sparing_of_bills hbills)
      · exact .inl (.inr ⟨task, hm, hid, y, hy, hpark.symm.trans hbills.1,
          hbills.2.imp fun ticket ht ↦ hending.symm.trans ht⟩)
      · obtain ⟨hpark, ticket, hending⟩ := hbills
        obtain ⟨hpark', ticket', hending'⟩ := hown
        obtain rfl : w.text = text := (Ending.clearTelop.inj (hending.symm.trans hending')).1
        have hpark : w.park = m.playback.session.serial :=
          Option.some.inj (hpark.symm.trans hpark')
        refine .inr ⟨task, hherald, hm, ?_⟩
        rw [hid, ← hpark]
  cases hb with
  | take hq htask => exact .inl (hw.of_take (Orderly.task?_eq htask).1)
  | @drop p id rest hq hgone =>
      rw [runTask_gone (p := p) h.whole hgone] at hw
      exact .inl hw
  | finish => exact .inl hw.of_finish
  | _ => exact hwithin _ rfl rfl

/-- A task that has a waiting title performs actions, in its turn and afterwards. -/
theorem Beat.titled (hs : Sound m) (hb : Beat m n) (h : Titled m) : Titled n := by
  have hcast := hb.cast h.cast
  have hrunning := (Session.cancelled_eq hb.settings).trans h.running
  have hwhole := hb.whole h.whole
  have hdistinct := h.distinct.of_reparks (hb.reparks hs h.cast h.whole)
  have hblank : n.titles = [] → n.title = none := by
    intro hn
    have htitles := hb.titles h
    rw [hn] at htitles
    obtain ⟨hbefore, hherald⟩ := List.append_eq_nil_iff.mp htitles.symm
    rcases hb.title h with ⟨-, hsame | ⟨w, -, hends⟩⟩ | ⟨text, -, htext, -⟩
    · exact hsame.trans (h.blank hbefore)
    · rw [hends.title h.running, h.blank hbefore, Option.filter_none]
    · rw [htext] at hherald
      cases hherald
  have hb' := hb
  have hwithin : ∀ task, m.running = some task → n.running = m.running → Titled n := by
    intro task hm hn
    have hm' : m.running ≠ none := by simp [hm]
    have hn' : n.running ≠ none := by simp [hn, hm]
    obtain ⟨hpauses, new, hnew, hadded⟩ := hb'.left hm' hn' h
    refine ⟨hcast, hrunning, hwhole, hdistinct, fun t ht ↦ ?_,
      fun e he ↦ h.agenda e (hb'.agenda hm' hn' he), fun t ht ↦ ?_, fun x hx ↦ ?_, hblank⟩
    · rcases List.mem_append.mp (hnew ▸ ht) with ht | ht
      · exact h.errands t ht
      · exact (hadded t ht).2
    · rcases List.mem_append.mp (hnew ▸ ht) with ht | ht
      · exact h.waiting t ht
      · simp [(hadded t ht).1]
    · rcases hpauses x hx with hsparing | ⟨y, hy, hpark, hending⟩ | ⟨text, hherald, hown⟩
      · exact .inl hsparing
      · refine (h.turning y hy).imp (fun hy text ↦ hending ▸ hy text) fun hturn ↦ ?_
        obtain ⟨hy, hplays⟩ := hturn
        exact ⟨hpark ▸ hy, hb'.plays hm' hn' (h.cast.running hm').awaits hplays⟩
      · have hplays := plays_of_herald h.cast hm' hherald
        refine .inr ⟨by simp [hown.1], ?_⟩
        exact hb'.plays hm' hn' (h.cast.running hm').awaits hplays
  cases hb with
  | @take p id rest task hq htask =>
      obtain ⟨hmem, -⟩ := Orderly.task?_eq htask
      refine ⟨hcast, hrunning, hwhole, hdistinct, fun t ht ↦ ?_, h.errands task hmem, fun t ht ↦ ?_,
        fun x hx ↦ ?_, hblank⟩
      · rcases mem_modifyTask ht with ⟨old, -, -, rfl⟩ | ⟨hold, -⟩
        · simp
        · exact h.errands t hold
      · rcases mem_modifyTask ht with ⟨old, -, -, rfl⟩ | ⟨hold, -⟩
        · simp
        · exact h.waiting t hold
      · refine (h.waiting task hmem x hx).imp_right fun hwait ↦ ?_
        obtain ⟨hpark, hp, ha⟩ := hwait
        exact ⟨hpark, hp, ha, by simp [begun, updateTurn, Turn.ofTask]⟩
  | @drop p id rest hq hgone =>
      rw [runTask_gone (p := p) h.whole hgone] at hcast hrunning hwhole hdistinct hblank ⊢
      exact ⟨hcast, hrunning, hwhole, hdistinct, h.errands, h.agenda, h.waiting,
        fun x hx ↦ (h.turning x hx).imp_right fun hturn ↦
          ⟨hturn.1, hturn.2.pauses, hturn.2.agenda, hturn.2.failed⟩, hblank⟩
  | @finish p task =>
      have hidle : (p.endTurn task).turn = .none := (hb'.sound hs).orderly.idle rfl
      refine ⟨hcast, hrunning, hwhole, hdistinct, fun t ht ↦ ?_, fun e he ↦ ?_, fun t ht ↦ ?_,
        fun x hx ↦ ?_, hblank⟩
      · rcases mem_endTurn ht with ⟨hold, -⟩ | ⟨-, hagenda, -⟩
        · exact h.errands t hold
        · exact hagenda ▸ h.agenda
      · have he : e ∈ (p.endTurn task).turn.agenda := he
        rw [hidle] at he
        cases he
      · rcases mem_endTurn ht with ⟨hold, -⟩ | ⟨-, hagenda, hpauses, -⟩
        · exact h.waiting t hold
        · intro x hx
          refine (h.turning x (hpauses ▸ hx)).imp_right fun hturn ↦ ?_
          obtain ⟨hpark, hplays⟩ := hturn
          exact ⟨hpark, hpauses ▸ hplays.pauses, hagenda ▸ hplays.agenda⟩
      · have hx : x ∈ (p.endTurn task).turn.pauses := hx
        rw [hidle] at hx
        cases hx
  | _ => exact hwithin _ rfl rfl

/-! ## Whole runs -/

theorem Billed.mem_parks (h : Billed w m) : w.park ∈ m.playback.parks := by
  have hown : ∀ x : Pause, x.Bills w.park w.text → w.park ∈ x.parks :=
    fun x hx ↦ by simp [Pause.parks, hx.1]
  rcases h with ⟨t, ht, -, x, hx, hbills⟩ | ⟨task, -, -, x, hx, hbills⟩
  · exact List.mem_append_right _ (List.mem_flatMap.mpr
      ⟨t, ht, List.mem_flatMap.mpr ⟨x, hx, hown x hbills⟩⟩)
  · exact List.mem_append_left _ (List.mem_flatMap.mpr ⟨x, hx, hown x hbills⟩)

/-- What happens outside of turns has nothing to do with titles. -/
structure Untold (p q : Playback) : Prop where
  spares : Spares p q
  reparks : Reparks p q
  outcomes : p.outcomes ⊆ q.outcomes
  outOfTime : p.session.OutOfTime → q.session.OutOfTime

theorem untold_later {time : Nat} {queue : List Nat} (hle : p.session.now ≤ time) :
    Untold p { p with session := { p.session with now := time }, queue := queue } where
  spares := ⟨rfl, rfl, fun x hx ↦ .inr ⟨x, hx, rfl, rfl⟩, [], (List.append_nil _).symm, by simp⟩
  reparks := .of_parks (Nat.le_refl _) rfl
  outcomes := List.Subset.refl _
  outOfTime := fun h ↦ outOfTime_later h hle

variable {acts : Playback → Playback → Prop}

/-- A step is a beat, or happens outside of turns. -/
theorem Step.beat_or_untold (hacts : ∀ p q, acts p q → Player.AtRest p → Meek p q ∧ Untold p q)
    (hs : Sound m) (hstep : Step acts m n) :
    Beat m n ∨ ∃ p q, m = resting p ∧ n = resting q ∧ Player.AtRest q ∧ Untold p q := by
  have hsound := hstep.sound (fun p q ha hp ↦ (hacts p q ha hp).1.rest) hs
  cases hstep with
  | beat hb => exact .inl hb
  | @act p q ha => exact .inr ⟨p, q, rfl, rfl, hsound.orderly, (hacts _ _ ha hs.orderly).2⟩
  | @move p time hq hnext =>
      obtain ⟨queue, hmoved⟩ := moveTo_eq time p
      refine .inr ⟨p, _, rfl, rfl, hsound.orderly, ?_⟩
      rw [hmoved]
      exact untold_later (Nat.le_of_lt (lt_nextDue hnext))
  | @rest p time hq hle hnext =>
      exact .inr ⟨p, _, rfl, rfl, hsound.orderly, untold_later hle⟩

theorem Untold.billed (h : Untold p q) (hw : Billed w (resting q)) : Billed w (resting p) := by
  obtain ⟨new, hnew, hadded⟩ := h.spares.tasks
  rcases hw with ⟨t, ht, hid, x, hx, hbills⟩ | ⟨task, hrun, -⟩
  · rcases List.mem_append.mp (hnew ▸ ht) with ht | ht
    · exact .inl ⟨t, ht, hid, x, hx, hbills⟩
    · rw [(hadded t ht).1] at hx
      cases hx
  · cases hrun

theorem Step.titled (hacts : ∀ p q, acts p q → Player.AtRest p → Meek p q ∧ Untold p q)
    (hs : Sound m) (h : Titled m) (hstep : Step acts m n) : Titled n := by
  have hmeek : ∀ p q, acts p q → Player.AtRest p → Meek p q := fun p q ha hp ↦ (hacts p q ha hp).1
  have hcast := hstep.cast hmeek hs h.cast
  have hrunning := hstep.running hmeek hs h.running
  have hwhole := hstep.whole hmeek hs h.whole
  rcases hstep.beat_or_untold hacts hs with hb | ⟨p, q, rfl, rfl, hq, huntold⟩
  · exact hb.titled hs h
  obtain ⟨new, hnew, hadded⟩ := huntold.spares.tasks
  have hidle : (resting q).playback.turn = .none := hq.idle rfl
  refine ⟨hcast, hrunning, hwhole, h.distinct.of_reparks huntold.reparks, fun t ht ↦ ?_, ?_,
    fun t ht ↦ ?_, ?_, fun hn ↦ ?_⟩
  · rcases List.mem_append.mp (hnew ▸ ht) with ht | ht
    · exact h.errands t ht
    · exact (hadded t ht).2
  · simp [hidle, Turn.none]
  · rcases List.mem_append.mp (hnew ▸ ht) with ht | ht
    · exact h.waiting t ht
    · simp [(hadded t ht).1]
  · simp [hidle, Turn.none]
  · exact huntold.spares.title.trans (h.blank (huntold.spares.titles.symm.trans hn))

/-- The titles of a run are never taken back, and without a new one those that are
on were on before. -/
theorem Step.titles (hacts : ∀ p q, acts p q → Player.AtRest p → Meek p q ∧ Untold p q)
    (hs : Sound m) (h : Titled m) (hstep : Step acts m n) :
    n.titles = m.titles ++ m.herald.toList ∧
      (m.herald = none → ∀ w, Billed w n → Billed w m) := by
  rcases hstep.beat_or_untold hacts hs with hb | ⟨p, q, rfl, rfl, hq, huntold⟩
  · refine ⟨hb.titles h, fun hnone w hw ↦ (hb.billed h hw).resolve_right ?_⟩
    rintro ⟨task, hsome, -⟩
    rw [hnone] at hsome
    cases hsome
  · have hnone : (resting p).herald = none := herald_eq_none (by simp [resting])
    refine ⟨?_, fun _ w hw ↦ huntold.billed hw⟩
    rw [hnone, Option.toList_none, List.append_nil]
    exact huntold.spares.titles

/-- Without a new title none comes on. -/
theorem Beat.untitled (h : Titled m) (hb : Beat m n) (hnone : m.herald = none)
    (htitle : m.title = none) : n.title = none := by
  rcases hb.title h with ⟨-, hsame | ⟨w, -, hends⟩⟩ | ⟨text, -, hsome, -⟩
  · exact hsame.trans htitle
  · rw [hends.title h.running, htitle, Option.filter_none]
  · cases hnone.symm.trans hsome

theorem Step.untitled (hacts : ∀ p q, acts p q → Player.AtRest p → Meek p q ∧ Untold p q)
    (hs : Sound m) (h : Titled m) (hstep : Step acts m n) (hnone : m.herald = none)
    (htitle : m.title = none) : n.title = none := by
  rcases hstep.beat_or_untold hacts hs with hb | ⟨p, q, rfl, rfl, -, huntold⟩
  · exact hb.untitled h hnone htitle
  · exact huntold.spares.title.trans htitle

/-- A title that has been taken up is on screen until it, or another one of its
text that has been waiting since, comes to its end. -/
inductive Shows (mates : Titling → Prop) (text : String) (m : Machine) : Prop
  | on (htitle : m.title = some text)
    (hkeeps : ∀ w, mates w → Keeps w.task (Pause.Bills w.park w.text) m)
    (hall : ∀ w, Billed w m → w.text = text → mates w)
  | off {w : Titling} (htitle : m.title = none) (hmate : mates w)
    (hpast : w.park < m.playback.session.serial) (hgone : w.park ∉ m.playback.parks)

variable {mates : Titling → Prop}

/-- A beat that takes up no title leaves the shown one on, unless it finds a mate
at its end. -/
theorem Beat.shows (hs : Sound m) (ht : Titled m) (hb : Beat m n) (hnone : m.herald = none)
    (hmates : ∀ w, mates w → w.text = text) (h : Shows mates text m) : Shows mates text n := by
  have hreparks := hb.reparks hs ht.cast ht.whole
  have htitle := (hb.title ht).resolve_right fun ⟨text, _, hsome, _⟩ ↦ by
    cases hnone.symm.trans hsome
  cases h with
  | @off w hoff hmate hpast hgone =>
      obtain ⟨hpast, hgone⟩ := gone_of_reparks hreparks hpast hgone
      exact .off (hb.untitled ht hnone hoff) hmate hpast hgone
  | on hon hkeeps hall =>
      by_cases hended : ∃ w, mates w ∧ Ends w.task (Pause.Bills w.park w.text) m n
      · obtain ⟨w, hmate, hends⟩ := hended
        obtain ⟨hpast, hgone⟩ := hends.gone ht.cast ht.distinct
        refine .off ?_ hmate (Nat.lt_of_lt_of_le hpast hreparks.serial) hgone
        rw [hends.title ht.running, hon, hmates w hmate]
        simp [Option.filter]
      · have hgoes := not_exists.mp hended
        refine .on ?_ (fun w hw ↦ ?_) fun w hw hsame ↦ ?_
        · rcases htitle.2 with hsame | ⟨w, hbilled, hends⟩
          · exact hsame.trans hon
          · have hother : w.text ≠ text := fun he ↦ hgoes w ⟨hall w hbilled he, hends⟩
            rw [hends.title ht.running, hon]
            simp [Option.filter, hother.symm]
        · exact (hb.keeps (lasting_bills _ _) hs ht.cast ht.whole (hkeeps w hw)).resolve_right
            fun hends ↦ hgoes w ⟨hw, hends⟩
        · refine hall w ((hb.billed ht hw).resolve_right ?_) hsame
          rintro ⟨task, hsome, -⟩
          cases hnone.symm.trans hsome

theorem Untold.shows (h : Untold p q) (hw : Shows mates text (resting p)) :
    Shows mates text (resting q) := by
  cases hw with
  | off hoff hmate hpast hgone =>
      obtain ⟨hpast, hgone⟩ := gone_of_reparks h.reparks hpast hgone
      exact .off (h.spares.title.trans hoff) hmate hpast hgone
  | on hon hkeeps hall =>
      obtain ⟨new, hnew, -⟩ := h.spares.tasks
      refine .on (h.spares.title.trans hon) (fun w hw ↦ ?_) fun w hw ↦ hall w (h.billed hw)
      exact (hkeeps w hw).resting (hnew ▸ List.subset_append_left _ _) h.outcomes h.outOfTime

theorem Step.shows (hacts : ∀ p q, acts p q → Player.AtRest p → Meek p q ∧ Untold p q)
    (hs : Sound m) (ht : Titled m) (hstep : Step acts m n) (hnone : m.herald = none)
    (hmates : ∀ w, mates w → w.text = text) (h : Shows mates text m) : Shows mates text n := by
  rcases hstep.beat_or_untold hacts hs with hb | ⟨p, q, rfl, rfl, -, huntold⟩
  · exact hb.shows hs ht hnone hmates h
  · exact huntold.shows h

/-- The titles that a title has to share the screen with: those of its text that
were waiting when it was taken up, and itself. -/
def Mates (m : Machine) (task : Task) (text : String) (w : Titling) : Prop :=
  w.text = text ∧ (w = ⟨task.id, m.playback.session.serial, text⟩ ∨ Billed w m)

/-- A title that is taken up comes on, unless it comes to its end at once. -/
theorem Beat.heralds (hs : Sound m) (ht : Titled m) (hb : Beat m n) {task : Task}
    (hherald : m.herald = some text) (hrun : m.running = some task) :
    Shows (m.Mates task text) text n := by
  have hn := hb.titled hs ht
  obtain ⟨other, waiter, hsome, hrun', hserial, htitle⟩ :=
    (hb.title ht).resolve_left fun h ↦ by cases h.1.symm.trans hherald
  obtain rfl : text = other := Option.some.inj (hherald.symm.trans hsome)
  obtain rfl : task = waiter := Option.some.inj (hrun.symm.trans hrun')
  have hown : m.Mates task text ⟨task.id, m.playback.session.serial, text⟩ := ⟨rfl, .inl rfl⟩
  rcases htitle with ⟨hon, hbilled⟩ | ⟨hoff, hparks⟩
  · refine .on hon (fun w hw ↦ ?_) fun w hw hsame ↦ ⟨hsame, ?_⟩
    · rcases hw.2 with rfl | hbefore
      · exact hn.keeps hbilled
      · refine (hb.keeps (lasting_bills _ _) hs ht.cast ht.whole (ht.keeps hbefore)).resolve_right ?_
        intro hends
        cases hends
        simp [herald, Job.title?] at hherald
    · rcases hb.billed ht hw with hbefore | ⟨waiter, -, hrun', hnew⟩
      · exact .inr hbefore
      · obtain rfl : task = waiter := Option.some.inj (hrun.symm.trans hrun')
        rw [hnew, hsame]
        exact .inl rfl
  · refine .off hoff hown hserial ?_
    rw [hparks]
    have hnone := ht.distinct m.playback.session.serial
    rw [if_neg (Nat.lt_irrefl _)] at hnone
    exact List.count_eq_zero.mp (Nat.le_zero.mp hnone)

/-- The title that has been taken up last in a run. -/
structure Latest (acts : Playback → Playback → Prop) (start l n m : Machine) (task : Task)
    (text : String) : Prop where
  before : Runs acts start l
  herald : l.herald = some text
  running : l.running = some task
  beat : Beat l n
  after : Runs acts n m
  last : m.titles = n.titles

section

variable {k l start : Machine} {task : Task}

theorem Runs.titled (hacts : ∀ p q, acts p q → Player.AtRest p → Meek p q ∧ Untold p q)
    (hr : Runs acts m n) (hs : Sound m) (h : Titled m) : Titled n ∧ Sound n :=
  hr.induct (fun p q ha hp ↦ (hacts p q ha hp).1.rest) hs h
    fun _ _ hk h hstep ↦ hstep.titled hacts hk h

/-- What every step from a title on preserves holds until the next one. -/
theorem Runs.untilNext {I : Machine → Prop}
    (hacts : ∀ p q, acts p q → Player.AtRest p → Meek p q ∧ Untold p q) (hr : Runs acts m n)
    (hs : Sound m) (ht : Titled m) (h0 : I m)
    (hstep : ∀ k l, Sound k → Titled k → k.herald = none → I k → Step acts k l → I l) :
    m.titles <+: n.titles ∧ (n.titles = m.titles → I n) := by
  induction hr with
  | refl => exact ⟨List.prefix_refl _, fun _ ↦ h0⟩
  | @step k l hr hlast ih =>
      obtain ⟨hk, hks⟩ := hr.titled hacts hs ht
      obtain ⟨hadded, -⟩ := hlast.titles hacts hks hk
      refine ⟨ih.1.trans (hadded ▸ List.prefix_append _ _), fun hsame ↦ ?_⟩
      have hlength := congrArg List.length (hadded.symm.trans hsame)
      have hle := ih.1.length_le
      rw [List.length_append] at hlength
      have hnone : k.herald = none :=
        Option.toList_eq_nil_iff.mp (List.length_eq_zero_iff.mp (by omega))
      have hbefore : k.titles = m.titles := by
        rw [← hsame, hadded, hnone, Option.toList_none, List.append_nil]
      exact hstep k l hks hk hnone (ih.2 hbefore) hlast

/-- Every run that has taken up a title has taken up one last. -/
theorem Runs.latest (hacts : ∀ p q, acts p q → Player.AtRest p → Meek p q ∧ Untold p q)
    (hr : Runs acts start m) (hs : Sound start) (ht : Titled start) :
    m.titles = start.titles ∨ ∃ l n task text, Latest acts start l n m task text := by
  induction hr with
  | refl => exact .inl rfl
  | @step k m hr hlast ih =>
      obtain ⟨hk, hks⟩ := hr.titled hacts hs ht
      obtain ⟨hadded, -⟩ := hlast.titles hacts hks hk
      cases hherald : k.herald with
      | none =>
          have hsame : m.titles = k.titles := by
            rw [hadded, hherald, Option.toList_none, List.append_nil]
          refine ih.imp hsame.trans fun ⟨l, n, task, text, h⟩ ↦ ⟨l, n, task, text, ?_⟩
          exact { h with after := h.after.step hlast, last := hsame.trans h.last }
      | some text =>
          rcases hlast.beat_or_untold hacts hks with hb | ⟨p, q, rfl, -⟩
          · obtain ⟨_, task, _, hrun, _⟩ :=
              (hb.title hk).resolve_left fun h ↦ by cases h.1.symm.trans hherald
            exact .inr ⟨k, m, task, text, hr, hherald, hrun, hb, .refl, rfl⟩
          · rw [herald_eq_none (by simp [resting])] at hherald
            cases hherald

/-- The title taken up last is on screen until one of its mates comes to its end,
and there is none from then on. -/
theorem Latest.shows (hacts : ∀ p q, acts p q → Player.AtRest p → Meek p q ∧ Untold p q)
    (hs : Sound start) (ht : Titled start) (h : Latest acts start l n m task text) :
    Shows (l.Mates task text) text m := by
  obtain ⟨hl, hls⟩ := h.before.titled hacts hs ht
  have hbegun := h.beat.heralds hls hl h.herald h.running
  have hstep := fun (k j : Machine) (hks : Sound k) (hk : Titled k) (hnone : k.herald = none)
    (hshows : Shows (l.Mates task text) text k) (hkj : Step acts k j) ↦
      hkj.shows hacts hks hk hnone (fun w hw ↦ hw.1) hshows
  exact (h.after.untilNext hacts (h.beat.sound hls) (h.beat.titled hls hl) hbegun hstep).2 h.last

/-- Once a mate has come to its end there is no title. -/
theorem Latest.untitled (hacts : ∀ p q, acts p q → Player.AtRest p → Meek p q ∧ Untold p q)
    (hs : Sound start) (ht : Titled start) (h : Latest acts start l n m task text)
    (hmate : l.Mates task text w) (hk : Runs acts n k) (hended : ¬Billed w k)
    (hfell : ¬Fallen w.task k) (hm : Runs acts k m) : m.title = none := by
  obtain ⟨hl, hls⟩ := h.before.titled hacts hs ht
  obtain ⟨hn, hns⟩ := And.intro (h.beat.titled hls hl) (h.beat.sound hls)
  obtain ⟨hkt, hks⟩ := hk.titled hacts hns hn
  have hprefix : k.titles <+: m.titles := (hm.untilNext (I := fun _ ↦ True) hacts hks hkt trivial
    fun _ _ _ _ _ _ _ ↦ trivial).1
  have hprefix' : n.titles <+: k.titles := (hk.untilNext (I := fun _ ↦ True) hacts hns hn trivial
    fun _ _ _ _ _ _ _ ↦ trivial).1
  have hsame : k.titles = n.titles :=
    (hprefix'.eq_of_length_le (h.last ▸ hprefix.length_le)).symm
  have hshows := Latest.shows hacts hs ht ⟨h.before, h.herald, h.running, h.beat, hk, hsame⟩
  have hoff : k.title = none := by
    cases hshows with
    | off hoff => exact hoff
    | on _ hkeeps => exact ((hkeeps w hmate).cases.elim hended hfell).elim
  exact (hm.untilNext (I := fun j ↦ j.title = none) hacts hks hkt hoff
    fun _ _ hjs hj hnone htitle hstep ↦ hstep.untitled hacts hjs hj hnone htitle).2
      (h.last.trans hsame.symm)

/-- A mate that is not on any more has come to its end, or fallen with its task. -/
theorem Shows.cases (h : Shows mates text m) :
    m.title = some text ∨ m.title = none ∧ ∃ w, mates w ∧ ¬Billed w m := by
  cases h with
  | on htitle => exact .inl htitle
  | off htitle hmate hpast hgone => exact .inr ⟨htitle, _, hmate, fun hw ↦ hgone hw.mem_parks⟩

end

end

end Machine

end Storyline
