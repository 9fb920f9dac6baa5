import Storyline.Proofs.Player.Lodging

/-!
# A block is an exact join

A block goes on as long as one of its parts is suspended or something is entered in
its scope, and no longer.  It waits neither for what its forks perform nor for what
is performed in the scopes around it.  This holds as long as the clock can show when
the voice of a line is to be looked at.
-/

namespace Storyline

/-- A pause of a part of a block, other than a wait for all that is entered in its
scope. -/
def Pause.IsPart (s : Nat) (x : Pause) : Prop := s ∈ x.scopes ∧ ¬x.Closes s

namespace Playback

variable {p : Playback} {kind : Kind} {ids parking : List Nat} {hand : List Ticket} {s : Nat}

/-- Of the actions that count in a scope only some have to be tapped. -/
theorem Ledger.taps_le (h : p.Ledger kind ids hand parking) :
    p.session.pending s .taps ≤ p.session.pending s .actions := by
  have hbooks := h.books
  unfold Session.pending
  split
  next sc hsc =>
    have hbalanced := hbooks.balanced sc (List.mem_of_find?_eq_some hsc)
    rw [Scope.counter, Scope.counter, hbalanced.actions, hbalanced.taps]
    exact List.countP_mono_left fun t _ ht ↦ (Bool.and_eq_true_iff.mp ht).1
  next => exact Nat.le_refl _

/-- If nothing counts in a scope that has never been reset, no ticket of it is out. -/
theorem Ledger.scope_ne (h : p.Ledger kind ids [] parking) (hzero : p.session.pending s .actions = 0)
    (hepoch : p.session.epoch? s = some 0) : ∀ ticket ∈ p.tickets, ticket.scope ≠ s := by
  have hbooks := h.books
  rw [List.nil_append] at hbooks
  rintro ticket hticket rfl
  obtain ⟨sc, hsc, hid, hpast, -⟩ := hbooks.issued ticket hticket
  have hfound : p.session.scope? ticket.scope = some sc := hid ▸ Session.scope?_eq hbooks.numbered hsc
  have hfresh : sc.actions.epoch = 0 := by simpa [Session.epoch?, hfound] using hepoch
  have hcount : sc.actions.pending = 0 := by simpa [Session.pending, hfound, Scope.counter] using hzero
  rw [(hbooks.balanced sc hsc).actions, List.countP_eq_zero] at hcount
  refine hcount ticket hticket ?_
  simp only [Ticket.standing, Bool.and_eq_true, beq_iff_eq]
  exact ⟨hid.symm, by omega⟩

end Playback

namespace Player

open Playback Machine

variable {actions : List Action} {config : Config} {host : Host} {voices : VoiceCache}
  {p q : Playback} {l m n : Machine} {task : Task} {s id : Nat} {outer : List Nat}

theorem lodged_runs (hr : Runs (Ongoing actions) (resting (new actions config host voices).playback) m) :
    Lodged m ∧ Machine.Sound m :=
  (lodged_induct (I := fun _ ↦ True) (lodged_new actions config host voices)
    (sound_resting (new_atRest actions config host voices)) trivial hr (fun _ _ _ _ _ _ ↦ trivial)
    fun _ _ _ _ _ _ ↦ trivial).2

/-- Throughout a run the scopes are reset as often as sleeps are skipped. -/
theorem resets_runs (hlodged : Lodged m) (hs : Machine.Sound m) (hr : Runs (Ongoing actions) m n) :
    m.playback.session.Resets n.playback.session :=
  (lodged_induct (I := fun k ↦ m.playback.session.Resets k.playback.session) hlodged hs (.of_rooms rfl) hr
    (fun _ _ _ _ hI hb ↦ hI.trans hb.resets) fun _ _ _ hI ha _ ↦ hI.trans (.of_rooms ha.rooms)).1

/-- A run in which a block has been taken up. -/
theorem joining_runs (hl : Runs (Ongoing actions) (resting (new actions config host voices).playback) l)
    (hblock : Blocks l n task outer) (hm : Runs (Ongoing actions) n m) :
    Joining l.playback.session.serial task.id m ∧ Lodged m ∧ Machine.Sound m ∧
      n.playback.session.Resets m.playback.session := by
  obtain ⟨hlodged, hsound⟩ := lodged_runs hl
  have hlodged' := hblock.beat.lodged hsound hlodged
  have hsound' := hblock.beat.sound hsound
  obtain ⟨hjoins, hboth⟩ := lodged_induct (I := Joining l.playback.session.serial task.id) hlodged' hsound'
    (hblock.joining hlodged.housed) hm
    (fun k k' hk hlodged hI hb ↦ hb.joining hk hlodged.cast hlodged.whole hlodged.running hI)
    fun p q _ hI ha _ ↦ hI.resting hlodged.rooted ha
  exact ⟨hjoins, hboth.1, hboth.2, resets_runs hlodged' hsound' hm⟩

/-- From rest on a scope that is shut and counts nothing goes on counting nothing. -/
theorem spent_runs (hinner : root < s) (hlodged : Lodged (resting q)) (hs : AtRest q) (hshut : Shut s q [])
    (hzero : ∀ tally, q.session.pending s tally = 0) (hm : Runs (Ongoing actions) (resting q) m) :
    ∀ tally, m.playback.session.pending s tally = 0 := by
  refine (lodged_induct (I := fun k ↦ Shut s k.playback k.jobs ∧
    ∀ tally, k.playback.session.pending s tally = 0) hlodged (sound_resting hs) ⟨hshut, hzero⟩ hm
    (fun k k' hk hlodged ⟨hshut, hzero⟩ hb ↦ ?_) fun p q _ ⟨hshut, hzero⟩ ha _ ↦ ?_).1.2
  · obtain ⟨hshut', hpending⟩ := hb.shut hk hlodged.whole hshut
    exact ⟨hshut', fun tally ↦ Nat.le_zero.mp (hzero tally ▸ hpending tally)⟩
  · exact ⟨hshut.resting hinner ha, fun tally ↦ (ha.pending tally).trans (hzero tally)⟩

/-- A change of a model in a scope settles in a task of its own. -/
theorem settles_added {change : ModelChange} {scopes : List Nat} {step : Option Nat} {jobs : List Job}
    (hs : Machine.Sound ⟨p, some task, .perform (.cue (.model change)) s scopes step :: jobs⟩)
    (hgoes : p.isOver = false) :
    ∃ w : Settling, w.ticket.scope = s ∧ w.time = settleTime p.session.config change ∧
      w.skips = p.session.skips ∧ w.since = p.session.now ∧
      Settles w ⟨(p.note (.cue (.model change)) s step).performCue (.model change) s scopes step,
        some task, jobs⟩ := by
  obtain ⟨q, hq⟩ : ∃ q, q = (p.note (.cue (.model change)) s step).announce step := ⟨_, rfl⟩
  obtain ⟨r, hr⟩ : ∃ r, r = (q.enter s false).update (.presentIf change.apply) := ⟨_, rfl⟩
  obtain ⟨ticket, hticket⟩ : ∃ ticket, ticket = q.session.ticket s false := ⟨_, rfl⟩
  have hnoted := note_session (p := p) (.cue (.model change)) s step
  have hstirs : (p.note (.cue (.model change)) s step).Stirs r :=
    hr ▸ hq ▸ (stirs_announce _ step).trans ((stirs_enter _ s false).trans (stirs_presentIf _ _))
  have hconfig : (q.enter s false).session.config = p.session.config := by
    rw [(stirs_enter q s false).config, hq, (stirs_announce _ step).config, hnoted]
  have hspawned : r.spawned = p.spawned := by
    rw [hstirs.spawned]
    unfold note
    split <;> rfl
  have hannounced : q.session.settings = p.session.settings := by
    rw [hq]
    exact (settings_announce step).trans (congrArg _ hnoted)
  have hsettings : r.session.settings = p.session.settings := by
    rw [hr]
    exact (Session.settings_presentIf (s := (q.enter s false).session) _).trans
      ((settings_enter s false).trans hannounced)
  have hgoes' : r.session.cancelled = false :=
    (Session.cancelled_eq hsettings).trans (Bool.or_eq_false_iff.mp hgoes).1
  have hperform : (p.note (.cue (.model change)) s step).performCue (.model change) s scopes step =
      r.addTask true false none
        [.sleep (settleTime p.session.config change) (.release ticket) [ticket.scope]] := by
    unfold performCue
    rw [if_neg (by simp [note_isOver, hgoes])]
    dsimp only [Cue.isTapBlocking]
    rw [← hq, ← hticket, changeModel, settleLater, spawn, ← hr, hgoes', if_neg (by simp), hconfig]
  refine ⟨⟨p.spawned, ticket, settleTime p.session.config change, p.session.now, p.session.skips⟩,
    hticket ▸ Session.ticket_scope s false, rfl, rfl, rfl, ?_⟩
  rw [hperform]
  refine .added (List.mem_append_right _ (List.mem_singleton.mpr rfl)) hspawned ?_ rfl rfl ?_
  · intro other hrun
    obtain rfl := Option.some.inj hrun
    exact Nat.ne_of_lt hs.orderly.running_lt
  · exact hstirs.now.trans (congrArg Session.now hnoted)

/-- A settling in a run is over when its ticket is no longer out, unless it has been skipped. -/
theorem settling_runs {w : Settling} (hlodged : Lodged m) (hs : Machine.Sound m) (h : Settles w m)
    (hskips : w.skips ≤ m.playback.session.skips) (hq : Runs (Ongoing actions) m (resting q))
    (htime : ¬q.session.OutOfTime) (hout : w.ticket ∉ q.tickets) (hnot : q.session.skips = w.skips) :
    w.IsOver q.session.now := by
  obtain ⟨⟨hsettles, -⟩, -, hsound⟩ := lodged_induct
    (I := fun k ↦ Settles w k ∧ w.skips ≤ k.playback.session.skips) hlodged hs ⟨h, hskips⟩ hq
    (fun k k' hk hlodged ⟨hI, hle⟩ hb ↦ ⟨hb.settles hk hlodged.cast hlodged.whole hlodged.running hle hI,
      Nat.le_trans hle hb.resets.le⟩)
    fun p q ho ⟨hI, hle⟩ ha hnow ↦
      ⟨hI.resting ho ha hnow, Nat.le_trans hle (Session.Resets.of_rooms ha.rooms).le⟩
  have hheld : ∀ t ∈ q.tasks, w.ticket ∉ t.tickets :=
    fun t ht hmem ↦ hout (List.mem_append_right _ (List.mem_flatMap.mpr ⟨t, ht, hmem⟩))
  cases hsettles with
  | ended h => exact h
  | skipped h => exact absurd hnot (Nat.ne_of_gt h)
  | begins hrun => cases hrun
  | @added t ht hid hidle hagenda =>
      refine absurd ?_ (hheld t ht)
      simp [Task.tickets, hagenda, Settling.errand, Errand.tickets, Ending.ticket?]
  | waits h =>
      rcases h.cases with (⟨t, ht, -, x, hx, timer, -, -, hending⟩ | ⟨_, hrun, -⟩) | hfallen
      · refine absurd (List.mem_append_left _ (List.mem_flatMap.mpr ⟨x, hx, ?_⟩)) (hheld t ht)
        simp [Pause.tickets, hending, Ending.ticket?]
      · cases hrun
      · exact absurd hfallen.2 htime

/-- The configuration stays the same. -/
theorem config_runs (hr : Runs (Ongoing actions) (resting p) m) (hp : AtRest p) :
    m.playback.session.config = p.session.config := by
  refine (hr.induct (I := fun k ↦ k.playback.session.config = p.session.config)
    (fun _ _ ha hp ↦ ha.1.atRest hp) (sound_resting hp) rfl fun k l hk hI hs ↦ ?_).1
  cases hs with
  | beat hb => exact (congrArg Moment.config hb.moment).trans hI
  | @act p q ha =>
      rcases ha.cases with ⟨rfl, -⟩ | ⟨hst, -, -⟩
      · exact (congrArg Session.config (launch_session actions p)).trans hI
      · exact hst.config.trans hI
  | @move p time hq hnext =>
      obtain ⟨queue, hmoved⟩ := moveTo_eq time p
      rw [hmoved]
      exact hI
  | rest hq hle hnext => exact hI

/-- A wait of a block is for the count of a scope that is neither around the block nor
in use by another task that performs actions. -/
theorem joins_inside (hl : Housed l) (hblock : Blocks l n task outer) (hq : Housed (resting q))
    {t : Task} (ht : t ∈ q.tasks) (hid : t.id = task.id) {x : Pause} (hx : x ∈ t.pauses)
    (hs : l.playback.session.serial ∈ x.scopes) {i : Nat} {tally : Tally} {guarded : Bool}
    (hwait : x.wait = .drained i tally guarded) :
    i ∉ outer ∧ ∀ u ∈ q.tasks, u.id ≠ task.id → u.scope ≠ none → ∀ site ∈ u.sites, i ∉ site.scopes := by
  have hroom : x.site.room = some i := congrArg Wait.room? hwait
  have hocc : Occupies t.id t.scope x.site (resting q) :=
    .waits ht rfl rfl (List.mem_append_right _ (List.mem_map_of_mem hx))
  have hhome : t.scope ≠ none := by
    intro hnone
    rw [hnone] at hocc
    cases (hq.idle _ _ hocc).symm.trans hroom
  obtain ⟨home, hhome'⟩ := Option.ne_none_iff_exists'.mp hhome
  obtain ⟨hmem, hinmost⟩ := hq.inmost _ home _ i (hhome' ▸ hocc) hroom
  refine ⟨fun houter ↦ ?_, fun u hu hne hscope site hsite hi ↦ ?_⟩
  · have hbefore := hblock.outer_lt hl i houter
    have hafter := hinmost _ hs
    omega
  · have huses : Uses u.id i (resting q) := ⟨u.scope, site, hscope, .waits hu rfl rfl hsite, hi⟩
    exact hne ((hq.apart _ _ i huses ⟨t.scope, _, hhome, hocc, hmem⟩).trans hid)

/-- While nothing is ready, what is left of a block is a pause of a part, or the wait for
what counts in its scope. -/
theorem performs_iff (hrest : AtRest q) (hidle : q.queue = []) (hjoining : Joining s id (resting q))
    (htime : ¬q.session.OutOfTime) :
    Performs id s (resting q) ↔
      Holds id (Pause.IsPart s) (resting q) ∨ 0 < q.session.pending s .actions := by
  constructor
  · rintro ((⟨t, ht, hid, x, hx, hs⟩ | ⟨_, hrun, -⟩) | ⟨_, hrun, -⟩)
    · by_cases hcloses : x.Closes s
      · have hsettled := (hrest.resting t ht (by simp) (by simp [hidle])).2 x hx
        rw [hcloses.1] at hsettled
        exact .inr (Nat.pos_of_ne_zero hsettled.2)
      · exact .inl (.inl ⟨t, ht, hid, x, hx, hs, hcloses⟩)
    · cases hrun
    · cases hrun
  · rintro ((⟨t, ht, hid, x, hx, hs, -⟩ | ⟨_, hrun, -⟩) | hpending)
    · exact .inl (.inl ⟨t, ht, hid, x, hx, hs⟩)
    · cases hrun
    · by_contra hnot
      exact Nat.ne_of_gt hpending (hjoining.spent htime hnot).2

/-- A change of a model has had its time to settle when no ticket of its scope is out any
more, unless a sleep has been skipped. -/
theorem change_settles {k k' : Machine} {change : ModelChange} {scopes : List Nat} {step : Option Nat}
    (hlodged : Lodged k) (hsound : Machine.Sound k) (hbeat : Beat k k')
    (hgoes : k.playback.isOver = false)
    (hhead : k.jobs.head? = some (.perform (.cue (.model change)) s scopes step))
    (hq : Runs (Ongoing actions) k' (resting q)) (htime : ¬q.session.OutOfTime)
    (hout : ∀ ticket ∈ q.tickets, ticket.scope ≠ s) (hskips : q.session.skips ≤ k.playback.session.skips) :
    ∃ due, (settleTime k.playback.session.config change).endFrom k.playback.session.now = some due ∧
      due ≤ q.session.now := by
  have hlodged' := hbeat.lodged hsound hlodged
  have hsound' := hbeat.sound hsound
  have hbefore : k.playback.session.skips ≤ k'.playback.session.skips := hbeat.resets.le
  have hafter : k'.playback.session.skips ≤ q.session.skips := (resets_runs hlodged' hsound' hq).le
  obtain ⟨p, running, jobs⟩ := k
  obtain ⟨jobs, rfl⟩ := List.head?_eq_some_iff.mp hhead
  cases hbeat with
  | skip hover => cases hgoes.symm.trans hover
  | cue =>
      obtain ⟨w, hscope, hlast, hcount, hsince, hsettles⟩ := settles_added hsound hgoes
      have hover := settling_runs hlodged' hsound' hsettles (hcount ▸ hbefore) hq htime
        (fun hmem ↦ hout _ hmem hscope) (hcount ▸ Nat.le_antisymm hskips (Nat.le_trans hbefore hafter))
      rwa [Settling.IsOver, hlast, hsince] at hover

/-- A block that a task has taken up is performed, whenever nothing is ready, if and
only if a part of it is suspended or something counts in its scope.  When it is not
performed any more, between turns, both counts of its scope are zero and stay so; and
if the scope has never been reset, no ticket of it is out and the changes of models in
it have had their time to settle.  It never waits for the count of a scope around it,
nor of one in which another task performs actions, such as a fork.  This holds as long
as the clock can show when the voice of a line is to be looked at. -/
theorem block_joins (hpoll : (config.voicePoll.period.tickFrom q.session.now 1).isSome = true)
    (hl : Runs (Ongoing actions) (resting (new actions config host voices).playback) l)
    (hblock : Blocks l n task outer) (hq : Runs (Ongoing actions) n (resting q)) :
    let s := l.playback.session.serial
    (q.queue = [] → (Performs task.id s (resting q) ↔
      Holds task.id (Pause.IsPart s) (resting q) ∨ 0 < q.session.pending s .actions)) ∧
    (¬Performs task.id s (resting q) →
      (∀ m, Runs (Ongoing actions) (resting q) m → ∀ tally, m.playback.session.pending s tally = 0) ∧
      (q.session.epoch? s = some 0 → (∀ ticket ∈ q.tickets, ticket.scope ≠ s) ∧
        ∀ k k' change scopes step, Runs (Ongoing actions) n k → Beat k k' → k.playback.isOver = false →
          k.jobs.head? = some (.perform (.cue (.model change)) s scopes step) →
          Runs (Ongoing actions) k' (resting q) →
          ∃ due, (settleTime config change).endFrom k.playback.session.now = some due ∧
            due ≤ q.session.now)) ∧
    ∀ t ∈ q.tasks, t.id = task.id → ∀ x ∈ t.pauses, s ∈ x.scopes →
      ∀ i tally guarded, x.wait = .drained i tally guarded →
        i ∉ outer ∧ ∀ u ∈ q.tasks, u.id ≠ task.id → u.scope ≠ none → ∀ site ∈ u.sites, i ∉ site.scopes := by
  intro s
  obtain ⟨hjoining, hlodged, hsound, hresets⟩ := joining_runs hl hblock hq
  obtain ⟨hlodged₀, hsound₀⟩ := lodged_runs hl
  have hall : Runs (Ongoing actions) (resting (new actions config host voices).playback) (resting q) :=
    hl.trans ((Runs.beat hblock.beat).trans hq)
  have hkept := kept_runs hpoll hall
  have hledger : q.Ledger .timeline [root] [] [] := hkept.ledger (Nat.le_refl _)
  have htime : ¬q.session.OutOfTime := by
    have hconfig : q.session.config = config := hkept.config
    unfold Session.OutOfTime
    rw [hconfig]
    exact Option.isSome_iff_ne_none.mp hpoll
  have hrest : AtRest q := hsound.orderly
  refine ⟨fun hidle ↦ performs_iff hrest hidle hjoining htime, fun hnot ↦ ?_, ?_⟩
  · obtain ⟨hshut, hzero⟩ := hjoining.spent htime hnot
    have htaps : q.session.pending s .taps = 0 := Nat.le_zero.mp (hzero ▸ hledger.taps_le)
    refine ⟨fun m hm ↦ spent_runs hlodged₀.rooted hlodged hrest hshut (fun tally ↦ by cases tally <;> assumption) hm,
      fun hepoch ↦ ⟨hledger.scope_ne hzero hepoch, ?_⟩⟩
    intro k k' change scopes step hk hbeat hgoes hhead hk'
    obtain ⟨-, hlodgedk, hsoundk, hresetsk⟩ := joining_runs hl hblock hk
    have hskips : q.session.skips ≤ k.playback.session.skips :=
      Nat.le_trans (Nat.le_of_eq (hresets.skips_eq (hblock.epoch hsound₀) hepoch)) hresetsk.le
    have hsettled := change_settles hlodgedk hsoundk hbeat hgoes hhead hk' htime
      (hledger.scope_ne hzero hepoch) hskips
    rwa [config_runs (hl.trans ((Runs.beat hblock.beat).trans hk))
      (new_atRest actions config host voices)] at hsettled
  · intro t ht hid x hx hs i tally guarded hwait
    exact joins_inside hlodged₀.housed hblock hlodged.housed ht hid hx hs hwait

/-- A task whose agenda begins with a block takes it up in its next turn. -/
theorem takes_block (acts : Playback → Playback → Prop) {scope : Nat} {rest : List Nat}
    {parts : List Action} {step : Option Nat} {more : List Errand} (hq : p.queue = id :: rest)
    (htask : p.task? id = some task) (hwhole : task.aborted = false)
    (hgoes : p.session.cancelled = false) (hpauses : task.pauses = [])
    (hagenda : task.agenda = .perform (.block parts) scope step :: more) :
    ∃ l n, Runs acts (resting p) l ∧ Blocks l n task [scope] ∧
      l.playback.session.serial = p.session.serial ∧
      Runs acts n (resting (runTask id { p with queue := rest })) := by
  have htake := Beat.take hq htask hwhole
  rw [hpauses, List.map_nil] at htake
  obtain ⟨b, hb⟩ : ∃ b, b = (({ p with queue := rest } : Playback).begun task).updateTurn
      (fun t ↦ { t with agenda := more }) := ⟨_, rfl⟩
  have hwalk : Beat ⟨({ p with queue := rest } : Playback).begun task, some task, []⟩
      ⟨b, some task, [.perform (.block parts) scope [scope] step]⟩ :=
    hb ▸ .walk (by simp [begun, updateTurn, Turn.ofTask, Turn.isFree, hpauses])
      (by simp [begun, updateTurn, Turn.ofTask, hagenda])
  have hover : b.isOver = false := by
    simp [hb, isOver, begun, updateTurn, modifyTask, Turn.ofTask, hgoes]
  have hblock : Beat ⟨b, some task, [.perform (.block parts) scope [scope] step]⟩ _ := .block hover
  obtain ⟨id', rest', hq', hend⟩ := htake.turn
  obtain ⟨rfl, rfl⟩ := List.cons.inj (hq.symm.trans hq')
  refine ⟨_, _, (Runs.beat htake).trans (.beat hwalk), ⟨hblock, rfl, hover, parts, scope, step, rfl⟩,
    by rw [hb]; rfl, ?_⟩
  rw [← hend, ← hwalk.turnEnd (by simp), ← hblock.turnEnd (by simp)]
  exact runs_turnEnd _ (by simp)

/-- A story that plays by itself, when the main timeline is about to have its first turn. -/
def curtainUp (actions : List Action) (config : Config) (voices : VoiceCache) : Playback :=
  let p := ((new actions config quietHost voices).follow [(false, .autoPlay true), (false, .start)]).playback
  runTask 0 { p with queue := [1] }

theorem reaches_curtainUp (hqueue : ((new actions config quietHost voices).follow
      [(false, .autoPlay true), (false, .start)]).playback.queue = [0, 1]) :
    Reaches actions (fun c ↦ c.continues = true) (new actions config quietHost voices).playback
      (curtainUp actions config voices) := by
  unfold curtainUp
  exact (reaches_follow (by decide) (new_atRest actions config quietHost voices)).step (.turn hqueue)

/-- A pause, a fork and a change of a model together. -/
def ensemble : List Action :=
  [.block [.cue (.delay (.ofNat 1)), .fork [.cue (.telop "Aside")], .cue (.model (.hide 1))]]

theorem ensemble_joins :
    let p := (runTask 1 { curtainUp ensemble .standard .empty with queue := [] }).settle
    let q := p.advance 1000
    ∃ l n task, Blocks l n task [root] ∧ Runs (Ongoing ensemble) n (resting p) ∧
      Runs (Ongoing ensemble) n (resting q) ∧ p.queue = [] ∧
      Performs task.id l.playback.session.serial (resting p) ∧
      ¬Performs task.id l.playback.session.serial (resting q) ∧
      ∀ m, Runs (Ongoing ensemble) (resting q) m →
        ∀ tally, m.playback.session.pending l.playback.session.serial tally = 0 := by
  intro p q
  have hnew := new_atRest ensemble .standard quietHost .empty
  have hreach : Reaches ensemble (fun c ↦ c.continues = true) _ (curtainUp ensemble .standard .empty) :=
    reaches_curtainUp (by decide +kernel)
  have hq : (curtainUp ensemble .standard .empty).queue = [1] := by decide +kernel
  have htask : (curtainUp ensemble .standard .empty).task? 1 =
      some ⟨1, true, false, some root, false, timeline ensemble, []⟩ := rfl
  obtain ⟨l, n, hl, hblock, hserial, hn⟩ := takes_block (Ongoing ensemble) hq htask rfl
    (by decide +kernel) rfl rfl
  have hl := (runs_ongoing hnew rfl hreach).trans hl
  have hp : Runs (Ongoing ensemble) n (resting p) := hn.trans (runs_passes reaches_settle)
  have hlater : ∀ b, Runs (Ongoing ensemble) n (resting b) →
      Runs (Ongoing ensemble) n (resting (b.advance 1000)) := fun b hb ↦
    hb.trans (runs_passes (reaches_advance 1000 (joining_runs hl hblock hb).2.2.1.orderly).1)
  have hq : Runs (Ongoing ensemble) n (resting q) := hlater p hp
  have hserial : l.playback.session.serial = 1 := hserial.trans (by decide +kernel)
  have hidle : p.queue = [] := by decide +kernel
  have hbusy : 0 < p.session.pending 1 .actions := by decide +kernel
  have hover : ∀ t ∈ q.tasks, t.id ≠ 1 := by decide +kernel
  obtain ⟨hjoins, -⟩ := block_joins (by decide +kernel) hl hblock hp
  obtain ⟨-, hspent, -⟩ := block_joins (by decide +kernel) hl hblock hq
  have hnot : ¬Performs 1 l.playback.session.serial (resting q) := by
    rintro ((⟨t, ht, hid, -⟩ | ⟨_, hrun, -⟩) | ⟨_, hrun, -⟩)
    · exact hover t ht hid
    · cases hrun
    · cases hrun
  exact ⟨l, n, _, hblock, hp, hq, hidle, (hjoins hidle).mpr (.inr (hserial ▸ hbusy)), hnot, (hspent hnot).1⟩

/-- A change of a model and a line with a voice together. -/
def duet : List Action := [.block [.cue (.model (.hide 1)), .cue (.talk watchedLine)]]

/-- Something may count in the scope of a block that is not performed any more. -/
theorem duet_breaks_off :
    ¬∀ (actions : List Action) (config : Config) (host : Host) (voices : VoiceCache) (l n : Machine)
      (task : Task) (outer : List Nat) (q : Playback),
        Runs (Ongoing actions) (resting (new actions config host voices).playback) l →
        Blocks l n task outer → Runs (Ongoing actions) n (resting q) → q.queue = [] →
        let s := l.playback.session.serial
        (Performs task.id s (resting q) ↔
          Holds task.id (Pause.IsPart s) (resting q) ∨ 0 < q.session.pending s .actions) := by
  intro h
  let p := (runTask 1 { curtainUp duet patient watchedVoices with queue := [] }).settle
  have hnew := new_atRest duet patient quietHost watchedVoices
  have hreach : Reaches duet (fun c ↦ c.continues = true) _ (curtainUp duet patient watchedVoices) :=
    reaches_curtainUp (by decide +kernel)
  have hq : (curtainUp duet patient watchedVoices).queue = [1] := by decide +kernel
  have htask : (curtainUp duet patient watchedVoices).task? 1 =
      some ⟨1, true, false, some root, false, timeline duet, []⟩ := rfl
  obtain ⟨l, n, hl, hblock, hserial, hn⟩ := takes_block (Ongoing duet) hq htask rfl
    (by decide +kernel) rfl rfl
  have hl := (runs_ongoing hnew rfl hreach).trans hl
  have hp : Runs (Ongoing duet) n (resting p) := hn.trans (runs_passes reaches_settle)
  have hserial : l.playback.session.serial = 1 := hserial.trans (by decide +kernel)
  have hbusy : 0 < p.session.pending 1 .actions := by decide +kernel
  have hover : ∀ t ∈ p.tasks, t.id ≠ 1 := by decide +kernel
  have hperforms := (h duet patient quietHost watchedVoices l n _ _ p hl hblock hp (by decide +kernel)).mpr
    (.inr (hserial ▸ hbusy))
  rcases hperforms with (⟨t, ht, hid, -⟩ | ⟨_, hrun, -⟩) | ⟨_, hrun, -⟩
  · exact hover t ht hid
  · cases hrun
  · cases hrun

end Player

end Storyline
