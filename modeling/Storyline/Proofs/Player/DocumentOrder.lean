import Storyline.Proofs.Playback.Charting
import Storyline.Proofs.Player.Stop
import Storyline.Proofs.Player.Tickets

/-!
# The order of the document

However a player is run, its dispatches follow the story: every action is taken
up at most once, every timeline takes up its items one after the other, and a
block is taken up with all its parts, unless its task fails.  The steps count up
from zero, and the line on screen is the last one of the backlog.
-/

namespace Storyline

namespace Action

mutual

theorem step_of_mem_scan {action : Action} {step : Option Nat} {e : Action × Option Nat}
    (h : e ∈ action.scan step) : e = (action, step) ∨ e.2 = none := by
  cases action with
  | cue | fork => exact .inl (List.mem_singleton.mp h)
  | block parts => exact (List.mem_cons.mp h).imp_right step_of_mem_scanAll

theorem step_of_mem_scanAll {parts : List Action} {e : Action × Option Nat}
    (h : e ∈ scanAll parts) : e.2 = none := by
  cases parts with
  | nil => cases h
  | cons part rest =>
      rcases List.mem_append.mp h with h | h
      · exact (step_of_mem_scan h).elim (fun he ↦ by rw [he]) fun he ↦ he
      · exact step_of_mem_scanAll h

end

/-- Only the action itself is a step. -/
theorem scan_eq (step : Option Nat) (action : Action) :
    ∃ rest, action.scan step = (action, step) :: rest ∧ ∀ e ∈ rest, e.2 = none := by
  cases action with
  | cue | fork => exact ⟨[], rfl, by simp⟩
  | block parts => exact ⟨scanAll parts, rfl, fun _ ↦ step_of_mem_scanAll⟩

/-- The lines of a story in the order of the document. -/
def linesOf (actions : List Action) : List Line := (cuesOfList actions).filterMap Cue.line?

theorem linesOf_append (as bs : List Action) : linesOf (as ++ bs) = linesOf as ++ linesOf bs := by
  have hcues : cuesOfList (as ++ bs) = cuesOfList as ++ cuesOfList bs := by
    induction as with
    | nil => rfl
    | cons a as ih => rw [List.cons_append, cuesOfList, ih, ← List.append_assoc]; rfl
  rw [linesOf, hcues, List.filterMap_append]
  rfl

mutual

/-- Without forks all lines of an action are told when it is performed. -/
theorem lines_scan {action : Action} (step : Option Nat) (h : action.forkFree = true) :
    (action.scan step).filterMap (·.1.line?) = action.cues.filterMap Cue.line? := by
  cases action with
  | cue c => rfl
  | block parts => exact lines_scanAll h
  | fork parts => cases h

theorem lines_scanAll {parts : List Action} (h : forkFreeAll parts = true) :
    (scanAll parts).filterMap (·.1.line?) = linesOf parts := by
  cases parts with
  | nil => rfl
  | cons part rest =>
      obtain ⟨hpart, hrest⟩ := Bool.and_eq_true_iff.mp h
      rw [scanAll, List.filterMap_append, lines_scan none hpart, lines_scanAll hrest, linesOf,
        linesOf, cuesOfList, List.filterMap_append]

end

theorem forkFreeAll_iff {parts : List Action} :
    forkFreeAll parts = true ↔ ∀ part ∈ parts, part.forkFree = true := by
  induction parts with
  | nil => simp [forkFreeAll]
  | cons part rest ih => simp [forkFreeAll, ih]

/-- Nothing in a story without forks is a fork. -/
theorem forkFree_partsAt {story : List Action} (h : ∀ action ∈ story, action.forkFree = true)
    (home : Place) : ∀ action ∈ partsAt story home, action.forkFree = true := by
  induction home with
  | nil => exact h
  | cons n home ih =>
      unfold partsAt
      split
      next action haction =>
        have hfree := ih action (List.mem_of_getElem? haction)
        cases action with
        | cue c => simp [parts]
        | block parts => exact forkFreeAll_iff.mp hfree
        | fork parts => cases hfree
      next => simp

end Action

namespace Chart

variable {actions : List Action} {dispatches : List Dispatch} {c : Chart}

/-! ## Steps -/

theorem Records.steps_told (h : c.Records actions dispatches) {x : Passage} (hx : x ∈ c.passages) :
    x.told.filterMap Dispatch.step = (x.strand.step x.index).toList := by
  obtain ⟨d, rest, htold, -⟩ := h.begun x hx
  obtain ⟨later, hscan, hnone⟩ := Action.scan_eq (x.strand.step x.index) x.action
  have hreads := h.reads x hx
  rw [htold, List.map_cons, Passage.plan, hscan] at hreads
  obtain ⟨hfirst, hrest⟩ := List.cons_prefix_cons.mp hreads
  have hstep : d.step = x.strand.step x.index := congrArg Prod.snd hfirst
  have hsteps : rest.filterMap Dispatch.step = [] := by
    refine List.filterMap_eq_nil_iff.mpr fun e he ↦ ?_
    exact hnone _ (hrest.subset (List.mem_map_of_mem he))
  rw [htold, ← hstep]
  cases hd : d.step <;> simp [hd, hsteps]

/-- The steps count up from zero. -/
theorem Records.steps (h : c.Records actions dispatches) :
    dispatches.filterMap Dispatch.step = List.range (c.count []) := by
  have hflat : ∀ passages ⊆ c.passages,
      (passages.flatMap Passage.told).filterMap Dispatch.step =
        (passages.filter (·.home = [])).map Passage.index := by
    intro passages hsub
    induction passages with
    | nil => rfl
    | cons x rest ih =>
        rw [List.flatMap_cons, List.filterMap_append, h.steps_told (hsub (by simp)),
          ih fun y hy ↦ hsub (List.mem_cons_of_mem x hy)]
        cases hhome : x.home with
        | nil =>
            have hroot : x.strand.home = [] := hhome
            simp [Strand.step, hroot, hhome]
        | cons n home =>
            have hroot : x.strand.home = n :: home := hhome
            simp [Strand.step, hroot, hhome]
  rw [h.told, hflat _ (List.Subset.refl _)]
  exact h.inOrder []

/-! ## Lines -/

/-- In a story without forks there is only the main timeline. -/
theorem Records.home_eq_nil (hfree : ∀ action ∈ actions, action.forkFree = true)
    (h : c.Records actions dispatches) {x : Passage} (hx : x ∈ c.passages) : x.home = [] := by
  refine (h.forked x.strand (h.strand x hx)).resolve_right fun ⟨_, parts, hfork⟩ ↦ ?_
  cases hhome : x.strand.home with
  | nil =>
      rw [hhome] at hfork
      cases hfork
  | cons n home =>
      rw [hhome] at hfork
      have := Action.forkFree_partsAt hfree home _ (List.mem_of_getElem? hfork)
      cases this

theorem map_action_eq_take {passages : List Passage}
    (hindex : passages.map Passage.index = List.range passages.length)
    (hfound : ∀ x ∈ passages, actions[x.index]? = some x.action) :
    passages.map Passage.action = actions.take passages.length := by
  refine List.ext_getElem? fun i ↦ ?_
  rw [List.getElem?_map, List.getElem?_take]
  split
  next hi =>
    have hi' : (passages.map Passage.index)[i]? = some i := by
      rw [hindex, List.getElem?_range hi]
    rw [List.getElem?_map, List.getElem?_eq_getElem hi, Option.map_some] at hi'
    have hfound := hfound _ (List.getElem_mem hi)
    rw [Option.some.inj hi'] at hfound
    rw [List.getElem?_eq_getElem hi, hfound, Option.map_some]
  next hi => rw [List.getElem?_eq_none (Nat.le_of_not_lt hi), Option.map_none]

/-- The lines of a passage are told in their order, and all of them if it is whole. -/
theorem Records.lines_told (h : c.Records actions dispatches) {x : Passage} (hx : x ∈ c.passages)
    (hfree : x.action.forkFree = true) :
    x.told.filterMap (·.action.line?) <+: Action.linesOf [x.action] ∧
      (x.Whole → x.told.filterMap (·.action.line?) = Action.linesOf [x.action]) := by
  have hplan : x.plan.filterMap (·.1.line?) = Action.linesOf [x.action] := by
    rw [Passage.plan, Action.lines_scan _ hfree]
    simp [Action.linesOf, Action.cuesOfList]
  have htold : x.told.filterMap (·.action.line?) =
      (x.told.map Dispatch.item).filterMap (·.1.line?) := by
    rw [List.filterMap_map]
    rfl
  refine ⟨?_, fun hwhole ↦ ?_⟩
  · rw [htold, ← hplan]
    exact (h.reads x hx).filterMap _
  · rw [htold, ← hplan]
    exact congrArg _ hwhole

theorem lines_flatMap {passages : List Passage}
    (h : ∀ x ∈ passages, x.told.filterMap (·.action.line?) = Action.linesOf [x.action]) :
    (passages.flatMap Passage.told).filterMap (·.action.line?) =
      Action.linesOf (passages.map Passage.action) := by
  induction passages with
  | nil => rfl
  | cons x rest ih =>
      have hcons : Action.linesOf (x.action :: rest.map Passage.action) =
          Action.linesOf [x.action] ++ Action.linesOf (rest.map Passage.action) :=
        Action.linesOf_append [x.action] _
      rw [List.flatMap_cons, List.filterMap_append, List.map_cons, hcons, h x (by simp),
        ih fun y hy ↦ h y (List.mem_cons_of_mem x hy)]

/-- Without forks the lines are told in the order of the document, if only the
last passage is not whole. -/
theorem Records.lines (hfree : ∀ action ∈ actions, action.forkFree = true)
    (h : c.Records actions dispatches)
    (hwhole : ∀ x ∈ c.passages, x.Whole ∨ x.index + 1 = c.count []) :
    dispatches.filterMap (·.action.line?) <+: Action.linesOf actions ∧
      (c.Complete actions → dispatches.filterMap (·.action.line?) = Action.linesOf actions) := by
  have hhome : ∀ x ∈ c.passages, x.home = [] := fun x hx ↦ h.home_eq_nil hfree hx
  have halong : c.along [] = c.passages :=
    List.filter_eq_self.mpr fun x hx ↦ by simp [hhome x hx]
  have hindex : c.passages.map Passage.index = List.range c.passages.length := by
    have := h.inOrder []
    rwa [count, halong] at this
  have hfound : ∀ x ∈ c.passages, actions[x.index]? = some x.action := by
    intro x hx
    have hfound := h.found x hx
    rw [Passage.place, hhome x hx] at hfound
    exact hfound
  have hactions := map_action_eq_take hindex hfound
  have hlines := fun x hx ↦ h.lines_told hx
    (hfree x.action (List.mem_of_getElem? (hfound x hx)))
  rw [h.told]
  constructor
  · rcases List.eq_nil_or_concat c.passages with hnil | ⟨before, x, hlast⟩
    · rw [hnil]
      exact List.nil_prefix
    · rw [List.concat_eq_append] at hlast
      have hx : x ∈ c.passages := by simp [hlast]
      have hbefore : ∀ y ∈ before,
          y.told.filterMap (·.action.line?) = Action.linesOf [y.action] := by
        intro y hy
        have hmem : y ∈ c.passages := by simp [hlast, hy]
        refine (hlines y hmem).2 ((hwhole y hmem).resolve_right fun hend ↦ ?_)
        rw [hlast, List.map_append, List.length_append, List.length_singleton, List.range_succ] at hindex
        have hfirst := (List.append_inj' hindex rfl).1
        have hlt : y.index < before.length := by
          have := List.mem_map_of_mem (f := Passage.index) hy
          rwa [hfirst, List.mem_range] at this
        rw [count, halong, hlast, List.length_append, List.length_singleton] at hend
        omega
      have htake : Action.linesOf (c.passages.map Passage.action) =
          Action.linesOf (before.map Passage.action) ++ Action.linesOf [x.action] := by
        rw [hlast, List.map_append, Action.linesOf_append]
        rfl
      have hsplit : Action.linesOf actions =
          Action.linesOf (c.passages.map Passage.action) ++
            Action.linesOf (actions.drop c.passages.length) := by
        rw [hactions, ← Action.linesOf_append, List.take_append_drop]
      rw [hsplit, htake, hlast, List.flatMap_append, List.filterMap_append, lines_flatMap hbefore,
        List.flatMap_singleton]
      exact ((List.prefix_append_right_inj _).mpr (hlines x hx).1).trans (List.prefix_append _ _)
  · intro hcomplete
    have hall : c.passages.length = actions.length := by
      rw [← hcomplete.count, count, halong]
    rw [lines_flatMap fun x hx ↦ (hlines x hx).2 (hcomplete.whole x (halong.symm ▸ hx)), hactions,
      hall, List.take_length]

end Chart

namespace Player

open Playback Machine

/-- What is asked of a player between turns. -/
inductive Acts (actions : List Action) : Playback → Playback → Prop
  | start {p : Playback} (hs : p.status = .notStarted) : Acts actions p (launch actions p)
  | next {p : Playback} : Acts actions p p.tap
  | autoPlay (on : Bool) {p : Playback} : Acts actions p (p.setAutoPlay on)
  | fastForward (on : Bool) {p : Playback} : Acts actions p (p.setFastForward on)
  | cacheVoice (path : String) (content : Bytes) {p : Playback} :
    Acts actions p (p.update fun s ↦ { s with voices := s.voices.insert path content })
  | stop {p : Playback} : Acts actions p (stopped p)

section

variable {actions : List Action} {permits : Command → Prop} {p q : Playback} {m n : Machine}
  {c : Chart}

theorem runs_reaches (h : Reaches actions permits p q) :
    Runs (Acts actions) (resting p) (resting q) := by
  induction h with
  | refl => exact .refl
  | step _ hs ih =>
      refine ih.trans ?_
      cases hs with
      | turn hq => exact runs_runTask hq
      | move hq hnext => exact .single (.move hq hnext)
      | rest hq hle hnext => exact .single (.rest hq hle hnext)
      | start _ _ hs => exact .single (.act (.start hs))
      | next => exact .single (.act .next)
      | autoPlay on => exact .single (.act (.autoPlay on))
      | fastForward on => exact .single (.act (.fastForward on))
      | cacheVoice path content => exact .single (.act (.cacheVoice path content))
      | stop => exact .single (.act .stop)

theorem Acts.atRest (h : Acts actions p q) (hp : AtRest p) : AtRest q := by
  have hstep : ∀ {q}, Step actions (fun _ ↦ True) p q → AtRest q := fun hs ↦ hs.atRest hp
  cases h with
  | start => exact .of_orderly (Orderly.launch hp actions)
  | next => exact hstep (.next trivial)
  | autoPlay on => exact hstep (.autoPlay on trivial)
  | fastForward on => exact hstep (.fastForward on trivial)
  | cacheVoice path content => exact hstep (.cacheVoice path content trivial)
  | stop => exact hstep (.stop (.inl trivial))

theorem leaves_of_touch {s : Session} {signals : List Signal} (h : p.session.Carries signals s)
    (hrecital : s.recital = p.session.recital) : Leaves p (p.touch s signals) := by
  have hst : p.Stirs (p.touch s signals) := .of_touch h
  have hext : Extends true p (p.touch s signals) := .of_stirs hst
  exact
    { dispatches := hst.dispatches
      recital := by rw [touch_session]; exact hrecital
      tasks := fun t ht ↦ ⟨t, hst.tasks ▸ ht, rfl, rfl, rfl⟩
      outcomes := hst.outcomes ▸ List.Subset.refl _
      outOfTime := hext.outOfTime.mpr
      spawned := Nat.le_of_eq hst.spawned.symm
      serial := hst.serial
      status := .inl touch_status }

/-- A stop leaves what has been told. -/
theorem leaves_stopped (p : Playback) : Leaves p (stopped p) := by
  have hshutdown : Leaves p p.shutdown ∧ p.shutdown.status = p.status := by
    refine ⟨?_, shutdown_status p⟩
    cases hc : p.session.cancelled with
    | true =>
        unfold shutdown
        rw [if_pos hc]
        have hsame : Leaves p (p.touch p.session []) := leaves_of_touch (.refl _) rfl
        exact hsame
    | false =>
        rw [shutdown_eq hc]
        have hcancel : p.session.cancel.recital = p.session.recital := by
          obtain ⟨calls, voiceEnd, h⟩ := p.session.cancel_eq
          rw [h]
          rfl
        have htouched := leaves_of_touch Session.carries_cancel hcancel
        unfold abortOwned
        dsimp only
        rw [wakeAll_eq]
        exact
          { htouched with
            tasks := fun t ht ↦ by
              obtain ⟨old, hold, rfl⟩ := List.mem_map.mp ht
              exact htouched.tasks old hold }
  obtain ⟨hleaves, hstatus⟩ := hshutdown
  unfold stopped
  dsimp only
  split
  · exact hleaves
  · exact { hleaves with status := .inr rfl }

theorem Acts.leaves (h : Acts actions p q) : Leaves p q ∨ q = launch actions p ∧ p.status = .notStarted := by
  cases h with
  | start hs => exact .inr ⟨rfl, hs⟩
  | next =>
      left
      rw [tap_eq_touch]
      exact leaves_of_touch Session.carries_takeTap rfl
  | autoPlay on =>
      left
      rw [setAutoPlay_eq_touch]
      refine leaves_of_touch (Session.carries_setAutoPlay on) ?_
      unfold Session.setAutoPlay
      split <;> rfl
  | fastForward on =>
      left
      rw [setFastForward_eq_touch]
      refine leaves_of_touch (Session.carries_setFastForward on) ?_
      unfold Session.setFastForward
      split <;> rfl
  | cacheVoice path content =>
      left
      rw [update_eq_touch]
      exact leaves_of_touch (Session.carries_voices _) rfl
  | stop => exact .inl (leaves_stopped p)

theorem leaves_later {time : Nat} {queue : List Nat} (hle : p.session.now ≤ time) :
    Leaves p { p with session := { p.session with now := time }, queue := queue } where
  dispatches := rfl
  recital := rfl
  tasks := fun t ht ↦ ⟨t, ht, rfl, rfl, rfl⟩
  outcomes := List.Subset.refl _
  outOfTime := fun htime ↦ outOfTime_later htime hle
  spawned := Nat.le_refl _
  serial := Nat.le_refl _
  status := .inl rfl

/-! ## The chart of a run -/

/-- The start of the story opens the main timeline. -/
theorem charted_launch (hids : ∀ t ∈ p.tasks, t.id < p.spawned) (h : Charted actions c (resting p))
    (hs : p.status = .notStarted) : ∃ c', Charted actions c' (resting (launch actions p)) := by
  have hstrands : c.strands = [] := h.unstarted hs
  have hpassages : c.passages = [] := by
    refine List.eq_nil_iff_forall_not_mem.mpr fun x hx ↦ ?_
    have hx := h.records.strand x hx
    rw [hstrands] at hx
    cases hx
  cases hc : p.session.cancelled with
  | true =>
      have hlaunch : launch actions p = { p with status := .playing } := by
        simp [launch, spawn, hc]
      rw [hlaunch]
      exact ⟨c,
        { h with
          phase := by simp [resting]
          completed := fun hs ↦ (by cases hs)
          unstarted := fun hs ↦ (by cases hs) }⟩
  | false =>
      have hlaunch : launch actions p =
          (({ p with status := .playing } : Playback).addTask true false none [.fastForward]).addTask
            true false (some root) (timeline actions) := by
        simp [launch, spawn, hc, addTask]
      rw [hlaunch]
      refine ⟨⟨[⟨p.spawned + 1, root, []⟩], []⟩, ?_⟩
      constructor
      case records =>
        have hdispatches : p.dispatches = [] := by
          have := h.records.told
          rwa [hpassages] at this
        exact
          { told := hdispatches
            begun := by simp
            found := by simp
            reads := by simp
            inOrder := fun home ↦ rfl
            strand := by simp
            tasks := List.nodup_singleton _
            scopes := List.nodup_singleton _
            homes := List.nodup_singleton _
            forked := by simp }
      case tasks =>
        intro t ht _
        rcases List.mem_append.mp ht with ht | ht
        · have hidle : Idle t.agenda t.pauses ∧ t.id ≤ p.spawned := by
            rcases List.mem_append.mp ht with ht | ht
            · refine ⟨?_, Nat.le_of_lt (hids t ht)⟩
              cases h.tasks t ht (by simp [resting]) with
              | idle _ hidle => exact hidle
              | walks hs | concludes hs => rw [hstrands] at hs; cases hs
            · rw [List.mem_singleton.mp ht]
              exact ⟨⟨by simp [Errand.Serves], by simp⟩, Nat.le_refl _⟩
          refine .idle (fun s hs ↦ ?_) hidle.1
          rw [List.mem_singleton.mp hs]
          exact Nat.ne_of_gt (Nat.lt_succ_of_le hidle.2)
        · rw [List.mem_singleton.mp ht]
          exact .walks (List.mem_singleton.mpr rfl) rfl rfl (by simp [Chart.along]) (by simp)
      case phase => simp [resting]
      case fates => simp
      case numbered =>
        intro s hs
        rw [List.mem_singleton.mp hs]
        exact ⟨Nat.lt_succ_self _, h.rooted⟩
      case completed => exact fun hs ↦ by cases hs
      case unstarted => exact fun hs ↦ by cases hs
      case recital => exact h.recital
      case rooted => exact h.rooted

theorem Acts.charted (ha : Acts actions p q) (hp : AtRest p) (h : Charted actions c (resting p)) :
    ∃ c', Charted actions c' (resting q) := by
  rcases ha.leaves with hleaves | ⟨rfl, hs⟩
  · exact ⟨c, h.leave hleaves⟩
  · exact charted_launch hp.id_lt h hs

theorem Acts.live (ha : Acts actions p q) (h : Live (resting p)) : Live (resting q) := by
  have hsame : ∀ {s : Session} {signals : List Signal}, s.cancelled = p.session.cancelled →
      Live (resting (p.touch s signals)) := by
    intro s signals hc
    refine ⟨?_, fun hq ↦ ⟨rfl, ?_⟩⟩
    · simpa [resting] using h.owned
    · have hq : s.cancelled = true := by simpa [resting] using hq
      simpa [resting] using (h.ended (hc.symm.trans hq)).2
  cases ha with
  | start =>
      refine ⟨launch_owned h.owned, fun hc ↦ ⟨rfl, ?_⟩⟩
      have hc : p.session.cancelled = true := (congrArg Session.cancelled (launch_session actions p)).symm.trans hc
      have hlaunch : launch actions p = { p with status := .playing } := by
        simp [launch, spawn, hc]
      exact hlaunch ▸ (h.ended hc).2
  | next =>
      rw [tap_eq_touch]
      exact hsame rfl
  | autoPlay on =>
      rw [setAutoPlay_eq_touch]
      refine hsame ?_
      unfold Session.setAutoPlay
      split <;> rfl
  | fastForward on =>
      rw [setFastForward_eq_touch]
      refine hsame ?_
      unfold Session.setFastForward
      split <;> rfl
  | cacheVoice => exact ⟨h.owned, h.ended⟩
  | stop =>
      refine ⟨stopped_owned h.owned, fun _ ↦ ⟨rfl, ?_⟩⟩
      have hshutdown : ∀ t ∈ p.shutdown.tasks, t.aborted = true := by
        cases hc : p.session.cancelled with
        | true =>
            unfold shutdown
            rw [if_pos hc]
            exact (h.ended hc).2
        | false =>
            intro t ht
            rw [shutdown_tasks hc] at ht
            obtain ⟨old, hold, rfl⟩ := List.mem_map.mp ht
            simp [h.owned old hold]
      unfold stopped
      dsimp only
      split <;> exact hshutdown

theorem Acts.cast (ha : Acts actions p q) (h : Cast (resting p)) : Cast (resting q) := by
  refine ⟨?_, by simp [resting]⟩
  rcases ha.leaves with hleaves | ⟨rfl, -⟩
  · intro t ht
    obtain ⟨old, hold, -, hagenda, hpauses⟩ := hleaves.tasks t ht
    have := h.tasks old hold
    unfold Task.Cast at this ⊢
    rwa [hagenda, hpauses] at this
  · have hext : Extends true p (launch actions p) := extends_launch actions p
    exact cast_extend h.tasks hext

/-- A run that follows its story. -/
structure Followed (actions : List Action) (m : Machine) : Prop where
  cast : Cast m
  live : Live m
  charted : ∃ c, Charted actions c m

theorem followed_step {acts : Playback → Playback → Prop}
    (hacts : ∀ p q, acts p q → Acts actions p q) (hs : Machine.Sound m) (h : Followed actions m)
    (hstep : Machine.Step acts m n) : Followed actions n := by
  obtain ⟨hcast, hlive, c, hc⟩ := h
  cases hstep with
  | beat hb => exact ⟨hb.cast hcast, hb.live hlive, hb.charted hs hcast hlive hc⟩
  | act ha =>
      have ha := hacts _ _ ha
      exact ⟨ha.cast hcast, ha.live hlive, ha.charted hs.orderly hc⟩
  | @move p time hq hnext =>
      obtain ⟨queue, hmoved⟩ := moveTo_eq time p
      rw [hmoved]
      exact ⟨⟨hcast.tasks, by simp [resting]⟩, ⟨hlive.owned, hlive.ended⟩,
        c, hc.leave (leaves_later (Nat.le_of_lt (lt_nextDue hnext)))⟩
  | @rest p time hq hle =>
      exact ⟨⟨hcast.tasks, by simp [resting]⟩, ⟨hlive.owned, hlive.ended⟩,
        c, hc.leave (leaves_later hle)⟩

theorem followed_runs {acts : Playback → Playback → Prop}
    (hacts : ∀ p q, acts p q → Acts actions p q) (hr : Runs acts m n) (hs : Machine.Sound m)
    (h : Followed actions m) : Followed actions n ∧ Machine.Sound n :=
  hr.induct (fun p q ha hp ↦ (hacts p q ha).atRest hp) hs h
    fun _ _ hk h hstep ↦ followed_step hacts hk h hstep

theorem followed_new (actions : List Action) (config : Config) (host : Host) (voices : VoiceCache) :
    Followed actions (resting (new actions config host voices).playback) where
  cast := ⟨by simp [resting, new, Playback.new], by simp [resting]⟩
  live := ⟨by simp [resting, new, Playback.new], fun hc ↦ by cases hc⟩
  charted := ⟨⟨[], []⟩,
    { records :=
        { told := rfl
          begun := by simp
          found := by simp
          reads := by simp
          inOrder := fun home ↦ rfl
          strand := by simp
          tasks := .nil
          scopes := .nil
          homes := .nil
          forked := by simp }
      tasks := by simp [resting, new, Playback.new]
      phase := by simp [resting]
      fates := by simp
      numbered := by simp
      completed := fun hs ↦ by cases hs
      unstarted := fun _ ↦ rfl
      recital := rfl
      rooted := Nat.one_pos }⟩

/-- The running task takes up the next item of its timeline: all items before are
whole, and nothing that they have left is still to be done. -/
def Commences (actions : List Action) (c : Chart) (m : Machine) : Prop :=
  m.playback.turn.pauses = [] ∧ ∃ s ∈ c.strands, ∃ action,
    m.running.map Task.id = some s.task ∧
      m.jobs = [.perform action s.scope [s.scope] (s.step (c.count s.home))] ∧
      (Action.partsAt actions s.home)[c.count s.home]? = some action ∧
      ∀ x ∈ c.along s.home, x.Whole

/-- The running task goes on with the item taken up last. -/
def Continues (c : Chart) (m : Machine) : Prop :=
  ∃ before x, c.passages = before ++ [x] ∧ m.running.map Task.id = some x.strand.task ∧
    x.plan = x.told.map Dispatch.item ++ m.jobs.flatMap Job.plan

/-- Whatever a player is asked, at every moment its dispatches are passages of the
story.  Every action is taken up at most once.  A task that is about to perform
an action takes up the next item of its timeline, with nothing of the items
before left to be done, or goes on with the item taken up last.  A passage is
whole, or it is the last one of its timeline and is being performed, or its task
has failed because the clock could not show when to look at a voice.  The steps
count up from zero, and the line on screen is the last one of the backlog.
Without forks the backlog follows the document, and has all of its lines once
the story is completed. -/
theorem document_order {actions : List Action} {config : Config} {host : Host}
    {voices : VoiceCache} {p : Playback} {m : Machine}
    (hp : Reaches actions (fun _ ↦ True) (new actions config host voices).playback p)
    (hm : Runs (fun _ _ ↦ False) (resting p) m) :
    ∃ c : Chart, c.Records actions m.playback.dispatches ∧
      (c.places.Nodup ∧ List.Forall₂ (fun place d ↦ Action.at? actions place = some d.action)
        c.places m.playback.dispatches) ∧
      (∀ action scope scopes step jobs, m.jobs = .perform action scope scopes step :: jobs →
        m.playback.turn.failed = false → Commences actions c m ∨ Continues c m) ∧
      (∀ x ∈ c.passages, x.Whole ∨ x.index + 1 = c.count x.home ∧
        (m.running.map Task.id = some x.strand.task ∨ Abandoned x m)) ∧
      m.playback.dispatches.filterMap Dispatch.step = List.range (c.count []) ∧
      m.playback.session.stage.step =
        (m.playback.dispatches.filterMap Dispatch.step).getLast? ∧
      m.playback.session.stage.talk = m.playback.session.backlog.getLast? ∧
      ((∀ action ∈ actions, action.forkFree = true) →
        m.playback.session.backlog <+: Action.linesOf actions ∧
          (m.playback.status = .completed →
            m.playback.session.backlog = Action.linesOf actions)) := by
  have hnew := new_atRest actions config host voices
  obtain ⟨hfollowed, hsound⟩ := followed_runs (fun _ _ h ↦ h) (runs_reaches hp)
    (sound_resting hnew) (followed_new actions config host voices)
  obtain ⟨⟨-, -, c, hc⟩, hsound'⟩ := followed_runs (fun _ _ h ↦ h.elim) hm hsound hfollowed
  have hstep : m.playback.session.stage.step = _ := congrArg Recital.step hc.recital
  have htalk : m.playback.session.stage.talk = _ := congrArg Recital.talk hc.recital
  have hbacklog : m.playback.session.backlog = _ := congrArg Recital.backlog hc.recital
  have hfates : ∀ x ∈ c.passages, x.Whole ∨ x.index + 1 = c.count x.home ∧
      (m.running.map Task.id = some x.strand.task ∨ Abandoned x m) := by
    refine fun x hx ↦ (hc.fates x hx).imp_right fun ⟨hindex, hfate⟩ ↦ ⟨hindex, ?_⟩
    exact hfate.imp_left fun ⟨task, hrun, hid⟩ ↦ by rw [hrun, ← hid]; rfl
  refine ⟨c, hc.records, ⟨hc.records.nodup_places, hc.records.located⟩, ?_, hfates, hc.records.steps,
    hstep, by rw [htalk, hbacklog]; rfl, fun hfree ↦ ?_⟩
  · intro action scope scopes step jobs hjobs hok
    cases hrun : m.running with
    | none =>
        rw [hsound'.idle hrun] at hjobs
        cases hjobs
    | some task =>
        have hid : m.running.map Task.id = some task.id := by rw [hrun]; rfl
        cases hc.phase task hrun with
        | serves hlooks =>
            rw [hjobs] at hlooks
            have := hlooks _ (List.mem_cons_self ..)
            cases this
        | begins hs hid' haction hfirst _ hwhole hpauses =>
            exact .inl ⟨hpauses, _, hs, _, hid.trans (congrArg some hid'.symm), hfirst, haction, hwhole⟩
        | performs hlast hid' _ _ _ hplan =>
            exact .inr ⟨_, _, hlast, hid.trans (congrArg some hid'.symm),
              hplan.resolve_left (by simp [hok])⟩
  · have hlines := hc.records.lines hfree fun x hx ↦ (hfates x hx).imp_right fun hlast ↦ by
      rw [← hc.records.home_eq_nil hfree hx]
      exact hlast.1
    rw [hbacklog]
    exact ⟨hlines.1, fun hs ↦ hlines.2 (hc.completed hs)⟩

theorem evening_in_order :
    let p := ((new evening .standard plainHost .empty).follow
      [(true, .start), (true, .next), (true, .next)]).playback
    p.status = .completed ∧ p.session.backlog = Action.linesOf evening := by
  intro p
  have hreach : Reaches evening (fun _ ↦ True) (new evening .standard plainHost .empty).playback p :=
    reaches_follow (fun _ _ ↦ trivial) (new_atRest evening .standard plainHost .empty)
  have hstatus : p.status = .completed := by decide +kernel
  obtain ⟨c, -, -, -, -, -, -, -, hlines⟩ := document_order hreach .refl
  exact ⟨hstatus, (hlines (by decide)).2 hstatus⟩

end

/-- A line with a voice, and a title, taken up together. -/
def hushedTitle : List Action := [.block [.cue (.talk watchedLine), .cue (.telop "Title")]]

/-- Not every block is taken up with all its parts. -/
theorem hushedTitle_leaves_out :
    ¬∀ (actions : List Action) (config : Config) (host : Host) (voices : VoiceCache)
      (cs : List (Bool × Command)),
        let p := ((new actions config host voices).follow cs).playback
        p.queue = [] → ∀ parts, .block parts ∈ p.dispatches.map Dispatch.action →
          ∀ part ∈ parts, part ∈ p.dispatches.map Dispatch.action := by
  intro h
  have htaken : ((new hushedTitle patient quietHost watchedVoices).follow
      [(true, .autoPlay true), (true, .start)]).playback.dispatches.map Dispatch.action =
        [.block [.cue (.talk watchedLine), .cue (.telop "Title")], .cue (.talk watchedLine)] := rfl
  have hall := h hushedTitle patient quietHost watchedVoices
    [(true, .autoPlay true), (true, .start)] (by decide +kernel)
    [.cue (.talk watchedLine), .cue (.telop "Title")]
  simp only [htaken] at hall
  have htitle := hall (by simp) (.cue (.telop "Title")) (by simp)
  simp at htitle

end Player

end Storyline
