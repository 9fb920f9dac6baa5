import Storyline.Proofs.Bench.Reach
import Storyline.Proofs.Playback.Teardown

/-!
# Shutting a bench down

After the end of its session and one turn of every task nothing is left of a
bench's work: no task waits, nothing is parked and nothing counts.  Nothing else
has happened but that the sound was stopped.
-/

namespace Storyline

namespace Playback

variable {p q : Playback}

/-- What every turn preserves holds when nothing is ready any more. -/
theorem settle_induct {I : Playback → Prop} (hp : Player.AtRest p) (h0 : I p)
    (hturn : ∀ (q : Playback) (id : Nat) (rest : List Nat), Player.AtRest q → I q →
      q.queue = id :: rest → I (runTask id { q with queue := rest })) :
    I p.settle := by
  suffices h : ∀ bound p, Player.AtRest p → I p → I (runReady bound p) from h _ p hp h0
  intro bound
  induction bound with
  | zero => exact fun _ _ h ↦ h
  | succ bound ih =>
      intro p hp h0
      unfold runReady
      split
      · exact h0
      next id rest hq =>
        exact ih _ (.of_orderly (Orderly.runTask hp hq)) (hturn p id rest hp h0 hq)

/-- How a task ends whose wait is cut short. -/
def lastOutcome (t : Task) : Nat × Outcome := (t.id, if t.asks then .answer false else .done)

/-- The outcomes of the tasks that the session does not own. -/
def lastOutcomes (tasks : List Task) : List (Nat × Outcome) :=
  (tasks.filter (fun t ↦ !t.owned)).map lastOutcome

theorem lastOutcomes_abort (tasks : List Task) :
    lastOutcomes (tasks.map (fun t ↦ { t with aborted := t.aborted || t.owned })) =
      lastOutcomes tasks := by
  simp only [lastOutcomes, List.filter_map, List.map_map]
  rfl

/-- While the tasks leave after the end of a session, nothing else happens. -/
structure Leaving (p q : Playback) : Prop where
  closed : q.session.Closed
  session : ∃ n, q.session = { p.session with armed := n }
  dispatches : q.dispatches = p.dispatches
  status : q.status = p.status
  queued : ∀ t ∈ q.tasks, t.id ∈ q.queue
  yields : ∀ t ∈ q.tasks, t.Yields
  aborted : ∀ t ∈ q.tasks, t.aborted = t.owned
  outcomes : ∃ ends, q.outcomes = p.outcomes ++ ends ∧
    (ends ++ lastOutcomes q.tasks).Perm (lastOutcomes p.tasks)

theorem perm_removeTask {task : Task} (h : (p.tasks.map Task.id).Nodup) (htask : task ∈ p.tasks) :
    p.tasks.Perm (task :: (p.removeTask task.id).tasks) := by
  have hnodup : p.tasks.Nodup := .of_map _ h
  refine (List.perm_ext_iff_of_nodup hnodup ?_).mpr fun t ↦ ?_
  · refine List.nodup_cons.mpr ⟨fun hin ↦ ?_, hnodup.filter _⟩
    simpa using (List.mem_filter.mp hin).2
  · simp only [removeTask, List.mem_cons, List.mem_filter, bne_iff_ne]
    constructor
    · intro ht
      by_cases he : t.id = task.id
      · exact .inl (List.inj_on_of_nodup_map h ht htask he)
      · exact .inr ⟨ht, he⟩
    · rintro (rfl | ⟨ht, -⟩)
      · exact htask
      · exact ht

theorem perm_lastOutcomes {task : Task} (h : (p.tasks.map Task.id).Nodup) (htask : task ∈ p.tasks) :
    (lastOutcomes [task] ++ lastOutcomes (p.removeTask task.id).tasks).Perm
      (lastOutcomes p.tasks) := by
  have hperm := ((perm_removeTask h htask).filter (fun t ↦ !t.owned)).map lastOutcome
  have hsplit : lastOutcomes [task] ++ lastOutcomes (p.removeTask task.id).tasks =
      lastOutcomes (task :: (p.removeTask task.id).tasks) := by
    simp only [lastOutcomes, ← List.map_append, ← List.filter_append, List.singleton_append]
  rw [hsplit]
  exact hperm.symm

/-- One task after the other leaves. -/
theorem Leaving.runTask {id : Nat} {rest : List Nat} (ho : Player.AtRest q) (h : p.Leaving q)
    (hq : q.queue = id :: rest) : p.Leaving (runTask id { q with queue := rest }) := by
  obtain ⟨n, hsession⟩ := h.session
  obtain ⟨ends, houtcomes, hperm⟩ := h.outcomes
  have hmem := (ho.queued id (by simp [hq])).1
  have hother : ∀ t ∈ (q.removeTask id).tasks, t ∈ q.tasks ∧ t.id ∈ rest := by
    intro t ht
    obtain ⟨ht, hne⟩ := List.mem_filter.mp ht
    have hin := h.queued t ht
    rw [hq, List.mem_cons] at hin
    exact ⟨ht, hin.resolve_left (by simpa using hne)⟩
  unfold Playback.runTask
  split
  next hnone =>
    obtain ⟨t, ht, he⟩ := List.mem_map.mp hmem
    exact absurd (List.find?_eq_none.mp hnone t ht) (by simp [he])
  next task hsome =>
    obtain ⟨htask, rfl⟩ := Orderly.task?_eq (p := { q with queue := rest }) hsome
    have hleft := perm_lastOutcomes ho.nodup_ids htask
    split
    next haborted =>
      have howned : task.owned = true := h.aborted task htask ▸ haborted
      refine ⟨h.closed, ⟨n, hsession⟩, h.dispatches, h.status, fun t ht ↦ (hother t ht).2,
        fun t ht ↦ h.yields t (hother t ht).1, fun t ht ↦ h.aborted t (hother t ht).1,
        ends, houtcomes, ?_⟩
      have hnone : lastOutcomes [task] = [] := by simp [lastOutcomes, howned]
      rw [hnone, List.nil_append] at hleft
      exact (hleft.append_left ends).trans hperm
    next haborted =>
      have howned : task.owned = false := by
        rw [← h.aborted task htask]
        simpa using haborted
      obtain ⟨-, hp, ha⟩ := (h.yields task htask).resolve_left (by simp [howned])
      obtain ⟨n', hturn⟩ := takeTurn_closed (p := { q with queue := rest }) h.closed (ho.idle rfl) hp ha
      rw [hturn]
      have hone : lastOutcomes [task] =
          [(task.id, outcomeOf task.asks (armed n' { q with queue := rest }))] := by
        have hc : (armed n' { q with queue := rest }).session.cancelled = true := h.closed.cancelled
        simp [lastOutcomes, lastOutcome, howned, outcomeOf, hc]
      refine ⟨armed_closed (p := { q with queue := rest }) h.closed n', ⟨n', ?_⟩, h.dispatches,
        h.status, fun t ht ↦ (hother t ht).2, fun t ht ↦ h.yields t (hother t ht).1,
        fun t ht ↦ h.aborted t (hother t ht).1, ends ++ lastOutcomes [task], ?_, ?_⟩
      · simp only [endTask, removeTask, armed, update, hsession]
      · simp only [endTask, hone, ← List.append_assoc, ← houtcomes]
        rfl
      · rw [List.append_assoc]
        exact (hleft.append_left ends).trans hperm

theorem mem_queue_of_owned (hc : p.session.cancelled = false) {t : Task} (ht : t ∈ p.shutdown.tasks)
    (howned : t.owned = true) : t.id ∈ p.shutdown.queue := by
  rw [shutdown_tasks hc] at ht
  obtain ⟨old, hold, rfl⟩ := List.mem_map.mp ht
  rw [shutdown_eq hc, abortOwned, wakeAll_eq]
  refine mem_enqueue.mpr (.inr (List.mem_map.mpr ⟨old, List.mem_filter.mpr ⟨?_, howned⟩, rfl⟩))
  rwa [touch_tasks]

/-- When a session has ended, every task is woken or aborted, for nobody can go
on waiting. -/
theorem leaving_shutdown (ho : Player.AtRest p) (hc : p.session.cancelled = false)
    (hy : ∀ t ∈ p.tasks, t.Yields) :
    p.shutdown.Leaving p.shutdown := by
  have hclosed : p.shutdown.session.Closed := shutdown_session hc ▸ p.session.closed_cancel
  have htasks : ∀ t ∈ p.shutdown.tasks, t.Yields ∧ t.aborted = t.owned := by
    intro t ht
    rw [shutdown_tasks hc] at ht
    obtain ⟨old, hold, rfl⟩ := List.mem_map.mp ht
    cases howned : old.owned with
    | true => exact ⟨.inl rfl, by simp⟩
    | false =>
        have hyields := (hy old hold).resolve_left (by simp [howned])
        exact ⟨.inr ⟨by simp [hyields.1], hyields.2⟩, by simp [hyields.1]⟩
  refine ⟨hclosed, ⟨p.shutdown.session.armed, rfl⟩, rfl, rfl, fun t ht ↦ ?_, fun t ht ↦ (htasks t ht).1,
    fun t ht ↦ (htasks t ht).2, [], (List.append_nil _).symm, .refl _⟩
  rcases (htasks t ht).1 with howned | ⟨-, hp, -⟩
  · exact mem_queue_of_owned hc ht howned
  · by_contra hnot
    obtain ⟨hne, hsettled⟩ := (Orderly.shutdown ho).resting t ht (by simp) hnot
    obtain ⟨x, hx⟩ := List.exists_mem_of_ne_nil _ hne
    obtain ⟨ran, hlook, -⟩ := look_closed hclosed (hp x hx)
    rw [look_of_settled (hsettled x hx)] at hlook
    cases (Prod.mk.inj hlook).2

/-- Until its end every task of a session is owned by it or gives way. -/
theorem leaving_settle (ho : Player.AtRest p) (hc : p.session.cancelled = false)
    (hy : ∀ t ∈ p.tasks, t.Yields) :
    p.shutdown.Leaving p.shutdown.settle ∧ p.shutdown.settle.tasks = [] ∧
      p.shutdown.settle.queue = [] := by
  have hrest : Player.AtRest p.shutdown := .of_orderly (Orderly.shutdown ho)
  have hleaving : p.shutdown.Leaving p.shutdown.settle :=
    settle_induct hrest (leaving_shutdown ho hc hy) fun q id rest ho h hq ↦ h.runTask ho hq
  have hqueue := Player.settle_queue_of_atRest hrest
  refine ⟨hleaving, List.eq_nil_iff_forall_not_mem.mpr fun t ht ↦ ?_, hqueue⟩
  have hin := hleaving.queued t ht
  simp [hqueue] at hin

end Playback

namespace Bench

open Playback

/-! ## Before the end -/

/-- A bench whose session has not ended. -/
structure Running (b : Bench) : Prop where
  rest : Player.AtRest b.playback
  running : b.session.cancelled = false
  yields : ∀ t ∈ b.playback.tasks, t.Yields
  known : ∀ id ∈ b.tasks, b.playback.Knows id

theorem running_new (config : Config) (host : Host) (voices : VoiceCache) :
    Running (new config host voices) where
  rest := {
    moment := rfl
    nodup_ids := .nil
    id_lt := by simp [new, Playback.new]
    idle := fun _ ↦ rfl
    running_mem := by simp
    nodup_queue := .nil
    queued := by simp [new, Playback.new]
    numbered := ⟨by simp [new, Playback.new, Session.new], by simp [new, Playback.new, Session.new]⟩
    resting := by simp [new, Playback.new]
    punctual := by simp [new, Playback.new]
    empty := by simp
    turn_punctual := by simp [new, Playback.new, Turn.none]
    visited := by simp [new, Playback.new, Turn.none]
    unvisited := by simp }
  running := rfl
  yields := by simp [new, Playback.new]
  known := by simp [new]

section

variable {permits : Request → Prop} {b b' : Bench}

theorem Running.passes {p : Playback} (h : Running b) (hp : b.playback.Passes p) :
    Running { b with playback := p } := by
  have hkept := hp.induct (I := fun q ↦ q.session.cancelled = false ∧
    (∀ t ∈ q.tasks, t.Yields) ∧ ∀ id ∈ b.tasks, q.Knows id) h.rest ⟨h.running, h.yields, h.known⟩
  obtain ⟨⟨hc, hy, hk⟩, hrest⟩ := hkept
    (by
      rintro q id rest ho ⟨hc, hy, hk⟩ -
      refine ⟨(Session.cancelled_eq (settings_runTask id)).trans hc,
        runTask_yields (p := { q with queue := rest }) ho.nodup_ids hy, fun other hother ↦ ?_⟩
      exact knows_runTask (p := { q with queue := rest }) ho.nodup_ids hy (hk other hother))
    (by
      rintro q q' time ⟨hc, hy, hk⟩ hs ht ho
      refine ⟨by rw [hs]; exact hc, by rw [ht]; exact hy, fun other hother ↦ ?_⟩
      unfold Knows
      rw [ht, ho]
      exact hk other hother)
  exact ⟨hrest, hc, hy, hk⟩

theorem knows_append {p q : Playback} {new : List Task} {id : Nat} (htasks : q.tasks = p.tasks ++ new)
    (houtcomes : q.outcomes = p.outcomes) (h : p.Knows id) : q.Knows id := by
  unfold Knows
  rw [htasks, houtcomes]
  exact h.imp_left fun ⟨t, ht, hid⟩ ↦ ⟨t, List.mem_append_left _ ht, hid⟩

theorem Running.handled {r : Request} (h : Running b) (hb : Handled r b b') : Running b' := by
  cases hb with
  | stirs hst hc hb =>
      refine ⟨.of_orderly (Orderly.stirs h.rest hst), hc.trans h.running, hst.tasks ▸ h.yields,
        fun id hid ↦ ?_⟩
      exact knows_append (by rw [hst.tasks, List.append_nil]) hst.outcomes (h.known id (hb ▸ hid))
  | passes ms hr hp hb =>
      obtain ⟨hrest, hc, hy, hk⟩ := h.passes hp
      exact ⟨hrest, hc, hy, hb ▸ hk⟩
  | spawns agenda hy hp hb =>
      have hext : Extends true b.playback (b.playback.spawn none agenda) :=
        extends_spawn none (.inl hy)
      obtain ⟨new, hnew, hadded⟩ := hext.tasks
      rw [← hp] at hext hnew
      refine ⟨hp ▸ .of_orderly (Orderly.spawn none agenda h.rest), ?_, fun t ht ↦ ?_, fun id hid ↦ ?_⟩
      · rw [session, hp, spawn_session]
        exact h.running
      · rw [hnew] at ht
        exact (List.mem_append.mp ht).elim (h.yields t) fun ht ↦ .inl (hadded t ht).owned
      · exact knows_append hnew hext.outcomes (h.known id (hb ▸ hid))
  | starts asks scope agenda hy hp hb =>
      have htasks : b'.playback.tasks = b.playback.tasks ++
          [⟨b.playback.spawned, false, asks, scope, false, agenda, []⟩] := by rw [hp]; rfl
      refine ⟨hp ▸ .of_orderly (Orderly.addTask false asks scope agenda h.rest), ?_, fun t ht ↦ ?_,
        fun id hid ↦ ?_⟩
      · rw [session, hp]
        exact h.running
      · rw [htasks] at ht
        rcases List.mem_append.mp ht with ht | ht
        · exact h.yields t ht
        · rw [List.mem_singleton.mp ht]
          exact .inr ⟨rfl, by simp, hy⟩
      · rw [hb] at hid
        rcases List.mem_append.mp hid with hid | hid
        · exact knows_append htasks (by rw [hp]; rfl) (h.known id hid)
        · rw [List.mem_singleton.mp hid]
          exact .inl ⟨_, by rw [htasks]; exact List.mem_append_right _ (List.mem_singleton.mpr rfl),
            rfl, rfl⟩

theorem Running.step (hr : ∀ r, permits r → r ≠ .shutdown) (h : Running b) (hs : Step permits b b') :
    Running b' := by
  cases hs with
  | passes hp => exact h.passes hp
  | request hpermits hh => exact h.handled (Bench.handled h.rest (hr _ hpermits) hh)
  | note => exact ⟨h.rest, h.running, h.yields, h.known⟩

theorem Running.reaches (hr : ∀ r, permits r → r ≠ .shutdown) (h : Running b)
    (hb : Reaches permits b b') : Running b' := by
  induction hb with
  | refl => exact h
  | step _ hs ih => exact ih.step hr hs

end

/-! ## Resumed once -/

/-- A parked action whose fate is decided keeps it. -/
def Decided (b b' : Bench) : Prop :=
  ∀ (n : Nat) (park : Park), b.parks[n]? = some park → park.state ≠ .parked →
    b'.parks[n]? = some park

section

variable {permits : Request → Prop} {b b' c : Bench}

theorem Decided.of_eq (h : b'.parks = b.parks) : Decided b b' := fun _ _ hn _ ↦ h ▸ hn

theorem Decided.trans (h : Decided b b') (h' : Decided b' c) : Decided b c :=
  fun n park hn hstate ↦ h' n park (h n park hn hstate) hstate

theorem decided_notePark (state : ParkState) (b : Bench) : Decided b (b.notePark state) := by
  intro n park hn hstate
  simp [notePark, hn, hstate]

theorem decided_dropPark (n : Nat) (park : Park) (hpark : b.parks[n]? = some park) :
    Decided b (b.handleDropPark n park).1 := by
  unfold handleDropPark
  split
  next hstate =>
    intro i other hi hother
    have hne : n ≠ i := by
      rintro rfl
      rw [hpark] at hi
      exact hother (Option.some.inj hi ▸ hstate)
    simpa [List.getElem?_set_ne hne] using hi
  · exact .of_eq rfl

theorem decided_handle {r : Request} {response : Response} (h : b.handle r = .ok (b', response)) :
    Decided b b' := by
  have hfst : ∀ {c : Bench × Response}, (Except.ok c : Except Missing _) = .ok (b', response) →
      b' = c.1 := fun h ↦ by rw [Except.ok.inj h]
  cases r with
  | scope parent =>
      cases parent with
      | none => exact .of_eq (hfst h ▸ rfl)
      | some n =>
          obtain ⟨_, _, h⟩ := exists_of_bind h
          exact .of_eq (hfst h ▸ rfl)
  | dropScope | enter | reset | drained | untilDrained | perform | walk =>
      obtain ⟨_, _, h⟩ := exists_of_bind h
      exact .of_eq (hfst h ▸ rfl)
  | release n | dropTicket n =>
      rw [hfst h]
      unfold handleTicket
      split <;> exact .of_eq rfl
  | park =>
      rw [hfst h]
      intro n park hn _
      exact (List.getElem?_append_left (List.getElem?_eq_some_iff.mp hn).1).trans hn
  | unpark n =>
      obtain ⟨park, -, h⟩ := exists_of_bind h
      exact hfst h ▸ decided_notePark .closed (b.mapPlayback (.unpark park.id))
  | unparkId id => exact hfst h ▸ decided_notePark .closed (b.mapPlayback (.unpark id))
  | dropPark n =>
      obtain ⟨park, hpark, h⟩ := exists_of_bind h
      refine hfst h ▸ decided_dropPark n park ?_
      unfold parkAt at hpark
      split at hpark
      next other hn => exact Except.ok.inj hpark ▸ hn
      next => cases hpark
  | _ => exact .of_eq (hfst h ▸ rfl)

theorem decided_reaches (h : Reaches permits b b') : Decided b b' := by
  induction h with
  | refl => exact .of_eq rfl
  | step _ hs ih =>
      refine ih.trans ?_
      cases hs with
      | passes => exact .of_eq rfl
      | request _ hh => exact decided_handle hh
      | note => exact decided_notePark .resumed _

end

/-! ## The end -/

/-- What is left of a bench after the end of its session, as the bench before
tells. -/
structure TornDown (b b' : Bench) : Prop where
  tasks : b'.playback.tasks = []
  queue : b'.playback.queue = []
  /-- Every task of the bench has ended, in the middle of its wait if it had not
  ended before. -/
  ends : ∃ ends, b'.playback.outcomes = b.playback.outcomes ++ ends ∧
    ends.Perm (lastOutcomes b.playback.tasks)
  finished : ∀ id ∈ b.tasks, ∃ o, b'.outcome? id = some o ∧
    (b.outcome? id = some o ∨ ∃ t ∈ b.playback.tasks, (id, o) = lastOutcome t)
  /-- Nothing has become of the session but its end. -/
  session : ∃ armed, b'.session =
    { b.session.resetScopes with
      cancelled := true, taps := [], calls := b.session.calls ++ b.session.farewell,
      voiceEnd := some 0, armed := armed }
  dispatches : b'.playback.dispatches = b.playback.dispatches
  counts : ∀ sc ∈ b'.session.scopes, sc.outstanding = 0 ∧ sc.outstandingTaps = 0
  released : ∀ ticket, b'.playback.release ticket = b'.playback
  /-- What was parked has been resumed, once and for all. -/
  parks : b'.parks =
    b.parks.map (fun park ↦ if park.state = .parked then { park with state := .resumed } else park)
  once : ∀ c, Reaches (fun _ ↦ True) b' c → ∀ (n : Nat) (park : Park),
    b'.parks[n]? = some park → c.parks[n]? = some park
  again : ∀ settled, b'.step settled .shutdown = .ok (b', .nothing)

theorem notePark_eq_self {b : Bench} {state : ParkState} (h : ∀ park ∈ b.parks, park.state ≠ .parked) :
    b.notePark state = b := by
  have hparks : b.parks.map (fun park ↦ if park.state = .parked ∧ !b.session.isParked park.id then
      { park with state := state } else park) = b.parks :=
    (List.map_congr_left fun park hpark ↦ if_neg fun hp ↦ h park hpark hp.1).trans (List.map_id _)
  unfold notePark
  rw [hparks]

theorem settle_of_queue {p : Playback} (h : p.queue = []) : p.settle = p := by
  unfold settle turnBound
  rw [h]
  generalize (p.work + 1) * (p.work + p.tasks.length + 2) + [].length = bound
  cases bound with
  | zero => rfl
  | succ bound => simp [runReady, h]

/-- Where nothing is left, another end of the session changes nothing. -/
theorem shutdown_again {b : Bench} (hclosed : b.session.Closed) (hq : b.playback.queue = [])
    (hparks : ∀ park ∈ b.parks, park.state ≠ .parked) (settled : Bool) :
    b.step settled .shutdown = .ok (b, .nothing) := by
  have hshut : b.mapPlayback .shutdown = b :=
    congrArg (fun p ↦ { b with playback := p }) (shutdown_closed (p := b.playback) hclosed)
  have hsettled : (if settled then b.mapPlayback .settle else b) = b := by
    split
    · exact congrArg (fun p ↦ { b with playback := p }) (settle_of_queue hq)
    · rfl
  have hstep : b.step settled .shutdown =
      .ok ((if settled then (b.mapPlayback .shutdown).mapPlayback .settle
        else b.mapPlayback .shutdown).notePark .resumed, .nothing) := rfl
  rw [hstep, hshut, hsettled, notePark_eq_self hparks]

theorem finished_of_perm {p q : Playback} {ends : List (Nat × Outcome)} {id : Nat}
    (houtcomes : q.outcomes = p.outcomes ++ ends) (hperm : ends.Perm (lastOutcomes p.tasks))
    (h : p.Knows id) : ∃ o, q.outcomes.lookup id = some o ∧
      (p.outcomes.lookup id = some o ∨ ∃ t ∈ p.tasks, (id, o) = lastOutcome t) := by
  rw [houtcomes, List.lookup_append]
  cases hbefore : p.outcomes.lookup id with
  | some o => exact ⟨o, rfl, .inl rfl⟩
  | none =>
      have hin : ∃ t ∈ p.tasks, t.id = id ∧ t.owned = false := by
        refine h.resolve_right fun hin ↦ ?_
        obtain ⟨o, ho, rfl⟩ := List.mem_map.mp hin
        exact absurd (List.lookup_eq_none_iff.mp hbefore o ho) (by simp)
      obtain ⟨t, ht, rfl, howned⟩ := hin
      have hmem : lastOutcome t ∈ ends := hperm.mem_iff.mpr
        (List.mem_map_of_mem (List.mem_filter.mpr ⟨ht, by simp [howned]⟩))
      cases hends : ends.lookup t.id with
      | none => exact absurd (List.lookup_eq_none_iff.mp hends _ hmem) (by simp [lastOutcome])
      | some o =>
          obtain ⟨l, r, he, -⟩ := List.lookup_eq_some_iff.mp hends
          have hlast : (t.id, o) ∈ lastOutcomes p.tasks := hperm.mem_iff.mp (by simp [he])
          obtain ⟨t', ht', he'⟩ := List.mem_map.mp hlast
          exact ⟨o, rfl, .inr ⟨t', (List.mem_filter.mp ht').1, he'.symm⟩⟩

theorem tornDown {b : Bench} (h : Running b) :
    TornDown b ((b.mapPlayback (fun p ↦ p.shutdown.settle)).notePark .resumed) := by
  obtain ⟨hleaving, htasks, hqueue⟩ := leaving_settle h.rest h.running h.yields
  obtain ⟨n, hsession⟩ := hleaving.session
  obtain ⟨ends, houtcomes, hperm⟩ := hleaving.outcomes
  have hc : b.playback.session.cancelled = false := h.running
  rw [htasks, shutdown_tasks hc, lastOutcomes_abort] at hperm
  have hperm : ends.Perm (lastOutcomes b.playback.tasks) := by simpa [lastOutcomes] using hperm
  rw [shutdown_session hc, Session.cancel_eq_farewell] at hsession
  rw [shutdown_outcomes] at houtcomes
  have hparks : ∀ park ∈ b.parks, (if park.state = .parked ∧
      !b.playback.shutdown.settle.session.isParked park.id then
        { park with state := .resumed } else park) =
      if park.state = .parked then { park with state := .resumed } else park := by
    intro park _
    simp [Session.isParked, hleaving.closed.taps]
  have hnoted : ((b.mapPlayback (fun p ↦ p.shutdown.settle)).notePark .resumed).parks =
      b.parks.map (fun park ↦ if park.state = .parked then { park with state := .resumed }
        else park) := List.map_congr_left hparks
  have hdecided : ∀ park ∈ ((b.mapPlayback (fun p ↦ p.shutdown.settle)).notePark .resumed).parks,
      park.state ≠ .parked := by
    intro park hpark
    rw [hnoted] at hpark
    obtain ⟨old, -, rfl⟩ := List.mem_map.mp hpark
    split <;> simp_all
  constructor
  case tasks => exact htasks
  case queue => exact hqueue
  case ends => exact ⟨ends, houtcomes, hperm⟩
  case finished => exact fun id hid ↦ finished_of_perm houtcomes hperm (h.known id hid)
  case session => exact ⟨n, hsession⟩
  case dispatches => exact hleaving.dispatches.trans (shutdown_dispatches b.playback)
  case counts =>
    exact fun sc hsc ↦ ⟨hleaving.closed.counts sc hsc .actions, hleaving.closed.counts sc hsc .taps⟩
  case released => exact release_closed hleaving.closed
  case parks => exact hnoted
  case once =>
    exact fun c hreach i park hi ↦
      decided_reaches hreach i park hi (hdecided park (List.mem_of_getElem? hi))
  case again =>
    exact shutdown_again hleaving.closed hqueue hdecided

/-- Shutting a running bench down puts an end to everything. -/
theorem shutdown_tears_down {config : Config} {host : Host} {voices : VoiceCache} {b : Bench}
    (hb : Reaches (· ≠ .shutdown) (new config host voices) b) :
    ∃ b', b.step true .shutdown = .ok (b', .nothing) ∧ TornDown b b' :=
  ⟨_, rfl, tornDown ((running_new config host voices).reaches (fun _ hr ↦ hr) hb)⟩

/-- A block of a line and a title, an endless sleep, two waits for a count and a
parked action. -/
def busy : List (Bool × Request) :=
  [(true, .scope none), (true, .enter 0 false),
    (true, .perform 0 (.block [.cue (.talk ⟨"Hello.", [1], ["Ann"], none⟩), .cue (.telop "Evening")])
      none),
    (true, .sleep ⟨10 ^ 30⟩), (true, .untilDrained 0), (true, .drained 0 .actions), (true, .park),
    (false, .skip)]

theorem busy_tears_down :
    ∃ b, (new .standard ⟨true, true, none, fun _ _ ↦ .zero⟩ .empty).follow busy = .ok b ∧
      b.playback.queue.length = 1 ∧ b.session.taps.length = 3 ∧ b.playback.tasks.length = 4 ∧
      ∃ b', b.step true .shutdown = .ok (b', .nothing) ∧ TornDown b b' := by
  have hstate : ((new .standard ⟨true, true, none, fun _ _ ↦ .zero⟩ .empty).follow busy).toOption.map
      (fun b ↦ (b.playback.queue.length, b.session.taps.length, b.playback.tasks.length)) =
        some (1, 3, 4) := by decide +kernel
  cases hb : (new .standard ⟨true, true, none, fun _ _ ↦ .zero⟩ .empty).follow busy with
  | error e => simp [hb, Except.toOption] at hstate
  | ok b =>
      simp only [hb, Except.toOption, Option.map_some, Option.some.injEq, Prod.mk.injEq] at hstate
      refine ⟨b, rfl, hstate.1, hstate.2.1, hstate.2.2, shutdown_tears_down (reaches_follow ?_ hb)⟩
      simp [busy]

end Bench

end Storyline
