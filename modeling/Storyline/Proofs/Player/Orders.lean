import Storyline.Proofs.Playback.Idle
import Storyline.Proofs.Player.Status

/-!
# Turns in any order

Tasks that are ready at the same time may have their turns in any order.  Time still
moves on only when no task is ready.  The runs of a playback, which take the tasks in
the order in which they have become ready, are among these.
-/

namespace Storyline

namespace Playback

open Player (AtRest Ended Ongoing root)

/-- One of the ready tasks has its turn. -/
def TakesTurn (p q : Playback) : Prop :=
  ∃ id rest, (id :: rest).Perm p.queue ∧ q = runTask id { p with queue := rest }

def TakesTurns : Playback → Playback → Prop := Relation.ReflTransGen TakesTurn

/-- Tasks have turns until none is ready. -/
structure Quiets (p q : Playback) : Prop where
  turns : p.TakesTurns q
  quiet : q.queue = []

/-- Time passes up to `target`, and after each move of the clock tasks have turns. -/
inductive Elapses (target : Nat) : Playback → Playback → Prop
  | rest {p : Playback} (hnext : ∀ due, p.nextDue = some due → target < due) :
    Elapses target p (p.update fun s ↦ { s with now := target })
  | move {p q r : Playback} {due : Nat} (hdue : p.nextDue = some due) (hle : due ≤ target)
    (hq : (p.moveTo due).Quiets q) (hr : Elapses target q r) : Elapses target p r

def Advances (ms : Nat) (p r : Playback) : Prop :=
  ∃ q, p.Quiets q ∧ Elapses (q.session.now + ms) q r

variable {p q r : Playback} {target ms : Nat}

/-! ## Tasks in the order in which they became ready -/

theorem takesTurns_runReady (bound : Nat) (p : Playback) : p.TakesTurns (runReady bound p) := by
  induction bound generalizing p with
  | zero => exact .refl
  | succ bound ih =>
      unfold runReady
      split
      · exact .refl
      next id rest hq => exact .head ⟨id, rest, hq ▸ .refl _, rfl⟩ (ih _)

theorem quiets_settle (h : AtRest p) : p.Quiets p.settle :=
  ⟨takesTurns_runReady _ p, settle_queue h⟩

theorem elapses_passTime (bound : Nat) (h : AtRest p) (hq : p.queue = [])
    (hbound : target ≤ p.session.now + bound) : Elapses target p (passTime target bound p) := by
  induction bound generalizing p with
  | zero =>
      refine .rest fun next hnext ↦ ?_
      have := lt_nextDue hnext
      omega
  | succ bound ih =>
      unfold passTime
      split
      next due hdue =>
        have hlt := lt_nextDue hdue
        split
        next hle =>
          have hmoved := h.moveTo hq hdue
          have hsettled := settle_orderly hmoved
          have hnow : (p.moveTo due).settle.session.now = due := congrArg Moment.now hsettled.moment
          exact .move hdue hle (quiets_settle (.of_orderly hmoved))
            (ih (.of_orderly hsettled) (settle_queue hmoved) (by omega))
        next hle =>
          refine .rest fun next hnext ↦ ?_
          rw [hdue] at hnext
          exact Option.some.inj hnext ▸ Nat.lt_of_not_le hle
      next hnone =>
        refine .rest fun next hnext ↦ ?_
        rw [hnone] at hnext
        cases hnext

theorem advances_advance (h : AtRest p) (ms : Nat) : p.Advances ms (p.advance ms) :=
  ⟨p.settle, quiets_settle h,
    elapses_passTime ms (.of_orderly (settle_orderly h)) (settle_queue h) (Nat.le_refl _)⟩

/-! ## What is kept in any order -/

/-- A playback between turns that has not ended: it is in order, and its ledger is kept. -/
structure Regular (p : Playback) : Prop where
  rest : AtRest p
  ledger : ∃ hand parking, p.Ledger .timeline [root] hand parking
  unstarted : p.status = .notStarted → p.tasks = [] ∧ p.spawned = 0

namespace Regular

theorem whole (h : p.Regular) : ∀ t ∈ p.tasks, t.aborted = false := by
  obtain ⟨_, _, hledger⟩ := h.ledger
  exact hledger.whole

/-- A task that is not ready rests. -/
theorem rests (h : p.Regular) {id : Nat} (hid : id ∉ p.queue) : p.Rests id := by
  rintro t ht rfl
  exact ⟨h.whole t ht, Orderly.resting h.rest t ht (by simp) hid⟩

theorem idle (h : p.Regular) {id : Nat} (hid : p.Rests id) (queue : List Nat) :
    runTask id { p with queue := queue } = { p with queue := queue } :=
  have horderly : p.Orderly p.session.moment none 0 := h.rest
  Rests.runTask (p := { p with queue := queue }) hid horderly.nodup_ids (horderly.idle rfl)

/-- Whichever of the ready tasks has its turn. -/
theorem turn (h : p.Regular) {id : Nat} {rest : List Nat} (hq : (id :: rest).Perm p.queue) :
    Regular (runTask id { p with queue := rest }) := by
  obtain ⟨hand, parking, hledger⟩ := h.ledger
  have hrest : AtRest { p with queue := id :: rest } := Bench.atRest_reorder hq h.rest
  have hledger : Ledger .timeline [root] hand parking { p with queue := id :: rest } := { hledger with }
  refine ⟨.of_orderly (Orderly.runTask (p := { p with queue := id :: rest }) hrest rfl),
    hledger.runTask_lost hrest rfl, fun hs ↦ ?_⟩
  rcases Machine.status_runTask hrest rfl with he | he
  · have hnone := (h.unstarted (he.symm.trans hs)).1
    have hid := (Orderly.queued h.rest id (hq.mem_iff.mp List.mem_cons_self)).1
    simp [hnone] at hid
  · cases he.symm.trans hs

theorem later (h : p.Regular) (hrest : AtRest q) {time : Nat}
    (hsession : q.session = { p.session with now := time }) (htasks : q.tasks = p.tasks)
    (hturn : q.turn = p.turn) (hstatus : q.status = p.status) (hspawned : q.spawned = p.spawned) :
    q.Regular := by
  obtain ⟨hand, parking, hledger⟩ := h.ledger
  refine ⟨hrest, ⟨hand, parking, hledger.later (Orderly.idle h.rest rfl) hsession htasks hturn⟩, ?_⟩
  rw [hstatus, htasks, hspawned]
  exact h.unstarted

theorem moveTo (h : p.Regular) (hq : p.queue = []) {due : Nat} (hdue : p.nextDue = some due) :
    (p.moveTo due).Regular := by
  have hrest := AtRest.of_orderly (Orderly.moveTo h.rest hq hdue)
  obtain ⟨queue, hmoved⟩ := Machine.moveTo_eq due p
  rw [hmoved] at hrest ⊢
  exact h.later hrest rfl rfl rfl rfl rfl

theorem setNow (h : p.Regular) (hq : p.queue = []) {time : Nat}
    (hnext : ∀ due, p.nextDue = some due → time < due) :
    (p.update fun s ↦ { s with now := time }).Regular :=
  h.later (.of_orderly (Orderly.rest h.rest hq hnext)) rfl rfl rfl rfl rfl

theorem launch (h : p.Regular) (actions : List Action) : (Player.launch actions p).Regular := by
  obtain ⟨hand, parking, hledger⟩ := h.ledger
  have hplaying : (Player.launch actions p).status = .playing :=
    (Machine.spawn_status _ _).trans (Machine.spawn_status _ _)
  refine ⟨.of_orderly (Orderly.launch h.rest actions),
    ⟨hand, parking, Player.ledger_launch actions hledger⟩, fun hs ↦ ?_⟩
  cases hplaying.symm.trans hs

/-- What is asked of a player that is not stopped. -/
theorem ongoing {actions : List Action} (h : p.Regular) (ha : Ongoing actions p q) : q.Regular := by
  obtain ⟨hand, parking, hledger⟩ := h.ledger
  rcases ha.cases with ⟨rfl, -⟩ | ⟨hst, -, hstatus⟩
  · exact h.launch actions
  · refine ⟨.of_orderly (Orderly.stirs h.rest hst),
      ⟨hand, parking, hledger.stirs hst (ha.books hledger.books)⟩, ?_⟩
    rw [hstatus, hst.tasks, hst.spawned]
    exact h.unstarted

end Regular

theorem regular_new (actions : List Action) (config : Config) (host : Host) (voices : VoiceCache) :
    (Player.new actions config host voices).playback.Regular where
  rest := Player.new_atRest actions config host voices
  ledger := ⟨[], [], (Player.kept_new actions host voices : Player.Kept config 0 _).ledger (Nat.le_refl _)⟩
  unstarted := fun _ ↦ ⟨rfl, rfl⟩

/-! ## After the end -/

/-- From the end on a playback stays the same but for the time, in any order. -/
structure Stays (p q : Playback) : Prop where
  ended : Ended q
  rest : AtRest q
  session : q.session = { p.session with now := q.session.now }
  status : q.status = p.status

theorem Stays.trans (h : p.Stays q) (h' : q.Stays r) : p.Stays r where
  ended := h'.ended
  rest := h'.rest
  session := by rw [h'.session, h.session]
  status := h'.status.trans h.status

theorem Stays.of_step (hp : Ended p) (hrest : AtRest p) (hs : Player.Step [] (fun _ ↦ False) p q)
    (hsession : q.session = { p.session with now := q.session.now }) : p.Stays q :=
  ⟨(hp.step hs).1, hs.atRest hrest, hsession, (hp.step hs).2.status⟩

theorem TakesTurns.stays (h : p.TakesTurns q) (hp : Ended p) (hrest : AtRest p) :
    p.Stays q ∧ q.session.now = p.session.now := by
  induction h with
  | refl => exact ⟨⟨hp, hrest, rfl, rfl⟩, rfl⟩
  | @tail r _ _ hturn ih =>
      obtain ⟨hr, hnow⟩ := ih
      obtain ⟨id, rest, hperm, rfl⟩ := hturn
      have hended : ∀ queue, Ended { r with queue := queue } :=
        fun _ ↦ ⟨hr.ended.closed, hr.ended.aborted, hr.ended.final⟩
      have hsession : (runTask id { r with queue := rest }).session = r.session :=
        ((hended rest).runTask id).1
      have hstays : Stays { r with queue := id :: rest } (runTask id { r with queue := rest }) :=
        .of_step (hended _) (Bench.atRest_reorder hperm hr.rest) (.turn rfl) (by rw [hsession])
      exact ⟨hr.trans { hstays with }, by rw [hsession, hnow]⟩

theorem Elapses.stays (h : Elapses target p q) (hp : Ended p) (hrest : AtRest p) (hq : p.queue = [])
    (hle : p.session.now ≤ target) : p.Stays q ∧ q.session.now = target := by
  induction h with
  | rest hnext => exact ⟨.of_step hp hrest (.rest hq hle hnext) rfl, rfl⟩
  | @move p r _ due hdue hdue_le hquiets _ ih =>
      have hsession : (p.moveTo due).session = { p.session with now := due } := by
        obtain ⟨queue, he⟩ := Machine.moveTo_eq due p
        rw [he]
      have hmoved : p.Stays (p.moveTo due) := .of_step hp hrest (.move hq hdue) (by rw [hsession])
      obtain ⟨hturns, hnow⟩ := hquiets.turns.stays hmoved.ended hmoved.rest
      rw [hsession] at hnow
      obtain ⟨hlater, hend⟩ := ih hturns.ended hturns.rest hquiets.quiet (hnow ▸ hdue_le)
      exact ⟨(hmoved.trans hturns).trans hlater, hend⟩

theorem Advances.stays (h : p.Advances ms q) (hp : Ended p) (hrest : AtRest p) :
    p.Stays q ∧ q.session.now = p.session.now + ms := by
  obtain ⟨r, hquiets, hlater⟩ := h
  obtain ⟨hturns, hnow⟩ := hquiets.turns.stays hp hrest
  obtain ⟨hend, hnow'⟩ := hlater.stays hturns.ended hturns.rest hquiets.quiet (Nat.le_add_right _ _)
  exact ⟨hturns.trans hend, by rw [hnow', hnow]⟩

end Playback

end Storyline
