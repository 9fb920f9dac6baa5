import Storyline.Proofs.Player.Orders
import Storyline.Proofs.Wrapping.Turns

/-!
# Runs that match in any order

The queues of two playbacks that correspond are not compared.  A task that is ready in
one playback only rests in the other, so its turn changes nothing there and need not be
taken.  Hence every run of one playback in any order is matched by a run of the other
one.  The playbacks of a story with wrapped actions and of the story itself correspond.
-/

namespace Storyline

namespace Wrapping

variable {N : Wrapping} {D : Detours} {o : Nat}

theorem SameHold.timer? {w' w : Wait} (h : N.SameHold w' w) : w'.timer? = w.timer? := by
  cases h with
  | tap _ _ auto => cases auto <;> rfl
  | _ => rfl

theorem SameWait.timer? {w' w : Wait} (h : N.SameWait o w' w) : w'.timer? = w.timer? := by
  cases h with
  | hold h => exact h.timer?
  | drained => rfl

/-- The same timers are set for two tasks. -/
theorem SameDuty.timers {agenda' agenda : List Errand} {pauses' pauses : List Pause}
    (h : N.SameDuty D o agenda' agenda pauses' pauses) (f : Timer → Timer × Nat) :
    pauses'.filterMap (fun x ↦ x.wait.timer?.map f) = pauses.filterMap (fun x ↦ x.wait.timer?.map f) := by
  cases h with
  | works hwork =>
      cases hwork with
      | plain _ _ hpauses =>
          induction hpauses with
          | nil => rfl
          | cons hx _ ih => rw [List.filterMap_cons, List.filterMap_cons, hx.wait.timer?, ih]
      | wrapped _ _ hw _ _ _ _ hpauses' hpauses =>
          rw [hpauses', hpauses, List.filterMap_cons, List.filterMap_cons, hw.timer?]
          rfl
  | settling _ _ _ _ _ _ hpauses' hpauses => rw [hpauses', hpauses]
  | settles _ _ _ _ _ _ _ hpauses' hpauses =>
      rw [hpauses', hpauses]
      rfl

end Wrapping

namespace Playback

open Player (AtRest Ended mainTask root)

variable {p q r v w : Playback} {target ms : Nat}

/-! ## Correspondence -/

section generic

variable {ι : Type} [Preorder ι] {R S : ι → Playback → Playback → Prop} {i j : ι}

/-- What relates two playbacks between turns, whatever their queues. -/
structure Corresponds (R : ι → Playback → Playback → Prop) : Prop where
  requeue : ∀ {i p v}, R i p v → ∀ queue' queue, R i { p with queue := queue' } { v with queue := queue }
  now : ∀ {i p v}, R i p v → p.session.now = v.session.now
  timers : ∀ {i p v}, R i p v → p.timers = v.timers
  rests : ∀ {i p v}, R i p v → ∀ id, p.Rests id ↔ v.Rests id
  later : ∀ {i p v}, R i p v → ∀ time,
    R i (p.update fun s ↦ { s with now := time }) (v.update fun s ↦ { s with now := time })
  turn : ∀ {i p v}, R i p v → p.Regular → v.Regular → ∀ id queue' queue, ∃ j, i ≤ j ∧
    R j (runTask id { p with queue := queue' }) (runTask id { v with queue := queue })

/-- Two playbacks that correspond, each between two turns. -/
structure Joined (R : ι → Playback → Playback → Prop) (i : ι) (p v : Playback) : Prop where
  related : R i p v
  left : p.Regular
  right : v.Regular

theorem Corresponds.flip (h : Corresponds R) : Corresponds fun i p v ↦ R i v p where
  requeue := fun hR queue' queue ↦ h.requeue hR queue queue'
  now := fun hR ↦ (h.now hR).symm
  timers := fun hR ↦ (h.timers hR).symm
  rests := fun hR id ↦ (h.rests hR id).symm
  later := fun hR time ↦ h.later hR time
  turn := fun hR hp hv id queue' queue ↦ h.turn hR hv hp id queue queue'

omit [Preorder ι] in
theorem Joined.flip (h : Joined R i p v) : Joined (fun i p v ↦ R i v p) i v p :=
  ⟨h.related, h.right, h.left⟩

namespace Corresponds

theorem nextDue (h : Corresponds R) (hR : R i p v) : p.nextDue = v.nextDue := by
  unfold Playback.nextDue
  rw [h.timers hR, h.now hR]

theorem moveTo (h : Corresponds R) (hR : R i p v) (time : Nat) : R i (p.moveTo time) (v.moveTo time) := by
  obtain ⟨queue', hp⟩ := Machine.moveTo_eq time p
  obtain ⟨queue, hv⟩ := Machine.moveTo_eq time v
  rw [hp, hv]
  exact h.requeue (h.later hR time) queue' queue

/-- A turn is taken in the other playback too, if the task is ready there. -/
theorem takesTurn (hR : Corresponds R) (h : Joined R i p v) (hq : p.TakesTurn q) :
    ∃ j w, i ≤ j ∧ v.TakesTurns w ∧ Joined R j q w := by
  obtain ⟨id, rest, hperm, rfl⟩ := hq
  by_cases hid : id ∈ v.queue
  · have hperm' := (List.perm_cons_erase hid).symm
    obtain ⟨j, hle, hturn⟩ := hR.turn h.related h.left h.right id rest (v.queue.erase id)
    exact ⟨j, _, hle, .single ⟨id, _, hperm', rfl⟩, hturn, h.left.turn hperm, h.right.turn hperm'⟩
  · -- it rests there, so it rests here too, and its turn changes nothing but the queue
    have hrests := (hR.rests h.related id).mpr (h.right.rests hid)
    have hturn := h.left.turn hperm
    rw [h.left.idle hrests] at hturn ⊢
    exact ⟨i, v, le_rfl, .refl, hR.requeue h.related rest v.queue, hturn, h.right⟩

theorem takesTurns (hR : Corresponds R) (h : Joined R i p v) (hq : p.TakesTurns q) :
    ∃ j w, i ≤ j ∧ v.TakesTurns w ∧ Joined R j q w := by
  induction hq with
  | refl => exact ⟨i, v, le_rfl, .refl, h⟩
  | tail _ hturn ih =>
      obtain ⟨j, w, hle, hturns, hjoined⟩ := ih
      obtain ⟨k, x, hle', hmore, hjoined'⟩ := hR.takesTurn hjoined hturn
      exact ⟨k, x, hle.trans hle', hturns.trans hmore, hjoined'⟩

/-- What is left in the other queue rests. -/
theorem drain (hR : Corresponds R) (h : Joined R i p v) (hq : p.queue = []) :
    ∃ w, v.Quiets w ∧ Joined R i p w := by
  generalize hqueue : v.queue = queue
  induction queue generalizing v with
  | nil => exact ⟨v, ⟨.refl, hqueue⟩, h⟩
  | cons id rest ih =>
      have hperm : (id :: rest).Perm v.queue := hqueue ▸ .refl _
      have hrests := (hR.rests h.related id).mp (h.left.rests (hq ▸ List.not_mem_nil))
      have hidle := h.right.idle hrests rest
      have hturn := h.right.turn hperm
      rw [hidle] at hturn
      obtain ⟨w, hquiets, hjoined⟩ := ih ⟨hR.requeue h.related p.queue rest, h.left, hturn⟩ rfl
      exact ⟨w, ⟨.head ⟨id, rest, hperm, hidle.symm⟩ hquiets.turns, hquiets.quiet⟩, hjoined⟩

theorem quiets (hR : Corresponds R) (h : Joined R i p v) (hq : p.Quiets q) :
    ∃ j w, i ≤ j ∧ v.Quiets w ∧ Joined R j q w := by
  obtain ⟨j, x, hle, hturns, hjoined⟩ := hR.takesTurns h hq.turns
  obtain ⟨w, hquiets, hjoined'⟩ := hR.drain hjoined hq.quiet
  exact ⟨j, w, hle, ⟨hturns.trans hquiets.turns, hquiets.quiet⟩, hjoined'⟩

theorem elapses (hR : Corresponds R) (h : Joined R i p v) (hp : p.queue = []) (hv : v.queue = [])
    (hq : Elapses target p q) : ∃ j w, i ≤ j ∧ Elapses target v w ∧ Joined R j q w := by
  induction hq generalizing i v with
  | @rest p hnext =>
      have hnext' : ∀ due, v.nextDue = some due → target < due := by rwa [← hR.nextDue h.related]
      exact ⟨i, _, le_rfl, .rest hnext', hR.later h.related target, h.left.setNow hp hnext,
        h.right.setNow hv hnext'⟩
  | @move p x _ due hdue hle hquiets _ ih =>
      have hdue' : v.nextDue = some due := by rwa [← hR.nextDue h.related]
      have hmoved : Joined R i (p.moveTo due) (v.moveTo due) :=
        ⟨hR.moveTo h.related due, h.left.moveTo hp hdue, h.right.moveTo hv hdue'⟩
      obtain ⟨j, y, hle_j, hquiets', hjoined⟩ := hR.quiets hmoved hquiets
      obtain ⟨k, w, hle_k, helapses, hjoined'⟩ := ih hjoined hquiets.quiet hquiets'.quiet
      exact ⟨k, w, hle_j.trans hle_k, .move hdue' hle hquiets' helapses, hjoined'⟩

theorem advances (hR : Corresponds R) (h : Joined R i p v) (hq : p.Advances ms q) :
    ∃ j w, i ≤ j ∧ v.Advances ms w ∧ Joined R j q w := by
  obtain ⟨x, hquiets, helapses⟩ := hq
  obtain ⟨j, y, hle, hquiets', hjoined⟩ := hR.quiets h hquiets
  obtain ⟨k, w, hle', helapses', hjoined'⟩ := hR.elapses hjoined hquiets.quiet hquiets'.quiet helapses
  rw [hR.now hjoined.related] at helapses'
  exact ⟨k, w, hle.trans hle', ⟨y, hquiets', helapses'⟩, hjoined'⟩

end Corresponds

/-! ## Until the end and after it -/

/-- What relates two playbacks until they end, and from then on. -/
structure Matching (R S : ι → Playback → Playback → Prop) : Prop where
  goes : Corresponds R
  now : ∀ {i p v}, S i p v → p.session.now = v.session.now
  stays : ∀ {i p v q w}, S i p v → p.Stays q → v.Stays w → q.session.now = w.session.now → S i q w

/-- Two playbacks that go on and correspond, or that have both ended. -/
inductive KeepsPace (R S : ι → Playback → Playback → Prop) (i : ι) (p v : Playback) : Prop
  | goes (h : Joined R i p v)
  | ended (h : S i p v) (hp : Ended p) (hv : Ended v) (left : AtRest p) (right : AtRest v)

theorem Matching.flip (h : Matching R S) : Matching (fun i p v ↦ R i v p) (fun i p v ↦ S i v p) where
  goes := h.goes.flip
  now := fun hS ↦ (h.now hS).symm
  stays := fun hS hq hw hnow ↦ h.stays hS hw hq hnow.symm

omit [Preorder ι] in
theorem KeepsPace.flip (h : KeepsPace R S i p v) :
    KeepsPace (fun i p v ↦ R i v p) (fun i p v ↦ S i v p) i v p := by
  cases h with
  | goes h => exact .goes h.flip
  | ended h hp hv left right => exact .ended h hv hp right left

namespace Matching

theorem quiets (hM : Matching R S) (h : KeepsPace R S i p v) (hq : p.Quiets q) :
    ∃ j w, i ≤ j ∧ v.Quiets w ∧ KeepsPace R S j q w := by
  cases h with
  | goes h =>
      obtain ⟨j, w, hle, hw, hjoined⟩ := hM.goes.quiets h hq
      exact ⟨j, w, hle, hw, .goes hjoined⟩
  | ended h hp hv left right =>
      have hw := quiets_settle right
      obtain ⟨hstays, hnow⟩ := hq.turns.stays hp left
      obtain ⟨hstays', hnow'⟩ := hw.turns.stays hv right
      have hsame := hM.stays h hstays hstays' (by rw [hnow, hnow', hM.now h])
      exact ⟨i, _, le_rfl, hw, .ended hsame hstays.ended hstays'.ended hstays.rest hstays'.rest⟩

theorem advances (hM : Matching R S) (h : KeepsPace R S i p v) (hq : p.Advances ms q) :
    ∃ j w, i ≤ j ∧ v.Advances ms w ∧ KeepsPace R S j q w := by
  cases h with
  | goes h =>
      obtain ⟨j, w, hle, hw, hjoined⟩ := hM.goes.advances h hq
      exact ⟨j, w, hle, hw, .goes hjoined⟩
  | ended h hp hv left right =>
      have hw := advances_advance right ms
      obtain ⟨hstays, hnow⟩ := hq.stays hp left
      obtain ⟨hstays', hnow'⟩ := hw.stays hv right
      have hsame := hM.stays h hstays hstays' (by rw [hnow, hnow', hM.now h])
      exact ⟨i, _, le_rfl, hw, .ended hsame hstays.ended hstays'.ended hstays.rest hstays'.rest⟩

end Matching

end generic

/-! ## Waits that are settled in both playbacks -/

section settled

variable {N : Wrapping} {D : Detours} {o : Nat}

/-- What holds of all in two lists that are related. -/
theorem forall₂_ball {α β : Type} {R : α → β → Prop} {P : α → Prop} {Q : β → Prop} {as : List α}
    {bs : List β} (h : List.Forall₂ R as bs) (hPQ : ∀ {a b}, R a b → (P a ↔ Q b)) :
    (∀ a ∈ as, P a) ↔ ∀ b ∈ bs, Q b := by
  induction h with
  | nil => simp
  | cons hab _ ih => rw [List.forall_mem_cons, List.forall_mem_cons, hPQ hab, ih]

namespace Alike

theorem settledHold (h : p.Alike N D v) {w' w : Wait} (hw : N.SameHold w' w) :
    w'.Settled p.session ↔ w.Settled v.session := by
  have hs := h.session
  cases hw with
  | tap hpark dwell auto =>
      cases auto <;> simp only [Wait.Settled, hs.goes', hs.goes, hs.isParked hpark, hs.autoPlay, hs.now]
  | sleep timer skips => simp only [Wait.Settled, hs.goes', hs.goes, hs.now, hs.skips]
  | frame shake hstamp d start ticks timer => simp only [Wait.Settled, hs.now]
  | unlit => simp only [Wait.Settled, hs.slow', hs.slow]

theorem settled (h : p.Alike N D v) (hD : D o = none) {w' w : Wait} (hw : N.SameWait o w' w) :
    w'.Settled p.session ↔ w.Settled v.session := by
  cases hw with
  | hold hw => exact h.settledHold hw
  | drained hroom tally guarded =>
      simp only [Wait.Settled, h.session.goes', h.session.goes, h.session.pending hroom hD]

/-- While a wrapped action is suspended, the block waits for it. -/
theorem settled_inner (h : p.Alike N D v) {d : Detour} (hD : D o = some d) :
    (Wait.drained d.inner .actions true).Settled p.session :=
  ⟨fun _ ↦ h.session.goes', by rw [h.counts hD]; exact Nat.one_ne_zero⟩

/-- A task rests in both playbacks or in neither. -/
theorem rests_duty (h : p.Alike N D v) {agenda' agenda : List Errand} {pauses' pauses : List Pause}
    (hduty : N.SameDuty D o agenda' agenda pauses' pauses) :
    (pauses' ≠ [] ∧ ∀ x ∈ pauses', x.wait.Settled p.session) ↔
      (pauses ≠ [] ∧ ∀ x ∈ pauses, x.wait.Settled v.session) := by
  cases hduty with
  | works hwork =>
      cases hwork with
      | plain hD _ hpauses =>
          refine and_congr ?_ (forall₂_ball hpauses fun hx ↦ h.settled hD hx.wait)
          rw [← List.isEmpty_eq_false_iff, ← List.isEmpty_eq_false_iff, isEmpty_eq_of_forall₂ hpauses]
      | wrapped hD _ hw _ _ _ _ hpauses' hpauses =>
          rw [hpauses', hpauses]
          simp [h.settledHold hw, h.settled_inner hD]
  | settling _ _ _ _ _ _ hpauses' hpauses => rw [hpauses', hpauses]; simp
  | settles timer skips _ _ _ _ _ hpauses' hpauses =>
      rw [hpauses', hpauses]
      simp [h.settledHold (.sleep timer skips)]

end Alike

theorem Twins.rests (h : p.Twins N D none v) (id : Nat) : p.Rests id ↔ v.Rests id :=
  forall₂_ball h.tasks fun {t' t} ht ↦ by
    rw [ht.id, ht.whole', ht.whole, h.toAlike.rests_duty (ht.duty (by simp))]

/-! ## Timers that are set in both playbacks -/

theorem Twins.timers (h : p.Twins N D none v) : p.timers = v.timers := by
  have htasks := h.tasks
  unfold Playback.timers
  generalize p.tasks = tasks' at htasks
  generalize v.tasks = tasks at htasks
  induction htasks with
  | nil => rfl
  | cons ht _ ih =>
      rw [List.flatMap_cons, List.flatMap_cons, ih, (ht.duty (by simp)).timers, ht.id]

/-! ## The two playbacks correspond -/

theorem Regular.counted (h : p.Regular) {task : Task} (htask : task ∈ p.tasks) {t : Ticket}
    (ht : t ∈ task.tickets) : p.Counted t := by
  obtain ⟨hand, parking, hledger⟩ := h.ledger
  intro sc hsc hepoch
  have hid : sc.id = t.scope := by simpa using List.find?_some hsc
  have hmem : t ∈ hand ++ p.tickets :=
    List.mem_append_right _ (List.mem_append_right _ (List.mem_flatMap.mpr ⟨task, htask, ht⟩))
  rw [(hledger.books.balanced sc (List.mem_of_find?_eq_some hsc)).actions]
  exact List.countP_pos_iff.mpr ⟨t, hmem, by simp [Ticket.standing, hid, hepoch]⟩

/-- The playbacks of a story with wrapped actions and of the story itself, between turns. -/
structure Agree (N : Wrapping) (p v : Playback) : Prop where
  twins : ∃ D, p.Twins N D none v
  root : N.SameRoom mainTask root root

theorem Twins.setNow (h : p.Twins N D none v) (time : Nat) :
    Twins N D none (p.update fun s ↦ { s with now := time }) (v.update fun s ↦ { s with now := time }) :=
  { h with session := h.session.setNow time }

theorem corresponds_agree : Corresponds Agree where
  requeue := fun ⟨⟨D, h⟩, hroot⟩ queue' queue ↦ ⟨⟨D, h.requeue queue' queue⟩, hroot⟩
  now := fun ⟨⟨_, h⟩, _⟩ ↦ h.session.now
  timers := fun ⟨⟨_, h⟩, _⟩ ↦ h.timers
  rests := fun ⟨⟨_, h⟩, _⟩ ↦ h.rests
  later := fun ⟨⟨D, h⟩, hroot⟩ time ↦ ⟨⟨D, h.setNow time⟩, hroot⟩
  turn := fun {N p v} ⟨⟨D, h⟩, hroot⟩ hp _ id queue' queue ↦ by
    have horderly : p.Orderly p.session.moment none 0 := hp.rest
    obtain ⟨M, E, hle, hturn⟩ := (h.requeue queue' queue).runTask id horderly.id_lt
      fun task htask t ht ↦ hp.counted htask ht
    exact ⟨M, hle, ⟨E, hturn⟩, hroot.mono hle⟩

end settled

end Playback

end Storyline
