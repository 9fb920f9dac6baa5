import Storyline.Proofs.Bench.Taps
import Storyline.Proofs.Playback.Growth
import Storyline.Proofs.Playback.Stakes
import Storyline.Proofs.Player.Tending

/-!
# What a bench holds

A bench holds scopes and tickets in hand; its tasks hold the rest.  Whatever it is asked for,
nothing comes into use but what the bench has in hand or has just opened, and the scopes go on
counting the tickets that are out and those that have been lost.
-/

namespace Storyline

open Relation

namespace Bench

open Playback
open Session (Handling Solvent)

/-- The tickets in hand. -/
def hand (b : Bench) : List Ticket := b.tickets.filterMap id

/-- The tickets that are out, in hand or held by tasks. -/
def out (b : Bench) : List Ticket := b.hand ++ b.playback.tickets

/-- A new task that works in nothing but what the bench holds. -/
structure Employs (b : Bench) (t : Task) : Prop where
  pauses : t.pauses = []
  scope : ∀ i, t.scope = some i → i ∈ b.held
  tickets : ∀ e ∈ t.agenda, e.ending.ticket? = none
  scopes : ∀ e ∈ t.agenda, ∀ i ∈ e.scopes, i ∈ b.held

/-- What a request does to scopes and tickets. -/
structure Minds (b b' : Bench) : Prop where
  grows : b.session.Grows b'.session
  solvent : Solvent (b.session, b.out) → Solvent (b'.session, b'.out)
  held : ∀ i ∈ b'.held, i ∈ b.held ∨ b.session.serial ≤ i ∧ i ∈ b'.session.opened
  tasks : ∀ t ∈ b'.playback.tasks,
    (∃ old ∈ b.playback.tasks, t.scope = old.scope ∧ t.agenda = old.agenda ∧ t.pauses = old.pauses) ∨
      b.Employs t

variable {b b' : Bench} {r : Request} {response : Response} {scope n : Nat} {t : Ticket}

theorem mem_held_of_scopeAt (h : b.scopeAt n = .ok scope) : scope ∈ b.held := by
  unfold scopeAt at h
  split at h
  next scope hscope =>
    rw [← Except.ok.inj h]
    refine List.mem_append_left _ (List.mem_filterMap.mpr ⟨some scope, List.mem_of_getElem? hscope, rfl⟩)
  next => cases h

/-- A ticket that is used up is one of those in hand. -/
theorem hand_perm (h : b.ticketAt n = some t) :
    b.hand.Perm (t :: (b.tickets.set n none).filterMap id) := by
  obtain ⟨hlt, hget⟩ := List.getElem?_eq_some_iff.mp (Option.join_eq_some_iff.mp h)
  obtain ⟨before, after, hbefore, -, hset⟩ := @List.exists_of_set _ n none b.tickets hlt
  rw [hget] at hbefore
  rw [hand, hset, hbefore]
  simp

namespace Minds

theorem same_tasks (h : b'.playback.tasks = b.playback.tasks) : ∀ t ∈ b'.playback.tasks,
    (∃ old ∈ b.playback.tasks, t.scope = old.scope ∧ t.agenda = old.agenda ∧ t.pauses = old.pauses) ∨
      b.Employs t :=
  fun t ht ↦ .inl ⟨t, h ▸ ht, rfl, rfl, rfl⟩

theorem of_handles (h : Handles True b.hand b'.hand b.playback b'.playback)
    (held : ∀ i ∈ b'.held, i ∈ b.held ∨ b.session.serial ≤ i ∧ i ∈ b'.session.opened)
    (tasks : b'.playback.tasks = b.playback.tasks) : Minds b b' :=
  ⟨h.grows, Session.solvent_of_handling h, held, same_tasks tasks⟩

/-- What has nothing to do with scopes and tickets. -/
theorem of_stirs (h : b.playback.Stirs b'.playback) (hrooms : b'.session.scopes = b.session.scopes)
    (hscopes : b'.scopes = b.scopes) (htickets : b'.tickets = b.tickets) : Minds b b' := by
  have hhand : b'.hand = b.hand := by rw [hand, htickets, hand]
  have hheld : b'.held = b.held := by rw [Bench.held, hscopes, htickets, Bench.held]
  refine .of_handles ?_ (fun i hi ↦ .inl (hheld ▸ hi)) h.tasks
  rw [hhand]
  refine .of_perm hrooms h.serial ?_
  rw [h.tickets]

theorem touch {s : Session} {signals : List Signal} (h : b.session.Carries signals s)
    (hscopes : s.scopes = b.session.scopes) (hp : b'.playback = b.playback.touch s signals)
    (hb : b'.scopes = b.scopes) (ht : b'.tickets = b.tickets) : Minds b b' := by
  refine .of_stirs (hp ▸ .of_touch h) ?_ hb ht
  rw [session, hp, touch_session]
  exact hscopes

theorem refl (b : Bench) : Minds b b := .of_stirs (.refl _) rfl rfl rfl

end Minds

theorem minds_scope (parent : Option Nat) : Minds b (b.handleScope parent).1 := by
  have hopened : Handles True b.hand b.hand b.playback
      (b.playback.update fun _ ↦ (b.session.openScope parent).2) := .single (.opens parent)
  refine .of_handles hopened (fun i hi ↦ ?_) rfl
  rw [Bench.held, handleScope] at hi
  simp only [List.filterMap_append, List.mem_append] at hi
  rcases hi with (hi | hi) | hi
  · exact .inl (List.mem_append_left _ hi)
  · obtain rfl : i = b.session.serial := by simpa [Session.openScope] using hi
    exact .inr ⟨Nat.le_refl _, by simp [handleScope, session, update, Session.opened, Session.openScope,
      Scope.fresh]⟩
  · exact .inl (List.mem_append_right _ hi)

theorem minds_dropScope (n : Nat) : Minds b { b with scopes := b.scopes.set n none } := by
  refine .of_handles (.refl _ _) (fun i hi ↦ .inl ?_) rfl
  rcases List.mem_append.mp hi with hi | hi
  · obtain ⟨scope, hscope, he⟩ := List.mem_filterMap.mp hi
    obtain rfl : scope = some i := he
    refine List.mem_append_left _ (List.mem_filterMap.mpr ⟨some i, ?_, rfl⟩)
    exact (List.mem_or_eq_of_mem_set hscope).resolve_right (by simp)
  · exact List.mem_append_right _ hi

theorem minds_enter (hheld : scope ∈ b.held) (hopened : scope ∈ b.session.opened) (tapBlocking : Bool) :
    Minds b (b.handleEnter scope tapBlocking).1 := by
  have hentered : Handles True b.hand (b.session.ticket scope tapBlocking :: b.hand) b.playback
      (b.playback.enter scope tapBlocking) := handles_enter tapBlocking hopened
  have hhand : (b.handleEnter scope tapBlocking).1.hand = b.hand ++ [b.session.ticket scope tapBlocking] := by
    simp [hand, handleEnter]
  refine .of_handles ?_ (fun i hi ↦ .inl ?_) (stirs_enter _ scope tapBlocking).tasks
  · rw [hhand]
    refine hentered.trans (.of_perm rfl (Nat.le_refl _) (List.Perm.append_right _ ?_))
    exact (List.perm_append_singleton _ _).symm
  · rw [Bench.held, handleEnter] at hi
    simp only [List.filterMap_append, List.map_append, List.mem_append, ← or_assoc] at hi
    rcases hi with hi | hi
    · exact List.mem_append.mpr hi
    · obtain rfl : i = scope := by simpa [Session.ticket_scope] using hi
      exact hheld

theorem minds_ticket (released : Bool) (n : Nat) : Minds b (b.handleTicket released n).1 := by
  unfold handleTicket
  cases ht : b.ticketAt n with
  | none => exact .refl b
  | some t =>
    have hperm := hand_perm ht
    have htaken : Handles True b.hand (t :: (b.tickets.set n none).filterMap id) b.playback b.playback :=
      .of_perm rfl (Nat.le_refl _) (hperm.append_right _)
    have hheld : ∀ i ∈ ((b.tickets.set n none).filterMap id).map Ticket.scope, i ∈ b.held := fun i hi ↦
      List.mem_append_right _ ((hperm.map Ticket.scope).mem_iff.mpr (List.mem_cons_of_mem _ hi))
    have hscopes : ∀ i ∈ b.scopes.filterMap id, i ∈ b.held := fun i ↦ List.mem_append_left _
    cases released with
    | true =>
      refine .of_handles (htaken.trans (handles_release t)) (fun i hi ↦ ?_) (stirs_release _ t).tasks
      exact .inl ((List.mem_append.mp hi).elim (hscopes i) (hheld i))
    | false =>
      refine .of_handles (htaken.trans (.single (.lose trivial))) (fun i hi ↦ ?_) rfl
      exact .inl ((List.mem_append.mp hi).elim (hscopes i) (hheld i))

theorem minds_reset (scope : Nat) : Minds b (b.mapPlayback (.resetScope scope)) := by
  have hsession : (b.mapPlayback (.resetScope scope)).session = b.session.modifyScope scope Scope.reset := by
    rw [session, mapPlayback, resetScope_eq_touch, touch_session, session]
  have hst : b.playback.Stirs (b.playback.resetScope scope) := .of_touch (Session.carries_resetScope scope)
  refine ⟨?_, fun h ↦ ?_, fun i hi ↦ .inl hi, Minds.same_tasks hst.tasks⟩
  · rw [hsession]
    exact Session.grows_modifyScope (fun _ ↦ rfl) fun sc ↦ ⟨Nat.le_succ _, Nat.le_succ _⟩
  · have hout : (b.mapPlayback (.resetScope scope)).out = b.out := congrArg (b.hand ++ ·) hst.tickets
    obtain ⟨lost, hlost⟩ := h
    rw [hsession, hout]
    exact ⟨lost, hlost.resetScope scope⟩

theorem minds_resetScopes : Minds b (b.mapPlayback .resetScopes) := by
  have hst : b.playback.Stirs b.playback.resetScopes :=
    resetScopes_eq_touch ▸ .of_touch Session.carries_resetScopes
  have hreset : Handles True b.hand b.hand b.playback b.playback.resetScopes := by
    refine ReflTransGen.single ?_
    rw [hst.tickets, resetScopes_eq_touch, touch_session]
    exact .reset
  exact .of_handles hreset (fun i hi ↦ .inl hi) hst.tasks

/-- A task is added that the bench employs. -/
theorem Minds.adds {owned asks : Bool} {scope : Option Nat} {agenda : List Errand}
    (hp : b'.playback = b.playback.addTask owned asks scope agenda)
    (hscopes : b'.scopes = b.scopes) (htickets : b'.tickets = b.tickets)
    (hscope : ∀ i, scope = some i → i ∈ b.held)
    (hagenda : ∀ e ∈ agenda, e.ending.ticket? = none ∧ ∀ i ∈ e.scopes, i ∈ b.held) : Minds b b' := by
  have hnone : agenda.flatMap Errand.tickets = [] := by
    refine List.flatMap_eq_nil_iff.mpr fun e he ↦ ?_
    have hending := (hagenda e he).1
    cases e <;> simp_all [Errand.tickets, Errand.ending]
  have hadded : (b.playback.addTask owned asks scope agenda).tickets = b.playback.tickets := by
    simp [Playback.tickets, addTask, Task.tickets, hnone]
  have hout : b'.out = b.out := by rw [out, hp, hadded, hand, htickets, out, hand]
  have hsession : b'.session = b.session := by rw [session, hp]; rfl
  have hheld : b'.held = b.held := by rw [Bench.held, hscopes, htickets, Bench.held]
  refine ⟨hsession ▸ .refl _, fun h ↦ by rwa [hsession, hout], fun i hi ↦ .inl (hheld ▸ hi), fun t ht ↦ ?_⟩
  rw [hp] at ht
  rcases List.mem_append.mp ht with ht | ht
  · exact .inl ⟨t, ht, rfl, rfl, rfl⟩
  · rw [List.mem_singleton.mp ht]
    exact .inr ⟨rfl, hscope, fun e he ↦ (hagenda e he).1, fun e he ↦ (hagenda e he).2⟩

theorem minds_start (hheld : scope ∈ b.held) (asks : Bool) {agenda : List Errand}
    (hagenda : ∀ e ∈ agenda, e.ending.ticket? = none ∧ e.scopes = [scope]) :
    Minds b (b.start asks (some scope) agenda).1 :=
  .adds rfl rfl rfl (fun _ hi ↦ Option.some.inj hi ▸ hheld) fun e he ↦
    ⟨(hagenda e he).1, fun i hi ↦ by
      rw [(hagenda e he).2] at hi
      exact List.mem_singleton.mp hi ▸ hheld⟩

theorem minds_spawn (d : Duration) (path : String) :
    Minds b (b.mapPlayback (.spawn none [.sleep d (.background path) []])) := by
  unfold mapPlayback spawn
  split
  · exact .refl b
  · exact .adds rfl rfl rfl (by simp) (by simp [Errand.ending, Ending.ticket?, Errand.scopes])

theorem minds_shutdown : Minds b (b.mapPlayback .shutdown) := by
  have hhandles : Handles True b.hand b.hand b.playback b.playback.shutdown :=
    ((Player.handles_shutdown b.playback).frame b.hand).mono False.elim
  refine ⟨hhandles.grows, Session.solvent_of_handling hhandles, fun i hi ↦ .inl hi, fun t ht ↦ .inl ?_⟩
  have ht : t ∈ b.playback.shutdown.tasks := ht
  cases hc : b.playback.session.cancelled with
  | true =>
    rw [shutdown, if_pos hc] at ht
    exact ⟨t, ht, rfl, rfl, rfl⟩
  | false =>
    rw [shutdown_tasks hc] at ht
    obtain ⟨old, hold, rfl⟩ := List.mem_map.mp ht
    exact ⟨old, hold, rfl, rfl, rfl⟩

theorem scopes_present (f : Stage → Stage) (s : Session) : (s.present f).scopes = s.scopes :=
  (Prod.mk.inj (Session.rooms_present f)).1

/-- Whatever a bench is asked for, it minds its scopes and tickets; time aside, which passes
in turns. -/
theorem minds_handle (hopened : ∀ i ∈ b.held, i ∈ b.session.opened) (htime : ∀ ms, r ≠ .advance ms)
    (h : b.handle r = .ok (b', response)) : Minds b b' := by
  have hfst {c : Bench × Response} (h : (Except.ok c : Except Missing _) = .ok (b', response)) :
      b' = c.1 := by rw [Except.ok.inj h]
  cases r with
  | scope parent =>
    cases parent with
    | none => exact hfst h ▸ minds_scope none
    | some n =>
      obtain ⟨id, -, h⟩ := exists_of_bind h
      exact hfst h ▸ minds_scope (some id)
  | dropScope n =>
    obtain ⟨id, -, h⟩ := exists_of_bind h
    exact hfst h ▸ minds_dropScope n
  | enter n tapBlocking =>
    obtain ⟨id, hid, h⟩ := exists_of_bind h
    have hheld := mem_held_of_scopeAt hid
    exact hfst h ▸ minds_enter hheld (hopened id hheld) tapBlocking
  | release n => exact hfst h ▸ minds_ticket true n
  | dropTicket n => exact hfst h ▸ minds_ticket false n
  | reset n =>
    obtain ⟨id, -, h⟩ := exists_of_bind h
    exact hfst h ▸ minds_reset id
  | resetScopes => exact hfst h ▸ minds_resetScopes
  | drained n tally =>
    obtain ⟨id, hid, h⟩ := exists_of_bind h
    exact hfst h ▸ minds_start (mem_held_of_scopeAt hid) false (by simp [Errand.ending, Ending.ticket?, Errand.scopes])
  | untilDrained n =>
    obtain ⟨id, hid, h⟩ := exists_of_bind h
    exact hfst h ▸ minds_start (mem_held_of_scopeAt hid) true (by simp [Errand.ending, Ending.ticket?, Errand.scopes])
  | sleep d =>
    exact hfst h ▸ .adds rfl rfl rfl (by simp) (by simp [Errand.ending, Ending.ticket?, Errand.scopes])
  | cancelled =>
    exact hfst h ▸ .adds rfl rfl rfl (by simp) (by simp [Errand.ending, Ending.ticket?, Errand.scopes])
  | perform n action step =>
    obtain ⟨id, hid, h⟩ := exists_of_bind h
    exact hfst h ▸ minds_start (mem_held_of_scopeAt hid) false (by simp [Errand.ending, Ending.ticket?, Errand.scopes])
  | walk n actions indexed =>
    obtain ⟨id, hid, h⟩ := exists_of_bind h
    refine hfst h ▸ minds_start (mem_held_of_scopeAt hid) false fun e he ↦ ?_
    obtain ⟨a, -, rfl⟩ := List.mem_map.mp he
    exact ⟨rfl, rfl⟩
  | spawn d path => exact hfst h ▸ minds_spawn d path
  | skip => exact hfst h ▸ .touch Session.carries_skip rfl rfl rfl rfl
  | serial => exact hfst h ▸ .touch Session.carries_nextSerial rfl rfl rfl rfl
  | park => exact hfst h ▸ .touch Session.carries_park rfl rfl rfl rfl
  | unpark n =>
    obtain ⟨park, -, h⟩ := exists_of_bind h
    exact hfst h ▸ .touch (Session.carries_unpark park.id) rfl rfl rfl rfl
  | unparkId id => exact hfst h ▸ .touch (Session.carries_unpark id) rfl rfl rfl rfl
  | dropPark n =>
    obtain ⟨park, -, h⟩ := exists_of_bind h
    rw [hfst h, handleDropPark]
    split
    · exact .touch (Session.carries_abandon park.id) rfl rfl rfl rfl
    · exact .refl b
  | next => exact hfst h ▸ .touch Session.carries_takeTap rfl tap_eq_touch rfl rfl
  | present command =>
    exact hfst h ▸ .touch (Session.carries_present _) (scopes_present _ _) rfl rfl rfl
  | presentIf command =>
    rw [hfst h, handlePresentIf]
    dsimp only
    split
    · exact .touch (Session.carries_present _) (scopes_present _ _) rfl rfl rfl
    · refine .touch (carries_amend command.apply) ?_ rfl rfl rfl
      unfold Session.amend
      split <;> rfl
  | backlog line => exact hfst h ▸ .touch (Session.carries_pushBacklog line) rfl rfl rfl rfl
  | playVoice path =>
    exact hfst h ▸ .touch (Session.carries_playVoice path) (Prod.mk.inj (Session.rooms_playVoice path)).1
      rfl rfl rfl
  | voice path => exact hfst h ▸ .refl b
  | autoPlay on =>
    refine hfst h ▸ .touch (Session.carries_setAutoPlay on) ?_ (setAutoPlay_eq_touch on) rfl rfl
    unfold Session.setAutoPlay
    split <;> rfl
  | fastForward on =>
    refine hfst h ▸ .touch (Session.carries_setFastForward on) ?_ (setFastForward_eq_touch on) rfl rfl
    unfold Session.setFastForward
    split <;> rfl
  | advance ms => exact absurd rfl (htime ms)
  | shutdown => exact hfst h ▸ minds_shutdown

end Bench

end Storyline
