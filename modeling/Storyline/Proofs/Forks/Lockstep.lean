import Storyline.Proofs.Forks.Mirrors
import Storyline.Proofs.Playback.Turns

/-!
# Looks in lockstep

A look of the main timeline shows the same in the story and in its solo, and
what follows it is the same.  Every part of a turn finds the two playbacks
abreast and leaves them so, with names for the scopes, parked actions, timers
and tasks that have come up.
-/

namespace Storyline

namespace Playback

/-- Two playbacks at the same moment of a turn of the main timeline. -/
structure Abreast (N : Naming) (p v : Playback) : Prop where
  mirrors : p.Mirrors N v
  turn : N.SameTurn p.turn v.turn

/-- Two playbacks that are abreast under a naming that has learnt more names. -/
def AbreastFrom (N : Naming) (p v : Playback) : Prop := ∃ M, N ≤ M ∧ p.Abreast M v

/-- Two looks with the same verdict. -/
def LooksAlike (N : Naming) (x x' : Playback × Verdict) : Prop :=
  ∃ M, N ≤ M ∧ x.1.Abreast M x'.1 ∧ M.SameVerdict x.2 x'.2

variable {N M : Naming} {p v q w : Playback} {s s' : Session} {scope scope' : Nat}

theorem AbreastFrom.weaken (h : p.AbreastFrom M v) (hle : N ≤ M) : p.AbreastFrom N v := by
  obtain ⟨L, hle', h⟩ := h
  exact ⟨L, hle.trans hle', h⟩

theorem AbreastFrom.ite {c c' : Prop} [Decidable c] [Decidable c'] (hc : c ↔ c')
    (ht : c → p.AbreastFrom N v) (hf : ¬c → q.AbreastFrom N w) :
    (if c then p else q).AbreastFrom N (if c' then v else w) := by
  by_cases h : c
  · rw [if_pos h, if_pos (hc.mp h)]
    exact ht h
  · rw [if_neg h, if_neg (mt hc.mpr h)]
    exact hf h

theorem LooksAlike.ite {x y x' y' : Playback × Verdict} {c c' : Prop} [Decidable c] [Decidable c']
    (hc : c ↔ c') (ht : LooksAlike N x x') (hf : LooksAlike N y y') :
    LooksAlike N (if c then x else y) (if c' then x' else y') := by
  by_cases h : c
  · rwa [if_pos h, if_pos (hc.mp h)]
  · rwa [if_neg h, if_neg (mt hc.mpr h)]

namespace Abreast

theorem here (h : p.Abreast N v) : p.AbreastFrom N v := ⟨N, le_rfl, h⟩

theorem session (h : p.Abreast N v) : p.session.Mirrors N v.session := h.mirrors.session

theorem touch (h : p.Abreast N v) {l l' : List Signal} (hs : s.Mirrors N s')
    (hl : Weave N.SameSignal N.StraySignal l l') : (p.touch s l).Abreast N (v.touch s' l') where
  mirrors := h.mirrors.touch hs hl
  turn := by
    refine ⟨by simpa using h.turn.agenda, by simpa using h.turn.pauses, ?_,
      by simpa using h.turn.failed⟩
    rw [touch_again, touch_again, h.turn.again]
    exact congrArg _ (hl.any
      (fun hc ↦ Naming.SamePause.heeds h.turn.pauses h.session.ids hc)
      fun hc ↦ Naming.SamePause.ignores h.turn.pauses h.session.strays hc)

theorem withSession (h : p.Abreast N v) (hs : s.Mirrors N s') :
    ({ p with session := s }).Abreast N { v with session := s' } :=
  h.touch hs .nil

theorem learn (h : p.Abreast N v) (hle : N ≤ M) (htasks : M.tasks = N.tasks)
    (hstrays : M.strayTasks = N.strayTasks) (hs : s.Mirrors M s') :
    ({ p with session := s }).Abreast M { v with session := s' } :=
  ⟨h.mirrors.learn hle htasks hstrays hs, h.turn.mono hle⟩

theorem update (h : p.Abreast N v) {f g : Session → Session}
    (hs : (f p.session).Mirrors N (g v.session)) : (p.update f).Abreast N (v.update g) :=
  h.withSession hs

/-- One signal that both playbacks raise. -/
theorem signal {c c' : Signal} (hc : N.SameSignal c c') :
    Weave N.SameSignal N.StraySignal [c] [c'] := .pair hc .nil

/-! ## Scopes -/

theorem enter (h : p.Abreast N v) (hscope : (scope, scope') ∈ N.ids) (tapBlocking : Bool) :
    (p.enter scope tapBlocking).Abreast N (v.enter scope' tapBlocking) := by
  rw [enter_eq_touch, enter_eq_touch]
  refine h.touch (h.session.modifyScope hscope fun hsc ↦ hsc.enter tapBlocking) ?_
  refine .pair (.counter hscope .actions) ?_
  cases tapBlocking with
  | false => exact .nil
  | true => exact .pair (.counter hscope .taps) .nil

theorem releaseCount (h : p.Abreast N v) (hscope : (scope, scope') ∈ N.ids) (tally : Tally)
    (epoch : Nat) : (p.releaseCount scope tally epoch).Abreast N (v.releaseCount scope' tally epoch) := by
  have hfound := h.session.scope? hscope
  unfold Playback.releaseCount
  revert hfound
  generalize p.session.scope? scope = a
  generalize v.session.scope? scope' = b
  rintro (hsc | _)
  · dsimp only
    rw [hsc.counter tally]
    split
    · exact h.touch (h.session.modifyScope hscope fun hsc ↦ hsc.modify tally _)
        (signal (.counter hscope tally))
    · exact h
  · exact h

theorem release (h : p.Abreast N v) {t t' : Ticket} (ht : N.SameTicket t t') :
    (p.release t).Abreast N (v.release t') := by
  unfold Playback.release
  rw [← ht.epoch, ← ht.tapEpoch]
  cases t.tapEpoch with
  | none => exact h.releaseCount ht.scope .actions t.epoch
  | some epoch => exact (h.releaseCount ht.scope .taps epoch).releaseCount ht.scope .actions t.epoch

/-- The scopes of a story, strays among them, are reset one after the other. -/
theorem resetSignals {scopes scopes' : List Scope}
    (h : Weave N.SameScope (fun sc ↦ sc.id ∈ N.strayScopes) scopes scopes') :
    Weave N.SameSignal N.StraySignal (Playback.resetSignals (scopes.map Scope.id))
      (Playback.resetSignals (scopes'.map Scope.id)) := by
  unfold Playback.resetSignals
  rw [List.flatMap_map, List.flatMap_map]
  refine h.flatMap (fun hsc ↦ .pair (.counter hsc.id .actions) (.pair (.counter hsc.id .taps) .nil))
    fun hsc c hc ↦ ?_
  rcases List.mem_cons.mp hc with rfl | hc
  · exact .counter hsc .actions
  · rw [List.mem_singleton.mp hc]
    exact .counter hsc .taps

theorem resetScopes (h : p.Abreast N v) : p.resetScopes.Abreast N v.resetScopes := by
  rw [resetScopes_eq_touch, resetScopes_eq_touch]
  exact h.touch h.session.resetScopes (resetSignals h.session.scopes)

theorem skip (h : p.Abreast N v) : p.skip.Abreast N v.skip :=
  h.touch h.session.skip (signal .skip)

/-! ## Looks -/

theorem arm (h : p.Abreast N v) :
    p.arm.Abreast (N.meetTimer p.session.armed v.session.armed) v.arm :=
  h.learn (N.le_meetTimer _ _) rfl rfl h.session.arm

theorem timer (due : Option Nat) :
    (N.meetTimer p.session.armed v.session.armed).SameTimer (p.timer due) (v.timer due) :=
  ⟨rfl, N.mem_meetTimer _ _⟩

theorem ends (h : p.Abreast N v) (ran : Bool) : LooksAlike N (p, .ends ran) (v, .ends ran) :=
  ⟨N, le_rfl, h, .ends ran⟩

theorem fails (h : p.Abreast N v) : LooksAlike N (p, .fails) (v, .fails) := ⟨N, le_rfl, h, .fails⟩

theorem waits (h : p.Abreast N v) {x x' : Wait} (hx : N.SameWait x x') :
    LooksAlike N (p, .waits x) (v, .waits x') := ⟨N, le_rfl, h, .waits hx⟩

section tap

variable {park park' : Nat}

theorem moveOn (h : p.Abreast N v) (hpark : (park, park') ∈ N.ids) :
    LooksAlike N (p.moveOn park) (v.moveOn park') :=
  (h.touch (h.session.unpark hpark) (signal (.tap hpark))).ends true

theorem dwell (h : p.Abreast N v) (hpark : (park, park') ∈ N.ids) (kind : Dwell) (d : Duration) :
    LooksAlike N (p.dwell park kind d) (v.dwell park' kind d) := by
  unfold Playback.dwell
  rw [h.session.now]
  have hle := N.le_meetTimer p.session.armed v.session.armed
  have hpark := hle.ids hpark
  obtain ⟨M, hle', hmoved⟩ := h.arm.moveOn hpark
  exact .ite (by rfl) ⟨M, hle.trans hle', hmoved⟩
    ⟨_, hle, h.arm, .waits (.tap hpark kind (.dwelling (timer _)))⟩

theorem listen (h : p.Abreast N v) (hpark : (park, park') ∈ N.ids) (start ticks : Nat) :
    LooksAlike N (p.listen park start ticks) (v.listen park' start ticks) := by
  unfold Playback.listen
  rw [h.session.config]
  have hle := N.le_meetTimer p.session.armed v.session.armed
  exact ⟨_, hle, h.arm, .waits (.tap (hle.ids hpark) .voice (.listening start ticks (timer _)))⟩

theorem beginLingering (h : p.Abreast N v) (hpark : (park, park') ∈ N.ids) (kind : Dwell) :
    LooksAlike N (p.beginLingering park kind) (v.beginLingering park' kind) := by
  cases kind with
  | fixed d => exact h.dwell hpark _ d
  | voice =>
      unfold Playback.beginLingering
      rw [h.session.config, h.session.now]
      dsimp only
      split
      · exact h.listen hpark _ 1
      · exact h.fails

theorem lookAtTap (h : p.Abreast N v) (hpark : (park, park') ∈ N.ids) (kind : Dwell)
    {auto auto' : Lingering} (hauto : N.SameLingering auto auto') :
    LooksAlike N (p.lookAtTap park kind auto) (v.lookAtTap park' kind auto') := by
  unfold Playback.lookAtTap
  refine .ite (by rw [h.session.cancelled]) (h.ends false) ?_
  refine .ite (by rw [h.session.isParked hpark]) (h.ends true) ?_
  refine .ite (by rw [h.session.autoPlay]) (h.waits (.tap hpark kind .off)) ?_
  cases hauto with
  | off => exact h.beginLingering hpark kind
  | listening start ticks ht =>
      refine .ite (by rw [Timer.isDue, Timer.isDue, ht.due, h.session.now])
        (h.waits (.tap hpark kind (.listening start ticks ht))) ?_
      rw [h.session.config]
      exact .ite (by rw [h.session.isSpeaking]) (h.listen hpark start (ticks + 1))
        (h.dwell hpark kind _)
  | dwelling ht =>
      exact .ite (by rw [Timer.isDue, Timer.isDue, ht.due, h.session.now]) (h.moveOn hpark)
        (h.waits (.tap hpark kind (.dwelling ht)))

/-- The latest parked action is the same, and so are the dead ones above it. -/
theorem tap_signals {N : Naming} (h : s.Mirrors N s') :
    Weave N.SameSignal N.StraySignal ((goneTaps s).map Signal.tap) ((goneTaps s').map Signal.tap) := by
  unfold goneTaps
  rw [List.map_map, List.map_map, h.takeTap.taps.length_eq]
  exact (Weave.of_forall₂ (Q := fun _ ↦ False) (List.forall₂_drop _ h.taps)).map
    (fun ht ↦ .tap ht.id) False.elim

theorem tap (h : p.Abreast N v) : p.tap.Abreast N v.tap := by
  rw [tap_eq_touch, tap_eq_touch]
  exact h.touch h.session.takeTap (tap_signals h.session)

end tap

theorem waitForTick (h : p.Abreast N v) (start ticks : Nat) :
    LooksAlike N (p.waitForTick start ticks) (v.waitForTick start ticks) := by
  unfold Playback.waitForTick
  rw [h.session.config]
  exact ⟨_, N.le_meetTimer _ _, h.arm, .waits (.ticks start ticks (timer _))⟩

theorem lookAtForward (h : p.Abreast N v) {ticker ticker' : Option (Nat × Nat × Timer)}
    (hw : N.SameWait (.forward ticker) (.forward ticker')) :
    LooksAlike N (p.lookAtForward ticker) (v.lookAtForward ticker') := by
  unfold Playback.lookAtForward
  refine .ite (by rw [h.session.fastForward]) (h.waits .unlit) ?_
  cases hw with
  | unlit =>
      rw [h.session.config, h.session.now]
      dsimp only
      split
      · exact h.waitForTick _ 1
      · exact h.fails
  | ticks start ticks ht =>
      exact .ite (by rw [Timer.isDue, Timer.isDue, ht.due, h.session.now])
        (h.resetScopes.skip.tap.waitForTick start (ticks + 1)) (h.waits (.ticks start ticks ht))

/-- A look of the main timeline shows the same in both playbacks. -/
theorem look (h : p.Abreast N v) {x x' : Wait} (hx : N.SameWait x x') :
    LooksAlike N (p.look x) (v.look x') := by
  cases hx with
  | tap hpark kind hauto => exact h.lookAtTap hpark kind hauto
  | sleep ht skips =>
      refine .ite (by rw [h.session.cancelled]) (h.ends false) ?_
      exact .ite (by rw [Timer.isDue, Timer.isDue, ht.due, h.session.now, h.session.skips])
        (h.ends true) (h.waits (.sleep ht skips))
  | drained hscope tally guarded =>
      refine .ite (by rw [h.session.cancelled]) (h.ends false) ?_
      exact .ite (by rw [h.session.pending hscope]) (h.ends true)
        (h.waits (.drained hscope tally guarded))
  | unlit => exact h.lookAtForward .unlit
  | ticks start ticks ht => exact h.lookAtForward (.ticks start ticks ht)

/-! ## Suspending -/

theorem finish (h : p.Abreast N v) {e e' : Ending} (he : N.SameEnding e e') :
    (p.finish e).Abreast N (v.finish e') := by
  cases he with
  | nothing => exact h
  | release ht => exact h.release ht
  | clearTelop text ht =>
      exact Abreast.release (h.update (h.session.clearTelop text)) ht
  | coverShown cover stamp ht =>
      exact Abreast.release
        (h.withSession (h.session.unseen (Session.unseen_coverShown cover stamp) (.refl _))) ht
  | completed =>
      unfold Playback.finish
      dsimp only
      rw [h.mirrors.status]
      split
      · exact ⟨h.mirrors.withStatus .completed, h.turn⟩
      · exact h

theorem leave (h : p.Abreast N v) {x x' : Pause} (hx : N.SamePause x x') :
    (p.leave x).Abreast N (v.leave x') :=
  ⟨{ h.mirrors with }, { h.turn with pauses := List.rel_append h.turn.pauses (.cons hx .nil) }⟩

theorem suspend (h : p.Abreast N v) {x x' : Wait} {e e' : Ending} (hx : N.SameWait x x')
    (he : N.SameEnding e e') (scopes scopes' : List Nat) :
    (p.suspend x e scopes).AbreastFrom N (v.suspend x' e' scopes') := by
  have hlook := h.look hx
  unfold Playback.suspend
  revert hlook
  generalize p.look x = a
  generalize v.look x' = b
  obtain ⟨q, verdict⟩ := a
  obtain ⟨w, verdict'⟩ := b
  rintro ⟨M, hle, hq, hverdict⟩
  refine ⟨M, hle, ?_⟩
  cases hverdict with
  | waits hx => exact hq.leave ⟨hx, he.mono hle⟩
  | ends ran =>
      cases ran with
      | true => exact hq.finish (he.mono hle)
      | false => exact hq
  | fails =>
      have hleft := hq.leave (⟨hx.mono hle, he.mono hle⟩ : M.SamePause ⟨x, e, scopes⟩ ⟨x', e', scopes'⟩)
      exact ⟨{ hleft.mirrors with }, { hleft.turn with failed := rfl }⟩

theorem sleep (h : p.Abreast N v) (d : Duration) {e e' : Ending} (he : N.SameEnding e e')
    (scopes scopes' : List Nat) : (p.sleep d e scopes).AbreastFrom N (v.sleep d e' scopes') := by
  have hle := N.le_meetTimer p.session.armed v.session.armed
  unfold Playback.sleep
  rw [h.session.now, h.session.skips]
  exact (h.arm.suspend (.sleep (timer _) _) (he.mono hle) scopes scopes').weaken hle

theorem park (h : p.Abreast N v) (kind : Dwell) {e e' : Ending} (he : N.SameEnding e e')
    (scopes scopes' : List Nat) : (p.park kind e scopes).AbreastFrom N (v.park kind e' scopes') := by
  have hle := N.le_meetId p.session.serial v.session.serial
  have hparked : (p.update fun s ↦ s.park.2).Abreast _ (v.update fun s ↦ s.park.2) :=
    h.learn hle rfl rfl h.session.park
  exact (hparked.suspend (.tap (N.mem_meetId _ _) kind .off) (he.mono hle) scopes scopes').weaken hle

theorem spawn (h : p.Abreast N v) {agenda agenda' : List Errand}
    (hagenda : List.Forall₂ N.SameErrand agenda agenda') (scope scope' : Option Nat) :
    (p.spawn scope agenda).AbreastFrom N (v.spawn scope' agenda') := by
  obtain ⟨M, hle, hspawned⟩ := h.mirrors.spawn hagenda scope scope'
  refine ⟨M, hle, hspawned, ?_⟩
  rw [spawn_turn, spawn_turn]
  exact h.turn.mono hle

theorem spawnStray (h : p.Abreast N v) {agenda : List Errand}
    (hagenda : ∀ e ∈ agenda, N.StrayErrand e) (scope : Option Nat) :
    (p.spawn scope agenda).AbreastFrom N v := by
  obtain ⟨M, hle, hspawned⟩ := h.mirrors.spawnStray hagenda scope
  refine ⟨M, hle, hspawned, ?_⟩
  rw [spawn_turn]
  exact h.turn.mono hle

end Abreast

end Playback

end Storyline
