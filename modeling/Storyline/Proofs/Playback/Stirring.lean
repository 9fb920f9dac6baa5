import Storyline.Proofs.Playback.Settled

/-!
# Stirring

All that a turn does, apart from leaving pauses behind and adding tasks, stirs
the playback: the session is carried on, tasks are woken, and the status may
change.  Looking at a wait and ending it are shown to be of this kind.
-/

namespace Storyline

/-! ## Carried sessions -/

namespace Session

variable {s : Session}

/-- A session in which only what nobody waits for has changed. -/
theorem carries_of_eq {s' : Session} (moment : s'.moment = s.moment)
    (serial : s.serial ≤ s'.serial) (scopes : s'.scopes = s.scopes)
    (taps : ∀ id, s.isParked id = true → s'.isParked id = true) (skips : s'.skips = s.skips)
    (autoPlay : s'.autoPlay = s.autoPlay) (fastForward : s'.fastForward = s.fastForward)
    (cancelled : s'.cancelled = s.cancelled) : s.Carries [] s' := by
  refine .of_agree moment serial (scopes ▸ List.Subset.refl _) ?_
    (fun id h ↦ .inr (taps id h)) ?_ (.inr skips) (.inr autoPlay) (.inr fastForward)
    (.inr cancelled)
  · intro h
    refine ⟨scopes ▸ h.nodup, fun sc hsc ↦ ?_⟩
    exact Nat.lt_of_lt_of_le (h.lt sc (scopes ▸ hsc)) serial
  · intro id tally h
    right
    simpa only [pending, scope?, scopes] using h

theorem carries_arm (n : Nat) : s.Carries [] { s with armed := n } :=
  carries_of_eq rfl (Nat.le_refl _) rfl (fun _ h ↦ h) rfl rfl rfl rfl

theorem carries_draws (n : Nat) : s.Carries [] { s with draws := n } :=
  carries_of_eq rfl (Nat.le_refl _) rfl (fun _ h ↦ h) rfl rfl rfl rfl

theorem carries_voices (voices : VoiceCache) : s.Carries [] { s with voices := voices } :=
  carries_of_eq rfl (Nat.le_refl _) rfl (fun _ h ↦ h) rfl rfl rfl rfl

theorem carries_present (f : Stage → Stage) : s.Carries [] (s.present f) := by
  unfold present
  split
  · exact .refl s
  · exact carries_of_eq rfl (Nat.le_refl _) rfl (fun _ h ↦ h) rfl rfl rfl rfl

theorem carries_presentIf (f : Stage → Option Stage) : s.Carries [] (s.presentIf f) := by
  unfold presentIf
  split
  · exact .refl s
  · split
    · exact carries_of_eq rfl (Nat.le_refl _) rfl (fun _ h ↦ h) rfl rfl rfl rfl
    · exact .refl s

theorem carries_pushBacklog (line : Line) : s.Carries [] (s.pushBacklog line) :=
  carries_of_eq rfl (Nat.le_refl _) rfl (fun _ h ↦ h) rfl rfl rfl rfl

theorem carries_nextSerial : s.Carries [] s.nextSerial.2 :=
  carries_of_eq rfl (Nat.le_succ _) rfl (fun _ h ↦ h) rfl rfl rfl rfl

/-- Calls of the sound player concern nothing but the sound. -/
theorem call_eq (c : AudioCall) : ∃ calls, s.call c = { s with calls := calls } := by
  unfold call
  split
  · exact ⟨_, rfl⟩
  · exact ⟨s.calls, rfl⟩

theorem stopSound_eq (channel : Channel) :
    ∃ calls voiceEnd, s.stopSound channel = { s with calls := calls, voiceEnd := voiceEnd } := by
  obtain ⟨calls, h⟩ := s.call_eq (.stop channel)
  unfold stopSound
  simp only [h]
  split
  · exact ⟨_, _, rfl⟩
  · exact ⟨calls, s.voiceEnd, rfl⟩

theorem playSound_eq (channel : Channel) (sound : Sound) (looping : Bool) :
    ∃ calls voiceEnd,
      s.playSound channel sound looping = { s with calls := calls, voiceEnd := voiceEnd } := by
  obtain ⟨calls, h⟩ := s.call_eq (.play channel sound looping)
  unfold playSound
  simp only [h]
  split
  · exact ⟨_, _, rfl⟩
  · exact ⟨calls, s.voiceEnd, rfl⟩

theorem carries_stopSound (channel : Channel) : s.Carries [] (s.stopSound channel) := by
  obtain ⟨calls, voiceEnd, h⟩ := s.stopSound_eq channel
  rw [h]
  exact carries_of_eq rfl (Nat.le_refl _) rfl (fun _ h ↦ h) rfl rfl rfl rfl

theorem carries_playSound (channel : Channel) (sound : Sound) (looping : Bool) :
    s.Carries [] (s.playSound channel sound looping) := by
  obtain ⟨calls, voiceEnd, h⟩ := s.playSound_eq channel sound looping
  rw [h]
  exact carries_of_eq rfl (Nat.le_refl _) rfl (fun _ h ↦ h) rfl rfl rfl rfl

theorem carries_playVoice (path : String) : s.Carries [] (s.playVoice path).2 := by
  unfold playVoice
  split
  next blob _ =>
    have hplay := carries_playSound (s := s.stopSound .voice) .voice (.blob blob) false
    exact (carries_stopSound .voice).trans hplay
  next => exact .refl s

theorem carries_park : s.Carries [] s.park.2 := by
  refine carries_of_eq rfl (Nat.le_succ _) rfl (fun id h ↦ ?_) rfl rfl rfl rfl
  simp only [isParked, park, List.any_append] at h ⊢
  simp [h]

theorem carries_openScope (parent : Option Nat) : s.Carries [] (s.openScope parent).2 := by
  refine .of_agree rfl (Nat.le_succ _) (by simp [openScope]) ?_ (fun id h ↦ .inr h) ?_
    (.inr rfl) (.inr rfl) (.inr rfl) (.inr rfl)
  · intro h
    constructor
    · simp only [openScope, List.map_append, List.nodup_append]
      refine ⟨h.nodup, by simp, ?_⟩
      intro a ha b hb hab
      obtain ⟨sc, hsc, rfl⟩ := List.mem_map.mp ha
      have hb' : b = s.serial := by simpa [Scope.fresh] using hb
      have hlt := h.lt sc hsc
      omega
    · intro sc hsc
      simp only [openScope, List.mem_append, List.mem_singleton] at hsc ⊢
      rcases hsc with hsc | rfl
      · exact Nat.lt_succ_of_lt (h.lt sc hsc)
      · exact Nat.lt_succ_self _
  · intro id tally h
    right
    simp only [pending, scope?, openScope, List.find?_append] at h ⊢
    cases hs : s.scopes.find? (fun sc ↦ sc.id == id) with
    | none => simp [hs] at h
    | some sc => simpa [hs] using h

/-! ## Scopes -/

theorem map_id_modifyScope {id : Nat} {f : Scope → Scope} (hf : ∀ sc, (f sc).id = sc.id) :
    (s.modifyScope id f).scopes.map Scope.id = s.scopes.map Scope.id := by
  simp only [modifyScope, List.map_map]
  refine List.map_congr_left fun sc _ ↦ ?_
  simp only [Function.comp]
  split
  · exact hf sc
  · rfl

theorem numbered_modifyScope {id : Nat} {f : Scope → Scope} (hf : ∀ sc, (f sc).id = sc.id)
    (h : s.Numbered) : (s.modifyScope id f).Numbered := by
  refine ⟨by rw [map_id_modifyScope hf]; exact h.nodup, fun sc hsc ↦ ?_⟩
  have hmem : sc.id ∈ s.scopes.map Scope.id :=
    map_id_modifyScope hf ▸ List.mem_map_of_mem hsc
  obtain ⟨old, hold, he⟩ := List.mem_map.mp hmem
  exact he ▸ h.lt old hold

/-- A change of one scope, with signals for the counts that it may bring to zero. -/
theorem carries_modifyScope {l : List Signal} {id : Nat} {f : Scope → Scope}
    (hf : ∀ sc, (f sc).id = sc.id)
    (h : ∀ tally, Signal.counter id tally ∈ l ∨
      ∀ sc, (sc.counter tally).pending ≠ 0 → ((f sc).counter tally).pending ≠ 0) :
    s.Carries l (s.modifyScope id f) := by
  refine .of_agree rfl (Nat.le_refl _) (map_id_modifyScope hf ▸ List.Subset.refl _)
    (numbered_modifyScope hf) (fun _ h ↦ .inr h) ?_ (.inr rfl) (.inr rfl) (.inr rfl) (.inr rfl)
  intro other tally hpending
  by_cases ho : other = id
  · subst ho
    refine (h tally).imp (fun h ↦ h) fun h ↦ ?_
    simp only [pending, scope?_modifyScope hf, if_true] at hpending ⊢
    cases hs : s.scope? other with
    | none => simp [hs] at hpending
    | some sc => exact h sc (by simpa [hs] using hpending)
  · right
    rwa [pending_modifyScope_ne hf ho]

theorem carries_enter (id : Nat) (tapBlocking : Bool) :
    s.Carries [] (s.modifyScope id (.enter tapBlocking)) := by
  refine carries_modifyScope (fun sc ↦ ?_) fun tally ↦ .inr fun sc hsc ↦ ?_
  · cases tapBlocking <;> rfl
  · cases tapBlocking <;> cases tally <;>
      simp_all [Scope.enter, Scope.modify, Scope.counter, Counter.acquire]

theorem carries_modifyCount (id : Nat) (tally : Tally) (f : Counter → Counter) :
    s.Carries [.counter id tally] (s.modifyScope id (.modify tally f)) := by
  refine carries_modifyScope (fun sc ↦ by cases tally <;> rfl) fun other ↦ ?_
  by_cases ho : other = tally
  · exact .inl (by simp [ho])
  · right
    intro sc hsc
    cases other <;> cases tally <;> simp_all [Scope.modify, Scope.counter]

theorem carries_resetScope (id : Nat) :
    s.Carries (Playback.resetSignals [id]) (s.modifyScope id Scope.reset) := by
  refine carries_modifyScope (fun _ ↦ rfl) fun tally ↦ .inl ?_
  cases tally <;> simp [Playback.resetSignals]

theorem exists_scope_of_pending {id : Nat} {tally : Tally} (h : s.pending id tally ≠ 0) :
    ∃ sc ∈ s.scopes, sc.id = id ∧ (sc.counter tally).pending = s.pending id tally := by
  unfold pending at h ⊢
  cases hs : s.scope? id with
  | none => simp [hs] at h
  | some sc =>
    refine ⟨sc, List.mem_of_find?_eq_some hs, ?_, rfl⟩
    simpa using List.find?_some hs

theorem map_id_resetScopes : s.resetScopes.scopes.map Scope.id = s.scopes.map Scope.id := by
  simp [resetScopes, Scope.reset, Function.comp_def]

theorem numbered_resetScopes (h : s.Numbered) : s.resetScopes.Numbered := by
  refine ⟨by rw [map_id_resetScopes]; exact h.nodup, fun sc hsc ↦ ?_⟩
  obtain ⟨old, hold, rfl⟩ := List.mem_map.mp hsc
  exact h.lt old hold

theorem mem_resetSignals {id : Nat} {tally : Tally} {scopes : List Nat} :
    Signal.counter id tally ∈ Playback.resetSignals scopes ↔ id ∈ scopes := by
  cases tally <;> simp [Playback.resetSignals]

theorem carries_resetScopes :
    s.Carries (Playback.resetSignals (s.scopes.map Scope.id)) s.resetScopes := by
  refine .of_agree rfl (Nat.le_refl _) (map_id_resetScopes ▸ List.Subset.refl _)
    numbered_resetScopes (fun _ h ↦ .inr h) ?_ (.inr rfl) (.inr rfl) (.inr rfl) (.inr rfl)
  intro id tally h
  obtain ⟨sc, hsc, rfl, -⟩ := exists_scope_of_pending h
  exact .inl (mem_resetSignals.mpr (List.mem_map_of_mem hsc))

/-! ## Taps and flags -/

theorem isParked_unpark {id other : Nat} (h : other ≠ id) :
    (s.unpark id).isParked other = s.isParked other := by
  rw [Bool.eq_iff_iff]
  simp only [isParked, unpark, List.any_filter, List.any_eq_true, Bool.and_eq_true, bne_iff_ne,
    beq_iff_eq]
  constructor
  · rintro ⟨t, ht, -, rfl⟩
    exact ⟨t, ht, rfl⟩
  · rintro ⟨t, ht, rfl⟩
    exact ⟨t, ht, h, rfl⟩

theorem carries_unpark (id : Nat) : s.Carries [.tap id] (s.unpark id) := by
  refine .of_agree rfl (Nat.le_refl _) (List.Subset.refl _) (fun h ↦ ⟨h.nodup, h.lt⟩) ?_
    (fun _ _ h ↦ .inr h) (.inr rfl) (.inr rfl) (.inr rfl) (.inr rfl)
  intro other h
  by_cases ho : other = id
  · exact .inl (by simp [ho])
  · exact .inr (by rwa [isParked_unpark ho])

/-- A tap leaves the bottom of the stack. -/
theorem taps_eq_takeTap_append :
    s.taps = s.takeTap.taps ++ s.taps.drop s.takeTap.taps.length := by
  have hpre : s.takeTap.taps <+: s.taps := by
    rw [← List.reverse_suffix, takeTap, List.reverse_reverse]
    exact (List.tail_suffix _).trans (List.dropWhile_suffix _)
  obtain ⟨gone, h⟩ := hpre
  rw [← h, List.drop_left]

theorem carries_takeTap :
    s.Carries ((Playback.goneTaps s).map Signal.tap) s.takeTap := by
  refine .of_agree rfl (Nat.le_refl _) (List.Subset.refl _) (fun h ↦ ⟨h.nodup, h.lt⟩) ?_
    (fun _ _ h ↦ .inr h) (.inr rfl) (.inr rfl) (.inr rfl) (.inr rfl)
  intro id h
  obtain ⟨t, ht, hid⟩ := List.any_eq_true.mp h
  have hid : t.id = id := by simpa using hid
  rw [taps_eq_takeTap_append] at ht
  rcases List.mem_append.mp ht with ht | ht
  · exact .inr (List.any_eq_true.mpr ⟨t, ht, by simp [hid]⟩)
  · exact .inl (List.mem_map_of_mem (List.mem_map.mpr ⟨t, ht, hid⟩))

theorem carries_skip : s.Carries [.skip] s.skip :=
  .of_agree rfl (Nat.le_refl _) (List.Subset.refl _) (fun h ↦ ⟨h.nodup, h.lt⟩)
    (fun _ h ↦ .inr h) (fun _ _ h ↦ .inr h) (.inl (by simp)) (.inr rfl) (.inr rfl) (.inr rfl)

theorem carries_setAutoPlay (on : Bool) :
    s.Carries (if s.cancelled then [] else [.autoPlay]) (s.setAutoPlay on) := by
  unfold setAutoPlay
  split
  · exact .refl s
  · exact .of_agree rfl (Nat.le_refl _) (List.Subset.refl _) (fun h ↦ ⟨h.nodup, h.lt⟩)
      (fun _ h ↦ .inr h) (fun _ _ h ↦ .inr h) (.inr rfl) (.inl (by simp)) (.inr rfl) (.inr rfl)

theorem carries_setFastForward (on : Bool) :
    s.Carries (if s.cancelled then [] else [.fastForward]) (s.setFastForward on) := by
  unfold setFastForward
  split
  · exact .refl s
  · exact .of_agree rfl (Nat.le_refl _) (List.Subset.refl _) (fun h ↦ ⟨h.nodup, h.lt⟩)
      (fun _ h ↦ .inr h) (fun _ _ h ↦ .inr h) (.inr rfl) (.inr rfl) (.inl (by simp)) (.inr rfl)

theorem carries_abandon (id : Nat) : s.Carries [] (s.abandon id) := by
  refine carries_of_eq rfl (Nat.le_refl _) rfl (fun other h ↦ ?_) rfl rfl rfl rfl
  obtain ⟨t, ht, hid⟩ := List.any_eq_true.mp h
  refine List.any_eq_true.mpr ⟨_, List.mem_map_of_mem ht, ?_⟩
  split <;> exact hid

end Session

/-! ## Stirred playbacks -/

namespace Playback

/-- One playback comes from another by carrying its session on, waking tasks and
perhaps changing the status. -/
def Stirs (p q : Playback) : Prop :=
  ∃ s signals status, q = { p.touch s signals with status := status } ∧ p.session.Carries signals s

namespace Stirs

variable {p q r : Playback}

theorem refl (p : Playback) : p.Stirs p := ⟨p.session, [], p.status, rfl, .refl _⟩

theorem of_touch {s : Session} {signals : List Signal} (h : p.session.Carries signals s) :
    p.Stirs (p.touch s signals) := by
  refine ⟨s, signals, p.status, ?_, h⟩
  rw [← @touch_status s signals p]

theorem of_update {f : Session → Session} (h : p.session.Carries [] (f p.session)) :
    p.Stirs (p.update f) := of_touch h

theorem trans (h : p.Stirs q) (h' : q.Stirs r) : p.Stirs r := by
  obtain ⟨s, l, status, rfl, hc⟩ := h
  obtain ⟨s', l', status', rfl, hc'⟩ := h'
  refine ⟨s', l ++ l', status', ?_, hc.trans ?_⟩
  · simp only [touch, raiseAll_eq]
    simp [enqueue, List.foldl_append, Bool.or_assoc]
  · simpa using hc'

theorem tasks (h : p.Stirs q) : q.tasks = p.tasks := by obtain ⟨s, l, st, rfl, -⟩ := h; simp

theorem spawned (h : p.Stirs q) : q.spawned = p.spawned := by obtain ⟨s, l, st, rfl, -⟩ := h; simp

theorem outcomes (h : p.Stirs q) : q.outcomes = p.outcomes := by
  obtain ⟨s, l, st, rfl, -⟩ := h
  simp

theorem dispatches (h : p.Stirs q) : q.dispatches = p.dispatches := by
  obtain ⟨s, l, st, rfl, -⟩ := h
  simp

theorem agenda (h : p.Stirs q) : q.turn.agenda = p.turn.agenda := by
  obtain ⟨s, l, st, rfl, -⟩ := h
  simp

theorem pauses (h : p.Stirs q) : q.turn.pauses = p.turn.pauses := by
  obtain ⟨s, l, st, rfl, -⟩ := h
  simp

theorem failed (h : p.Stirs q) : q.turn.failed = p.turn.failed := by
  obtain ⟨s, l, st, rfl, -⟩ := h
  simp

theorem moment (h : p.Stirs q) : q.session.moment = p.session.moment := by
  obtain ⟨s, l, st, rfl, hc⟩ := h
  simpa using hc.moment

theorem serial (h : p.Stirs q) : p.session.serial ≤ q.session.serial := by
  obtain ⟨s, l, st, rfl, hc⟩ := h
  simpa using hc.serial

theorem scopes (h : p.Stirs q) :
    p.session.scopes.map Scope.id ⊆ q.session.scopes.map Scope.id := by
  obtain ⟨s, l, st, rfl, hc⟩ := h
  simpa using hc.scopes

theorem config (h : p.Stirs q) : q.session.config = p.session.config :=
  congrArg Moment.config h.moment

theorem now (h : p.Stirs q) : q.session.now = p.session.now := congrArg Moment.now h.moment

end Stirs

section ops

variable (p : Playback)

theorem stirs_arm : p.Stirs p.arm := .of_touch (Session.carries_arm _)

theorem stirs_enter (scope : Nat) (tapBlocking : Bool) : p.Stirs (p.enter scope tapBlocking) := by
  rw [enter_eq_touch]
  have h := Session.carries_enter (s := p.session) scope tapBlocking
  exact .of_touch (h.weaken (by simp))

theorem stirs_releaseCount (scope : Nat) (tally : Tally) (epoch : Nat) :
    p.Stirs (p.releaseCount scope tally epoch) := by
  unfold releaseCount
  split
  · exact .refl p
  · split
    · exact .of_touch (Session.carries_modifyCount scope tally _)
    · exact .refl p

theorem stirs_release (t : Ticket) : p.Stirs (p.release t) := by
  unfold release
  cases t.tapEpoch with
  | none => exact p.stirs_releaseCount _ _ _
  | some epoch => exact (p.stirs_releaseCount _ _ _).trans (stirs_releaseCount _ _ _ _)

theorem stirs_resetScopes : p.Stirs p.resetScopes := by
  rw [resetScopes_eq_touch]
  exact .of_touch Session.carries_resetScopes

theorem stirs_tap : p.Stirs p.tap := by
  rw [tap_eq_touch]
  exact .of_touch Session.carries_takeTap

theorem stirs_unpark (id : Nat) : p.Stirs (p.unpark id) := .of_touch (Session.carries_unpark id)

theorem stirs_skip : p.Stirs p.skip := .of_touch Session.carries_skip

theorem stirs_setAutoPlay (on : Bool) : p.Stirs (p.setAutoPlay on) := by
  rw [setAutoPlay_eq_touch]
  exact .of_touch (Session.carries_setAutoPlay on)

theorem stirs_setFastForward (on : Bool) : p.Stirs (p.setFastForward on) := by
  rw [setFastForward_eq_touch]
  exact .of_touch (Session.carries_setFastForward on)

theorem stirs_fastForwardTick : p.Stirs p.fastForwardTick :=
  (p.stirs_resetScopes.trans (stirs_skip _)).trans (stirs_tap _)

theorem stirs_present (f : Stage → Stage) : p.Stirs (p.update (.present f)) :=
  .of_update (Session.carries_present f)

theorem stirs_presentIf (f : Stage → Option Stage) : p.Stirs (p.update (.presentIf f)) :=
  .of_update (Session.carries_presentIf f)

theorem stirs_announce (step : Option Nat) : p.Stirs (p.announce step) := by
  cases step with
  | none => exact .refl p
  | some n => exact p.stirs_present _

theorem stirs_speak (line : Line) : p.Stirs (p.speak line) := by
  unfold speak
  split
  · exact .of_update (Session.carries_playVoice _)
  · exact .refl p

theorem stirs_park : p.Stirs (p.update (fun s ↦ s.park.2)) := .of_update Session.carries_park

theorem stirs_tell (line : Line) :
    p.Stirs (p.update (fun s ↦ (s.present (Stage.setTalk line)).pushBacklog line)) :=
  .of_update ((Session.carries_present _).trans (Session.carries_pushBacklog _))

theorem stirs_number (f : Stage → Stage) : p.Stirs (p.update (fun s ↦ s.nextSerial.2.present f)) :=
  .of_update (Session.carries_nextSerial.trans (Session.carries_present _))

/-! ### Looking at waits -/

/-- The frame of a shake changes the stage at most, and is followed by another
one or is the last. -/
theorem lookAtFrame_cases (shake : Shake) (stamp : Nat) (d : Duration) (start ticks : Nat)
    (timer : Timer) :
    (timer.isDue p.session.now = false ∧
        p.lookAtFrame shake stamp d start ticks timer =
          (p, .waits (.frame shake stamp d start ticks timer))) ∨
      (timer.isDue p.session.now = true ∧
        (p.lookAtFrame shake stamp d start ticks timer = (p, .fails) ∨
          ∃ n finished offset,
            let moved := p.update (fun s ↦
              Session.presentIf (Stage.sway shake stamp finished offset) { s with draws := n })
            p.lookAtFrame shake stamp d start ticks timer = (moved, .ends true) ∨
              p.lookAtFrame shake stamp d start ticks timer =
                moved.waitForFrame shake stamp d start (ticks + 1))) := by
  unfold lookAtFrame
  split
  next hdue => exact .inl ⟨by simpa using hdue, rfl⟩
  next hdue =>
    refine .inr ⟨by simpa using hdue, ?_⟩
    dsimp only
    generalize decide (d.nanos ≤ (Duration.ofMillis (p.session.now - start)).nanos) = finished
    split
    · exact .inl rfl
    · have hdraw : ∃ n, (p.drawOffset finished).1 = p.update (fun s ↦ { s with draws := n }) := by
        unfold drawOffset
        dsimp only
        split
        · exact ⟨p.session.draws, rfl⟩
        · exact ⟨_, rfl⟩
      obtain ⟨n, hn⟩ := hdraw
      refine .inr ⟨n, finished, (p.drawOffset finished).2, ?_⟩
      rw [hn]
      split
      · exact .inl rfl
      · exact .inr rfl

/-- All that a look at a wait can do. -/
inductive Looked (p : Playback) : Playback → Prop
  | still : Looked p p
  | arms : Looked p p.arm
  | movesOn (park : Nat) : Looked p (p.unpark park)
  | dwells (park : Nat) : Looked p (p.arm.unpark park)
  | sways (n : Nat) (shake : Shake) (stamp : Nat) (finished : Bool) (offset : Binary32 × Binary32) :
    Looked p (p.update fun s ↦
      Session.presentIf (Stage.sway shake stamp finished offset) { s with draws := n })
  | swaysOn (n : Nat) (shake : Shake) (stamp : Nat) (finished : Bool)
    (offset : Binary32 × Binary32) :
    Looked p (p.update fun s ↦
      Session.presentIf (Stage.sway shake stamp finished offset) { s with draws := n }).arm
  | ticks : Looked p p.fastForwardTick.arm

theorem looked_dwell (park : Nat) (kind : Dwell) (d : Duration) :
    p.Looked (p.dwell park kind d).1 := by
  unfold dwell
  dsimp only
  split
  · exact .dwells park
  · exact .arms

theorem looked_lookAtTap (park : Nat) (kind : Dwell) (auto : Lingering) :
    p.Looked (p.lookAtTap park kind auto).1 := by
  unfold lookAtTap
  split
  · exact .still
  split
  · exact .still
  split
  · exact .still
  cases auto with
  | off =>
    cases kind with
    | fixed d => exact p.looked_dwell park _ d
    | voice =>
      simp only [beginLingering]
      split
      · exact .arms
      · exact .still
  | listening start ticks timer =>
    dsimp only
    split
    · exact .still
    · split
      · exact .arms
      · exact p.looked_dwell park kind _
  | dwelling timer =>
    dsimp only
    split
    · exact .movesOn park
    · exact .still

theorem looked_look (wait : Wait) : p.Looked (p.look wait).1 := by
  cases wait with
  | tap park kind auto => exact p.looked_lookAtTap park kind auto
  | sleep timer skips =>
    simp only [look, lookAtSleep]
    split
    · exact .still
    · split <;> exact .still
  | drained scope tally guarded =>
    simp only [look, lookAtCount]
    split
    · exact .still
    · split <;> exact .still
  | cancelled => exact .still
  | frame shake stamp d start ticks timer =>
    rcases p.lookAtFrame_cases shake stamp d start ticks timer with
      ⟨-, h⟩ | ⟨-, h | ⟨n, finished, offset, h | h⟩⟩ <;> simp only [look, h]
    · exact .still
    · exact .still
    · exact .sways n shake stamp finished offset
    · exact .swaysOn n shake stamp finished offset
  | forward ticker =>
    simp only [look, lookAtForward]
    split
    · exact .still
    split
    · split
      · exact .arms
      · exact .still
    · split
      · exact .ticks
      · exact .still

theorem stirs_sway (n : Nat) (f : Stage → Option Stage) :
    p.Stirs (p.update (fun s ↦ Session.presentIf f { s with draws := n })) :=
  .of_touch ((Session.carries_draws n).trans (Session.carries_presentIf f))

theorem Looked.stirs {p q : Playback} (h : p.Looked q) : p.Stirs q := by
  cases h with
  | still => exact .refl p
  | arms => exact p.stirs_arm
  | movesOn park => exact p.stirs_unpark park
  | dwells park => exact p.stirs_arm.trans (stirs_unpark _ park)
  | sways n => exact p.stirs_sway n _
  | swaysOn n => exact (p.stirs_sway n _).trans (stirs_arm _)
  | ticks => exact p.stirs_fastForwardTick.trans (stirs_arm _)

theorem stirs_look (wait : Wait) : p.Stirs (p.look wait).1 := (p.looked_look wait).stirs

theorem stirs_finish (ending : Ending) : p.Stirs (p.finish ending) := by
  cases ending with
  | nothing => exact .refl p
  | release ticket => exact p.stirs_release ticket
  | clearTelop text ticket => exact (p.stirs_presentIf _).trans (stirs_release _ ticket)
  | coverShown cover stamp ticket => exact (p.stirs_presentIf _).trans (stirs_release _ ticket)
  | background path => exact p.stirs_present _
  | completed =>
    unfold finish
    dsimp only
    split
    · exact ⟨p.session, [], .completed, rfl, .refl _⟩
    · exact .refl p

/-! ### Performing -/

theorem stirs_changeScenery (scenery : Scenery) (path : String) (ticket : Ticket) :
    p.Stirs (p.changeScenery scenery path ticket) := by
  have hshows : ∀ {q : Playback}, p.Stirs q →
      p.Stirs ((q.update (.present (Stage.setScenery path scenery))).release ticket) :=
    fun hst ↦ (hst.trans (stirs_present _ _)).trans (stirs_release _ ticket)
  cases scenery with
  | background => exact hshows (.refl p)
  | bgm =>
      exact hshows
        (.of_update ((Session.carries_stopSound _).trans (Session.carries_playSound _ _ _)))
  | se => exact hshows (.of_update (Session.carries_playSound _ _ _))

theorem stirs_openWithin (scope : Nat) (step : Option Nat) : p.Stirs (p.openWithin scope step) := by
  unfold openWithin
  refine (p.stirs_announce step).trans ((stirs_enter _ scope false).trans ?_)
  exact (stirs_release _ _).trans (.of_update (Session.carries_openScope _))

end ops

end Playback

end Storyline
