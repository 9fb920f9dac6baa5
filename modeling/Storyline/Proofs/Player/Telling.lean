import Storyline.Proofs.Player.Account
import Storyline.Proofs.Playback.Quiet

/-!
# Telling a story

While the main timeline has its turn, the account of the session and the endings
that are still to come make up the tale so far.  Performing an action tells it,
whenever that happens; waits that end in between tell nothing new.
-/

namespace Storyline

namespace Session

/-- The session goes on with the same voices and the same host. -/
structure SameSetting (s s' : Session) : Prop where
  cancelled : s'.cancelled = s.cancelled
  voices : s'.voices = s.voices
  host : s'.host = s.host

/-- Nothing that an account tells has changed. -/
structure SameTale (s s' : Session) : Prop extends SameSetting s s' where
  account : s'.account = s.account

theorem sameSetting_present (s : Session) (f : Stage → Stage) : s.SameSetting (s.present f) := by
  unfold present
  split <;> exact ⟨rfl, rfl, rfl⟩

theorem sameSetting_presentIf (s : Session) (f : Stage → Option Stage) :
    s.SameSetting (s.presentIf f) := by
  unfold presentIf
  split
  · exact ⟨rfl, rfl, rfl⟩
  · split <;> exact ⟨rfl, rfl, rfl⟩

namespace SameTale

variable {s s' s'' : Session}

theorem refl (s : Session) : s.SameTale s := ⟨⟨rfl, rfl, rfl⟩, rfl⟩

theorem trans (h : s.SameTale s') (h' : s'.SameTale s'') : s.SameTale s'' :=
  ⟨⟨h'.cancelled.trans h.cancelled, h'.voices.trans h.voices, h'.host.trans h.host⟩,
    h'.account.trans h.account⟩

/-- Shaken targets are told at rest. -/
theorem sway (n : Nat) (shake : Shake) (stamp : Nat) (finished : Bool)
    (offset : Binary32 × Binary32) :
    s.SameTale (presentIf (Stage.sway shake stamp finished offset) { s with draws := n }) := by
  unfold presentIf
  dsimp only
  split
  · exact ⟨⟨rfl, rfl, rfl⟩, rfl⟩
  · split
    next stage hstage =>
      refine ⟨⟨rfl, rfl, rfl⟩, ?_⟩
      unfold Stage.sway at hstage
      dsimp only at hstage
      split at hstage
      · obtain rfl := Option.some.inj hstage
        cases shake <;> rfl
      · cases hstage
    next => exact ⟨⟨rfl, rfl, rfl⟩, rfl⟩

end SameTale

end Session

namespace Playback

/-- A signal and a change that nothing is told of. -/
structure Mute (p q : Playback) : Prop where
  stirs : p.Stirs q
  same : p.session.SameTale q.session
  status : q.status = p.status

namespace Mute

variable {p q r : Playback}

theorem refl (p : Playback) : p.Mute p := ⟨.refl p, .refl _, rfl⟩

theorem trans (h : p.Mute q) (h' : q.Mute r) : p.Mute r :=
  ⟨h.stirs.trans h'.stirs, h.same.trans h'.same, h'.status.trans h.status⟩

end Mute

section mute

variable (p : Playback)

theorem mute_arm : p.Mute p.arm := ⟨p.stirs_arm, ⟨⟨rfl, rfl, rfl⟩, rfl⟩, rfl⟩

theorem mute_enter (scope : Nat) (tapBlocking : Bool) : p.Mute (p.enter scope tapBlocking) := by
  refine ⟨p.stirs_enter scope tapBlocking, ?_, ?_⟩ <;> rw [enter_eq_touch]
  · rw [touch_session]
    exact ⟨⟨rfl, rfl, rfl⟩, rfl⟩
  · exact touch_status

theorem mute_releaseCount (scope : Nat) (tally : Tally) (epoch : Nat) :
    p.Mute (p.releaseCount scope tally epoch) := by
  refine ⟨p.stirs_releaseCount scope tally epoch, ?_, ?_⟩ <;> unfold releaseCount <;> split
  · exact .refl _
  · split
    · rw [update_raise_eq_touch, touch_session]
      exact ⟨⟨rfl, rfl, rfl⟩, rfl⟩
    · exact .refl _
  · rfl
  · split
    · rw [update_raise_eq_touch, touch_status]
    · rfl

theorem mute_release (t : Ticket) : p.Mute (p.release t) := by
  unfold release
  cases t.tapEpoch with
  | none => exact p.mute_releaseCount _ _ _
  | some epoch => exact (p.mute_releaseCount _ _ _).trans (mute_releaseCount _ _ _ _)

theorem mute_unpark (id : Nat) : p.Mute (p.unpark id) := by
  refine ⟨p.stirs_unpark id, ?_, ?_⟩ <;> rw [unpark_eq_touch]
  · rw [touch_session]
    exact ⟨⟨rfl, rfl, rfl⟩, rfl⟩
  · exact touch_status

theorem mute_tap : p.Mute p.tap := by
  refine ⟨p.stirs_tap, ?_, ?_⟩ <;> rw [tap_eq_touch]
  · rw [touch_session]
    exact ⟨⟨rfl, rfl, rfl⟩, rfl⟩
  · exact touch_status

theorem mute_sway (n : Nat) (shake : Shake) (stamp : Nat) (finished : Bool)
    (offset : Binary32 × Binary32) :
    p.Mute (p.update fun s ↦
      Session.presentIf (Stage.sway shake stamp finished offset) { s with draws := n }) :=
  ⟨p.stirs_sway n _, .sway n shake stamp finished offset, rfl⟩

theorem mute_fastForwardTick : p.Mute p.fastForwardTick := by
  refine ⟨p.stirs_fastForwardTick, ?_, ?_⟩
  · rw [fastForwardTick_session]
    exact ⟨⟨rfl, rfl, rfl⟩, rfl⟩
  · simp only [fastForwardTick, tap_eq_touch, skip_eq_touch, resetScopes_eq_touch, touch_status]

theorem Looked.mute {p q : Playback} (h : p.Looked q) : p.Mute q := by
  cases h with
  | still => exact .refl p
  | arms => exact p.mute_arm
  | movesOn park => exact p.mute_unpark park
  | dwells park => exact p.mute_arm.trans (mute_unpark _ park)
  | sways n shake stamp finished offset => exact p.mute_sway n shake stamp finished offset
  | swaysOn n shake stamp finished offset =>
      exact (p.mute_sway n shake stamp finished offset).trans (mute_arm _)
  | ticks => exact p.mute_fastForwardTick.trans (mute_arm _)

end mute

end Playback

/-! ## Endings and errands -/

/-- Whether an ending only releases a ticket. -/
def Ending.isInert : Ending → Bool
  | nothing | release _ => true
  | _ => false

/-- Whether an ending is one of an action. -/
def Ending.isPlain : Ending → Bool
  | background _ | completed => false
  | _ => true

/-- Whether an errand tells nothing. -/
def Errand.isInert : Errand → Bool
  | sleep _ ending _ => ending.isInert
  | animate .. | fastForward => true
  | _ => false

/-- A task that tells nothing, such as a ticker or a settling. -/
structure Task.Inert (t : Task) : Prop where
  agenda : ∀ e ∈ t.agenda, e.isInert = true
  pauses : ∀ q ∈ t.pauses, q.ending.isInert = true

namespace Ending

theorem clears_of_isInert {e : Ending} (h : e.isInert = true) (text : String) :
    e.clears text = false := by
  cases e <;> simp_all [isInert, clears]

theorem hides_of_isInert {e : Ending} (h : e.isInert = true) (cover : Cover) (stamp : Nat) :
    e.hides cover stamp = false := by
  cases e <;> simp_all [isInert, hides]

end Ending

theorem Account.after_inert {es : List Ending} (h : ∀ e ∈ es, e.isInert = true) (a : Account) :
    a.after es = a :=
  a.after_eq_self (fun e he ↦ Ending.clears_of_isInert (h e he))
    fun e he ↦ Ending.hides_of_isInert (h e he)

namespace Session

variable {s : Session}

theorem account_clearTelop (hc : s.cancelled = false) (text : String) (ticket : Ticket) :
    (s.presentIf (Stage.clearTelop text)).account = s.account.after [.clearTelop text ticket] := by
  unfold presentIf Stage.clearTelop
  rw [if_neg (by simp [hc])]
  by_cases h : s.stage.telop = some text
  · simp [h, account, Account.after, Stage.after, CoverState.after, Stage.atRest, Option.filter_some]
  · have hfilter : s.stage.telop.filter (fun other ↦ !(text == other)) = s.stage.telop := by
      cases htelop : s.stage.telop with
      | none => rfl
      | some other =>
          have hne : text ≠ other := fun he ↦ h (by rw [htelop, he])
          simp [hne]
    simp [h, account, Account.after, Stage.after, CoverState.after, Stage.atRest, hfilter]

theorem account_coverShown (hc : s.cancelled = false) (cover : Cover) (stamp : Nat)
    (ticket : Ticket) :
    (s.presentIf (Stage.coverShown cover stamp)).account =
      s.account.after [.coverShown cover stamp ticket] := by
  have htelop : ∀ telop : Option String, telop.filter (fun _ ↦ true) = telop := by
    intro telop
    cases telop <;> rfl
  unfold presentIf Stage.coverShown
  rw [if_neg (by simp [hc])]
  dsimp only
  by_cases h : ((s.stage.cover cover.other).visible &&
    decide ((s.stage.cover cover.other).stamp < stamp)) = true
  · rw [if_pos h]
    rw [Bool.and_eq_true, decide_eq_true_iff] at h
    cases cover <;> simp only [Cover.other, Stage.cover] at h <;>
      simp [h, Cover.other, Stage.cover, Stage.setCover, account, Account.after, Stage.after,
        CoverState.after_coverShown, Stage.atRest, htelop]
  · rw [if_neg h]
    rw [Bool.and_eq_true, decide_eq_true_iff] at h
    cases cover <;> simp only [Cover.other, Stage.cover] at h <;>
      simp [h, Cover.other, account, Account.after, Stage.after, CoverState.after_coverShown,
        Stage.atRest, htelop]

theorem present_eq (hc : s.cancelled = false) (f : Stage → Stage) :
    s.present f = { s with stage := f s.stage, revision := s.revision + 1 } := by
  unfold present
  rw [if_neg (by simp [hc])]

theorem presentIf_eq (hc : s.cancelled = false) (f : Stage → Option Stage) :
    s.presentIf f =
      { s with
        stage := (f s.stage).getD s.stage
        revision := s.revision + if (f s.stage).isSome then 1 else 0 } := by
  unfold presentIf
  rw [if_neg (by simp [hc])]
  cases f s.stage <;> rfl

/-- The account after some calls of the sound player. -/
def hear (calls : List AudioCall) (s : Session) : Account :=
  { s.account with calls := if s.host.audible then s.account.calls ++ calls else s.account.calls }

theorem account_stopSound (channel : Channel) :
    (s.stopSound channel).account = s.hear [.stop channel] ∧
      (s.stopSound channel).host = s.host := by
  unfold stopSound call
  cases h : s.host.audible <;> cases channel <;> simp [h, account, hear]

theorem account_playSound (channel : Channel) (sound : Sound) (looping : Bool) :
    (s.playSound channel sound looping).account = s.hear [.play channel sound looping] := by
  unfold playSound call
  cases h : s.host.audible <;> cases channel <;> cases sound <;> simp [h, account, hear]

end Session

namespace Playback

/-! ## The tale of a turn -/

/-- The account of a playback after the endings that its turn has still to come. -/
def tale (p : Playback) : Account := p.session.account.after (p.turn.pauses.map Pause.ending)

/-- What a turn sets out from. -/
structure Outset where
  audible : Bool
  voices : VoiceCache
  status : Status
  tasks : List Task

/-- A turn goes on as it has set out, and adds no tasks that tell anything. -/
structure Bears (o : Outset) (p : Playback) : Prop where
  cancelled : p.session.cancelled = false
  audible : p.session.host.audible = o.audible
  voices : p.session.voices = o.voices
  tasks : ∃ new, p.tasks = o.tasks ++ new ∧ ∀ t ∈ new, t.Inert

/-- In its turn a task has the rest of a tale still to tell, unless it fails. -/
structure Tells (o : Outset) (rest : Account → Account) (target : Account) (p : Playback) : Prop
    extends Bears o p where
  status : p.status = o.status
  plain : ∀ q ∈ p.turn.pauses, q.ending.isPlain = true
  stamps : ∀ q ∈ p.turn.pauses, ∀ cover, q.ending.hides cover p.session.serial = false
  tale : p.turn.failed = true ∨ rest p.tale = target

namespace Tells

variable {o : Outset} {rest : Account → Account} {target : Account} {p q : Playback}

theorem mute (h : p.Tells o rest target) (hq : p.Mute q) :
    q.Tells o rest target where
  cancelled := hq.same.cancelled.trans h.cancelled
  audible := (congrArg Host.audible hq.same.host).trans h.audible
  voices := hq.same.voices.trans h.voices
  status := hq.status.trans h.status
  tasks := by
    rw [hq.stirs.tasks]
    exact h.tasks
  plain := by
    rw [hq.stirs.pauses]
    exact h.plain
  stamps := by
    have hserial : q.session.serial = p.session.serial := congrArg Account.serial hq.same.account
    rw [hq.stirs.pauses, hserial]
    exact h.stamps
  tale := by
    rw [hq.stirs.failed, Playback.tale, hq.stirs.pauses, hq.same.account]
    exact h.tale

theorem failed (h : p.Tells o rest target) (hf : p.turn.failed = true)
    (rest' : Account → Account) : p.Tells o rest' target :=
  { h with tale := .inl hf }

theorem leave {pause : Pause}
    (h : p.Tells o (fun a ↦ rest (a.after [pause.ending])) target)
    (hplain : pause.ending.isPlain = true)
    (hstamp : ∀ cover, pause.ending.hides cover p.session.serial = false) :
    (p.leave pause).Tells o rest target where
  cancelled := h.cancelled
  audible := h.audible
  voices := h.voices
  status := h.status
  tasks := h.tasks
  plain := by
    intro x hx
    rcases List.mem_append.mp hx with hx | hx
    · exact h.plain x hx
    · rwa [List.mem_singleton.mp hx]
  stamps := by
    intro x hx
    rcases List.mem_append.mp hx with hx | hx
    · exact h.stamps x hx
    · rwa [List.mem_singleton.mp hx]
  tale := by
    refine h.tale.imp_right fun h ↦ ?_
    have htale : (p.leave pause).tale = p.tale.after [pause.ending] := by
      simp only [Playback.tale, Playback.leave, updateTurn, List.map_append, List.map_cons,
        List.map_nil, Account.after_append]
    rw [htale]
    exact h

/-- A change of the session tells what the change of its account tells. -/
theorem change {f : Session → Session} {rest' : Account → Account}
    (h : p.Tells o rest' target)
    (hsame : p.session.SameSetting (f p.session))
    (hserial : p.session.serial ≤ (f p.session).serial)
    (htale : rest' p.tale = target →
      rest ((f p.session).account.after (p.turn.pauses.map Pause.ending)) = target) :
    (p.update f).Tells o rest target where
  cancelled := hsame.cancelled.trans h.cancelled
  audible := (congrArg Host.audible hsame.host).trans h.audible
  voices := hsame.voices.trans h.voices
  status := h.status
  tasks := h.tasks
  plain := h.plain
  stamps := fun q hq cover ↦ Ending.hides_mono (h.stamps q hq cover) hserial
  tale := h.tale.imp_right htale

/-- An ending that only releases a ticket tells nothing. -/
theorem after_inert_iff {ending : Ending} (hinert : ending.isInert = true) :
    p.Tells o (fun a ↦ rest (a.after [ending])) target ↔
      p.Tells o rest target := by
  have hafter : ∀ a : Account, a.after [ending] = a := Account.after_inert (by simpa using hinert)
  simp only [hafter]

theorem finish {ending : Ending}
    (h : p.Tells o (fun a ↦ rest (a.after [ending])) target)
    (hplain : ending.isPlain = true) : (p.finish ending).Tells o rest target := by
  have hends : ∀ f : Stage → Option Stage,
      (p.session.presentIf f).account = p.session.account.after [ending] →
      (p.update (.presentIf f)).Tells o rest target := by
    intro f hf
    have hserial : p.session.serial ≤ (p.session.presentIf f).serial :=
      (Session.carries_presentIf f).serial
    refine h.change (p.session.sameSetting_presentIf f) hserial fun htale ↦ ?_
    rw [hf, Account.after_comm]
    exact htale
  cases ending with
  | nothing => exact (after_inert_iff rfl).mp h
  | release ticket => exact ((after_inert_iff rfl).mp h).mute (p.mute_release ticket)
  | clearTelop text ticket =>
      exact (hends _ (Session.account_clearTelop h.cancelled text ticket)).mute (mute_release _ ticket)
  | coverShown cover stamp ticket =>
      exact (hends _ (Session.account_coverShown h.cancelled cover stamp ticket)).mute (mute_release _ ticket)
  | background path => cases hplain
  | completed => cases hplain

/-- A wait that begins or goes on leaves its ending to come. -/
theorem suspend {wait : Wait} {ending : Ending} (scopes : List Nat)
    (h : p.Tells o (fun a ↦ rest (a.after [ending])) target)
    (hplain : ending.isPlain = true)
    (hstamp : ∀ cover, ending.hides cover p.session.serial = false) :
    (p.suspend wait ending scopes).Tells o rest target := by
  have hmute := (p.looked_look wait).mute
  have hserial : (p.look wait).1.session.serial = p.session.serial :=
    congrArg Account.serial hmute.same.account
  unfold Playback.suspend
  split
  next q w hlook =>
    rw [hlook] at hmute hserial
    exact (h.mute hmute).leave hplain (by rwa [hserial])
  next q ran hlook =>
    have hran := look_ran h.cancelled hlook
    rw [hlook] at hmute
    rw [if_pos hran]
    exact (h.mute hmute).finish hplain
  next q hlook =>
    rw [hlook] at hmute hserial
    have hleft : (q.leave ⟨wait, ending, scopes⟩).Tells o rest target :=
      (h.mute hmute).leave hplain (by rwa [hserial])
    exact ⟨⟨hleft.cancelled, hleft.audible, hleft.voices, hleft.tasks⟩, hleft.status, hleft.plain,
      hleft.stamps, .inl rfl⟩

/-! ## Telling actions -/

theorem spawn {agenda : List Errand} (scope : Option Nat)
    (h : p.Tells o rest target) (hinert : ∀ e ∈ agenda, e.isInert = true) :
    (p.spawn scope agenda).Tells o rest target := by
  unfold Playback.spawn
  rw [if_neg (by simp [h.cancelled])]
  obtain ⟨new, htasks, hnew⟩ := h.tasks
  refine { h with tasks := ⟨new ++ [⟨p.spawned, true, false, scope, false, agenda, []⟩], ?_, fun t ht ↦ ?_⟩ }
  · rw [← List.append_assoc, ← htasks]
    rfl
  · rcases List.mem_append.mp ht with ht | ht
    · exact hnew t ht
    · rw [List.mem_singleton.mp ht]
      exact ⟨hinert, by simp⟩

theorem announce {step : Option Nat}
    (h : p.Tells o (fun a ↦ rest (a.announce step)) target) :
    (p.announce step).Tells o rest target := by
  cases step with
  | none => exact h
  | some n =>
      refine h.change (p.session.sameSetting_present _) (Session.carries_present _).serial
        fun htale ↦ ?_
      rw [Session.present_eq h.cancelled]
      exact htale

/-- A cue changes the session as it is told, and its ending is still to come. -/
theorem beginCue {cue : Cue} {f : Session → Session} (ticket : Ticket)
    (h : p.Tells o (fun a ↦ rest (a.tellCue o.audible o.voices cue)) target)
    (hsame : p.session.SameSetting (f p.session))
    (haccount : (f p.session).account = p.session.account.begin o.audible o.voices cue) :
    (p.update f).Tells o
      (fun a ↦ rest (a.after [cue.ending p.session.serial ticket])) target := by
  refine h.change hsame ?_ fun htale ↦ ?_
  · have hserial : (f p.session).serial = p.session.serial + cue.numbers :=
      congrArg Account.serial haccount
    omega
  · rw [haccount, ← htale]
    refine congrArg rest (Account.begin_after o.audible o.voices cue p.session.account ?_ ticket)
    intro e he cover
    obtain ⟨q, hq, rfl⟩ := List.mem_map.mp he
    exact h.stamps q hq cover

theorem sleep {d : Duration} {ending : Ending} (scopes : List Nat)
    (h : p.Tells o (fun a ↦ rest (a.after [ending])) target)
    (hplain : ending.isPlain = true)
    (hstamp : ∀ cover, ending.hides cover p.session.serial = false) :
    (p.sleep d ending scopes).Tells o rest target :=
  (h.mute p.mute_arm).suspend scopes hplain hstamp

/-- What a line calls is heard, if its voice is in the cache. -/
theorem speak_eq (line : Line) (s : Session) :
    let spoken := match line.voicePath with
      | some path => (s.playVoice path).2
      | none => s
    spoken.account = s.hear (Cue.calls s.voices (.talk line)) ∧
      ∃ calls voiceEnd, spoken = { s with calls := calls, voiceEnd := voiceEnd } := by
  cases hpath : line.voicePath with
  | none => 
      refine ⟨?_, s.calls, s.voiceEnd, rfl⟩
      cases h : s.host.audible <;> simp [Cue.calls, hpath, Session.hear, Session.account, h]
  | some path =>
      dsimp only
      unfold Session.playVoice
      cases hblob : s.voices.get? path with
      | none =>
          refine ⟨?_, s.calls, s.voiceEnd, rfl⟩
          cases h : s.host.audible <;>
            simp [Cue.calls, hpath, hblob, Session.hear, Session.account, h]
      | some blob =>
          dsimp only
          obtain ⟨calls, voiceEnd, hstop⟩ := s.stopSound_eq .voice
          obtain ⟨calls', voiceEnd', hplay⟩ :=
            (s.stopSound .voice).playSound_eq .voice (.blob blob) false
          refine ⟨?_, calls', voiceEnd', by rw [hplay, hstop]⟩
          obtain ⟨haccount, hhost⟩ := Session.account_stopSound (s := s) .voice
          rw [Session.account_playSound]
          cases h : s.host.audible <;>
            simp [Cue.calls, hpath, hblob, Session.hear, haccount, hhost, h]

theorem talk {line : Line} {ticket : Ticket} (scopes : List Nat)
    (h : p.Tells o (fun a ↦ rest (a.tellCue o.audible o.voices (.talk line)))
      target) :
    (p.talk line ticket scopes).Tells o rest target := by
  have hbegun : ∀ spoken : Session,
      spoken.account = ((p.session.present (Stage.setTalk line)).pushBacklog line).hear
        (Cue.calls o.voices (.talk line)) →
      (∃ calls voiceEnd, spoken = { (p.session.present (Stage.setTalk line)).pushBacklog line with
        calls := calls, voiceEnd := voiceEnd }) →
      (p.update fun _ ↦ spoken.park.2).Tells o
        (fun a ↦ rest (a.after [.release ticket])) target := by
    rintro spoken haccount ⟨calls, voiceEnd, hspoken⟩
    refine h.beginCue ticket ?_ ?_
    · have hsame := p.session.sameSetting_present (Stage.setTalk line)
      rw [hspoken]
      exact ⟨hsame.cancelled, hsame.voices, hsame.host⟩
    · have hcalls := congrArg Account.calls haccount
      simp only [Session.account, Session.hear] at hcalls
      rw [Session.present_eq h.cancelled] at hspoken hcalls
      have haudible := h.audible
      subst hspoken
      simp only [Session.pushBacklog] at hcalls ⊢
      simp only [Session.account, Session.park, Account.begin, hcalls, haudible]
      rfl
  have hvoices : ((p.session.present (Stage.setTalk line)).pushBacklog line).voices = o.voices :=
    (p.session.sameSetting_present _).voices.trans h.voices
  obtain ⟨haccount, hform⟩ :=
    speak_eq line ((p.session.present (Stage.setTalk line)).pushBacklog line)
  rw [hvoices] at haccount
  unfold Playback.talk Playback.speak
  cases hpath : line.voicePath with
  | none =>
      rw [hpath] at haccount hform
      exact (hbegun _ haccount hform).suspend scopes rfl fun _ ↦ rfl
  | some path =>
      rw [hpath] at haccount hform
      exact (hbegun _ haccount hform).suspend scopes rfl fun _ ↦ rfl

theorem telop {text : String} {ticket : Ticket} (scopes : List Nat)
    (h : p.Tells o (fun a ↦ rest (a.tellCue o.audible o.voices (.telop text)))
      target) :
    (p.telop text ticket scopes).Tells o rest target := by
  have hbegun : (p.update fun s ↦ (s.present (Stage.setTelop text)).park.2).Tells o
      (fun a ↦ rest (a.after [.clearTelop text ticket])) target := by
    refine h.beginCue ticket ?_ ?_
    · have hsame := p.session.sameSetting_present (Stage.setTelop text)
      exact ⟨hsame.cancelled, hsame.voices, hsame.host⟩
    · rw [Session.present_eq h.cancelled]
      simp [Session.account, Session.park, Account.begin, Cue.numbers, Cue.change, Cue.lines,
        Cue.calls, Stage.atRest, Stage.setTelop]
  exact hbegun.suspend scopes rfl fun _ ↦ rfl

theorem changeModel {change : ModelChange} {ticket : Ticket}
    (h : p.Tells o (fun a ↦ rest (a.tellCue o.audible o.voices (.model change)))
      target) :
    (p.changeModel change ticket).Tells o rest target := by
  have hbegun : (p.update (.presentIf change.apply)).Tells o
      (fun a ↦ rest (a.after [.release ticket])) target := by
    refine h.beginCue ticket (p.session.sameSetting_presentIf _) ?_
    rw [Session.presentIf_eq h.cancelled]
    obtain ⟨f, hf⟩ := change.apply_layouts
    simp only [Session.account, Account.begin, Cue.numbers, Cue.change, Cue.lines, Cue.calls, hf]
    cases hlayouts : f p.session.stage.layouts <;> simp [Stage.atRest, hlayouts]
  refine ((after_inert_iff rfl).mp hbegun).spawn none fun e he ↦ ?_
  rw [List.mem_singleton.mp he]
  rfl

/-- A cover or a shake takes a number and sleeps. -/
theorem number {cue : Cue} (ticket : Ticket) (f : Stage → Stage)
    (h : p.Tells o (fun a ↦ rest (a.tellCue o.audible o.voices cue)) target)
    (hnumbers : cue.numbers = 1) (hlines : cue.lines = []) (hcalls : cue.calls o.voices = [])
    (hchange : (f p.session.stage).atRest = cue.change p.session.serial p.session.stage.atRest) :
    (p.update fun s ↦ s.nextSerial.2.present f).Tells o
      (fun a ↦ rest (a.after [cue.ending p.session.serial ticket])) target := by
  refine h.beginCue ticket ?_ ?_
  · have hsame := p.session.nextSerial.2.sameSetting_present f
    exact ⟨hsame.cancelled, hsame.voices, hsame.host⟩
  · rw [Session.present_eq (s := p.session.nextSerial.2) h.cancelled]
    simp [Session.account, Session.nextSerial, Account.begin, hnumbers, hlines, hcalls, hchange]

theorem coverScreen {cover : Cover} {visible : Bool} {seconds : Binary64} {ticket : Ticket}
    (scopes : List Nat)
    (h : p.Tells o
      (fun a ↦ rest (a.tellCue o.audible o.voices (.cover cover visible seconds))) target) :
    (p.coverScreen cover visible (.ofSeconds seconds) ticket scopes).Tells o
      rest target := by
  have hbegun := h.number ticket
    (Stage.startCover cover visible (.ofSeconds seconds) p.session.serial) rfl rfl rfl
    (by cases cover <;> rfl)
  have hserial : p.session.serial ≤ (p.update fun s ↦ s.nextSerial.2.present
      (Stage.startCover cover visible (.ofSeconds seconds) p.session.serial)).session.serial :=
    (Session.carries_nextSerial.trans (Session.carries_present _)).serial
  cases visible with
  | false => exact hbegun.sleep scopes rfl fun _ ↦ rfl
  | true =>
      refine hbegun.sleep scopes rfl fun other ↦ ?_
      simp only [Cue.ending, Ending.hides_coverShown, Bool.and_eq_false_iff,
        decide_eq_false_iff_not, Nat.not_lt]
      exact .inr hserial

theorem shakeTarget {shake : Shake} {seconds : Binary64} {ticket : Ticket} (scopes : List Nat)
    (h : p.Tells o
      (fun a ↦ rest (a.tellCue o.audible o.voices (.shake shake seconds))) target) :
    (p.shakeTarget shake (.ofSeconds seconds) ticket scopes).Tells o
      rest target := by
  have hbegun := h.number ticket
    (Stage.startShake shake (.ofSeconds seconds) p.session.serial) rfl rfl rfl
    (by cases shake <;> rfl)
  refine (hbegun.spawn none fun e he ↦ ?_).sleep scopes rfl fun _ ↦ rfl
  rw [List.mem_singleton.mp he]
  rfl

/-- A cue that changes nothing is told by telling nothing. -/
theorem still {cue : Cue}
    (h : p.Tells o (fun a ↦ rest (a.tellCue o.audible o.voices cue)) target)
    (hcue : ∀ a : Account, a.tellCue o.audible o.voices cue = a) :
    p.Tells o rest target := by
  simpa only [hcue] using h

theorem changeScenery {scenery : Scenery} {path : String} {ticket : Ticket}
    (h : p.Tells o
      (fun a ↦ rest (a.tellCue o.audible o.voices (.scenery scenery path))) target) :
    (p.changeScenery scenery path ticket).Tells o rest target := by
  have hbegun : ∀ (s : Session), p.session.SameSetting s → s.stage = p.session.stage →
      s.account = p.session.hear (Cue.calls o.voices (.scenery scenery path)) →
      (p.update fun _ ↦ s.present (Stage.setScenery path scenery)).Tells o
        (fun a ↦ rest (a.after [.release ticket])) target := by
    intro s hs hstage haccount
    have hpresent := s.sameSetting_present (Stage.setScenery path scenery)
    refine h.beginCue ticket ⟨hpresent.cancelled.trans hs.cancelled,
      hpresent.voices.trans hs.voices, hpresent.host.trans hs.host⟩ ?_
    rw [Session.present_eq (hs.cancelled.trans h.cancelled)]
    have hserial : s.serial = p.session.serial := congrArg Account.serial haccount
    have hbacklog : s.backlog = p.session.backlog := congrArg Account.backlog haccount
    have hcalls := congrArg Account.calls haccount
    simp only [Session.account, Session.hear, h.audible] at hcalls
    simp only [Session.account, Account.begin, Cue.numbers, Cue.change, Cue.lines, hserial, hbacklog,
      hcalls, hstage, List.append_nil, Nat.add_zero]
    cases scenery <;> rfl
  unfold Playback.changeScenery
  refine Tells.mute ?_ (mute_release _ ticket)
  cases scenery with
  | background =>
      refine (after_inert_iff rfl).mp (hbegun p.session ⟨rfl, rfl, rfl⟩ rfl ?_)
      simp [Session.hear, Cue.calls]
  | bgm =>
      obtain ⟨calls, voiceEnd, hstop⟩ := p.session.stopSound_eq .bgm
      obtain ⟨calls', voiceEnd', hplay⟩ :=
        (p.session.stopSound .bgm).playSound_eq .bgm (.path path) true
      obtain ⟨haccount, hhost⟩ := Session.account_stopSound (s := p.session) .bgm
      refine (after_inert_iff rfl).mp
        (hbegun ((p.session.stopSound .bgm).playSound .bgm (.path path) true) ?_ ?_ ?_)
      · rw [hplay, hstop]
        exact ⟨rfl, rfl, rfl⟩
      · rw [hplay, hstop]
      · rw [Session.account_playSound]
        cases h : p.session.host.audible <;> simp [Cue.calls, Session.hear, haccount, hhost, h]
  | se =>
      obtain ⟨calls, voiceEnd, hplay⟩ := p.session.playSound_eq .se (.path path) false
      refine (after_inert_iff rfl).mp (hbegun (p.session.playSound .se (.path path) false) ?_ ?_
        (Session.account_playSound _ _ _))
      · rw [hplay]
        exact ⟨rfl, rfl, rfl⟩
      · rw [hplay]

theorem performCue {cue : Cue} {scope : Nat} {scopes : List Nat} {step : Option Nat}
    (h : p.Tells o
      (fun a ↦ rest ((a.announce step).tellCue o.audible o.voices cue)) target) :
    (p.performCue cue scope scopes step).Tells o rest target := by
  unfold Playback.performCue
  split
  next hover =>
    have hf : p.turn.failed = true := by simpa [isOver, h.cancelled] using hover
    exact h.failed hf rest
  have ha : (p.announce step).Tells o
    (fun a ↦ rest (a.tellCue o.audible o.voices cue)) target := h.announce
  have he := ha.mute (mute_enter _ scope cue.isTapBlocking)
  cases cue with
  | talk line => exact he.talk scopes
  | telop text => exact he.telop scopes
  | model change => exact he.changeModel
  | tremble axis character => exact (he.still fun a ↦ a.tellCue_still rfl rfl).mute (mute_release _ _)
  | cover cover visible seconds => exact he.coverScreen scopes
  | shake shake seconds => exact he.shakeTarget scopes
  | scenery scenery path => exact he.changeScenery
  | delay seconds =>
      exact ((after_inert_iff rfl).mpr (he.still fun a ↦ a.tellCue_still rfl rfl)).sleep scopes rfl fun _ ↦ rfl
  | waitForAll =>
      exact ((after_inert_iff rfl).mpr ((he.still fun a ↦ a.tellCue_still rfl rfl).mute
        (mute_release _ _))).suspend scopes rfl fun _ ↦ rfl
  | waitForTap =>
      exact ((after_inert_iff rfl).mpr ((he.still fun a ↦ a.tellCue_still rfl rfl).mute
        (mute_release _ _))).suspend scopes rfl fun _ ↦ rfl

theorem note {action : Action} {scope : Nat} {step : Option Nat} (h : p.Tells o rest target) :
    (p.note action scope step).Tells o rest target := by
  unfold Playback.note
  split
  · exact h
  · exact { h with }

theorem openWithin {scope : Nat} {step : Option Nat}
    (h : p.Tells o (fun a ↦ rest (a.enter step)) target) :
    (p.openWithin scope step).Tells o rest target := by
  have ha : (p.announce step).Tells o (fun a ↦ rest { a with serial := a.serial + 1 }) target :=
    h.announce
  unfold Playback.openWithin
  refine ((ha.mute (mute_enter _ scope false)).mute (mute_release _ _)).change ⟨rfl, rfl, rfl⟩
    (Nat.le_succ _) fun htale ↦ ?_
  exact htale

mutual

/-- Performing an action tells it. -/
theorem perform (action : Action) (scope : Nat) (scopes : List Nat) (step : Option Nat)
    {rest : Account → Account} {p : Playback} (hfork : action.forkFree = true)
    (h : p.Tells o (fun a ↦ rest (Account.tell o.audible o.voices action step a)) target) :
    (Playback.perform action scope scopes step p).Tells o rest target := by
  cases action with
  | cue cue => exact h.note.performCue
  | block parts =>
      simp only [Playback.perform]
      split
      next hover =>
        have hf : p.turn.failed = true := by simpa [isOver, h.cancelled] using hover
        exact h.failed hf rest
      have ho : ((p.note (.block parts) scope step).openWithin scope step).Tells o
        (fun a ↦ rest (Account.tellAll o.audible o.voices parts a)) target := h.note.openWithin
      refine (performAll parts _ _ (by simpa [Action.forkFree] using hfork) ?_).performCue
      have hwait : ∀ a : Account, a.tellCue o.audible o.voices .waitForAll = a := fun a ↦
        a.tellCue_still rfl rfl
      simpa only [Account.announce, Stage.announce, hwait] using ho
  | fork parts => cases hfork

theorem performAll (parts : List Action) (scope : Nat) (scopes : List Nat)
    {rest : Account → Account} {p : Playback} (hfork : Action.forkFreeAll parts = true)
    (h : p.Tells o (fun a ↦ rest (Account.tellAll o.audible o.voices parts a)) target) :
    (Playback.performAll parts scope scopes p).Tells o rest target := by
  cases parts with
  | nil => exact h
  | cons part others =>
      simp only [Action.forkFreeAll, Bool.and_eq_true] at hfork
      exact performAll others scope scopes hfork.2 (perform part scope scopes none hfork.1 h)

end

end Tells

end Playback

end Storyline
